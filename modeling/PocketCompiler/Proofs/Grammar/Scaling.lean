import PocketCompiler.Proofs.Compile
import PocketCompiler.Proofs.Grammar.Readers

/-!
# Sums and differences count in elements

The types of expressions are attached at several times: those of the operands of a sum when the sum
is built, and the others when the item of a block that they belong to is complete.  What was typed
early is left alone later.  So it has to be shown that a sum sees the types of its operands, and
that no later visit takes away what it saw.

`Node.Addends lhs rhs` is what a sum or difference is made of: two numbers, or a pointer and a
number of elements times the size of one.  `Node.Scaled` says this of every sum and difference of an
expression.  Typing keeps it (`Node.Scaled.ends_annotate`), and every rule of the grammar builds
expressions of that shape (`Contract.holds_scaling`).
-/

namespace PocketCompiler

/-! ### Types whose elements have sizes -/

/-- The size of whatever can be come to from a value of the type by dereferencing is a word. -/
def Ty.BasesFit : Ty → Prop
  | .ptr base => Word.Fits base.size ∧ base.BasesFit
  | .array elem _ => Word.Fits elem.size ∧ elem.BasesFit
  | _ => True

/-- What is pointed to has a size that fits a word, and so has what that points to. -/
theorem Ty.BasesFit.base {ty base : Ty} (h : ty.BasesFit) (hbase : ty.base? = some base) :
    Word.Fits base.size ∧ base.BasesFit := by
  cases ty with
  | ptr elem => exact Option.some.inj hbase ▸ h
  | array elem len => exact Option.some.inj hbase ▸ h
  | _ => exact nomatch hbase

/-- A pointer to something whose size fits a word. -/
theorem Ty.BasesFit.ptr {base : Ty} (h : base.BasesFit) (hfits : Word.Fits base.size) :
    (Ty.ptr base).BasesFit :=
  ⟨hfits, h⟩

theorem Ty.fits_size_ptr (base : Ty) : Word.Fits (Ty.ptr base).size := by
  rw [Ty.size]
  decide

/-- Every star adds a pointer, and the size of a pointer fits. -/
theorem Ty.BasesFit.pointers {ty : Ty} (h : ty.BasesFit) (hfits : Word.Fits ty.size) :
    ∀ depth, (ty.pointers depth).BasesFit ∧ Word.Fits (ty.pointers depth).size
  | 0 => ⟨h, hfits⟩
  | depth + 1 =>
    have hinner := h.pointers hfits depth
    ⟨hinner.1.ptr hinner.2, fits_size_ptr _⟩

/-- A parameter that is declared as an array points to its elements. -/
theorem Ty.BasesFit.decay {ty : Ty} (h : ty.BasesFit) : ty.decay.BasesFit := by
  cases ty with
  | array elem len => exact h
  | _ => exact h

/-- The address of an array is that of its first element, so its own size does not matter. -/
theorem Ty.BasesFit.ofAddress {ty : Ty} (h : ty.BasesFit) : ty.ofAddress.BasesFit := by
  cases ty with
  | array elem len => exact h
  | ptr base => exact h.ptr (fits_size_ptr base)
  | char => exact ⟨by decide, trivial⟩
  | int => exact ⟨by decide, trivial⟩
  | func result params => exact ⟨by rw [Ty.size]; decide, trivial⟩

/-- Variables whose types have elements with sizes. -/
structure Symbols.BasesFit (symbols : Symbols) : Prop where
  locals : ∀ v ∈ symbols.locals, v.ty.BasesFit
  globals : ∀ v ∈ symbols.globals, v.ty.BasesFit

/-- What holds of all variables holds of the one that is found. -/
theorem Symbols.BasesFit.get {symbols : Symbols} (h : symbols.BasesFit) {ref : VarRef}
    {found : Variable} (hget : symbols.get ref = .ok found) : found.ty.BasesFit := by
  cases ref with
  | localVar index => exact h.locals found (List.mem_of_getElem? (entry_eq_ok_iff.1 hget))
  | globalVar index => exact h.globals found (List.mem_of_getElem? (entry_eq_ok_iff.1 hget))

/-! ### Scaled expressions -/

/-- An expression with a type that points nowhere. -/
def Node.IsNumber (node : Node) : Prop := ∃ ty, node.ty = some ty ∧ ty.base? = none

/-- The operands of a sum or difference: two numbers, or a pointer and a number of elements times the
size of one. -/
inductive Node.Addends : Node → Node → Prop
  | numbers {lhs rhs : Node} (hlhs : lhs.IsNumber) (hrhs : rhs.IsNumber) : Addends lhs rhs
  | pointer {lhs number : Node} {ty base : Ty} {mark mark' : Mark} {width : Int64}
      (hty : lhs.ty = some ty) (hbase : ty.base? = some base) (hnumber : number.IsNumber)
      (hwidth : width.toInt = base.size) :
    Addends lhs (.binary mark .mul number (.num mark' width))

/-- An operator that may have a pointer as its operand. -/
def BinaryOp.IsAdditive (op : BinaryOp) : Prop := op = .add ∨ op = .sub

instance (op : BinaryOp) : Decidable op.IsAdditive := inferInstanceAs (Decidable (_ ∨ _))

/-- A mark without a type, or with one whose elements have sizes. -/
def Mark.BasesFit (mark : Mark) : Prop := ∀ ty ∈ mark.ty, ty.BasesFit

/-- Expressions whose sums and differences count in elements. -/
inductive Node.Scaled : Node → Prop
  | num {mark value} (hmark : mark.BasesFit) : Scaled (.num mark value)
  | var {mark ref} (hmark : mark.BasesFit) : Scaled (.var mark ref)
  | neg {mark operand} (hmark : mark.BasesFit) (hoperand : Scaled operand) :
    Scaled (.neg mark operand)
  | addr {mark operand} (hmark : mark.BasesFit) (hoperand : Scaled operand) :
    Scaled (.addr mark operand)
  | deref {mark operand} (hmark : mark.BasesFit) (hoperand : Scaled operand) :
    Scaled (.deref mark operand)
  | binary {mark op lhs rhs} (hmark : mark.BasesFit) (hlhs : Scaled lhs) (hrhs : Scaled rhs)
      (hop : op.IsAdditive → Addends lhs rhs) : Scaled (.binary mark op lhs rhs)
  | assign {mark target value} (hmark : mark.BasesFit) (htarget : Scaled target)
      (hvalue : Scaled value) : Scaled (.assign mark target value)
  | call {mark name args} (hmark : mark.BasesFit) (hargs : ∀ arg ∈ args, Scaled arg) :
    Scaled (.call mark name args)

/-- The type of a scaled expression has this property, too. -/
theorem Node.Scaled.mark {node : Node} (h : node.Scaled) : node.mark.BasesFit := by
  cases h <;> assumption

theorem Node.Scaled.ty {node : Node} {ty : Ty} (h : node.Scaled) (hty : node.ty = some ty) :
    ty.BasesFit :=
  h.mark ty hty

/-- A node without a type promises nothing. -/
theorem Mark.basesFit_none (loc : Nat) : Mark.BasesFit ⟨loc, none⟩ := fun _ hty => nomatch hty

theorem Mark.basesFit_typed {mark : Mark} {ty : Ty} (h : ty.BasesFit) : (mark.typed ty).BasesFit := by
  intro found hfound
  obtain rfl := Option.some.inj hfound
  exact h

/-! ### Typing keeps sums as they are -/

/-- A number that is typed already stays as it is. -/
theorem annotate_of_isNumber {symbols : Symbols} {node : Node} (h : node.IsNumber) :
    annotate symbols node = .ok node := by
  obtain ⟨ty, hty, -⟩ := h
  exact annotate_of_ty hty

/-- Typing a number leaves its value alone. -/
theorem exists_annotate_num (symbols : Symbols) (mark : Mark) (value : Int64) :
    ∃ mark', annotate symbols (.num mark value) = .ok (.num mark' value) := by
  cases hmark : mark.ty with
  | some ty => exact ⟨mark, annotate_of_ty hmark⟩
  | none =>
    refine ⟨mark.typed .int, ?_⟩
    rw [annotate.eq_def]
    simp only [Node.ty, Node.mark, hmark, Option.isSome_none, Bool.false_eq_true, if_false]

/-- Typing the number of bytes of some elements keeps both factors. -/
theorem exists_annotate_bytes {symbols : Symbols} {number rhs : Node} {mark mark' : Mark}
    {width : Int64} (hnumber : number.IsNumber)
    (h : annotate symbols (.binary mark .mul number (.num mark' width)) = .ok rhs) :
    ∃ mark mark', rhs = .binary mark .mul number (.num mark' width) := by
  cases hmark : mark.ty with
  | some ty =>
    have hdone : annotate symbols (.binary mark .mul number (.num mark' width)) = _ :=
      annotate_of_ty hmark
    exact ⟨mark, mark', Except.ok.inj (h.symm.trans hdone)⟩
  | none =>
    obtain ⟨ty, hty, -⟩ := hnumber
    obtain ⟨found, hfound⟩ := exists_annotate_num symbols mark' width
    rw [annotate.eq_def] at h
    simp only [Node.ty, Node.mark, hmark, Option.isSome_none, Bool.false_eq_true, if_false,
      annotate_of_ty hty, hfound] at h
    change (binaryTy .mul number >>= fun _ => _) = _ at h
    rw [binaryTy_of_ty hty] at h
    exact ⟨_, found, (Except.ok.inj h).symm⟩

/-- Operands that were typed before are the same operands afterwards. -/
theorem Node.Addends.annotate {symbols : Symbols} {lhs rhs lhs' rhs' : Node} (h : lhs.Addends rhs)
    (hlhs : annotate symbols lhs = .ok lhs') (hrhs : annotate symbols rhs = .ok rhs') :
    lhs'.Addends rhs' := by
  cases h with
  | numbers hl hr =>
    rw [annotate_of_isNumber hl] at hlhs
    rw [annotate_of_isNumber hr] at hrhs
    rw [← Except.ok.inj hlhs, ← Except.ok.inj hrhs]
    exact .numbers hl hr
  | pointer hty hbase hnumber hwidth =>
    rw [annotate_of_ty hty] at hlhs
    obtain ⟨mark, mark', rfl⟩ := exists_annotate_bytes hnumber hrhs
    rw [← Except.ok.inj hlhs]
    exact .pointer hty hbase hnumber hwidth

/-- A scaled expression that has its type. -/
def Node.ScaledTyped (node : Node) : Prop := node.Scaled ∧ ∃ ty, node.ty = some ty

/-- What is known of a result may be used together with the result. -/
theorem ends_eq {ε α : Type} {r : Except ε α} {good : α → Prop} {bad : ε → Prop}
    (h : Ends r good bad) : Ends r (fun a => r = .ok a ∧ good a) bad := by
  cases r with
  | ok a => exact ⟨rfl, h⟩
  | error e => exact h

/-- **Typing a scaled expression gives a scaled expression with a type.** -/
theorem Node.Scaled.ends_annotate {symbols : Symbols} (hsymbols : symbols.BasesFit) {node : Node}
    (h : node.Scaled) : Ends (annotate symbols node) Node.ScaledTyped fun _ => True := by
  -- What has a type is left as it is.
  have hdone : ∀ {node : Node} {ty : Ty}, node.ty = some ty → node.Scaled →
      Ends (annotate symbols node) Node.ScaledTyped fun _ => True := by
    intro node ty hty h
    rw [annotate_of_ty hty]
    exact ⟨h, ty, hty⟩
  -- A node without a type is typed when its children are, and gets a type that fits as theirs do.
  induction h with
  | @num mark value hmark =>
    obtain ⟨loc, _ | ty⟩ := mark
    · exact ⟨.num (Mark.basesFit_typed trivial), .int, rfl⟩
    · exact hdone rfl (.num hmark)
  -- The types in the table fit, so that of a variable does.
  | @var mark ref hmark =>
    obtain ⟨loc, _ | ty⟩ := mark
    · rw [annotate.eq_def]
      cases hget : symbols.get ref with
      | error fault =>
        simp only [Node.ty, Node.mark, Option.isSome_none, Bool.false_eq_true, if_false, hget]
        trivial
      | ok found =>
        simp only [Node.ty, Node.mark, Option.isSome_none, Bool.false_eq_true, if_false, hget]
        exact ⟨.var (Mark.basesFit_typed (hsymbols.get hget)), found.ty, rfl⟩
    · exact hdone rfl (.var hmark)
  | @neg mark operand hmark hoperand ih =>
    obtain ⟨loc, _ | ty⟩ := mark
    · rw [annotate.eq_def]
      refine ih.bind fun operand hoperand => ?_
      obtain ⟨hoperand, ty, hty⟩ := hoperand
      rw [valueTy_of_ty hty]
      exact ⟨.neg (Mark.basesFit_typed (hoperand.ty hty)) hoperand, ty, rfl⟩
    · exact hdone rfl (.neg hmark hoperand)
  | @addr mark operand hmark hoperand ih =>
    obtain ⟨loc, _ | ty⟩ := mark
    · rw [annotate.eq_def]
      refine ih.bind fun operand hoperand => ?_
      obtain ⟨hoperand, ty, hty⟩ := hoperand
      refine ((ends_addrTy hty).imp (fun _ h => h) fun _ _ => trivial).bind ?_
      rintro found ⟨-, rfl⟩
      exact ⟨.addr (Mark.basesFit_typed (hoperand.ty hty).ofAddress) hoperand, _, rfl⟩
    · exact hdone rfl (.addr hmark hoperand)
  | @deref mark operand hmark hoperand ih =>
    obtain ⟨loc, _ | ty⟩ := mark
    · rw [annotate.eq_def]
      refine ih.bind fun operand hoperand => ?_
      obtain ⟨hoperand, ty, hty⟩ := hoperand
      refine ((ends_derefTy hty).imp (fun _ h => h) fun _ _ => trivial).bind fun base hbase => ?_
      exact ⟨.deref (Mark.basesFit_typed ((hoperand.ty hty).base hbase).2) hoperand, base, rfl⟩
    · exact hdone rfl (.deref hmark hoperand)
  -- What a sum is scaled by is known from its operands, which are typed already.
  | @binary mark op lhs rhs hmark hlhs hrhs hop ihl ihr =>
    obtain ⟨loc, _ | ty⟩ := mark
    · rw [annotate.eq_def]
      refine (ends_eq ihl).bind fun lhs' hlhs' => (ends_eq ihr).bind fun rhs' hrhs' => ?_
      obtain ⟨hlhs', hscaled, ty, hty⟩ := hlhs'
      obtain ⟨hrhs', hscaled', -⟩ := hrhs'
      rw [binaryTy_of_ty hty]
      have hresult : (op.resultTy ty).BasesFit := by
        unfold BinaryOp.resultTy
        split
        · exact hscaled.ty hty
        · trivial
      exact ⟨.binary (Mark.basesFit_typed hresult) hscaled hscaled'
        fun hadditive => (hop hadditive).annotate hlhs' hrhs', _, rfl⟩
    · exact hdone rfl (.binary hmark hlhs hrhs hop)
  | @assign mark target value hmark htarget hvalue iht ihv =>
    obtain ⟨loc, _ | ty⟩ := mark
    · rw [annotate.eq_def]
      refine iht.bind fun target htarget => ihv.bind fun value hvalue => ?_
      obtain ⟨htarget, ty, hty⟩ := htarget
      refine ((ends_assignTy hty).imp (fun _ h => h) fun _ _ => trivial).bind ?_
      rintro found ⟨-, -, rfl⟩
      exact ⟨.assign (Mark.basesFit_typed (htarget.ty hty)) htarget hvalue.1, _, rfl⟩
    · exact hdone rfl (.assign hmark htarget hvalue)
  | @call mark name args hmark hargs ih =>
    obtain ⟨loc, _ | ty⟩ := mark
    · rw [annotate.eq_def]
      refine (ends_annotateAll _ ih).bind fun args hargs => ?_
      exact ⟨.call (Mark.basesFit_typed trivial) fun arg harg => (hargs.2 arg harg).1, .int, rfl⟩
    · exact hdone rfl (.call hmark hargs)

/-! ### Sums are scaled when they are built -/

/-- The size of an element is read off the type. -/
theorem elementSize?_of_ty {node : Node} {ty : Ty} (h : node.ty = some ty) :
    node.elementSize? = ty.base?.map Ty.size := by
  rw [Node.elementSize?, h]
  cases ty <;> rfl

/-- A typed expression that does not point to anything is a number. -/
theorem isNumber_of_elementSize? {node : Node} (h : node.ScaledTyped)
    (hnone : node.elementSize? = none) : node.IsNumber := by
  obtain ⟨-, ty, hty⟩ := h
  rw [elementSize?_of_ty hty] at hnone
  exact ⟨ty, hty, Option.map_eq_none_iff.1 hnone⟩

/-- A typed expression with elements points to something of their size, which fits a word. -/
theorem exists_base_of_elementSize? {node : Node} {size : Int} (h : node.ScaledTyped)
    (hsome : node.elementSize? = some size) :
    ∃ ty base, node.ty = some ty ∧ ty.base? = some base ∧ base.size = size ∧ Word.Fits size := by
  obtain ⟨hscaled, ty, hty⟩ := h
  rw [elementSize?_of_ty hty] at hsome
  obtain ⟨base, hbase, rfl⟩ := Option.map_eq_some_iff.1 hsome
  exact ⟨ty, base, hty, hbase, rfl, ((hscaled.ty hty).base hbase).1⟩

/-- A size that fits a word is not changed by making a word of it. -/
theorem toInt_ofInt_of_fits {n : Int} (h : Word.Fits n) : (Int64.ofInt n).toInt = n := by
  obtain ⟨hleast, hgreatest⟩ := h
  simp only [Word.least, Word.greatest] at hleast hgreatest
  exact Int64.toInt_ofInt_of_le (by omega) (by omega)

/-- A pointer and a number, with the number scaled. -/
theorem scaled_scaled {op : BinaryOp} {pointer number : Node} {size : Int} (loc : Nat)
    (hpointer : pointer.ScaledTyped) (hnumber : number.ScaledTyped)
    (hsize : pointer.elementSize? = some size) (hnone : number.elementSize? = none) :
    (Node.scaled op pointer number size loc).Scaled := by
  obtain ⟨ty, base, hty, hbase, rfl, hfits⟩ := exists_base_of_elementSize? hpointer hsize
  have hnum := isNumber_of_elementSize? hnumber hnone
  have hbytes : (Node.binary ⟨loc, none⟩ .mul number
      (.num ⟨number.loc, none⟩ (Int64.ofInt base.size))).Scaled :=
    .binary (Mark.basesFit_none _) hnumber.1 (.num (Mark.basesFit_none _))
      fun h => absurd h (by decide)
  exact .binary (Mark.basesFit_none _) hpointer.1 hbytes fun _ =>
    .pointer hty hbase hnum (toInt_ofInt_of_fits hfits)

/-- **A sum is scaled when it is built**: the number is multiplied by the size of what the pointer
points to, whichever side it is on, and two pointers cannot be added. -/
theorem scaled_sum {lhs rhs node : Node} {loc : Nat} (hlhs : lhs.ScaledTyped)
    (hrhs : rhs.ScaledTyped) (h : Node.sum lhs rhs loc = .ok node) : node.Scaled := by
  unfold Node.sum at h
  split at h
  · next hl hr =>
    obtain rfl := Except.ok.inj h
    exact .binary (Mark.basesFit_none _) hlhs.1 hrhs.1 fun _ =>
      .numbers (isNumber_of_elementSize? hlhs hl) (isNumber_of_elementSize? hrhs hr)
  · next size hl hr =>
    obtain rfl := Except.ok.inj h
    exact scaled_scaled loc hlhs hrhs hl hr
  · next size hl hr =>
    obtain rfl := Except.ok.inj h
    exact scaled_scaled loc hrhs hlhs hr hl
  · exact nomatch h

/-- Of a difference only the right side can be the number. -/
theorem scaled_difference {lhs rhs node : Node} {loc : Nat} (hlhs : lhs.ScaledTyped)
    (hrhs : rhs.ScaledTyped) (h : Node.difference lhs rhs loc = .ok node) : node.Scaled := by
  unfold Node.difference at h
  split at h
  · next hl hr =>
    obtain rfl := Except.ok.inj h
    exact .binary (Mark.basesFit_none _) hlhs.1 hrhs.1 fun _ =>
      .numbers (isNumber_of_elementSize? hlhs hl) (isNumber_of_elementSize? hrhs hr)
  · next size hl hr =>
    obtain rfl := Except.ok.inj h
    exact scaled_scaled loc hlhs hrhs hl hr
  · exact nomatch h

/-- Joining scaled operands gives a scaled expression. -/
def Join.Scales (join : Join) : Prop :=
  ∀ {symbols : Symbols} {lhs rhs : Node} {loc : Nat} {node : Node}, symbols.BasesFit →
    lhs.Scaled → rhs.Scaled → join symbols lhs rhs loc = .ok node → node.Scaled

/-- Typing the operands first does not change how the sum is built. -/
theorem Join.scales_typed {combine : Node → Node → Nat → Except Failure Node}
    (hcombine : ∀ {lhs rhs loc node}, lhs.ScaledTyped → rhs.ScaledTyped →
      combine lhs rhs loc = .ok node → node.Scaled) : (Join.typed combine).Scales := by
  intro symbols lhs rhs loc node hsymbols hlhs hrhs h
  obtain ⟨lhs', hlhs', h⟩ := bind_eq_ok_iff.1 h
  obtain ⟨rhs', hrhs', h⟩ := bind_eq_ok_iff.1 h
  exact hcombine ((hlhs.ends_annotate hsymbols).of_eq_ok hlhs')
    ((hrhs.ends_annotate hsymbols).of_eq_ok hrhs') h

/-- The other operators join their operands as they are. -/
theorem Join.scales_plain {combine : Node → Node → Nat → Node} {op : BinaryOp}
    (hop : ¬ op.IsAdditive) (h : combine = Parse.applied op ∨ combine = Parse.swapped op) :
    (Join.plain combine).Scales := by
  intro symbols lhs rhs loc node _ hlhs hrhs hnode
  obtain rfl := Except.ok.inj hnode
  rcases h with rfl | rfl
  · exact .binary (Mark.basesFit_none _) hlhs hrhs fun h => absurd h hop
  · exact .binary (Mark.basesFit_none _) hrhs hlhs fun h => absurd h hop

/-- The operators of the tables are not those of sums. -/
theorem Level.not_isAdditive_of_mem_table {l : Level} {text : String}
    {combine : Node → Node → Nat → Node} (h : (text, combine) ∈ l.table) :
    ∃ op : BinaryOp, ¬ op.IsAdditive ∧ (combine = Parse.applied op ∨ combine = Parse.swapped op) := by
  cases l with
  | equality =>
    simp only [table, List.mem_cons, List.not_mem_nil, or_false, Prod.mk.injEq] at h
    rcases h with ⟨-, rfl⟩ | ⟨-, rfl⟩
    · exact ⟨.eq, by decide, .inl rfl⟩
    · exact ⟨.ne, by decide, .inl rfl⟩
  | relational =>
    simp only [table, List.mem_cons, List.not_mem_nil, or_false, Prod.mk.injEq] at h
    rcases h with ⟨-, rfl⟩ | ⟨-, rfl⟩ | ⟨-, rfl⟩ | ⟨-, rfl⟩
    · exact ⟨.lt, by decide, .inl rfl⟩
    · exact ⟨.le, by decide, .inl rfl⟩
    · exact ⟨.lt, by decide, .inr rfl⟩
    · exact ⟨.le, by decide, .inr rfl⟩
  | sum => exact absurd h List.not_mem_nil
  | product =>
    simp only [table, List.mem_cons, List.not_mem_nil, or_false, Prod.mk.injEq] at h
    rcases h with ⟨-, rfl⟩ | ⟨-, rfl⟩
    · exact ⟨.mul, by decide, .inl rfl⟩
    · exact ⟨.div, by decide, .inl rfl⟩

/-- An operator is plain and in the table of its level, or one of the two that type their operands. -/
theorem Level.join?_cases {l : Level} {s : ParseState} {join : Join} (h : l.join? s = some join) :
    (∃ text combine, (text, combine) ∈ l.table ∧ join = .plain combine)
      ∨ join = .typed Node.sum ∨ join = .typed Node.difference := by
  have hplain : ∀ {table : List (String × (Node → Node → Nat → Node))},
      (s.lookup table).map Join.plain = some join →
        ∃ text combine, (text, combine) ∈ table ∧ join = .plain combine := by
    intro table h
    obtain ⟨combine, hcombine, rfl⟩ := Option.map_eq_some_iff.1 h
    obtain ⟨loc, text, -, hlookup⟩ := ParseState.exists_of_lookup hcombine
    exact ⟨text, combine, mem_of_lookup hlookup, rfl⟩
  cases l with
  | sum =>
    simp only [join?] at h
    split at h
    · exact .inr (.inl (Option.some.inj h).symm)
    · split at h
      · exact .inr (.inr (Option.some.inj h).symm)
      · cases h
  | equality => exact .inl (hplain h)
  | relational => exact .inl (hplain h)
  | product => exact .inl (hplain h)

/-- Every way to join operands keeps expressions scaled. -/
theorem Level.scales_join {l : Level} {s : ParseState} {join : Join} (h : l.join? s = some join) :
    join.Scales := by
  rcases Level.join?_cases h with ⟨text, combine, hmem, rfl⟩ | rfl | rfl
  · obtain ⟨op, hop, hcombine⟩ := Level.not_isAdditive_of_mem_table hmem
    exact Join.scales_plain hop hcombine
  · exact Join.scales_typed scaled_sum
  · exact Join.scales_typed scaled_difference

/-- An operator in front of an operand builds no sum. -/
theorem Sign.scaled_apply (sign : Sign) (loc : Nat) {operand : Node} (h : operand.Scaled) :
    (sign.apply loc operand).Scaled := by
  cases sign with
  | plus => exact h
  | minus => exact .neg (Mark.basesFit_none _) h
  | address => exact .addr (Mark.basesFit_none _) h
  | pointee => exact .deref (Mark.basesFit_none _) h

/-! ### Every rule builds scaled expressions -/

/-- What holds while tokens are read. -/
structure ParseState.Scaling (s : ParseState) : Prop where
  tokens : ∀ token ∈ s.rest, token.Honest
  symbols : s.symbols.BasesFit
  functions : ∀ f ∈ s.functions, f.body.Over Node.Scaled

/-- What a rule has gathered is scaled. -/
def Rule.ScaledSoFar {α : Type} : Rule α → Prop
  | .more _ node | .subscripts node => node.Scaled
  | .arguments _ _ nodes | .values nodes => ∀ node ∈ nodes, node.Scaled
  | .items nodes => ∀ node ∈ nodes, node.Over Node.Scaled
  | _ => True

/-- What a rule reads is scaled. -/
def Rule.ScaledResult {α : Type} : Rule α → α → Prop
  | .expr, node | .level _, node | .more _ _, node | .unary, node | .postfixed, node
  | .subscripts _, node | .primary, node | .arguments _ _ _, node => node.Scaled
  | .values _, nodes | .initializers _, nodes => ∀ node ∈ nodes, node.Scaled
  | .type, ty => ty.BasesFit ∧ Word.Fits ty.size
  | .exprUnless _, found => ∀ node ∈ found, node.Scaled
  | .loopHead, head => (∀ node ∈ head.init, node.Scaled) ∧ (∀ node ∈ head.cond, node.Scaled)
    ∧ ∀ node ∈ head.step, node.Scaled
  | .declaration _, node | .block _, node | .stmt, node => node.Over Node.Scaled
  | .items _, nodes => ∀ node ∈ nodes, node.Over Node.Scaled
  | _, _ => True

/-- Scaled expressions are built from scaled ones. -/
def Contract.scaling : Contract where
  pre rule s := s.Scaling ∧ rule.ScaledSoFar
  post rule _ a t := t.Scaling ∧ rule.ScaledResult a

namespace ParseState.Scaling

variable {s : ParseState}

/-- The tables are the same behind a token. -/
theorem advance (h : s.Scaling) : s.advance.Scaling where
  tokens token htoken := h.tokens token (List.mem_of_mem_tail htoken)
  symbols := h.symbols
  functions := h.functions

/-- A local of such a type may be declared. -/
theorem addLocal (h : s.Scaling) {v : Variable} (hv : v.ty.BasesFit) : (s.addLocal v).Scaling where
  tokens := h.tokens
  symbols := ⟨fun w hw => (List.mem_append.1 hw).elim (h.symbols.locals w)
    fun hw => List.mem_singleton.1 hw ▸ hv, h.symbols.globals⟩
  functions := h.functions

theorem addGlobal (h : s.Scaling) {v : Variable} (hv : v.ty.BasesFit) : (s.addGlobal v).Scaling where
  tokens := h.tokens
  symbols := ⟨h.symbols.locals, fun w hw => (List.mem_append.1 hw).elim (h.symbols.globals w)
    fun hw => List.mem_singleton.1 hw ▸ hv⟩
  functions := h.functions

/-- A literal is an array of bytes, whose elements have size 1. -/
theorem addLiteral (h : s.Scaling) {bytes : List UInt8} {ty : Ty} (hty : ty.BasesFit) :
    (s.addLiteral bytes ty).Scaling where
  tokens := h.tokens
  symbols := ⟨h.symbols.locals, fun w hw => (List.mem_append.1 hw).elim (h.symbols.globals w)
    fun hw => List.mem_singleton.1 hw ▸ hty⟩
  functions := h.functions

theorem foldl_addLocal (h : s.Scaling) {added : List Variable} (hadded : ∀ v ∈ added, v.ty.BasesFit) :
    (added.foldl ParseState.addLocal s).Scaling := by
  induction added generalizing s with
  | nil => exact h
  | cons v added ih =>
    exact ih (h.addLocal (hadded v List.mem_cons_self)) fun w hw =>
      hadded w (List.mem_cons_of_mem _ hw)

theorem foldl_addGlobal (h : s.Scaling) {added : List Variable}
    (hadded : ∀ v ∈ added, v.ty.BasesFit) : (added.foldl ParseState.addGlobal s).Scaling := by
  induction added generalizing s with
  | nil => exact h
  | cons v added ih =>
    exact ih (h.addGlobal (hadded v List.mem_cons_self)) fun w hw =>
      hadded w (List.mem_cons_of_mem _ hw)

end ParseState.Scaling

/-- Every array type is made from the inside out, and its size has been checked before it becomes
the element of another one. -/
theorem basesFit_of_run_arrayTypes {elem ty : Ty} (helem : elem.BasesFit ∧ Word.Fits elem.size) :
    ∀ {dimensions : List (Int64 × Nat)} {s t : ParseState},
      (Parse.arrayTypes elem dimensions).run s = .ok (ty, t) → ty.BasesFit ∧ Word.Fits ty.size := by
  intro dimensions
  induction dimensions generalizing ty with
  | nil => exact fun h => (Prod.mk.inj (Except.ok.inj h)).1 ▸ helem
  | cons first inner ih =>
    intro s t h
    rw [Parse.arrayTypes, StateT.run_bind] at h
    obtain ⟨⟨made, u⟩, hmade, hrun⟩ := bind_eq_ok_iff.1 h
    have hfits := ih hmade
    change (Parse.arrayType made first.1 first.2).run u = _ at hrun
    unfold Parse.arrayType at hrun
    simp only at hrun
    split at hrun
    · next hsize =>
      -- The size has been checked, so its product does not overflow.
      have harray : made.arrayOf first.1.toInt = .ok (.array made first.1.toInt) := by
        rw [Ty.arrayOf, Word.mul, Word.checked_of_fits hsize.1]
        rfl
      rw [harray] at hrun
      rw [← (Prod.mk.inj (Except.ok.inj hrun)).1]
      refine ⟨⟨hfits.2, hfits.1⟩, ?_⟩
      rw [Ty.size]
      exact hsize.1
    · cases hrun

/-- Initial values are assigned to locals, which builds no sum. -/
theorem scaled_initializations {names : List Parse.DeclaredName} {values : List Node} {index : Nat}
    (h : ∀ value ∈ values, value.Scaled) :
    ∀ node ∈ Parse.initializations index names values, node.Over Node.Scaled := by
  induction names generalizing values index with
  | nil => exact fun node hnode => absurd hnode List.not_mem_nil
  | cons declared names ih =>
    cases values with
    | nil => exact fun node hnode => absurd hnode List.not_mem_nil
    | cons value values =>
      intro node hnode
      rcases List.mem_cons.1 hnode with rfl | hnode
      · exact .exprStmt (.assign (Mark.basesFit_none _) (.var (Mark.basesFit_none _))
          (h value List.mem_cons_self))
      · exact ih (fun v hv => h v (List.mem_cons_of_mem _ hv)) node hnode

theorem scaled_append {nodes : List Node} {node : Node} {p : Node → Prop} (h : ∀ n ∈ nodes, p n)
    (hnode : p node) : ∀ n ∈ nodes ++ [node], p n := fun n hn =>
  (List.mem_append.1 hn).elim (h n) fun hn => List.mem_singleton.1 hn ▸ hnode

/-- The rule builds scaled expressions from scaled ones, if the rules that it calls do. -/
def Rule.KeepsScaling {α : Type} (rule : Rule α) : Prop :=
  ∀ s, Contract.scaling.pre rule s →
    (rule.step s).Meets Contract.scaling (Contract.scaling.post rule s)

namespace Rule

open Contract (scaling)
open Step (meets_ite meets_expect meets_identifier meets_literal meets_number meets_ofResult
  meets_ofRun)

/-- The operands that have been joined are scaled, and so is what joins them. -/
theorem keepsScaling_more (l : Level) (lhs : Node) : (more l lhs).KeepsScaling := by
  rintro s ⟨hs, hread⟩
  rw [step]
  split
  · exact ⟨hs, hread⟩
  · next join hjoin =>
    refine ⟨⟨hs.advance, ?_⟩, ?_⟩
    · cases l <;> trivial
    · rintro rhs t ⟨ht, hrhs⟩
      have hrhs : rhs.Scaled := by cases l <;> exact hrhs
      refine meets_ofResult.2 fun node hnode => ?_
      have hnode : node.Scaled := Level.scales_join hjoin ht.symbols hread hrhs hnode
      exact ⟨⟨ht, hnode⟩, fun found u hfound => hfound⟩

theorem keepsScaling_unary : unary.KeepsScaling := by
  rintro s ⟨hs, -⟩
  rw [step]
  split
  · exact ⟨⟨hs, trivial⟩, fun found u hfound => hfound⟩
  · next sign _ =>
    refine ⟨⟨hs.advance, trivial⟩, ?_⟩
    rintro node t ⟨ht, hnode⟩
    exact ⟨ht, sign.scaled_apply s.loc hnode⟩

/-- A subscript is a sum of the array and the index, so it is scaled like one. -/
theorem keepsScaling_subscripts (node : Node) : (subscripts node).KeepsScaling := by
  intro s ⟨hs, hread⟩
  refine meets_ite.2 ⟨fun _ => ?_, fun _ => ⟨hs, hread⟩⟩
  refine ⟨⟨hs.advance, trivial⟩, fun index t ⟨ht, hindex⟩ => meets_expect.2 fun _ => ?_⟩
  -- The place that a subscript stands for is at a sum.
  refine meets_ofResult.2 fun place hplace => ?_
  have hplace : place.Scaled := Join.scales_typed scaled_sum ht.symbols hread hindex hplace
  exact ⟨⟨ht.advance, .deref (Mark.basesFit_none _) hplace⟩, fun found u hfound => hfound⟩

/-- A variable has a type of the tables, and a literal is declared. -/
theorem keepsScaling_primary : primary.KeepsScaling := by
  rintro s ⟨hs, -⟩
  refine meets_ite.2 ⟨fun _ => ⟨⟨hs.advance, trivial⟩, ?_⟩, fun _ => ?_⟩
  · rintro node t ⟨ht, hnode⟩
    exact meets_expect.2 fun _ => ⟨ht.advance, hnode⟩
  · split
    · refine meets_identifier.2 fun name loc _ => meets_ite.2 ⟨fun _ => ?_, fun _ => ?_⟩
      · refine meets_ite.2 ⟨fun _ => trivial, fun _ => meets_ite.2 ⟨fun _ => ?_, fun _ => ?_⟩⟩
        · exact ⟨hs.advance.advance.advance, .call (Mark.basesFit_none _)
            fun arg harg => absurd harg List.not_mem_nil⟩
        · exact ⟨⟨hs.advance.advance, fun arg harg => absurd harg List.not_mem_nil⟩,
            fun found u hfound => hfound⟩
      · unfold Step.useOf
        split
        · exact ⟨hs.advance, .var (Mark.basesFit_none _)⟩
        · trivial
    · refine meets_literal.2 fun bytes ty loc text hcurrent => ?_
      -- A string literal has the type that the lexer gave its token.
      have hty : ty = .array .char bytes.length := hs.tokens _ (List.mem_of_mem_head? hcurrent)
      have hfits : ty.BasesFit := by
        rw [hty]
        exact ⟨by decide, trivial⟩
      exact ⟨hs.advance.addLiteral hfits, .var (Mark.basesFit_none _)⟩
    · exact meets_number.2 fun value loc text _ => ⟨hs.advance, .num (Mark.basesFit_none _)⟩
    · trivial

theorem keepsScaling_arguments (loc : Nat) (name : String) (args : List Node) :
    (arguments loc name args).KeepsScaling := by
  intro s ⟨hs, hread⟩
  refine meets_ite.2 ⟨fun _ => ?_, fun _ => trivial⟩
  refine ⟨⟨hs, trivial⟩, fun argument t ⟨ht, hargument⟩ => ?_⟩
  have hargs := scaled_append hread hargument
  refine meets_ite.2 ⟨fun _ => ⟨ht.advance, .call (Mark.basesFit_none _) hargs⟩, fun _ => ?_⟩
  exact meets_expect.2 fun _ => ⟨⟨ht.advance, hargs⟩, fun found u hfound => hfound⟩

/-- A type that is read has a base whose size fits, at every depth. -/
theorem keepsScaling_type : type.KeepsScaling := by
  intro s ⟨hs, _⟩
  refine ⟨⟨hs, trivial⟩, fun dimensions t ⟨ht, _⟩ => ⟨⟨ht, trivial⟩, fun depth u ⟨hu, _⟩ => ?_⟩⟩
  have harray : ∀ elem : Ty, elem.BasesFit → Word.Fits elem.size →
      (Step.ofRun ((Parse.arrayTypes (elem.pointers depth) dimensions).run u.advance) .done).Meets
        scaling (scaling.post .type s) := by
    intro elem helem hfits
    refine meets_ofRun.2 fun ty v hrun => ?_
    obtain rfl := Parse.state_of_run_arrayTypes hrun
    exact ⟨hu.advance, basesFit_of_run_arrayTypes (helem.pointers hfits depth) hrun⟩
  exact meets_ite.2 ⟨fun _ => harray .int trivial (by decide), fun _ => meets_ite.2
    ⟨fun _ => harray .char trivial (by decide), fun _ => trivial⟩⟩

theorem keepsScaling_initializers (count : Nat) : (initializers count).KeepsScaling := by
  intro s ⟨hs, _⟩
  refine meets_ite.2 ⟨fun _ => ?_, fun _ => meets_expect.2 fun _ =>
    ⟨hs.advance, fun value hvalue => absurd hvalue List.not_mem_nil⟩⟩
  refine ⟨⟨hs.advance, fun value hvalue => absurd hvalue List.not_mem_nil⟩,
    fun values t ⟨ht, hvalues⟩ => ?_⟩
  exact meets_ite.2 ⟨fun _ => meets_expect.2 fun _ => ⟨ht.advance, hvalues⟩, fun _ => trivial⟩

/-- The locals have the declared type, with their own stars. -/
theorem keepsScaling_declaration (loc : Nat) : (declaration loc).KeepsScaling := by
  intro s ⟨hs, _⟩
  refine ⟨⟨hs, trivial⟩, fun names t ⟨ht, _⟩ => ⟨⟨ht, trivial⟩, fun ty u ⟨hu, hty⟩ => ?_⟩⟩
  refine ⟨⟨hu, trivial⟩, fun values v ⟨hv, hvalues⟩ => meets_ofRun.2 fun body w hrun => ?_⟩
  rw [Parse.run_declareLocals] at hrun
  obtain ⟨rfl, rfl⟩ := Prod.mk.inj (Except.ok.inj hrun)
  refine ⟨hv.foldl_addLocal fun added hadded => ?_, .block (scaled_initializations hvalues)⟩
  obtain ⟨declared, -, rfl⟩ := List.mem_map.1 hadded
  exact (hty.1.pointers hty.2 declared.stars).1

/-- Typing an item keeps it scaled. -/
theorem keepsScaling_items (read : List Node) : (items read).KeepsScaling := by
  intro s ⟨hs, hread⟩
  -- An item is typed when it is complete, with the sums in it built before.
  have hitem : ∀ node (t : ParseState), t.Scaling → node.Over Node.Scaled →
      (Step.ofResult (annotate t.symbols node) fun typed =>
        .call (.items (read ++ [typed])) t .done).Meets scaling (scaling.post (.items read) s) := by
    intro node t ht hnode
    refine meets_ofResult.2 fun typed htyped => ?_
    have htyped : typed.Over Node.Scaled := by
      have hends : Ends (annotate t.symbols node) (Node.Over Node.ScaledTyped) fun _ => True :=
        hnode.ends_annotate fun n hn => hn.ends_annotate ht.symbols
      exact (hends.of_eq_ok htyped).imp fun _ h => h.1
    exact ⟨⟨ht, scaled_append hread htyped⟩, fun found u hfound => hfound⟩
  refine meets_ite.2 ⟨fun _ => ⟨hs.advance, hread⟩,
    fun _ => meets_ite.2 ⟨fun _ => ?_, fun _ => ?_⟩⟩
  · exact ⟨⟨hs.advance, trivial⟩, fun node t ⟨ht, hnode⟩ => hitem node t ht hnode⟩
  · exact ⟨⟨hs, trivial⟩, fun node t ⟨ht, hnode⟩ => hitem node t ht hnode⟩

theorem keepsScaling_loopHead : loopHead.KeepsScaling := by
  intro s ⟨hs, _⟩
  have hnone : ∀ node ∈ (none : Option Node), node.Scaled := fun n hn => nomatch hn
  refine meets_ite.2 ⟨fun _ => ⟨hs, hnone, hnone, hnone⟩, fun _ => ?_⟩
  refine ⟨⟨hs, trivial⟩, fun first t ⟨ht, hfirst⟩ => meets_ite.2
    ⟨fun _ => ?_, fun _ => ⟨ht, hnone, hfirst, hnone⟩⟩⟩
  refine ⟨⟨ht.advance, trivial⟩, fun cond u ⟨hu, hcond⟩ => meets_expect.2 fun _ => ?_⟩
  exact ⟨⟨hu.advance, trivial⟩, fun step v ⟨hv, hstep⟩ => ⟨hv, hfirst, hcond, hstep⟩⟩

/-- A statement is over the expressions that are read in it. -/
theorem keepsScaling_stmt : stmt.KeepsScaling := by
  intro s ⟨hs, _⟩
  refine meets_ite.2 ⟨fun _ => ?_, fun _ => meets_ite.2 ⟨fun _ => ?_, fun _ => meets_ite.2
    ⟨fun _ => ?_, fun _ => meets_ite.2 ⟨fun _ => ?_,
      fun _ => meets_ite.2 ⟨fun _ => ?_, fun _ => ?_⟩⟩⟩⟩⟩
  · exact ⟨⟨hs.advance, trivial⟩, fun value t ⟨ht, hvalue⟩ => meets_expect.2 fun _ =>
      ⟨ht.advance, .ret hvalue⟩⟩
  · refine ⟨⟨hs.advance, trivial⟩, fun cond t ⟨ht, hcond⟩ => ⟨⟨ht, trivial⟩,
      fun onTrue u ⟨hu, htrue⟩ => meets_ite.2 ⟨fun _ => ?_, fun _ => ?_⟩⟩⟩
    · refine ⟨⟨hu.advance, trivial⟩, fun onFalse v ⟨hv, hfalse⟩ =>
        ⟨hv, .ifElse hcond htrue fun n hn => ?_⟩⟩
      obtain rfl := Option.some.inj hn
      exact hfalse
    · exact ⟨hu, .ifElse hcond htrue fun n hn => nomatch hn⟩
  · exact ⟨⟨hs.advance, trivial⟩, fun head t ⟨ht, hinit, hcond, hstep⟩ => ⟨⟨ht, trivial⟩,
      fun body u ⟨hu, hbody⟩ => ⟨hu, .loop hinit hcond hstep hbody⟩⟩⟩
  · exact ⟨⟨hs.advance, trivial⟩, fun found u hfound => hfound⟩
  · exact ⟨hs.advance, .block fun n hn => absurd hn List.not_mem_nil⟩
  · exact ⟨⟨hs, trivial⟩, fun value t ⟨ht, hvalue⟩ => meets_expect.2 fun _ =>
      ⟨ht.advance, .exprStmt hvalue⟩⟩

/-- A parameter has the declared type, or points to its elements. -/
theorem keepsScaling_parameters (read : List (Nat × Ty)) : (parameters read).KeepsScaling := by
  intro s ⟨hs, _⟩
  refine meets_ite.2 ⟨fun _ => meets_identifier.2 fun name loc _ => ?_, fun _ => trivial⟩
  refine ⟨⟨hs.advance, trivial⟩, fun ty t ⟨ht, hty⟩ => ?_⟩
  have hadded := ht.addLocal (v := { name, ty := ty.decay }) hty.1.decay
  refine meets_ite.2 ⟨fun _ => ⟨hadded.advance, trivial⟩, fun _ => meets_expect.2 fun _ => ?_⟩
  exact ⟨⟨hadded.advance, trivial⟩, fun found u hfound => hfound⟩

/-- What has been read before is kept, and the body is scaled. -/
theorem keepsScaling_function : function.KeepsScaling := by
  rintro s ⟨hs, -⟩
  rw [step]
  refine meets_identifier.2 fun name loc _ => meets_ofRun.2 fun _ t hcheck => ?_
  obtain rfl := Parse.state_of_run_checkFunction hcheck
  refine meets_expect.2 fun _ => ⟨⟨?_, trivial⟩, ?_⟩
  · exact ⟨hs.advance.advance.tokens,
      ⟨fun v hv => absurd hv List.not_mem_nil, hs.symbols.globals⟩, hs.functions⟩
  rintro params u ⟨hu, -⟩
  refine ⟨⟨hu, trivial⟩, ?_⟩
  rintro result v ⟨hv, -⟩
  refine meets_expect.2 fun _ => ⟨⟨hv.advance, trivial⟩, ?_⟩
  rintro body w ⟨hw, hbody⟩
  refine meets_ite.2 ⟨fun _ => ⟨?_, trivial⟩, fun _ => trivial⟩
  refine ⟨hw.tokens, ⟨fun v hv => absurd hv List.not_mem_nil, hw.symbols.globals⟩, fun f hf => ?_⟩
  -- The function that was read comes behind the ones that are known.
  rcases List.mem_append.1 hf with hf | hf
  · exact hw.functions f hf
  · rw [List.mem_singleton.1 hf]
    exact hbody

/-- The globals have the declared type, with their own stars. -/
theorem keepsScaling_global : global.KeepsScaling := by
  intro s ⟨hs, _⟩
  refine ⟨⟨hs, trivial⟩, fun names t ⟨ht, _⟩ => ⟨⟨ht, trivial⟩, fun ty u ⟨hu, hty⟩ => ?_⟩⟩
  refine ⟨⟨hu, trivial⟩, fun values v ⟨hv, _⟩ => meets_ofRun.2 fun _ w hrun => ⟨?_, trivial⟩⟩
  obtain ⟨added, rfl, -, htypes⟩ := Parse.exists_of_run_declareGlobals hrun
  refine hv.foldl_addGlobal fun found hfound => ?_
  obtain ⟨declared, -, hfound⟩ := htypes found hfound
  rw [hfound]
  exact (hty.1.pointers hty.2 declared.stars).1

end Rule

open Step in
/-- **Every rule builds scaled expressions from scaled ones.** -/
theorem Contract.holds_scaling : Contract.scaling.Holds := by
  intro α rule s ⟨hs, hread⟩
  -- Rules that build operators or declare variables have lemmas of their own.
  cases rule with
  | expr =>
    refine ⟨⟨hs, trivial⟩, fun node t ⟨ht, hnode⟩ =>
      meets_ite.2 ⟨fun _ => ?_, fun _ => ⟨ht, hnode⟩⟩⟩
    exact ⟨⟨ht.advance, trivial⟩, fun value u ⟨hu, hvalue⟩ =>
      ⟨hu, .assign (Mark.basesFit_none _) hnode hvalue⟩⟩
  | level l =>
    refine ⟨⟨hs, ?_⟩, fun node t ⟨ht, hnode⟩ => ?_⟩
    · cases l <;> trivial
    · have hnode : node.Scaled := by cases l <;> exact hnode
      exact ⟨⟨ht, hnode⟩, fun found u hfound => hfound⟩
  | more l lhs => exact Rule.keepsScaling_more l lhs s ⟨hs, hread⟩
  | unary => exact Rule.keepsScaling_unary s ⟨hs, hread⟩
  | postfixed =>
    exact ⟨⟨hs, trivial⟩, fun node t ⟨ht, hnode⟩ => ⟨⟨ht, hnode⟩, fun found u hfound => hfound⟩⟩
  | subscripts node => exact Rule.keepsScaling_subscripts node s ⟨hs, hread⟩
  | primary => exact Rule.keepsScaling_primary s ⟨hs, hread⟩
  | arguments loc name args => exact Rule.keepsScaling_arguments loc name args s ⟨hs, hread⟩
  | stars count =>
    exact meets_ite.2 ⟨fun _ => ⟨⟨hs.advance, trivial⟩, fun found u hfound => hfound⟩,
      fun _ => ⟨hs, trivial⟩⟩
  | names read =>
    refine ⟨⟨hs, trivial⟩, fun stars t ⟨ht, _⟩ => meets_identifier.2 fun name loc _ => ?_⟩
    exact meets_ite.2 ⟨fun _ => ⟨⟨ht.advance.advance, trivial⟩, fun found u hfound => hfound⟩,
      fun _ => ⟨ht.advance, trivial⟩⟩
  | dimensions read =>
    refine meets_ite.2 ⟨fun _ => ?_, fun _ => ⟨hs, trivial⟩⟩
    exact meets_number.2 fun len loc text _ => meets_expect.2 fun _ =>
      ⟨⟨hs.advance.advance.advance, trivial⟩, fun found u hfound => hfound⟩
  | type => exact Rule.keepsScaling_type s ⟨hs, hread⟩
  | values read =>
    refine ⟨⟨hs, trivial⟩, fun value t ⟨ht, hvalue⟩ => ?_⟩
    have hvalues := scaled_append hread hvalue
    exact meets_ite.2 ⟨fun _ => ⟨⟨ht.advance, hvalues⟩, fun found u hfound => hfound⟩,
      fun _ => ⟨ht, hvalues⟩⟩
  | initializers count => exact Rule.keepsScaling_initializers count s ⟨hs, hread⟩
  | declaration loc => exact Rule.keepsScaling_declaration loc s ⟨hs, hread⟩
  | items read => exact Rule.keepsScaling_items read s ⟨hs, hread⟩
  -- A block changes the scopes only, which say nothing of types.
  | block loc =>
    refine ⟨⟨⟨hs.tokens, hs.symbols, hs.functions⟩, fun n hn => absurd hn List.not_mem_nil⟩,
      fun body t ⟨ht, hbody⟩ => ?_⟩
    exact ⟨⟨ht.tokens, ht.symbols, ht.functions⟩, .block hbody⟩
  | exprUnless text =>
    refine meets_ite.2 ⟨fun _ => ⟨hs, fun n hn => nomatch hn⟩, fun _ => ?_⟩
    refine ⟨⟨hs, trivial⟩, fun node t ⟨ht, hnode⟩ => ⟨ht, fun n hn => ?_⟩⟩
    obtain rfl := Option.some.inj hn
    exact hnode
  | loopHead => exact Rule.keepsScaling_loopHead s ⟨hs, hread⟩
  | stmt => exact Rule.keepsScaling_stmt s ⟨hs, hread⟩
  | parameters read => exact Rule.keepsScaling_parameters read s ⟨hs, hread⟩
  | parameterList =>
    exact meets_ite.2 ⟨fun _ => ⟨hs.advance, trivial⟩,
      fun _ => ⟨⟨hs, trivial⟩, fun found u hfound => hfound⟩⟩
  | function => exact Rule.keepsScaling_function s ⟨hs, hread⟩
  | global => exact Rule.keepsScaling_global s ⟨hs, hread⟩
  | topLevel =>
    exact meets_ite.2 ⟨fun _ => ⟨⟨hs.advance, trivial⟩, fun found u hfound => hfound⟩,
      fun _ => meets_ite.2 ⟨fun _ => ⟨⟨hs.advance, trivial⟩, fun found u hfound => hfound⟩,
        fun _ => trivial⟩⟩

/-! ### Programs -/

theorem Node.Over.and {p q : Node → Prop} {node : Node} (hp : node.Over p) (hq : node.Over q) :
    node.Over fun n => p n ∧ q n := by
  induction hp with
  | exprStmt hnode =>
    cases hq with
    | exprStmt hnode' => exact .exprStmt ⟨hnode, hnode'⟩
  | ret hvalue =>
    cases hq with
    | ret hvalue' => exact .ret ⟨hvalue, hvalue'⟩
  | block _ ih =>
    cases hq with
    | block hbody => exact .block fun n hn => ih n hn (hbody n hn)
  | ifElse hcond _ _ iht ihf =>
    cases hq with
    | ifElse hcond' htrue hfalse =>
      exact .ifElse ⟨hcond, hcond'⟩ (iht htrue) fun n hn => ihf n hn (hfalse n hn)
  | loop hinit hcond hstep _ ih =>
    cases hq with
    | loop hinit' hcond' hstep' hbody =>
      exact .loop (fun n hn => ⟨hinit n hn, hinit' n hn⟩) (fun n hn => ⟨hcond n hn, hcond' n hn⟩)
        (fun n hn => ⟨hstep n hn, hstep' n hn⟩) (ih hbody)

/-- The functions that are read from honest tokens are scaled. -/
theorem scaled_of_parse {source : Source} {tokens : List Token}
    (htokens : ∀ token ∈ tokens, token.Honest) {program : Program}
    (h : parse source tokens = .ok program) :
    ∀ f ∈ program.functions, f.body.Over Node.Scaled := by
  obtain ⟨t, hunits, -, rfl⟩ := parse_eq_ok_iff.1 h
  have hstart : (source.start tokens).Scaling :=
    ⟨htokens, ⟨fun v hv => absurd hv List.not_mem_nil, fun v hv => absurd hv List.not_mem_nil⟩,
      fun f hf => absurd hf List.not_mem_nil⟩
  have hstep : ∀ s t : ParseState, s.Scaling → (Rule.topLevel.step s).Yields () t → t.Scaling := by
    intro s t hs hread
    have hpre : Contract.scaling.pre .topLevel s := ⟨hs, trivial⟩
    exact (Contract.holds_scaling.yields hpre hread).1
  exact (hunits.keeps hstep hstart).functions

/-- **The functions of a source are well typed, and their sums and differences count in elements.**
Statements have no type, every expression has the type that the rules of `Node.Typed` give it, and
a pointer is only ever added to a number of elements times the size of one. -/
theorem Source.functions_typed_scaled {source : Source} {program : Program}
    (h : source.program = .ok program) :
    ∀ f ∈ program.functions,
      f.body.Over fun node => node.Typed ⟨f.locals, program.globals⟩ ∧ node.Scaled := by
  intro f hf
  have hsound : program.Sound := (ends_program source).of_eq_ok h
  obtain ⟨tokens, htokens, hparse⟩ := bind_eq_ok_iff.1 h
  have hhonest : ∀ token ∈ tokens, token.Honest := fun token htoken =>
    ((ends_tokenize source).of_eq_ok htokens token htoken).faithful.honest
  exact (hsound.functions f hf).body.and (scaled_of_parse hhonest hparse f hf)

/-- A pointer that is moved by a sum, a difference and subscripts, inside other expressions. -/
def Source.walk : Source :=
  ⟨"walk", "var g [2][3]int; func f(p *char, n int) int \x7b var q *int = n + &n; "
    ++ "for p = p - 1; *p; \x7b g[n][1] = f(p + 2, q[n] + 1); \x7d return 1 + 2 == n; \x7d"⟩

/-- A function that goes along an array with a pointer. -/
theorem Source.functions_typed_scaled_walk :
    ∃ program, Source.walk.program = .ok program ∧ program.functions.map (·.name) = ["f"]
      ∧ ∀ f ∈ program.functions,
        f.body.Over fun node => node.Typed ⟨f.locals, program.globals⟩ ∧ node.Scaled := by
  have hread : (Source.walk.program.toOption.map fun program =>
      program.functions.map (·.name)) = some ["f"] := by decide +kernel
  obtain ⟨program, hprogram, hnames⟩ := Option.map_eq_some_iff.1 hread
  have hok := eq_ok_of_toOption_eq_some hprogram
  exact ⟨program, hok, hnames, Source.functions_typed_scaled hok⟩

end PocketCompiler
