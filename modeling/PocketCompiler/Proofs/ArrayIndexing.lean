import Mathlib.Algebra.BigOperators.Group.List.Basic
import Mathlib.Data.List.Forall2
import PocketCompiler.Proofs.Grammar.Globals
import PocketCompiler.Proofs.Lower.Correct

/-!
# Arrays are laid out row by row

The address of `a[e1]...[ek]` is found one subscript at a time.  Each subscript adds its index times
the size of what is indexed there (`Node.Selects`), and nothing is loaded in between, since the
value of an array is its address.  `rowMajor` is the sum of these, and `rowMajor_add_le` and
`rowMajor_disjoint` say that elements lie inside their array and apart from one another.

`ParseState.indexing_rowMajor` puts this together for what is read, typed and run.
-/

namespace PocketCompiler

/-! ### Offsets of elements -/

/-- Arrays of arrays with these lengths, the outermost first. -/
def Ty.nested (elem : Ty) (lens : List Int) : Ty := lens.foldr (fun len ty => .array ty len) elem

/-- Arrays of arrays with these lengths, the outermost first, if all of their sizes are words. -/
def Ty.nestedOf (elem : Ty) : (lens : List Int) → Except Fault Ty
  | [] => .ok elem
  | len :: lens => do
    let ty ← nestedOf elem lens
    ty.arrayOf len

/-- Every index is one of its dimension. -/
def InRange (lens indices : List Int) : Prop :=
  List.Forall₂ (fun len index => 0 ≤ index ∧ index < len) lens indices

/-- How far an element is from the start of its array: the sum of its indices, each times the size
of what it counts. -/
def rowMajor (elem : Ty) : (lens indices : List Int) → Int
  | _ :: lens, index :: indices => index * (elem.nested lens).size + rowMajor elem lens indices
  | _, _ => 0

section Layout

variable {elem ty : Ty} {lens indices others : List Int}

@[simp] theorem Ty.nested_nil : elem.nested [] = elem := rfl

@[simp] theorem Ty.nested_cons (len : Int) :
    elem.nested (len :: lens) = .array (elem.nested lens) len := rfl

/-- The size of a nested array is the product of its dimensions and the size of an element. -/
theorem Ty.size_nested (elem : Ty) (lens : List Int) :
    (elem.nested lens).size = lens.prod * elem.size := by
  induction lens with
  | nil => rw [nested_nil, List.prod_nil, Int.one_mul]
  | cons len lens ih =>
    rw [nested_cons, size, ih, List.prod_cons, Int.mul_comm, Int.mul_assoc]

/-- A nested array type that is not refused is that with the dimensions. -/
theorem Ty.nested_of_nestedOf (h : elem.nestedOf lens = .ok ty) : ty = elem.nested lens := by
  induction lens generalizing ty with
  | nil => exact (Except.ok.inj h).symm
  | cons len lens ih =>
    obtain ⟨inner, hinner, hty⟩ := bind_eq_ok_iff.1 h
    obtain ⟨-, -, hline⟩ := bind_eq_ok_iff.1 hty
    rw [nested_cons, ← ih hinner]
    exact (Except.ok.inj hline).symm

/-- The size of an array is a word. -/
theorem Ty.fits_of_nestedOf (helem : Word.Fits elem.size) (h : elem.nestedOf lens = .ok ty) :
    Word.Fits ty.size := by
  cases lens with
  | nil =>
    obtain rfl := Except.ok.inj h
    exact helem
  | cons len lens =>
    obtain ⟨inner, hinner, hty⟩ := bind_eq_ok_iff.1 h
    obtain ⟨product, hproduct, hline⟩ := bind_eq_ok_iff.1 hty
    obtain rfl := Except.ok.inj hline
    exact (Word.checked_eq_ok_iff.1 hproduct).1

/-- A type that has been read is one of arrays whose sizes are words. -/
theorem Ty.nestedOf_of_run_arrayTypes : ∀ {dimensions : List (Int64 × Nat)} {ty : Ty}
    {s t : ParseState}, (Parse.arrayTypes elem dimensions).run s = .ok (ty, t) →
      elem.nestedOf (dimensions.map (·.1.toInt)) = .ok ty := by
  intro dimensions
  -- The inner dimensions are made first.
  induction dimensions with
  | nil =>
    intro ty s t h
    rw [← (Prod.mk.inj (Except.ok.inj h)).1]
    rfl
  | cons first inner ih =>
    intro ty s t h
    rw [Parse.arrayTypes, StateT.run_bind] at h
    obtain ⟨⟨made, u⟩, hmade, hrun⟩ := bind_eq_ok_iff.1 h
    change (Parse.arrayType made first.1 first.2).run u = _ at hrun
    unfold Parse.arrayType at hrun
    simp only at hrun
    split at hrun
    · cases harray : made.arrayOf first.1.toInt with
      | error fault => rw [harray] at hrun; cases hrun
      | ok array =>
        rw [harray] at hrun
        rw [← (Prod.mk.inj (Except.ok.inj hrun)).1, List.map_cons, nestedOf, ih hmade]
        exact harray
    · cases hrun

/-- An array with an element has no negative size. -/
theorem Ty.size_nested_nonneg (helem : 0 ≤ elem.size) (h : InRange lens indices) :
    0 ≤ (elem.nested lens).size := by
  induction h with
  | nil => exact helem
  | cons hfirst _ ih =>
    rw [nested_cons, size]
    exact Int.mul_nonneg ih (Int.le_of_lt (Int.lt_of_le_of_lt hfirst.1 hfirst.2))

/-- **An element lies inside its array.** -/
theorem rowMajor_add_le (helem : 0 ≤ elem.size) (h : InRange lens indices) :
    0 ≤ rowMajor elem lens indices
      ∧ rowMajor elem lens indices + elem.size ≤ (elem.nested lens).size := by
  induction h with
  | nil =>
    show 0 ≤ (0 : Int) ∧ 0 + elem.size ≤ elem.size
    omega
  | @cons len index lens indices hfirst hrest ih =>
    have hrow := Ty.size_nested_nonneg helem hrest
    have hstart : 0 ≤ index * (elem.nested lens).size := Int.mul_nonneg hfirst.1 hrow
    -- The row of the element ends where the next row starts.
    have hend : (index + 1) * (elem.nested lens).size ≤ len * (elem.nested lens).size :=
      Int.mul_le_mul_of_nonneg_right hfirst.2 hrow
    rw [Int.add_mul, Int.one_mul] at hend
    rw [rowMajor, Ty.nested_cons, Ty.size, Int.mul_comm (elem.nested lens).size len]
    omega

/-- **Different elements lie apart from one another.** -/
theorem rowMajor_disjoint (helem : 0 ≤ elem.size) (h : InRange lens indices)
    (h' : InRange lens others) (hne : indices ≠ others) :
    rowMajor elem lens indices + elem.size ≤ rowMajor elem lens others
      ∨ rowMajor elem lens others + elem.size ≤ rowMajor elem lens indices := by
  induction h generalizing others with
  | nil =>
    cases h'
    exact absurd rfl hne
  | @cons len index lens indices _ hrest ih =>
    cases h' with
    | @cons _ other _ others _ hrest' =>
      obtain ⟨hlow, hhigh⟩ := rowMajor_add_le helem hrest
      obtain ⟨hlow', hhigh'⟩ := rowMajor_add_le helem hrest'
      have hrow := Ty.size_nested_nonneg helem hrest
      simp only [rowMajor]
      rcases Int.lt_trichotomy index other with hlt | rfl | hgt
      · -- The rows are different, and the one with the lower index ends before the other starts.
        have hstep := Int.mul_le_mul_of_nonneg_right (Int.add_one_le_of_lt hlt) hrow
        rw [Int.add_mul, Int.one_mul] at hstep
        omega
      · have hinner := ih hrest' fun heq => hne (by rw [heq])
        omega
      · have hstep := Int.mul_le_mul_of_nonneg_right (Int.add_one_le_of_lt hgt) hrow
        rw [Int.add_mul, Int.one_mul] at hstep
        omega

end Layout

/-! ### Index expressions -/

/-- Whether an expression calls no function and assigns to nothing. -/
def Node.isPure : Node → Bool
  | .num _ _ | .var _ _ => true
  | .neg _ operand | .addr _ operand | .deref _ operand => operand.isPure
  | .binary _ _ lhs rhs => lhs.isPure && rhs.isPure
  | _ => false

section Pure

variable {routine : Routine}

/-- A pure expression passes nothing to functions. -/
theorem Node.passes_of_isPure : ∀ node : Node, node.isPure = true → node.passes = []
  | .num _ _, _ => rfl
  | .var _ _, _ => rfl
  | .neg _ operand, h => passes_of_isPure operand h
  | .addr _ operand, h => passes_of_isPure operand h
  | .deref _ operand, h => passes_of_isPure operand h
  | .binary _ _ lhs rhs, h => by
    obtain ⟨hlhs, hrhs⟩ := Bool.and_eq_true_iff.1 h
    rw [passes, passes_of_isPure lhs hlhs, passes_of_isPure rhs hrhs]
    rfl

mutual

/-- The code of an expression without calls is the same at every depth of the stack. -/
theorem Lower.exprAt_of_isPure (d d' : Nat) : ∀ node : Node, node.isPure = true →
    exprAt routine d node = exprAt routine d' node
  | .num _ _, _ => by rw [exprAt, exprAt]
  | .var _ _, _ => by rw [exprAt, exprAt]
  | .neg _ operand, h => by rw [exprAt, exprAt, exprAt_of_isPure d d' operand h]
  | .addr _ operand, h => by rw [exprAt, exprAt, addressAt_of_isPure d d' operand h]
  | .deref _ operand, h => by rw [exprAt, exprAt, exprAt_of_isPure d d' operand h]
  | .binary _ _ lhs rhs, h => by
    obtain ⟨hlhs, hrhs⟩ := Bool.and_eq_true_iff.1 h
    rw [exprAt, exprAt, exprAt_of_isPure d d' rhs hrhs, exprAt_of_isPure (d + 1) (d' + 1) lhs hlhs]

/-- The code of a pure expression does not depend on how many words are waiting. -/
theorem Lower.addressAt_of_isPure (d d' : Nat) : ∀ node : Node, node.isPure = true →
    addressAt routine d node = addressAt routine d' node
  | .var _ _, _ => by rw [addressAt, addressAt]
  | .deref _ operand, h => by rw [addressAt, addressAt, exprAt_of_isPure d d' operand h]
  | .num _ _, _ => rfl
  | .neg _ _, _ => rfl
  | .addr _ _, _ => rfl
  | .binary _ _ _ _, _ => rfl

end

mutual

/-- An expression without calls and assignments leaves the memory as it is. -/
theorem Setting.memory_of_isPure {setting : Setting} {memory memory' : Memory} {value : Int64} :
    ∀ node : Node, node.isPure = true →
      setting.eval node memory = some (value, memory') → memory' = memory
  | .num _ _, _, h => by
    rw [eval] at h
    exact (Prod.mk.inj (Option.some.inj h)).2.symm
  | .var _ _, _, h => by
    rw [eval] at h
    exact (Prod.mk.inj (Option.some.inj h)).2.symm
  | .neg _ operand, hpure, h => by
    rw [eval] at h
    obtain ⟨⟨value, next⟩, hoperand, hrest⟩ := Option.bind_eq_some_iff.1 h
    obtain ⟨-, rfl⟩ := Prod.mk.inj (Option.some.inj hrest)
    exact memory_of_isPure operand hpure hoperand
  | .addr _ operand, hpure, h => by
    rw [eval] at h
    exact memory_of_isPure_address operand hpure h
  | .deref _ operand, hpure, h => by
    rw [eval] at h
    obtain ⟨⟨value, next⟩, hoperand, hrest⟩ := Option.bind_eq_some_iff.1 h
    obtain ⟨-, rfl⟩ := Prod.mk.inj (Option.some.inj hrest)
    exact memory_of_isPure operand hpure hoperand
  | .binary _ op lhs rhs, hpure, h => by
    obtain ⟨hlhs, hrhs⟩ := Bool.and_eq_true_iff.1 hpure
    rw [eval] at h
    obtain ⟨⟨b, next⟩, hb, hrest⟩ := Option.bind_eq_some_iff.1 h
    obtain ⟨⟨a, last⟩, ha, hvalue⟩ := Option.bind_eq_some_iff.1 hrest
    obtain ⟨value, -, hline⟩ := Option.bind_eq_some_iff.1 hvalue
    obtain ⟨-, rfl⟩ := Prod.mk.inj (Option.some.inj hline)
    obtain rfl := memory_of_isPure rhs hrhs hb
    exact memory_of_isPure lhs hlhs ha

/-- Evaluating a pure address leaves the memory as it is. -/
theorem Setting.memory_of_isPure_address {setting : Setting} {memory memory' : Memory}
    {value : Int64} : ∀ node : Node, node.isPure = true →
      setting.evalAddress node memory = some (value, memory') → memory' = memory
  | .var _ _, _, h => by
    rw [evalAddress] at h
    exact (Prod.mk.inj (Option.some.inj h)).2.symm
  | .deref _ operand, hpure, h => by
    rw [evalAddress] at h
    exact memory_of_isPure operand hpure h
  | .num _ _, _, h => nomatch h
  | .neg _ _, _, h => nomatch h
  | .addr _ _, _, h => nomatch h
  | .binary _ _ _ _, _, h => nomatch h

end

/-- The code of the expression, run from `m`, ends with the integer in `rax`. -/
def EvaluatesTo (world : World) (routine : Routine) (m : Machine) (node : Node) (value : Int) :
    Prop :=
  ∃ s t code n, (Lower.expr routine node).run s = .ok (code, t) ∧ world.run code m = some n
    ∧ n.regs .rax = Int64.ofInt value

/-- Code that ends in a value is there at every depth, and the value is that of the expression. -/
theorem EvaluatesTo.eval {world : World} {m : Machine} {node : Node} {value : Int}
    (h : EvaluatesTo world routine m node value) (hpure : node.isPure = true) :
    (∀ depth, ∃ code, Lower.exprAt routine depth node = .ok code)
      ∧ (world.setting routine (m.regs .rbp)).eval node m.memory
        = some (Int64.ofInt value, m.memory) := by
  obtain ⟨s, t, code, n, hcode, hrun, hrax⟩ := h
  obtain ⟨hcode, -⟩ := Lower.run_expr_eq_ok_iff.1 hcode
  refine ⟨fun depth => ⟨code, (Lower.exprAt_of_isPure depth s.depth node hpure).trans hcode⟩, ?_⟩
  -- A pure expression makes no calls.
  have hpasses : m.passes = node.passes ++ m.passes := by
    rw [Node.passes_of_isPure node hpure]
    rfl
  have hfollows := run_exprAt world node m hcode hpasses
  rw [hrun] at hfollows
  cases heval : (world.setting routine (m.regs .rbp)).eval node m.memory with
  | none =>
    rw [heval] at hfollows
    exact nomatch hfollows
  | some r =>
    obtain ⟨found, memory⟩ := r
    rw [heval] at hfollows
    obtain ⟨o, ho, hreaches⟩ := hfollows
    obtain rfl := Option.some.inj ho
    obtain rfl := Setting.memory_of_isPure node hpure heval
    rw [← hreaches.rax, hrax]

/-- Pure expressions evaluate one after the other as each does alone. -/
theorem EvaluatesTo.evalAll {world : World} {m : Machine} {nodes : List Node} {values : List Int}
    (h : List.Forall₂ (EvaluatesTo world routine m) nodes values)
    (hpure : ∀ node ∈ nodes, node.isPure = true) :
    (∀ node ∈ nodes, ∀ depth, ∃ code, Lower.exprAt routine depth node = .ok code)
      ∧ List.Forall₂ (fun node value => (world.setting routine (m.regs .rbp)).eval node m.memory
        = some (Int64.ofInt value, m.memory)) nodes values := by
  induction h with
  | nil => exact ⟨fun _ h => absurd h List.not_mem_nil, .nil⟩
  | cons hnode _ ih =>
    obtain ⟨hfirst, hmore⟩ := List.forall_mem_cons.1 hpure
    obtain ⟨hcode, heval⟩ := hnode.eval hfirst
    obtain ⟨hcodes, hevals⟩ := ih hmore
    exact ⟨List.forall_mem_cons.2 ⟨hcode, hcodes⟩, .cons heval hevals⟩

end Pure

/-! ### Subscripts -/

/-- `typed` is `base` with subscripts behind it, all with their types. -/
inductive Node.Selects (elem : Ty) : (base : Node) → (lens : List Int) → (indices : List Node) →
    (typed : Node) → Prop
  | nil {base : Node} : Selects elem base [] [] base
  | cons {base index typed : Node} {len : Int} {lens : List Int} {indices : List Node} {loc : Nat}
      {mark mark' mark'' : Mark}
      (h : Selects elem
        (.deref ⟨loc, some (elem.nested lens)⟩ (.binary mark .add base
          (.binary mark' .mul index (.num mark'' (Int64.ofInt (elem.nested lens).size)))))
        lens indices typed) :
    Selects elem base (len :: lens) (index :: indices) typed

namespace Node

/-- A node that has an address, whose value is its address because it is an array. -/
structure IsArray (node : Node) (elem : Ty) (len : Int) : Prop where
  hasAddress : node.hasAddress = true
  ty : node.ty = some (.array elem len)

variable {elem : Ty} {base typed : Node} {lens : List Int} {indices : List Node}

/-- The value of an array is its address. -/
theorem IsArray.eval {node : Node} {len : Int} (h : node.IsArray elem len) (setting : Setting)
    (memory : Memory) : setting.eval node memory = setting.evalAddress node memory := by
  obtain ⟨haddress, hty⟩ := h
  cases node with
  | var mark ref =>
    have hmark : mark.ty = some (.array elem len) := hty
    rw [Setting.eval, Setting.evalAddress, hmark]
    rfl
  | deref mark operand =>
    have hmark : mark.ty = some (.array elem len) := hty
    rw [Setting.eval, Setting.evalAddress, hmark]
    exact Option.bind_fun_some _
  | _ => exact absurd haddress Bool.false_ne_true

/-- What has an address is computed from its address. -/
theorem exprAt_of_hasAddress {node : Node} (h : node.hasAddress = true) (routine : Routine)
    (depth : Nat) : Lower.exprAt routine depth node = (do
      let place ← Lower.addressAt routine depth node
      return place ++ Lower.load node.ty) := by
  cases node with
  | var mark ref =>
    rw [Lower.exprAt, Lower.addressAt]
    rfl
  | deref mark operand =>
    rw [Lower.exprAt, Lower.addressAt]
    rfl
  | _ => exact absurd h Bool.false_ne_true

/-- The code of an array is that of its address. -/
theorem IsArray.exprAt {node : Node} {len : Int} (h : node.IsArray elem len) (routine : Routine)
    (depth : Nat) : Lower.exprAt routine depth node = Lower.addressAt routine depth node := by
  rw [exprAt_of_hasAddress h.hasAddress, h.ty]
  cases Lower.addressAt routine depth node with
  | error fault => rfl
  | ok code => exact congrArg Except.ok (List.append_nil code)

/-- The outermost index is scaled by the size of what it selects. -/
theorem ofInt_rowMajor_cons (elem : Ty) (base : Int64) (len index : Int) (lens indices : List Int) :
    base + Int64.ofInt (rowMajor elem (len :: lens) (index :: indices))
      = base + Int64.ofInt index * Int64.ofInt (elem.nested lens).size
        + Int64.ofInt (rowMajor elem lens indices) := by
  rw [rowMajor, Int64.ofInt_add, Int64.ofInt_mul, Int64.add_assoc]

/-- **Subscripts add up**: from the address of an array they lead to the address of an element. -/
theorem Selects.evalAddress {setting : Setting} {memory : Memory} {values : List Int}
    (h : Selects elem base lens indices typed)
    (hbase : base.hasAddress = true ∧ base.ty = some (elem.nested lens))
    (hindices : List.Forall₂ (fun index value =>
      setting.eval index memory = some (Int64.ofInt value, memory)) indices values) :
    ∀ {address : Int64}, setting.evalAddress base memory = some (address, memory) →
      setting.evalAddress typed memory
        = some (address + Int64.ofInt (rowMajor elem lens values), memory) := by
  -- On the dimensions: the first subscript moves on by whole rows, and the row is the new base.
  induction h generalizing values with
  | nil =>
    intro address haddress
    cases hindices
    rw [haddress]
    show _ = some (address + 0, memory)
    rw [Int64.add_zero]
  | @cons base index typed len lens indices loc mark mark' mark'' _ ih =>
    intro address haddress
    cases hindices with
    | @cons _ value _ values hindex hindices =>
      rw [ofInt_rowMajor_cons]
      refine ih ⟨rfl, rfl⟩ hindices ?_
      have harray : base.IsArray (elem.nested lens) len := ⟨hbase.1, hbase.2⟩
      rw [Setting.evalAddress, Setting.eval, Setting.eval, Setting.eval]
      simp only [hindex, harray.eval, haddress, BinaryOp.apply, Option.bind_eq_bind,
        Option.bind_some, pure]

/-- Subscripts with pure indices are pure. -/
theorem Selects.isPure (h : Selects elem base lens indices typed) (hbase : base.isPure = true)
    (hindices : ∀ index ∈ indices, index.isPure = true) : typed.isPure = true := by
  induction h with
  | nil => exact hbase
  | cons _ ih =>
    obtain ⟨hindex, hmore⟩ := List.forall_mem_cons.1 hindices
    refine ih ?_ hmore
    rw [Node.isPure, Node.isPure, Node.isPure, Node.isPure, hbase, hindex]
    rfl

/-- Subscripts have code if their base and their indices have. -/
theorem Selects.exists_addressAt {routine : Routine} (h : Selects elem base lens indices typed)
    (hbase : base.hasAddress = true ∧ base.ty = some (elem.nested lens))
    (haddress : ∀ depth, ∃ code, Lower.addressAt routine depth base = .ok code)
    (hindices : ∀ index ∈ indices, ∀ depth, ∃ code, Lower.exprAt routine depth index = .ok code) :
    ∀ depth, ∃ code, Lower.addressAt routine depth typed = .ok code := by
  induction h with
  | nil => exact haddress
  | @cons base index typed len lens indices loc mark mark' mark'' _ ih =>
    obtain ⟨hindex, hmore⟩ := List.forall_mem_cons.1 hindices
    refine ih ⟨rfl, rfl⟩ (fun depth => ?_) hmore
    have harray : base.IsArray (elem.nested lens) len := ⟨hbase.1, hbase.2⟩
    obtain ⟨place, hplace⟩ := haddress (depth + 1)
    obtain ⟨code, hcode⟩ := hindex (depth + 1)
    rw [← harray.exprAt] at hplace
    exact ⟨_, by rw [Lower.addressAt, Lower.exprAt, Lower.exprAt, Lower.exprAt, hcode, hplace]; rfl⟩

end Node

/-! ### Reading subscripts -/

/-- Subscripts are read from `s` to the state at the end; these are their indices, with their
types. -/
inductive ParseState.ReadsIndices : ParseState → List Node → ParseState → Prop
  | nil {s : ParseState} : ReadsIndices s [] s
  | cons {s t u : ParseState} {index typed : Node} {indices : List Node}
      (hopen : s.sees "[" = true) (hindex : (Rule.expr.step s.advance).Yields index t)
      (hclose : t.sees "]" = true) (htyped : annotate t.symbols index = .ok typed)
      (h : ReadsIndices t.advance indices u) : ReadsIndices s (typed :: indices) u

/-- Whether an expression with its type is an integer. -/
def Node.IsInteger (node : Node) : Prop := node.ty = some .int ∨ node.ty = some .char

section Reading

variable {s u : ParseState} {elem : Ty} {lens : List Int} {indices : List Node}

/-- An element of an array, as it is made of an array and an index with their types. -/
theorem Node.sum_of_array {base index : Node} {len : Int} (loc : Nat)
    (hbase : base.ty = some (.array elem len)) (hindex : index.IsInteger) :
    Node.sum base index loc = .ok (Node.scaled .add base index elem.size loc) := by
  have hleft : base.elementSize? = some elem.size := by
    rw [elementSize?, hbase]
    rfl
  have hright : index.elementSize? = none := by
    rcases hindex with h | h <;>
    · rw [elementSize?, h]
      rfl
  rw [sum, hleft, hright]

/-- An operator gets its type from its left operand. -/
theorem annotate_binary {symbols : Symbols} {lhs rhs lhs' rhs' : Node} {ty : Ty} (loc : Nat)
    (op : BinaryOp) (hlhs : annotate symbols lhs = .ok lhs')
    (hrhs : annotate symbols rhs = .ok rhs') (hty : lhs'.ty = some ty) :
    annotate symbols (.binary ⟨loc, none⟩ op lhs rhs)
      = .ok (.binary ⟨loc, some (op.resultTy ty)⟩ op lhs' rhs') := by
  rw [annotate.eq_def]
  show (do
    let lhs ← annotate symbols lhs
    let rhs ← annotate symbols rhs
    let found ← binaryTy op lhs
    return Node.binary (Mark.typed ⟨loc, none⟩ found) op lhs rhs) = _
  rw [hlhs, hrhs]
  show (do
    let found ← binaryTy op lhs'
    return Node.binary (Mark.typed ⟨loc, none⟩ found) op lhs' rhs') = _
  rw [binaryTy_of_ty hty]
  rfl

/-- The type of an element, once its array and its index have theirs. -/
theorem exists_annotate_element {base index : Node} {len : Int} (loc : Nat)
    (hbase : base.ty = some (.array elem len)) (hindex : index.IsInteger) :
    ∃ mark mark' mark'', ∀ symbols, annotate symbols
        (.deref ⟨loc, none⟩ (Node.scaled .add base index elem.size loc))
      = .ok (.deref ⟨loc, some elem⟩ (.binary mark .add base
        (.binary mark' .mul index (.num mark'' (Int64.ofInt elem.size))))) := by
  obtain ⟨ty, hty⟩ : ∃ ty, index.ty = some ty := by
    rcases hindex with h | h
    · exact ⟨_, h⟩
    · exact ⟨_, h⟩
  refine ⟨⟨loc, some (.array elem len)⟩, ⟨loc, some ty⟩, ⟨index.loc, some .int⟩, fun symbols => ?_⟩
  -- Base and subscript are typed already; only the width is new.
  have hwidth : annotate symbols (.num ⟨index.loc, none⟩ (Int64.ofInt elem.size))
      = .ok (.num ⟨index.loc, some .int⟩ (Int64.ofInt elem.size)) := by
    rw [annotate.eq_def]
    rfl
  have hproduct := annotate_binary loc .mul (annotate_of_ty hty) hwidth hty
  have hsum := annotate_binary loc .add (annotate_of_ty hbase) hproduct hbase
  rw [annotate.eq_def]
  show (do
    let operand ← annotate symbols (Node.scaled .add base index elem.size loc)
    let found ← derefTy loc operand
    return Node.deref (Mark.typed ⟨loc, none⟩ found) operand) = _
  rw [Node.scaled, hsum]
  rfl

/-- **What is read for subscripts behind an array.**  The tree is made subscript by subscript, and
each array gets its type before its element is made. -/
theorem ParseState.ReadsIndices.exists_selects (h : s.ReadsIndices indices u) :
    ∀ {lens : List Int} {node base : Node}, indices.length = lens.length →
    (∀ index ∈ indices, index.IsInteger) → base.hasAddress = true →
    base.ty = some (elem.nested lens) →
    (∀ larger, s.symbols.Extends larger → annotate larger node = .ok base) →
      ∃ last typed, Node.Selects elem base lens indices typed
        ∧ (∀ read t, ((Rule.subscripts last).step u).Yields read t →
          ((Rule.subscripts node).step s).Yields read t)
        ∧ (∀ larger, u.symbols.Extends larger → annotate larger last = .ok typed)
        ∧ typed.hasAddress = true ∧ typed.ty = some elem := by
  -- Each subscript takes the outermost dimension off, so the dimensions shrink with the indices.
  induction h with
  | nil =>
    intro lens node base hlength _ haddress hty hannotate
    obtain rfl := List.eq_nil_of_length_eq_zero hlength.symm
    exact ⟨node, base, .nil, fun _ _ h => h, hannotate, haddress, hty⟩
  | @cons s t u index typed indices hopen hindex hclose htyped _ ih =>
    intro lens node base hlength hintegers haddress hty hannotate
    cases lens with
    | nil => exact nomatch hlength
    | cons len lens =>
      obtain ⟨hinteger, hmore⟩ := List.forall_mem_cons.1 hintegers
      -- Reading a subscript may only add string literals, so what was typed before it stays typed.
      have hgrow : s.symbols.Extends t.symbols := by
        have hleads := hindex.leads rfl
        exact ⟨hleads.locals, hleads.globals⟩
      have hty : base.ty = some (.array (elem.nested lens) len) := hty
      have hsum := Node.sum_of_array s.loc hty hinteger
      obtain ⟨mark, mark', mark'', helement⟩ := exists_annotate_element s.loc hty hinteger
      obtain ⟨last, element, hselects, hreads, hlast⟩ := @ih lens _ (.deref ⟨s.loc, some _⟩ _)
        (Nat.succ.inj hlength) hmore rfl rfl fun larger _ => helement larger
      refine ⟨last, element, .cons hselects, fun read v hyields => ?_, hlast⟩
      -- The operand in front of the bracket is typed again, and its type is the one it had.
      have hjoin : Join.typed Node.sum t.symbols node index s.loc
          = .ok (Node.scaled .add base typed (elem.nested lens).size s.loc) := by
        rw [Join.typed, hannotate _ hgrow, htyped]
        exact hsum
      rw [Rule.step, if_pos hopen]
      refine .call hindex ?_
      rw [Step.yields_expect_iff]
      refine ⟨hclose, ?_⟩
      show (Step.ofResult (Join.typed Node.sum t.symbols node index s.loc) _).Yields read v
      rw [hjoin]
      exact .call (hreads read v hyields) .done

/-- Behind the name of a variable, subscripts are read as part of the same expression. -/
theorem yields_postfixed_of_name {name : String} {loc : Nat} {ref : VarRef} {read : Node}
    {t : ParseState} (hname : s.current? = some ⟨.identifier, loc, name⟩)
    (hfind : s.scopes.find? name = some ref) (hopen : s.advance.sees "[" = true)
    (h : ((Rule.subscripts (.var ⟨loc, none⟩ ref)).step s.advance).Yields read t) :
    (Rule.postfixed.step s).Yields read t := by
  have hnocall : s.advance.sees "(" = false := ParseState.sees_eq_false hopen (by decide)
  have hnoparen : s.sees "(" = false := by
    rw [ParseState.sees, hname]
    rfl
  have hprimary : (Rule.primary.step s).Yields (.var ⟨loc, none⟩ ref) s.advance := by
    rw [Rule.step, hnoparen, hname, if_neg Bool.false_ne_true]
    show (Step.identifier s _).Yields _ _
    rw [Step.yields_identifier_iff]
    refine ⟨name, loc, hname, ?_⟩
    have hscopes : s.advance.scopes.find? name = some ref := hfind
    rw [hnocall, Step.useOf, hscopes]
    exact .done
  exact .call hprimary (.call h .done)

/-- The bytes of different elements have different addresses. -/
theorem address_ne_of_rowMajor {ty : Ty} {values others : List Int} (helem : 0 ≤ elem.size)
    (hty : elem.nestedOf lens = .ok ty) (hfits : Word.Fits elem.size)
    (h : InRange lens values) (h' : InRange lens others) (hne : values ≠ others) (base : Int64)
    {x y : Int} (hx : 0 ≤ x ∧ x < elem.size) (hy : 0 ≤ y ∧ y < elem.size) :
    base + Int64.ofInt (rowMajor elem lens values + x)
      ≠ base + Int64.ofInt (rowMajor elem lens others + y) := by
  obtain ⟨hlow, hhigh⟩ := rowMajor_add_le helem h
  obtain ⟨hlow', hhigh'⟩ := rowMajor_add_le helem h'
  have happart := rowMajor_disjoint helem h h' hne
  have hword := Ty.fits_of_nestedOf hfits hty
  rw [Ty.nested_of_nestedOf hty, Word.Fits, Word.greatest] at hword
  intro heq
  -- Both offsets are words, so they are equal if the addresses are.
  have hoffsets := congrArg Int64.toInt ((Int64.add_right_inj base).1 heq)
  rw [Int64.toInt_ofInt_of_le (by omega) (by omega),
    Int64.toInt_ofInt_of_le (by omega) (by omega)] at hoffsets
  omega

/-- **Indexing is row by row and stays inside the array.**  Let a name be read that means a variable
of arrays of arrays, made by `Ty.arrayOf` of integers or pointers as all types that are read are,
and as many subscripts behind it as there are dimensions.  The size of the variable is the product
of its lengths and the size of an element.  What is read has the type of an element, and the code
for its address, wherever it runs and whatever the indices are that the code of the index
expressions computes there, gives the place of the variable and the sum of the indices, each times
the size of what it counts.  The bytes of an element are among those of the variable, and different
elements share none. -/
theorem ParseState.indexing_rowMajor {name : String} {loc : Nat} {ref : VarRef} {v : Variable}
    (hname : s.current? = some ⟨.identifier, loc, name⟩) (hfind : s.scopes.find? name = some ref)
    (hget : s.symbols.get ref = .ok v)
    (helem : elem = .int ∨ elem = .char ∨ ∃ base, elem = .ptr base)
    (hty : elem.nestedOf lens = .ok v.ty) (hne : lens ≠ [])
    (hread : s.advance.ReadsIndices indices u) (hlength : indices.length = lens.length)
    (hindices : ∀ index ∈ indices, index.IsInteger ∧ index.isPure = true) :
    (∀ dimensions t ty w, (Parse.arrayTypes elem dimensions).run t = .ok (ty, w) →
      elem.nestedOf (dimensions.map (·.1.toInt)) = .ok ty)
    ∧ v.ty.size = lens.prod * elem.size
    ∧ (∃ node typed, (∀ read t, ((Rule.subscripts node).step u).Yields read t →
          (Rule.postfixed.step s).Yields read t)
        ∧ (∀ larger, u.symbols.Extends larger → annotate larger node = .ok typed)
        ∧ typed.ty = some elem
        ∧ ∀ (world : World) (routine : Routine) (m : Machine) (values : List Int),
          Lower.Covers routine s.symbols →
          List.Forall₂ (EvaluatesTo world routine m) indices values → ∀ before : LowerState,
            ∃ code n, (Lower.address routine typed).run before = .ok (code, before)
              ∧ (Lower.expr routine typed).run before
                = .ok (code ++ Lower.load (some elem), before)
              ∧ world.run code m = some n
              ∧ n.regs .rax = routine.place world (m.regs .rbp) ref
                + Int64.ofInt (rowMajor elem lens values)
              ∧ n.memory = m.memory)
    ∧ (∀ values, InRange lens values → 0 ≤ rowMajor elem lens values
        ∧ rowMajor elem lens values + elem.size ≤ v.ty.size)
    ∧ ∀ values others, InRange lens values → InRange lens others → values ≠ others →
        ∀ (base : Int64) (x y : Int), 0 ≤ x ∧ x < elem.size → 0 ≤ y ∧ y < elem.size →
          base + Int64.ofInt (rowMajor elem lens values + x)
            ≠ base + Int64.ofInt (rowMajor elem lens others + y) := by
  have hsize : 0 ≤ elem.size ∧ Word.Fits elem.size := by
    rcases helem with rfl | rfl | ⟨base, rfl⟩
    · decide
    · decide
    · exact ⟨by rw [Ty.size]; decide, by rw [Ty.size]; decide⟩
  have hnested := Ty.nested_of_nestedOf hty
  refine ⟨fun _ _ _ _ => Ty.nestedOf_of_run_arrayTypes, by rw [hnested, Ty.size_nested], ?_, ?_, ?_⟩
  -- There is an index to be read, so a bracket is right behind the name.
  · have hopen : s.advance.sees "[" = true := by
      cases hread with
      | nil => exact absurd (List.eq_nil_of_length_eq_zero hlength.symm) hne
      | cons hopen => exact hopen
    -- The variable is typed as an array, whatever else is declared in the indices.
    have hvar : ∀ larger, s.symbols.Extends larger → annotate larger (.var ⟨loc, none⟩ ref)
        = .ok (.var ⟨loc, some v.ty⟩ ref) := by
      intro larger hgrow
      rw [annotate.eq_def]
      show (do
        let found ← orFault (larger.get ref)
        return Node.var (Mark.typed ⟨loc, none⟩ found.ty) ref) = _
      rw [hgrow.get hget]
      rfl
    have hstart : (Node.var ⟨loc, some v.ty⟩ ref).hasAddress = true
        ∧ (Node.var ⟨loc, some v.ty⟩ ref).ty = some (elem.nested lens) :=
      ⟨rfl, congrArg some hnested⟩
    obtain ⟨node, typed, hselects, hreads, htyped, haddress, helement⟩ :=
      hread.exists_selects hlength (fun index hindex => (hindices index hindex).1) hstart.1 hstart.2
        hvar
    refine ⟨node, typed, fun read t h => ?_, htyped, helement,
      fun world routine m values hcovers hevaluates before => ?_⟩
    · exact yields_postfixed_of_name hname hfind hopen (hreads read t h)
    -- The indices are pure: each leaves the memory as it is, so they are evaluated one by one, and
    -- the words that wait make no difference to their code.
    obtain ⟨hcodes, hevals⟩ := EvaluatesTo.evalAll hevaluates fun index hindex =>
      (hindices index hindex).2
    obtain ⟨place, hplace⟩ := hcovers.variableAt hget
    obtain ⟨code, hcode⟩ := hselects.exists_addressAt hstart
      (fun depth => ⟨place, by rw [Lower.addressAt, hplace]⟩) hcodes before.depth
    have hpure := hselects.isPure rfl fun index hindex => (hindices index hindex).2
    -- No function is called, so the words of the machine stay as they are.
    have hpasses : m.passes = typed.passes ++ m.passes := by
      rw [Node.passes_of_isPure typed hpure]
      rfl
    have heval := hselects.evalAddress hstart hevals rfl
    have hfollows := run_addressAt world typed m hcode hpasses
    rw [heval] at hfollows
    obtain ⟨n, hrun, hreaches⟩ := hfollows
    refine ⟨code, n, ?_, ?_, hrun, hreaches.rax, hreaches.memory⟩
    · rw [Lower.run_address, hcode]
      rfl
    · rw [Lower.run_expr, Node.exprAt_of_hasAddress haddress, hcode, helement]
      rfl
  -- An element ends where the next one starts, and the last one ends with the array.
  · intro values h
    rw [hnested]
    exact rowMajor_add_le hsize.1 h
  · intro values others h h' hvalues base x y hx hy
    exact address_ne_of_rowMajor hsize.1 hty hsize.2 h h' hvalues base hx hy

/-- `t[1][i]` of a `[2][3]char` at 4096, where `i` is a byte of the frame that holds 2. -/
theorem ParseState.indexing_rowMajor_matrix :
    let s : ParseState :=
      { rest := [⟨.identifier, 0, "t"⟩, ⟨.punctuator, 1, "["⟩, ⟨.number (some 1), 2, "1"⟩,
          ⟨.punctuator, 3, "]"⟩, ⟨.punctuator, 4, "["⟩, ⟨.identifier, 5, "i"⟩,
          ⟨.punctuator, 6, "]"⟩, ⟨.punctuator, 7, ";"⟩]
        stop := 8
        scopes := [[("i", .localVar 0)], [("t", .globalVar 0)]]
        locals := [⟨"i", .char, none⟩]
        globals := [⟨"t", .array (.array .char 3) 2, none⟩] }
    let world : World := ⟨fun _ => 4096, 0, fun _ _ _ => none⟩
    let routine : Routine := ⟨"main", false, [-1], s.globals⟩
    let m : Machine := ⟨fun _ => 80, fun _ => 2, [], (0, 0), []⟩
    ∃ node typed t, (Rule.postfixed.step s).Yields node t ∧ t.sees ";" = true
      ∧ annotate s.symbols node = .ok typed
      ∧ ∃ code n, (Lower.address routine typed).run ⟨0, 0⟩ = .ok (code, ⟨0, 0⟩)
        ∧ world.run code m = some n ∧ n.regs .rax = 4101 := by
  intro s world routine m
  -- The subscripts are `[1][i]`, and `i` is 2 in this memory.
  have hread : s.advance.ReadsIndices
      [.num ⟨2, some .int⟩ 1, .var ⟨5, some .char⟩ (.localVar 0)] _ :=
    .cons rfl ((Rule.run_eq_ok_iff .expr).1 rfl) rfl rfl
      (.cons rfl ((Rule.run_eq_ok_iff .expr).1 rfl) rfl rfl .nil)
  have hvalues : List.Forall₂ (EvaluatesTo world routine m)
      [.num ⟨2, some .int⟩ 1, .var ⟨5, some .char⟩ (.localVar 0)] [1, 2] :=
    .cons ⟨⟨0, 0⟩, _, _, _, rfl, rfl, rfl⟩ (.cons ⟨⟨0, 0⟩, _, _, _, rfl, rfl, rfl⟩ .nil)
  -- So the address is that of element 1 * 3 + 2.
  have hty : Ty.nestedOf .char [2, 3] = .ok (.array (.array .char 3) 2) := rfl
  obtain ⟨-, -, ⟨node, typed, hreads, htyped, -, hcode⟩, -⟩ :=
    ParseState.indexing_rowMajor (s := s) rfl rfl rfl (.inr (.inl rfl)) hty (List.cons_ne_nil _ _)
      hread rfl (List.forall_mem_cons.2 ⟨⟨.inl rfl, rfl⟩,
        List.forall_mem_singleton.2 ⟨.inr rfl, rfl⟩⟩)
  obtain ⟨code, n, hcode, -, hrun, hrax, -⟩ := hcode world routine m [1, 2]
    ⟨Nat.le_refl _, Nat.le_refl _⟩ hvalues ⟨0, 0⟩
  exact ⟨node, typed, _, hreads node _ .done, rfl, htyped _ (.refl _), code, n, hcode, hrun, hrax⟩

end Reading

end PocketCompiler
