import PocketCompiler.Proofs.Compile
import PocketCompiler.Proofs.EarlyTyping
import PocketCompiler.Proofs.Lower.Correct
import PocketCompiler.Proofs.Machine.Flat

/-!
# The value of an assignment

The code of an assignment leaves the word that was assigned in `rax`.  Where all of it is stored, it
is also what a load gives afterwards.  A byte retains less: its low byte, with its sign.  So the
value of an assignment to a byte is what has been stored only if it is in the range of a byte, and
chains of assignments that pass through a byte differ from assignments one after the other.

`Source.value_assigned` is the statement for the assignments of an accepted source.  In one source
the two values differ (`Source.not_value_assigned`).
-/

namespace PocketCompiler

/-! ### What a type retains -/

/-- Whether a value of the type can be this word: a byte is in the range of a byte. -/
def Ty.CanHold (ty : Ty) (value : Int64) : Prop :=
  ty = .char → -128 ≤ value.toInt ∧ value.toInt ≤ 127

instance (ty : Ty) (value : Int64) : Decidable (ty.CanHold value) :=
  inferInstanceAs (Decidable (ty = .char → -128 ≤ value.toInt ∧ value.toInt ≤ 127))

theorem toInt8_lowByte (value : Int64) : (lowByte value).toInt8 = value.toInt8 := by
  apply Int8.toBitVec_inj.1
  rw [Int64.toBitVec_toInt8]
  exact (BitVec.signExtend_eq_setWidth_of_le value.toBitVec (show 8 ≤ 64 by decide)).symm

theorem toInt_signedByte (value : Int64) :
    (signedByte (lowByte value)).toInt = value.toInt.bmod 256 := by
  rw [signedByte, Int8.toInt_toInt64, toInt8_lowByte, Int64.toInt_toInt8]

theorem lowByte_signedByte (byte : UInt8) : lowByte (signedByte byte) = byte := by
  rw [← UInt8.toUInt8_toInt8 (lowByte _), toInt8_lowByte, signedByte, Int8.toInt8_toInt64,
    UInt8.toUInt8_toInt8]

/-- A word is retained exactly if the type can hold it. -/
theorem Ty.retained_eq_iff {ty : Ty} {value : Int64} :
    ty.retained value = value ↔ ty.CanHold value := by
  unfold retained CanHold
  split
  · next hchar =>
    rw [← Int64.toInt_inj, toInt_signedByte]
    simp only [hchar, forall_const, Int.bmod]
    omega
  · next hchar => simp [hchar]

theorem Ty.lowByte_retained (ty : Ty) (value : Int64) :
    lowByte (ty.retained value) = lowByte value := by
  unfold retained
  split
  · exact lowByte_signedByte _
  · rfl

/-- Whether a word passes through one type to another as it would come there directly. -/
theorem Ty.retained_retained_iff {tx ty : Ty} {value : Int64} :
    tx.retained value = tx.retained (ty.retained value) ↔ tx = .char ∨ ty.CanHold value := by
  by_cases htx : tx = .char
  · have hlow := ty.lowByte_retained value
    simp only [retained, htx, if_true] at hlow ⊢
    simp [hlow]
  · rw [← retained_eq_iff, eq_comm]
    simp [retained, htx]

namespace Memory

/-- What is read where a value was put, for all types that can be assigned to. -/
theorem fetch_put_of_not_isArray {ty : Ty} (hty : ty.isArray = false) (memory : Memory)
    (address value : Int64) :
    (memory.put (some ty) address value).fetch (some ty) address = ty.retained value := by
  cases ty with
  | char => exact fetch_put rfl memory address value
  | int => exact fetch_put rfl memory address value
  | ptr base => exact fetch_put rfl memory address value
  | array elem len => exact absurd hty.symm Bool.false_ne_true
  | func result params => exact word_setWord memory address value

/-- What was put somewhere is told by the low byte for a byte, and by the word for anything else. -/
theorem put_eq_put_iff {ty : Ty} (hty : ty.isArray = false) (memory : Memory)
    (address value other : Int64) :
    memory.put (some ty) address value = memory.put (some ty) address other
      ↔ ty.retained value = ty.retained other := by
  constructor
  · intro h
    rw [← fetch_put_of_not_isArray hty memory address value, h, fetch_put_of_not_isArray hty]
  · intro h
    have hlow : lowByte value = lowByte other := by
      rw [← ty.lowByte_retained value, h, ty.lowByte_retained]
    cases ty with
    | char => exact congrArg (memory.setByte address) hlow
    | array elem len => exact absurd hty.symm Bool.false_ne_true
    | int | ptr base | func result params => exact congrArg (memory.setWord address) h

end Memory

/-! ### Assignments in a well-typed tree -/

/-- The parts of a well-typed tree are well-typed expressions, or statements over them. -/
theorem Node.Over.within {symbols : Symbols} {node part : Node}
    (h : node.Over (Node.Typed symbols)) (hpart : node.Within part) :
    part.Typed symbols ∨ part.Over (Node.Typed symbols) := by
  induction hpart with
  | self => exact .inr h
  | child _ hchild ih =>
    -- Inside an expression there are only expressions; inside a statement there may be both.
    rcases ih with ih | ih
    · refine .inl ?_
      cases ih with
      | num | var => exact absurd hchild List.not_mem_nil
      | neg hoperand | addr _ hoperand | deref hoperand =>
        rw [List.mem_singleton.1 hchild]
        exact hoperand
      | binary hlhs hrhs =>
        rcases List.mem_pair.1 hchild with rfl | rfl
        · exact hlhs
        · exact hrhs
      | assign _ htarget hvalue =>
        rcases List.mem_pair.1 hchild with rfl | rfl
        · exact htarget
        · exact hvalue
      | call _ hargs => exact hargs _ hchild
    · cases ih with
      | exprStmt hnode | ret hnode =>
        rw [List.mem_singleton.1 hchild]
        exact .inl hnode
      | block hbody => exact .inr (hbody _ hchild)
      | ifElse hcond htrue hfalse =>
        simp only [children, List.mem_cons, Option.mem_toList] at hchild
        rcases hchild with rfl | rfl | hchild
        · exact .inl hcond
        · exact .inr htrue
        · exact .inr (hfalse _ hchild)
      | loop hinit hcond hstep hbody =>
        simp only [children, List.mem_append, Option.mem_toList, List.mem_singleton] at hchild
        rcases hchild with hchild | hchild | hchild | rfl
        · exact .inl (hinit _ hchild)
        · exact .inl (hcond _ hchild)
        · exact .inl (hstep _ hchild)
        · exact .inr hbody

/-- An assignment in a well-typed tree has the type of its target, which is no array. -/
theorem Node.Over.assign_typed {symbols : Symbols} {node : Node}
    (h : node.Over (Node.Typed symbols)) {mark : Mark} {target value : Node}
    (hpart : node.Within (.assign mark target value)) :
    ∃ ty, mark.ty = some ty ∧ target.ty = some ty ∧ ty.isArray = false := by
  rcases h.within hpart with htyped | hover
  · cases htyped with
    | assign _ _ _ hty harray => exact ⟨_, rfl, hty, harray⟩
  · cases hover

/-! ### The value and the place of an assignment -/

section Runs

variable {world : World} {routine : Routine} {s t : LowerState} {code : Code} {m n : Machine}
  {mark : Mark} {target value : Node} {ty : Ty}

/-- A load where an assignment has stored its value finds what the type retains of it. -/
theorem run_load_assigned (hty : mark.ty = some ty) (harray : ty.isArray = false)
    (hcode : (Lower.expr routine (.assign mark target value)).run s = .ok (code, t))
    (hpasses : (Node.assign mark target value).passes = []) (hrun : world.run code m = some n) :
    ∃ address memory o,
      (world.setting routine (m.regs .rbp)).evalAddress target m.memory = some (address, memory)
        ∧ world.run (Lower.load mark.ty) (n.set .rax address) = some o
        ∧ o.regs .rax = ty.retained (n.regs .rax) := by
  -- The code does what the evaluation does, so the address can be read off the evaluation.
  have hfollows := run_code_iff_eval world routine _ hcode m m.passes
    (by rw [hpasses, List.nil_append])
  obtain ⟨⟨v, after⟩, heval⟩ : ∃ r, (world.setting routine (m.regs .rbp)).eval
      (.assign mark target value) m.memory = some r := by
    refine Option.ne_none_iff_exists'.1 fun hnone => ?_
    rw [hfollows.1.2 hnone] at hrun
    exact Option.some_ne_none n hrun.symm
  obtain ⟨n', hrun', hrax, hmemory, -⟩ := hfollows.2 _ _ heval
  obtain rfl := Option.some.inj (hrun.symm.trans hrun')
  rw [Setting.eval] at heval
  obtain ⟨⟨address, memory⟩, haddress, heval⟩ := Option.bind_eq_some_iff.1 heval
  obtain ⟨⟨v', memory'⟩, -, heval⟩ := Option.bind_eq_some_iff.1 heval
  obtain ⟨rfl, rfl⟩ := Prod.mk.inj (Option.some.inj heval)
  have hstart : (n.set .rax address).Reaches n.passes address n.memory (n.set .rax address) :=
    ⟨.refl _, rfl, rfl, rfl⟩
  obtain ⟨o, ho, hreaches⟩ := run_load world mark.ty hstart
  refine ⟨address, memory, o, haddress, ho, ?_⟩
  rw [hreaches.rax, hmemory, hty, Memory.fetch_put_of_not_isArray harray, hrax]

end Runs

/-! ### Chains of assignments to variables -/

section Chains

variable {setting : Setting} {markX markY varX varY : Mark} {x y : VarRef} {e : Node} {tx ty : Ty}

/-- Assigning to a variable puts the value there. -/
theorem Setting.eval_assign_var (memory : Memory) :
    setting.eval (.assign markX (.var varX x) e) memory
      = (setting.eval e memory).map fun r => (r.1, r.2.put markX.ty (setting.place x) r.1) := by
  rw [eval, evalAddress, Option.bind_eq_bind, Option.bind_some]
  show Option.bind (setting.eval e memory) _ = _
  cases setting.eval e memory with
  | none => rfl
  | some r => rfl

variable {world : World} {routine : Routine} {s t s₁ t₁ s₂ t₂ : LowerState}
  {code first second : Code} {m : Machine} {later : List Nat}

/-- **A chain of assignments fails where the assignments do one after the other, and leaves the
same memory unless a byte on the way has not retained the value.** -/
theorem run_chain (htx : markX.ty = some tx) (hty : markY.ty = some ty) (hvar : varY.ty = some ty)
    (hx : tx.isArray = false) (hy : ty.isArray = false)
    (hcode : (Lower.expr routine
      (.assign markX (.var varX x) (.assign markY (.var varY y) e))).run s = .ok (code, t))
    (hfirst : (Lower.expr routine (.assign markY (.var varY y) e)).run s₁ = .ok (first, t₁))
    (hsecond : (Lower.expr routine (.assign markX (.var varX x) (.var varY y))).run s₂
      = .ok (second, t₂))
    (hpasses : m.passes = e.passes ++ later) :
    (world.run code m = none ↔ world.run (first ++ second) m = none)
      ∧ ∀ n o, world.run code m = some n → world.run (first ++ second) m = some o →
        (o.memory = n.memory ↔ tx = .char ∨ ty.CanHold (n.regs .rax)) := by
  have hchain := run_code_iff_eval world routine _ hcode m later hpasses
  have halone := run_code_iff_eval world routine _ hfirst m later hpasses
  rw [Setting.eval_assign_var, Setting.eval_assign_var] at hchain
  rw [Setting.eval_assign_var] at halone
  rw [World.run_append]
  -- Both ways begin with the value of `e`, so they fail together.
  cases heval : (world.setting routine (m.regs .rbp)).eval e m.memory with
  | none =>
    rw [heval] at hchain halone
    rw [hchain.1.2 rfl, halone.1.2 rfl]
    exact ⟨Iff.rfl, fun n o hn => absurd hn.symm (Option.some_ne_none n)⟩
  | some r =>
    rw [heval] at hchain halone
    obtain ⟨n, hn, hrax, hmemory, -⟩ := hchain.2 _ _ rfl
    obtain ⟨o, ho, -, hmemory', hrbp, -, -, hlater⟩ := halone.2 _ _ rfl
    have hthen := run_code_iff_eval world routine _ hsecond o later hlater
    rw [Setting.eval_assign_var, hrbp, hmemory', Setting.eval] at hthen
    obtain ⟨o', ho', -, hmemory'', -⟩ := hthen.2 _ _ rfl
    rw [hn, ho]
    show (some n = none ↔ world.run second o = none) ∧ _
    rw [ho']
    refine ⟨by simp, fun n' o'' hn' ho'' => ?_⟩
    obtain rfl := Option.some.inj hn'
    obtain rfl := Option.some.inj ((show world.run second o = some o'' from ho'').symm.trans ho')
    -- What is left to compare is one store of the value with one of what is read back from `y`.
    rw [hmemory, hmemory'', hrax, htx, hty, hvar, Memory.fetch_put_of_not_isArray hy,
      Memory.put_eq_put_iff hx, eq_comm, Ty.retained_retained_iff]

end Chains

/-! ### The assignments of a source -/

/-- **The value of an assignment is the value that was assigned**, all of it.  In every function of
an accepted source, when the code of an assignment that calls nothing has run, a load from the
address of the target finds what the type of the target retains of the value; these agree exactly if
the type is not that of bytes, or the value is in the range of a byte.  Assigning a value to two
variables in a chain fails where assigning it to one after the other fails, and leaves the same
memory exactly if the outer variable is a byte, or the inner one has retained the value. -/
theorem Source.value_assigned {source : Source} {program : Program}
    (h : source.program = .ok program) {f : Function} (hf : f ∈ program.functions) :
    (∀ mark target value, f.body.Within (.assign mark target value) →
      (Node.assign mark target value).passes = [] →
      ∃ ty, mark.ty = some ty ∧ ∀ (world : World) (routine : Routine) s t code m n,
        (Lower.expr routine (.assign mark target value)).run s = .ok (code, t) →
        world.run code m = some n →
        ∃ address memory o,
          (world.setting routine (m.regs .rbp)).evalAddress target m.memory = some (address, memory)
            ∧ world.run (Lower.load (some ty)) (n.set .rax address) = some o
            ∧ o.regs .rax = ty.retained (n.regs .rax)
            ∧ (o.regs .rax = n.regs .rax ↔ ty.CanHold (n.regs .rax)))
    ∧ ∀ markX varX x markY varY y e,
      f.body.Within (.assign markX (.var varX x) (.assign markY (.var varY y) e)) →
      ∃ tx ty, markX.ty = some tx ∧ markY.ty = some ty
        ∧ ∀ (world : World) (routine : Routine) s t s₁ t₁ s₂ t₂ code first second m later,
          (Lower.expr routine (.assign markX (.var varX x) (.assign markY (.var varY y) e))).run s
            = .ok (code, t) →
          (Lower.expr routine (.assign markY (.var varY y) e)).run s₁ = .ok (first, t₁) →
          (Lower.expr routine (.assign markX (.var varX x) (.var varY y))).run s₂
            = .ok (second, t₂) →
          m.passes = e.passes ++ later →
          (world.run code m = none ↔ world.run (first ++ second) m = none)
            ∧ ∀ n o, world.run code m = some n → world.run (first ++ second) m = some o →
              (o.memory = n.memory ↔ tx = .char ∨ ty.CanHold (n.regs .rax)) := by
  have htyped := (((ends_program source).of_eq_ok h).functions f hf).body
  -- The program is typed, so both assignments have types, and what they do follows from these.
  constructor
  · intro mark target value hpart hpasses
    obtain ⟨ty, hty, -, harray⟩ := htyped.assign_typed hpart
    refine ⟨ty, hty, fun world routine s t code m n hcode hrun => ?_⟩
    obtain ⟨address, memory, o, haddress, ho, hrax⟩ :=
      run_load_assigned hty harray hcode hpasses hrun
    rw [hty] at ho
    exact ⟨address, memory, o, haddress, ho, hrax, by rw [hrax, Ty.retained_eq_iff]⟩
  · intro markX varX x markY varY y e hpart
    have hinner := hpart.child (List.mem_cons_of_mem _ (List.mem_cons_self ..))
    obtain ⟨tx, htx, -, hx⟩ := htyped.assign_typed hpart
    obtain ⟨ty, hty, hvar, hy⟩ := htyped.assign_typed hinner
    exact ⟨tx, ty, htx, hty, fun world routine s t s₁ t₁ s₂ t₂ code first second m later hcode
      hfirst hsecond hpasses => run_chain htx hty hvar hx hy hcode hfirst hsecond hpasses⟩

/-- A word and a byte that are assigned in a chain. -/
def Source.chained (digits : String) : Source :=
  ⟨"chained", "func f() int \x7b var x int; var c char; x = c = " ++ digits ++ "; return x; \x7d"⟩

/-- The inner assignment of the chain. -/
def Node.innerChained (value : Int64) : Node :=
  .assign ⟨44, some .char⟩ (.var ⟨42, some .char⟩ (.localVar 1)) (.num ⟨46, some .int⟩ value)

/-- The chain. -/
def Node.chained (value : Int64) : Node :=
  .assign ⟨40, some .int⟩ (.var ⟨38, some .int⟩ (.localVar 0)) (.innerChained value)

/-- The tokens of the chain, with a number of `width` digits. -/
def Source.chainedTokens (digits : String) (value : Int64) (width : Nat) : List Token :=
  [⟨.keyword, 0, "func"⟩, ⟨.identifier, 5, "f"⟩, ⟨.punctuator, 6, "("⟩, ⟨.punctuator, 7, ")"⟩,
    ⟨.keyword, 9, "int"⟩, ⟨.punctuator, 13, "\x7b"⟩, ⟨.keyword, 15, "var"⟩, ⟨.identifier, 19, "x"⟩,
    ⟨.keyword, 21, "int"⟩, ⟨.punctuator, 24, ";"⟩, ⟨.keyword, 26, "var"⟩, ⟨.identifier, 30, "c"⟩,
    ⟨.keyword, 32, "char"⟩, ⟨.punctuator, 36, ";"⟩, ⟨.identifier, 38, "x"⟩, ⟨.punctuator, 40, "="⟩,
    ⟨.identifier, 42, "c"⟩, ⟨.punctuator, 44, "="⟩, ⟨.number (some value), 46, digits⟩,
    ⟨.punctuator, 46 + width, ";"⟩, ⟨.keyword, 48 + width, "return"⟩,
    ⟨.identifier, 55 + width, "x"⟩, ⟨.punctuator, 56 + width, ";"⟩,
    ⟨.punctuator, 58 + width, "\x7d"⟩, ⟨.eof, 59 + width, ""⟩]

/-- The chain is in its source. -/
theorem Source.exists_chained {digits : String} {value : Int64} {width : Nat}
    (htokens : (chained digits).tokenize = .ok (chainedTokens digits value width)) :
    ∃ program f, (chained digits).program = .ok program ∧ f ∈ program.functions
      ∧ f.body.Within (.chained value) := by
  let stmts : List Node := [.block ⟨15, none⟩ [], .block ⟨26, none⟩ [],
    .exprStmt ⟨38, none⟩ (.chained value),
    .ret ⟨48 + width, none⟩ (.var ⟨55 + width, some .int⟩ (.localVar 0))]
  let f : Function := ⟨"f", .func .int [], [], [⟨"x", .int, none⟩, ⟨"c", .char, none⟩],
    .block ⟨13, none⟩ stmts⟩
  have hparse : parse (chained digits) (chainedTokens digits value width) = .ok ⟨[], [f]⟩ := rfl
  have hprogram : (chained digits).program = .ok ⟨[], [f]⟩ :=
    bind_eq_ok_iff.2 ⟨_, htokens, hparse⟩
  have hstmt : Node.exprStmt ⟨38, none⟩ (.chained value) ∈ stmts :=
    List.mem_cons_of_mem _ (List.mem_cons_of_mem _ (List.mem_cons_self ..))
  exact ⟨_, f, hprogram, List.mem_singleton_self f,
    .child (.child .self hstmt) (List.mem_singleton_self _)⟩

/-- The frame of the chain. -/
def Routine.chained : Routine := ⟨"f", false, [-8, -9], []⟩

/-- A machine without calls to come. -/
def Machine.chained : Machine := ⟨fun _ => 4096, fun _ => 0, [], (0, 0), []⟩

/-- A world without functions. -/
def World.chained : World := ⟨fun _ => 0, 0, fun _ _ _ => none⟩

/-- The inner assignment leaves its value in `rax`. -/
theorem run_innerChained (value : Int64) :
    ∃ code n, (Lower.expr Routine.chained (.innerChained value)).run ⟨0, 0⟩ = .ok (code, ⟨0, 0⟩)
      ∧ World.chained.run code Machine.chained = some n ∧ n.regs .rax = value := by
  obtain ⟨code, hcode⟩ : ∃ code,
      (Lower.expr Routine.chained (.innerChained value)).run ⟨0, 0⟩ = .ok (code, ⟨0, 0⟩) := ⟨_, rfl⟩
  have hfollows := run_code_iff_eval World.chained Routine.chained _ hcode Machine.chained [] rfl
  obtain ⟨n, hn, hrax, -⟩ := hfollows.2 value _ (Setting.eval_assign_var _)
  exact ⟨code, n, hcode, hn, hrax⟩

/-- So does the chain. -/
theorem run_chained (value : Int64) :
    ∃ code n, (Lower.expr Routine.chained (.chained value)).run ⟨0, 0⟩ = .ok (code, ⟨0, 0⟩)
      ∧ World.chained.run code Machine.chained = some n ∧ n.regs .rax = value := by
  obtain ⟨code, hcode⟩ : ∃ code,
      (Lower.expr Routine.chained (.chained value)).run ⟨0, 0⟩ = .ok (code, ⟨0, 0⟩) := ⟨_, rfl⟩
  have hfollows := run_code_iff_eval World.chained Routine.chained _ hcode Machine.chained [] rfl
  rw [Node.chained, Node.innerChained, Setting.eval_assign_var, Setting.eval_assign_var] at hfollows
  obtain ⟨n, hn, hrax, -⟩ := hfollows.2 value _ rfl
  exact ⟨code, n, hcode, hn, hrax⟩

/-- A byte has room for 65, so it is found again, and it does not matter whether the word is
assigned in the chain or from the byte. -/
theorem Source.value_assigned_chained :
    ∃ program f, (chained "65").program = .ok program ∧ f ∈ program.functions
      ∧ f.body.Within (.chained 65) ∧ f.body.Within (.innerChained 65)
      ∧ ∃ chain first second n₁ n o,
        (Lower.expr Routine.chained (.innerChained 65)).run ⟨0, 0⟩ = .ok (first, ⟨0, 0⟩)
          ∧ (Lower.expr Routine.chained (.chained 65)).run ⟨0, 0⟩ = .ok (chain, ⟨0, 0⟩)
          ∧ (Lower.expr Routine.chained (.assign ⟨40, some .int⟩
              (.var ⟨38, some .int⟩ (.localVar 0)) (.var ⟨42, some .char⟩ (.localVar 1)))).run ⟨0, 0⟩
            = .ok (second, ⟨0, 0⟩)
          ∧ World.chained.run first Machine.chained = some n₁
          ∧ (∃ address o, World.chained.run (Lower.load (some .char)) (n₁.set .rax address) = some o
            ∧ o.regs .rax = 65)
          ∧ World.chained.run chain Machine.chained = some n
          ∧ World.chained.run (first ++ second) Machine.chained = some o
          ∧ o.memory = n.memory := by
  have htokens : (chained "65").tokenize = .ok (chainedTokens "65" 65 2) :=
    eq_ok_of_toOption_eq_some (by decide +kernel)
  obtain ⟨program, f, hprogram, hf, hpart⟩ := exists_chained htokens
  have hinner : f.body.Within (.innerChained 65) :=
    hpart.child (List.mem_cons_of_mem _ (List.mem_cons_self ..))
  have hroom : ∀ {value}, value = 65 → Ty.char.CanHold value := by
    rintro _ rfl
    decide
  obtain ⟨hvalue, hchain⟩ := value_assigned hprogram hf
  -- The byte is loaded from where it was assigned.
  obtain ⟨first, n₁, hfirst, hn₁, hrax₁⟩ := run_innerChained 65
  obtain ⟨_, hty, hloads⟩ := hvalue _ _ _ hinner rfl
  obtain rfl := Option.some.inj hty
  obtain ⟨address, memory, o₁, -, ho₁, -, hiff₁⟩ := hloads _ _ _ _ _ _ _ hfirst hn₁
  have hload : o₁.regs .rax = 65 := (hiff₁.2 (hroom hrax₁)).trans hrax₁
  -- The chain runs, so the assignments one after the other do.
  obtain ⟨chain, n, hcode, hn, hrax⟩ := run_chained 65
  obtain ⟨second, hsecond⟩ : ∃ second, (Lower.expr Routine.chained (.assign ⟨40, some .int⟩
      (.var ⟨38, some .int⟩ (.localVar 0)) (.var ⟨42, some .char⟩ (.localVar 1)))).run ⟨0, 0⟩
    = .ok (second, ⟨0, 0⟩) := ⟨_, rfl⟩
  obtain ⟨_, _, -, hty, hruns⟩ := hchain _ _ _ _ _ _ _ hpart
  obtain rfl := Option.some.inj hty
  obtain ⟨hfails, hmemory⟩ := hruns _ _ _ _ _ _ _ _ _ _ _ Machine.chained [] hcode hfirst hsecond rfl
  obtain ⟨o, ho⟩ : ∃ o, World.chained.run (first ++ second) Machine.chained = some o := by
    refine Option.ne_none_iff_exists'.1 fun hnone => ?_
    rw [hfails.2 hnone] at hn
    cases hn
  exact ⟨program, f, hprogram, hf, hpart, hinner, chain, first, second, n₁, n, o, hfirst, hcode,
    hsecond, hn₁, ⟨address, o₁, ho₁, hload⟩, hn, ho, (hmemory n o hn ho).2 (.inr (hroom hrax))⟩

/-- **The value of an assignment to a byte can differ from what it stores**: a load of the byte
finds 44 where 300 was assigned to it. -/
theorem Source.not_value_assigned :
    ∃ program f mark target value, (chained "300").program = .ok program ∧ f ∈ program.functions
      ∧ f.body.Within (.assign mark target value) ∧ (Node.assign mark target value).passes = []
      ∧ ∃ (world : World) (routine : Routine), ∃ code m n address memory o,
        (Lower.expr routine (.assign mark target value)).run ⟨0, 0⟩ = .ok (code, ⟨0, 0⟩)
          ∧ world.run code m = some n
          ∧ (world.setting routine (m.regs .rbp)).evalAddress target m.memory
            = some (address, memory)
          ∧ world.run (Lower.load mark.ty) (n.set .rax address) = some o
          ∧ n.regs .rax = 300 ∧ o.regs .rax = 44 := by
  have htokens : (chained "300").tokenize = .ok (chainedTokens "300" 300 3) :=
    eq_ok_of_toOption_eq_some (by decide +kernel)
  obtain ⟨program, f, hprogram, hf, hpart⟩ := exists_chained htokens
  have hinner : f.body.Within (.innerChained 300) :=
    hpart.child (List.mem_cons_of_mem _ (List.mem_cons_self ..))
  obtain ⟨code, n, hcode, hn, hrax⟩ := run_innerChained 300
  obtain ⟨address, memory, o, haddress, ho, hload⟩ := run_load_assigned rfl rfl hcode rfl hn
  refine ⟨program, f, _, _, _, hprogram, hf, hinner, rfl, World.chained, Routine.chained, code,
    Machine.chained, n, address, memory, o, hcode, hn, haddress, ho, hrax, ?_⟩
  rw [hload, hrax]
  decide

end PocketCompiler
