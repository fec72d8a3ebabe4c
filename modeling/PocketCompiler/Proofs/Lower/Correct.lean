import PocketCompiler.Proofs.Evaluation
import PocketCompiler.Proofs.Lower.Expr
import PocketCompiler.Proofs.Machine.Frame

/-!
# The code of expressions is correct

Running the code of an expression ends as its evaluation does (`run_exprAt`).  It fails if the
evaluation fails; otherwise `rax` is the value, the memory is that of the evaluation, and the frame
and the words that wait on the stack are as they were.  The words that wait can be any, so the code
of an operand can stand between other code.

`run_code_iff_eval` is the statement for whatever `Lower.expr` gives.
-/

namespace PocketCompiler

/-- Where a variable is, for code of the routine with its frame at `base`. -/
def Routine.place (routine : Routine) (world : World) (base : Int64) : VarRef → Int64
  | .localVar index => base + Int64.ofInt (routine.offsets[index]?.getD 0)
  | .globalVar index => world.globalAddress ((routine.globals[index]?.map (·.name)).getD "")

/-- What expressions of a routine refer to when its frame is at `base`. -/
def World.setting (world : World) (routine : Routine) (base : Int64) : Setting where
  place := routine.place world base
  call name args memory :=
    (world.call name args memory).map fun after => (after.regs .rax, after.memory)

/-! ### Operators -/

section Operators

variable {m n : Machine} {later : List Nat} {a b : Int64} {memory : Memory}

/-- A word and its sign make up the word, as integers. -/
theorem Machine.dividend_signExtend (n : Machine) :
    (n.set .rdx (if n.regs .rax < 0 then -1 else 0)).dividend = (n.regs .rax).toInt := by
  show (if n.regs .rax < 0 then (-1 : Int64) else 0).toInt * 18446744073709551616
    + ((n.regs .rax).toUInt64.toNat : Int) = _
  generalize n.regs .rax = v
  have hbits : v.toInt = if 2 * v.toUInt64.toNat < 2 ^ 64 then (v.toUInt64.toNat : Int)
      else v.toUInt64.toNat - 2 ^ 64 := BitVec.toInt_eq_toNat_cond v.toBitVec
  have hlt : v.toUInt64.toNat < 2 ^ 64 := v.toUInt64.toNat_lt
  have hzero : v < 0 ↔ v.toInt < 0 := Int64.lt_iff_toInt_lt
  by_cases hneg : v < 0
  · have hminus : (-1 : Int64).toInt = -1 := by decide
    have hv : v.toInt < 0 := hzero.1 hneg
    rw [if_pos hneg, hminus]
    split at hbits <;> omega
  · have hnull : (0 : Int64).toInt = 0 := by decide
    have hv : ¬ v.toInt < 0 := fun h => hneg (hzero.2 h)
    rw [if_neg hneg, hnull]
    split at hbits <;> omega

/-- The quotient of two words is a word, except for that of the least word by minus one. -/
theorem fits_tdiv_iff {a b : Int64} :
    Word.Fits (a.toInt.tdiv b.toInt) ↔ ¬ (a = Int64.minValue ∧ b = -1) := by
  constructor
  · rintro h ⟨rfl, rfl⟩
    revert h
    decide
  · intro h
    have hquot : (a / b).toInt = a.toInt.tdiv b.toInt := by
      by_cases ha : a = Int64.minValue
      · have hb : b ≠ -1 := fun hb => h ⟨ha, hb⟩
        exact Int64.toInt_div_of_ne_right a b hb
      · exact Int64.toInt_div_of_ne_left a b ha
    have hlow := (a / b).le_toInt
    have hhigh := (a / b).toInt_lt
    rw [← hquot]
    simp only [Word.Fits, Word.least, Word.greatest]
    omega

theorem ofInt_tdiv (a b : Int64) : Int64.ofInt (a.toInt.tdiv b.toInt) = a / b := by
  apply Int64.toInt_inj.1
  rw [Int64.toInt_ofInt, Int64.toInt_div]

/-- Dividing `rax`, with its sign in `rdx`, fails where the quotient of words does. -/
theorem run_divide (world : World) (h : m.Reaches later a memory n) (hb : n.regs .rdi = b) :
    m.Follows later ((BinaryOp.apply .div a b).bind fun value => some (value, memory))
      (world.run (Lower.operate .div) n) := by
  have hdividend : (n.set .rdx (if n.regs .rax < 0 then -1 else 0)).dividend = a.toInt := by
    rw [n.dividend_signExtend, h.rax]
  show m.Follows later _
    (((n.set .rdx (if n.regs .rax < 0 then -1 else 0)).divide (n.regs .rdi)).bind some)
  rw [Option.bind_fun_some, Machine.divide, hdividend, hb, BinaryOp.apply]
  by_cases hzero : b = 0
  · rw [if_pos hzero, if_pos (Or.inl hzero)]
    rfl
  · rw [if_neg hzero]
    by_cases hmin : a = Int64.minValue ∧ b = -1
    · rw [if_neg (fun hfits => fits_tdiv_iff.1 hfits hmin), if_pos (Or.inr hmin)]
      rfl
    · rw [if_pos (fits_tdiv_iff.2 hmin), if_neg (not_or.2 ⟨hzero, hmin⟩), ofInt_tdiv]
      exact ⟨_, rfl, ⟨h.frame.rbp, h.frame.rsp, h.frame.stack⟩, rfl, h.memory, h.passes⟩

/-- A comparison leaves its truth value in `rax`. -/
theorem run_comparison (world : World) (condition : Condition) (h : m.Reaches later a memory n)
    (hb : n.regs .rdi = b) :
    m.Follows later (some (truth (condition.holds a b), memory))
      (world.run (Lower.comparison condition) n) := by
  -- Only the low byte of `rax` is set, and then extended over the rest.
  have htruth : unsignedByte (if condition.holds a b then 1 else 0)
      = truth (condition.holds a b) := by
    cases condition.holds a b <;> rfl
  refine ⟨_, rfl, ⟨h.frame.rbp, h.frame.rsp, h.frame.stack⟩, ?_, h.memory, h.passes⟩
  show unsignedByte (lowByte (withLowByte (n.regs .rax)
    (if condition.holds (n.regs .rax) (n.regs .rdi) then 1 else 0))) = _
  rw [lowByte_withLowByte, h.rax, hb, htruth]

/-- The code of an operator computes its value from `rax` and `rdi`. -/
theorem run_operate (world : World) (op : BinaryOp) (h : m.Reaches later a memory n)
    (hb : n.regs .rdi = b) :
    m.Follows later ((op.apply a b).bind fun value => some (value, memory))
      (world.run (Lower.operate op) n) := by
  have hframe : m.SameFrame n := h.frame
  cases op with
  | add =>
    rw [← h.rax, ← hb]
    exact ⟨_, rfl, ⟨hframe.rbp, hframe.rsp, hframe.stack⟩, rfl, h.memory, h.passes⟩
  | sub =>
    rw [← h.rax, ← hb]
    exact ⟨_, rfl, ⟨hframe.rbp, hframe.rsp, hframe.stack⟩, rfl, h.memory, h.passes⟩
  | mul =>
    rw [← h.rax, ← hb]
    exact ⟨_, rfl, ⟨hframe.rbp, hframe.rsp, hframe.stack⟩, rfl, h.memory, h.passes⟩
  | div => exact run_divide world h hb
  | eq => exact run_comparison world .equal h hb
  | ne => exact run_comparison world .notEqual h hb
  | lt => exact run_comparison world .less h hb
  | le => exact run_comparison world .lessOrEqual h hb

end Operators

/-! ### Variables, loads and stores -/

section Places

variable {m n : Machine} {later : List Nat} {memory : Memory}

/-- The code for the address of a variable leads to its place. -/
theorem run_variableAt (world : World) {routine : Routine} {ref : VarRef} {code : Code}
    (hcode : Lower.variableAt routine ref = .ok code) (m : Machine) :
    m.Follows m.passes (some ((world.setting routine (m.regs .rbp)).place ref, m.memory))
      (world.run code m) := by
  have hstart : m.Reaches m.passes (m.regs .rax) m.memory m := ⟨.refl m, rfl, rfl, rfl⟩
  -- Lowering has found the variable, so its place is not the one that a missing entry would get.
  cases ref with
  | localVar index =>
    obtain ⟨offset, hoffset, hline⟩ := bind_eq_ok_iff.1 hcode
    obtain rfl := Except.ok.inj hline
    have hplace : (world.setting routine (m.regs .rbp)).place (.localVar index)
        = m.regs .rbp + Int64.ofInt offset := by
      show m.regs .rbp + Int64.ofInt (routine.offsets[index]?.getD 0) = _
      rw [entry_eq_ok_iff.1 hoffset]
      rfl
    rw [hplace]
    exact hstart.setRax _
  | globalVar index =>
    obtain ⟨found, hfound, hline⟩ := bind_eq_ok_iff.1 hcode
    obtain rfl := Except.ok.inj hline
    have hplace : (world.setting routine (m.regs .rbp)).place (.globalVar index)
        = world.globalAddress found.name := by
      show world.globalAddress ((routine.globals[index]?.map (·.name)).getD "") = _
      rw [entry_eq_ok_iff.1 hfound]
      rfl
    rw [hplace]
    exact hstart.setRax _

/-- Loading replaces an address by what is read there. -/
theorem run_load (world : World) (ty : Option Ty) {address : Int64}
    (h : m.Reaches later address memory n) :
    m.Follows later (some (memory.fetch ty address, memory)) (world.run (Lower.load ty) n) := by
  have hword : m.Follows later (some (memory.word address, memory))
      (n.write .rax (n.memory.word (n.regs .rax))) := by
    rw [h.memory, h.rax]
    exact h.setRax _
  -- An array is not loaded, since its value is its address; a single byte is extended.
  cases ty with
  | none => exact hword
  | some ty =>
    have hbyte : m.Follows later (some (signedByte (memory address), memory))
        (n.write .rax (signedByte (n.memory (n.regs .rax)))) := by
      rw [h.memory, h.rax]
      exact h.setRax _
    unfold Lower.load Memory.fetch
    by_cases harray : ty.isArray = true
    · simp only [if_pos harray]
      exact ⟨n, rfl, h⟩
    · simp only [if_neg harray]
      by_cases hsize : ty.size = 1
      · simp only [if_pos hsize]
        exact hbyte
      · simp only [if_neg hsize]
        exact hword

/-- Storing puts the value in `rax` where `rdi` points to, and keeps it. -/
theorem run_store (world : World) (ty : Option Ty) {address value : Int64}
    (h : m.Reaches later value memory n) (haddress : n.regs .rdi = address) :
    m.Follows later (some (value, memory.put ty address value)) (world.run (Lower.store ty) n) := by
  have hword : m.Follows later (some (value, memory.setWord address value))
      (some { n with memory := n.memory.setWord (n.regs .rdi) (n.regs .rax) }) := by
    rw [h.memory, haddress, h.rax]
    exact ⟨_, rfl, ⟨h.frame.rbp, h.frame.rsp, h.frame.stack⟩, h.rax, rfl, h.passes⟩
  cases ty with
  | none => exact hword
  | some ty =>
    have hbyte : m.Follows later (some (value, memory.setByte address (lowByte value)))
        (some { n with memory := n.memory.setByte (n.regs .rdi) (lowByte (n.regs .rax)) }) := by
      rw [h.memory, haddress, h.rax]
      exact ⟨_, rfl, ⟨h.frame.rbp, h.frame.rsp, h.frame.stack⟩, h.rax, rfl, h.passes⟩
    unfold Lower.store Memory.put
    by_cases hsize : ty.size = 1
    · simp only [if_pos hsize]
      exact hbyte
    · simp only [if_neg hsize]
      exact hword

end Places

/-! ### Calls -/

section Calls

variable {m n : Machine} {later : List Nat} {values : List Int64} {memory : Memory}

/-- The machine is ready for a call: the arguments are in their registers. -/
structure Machine.Ready (m : Machine) (values : List Int64) (later : List Nat) (memory : Memory)
    (n : Machine) : Prop where
  frame : m.SameFrame n
  arguments : (Reg.forArguments.take values.length).map n.regs = values
  memory : n.memory = memory
  passes : n.passes = values.length :: later

/-- A register keeps its value when another one is written. -/
theorem Machine.regs_set_of_ne {dst r : Reg} (value : Int64) (h : r ≠ dst) :
    (m.set dst value).regs r = m.regs r :=
  if_neg h

theorem Machine.Ready.setRax (h : m.Ready values later memory n) (value : Int64) :
    m.Ready values later memory (n.set .rax value) where
  frame := ⟨h.frame.rbp, h.frame.rsp, h.frame.stack⟩
  arguments := by
    have hrax : ∀ r ∈ Reg.forArguments, r ≠ .rax := by decide
    refine (List.map_congr_left fun r hr => ?_).trans h.arguments
    exact Machine.regs_set_of_ne value (hrax r (List.mem_of_mem_take hr))
  memory := h.memory
  passes := h.passes

theorem Machine.Ready.push (h : m.Ready values later memory n) (word : Int64) :
    (m.push word).Ready values later memory (n.push word) where
  frame := h.frame.push word
  arguments := by
    have hrsp : ∀ r ∈ Reg.forArguments, r ≠ .rsp := by decide
    refine (List.map_congr_left fun r hr => ?_).trans h.arguments
    exact Machine.regs_set_of_ne _ (hrsp r (List.mem_of_mem_take hr))
  memory := h.memory
  passes := h.passes

/-- A call does with its arguments what the function does. -/
theorem Machine.Ready.enter (h : m.Ready values later memory n) (world : World) (name : String) :
    m.Follows later
      ((world.call name values memory).map fun after => (after.regs .rax, after.memory))
      (world.enter name n) := by
  rw [World.enter, h.passes]
  show m.Follows later _ ((world.call name ((Reg.forArguments.take values.length).map n.regs)
    n.memory).bind _)
  rw [h.arguments, h.memory]
  cases world.call name values memory with
  | none => rfl
  | some after => exact ⟨_, rfl, ⟨h.frame.rbp, h.frame.rsp, h.frame.stack⟩, rfl, rfl, rfl⟩

/-- A word that makes the stack even is taken off again after the call. -/
theorem run_aligned (world : World) (depth : Nat) (name : String)
    (h : m.Ready values later memory n) :
    m.Follows later
      ((world.call name values memory).map fun after => (after.regs .rax, after.memory))
      (world.run (Lower.aligned depth name) n) := by
  unfold Lower.aligned
  by_cases hodd : depth % 2 = 1
  · rw [if_pos hodd, ← Option.bind_fun_some (Option.map _ _)]
    show m.Follows later _ ((world.enter name (n.push world.stale)).bind
      (world.run [.instr (.addConst .rsp 8)]))
    refine ((h.push world.stale).enter world name).bind fun value memory' o ho => ?_
    -- The word that was put below the call is still there.
    obtain ⟨popped, hpop, hframe, hregs, hmemory, hpasses⟩ := ho.frame.pop
    refine ⟨popped, ?_, hframe, ?_, hmemory.trans ho.memory, hpasses.trans ho.passes⟩
    · show (o.pop.map (·.2)).bind some = _
      rw [hpop]
      rfl
    · rw [hregs .rax (by decide)]
      exact ho.rax
  · rw [if_neg hodd]
    show m.Follows later _ ((world.enter name n).bind some)
    rw [Option.bind_fun_some]
    exact h.enter world name

/-- The arguments that wait get into their registers, in their order. -/
theorem run_callAt (world : World) {depth : Nat} {name : String} {code : Code}
    (hcode : Lower.callAt depth name values.length = .ok code)
    (hframe : (m.stacked values.reverse).SameFrame n) (hmemory : n.memory = memory)
    (hpasses : n.passes = values.length :: later) :
    m.Follows later
      ((world.call name values memory).map fun after => (after.regs .rax, after.memory))
      (world.run code n) := by
  unfold Lower.callAt at hcode
  split at hcode
  · next hcount =>
    obtain rfl := Except.ok.inj hcode
    -- The last argument lies on top, so the registers are filled from the last to the first.
    have hmem : ∀ r ∈ (Reg.forArguments.take values.length).reverse, r ∈ Reg.forArguments :=
      fun r hr => List.mem_of_mem_take (List.mem_reverse.1 hr)
    have hlength : ((Reg.forArguments.take values.length).reverse).length
        = values.reverse.length := by
      rw [List.length_reverse, List.length_take, List.length_reverse, Nat.min_eq_left hcount]
    have hdistinct : ∀ count ≤ Reg.forArguments.length,
        ((Reg.forArguments.take count).reverse).Nodup := by decide
    obtain ⟨o, hrun, hsame, hregs, -, hmemory', hpasses'⟩ := hframe.run_pops world _ _ n hlength
      (hdistinct _ hcount) (fun hr => absurd (hmem _ hr) (by decide))
      (fun hr => absurd (hmem _ hr) (by decide))
    have hready : m.Ready values later memory o :=
      ⟨hsame, by rw [← List.reverse_inj, ← List.map_reverse]; exact hregs,
        hmemory'.trans hmemory, hpasses'.trans hpasses⟩
    rw [List.append_assoc, World.run_append, hrun]
    exact run_aligned world depth name (hready.setRax 0)
  · exact nomatch hcode

end Calls

/-! ### Expressions -/

/-- What has come of running the code of arguments ends as their evaluation does: both fail, or the
values wait on the stack. -/
def Machine.FollowsAll (m : Machine) (later : List Nat) (result : Option (List Int64 × Memory))
    (ran : Option Machine) : Prop :=
  match result with
  | none => ran = none
  | some (values, memory) => ∃ n, ran = some n ∧ (m.stacked values.reverse).SameFrame n
      ∧ n.memory = memory ∧ n.passes = later

/-- While a value waits on the stack, expressions mean what they mean below it. -/
theorem Machine.Reaches.push_rax {m n : Machine} {mid : List Nat} {waiting : Int64}
    {memory : Memory} (hn : m.Reaches mid waiting memory n) :
    (n.push (n.regs .rax)).regs .rbp = m.regs .rbp ∧ (n.push (n.regs .rax)).memory = memory
      ∧ (m.push waiting).SameFrame (n.push (n.regs .rax)) := by
  refine ⟨hn.frame.rbp, hn.memory, ?_⟩
  rw [hn.rax]
  exact hn.frame.push waiting

/-- A value that has waited on the stack while another one was computed gets into `rdi`. -/
theorem Machine.Reaches.run_popRdi {m n o : Machine} {mid later : List Nat} {waiting value : Int64}
    {memory memory' : Memory} (hn : m.Reaches mid waiting memory n) (world : World)
    (ho : (n.push (n.regs .rax)).Reaches later value memory' o) :
    ∃ p, world.run [.instr (.pop .rdi)] o = some p ∧ m.Reaches later value memory' p
      ∧ p.regs .rdi = waiting := by
  obtain ⟨-, -, hwait⟩ := hn.push_rax
  obtain ⟨p, hrun, hframe, hrdi, hother, hmemory, hpasses⟩ :=
    (hwait.trans ho.frame).run_pop world .rdi (by decide) (by decide)
  have hrax : p.regs .rax = value := (hother .rax (by decide) (by decide)).trans ho.rax
  exact ⟨p, hrun, ⟨hframe, hrax, hmemory.trans ho.memory, hpasses.trans ho.passes⟩, hrdi⟩

/-- Code that needs two values: the first waits on the stack while the second is computed, and then
the rest has the second in `rax` and the first in `rdi`. -/
theorem Machine.Reaches.follows_waiting {m n : Machine} {mid later : List Nat} {waiting : Int64}
    {memory : Memory} (hn : m.Reaches mid waiting memory n) (world : World) {inner rest : Code}
    {result : Option (Int64 × Memory)} {after : Int64 × Memory → Option (Int64 × Memory)}
    (hinner : (n.push (n.regs .rax)).Follows later result
      (world.run inner (n.push (n.regs .rax))))
    (hrest : ∀ value memory' p, m.Reaches later value memory' p → p.regs .rdi = waiting →
      m.Follows later (after (value, memory')) (world.run rest p)) :
    m.Follows later (result.bind after)
      (world.run ([.instr (.push .rax)] ++ (inner ++ ([.instr (.pop .rdi)] ++ rest))) n) := by
  show m.Follows later _ (world.run (inner ++ ([.instr (.pop .rdi)] ++ rest))
    (n.push (n.regs .rax)))
  rw [World.run_append]
  refine hinner.bind fun value memory' o ho => ?_
  obtain ⟨p, hrun, hp, hrdi⟩ := hn.run_popRdi world ho
  rw [World.run_append, hrun]
  exact hrest value memory' p hp hrdi

/-- As many values are computed as there are expressions. -/
theorem length_evalAll {setting : Setting} : ∀ {nodes : List Node} {memory memory' : Memory}
    {values : List Int64}, setting.evalAll nodes memory = some (values, memory') →
      values.length = nodes.length
  | [], _, _, _, h => by
    rw [Setting.evalAll] at h
    obtain ⟨rfl, -⟩ := Prod.mk.inj (Option.some.inj h)
    rfl
  | node :: nodes, _, _, _, h => by
    rw [Setting.evalAll] at h
    obtain ⟨⟨value, next⟩, -, hrest⟩ := Option.bind_eq_some_iff.1 h
    obtain ⟨⟨values, last⟩, hvalues, heq⟩ := Option.bind_eq_some_iff.1 hrest
    obtain ⟨rfl, -⟩ := Prod.mk.inj (Option.some.inj heq)
    rw [List.length_cons, List.length_cons, length_evalAll hvalues]

variable {routine : Routine}

mutual

/-- **Running the code of an expression ends as its evaluation does**, whatever waits on the
stack. -/
theorem run_exprAt (world : World) : ∀ (node : Node) {depth : Nat} {code : Code}
    {later : List Nat} (m : Machine), Lower.exprAt routine depth node = .ok code →
    m.passes = node.passes ++ later →
      m.Follows later ((world.setting routine (m.regs .rbp)).eval node m.memory)
        (world.run code m)
  | .num _ value, depth, code, later, m, hcode, hpasses => by
    rw [Lower.exprAt] at hcode
    obtain rfl := Except.ok.inj hcode
    rw [Setting.eval]
    have hstart : m.Reaches later (m.regs .rax) m.memory m := ⟨.refl m, rfl, rfl, hpasses⟩
    exact hstart.setRax value
  -- What is at the address of a variable is fetched as its type says, an array being its address.
  | .var mark ref, depth, code, later, m, hcode, hpasses => by
    rw [Lower.exprAt] at hcode
    obtain ⟨place, hplace, hline⟩ := bind_eq_ok_iff.1 hcode
    obtain rfl := Except.ok.inj hline
    have hpasses : m.passes = later := hpasses
    have hvariable := run_variableAt world hplace m
    rw [hpasses] at hvariable
    rw [Setting.eval, World.run_append]
    show m.Follows later ((some (_, m.memory)).bind fun r => some (r.2.fetch mark.ty r.1, r.2)) _
    exact hvariable.bind fun address memory n hn => run_load world mark.ty hn
  | .neg mark operand, depth, code, later, m, hcode, hpasses => by
    rw [Lower.exprAt] at hcode
    obtain ⟨inner, hinner, hline⟩ := bind_eq_ok_iff.1 hcode
    obtain rfl := Except.ok.inj hline
    rw [Setting.eval, World.run_append]
    refine (run_exprAt world operand m hinner hpasses).bind fun value memory n hn => ?_
    rw [← hn.rax]
    exact hn.setRax _
  | .addr mark operand, depth, code, later, m, hcode, hpasses => by
    rw [Lower.exprAt] at hcode
    rw [Setting.eval]
    exact run_addressAt world operand m hcode hpasses
  | .deref mark operand, depth, code, later, m, hcode, hpasses => by
    rw [Lower.exprAt] at hcode
    obtain ⟨inner, hinner, hline⟩ := bind_eq_ok_iff.1 hcode
    obtain rfl := Except.ok.inj hline
    rw [Setting.eval, World.run_append]
    exact (run_exprAt world operand m hinner hpasses).bind fun address memory n hn =>
      run_load world mark.ty hn
  | .binary mark op lhs rhs, depth, code, later, m, hcode, hpasses => by
    rw [Lower.exprAt] at hcode
    obtain ⟨right, hright, hrest⟩ := bind_eq_ok_iff.1 hcode
    obtain ⟨left, hleft, hline⟩ := bind_eq_ok_iff.1 hrest
    obtain rfl := Except.ok.inj hline
    rw [Node.passes, List.append_assoc] at hpasses
    rw [Setting.eval, List.append_assoc, List.append_assoc, List.append_assoc, World.run_append]
    refine (run_exprAt world rhs m hright hpasses).bind fun b memory n hn => ?_
    -- The right operand waits on the stack while the left one is computed.
    have hlhs := run_exprAt world lhs (n.push (n.regs .rax)) hleft hn.passes
    obtain ⟨hbase, hmemory, -⟩ := hn.push_rax
    rw [hbase, hmemory] at hlhs
    exact hn.follows_waiting world hlhs fun a memory' p hp hrdi => run_operate world op hp hrdi
  | .assign mark target value, depth, code, later, m, hcode, hpasses => by
    rw [Lower.exprAt] at hcode
    obtain ⟨place, hplace, hrest⟩ := bind_eq_ok_iff.1 hcode
    obtain ⟨inner, hinner, hline⟩ := bind_eq_ok_iff.1 hrest
    obtain rfl := Except.ok.inj hline
    rw [Node.passes, List.append_assoc] at hpasses
    rw [Setting.eval, List.append_assoc, List.append_assoc, List.append_assoc, World.run_append]
    refine (run_addressAt world target m hplace hpasses).bind fun address memory n hn => ?_
    -- The address waits on the stack while the value is computed.
    have hvalue := run_exprAt world value (n.push (n.regs .rax)) hinner hn.passes
    obtain ⟨hbase, hmemory, -⟩ := hn.push_rax
    rw [hbase, hmemory] at hvalue
    exact hn.follows_waiting world hvalue fun v memory' p hp hrdi => run_store world mark.ty hp hrdi
  | .call mark name args, depth, code, later, m, hcode, hpasses => by
    rw [Lower.exprAt] at hcode
    obtain ⟨pushed, hpushed, hrest⟩ := bind_eq_ok_iff.1 hcode
    obtain ⟨called, hcalled, hline⟩ := bind_eq_ok_iff.1 hrest
    obtain rfl := Except.ok.inj hline
    rw [Node.passes, List.append_assoc] at hpasses
    rw [Setting.eval, World.run_append]
    -- If the arguments fail, so does the call; else their values wait on the stack.
    have hargs := run_argumentsAt world args m hpushed hpasses
    cases hvalues : (world.setting routine (m.regs .rbp)).evalAll args m.memory with
    | none =>
      rw [hvalues] at hargs
      rw [show world.run pushed m = none from hargs]
      rfl
    | some r =>
      obtain ⟨values, memory⟩ := r
      rw [hvalues] at hargs
      obtain ⟨n, hrun, hframe, hmemory, hpasses'⟩ := hargs
      rw [← length_evalAll hvalues] at hcalled hpasses'
      rw [hrun]
      exact run_callAt world hcalled hframe hmemory hpasses'
  -- No statement has the code of an expression.
  | .exprStmt _ _, _, _, _, _, hcode, _ => nomatch hcode
  | .ret _ _, _, _, _, _, hcode, _ => nomatch hcode
  | .block _ _, _, _, _, _, hcode, _ => nomatch hcode
  | .ifElse _ _ _ _, _, _, _, _, hcode, _ => nomatch hcode
  | .loop _ _ _ _ _, _, _, _, _, hcode, _ => nomatch hcode

theorem run_addressAt (world : World) : ∀ (node : Node) {depth : Nat} {code : Code}
    {later : List Nat} (m : Machine), Lower.addressAt routine depth node = .ok code →
    m.passes = node.passes ++ later →
      m.Follows later ((world.setting routine (m.regs .rbp)).evalAddress node m.memory)
        (world.run code m)
  | .var _ ref, _, code, later, m, hcode, hpasses => by
    rw [Lower.addressAt] at hcode
    have hpasses : m.passes = later := hpasses
    have hvariable := run_variableAt world hcode m
    rw [hpasses] at hvariable
    rw [Setting.evalAddress]
    exact hvariable
  | .deref _ operand, _, code, later, m, hcode, hpasses => by
    rw [Lower.addressAt] at hcode
    rw [Setting.evalAddress]
    exact run_exprAt world operand m hcode hpasses
  | .num _ _, _, _, _, _, hcode, _ => nomatch hcode
  | .neg _ _, _, _, _, _, hcode, _ => nomatch hcode
  | .addr _ _, _, _, _, _, hcode, _ => nomatch hcode
  | .binary _ _ _ _, _, _, _, _, hcode, _ => nomatch hcode
  | .assign _ _ _, _, _, _, _, hcode, _ => nomatch hcode
  | .call _ _ _, _, _, _, _, hcode, _ => nomatch hcode
  | .exprStmt _ _, _, _, _, _, hcode, _ => nomatch hcode
  | .ret _ _, _, _, _, _, hcode, _ => nomatch hcode
  | .block _ _, _, _, _, _, hcode, _ => nomatch hcode
  | .ifElse _ _ _ _, _, _, _, _, hcode, _ => nomatch hcode
  | .loop _ _ _ _ _, _, _, _, _, hcode, _ => nomatch hcode

theorem run_argumentsAt (world : World) : ∀ (args : List Node) {depth : Nat} {code : Code}
    {later : List Nat} (m : Machine), Lower.argumentsAt routine depth args = .ok code →
    m.passes = Node.passesAll args ++ later →
      m.FollowsAll later ((world.setting routine (m.regs .rbp)).evalAll args m.memory)
        (world.run code m)
  | [], _, _, later, m, hcode, hpasses => by
    rw [Lower.argumentsAt] at hcode
    obtain rfl := Except.ok.inj hcode
    rw [Setting.evalAll]
    exact ⟨m, rfl, .refl m, rfl, hpasses⟩
  | arg :: args, _, code, later, m, hcode, hpasses => by
    rw [Lower.argumentsAt] at hcode
    obtain ⟨first, hfirst, hrest⟩ := bind_eq_ok_iff.1 hcode
    obtain ⟨more, hmore, hline⟩ := bind_eq_ok_iff.1 hrest
    obtain rfl := Except.ok.inj hline
    rw [Node.passesAll, List.append_assoc] at hpasses
    rw [Setting.evalAll, List.append_assoc, World.run_append]
    have harg := run_exprAt world arg m hfirst hpasses
    cases hvalue : (world.setting routine (m.regs .rbp)).eval arg m.memory with
    | none =>
      rw [hvalue] at harg
      rw [show world.run first m = none from harg]
      rfl
    | some r =>
      obtain ⟨value, memory⟩ := r
      rw [hvalue] at harg
      obtain ⟨n, hrun, hn⟩ := harg
      have hargs := run_argumentsAt world args (n.push (n.regs .rax)) hmore hn.passes
      obtain ⟨hbase, hsame, hwait⟩ := hn.push_rax
      rw [hbase, hsame] at hargs
      rw [hrun]
      show m.FollowsAll later _ (world.run more (n.push (n.regs .rax)))
      cases hvalues : (world.setting routine (m.regs .rbp)).evalAll args memory with
      | none =>
        rw [hvalues] at hargs
        rw [show world.run more (n.push (n.regs .rax)) = none from hargs]
        show m.FollowsAll later (Option.bind (Setting.evalAll _ args memory) _) _
        rw [hvalues]
        rfl
      | some r =>
        obtain ⟨values, memory'⟩ := r
        rw [hvalues] at hargs
        obtain ⟨o, hrun', hframe, hmemory, hpasses'⟩ := hargs
        rw [hrun']
        show m.FollowsAll later (Option.bind (Setting.evalAll _ args memory) _) _
        rw [hvalues]
        refine ⟨o, rfl, ?_, hmemory, hpasses'⟩
        -- The first value lies below the others.
        show (m.stacked (value :: values).reverse).SameFrame o
        rw [List.reverse_cons, Machine.stacked_append]
        exact (hwait.stacked values.reverse).trans hframe

end

/-- **The code of an expression is correct.**  For every expression that has code, in every frame
and from every state of the machine, running the code fails exactly when the evaluation fails; and
if it does not, `rax` is the value, the memory is that of the evaluation, and the frame and the
stack are as they were. -/
theorem run_code_iff_eval (world : World) (routine : Routine) (node : Node) {s t : LowerState}
    {code : Code} (hcode : (Lower.expr routine node).run s = .ok (code, t)) (m : Machine)
    (later : List Nat) (hpasses : m.passes = node.passes ++ later) :
    (world.run code m = none
        ↔ (world.setting routine (m.regs .rbp)).eval node m.memory = none)
      ∧ ∀ value memory,
          (world.setting routine (m.regs .rbp)).eval node m.memory = some (value, memory) →
            ∃ n, world.run code m = some n ∧ n.regs .rax = value ∧ n.memory = memory
              ∧ n.regs .rbp = m.regs .rbp ∧ n.regs .rsp = m.regs .rsp ∧ n.stack = m.stack
              ∧ n.passes = later := by
  obtain ⟨hcode, -⟩ := Lower.run_expr_eq_ok_iff.1 hcode
  have hfollows := run_exprAt world node m hcode hpasses
  cases heval : (world.setting routine (m.regs .rbp)).eval node m.memory with
  | none =>
    rw [heval] at hfollows
    have hnone : world.run code m = none := hfollows
    exact ⟨⟨fun _ => rfl, fun _ => hnone⟩, fun value memory hsome => nomatch hsome⟩
  | some r =>
    rw [heval] at hfollows
    obtain ⟨n, hrun, hn⟩ := hfollows
    refine ⟨⟨fun hnone => ?_, fun hnone => nomatch hnone⟩, fun value memory hsome => ?_⟩
    · rw [hrun] at hnone
      exact nomatch hnone
    · obtain ⟨rfl, rfl⟩ := Prod.mk.inj (Option.some.inj hsome)
      exact ⟨n, hrun, hn.rax, hn.memory, hn.frame.rbp, hn.frame.rsp, hn.frame.stack, hn.passes⟩

/-- A quotient whose divisor is the result of a call, with a word that waits below: the function
changes all registers that it may, and the stack has to be made even for it. -/
theorem run_code_iff_eval_call :
    let world : World :=
      ⟨fun _ => 4096, 0, fun _ args memory => some ⟨fun _ => args.sum, memory, (0, 0)⟩⟩
    let routine : Routine := ⟨"main", false, [-8], []⟩
    let node : Node := .binary ⟨0, none⟩ .div (.num ⟨0, none⟩ 17)
      (.call ⟨0, none⟩ "f" [.num ⟨0, none⟩ 2, .num ⟨0, none⟩ 3])
    let m : Machine := ⟨fun _ => 80, fun _ => 0, [42], (0, 0), [2]⟩
    ∃ code, (Lower.expr routine node).run ⟨1, 0⟩ = .ok (code, ⟨1, 0⟩)
      ∧ m.passes = node.passes ++ []
      ∧ ∃ n, world.run code m = some n ∧ n.regs .rax = 3 ∧ n.stack = [42] := by
  intro world routine node m
  obtain ⟨code, hcode⟩ : ∃ code, (Lower.expr routine node).run ⟨1, 0⟩ = .ok (code, ⟨1, 0⟩) :=
    ⟨_, rfl⟩
  have hpasses : m.passes = node.passes ++ [] := rfl
  have heval : (world.setting routine (m.regs .rbp)).eval node m.memory = some (3, m.memory) := by
    show (BinaryOp.apply .div 17 5).bind (fun value => some (value, m.memory)) = _
    rw [show BinaryOp.apply .div 17 5 = some 3 by decide]
    rfl
  obtain ⟨n, hrun, hrax, -, -, -, hstack, -⟩ :=
    (run_code_iff_eval world routine node hcode m [] hpasses).2 3 m.memory heval
  exact ⟨code, hcode, hpasses, n, hrun, hrax, hstack⟩

end PocketCompiler
