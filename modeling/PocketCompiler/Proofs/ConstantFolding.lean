import PocketCompiler.Proofs.Lower.Correct

/-!
# Constants are folded to what their code computes

`fold` computes a constant before the program runs, and code computes it while the program runs.
The two look at their operands in opposite orders, and they differ in what they make of a quotient
that is no word: the least word divided by minus one wraps around for `fold`, and the machine
faults.

`Node.IsConstant.run_code_iff_fold` says that this is the only difference: if `fold` has a value,
then the machine finds the same value or meets such a quotient, and if `fold` complains, it is about
a division by zero, and the machine faults.
-/

namespace PocketCompiler

/-- An expression that is put together from numbers by negation and operators. -/
inductive Node.IsConstant : Node → Prop
  | num {mark : Mark} {value : Int64} : IsConstant (.num mark value)
  | neg {mark : Mark} {operand : Node} (h : IsConstant operand) : IsConstant (.neg mark operand)
  | binary {mark : Mark} {op : BinaryOp} {lhs rhs : Node} (hlhs : IsConstant lhs)
      (hrhs : IsConstant rhs) : IsConstant (.binary mark op lhs rhs)

/-- Some division of the expression is that of the constant `a` by the constant `b`. -/
inductive Node.Divides (a b : Int64) : Node → Prop
  | here {mark : Mark} {lhs rhs : Node} (hlhs : fold lhs = .ok a) (hrhs : fold rhs = .ok b) :
    Divides a b (.binary mark .div lhs rhs)
  | neg {mark : Mark} {operand : Node} (h : Divides a b operand) : Divides a b (.neg mark operand)
  | left {mark : Mark} {op : BinaryOp} {lhs rhs : Node} (h : Divides a b lhs) :
    Divides a b (.binary mark op lhs rhs)
  | right {mark : Mark} {op : BinaryOp} {lhs rhs : Node} (h : Divides a b rhs) :
    Divides a b (.binary mark op lhs rhs)

/-! ### Operators -/

section Operators

variable {mark : Mark} {op : BinaryOp} {lhs rhs : Node} {a b value : Int64}

/-- A value that the machine finds is the one that is folded. -/
theorem fold_binary_of_apply (hlhs : fold lhs = .ok a) (hrhs : fold rhs = .ok b)
    (h : op.apply a b = some value) : fold (.binary mark op lhs rhs) = .ok value := by
  rw [fold, hlhs, hrhs]
  cases op with
  | div =>
    simp only [BinaryOp.apply] at h
    split at h
    · cases h
    · next hfits =>
      have hzero : b ≠ 0 := fun hzero => hfits (.inl hzero)
      show (if b = 0 then _ else _) = _
      rw [if_neg hzero, ← Option.some.inj h]
      rfl
  | _ =>
    simp only [BinaryOp.apply, Option.some.injEq] at h
    rw [← h]
    rfl

/-- The machine finds the value that is folded, unless it is a quotient that is no word. -/
theorem apply_of_fold_binary (hlhs : fold lhs = .ok a) (hrhs : fold rhs = .ok b)
    (h : fold (.binary mark op lhs rhs) = .ok value)
    (hword : ¬ Node.Divides Int64.minValue (-1) (.binary mark op lhs rhs)) :
    op.apply a b = some value := by
  rw [fold, hlhs, hrhs] at h
  cases op with
  | div =>
    have hmin : ¬ (a = Int64.minValue ∧ b = -1) := by
      rintro ⟨rfl, rfl⟩
      exact hword (.here hlhs hrhs)
    change (if b = 0 then _ else _) = _ at h
    split at h
    · injection h
    · next hzero =>
      rw [BinaryOp.apply, if_neg (not_or.2 ⟨hzero, hmin⟩), Except.ok.inj h]
  | _ => exact congrArg _ (Except.ok.inj h)

/-- Folding an operator fails for its operands, or for a division by zero. -/
theorem fold_binary_eq_error {failure : Failure}
    (h : fold (.binary mark op lhs rhs) = .error failure) :
    fold lhs = .error failure ∨ fold rhs = .error failure
      ∨ failure = .complaint mark.loc .constantDivisionByZero := by
  rw [fold] at h
  cases hlhs : fold lhs with
  | error found =>
    rw [hlhs] at h
    exact .inl h
  | ok a =>
    cases hrhs : fold rhs with
    | error found =>
      rw [hlhs, hrhs] at h
      exact .inr (.inl h)
    | ok b =>
      rw [hlhs, hrhs] at h
      cases op with
      | div =>
        change (if b = 0 then _ else _) = _ at h
        split at h
        · exact .inr (.inr (Except.error.inj h).symm)
        · injection h
      | _ => injection h

end Operators

/-! ### Folding and evaluation -/

section Evaluation

variable (setting : Setting) (memory : Memory) {node lhs rhs : Node} {mark : Mark} {op : BinaryOp}

/-- If an operand has no value, the whole has none, whichever operand comes first. -/
theorem Setting.eval_binary_eq_none {b : Int64} (hrhs : setting.eval rhs memory = none
      ∨ setting.eval rhs memory = some (b, memory) ∧ setting.eval lhs memory = none) :
    setting.eval (.binary mark op lhs rhs) memory = none := by
  rw [Setting.eval]
  rcases hrhs with hrhs | ⟨hrhs, hlhs⟩
  · rw [hrhs]
    rfl
  · rw [hrhs]
    show (setting.eval lhs memory).bind _ = none
    rw [hlhs]
    rfl

theorem Setting.eval_binary {a b : Int64} (hlhs : setting.eval lhs memory = some (a, memory))
    (hrhs : setting.eval rhs memory = some (b, memory)) :
    setting.eval (.binary mark op lhs rhs) memory = (op.apply a b).map (·, memory) := by
  rw [Setting.eval, hrhs]
  show (setting.eval lhs memory).bind _ = _
  rw [hlhs]
  show (op.apply a b).bind _ = _
  cases op.apply a b <;> rfl

namespace Node.IsConstant

/-- A constant leaves the memory alone, and has the value that is folded, if it has one. -/
theorem eval_eq_none_or (h : node.IsConstant) : setting.eval node memory = none
    ∨ ∃ value, fold node = .ok value ∧ setting.eval node memory = some (value, memory) := by
  induction h with
  | num => exact .inr ⟨_, fold_num _ _, by rw [Setting.eval]⟩
  | @neg mark operand _ ih =>
    rcases ih with hnone | ⟨value, hfold, heval⟩
    · left
      rw [Setting.eval, hnone]
      rfl
    · refine .inr ⟨-value, ?_, ?_⟩
      · rw [fold, hfold]
        rfl
      · rw [Setting.eval, heval]
        rfl
  | @binary mark op lhs rhs _ _ ihlhs ihrhs =>
    rcases ihrhs with hrhs | ⟨b, hfoldb, hevalb⟩
    · exact .inl (setting.eval_binary_eq_none memory (b := 0) (.inl hrhs))
    rcases ihlhs with hlhs | ⟨a, hfolda, hevala⟩
    · exact .inl (setting.eval_binary_eq_none memory (.inr ⟨hevalb, hlhs⟩))
    rw [setting.eval_binary memory hevala hevalb]
    cases happly : op.apply a b with
    | none => exact .inl rfl
    | some value => exact .inr ⟨value, fold_binary_of_apply hfolda hfoldb happly, rfl⟩

/-- A quotient that is no word leaves the whole without a value. -/
theorem eval_of_divides (h : node.IsConstant) (hdivides : node.Divides Int64.minValue (-1)) :
    setting.eval node memory = none := by
  induction hdivides with
  | @here mark lhs rhs hlhs hrhs =>
    obtain _ | _ | ⟨hl, hr⟩ := h
    rcases hr.eval_eq_none_or setting memory with hnone | ⟨b, hfoldb, hevalb⟩
    · exact setting.eval_binary_eq_none memory (b := 0) (.inl hnone)
    rcases hl.eval_eq_none_or setting memory with hnone | ⟨a, hfolda, hevala⟩
    · exact setting.eval_binary_eq_none memory (.inr ⟨hevalb, hnone⟩)
    obtain rfl := Except.ok.inj (hfolda.symm.trans hlhs)
    obtain rfl := Except.ok.inj (hfoldb.symm.trans hrhs)
    rw [setting.eval_binary memory hevala hevalb]
    rfl
  | neg _ ih =>
    obtain _ | ⟨hoperand⟩ | _ := h
    rw [Setting.eval, ih hoperand]
    rfl
  | left _ ih =>
    obtain _ | _ | ⟨hl, hr⟩ := h
    -- The right operand comes first, and may fail for a reason of its own.
    rcases hr.eval_eq_none_or setting memory with hnone | ⟨b, -, hevalb⟩
    · exact setting.eval_binary_eq_none memory (b := 0) (.inl hnone)
    · exact setting.eval_binary_eq_none memory (.inr ⟨hevalb, ih hl⟩)
  | right _ ih =>
    obtain _ | _ | ⟨hl, hr⟩ := h
    exact setting.eval_binary_eq_none memory (b := 0) (.inl (ih hr))

/-- If all quotients are words, the value that is folded is the value. -/
theorem eval_of_not_divides (h : node.IsConstant) {value : Int64} (hfold : fold node = .ok value)
    (hword : ¬ node.Divides Int64.minValue (-1)) :
    setting.eval node memory = some (value, memory) := by
  induction h generalizing value with
  | num =>
    obtain rfl := Except.ok.inj hfold
    rw [Setting.eval]
  | @neg mark operand _ ih =>
    rw [fold] at hfold
    obtain ⟨inner, hinner, hvalue⟩ := bind_eq_ok_iff.1 hfold
    obtain rfl := Except.ok.inj hvalue
    rw [Setting.eval, ih hinner fun hdivides => hword (.neg hdivides)]
    rfl
  | @binary mark op lhs rhs _ _ ihlhs ihrhs =>
    have hparts := hfold
    rw [fold] at hparts
    obtain ⟨a, hlhs, hparts⟩ := bind_eq_ok_iff.1 hparts
    obtain ⟨b, hrhs, -⟩ := bind_eq_ok_iff.1 hparts
    have hevala := ihlhs hlhs fun hdivides => hword (.left hdivides)
    have hevalb := ihrhs hrhs fun hdivides => hword (.right hdivides)
    rw [setting.eval_binary memory hevala hevalb, apply_of_fold_binary hlhs hrhs hfold hword]
    rfl

end Node.IsConstant

end Evaluation

/-- Folding a constant fails for nothing but a division by zero. -/
theorem Node.IsConstant.eq_of_fold_eq_error {node : Node} (h : node.IsConstant) {failure : Failure}
    (hfold : fold node = .error failure) :
    ∃ loc, failure = .complaint loc .constantDivisionByZero := by
  induction h with
  | num => exact nomatch hfold
  | @neg mark operand _ ih =>
    rw [fold] at hfold
    cases hoperand : fold operand with
    | error found =>
      rw [hoperand] at hfold
      exact ih (hoperand.trans hfold)
    | ok value =>
      rw [hoperand] at hfold
      injection hfold
  | binary _ _ ihlhs ihrhs =>
    rcases fold_binary_eq_error hfold with hlhs | hrhs | rfl
    · exact ihlhs hlhs
    · exact ihrhs hrhs
    · exact ⟨_, rfl⟩

/-! ### Folding and code -/

/-- A constant has code, and calls nothing. -/
theorem Node.IsConstant.exists_exprAt (routine : Routine) {node : Node} (h : node.IsConstant)
    (depth : Nat) : (∃ code, Lower.exprAt routine depth node = .ok code) ∧ node.passes = [] := by
  induction h generalizing depth with
  | num => exact ⟨⟨_, by rw [Lower.exprAt]⟩, by rw [Node.passes] <;> simp⟩
  | neg _ ih =>
    obtain ⟨⟨code, hcode⟩, hpasses⟩ := ih depth
    refine ⟨⟨code ++ [.instr (.negate .rax)], ?_⟩, ?_⟩
    · rw [Lower.exprAt, hcode]
      rfl
    · rw [Node.passes, hpasses]
  | @binary mark op lhs rhs _ _ ihlhs ihrhs =>
    obtain ⟨⟨right, hright⟩, hpassesr⟩ := ihrhs depth
    obtain ⟨⟨left, hleft⟩, hpassesl⟩ := ihlhs (depth + 1)
    refine ⟨⟨right ++ [.instr (.push .rax)] ++ left ++ [.instr (.pop .rdi)] ++ Lower.operate op,
      ?_⟩, ?_⟩
    · rw [Lower.exprAt, hright, hleft]
      rfl
    · rw [Node.passes, hpassesr, hpassesl]
      rfl

/-- **Constants are folded to what their code computes.**  A constant has code.  If folding gives a
value, running the code from any state ends with that value in `rax` or faults, and it faults
exactly when the least word is divided by minus one somewhere.  If folding fails, a constant is
divided by zero, and running the code faults. -/
theorem Node.IsConstant.run_code_iff_fold (world : World) (routine : Routine) {node : Node}
    (h : node.IsConstant) (s : LowerState) (m : Machine) :
    ∃ code, (Lower.expr routine node).run s = .ok (code, s)
      ∧ (∀ value, fold node = .ok value →
          (world.run code m = none ∨ ∃ n, world.run code m = some n ∧ n.regs .rax = value)
          ∧ (world.run code m = none ↔ node.Divides Int64.minValue (-1)))
      ∧ ∀ failure, fold node = .error failure →
          (∃ loc, failure = .complaint loc .constantDivisionByZero)
          ∧ failure.message = "division by zero in constant expression"
          ∧ world.run code m = none := by
  obtain ⟨⟨code, hcode⟩, hpasses⟩ := h.exists_exprAt routine s.depth
  -- The code does what the evaluation does, for any frame and any memory.
  have hrun : m.Follows m.passes ((world.setting routine (m.regs .rbp)).eval node m.memory)
      (world.run code m) := by
    apply run_exprAt world node m hcode
    rw [hpasses]
    rfl
  refine ⟨code, Lower.run_expr_eq_ok_iff.2 ⟨hcode, rfl⟩, fun value hfold => ?_,
    fun failure hfold => ?_⟩
  -- Folding wraps where the processor faults: at the least word divided by minus one.
  · by_cases hdivides : node.Divides Int64.minValue (-1)
    · rw [h.eval_of_divides _ _ hdivides] at hrun
      have hfault : world.run code m = none := hrun
      exact ⟨.inl hfault, fun _ => hdivides, fun _ => hfault⟩
    · rw [h.eval_of_not_divides _ _ hfold hdivides] at hrun
      obtain ⟨n, hn, hreaches⟩ := hrun
      refine ⟨.inr ⟨n, hn, hreaches.rax⟩, fun hfault => ?_, fun hfault => absurd hfault hdivides⟩
      exact nomatch hn.symm.trans hfault
  · obtain ⟨loc, rfl⟩ := h.eq_of_fold_eq_error hfold
    refine ⟨⟨loc, rfl⟩, rfl, ?_⟩
    rcases h.eval_eq_none_or (world.setting routine (m.regs .rbp)) m.memory with hnone | ⟨v, hv, -⟩
    · rw [hnone] at hrun
      exact hrun
    · exact nomatch hv.symm.trans hfold

/-- The least word, made by a subtraction that does not wrap around, divided by minus one. -/
def Node.leastByMinusOne : Node :=
  .binary ⟨0, none⟩ .div
    (.binary ⟨0, none⟩ .sub (.neg ⟨0, none⟩ (.num ⟨0, none⟩ 9223372036854775807))
      (.num ⟨0, none⟩ 1))
    (.neg ⟨0, none⟩ (.num ⟨0, none⟩ 1))

theorem Node.IsConstant.run_code_iff_fold_least :
    let world : World := ⟨fun _ => 4096, 0, fun _ _ _ => none⟩
    let m : Machine := ⟨fun _ => 80, fun _ => 0, [42], (0, 0), []⟩
    Node.leastByMinusOne.IsConstant ∧ fold Node.leastByMinusOne = .ok Int64.minValue
      ∧ ∃ code, (Lower.expr ⟨"main", false, [], []⟩ Node.leastByMinusOne).run {} = .ok (code, {})
        ∧ world.run code m = none := by
  intro world m
  have hconstant : Node.leastByMinusOne.IsConstant := .binary (.binary (.neg .num) .num) (.neg .num)
  have hfold : fold Node.leastByMinusOne = .ok Int64.minValue := rfl
  have hdivides : Node.leastByMinusOne.Divides Int64.minValue (-1) := .here rfl rfl
  obtain ⟨code, hcode, hvalue, -⟩ :=
    hconstant.run_code_iff_fold world ⟨"main", false, [], []⟩ {} m
  exact ⟨hconstant, hfold, code, hcode, (hvalue _ hfold).2.2 hdivides⟩

end PocketCompiler
