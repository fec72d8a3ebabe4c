import PocketCompiler.Lower.Expr
import PocketCompiler.Proofs.Ends

/-!
# The code of an expression as a function of the depth

`Lower.expr` counts the words that wait on the stack in a state.  The code of an expression puts
as many words there as it takes, so of all the state it depends on the depth alone and leaves the
state as it found it: `run_expr` says so with `exprAt`, which computes the same code from the depth
without a state.  What is proved about the code of expressions is proved about `exprAt`.

Taking more from the stack than there is on it is a fault of `Lower.pop` that `exprAt` does not
have at all, so `run_expr` also says that it never happens.
-/

namespace PocketCompiler.Lower

/-- The code that puts the address of a variable into `rax`. -/
def variableAt (routine : Routine) : VarRef → Except Fault Code
  | .localVar index => do
    let offset ← entry routine.offsets index
    return [.instr (.frameAddress .rax offset)]
  | .globalVar index => do
    let found ← entry routine.globals index
    return [.instr (.globalAddress .rax found.name)]

/-- The code that takes `count` arguments from the stack and calls a function, with `depth` words
waiting below them. -/
def callAt (depth : Nat) (name : String) (count : Nat) : Except Fault Code :=
  if count ≤ Reg.forArguments.length then
    .ok (((Reg.forArguments.take count).reverse.map fun dst => .instr (.pop dst))
      ++ [.instr (.moveConst .rax 0)] ++ aligned depth name)
  else .error (.tooFewRegisters Reg.forArguments.length count)

mutual

/-- The code of an expression, with `depth` words waiting on the stack. -/
def exprAt (routine : Routine) (depth : Nat) : Node → Except Fault Code
  | .num _ value => .ok [.instr (.moveConst .rax value)]
  | .var mark ref => do
    let place ← variableAt routine ref
    return place ++ load mark.ty
  | .neg _ operand => do
    let code ← exprAt routine depth operand
    return code ++ [.instr (.negate .rax)]
  | .addr _ operand => addressAt routine depth operand
  | .deref mark operand => do
    let code ← exprAt routine depth operand
    return code ++ load mark.ty
  | .binary _ op lhs rhs => do
    let right ← exprAt routine depth rhs
    let left ← exprAt routine (depth + 1) lhs
    return right ++ [.instr (.push .rax)] ++ left ++ [.instr (.pop .rdi)] ++ operate op
  | .assign mark target value => do
    let place ← addressAt routine depth target
    let code ← exprAt routine (depth + 1) value
    return place ++ [.instr (.push .rax)] ++ code ++ [.instr (.pop .rdi)] ++ store mark.ty
  | .call _ name args => do
    let pushed ← argumentsAt routine depth args
    let called ← callAt depth name args.length
    return pushed ++ called
  | .exprStmt _ _ | .ret _ _ | .block _ _ | .ifElse _ _ _ _ | .loop _ _ _ _ _ =>
    .error .statementAsExpression

/-- The code that puts the address of an expression into `rax`, with `depth` words waiting. -/
def addressAt (routine : Routine) (depth : Nat) : Node → Except Fault Code
  | .var _ ref => variableAt routine ref
  | .deref _ operand => exprAt routine depth operand
  | _ => .error .noAddress

/-- The code that puts arguments on the stack, with `depth` words waiting below them. -/
def argumentsAt (routine : Routine) (depth : Nat) : List Node → Except Fault Code
  | [] => .ok []
  | arg :: args => do
    let code ← exprAt routine depth arg
    let more ← argumentsAt routine (depth + 1) args
    return code ++ [.instr (.push .rax)] ++ more

end

/-! ### Running a sequence -/

section Sequence

variable {α β γ δ : Type} {s t : LowerState}

/-- A computation that has a result hands its result and its state on. -/
theorem run_bind_of_ok {x : Lower α} {f : α → Lower γ} {a : α} (hx : x.run s = .ok (a, t)) :
    (x >>= f).run s = (f a).run t := by
  rw [StateT.run_bind, hx]
  rfl

/-- A sequence is known without the state if both of its parts are. -/
theorem run_bind_of_map {x : Lower α} {f : α → Lower γ} {y : Except Fault β} {k : β → Except Fault δ}
    {g : β → α × LowerState} {h : δ → γ × LowerState} (hx : x.run s = y.map g)
    (hf : ∀ b, (f (g b).1).run (g b).2 = (k b).map h) :
    (x >>= f).run s = (y >>= k).map h := by
  rw [StateT.run_bind, hx]
  cases y with
  | error _ => rfl
  | ok b => exact hf b

end Sequence

/-! ### The parts that are not expressions -/

theorem run_push (depth labels : Nat) :
    push.run ⟨depth, labels⟩ = .ok ([.instr (.push .rax)], ⟨depth + 1, labels⟩) := rfl

theorem run_pop (dst : Reg) (depth labels : Nat) :
    (pop dst).run ⟨depth + 1, labels⟩ = .ok ([.instr (.pop dst)], ⟨depth, labels⟩) := rfl

theorem run_popAll (registers : List Reg) (depth labels : Nat) :
    (popAll registers).run ⟨depth + registers.length, labels⟩
      = .ok (registers.map fun dst => .instr (.pop dst), ⟨depth, labels⟩) := by
  induction registers with
  | nil => rfl
  | cons dst more ih =>
    rw [popAll, List.length_cons, ← Nat.add_assoc, run_bind_of_ok (run_pop dst _ labels),
      run_bind_of_ok ih]
    rfl

theorem run_variableAddress (routine : Routine) (ref : VarRef) (s : LowerState) :
    (variableAddress routine ref).run s = (variableAt routine ref).map (·, s) := by
  cases ref with
  | localVar index =>
    rw [variableAddress, variableAt]
    cases entry routine.offsets index <;> rfl
  | globalVar index =>
    rw [variableAddress, variableAt]
    cases entry routine.globals index <;> rfl

theorem run_call (name : String) (count depth labels : Nat) :
    (call name count).run ⟨depth + count, labels⟩
      = (callAt depth name count).map (·, ⟨depth, labels⟩) := by
  unfold call callAt argumentRegisters
  by_cases h : count ≤ Reg.forArguments.length
  · have hlength : ((Reg.forArguments.take count).reverse).length = count := by
      rw [List.length_reverse, List.length_take, Nat.min_eq_left h]
    have hpops := run_popAll (Reg.forArguments.take count).reverse depth labels
    rw [hlength] at hpops
    rw [if_pos h, if_pos h, pure_bind, run_bind_of_ok hpops]
    rfl
  · rw [if_neg h, if_neg h]
    rfl

/-! ### Expressions -/

mutual

/-- The code of an expression depends on the depth alone, and the state is afterwards as it was
before. -/
theorem run_expr (routine : Routine) : ∀ (node : Node) (s : LowerState),
    (expr routine node).run s = (exprAt routine s.depth node).map (·, s)
  | .num _ _, _ => rfl
  | .var _ ref, s => by
    rw [expr, exprAt]
    exact run_bind_of_map (run_variableAddress routine ref s) fun _ => rfl
  | .neg _ operand, s => by
    rw [expr, exprAt]
    exact run_bind_of_map (run_expr routine operand s) fun _ => rfl
  | .addr _ operand, s => by
    rw [expr, exprAt]
    exact run_address routine operand s
  | .deref _ operand, s => by
    rw [expr, exprAt]
    exact run_bind_of_map (run_expr routine operand s) fun _ => rfl
  | .binary _ op lhs rhs, ⟨depth, labels⟩ => by
    rw [expr, exprAt]
    -- The right operand waits on the stack while the left one is computed.
    refine run_bind_of_map (run_expr routine rhs _) fun right => ?_
    rw [run_bind_of_ok (run_push depth labels)]
    exact run_bind_of_map (run_expr routine lhs ⟨depth + 1, labels⟩) fun left =>
      run_bind_of_ok (run_pop .rdi depth labels)
  | .assign _ target value, ⟨depth, labels⟩ => by
    rw [expr, exprAt]
    refine run_bind_of_map (run_address routine target _) fun place => ?_
    rw [run_bind_of_ok (run_push depth labels)]
    exact run_bind_of_map (run_expr routine value ⟨depth + 1, labels⟩) fun code =>
      run_bind_of_ok (run_pop .rdi depth labels)
  | .call _ name args, ⟨depth, labels⟩ => by
    rw [expr, exprAt]
    exact run_bind_of_map (run_arguments routine args _) fun pushed =>
      run_bind_of_map (run_call name args.length depth labels) fun called => rfl
  -- Both fail on statements.
  | .exprStmt _ _, _ => rfl
  | .ret _ _, _ => rfl
  | .block _ _, _ => rfl
  | .ifElse _ _ _ _, _ => rfl
  | .loop _ _ _ _ _, _ => rfl

theorem run_address (routine : Routine) : ∀ (node : Node) (s : LowerState),
    (address routine node).run s = (addressAt routine s.depth node).map (·, s)
  | .var _ ref, s => run_variableAddress routine ref s
  | .deref _ operand, s => run_expr routine operand s
  | .num _ _, _ => rfl
  | .neg _ _, _ => rfl
  | .addr _ _, _ => rfl
  | .binary _ _ _ _, _ => rfl
  | .assign _ _ _, _ => rfl
  | .call _ _ _, _ => rfl
  | .exprStmt _ _, _ => rfl
  | .ret _ _, _ => rfl
  | .block _ _, _ => rfl
  | .ifElse _ _ _ _, _ => rfl
  | .loop _ _ _ _ _, _ => rfl

/-- Arguments stay on the stack, one word for each. -/
theorem run_arguments (routine : Routine) : ∀ (args : List Node) (s : LowerState),
    (arguments routine args).run s
      = (argumentsAt routine s.depth args).map (·, { s with depth := s.depth + args.length })
  | [], _ => rfl
  | arg :: args, ⟨depth, labels⟩ => by
    rw [arguments, argumentsAt]
    refine run_bind_of_map (run_expr routine arg _) fun code => ?_
    rw [run_bind_of_ok (run_push depth labels)]
    have hdepth : depth + 1 + args.length = depth + (arg :: args).length := by
      rw [List.length_cons]
      omega
    refine run_bind_of_map (run_arguments routine args ⟨depth + 1, labels⟩) fun more => ?_
    rw [← hdepth]
    rfl

end

/-- An expression has code exactly when `exprAt` gives it. -/
theorem run_expr_eq_ok_iff {routine : Routine} {node : Node} {s t : LowerState} {code : Code} :
    (expr routine node).run s = .ok (code, t) ↔ exprAt routine s.depth node = .ok code ∧ t = s := by
  rw [run_expr, map_eq_ok_iff]
  constructor
  · rintro ⟨found, hfound, heq⟩
    obtain ⟨rfl, rfl⟩ := Prod.mk.inj heq
    exact ⟨hfound, rfl⟩
  · rintro ⟨hcode, rfl⟩
    exact ⟨code, hcode, rfl⟩

/-! ### Induction on code

A property of the code of expressions is shown kind by kind: `P` is the property of the code of an
expression, `A` that of the code of an address, and `L` that of the code of arguments. -/

section Induction

variable {routine : Routine} {P A : Nat → Node → Code → Prop} {L : Nat → List Node → Code → Prop}

/-- What holds of the code of every kind of expression, if it holds of the code of its parts. -/
structure ExprCases (routine : Routine) (P A : Nat → Node → Code → Prop)
    (L : Nat → List Node → Code → Prop) : Prop where
  num : ∀ depth mark value, P depth (.num mark value) [.instr (.moveConst .rax value)]
  var : ∀ depth mark ref place, variableAt routine ref = .ok place →
    P depth (.var mark ref) (place ++ load mark.ty)
  neg : ∀ depth mark operand code, P depth operand code →
    P depth (.neg mark operand) (code ++ [.instr (.negate .rax)])
  addr : ∀ depth mark operand code, A depth operand code → P depth (.addr mark operand) code
  deref : ∀ depth mark operand code, P depth operand code →
    P depth (.deref mark operand) (code ++ load mark.ty)
  binary : ∀ depth mark op lhs rhs left right, P depth rhs right → P (depth + 1) lhs left →
    P depth (.binary mark op lhs rhs)
      (right ++ [.instr (.push .rax)] ++ left ++ [.instr (.pop .rdi)] ++ operate op)
  assign : ∀ depth mark target value place code, A depth target place → P (depth + 1) value code →
    P depth (.assign mark target value)
      (place ++ [.instr (.push .rax)] ++ code ++ [.instr (.pop .rdi)] ++ store mark.ty)
  call : ∀ depth mark name args pushed called, L depth args pushed →
    callAt depth name args.length = .ok called → P depth (.call mark name args) (pushed ++ called)
  varAddress : ∀ depth mark ref place, variableAt routine ref = .ok place →
    A depth (.var mark ref) place
  derefAddress : ∀ depth mark operand code, P depth operand code → A depth (.deref mark operand) code
  nil : ∀ depth, L depth [] []
  cons : ∀ depth arg args code more, P depth arg code → L (depth + 1) args more →
    L depth (arg :: args) (code ++ [.instr (.push .rax)] ++ more)

mutual

theorem ExprCases.exprAt (h : ExprCases routine P A L) : ∀ (node : Node) {depth : Nat}
    {code : Code}, exprAt routine depth node = .ok code → P depth node code
  -- Lowering a node lowers its parts, so the cases follow the code that is put together.
  | .num _ _, _, _, hcode => by
    rw [Lower.exprAt] at hcode
    obtain rfl := Except.ok.inj hcode
    exact h.num _ _ _
  | .var _ _, _, _, hcode => by
    rw [Lower.exprAt] at hcode
    obtain ⟨place, hplace, hline⟩ := bind_eq_ok_iff.1 hcode
    obtain rfl := Except.ok.inj hline
    exact h.var _ _ _ _ hplace
  | .neg _ operand, _, _, hcode => by
    rw [Lower.exprAt] at hcode
    obtain ⟨inner, hinner, hline⟩ := bind_eq_ok_iff.1 hcode
    obtain rfl := Except.ok.inj hline
    exact h.neg _ _ _ _ (ExprCases.exprAt h operand hinner)
  | .addr _ operand, _, _, hcode => by
    rw [Lower.exprAt] at hcode
    exact h.addr _ _ _ _ (ExprCases.addressAt h operand hcode)
  | .deref _ operand, _, _, hcode => by
    rw [Lower.exprAt] at hcode
    obtain ⟨inner, hinner, hline⟩ := bind_eq_ok_iff.1 hcode
    obtain rfl := Except.ok.inj hline
    exact h.deref _ _ _ _ (ExprCases.exprAt h operand hinner)
  | .binary _ _ lhs rhs, _, _, hcode => by
    rw [Lower.exprAt] at hcode
    obtain ⟨right, hright, hrest⟩ := bind_eq_ok_iff.1 hcode
    obtain ⟨left, hleft, hline⟩ := bind_eq_ok_iff.1 hrest
    obtain rfl := Except.ok.inj hline
    exact h.binary _ _ _ _ _ _ _ (ExprCases.exprAt h rhs hright) (ExprCases.exprAt h lhs hleft)
  | .assign _ target value, _, _, hcode => by
    rw [Lower.exprAt] at hcode
    obtain ⟨place, hplace, hrest⟩ := bind_eq_ok_iff.1 hcode
    obtain ⟨inner, hinner, hline⟩ := bind_eq_ok_iff.1 hrest
    obtain rfl := Except.ok.inj hline
    exact h.assign _ _ _ _ _ _ (ExprCases.addressAt h target hplace)
      (ExprCases.exprAt h value hinner)
  | .call _ _ args, _, _, hcode => by
    rw [Lower.exprAt] at hcode
    obtain ⟨pushed, hpushed, hrest⟩ := bind_eq_ok_iff.1 hcode
    obtain ⟨called, hcalled, hline⟩ := bind_eq_ok_iff.1 hrest
    obtain rfl := Except.ok.inj hline
    exact h.call _ _ _ _ _ _ (ExprCases.argumentsAt h args hpushed) hcalled
  -- Statements are not lowered as expressions.
  | .exprStmt _ _, _, _, hcode => nomatch hcode
  | .ret _ _, _, _, hcode => nomatch hcode
  | .block _ _, _, _, hcode => nomatch hcode
  | .ifElse _ _ _ _, _, _, hcode => nomatch hcode
  | .loop _ _ _ _ _, _, _, hcode => nomatch hcode

theorem ExprCases.addressAt (h : ExprCases routine P A L) : ∀ (node : Node) {depth : Nat}
    {code : Code}, addressAt routine depth node = .ok code → A depth node code
  | .var _ _, _, _, hcode => by
    rw [Lower.addressAt] at hcode
    exact h.varAddress _ _ _ _ hcode
  | .deref _ operand, _, _, hcode => by
    rw [Lower.addressAt] at hcode
    exact h.derefAddress _ _ _ _ (ExprCases.exprAt h operand hcode)
  | .num _ _, _, _, hcode => nomatch hcode
  | .neg _ _, _, _, hcode => nomatch hcode
  | .addr _ _, _, _, hcode => nomatch hcode
  | .binary _ _ _ _, _, _, hcode => nomatch hcode
  | .assign _ _ _, _, _, hcode => nomatch hcode
  | .call _ _ _, _, _, hcode => nomatch hcode
  | .exprStmt _ _, _, _, hcode => nomatch hcode
  | .ret _ _, _, _, hcode => nomatch hcode
  | .block _ _, _, _, hcode => nomatch hcode
  | .ifElse _ _ _ _, _, _, hcode => nomatch hcode
  | .loop _ _ _ _ _, _, _, hcode => nomatch hcode

theorem ExprCases.argumentsAt (h : ExprCases routine P A L) : ∀ (args : List Node) {depth : Nat}
    {code : Code}, argumentsAt routine depth args = .ok code → L depth args code
  | [], _, _, hcode => by
    rw [Lower.argumentsAt] at hcode
    obtain rfl := Except.ok.inj hcode
    exact h.nil _
  | arg :: args, _, _, hcode => by
    rw [Lower.argumentsAt] at hcode
    obtain ⟨first, hfirst, hrest⟩ := bind_eq_ok_iff.1 hcode
    obtain ⟨more, hmore, hline⟩ := bind_eq_ok_iff.1 hrest
    obtain rfl := Except.ok.inj hline
    exact h.cons _ _ _ _ _ (ExprCases.exprAt h arg hfirst) (ExprCases.argumentsAt h args hmore)

end

end Induction

end PocketCompiler.Lower
