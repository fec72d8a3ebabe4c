import PocketCompiler.Lower.Expr

/-!
# Code for statements

Between statements nothing waits on the stack.  Every conditional and every loop takes the next
number for its labels, and numbers are never used twice in one program.
-/

namespace PocketCompiler.Lower

/-- The number of the next conditional or loop. -/
def nextNumber : Lower Nat := do
  modify fun s => { s with labels := s.labels + 1 }
  return (← get).labels

/-- Goes to `target` if `rax` is zero. -/
def unlessTrue (target : Label) : Code :=
  [.instr (.compareConst .rax 0), .instr (.jumpIfEqual target)]

/-- The code of an expression, if there is one. -/
def exprSome (routine : Routine) : Option Node → Lower Code
  | none => return []
  | some node => expr routine node

/-- The code that leaves a loop unless its condition holds. -/
def guard (routine : Routine) (exit : Label) : Option Node → Lower Code
  | none => return []
  | some cond => do
    let code ← expr routine cond
    return code ++ unlessTrue exit

/-- The code that ends a function, with its value in `rax`. -/
def leave (routine : Routine) : Code :=
  if routine.returnsChar then
    [.instr (.signExtendByte .rax .rax), .instr (.jump (.returnOf routine.name))]
  else [.instr (.jump (.returnOf routine.name))]

/-- Checks that nothing waits on the stack after the statement at byte `loc`. -/
def balanced (loc : Nat) (code : Code) : Lower Code := do
  let depth := (← get).depth
  if depth = 0 then
    return code
  else
    throw (.stackUnbalanced depth loc)

mutual

/-- The code of a statement. -/
def stmt (routine : Routine) : Node → Lower Code
  | .exprStmt mark node => do
    let code ← expr routine node
    balanced mark.loc code
  | .ret mark value => do
    let code ← expr routine value
    balanced mark.loc (code ++ leave routine)
  | .block mark body => do
    let code ← stmts routine body
    balanced mark.loc code
  | .ifElse mark cond onTrue onFalse => do
    let number ← nextNumber
    let test ← expr routine cond
    let first ← stmt routine onTrue
    let second ← stmtSome routine onFalse
    balanced mark.loc (test ++ unlessTrue (.elseOf number) ++ first
      ++ [.instr (.jump (.endOf number)), .label (.elseOf number)] ++ second
      ++ [.label (.endOf number)])
  | .loop mark init cond step body => do
    let number ← nextNumber
    let start ← exprSome routine init
    let test ← guard routine (.endOf number) cond
    let inside ← stmt routine body
    let next ← exprSome routine step
    balanced mark.loc (start ++ [.label (.beginOf number)] ++ test ++ inside ++ next
      ++ [.instr (.jump (.beginOf number)), .label (.endOf number)])
  | .num _ _ | .var _ _ | .neg _ _ | .addr _ _ | .deref _ _ | .binary _ _ _ _ | .assign _ _ _
  | .call _ _ _ => throw .expressionAsStatement

/-- The code of statements, one after the other. -/
def stmts (routine : Routine) : List Node → Lower Code
  | [] => return []
  | node :: nodes => do
    let code ← stmt routine node
    let more ← stmts routine nodes
    return code ++ more

/-- The code of a statement, if there is one. -/
def stmtSome (routine : Routine) : Option Node → Lower Code
  | none => return []
  | some node => stmt routine node

end

end PocketCompiler.Lower
