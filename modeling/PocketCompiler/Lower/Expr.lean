import PocketCompiler.Assembly
import PocketCompiler.Frame

/-!
# Code for expressions

The code of an expression leaves its value in `rax`.  While one operand is computed the other
waits on the stack, and so do the arguments of a call.  The number of words that wait is counted
along: it decides how the stack is aligned at a call, and it has to be zero between statements.
-/

namespace PocketCompiler

/-- What code depends on besides its tree: the words that wait on the stack, and the number of
conditionals and loops so far. -/
structure LowerState where
  depth : Nat := 0
  labels : Nat := 0
deriving DecidableEq, Repr

/-- A computation that makes code. -/
abbrev Lower := StateT LowerState (Except Fault)

/-- The function whose code is being made. -/
structure Routine where
  name : String
  /-- Whether the function gives a byte. -/
  returnsChar : Bool
  /-- The offsets of its locals. -/
  offsets : List Int
  /-- The globals of the program. -/
  globals : List Variable

namespace Lower

/-- Puts `rax` on the stack. -/
def push : Lower Code := do
  modify fun s => { s with depth := s.depth + 1 }
  return [.instr (.push .rax)]

/-- Takes a register from the stack. -/
def pop (dst : Reg) : Lower Code := do
  match (← get).depth with
  | 0 => throw .stackUnderflow
  | depth + 1 =>
    modify fun s => { s with depth }
    return [.instr (.pop dst)]

/-- Takes registers from the stack, one after the other. -/
def popAll : List Reg → Lower Code
  | [] => return []
  | dst :: more => do
    let first ← pop dst
    let rest ← popAll more
    return first ++ rest

/-- Puts the address of a variable into `rax`. -/
def variableAddress (routine : Routine) : VarRef → Lower Code
  | .localVar index => do
    let offset ← entry routine.offsets index
    return [.instr (.frameAddress .rax offset)]
  | .globalVar index => do
    let found ← entry routine.globals index
    return [.instr (.globalAddress .rax found.name)]

/-- Replaces the address in `rax` by what is there.  The value of an array is its address. -/
def load (ty : Option Ty) : Code :=
  match ty with
  | some ty =>
    if ty.isArray then []
    else if ty.size = 1 then [.instr (.loadByte .rax .rax)]
    else [.instr (.load .rax .rax)]
  | none => [.instr (.load .rax .rax)]

/-- Puts `rax` where `rdi` points to. -/
def store (ty : Option Ty) : Code :=
  match ty with
  | some ty => if ty.size = 1 then [.instr (.storeByte .rdi .rax)] else [.instr (.store .rdi .rax)]
  | none => [.instr (.store .rdi .rax)]

/-- Compares `rax` with `rdi`: `rax` becomes the truth value. -/
def comparison (condition : Condition) : Code :=
  [.instr (.compare .rax .rdi), .instr (.setIf condition .rax), .instr (.zeroExtendByte .rax .rax)]

/-- Applies an operator to `rax` and `rdi`. -/
def operate : BinaryOp → Code
  | .add => [.instr (.add .rax .rdi)]
  | .sub => [.instr (.sub .rax .rdi)]
  | .mul => [.instr (.multiply .rax .rdi)]
  | .div => [.instr .signExtend, .instr (.divide .rdi)]
  | .eq => comparison .equal
  | .ne => comparison .notEqual
  | .lt => comparison .less
  | .le => comparison .lessOrEqual

/-- The call itself, with `depth` words waiting.  An odd number of them is made even first, so
that the stack is a multiple of 16 bytes. -/
def aligned (depth : Nat) (name : String) : Code :=
  if depth % 2 = 1 then
    [.instr (.subConst .rsp 8), .instr (.call name), .instr (.addConst .rsp 8)]
  else [.instr (.call name)]

/-- The registers that pass `count` arguments, the last one first. -/
def argumentRegisters (count : Nat) : Lower (List Reg) :=
  if count ≤ Reg.forArguments.length then return (Reg.forArguments.take count).reverse
  else throw (.tooFewRegisters Reg.forArguments.length count)

/-- Calls a function whose arguments, `count` of them, wait on the stack. -/
def call (name : String) (count : Nat) : Lower Code := do
  let registers ← argumentRegisters count
  let arguments ← popAll registers
  let depth := (← get).depth
  return arguments ++ [.instr (.moveConst .rax 0)] ++ aligned depth name

mutual

/-- The code of an expression. -/
def expr (routine : Routine) : Node → Lower Code
  | .num _ value => return [.instr (.moveConst .rax value)]
  | .var mark ref => do
    let address ← variableAddress routine ref
    return address ++ load mark.ty
  | .neg _ operand => do
    let code ← expr routine operand
    return code ++ [.instr (.negate .rax)]
  | .addr _ operand => address routine operand
  | .deref mark operand => do
    let code ← expr routine operand
    return code ++ load mark.ty
  | .binary _ op lhs rhs => do
    -- The right operand waits, so the left one ends up in `rax`.
    let right ← expr routine rhs
    let put ← push
    let left ← expr routine lhs
    let take ← pop .rdi
    return right ++ put ++ left ++ take ++ operate op
  | .assign mark target value => do
    -- The address waits, so the value is still in `rax` after the store.
    let place ← address routine target
    let put ← push
    let code ← expr routine value
    let take ← pop .rdi
    return place ++ put ++ code ++ take ++ store mark.ty
  | .call _ name args => do
    let pushed ← arguments routine args
    let called ← call name args.length
    return pushed ++ called
  | .exprStmt _ _ | .ret _ _ | .block _ _ | .ifElse _ _ _ _ | .loop _ _ _ _ _ =>
    throw .statementAsExpression

/-- The code that puts the address of an expression into `rax`. -/
def address (routine : Routine) : Node → Lower Code
  | .var _ ref => variableAddress routine ref
  | .deref _ operand => expr routine operand
  | _ => throw .noAddress

/-- The code that puts arguments on the stack, the first one first. -/
def arguments (routine : Routine) : List Node → Lower Code
  | [] => return []
  | arg :: args => do
    let code ← expr routine arg
    let put ← push
    let more ← arguments routine args
    return code ++ put ++ more

end

end PocketCompiler.Lower
