import PocketCompiler.Constant
import PocketCompiler.Proofs.Machine

/-!
# What expressions mean

`Setting.eval` says what an expression means, by its tree alone: it changes the memory and has a
value, or it fails.  The right operand of an operator comes before the left one, the address of an
assignment before its value, and arguments come from left to right.  The value of an assignment is
all of the word that was assigned, also where only its low byte is stored.
-/

namespace PocketCompiler

/-! ### What expressions mean -/

/-- What is read from an address as a value of a type.  The value of an array is its address. -/
def Memory.fetch (memory : Memory) (ty : Option Ty) (address : Int64) : Int64 :=
  match ty with
  | some ty =>
    if ty.isArray then address
    else if ty.size = 1 then signedByte (memory address)
    else memory.word address
  | none => memory.word address

/-- The memory with a value of a type put at an address: a byte if the type takes one, else a
word. -/
def Memory.put (memory : Memory) (ty : Option Ty) (address value : Int64) : Memory :=
  match ty with
  | some ty =>
    if ty.size = 1 then memory.setByte address (lowByte value) else memory.setWord address value
  | none => memory.setWord address value

/-- The value of an operator.  Division fails by zero, and where the quotient is no word. -/
def BinaryOp.apply : BinaryOp → Int64 → Int64 → Option Int64
  | .add, a, b => some (a + b)
  | .sub, a, b => some (a - b)
  | .mul, a, b => some (a * b)
  | .div, a, b => if b = 0 ∨ (a = Int64.minValue ∧ b = -1) then none else some (a / b)
  | .eq, a, b => some (truth (a = b))
  | .ne, a, b => some (truth (a ≠ b))
  | .lt, a, b => some (truth (a < b))
  | .le, a, b => some (truth (a ≤ b))

/-- What an expression refers to: the places of variables, and functions, which change the memory
and give a value if they come back. -/
structure Setting where
  place : VarRef → Int64
  call : String → List Int64 → Memory → Option (Int64 × Memory)

namespace Setting

mutual

/-- The value of an expression, and the memory after it. -/
def eval (setting : Setting) : Node → Memory → Option (Int64 × Memory)
  | .num _ value, memory => some (value, memory)
  | .var mark ref, memory => some (memory.fetch mark.ty (setting.place ref), memory)
  | .neg _ operand, memory => do
    let (value, memory) ← setting.eval operand memory
    return (-value, memory)
  | .addr _ operand, memory => setting.evalAddress operand memory
  | .deref mark operand, memory => do
    let (address, memory) ← setting.eval operand memory
    return (memory.fetch mark.ty address, memory)
  | .binary _ op lhs rhs, memory => do
    let (b, memory) ← setting.eval rhs memory
    let (a, memory) ← setting.eval lhs memory
    let value ← op.apply a b
    return (value, memory)
  | .assign mark target value, memory => do
    let (address, memory) ← setting.evalAddress target memory
    let (value, memory) ← setting.eval value memory
    return (value, memory.put mark.ty address value)
  | .call _ name args, memory => do
    let (values, memory) ← setting.evalAll args memory
    setting.call name values memory
  | .exprStmt _ _, _ | .ret _ _, _ | .block _ _, _ | .ifElse _ _ _ _, _ | .loop _ _ _ _ _, _ => none

/-- The address of an expression, and the memory after it. -/
def evalAddress (setting : Setting) : Node → Memory → Option (Int64 × Memory)
  | .var _ ref, memory => some (setting.place ref, memory)
  | .deref _ operand, memory => setting.eval operand memory
  | _, _ => none

/-- The values of some expressions, and the memory after them. -/
def evalAll (setting : Setting) : List Node → Memory → Option (List Int64 × Memory)
  | [], memory => some ([], memory)
  | node :: nodes, memory => do
    let (value, memory) ← setting.eval node memory
    let (values, memory) ← setting.evalAll nodes memory
    return (value :: values, memory)

end

end Setting

mutual

/-- The numbers of arguments of the calls in an expression, in the order in which they are made. -/
def Node.passes : Node → List Nat
  | .neg _ operand | .addr _ operand | .deref _ operand => operand.passes
  | .binary _ _ lhs rhs => rhs.passes ++ lhs.passes
  | .assign _ target value => target.passes ++ value.passes
  | .call _ _ args => Node.passesAll args ++ [args.length]
  | _ => []

/-- The numbers of arguments of the calls in some expressions. -/
def Node.passesAll : List Node → List Nat
  | [] => []
  | node :: nodes => node.passes ++ Node.passesAll nodes

end

end PocketCompiler
