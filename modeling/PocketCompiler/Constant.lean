import PocketCompiler.Complaint
import PocketCompiler.Program
import PocketCompiler.Symbol

/-!
# Constants

The value that a global starts with is computed before the program runs.  `fold` is the arithmetic
of constants: that of 64-bit words, which wrap around, with division toward zero.  `contentsFor`
turns an initial value into what the global holds.
-/

namespace PocketCompiler

/-- The word that stands for a truth value. -/
def truth (p : Bool) : Int64 := if p then 1 else 0

/-- The value of a constant expression.  Its operands are looked at from left to right. -/
def fold : Node → Except Failure Int64
  | .num _ value => .ok value
  | .neg _ operand => return -(← fold operand)
  | .binary mark op lhs rhs => do
    let a ← fold lhs
    let b ← fold rhs
    match op with
    | .add => return a + b
    | .sub => return a - b
    | .mul => return a * b
    | .div => if b = 0 then throw (.complaint mark.loc .constantDivisionByZero) else return a / b
    | .eq => return truth (a = b)
    | .ne => return truth (a ≠ b)
    | .lt => return truth (a < b)
    | .le => return truth (a ≤ b)
  | node => .error (.complaint node.loc .notConstant)

@[simp] theorem fold_num (mark : Mark) (value : Int64) : fold (.num mark value) = .ok value := by
  rw [fold]

/-- The `count` low bytes of a word, the lowest first. -/
def littleEndian (value : Int64) (count : Nat) : List UInt8 :=
  (List.range count).map fun i => (value.toUInt64 >>> UInt64.ofNat (8 * i)).toUInt8

/-- The global that holds a string literal, if the expression is one. -/
def literalOf? (globals : List Variable) : Node → Option Variable
  | .var _ (.globalVar index) => globals[index]?.filter (Symbol.isLiteral ·.name)
  | _ => none

/-- What a global of type `ty` holds when its initial value is a string literal: its address, or
as many of its bytes as there is room for.  Only the final zero byte may be left out. -/
def literalContents (literal : Variable) (ty : Ty) (loc : Nat) : Except Failure Contents :=
  match literal.contents, ty with
  | some (.bytes _), .ptr .char => .ok (.address literal.name)
  | some (.bytes bytes), .array .char len =>
    -- What is left of the array is filled with zero bytes when the data is written.
    if (bytes.length : Int) - 1 > len then .error (.complaint loc .initializerTooLong)
    else .ok (.bytes (bytes.take len.toNat))
  | some (.bytes _), _ => .error (.complaint loc .invalidInitializer)
  | _, _ => .error (.complaint loc .notConstant)

/-- What a global of type `ty` with this initial value holds when the program starts. -/
def contentsFor (globals : List Variable) (init : Node) (ty : Ty) : Except Failure Contents :=
  match literalOf? globals init with
  | some literal => literalContents literal ty init.loc
  | none =>
    if ty.isInteger || ty.isPointer then do
      let value ← fold init
      return .bytes (littleEndian value ty.size.toNat)
    else .error (.complaint init.loc .invalidInitializer)

end PocketCompiler
