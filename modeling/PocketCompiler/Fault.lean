/-!
# Faults

A *fault* is a broken assumption of the compiler itself: a value outside a signed 64-bit word, a
variable that no table holds, a tree whose statements and expressions are mixed up.  A mistake in
the program being compiled is a `Complaint`, never a fault.  Program text cannot cause a fault;
trees and programs put together by hand can, so every function that relies on an assumption
checks it and answers with the `Fault` that names it.
-/

namespace PocketCompiler

/-- The word operations that can leave the range of a signed 64-bit word. -/
inductive Operation where
  | add
  | subtract
  | multiply
  | negate
  | divide
deriving DecidableEq, Repr

/-- The verb of an operation, as it stands in a fault's message. -/
def Operation.verb : Operation → String
  | .add => "add"
  | .subtract => "subtract"
  | .multiply => "multiply"
  | .negate => "negate"
  | .divide => "divide"

/-- The assumptions that can be broken. -/
inductive Fault where
  /-- The exact result of the operation is no signed 64-bit word. -/
  | overflow (operation : Operation)
  /-- A division by zero outside the compiled program. -/
  | divisionByZero
  /-- A table of `length` entries was asked for entry `index`. -/
  | noSuchEntry (length index : Nat)
  /-- A call passes `count` arguments, and only `available` registers pass arguments. -/
  | tooFewRegisters (available count : Nat)
  /-- An expression stands where a statement belongs. -/
  | expressionAsStatement
  /-- A statement stands where an expression belongs. -/
  | statementAsExpression
  /-- The address of something that has none was asked for. -/
  | noAddress
  /-- More was popped from the evaluation stack than had been pushed. -/
  | stackUnderflow
  /-- The statement at byte `loc` left `depth` words on the evaluation stack. -/
  | stackUnbalanced (depth loc : Nat)
deriving DecidableEq, Repr

/-- The text of a fault. -/
def Fault.message : Fault → String
  | .overflow operation => "attempt to " ++ operation.verb ++ " with overflow"
  | .divisionByZero => "attempt to divide by zero"
  | .noSuchEntry length index =>
    "index out of bounds: the len is " ++ toString length ++ " but the index is " ++ toString index
  | .tooFewRegisters available count =>
    "range end index " ++ toString count ++ " out of range for slice of length "
      ++ toString available
  | .expressionAsStatement =>
    "internal error: entered unreachable code: expression used as a statement"
  | .statementAsExpression =>
    "internal error: entered unreachable code: statement used as an expression"
  | .noAddress => "internal error: entered unreachable code: not an lvalue"
  | .stackUnderflow => "attempt to subtract with overflow"
  | .stackUnbalanced depth loc =>
    "assertion `left == right` failed: evaluation stack unbalanced after statement at offset "
      ++ toString loc ++ "\n  left: " ++ toString depth ++ "\n right: 0"

/-- Entry `index` of a table, or the fault that the table is too short. -/
def entry (table : List α) (index : Nat) : Except Fault α :=
  match table[index]? with
  | some a => .ok a
  | none => .error (.noSuchEntry table.length index)

theorem entry_eq_ok_iff {table : List α} {index : Nat} {a : α} :
    entry table index = .ok a ↔ table[index]? = some a := by
  unfold entry
  split <;> simp_all

/-- An entry is found exactly when its index is below the length of the table. -/
theorem exists_entry_eq_ok_iff {table : List α} {index : Nat} :
    (∃ a, entry table index = .ok a) ↔ index < table.length := by
  simp only [entry_eq_ok_iff]
  constructor
  · rintro ⟨a, h⟩
    exact (List.getElem?_eq_some_iff.1 h).1
  · intro h
    exact ⟨table[index], List.getElem?_eq_getElem h⟩

end PocketCompiler
