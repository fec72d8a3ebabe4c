import PocketCompiler.Fault

/-!
# Words

Sizes, array lengths and frame offsets are integers that have to stay within a signed 64-bit word.
They are kept as `Int`, so that their arithmetic is the arithmetic of the integers, and each
operation on them answers with a fault as soon as its exact result is no word.
-/

namespace PocketCompiler.Word

/-- The least signed 64-bit word. -/
def least : Int := -9223372036854775808

/-- The greatest signed 64-bit word. -/
def greatest : Int := 9223372036854775807

/-- An integer that is a signed 64-bit word. -/
def Fits (n : Int) : Prop := least ≤ n ∧ n ≤ greatest

instance (n : Int) : Decidable (Fits n) := inferInstanceAs (Decidable (_ ∧ _))

/-- The integer itself if it is a word, else the fault of the operation that produced it. -/
def checked (operation : Operation) (n : Int) : Except Fault Int :=
  if Fits n then .ok n else .error (.overflow operation)

/-- Addition of words. -/
def add (a b : Int) : Except Fault Int := checked .add (a + b)

/-- Subtraction of words. -/
def sub (a b : Int) : Except Fault Int := checked .subtract (a - b)

/-- Multiplication of words. -/
def mul (a b : Int) : Except Fault Int := checked .multiply (a * b)

/-- Negation of a word. -/
def neg (a : Int) : Except Fault Int := checked .negate (-a)

/-- Division of words, toward zero. -/
def div (a b : Int) : Except Fault Int :=
  if b = 0 then .error .divisionByZero else checked .divide (a.tdiv b)

/-! ### When an operation has a result -/

theorem checked_eq_ok_iff {operation : Operation} {n m : Int} :
    checked operation n = .ok m ↔ Fits n ∧ n = m := by
  unfold checked
  split <;> simp_all

@[simp] theorem checked_of_fits {operation : Operation} {n : Int} (h : Fits n) :
    checked operation n = .ok n :=
  checked_eq_ok_iff.2 ⟨h, rfl⟩

/-- Rounds `n` up to a multiple of `step`: `(n + step - 1) / step * step`, each operation checked
on its own. -/
def roundUp (n step : Int) : Except Fault Int := do
  let reached ← add n step
  let last ← sub reached 1
  let steps ← div last step
  mul steps step

end PocketCompiler.Word
