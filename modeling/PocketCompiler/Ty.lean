import PocketCompiler.Word

/-!
# Types

The types of the language: bytes, words, pointers, arrays and functions.  The size of a type is
computed from its shape, so two types are equal exactly when they are written the same way, and
`Ty.beq` decides that.
-/

namespace PocketCompiler

/-- A type.  Array lengths are integers: a negative length is a type too, of negative size. -/
inductive Ty where
  /-- A signed byte. -/
  | char
  /-- A signed 64-bit word. -/
  | int
  /-- The address of a `base`. -/
  | ptr (base : Ty)
  /-- `len` elements one after the other. -/
  | array (elem : Ty) (len : Int)
  /-- A function from `params` to `result`. -/
  | func (result : Ty) (params : List Ty)
deriving Repr, Inhabited

namespace Ty

/-! ### Equality -/

mutual

/-- Decides whether two types are written the same way. -/
def beq : Ty → Ty → Bool
  | .char, .char => true
  | .int, .int => true
  | .ptr a, .ptr b => beq a b
  | .array a n, .array b m => beq a b && n == m
  | .func a ps, .func b qs => beq a b && beqList ps qs
  | _, _ => false

/-- Decides whether two lists of types are written the same way. -/
def beqList : List Ty → List Ty → Bool
  | [], [] => true
  | a :: ps, b :: qs => beq a b && beqList ps qs
  | _, _ => false

end

mutual

theorem beq_iff_eq : ∀ a b : Ty, beq a b = true ↔ a = b
  | .char, b => by cases b <;> simp [beq]
  | .int, b => by cases b <;> simp [beq]
  | .ptr a, b => by cases b <;> simp [beq, beq_iff_eq a]
  | .array a n, b => by cases b <;> simp [beq, beq_iff_eq a]
  | .func a ps, b => by cases b <;> simp [beq, beq_iff_eq a, beqList_iff_eq ps]

theorem beqList_iff_eq : ∀ ps qs : List Ty, beqList ps qs = true ↔ ps = qs
  | [], qs => by cases qs <;> simp [beqList]
  | a :: ps, qs => by cases qs <;> simp [beqList, beq_iff_eq a, beqList_iff_eq ps]

end

instance : DecidableEq Ty := fun a b => decidable_of_iff _ (beq_iff_eq a b)

/-! ### Sizes -/

/-- The number of bytes a value takes.  A function takes none. -/
def size : Ty → Int
  | .char => 1
  | .int => 8
  | .ptr _ => 8
  | .array elem len => elem.size * len
  | .func _ _ => 0

/-- The array type of `len` elements, if its size is a word. -/
def arrayOf (elem : Ty) (len : Int) : Except Fault Ty := do
  let _ ← Word.mul elem.size len
  return .array elem len

/-! ### Views -/

/-- Bytes and words are the integer types. -/
def isInteger : Ty → Bool
  | .char | .int => true
  | _ => false

/-- Whether the type is a pointer. -/
def isPointer : Ty → Bool
  | .ptr _ => true
  | _ => false

/-- Whether the type is an array. -/
def isArray : Ty → Bool
  | .array _ _ => true
  | _ => false

/-- What a pointer points to, or what an array is made of. -/
def base? : Ty → Option Ty
  | .ptr base => some base
  | .array elem _ => some elem
  | _ => none

/-- The number of elements of an array, `0` for any other type. -/
def arrayLen : Ty → Int
  | .array _ len => len
  | _ => 0

/-- The declared result of a function. -/
def result? : Ty → Option Ty
  | .func result _ => some result
  | _ => none

/-- The declared parameters of a function, none for any other type. -/
def paramTypes : Ty → List Ty
  | .func _ params => params
  | _ => []

/-- An array handed on by its address: a pointer to its first element.  Any other type stays. -/
def decay : Ty → Ty
  | .array elem _ => .ptr elem
  | ty => ty

/-- The type behind `depth` levels of pointers. -/
def pointers (depth : Nat) (ty : Ty) : Ty :=
  match depth with
  | 0 => ty
  | depth + 1 => .ptr (pointers depth ty)

end PocketCompiler.Ty
