import PocketCompiler.Grammar.Parse
import PocketCompiler.Limit

/-!
# Declared types and names

```
type  = ("[" number "]")* "*"* ("int" | "char")
names = "*"* identifier ("," "*"* identifier)*
```
-/

namespace PocketCompiler.Parse

/-- Reads stars, and gives their number. -/
def stars : Parse Nat := do
  let found ← collect do
    if ← accept "*" then
      return some ()
    else
      return none
  return found.length

/-- Reads one dimension of an array, if there is one: its length and the place of its length. -/
def dimension? : Parse (Option (Int64 × Nat)) := do
  if ← accept "[" then
    let (len, loc) ← number
    expect "]"
    return some (len, loc)
  else
    return none

/-- Reads the name of a type that is made of no other. -/
def simpleType : Parse Ty := do
  if ← accept "int" then
    return .int
  else if ← accept "char" then
    return .char
  else
    unexpected .type

/-- The array type of `len` elements, if code can address all of it. -/
def arrayType (elem : Ty) (len : Int64) (loc : Nat) : Parse Ty := do
  let size := elem.size * len.toInt
  if Word.Fits size ∧ size ≤ maxObjectSize then
    orFault (elem.arrayOf len.toInt)
  else
    complainAt loc .arrayTooLarge

/-- The array type with these dimensions, the outermost first.  Inner arrays are made first, so of
two that are too large the inner one is reported. -/
def arrayTypes (elem : Ty) : List (Int64 × Nat) → Parse Ty
  | [] => return elem
  | (len, loc) :: inner => do
    let ty ← arrayTypes elem inner
    arrayType ty len loc

/-- Reads a type. -/
def type : Parse Ty := do
  let dimensions ← collect dimension?
  let depth ← stars
  let base ← simpleType
  arrayTypes (base.pointers depth) dimensions

/-- A name that is being declared, and the stars in front of it. -/
structure DeclaredName where
  name : String
  loc : Nat
  stars : Nat
deriving DecidableEq, Repr

/-- The type of a name in a declaration of type `ty`. -/
def DeclaredName.ty (declared : DeclaredName) (ty : Ty) : Ty := ty.pointers declared.stars

/-- Reads a name that is being declared. -/
def declaredName : Parse DeclaredName := do
  let depth ← stars
  let (name, loc) ← identifier
  return ⟨name, loc, depth⟩

/-- Reads the names of a declaration. -/
def declaredNames : Parse (List DeclaredName) := separated declaredName

end PocketCompiler.Parse
