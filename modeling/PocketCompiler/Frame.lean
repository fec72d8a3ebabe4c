import PocketCompiler.Program

/-!
# Frames

A function keeps its locals in its frame, one below the other in the order of their declarations.
Offsets count from the base of the frame downward, so they are negative, and the size of a frame
is a multiple of 16.
-/

namespace PocketCompiler

/-- Where the locals of a function are: the offset of each, and the size of the frame. -/
structure Frame where
  offsets : List Int
  size : Int
deriving DecidableEq, Repr

/-- Puts values of these types below the `used` bytes at the base of a frame: the offset of each,
and the number of bytes used in the end. -/
def Frame.place (used : Int) : List Ty → Except Fault (List Int × Int)
  | [] => .ok ([], used)
  | ty :: types => do
    let below ← Word.add used ty.size
    let offset ← Word.neg below
    let (offsets, total) ← Frame.place below types
    return (offset :: offsets, total)

/-- Lays out locals of these types. -/
def Frame.layout (types : List Ty) : Except Fault Frame := do
  let (offsets, total) ← Frame.place 0 types
  let size ← Word.roundUp total 16
  return ⟨offsets, size⟩

/-- Lays out the locals of a function. -/
def Function.frame (function : Function) : Except Fault Frame :=
  Frame.layout (function.locals.map (·.ty))

end PocketCompiler
