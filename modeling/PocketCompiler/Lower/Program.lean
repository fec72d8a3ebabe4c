import PocketCompiler.Assembly.Text
import PocketCompiler.Lower.Stmt

/-!
# Code for programs

The assembly of a program starts with the choice of syntax.  Then come the globals as data, and
then the functions as code, both in the order of their declarations.
-/

namespace PocketCompiler

namespace Lower

/-! ### Data -/

/-- The zero bytes behind the `count` bytes that a global of type `ty` starts with. -/
def padding (ty : Ty) (count : Nat) : Except Fault Code := do
  let missing ← Word.sub ty.size count
  if missing > 0 then
    return [.directive (.zero missing)]
  else
    return []

/-- What a global holds when the program starts. -/
def contents (stored : Variable) : Except Fault Code :=
  match stored.contents with
  | some (.bytes bytes) => do
    let zeros ← padding stored.ty bytes.length
    return bytes.map (fun b => Line.directive (.byte b)) ++ zeros
  | some (.address label) => return [.directive (.address label)]
  | none => return [.directive (.zero stored.ty.size)]

/-- The data of a global. -/
def datum (stored : Variable) : Except Fault Code := do
  let lines ← contents stored
  return [.directive .dataSection, .directive (.visible stored.name), .label (.symbol stored.name)]
    ++ lines

/-! ### Functions -/

/-- Puts an argument into the frame at `offset`. -/
def spill (offset : Int) (ty : Ty) (src : Reg) : Line :=
  if ty.size = 1 then .instr (.storeFrameByte offset src) else .instr (.storeFrame offset src)

/-- Puts the arguments, which come in `registers`, into the frame. -/
def spills (offsets : List Int) : List (Nat × Ty) → (registers : List Reg) → Except Fault Code
  | [], _ => return []
  | (index, ty) :: params, registers => do
    let offset ← entry offsets index
    match registers with
    | [] => throw (.noSuchEntry Reg.forArguments.length Reg.forArguments.length)
    | src :: registers =>
      let more ← spills offsets params registers
      return spill offset ty src :: more

/-- The lines in front of the body of a function. -/
def prologue (name : String) (frameSize : Int) : Code :=
  [.directive (.visible name), .directive .codeSection, .label (.symbol name), .instr (.push .rbp),
   .instr (.move .rbp .rsp), .instr (.subConst .rsp frameSize)]

/-- The lines behind the body of a function. -/
def epilogue (name : String) : Code :=
  [.label (.returnOf name), .instr (.move .rsp .rbp), .instr (.pop .rbp), .instr .ret]

/-- The code of a function. -/
def function (globals : List Variable) (function : Function) (frame : Frame) : Lower Code := do
  let routine : Routine :=
    { name := function.name
      returnsChar := function.ty.result? == some .char
      offsets := frame.offsets
      globals }
  let arguments ← spills frame.offsets (function.params.zip function.ty.paramTypes)
    Reg.forArguments
  let body ← stmt routine function.body
  return prologue function.name frame.size ++ arguments ++ body ++ epilogue function.name

/-- The code of functions, one after the other. -/
def functions (globals : List Variable) : List (Function × Frame) → Lower Code
  | [] => return []
  | (first, frame) :: more => do
    let code ← function globals first frame
    let rest ← functions globals more
    return code ++ rest

end Lower

/-! ### Programs -/

/-- The assembly of a program: its data, its code, and the frames of its functions. -/
structure Listing where
  frames : List Frame
  data : Code
  code : Code
deriving DecidableEq, Repr

/-- All lines of the assembly of a program. -/
def Listing.lines (listing : Listing) : Code :=
  Line.directive .intelSyntax :: (listing.data ++ listing.code)

/-- The text of the assembly of a program. -/
def Listing.text (listing : Listing) : String := Code.text listing.lines

/-- The frames of the functions of a program. -/
def Program.frames (program : Program) : Except Fault (List Frame) :=
  program.functions.mapM Function.frame

/-- The assembly of a program.  All frames are laid out before any code is made. -/
def Program.lower (program : Program) : Except Fault Listing := do
  let frames ← program.frames
  let data ← program.globals.mapM Lower.datum
  let (code, _) ← (Lower.functions program.globals (program.functions.zip frames)).run {}
  return { frames, data := data.flatten, code }

end PocketCompiler
