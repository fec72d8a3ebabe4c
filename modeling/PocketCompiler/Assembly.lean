/-!
# Assembly

The lines of an x86-64 assembly program as data: labels, directives and instructions.  There is an
instruction for each form that compiled code uses, so that what code does can be said by a
function on these types.  How lines are written is the business of `Assembly/Text.lean`.
-/

namespace PocketCompiler

/-- The 64-bit registers that compiled code uses. -/
inductive Reg where
  | rax
  | rdi
  | rsi
  | rdx
  | rcx
  | r8
  | r9
  | rbp
  | rsp
deriving DecidableEq, Repr

/-- The registers that pass arguments, the first argument first. -/
def Reg.forArguments : List Reg := [.rdi, .rsi, .rdx, .rcx, .r8, .r9]

/-- What two words are compared for. -/
inductive Condition where
  | equal
  | notEqual
  | less
  | lessOrEqual
deriving DecidableEq, Repr

/-- The places that a program can jump to or name. -/
inductive Label where
  /-- A global or a function. -/
  | symbol (name : String)
  /-- The end of the function called `function`. -/
  | returnOf (function : String)
  /-- The other branch of the conditional with that number. -/
  | elseOf (number : Nat)
  /-- The start of the loop with that number. -/
  | beginOf (number : Nat)
  /-- The end of the conditional or loop with that number. -/
  | endOf (number : Nat)
deriving DecidableEq, Repr

/-- An instruction. -/
inductive Instr where
  /-- `dst := src`. -/
  | move (dst src : Reg)
  /-- `dst := value`. -/
  | moveConst (dst : Reg) (value : Int64)
  /-- `dst :=` the address `offset` bytes from the base of the frame. -/
  | frameAddress (dst : Reg) (offset : Int)
  /-- `dst :=` the address of the global called `name`. -/
  | globalAddress (dst : Reg) (name : String)
  /-- `dst :=` the word at the address in `src`. -/
  | load (dst src : Reg)
  /-- `dst :=` the byte at the address in `src`, with its sign. -/
  | loadByte (dst src : Reg)
  /-- The word at the address in `dst` becomes `src`. -/
  | store (dst src : Reg)
  /-- The byte at the address in `dst` becomes the low byte of `src`. -/
  | storeByte (dst src : Reg)
  /-- The word `offset` bytes from the base of the frame becomes `src`. -/
  | storeFrame (offset : Int) (src : Reg)
  /-- The byte `offset` bytes from the base of the frame becomes the low byte of `src`. -/
  | storeFrameByte (offset : Int) (src : Reg)
  /-- `dst := -dst`. -/
  | negate (dst : Reg)
  /-- `dst := dst + src`. -/
  | add (dst src : Reg)
  /-- `dst := dst - src`. -/
  | sub (dst src : Reg)
  /-- `dst := dst * src`. -/
  | multiply (dst src : Reg)
  /-- `dst := dst + value`. -/
  | addConst (dst : Reg) (value : Int)
  /-- `dst := dst - value`. -/
  | subConst (dst : Reg) (value : Int)
  /-- `rdx` takes the sign of `rax`. -/
  | signExtend
  /-- `rax :=` the word in `rdx` and `rax` divided by `src`, toward zero. -/
  | divide (src : Reg)
  /-- Compares `lhs` with `rhs`. -/
  | compare (lhs rhs : Reg)
  /-- Compares `lhs` with a value. -/
  | compareConst (lhs : Reg) (value : Int)
  /-- The low byte of `dst` becomes 1 if the last comparison came out so, else 0. -/
  | setIf (condition : Condition) (dst : Reg)
  /-- `dst :=` the low byte of `src`, without a sign. -/
  | zeroExtendByte (dst src : Reg)
  /-- `dst :=` the low byte of `src`, with its sign. -/
  | signExtendByte (dst src : Reg)
  /-- Puts `src` on the stack. -/
  | push (src : Reg)
  /-- Takes `dst` from the stack. -/
  | pop (dst : Reg)
  /-- Goes on at `target`. -/
  | jump (target : Label)
  /-- Goes on at `target` if the last comparison found equality. -/
  | jumpIfEqual (target : Label)
  /-- Calls the function called `name`. -/
  | call (name : String)
  /-- Returns to the caller. -/
  | ret
deriving DecidableEq, Repr

/-- A directive to the assembler. -/
inductive Directive where
  /-- The instructions are written in the syntax with the target first. -/
  | intelSyntax
  /-- What follows is data. -/
  | dataSection
  /-- What follows is code. -/
  | codeSection
  /-- The label called `name` is visible to other programs. -/
  | visible (name : String)
  /-- One byte of data. -/
  | byte (value : UInt8)
  /-- So many zero bytes. -/
  | zero (count : Int)
  /-- The address of the label called `name`. -/
  | address (name : String)
deriving DecidableEq, Repr

/-- A line of an assembly program. -/
inductive Line where
  | label (place : Label)
  | directive (order : Directive)
  | instr (step : Instr)
deriving DecidableEq, Repr

/-- A stretch of an assembly program. -/
abbrev Code := List Line

end PocketCompiler
