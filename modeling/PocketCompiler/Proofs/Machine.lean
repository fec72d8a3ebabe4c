import PocketCompiler.Assembly
import PocketCompiler.Word

/-!
# What instructions do

The machine that compiled code runs on: registers of 64 bits whose arithmetic wraps around, a memory
of bytes, and the operands of the last comparison.  The words that `push` puts away are kept apart
from the memory, in `Machine.stack`; `rsp` moves along with them.

What lies outside of the code is a `World`: where the globals are, and what functions do when they
are called.  A line `call name` does not say how many arguments it passes, since caller and callee
agree on that; `Machine.passes` has these numbers for the calls to come, and a function sees as many
argument registers as are passed to it.  It may change the memory, the comparison and all
registers but `rbp` and `rsp`.

`World.step` gives none where the machine faults: a division by zero or with a quotient that is no
word, and a call that does not come back.  Jumps and moves of `rsp` other than by a word are left to
other descriptions of the code.
-/

namespace PocketCompiler

/-! ### Bytes and words -/

/-- The low byte of a word. -/
def lowByte (value : Int64) : UInt8 := value.toUInt64.toUInt8

/-- A byte as a word, with its sign. -/
def signedByte (byte : UInt8) : Int64 := byte.toInt8.toInt64

/-- A byte as a word, without a sign. -/
def unsignedByte (byte : UInt8) : Int64 := byte.toUInt64.toInt64

/-- A word with its low byte replaced. -/
def withLowByte (value : Int64) (byte : UInt8) : Int64 :=
  (value.toUInt64 / 256 * 256 + byte.toUInt64).toInt64

/-- Only the new byte is left of a low byte that has been replaced. -/
theorem lowByte_withLowByte (value : Int64) (byte : UInt8) :
    lowByte (withLowByte value byte) = byte := by
  apply UInt8.toNat_inj.1
  have hbyte : byte.toNat < 256 := byte.toNat_lt
  have hvalue : value.toUInt64.toNat < 2 ^ 64 := value.toUInt64.toNat_lt
  show ((value.toUInt64 / 256 * 256 + byte.toUInt64).toInt64.toUInt64).toUInt8.toNat = byte.toNat
  rw [UInt64.toUInt64_toInt64, UInt64.toNat_toUInt8, UInt64.toNat_add, UInt64.toNat_mul,
    UInt64.toNat_div, UInt8.toNat_toUInt64]
  have h256 : (256 : UInt64).toNat = 256 := rfl
  rw [h256]
  omega

/-- Bytes by their addresses. -/
abbrev Memory := Int64 → UInt8

namespace Memory

/-- The word at an address, its lowest byte first. -/
def word (memory : Memory) (address : Int64) : Int64 :=
  ((List.range 8).foldr
    (fun i high => high * 256 + (memory (address + Int64.ofNat i)).toUInt64) 0).toInt64

/-- The memory with another byte at an address. -/
def setByte (memory : Memory) (address : Int64) (byte : UInt8) : Memory :=
  fun place => if place = address then byte else memory place

/-- The memory with another word at an address. -/
def setWord (memory : Memory) (address value : Int64) : Memory :=
  fun place =>
    let index := (place - address).toUInt64
    if index < 8 then (value.toUInt64 >>> (8 * index)).toUInt8 else memory place

theorem setWord_apply (memory : Memory) (address value : Int64) {i : Nat} (hi : i < 8) :
    memory.setWord address value (address + Int64.ofNat i)
      = (value.toUInt64 >>> UInt64.ofNat (8 * i)).toUInt8 := by
  have hindex : (address + Int64.ofNat i - address).toUInt64 = UInt64.ofNat i := by
    rw [Int64.add_comm, Int64.add_sub_cancel]
    rfl
  have hlt : UInt64.ofNat i < 8 := by
    have hsize : i < UInt64.size := Nat.lt_trans hi (by decide)
    rw [UInt64.lt_iff_toNat_lt, UInt64.toNat_ofNat_of_lt' hsize]
    exact hi
  simp only [setWord, hindex]
  rw [if_pos hlt, UInt64.ofNat_mul]
  rfl

/-- The word at an address is the one that was put there last. -/
theorem word_setWord (memory : Memory) (address value : Int64) :
    (memory.setWord address value).word address = value := by
  suffices h : ∀ v : UInt64, (List.range 8).foldr (fun i high => high * 256
      + (v >>> UInt64.ofNat (8 * i)).toUInt8.toUInt64) 0 = v by
    have hword := h value.toUInt64
    simp only [List.range, List.range.loop, List.foldr] at hword
    simp only [word, List.range, List.range.loop, List.foldr]
    simp (disch := decide) only [setWord_apply]
    rw [hword, Int64.toInt64_toUInt64]
  -- What is left is that a number is made of its digits of base 256.
  intro v
  have hlt : v.toNat < 2 ^ 64 := v.toNat_lt
  apply UInt64.toNat_inj.1
  simp [List.range, List.range.loop, List.foldr, UInt64.toNat_add, UInt64.toNat_mul,
    UInt64.toNat_shiftRight, UInt64.toNat_ofNat, Nat.shiftRight_eq_div_pow]
  omega

end Memory

/-! ### The machine -/

/-- The state of the machine. -/
structure Machine where
  regs : Reg → Int64
  memory : Memory
  /-- The words that wait on the stack, the last one first. -/
  stack : List Int64
  /-- The operands of the last comparison. -/
  compared : Int64 × Int64
  /-- The numbers of arguments of the calls to come. -/
  passes : List Nat

/-- What a call leaves behind. -/
structure Aftermath where
  regs : Reg → Int64
  memory : Memory
  compared : Int64 × Int64

/-- What lies outside of the code. -/
structure World where
  /-- Where the globals are. -/
  globalAddress : String → Int64
  /-- What is found on the stack where nothing was put. -/
  stale : Int64
  /-- What a function does with its arguments and the memory, if it comes back. -/
  call : String → List Int64 → Memory → Option Aftermath

/-- Whether two words compare in this way. -/
def Condition.holds : Condition → Int64 → Int64 → Bool
  | .equal, a, b => a = b
  | .notEqual, a, b => a ≠ b
  | .less, a, b => a < b
  | .lessOrEqual, a, b => a ≤ b

namespace Machine

/-- The machine with another value in a register. -/
def set (m : Machine) (dst : Reg) (value : Int64) : Machine :=
  { m with regs := fun r => if r = dst then value else m.regs r }

/-- Writes to a register.  The stack is not moved in this way. -/
def write (m : Machine) (dst : Reg) (value : Int64) : Option Machine :=
  if dst = .rsp then none else some (m.set dst value)

/-- Puts a word on the stack. -/
def push (m : Machine) (value : Int64) : Machine :=
  { m.set .rsp (m.regs .rsp - 8) with stack := value :: m.stack }

/-- Takes a word from the stack. -/
def pop (m : Machine) : Option (Int64 × Machine) :=
  match m.stack with
  | [] => none
  | value :: rest => some (value, { m.set .rsp (m.regs .rsp + 8) with stack := rest })

/-- The integer whose upper half is in `rdx` and whose lower half is in `rax`. -/
def dividend (m : Machine) : Int :=
  (m.regs .rdx).toInt * 18446744073709551616 + (m.regs .rax).toUInt64.toNat

/-- Divides `rdx` and `rax` by a word: the quotient goes to `rax`, the remainder to `rdx`. -/
def divide (m : Machine) (divisor : Int64) : Option Machine :=
  if divisor = 0 then none
  else if Word.Fits (m.dividend.tdiv divisor.toInt) then
    some ((m.set .rax (Int64.ofInt (m.dividend.tdiv divisor.toInt))).set .rdx
      (Int64.ofInt (m.dividend.tmod divisor.toInt)))
  else none

end Machine

namespace World

/-- Calls a function: it sees the arguments that are passed to it, and leaves `rbp`, `rsp` and the
stack as they were. -/
def enter (world : World) (name : String) (m : Machine) : Option Machine :=
  match m.passes with
  | [] => none
  | count :: later => do
    let after ← world.call name ((Reg.forArguments.take count).map m.regs) m.memory
    return { m with
      regs := fun r => if r = .rbp ∨ r = .rsp then m.regs r else after.regs r
      memory := after.memory
      compared := after.compared
      passes := later }

/-- What an instruction does. -/
def step (world : World) : Instr → Machine → Option Machine
  | .move dst src, m => m.write dst (m.regs src)
  | .moveConst dst value, m => m.write dst value
  | .frameAddress dst offset, m => m.write dst (m.regs .rbp + Int64.ofInt offset)
  | .globalAddress dst name, m => m.write dst (world.globalAddress name)
  | .load dst src, m => m.write dst (m.memory.word (m.regs src))
  | .loadByte dst src, m => m.write dst (signedByte (m.memory (m.regs src)))
  | .store dst src, m => some { m with memory := m.memory.setWord (m.regs dst) (m.regs src) }
  | .storeByte dst src, m =>
    some { m with memory := m.memory.setByte (m.regs dst) (lowByte (m.regs src)) }
  | .storeFrame offset src, m =>
    some { m with memory := m.memory.setWord (m.regs .rbp + Int64.ofInt offset) (m.regs src) }
  | .storeFrameByte offset src, m =>
    some { m with
      memory := m.memory.setByte (m.regs .rbp + Int64.ofInt offset) (lowByte (m.regs src)) }
  | .negate dst, m => m.write dst (-m.regs dst)
  | .add dst src, m => m.write dst (m.regs dst + m.regs src)
  | .sub dst src, m => m.write dst (m.regs dst - m.regs src)
  | .multiply dst src, m => m.write dst (m.regs dst * m.regs src)
  | .addConst dst value, m =>
    if dst = .rsp then
      if value = 8 then m.pop.map (·.2) else none
    else m.write dst (m.regs dst + Int64.ofInt value)
  | .subConst dst value, m =>
    if dst = .rsp then
      if value = 8 then some (m.push world.stale) else none
    else m.write dst (m.regs dst - Int64.ofInt value)
  | .signExtend, m => m.write .rdx (if m.regs .rax < 0 then -1 else 0)
  | .divide src, m => m.divide (m.regs src)
  | .compare lhs rhs, m => some { m with compared := (m.regs lhs, m.regs rhs) }
  | .compareConst lhs value, m => some { m with compared := (m.regs lhs, Int64.ofInt value) }
  | .setIf condition dst, m =>
    m.write dst (withLowByte (m.regs dst)
      (if condition.holds m.compared.1 m.compared.2 then 1 else 0))
  | .zeroExtendByte dst src, m => m.write dst (unsignedByte (lowByte (m.regs src)))
  | .signExtendByte dst src, m => m.write dst (signedByte (lowByte (m.regs src)))
  | .push src, m => some (m.push (m.regs src))
  | .pop dst, m => do
    let (value, popped) ← m.pop
    popped.write dst value
  | .call name, m => world.enter name m
  | .jump _, _ | .jumpIfEqual _, _ | .ret, _ => none

/-- What a line does.  Labels and directives do nothing. -/
def line (world : World) : Line → Machine → Option Machine
  | .instr step, m => world.step step m
  | .label _, m | .directive _, m => some m

/-- Runs lines one after the other. -/
def run (world : World) : Code → Machine → Option Machine
  | [], m => some m
  | first :: more, m => do
    let next ← world.line first m
    world.run more next

/-- Lines run one after the other, wherever they are cut in two. -/
theorem run_append (world : World) (first second : Code) (m : Machine) :
    world.run (first ++ second) m = (world.run first m).bind (world.run second) := by
  induction first generalizing m with
  | nil => rfl
  | cons line more ih =>
    show (world.line line m).bind (world.run (more ++ second)) = _
    rw [show world.run (line :: more) m = (world.line line m).bind (world.run more) from rfl,
      Option.bind_assoc]
    exact congrArg _ (funext ih)

end World

end PocketCompiler
