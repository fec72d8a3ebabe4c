import Mathlib.Data.Int.ConditionallyCompleteOrder
import Mathlib.Order.CompletePartialOrder
import Mathlib.Order.ConditionallyCompleteLattice.Basic
import Mathlib.Order.Interval.Set.Disjoint
import PocketCompiler.Lower.Program
import PocketCompiler.Proofs.Evaluation

/-!
# The stack as a part of the memory

`World.step` keeps the words on the stack apart from the memory.  Where frames are set up, it
matters that they are not: `World.flatStep` pushes words into the memory below `rsp` and moves `rsp`
freely, and does with all other instructions what `World.step` does.

A value in a frame is `Kept` at an offset from the base.  Values whose bytes are apart can be put
into the memory one after the other, and each is read back as it was put there
(`Memory.fetch_putAll`), while no other byte changes (`Memory.putAll_of_notMem`).
-/

namespace PocketCompiler

/-! ### The machine -/

/-- Puts a word into the memory below the stack pointer, and moves the stack pointer there. -/
def Machine.pushFlat (m : Machine) (value : Int64) : Machine :=
  { m.set .rsp (m.regs .rsp - 8) with memory := m.memory.setWord (m.regs .rsp - 8) value }

namespace World

/-- What an instruction does if the stack is a part of the memory. -/
def flatStep (world : World) : Instr → Machine → Option Machine
  | .push src, m => some (m.pushFlat (m.regs src))
  | .pop dst, m => some ((m.set .rsp (m.regs .rsp + 8)).set dst (m.memory.word (m.regs .rsp)))
  | .move dst src, m => some (m.set dst (m.regs src))
  | .addConst dst value, m => some (m.set dst (m.regs dst + Int64.ofInt value))
  | .subConst dst value, m => some (m.set dst (m.regs dst - Int64.ofInt value))
  | step, m => world.step step m

/-- What a line does if the stack is a part of the memory. -/
def flatLine (world : World) : Line → Machine → Option Machine
  | .instr step, m => world.flatStep step m
  | .label _, m | .directive _, m => some m

/-- Runs lines one after the other, with the stack as a part of the memory. -/
def flatRun (world : World) (code : Code) (m : Machine) : Option Machine :=
  code.foldlM (fun m line => world.flatLine line m) m

theorem flatRun_append (world : World) (first second : Code) (m : Machine) :
    world.flatRun (first ++ second) m = (world.flatRun first m).bind (world.flatRun second) :=
  List.foldlM_append

end World

/-! ### Bytes -/

namespace Memory

variable {memory other : Memory} {address value place : Int64}

/-- A word changes the eight bytes from its address on. -/
theorem setWord_of_forall_ne (h : ∀ i < 8, place ≠ address + Int64.ofNat i) :
    memory.setWord address value place = memory place := by
  have hindex : ¬ (place - address).toUInt64 < 8 := by
    intro hlt
    apply h (place - address).toUInt64.toNat (UInt64.lt_iff_toNat_lt.1 hlt)
    have hback : Int64.ofNat (place - address).toUInt64.toNat = place - address := by
      rw [← UInt64.toInt64_ofNat', UInt64.ofNat_toNat, Int64.toInt64_toUInt64]
    rw [hback, Int64.add_comm, Int64.sub_add_cancel]
  exact if_neg hindex

theorem word_congr
    (h : ∀ i < 8, memory (address + Int64.ofNat i) = other (address + Int64.ofNat i)) :
    memory.word address = other.word address := by
  apply congrArg UInt64.toInt64
  simp only [List.range, List.range.loop, List.foldr]
  simp (disch := decide) only [h]

end Memory

/-! ### Values in a frame -/

/-- The types whose values fit into a register. -/
def Ty.isScalar : Ty → Bool
  | .char | .int | .ptr _ => true
  | _ => false

/-- What is left of a word that was put where a value of this type is: all of it, or its low byte
with its sign. -/
def Ty.retained (ty : Ty) (value : Int64) : Int64 :=
  if ty = .char then signedByte (lowByte value) else value

/-- A value in a frame: its offset from the base, its type, and the word that was put there. -/
structure Kept where
  offset : Int
  ty : Ty
  value : Int64

/-- The bytes of a value, counted from the base of the frame. -/
def Kept.span (kept : Kept) : Set Int := Set.Ico kept.offset (kept.offset + kept.ty.size)

/-- Places of a frame are told apart by their offsets. -/
theorem Word.injOn_place (base : Int64) :
    Set.InjOn (fun d => base + Int64.ofInt d) {d | Word.Fits d} := by
  intro d hd e he h
  have hof : Int64.ofInt d = Int64.ofInt e := (Int64.add_right_inj base).1 h
  have hd' : (Int64.ofInt d).toInt = d := Int64.toInt_ofInt_of_le hd.1 (Int.lt_add_one_iff.2 hd.2)
  have he' : (Int64.ofInt e).toInt = e := Int64.toInt_ofInt_of_le he.1 (Int.lt_add_one_iff.2 he.2)
  rw [← hd', hof, he']

namespace Memory

variable {memory other : Memory} {base : Int64}

/-- The memory with values put into the frame at `base`, the first one first. -/
def putAll (memory : Memory) (base : Int64) (values : List Kept) : Memory :=
  values.foldl (fun memory kept =>
    memory.put (some kept.ty) (base + Int64.ofInt kept.offset) kept.value) memory

theorem place_add (base : Int64) (offset : Int) (i : Nat) :
    base + Int64.ofInt offset + Int64.ofNat i = base + Int64.ofInt (offset + i) := by
  rw [Int64.ofInt_add, Int64.add_assoc]
  rfl

/-- A value that is put somewhere changes its own bytes only. -/
theorem put_of_notMem {kept : Kept} (hty : kept.ty.isScalar = true) {place : Int64}
    (h : ∀ d ∈ kept.span, place ≠ base + Int64.ofInt d) :
    memory.put (some kept.ty) (base + Int64.ofInt kept.offset) kept.value place = memory place := by
  obtain ⟨offset, ty, value⟩ := kept
  -- A byte is one place, a word eight.
  have hbyte : ty.size = 1 → place ≠ base + Int64.ofInt offset := by
    intro hsize
    apply h offset
    show offset ≤ offset ∧ offset < offset + ty.size
    omega
  have hword : ty.size = 8 → ∀ i < 8, place ≠ base + Int64.ofInt offset + Int64.ofNat i := by
    intro hsize i hi
    rw [place_add]
    apply h (offset + i)
    show offset ≤ offset + i ∧ offset + i < offset + ty.size
    omega
  cases ty with
  | char => exact if_neg (hbyte rfl)
  | int => exact setWord_of_forall_ne (hword rfl)
  | ptr _ => exact setWord_of_forall_ne (hword rfl)
  | array _ _ => exact nomatch hty
  | func _ _ => exact nomatch hty

/-- **Frame rule**: values that are put into a frame change no byte but theirs. -/
theorem putAll_of_notMem {values : List Kept} (htypes : ∀ kept ∈ values, kept.ty.isScalar = true)
    {place : Int64} (h : ∀ kept ∈ values, ∀ d ∈ kept.span, place ≠ base + Int64.ofInt d) :
    memory.putAll base values place = memory place := by
  induction values generalizing memory with
  | nil => rfl
  | cons kept values ih =>
    obtain ⟨hty, htypes⟩ := List.forall_mem_cons.1 htypes
    obtain ⟨hkept, h⟩ := List.forall_mem_cons.1 h
    exact (ih htypes h).trans (put_of_notMem hty hkept)

/-- What is read depends on the bytes of the value alone. -/
theorem fetch_congr {kept : Kept} (hty : kept.ty.isScalar = true)
    (h : ∀ d ∈ kept.span, memory (base + Int64.ofInt d) = other (base + Int64.ofInt d)) :
    memory.fetch (some kept.ty) (base + Int64.ofInt kept.offset)
      = other.fetch (some kept.ty) (base + Int64.ofInt kept.offset) := by
  obtain ⟨offset, ty, value⟩ := kept
  have hword : ty.size = 8 →
      memory.word (base + Int64.ofInt offset) = other.word (base + Int64.ofInt offset) := by
    intro hsize
    apply word_congr
    intro i hi
    rw [place_add]
    apply h (offset + i)
    show offset ≤ offset + i ∧ offset + i < offset + ty.size
    omega
  cases ty with
  | char => exact congrArg signedByte (h offset ⟨le_rfl, Int.lt_add_one_iff.2 le_rfl⟩)
  | int => exact hword rfl
  | ptr _ => exact hword rfl
  | array _ _ => exact nomatch hty
  | func _ _ => exact nomatch hty

/-- A value is read back as it was put there, a byte with its sign. -/
theorem fetch_put {ty : Ty} (hty : ty.isScalar = true) (memory : Memory) (address value : Int64) :
    (memory.put (some ty) address value).fetch (some ty) address = ty.retained value := by
  cases ty with
  | char => exact congrArg signedByte (if_pos rfl)
  | int => exact word_setWord memory address value
  | ptr _ => exact word_setWord memory address value
  | array _ _ => exact nomatch hty
  | func _ _ => exact nomatch hty

/-- **Values whose bytes are apart do not disturb each other**: when all have been put into the
frame, each is read back as it was put there. -/
theorem fetch_putAll {values : List Kept} (htypes : ∀ kept ∈ values, kept.ty.isScalar = true)
    (hfits : ∀ kept ∈ values, kept.span ⊆ {d | Word.Fits d})
    (hapart : values.Pairwise fun a b => Disjoint a.span b.span) {kept : Kept}
    (hkept : kept ∈ values) :
    (memory.putAll base values).fetch (some kept.ty) (base + Int64.ofInt kept.offset)
      = kept.ty.retained kept.value := by
  induction values generalizing memory with
  | nil => exact nomatch hkept
  | cons first values ih =>
    rw [List.pairwise_cons] at hapart
    rw [List.forall_mem_cons] at htypes hfits
    rcases List.mem_cons.1 hkept with rfl | hkept
    · -- What comes later leaves the bytes of this value alone.
      refine Eq.trans (fetch_congr htypes.1 fun d hd => ?_) (fetch_put htypes.1 memory _ _)
      apply putAll_of_notMem htypes.2
      intro later hlater e he heq
      obtain rfl := Word.injOn_place base (hfits.1 hd) (hfits.2 later hlater he) heq
      exact Set.disjoint_left.1 (hapart.1 later hlater) hd he
    · exact ih htypes.2 hfits.2 hapart.2 hkept

end Memory

end PocketCompiler
