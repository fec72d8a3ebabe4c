import Mathlib.Data.Int.ConditionallyCompleteOrder
import Mathlib.Data.Nat.SuccPred
import Mathlib.Order.CompletePartialOrder
import Mathlib.Order.SuccPred.IntervalSucc
import PocketCompiler.Proofs.Lower.Typed

/-!
# Frames give every local its own bytes

`Frame.edge locals k` is the lower edge of the first `k` locals, counted from the base of the frame,
and local `k` has the bytes from edge `k + 1` up to edge `k` (`Function.getElem?_offsets`).  The
edges go down, so the bytes of distinct locals are apart.

`Frame.LaysOut` collects what a frame is relied on for, and `Function.frame_laysOut` says which
functions have such a frame.  Rounding up adds the whole step before it takes one away, so the
frame of locals that need just `Word.greatest - 15` bytes has no size although its size would be a
word.
-/

namespace PocketCompiler

/-! ### Rounding up -/

theorem Word.le_of_roundUp {n step m : Int} (h : Word.roundUp n step = .ok m) :
    n + step ≤ Word.greatest := by
  obtain ⟨reached, hreached, -⟩ := bind_eq_ok_iff.1 h
  exact (Word.checked_eq_ok_iff.1 hreached).1.2

/-- **Rounding up gives the least multiple that is not below the number.** -/
theorem Word.isLeast_of_roundUp {n step m : Int} (hn : 0 ≤ n) (hstep : 0 < step)
    (h : Word.roundUp n step = .ok m) : IsLeast {k | step ∣ k ∧ n ≤ k} m := by
  rw [Word.roundUp_of_le hn hstep (Word.le_of_roundUp h)] at h
  obtain rfl := Except.ok.inj h
  have hmod := Int.emod_add_mul_ediv (n + step - 1) step
  have hlow := Int.emod_nonneg (n + step - 1) hstep.ne'
  have hhigh := Int.emod_lt_of_pos (n + step - 1) hstep
  rw [Int.mul_comm] at hmod
  constructor
  · exact ⟨Int.dvd_mul_left _ _, by omega⟩
  · rintro _ ⟨⟨k, rfl⟩, hk⟩
    -- A smaller multiple is smaller by a whole step, and there is no room for that above `n`.
    rw [Int.mul_comm step k]
    apply Int.mul_le_mul_of_nonneg_right _ hstep.le
    apply Int.lt_add_one_iff.1
    apply Int.ediv_lt_of_lt_mul hstep
    rw [Int.add_mul, Int.one_mul, Int.mul_comm k step]
    omega

/-! ### Edges -/

/-- The lower edge of the first `count` locals, counted from the base of their frame. -/
def Frame.edge (locals : List Variable) (count : Nat) : Int := -totalSize (locals.take count)

@[simp] theorem Frame.edge_zero (locals : List Variable) : Frame.edge locals 0 = 0 := rfl

theorem Frame.edge_succ {locals : List Variable} {i : Nat} {v : Variable}
    (h : locals[i]? = some v) : Frame.edge locals (i + 1) + v.ty.size = Frame.edge locals i := by
  simp only [Frame.edge, totalSize, List.take_add_one, h, Option.toList_some, List.map_append,
    List.map_cons, List.map_nil, List.sum_append, List.sum_singleton]
  omega

theorem Frame.edge_length (locals : List Variable) :
    Frame.edge locals locals.length = -totalSize locals := by
  rw [Frame.edge, List.take_length]

/-- Each local goes below the ones in front of it. -/
theorem Frame.antitone_edge {locals : List Variable} (hsizes : ∀ v ∈ locals, 0 ≤ v.ty.size) :
    Antitone (Frame.edge locals) := by
  apply antitone_nat_of_succ_le
  intro i
  by_cases hi : i < locals.length
  · have hsucc := Frame.edge_succ (List.getElem?_eq_getElem hi)
    have hsize := hsizes _ (List.getElem_mem hi)
    omega
  · have htake : locals.take (i + 1) = locals.take i := by
      rw [List.take_of_length_le (by omega), List.take_of_length_le (by omega)]
    rw [Frame.edge, Frame.edge, htake]

/-- What `Frame.place` computes: the total, and below the bytes used at first an offset for each
type, which lies as far down as that type and those in front of it need. -/
theorem Frame.eq_of_place : ∀ {types : List Ty} {used total : Int} {offsets : List Int},
    Frame.place used types = .ok (offsets, total) → total = used + (types.map Ty.size).sum
      ∧ offsets = (List.range types.length).map
        fun i => -(used + ((types.take (i + 1)).map Ty.size).sum)
  | [], used, total, offsets, h => by
    obtain ⟨rfl, rfl⟩ := Prod.mk.inj (Except.ok.inj h)
    simp
  | ty :: types, used, total, offsets, h => by
    obtain ⟨below, hbelow, h⟩ := bind_eq_ok_iff.1 h
    obtain ⟨offset, hoffset, h⟩ := bind_eq_ok_iff.1 h
    obtain ⟨⟨rest, total'⟩, hrest, h⟩ := bind_eq_ok_iff.1 h
    obtain ⟨rfl, rfl⟩ := Prod.mk.inj (Except.ok.inj h)
    obtain ⟨-, rfl⟩ := Word.checked_eq_ok_iff.1 hbelow
    obtain ⟨-, rfl⟩ := Word.checked_eq_ok_iff.1 hoffset
    obtain ⟨rfl, rfl⟩ := eq_of_place hrest
    constructor
    · simp only [List.map_cons, List.sum_cons, Int.add_assoc]
    · simp only [List.length_cons, List.range_succ_eq_map, List.map_cons, List.map_map,
        List.take_succ_cons, List.take_zero, List.map_nil, List.sum_cons, List.sum_nil,
        Function.comp_def, Int.add_assoc, Int.add_zero]

/-! ### The frames of functions -/

section

variable {f : Function} {frame : Frame}

/-- A frame is made of the edges of its function's locals, and of their total rounded up. -/
theorem Function.frame_eq_ok (h : f.frame = .ok frame) :
    frame.offsets = (List.range f.locals.length).map (fun i => Frame.edge f.locals (i + 1))
      ∧ Word.roundUp (totalSize f.locals) 16 = .ok frame.size := by
  obtain ⟨⟨offsets, total⟩, hplace, h⟩ := bind_eq_ok_iff.1 h
  obtain ⟨size, hsize, h⟩ := bind_eq_ok_iff.1 h
  obtain rfl := Except.ok.inj h
  obtain ⟨htotal, hoffsets⟩ := Frame.eq_of_place hplace
  rw [List.map_map, Int.zero_add] at htotal
  constructor
  · simp only [hoffsets, List.length_map, Int.zero_add, Frame.edge, totalSize, ← List.map_take,
      List.map_map, Function.comp_def]
  · rw [htotal] at hsize
    exact hsize

theorem Function.length_offsets (h : f.frame = .ok frame) :
    frame.offsets.length = f.locals.length := by
  rw [(Function.frame_eq_ok h).1, List.length_map, List.length_range]

theorem Function.getElem?_offsets (h : f.frame = .ok frame) {i : Nat} (hi : i < f.locals.length) :
    frame.offsets[i]? = some (Frame.edge f.locals (i + 1)) := by
  rw [(Function.frame_eq_ok h).1, List.getElem?_map, List.getElem?_range hi]
  rfl

end

/-- The places of the bytes of local `i`, counted from the base of the frame. -/
def Frame.slot (frame : Frame) (locals : List Variable) (i : Nat) : Set Int :=
  {place | ∃ offset, ∃ v : Variable, frame.offsets[i]? = some offset ∧ locals[i]? = some v
    ∧ place ∈ Set.Ico offset (offset + v.ty.size)}

/-- What a frame for some locals is relied on for.  Each local starts where the one in front of it
ends, going down from the base; no two share a byte; all of them lie in the frame; and the size of
the frame is the least that is aligned and large enough. -/
structure Frame.LaysOut (frame : Frame) (locals : List Variable) : Prop where
  length_eq : frame.offsets.length = locals.length
  adjacent : ∀ (i : Nat) (offset : Int) (v : Variable), frame.offsets[i]? = some offset →
    locals[i]? = some v → (0 :: frame.offsets)[i]? = some (offset + v.ty.size)
  disjoint : ∀ i j, i ≠ j → Disjoint (frame.slot locals i) (frame.slot locals j)
  within : ∀ i, frame.slot locals i ⊆ Set.Ico (-frame.size) 0
  size_least : IsLeast {size | 16 ∣ size ∧ totalSize locals ≤ size} frame.size

section

variable {f : Function} {frame : Frame}

/-- The bytes of a local lie between two edges. -/
theorem Function.slot_subset (h : f.frame = .ok frame) (i : Nat) :
    frame.slot f.locals i ⊆ Set.Ico (Frame.edge f.locals (i + 1)) (Frame.edge f.locals i) := by
  rintro place ⟨offset, v, hoffset, hv, hlow, hhigh⟩
  have hi : i < f.locals.length := (List.getElem?_eq_some_iff.1 hv).1
  rw [Function.getElem?_offsets h hi] at hoffset
  obtain rfl := Option.some.inj hoffset
  rw [Frame.edge_succ hv] at hhigh
  exact ⟨hlow, hhigh⟩

theorem totalSize_nonneg {locals : List Variable} (hsizes : ∀ v ∈ locals, 0 ≤ v.ty.size) :
    0 ≤ totalSize locals := by
  apply List.sum_nonneg
  intro n hn
  obtain ⟨v, hv, rfl⟩ := List.mem_map.1 hn
  exact hsizes v hv

/-- A frame of locals whose sizes are not negative lays them out. -/
theorem Function.laysOut_of_frame (hsizes : ∀ v ∈ f.locals, 0 ≤ v.ty.size)
    (h : f.frame = .ok frame) : frame.LaysOut f.locals := by
  have hedge := Frame.antitone_edge hsizes
  have hleast := Word.isLeast_of_roundUp (totalSize_nonneg hsizes) (by decide)
    (Function.frame_eq_ok h).2
  refine ⟨Function.length_offsets h, ?_, ?_, ?_, hleast⟩
  · intro i offset v hoffset hv
    have hi : i < f.locals.length := (List.getElem?_eq_some_iff.1 hv).1
    rw [Function.getElem?_offsets h hi] at hoffset
    obtain rfl := Option.some.inj hoffset
    rw [Frame.edge_succ hv]
    cases i with
    | zero => rfl
    | succ i => exact Function.getElem?_offsets h (by omega)
  · intro i j hij
    apply (hedge.pairwise_disjoint_on_Ico_succ hij).mono
    · exact Function.slot_subset h i
    · exact Function.slot_subset h j
  · intro i place hplace
    obtain ⟨offset, v, -, hv, -⟩ := id hplace
    obtain ⟨hlow, hhigh⟩ := Function.slot_subset h i hplace
    have hi : i < f.locals.length := (List.getElem?_eq_some_iff.1 hv).1
    -- The last edge is the total, which the size of the frame is not below.
    have hlast : Frame.edge f.locals f.locals.length ≤ Frame.edge f.locals (i + 1) := hedge hi
    have hfirst : Frame.edge f.locals i ≤ Frame.edge f.locals 0 := hedge (Nat.zero_le i)
    have hsize : totalSize f.locals ≤ frame.size := hleast.1.2
    rw [Frame.edge_length] at hlast
    rw [Frame.edge_zero] at hfirst
    exact ⟨by omega, by omega⟩

end

/-- **Frames are sound.**  Locals whose sizes are not negative and add up to a number that is a word
with 15 more have a frame that lays them out, unless that word is the greatest: then the first sum
of rounding up is no word.  Rounding up is the same for other steps: it gives the least multiple,
unless the number with all but one of the step is the greatest word.  A frame is a value of its
own, so the function itself stays as it is. -/
theorem Function.frame_laysOut (f : Function) (hsizes : ∀ v ∈ f.locals, 0 ≤ v.ty.size)
    (hfits : Word.Fits (totalSize f.locals + 15)) :
    (totalSize f.locals + 15 ≠ Word.greatest →
        ∃ frame, f.frame = .ok frame ∧ frame.LaysOut f.locals)
      ∧ (totalSize f.locals + 15 = Word.greatest → f.frame = .error (.overflow .add))
      ∧ ∀ n step, 0 ≤ n → 0 < step → Word.Fits (n + step - 1) →
        (n + step - 1 ≠ Word.greatest →
            ∃ m, Word.roundUp n step = .ok m ∧ IsLeast {k | step ∣ k ∧ n ≤ k} m)
          ∧ (n + step - 1 = Word.greatest → Word.roundUp n step = .error (.overflow .add)) := by
  refine ⟨fun hne => ?_, Function.frame_eq_error hsizes, fun n step hn hstep hfits => ⟨?_, ?_⟩⟩
  · have hroom : totalSize f.locals + 16 ≤ Word.greatest := by
      have hle := hfits.2
      omega
    obtain ⟨frame, hframe, -⟩ := Function.exists_frame hsizes hroom
    exact ⟨frame, hframe, Function.laysOut_of_frame hsizes hframe⟩
  · intro hne
    have hroom : n + step ≤ Word.greatest := by
      have hle := hfits.2
      omega
    have hround := Word.roundUp_of_le hn hstep hroom
    exact ⟨_, hround, Word.isLeast_of_roundUp hn hstep hround⟩
  · exact Word.roundUp_eq_error

/-- A word, a byte, an array without elements and an array of three words. -/
def Function.mixed : Function :=
  { name := "f"
    ty := .func .int []
    params := []
    locals := [⟨"a", .int, none⟩, ⟨"b", .char, none⟩, ⟨"z", .array .int 0, none⟩,
      ⟨"c", .array .int 3, none⟩]
    body := .block ⟨0, none⟩ [] }

theorem Function.frame_laysOut_mixed :
    Function.mixed.frame = .ok ⟨[-8, -9, -9, -33], 48⟩
      ∧ Frame.LaysOut ⟨[-8, -9, -9, -33], 48⟩ Function.mixed.locals := by
  have hframe : Function.mixed.frame = .ok ⟨[-8, -9, -9, -33], 48⟩ := by decide
  obtain ⟨hlaid, -⟩ := Function.frame_laysOut Function.mixed (by decide) (by decide)
  obtain ⟨frame, hok, hlays⟩ := hlaid (by decide)
  rw [hframe] at hok
  obtain rfl := Except.ok.inj hok
  exact ⟨hframe, hlays⟩

/-- A function with one array of `Word.greatest - 15` bytes, a multiple of 16. -/
def Function.vast : Function :=
  { name := "f"
    ty := .func .int []
    params := []
    locals := [⟨"a", .array .char 9223372036854775792, none⟩]
    body := .block ⟨0, none⟩ [] }

/-- The bytes of the array and 15 more are a word, and the array is as large as an aligned frame,
but it has no frame, since its size cannot be rounded up to itself. -/
theorem Function.not_frame_vast :
    (∀ v ∈ Function.vast.locals, 0 ≤ v.ty.size)
      ∧ totalSize Function.vast.locals = 9223372036854775792
      ∧ Word.Fits (9223372036854775792 + 15)
      ∧ IsLeast {k : Int | 16 ∣ k ∧ 9223372036854775792 ≤ k} 9223372036854775792
      ∧ Word.roundUp 9223372036854775792 16 = .error (.overflow .add)
      ∧ Function.vast.frame = .error (.overflow .add) := by
  refine ⟨by decide, by decide, by decide, ⟨⟨by decide, le_rfl⟩, fun k hk => hk.2⟩, by decide, ?_⟩
  decide

end PocketCompiler
