import PocketCompiler.Proofs.Compile
import PocketCompiler.Proofs.FrameLayout
import PocketCompiler.Proofs.Grammar.Growth

/-!
# Numbers that instructions hold

An instruction has room for a signed 32-bit number: the displacement of a local from the base of the
frame, or what is added to the stack pointer.  `Function.Encodes` says which numbers of a function
fit.  Its displacements always do, since the parser bounds the sizes of locals together.  The bound
is on the sum before it is rounded up, so the size of the frame fits unless the sum is one of the 15
greatest, and then it is one too large (`Source.frames_encode`).
-/

namespace PocketCompiler

/-- An integer that is a signed 32-bit number. -/
def Word.Fits32 (n : Int) : Prop := -2147483648 ≤ n ∧ n ≤ 2147483647

instance (n : Int) : Decidable (Word.Fits32 n) := inferInstanceAs (Decidable (_ ∧ _))

/-! ### Lines -/

/-- The number that an instruction holds in a field of 32 bits, if it has such a field. -/
def Instr.held? : Instr → Option Int
  | .frameAddress _ n | .storeFrame n _ | .storeFrameByte n _ => some n
  | .addConst _ n | .subConst _ n | .compareConst _ n => some n
  | _ => none

/-- The number that a line holds in a field of 32 bits. -/
def Line.held? : Line → Option Int
  | .instr step => step.held?
  | _ => none

/-- Lines that hold numbers with at most 32 bits. -/
def Code.Encodable (code : Code) : Prop := ∀ line ∈ code, ∀ n ∈ line.held?, Word.Fits32 n

instance (code : Code) : Decidable code.Encodable :=
  inferInstanceAs (Decidable (∀ line ∈ code, ∀ n ∈ line.held?, Word.Fits32 n))

theorem Code.Encodable.append {first second : Code} (hfirst : first.Encodable)
    (hsecond : second.Encodable) : Code.Encodable (first ++ second) :=
  List.forall_mem_append.2 ⟨hfirst, hsecond⟩

namespace Lower

variable {routine : Routine} {code : Code}

theorem encodable_load (ty : Option Ty) : Code.Encodable (load ty) := by
  unfold load
  split
  · split
    · decide
    · split <;> decide
  · decide

theorem encodable_store (ty : Option Ty) : Code.Encodable (store ty) := by
  unfold store
  split
  · split <;> decide
  · decide

theorem encodable_operate (op : BinaryOp) : Code.Encodable (operate op) := by
  cases op <;> decide

theorem encodable_callAt {depth count : Nat} {name : String}
    (h : callAt depth name count = .ok code) : code.Encodable := by
  have haligned : Code.Encodable (aligned depth name) := by
    unfold aligned
    split
    · simp [Code.Encodable, Line.held?, Instr.held?, Word.Fits32]
    · simp [Code.Encodable, Line.held?, Instr.held?]
  unfold callAt at h
  split at h
  · obtain rfl := Except.ok.inj h
    apply Code.Encodable.append (Code.Encodable.append _ (by decide)) haligned
    intro line hline n hn
    obtain ⟨dst, -, rfl⟩ := List.mem_map.1 hline
    exact nomatch hn
  · exact nomatch h

/-- Only the place of a local is not known beforehand. -/
theorem encodable_variableAt (hoffsets : ∀ offset ∈ routine.offsets, Word.Fits32 offset)
    {ref : VarRef} (h : variableAt routine ref = .ok code) : code.Encodable := by
  cases ref with
  | localVar index =>
    obtain ⟨offset, hoffset, hline⟩ := bind_eq_ok_iff.1 h
    obtain rfl := Except.ok.inj hline
    intro line hline n hn
    rw [List.mem_singleton.1 hline] at hn
    rw [← Option.some.inj hn]
    exact hoffsets offset (List.mem_of_getElem? (entry_eq_ok_iff.1 hoffset))
  | globalVar index =>
    obtain ⟨found, -, hline⟩ := bind_eq_ok_iff.1 h
    obtain rfl := Except.ok.inj hline
    exact List.forall_mem_singleton.2 nofun

theorem cases_encodable (hoffsets : ∀ offset ∈ routine.offsets, Word.Fits32 offset) :
    ExprCases routine (fun _ _ code => code.Encodable) (fun _ _ code => code.Encodable)
      (fun _ _ code => code.Encodable) where
  num _ _ _ := List.forall_mem_singleton.2 nofun
  var _ mark _ _ hplace := (encodable_variableAt hoffsets hplace).append (encodable_load mark.ty)
  neg _ _ _ _ hcode := hcode.append (by decide)
  addr _ _ _ _ hcode := hcode
  deref _ mark _ _ hcode := hcode.append (encodable_load mark.ty)
  binary _ _ op _ _ _ _ hright hleft :=
    (((hright.append (by decide)).append hleft).append (by decide)).append (encodable_operate op)
  assign _ mark _ _ _ _ hplace hcode :=
    (((hplace.append (by decide)).append hcode).append (by decide)).append (encodable_store mark.ty)
  call _ _ _ _ _ _ hpushed hcalled := hpushed.append (encodable_callAt hcalled)
  varAddress _ _ _ _ hplace := encodable_variableAt hoffsets hplace
  derefAddress _ _ _ _ hcode := hcode
  nil _ := by decide
  cons _ _ _ _ _ hcode hmore := (hcode.append (by decide)).append hmore

theorem encodable_unlessTrue (exit : Label) : Code.Encodable (unlessTrue exit) := by
  simp [unlessTrue, Code.Encodable, Line.held?, Instr.held?, Word.Fits32]

theorem encodable_exprSomeAt (hoffsets : ∀ offset ∈ routine.offsets, Word.Fits32 offset)
    {node : Option Node} (h : exprSomeAt routine node = .ok code) : code.Encodable := by
  cases node with
  | none =>
    obtain rfl := Except.ok.inj h
    decide
  | some node => exact (cases_encodable hoffsets).exprAt node h

theorem encodable_guardAt (hoffsets : ∀ offset ∈ routine.offsets, Word.Fits32 offset) {exit : Label}
    {cond : Option Node} (h : guardAt routine exit cond = .ok code) : code.Encodable := by
  cases cond with
  | none =>
    obtain rfl := Except.ok.inj h
    decide
  | some cond =>
    obtain ⟨test, htest, hline⟩ := bind_eq_ok_iff.1 h
    obtain rfl := Except.ok.inj hline
    exact ((cases_encodable hoffsets).exprAt cond htest).append (encodable_unlessTrue exit)

theorem cases_encodable_stmt (hoffsets : ∀ offset ∈ routine.offsets, Word.Fits32 offset) :
    StmtCases routine (fun _ _ code _ => code.Encodable) (fun _ _ code _ => code.Encodable)
      (fun _ _ code _ => code.Encodable) where
  exprStmt _ _ node _ hcode := (cases_encodable hoffsets).exprAt node hcode
  ret _ _ value _ hcode := by
    apply ((cases_encodable hoffsets).exprAt value hcode).append
    unfold leave
    split <;> simp [Code.Encodable, Line.held?, Instr.held?]
  block _ _ _ _ _ hcode := hcode
  ifElse _ _ cond _ _ _ _ _ _ _ htest hfirst hsecond := by
    have htest := (cases_encodable hoffsets).exprAt cond htest
    apply Code.Encodable.append (Code.Encodable.append (Code.Encodable.append
      (Code.Encodable.append (htest.append (encodable_unlessTrue _)) hfirst) _) hsecond)
    all_goals simp [Code.Encodable, Line.held?, Instr.held?]
  loop _ _ _ _ _ _ _ _ _ _ _ hstart htest hinside hnext := by
    apply Code.Encodable.append (Code.Encodable.append (Code.Encodable.append
      (Code.Encodable.append ((encodable_exprSomeAt hoffsets hstart).append _)
        (encodable_guardAt hoffsets htest)) hinside) (encodable_exprSomeAt hoffsets hnext))
    all_goals simp [Code.Encodable, Line.held?, Instr.held?]
  nil _ := by decide
  cons _ _ _ _ _ _ _ hcode hmore := hcode.append hmore
  missing _ := by decide
  present _ _ _ _ hcode := hcode

theorem encodable_spills {offsets : List Int} (hoffsets : ∀ offset ∈ offsets, Word.Fits32 offset) :
    ∀ {params : List (Nat × Ty)} {registers : List Reg} {code : Code},
      spills offsets params registers = .ok code → code.Encodable
  | [], _, code, h => by
    obtain rfl := Except.ok.inj h
    decide
  | (index, ty) :: params, registers, code, h => by
    obtain ⟨offset, hoffset, h⟩ := bind_eq_ok_iff.1 h
    have hfits := hoffsets offset (List.mem_of_getElem? (entry_eq_ok_iff.1 hoffset))
    cases registers with
    | nil => exact nomatch h
    | cons src registers =>
      obtain ⟨more, hmore, h⟩ := bind_eq_ok_iff.1 h
      obtain rfl := Except.ok.inj h
      have hfirst : Code.Encodable [spill offset ty src] := by
        unfold spill
        split <;> simpa [Code.Encodable, Line.held?, Instr.held?] using hfits
      exact hfirst.append (encodable_spills hoffsets hmore)

end Lower

/-! ### Functions -/

/-- What is known of the numbers in the lines of a function: every displacement fits, and so does
every other number but perhaps the size of the frame.  The size fits if the locals leave room for
rounding up below the limit, and else it is one too large. -/
structure Function.Encodes (f : Function) (frame : Frame) (lines : Code) : Prop where
  starts : Lower.prologue f.name frame.size <+: lines
  offsets : ∀ offset ∈ frame.offsets, Word.Fits32 offset
  others : ∀ line ∈ lines, line ≠ .instr (.subConst .rsp frame.size) →
    ∀ n ∈ line.held?, Word.Fits32 n
  size : Word.Fits32 frame.size ↔ totalSize f.locals ≤ maxObjectSize - 15
  excess : ¬ Word.Fits32 frame.size → frame.size = maxObjectSize + 1

section

variable {f : Function} {frame : Frame}

/-- Offsets lie between the total and the base. -/
theorem Function.fits32_offsets (hsizes : ∀ v ∈ f.locals, 0 ≤ v.ty.size)
    (hroom : totalSize f.locals ≤ maxObjectSize) (h : f.frame = .ok frame) :
    ∀ offset ∈ frame.offsets, Word.Fits32 offset := by
  intro offset hoffset
  rw [(Function.frame_eq_ok h).1] at hoffset
  obtain ⟨i, hi, rfl⟩ := List.mem_map.1 hoffset
  have hedge := Frame.antitone_edge hsizes
  have hlow : Frame.edge f.locals f.locals.length ≤ Frame.edge f.locals (i + 1) :=
    hedge (List.mem_range.1 hi)
  have hhigh : Frame.edge f.locals (i + 1) ≤ Frame.edge f.locals 0 := hedge (Nat.zero_le _)
  rw [Frame.edge_length] at hlow
  rw [Frame.edge_zero] at hhigh
  simp only [Word.Fits32, maxObjectSize] at hroom ⊢
  omega

/-- The size is a multiple of 16, and the greatest multiple that fits is 15 below the limit. -/
theorem Function.fits32_size (hsizes : ∀ v ∈ f.locals, 0 ≤ v.ty.size)
    (hroom : totalSize f.locals ≤ maxObjectSize) (h : f.frame = .ok frame) :
    (Word.Fits32 frame.size ↔ totalSize f.locals ≤ maxObjectSize - 15)
      ∧ (¬ Word.Fits32 frame.size → frame.size = maxObjectSize + 1) := by
  have hnonneg := totalSize_nonneg hsizes
  obtain ⟨⟨hdvd, hle⟩, hleast⟩ := (Function.laysOut_of_frame hsizes h).size_least
  -- Both bounds are multiples of 16, so the least multiple is not above the one that has room.
  have hlarge : frame.size ≤ maxObjectSize + 1 := hleast ⟨by decide, by omega⟩
  have hsmall : totalSize f.locals ≤ maxObjectSize - 15 → frame.size ≤ maxObjectSize - 15 :=
    fun hle => hleast ⟨by decide, hle⟩
  simp only [Word.Fits32, maxObjectSize] at hroom hlarge hsmall ⊢
  omega

theorem IsRoutine.encodes {globals : List Variable} {lines : Code}
    (hsizes : ∀ v ∈ f.locals, 0 ≤ v.ty.size) (hroom : totalSize f.locals ≤ maxObjectSize)
    (hframe : f.frame = .ok frame) (h : IsRoutine globals f frame lines) :
    f.Encodes frame lines := by
  obtain ⟨labels, last, arguments, body, harguments, hbody, rfl⟩ := h.exists_parts
  have hoffsets := Function.fits32_offsets hsizes hroom hframe
  obtain ⟨hsize, hexcess⟩ := Function.fits32_size hsizes hroom hframe
  refine ⟨?_, hoffsets, ?_, hsize, hexcess⟩
  · simp only [List.append_assoc]
    exact List.prefix_append _ _
  · have hcode : Code.Encodable body :=
      (Lower.cases_encodable_stmt hoffsets).stmtFrom f.body hbody
    have hinside : Code.Encodable (arguments ++ body) :=
      (Lower.encodable_spills hoffsets harguments).append hcode
    intro line hline hne
    rw [List.append_assoc (Lower.prologue _ _)] at hline
    rcases List.mem_append.1 hline with hline | hline
    · rcases List.mem_append.1 hline with hline | hline
      · -- Only the last line of the prologue holds a number: the size of the frame.
        simp only [Lower.prologue, List.mem_cons, List.not_mem_nil, or_false] at hline
        rcases hline with rfl | rfl | rfl | rfl | rfl | rfl
        exacts [nofun, nofun, nofun, nofun, nofun, absurd rfl hne]
      · exact hinside line hline
    · simp only [Lower.epilogue, List.mem_cons, List.not_mem_nil, or_false] at hline
      rcases hline with rfl | rfl | rfl | rfl <;> nofun

end

/-! ### Programs -/

/-- The locals of a function that was read need no more than the limit. -/
theorem ParseState.Units.totalSize_le {s t : ParseState} (h : s.Units t)
    (hs : ∀ f ∈ s.functions, totalSize f.locals ≤ maxObjectSize) :
    ∀ f ∈ t.functions, totalSize f.locals ≤ maxObjectSize := by
  apply h.forall_functions _ hs
  intro u v _ _ hread f hf
  obtain ⟨-, -, g, hg, hroom⟩ := hread.exists_functions
  obtain rfl := List.singleton_inj.1 (List.append_cancel_left (hf.symm.trans hg))
  exact Parse.sum_le_of_frameBytes hroom

/-- **The numbers in the code of an accepted source fit their fields**, with one exception: the size
of a frame whose locals need more than `maxObjectSize - 15` bytes. -/
theorem Source.frames_encode {source : Source} {program : Program}
    (h : source.program = .ok program) :
    ∃ listing routines, source.compile = .ok listing ∧ listing.code = routines.flatten
      ∧ List.Forall₂ (fun f lines => ∃ frame, f.frame = .ok frame ∧ f.Encodes frame lines)
        program.functions routines := by
  have hsound := (ends_program source).of_eq_ok h
  obtain ⟨listing, hlisting⟩ := hsound.exists_lower
  obtain ⟨routines, hcode, hroutines⟩ := exists_routines_of_lower hlisting
  obtain ⟨tokens, -, hparse⟩ := bind_eq_ok_iff.1 h
  obtain ⟨t, hunits, -, rfl⟩ := parse_eq_ok_iff.1 hparse
  have hroom := hunits.totalSize_le nofun
  have hcompile : source.compile = .ok listing := bind_eq_ok_iff.2 ⟨_, h, by rw [hlisting]; rfl⟩
  refine ⟨listing, routines, hcompile, hcode, List.forall₂_iff_zip.2 ⟨hroutines.length_eq, ?_⟩⟩
  intro f lines hmem
  have hf := (List.of_mem_zip hmem).1
  obtain ⟨frame, hframe, hroutine⟩ := List.forall₂_zip hroutines hmem
  exact ⟨frame, hframe, hroutine.encodes (hsound.functions f hf).sizes (hroom f hf) hframe⟩

/-- Two functions: one with locals that just leave room for rounding up, one with a parameter. -/
def Source.roomy : Source :=
  ⟨"roomy", "func f() int \x7b var a [2147483632]char; return 0; \x7d "
    ++ "func g(c char) int \x7b return c; \x7d"⟩

theorem Source.frames_encode_roomy :
    ∃ program listing routines, Source.roomy.program = .ok program
      ∧ Source.roomy.compile = .ok listing
      ∧ listing.frames = [⟨[-2147483632], 2147483632⟩, ⟨[-1], 16⟩]
      ∧ listing.code = routines.flatten
      ∧ List.Forall₂ (fun f lines => ∃ frame, f.frame = .ok frame ∧ f.Encodes frame lines)
        program.functions routines := by
  have hframes : (Source.roomy.compile.toOption.map fun listing => listing.frames)
      = some [⟨[-2147483632], 2147483632⟩, ⟨[-1], 16⟩] := by decide +kernel
  obtain ⟨found, hfound, hframes⟩ := Option.map_eq_some_iff.1 hframes
  obtain ⟨program, hprogram, -⟩ := bind_eq_ok_iff.1 (eq_ok_of_toOption_eq_some hfound)
  obtain ⟨listing, routines, hlisting, hcode, hencodes⟩ := Source.frames_encode hprogram
  obtain rfl := Except.ok.inj ((eq_ok_of_toOption_eq_some hfound).symm.trans hlisting)
  exact ⟨program, found, routines, hprogram, hlisting, hframes, hcode, hencodes⟩

/-- One array of the greatest size that an array may have. -/
def Source.brimming : Source :=
  ⟨"brimming", "func f() int \x7b var a [2147483647]char; return 0; \x7d"⟩

/-- The source is accepted, and the size of the frame is one more than a signed 32-bit number. -/
theorem Source.not_fits32_brimming :
    ∃ listing, Source.brimming.compile = .ok listing
      ∧ listing.frames = [⟨[-2147483647], 2147483648⟩]
      ∧ .instr (.subConst .rsp 2147483648) ∈ listing.code
      ∧ ¬ Word.Fits32 2147483648 := by
  have hlisting : (Source.brimming.compile.toOption.map fun listing => (listing.frames,
      decide (.instr (.subConst .rsp 2147483648) ∈ listing.code)))
      = some ([⟨[-2147483647], 2147483648⟩], true) := by decide +kernel
  obtain ⟨listing, hok, hfound⟩ := Option.map_eq_some_iff.1 hlisting
  obtain ⟨hframes, hmem⟩ := Prod.mk.inj hfound
  exact ⟨listing, eq_ok_of_toOption_eq_some hok, hframes, of_decide_eq_true hmem, by decide⟩

end PocketCompiler
