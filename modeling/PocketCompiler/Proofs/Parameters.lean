import PocketCompiler.Proofs.Compile
import PocketCompiler.Proofs.FrameLayout
import PocketCompiler.Proofs.Grammar.Declared
import PocketCompiler.Proofs.Machine.Flat

/-!
# Arguments arrive in their parameters

The first lines of a function save `rbp`, set up the frame and put the arguments into it.  Widths
come from the types of the parameters, places from the layout of all locals, and values from the
registers; `Function.Received` says that the three fit together.  Behind these lines the code of
every parameter gives what was passed for it, and no byte has changed but those of the parameters
and of the saved `rbp`.  `Source.arguments_arrive` says so for every function of an accepted source.
-/

namespace PocketCompiler

/-! ### Running the first lines -/

/-- The values that arguments leave in a frame with these offsets. -/
def Lower.kept (offsets : List Int) (regs : Reg → Int64) (params : List (Nat × Ty))
    (registers : List Reg) : List Kept :=
  List.zipWith (fun param src => ⟨offsets[param.1]?.getD 0, param.2, regs src⟩) params registers

namespace World

variable (world : World)

/-- One line puts one argument into the frame. -/
theorem flatLine_spill (offset : Int) (ty : Ty) (src : Reg) (m : Machine) :
    world.flatLine (Lower.spill offset ty src) m = some { m with
      memory := m.memory.put (some ty) (m.regs .rbp + Int64.ofInt offset) (m.regs src) } := by
  unfold Lower.spill Memory.put
  by_cases hsize : ty.size = 1
  · simp only [if_pos hsize]
    rfl
  · simp only [if_neg hsize]
    rfl

theorem flatRun_spills {offsets : List Int} : ∀ {params : List (Nat × Ty)} {registers : List Reg}
    {code : Code}, Lower.spills offsets params registers = .ok code → ∀ m : Machine,
      world.flatRun code m = some { m with
        memory := m.memory.putAll (m.regs .rbp) (Lower.kept offsets m.regs params registers) }
  | [], _, code, h, m => by
    obtain rfl := Except.ok.inj h
    rfl
  | (index, ty) :: params, registers, code, h, m => by
    obtain ⟨offset, hoffset, h⟩ := bind_eq_ok_iff.1 h
    cases registers with
    | nil => exact nomatch h
    | cons src registers =>
      obtain ⟨more, hmore, h⟩ := bind_eq_ok_iff.1 h
      obtain rfl := Except.ok.inj h
      have hkept : Lower.kept offsets m.regs ((index, ty) :: params) (src :: registers)
          = ⟨offset, ty, m.regs src⟩ :: Lower.kept offsets m.regs params registers := by
        rw [Lower.kept, List.zipWith_cons_cons, entry_eq_ok_iff.1 hoffset]
        rfl
      show (world.flatLine (Lower.spill offset ty src) m).bind (world.flatRun more) = _
      rw [flatLine_spill, Option.bind_some, flatRun_spills hmore, hkept]
      rfl

/-- The frame is set up below the word that saves `rbp`. -/
theorem exists_flatRun_prologue (name : String) (size : Int) (m : Machine) :
    ∃ n, world.flatRun (Lower.prologue name size) m = some n ∧ n.regs .rbp = m.regs .rsp - 8
      ∧ n.regs .rsp = n.regs .rbp - Int64.ofInt size
      ∧ (∀ src ∈ Reg.forArguments, n.regs src = m.regs src)
      ∧ n.memory = m.memory.setWord (n.regs .rbp) (m.regs .rbp) := by
  have hframe : ∀ src ∈ Reg.forArguments, src ≠ .rbp ∧ src ≠ .rsp := by decide
  refine ⟨_, rfl, rfl, rfl, ?_, rfl⟩
  intro src hsrc
  obtain ⟨hrbp, hrsp⟩ := hframe src hsrc
  simp only [Machine.set, Machine.pushFlat, if_neg hrbp, if_neg hrsp]

/-- The code of a local reads what is in the frame. -/
theorem exists_flatRun_var (offset : Int) (ty : Ty) (m : Machine) :
    ∃ n, world.flatRun ([.instr (.frameAddress .rax offset)] ++ Lower.load (some ty)) m = some n
      ∧ n.regs .rax = m.memory.fetch (some ty) (m.regs .rbp + Int64.ofInt offset) := by
  unfold Lower.load Memory.fetch
  by_cases harray : ty.isArray = true
  · simp only [if_pos harray]
    exact ⟨_, rfl, rfl⟩
  · simp only [if_neg harray]
    by_cases hsize : ty.size = 1
    · simp only [if_pos hsize]
      exact ⟨_, rfl, rfl⟩
    · simp only [if_neg hsize]
      exact ⟨_, rfl, rfl⟩

end World

/-! ### Parameters -/

/-- A type that is written is a scalar once an array among its values has become a pointer. -/
theorem TypeText.isScalar_decay {text : List Token} {ty : Ty} (h : TypeText text ty) :
    ty.decay.isScalar = true := by
  cases h with
  | plain h => cases h <;> rfl
  | array _ _ _ => rfl

theorem ParametersText.isScalar_decay {text : List Token} {declared : List (String × Ty)}
    (h : ParametersText text declared) : ∀ d ∈ declared, d.2.decay.isScalar = true := by
  induction h with
  | last hty _ => exact List.forall_mem_singleton.2 hty.isScalar_decay
  | more hty _ _ ih => exact List.forall_mem_cons.2 ⟨hty.isScalar_decay, ih⟩

theorem HeaderText.isScalar_decay {text : List Token} {name : String}
    {declared : List (String × Ty)} (h : HeaderText text name declared) :
    ∀ d ∈ declared, d.2.decay.isScalar = true := by
  obtain ⟨-, -, h⟩ := h
  cases h with
  | none _ => exact List.forall_mem_nil _
  | some h => exact h.isScalar_decay

/-- The values that the arguments of a function leave in its frame. -/
def Function.kept (f : Function) (frame : Frame) (regs : Reg → Int64) : List Kept :=
  Lower.kept frame.offsets regs (f.params.zip f.ty.paramTypes) Reg.forArguments

section

variable {f : Function} {frame : Frame} {tokens : List Token} {declared : List (String × Ty)}

/-- What is put into the frame for the parameter at an index: at its own offset, with its own type,
the value in its own register. -/
theorem Function.Headed.getElem?_kept (h : f.Headed tokens declared) (hframe : f.frame = .ok frame)
    (regs : Reg → Int64) {i : Nat} (hi : i < declared.length) :
    ∃ v src offset, f.locals[i]? = some v ∧ v.ty.isScalar = true ∧ Reg.forArguments[i]? = some src
      ∧ frame.offsets[i]? = some offset
      ∧ (f.kept frame regs)[i]? = some ⟨offset, v.ty, regs src⟩ := by
  have hregister : i < Reg.forArguments.length := Nat.lt_of_lt_of_le hi h.arity
  -- Parameters are the first locals, so one index finds the local, its offset and its register.
  have hlocal : f.locals[i]? = some (Variable.ofParameter declared[i]) := by
    obtain ⟨others, hlocals⟩ := h.locals
    rw [← hlocals, List.getElem?_append_left (by rw [List.length_map]; exact hi), List.getElem?_map,
      List.getElem?_eq_getElem hi]
    rfl
  have hoffset := Function.getElem?_offsets hframe (List.getElem?_eq_some_iff.1 hlocal).1
  obtain ⟨-, text, -, -, hheader⟩ := h.header
  refine ⟨_, _, _, hlocal, hheader.isScalar_decay _ (List.getElem_mem hi),
    List.getElem?_eq_getElem hregister, hoffset, ?_⟩
  rw [Function.kept, Lower.kept, List.getElem?_zipWith_eq_some]
  refine ⟨(i, declared[i].2.decay), _, ?_, List.getElem?_eq_getElem hregister, ?_⟩
  · rw [List.getElem?_zip_eq_some, h.params, h.types, List.getElem?_range hi, List.getElem?_map,
      List.getElem?_eq_getElem hi]
    exact ⟨rfl, rfl⟩
  · rw [hoffset]
    rfl

theorem Function.Headed.length_kept (h : f.Headed tokens declared) (regs : Reg → Int64) :
    (f.kept frame regs).length = declared.length := by
  have harity : declared.length ≤ Reg.forArguments.length := h.arity
  rw [Function.kept, Lower.kept, List.length_zipWith, List.length_zip, h.params, h.types,
    List.length_range, List.length_map]
  omega

end

/-- The machine `n` has come from `m` through the first lines of a function to its body.  For all
parameters at once, the code of a parameter gives what was passed for it, a byte with its sign.
Only the word that saves `rbp` and the bytes of parameters may have changed. -/
structure Function.Received (f : Function) (globals : List Variable) (frame : Frame) (world : World)
    (m n : Machine) : Prop where
  base : n.regs .rbp = m.regs .rsp - 8
  top : n.regs .rsp = n.regs .rbp - Int64.ofInt frame.size
  loads : ∀ i < f.params.length, ∃ v src, f.locals[i]? = some v ∧ Reg.forArguments[i]? = some src
    ∧ ∀ (loc : Nat) (s : LowerState), ∃ code o,
      (Lower.expr (Lower.routineOf globals f frame) (.var ⟨loc, some v.ty⟩ (.localVar i))).run s
          = .ok (code, s)
        ∧ world.flatRun code n = some o
        ∧ o.regs .rax = if v.ty = .char then signedByte (lowByte (m.regs src)) else m.regs src
  unchanged : ∀ place, n.memory place ≠ m.memory place →
    (∃ k < 8, place = n.regs .rbp + Int64.ofNat k)
      ∨ ∃ i < f.params.length, ∃ d ∈ frame.slot f.locals i, place = n.regs .rbp + Int64.ofInt d

/-- The lines start with those that set up the frame and put arguments into it, and these lines take
every machine to one that has received its arguments. -/
def Function.Receives (f : Function) (globals : List Variable) (frame : Frame) (lines : Code) :
    Prop :=
  ∃ arguments body, Lower.argumentsInto f frame = .ok arguments
    ∧ lines = Lower.prologue f.name frame.size ++ arguments ++ body
    ∧ ∀ (world : World) (m : Machine), ∃ n,
      world.flatRun (Lower.prologue f.name frame.size ++ arguments) m = some n
        ∧ f.Received globals frame world m n

section

variable {f : Function} {globals : List Variable} {frame : Frame} {tokens : List Token}
  {declared : List (String × Ty)}

/-- What is put into the frame lies in the slots of the parameters. -/
theorem Function.Headed.of_getElem?_kept (h : f.Headed tokens declared)
    (hframe : f.frame = .ok frame) {regs : Reg → Int64} {i : Nat} {kept : Kept}
    (hkept : (f.kept frame regs)[i]? = some kept) :
    i < f.params.length ∧ kept.ty.isScalar = true ∧ kept.span ⊆ frame.slot f.locals i := by
  have hi : i < declared.length := by
    rw [← h.length_kept regs]
    exact (List.getElem?_eq_some_iff.1 hkept).1
  obtain ⟨v, src, offset, hv, hty, -, hoffset, hfound⟩ := h.getElem?_kept hframe regs hi
  obtain rfl := Option.some.inj (hkept.symm.trans hfound)
  refine ⟨?_, hty, fun d hd => ⟨offset, v, hoffset, hv, hd⟩⟩
  rw [h.params, List.length_range]
  exact hi

/-- Slots lie in the frame, whose size is a word. -/
theorem Function.slot_subset_fits (hsizes : ∀ v ∈ f.locals, 0 ≤ v.ty.size)
    (hframe : f.frame = .ok frame) (i : Nat) : frame.slot f.locals i ⊆ {d | Word.Fits d} := by
  intro d hd
  obtain ⟨hlow, hhigh⟩ := (Function.laysOut_of_frame hsizes hframe).within i hd
  obtain ⟨last, -, hsize⟩ := bind_eq_ok_iff.1 (Function.frame_eq_ok hframe).2
  obtain ⟨steps, -, hsize⟩ := bind_eq_ok_iff.1 hsize
  obtain ⟨whole, -, hsize⟩ := bind_eq_ok_iff.1 hsize
  have hfits := (Word.checked_eq_ok_iff.1 hsize).1.2
  have heq := (Word.checked_eq_ok_iff.1 hsize).2
  simp only [Word.greatest] at hfits
  show Word.least ≤ d ∧ d ≤ Word.greatest
  simp only [Word.least, Word.greatest]
  omega

/-- All parameters are read back as they were put into the frame. -/
theorem Function.Headed.fetch_kept (h : f.Headed tokens declared)
    (hsizes : ∀ v ∈ f.locals, 0 ≤ v.ty.size) (hframe : f.frame = .ok frame) {regs : Reg → Int64}
    (memory : Memory) (base : Int64) {kept : Kept} (hkept : kept ∈ f.kept frame regs) :
    (memory.putAll base (f.kept frame regs)).fetch (some kept.ty) (base + Int64.ofInt kept.offset)
      = kept.ty.retained kept.value := by
  apply Memory.fetch_putAll _ _ _ hkept
  · intro kept hkept
    obtain ⟨i, hi⟩ := List.mem_iff_getElem?.1 hkept
    exact (h.of_getElem?_kept hframe hi).2.1
  · intro kept hkept
    obtain ⟨i, hi⟩ := List.mem_iff_getElem?.1 hkept
    exact (h.of_getElem?_kept hframe hi).2.2.trans (Function.slot_subset_fits hsizes hframe i)
  · -- Distinct parameters are distinct locals, and these are apart in the frame.
    rw [List.pairwise_iff_getElem]
    intro i j hi hj hij
    apply ((Function.laysOut_of_frame hsizes hframe).disjoint i j hij.ne).mono
    · exact (h.of_getElem?_kept hframe (List.getElem?_eq_getElem hi)).2.2
    · exact (h.of_getElem?_kept hframe (List.getElem?_eq_getElem hj)).2.2

/-- Arguments that are put into the frame change no byte outside the slots of the parameters. -/
theorem Function.Headed.putAll_kept (h : f.Headed tokens declared) (hframe : f.frame = .ok frame)
    {regs : Reg → Int64} (memory : Memory) {base place : Int64}
    (hplace : ∀ i < f.params.length, ∀ d ∈ frame.slot f.locals i, place ≠ base + Int64.ofInt d) :
    memory.putAll base (f.kept frame regs) place = memory place := by
  apply Memory.putAll_of_notMem
  · intro kept hkept
    obtain ⟨i, hi⟩ := List.mem_iff_getElem?.1 hkept
    exact (h.of_getElem?_kept hframe hi).2.1
  · intro kept hkept d hd
    obtain ⟨i, hi⟩ := List.mem_iff_getElem?.1 hkept
    obtain ⟨hparam, -, hspan⟩ := h.of_getElem?_kept hframe hi
    exact hplace i hparam d (hspan hd)

/-- **The first lines of a function put every argument into its parameter.** -/
theorem Function.Headed.received (h : f.Headed tokens declared)
    (hsizes : ∀ v ∈ f.locals, 0 ≤ v.ty.size) (hframe : f.frame = .ok frame) {arguments : Code}
    (harguments : Lower.argumentsInto f frame = .ok arguments) (world : World) (m : Machine) :
    ∃ n, world.flatRun (Lower.prologue f.name frame.size ++ arguments) m = some n
      ∧ f.Received globals frame world m n := by
  -- Behind the prologue the registers still hold the arguments, which are then put into the frame.
  obtain ⟨o, hprologue, hbase, htop, hregs, hmemory⟩ :=
    world.exists_flatRun_prologue f.name frame.size m
  have hrun : world.flatRun (Lower.prologue f.name frame.size ++ arguments) m
      = some { o with memory := o.memory.putAll (o.regs .rbp) (f.kept frame o.regs) } := by
    rw [World.flatRun_append, hprologue]
    exact world.flatRun_spills harguments o
  refine ⟨_, hrun, hbase, htop, ?_, ?_⟩
  · intro i hi
    rw [h.params, List.length_range] at hi
    obtain ⟨v, src, offset, hv, -, hsrc, hoffset, hkept⟩ := h.getElem?_kept hframe o.regs hi
    refine ⟨v, src, hv, hsrc, fun loc s => ?_⟩
    obtain ⟨p, hcode, hrax⟩ := world.exists_flatRun_var offset v.ty
      { o with memory := o.memory.putAll (o.regs .rbp) (f.kept frame o.regs) }
    refine ⟨_, p, Lower.run_expr_eq_ok_iff.2 ⟨?_, rfl⟩, hcode, ?_⟩
    · have hplace : Lower.variableAt (Lower.routineOf globals f frame) (.localVar i)
          = .ok [.instr (.frameAddress .rax offset)] :=
        bind_eq_ok_iff.2 ⟨offset, entry_eq_ok_iff.2 hoffset, rfl⟩
      exact bind_eq_ok_iff.2 ⟨_, hplace, rfl⟩
    · rw [hrax, ← hregs src (List.mem_of_getElem? hsrc)]
      exact h.fetch_kept hsizes hframe o.memory (o.regs .rbp) (List.mem_of_getElem? hkept)
  · intro place hne
    by_contra hno
    rw [not_or] at hno
    -- Neither the arguments nor the saved word touch this byte.
    have hsaved : m.memory.setWord (o.regs .rbp) (m.regs .rbp) place = m.memory place :=
      Memory.setWord_of_forall_ne fun k hk heq => hno.1 ⟨k, hk, heq⟩
    apply hne
    rw [← hsaved, ← hmemory]
    apply h.putAll_kept hframe
    exact fun i hi d hd heq => hno.2 ⟨i, hi, d, hd, heq⟩

end

/-! ### Programs -/

/-- Every function that was read has the parameters of its head. -/
theorem ParseState.Units.exists_headed {s t : ParseState} (h : s.Units t)
    (hs : s.functions = []) : ∀ f ∈ t.functions, ∃ declared, f.Headed s.rest declared := by
  apply h.forall_functions (p := fun f => ∃ declared, f.Headed s.rest declared)
  · intro u v hrest hfunc hread f hf
    exact hread.exists_headed hrest hfunc hf
  · rw [hs]
    exact List.forall_mem_nil _

/-- **Arguments arrive in their parameters.**  Every function of an accepted source has the
parameters that its head declares, at most six of them, as its first locals and in the same order,
with arrays turned into pointers.  Its code starts with lines that put the arguments into these
locals, for every machine that comes to them. -/
theorem Source.arguments_arrive {source : Source} {program : Program}
    (h : source.program = .ok program) :
    ∃ tokens listing routines, source.tokenize = .ok tokens ∧ source.compile = .ok listing
      ∧ listing.code = routines.flatten
      ∧ List.Forall₂ (fun f lines => ∃ declared frame, f.Headed tokens declared
        ∧ f.frame = .ok frame ∧ f.Receives program.globals frame lines)
        program.functions routines := by
  have hsound := (ends_program source).of_eq_ok h
  obtain ⟨listing, hlisting⟩ := hsound.exists_lower
  obtain ⟨routines, hcode, hroutines⟩ := exists_routines_of_lower hlisting
  obtain ⟨tokens, htokens, hparse⟩ := bind_eq_ok_iff.1 h
  obtain ⟨t, hunits, -, rfl⟩ := parse_eq_ok_iff.1 hparse
  have hcompile : source.compile = .ok listing := bind_eq_ok_iff.2 ⟨_, h, by rw [hlisting]; rfl⟩
  refine ⟨tokens, listing, routines, htokens, hcompile, hcode,
    List.forall₂_iff_zip.2 ⟨hroutines.length_eq, ?_⟩⟩
  intro f lines hmem
  have hf := (List.of_mem_zip hmem).1
  obtain ⟨declared, hheaded⟩ := hunits.exists_headed rfl f hf
  obtain ⟨frame, hframe, hroutine⟩ := List.forall₂_zip hroutines hmem
  obtain ⟨labels, last, arguments, body, harguments, -, rfl⟩ := hroutine.exists_parts
  refine ⟨declared, frame, hheaded, hframe, arguments, body ++ Lower.epilogue f.name, harguments,
    by simp only [List.append_assoc], ?_⟩
  exact hheaded.received (hsound.functions f hf).sizes hframe harguments

/-- A function with bytes in front of and behind words, and an array among its parameters. -/
def Source.passing : Source :=
  ⟨"passing", "func f(c char, a int, p [3]int, d char) int \x7b var b int; return a; \x7d"⟩

theorem Source.arguments_arrive_passing :
    ∃ program tokens listing routines, Source.passing.program = .ok program
      ∧ (program.functions.map fun f => (f.params, f.ty.paramTypes, f.locals.map (·.ty)))
        = [([0, 1, 2, 3], [.char, .int, .ptr .int, .char], [.char, .int, .ptr .int, .char, .int])]
      ∧ Source.passing.tokenize = .ok tokens ∧ Source.passing.compile = .ok listing
      ∧ listing.code = routines.flatten
      ∧ List.Forall₂ (fun f lines => ∃ declared frame, f.Headed tokens declared
        ∧ f.frame = .ok frame ∧ f.Receives program.globals frame lines)
        program.functions routines := by
  have htypes : (Source.passing.program.toOption.map fun program =>
      program.functions.map fun f => (f.params, f.ty.paramTypes, f.locals.map (·.ty)))
      = some [([0, 1, 2, 3], [.char, .int, .ptr .int, .char],
        [.char, .int, .ptr .int, .char, .int])] := by decide +kernel
  obtain ⟨program, hfound, htypes⟩ := Option.map_eq_some_iff.1 htypes
  have hprogram := eq_ok_of_toOption_eq_some hfound
  obtain ⟨tokens, listing, routines, hrest⟩ := Source.arguments_arrive hprogram
  exact ⟨program, tokens, listing, routines, hprogram, htypes, hrest⟩

end PocketCompiler
