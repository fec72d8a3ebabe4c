import PocketCompiler.Proofs.Compile
import PocketCompiler.Proofs.Lower.Balance
import PocketCompiler.Proofs.Lower.Labels

/-!
# Compiled functions keep the stack

`Function.KeepsStack` collects what holds of the lines of a function: scanned as text, they keep the
discipline of `Code.Disciplined`; executed, the stack pointer is at each line where the lines in
front put it, and a function that is called with an aligned stack calls others with an aligned stack.
`Program.functions_keep_stack` says so of every function of every program that has assembly, and that
no program makes lowering lose count of the stack.
-/

namespace PocketCompiler

/-! ### Frames -/

/-- What was rounded up to a multiple is one. -/
theorem Word.dvd_of_roundUp {n step m : Int} (h : Word.roundUp n step = .ok m) : step ∣ m := by
  obtain ⟨reached, -, h⟩ := bind_eq_ok_iff.1 h
  obtain ⟨last, -, h⟩ := bind_eq_ok_iff.1 h
  obtain ⟨steps, -, h⟩ := bind_eq_ok_iff.1 h
  obtain ⟨-, rfl⟩ := Word.checked_eq_ok_iff.1 h
  exact Int.dvd_mul_left steps step

theorem Function.dvd_frame_size {f : Function} {frame : Frame} (h : f.frame = .ok frame) :
    16 ∣ frame.size := by
  obtain ⟨⟨offsets, total⟩, -, h⟩ := bind_eq_ok_iff.1 h
  obtain ⟨size, hsize, h⟩ := bind_eq_ok_iff.1 h
  obtain rfl := Except.ok.inj h
  exact Word.dvd_of_roundUp hsize

/-! ### The lines between prologue and epilogue -/

/-- The lines of a function behind its last label. -/
def Lower.takeDown : Code := [.instr (.move .rsp .rbp), .instr (.pop .rbp), .instr .ret]

/-- The lines of a function from behind its prologue up to its last label, and what jumps and labels
there are. -/
structure Lower.Section (name : String) (size : Int) (lines inside : Code) : Prop where
  lines_eq : lines = prologue name size ++ (inside ++ takeDown)
  scan : inside.scan 0 = some 0
  targets : inside.TargetsIn name inside.labels
  label : .returnOf name ∈ inside.labels
  symbol : .symbol name ∉ inside.labels

namespace Lower

theorem exists_section {globals : List Variable} {f : Function} {frame : Frame} {lines : Code}
    (h : IsRoutine globals f frame lines) :
    ∃ inside, lines = prologue f.name frame.size ++ (inside ++ epilogue f.name)
      ∧ Section f.name frame.size lines (inside ++ [.label (.returnOf f.name)]) := by
  obtain ⟨labels, last, arguments, body, harguments, hbody, rfl⟩ := h.exists_parts
  have hstraight : arguments.Straight := straight_spills harguments
  have hplaceable := placeable_stmtFrom hbody
  -- The arguments are spilled without jumps, so only the body brings labels of its own.
  have hlabels : Code.labels (arguments ++ body ++ [.label (.returnOf f.name)])
      = body.labels ++ [.returnOf f.name] := by
    have hlast : Code.labels [.label (.returnOf f.name)] = [.returnOf f.name] := rfl
    rw [Code.labels_append, Code.labels_append, hstraight.labels, hlast, List.nil_append]
  refine ⟨arguments ++ body, by simp only [List.append_assoc], ?_, ?_, ?_, ?_, ?_⟩
  · simp only [List.append_assoc, List.singleton_append]
    rfl
  · exact Code.scan_seq (Code.scan_seq (scan_spills harguments) (scan_stmtFrom hbody)) rfl
  · rw [hlabels]
    refine Code.TargetsIn.append (hstraight.targetsIn.append ?_)
      (Code.targetsIn_cons trivial Code.targetsIn_nil)
    exact hplaceable.targets.mono (List.subset_append_left _ _)
  · rw [hlabels]
    exact List.mem_append_right _ List.mem_cons_self
  · rw [hlabels]
    intro hmem
    rcases List.mem_append.1 hmem with hmem | hmem
    · obtain ⟨number, hnumber, -⟩ := hplaceable.numbered.range _ hmem
      exact nomatch hnumber
    · exact nomatch List.mem_singleton.1 hmem

end Lower

/-- An entry of the middle of a list, by its place in the whole. -/
theorem getElem?_middle {α : Type} {first middle last : List α} {i : Nat} {a : α}
    (h : (first ++ (middle ++ last))[i]? = some a) (hfirst : a ∉ first) (hlast : a ∉ last) :
    ∃ k, i = first.length + k ∧ middle[k]? = some a := by
  rcases Nat.lt_or_ge i first.length with hlt | hge
  · rw [List.getElem?_append_left hlt] at h
    exact absurd (List.mem_of_getElem? h) hfirst
  · obtain ⟨k, rfl⟩ := Nat.exists_eq_add_of_le hge
    rw [List.getElem?_append_right hge, Nat.add_sub_cancel_left] at h
    rcases Nat.lt_or_ge k middle.length with hlt | hge
    · rw [List.getElem?_append_left hlt] at h
      exact ⟨k, rfl, h⟩
    · rw [List.getElem?_append_right hge] at h
      exact absurd (List.mem_of_getElem? h) hlast

namespace Lower.Section

variable {name : String} {size : Int} {lines inside : Code}

/-- The words that wait in front of a line of the section, and the bytes by which the stack pointer
has moved. -/
theorem exists_height (h : Section name size lines inside) {k : Nat} {line : Line}
    (hline : inside[k]? = some line) :
    ∃ height next : Nat, line.scan height = some next ∧ Code.counter (inside.take k) = height
      ∧ Code.moves (lines.take ((prologue name size).length + k))
        = some (-8 - size - 8 * (height : Int)) := by
  obtain ⟨hk, hget⟩ := List.getElem?_eq_some_iff.1 hline
  have hsplit : inside = inside.take k ++ line :: inside.drop (k + 1) := by
    rw [← hget, ← List.drop_eq_getElem_cons hk, List.take_append_drop]
  have hscan := h.scan
  rw [hsplit] at hscan
  obtain ⟨height, hbefore, hafter⟩ := Code.scan_append_eq_some hscan
  obtain ⟨next, hnext, -⟩ := Option.bind_eq_some_iff.1 hafter
  obtain ⟨hcounter, hmoves⟩ := Code.scan_spec hbefore
  -- The prologue has put the old base and the frame on the stack.
  have hprologue : (prologue name size).moves
      = some (0 + (0 + (0 + (-8 + (0 + (-size + 0)))))) := rfl
  have htake : lines.take ((prologue name size).length + k) = prologue name size ++ inside.take k := by
    rw [h.lines_eq, List.take_length_add_append, List.take_append_of_le_length (Nat.le_of_lt hk)]
  refine ⟨height, next, hnext, by omega, ?_⟩
  rw [htake, Code.moves_append hprologue hmoves, Option.some.injEq]
  omega

/-- At labels and jumps the stack pointer is where the prologue put it. -/
theorem moves_of_joint (h : Section name size lines inside) {k : Nat} {line : Line}
    (hline : inside[k]? = some line) (hjoint : line.isJoint = true) :
    Code.moves (lines.take ((prologue name size).length + k)) = some (-8 - size) := by
  obtain ⟨height, next, hscan, -, hmoves⟩ := h.exists_height hline
  obtain rfl := Line.eq_zero_of_scan hscan hjoint
  rw [hmoves, Option.some.injEq]
  omega

/-- A jump stands in the section, and its target is a label there. -/
theorem exists_of_jump (h : Section name size lines inside) {i : Nat} {target : Label}
    (hjump : lines[i]? = some (.instr (.jump target))
      ∨ lines[i]? = some (.instr (.jumpIfEqual target))) :
    ∃ k line, i = (prologue name size).length + k ∧ inside[k]? = some line ∧ line.isJoint = true
      ∧ target ∈ inside.labels := by
  rw [h.lines_eq] at hjump
  rcases hjump with hline | hline
  · obtain ⟨k, rfl, hk⟩ := getElem?_middle hline (by simp [prologue]) (by simp [takeDown])
    refine ⟨k, _, rfl, hk, rfl, ?_⟩
    rcases h.targets _ (List.mem_of_getElem? hk) with rfl | hmem
    · exact h.label
    · exact hmem
  · obtain ⟨k, rfl, hk⟩ := getElem?_middle hline (by simp [prologue]) (by simp [takeDown])
    exact ⟨k, _, rfl, hk, rfl, h.targets _ (List.mem_of_getElem? hk)⟩

/-- The labels of the section are found in the section. -/
theorem exists_of_position (h : Section name size lines inside) {j : Nat} {target : Label}
    (htarget : target ∈ inside.labels) (hposition : lines.position target = some j) :
    ∃ k, j = (prologue name size).length + k ∧ inside[k]? = some (.label target) := by
  have hline := Code.getElem?_of_position hposition
  rw [h.lines_eq] at hline
  -- The label in the prologue is another one, so the first line with this label is in the section.
  have hsymbol : target ≠ .symbol name := fun heq => h.symbol (heq ▸ htarget)
  exact getElem?_middle hline (by simp [prologue, hsymbol]) (by simp [takeDown])

/-- A jump joins places of the same height. -/
theorem joins (h : Section name size lines inside) {i : Nat} {target : Label}
    (hjump : lines[i]? = some (.instr (.jump target))
      ∨ lines[i]? = some (.instr (.jumpIfEqual target))) :
    ∃ j, lines.position target = some j ∧ Code.moves (lines.take i) = some (-8 - size)
      ∧ Code.moves (lines.take j) = some (-8 - size) := by
  obtain ⟨k, line, rfl, hk, hjoint, htarget⟩ := h.exists_of_jump hjump
  have hmem : .label target ∈ lines := by
    rw [h.lines_eq]
    exact List.mem_append_right _ (List.mem_append_left _ (Code.mem_labels_iff.1 htarget))
  obtain ⟨j, hj⟩ := Code.exists_position hmem
  obtain ⟨k', rfl, hk'⟩ := h.exists_of_position htarget hj
  exact ⟨_, hj, h.moves_of_joint hk hjoint, h.moves_of_joint hk' rfl⟩

/-- Along an execution the stack pointer is where the lines in front put it. -/
theorem moves_of_reaches (h : Section name size lines inside) {σ : Type} {D : Datapath σ} {s : σ}
    {rsp : Int} {c : Nat × σ × Int} (hreaches : D.tracked.Reaches lines (0, s, rsp) c) :
    Code.moves (lines.take c.1) = some (c.2.2 - rsp) := by
  -- Behind the last label the stack pointer is set from the frame, and is no longer followed.
  have hstop : ∀ line, lines[(prologue name size).length + inside.length]? = some line →
      line.moves = none := by
    intro line hline
    rw [h.lines_eq, List.getElem?_append_right (Nat.le_add_right _ _), Nat.add_sub_cancel_left,
      List.getElem?_append_right (Nat.le_refl _), Nat.sub_self] at hline
    obtain rfl := Option.some.inj hline
    rfl
  refine (Datapath.moves_of_reaches hstop ?_ hreaches).2
  intro i target j _ hjump hposition
  obtain ⟨j', hj', hi, hj⟩ := h.joins hjump
  obtain rfl := Option.some.inj (hposition.symm.trans hj')
  obtain ⟨k, line, -, -, -, htarget⟩ := h.exists_of_jump hjump
  obtain ⟨k', rfl, hk'⟩ := h.exists_of_position htarget hposition
  have hlt : k' < inside.length := (List.getElem?_eq_some_iff.1 hk').1
  exact ⟨by omega, hi.trans hj.symm⟩

/-- At a call the stack pointer is an even number of words below the frame. -/
theorem moves_of_call (h : Section name size lines inside) {i : Nat} {callee : String}
    (hcall : lines[i]? = some (.instr (.call callee))) :
    ∃ height : Int, 2 ∣ height ∧ Code.moves (lines.take i) = some (-8 - size - 8 * height) := by
  rw [h.lines_eq] at hcall
  obtain ⟨k, rfl, hk⟩ := getElem?_middle hcall (by simp [prologue]) (by simp [takeDown])
  obtain ⟨height, next, hscan, -, hmoves⟩ := h.exists_height hk
  have heven : height % 2 = 0 := by
    simp only [Line.scan, Option.ite_none_right_eq_some] at hscan
    exact hscan.1
  exact ⟨height, by omega, hmoves⟩

end Lower.Section

/-! ### Functions -/

/-- What holds of the stack in the lines of a function. -/
structure Function.KeepsStack (f : Function) (frame : Frame) (lines : Code) : Prop where
  /-- The size of the frame is a multiple of 16. -/
  multiple : 16 ∣ frame.size
  /-- From behind the prologue up to the last label the counter keeps the discipline. -/
  disciplined : ∃ inside, lines = Lower.prologue f.name frame.size ++ (inside
    ++ Lower.epilogue f.name) ∧ Code.Disciplined (inside ++ [.label (.returnOf f.name)])
  /-- Every jump joins places of the same height. -/
  joins : ∀ i target, (lines[i]? = some (.instr (.jump target))
    ∨ lines[i]? = some (.instr (.jumpIfEqual target))) →
      ∃ j height, lines.position target = some j ∧ Code.moves (lines.take i) = some height
        ∧ Code.moves (lines.take j) = some height
  /-- Along every execution the stack pointer is where the lines in front put it. -/
  follows : ∀ {σ : Type} (D : Datapath σ) s rsp pc t rsp',
    D.tracked.Reaches lines (0, s, rsp) (pc, t, rsp') →
      Code.moves (lines.take pc) = some (rsp' - rsp)
  /-- Called with a stack that is aligned but for the return address, the function calls with an
  aligned stack. -/
  aligned : ∀ {σ : Type} (D : Datapath σ) s rsp pc t rsp' callee, 16 ∣ rsp + 8 →
    D.tracked.Reaches lines (0, s, rsp) (pc, t, rsp') →
      lines[pc]? = some (.instr (.call callee)) → 16 ∣ rsp'

theorem IsRoutine.keepsStack {globals : List Variable} {f : Function} {frame : Frame} {lines : Code}
    (hframe : f.frame = .ok frame) (h : IsRoutine globals f frame lines) :
    f.KeepsStack frame lines := by
  obtain ⟨inside, hlines, hsection⟩ := Lower.exists_section h
  have hmultiple := Function.dvd_frame_size hframe
  refine ⟨hmultiple, ⟨inside, hlines, Code.disciplined_of_scan hsection.scan⟩, ?_, ?_, ?_⟩
  · intro i target hjump
    obtain ⟨j, hj, hi, hmoves⟩ := hsection.joins hjump
    exact ⟨j, _, hj, hi, hmoves⟩
  · intro σ D s rsp pc t rsp' hreaches
    exact hsection.moves_of_reaches hreaches
  · intro σ D s rsp pc t rsp' callee hentry hreaches hcall
    have hmoves := hsection.moves_of_reaches hreaches
    obtain ⟨height, heven, hmoves'⟩ := hsection.moves_of_call hcall
    have hrsp : rsp' - rsp = -8 - frame.size - 8 * height :=
      Option.some.inj (hmoves.symm.trans hmoves')
    omega

/-- **Every function of a program that has assembly keeps the stack**, and lowering never loses count
of it, whatever the program.  The programs that are read from sources have assembly. -/
theorem Program.functions_keep_stack (program : Program) :
    program.lower ≠ .error .stackUnderflow
      ∧ (∀ depth loc, program.lower ≠ .error (.stackUnbalanced depth loc))
      ∧ (∀ listing, program.lower = .ok listing → ∃ routines, listing.code = routines.flatten
        ∧ List.Forall₂ (fun f lines => ∃ frame, f.frame = .ok frame ∧ f.KeepsStack frame lines)
          program.functions routines)
      ∧ ∀ source : Source, source.program = .ok program → ∃ listing, program.lower = .ok listing := by
  have hspares := program.sparesStack_lower
  refine ⟨fun herror => hspares.of_eq_error herror, fun depth loc herror => ?_, ?_, ?_⟩
  · exact hspares.of_eq_error herror
  · intro listing hlisting
    obtain ⟨routines, hcode, hroutines⟩ := exists_routines_of_lower hlisting
    refine ⟨routines, hcode, hroutines.imp ?_⟩
    rintro f lines ⟨frame, hframe, hroutine⟩
    exact ⟨frame, hframe, hroutine.keepsStack hframe⟩
  · intro source hprogram
    exact ((ends_program source).of_eq_ok hprogram).exists_lower

/-- A function whose calls are made while words wait: an operand, and an operand of an argument. -/
def Source.nestedCalls : Source :=
  ⟨"nested", "func f(x int) int { if x { return x + f(1 + f(x)); } return f(2); }"⟩

theorem Program.functions_keep_stack_nested :
    ∃ program listing, Source.nestedCalls.program = .ok program
      ∧ program.functions.map (·.name) = ["f"] ∧ program.lower = .ok listing
      ∧ ∃ routines, listing.code = routines.flatten
        ∧ List.Forall₂ (fun f lines => ∃ frame, f.frame = .ok frame ∧ f.KeepsStack frame lines)
          program.functions routines := by
  have hread : (Source.nestedCalls.program.toOption.map fun program =>
      program.functions.map (·.name)) = some ["f"] := by decide +kernel
  obtain ⟨program, hprogram, hnames⟩ := Option.map_eq_some_iff.1 hread
  have hok := eq_ok_of_toOption_eq_some hprogram
  obtain ⟨-, -, hkeeps, haccepted⟩ := Program.functions_keep_stack program
  obtain ⟨listing, hlisting⟩ := haccepted Source.nestedCalls hok
  exact ⟨program, listing, hok, hnames, hlisting, hkeeps listing hlisting⟩

end PocketCompiler
