import Mathlib.Data.List.Forall2
import PocketCompiler.Lower.Program
import PocketCompiler.Proofs.Lower.Stmt

/-!
# The code of functions as a function of the label numbers

Functions are lowered one after the other, and nothing but the number of conditionals and loops so
far is handed from one to the next.  `functionFrom` and `functionsFrom` compute the code from that
number alone, and `lower_eq` says the same of a whole program.

`IsRoutine` says that some lines are the code of one function as it stands in the assembly of a
program, and `exists_routines_of_lower` cuts the code of a program into the routines of its
functions.
-/

namespace PocketCompiler

namespace Lower

/-- The routine that the code of a function is made for. -/
def routineOf (globals : List Variable) (function : Function) (frame : Frame) : Routine :=
  { name := function.name
    returnsChar := function.ty.result? == some .char
    offsets := frame.offsets
    globals }

/-- The code that puts the arguments of a function into its frame. -/
def argumentsInto (function : Function) (frame : Frame) : Except Fault Code :=
  spills frame.offsets (function.params.zip function.ty.paramTypes) Reg.forArguments

/-- The code of a function behind `labels` conditionals and loops, and their number then. -/
def functionFrom (globals : List Variable) (labels : Nat) (function : Function) (frame : Frame) :
    Except Fault (Code × Nat) := do
  let arguments ← argumentsInto function frame
  let (body, last) ← stmtFrom (routineOf globals function frame) labels function.body
  return (prologue function.name frame.size ++ arguments ++ body ++ epilogue function.name, last)

/-- The code of functions, one after the other. -/
def functionsFrom (globals : List Variable) (labels : Nat) :
    List (Function × Frame) → Except Fault (Code × Nat)
  | [] => .ok ([], labels)
  | (first, frame) :: more => do
    let (code, middle) ← functionFrom globals labels first frame
    let (rest, last) ← functionsFrom globals middle more
    return (code ++ rest, last)

/-- Arguments are put into the frame by one line each. -/
theorem exists_spill_of_mem_spills {offsets : List Int} : ∀ {params : List (Nat × Ty)}
    {registers : List Reg} {code : Code}, spills offsets params registers = .ok code →
      ∀ line ∈ code, ∃ offset ty src, line = spill offset ty src
  | [], _, code, h => by
    obtain rfl := Except.ok.inj h
    exact fun line hline => absurd hline List.not_mem_nil
  | (index, ty) :: params, registers, code, h => by
    obtain ⟨offset, -, h⟩ := bind_eq_ok_iff.1 h
    cases registers with
    | nil => exact nomatch h
    | cons src registers =>
      obtain ⟨more, hmore, h⟩ := bind_eq_ok_iff.1 h
      obtain rfl := Except.ok.inj h
      intro line hline
      rcases List.mem_cons.1 hline with rfl | hline
      · exact ⟨offset, ty, src, rfl⟩
      · exact exists_spill_of_mem_spills hmore line hline

/-- A computation without a state leaves the state alone. -/
theorem run_liftM {α : Type} (r : Except Fault α) (s : LowerState) :
    (liftM r : Lower α).run s = r.map (·, s) := by
  cases r <;> rfl

theorem run_function (globals : List Variable) (f : Function) (frame : Frame) (labels : Nat) :
    (function globals f frame).run ⟨0, labels⟩
      = (functionFrom globals labels f frame).map settled :=
  run_bind_of_map (run_liftM (argumentsInto f frame) ⟨0, labels⟩) fun _ =>
    run_bind_of_map (run_stmt (routineOf globals f frame) f.body labels) fun _ => rfl

theorem run_functions (globals : List Variable) :
    ∀ (fs : List (Function × Frame)) (labels : Nat),
      (functions globals fs).run ⟨0, labels⟩ = (functionsFrom globals labels fs).map settled
  | [], _ => rfl
  | (first, frame) :: more, labels => by
    rw [functions, functionsFrom]
    exact run_bind_of_map (run_function globals first frame labels) fun code =>
      run_bind_of_map (run_functions globals more code.2) fun rest => rfl

end Lower

/-- The assembly of a program, without a state. -/
theorem Program.lower_eq (program : Program) :
    program.lower = do
      let frames ← program.frames
      let data ← program.globals.mapM Lower.datum
      let (code, _) ← Lower.functionsFrom program.globals 0 (program.functions.zip frames)
      return { frames, data := data.flatten, code } := by
  unfold Program.lower
  congr 1
  funext frames
  congr 1
  funext data
  rw [show ({} : LowerState) = ⟨0, 0⟩ from rfl, Lower.run_functions]
  cases Lower.functionsFrom program.globals 0 (program.functions.zip frames) <;> rfl

/-! ### Routines -/

/-- `lines` is the code of `function` in a program with these globals, for some number of
conditionals and loops before it. -/
def IsRoutine (globals : List Variable) (function : Function) (frame : Frame) (lines : Code) :
    Prop :=
  ∃ labels last, Lower.functionFrom globals labels function frame = .ok (lines, last)

/-- A routine is the code of the body between the lines that set up the frame and those that take it
down. -/
theorem IsRoutine.exists_parts {globals : List Variable} {function : Function} {frame : Frame}
    {lines : Code} (h : IsRoutine globals function frame lines) :
    ∃ labels last arguments body, Lower.argumentsInto function frame = .ok arguments
      ∧ Lower.stmtFrom (Lower.routineOf globals function frame) labels function.body
        = .ok (body, last)
      ∧ lines = Lower.prologue function.name frame.size ++ arguments ++ body
        ++ Lower.epilogue function.name := by
  obtain ⟨labels, last, h⟩ := h
  obtain ⟨arguments, harguments, h⟩ := bind_eq_ok_iff.1 h
  obtain ⟨⟨body, last'⟩, hbody, h⟩ := bind_eq_ok_iff.1 h
  obtain ⟨rfl, -⟩ := Prod.mk.inj (Except.ok.inj h)
  exact ⟨labels, last', arguments, body, harguments, hbody, rfl⟩

theorem Lower.exists_routines {globals : List Variable} :
    ∀ (fs : List (Function × Frame)) (labels : Nat) (code : Code) (last : Nat),
      functionsFrom globals labels fs = .ok (code, last) →
        ∃ routines : List Code, code = routines.flatten
          ∧ List.Forall₂ (fun f lines => IsRoutine globals f.1 f.2 lines) fs routines
  | [], labels, code, last, h => by
    rw [functionsFrom] at h
    obtain ⟨rfl, -⟩ := Prod.mk.inj (Except.ok.inj h)
    exact ⟨[], rfl, .nil⟩
  | (first, frame) :: more, labels, code, last, h => by
    rw [functionsFrom] at h
    obtain ⟨⟨lines, middle⟩, hlines, h⟩ := bind_eq_ok_iff.1 h
    obtain ⟨⟨rest, last'⟩, hrest, h⟩ := bind_eq_ok_iff.1 h
    obtain ⟨rfl, -⟩ := Prod.mk.inj (Except.ok.inj h)
    obtain ⟨routines, rfl, hroutines⟩ := exists_routines more middle rest last' hrest
    exact ⟨lines :: routines, rfl, .cons ⟨labels, middle, hlines⟩ hroutines⟩

/-- If every step of a sequence has a result, the results are those of the steps. -/
theorem forall₂_of_mapM_eq_ok {α β : Type} {f : α → Except Fault β} : ∀ {xs : List α} {ys : List β},
    xs.mapM f = .ok ys → List.Forall₂ (fun x y => f x = .ok y) xs ys
  | [], ys, h => by
    rw [List.mapM_nil] at h
    obtain rfl := Except.ok.inj h
    exact .nil
  | x :: xs, ys, h => by
    rw [List.mapM_cons] at h
    obtain ⟨y, hy, h⟩ := bind_eq_ok_iff.1 h
    obtain ⟨rest, hrest, h⟩ := bind_eq_ok_iff.1 h
    obtain rfl := Except.ok.inj h
    exact .cons hy (forall₂_of_mapM_eq_ok hrest)

theorem Lower.forall₂_routines {globals : List Variable} {fs : List Function} {frames : List Frame}
    {routines : List Code} (hframes : List.Forall₂ (fun f frame => f.frame = .ok frame) fs frames)
    (hroutines : List.Forall₂ (fun f lines => IsRoutine globals f.1 f.2 lines) (fs.zip frames)
      routines) :
    List.Forall₂ (fun f lines => ∃ frame, f.frame = .ok frame ∧ IsRoutine globals f frame lines) fs
      routines := by
  induction hframes generalizing routines with
  | nil =>
    obtain rfl := List.forall₂_nil_left_iff.1 hroutines
    exact .nil
  | @cons f frame fs frames hframe _ ih =>
    rw [List.zip_cons_cons] at hroutines
    obtain ⟨lines, rest, hlines, hrest, rfl⟩ := List.forall₂_cons_left_iff.1 hroutines
    exact .cons ⟨frame, hframe, hlines⟩ (ih hrest)

/-- The code of a program is the code of its functions, one after the other. -/
theorem exists_routines_of_lower {program : Program} {listing : Listing}
    (h : program.lower = .ok listing) :
    ∃ routines : List Code, listing.code = routines.flatten
      ∧ List.Forall₂ (fun f lines => ∃ frame, f.frame = .ok frame
        ∧ IsRoutine program.globals f frame lines) program.functions routines := by
  rw [program.lower_eq] at h
  obtain ⟨frames, hframes, h⟩ := bind_eq_ok_iff.1 h
  obtain ⟨data, -, h⟩ := bind_eq_ok_iff.1 h
  obtain ⟨⟨code, last⟩, hcode, h⟩ := bind_eq_ok_iff.1 h
  obtain rfl := Except.ok.inj h
  obtain ⟨routines, hflatten, hroutines⟩ := Lower.exists_routines _ 0 code last hcode
  exact ⟨routines, hflatten, Lower.forall₂_routines (forall₂_of_mapM_eq_ok hframes) hroutines⟩

end PocketCompiler
