import PocketCompiler.Proofs.Jump
import PocketCompiler.Proofs.Lower.Program

/-!
# Labels and jumps of lowered code

The code of an expression has neither labels nor jumps (`straight_exprAt`).  The labels in the code
of a statement have the numbers that the statement takes, each of them once, and its jumps go to
labels in the same code or to the end of the function (`placeable_stmtFrom`).  So wherever the code
stands, it is left at its end or by a return (`Placeable.closed`), and the labels in the lines of a
function are distinct (`nodup_labels_routine`).
-/

namespace PocketCompiler

/-! ### Straight code -/

/-- No lines at all are straight. -/
theorem Code.straight_nil : Code.Straight [] := fun _ hline => absurd hline List.not_mem_nil

/-- An instruction that is not a jump may come in front. -/
theorem Code.straight_cons {step : Instr} {code : Code} (hstep : step.isControl = false)
    (h : code.Straight) : Code.Straight (.instr step :: code) := by
  intro line hline
  rcases List.mem_cons.1 hline with rfl | hline
  · exact ⟨step, rfl, hstep⟩
  · exact h line hline

theorem Code.Straight.append {first second : Code} (hfirst : first.Straight)
    (hsecond : second.Straight) : Code.Straight (first ++ second) := by
  intro line hline
  rcases List.mem_append.1 hline with hline | hline
  · exact hfirst line hline
  · exact hsecond line hline

/-- Straight code holds no labels. -/
theorem Code.Straight.labels {code : Code} (h : code.Straight) : code.labels = [] := by
  apply List.filterMap_eq_nil_iff.2
  intro line hline
  obtain ⟨step, rfl, -⟩ := h line hline
  rfl

namespace Lower

theorem straight_one {step : Instr} (h : step.isControl = false) : Code.Straight [.instr step] :=
  Code.straight_cons h Code.straight_nil

theorem straight_load (ty : Option Ty) : Code.Straight (load ty) := by
  unfold load
  split
  · split
    · exact Code.straight_nil
    · split
      · exact straight_one rfl
      · exact straight_one rfl
  · exact straight_one rfl

theorem straight_store (ty : Option Ty) : Code.Straight (store ty) := by
  unfold store
  split
  · split
    · exact straight_one rfl
    · exact straight_one rfl
  · exact straight_one rfl

theorem straight_operate (op : BinaryOp) : Code.Straight (operate op) := by
  have hcomparison : ∀ condition, Code.Straight (comparison condition) := fun _ =>
    Code.straight_cons rfl (Code.straight_cons rfl (Code.straight_cons rfl Code.straight_nil))
  cases op with
  | add => exact straight_one rfl
  | sub => exact straight_one rfl
  | mul => exact straight_one rfl
  | div => exact Code.straight_cons rfl (Code.straight_cons rfl Code.straight_nil)
  | eq => exact hcomparison _
  | ne => exact hcomparison _
  | lt => exact hcomparison _
  | le => exact hcomparison _

/-- A call comes back to the line behind it, so it is no jump. -/
theorem straight_aligned (depth : Nat) (name : String) : Code.Straight (aligned depth name) := by
  unfold aligned
  split
  · exact Code.straight_cons rfl (Code.straight_cons rfl (Code.straight_cons rfl Code.straight_nil))
  · exact straight_one rfl

/-- The address of a variable is one instruction. -/
theorem straight_variableAt {routine : Routine} {ref : VarRef} {code : Code}
    (h : variableAt routine ref = .ok code) : code.Straight := by
  cases ref with
  | localVar index =>
    obtain ⟨offset, -, hline⟩ := bind_eq_ok_iff.1 h
    obtain rfl := Except.ok.inj hline
    exact straight_one rfl
  | globalVar index =>
    obtain ⟨found, -, hline⟩ := bind_eq_ok_iff.1 h
    obtain rfl := Except.ok.inj hline
    exact straight_one rfl

/-- Arguments are popped, and the function is called, without a jump. -/
theorem straight_callAt {depth count : Nat} {name : String} {code : Code}
    (h : callAt depth name count = .ok code) : code.Straight := by
  unfold callAt at h
  split at h
  · obtain rfl := Except.ok.inj h
    refine (Code.Straight.append ?_ (straight_one rfl)).append
      (straight_aligned depth name)
    rintro line hline
    obtain ⟨dst, -, rfl⟩ := List.mem_map.1 hline
    exact ⟨.pop dst, rfl, rfl⟩
  · exact nomatch h

/-- No expression has a jump or a label. -/
theorem cases_straight (routine : Routine) :
    ExprCases routine (fun _ _ code => code.Straight) (fun _ _ code => code.Straight)
      (fun _ _ code => code.Straight) where
  num _ _ _ := straight_one rfl
  var _ mark _ _ hplace := (straight_variableAt hplace).append (straight_load mark.ty)
  neg _ _ _ _ hcode := hcode.append (straight_one rfl)
  addr _ _ _ _ hcode := hcode
  deref _ mark _ _ hcode := hcode.append (straight_load mark.ty)
  binary _ _ op _ _ _ _ hright hleft :=
    (((hright.append (straight_one rfl)).append hleft).append (straight_one rfl)).append
      (straight_operate op)
  assign _ mark _ _ _ _ hplace hcode :=
    (((hplace.append (straight_one rfl)).append hcode).append (straight_one rfl)).append
      (straight_store mark.ty)
  call _ _ _ _ _ _ hpushed hcalled := hpushed.append (straight_callAt hcalled)
  varAddress _ _ _ _ hplace := straight_variableAt hplace
  derefAddress _ _ _ _ hcode := hcode
  nil _ := Code.straight_nil
  cons _ _ _ _ _ hcode hmore := (hcode.append (straight_one rfl)).append hmore

/-- **The code of an expression is straight.** -/
theorem straight_exprAt {routine : Routine} {depth : Nat} {node : Node} {code : Code}
    (h : exprAt routine depth node = .ok code) : code.Straight :=
  (cases_straight routine).exprAt node h

theorem straight_exprSomeAt {routine : Routine} {node : Option Node} {code : Code}
    (h : exprSomeAt routine node = .ok code) : code.Straight := by
  cases node with
  | none =>
    obtain rfl := Except.ok.inj h
    exact Code.straight_nil
  | some node => exact straight_exprAt h

end Lower

/-! ### Numbers of labels -/

/-- The number of a label that belongs to a conditional or a loop. -/
def Label.number? : Label → Option Nat
  | .elseOf number | .beginOf number | .endOf number => some number
  | .symbol _ | .returnOf _ => none

/-- The labels of some code are distinct, and their numbers are above `labels` and at most
`last`. -/
structure Code.Numbered (code : Code) (labels last : Nat) : Prop where
  le : labels ≤ last
  nodup : code.labels.Nodup
  range : ∀ place ∈ code.labels, ∃ number, place.number? = some number
    ∧ labels < number ∧ number ≤ last

/-- Straight code takes no numbers. -/
theorem Code.Straight.numbered {code : Code} (h : code.Straight) (labels : Nat) :
    code.Numbered labels labels where
  le := Nat.le_refl _
  nodup := by
    rw [h.labels]
    exact List.nodup_nil
  range place hplace := by
    rw [h.labels] at hplace
    exact absurd hplace List.not_mem_nil

/-- Code that takes the next numbers can follow. -/
theorem Code.Numbered.append {first second : Code} {labels middle last : Nat}
    (hfirst : first.Numbered labels middle) (hsecond : second.Numbered middle last) :
    Code.Numbered (first ++ second) labels last where
  le := Nat.le_trans hfirst.le hsecond.le
  nodup := by
    rw [Code.labels_append, List.nodup_append]
    refine ⟨hfirst.nodup, hsecond.nodup, ?_⟩
    -- A label of both parts would have a number up to `middle` and above it.
    rintro a ha b hb rfl
    obtain ⟨number, hnumber, _, hle⟩ := hfirst.range a ha
    obtain ⟨number', hnumber', hlt, _⟩ := hsecond.range a hb
    obtain rfl := Option.some.inj (hnumber.symm.trans hnumber')
    exact absurd hlt (Nat.not_lt.2 hle)
  range place hplace := by
    rw [Code.labels_append] at hplace
    rcases List.mem_append.1 hplace with hplace | hplace
    · obtain ⟨number, hnumber, hlt, hle⟩ := hfirst.range place hplace
      exact ⟨number, hnumber, hlt, Nat.le_trans hle hsecond.le⟩
    · obtain ⟨number, hnumber, hlt, hle⟩ := hsecond.range place hplace
      exact ⟨number, hnumber, Nat.lt_of_le_of_lt hfirst.le hlt, hle⟩

/-- Code whose own labels have the next number, around code that takes the numbers after it. -/
theorem Code.numbered_of_perm {code inner : Code} {own : List Label} {labels last : Nat}
    (hinner : inner.Numbered (labels + 1) last) (hown : own.Nodup)
    (hnumber : ∀ place ∈ own, place.number? = some (labels + 1))
    (hperm : code.labels.Perm (own ++ inner.labels)) : code.Numbered labels last where
  le := Nat.le_trans (Nat.le_succ _) hinner.le
  nodup := by
    rw [hperm.nodup_iff, List.nodup_append]
    refine ⟨hown, hinner.nodup, ?_⟩
    -- The numbers inside are above the number of the labels around.
    rintro a ha b hb rfl
    obtain ⟨number, hnumber', hlt, _⟩ := hinner.range a hb
    obtain rfl := Option.some.inj ((hnumber a ha).symm.trans hnumber')
    exact absurd hlt (Nat.lt_irrefl _)
  range place hplace := by
    rcases List.mem_append.1 (hperm.mem_iff.1 hplace) with hplace | hplace
    · exact ⟨labels + 1, hnumber place hplace, Nat.lt_succ_self _, hinner.le⟩
    · obtain ⟨number, hnumber', hlt, hle⟩ := hinner.range place hplace
      exact ⟨number, hnumber', Nat.lt_of_succ_lt hlt, hle⟩

namespace Lower

/-- The labels of a conditional are those of its branches and two of its own. -/
theorem labels_ifCode {number : Nat} {test first second : Code} (htest : test.Straight) :
    (ifCode number test first second).labels
      = first.labels ++ .elseOf number :: (second.labels ++ [.endOf number]) := by
  have hunless : Code.labels (unlessTrue (.elseOf number)) = [] := rfl
  have hmiddle : Code.labels [.instr (.jump (.endOf number)), .label (.elseOf number)]
      = [.elseOf number] := rfl
  have hend : Code.labels [.label (.endOf number)] = [.endOf number] := rfl
  simp only [ifCode, Code.labels_append, htest.labels, hunless, hmiddle, hend, List.nil_append,
    List.append_assoc, List.singleton_append]

/-- The test in front of a loop may jump, but it has no labels. -/
theorem labels_guardAt {routine : Routine} {exit : Label} {cond : Option Node} {test : Code}
    (h : guardAt routine exit cond = .ok test) : test.labels = [] := by
  cases cond with
  | none =>
    obtain rfl := Except.ok.inj h
    rfl
  | some cond =>
    obtain ⟨code, hcode, hline⟩ := bind_eq_ok_iff.1 h
    obtain rfl := Except.ok.inj hline
    rw [Code.labels_append, (straight_exprAt hcode).labels]
    rfl

/-- The labels of a loop are those of its body and two of its own. -/
theorem labels_loopCode {number : Nat} {start test inside next : Code} (hstart : start.Straight)
    (htest : test.labels = []) (hnext : next.Straight) :
    (loopCode number start test inside next).labels
      = .beginOf number :: (inside.labels ++ [.endOf number]) := by
  have hbegin : Code.labels [.label (.beginOf number)] = [.beginOf number] := rfl
  have hend : Code.labels [.instr (.jump (.beginOf number)), .label (.endOf number)]
      = [.endOf number] := rfl
  simp only [loopCode, Code.labels_append, hstart.labels, htest, hnext.labels, hbegin, hend]
  simp only [List.nil_append, List.append_nil, List.cons_append]

/-- A conditional takes one number, and its branches take those behind it. -/
theorem numbered_ifCode {labels middle last : Nat} {test first second : Code}
    (htest : test.Straight) (hfirst : first.Numbered (labels + 1) middle)
    (hsecond : second.Numbered middle last) :
    (ifCode (labels + 1) test first second).Numbered labels last := by
  have hown : [Label.elseOf (labels + 1), .endOf (labels + 1)].Nodup := by simp
  refine Code.numbered_of_perm (hfirst.append hsecond) hown ?_ ?_
  · intro place hplace
    rcases List.mem_cons.1 hplace with rfl | hplace
    · rfl
    · rw [List.mem_singleton.1 hplace]
      rfl
  · rw [labels_ifCode htest, Code.labels_append, List.perm_iff_count]
    intro place
    simp only [List.count_append, List.count_cons, List.count_nil]
    omega

/-- A loop takes one number, and its body takes those behind it. -/
theorem numbered_loopCode {labels last : Nat} {start test inside next : Code}
    (hstart : start.Straight) (htest : test.labels = []) (hnext : next.Straight)
    (hinside : inside.Numbered (labels + 1) last) :
    (loopCode (labels + 1) start test inside next).Numbered labels last := by
  have hown : [Label.beginOf (labels + 1), .endOf (labels + 1)].Nodup := by simp
  refine Code.numbered_of_perm hinside hown ?_ ?_
  · intro place hplace
    rcases List.mem_cons.1 hplace with rfl | hplace
    · rfl
    · rw [List.mem_singleton.1 hplace]
      rfl
  · rw [labels_loopCode hstart htest hnext, List.perm_iff_count]
    intro place
    simp only [List.count_append, List.count_cons, List.count_nil]
    omega

end Lower

/-! ### Where jumps go -/

/-- A line that jumps, if at all, to one of these labels or to the end of the function. -/
def Line.TargetsIn (name : String) (places : List Label) : Line → Prop
  | .instr (.jump target) => target = .returnOf name ∨ target ∈ places
  | .instr (.jumpIfEqual target) => target ∈ places
  | .instr .ret => False
  | _ => True

/-- Lines that jump, if at all, to one of these labels or to the end of the function. -/
def Code.TargetsIn (name : String) (places : List Label) (code : Code) : Prop :=
  ∀ line ∈ code, line.TargetsIn name places

section Targets

variable {name : String} {places more : List Label} {code first second : Code}

/-- A jump to one of some labels goes to one of more labels. -/
theorem Line.TargetsIn.mono {line : Line} (h : line.TargetsIn name places) (hsub : places ⊆ more) :
    line.TargetsIn name more := by
  cases line with
  | label _ => trivial
  | directive _ => trivial
  | instr step =>
    cases step with
    | jump target => exact h.imp_right fun hmem => hsub hmem
    | jumpIfEqual target => exact hsub h
    | ret => exact h
    | _ => trivial

theorem Code.TargetsIn.mono (h : code.TargetsIn name places) (hsub : places ⊆ more) :
    code.TargetsIn name more :=
  fun line hline => (h line hline).mono hsub

theorem Code.TargetsIn.append (hfirst : first.TargetsIn name places)
    (hsecond : second.TargetsIn name places) : Code.TargetsIn name places (first ++ second) := by
  intro line hline
  rcases List.mem_append.1 hline with hline | hline
  · exact hfirst line hline
  · exact hsecond line hline

/-- Straight code does not jump. -/
theorem Code.Straight.targetsIn (h : code.Straight) : code.TargetsIn name places := by
  intro line hline
  obtain ⟨step, rfl, hstep⟩ := h line hline
  cases step with
  | jump _ => exact nomatch hstep
  | jumpIfEqual _ => exact nomatch hstep
  | ret => exact nomatch hstep
  | _ => trivial

theorem Code.targetsIn_cons {line : Line} (hline : line.TargetsIn name places)
    (h : code.TargetsIn name places) : Code.TargetsIn name places (line :: code) := by
  intro found hfound
  rcases List.mem_cons.1 hfound with rfl | hfound
  · exact hline
  · exact h found hfound

theorem Code.targetsIn_nil : Code.TargetsIn name places [] :=
  fun _ hline => absurd hline List.not_mem_nil

end Targets

namespace Lower

variable {name : String}

/-- The jump behind a test goes to the label that it is given. -/
theorem targetsIn_unlessTrue {target : Label} {places : List Label} (h : target ∈ places) :
    Code.TargetsIn name places (unlessTrue target) :=
  Code.targetsIn_cons trivial (Code.targetsIn_cons h Code.targetsIn_nil)

/-- A conditional jumps to its own two labels only. -/
theorem targetsIn_ifCode {number : Nat} {test first second : Code} (htest : test.Straight)
    (hfirst : first.TargetsIn name first.labels) (hsecond : second.TargetsIn name second.labels) :
    (ifCode number test first second).TargetsIn name (ifCode number test first second).labels := by
  have hmem : ∀ place, place ∈ (ifCode number test first second).labels
      ↔ place ∈ first.labels ∨ place = .elseOf number ∨ place ∈ second.labels
        ∨ place = .endOf number := by
    intro place
    rw [labels_ifCode htest]
    simp only [List.mem_append, List.mem_cons, List.not_mem_nil, or_false]
  have hfirst := hfirst.mono fun place hplace => (hmem place).2 (Or.inl hplace)
  have hsecond := hsecond.mono fun place hplace => (hmem place).2 (Or.inr (Or.inr (Or.inl hplace)))
  have hunless : Code.TargetsIn name _ (unlessTrue (.elseOf number)) :=
    targetsIn_unlessTrue ((hmem (.elseOf number)).2 (Or.inr (Or.inl rfl)))
  refine ((((htest.targetsIn.append hunless).append hfirst).append ?_).append hsecond).append ?_
  · refine Code.targetsIn_cons (Or.inr ?_) (Code.targetsIn_cons trivial Code.targetsIn_nil)
    exact (hmem _).2 (Or.inr (Or.inr (Or.inr rfl)))
  · exact Code.targetsIn_cons trivial Code.targetsIn_nil

/-- The test of a loop jumps to the label behind the loop. -/
theorem targetsIn_guardAt {routine : Routine} {exit : Label} {cond : Option Node} {test : Code}
    {places : List Label} (h : guardAt routine exit cond = .ok test) (hexit : exit ∈ places) :
    test.TargetsIn name places := by
  cases cond with
  | none =>
    obtain rfl := Except.ok.inj h
    exact Code.targetsIn_nil
  | some cond =>
    obtain ⟨code, hcode, hline⟩ := bind_eq_ok_iff.1 h
    obtain rfl := Except.ok.inj hline
    exact (straight_exprAt hcode).targetsIn.append (targetsIn_unlessTrue hexit)

/-- A loop jumps to its own two labels only. -/
theorem targetsIn_loopCode {routine : Routine} {number : Nat} {cond : Option Node}
    {start test inside next : Code} (hstart : start.Straight)
    (htest : guardAt routine (.endOf number) cond = .ok test) (hnext : next.Straight)
    (hinside : inside.TargetsIn name inside.labels) :
    (loopCode number start test inside next).TargetsIn name
      (loopCode number start test inside next).labels := by
  have hmem : ∀ place, place ∈ (loopCode number start test inside next).labels
      ↔ place = .beginOf number ∨ place ∈ inside.labels ∨ place = .endOf number := by
    intro place
    rw [labels_loopCode hstart (labels_guardAt htest) hnext]
    simp only [List.mem_append, List.mem_cons, List.not_mem_nil, or_false]
  have hinside := hinside.mono fun place hplace => (hmem place).2 (Or.inr (Or.inl hplace))
  have hguard : test.TargetsIn name _ :=
    targetsIn_guardAt htest ((hmem (.endOf number)).2 (Or.inr (Or.inr rfl)))
  refine ((((hstart.targetsIn.append ?_).append hguard).append hinside).append
    hnext.targetsIn).append ?_
  · exact Code.targetsIn_cons trivial Code.targetsIn_nil
  · refine Code.targetsIn_cons (Or.inr ?_) (Code.targetsIn_cons trivial Code.targetsIn_nil)
    exact (hmem _).2 (Or.inl rfl)

end Lower

/-! ### Statements -/

/-- Code that can be put anywhere: its labels are its own, and its jumps go to them or to the end of
the function. -/
structure Code.Placeable (code : Code) (name : String) (labels last : Nat) : Prop where
  numbered : code.Numbered labels last
  targets : code.TargetsIn name code.labels

theorem Code.Straight.placeable {code : Code} (h : code.Straight) (name : String) (labels : Nat) :
    code.Placeable name labels labels :=
  ⟨h.numbered labels, h.targetsIn⟩

/-- The numbers of the second part are behind those of the first. -/
theorem Code.Placeable.append {first second : Code} {name : String} {labels middle last : Nat}
    (hfirst : first.Placeable name labels middle) (hsecond : second.Placeable name middle last) :
    Code.Placeable (first ++ second) name labels last where
  numbered := hfirst.numbered.append hsecond.numbered
  targets := by
    rw [Code.labels_append]
    exact (hfirst.targets.mono (List.subset_append_left _ _)).append
      (hsecond.targets.mono (List.subset_append_right _ _))

namespace Lower

/-- A return jumps to the end of its function. -/
theorem placeable_leave (routine : Routine) (labels : Nat) :
    (leave routine).Placeable routine.name labels labels := by
  have hlabels : Code.labels (leave routine) = [] := by
    unfold leave
    split <;> rfl
  refine ⟨⟨Nat.le_refl _, ?_, ?_⟩, ?_⟩
  · rw [hlabels]
    exact List.nodup_nil
  · rw [hlabels]
    exact fun place hplace => absurd hplace List.not_mem_nil
  · unfold leave
    split
    · exact Code.targetsIn_cons trivial (Code.targetsIn_cons (Or.inl rfl) Code.targetsIn_nil)
    · exact Code.targetsIn_cons (Or.inl rfl) Code.targetsIn_nil

/-- A conditional can be put anywhere if its branches can. -/
theorem placeable_ifCode {routine : Routine} {cond : Node} {test first second : Code}
    {labels middle last : Nat} (htest : exprAt routine 0 cond = .ok test)
    (hfirst : first.Placeable name (labels + 1) middle)
    (hsecond : second.Placeable name middle last) :
    (ifCode (labels + 1) test first second).Placeable name labels last :=
  ⟨numbered_ifCode (straight_exprAt htest) hfirst.numbered hsecond.numbered,
    targetsIn_ifCode (straight_exprAt htest) hfirst.targets hsecond.targets⟩

/-- A loop can be put anywhere if its body can. -/
theorem placeable_loopCode {routine : Routine} {init cond step : Option Node}
    {start test inside next : Code} {labels last : Nat}
    (hstart : exprSomeAt routine init = .ok start)
    (htest : guardAt routine (.endOf (labels + 1)) cond = .ok test)
    (hinside : inside.Placeable name (labels + 1) last)
    (hnext : exprSomeAt routine step = .ok next) :
    (loopCode (labels + 1) start test inside next).Placeable name labels last :=
  ⟨numbered_loopCode (straight_exprSomeAt hstart) (labels_guardAt htest)
      (straight_exprSomeAt hnext) hinside.numbered,
    targetsIn_loopCode (straight_exprSomeAt hstart) htest (straight_exprSomeAt hnext)
      hinside.targets⟩

/-- Every statement has code that can be put anywhere. -/
theorem cases_placeable (routine : Routine) :
    StmtCases routine (fun labels _ code last => code.Placeable routine.name labels last)
      (fun labels _ code last => code.Placeable routine.name labels last)
      (fun labels _ code last => code.Placeable routine.name labels last) where
  exprStmt labels _ _ _ hcode := (straight_exprAt hcode).placeable _ labels
  ret labels _ _ _ hcode :=
    ((straight_exprAt hcode).placeable _ labels).append (placeable_leave routine labels)
  block _ _ _ _ _ hcode := hcode
  ifElse _ _ _ _ _ _ _ _ _ _ htest hfirst hsecond := placeable_ifCode htest hfirst hsecond
  loop _ _ _ _ _ _ _ _ _ _ _ hstart htest hinside hnext :=
    placeable_loopCode hstart htest hinside hnext
  nil labels := Code.straight_nil.placeable _ labels
  cons _ _ _ _ _ _ _ hcode hmore := hcode.append hmore
  missing labels := Code.straight_nil.placeable _ labels
  present _ _ _ _ hcode := hcode

/-- **The code of a statement has labels of its own**, numbered one after the other, **and jumps to
them only**, or to the end of the function. -/
theorem placeable_stmtFrom {routine : Routine} {node : Node} {labels last : Nat} {code : Code}
    (h : stmtFrom routine labels node = .ok (code, last)) :
    code.Placeable routine.name labels last :=
  (cases_placeable routine).stmtFrom node h

end Lower

/-- Code that can be put anywhere is left at its end, or by a return. -/
theorem Code.Placeable.closed {σ : Type} {D : Datapath σ} {lines code : Code} {name : String}
    {labels last lo : Nat} (h : code.Placeable name labels last) (hnodup : lines.labels.Nodup)
    (hat : lines.At lo code) : D.Closed lines name lo (lo + code.length) := by
  -- A label in the code is found in the code.
  have hposition : ∀ place ∈ code.labels, ∃ i, i < code.length
      ∧ lines.position place = some (lo + i) := by
    intro place hplace
    obtain ⟨i, hi, hline⟩ := List.mem_iff_getElem.1 (Code.mem_labels_iff.1 hplace)
    have hi' : lines[lo + i]? = some (.label place) := by
      rw [hat.getElem? hi, List.getElem?_eq_getElem hi, hline]
    exact ⟨i, hi, Code.position_eq hnodup hi'⟩
  intro pc s pc' u hlo hhi hreturns hnext
  obtain ⟨i, rfl⟩ := Nat.exists_eq_add_of_le hlo
  have hi : i < code.length := by omega
  have hline : lines[lo + i]? = some code[i] := by
    rw [hat.getElem? hi, List.getElem?_eq_getElem hi]
  have htargets := h.targets code[i] (List.getElem_mem hi)
  generalize code[i] = line at hline htargets
  rw [hline] at hreturns
  -- A step goes to a label in the code, or to the line behind.
  have hjumps : ∀ target ∈ code.labels, (lines.position target).map (·, s) = some (pc', u) →
      lo ≤ pc' ∧ pc' ≤ lo + code.length := by
    intro target htarget hmap
    obtain ⟨j, hj, hpos⟩ := hposition target htarget
    rw [hpos] at hmap
    obtain ⟨rfl, -⟩ := Prod.mk.inj (Option.some.inj hmap)
    omega
  have hfalls : ∀ v, some (lo + i + 1, v) = some (pc', u) → lo ≤ pc' ∧ pc' ≤ lo + code.length := by
    intro v heq
    obtain ⟨rfl, -⟩ := Prod.mk.inj (Option.some.inj heq)
    omega
  -- Only a jump goes anywhere but to the next line, and it goes to a label in the code.
  cases line with
  | label place =>
    rw [Datapath.next_label hline] at hnext
    exact hfalls _ hnext
  | directive order =>
    rw [Datapath.next, hline] at hnext
    exact hfalls _ hnext
  | instr step =>
    by_cases hstep : step.isControl = false
    · rw [Datapath.next_instr hline hstep] at hnext
      obtain ⟨v, -, heq⟩ := Option.map_eq_some_iff.1 hnext
      exact hfalls v (congrArg some heq)
    · cases step with
      | jump target =>
        rw [Datapath.next_jump hline] at hnext
        rcases htargets with rfl | htarget
        · exact absurd rfl hreturns
        · exact hjumps target htarget hnext
      | jumpIfEqual target =>
        rw [Datapath.next_jumpIfEqual hline] at hnext
        split at hnext
        · exact hjumps target htargets hnext
        · exact hfalls s hnext
      | ret => exact htargets.elim
      | _ => exact absurd rfl hstep

/-! ### Functions -/

namespace Lower

/-- Moving the parameters to their places is straight code. -/
theorem straight_spills {offsets : List Int} {params : List (Nat × Ty)} {registers : List Reg}
    {code : Code} (h : spills offsets params registers = .ok code) : code.Straight := by
  intro line hline
  obtain ⟨offset, ty, src, rfl⟩ := exists_spill_of_mem_spills h line hline
  unfold spill
  split
  · exact ⟨_, rfl, rfl⟩
  · exact ⟨_, rfl, rfl⟩

/-- The labels in the lines of a function are two that bear its name, and those of the body. -/
theorem labels_routine {name : String} {size : Int} {arguments body : Code}
    (harguments : arguments.Straight) :
    Code.labels (prologue name size ++ arguments ++ body ++ epilogue name)
      = .symbol name :: (body.labels ++ [.returnOf name]) := by
  have hprologue : (prologue name size).labels = [.symbol name] := rfl
  have hepilogue : (epilogue name).labels = [.returnOf name] := rfl
  simp only [Code.labels_append, hprologue, hepilogue, harguments.labels, List.append_nil,
    List.nil_append, List.cons_append]

/-- The labels in the lines of a function are distinct: two of them bear its name, and the numbers of
the others are different. -/
theorem nodup_labels_routine {globals : List Variable} {f : Function} {frame : Frame} {lines : Code}
    (h : IsRoutine globals f frame lines) : lines.labels.Nodup := by
  obtain ⟨labels, last, arguments, body, harguments, hbody, rfl⟩ := h.exists_parts
  have hplaceable := placeable_stmtFrom hbody
  -- A label without a number is not in the body.
  have hnot : ∀ place : Label, place.number? = none → place ∉ body.labels := by
    intro place hnone hmem
    obtain ⟨number, hnumber, -⟩ := hplaceable.numbered.range place hmem
    rw [hnone] at hnumber
    exact nomatch hnumber
  rw [labels_routine (straight_spills harguments), List.nodup_cons, List.nodup_append]
  refine ⟨?_, hplaceable.numbered.nodup, List.pairwise_singleton _ _, ?_⟩
  · intro hmem
    rcases List.mem_append.1 hmem with hmem | hmem
    · exact hnot (.symbol f.name) rfl hmem
    · exact nomatch List.mem_singleton.1 hmem
  · rintro place hplace other hother rfl
    obtain rfl := List.mem_singleton.1 hother
    exact hnot (.returnOf f.name) rfl hplace

end Lower

end PocketCompiler
