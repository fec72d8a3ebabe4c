import PocketCompiler.Proofs.Machine

/-!
# Lines with a program counter

The lines of a routine as a program: `Datapath.next` takes one line, and a jump goes on at the line
that holds its label.  What instructions do to the state is left open in a `Datapath`; it has to say
what the comparison with zero and the extension of a byte do, since control depends on them.

A statement is a stretch of lines, from `lo` up to `hi`.  `Exits` says how an execution leaves such a
stretch: `done` when it comes to `hi`, `returned` when it comes to a jump to the end of the function.
The rules below take an execution apart: at one line (`exits_step`), at straight code
(`exits_straight`) and at a stretch inside the stretch (`exits_inner`).  They are equivalences, so
executions are put together by the same rules.
-/

namespace PocketCompiler

/-- An instruction that decides which line comes next. -/
def Instr.isControl : Instr → Bool
  | .jump _ | .jumpIfEqual _ | .ret => true
  | _ => false

/-- The state that instructions work on. -/
structure Datapath (σ : Type) where
  /-- What an instruction does, if it does not fail. -/
  perform : Instr → σ → Option σ
  /-- The value that was computed last. -/
  rax : σ → Int64
  /-- Whether the last comparison found equality. -/
  equal : σ → Bool
  /-- Compares `rax` with zero. -/
  test : σ → σ
  /-- Replaces `rax` by its low byte, with the sign of that. -/
  narrow : σ → σ
  perform_test : ∀ s, perform (.compareConst .rax 0) s = some (test s)
  equal_test : ∀ s, equal (test s) = true ↔ rax s = 0
  perform_narrow : ∀ s, perform (.signExtendByte .rax .rax) s = some (narrow s)
  rax_narrow : ∀ s, rax (narrow s) = signedByte (lowByte (rax s))

/-- The machine, whose calls and globals are those of a world, as a datapath. -/
def World.datapath (world : World) : Datapath Machine where
  perform := world.step
  rax m := m.regs .rax
  equal m := m.compared.1 = m.compared.2
  test m := { m with compared := (m.regs .rax, 0) }
  narrow m := m.set .rax (signedByte (lowByte (m.regs .rax)))
  perform_test _ := rfl
  equal_test _ := decide_eq_true_iff
  perform_narrow _ := rfl
  rax_narrow _ := rfl

/-- How an execution leaves a statement. -/
inductive Ending where
  | done
  | returned
deriving DecidableEq, Repr

/-- The line that holds a label. -/
def Code.position (lines : Code) (place : Label) : Option Nat :=
  lines.findIdx? (· == .label place)

/-- What a line performs: nothing, unless it is an instruction that does not decide which line
comes next. -/
def Line.performs : Line → List Instr
  | .instr step => if step.isControl then [] else [step]
  | _ => []

/-- What some lines perform, one after the other. -/
def Code.performs (code : Code) : List Instr := code.flatMap Line.performs

/-! ### Where code stands -/

/-- `code` stands in `lines` from line `pc` on. -/
def Code.At (lines : Code) (pc : Nat) (code : Code) : Prop :=
  ∃ before after, lines = before ++ (code ++ after) ∧ before.length = pc

section At

variable {lines first second more : Code} {line : Line} {pc : Nat}

/-- Where two pieces stand, the first one stands. -/
theorem Code.At.left (h : lines.At pc (first ++ second)) : lines.At pc first := by
  obtain ⟨before, after, hlines, hlength⟩ := h
  exact ⟨before, second ++ after, by rw [hlines, List.append_assoc], hlength⟩

/-- Where two pieces stand, the second one stands behind the first. -/
theorem Code.At.right (h : lines.At pc (first ++ second)) :
    lines.At (pc + first.length) second := by
  obtain ⟨before, after, hlines, hlength⟩ := h
  refine ⟨before ++ first, after, ?_, ?_⟩
  · rw [hlines, List.append_assoc, List.append_assoc]
  · rw [List.length_append, hlength]

theorem Code.At.head (h : lines.At pc (line :: more)) : lines[pc]? = some line := by
  obtain ⟨before, after, rfl, rfl⟩ := h
  rw [List.getElem?_append_right (Nat.le_refl _), Nat.sub_self]
  rfl

theorem Code.At.tail (h : lines.At pc (line :: more)) : lines.At (pc + 1) more := by
  have hsplit : lines.At pc ([line] ++ more) := h
  exact hsplit.right

theorem Code.At.getElem? {code : Code} (h : lines.At pc code) {i : Nat} (hi : i < code.length) :
    lines[pc + i]? = code[i]? := by
  obtain ⟨before, after, rfl, rfl⟩ := h
  rw [List.getElem?_append_right (Nat.le_add_right _ _), Nat.add_sub_cancel_left,
    List.getElem?_append_left hi]

/-- A piece of code that stands in lines stands in them, too. -/
theorem Code.At.trans {code piece : Code} {a : Nat} (h : lines.At pc code) (h' : code.At a piece) :
    lines.At (pc + a) piece := by
  obtain ⟨before, after, rfl, rfl⟩ := h
  obtain ⟨start, rest, rfl, rfl⟩ := h'
  refine ⟨before ++ start, rest ++ after, ?_, List.length_append⟩
  simp only [List.append_assoc]

theorem Code.at_self (code : Code) : code.At 0 code :=
  ⟨[], [], (List.append_nil code).symm, rfl⟩

end At

/-! ### Labels -/

/-- The label that a line holds. -/
def Line.label? : Line → Option Label
  | .label place => some place
  | _ => none

/-- The labels that some lines hold. -/
def Code.labels (lines : Code) : List Label := lines.filterMap Line.label?

theorem Code.labels_append (first second : Code) :
    Code.labels (first ++ second) = first.labels ++ second.labels :=
  List.filterMap_append

/-- The labels of code are those that its lines hold. -/
theorem Code.mem_labels_iff {lines : Code} {place : Label} :
    place ∈ lines.labels ↔ .label place ∈ lines := by
  constructor
  · intro h
    obtain ⟨line, hline, hlabel⟩ := List.mem_filterMap.1 h
    cases line with
    | label found => exact Option.some.inj hlabel ▸ hline
    | directive _ => exact nomatch hlabel
    | instr _ => exact nomatch hlabel
  · intro h
    exact List.mem_filterMap.2 ⟨.label place, h, rfl⟩

theorem Code.mem_labels {lines : Code} {place : Label} {i : Nat}
    (h : lines[i]? = some (.label place)) : place ∈ lines.labels :=
  Code.mem_labels_iff.2 (List.mem_of_getElem? h)

/-- A label that is held once is held by one line. -/
theorem Code.eq_of_nodup_labels {place : Label} : ∀ {lines : Code} {i j : Nat},
    lines.labels.Nodup → lines[i]? = some (.label place) → lines[j]? = some (.label place) → i = j
  | [], _, _, _, hi, _ => nomatch hi
  | line :: lines, 0, 0, _, _, _ => rfl
  | line :: lines, 0, j + 1, hnodup, hi, hj => by
    obtain rfl := Option.some.inj hi
    have hmem : place ∈ Code.labels lines := Code.mem_labels hj
    exact absurd hmem (List.nodup_cons.1 hnodup).1
  | line :: lines, i + 1, 0, hnodup, hi, hj => by
    obtain rfl := Option.some.inj hj
    have hmem : place ∈ Code.labels lines := Code.mem_labels hi
    exact absurd hmem (List.nodup_cons.1 hnodup).1
  | line :: lines, i + 1, j + 1, hnodup, hi, hj => by
    have hrest : (Code.labels lines).Nodup := by
      have hsublist : (Code.labels lines).Sublist (Code.labels (line :: lines)) :=
        (List.sublist_cons_self line lines).filterMap _
      exact hnodup.sublist hsublist
    rw [Code.eq_of_nodup_labels hrest hi hj]

/-- The line at the position of a label holds it. -/
theorem Code.getElem?_of_position {lines : Code} {place : Label} {i : Nat}
    (h : lines.position place = some i) : lines[i]? = some (.label place) := by
  obtain ⟨hlength, hline, -⟩ := List.findIdx?_eq_some_iff_getElem.1 h
  rw [List.getElem?_eq_getElem hlength, eq_of_beq hline]

/-- A label that some line holds is found. -/
theorem Code.exists_position {lines : Code} {place : Label} (h : .label place ∈ lines) :
    ∃ i, lines.position place = some i := by
  have hfound : (lines.position place).isSome := by
    unfold Code.position
    rw [List.findIdx?_isSome]
    exact List.any_eq_true.2 ⟨.label place, h, beq_self_eq_true _⟩
  exact Option.isSome_iff_exists.1 hfound

/-- A jump goes to the line that holds its label. -/
theorem Code.position_eq {lines : Code} (hnodup : lines.labels.Nodup) {place : Label} {i : Nat}
    (h : lines[i]? = some (.label place)) : lines.position place = some i := by
  obtain ⟨j, hj⟩ := Code.exists_position (List.mem_of_getElem? h)
  rw [hj, Code.eq_of_nodup_labels hnodup (Code.getElem?_of_position hj) h]

/-- Instructions that come one after the other. -/
def Code.Straight (code : Code) : Prop :=
  ∀ line ∈ code, ∃ step : Instr, line = .instr step ∧ step.isControl = false

namespace Datapath

variable {σ : Type}

/-- Performs instructions one after the other. -/
def exec (D : Datapath σ) : Code → σ → Option σ
  | [], s => some s
  | .instr step :: more, s => (D.perform step s).bind (D.exec more)
  | .label _ :: more, s | .directive _ :: more, s => D.exec more s

/-- On the machine, code that is performed is code that is run. -/
theorem exec_datapath (world : World) : ∀ (code : Code) (m : Machine),
    world.datapath.exec code m = world.run code m
  | [], _ => rfl
  | .instr step :: more, m => by
    show (world.step step m).bind (world.datapath.exec more)
      = (world.step step m).bind (world.run more)
    congr 1
    funext n
    exact exec_datapath world more n
  | .label _ :: more, m => exec_datapath world more m
  | .directive _ :: more, m => exec_datapath world more m

variable (D : Datapath σ)

/-- Takes one line: the line that comes next, and the state then. -/
def next (lines : Code) (pc : Nat) (s : σ) : Option (Nat × σ) :=
  match lines[pc]? with
  | none | some (.instr .ret) => none
  | some (.label _) | some (.directive _) => some (pc + 1, s)
  | some (.instr (.jump target)) => (lines.position target).map (·, s)
  | some (.instr (.jumpIfEqual target)) =>
    if D.equal s then (lines.position target).map (·, s) else some (pc + 1, s)
  | some (.instr step) => (D.perform step s).map (pc + 1, ·)

/-- The line that ends a function. -/
def returns (name : String) : Line := .instr (.jump (.returnOf name))

/-- An execution of `n` lines between `lo` and `hi` that comes from line `pc` to line `pc'`.  It
takes no line that ends the function. -/
inductive Within (lines : Code) (name : String) (lo hi : Nat) :
    Nat → Nat → σ → List Instr → Nat → σ → Prop where
  | refl (pc : Nat) (s : σ) : Within lines name lo hi 0 pc s [] pc s
  | step {n pc pc' pc'' : Nat} {s u t : σ} {line : Line} {rest : List Instr} :
    lo ≤ pc → pc < hi → lines[pc]? = some line → line ≠ returns name →
      D.next lines pc s = some (pc', u) → Within lines name lo hi n pc' u rest pc'' t →
        Within lines name lo hi (n + 1) pc s (line.performs ++ rest) pc'' t

/-- An execution of `n` lines that starts at line `pc` and leaves the lines between `lo` and
`hi`. -/
def Exits (lines : Code) (name : String) (lo hi n pc : Nat) (s : σ) :
    Ending → List Instr → σ → Prop
  | .done, performed, t => D.Within lines name lo hi n pc s performed hi t
  | .returned, performed, t => ∃ last, lo ≤ last ∧ last < hi ∧ lines[last]? = some (returns name)
      ∧ D.Within lines name lo hi n pc s performed last t

variable {D} {lines : Code} {name : String} {lo hi a b n m pc pc' : Nat} {s u t : σ}
  {performed first second : List Instr} {out : Ending}

/-! ### Executions -/

/-- Two executions, one behind the other, are one. -/
theorem Within.trans (h : D.Within lines name lo hi n pc s first pc' u) {last : Nat}
    (h' : D.Within lines name lo hi m pc' u second last t) :
    D.Within lines name lo hi (n + m) pc s (first ++ second) last t := by
  induction h with
  | refl pc s =>
    rw [Nat.zero_add, List.nil_append]
    exact h'
  | @step n _ _ _ _ _ _ _ _ hlo hhi hline hreturns hnext _ ih =>
    rw [Nat.add_right_comm, List.append_assoc]
    exact .step hlo hhi hline hreturns hnext (ih h')

/-- A longer stretch allows more executions. -/
theorem Within.widen (h : D.Within lines name a b n pc s performed pc' t) (ha : lo ≤ a)
    (hb : b ≤ hi) : D.Within lines name lo hi n pc s performed pc' t := by
  induction h with
  | refl pc s => exact .refl pc s
  | step hlo hhi hline hreturns hnext _ ih =>
    exact .step (Nat.le_trans ha hlo) (Nat.lt_of_lt_of_le hhi hb) hline hreturns hnext ih

/-- A stretch that is left at its end only, apart from lines that end the function. -/
def Closed (D : Datapath σ) (lines : Code) (name : String) (a b : Nat) : Prop :=
  ∀ pc s pc' u, a ≤ pc → pc < b → lines[pc]? ≠ some (returns name) →
    D.next lines pc s = some (pc', u) → a ≤ pc' ∧ pc' ≤ b

/-- An execution that starts in a closed stretch stays in it, or it comes to its end. -/
theorem Within.split (hclosed : D.Closed lines name a b)
    (h : D.Within lines name lo hi n pc s performed pc' t) (ha : a ≤ pc) (hb : pc ≤ b) :
    (D.Within lines name a b n pc s performed pc' t ∧ a ≤ pc' ∧ pc' < b)
      ∨ ∃ k m u first second, n = k + m ∧ performed = first ++ second
        ∧ D.Within lines name a b k pc s first b u
        ∧ D.Within lines name lo hi m b u second pc' t := by
  induction h with
  -- An execution that has ended may have ended at the end of the stretch.
  | refl pc s =>
    rcases Nat.lt_or_ge pc b with hlt | hge
    · exact Or.inl ⟨.refl pc s, ha, hlt⟩
    · obtain rfl := Nat.le_antisymm hb hge
      exact Or.inr ⟨0, 0, s, [], [], rfl, rfl, .refl _ s, .refl _ s⟩
  | @step n pc next last s v t line rest hlo hhi hline hreturns hnext hrest ih =>
    rcases Nat.lt_or_ge pc b with hlt | hge
    · have hreturns' : lines[pc]? ≠ some (returns name) := by
        rw [hline]
        exact fun heq => hreturns (Option.some.inj heq)
      -- The step stays in the stretch or comes to its end, so the rest of the execution splits.
      obtain ⟨hlow, hhigh⟩ := hclosed pc s next v ha hlt hreturns' hnext
      rcases ih hlow hhigh with ⟨hin, hlast⟩ | ⟨k, m, u, first, second, rfl, rfl, hfirst, hsecond⟩
      · exact Or.inl ⟨.step ha hlt hline hreturns hnext hin, hlast⟩
      · refine Or.inr ⟨k + 1, m, u, line.performs ++ first, second, ?_, ?_, ?_, hsecond⟩
        · omega
        · rw [List.append_assoc]
        · exact .step ha hlt hline hreturns hnext hfirst
    -- The execution starts at the end of the stretch: all of it comes afterwards.
    · obtain rfl := Nat.le_antisymm hb hge
      exact Or.inr ⟨0, n + 1, s, [], line.performs ++ rest, (Nat.zero_add _).symm, rfl, .refl _ s,
        .step hlo hhi hline hreturns hnext hrest⟩

/-! ### Leaving a stretch -/

/-- A return out of a stretch is one out of a longer stretch. -/
theorem Exits.widen (h : D.Exits lines name a b n pc s .returned performed t) (ha : lo ≤ a)
    (hb : b ≤ hi) : D.Exits lines name lo hi n pc s .returned performed t := by
  obtain ⟨last, hlow, hhigh, hline, hwithin⟩ := h
  exact ⟨last, Nat.le_trans ha hlow, Nat.lt_of_lt_of_le hhigh hb, hline, hwithin.widen ha hb⟩

/-- What an execution does first may be put in front of it. -/
theorem Within.exits (h : D.Within lines name lo hi n pc s first pc' u)
    (h' : D.Exits lines name lo hi m pc' u out second t) :
    D.Exits lines name lo hi (n + m) pc s out (first ++ second) t := by
  cases out with
  | done => exact h.trans h'
  | returned =>
    obtain ⟨last, hlow, hhigh, hline, hwithin⟩ := h'
    exact ⟨last, hlow, hhigh, hline, h.trans hwithin⟩

/-- At its end a stretch has been left. -/
theorem exits_end : D.Exits lines name lo hi n hi s out performed t
    ↔ n = 0 ∧ out = .done ∧ performed = [] ∧ t = s := by
  constructor
  · intro h
    cases out with
    | done =>
      cases h with
      | refl => exact ⟨rfl, rfl, rfl, rfl⟩
      | step _ hhi => exact absurd hhi (Nat.lt_irrefl _)
    | returned =>
      obtain ⟨last, _, hlast, _, hwithin⟩ := h
      cases hwithin with
      | refl => exact absurd hlast (Nat.lt_irrefl _)
      | step _ hhi => exact absurd hhi (Nat.lt_irrefl _)
  · rintro ⟨rfl, rfl, rfl, rfl⟩
    exact .refl hi t

/-- A line that ends the function ends the execution. -/
theorem exits_returns (hlo : lo ≤ pc) (hhi : pc < hi) (hline : lines[pc]? = some (returns name)) :
    D.Exits lines name lo hi n pc s out performed t
      ↔ n = 0 ∧ out = .returned ∧ performed = [] ∧ t = s := by
  constructor
  · intro h
    cases out with
    | done =>
      cases h with
      | refl => exact absurd hhi (Nat.lt_irrefl _)
      | step _ _ hline' hreturns =>
        rw [hline] at hline'
        exact absurd (Option.some.inj hline').symm hreturns
    | returned =>
      obtain ⟨last, _, _, _, hwithin⟩ := h
      cases hwithin with
      | refl => exact ⟨rfl, rfl, rfl, rfl⟩
      | step _ _ hline' hreturns =>
        rw [hline] at hline'
        exact absurd (Option.some.inj hline').symm hreturns
  · rintro ⟨rfl, rfl, rfl, rfl⟩
    exact ⟨pc, hlo, hhi, hline, .refl pc t⟩

/-- Any other line is taken, if that is possible. -/
theorem exits_line {line : Line} (hlo : lo ≤ pc) (hhi : pc < hi) (hline : lines[pc]? = some line)
    (hreturns : line ≠ returns name) :
    D.Exits lines name lo hi n pc s out performed t
      ↔ ∃ m rest pc' u, n = m + 1 ∧ performed = line.performs ++ rest
        ∧ D.next lines pc s = some (pc', u) ∧ D.Exits lines name lo hi m pc' u out rest t := by
  constructor
  · intro h
    -- The line is no jump to the end of the function, so leaving starts with a step either way.
    cases out with
    | done =>
      cases h with
      | refl => exact absurd hhi (Nat.lt_irrefl _)
      | step _ _ hline' _ hnext hrest =>
        obtain rfl := Option.some.inj (hline.symm.trans hline')
        exact ⟨_, _, _, _, rfl, rfl, hnext, hrest⟩
    | returned =>
      obtain ⟨last, hlow, hhigh, hlast, hwithin⟩ := h
      cases hwithin with
      | refl => exact absurd (Option.some.inj (hline.symm.trans hlast)) hreturns
      | step _ _ hline' _ hnext hrest =>
        obtain rfl := Option.some.inj (hline.symm.trans hline')
        exact ⟨_, _, _, _, rfl, rfl, hnext, last, hlow, hhigh, hlast, hrest⟩
  · rintro ⟨m, rest, pc', u, rfl, rfl, hnext, hexits⟩
    cases out with
    | done => exact .step hlo hhi hline hreturns hnext hexits
    | returned =>
      obtain ⟨last, hlow, hhigh, hlast, hwithin⟩ := hexits
      exact ⟨last, hlow, hhigh, hlast, .step hlo hhi hline hreturns hnext hwithin⟩

/-- A line from which the next one is known. -/
theorem exits_step {line : Line} (hlo : lo ≤ pc) (hhi : pc < hi) (hline : lines[pc]? = some line)
    (hreturns : line ≠ returns name) (hnext : D.next lines pc s = some (pc', u)) :
    D.Exits lines name lo hi n pc s out performed t
      ↔ ∃ m rest, n = m + 1 ∧ performed = line.performs ++ rest
        ∧ D.Exits lines name lo hi m pc' u out rest t := by
  rw [exits_line hlo hhi hline hreturns]
  constructor
  · rintro ⟨m, rest, pc'', v, hn, hperformed, hnext', hexits⟩
    obtain ⟨rfl, rfl⟩ := Prod.mk.inj (Option.some.inj (hnext.symm.trans hnext'))
    exact ⟨m, rest, hn, hperformed, hexits⟩
  · rintro ⟨m, rest, hn, hperformed, hexits⟩
    exact ⟨m, rest, pc', u, hn, hperformed, hnext, hexits⟩

/-- A stretch inside the stretch is left at its end, or the function is left from it. -/
theorem exits_inner (hclosed : D.Closed lines name a b) (hab : a ≤ b) (ha : lo ≤ a) (hb : b ≤ hi) :
    D.Exits lines name lo hi n a s out performed t
      ↔ (∃ k m u first second, n = k + m ∧ performed = first ++ second
          ∧ D.Exits lines name a b k a s .done first u
          ∧ D.Exits lines name lo hi m b u out second t)
        ∨ (out = .returned ∧ D.Exits lines name a b n a s .returned performed t) := by
  constructor
  · intro h
    -- It comes through the end of the inner stretch, or it returns from inside of it.
    cases out with
    | done =>
      rcases Within.split hclosed h (Nat.le_refl a) hab with ⟨_, _, hlt⟩ | hsplit
      · exact absurd hlt (Nat.not_lt.2 hb)
      · exact Or.inl hsplit
    | returned =>
      obtain ⟨last, hlow, hhigh, hline, hwithin⟩ := h
      rcases Within.split hclosed hwithin (Nat.le_refl a) hab with ⟨hin, hal, hlb⟩ | hsplit
      · exact Or.inr ⟨rfl, last, hal, hlb, hline, hin⟩
      · obtain ⟨k, m, u, first, second, hn, hperformed, hfirst, hsecond⟩ := hsplit
        exact Or.inl ⟨k, m, u, first, second, hn, hperformed, hfirst,
          last, hlow, hhigh, hline, hsecond⟩
  · rintro (⟨k, m, u, first, second, rfl, rfl, hfirst, hsecond⟩ | ⟨rfl, hreturned⟩)
    · exact (Within.widen hfirst ha hb).exits hsecond
    · exact hreturned.widen ha hb

/-! ### Straight code -/

/-- A label does nothing. -/
theorem next_label {place : Label} (h : lines[pc]? = some (.label place)) :
    D.next lines pc s = some (pc + 1, s) := by
  rw [next, h]

/-- A jump goes to the line of its label, if there is one. -/
theorem next_jump {target : Label} (h : lines[pc]? = some (.instr (.jump target))) :
    D.next lines pc s = (lines.position target).map (·, s) := by
  rw [next, h]

/-- A conditional jump goes on to the next line if the flag is not set. -/
theorem next_jumpIfEqual {target : Label} (h : lines[pc]? = some (.instr (.jumpIfEqual target))) :
    D.next lines pc s
      = if D.equal s then (lines.position target).map (·, s) else some (pc + 1, s) := by
  rw [next, h]

/-- Any other instruction is performed, and the next line follows. -/
theorem next_instr {step : Instr} (h : lines[pc]? = some (.instr step))
    (hstep : step.isControl = false) :
    D.next lines pc s = (D.perform step s).map (pc + 1, ·) := by
  rw [next, h]
  cases step with
  | jump _ => exact nomatch hstep
  | jumpIfEqual _ => exact nomatch hstep
  | ret => exact nomatch hstep
  | _ => rfl

/-- Straight code is performed from its first line to its last. -/
theorem exits_straight : ∀ {code : Code} {pc n : Nat} {s : σ} {performed : List Instr},
    code.Straight → lines.At pc code → lo ≤ pc → pc + code.length ≤ hi →
      (D.Exits lines name lo hi n pc s out performed t
        ↔ ∃ u m rest, D.exec code s = some u ∧ n = code.length + m
          ∧ performed = code.performs ++ rest
          ∧ D.Exits lines name lo hi m (pc + code.length) u out rest t)
  | [], pc, n, s, performed, _, _, _, _ => by
    constructor
    · intro h
      exact ⟨s, n, performed, rfl, (Nat.zero_add n).symm, rfl, h⟩
    · rintro ⟨u, m, rest, hexec, hn, rfl, hexits⟩
      obtain rfl := Option.some.inj hexec
      rw [hn, List.length_nil, Nat.zero_add]
      exact hexits
  | line :: code, pc, n, s, performed, hstraight, hat, hlo, hhi => by
    obtain ⟨step, rfl, hstep⟩ := hstraight line List.mem_cons_self
    rw [List.length_cons] at hhi
    have hrest : Code.Straight code := fun l hl => hstraight l (List.mem_cons_of_mem _ hl)
    -- The line is no jump, so it is taken and does not end the function.
    have hreturns : Line.instr step ≠ returns name := by
      intro heq
      obtain rfl := Line.instr.inj heq
      exact nomatch hstep
    have hline : Line.performs (.instr step) = [step] := by
      rw [Line.performs, if_neg (by rw [hstep]; decide)]
    have hperforms : Code.performs (.instr step :: code) = [step] ++ Code.performs code := by
      rw [← hline]
      rfl
    have hlength : pc + (Line.instr step :: code).length = pc + 1 + code.length := by
      rw [List.length_cons]
      omega
    rw [exits_line hlo (by omega) hat.head hreturns, next_instr hat.head hstep, hperforms, hlength,
      hline]
    constructor
    -- The line is performed first, and the induction hypothesis is about the lines behind it.
    · rintro ⟨m, rest, pc', v, rfl, rfl, hnext, hexits⟩
      obtain ⟨v', hperform, heq⟩ := Option.map_eq_some_iff.1 hnext
      obtain ⟨rfl, rfl⟩ := Prod.mk.inj heq
      obtain ⟨u, k, rest', hexec, rfl, rfl, hexits'⟩ :=
        (exits_straight hrest hat.tail (by omega) (by omega)).1 hexits
      refine ⟨u, k, rest', ?_, ?_, rfl, hexits'⟩
      · show (D.perform step s).bind (D.exec code) = some u
        rw [hperform]
        exact hexec
      · rw [List.length_cons]
        omega
    · rintro ⟨u, m, rest, hexec, rfl, rfl, hexits⟩
      obtain ⟨v, hperform, hexec⟩ := Option.bind_eq_some_iff.1 hexec
      refine ⟨code.length + m, Code.performs code ++ rest, pc + 1, v, ?_, rfl, ?_, ?_⟩
      · rw [List.length_cons]
        omega
      · rw [hperform]
        rfl
      · exact (exits_straight hrest hat.tail (by omega) (by omega)).2
          ⟨u, m, rest, hexec, rfl, rfl, hexits⟩

end Datapath

end PocketCompiler
