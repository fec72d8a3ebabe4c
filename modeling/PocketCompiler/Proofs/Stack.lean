import Mathlib.Logic.Relation
import PocketCompiler.Proofs.Jump

/-!
# Words that wait on the stack

Two ways to look at the stack of a routine.  Read as text, its lines are scanned from the first to
the last with a counter: a push or `sub rsp, 8` counts up, a pop or `add rsp, 8` counts down
(`Code.counter`), and `Code.Disciplined` says what the counter has to be at labels, jumps and calls.
Executed, every instruction moves the stack pointer by some bytes (`Instr.moves`), and
`Datapath.tracked` follows it along an execution.

`Code.scan` computes the counter and checks the discipline at once.  Since it is zero at every label
and every jump, the place of the stack pointer at a line does not depend on the way that led there:
`moves_of_reaches` finds it by adding up the lines in front.
-/

namespace PocketCompiler

/-! ### The stack pointer -/

/-- The register that an instruction names as its destination. -/
def Instr.dst? : Instr → Option Reg
  | .move dst _ | .moveConst dst _ | .frameAddress dst _ | .globalAddress dst _ | .load dst _
  | .loadByte dst _ | .negate dst | .add dst _ | .sub dst _ | .multiply dst _ | .addConst dst _
  | .subConst dst _ | .setIf _ dst | .zeroExtendByte dst _ | .signExtendByte dst _ | .pop dst =>
    some dst
  | _ => none

/-- The bytes by which an instruction moves the stack pointer, if their number is known.  A call
leaves the stack pointer where it was. -/
def Instr.moves : Instr → Option Int
  | .push _ => some (-8)
  | .pop dst => if dst = .rsp then none else some 8
  | .addConst dst value => if dst = .rsp then some value else some 0
  | .subConst dst value => if dst = .rsp then some (-value) else some 0
  | step => if step.dst? = some .rsp then none else some 0

/-- The bytes by which a line moves the stack pointer. -/
def Line.moves : Line → Option Int
  | .instr step => step.moves
  | .label _ | .directive _ => some 0

/-- The bytes by which lines move the stack pointer, when they are taken one after the other. -/
def Code.moves : Code → Option Int
  | [] => some 0
  | line :: more => line.moves.bind fun first => (Code.moves more).map (first + ·)

theorem Code.moves_append {first second : Code} {a b : Int} (hfirst : first.moves = some a)
    (hsecond : second.moves = some b) : Code.moves (first ++ second) = some (a + b) := by
  induction first generalizing a with
  | nil =>
    obtain rfl := Option.some.inj hfirst
    rw [List.nil_append, hsecond, Int.zero_add]
  | cons line more ih =>
    obtain ⟨c, hline, hrest⟩ := Option.bind_eq_some_iff.1 hfirst
    obtain ⟨d, hmore, rfl⟩ := Option.map_eq_some_iff.1 hrest
    show line.moves.bind (fun first => (Code.moves (more ++ second)).map (first + ·)) = _
    rw [hline, ih hmore, Option.bind_some, Option.map_some, Int.add_assoc]

/-! ### The counter -/

/-- What a line adds to the words that wait on the stack. -/
def Line.lift : Line → Int
  | .instr (.push src) => if src = .rax then 1 else 0
  | .instr (.subConst dst value) => if dst = .rsp ∧ value = 8 then 1 else 0
  | .instr (.pop _) => -1
  | .instr (.addConst dst value) => if dst = .rsp ∧ value = 8 then -1 else 0
  | _ => 0

/-- The words that wait on the stack behind some lines, read as text. -/
def Code.counter : Code → Int
  | [] => 0
  | line :: more => line.lift + Code.counter more

/-- A line where ways part or meet: a label or a jump. -/
def Line.isJoint : Line → Bool
  | .label _ | .instr (.jump _) | .instr (.jumpIfEqual _) => true
  | _ => false

/-- The counter is never negative; it is zero at labels and jumps, and even at calls. -/
structure Code.Disciplined (code : Code) : Prop where
  nonneg : ∀ before after : Code, code = before ++ after → 0 ≤ before.counter
  joint : ∀ (before : Code) line after, code = before ++ line :: after → line.isJoint = true →
    before.counter = 0
  call : ∀ (before : Code) name after, code = before ++ .instr (.call name) :: after →
    2 ∣ before.counter

/-- The words that wait behind a line, if `height` wait before it and the line may stand there. -/
def Line.scan (height : Nat) : Line → Option Nat
  | .label _ | .instr (.jump _) | .instr (.jumpIfEqual _) => if height = 0 then some 0 else none
  | .instr (.call _) => if height % 2 = 0 then some height else none
  | .instr (.push src) => if src = .rax then some (height + 1) else none
  | .instr (.subConst dst value) => if dst = .rsp ∧ value = 8 then some (height + 1) else none
  | .instr (.pop dst) => if dst ≠ .rsp ∧ 0 < height then some (height - 1) else none
  | .instr (.addConst dst value) =>
    if (dst = .rsp ∧ value = 8) ∧ 0 < height then some (height - 1) else none
  | .instr step => if step.dst? = some .rsp then none else some height
  | .directive _ => none

/-- The words that wait behind some lines, if `height` wait before them and each line may stand
where it stands. -/
def Code.scan (height : Nat) : Code → Option Nat
  | [] => some height
  | line :: more => (line.scan height).bind fun next => Code.scan next more

theorem Code.scan_append (height : Nat) (first second : Code) :
    Code.scan height (first ++ second) = (first.scan height).bind fun next => second.scan next := by
  induction first generalizing height with
  | nil => rfl
  | cons line more ih =>
    show (line.scan height).bind (fun next => Code.scan next (more ++ second)) = _
    rw [Code.scan, Option.bind_assoc]
    congr 1
    funext next
    exact ih next

/-- What a line that may stand somewhere does to the counter and to the stack pointer. -/
theorem Line.scan_spec {line : Line} {height next : Nat} (h : line.scan height = some next) :
    (next : Int) = height + line.lift ∧ line.moves = some (8 * (height : Int) - 8 * next) := by
  -- Each kind of line that changes the height has its own case; all others leave it alone.
  cases line with
  | label place =>
    simp only [scan, Option.ite_none_right_eq_some, Option.some.injEq] at h
    obtain ⟨rfl, rfl⟩ := h
    exact ⟨rfl, rfl⟩
  | directive order => exact nomatch h
  | instr step =>
    cases step with
    | jump target | jumpIfEqual target =>
      simp only [scan, Option.ite_none_right_eq_some, Option.some.injEq] at h
      obtain ⟨rfl, rfl⟩ := h
      exact ⟨rfl, rfl⟩
    | call name =>
      simp only [scan, Option.ite_none_right_eq_some, Option.some.injEq] at h
      obtain ⟨-, rfl⟩ := h
      refine ⟨(Int.add_zero _).symm, ?_⟩
      rw [Int.sub_self]
      rfl
    | push src =>
      simp only [scan, Option.ite_none_right_eq_some, Option.some.injEq] at h
      obtain ⟨rfl, rfl⟩ := h
      refine ⟨rfl, ?_⟩
      simp only [moves, Instr.moves, Option.some.injEq]
      omega
    | pop dst =>
      simp only [scan, Option.ite_none_right_eq_some, Option.some.injEq] at h
      obtain ⟨⟨hdst, hpos⟩, rfl⟩ := h
      simp only [moves, Instr.moves, lift, if_neg hdst, Option.some.injEq]
      omega
    | subConst dst value =>
      simp only [scan, Option.ite_none_right_eq_some, Option.some.injEq] at h
      obtain ⟨⟨rfl, rfl⟩, rfl⟩ := h
      refine ⟨rfl, ?_⟩
      simp only [moves, Instr.moves, if_true, Option.some.injEq]
      omega
    | addConst dst value =>
      simp only [scan, Option.ite_none_right_eq_some, Option.some.injEq] at h
      obtain ⟨⟨⟨rfl, rfl⟩, hpos⟩, rfl⟩ := h
      simp only [moves, Instr.moves, lift, if_true, and_self, Option.some.injEq]
      omega
    | _ =>
      simp only [scan, Option.ite_none_left_eq_some, Option.some.injEq] at h
      obtain ⟨hdst, rfl⟩ := h
      simp only [moves, Instr.moves, lift, if_neg hdst, Int.add_zero, Int.sub_self, and_self]

/-- At a label or a jump nothing may wait. -/
theorem Line.eq_zero_of_scan {line : Line} {height next : Nat} (h : line.scan height = some next)
    (hjoint : line.isJoint = true) : height = 0 := by
  have hzero : (if height = 0 then some 0 else none) = some next := by
    cases line with
    | label place => exact h
    | directive order => exact nomatch hjoint
    | instr step =>
      cases step with
      | jump target => exact h
      | jumpIfEqual target => exact h
      | _ => exact nomatch hjoint
  rw [Option.ite_none_right_eq_some] at hzero
  exact hzero.1

/-- What lines that may stand somewhere do to the counter and to the stack pointer. -/
theorem Code.scan_spec {code : Code} {height last : Nat} (h : code.scan height = some last) :
    (last : Int) = height + code.counter ∧ code.moves = some (8 * (height : Int) - 8 * last) := by
  induction code generalizing height with
  | nil =>
    obtain rfl := Option.some.inj h
    refine ⟨(Int.add_zero _).symm, ?_⟩
    rw [Int.sub_self]
    rfl
  | cons line more ih =>
    obtain ⟨next, hline, hmore⟩ := Option.bind_eq_some_iff.1 h
    obtain ⟨hnext, hfirst⟩ := Line.scan_spec hline
    obtain ⟨hlast, hrest⟩ := ih hmore
    constructor
    · rw [Code.counter]
      omega
    · show line.moves.bind (fun first => (Code.moves more).map (first + ·)) = _
      rw [hfirst, hrest, Option.bind_some, Option.map_some, Option.some.injEq]
      omega

theorem Code.scan_append_eq_some {first second : Code} {height last : Nat}
    (h : Code.scan height (first ++ second) = some last) :
    ∃ middle, first.scan height = some middle ∧ second.scan middle = some last := by
  rw [Code.scan_append] at h
  exact Option.bind_eq_some_iff.1 h

/-- Lines that can be scanned with nothing waiting before them keep the discipline. -/
theorem Code.disciplined_of_scan {code : Code} {last : Nat} (h : code.scan 0 = some last) :
    code.Disciplined := by
  -- The scan of the lines in front gives the counter, and that of the others starts from it.
  have hsplit : ∀ before after : Code, code = before ++ after →
      ∃ height : Nat, before.counter = height ∧ after.scan height = some last := by
    rintro before after rfl
    obtain ⟨height, hbefore, hafter⟩ := Code.scan_append_eq_some h
    have hcounter := (Code.scan_spec hbefore).1
    exact ⟨height, by omega, hafter⟩
  refine ⟨?_, ?_, ?_⟩
  · intro before after heq
    obtain ⟨height, hcounter, -⟩ := hsplit before after heq
    omega
  · intro before line after heq hjoint
    obtain ⟨height, hcounter, hafter⟩ := hsplit before (line :: after) heq
    obtain ⟨next, hline, -⟩ := Option.bind_eq_some_iff.1 hafter
    rw [hcounter, Line.eq_zero_of_scan hline hjoint]
    rfl
  · intro before name after heq
    obtain ⟨height, hcounter, hafter⟩ := hsplit before (.instr (.call name) :: after) heq
    obtain ⟨next, hline, -⟩ := Option.bind_eq_some_iff.1 hafter
    have heven : height % 2 = 0 := by
      simp only [Line.scan, Option.ite_none_right_eq_some] at hline
      exact hline.1
    omega

/-! ### Executions -/

namespace Datapath

variable {σ : Type}

/-- A datapath together with the stack pointer. -/
def tracked (D : Datapath σ) : Datapath (σ × Int) where
  perform step s := (D.perform step s.1).bind fun t => step.moves.map fun d => (t, s.2 + d)
  rax s := D.rax s.1
  equal s := D.equal s.1
  test s := (D.test s.1, s.2)
  narrow s := (D.narrow s.1, s.2)
  perform_test s := by
    rw [D.perform_test]
    simp [Instr.moves, Instr.dst?]
  equal_test s := D.equal_test s.1
  perform_narrow s := by
    rw [D.perform_narrow]
    simp [Instr.moves, Instr.dst?]
  rax_narrow s := D.rax_narrow s.1

/-- An execution from one line, with a state, to another. -/
def Reaches (D : Datapath σ) (lines : Code) : Nat × σ → Nat × σ → Prop :=
  Relation.ReflTransGen fun c c' => D.next lines c.1 c.2 = some c'

variable {D : Datapath σ} {lines : Code} {s t : σ} {rsp rsp' : Int} {pc pc' : Nat}

/-- A step goes on behind its line, with the stack pointer moved, or to the target of a jump. -/
theorem next_tracked (h : D.tracked.next lines pc (s, rsp) = some (pc', t, rsp')) :
    (∃ line d, lines[pc]? = some line ∧ line.moves = some d ∧ pc' = pc + 1 ∧ rsp' = rsp + d)
      ∨ ∃ target, (lines[pc]? = some (.instr (.jump target))
          ∨ lines[pc]? = some (.instr (.jumpIfEqual target)))
        ∧ lines.position target = some pc' ∧ rsp' = rsp := by
  -- Labels, directives and jumps that are not taken leave the stack pointer alone.
  have hfalls : ∀ line, lines[pc]? = some line → line.moves = some 0 →
      some (pc + 1, (s, rsp)) = some (pc', t, rsp') →
        ∃ line d, lines[pc]? = some line ∧ line.moves = some d ∧ pc' = pc + 1 ∧ rsp' = rsp + d := by
    intro line hline hmoves heq
    simp only [Option.some.injEq, Prod.mk.injEq] at heq
    exact ⟨line, 0, hline, hmoves, heq.1.symm, by omega⟩
  -- Jumps that are taken leave it alone, too.
  have hjumps : ∀ target, (lines.position target).map (·, (s, rsp)) = some (pc', t, rsp') →
      lines.position target = some pc' ∧ rsp' = rsp := by
    intro target hmap
    obtain ⟨q, hq, heq⟩ := Option.map_eq_some_iff.1 hmap
    simp only [Prod.mk.injEq] at heq
    exact ⟨heq.1 ▸ hq, heq.2.2.symm⟩
  cases hline : lines[pc]? with
  | none =>
    rw [next, hline] at h
    cases h
  | some line =>
    cases line with
    | label place =>
      rw [next_label hline] at h
      exact Or.inl (hline ▸ hfalls _ hline rfl h)
    | directive order =>
      rw [next, hline] at h
      exact Or.inl (hline ▸ hfalls _ hline rfl h)
    | instr step =>
      by_cases hstep : step.isControl = false
      -- An instruction that is performed moves the stack pointer by what its kind says.
      · rw [next_instr hline hstep] at h
        obtain ⟨⟨u, r⟩, hperform, heq⟩ := Option.map_eq_some_iff.1 h
        obtain ⟨v, -, hmoved⟩ := Option.bind_eq_some_iff.1 hperform
        obtain ⟨d, hd, hpair⟩ := Option.map_eq_some_iff.1 hmoved
        simp only [Prod.mk.injEq] at heq hpair
        exact Or.inl ⟨_, d, rfl, hd, heq.1.symm, by omega⟩
      · cases step with
        | jump target =>
          rw [next_jump hline] at h
          exact Or.inr ⟨target, Or.inl rfl, hjumps target h⟩
        | jumpIfEqual target =>
          rw [next_jumpIfEqual hline] at h
          split at h
          · exact Or.inr ⟨target, Or.inr rfl, hjumps target h⟩
          · exact Or.inl (hline ▸ hfalls _ hline rfl h)
        | ret =>
          rw [next, hline] at h
          cases h
        | _ => exact absurd rfl hstep

/-- **The stack pointer is where the lines in front of the program counter put it**, whichever way
led there, if jumps join places with the same lines in front as far as the stack pointer goes. -/
theorem moves_of_reaches {stop : Nat} {c : Nat × σ × Int}
    (hstop : ∀ line, lines[stop]? = some line → line.moves = none)
    (hjoin : ∀ i target j, i ≤ stop → (lines[i]? = some (.instr (.jump target))
      ∨ lines[i]? = some (.instr (.jumpIfEqual target))) → lines.position target = some j →
        j ≤ stop ∧ Code.moves (lines.take i) = Code.moves (lines.take j))
    (h : D.tracked.Reaches lines (0, s, rsp) c) :
    c.1 ≤ stop ∧ Code.moves (lines.take c.1) = some (c.2.2 - rsp) := by
  induction h with
  | refl =>
    refine ⟨Nat.zero_le _, ?_⟩
    rw [Int.sub_self]
    rfl
  | @tail c c' _ hnext ih =>
    obtain ⟨pc, u, r⟩ := c
    obtain ⟨pc', v, r'⟩ := c'
    obtain ⟨hle, hmoves⟩ := ih
    rcases next_tracked hnext with ⟨line, d, hline, hd, rfl, rfl⟩ | ⟨target, hjump, hposition, rfl⟩
    -- The line is one more in front of the next program counter.
    · have hne : pc ≠ stop := by
        rintro rfl
        exact nomatch (hstop line hline).symm.trans hd
      have htake : lines.take (pc + 1) = lines.take pc ++ [line] := by
        rw [List.take_add_one, hline]
        rfl
      have hone : Code.moves [line] = some (d + 0) := by
        show line.moves.bind _ = _
        rw [hd]
        rfl
      refine ⟨by omega, ?_⟩
      show Code.moves (lines.take (pc + 1)) = some (r + d - rsp)
      rw [htake, Code.moves_append hmoves hone, Option.some.injEq]
      show r - rsp + (d + 0) = r + d - rsp
      omega
    -- The lines in front are different ones, but they move the stack pointer by as much.
    · obtain ⟨hle', heq⟩ := hjoin pc target pc' hle hjump hposition
      refine ⟨hle', ?_⟩
      rw [← heq]
      exact hmoves

end Datapath

end PocketCompiler
