import PocketCompiler.Proofs.Lower.Labels
import PocketCompiler.Proofs.Structured

/-!
# Conditionals, loops and returns are lowered correctly

The code of a statement does what the statement does: `Routine.Means` compares the executions that
leave a stretch of lines with the effect of a statement, and `means_stmtFrom` says that the code of a
statement means the statement, wherever it stands among lines whose labels are distinct.

The rules for lines come first, then one lemma for each kind of statement.  A loop is the only
statement whose code is taken more than once; one direction of its lemma is by induction on the
number of lines that are taken, the other by induction on the rounds of the loop.
-/

namespace PocketCompiler

/-! ### Expressions as steps -/

/-- The code of an expression between statements. -/
def Routine.codeOf (routine : Routine) (node : Node) : Code :=
  match (Lower.expr routine node).run {} with
  | .ok (code, _) => code
  | .error _ => []

theorem Routine.codeOf_eq {routine : Routine} {node : Node} {code : Code}
    (h : Lower.exprAt routine 0 node = .ok code) : routine.codeOf node = code := by
  have hrun : (Lower.expr routine node).run {} = .ok (code, {}) :=
    Lower.run_expr_eq_ok_iff.2 ⟨h, rfl⟩
  rw [Routine.codeOf, hrun]

/-- The statements of a routine, when an expression does what its code does. -/
def Routine.statements {σ : Type} (routine : Routine) (D : Datapath σ) : Statements σ where
  evaluate node := D.exec (routine.codeOf node)
  rax := D.rax
  test := D.test
  narrow := D.narrow
  narrows := routine.returnsChar

/-- The instructions that an action stands for. -/
def Routine.performs (routine : Routine) : Action → List Instr
  | .evaluate node => (routine.codeOf node).performs
  | .test => [.compareConst .rax 0]
  | .narrow => [.signExtendByte .rax .rax]

/-- The lines from `lo` up to `hi` do what a statement with this effect does. -/
def Routine.Means {σ : Type} (routine : Routine) (D : Datapath σ) (lines : Code) (lo hi : Nat)
    (effect : Effect σ) : Prop :=
  ∀ s out performed t, (∃ n, D.Exits lines routine.name lo hi n lo s out performed t)
    ↔ ∃ actions, effect s actions out t ∧ performed = actions.flatMap routine.performs

namespace Lower

variable {σ : Type} {D : Datapath σ} {routine : Routine} {lines code : Code}
  {lo hi a b n pc : Nat} {s t : σ} {performed : List Instr} {out : Ending}

/-! ### Lines -/

theorem exits_label {place : Label} (hlo : lo ≤ pc) (hhi : pc < hi)
    (hline : lines[pc]? = some (.label place)) :
    D.Exits lines routine.name lo hi n pc s out performed t
      ↔ ∃ m, n = m + 1 ∧ D.Exits lines routine.name lo hi m (pc + 1) s out performed t := by
  have hreturns : Line.label place ≠ Datapath.returns routine.name := fun heq => nomatch heq
  rw [Datapath.exits_step hlo hhi hline hreturns (Datapath.next_label hline)]
  constructor
  · rintro ⟨m, rest, hn, rfl, hexits⟩
    exact ⟨m, hn, hexits⟩
  · rintro ⟨m, hn, hexits⟩
    exact ⟨m, performed, hn, rfl, hexits⟩

theorem exits_jump {target : Label} {q : Nat} (hlo : lo ≤ pc) (hhi : pc < hi)
    (hline : lines[pc]? = some (.instr (.jump target))) (htarget : target ≠ .returnOf routine.name)
    (hposition : lines.position target = some q) :
    D.Exits lines routine.name lo hi n pc s out performed t
      ↔ ∃ m, n = m + 1 ∧ D.Exits lines routine.name lo hi m q s out performed t := by
  have hreturns : Line.instr (.jump target) ≠ Datapath.returns routine.name := fun heq =>
    htarget (Instr.jump.inj (Line.instr.inj heq))
  have hnext : D.next lines pc s = some (q, s) := by
    rw [Datapath.next_jump hline, hposition]
    rfl
  rw [Datapath.exits_step hlo hhi hline hreturns hnext]
  constructor
  · rintro ⟨m, rest, hn, rfl, hexits⟩
    exact ⟨m, hn, hexits⟩
  · rintro ⟨m, hn, hexits⟩
    exact ⟨m, performed, hn, rfl, hexits⟩

/-- A test goes on at its target if the value is zero, and else behind it. -/
theorem exits_unlessTrue {target : Label} {q : Nat} (hlo : lo ≤ pc) (hhi : pc + 2 ≤ hi)
    (hat : lines.At pc (unlessTrue target)) (hposition : lines.position target = some q) :
    D.Exits lines routine.name lo hi n pc s out performed t
      ↔ ∃ m rest, n = m + 2 ∧ performed = routine.performs .test ++ rest
        ∧ D.Exits lines routine.name lo hi m (if D.rax s = 0 then q else pc + 2) (D.test s) out
          rest t := by
  have hcompare : lines[pc]? = some (.instr (.compareConst .rax 0)) := hat.head
  have hjump : lines[pc + 1]? = some (.instr (.jumpIfEqual target)) := hat.tail.head
  have hfirst : D.next lines pc s = some (pc + 1, D.test s) := by
    rw [Datapath.next_instr hcompare rfl, D.perform_test]
    rfl
  have hsecond : D.next lines (pc + 1) (D.test s)
      = some (if D.rax s = 0 then q else pc + 2, D.test s) := by
    rw [Datapath.next_jumpIfEqual hjump, hposition]
    by_cases hzero : D.rax s = 0
    · rw [if_pos ((D.equal_test s).2 hzero), if_pos hzero]
      rfl
    · rw [if_neg (fun hequal => hzero ((D.equal_test s).1 hequal)), if_neg hzero]
  -- The comparison is performed; the jump is only taken.
  rw [Datapath.exits_step hlo (by omega) hcompare (fun heq => nomatch heq) hfirst]
  constructor
  · rintro ⟨m, rest, rfl, rfl, hexits⟩
    rw [Datapath.exits_step (by omega) (by omega) hjump (fun heq => nomatch heq) hsecond] at hexits
    obtain ⟨k, rest', rfl, rfl, hexits⟩ := hexits
    exact ⟨k, _, rfl, rfl, hexits⟩
  · rintro ⟨m, rest, rfl, rfl, hexits⟩
    refine ⟨m + 1, rest, rfl, rfl, ?_⟩
    rw [Datapath.exits_step (by omega) (by omega) hjump (fun heq => nomatch heq) hsecond]
    exact ⟨m, rest, rfl, rfl, hexits⟩

/-! ### Expressions -/

theorem exits_evaluate {node : Node} (hcode : exprAt routine 0 node = .ok code)
    (hat : lines.At pc code) (hlo : lo ≤ pc) (hhi : pc + code.length ≤ hi) :
    D.Exits lines routine.name lo hi n pc s out performed t
      ↔ ∃ u m rest, (routine.statements D).evaluate node s = some u ∧ n = code.length + m
        ∧ performed = routine.performs (.evaluate node) ++ rest
        ∧ D.Exits lines routine.name lo hi m (pc + code.length) u out rest t := by
  show _ ↔ ∃ u m rest, D.exec (routine.codeOf node) s = some u ∧ n = code.length + m
    ∧ performed = (routine.codeOf node).performs ++ rest ∧ _
  rw [Routine.codeOf_eq hcode]
  exact Datapath.exits_straight (straight_exprAt hcode) hat hlo hhi

theorem exits_evaluatesSome {node : Option Node} (hcode : exprSomeAt routine node = .ok code)
    (hat : lines.At pc code) (hlo : lo ≤ pc) (hhi : pc + code.length ≤ hi) :
    D.Exits lines routine.name lo hi n pc s out performed t
      ↔ ∃ u actions m rest, (routine.statements D).evaluatesSome node s actions u
        ∧ n = code.length + m ∧ performed = actions.flatMap routine.performs ++ rest
        ∧ D.Exits lines routine.name lo hi m (pc + code.length) u out rest t := by
  cases node with
  | none =>
    obtain rfl := Except.ok.inj hcode
    constructor
    · intro hexits
      exact ⟨s, [], n, performed, ⟨rfl, rfl⟩, (Nat.zero_add n).symm, rfl, hexits⟩
    · rintro ⟨u, actions, m, rest, ⟨rfl, rfl⟩, hn, rfl, hexits⟩
      rw [hn, List.length_nil, Nat.zero_add]
      exact hexits
  | some node =>
    rw [exits_evaluate hcode hat hlo hhi]
    constructor
    · rintro ⟨u, m, rest, heval, hn, rfl, hexits⟩
      refine ⟨u, [.evaluate node], m, rest, ⟨rfl, heval⟩, hn, ?_, hexits⟩
      rw [List.flatMap_singleton]
    · rintro ⟨u, actions, m, rest, ⟨rfl, heval⟩, hn, rfl, hexits⟩
      refine ⟨u, m, rest, heval, hn, ?_, hexits⟩
      rw [List.flatMap_singleton]

/-- The guard of a loop goes on behind it if the condition holds, and else at the exit. -/
theorem exits_guard {exit : Label} {cond : Option Node} {q : Nat}
    (hcode : guardAt routine exit cond = .ok code) (hat : lines.At pc code) (hlo : lo ≤ pc)
    (hhi : pc + code.length ≤ hi) (hposition : lines.position exit = some q) :
    D.Exits lines routine.name lo hi n pc s out performed t
      ↔ (∃ u actions m rest, (routine.statements D).enters cond s actions u
          ∧ n = code.length + m ∧ performed = actions.flatMap routine.performs ++ rest
          ∧ D.Exits lines routine.name lo hi m (pc + code.length) u out rest t)
        ∨ (∃ u actions m rest, (routine.statements D).leaves cond s actions u
          ∧ n = code.length + m ∧ performed = actions.flatMap routine.performs ++ rest
          ∧ D.Exits lines routine.name lo hi m q u out rest t) := by
  cases cond with
  | none =>
    -- Without a condition there is no code, and the loop is always entered.
    obtain rfl := Except.ok.inj hcode
    constructor
    · intro hexits
      exact Or.inl ⟨s, [], n, performed, ⟨rfl, rfl⟩, (Nat.zero_add n).symm, rfl, hexits⟩
    · rintro (⟨u, actions, m, rest, ⟨rfl, rfl⟩, hn, rfl, hexits⟩ | ⟨u, actions, m, rest, hleaves, -⟩)
      · rw [hn, List.length_nil, Nat.zero_add]
        exact hexits
      · exact hleaves.elim
  | some cond =>
    -- The condition is evaluated and tested, and the test decides between the two ways.
    obtain ⟨inner, hinner, hline⟩ := bind_eq_ok_iff.1 hcode
    obtain rfl := Except.ok.inj hline
    have hlength : (inner ++ unlessTrue exit).length = inner.length + 2 := List.length_append
    rw [hlength] at hhi
    rw [hlength, exits_evaluate hinner hat.left hlo (by omega)]
    have hactions : ∀ rest, [Action.evaluate cond, .test].flatMap routine.performs ++ rest
        = routine.performs (.evaluate cond) ++ (routine.performs .test ++ rest) := fun rest =>
      List.append_assoc _ _ rest
    constructor
    -- The flag is that of the word in `rax`: a zero leaves the loop.
    · rintro ⟨u, m, rest, heval, rfl, rfl, hexits⟩
      rw [exits_unlessTrue (by omega) (by omega) hat.right hposition] at hexits
      obtain ⟨k, rest', rfl, rfl, hexits⟩ := hexits
      rw [← hactions]
      by_cases hzero : D.rax u = 0
      · rw [if_pos hzero] at hexits
        exact Or.inr ⟨D.test u, _, k, rest', ⟨u, heval, hzero, rfl, rfl⟩, by omega, rfl, hexits⟩
      · rw [if_neg hzero] at hexits
        exact Or.inl ⟨D.test u, _, k, rest', ⟨u, heval, hzero, rfl, rfl⟩, by omega, rfl, hexits⟩
    · rintro (⟨u, actions, m, rest, ⟨v, heval, hvalue, rfl, rfl⟩, rfl, rfl, hexits⟩
        | ⟨u, actions, m, rest, ⟨v, heval, hvalue, rfl, rfl⟩, rfl, rfl, hexits⟩)
      · refine ⟨v, m + 2, _, heval, by omega, hactions rest, ?_⟩
        rw [exits_unlessTrue (by omega) (by omega) hat.right hposition]
        refine ⟨m, rest, rfl, rfl, ?_⟩
        rw [if_neg (show D.rax v ≠ 0 from hvalue)]
        exact hexits
      · refine ⟨v, m + 2, _, heval, by omega, hactions rest, ?_⟩
        rw [exits_unlessTrue (by omega) (by omega) hat.right hposition]
        refine ⟨m, rest, rfl, rfl, ?_⟩
        rw [if_pos (show D.rax v = 0 from hvalue)]
        exact hexits

/-! ### Parts of a statement -/

variable {effect : Effect σ}

/-- The code of a part is left at its end or by a return. -/
theorem Means.inner (h : routine.Means D lines a b effect)
    (hclosed : D.Closed lines routine.name a b) (hab : a ≤ b) (ha : lo ≤ a) (hb : b ≤ hi) :
    (∃ n, D.Exits lines routine.name lo hi n a s out performed t)
      ↔ (∃ u actions rest, effect s actions .done u
          ∧ performed = actions.flatMap routine.performs ++ rest
          ∧ ∃ m, D.Exits lines routine.name lo hi m b u out rest t)
        ∨ (out = .returned ∧ ∃ actions, effect s actions .returned t
          ∧ performed = actions.flatMap routine.performs) := by
  constructor
  · rintro ⟨n, hexits⟩
    rw [Datapath.exits_inner hclosed hab ha hb] at hexits
    rcases hexits with ⟨k, m, u, first, second, rfl, rfl, hfirst, hsecond⟩ | ⟨rfl, hreturned⟩
    · obtain ⟨actions, heffect, rfl⟩ := (h s .done first u).1 ⟨k, hfirst⟩
      exact Or.inl ⟨u, actions, second, heffect, rfl, m, hsecond⟩
    · exact Or.inr ⟨rfl, (h s .returned performed t).1 ⟨n, hreturned⟩⟩
  · rintro (⟨u, actions, rest, heffect, rfl, m, hexits⟩ | ⟨rfl, hreturned⟩)
    · obtain ⟨k, hfirst⟩ := (h s .done _ u).2 ⟨actions, heffect, rfl⟩
      exact ⟨k + m, (Datapath.exits_inner hclosed hab ha hb).2
        (Or.inl ⟨k, m, u, _, rest, rfl, rfl, hfirst, hexits⟩)⟩
    · obtain ⟨n, hexits⟩ := (h s .returned performed t).2 hreturned
      exact ⟨n, (Datapath.exits_inner hclosed hab ha hb).2 (Or.inr ⟨rfl, hexits⟩)⟩

/-- A part with nothing to do behind it. -/
theorem Means.last (h : routine.Means D lines a b effect)
    (hclosed : D.Closed lines routine.name a b) (hab : a ≤ b) (ha : lo ≤ a) (hb : b ≤ hi)
    (hrest : ∀ u out rest t, (∃ m, D.Exits lines routine.name lo hi m b u out rest t)
      ↔ out = .done ∧ rest = [] ∧ t = u) :
    (∃ n, D.Exits lines routine.name lo hi n a s out performed t)
      ↔ ∃ actions, effect s actions out t ∧ performed = actions.flatMap routine.performs := by
  rw [Means.inner h hclosed hab ha hb]
  constructor
  · rintro (⟨u, actions, rest, heffect, rfl, hexits⟩ | ⟨rfl, hreturned⟩)
    · obtain ⟨rfl, rfl, rfl⟩ := (hrest u out rest t).1 hexits
      exact ⟨actions, heffect, List.append_nil _⟩
    · exact hreturned
  · rintro ⟨actions, heffect, rfl⟩
    cases out with
    | done =>
      exact Or.inl ⟨t, actions, [], heffect, (List.append_nil _).symm,
        (hrest t .done [] t).2 ⟨rfl, rfl, rfl⟩⟩
    | returned => exact Or.inr ⟨rfl, actions, heffect, rfl⟩

theorem exists_exits_end : (∃ m, D.Exits lines routine.name lo hi m hi s out performed t)
    ↔ out = .done ∧ performed = [] ∧ t = s := by
  constructor
  · rintro ⟨m, hexits⟩
    exact (Datapath.exits_end.1 hexits).2
  · rintro ⟨rfl, rfl, rfl⟩
    exact ⟨0, Datapath.exits_end.2 ⟨rfl, rfl, rfl, rfl⟩⟩

/-- At a label an execution goes on behind it. -/
theorem exists_exits_label {place : Label} (hlo : lo ≤ pc) (hhi : pc < hi)
    (hline : lines[pc]? = some (.label place)) :
    (∃ n, D.Exits lines routine.name lo hi n pc s out performed t)
      ↔ ∃ n, D.Exits lines routine.name lo hi n (pc + 1) s out performed t := by
  constructor
  · rintro ⟨n, hexits⟩
    obtain ⟨m, -, hrest⟩ := (exits_label hlo hhi hline).1 hexits
    exact ⟨m, hrest⟩
  · rintro ⟨m, hrest⟩
    exact ⟨m + 1, (exits_label hlo hhi hline).2 ⟨m, rfl, hrest⟩⟩

/-- At a jump an execution goes on at its target. -/
theorem exists_exits_jump {target : Label} {q : Nat} (hlo : lo ≤ pc) (hhi : pc < hi)
    (hline : lines[pc]? = some (.instr (.jump target))) (htarget : target ≠ .returnOf routine.name)
    (hposition : lines.position target = some q) :
    (∃ n, D.Exits lines routine.name lo hi n pc s out performed t)
      ↔ ∃ n, D.Exits lines routine.name lo hi n q s out performed t := by
  constructor
  · rintro ⟨n, hexits⟩
    obtain ⟨m, -, hrest⟩ := (exits_jump hlo hhi hline htarget hposition).1 hexits
    exact ⟨m, hrest⟩
  · rintro ⟨m, hrest⟩
    exact ⟨m + 1, (exits_jump hlo hhi hline htarget hposition).2 ⟨m, rfl, hrest⟩⟩

/-! ### Statements without jumps -/

theorem means_exprStmt {mark : Mark} {node : Node} (hcode : exprAt routine 0 node = .ok code)
    (hat : lines.At lo code) :
    routine.Means D lines lo (lo + code.length)
      ((routine.statements D).runs (.exprStmt mark node)) := by
  intro s out performed t
  simp only [Statements.runs]
  constructor
  · rintro ⟨n, hexits⟩
    obtain ⟨u, m, rest, heval, -, rfl, hrest⟩ :=
      (exits_evaluate hcode hat (Nat.le_refl _) (Nat.le_refl _)).1 hexits
    obtain ⟨-, rfl, rfl, rfl⟩ := Datapath.exits_end.1 hrest
    refine ⟨[.evaluate node], ⟨rfl, rfl, heval⟩, ?_⟩
    rw [List.append_nil, List.flatMap_singleton]
  · rintro ⟨actions, ⟨rfl, rfl, heval⟩, rfl⟩
    refine ⟨code.length + 0, (exits_evaluate hcode hat (Nat.le_refl _) (Nat.le_refl _)).2
      ⟨t, 0, [], heval, rfl, ?_, Datapath.exits_end.2 ⟨rfl, rfl, rfl, rfl⟩⟩⟩
    rw [List.append_nil, List.flatMap_singleton]

/-- A return cuts the value to a byte exactly if the function gives a byte. -/
theorem exists_exits_leave {u : σ} (hat : lines.At pc (leave routine)) (hlo : lo ≤ pc)
    (hhi : pc + (leave routine).length ≤ hi) :
    (∃ n, D.Exits lines routine.name lo hi n pc u out performed t)
      ↔ out = .returned ∧ ∃ actions,
        (if routine.returnsChar then actions = [.narrow] ∧ t = D.narrow u else actions = [] ∧ t = u)
          ∧ performed = actions.flatMap routine.performs := by
  cases hchar : routine.returnsChar with
  | true =>
    -- Two lines: the value is cut to a byte, and then the function is left.
    have hcases : leave routine
        = [.instr (.signExtendByte .rax .rax), Datapath.returns routine.name] := by
      rw [leave, hchar]
      rfl
    rw [hcases] at hat hhi
    have hnext : D.next lines pc u = some (pc + 1, D.narrow u) := by
      rw [Datapath.next_instr hat.head rfl, D.perform_narrow]
      rfl
    have hreturn : pc + 1 < hi := hhi
    constructor
    · rintro ⟨n, hexits⟩
      obtain ⟨m, rest, -, rfl, hrest⟩ :=
        (Datapath.exits_step hlo (by omega) hat.head (fun heq => nomatch heq) hnext).1 hexits
      obtain ⟨-, rfl, rfl, rfl⟩ :=
        (Datapath.exits_returns (by omega) hreturn hat.tail.head).1 hrest
      exact ⟨rfl, [.narrow], ⟨rfl, rfl⟩, rfl⟩
    · rintro ⟨rfl, actions, ⟨rfl, rfl⟩, rfl⟩
      exact ⟨1, (Datapath.exits_step hlo (by omega) hat.head (fun heq => nomatch heq) hnext).2
        ⟨0, [], rfl, rfl, (Datapath.exits_returns (by omega) hreturn hat.tail.head).2
          ⟨rfl, rfl, rfl, rfl⟩⟩⟩
  | false =>
    -- One line, which leaves the function.
    have hcases : leave routine = [Datapath.returns routine.name] := by
      rw [leave, hchar]
      rfl
    rw [hcases] at hat hhi
    constructor
    · rintro ⟨n, hexits⟩
      obtain ⟨-, rfl, rfl, rfl⟩ := (Datapath.exits_returns hlo hhi hat.head).1 hexits
      exact ⟨rfl, [], ⟨rfl, rfl⟩, rfl⟩
    · rintro ⟨rfl, actions, ⟨rfl, rfl⟩, rfl⟩
      exact ⟨0, (Datapath.exits_returns hlo hhi hat.head).2 ⟨rfl, rfl, rfl, rfl⟩⟩

theorem means_ret {mark : Mark} {value : Node} (hcode : exprAt routine 0 value = .ok code)
    (hat : lines.At lo (code ++ leave routine)) :
    routine.Means D lines lo (lo + (code ++ leave routine).length)
      ((routine.statements D).runs (.ret mark value)) := by
  intro s out performed t
  have hlength : lo + code.length ≤ lo + (code ++ leave routine).length := by
    rw [List.length_append]
    omega
  have hend : lo + code.length + (leave routine).length
      ≤ lo + (code ++ leave routine).length := by
    rw [List.length_append]
    omega
  simp only [Statements.runs]
  -- The value is evaluated, and what follows is one jump to the end of the function.
  constructor
  · rintro ⟨n, hexits⟩
    obtain ⟨u, m, rest, heval, -, rfl, hrest⟩ :=
      (exits_evaluate hcode hat.left (Nat.le_refl _) hlength).1 hexits
    obtain ⟨rfl, actions, hleave, rfl⟩ :=
      (exists_exits_leave hat.right (Nat.le_add_right _ _) hend).1 ⟨m, hrest⟩
    exact ⟨.evaluate value :: actions, ⟨rfl, u, actions, heval, rfl, hleave⟩, rfl⟩
  · rintro ⟨actions, ⟨rfl, u, rest, heval, rfl, hleave⟩, rfl⟩
    obtain ⟨m, hexits⟩ := (exists_exits_leave hat.right (Nat.le_add_right _ _) hend).2
      ⟨rfl, rest, hleave, rfl⟩
    exact ⟨_, (exits_evaluate hcode hat.left (Nat.le_refl _) hlength).2
      ⟨u, m, _, heval, rfl, rfl, hexits⟩⟩

/-! ### Statements one after the other -/

theorem means_nil :
    routine.Means D lines lo (lo + ([] : Code).length) ((routine.statements D).runsAll []) := by
  intro s out performed t
  simp only [Statements.runsAll, List.length_nil, Nat.add_zero]
  rw [exists_exits_end]
  constructor
  · rintro ⟨rfl, rfl, rfl⟩
    exact ⟨[], ⟨rfl, rfl, rfl⟩, rfl⟩
  · rintro ⟨actions, ⟨rfl, rfl, rfl⟩, rfl⟩
    exact ⟨rfl, rfl, rfl⟩

theorem means_cons {node : Node} {nodes : List Node} {more : Code} {labels middle last : Nat}
    (hnodup : lines.labels.Nodup) (hat : lines.At lo (code ++ more))
    (hcode : code.Placeable routine.name labels middle)
    (hmore : more.Placeable routine.name middle last)
    (hfirst : routine.Means D lines lo (lo + code.length) ((routine.statements D).runs node))
    (hsecond : routine.Means D lines (lo + code.length) (lo + code.length + more.length)
      ((routine.statements D).runsAll nodes)) :
    routine.Means D lines lo (lo + (code ++ more).length)
      ((routine.statements D).runsAll (node :: nodes)) := by
  intro s out performed t
  have hlength : lo + (code ++ more).length = lo + code.length + more.length := by
    rw [List.length_append, Nat.add_assoc]
  -- Behind the first statement there is only the code of the others.
  have hrest : ∀ u rest, (∃ m, D.Exits lines routine.name lo (lo + code.length + more.length) m
      (lo + code.length) u out rest t)
        ↔ ∃ actions, (routine.statements D).runsAll nodes u actions out t
          ∧ rest = actions.flatMap routine.performs := fun u rest =>
    Means.last hsecond (hmore.closed hnodup hat.right) (Nat.le_add_right _ _) (Nat.le_add_right _ _)
      (Nat.le_refl _) fun _ _ _ _ => exists_exits_end
  simp only [Statements.runsAll]
  -- The first statement comes to its end, or it leaves the function and the others do nothing.
  rw [hlength, Means.inner hfirst (hcode.closed hnodup hat.left) (Nat.le_add_right _ _)
    (Nat.le_refl _) (Nat.le_add_right _ _)]
  constructor
  · rintro (⟨u, actions, rest, hruns, rfl, hexits⟩ | ⟨rfl, actions, hruns, rfl⟩)
    · obtain ⟨actions', hruns', rfl⟩ := (hrest u rest).1 hexits
      refine ⟨actions ++ actions', Or.inl ⟨u, actions, actions', hruns, hruns', rfl⟩, ?_⟩
      rw [List.flatMap_append]
    · exact ⟨actions, Or.inr ⟨rfl, hruns⟩, rfl⟩
  · rintro ⟨actions, (⟨u, first, rest, hruns, hruns', rfl⟩ | ⟨rfl, hruns⟩), rfl⟩
    · refine Or.inl ⟨u, first, _, hruns, ?_, (hrest u _).2 ⟨rest, hruns', rfl⟩⟩
      rw [List.flatMap_append]
    · exact Or.inr ⟨rfl, actions, hruns, rfl⟩

/-! ### Conditionals -/

/-- Where the parts of a conditional stand. -/
theorem places_ifCode {number : Nat} {test first second : Code}
    (hat : lines.At lo (ifCode number test first second)) :
    ∃ tested jumps ends, tested = lo + test.length ∧ jumps = tested + 2 + first.length
      ∧ ends = jumps + 2 + second.length
      ∧ lo + (ifCode number test first second).length = ends + 1
      ∧ lines.At lo test ∧ lines.At tested (unlessTrue (.elseOf number))
      ∧ lines.At (tested + 2) first
      ∧ lines.At jumps [.instr (.jump (.endOf number)), .label (.elseOf number)]
      ∧ lines.At (jumps + 2) second ∧ lines.At ends [.label (.endOf number)] := by
  have hlength : lo + (ifCode number test first second).length
      = lo + test.length + 2 + first.length + 2 + second.length + 1 := by
    simp only [ifCode, unlessTrue, List.length_append, List.length_cons, List.length_nil]
    omega
  simp only [ifCode, List.append_assoc] at hat
  exact ⟨_, _, _, rfl, rfl, rfl, hlength, hat.left, hat.right.left, hat.right.right.left,
    hat.right.right.right.left, hat.right.right.right.right.left,
    hat.right.right.right.right.right⟩

/-- A conditional does what the branch does that the value of its condition chooses. -/
theorem means_ifElse {mark : Mark} {cond onTrue : Node} {onFalse : Option Node}
    {test first second : Code} {labels middle last number : Nat} (hnodup : lines.labels.Nodup)
    (hat : lines.At lo (ifCode number test first second)) (htest : exprAt routine 0 cond = .ok test)
    (hfirst : first.Placeable routine.name labels middle)
    (hsecond : second.Placeable routine.name middle last)
    (honTrue : ∀ a, lines.At a first →
      routine.Means D lines a (a + first.length) ((routine.statements D).runs onTrue))
    (honFalse : ∀ a, lines.At a second →
      routine.Means D lines a (a + second.length) ((routine.statements D).runsSome onFalse)) :
    routine.Means D lines lo (lo + (ifCode number test first second).length)
      ((routine.statements D).runs (.ifElse mark cond onTrue onFalse)) := by
  intro s out performed t
  obtain ⟨tested, jumps, ends, htested, hjumps, hends, hlength, hatTest, hatUnless, hatFirst,
    hatJump, hatSecond, hatEnd⟩ := places_ifCode hat
  have helse : lines.position (.elseOf number) = some (jumps + 1) :=
    Code.position_eq hnodup hatJump.tail.head
  have hend : lines.position (.endOf number) = some ends := Code.position_eq hnodup hatEnd.head
  -- Both branches come to the label at the end.
  have hbehindSecond : ∀ u out rest t, (∃ m, D.Exits lines routine.name lo (ends + 1) m ends u out
      rest t) ↔ out = .done ∧ rest = [] ∧ t = u := fun u out rest t =>
    (exists_exits_label (by omega) (Nat.lt_succ_self ends) hatEnd.head).trans exists_exits_end
  have hbehindFirst : ∀ u out rest t, (∃ m, D.Exits lines routine.name lo (ends + 1) m jumps u out
      rest t) ↔ out = .done ∧ rest = [] ∧ t = u := fun u out rest t =>
    (exists_exits_jump (by omega) (by omega) hatJump.head (fun heq => nomatch heq) hend).trans
      (hbehindSecond u out rest t)
  -- Behind the test the flag says which branch is taken, and how it ends is how the conditional
  -- does.
  have hbranch : ∀ u rest, (∃ m, D.Exits lines routine.name lo (ends + 1) m
      (if D.rax u = 0 then jumps + 1 else tested + 2) (D.test u) out rest t)
        ↔ ∃ actions, (if D.rax u = 0 then
            (routine.statements D).runsSome onFalse (D.test u) actions out t
          else (routine.statements D).runs onTrue (D.test u) actions out t)
          ∧ rest = actions.flatMap routine.performs := by
    intro u rest
    by_cases hzero : D.rax u = 0
    · simp only [if_pos hzero]
      rw [exists_exits_label (by omega) (by omega) hatJump.tail.head]
      exact Means.last (honFalse (jumps + 2) hatSecond) (hsecond.closed hnodup hatSecond)
        (Nat.le_add_right _ _) (by omega) (by omega) (hends ▸ hbehindSecond)
    · simp only [if_neg hzero]
      exact Means.last (honTrue (tested + 2) hatFirst) (hfirst.closed hnodup hatFirst)
        (Nat.le_add_right _ _) (by omega) (by omega) (hjumps ▸ hbehindFirst)
  rw [hlength]
  simp only [Statements.runs]
  -- From the code to the meaning, and back: evaluate, test, and take the branch.
  constructor
  · rintro ⟨n, hexits⟩
    obtain ⟨u, m, rest, heval, -, rfl, htested'⟩ :=
      (exits_evaluate htest hatTest (Nat.le_refl _) (by omega)).1 hexits
    rw [← htested] at htested'
    obtain ⟨k, rest', -, rfl, hchosen⟩ :=
      (exits_unlessTrue (by omega) (by omega) hatUnless helse).1 htested'
    obtain ⟨actions, hruns, rfl⟩ := (hbranch u rest').1 ⟨k, hchosen⟩
    exact ⟨.evaluate cond :: .test :: actions, ⟨u, actions, heval, rfl, hruns⟩, rfl⟩
  · rintro ⟨actions, ⟨u, rest, heval, rfl, hruns⟩, rfl⟩
    obtain ⟨k, hchosen⟩ := (hbranch u _).2 ⟨rest, hruns, rfl⟩
    refine ⟨_, (exits_evaluate htest hatTest (Nat.le_refl _) (by omega)).2
      ⟨u, k + 2, _, heval, rfl, rfl, ?_⟩⟩
    rw [← htested]
    exact (exits_unlessTrue (by omega) (by omega) hatUnless helse).2 ⟨k, _, rfl, rfl, hchosen⟩

/-! ### Loops -/

/-- The lines of a loop from its first label on, and what they are made from. -/
structure LoopAt (routine : Routine) (D : Datapath σ) (lines : Code) (cond step : Option Node)
    (body : Effect σ) (number : Nat) (test next : Code) (begins inside steps jumps : Nat) :
    Prop where
  label : lines[begins]? = some (.label (.beginOf number))
  inside_eq : inside = begins + 1 + test.length
  steps_le : inside ≤ steps
  jumps_eq : jumps = steps + next.length
  guard : guardAt routine (.endOf number) cond = .ok test
  test : lines.At (begins + 1) test
  means : routine.Means D lines inside steps body
  closed : D.Closed lines routine.name inside steps
  step : exprSomeAt routine step = .ok next
  next : lines.At steps next
  back : lines[jumps]? = some (.instr (.jump (.beginOf number)))
  last : lines[jumps + 1]? = some (.label (.endOf number))
  first_position : lines.position (.beginOf number) = some begins
  last_position : lines.position (.endOf number) = some (jumps + 1)

section Loop

variable {cond step : Option Node} {body : Effect σ} {number begins inside steps jumps : Nat}
  {test next : Code}

/-- From its step on a loop goes on with the next round. -/
theorem LoopAt.exits_step
    (h : LoopAt routine D lines cond step body number test next begins inside steps jumps)
    (hlo : lo ≤ begins) :
    D.Exits lines routine.name lo (jumps + 2) n steps s out performed t
      ↔ ∃ u actions m rest, (routine.statements D).evaluatesSome step s actions u
        ∧ n = next.length + (m + 1) ∧ performed = actions.flatMap routine.performs ++ rest
        ∧ D.Exits lines routine.name lo (jumps + 2) m begins u out rest t := by
  have hinside := h.inside_eq
  have hsteps := h.steps_le
  have hjumps := h.jumps_eq
  have hback : ∀ n u rest, D.Exits lines routine.name lo (jumps + 2) n jumps u out rest t
      ↔ ∃ m, n = m + 1 ∧ D.Exits lines routine.name lo (jumps + 2) m begins u out rest t :=
    fun n u rest => exits_jump (by omega) (by omega) h.back (fun heq => nomatch heq)
      h.first_position
  rw [exits_evaluatesSome h.step h.next (by omega) (by omega), ← hjumps]
  constructor
  · rintro ⟨u, actions, k, rest, heval, rfl, rfl, hjump⟩
    obtain ⟨m, rfl, hrest⟩ := (hback k u rest).1 hjump
    exact ⟨u, actions, m, rest, heval, rfl, rfl, hrest⟩
  · rintro ⟨u, actions, m, rest, heval, rfl, rfl, hrest⟩
    exact ⟨u, actions, m + 1, rest, heval, rfl, rfl, (hback (m + 1) u rest).2 ⟨m, rfl, hrest⟩⟩

/-- Behind its last label a loop has been left. -/
theorem LoopAt.exits_last
    (h : LoopAt routine D lines cond step body number test next begins inside steps jumps)
    (hlo : lo ≤ begins) :
    (∃ n, D.Exits lines routine.name lo (jumps + 2) n (jumps + 1) s out performed t)
      ↔ out = .done ∧ performed = [] ∧ t = s := by
  have hinside := h.inside_eq
  have hsteps := h.steps_le
  have hjumps := h.jumps_eq
  rw [exists_exits_label (by omega) (by omega) h.last]
  exact exists_exits_end

/-- An execution from the first label of a loop on is a number of rounds.  The induction is on the
number of lines that are taken. -/
theorem LoopAt.loop_of_exits
    (h : LoopAt routine D lines cond step body number test next begins inside steps jumps)
    (hlo : lo ≤ begins) : ∀ n s performed,
      D.Exits lines routine.name lo (jumps + 2) n begins s out performed t →
        ∃ actions, (routine.statements D).Loop cond step body s actions out t
          ∧ performed = actions.flatMap routine.performs := by
  have hinside := h.inside_eq
  have hsteps := h.steps_le
  have hjumps := h.jumps_eq
  intro n
  induction n using Nat.strongRecOn with
  | _ n ih =>
    intro s performed hexits
    obtain ⟨m, rfl, hguard⟩ := (exits_label hlo (by omega) h.label).1 hexits
    rcases (exits_guard h.guard h.test (by omega) (by omega) h.last_position).1 hguard with
      ⟨u, tested, m, rest, henters, rfl, rfl, hrest⟩ | ⟨u, tested, m, rest, hleaves, rfl, rfl, hrest⟩
    · rw [← hinside] at hrest
      rcases (Datapath.exits_inner h.closed hsteps (by omega) (by omega)).1 hrest with
        ⟨k, m, v, first, second, rfl, rfl, hfirst, hsecond⟩ | ⟨rfl, hreturned⟩
      -- The body was done: the step and the way back take lines, so the next round is shorter.
      · obtain ⟨within, hbody, rfl⟩ := (h.means u .done first v).1 ⟨k, hfirst⟩
        obtain ⟨w, stepped, m, rest, hstep, rfl, rfl, hround⟩ := (h.exits_step hlo).1 hsecond
        obtain ⟨actions, hloop, rfl⟩ := ih m (by omega) w rest hround
        refine ⟨_, .again henters hbody hstep hloop, ?_⟩
        simp only [List.flatMap_append]
      -- The body returned, and the loop with it.
      · obtain ⟨within, hbody, rfl⟩ := (h.means u .returned rest t).1 ⟨m, hreturned⟩
        refine ⟨_, .stop henters hbody, ?_⟩
        rw [List.flatMap_append]
    -- The condition did not hold.
    · obtain ⟨rfl, rfl, rfl⟩ := (h.exits_last hlo).1 ⟨m, hrest⟩
      exact ⟨tested, .leave hleaves, List.append_nil _⟩

/-- Rounds of a loop are executed from its first label on.  The induction is on the rounds. -/
theorem LoopAt.exists_exits_of_loop
    (h : LoopAt routine D lines cond step body number test next begins inside steps jumps)
    (hlo : lo ≤ begins) {actions : List Action}
    (hloop : (routine.statements D).Loop cond step body s actions out t) :
    ∃ n, D.Exits lines routine.name lo (jumps + 2) n begins s out
      (actions.flatMap routine.performs) t := by
  have hinside := h.inside_eq
  have hsteps := h.steps_le
  have hjumps := h.jumps_eq
  -- The induction is on the rounds: the condition fails, the body returns, or another round
  -- follows.
  induction hloop with
  | @leave s t tested hleaves =>
    obtain ⟨m, hlast⟩ := (h.exits_last hlo (s := t)).2 ⟨rfl, rfl, rfl⟩
    rw [exists_exits_label hlo (by omega) h.label]
    exact ⟨_, (exits_guard h.guard h.test (by omega) (by omega) h.last_position).2
      (Or.inr ⟨t, tested, m, [], hleaves, rfl, (List.append_nil _).symm, hlast⟩)⟩
  | @stop s u t tested within henters hbody =>
    have hinner : ∃ m, D.Exits lines routine.name lo (jumps + 2) m inside u .returned
        (within.flatMap routine.performs) t :=
      (Means.inner h.means h.closed hsteps (by omega) (by omega)).2
        (Or.inr ⟨rfl, within, hbody, rfl⟩)
    obtain ⟨m, hreturned⟩ := hinner
    rw [exists_exits_label hlo (by omega) h.label, List.flatMap_append]
    exact ⟨_, (exits_guard h.guard h.test (by omega) (by omega) h.last_position).2
      (Or.inl ⟨u, tested, m, _, henters, rfl, rfl, hinside ▸ hreturned⟩)⟩
  | @again s u v w t tested within stepped rest out henters hbody hstep _ ih =>
    -- The execution of the next round is put behind that of this one, from its end to its start.
    obtain ⟨k, hround⟩ := ih
    have hsecond := (h.exits_step hlo (n := next.length + (k + 1))).2
      ⟨w, stepped, k, _, hstep, rfl, rfl, hround⟩
    have hinner : ∃ m, D.Exits lines routine.name lo (jumps + 2) m inside u out
        (within.flatMap routine.performs ++ (stepped.flatMap routine.performs
          ++ rest.flatMap routine.performs)) t :=
      (Means.inner h.means h.closed hsteps (by omega) (by omega)).2
        (Or.inl ⟨v, within, _, hbody, rfl, _, hsecond⟩)
    obtain ⟨m, hfirst⟩ := hinner
    rw [exists_exits_label hlo (by omega) h.label]
    simp only [List.flatMap_append]
    exact ⟨_, (exits_guard h.guard h.test (by omega) (by omega) h.last_position).2
      (Or.inl ⟨u, tested, m, _, henters, rfl, rfl, hinside ▸ hfirst⟩)⟩

/-- The loop starts with its first expression, and goes on with its rounds. -/
theorem means_loop {mark : Mark} {init : Option Node} {bodyNode : Node} {start inner : Code}
    {labels last : Nat} (hnodup : lines.labels.Nodup)
    (hat : lines.At lo (loopCode number start test inner next))
    (hstart : exprSomeAt routine init = .ok start)
    (htest : guardAt routine (.endOf number) cond = .ok test)
    (hnext : exprSomeAt routine step = .ok next)
    (hinner : inner.Placeable routine.name labels last)
    (hbody : ∀ a, lines.At a inner →
      routine.Means D lines a (a + inner.length) ((routine.statements D).runs bodyNode)) :
    routine.Means D lines lo (lo + (loopCode number start test inner next).length)
      ((routine.statements D).runs (.loop mark init cond step bodyNode)) := by
  intro s out performed t
  -- Where the parts of the loop stand: its first label, its body, and the jump back.
  obtain ⟨begins, hbegins⟩ : ∃ p, p = lo + start.length := ⟨_, rfl⟩
  obtain ⟨inside, hinside⟩ : ∃ p, p = begins + 1 + test.length := ⟨_, rfl⟩
  obtain ⟨jumps, hjumps⟩ : ∃ p, p = inside + inner.length + next.length := ⟨_, rfl⟩
  have hlength : lo + (loopCode number start test inner next).length = jumps + 2 := by
    simp only [loopCode, List.length_append, List.length_cons, List.length_nil]
    omega
  simp only [loopCode, List.append_assoc] at hat
  have hatBegin := hat.right
  rw [← hbegins] at hatBegin
  have hatInner := hatBegin.right.right
  have hplace : begins + [Line.label (.beginOf number)].length + test.length = inside := hinside.symm
  rw [hplace] at hatInner
  have hatBack := hatInner.right.right
  rw [← hjumps] at hatBack
  have hloopAt : LoopAt routine D lines cond step ((routine.statements D).runs bodyNode) number test
      next begins inside (inside + inner.length) jumps :=
    { label := hatBegin.head
      inside_eq := hinside
      steps_le := Nat.le_add_right _ _
      jumps_eq := hjumps
      guard := htest
      test := hatBegin.right.left
      means := hbody inside hatInner.left
      closed := hinner.closed hnodup hatInner.left
      step := hnext
      next := hatInner.right.left
      back := hatBack.head
      last := hatBack.tail.head
      first_position := Code.position_eq hnodup hatBegin.head
      last_position := Code.position_eq hnodup hatBack.tail.head }
  rw [hlength]
  simp only [Statements.runs]
  -- Entering the loop evaluates its start, and from its label on it goes round by round.
  constructor
  · rintro ⟨n, hexits⟩
    obtain ⟨u, actions, m, rest, heval, -, rfl, hrounds⟩ :=
      (exits_evaluatesSome hstart hat.left (Nat.le_refl _) (by omega)).1 hexits
    rw [← hbegins] at hrounds
    obtain ⟨rounds, hloop, rfl⟩ := hloopAt.loop_of_exits (by omega) m u rest hrounds
    refine ⟨actions ++ rounds, ⟨u, actions, rounds, heval, rfl, hloop⟩, ?_⟩
    rw [List.flatMap_append]
  · rintro ⟨actions, ⟨u, first, rounds, heval, rfl, hloop⟩, rfl⟩
    have hfirst : lo ≤ begins := by omega
    obtain ⟨m, hrounds⟩ := hloopAt.exists_exits_of_loop hfirst hloop
    rw [hbegins] at hrounds
    refine ⟨_, (exits_evaluatesSome hstart hat.left (Nat.le_refl _) (by omega)).2
      ⟨u, first, m, _, heval, rfl, ?_, hrounds⟩⟩
    rw [List.flatMap_append]

end Loop

/-! ### Statements -/

theorem cases_means (hnodup : lines.labels.Nodup) :
    StmtCases routine
      (fun labels node code last => code.Placeable routine.name labels last ∧ ∀ a, lines.At a code →
        routine.Means D lines a (a + code.length) ((routine.statements D).runs node))
      (fun labels nodes code last => code.Placeable routine.name labels last ∧ ∀ a, lines.At a code →
        routine.Means D lines a (a + code.length) ((routine.statements D).runsAll nodes))
      (fun labels node code last => code.Placeable routine.name labels last ∧ ∀ a, lines.At a code →
        routine.Means D lines a (a + code.length) ((routine.statements D).runsSome node)) where
  -- That the code can be placed goes along: where its labels are is what a jump needs.
  exprStmt labels _ _ _ hcode :=
    ⟨(straight_exprAt hcode).placeable _ labels, fun _ hat => means_exprStmt hcode hat⟩
  ret labels _ _ _ hcode :=
    ⟨((straight_exprAt hcode).placeable _ labels).append (placeable_leave routine labels),
      fun _ hat => means_ret hcode hat⟩
  block _ _ _ _ _ hcode := by
    rw [Statements.runs_block]
    exact hcode
  ifElse _ _ _ _ _ _ _ _ _ _ htest hfirst hsecond :=
    ⟨placeable_ifCode htest hfirst.1 hsecond.1, fun _ hat =>
      means_ifElse hnodup hat htest hfirst.1 hsecond.1 hfirst.2 hsecond.2⟩
  loop _ _ _ _ _ _ _ _ _ _ _ hstart htest hinside hnext :=
    ⟨placeable_loopCode hstart htest hinside.1 hnext, fun _ hat =>
      means_loop hnodup hat hstart htest hnext hinside.1 hinside.2⟩
  nil labels := ⟨Code.straight_nil.placeable _ labels, fun _ _ => means_nil⟩
  cons _ _ _ _ _ _ _ hcode hmore :=
    ⟨hcode.1.append hmore.1, fun a hat => means_cons hnodup hat hcode.1 hmore.1 (hcode.2 a hat.left)
      (hmore.2 _ hat.right)⟩
  missing labels := by
    rw [Statements.runsSome_none]
    exact ⟨Code.straight_nil.placeable _ labels, fun _ _ => means_nil⟩
  present _ _ _ _ hcode := by
    rw [Statements.runsSome_some]
    exact hcode

/-- **The code of a statement means the statement**, wherever it stands. -/
theorem means_stmtFrom {node : Node} {labels last : Nat} (hnodup : lines.labels.Nodup)
    (hcode : stmtFrom routine labels node = .ok (code, last)) (hat : lines.At lo code) :
    routine.Means D lines lo (lo + code.length) ((routine.statements D).runs node) :=
  ((cases_means hnodup).stmtFrom node hcode).2 lo hat

end Lower

end PocketCompiler
