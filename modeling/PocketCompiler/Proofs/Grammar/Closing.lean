import PocketCompiler.Proofs.Grammar.Growth
import PocketCompiler.Proofs.SyntaxErrors

/-!
# Declarations that close themselves

A declaration ends with a semicolon or a brace, and nothing behind that token is looked at.  So what
follows makes no difference to it: `ClosesAt x rest` says so of a step `x` in front of the tokens
`rest`.  A rule closes itself if the last token that it reads is one that it asks for, or if the
last rule that it calls closes itself (`Rule.closes_topLevel`).

Reading is then back in a state that depends on the declarations alone, and can go on with others
(`ParseState.Units.exists_front`, `ParseState.Units.of_atEnd`).
-/

namespace PocketCompiler

variable {α β : Type} {s t u : ParseState} {rest : List Token}

/-- The place of the next token is that of the first one left. -/
theorem ParseState.loc_congr {more : List Token} (h : more.head? = rest.head?) :
    (s.facing more).loc = (s.facing rest).loc :=
  (loc_facing h).trans (loc_facing rfl).symm

/-! ### Steps that look at nothing behind what they read -/

/-- In front of `rest` the step reads tokens, and it reads the same whatever follows them. -/
def ClosesAt (x : List Token → Step α) (rest : List Token) : Prop :=
  ∀ a t, (x rest).Yields a t → ∃ w, w ≠ [] ∧ rest = w ++ t.rest
    ∧ ∀ more, (x (w ++ more)).Yields a (t.facing more)

/-- The step reads no token and looks at none. -/
def Still (x : List Token → Step α) : Prop :=
  ∀ rest a t, (x rest).Yields a t → t.rest = rest ∧ ∀ more, (x more).Yields a (t.facing more)

namespace Still

theorem done {a : α} (t : ParseState) : Still fun rest => .done a (t.facing rest) := by
  intro rest b u h
  cases h
  exact ⟨rfl, fun more => .done⟩

theorem fail (failure : Failure) : Still fun _ => (.fail failure : Step α) := by
  intro rest a t h
  cases h

/-- A check looks at no token, whatever it comes to. -/
theorem ite_check {p : Prop} [Decidable p] {x : List Token → Step α} {failure : Failure}
    (hx : Still x) : Still fun rest => if p then x rest else .fail failure := by
  by_cases hp : p
  · simpa only [if_pos hp] using hx
  · simpa only [if_neg hp] using fail failure

/-- A reader that looks at no token may come in between. -/
theorem ofRun {p : Parse β} {next : β → ParseState → Step α} (hblind : p.Blind)
    (hnext : ∀ b (t : ParseState), Still fun rest => next b (t.facing rest)) :
    Still fun rest => .ofRun (p.run (s.facing rest)) next := by
  simp only [hblind.run_facing s]
  cases p.run s with
  | ok r => exact hnext r.1 r.2
  | error failure => exact fail failure

end Still

namespace ClosesAt

variable {x y : List Token → Step α} {text : String}

/-- A step that fails reads nothing. -/
theorem fail {failure : List Token → Failure} :
    ClosesAt (fun rest => (.fail (failure rest) : Step α)) rest := by
  intro a t h
  cases h

/-- The current token is the last one. -/
theorem last {token : Token} (h : Still fun rest => x (token :: rest)) :
    ClosesAt x (token :: rest) := by
  intro a t hyields
  obtain ⟨rfl, hmore⟩ := h rest a t hyields
  exact ⟨[token], List.cons_ne_nil _ _, rfl, hmore⟩

/-- A token in front is read whatever follows. -/
theorem advance {token : Token} (h : ClosesAt (fun rest => x (token :: rest)) rest) :
    ClosesAt x (token :: rest) := by
  intro a t hyields
  obtain ⟨w, -, rfl, hmore⟩ := h a t hyields
  exact ⟨token :: w, List.cons_ne_nil _ _, rfl, hmore⟩

/-- Only what a step does in front of the first token matters. -/
theorem congr (h : ClosesAt y rest) (hxy : ∀ more, more.head? = rest.head? → x more = y more) :
    ClosesAt x rest := by
  intro a t hyields
  rw [hxy rest rfl] at hyields
  obtain ⟨w, hw, hrest, hmore⟩ := h a t hyields
  refine ⟨w, hw, hrest, fun more => ?_⟩
  have hhead : (w ++ more).head? = rest.head? := by
    obtain ⟨token, w, rfl⟩ := List.exists_cons_of_ne_nil hw
    rw [hrest]
    rfl
  rw [hxy _ hhead]
  exact hmore more

/-- A choice by the current token. -/
theorem ite_sees (hx : ∀ token left, rest = token :: left → ClosesAt x rest)
    (hy : ClosesAt y rest) :
    ClosesAt (fun rest => if (s.facing rest).sees text then x rest else y rest) rest := by
  have hsame : ∀ more, more.head? = rest.head? →
      (s.facing more).sees text = (s.facing rest).sees text := by
    intro more hmore
    rw [ParseState.sees_facing, ParseState.sees_facing, hmore]
  by_cases hsees : (s.facing rest).sees text = true
  · obtain ⟨token, hcurrent, -⟩ := ParseState.exists_of_sees hsees
    obtain ⟨left, hrest⟩ := List.head?_eq_some_iff.1 hcurrent
    refine (hx token left hrest).congr fun more hmore => if_pos ?_
    rw [hsame more hmore]
    exact hsees
  · refine hy.congr fun more hmore => if_neg ?_
    rw [hsame more hmore]
    exact hsees

/-- A condition that no token decides. -/
theorem ite_check {p : Prop} [Decidable p] {failure : Failure} (hx : ClosesAt x rest) :
    ClosesAt (fun rest => if p then x rest else .fail failure) rest := by
  by_cases hp : p
  · simpa only [if_pos hp] using hx
  · simpa only [if_neg hp] using fail

/-- Behind a text that has to be there the step may go on. -/
theorem expect {next : ParseState → Step α}
    (hnext : ∀ left, ClosesAt (fun rest => next (s.facing rest)) left) :
    ClosesAt (fun rest => .expect text (s.facing rest) next) rest := by
  refine ite_sees ?_ fail
  rintro token left rfl
  exact advance (hnext left)

/-- A text that has to be there closes a step that looks at nothing behind it. -/
theorem expectLast {next : ParseState → Step α} (hnext : Still fun rest => next (s.facing rest)) :
    ClosesAt (fun rest => .expect text (s.facing rest) next) rest := by
  refine ite_sees ?_ fail
  rintro token left rfl
  exact last hnext

theorem identifier {next : String → Nat → ParseState → Step α}
    (hnext : ∀ name loc left, ClosesAt (fun rest => next name loc (s.facing rest)) left) :
    ClosesAt (fun rest => .identifier (s.facing rest) next) rest := by
  by_cases hname : ∃ loc name, rest.head? = some ⟨.identifier, loc, name⟩
  · obtain ⟨loc, name, hhead⟩ := hname
    obtain ⟨left, rfl⟩ := List.head?_eq_some_iff.1 hhead
    exact advance (hnext name loc left)
  · refine fail.congr (y := fun rest => .fail ((s.facing rest).unexpected .identifier))
      fun more hmore => ?_
    unfold Step.identifier
    split
    · next loc name hcurrent => exact (hname ⟨loc, name, hmore.symm.trans hcurrent⟩).elim
    · rfl

theorem ofResult {r : Except Failure β} {next : β → List Token → Step α}
    (hnext : ∀ b, ClosesAt (next b) rest) :
    ClosesAt (fun rest => .ofResult r fun b => next b rest) rest := by
  cases r with
  | ok b => exact hnext b
  | error failure => exact fail

theorem ofRun {p : Parse β} {next : β → ParseState → Step α} (hblind : p.Blind)
    (hnext : ∀ b (t : ParseState), ClosesAt (fun rest => next b (t.facing rest)) rest) :
    ClosesAt (fun rest => .ofRun (p.run (s.facing rest)) next) rest := by
  simp only [hblind.run_facing s]
  cases p.run s with
  | ok r => exact hnext r.1 r.2
  | error failure => exact fail

/-- Any rule may be called, if what comes behind it closes: the rule looks at one token, and that
one is read. -/
theorem call {rule : Rule β} {next : β → ParseState → Step α}
    (hnext : ∀ b t, (rule.step (s.facing rest)).Yields b t →
      ClosesAt (fun rest => next b (t.facing rest)) t.rest) :
    ClosesAt (fun rest => .call rule (s.facing rest) next) rest := by
  intro a u hyields
  cases hyields with
  | @call _ _ _ _ t _ _ b _ hrule hbehind =>
    obtain ⟨v, hv, -, hmorev⟩ := rule.exists_word_of_yields hrule
    obtain ⟨w, hw, hrest, hmorew⟩ := hnext b t hrule a u hbehind
    refine ⟨v ++ w, List.append_ne_nil_of_right_ne_nil v hw, ?_, fun more => ?_⟩
    · rw [List.append_assoc, ← hrest]
      exact hv
    · have hhead : (w ++ more).head? = t.rest.head? := by
        obtain ⟨token, w, rfl⟩ := List.exists_cons_of_ne_nil hw
        rw [hrest]
        rfl
      rw [List.append_assoc]
      exact .call (hmorev _ hhead) (hmorew more)

/-- A rule that closes itself may come last. -/
theorem callLast {rule : Rule β} {next : β → ParseState → Step α}
    (hrule : ClosesAt (fun rest => rule.step (s.facing rest)) rest)
    (hnext : ∀ b (t : ParseState), Still fun rest => next b (t.facing rest)) :
    ClosesAt (fun rest => .call rule (s.facing rest) next) rest := by
  intro a u hyields
  cases hyields with
  | @call _ _ _ _ t _ _ b _ hfirst hbehind =>
    obtain ⟨w, hw, hrest, hmorew⟩ := hrule b t hfirst
    obtain ⟨hsame, hmore⟩ := hnext b t t.rest a u hbehind
    refine ⟨w, hw, ?_, fun more => .call (hmorew more) (hmore more)⟩
    rw [hsame]
    exact hrest

end ClosesAt

/-! ### Rules that close themselves -/

namespace Rule

open ParseState (advance_facing_cons loc_facing_cons)

/-- The rule reads the same whatever follows what it reads. -/
def Closes (rule : Rule α) : Prop :=
  ∀ (s : ParseState) rest, ClosesAt (fun rest => rule.step (s.facing rest)) rest

/-- Initial values end with their semicolon. -/
theorem closes_initializers (count : Nat) : (initializers count).Closes := by
  intro s rest
  refine .ite_sees ?_ (.expectLast (.done s))
  rintro token left rfl
  refine .advance ?_
  have hvalues : ClosesAt (fun rest => .call (values []) (s.facing rest) fun values t =>
      if values.length = count then .expect ";" t fun u => .done values u
      else .fail (.complaint (s.facing left).loc (.initializerCount count values.length))) left :=
    .call fun values t _ => .ite_check (.expectLast (.done t))
  refine hvalues.congr fun more hmore => ?_
  have hloc : (s.facing more).loc = (s.facing left).loc := ParseState.loc_congr hmore
  simp only [advance_facing_cons, hloc]

/-- A declaration of globals ends with its semicolon. -/
theorem closes_global : global.Closes := by
  intro s rest
  refine .call fun names t _ => .call fun ty u _ => .callLast (closes_initializers _ u _) ?_
  exact fun values v => .ofRun (Parse.blind_declareGlobals ty names values) fun _ w => .done w

/-- Every item of a block moves past a token, so the induction is on their number. -/
theorem closes_items (read : List Node) : (items read).Closes := by
  intro s rest
  induction hlength : rest.length using Nat.strong_induction_on generalizing s rest read with
  | _ length ih =>
    have hnext : ∀ (node : Node) (t : ParseState), t.rest.length < length →
        ClosesAt (fun rest => .ofResult (annotate (t.facing rest).symbols node) fun typed =>
          .call (items (read ++ [typed])) (t.facing rest) .done) t.rest := by
      intro node t ht
      refine .ofResult (r := annotate t.symbols node) fun typed => ?_
      exact .callLast (ih _ ht (read ++ [typed]) t t.rest rfl) fun _ u => .done u
    refine .ite_sees ?_ (.ite_sees ?_ ?_)
    · rintro token left rfl
      exact .last (.done s)
    · rintro token left rfl
      refine .advance ?_
      simp only [loc_facing_cons, advance_facing_cons]
      refine .call fun node t hread => hnext node t ?_
      have hmoved : t.rest.length ≤ left.length := hread.length
      rw [← hlength, List.length_cons]
      omega
    · refine .call fun node t hread => hnext node t ?_
      have hmoved : t.rest.length + 1 ≤ rest.length := hread.length
      omega

/-- A block ends with its brace. -/
theorem closes_block (loc : Nat) : (block loc).Closes := by
  intro s rest
  exact .callLast (closes_items [] s.enterScope rest) fun body t => .done t.leaveScope

/-- A function ends with its block. -/
theorem closes_function : function.Closes := by
  intro s rest
  simp only [step]
  refine .identifier fun name loc left => .ofRun (Parse.blind_checkFunction name loc) fun _ u => ?_
  show ClosesAt (fun rest =>
    Step.expect "(" ((ParseState.enterScope { u with locals := [] }).facing rest) _) left
  refine .expect fun left => .call fun params w _ => .call fun result x _ => ?_
  have hbody : ∀ start, ClosesAt (fun rest =>
      .expect "\x7b" (x.facing rest) fun y => .call (.block start) y fun body z =>
        if (Parse.frameBytes? z.locals).any (· ≤ maxObjectSize) then
          .done () (z.leaveScope.addFunction name params result body)
        else .fail (.complaint loc (.frameTooLarge name))) x.rest := by
    refine fun start => .expect fun left => .callLast (closes_block start x left) fun body z => ?_
    exact .ite_check (p := (Parse.frameBytes? z.locals).any (· ≤ maxObjectSize) = true)
      (.done (z.leaveScope.addFunction name params result body))
  refine (hbody x.loc).congr fun more hmore => ?_
  rw [ParseState.loc_congr hmore]
  rfl

/-- A declaration outside of functions is closed in both of its forms. -/
theorem closes_topLevel : topLevel.Closes := by
  intro s rest
  refine .ite_sees ?_ (.ite_sees ?_ .fail)
  · rintro token left rfl
    exact .advance (.callLast (closes_function s left) fun _ t => .done t)
  · rintro token left rfl
    exact .advance (.callLast (closes_global s left) fun _ t => .done t)

end Rule

/-! ### Declaration after declaration -/

namespace ParseState.Units

/-- **What declarations read they read whatever follows**, and they come to the same state. -/
theorem exists_front (h : s.Units t) :
    ∃ w, s.rest = w ++ t.rest ∧ ∀ more, (s.facing (w ++ more)).Units (t.facing more) := by
  induction h with
  | refl => exact ⟨[], rfl, fun _ => .refl⟩
  | @next s t u hend hread _ ih =>
    obtain ⟨v, hv, hrest, hmorev⟩ := Rule.closes_topLevel s s.rest () t hread
    obtain ⟨w, hw, hmorew⟩ := ih
    refine ⟨v ++ w, ?_, fun more => ?_⟩
    · rw [List.append_assoc, ← hw]
      exact hrest
    · have hstart : (v ++ (w ++ more)).head? = s.rest.head? := by
        obtain ⟨token, v, rfl⟩ := List.exists_cons_of_ne_nil hv
        rw [hrest]
        rfl
      rw [List.append_assoc]
      refine .next ?_ (hmorev _) (hmorew more)
      rw [atEnd_facing hstart]
      exact hend

/-- Reading to the end goes through every state between declarations. -/
theorem of_atEnd (h : s.Units t) (hu : s.Units u) (hend : u.atEnd = true) : t.Units u := by
  induction h with
  | refl => exact hu
  | @next s t' t hs hread _ ih =>
    cases hu with
    | refl => exact absurd (hs.symm.trans hend) Bool.false_ne_true
    | next _ hread' hmore =>
      obtain ⟨-, rfl⟩ := Prod.mk.inj (Except.ok.inj (hread.run.symm.trans hread'.run))
      exact ih hmore

end ParseState.Units

end PocketCompiler
