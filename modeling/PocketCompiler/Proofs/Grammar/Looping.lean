import PocketCompiler.Proofs.EarlyTyping
import PocketCompiler.Proofs.EndOfInput
import PocketCompiler.Proofs.Grammar.Settling

/-!
# A statement in a loop

What becomes of a program if a loop is put around one of its statements.

`Node.Looped` says how the trees differ: in one place there is a loop around what was there before.
Types do not change that (`Node.Looped.annotate`).

`Looping` is a statement with other tokens in the place of those that start with it.  Following the
rules comes to these where it came to the statement, since what stands in front settles; and if they
are read as a loop around the statement, up to the same state, what follows is read as before and
the result is looped.  `Looping.CarriesAt` says both of a step.  There is a lemma for each rule that
statements are inside of, up to `Looping.carries_topLevel`, and one for all others
(`Rule.not_calls_stmt`).

There is one exception.  A head that is empty, or whose last part is, ends in front of a brace and
nowhere else, so the loop must not be the body of one with such a head (`ParseState.LeavesOpen`).
-/

namespace PocketCompiler

variable {α β γ : Type} {s t u : ParseState} {rest : List Token} {text : String}
  {symbols : Symbols} {node n n' typed : Node} {value : Option Int64}

/-! ### Trees with a loop around a statement -/

/-- The loop repeats the statement and does nothing else: for ever, or while `value` is not zero. -/
inductive Node.Repeats (stmt : Node) : Option Int64 → Node → Prop
  | forever {loc : Nat} : Repeats stmt none (.loop ⟨loc, none⟩ none none none stmt)
  | whileNonzero {loc : Nat} {mark : Mark} {value : Int64} :
    Repeats stmt (some value) (.loop ⟨loc, none⟩ none (some (.num mark value)) none stmt)

/-- In one tree the statement `node`, with or without its types, stands in a loop that repeats it.
Otherwise the trees are the same. -/
inductive Node.Looped (node : Node) (value : Option Int64) : Node → Node → Prop
  | here {stmt loop : Node} (hsame : stmt.untyped = node.untyped)
      (hloop : stmt.Repeats value loop) : Looped node value stmt loop
  | item {loc : Nat} {before after : List Node} {n n' : Node} (h : Looped node value n n') :
    Looped node value (.block ⟨loc, none⟩ (before ++ n :: after))
      (.block ⟨loc, none⟩ (before ++ n' :: after))
  | onTrue {loc : Nat} {cond n n' : Node} {onFalse : Option Node} (h : Looped node value n n') :
    Looped node value (.ifElse ⟨loc, none⟩ cond n onFalse) (.ifElse ⟨loc, none⟩ cond n' onFalse)
  | onFalse {loc : Nat} {cond onTrue n n' : Node} (h : Looped node value n n') :
    Looped node value (.ifElse ⟨loc, none⟩ cond onTrue (some n))
      (.ifElse ⟨loc, none⟩ cond onTrue (some n'))
  | body {loc : Nat} {init cond step : Option Node} {n n' : Node} (h : Looped node value n n') :
    Looped node value (.loop ⟨loc, none⟩ init cond step n) (.loop ⟨loc, none⟩ init cond step n')

namespace Node

/-- A loop around a statement is typed as the statement is. -/
theorem Repeats.annotate {stmt loop : Node} (h : stmt.Repeats value loop)
    (htyped : annotate symbols stmt = .ok typed) :
    ∃ loop', annotate symbols loop = .ok loop' ∧ typed.Repeats value loop' := by
  cases h with
  | @forever loc =>
    refine ⟨_, ?_, @Repeats.forever _ loc⟩
    rw [annotate.eq_def]
    simp only [annotateSome, htyped]
    rfl
  | @whileNonzero loc mark value =>
    obtain ⟨mark', hnum⟩ :
        ∃ mark', annotate symbols (.num mark value) = .ok (.num mark' value) := by
      rw [annotate.eq_def]
      split
      · exact ⟨mark, rfl⟩
      · exact ⟨_, rfl⟩
    refine ⟨_, ?_, @Repeats.whileNonzero _ loc mark' value⟩
    rw [annotate.eq_def]
    simp only [annotateSome, htyped, hnum]
    rfl

/-- Trees are typed on their own, so another one in a list makes no difference to those around
it. -/
theorem exists_of_annotateAll {before after nodes : List Node}
    (h : annotateAll symbols (before ++ n :: after) = .ok nodes) :
    ∃ before' typed after', annotate symbols n = .ok typed ∧ nodes = before' ++ typed :: after'
      ∧ ∀ n' typed', annotate symbols n' = .ok typed' →
        annotateAll symbols (before ++ n' :: after) = .ok (before' ++ typed' :: after') := by
  rw [annotateAll_eq_ok_iff] at h
  induction before generalizing nodes with
  | nil =>
    obtain ⟨typed, after', htyped, hafter, rfl⟩ := List.forall₂_cons_left_iff.1 h
    refine ⟨[], typed, after', htyped, rfl, fun n' typed' htyped' => ?_⟩
    exact annotateAll_eq_ok_iff.2 (.cons htyped' hafter)
  | cons first before ih =>
    obtain ⟨first', nodes, hfirst, hnodes, rfl⟩ := List.forall₂_cons_left_iff.1 h
    obtain ⟨before', typed, after', htyped, rfl, hmore⟩ := ih hnodes
    refine ⟨first' :: before', typed, after', htyped, rfl, fun n' typed' htyped' => ?_⟩
    exact annotateAll_eq_ok_iff.2 (.cons hfirst (annotateAll_eq_ok_iff.1 (hmore n' typed' htyped')))

/-- What is typed without the loop is typed with it. -/
theorem Looped.annotate (h : Looped node value n n') :
    ∀ {typed}, annotate symbols n = .ok typed →
      ∃ typed', annotate symbols n' = .ok typed' ∧ Looped node value typed typed' := by
  -- One case for each step of the way down: what stands beside it is typed as before.
  induction h with
  | here hsame hloop =>
    intro typed htyped
    obtain ⟨loop', hloop', hrepeats⟩ := hloop.annotate htyped
    -- Typing adds nothing but types, so what is repeated is still what was read.
    have huntyped := (ends_untyped_annotate symbols _).of_eq_ok htyped
    exact ⟨loop', hloop', .here (huntyped.trans hsame) hrepeats⟩
  -- The other statements of the block are not touched, so typing them gives what it gave.
  | item _ ih =>
    intro typed htyped
    rw [annotate.eq_def] at htyped
    obtain ⟨nodes, hnodes, hdone⟩ := bind_eq_ok_iff.1 htyped
    cases hdone
    obtain ⟨before, n, after, hn, rfl, hmore⟩ := exists_of_annotateAll hnodes
    obtain ⟨n', hn', hlooped⟩ := ih hn
    refine ⟨_, ?_, .item hlooped⟩
    rw [annotate.eq_def]
    exact bind_eq_ok_iff.2 ⟨_, hmore _ _ hn', rfl⟩
  | onTrue _ ih =>
    intro typed htyped
    rw [annotate.eq_def] at htyped
    obtain ⟨cond, hcond, htyped⟩ := bind_eq_ok_iff.1 htyped
    obtain ⟨n, hn, htyped⟩ := bind_eq_ok_iff.1 htyped
    obtain ⟨onFalse, honFalse, hdone⟩ := bind_eq_ok_iff.1 htyped
    cases hdone
    obtain ⟨n', hn', hlooped⟩ := ih hn
    refine ⟨_, ?_, .onTrue hlooped⟩
    rw [annotate.eq_def]
    simp only [hcond, hn', honFalse]
    rfl
  -- The other branch may be missing, but here it is there: the loop is in it.
  | onFalse _ ih =>
    intro typed htyped
    rw [annotate.eq_def] at htyped
    obtain ⟨cond, hcond, htyped⟩ := bind_eq_ok_iff.1 htyped
    obtain ⟨onTrue, honTrue, htyped⟩ := bind_eq_ok_iff.1 htyped
    obtain ⟨both, hboth, hdone⟩ := bind_eq_ok_iff.1 htyped
    cases hdone
    rw [annotateSome] at hboth
    obtain ⟨n, hn, hdone⟩ := bind_eq_ok_iff.1 hboth
    cases hdone
    obtain ⟨n', hn', hlooped⟩ := ih hn
    refine ⟨_, ?_, .onFalse hlooped⟩
    rw [annotate.eq_def]
    simp only [hcond, honTrue, annotateSome, hn']
    rfl
  | body _ ih =>
    intro typed htyped
    rw [annotate.eq_def] at htyped
    obtain ⟨init, hinit, htyped⟩ := bind_eq_ok_iff.1 htyped
    obtain ⟨cond, hcond, htyped⟩ := bind_eq_ok_iff.1 htyped
    obtain ⟨step, hstep, htyped⟩ := bind_eq_ok_iff.1 htyped
    obtain ⟨n, hn, hdone⟩ := bind_eq_ok_iff.1 htyped
    cases hdone
    obtain ⟨n', hn', hlooped⟩ := ih hn
    refine ⟨_, ?_, .body hlooped⟩
    rw [annotate.eq_def]
    simp only [hinit, hcond, hstep, hn']
    rfl

end Node

/-! ### Rules that no statement is inside of -/

/-- Whether a rule can come to a statement. -/
def Rule.holdsStmt : Rule α → Bool
  | .items _ | .block _ | .stmt | .function | .topLevel => true
  | _ => false

/-- No call is of a rule that can come to a statement. -/
def Contract.stmtless : Contract where
  pre rule _ := rule.holdsStmt = false
  post _ _ _ _ := True

open Step in
theorem Rule.stmtless (rule : Rule α) (hrule : rule.holdsStmt = false) (s : ParseState) :
    (rule.step s).Meets .stmtless fun _ _ => True := by
  cases rule with
  | items | block | stmt | function | topLevel => cases hrule
  | more l lhs =>
    rw [step]
    split
    · trivial
    · cases l <;> simp [Contract.stmtless, Level.operand, holdsStmt]
  | level l => cases l <;> simp [step, Contract.stmtless, Level.operand, holdsStmt]
  | unary =>
    rw [step]
    split <;> simp [Contract.stmtless, holdsStmt]
  -- A primary expression calls rules of expressions only.
  | primary =>
    rw [step]
    simp only [callOf, useOf]
    split
    · simp [Contract.stmtless, holdsStmt]
    split
    · simp only [meets_identifier, meets_ite, meets_fail, meets_call, meets_done, Contract.stmtless,
        holdsStmt]
      intro name loc _
      refine ⟨by simp, fun _ => ?_⟩
      split <;> trivial
    · simp
    · simp
    · trivial
  | _ => simp [step, Contract.stmtless, holdsStmt]

/-- No rule for types and expressions comes to a statement. -/
theorem Contract.holds_stmtless : Contract.stmtless.Holds := by
  intro α rule s hrule
  exact rule.stmtless hrule s

/-- A rule that cannot come to a statement does not. -/
theorem Rule.not_calls_stmt {rule : Rule α} (h : rule.holdsStmt = false) :
    ¬ (rule.step s).Calls .stmt t := fun hcalls =>
  absurd (hcalls.meets Contract.holds_stmtless (rule.stmtless h s)) Bool.noConfusion

/-! ### Items behind others -/

/-- Behind a computation a step goes on with its value. -/
theorem Step.yields_ofResult_iff {r : Except Failure β} {next : β → Step α} {a : α} :
    (ofResult r next).Yields a t ↔ ∃ b, r = .ok b ∧ (next b).Yields a t := by
  cases r with
  | ok b =>
    constructor
    · exact fun h => ⟨b, rfl, h⟩
    · rintro ⟨b', hb, h⟩
      obtain rfl := Except.ok.inj hb
      exact h
  | error failure => simp [ofResult]

/-- What is read behind the items of a block does not depend on them.  Every item moves past a
token, so the induction is on the number of tokens. -/
theorem Rule.exists_more_of_items {read items : List Node}
    (h : ((Rule.items read).step s).Yields items t) :
    ∃ more, items = read ++ more
      ∧ ∀ read', ((Rule.items read').step s).Yields (read' ++ more) t := by
  -- The induction is on the number of tokens, since every item uses some up.
  induction hlength : s.rest.length using Nat.strong_induction_on generalizing s read with
  | _ length ih =>
    -- Behind an item the others are read in the same way, whatever has been read before it.
    have hbehind : ∀ {u : ParseState} {node : Node}, u.rest.length < length →
        (Step.ofResult (annotate u.symbols node) fun typed =>
          .call (Rule.items (read ++ [typed])) u .done).Yields items t →
        ∃ more, items = read ++ more ∧ ∀ read',
          (Step.ofResult (annotate u.symbols node) fun typed =>
            .call (Rule.items (read' ++ [typed])) u .done).Yields (read' ++ more) t := by
      intro u node hu h
      obtain ⟨typed, htyped, h⟩ := Step.yields_ofResult_iff.1 h
      obtain ⟨_, _, h, hdone⟩ := Step.yields_call_iff.1 h
      obtain ⟨rfl, rfl⟩ := Step.yields_done_iff.1 hdone
      obtain ⟨more, rfl, hmore⟩ := ih _ hu h rfl
      refine ⟨typed :: more, List.append_assoc _ _ _, fun read' => ?_⟩
      have hread := hmore (read' ++ [typed])
      rw [List.append_assoc, List.singleton_append] at hread
      exact Step.yields_ofResult_iff.2 ⟨typed, htyped, .call hread .done⟩
    rw [step] at h
    rcases Step.yields_ite_iff.1 h with ⟨hclose, h⟩ | ⟨hclose, h⟩
    · obtain ⟨rfl, rfl⟩ := Step.yields_done_iff.1 h
      refine ⟨[], (List.append_nil _).symm, fun read' => ?_⟩
      rw [step, if_pos hclose, List.append_nil]
      exact .done
    -- A declaration, or another statement.
    rcases Step.yields_ite_iff.1 h with ⟨hvar, h⟩ | ⟨hvar, h⟩
    · obtain ⟨node, u, hread, h⟩ := Step.yields_call_iff.1 h
      have hmoved : u.rest.length ≤ s.advance.rest.length := hread.length
      have hadvance := ParseState.length_advance_of_sees hvar
      obtain ⟨more, hitems, hmore⟩ := hbehind (by omega) h
      refine ⟨more, hitems, fun read' => ?_⟩
      rw [step, if_neg hclose, if_pos hvar]
      exact .call hread (hmore read')
    · obtain ⟨node, u, hread, h⟩ := Step.yields_call_iff.1 h
      have hmoved : u.rest.length + 1 ≤ s.rest.length := hread.length
      obtain ⟨more, hitems, hmore⟩ := hbehind (by omega) h
      refine ⟨more, hitems, fun read' => ?_⟩
      rw [step, if_neg hclose, if_neg hvar]
      exact .call hread (hmore read')

/-! ### The head of a function -/

namespace Rule

/-- A type ends in front of a token that does not continue it. -/
theorem closes_type : type.Closes := by
  intro s rest
  refine .call fun dimensions t _ => .call fun depth u _ => .ite_sees ?_ (.ite_sees ?_ .fail)
  · rintro token left hrest
    rw [hrest]
    exact .last (.ofRun (Parse.blind_arrayTypes _ dimensions) fun ty v => .done v)
  · rintro token left hrest
    rw [hrest]
    exact .last (.ofRun (Parse.blind_arrayTypes _ dimensions) fun ty v => .done v)

/-- There is an end to the number of parameters, so the induction is on how many may follow. -/
theorem closes_parameters (read : List (Nat × Ty)) : (parameters read).Closes := by
  intro s rest
  induction hroom : maxArguments - read.length generalizing s rest read with
  | zero =>
    have hfull : ¬ read.length < maxArguments := by omega
    simp only [step, if_neg hfull]
    exact .fail
  | succ room ih =>
    have hroom' : read.length < maxArguments := by omega
    simp only [step, if_pos hroom']
    refine .identifier fun name loc left => .call fun ty u _ => ?_
    let added := u.addLocal ⟨name, ty.decay, none⟩
    let params := read ++ [(u.locals.length, ty.decay)]
    show ClosesAt (fun rest => if (added.facing rest).sees ")" then
        Step.done params (added.facing rest).advance
      else .expect "," (added.facing rest) fun v => .call (parameters params) v .done) u.rest
    refine .ite_sees (fun token left hrest => ?_) (.expect fun left => ?_)
    · rw [hrest]
      exact .last (.done added)
    · refine .callLast (ih params added left ?_) fun _ v => .done v
      rw [List.length_append, List.length_singleton]
      omega

/-- A list of parameters ends with its parenthesis. -/
theorem closes_parameterList : parameterList.Closes := by
  intro s rest
  refine .ite_sees ?_ (.callLast (closes_parameters [] s rest) fun _ t => .done t)
  rintro token left rfl
  exact .last (.done s)

end Rule

/-! ### A statement with something else in its place -/

namespace Step

variable {rule : Rule β} {inner : Rule γ} {next : β → ParseState → Step α}

/-- What a call comes to is the call, inside it or behind it. -/
theorem calls_call_cases (h : (call rule s next).Calls inner t) :
    (call rule s done).Calls inner t
      ∨ ∃ b u, (rule.step s).Yields b u ∧ (next b u).Calls inner t := by
  cases h with
  | here => exact .inl .here
  | inside h => exact .inl (.inside h)
  | behind hrule h => exact .inr ⟨_, _, hrule, h⟩

/-- What a call comes to does not depend on what is behind it. -/
theorem Calls.before (h : (call rule s done).Calls inner t) : (call rule s next).Calls inner t := by
  cases h with
  | here => exact .here
  | inside h => exact .inside h
  | behind _ h => cases h

/-- A call of a statement is the statement itself, or it comes to one inside. -/
theorem calls_stmt_cases (h : (call .stmt s done).Calls .stmt t) :
    t = s ∨ (Rule.stmt.step s).Calls .stmt t := by
  cases h with
  | here => exact .inl rfl
  | inside h => exact .inr h
  | behind _ h => cases h

/-- A rule that is no statement comes to one inside, if at all. -/
theorem calls_stmt_inside (hrank : rule.rank ≠ Rule.stmt.rank)
    (h : (call rule s done).Calls .stmt t) : (rule.step s).Calls .stmt t := by
  cases h with
  | here => exact absurd rfl hrank
  | inside h => exact h
  | behind _ h => cases h

/-- A rule that no statement is inside of does not come to one. -/
theorem not_calls_stmt (hrule : rule.holdsStmt = false) : ¬ (call rule s done).Calls .stmt t := by
  intro h
  cases h with
  | here => cases hrule
  | inside h => exact Rule.not_calls_stmt hrule h
  | behind _ h => cases h

/-- An expression with a semicolon has no statement inside. -/
theorem not_calls_exprStatement : ¬ (exprStatement s).Calls .stmt t := by
  intro h
  unfold exprStatement at h
  split at h
  · cases h
  rcases calls_call_cases h with h | ⟨value, u, -, h⟩
  · exact not_calls_stmt rfl h
  · unfold expect at h
    split at h <;> cases h

end Step

/-- At `s` a loop starts whose head is left open in front of `t`. -/
def ParseState.LeavesOpen (s t : ParseState) : Prop :=
  s.sees "for" = true ∧ s.advance.OpensHead t

/-- A statement in a program, and other tokens in the place of those from the statement on.  They
start with the same token, or both start with one that only statements start with. -/
structure Looping where
  point : ParseState
  behind : ParseState
  node : Node
  value : Option Int64
  new : List Token
  reads : (Rule.stmt.step point).Yields node behind
  same : SameStart point.rest new

/-- In the function that was read last, the statement `node` stands in a loop. -/
inductive ParseState.Looped (node : Node) (value : Option Int64) (s : ParseState) :
    ParseState → Prop
  | intro {before : List Function} {f : Function} {body : Node}
      (hlast : s.functions = before ++ [f]) (h : node.Looped value f.body body) :
    Looped node value s { s with functions := before ++ [{ f with body }] }

namespace Looping

variable (l : Looping)

/-- The step comes to the statement, and does not leave the head of a loop open in front of it. -/
def Comes (x : Step α) : Prop :=
  x.Calls .stmt l.point ∧ ∀ r, x.Calls .stmt r → ¬ r.LeavesOpen l.point

/-- The step `y` comes to the other tokens.  If they are a loop that repeats the statement, then `y`
goes on as `x` does, with results that are related by `R`. -/
def Carried (R : α → ParseState → α → ParseState → Prop) (x y : Step α) : Prop :=
  y.Calls .stmt (l.point.facing l.new)
    ∧ ∀ loop, l.node.Repeats l.value loop →
      (Rule.stmt.step (l.point.facing l.new)).Yields loop l.behind →
        ∀ a u, x.Yields a u → ∃ a' u', y.Yields a' u' ∧ R a u a' u'

/-- In front of `rest` the step comes to the statement at most in such a way that it comes to the
other tokens as well. -/
def CarriesAt (R : α → ParseState → α → ParseState → Prop) (x : List Token → Step α)
    (rest : List Token) : Prop :=
  l.Comes (x rest) → ∃ c, rest = c ++ l.point.rest ∧ l.Carried R (x rest) (x (c ++ l.new))

variable {l}

/-- Between the head of a loop and a body that comes to the statement. -/
theorem between_loopHead {token : Token} {head : Parse.LoopHead} {c : List Token}
    {next : Node → ParseState → Step Node} (hfor : token.reads "for" = true)
    (hopen : ¬ (s.facing (token :: rest)).LeavesOpen l.point)
    (h : (Rule.loopHead.step (s.facing rest)).Yields head t)
    (hcalls : (Step.call .stmt t next).Calls .stmt l.point)
    (hnext : ∀ b u, ¬ (next b u).Calls .stmt l.point) (ht : t.rest = c ++ l.point.rest) :
    ∃ w, rest = w ++ t.rest
      ∧ (Rule.loopHead.step (s.facing (w ++ (c ++ l.new)))).Yields head
        (t.facing (c ++ l.new)) := by
  -- The statement of the point is the body itself, or there are tokens between it and the head.
  cases c with
  | nil =>
    rcases Step.calls_call_cases hcalls with hcalls | ⟨b, u, -, hcalls⟩
    · rcases Step.calls_stmt_cases hcalls with rfl | hinside
      · have hhead : ¬ (s.facing rest).OpensHead l.point := fun hhead => hopen ⟨hfor, hhead⟩
        obtain ⟨w, hw, hread⟩ := Rule.yields_loopHead_facing h hhead l.same
        exact ⟨w, hw, hread⟩
      · -- Inside the body there are fewer tokens left.
        have hweight := hinside.weight_lt
        rw [Rule.weight, Rule.weight, ht, List.nil_append] at hweight
        exact absurd hweight (Nat.lt_irrefl _)
    · exact absurd hcalls (hnext b u)
  | cons first c =>
    obtain ⟨w, hw, -, hmore⟩ := Rule.loopHead.exists_word_of_yields h
    refine ⟨w, hw, hmore _ ?_⟩
    rw [ht]
    rfl

namespace CarriesAt

variable {R : α → ParseState → α → ParseState → Prop} {Q : β → ParseState → β → ParseState → Prop}
  {x y : List Token → Step α}

/-- A step that does not come to the statement has nothing to carry. -/
theorem of_not_calls (h : ¬ (x rest).Calls .stmt l.point) : l.CarriesAt R x rest :=
  fun hcomes => absurd hcomes.1 h

/-- A step that is done does not come to a statement. -/
theorem done {a : α} {t : List Token → ParseState} :
    l.CarriesAt R (fun rest => .done a (t rest)) rest := by
  refine of_not_calls fun h => ?_
  cases h

/-- A step that fails does not come to a statement. -/
theorem fail {failure : List Token → Failure} :
    l.CarriesAt R (fun rest => (.fail (failure rest) : Step α)) rest := by
  refine of_not_calls fun h => ?_
  cases h

/-- A token in front of the statement is the same in both. -/
theorem advance {token : Token} (h : l.CarriesAt R (fun rest => x (token :: rest)) rest) :
    l.CarriesAt R x (token :: rest) := by
  intro hcomes
  obtain ⟨c, rfl, hcarried⟩ := h hcomes
  exact ⟨token :: c, rfl, hcarried⟩

/-- Steps that agree on all tokens that start alike carry the same. -/
theorem congr (h : l.CarriesAt R y rest) (hxy : ∀ more, SameStart rest more → x more = y more) :
    l.CarriesAt R x rest := by
  intro hcomes
  rw [hxy rest (.inl rfl)] at hcomes
  obtain ⟨c, hrest, hcarried⟩ := h hcomes
  refine ⟨c, hrest, ?_⟩
  rw [hxy rest (.inl rfl), hxy (c ++ l.new)]
  · exact hcarried
  · rw [hrest]
    exact l.same.append c

/-- A text that starts no statement does not tell the two apart. -/
theorem ite_sees (htext : text ∉ statementTexts)
    (hx : ∀ token left, rest = token :: left → l.CarriesAt R x rest)
    (hy : l.CarriesAt R y rest) :
    l.CarriesAt R (fun rest => if (s.facing rest).sees text then x rest else y rest) rest := by
  by_cases hsees : (s.facing rest).sees text = true
  · obtain ⟨token, hcurrent, -⟩ := ParseState.exists_of_sees hsees
    obtain ⟨left, hrest⟩ := List.head?_eq_some_iff.1 hcurrent
    exact (hx token left hrest).congr fun more hmore => if_pos ((hmore.sees htext).trans hsees)
  · refine hy.congr fun more hmore => if_neg ?_
    rw [hmore.sees htext]
    exact hsees

/-- What is asked for may be something that statements start with, as it is in front of the
statement. -/
theorem expect {k : List Token → ParseState → Step α}
    (hnext : ∀ token left, rest = token :: left →
      l.CarriesAt R (fun left => k (token :: left) (s.facing left)) left) :
    l.CarriesAt R (fun rest => .expect text (s.facing rest) (k rest)) rest := by
  by_cases hsees : (s.facing rest).sees text = true
  · obtain ⟨token, hcurrent, hreads⟩ := ParseState.exists_of_sees hsees
    obtain ⟨left, rfl⟩ := List.head?_eq_some_iff.1 hcurrent
    refine advance ?_
    have hstep : ∀ left, Step.expect text (s.facing (token :: left)) (k (token :: left))
        = k (token :: left) (s.facing left) := fun left => if_pos hreads
    simp only [hstep]
    exact hnext token left rfl
  · refine of_not_calls fun h => ?_
    rw [Step.expect, if_neg hsees] at h
    cases h

theorem identifier {next : String → Nat → ParseState → Step α}
    (hnext : ∀ name loc left, l.CarriesAt R (fun left => next name loc (s.facing left)) left) :
    l.CarriesAt R (fun rest => .identifier (s.facing rest) next) rest := by
  by_cases hname : ∃ loc name, rest.head? = some ⟨.identifier, loc, name⟩
  · obtain ⟨loc, name, hhead⟩ := hname
    obtain ⟨left, rfl⟩ := List.head?_eq_some_iff.1 hhead
    exact advance (hnext name loc left)
  · refine of_not_calls fun h => ?_
    unfold Step.identifier at h
    split at h
    · next loc name hcurrent => exact hname ⟨loc, name, hcurrent⟩
    · cases h

/-- What is computed is the same in both. -/
theorem ofResult {r : Except Failure β} {next : β → List Token → Step α}
    (hnext : ∀ b, l.CarriesAt R (next b) rest) :
    l.CarriesAt R (fun rest => .ofResult r fun b => next b rest) rest := by
  cases r with
  | ok b => exact hnext b
  | error failure => exact fail

/-- A reader that looks at no token does the same in both. -/
theorem ofRun {p : Parse β} {next : β → ParseState → Step α} (hblind : p.Blind)
    (hnext : ∀ b (t : ParseState), l.CarriesAt R (fun rest => next b (t.facing rest)) rest) :
    l.CarriesAt R (fun rest => .ofRun (p.run (s.facing rest)) next) rest := by
  simp only [hblind.run_facing s]
  cases p.run s with
  | ok r => exact hnext r.1 r.2
  | error failure => exact fail

/-- A call carries if the rule does, and if what is behind it does, in front of which the rule reads
the same. -/
theorem call {rule : Rule β} {next : β → ParseState → Step α}
    (hrule : l.CarriesAt Q (fun rest => .call rule (s.facing rest) .done) rest)
    (hresult : ∀ b t b' t', Q b t b' t' → ∀ a u, (next b t).Yields a u →
      ∃ a' u', (next b' t').Yields a' u' ∧ R a u a' u')
    (hbetween : ∀ b t c, (rule.step (s.facing rest)).Yields b t → l.Comes (next b t) →
      t.rest = c ++ l.point.rest → ∃ w, rest = w ++ t.rest
        ∧ (rule.step (s.facing (w ++ (c ++ l.new)))).Yields b (t.facing (c ++ l.new)))
    (hnext : ∀ b t, (rule.step (s.facing rest)).Yields b t →
      l.CarriesAt R (fun rest => next b (t.facing rest)) t.rest) :
    l.CarriesAt R (fun rest => .call rule (s.facing rest) next) rest := by
  intro hcomes
  -- The statement is inside the rule that is called, or behind it.
  rcases Step.calls_call_cases hcomes.1 with hcall | ⟨b, t, hread, hcall⟩
  · obtain ⟨c, hrest, hcalls, hyields⟩ := hrule ⟨hcall, fun r hr => hcomes.2 r hr.before⟩
    refine ⟨c, hrest, hcalls.before, fun loop hloop hreads a u h => ?_⟩
    obtain ⟨b, t, hread, h⟩ := Step.yields_call_iff.1 h
    obtain ⟨b', t', hread', hrelated⟩ := hyields loop hloop hreads b t (.call hread .done)
    obtain ⟨_, _, hread', hdone⟩ := Step.yields_call_iff.1 hread'
    obtain ⟨rfl, rfl⟩ := Step.yields_done_iff.1 hdone
    obtain ⟨a', u', h', hfinal⟩ := hresult b t _ _ hrelated a u h
    exact ⟨a', u', .call hread' h', hfinal⟩
  · have hbehind : l.Comes (next b t) := ⟨hcall, fun r hr => hcomes.2 r (.behind hread hr)⟩
    obtain ⟨c, ht, hcalls, hyields⟩ := hnext b t hread hbehind
    obtain ⟨w, hw, hread'⟩ := hbetween b t c hread hbehind ht
    refine ⟨w ++ c, ?_, ?_, fun loop hloop hreads a u h => ?_⟩
    · rw [List.append_assoc, ← ht]
      exact hw
    · rw [List.append_assoc]
      exact .behind hread' hcalls
    · obtain ⟨a', u', h', hfinal⟩ := hyields loop hloop hreads a u ((Step.yields_call_of hread).1 h)
      refine ⟨a', u', ?_, hfinal⟩
      rw [List.append_assoc]
      exact .call hread' h'

/-- A call of a rule carries if what the rule does carries. -/
theorem of_step {rule : Rule α} (hrank : rule.rank ≠ Rule.stmt.rank)
    (h : l.CarriesAt R (fun rest => rule.step (s.facing rest)) rest) :
    l.CarriesAt R (fun rest => .call rule (s.facing rest) .done) rest := by
  intro hcomes
  obtain ⟨c, hrest, hcalls, hyields⟩ :=
    h ⟨Step.calls_stmt_inside hrank hcomes.1, fun r hr => hcomes.2 r (.inside hr)⟩
  refine ⟨c, hrest, .inside hcalls, fun loop hloop hreads a u hread => ?_⟩
  obtain ⟨_, _, hread, hdone⟩ := Step.yields_call_iff.1 hread
  obtain ⟨rfl, rfl⟩ := Step.yields_done_iff.1 hdone
  obtain ⟨a', u', hread', hrelated⟩ := hyields loop hloop hreads _ _ hread
  exact ⟨a', u', .call hread' .done, hrelated⟩

/-- What settles reads the same in front of the statement and of the other tokens. -/
theorem between {rule : Rule β} (h : SettlesAt (fun rest => rule.step (s.facing rest)) rest) {b : β}
    {c : List Token} (hread : (rule.step (s.facing rest)).Yields b t)
    (ht : t.rest = c ++ l.point.rest) : ∃ w, rest = w ++ t.rest
      ∧ (rule.step (s.facing (w ++ (c ++ l.new)))).Yields b (t.facing (c ++ l.new)) := by
  obtain ⟨w, hw, hmore⟩ := h b t hread
  refine ⟨w, hw, hmore _ ?_⟩
  rw [ht]
  exact l.same.append c

/-- A rule without statements may be called in front of them. -/
theorem callBefore {rule : Rule β} {next : β → ParseState → Step α}
    (hrule : rule.holdsStmt = false)
    (hbetween : ∀ b t c, (rule.step (s.facing rest)).Yields b t → l.Comes (next b t) →
      t.rest = c ++ l.point.rest → ∃ w, rest = w ++ t.rest
        ∧ (rule.step (s.facing (w ++ (c ++ l.new)))).Yields b (t.facing (c ++ l.new)))
    (hnext : ∀ b t, (rule.step (s.facing rest)).Yields b t →
      l.CarriesAt R (fun rest => next b (t.facing rest)) t.rest) :
    l.CarriesAt R (fun rest => .call rule (s.facing rest) next) rest :=
  call (Q := fun _ _ _ _ => False) (of_not_calls (Step.not_calls_stmt hrule))
    (fun _ _ _ _ h => h.elim) hbetween hnext

/-- A rule without statements reads the same in both, so the difference is behind it. -/
theorem callSettled {rule : Rule β} {next : β → ParseState → Step α}
    (hrule : rule.holdsStmt = false)
    (hsettles : SettlesAt (fun rest => rule.step (s.facing rest)) rest)
    (hnext : ∀ b t, (rule.step (s.facing rest)).Yields b t →
      l.CarriesAt R (fun rest => next b (t.facing rest)) t.rest) :
    l.CarriesAt R (fun rest => .call rule (s.facing rest) next) rest :=
  callBefore hrule (fun _ _ _ hread _ ht => between hsettles hread ht) hnext

end CarriesAt

end Looping

/-! ### Rules that come to statements -/

namespace Looping

open Rule CarriesAt
open ParseState (advance_facing_cons loc_facing_cons)

variable {l : Looping}

/-- The tree that is read is looped, and nothing else is different. -/
def Tree (l : Looping) (a : Node) (u : ParseState) (a' : Node) (u' : ParseState) : Prop :=
  l.node.Looped l.value a a' ∧ u' = u

/-- The block of the items that are read is looped. -/
def Items (l : Looping) (items : List Node) (u : ParseState) (items' : List Node)
    (u' : ParseState) : Prop :=
  (∀ loc, l.node.Looped l.value (.block ⟨loc, none⟩ items) (.block ⟨loc, none⟩ items')) ∧ u' = u

/-- Statements are carried in front of `rest`. -/
def Stmts (l : Looping) (rest : List Token) : Prop :=
  ∀ s : ParseState, l.CarriesAt l.Tree (fun rest => .call .stmt (s.facing rest) .done) rest

/-- Every item moves past a token, so the induction is on their number. -/
theorem carries_items (hstmts : ∀ left, left.length ≤ rest.length → l.Stmts left)
    (s : ParseState) (read : List Node) :
    l.CarriesAt l.Items (fun rest => .call (items read) (s.facing rest) .done) rest := by
  -- The induction is on the tokens, since every item uses some up.
  induction hlength : rest.length using Nat.strong_induction_on generalizing s rest read with
  | _ length ih =>
    have hmore : ∀ (node : Node) (t : ParseState), t.rest.length < rest.length →
        l.CarriesAt l.Items (fun rest => .ofResult (annotate t.symbols node) fun typed =>
          .call (items (read ++ [typed])) (t.facing rest) .done) t.rest := by
      intro node t ht
      refine .ofResult fun typed => ?_
      refine ih _ (by omega) (fun left hleft => hstmts left (by omega)) t _ rfl
    -- The item that holds the statement is typed like the one without the loop.
    have hitem : ∀ node (t : ParseState) node' t', l.Tree node t node' t' → ∀ items u,
        (Step.ofResult (annotate t.symbols node) fun typed =>
          .call (Rule.items (read ++ [typed])) t .done).Yields items u → ∃ items' u',
        (Step.ofResult (annotate t'.symbols node') fun typed =>
          .call (Rule.items (read ++ [typed])) t' .done).Yields items' u'
        ∧ l.Items items u items' u' := by
      rintro node t node' _ ⟨hlooped, rfl⟩ items u h
      obtain ⟨typed, htyped, h⟩ := Step.yields_ofResult_iff.1 h
      obtain ⟨_, _, h, hdone⟩ := Step.yields_call_iff.1 h
      obtain ⟨rfl, rfl⟩ := Step.yields_done_iff.1 hdone
      obtain ⟨typed', htyped', hlooped'⟩ := hlooped.annotate htyped
      obtain ⟨more, rfl, hread⟩ := exists_more_of_items h
      refine ⟨_, _, Step.yields_ofResult_iff.2 ⟨typed', htyped', .call (hread _) .done⟩, ?_, rfl⟩
      intro loc
      rw [List.append_assoc, List.append_assoc]
      exact .item hlooped'
    refine .of_step (Nat.ne_of_beq_eq_false rfl) (.ite_sees (by decide) (fun _ _ _ => .done) ?_)
    refine .ite_sees (by decide) ?_ ?_
    -- A declaration holds no statement, so it is read the same in both.
    · rintro token left rfl
      refine .advance ?_
      simp only [loc_facing_cons, advance_facing_cons]
      refine .callSettled rfl (settles_declaration token.loc s left) fun node t hread => ?_
      refine hmore node t ?_
      have hmoved : t.rest.length ≤ left.length := hread.length
      rw [List.length_cons]
      omega
    · refine .call (hstmts rest (Nat.le_refl _) s) hitem ?_ fun node t hread => ?_
      · exact fun _ _ _ hread _ ht => between (settles_stmt s rest) hread ht
      · exact hmore node t (Nat.lt_of_succ_le hread.length)

/-- A block carries what its items carry. -/
theorem carries_block (hstmts : ∀ left, left.length ≤ rest.length → l.Stmts left)
    (s : ParseState) (loc : Nat) :
    l.CarriesAt l.Tree (fun rest => .call (block loc) (s.facing rest) .done) rest := by
  refine .of_step (Nat.ne_of_beq_eq_false rfl) ?_
  refine .call (carries_items hstmts s.enterScope []) ?_ ?_ fun _ _ _ => .done
  · rintro items t items' _ ⟨hlooped, rfl⟩ body u h
    obtain ⟨rfl, rfl⟩ := Step.yields_done_iff.1 h
    exact ⟨_, _, .done, hlooped loc, rfl⟩
  · exact fun _ _ _ hread _ ht => between (.of_closes (closes_items [] s.enterScope rest)) hread ht

/-- What is inside a statement, and not the statement itself. -/
theorem carries_inside (hstmts : ∀ left, left.length < rest.length → l.Stmts left)
    (hopen : ¬ (s.facing rest).LeavesOpen l.point) :
    l.CarriesAt l.Tree (fun rest => stmt.step (s.facing rest)) rest := by
  cases rest with
  | nil =>
    refine .of_not_calls fun h => ?_
    have hsees : ∀ text, (s.facing []).sees text = false := fun _ => rfl
    simp only [step, hsees, Bool.false_eq_true, if_false] at h
    exact Step.not_calls_exprStatement h
  | cons token rest =>
    have hinner : ∀ (t : ParseState), t.rest.length ≤ rest.length → l.CarriesAt l.Tree
        (fun rest => .call stmt (t.facing rest) .done) t.rest :=
      fun t ht => hstmts _ (Nat.lt_succ_of_le ht) t
    have hsees : ∀ (text : String) (left : List Token),
        (s.facing (token :: left)).sees text = token.reads text := fun _ _ => rfl
    -- The first token decides which kind of statement it is, with the new tokens as with the old.
    by_cases hret : token.reads "return" = true
    · refine .advance ?_
      simp only [step, hsees, if_pos hret]
      exact .callSettled rfl (settles_expr s rest) fun value t _ => .expect fun _ _ _ => .done
    by_cases hif : token.reads "if" = true
    · refine .advance ?_
      simp only [step, hsees, if_neg hret, if_pos hif]
      refine .callSettled rfl (settles_expr s rest) fun cond t hcond => ?_
      have ht : t.rest.length + 1 ≤ rest.length := hcond.length
      refine .call (hinner t (by omega)) ?_ ?_ fun onTrue u honTrue => ?_
      · rintro onTrue u onTrue' _ ⟨hlooped, rfl⟩ node v h
        rcases Step.yields_ite_iff.1 h with ⟨helse, h⟩ | ⟨helse, h⟩
        · obtain ⟨onFalse, w, honFalse, hdone⟩ := Step.yields_call_iff.1 h
          obtain ⟨rfl, rfl⟩ := Step.yields_done_iff.1 hdone
          refine ⟨_, _, ?_, .onTrue hlooped, rfl⟩
          rw [if_pos helse]
          exact .call honFalse .done
        · obtain ⟨rfl, rfl⟩ := Step.yields_done_iff.1 h
          refine ⟨_, _, ?_, .onTrue hlooped, rfl⟩
          rw [if_neg helse]
          exact .done
      · exact fun _ _ _ hread _ ht => between (settles_stmt t t.rest) hread ht
      have hu : u.rest.length + 1 ≤ t.rest.length := honTrue.length
      -- The statement behind an `else` is one token further.
      refine .ite_sees (by decide) (fun token left hrest => ?_) .done
      have hleft : left.length ≤ rest.length := by
        rw [hrest, List.length_cons] at hu
        omega
      rw [hrest]
      refine .advance (.call (hinner (u.facing left) hleft) ?_ ?_ fun _ _ _ => .done)
      · rintro onFalse v onFalse' _ ⟨hlooped, rfl⟩ node w h
        obtain ⟨rfl, rfl⟩ := Step.yields_done_iff.1 h
        exact ⟨_, _, .done, .onFalse hlooped, rfl⟩
      · exact fun _ _ _ hread _ ht => between (settles_stmt u left) hread ht
    by_cases hfor : token.reads "for" = true
    · refine .advance ?_
      simp only [step, hsees, if_neg hret, if_neg hif, if_pos hfor]
      refine .callBefore rfl (fun head t c hhead hcomes ht => ?_) fun head t hhead => ?_
      -- The head must not be left open, or it would go on with the new tokens.
      · refine between_loopHead hfor hopen hhead hcomes.1 (fun body u h => ?_) ht
        cases h
      · refine .call (hinner t hhead.length) ?_ ?_ fun _ _ _ => .done
        · rintro body u body' _ ⟨hlooped, rfl⟩ node v h
          obtain ⟨rfl, rfl⟩ := Step.yields_done_iff.1 h
          exact ⟨_, _, .done, .body hlooped, rfl⟩
        · exact fun _ _ _ hread _ ht => between (settles_stmt t t.rest) hread ht
    by_cases hbrace : token.reads "\x7b" = true
    · refine .advance ?_
      simp only [step, hsees, if_neg hret, if_neg hif, if_neg hfor, if_pos hbrace]
      exact carries_block (fun left hleft => hstmts left (Nat.lt_succ_of_le hleft)) s _
    · refine .of_not_calls fun h => ?_
      simp only [step, hsees, if_neg hret, if_neg hif, if_neg hfor, if_neg hbrace] at h
      exact Step.not_calls_exprStatement h

/-- **Statements are carried.**  Those inside a statement come behind a token of it, so the
induction is on the number of tokens. -/
theorem carries_stmt (rest : List Token) : l.Stmts rest := by
  induction hlength : rest.length using Nat.strong_induction_on generalizing rest with
  | _ length ih =>
    intro s hcomes
    -- The statement is the one that is come to, or holds it.
    rcases Step.calls_stmt_cases hcomes.1 with hpoint | hinside
    · refine ⟨[], congrArg ParseState.rest hpoint.symm, ?_⟩
      have hnew : s.facing l.new = l.point.facing l.new := by
        rw [hpoint]
        rfl
      show l.Carried l.Tree (.call stmt (s.facing rest) .done) (.call stmt (s.facing l.new) .done)
      rw [hnew, ← hpoint]
      refine ⟨.here, fun loop hloop hreads a u h => ?_⟩
      obtain ⟨_, _, h, hdone⟩ := Step.yields_call_iff.1 h
      obtain ⟨rfl, rfl⟩ := Step.yields_done_iff.1 hdone
      obtain ⟨rfl, rfl⟩ := h.unique l.reads
      exact ⟨loop, _, .call hreads .done, .here rfl hloop, rfl⟩
    · have hstmts : ∀ left, left.length < rest.length → l.Stmts left := fun left hleft =>
        ih _ (hlength ▸ hleft) left rfl
      have hopen := hcomes.2 _ .here
      obtain ⟨c, hrest, hcalls, hyields⟩ := carries_inside hstmts hopen
        ⟨hinside, fun r hr => hcomes.2 r (.inside hr)⟩
      refine ⟨c, hrest, .inside hcalls, fun loop hloop hreads a u h => ?_⟩
      obtain ⟨_, _, h, hdone⟩ := Step.yields_call_iff.1 h
      obtain ⟨rfl, rfl⟩ := Step.yields_done_iff.1 hdone
      obtain ⟨a', u', h', hrelated⟩ := hyields loop hloop hreads _ _ h
      exact ⟨a', u', .call h' .done, hrelated⟩

/-! ### Functions -/

/-- The function that is read last is looped, and nothing else is different. -/
def Last (l : Looping) (_ : Unit) (u : ParseState) (_ : Unit) (u' : ParseState) : Prop :=
  u.Looped l.node l.value u'

/-- A function carries what its block carries. -/
theorem carries_function (s : ParseState) (rest : List Token) :
    l.CarriesAt l.Last (fun rest => .call function (s.facing rest) .done) rest := by
  refine .of_step (Nat.ne_of_beq_eq_false rfl) ?_
  simp only [step]
  refine .identifier fun name loc left => .ofRun (Parse.blind_checkFunction name loc) fun _ u => ?_
  show l.CarriesAt l.Last (fun rest =>
    Step.expect "(" ((ParseState.enterScope { u with locals := [] }).facing rest) _) left
  -- Parameters and type hold no statement, so it can only be in the body.
  refine .expect fun _ left _ => .callSettled rfl (.of_closes (closes_parameterList _ left))
    fun params w _ => ?_
  refine .callSettled rfl (.of_closes (closes_type w w.rest)) fun result x _ => ?_
  refine .expect (k := fun rest y => .call (block (x.facing rest).loc) y fun body z =>
    if (Parse.frameBytes? z.locals).any (· ≤ maxObjectSize) then
      .done () (z.leaveScope.addFunction name params result body)
    else .fail (.complaint loc (.frameTooLarge name))) fun brace left _ => ?_
  refine .call (carries_block (fun left _ => carries_stmt left) x brace.loc) ?_ ?_ ?_
  · rintro body z body' _ ⟨hlooped, rfl⟩ _ u h
    rcases Step.yields_ite_iff.1 h with ⟨hfits, h⟩ | ⟨-, h⟩
    · obtain ⟨-, rfl⟩ := Step.yields_done_iff.1 h
      refine ⟨(), _, ?_, .intro rfl hlooped⟩
      rw [if_pos hfits]
      exact .done
    · exact absurd h Step.not_yields_fail
  · exact fun _ _ _ hread _ ht => between (.of_closes (closes_block _ x left)) hread ht
  · intro body z _
    refine .of_not_calls fun h => ?_
    split at h <;> cases h

/-- **Declarations are carried.** -/
theorem carries_topLevel (s : ParseState) (rest : List Token) :
    l.CarriesAt l.Last (fun rest => topLevel.step (s.facing rest)) rest := by
  refine .ite_sees (by decide) ?_ (.ite_sees (by decide) ?_ .fail)
  · rintro token left rfl
    exact .advance (carries_function s left)
  · rintro token left rfl
    exact .advance (.callSettled rfl (.of_closes (closes_global s left)) fun _ _ _ => .done)

end Looping

end PocketCompiler
