import PocketCompiler.Proofs.Grammar.Looping

/-!
# Bodies of loops

Where the head of a loop can be empty, reading it looks for a brace.  So a loop without a head, or
with two semicolons for one, has a block for a body; other statements are taken for the expression
that the head does not have.  With a number for a head, every statement can be the body.

`Source.parse_loop_around` says which loops can be put around a statement in a program, what program
that makes, and why the others are rejected.  It is about the tokens of a source, and with them
about every text that has the same words.
-/

namespace PocketCompiler

variable {α β γ : Type} {s t u : ParseState} {node : Node} {value : Option Int64}

/-! ### Programs -/

/-- No call is come to at the end of the tokens. -/
theorem ParseState.atEnd_eq_false_of_calls {rule : Rule γ}
    (h : (Rule.topLevel.step s).Calls rule t) : s.atEnd = false := by
  rw [← Bool.not_eq_true]
  intro hend
  rw [Rule.step, sees_of_atEnd hend, sees_of_atEnd hend] at h
  cases h

/-- In one function of the programs the statement `node` stands in a loop.  Otherwise they are the
same. -/
inductive Program.Looped (node : Node) (value : Option Int64) : Program → Program → Prop
  | intro {globals : List Variable} {before after : List Function} {f : Function} {body : Node}
      (h : node.Looped value f.body body) :
    Looped node value ⟨globals, before ++ f :: after⟩ ⟨globals, before ++ { f with body } :: after⟩

/-- Declarations behind a function are read in the same way behind the function with the loop. -/
theorem ParseState.Looped.units (h : s.Looped node value t) (hunits : s.Units u) :
    ∃ v, t.Units v ∧ v.atEnd = u.atEnd ∧ u.program.Looped node value v.program := by
  cases h with
  | @intro before f body hlast hlooped =>
    let e : Likeness := ⟨before ++ [f], before ++ [{ f with body }], by simp⟩
    have hlike : e.Like s { s with functions := before ++ [{ f with body }] } := by
      have hlast' : s.functions = e.before ++ [] := by
        rw [hlast, List.append_nil]
      have hlike := Likeness.Like.intro (e := e) (s := s) (.refl s.stop s.rest) hlast'
      rwa [List.append_nil] at hlike
    obtain ⟨v, hv, hunits'⟩ := hunits.like hlike
    refine ⟨v, hunits', hv.atEnd, ?_⟩
    cases hv with
    | @intro rest added hrest hadded =>
      rw [ParseState.program, ParseState.program, hadded]
      show Program.Looped node value ⟨u.globals, before ++ [f] ++ added⟩
        ⟨u.globals, before ++ [{ f with body }] ++ added⟩
      rw [List.append_assoc, List.append_assoc]
      exact .intro hlooped

/-- **A source comes to the other tokens where it came to the statement.**  If they are a loop that
repeats the statement, it is accepted, and its program is the one with the loop in it. -/
theorem Looping.parse (l : Looping) {source : Source} {before tokens : List Token}
    {program : Program} (hparse : PocketCompiler.parse source tokens = .ok program)
    (hcalls : source.Calls tokens .stmt l.point) (hbefore : tokens = before ++ l.point.rest)
    (hopen : ∀ r, source.Calls tokens .stmt r → ¬ r.LeavesOpen l.point) :
    source.Calls (before ++ l.new) .stmt (l.point.facing l.new)
      ∧ ∀ loop, l.node.Repeats l.value loop →
        (Rule.stmt.step (l.point.facing l.new)).Yields loop l.behind →
          ∃ program', PocketCompiler.parse source (before ++ l.new) = .ok program'
            ∧ program.Looped l.node l.value program' := by
  obtain ⟨last, hunits, hend, rfl⟩ := parse_eq_ok_iff.1 hparse
  obtain ⟨t, hfront, hnotEnd, hcall⟩ := hcalls
  obtain ⟨c, ht, hcall', hyields⟩ := carries_topLevel t t.rest
    ⟨hcall, fun r hr => hopen r ⟨t, hfront, hnotEnd, hr⟩⟩
  obtain ⟨w, hw, hmore⟩ := hfront.exists_front
  -- What stands before the statement is the declarations in front and the start of its own.
  have hsplit : w ++ c = before := by
    have htokens : before ++ l.point.rest = w ++ t.rest := hbefore.symm.trans hw
    rw [ht, ← List.append_assoc] at htokens
    exact (List.append_cancel_right htokens).symm
  have hfront' := hmore (c ++ l.new)
  rw [← List.append_assoc, hsplit] at hfront'
  change (source.start (before ++ l.new)).Units _ at hfront'
  refine ⟨⟨_, hfront', ParseState.atEnd_eq_false_of_calls hcall', hcall'⟩,
    fun loop hloop hreads => ?_⟩
  -- Behind the declaration with the statement the others are read as before.
  cases hfront.of_atEnd hunits hend with
  | refl => exact absurd (hnotEnd.symm.trans hend) Bool.false_ne_true
  | next _ hthis hbehind =>
    obtain ⟨_, t', hthis', hlooped⟩ := hyields loop hloop hreads _ _ hthis
    obtain ⟨last', hbehind', hend', hprogram⟩ := hlooped.units hbehind
    have hunits' := hfront'.trans
      (.next (ParseState.atEnd_eq_false_of_calls hcall') hthis' hbehind')
    exact ⟨_, parse_eq_ok_iff.2 ⟨last', hunits', hend'.trans hend, rfl⟩, hprogram⟩

/-! ### Calls and what follows them -/

/-- Other tokens behind the first one of a call do not matter to whether it is come to. -/
theorem LooksAt.calls {rule : Rule γ} {y : Step α} (hcalls : y.Calls rule s) :
    ∀ {L : List Terminal → Prop} {o : Option Token} {x : List Token → Step α} {rest : List Token},
      LooksAt L o x → rest.head? = o → x rest = y → ∃ w, rest = w ++ s.rest
        ∧ ∀ more, more.head? = s.rest.head? → (x (w ++ more)).Calls rule (s.facing more) := by
  induction hcalls with
  | here =>
    intro L o x rest h hrest heq
    obtain ⟨v, hv, -, hx⟩ := h.settle_call hrest heq
    refine ⟨v, hv, fun more hmore => ?_⟩
    rw [hx more hmore]
    exact .here
  -- The call is made by a rule that is called, or by what is read behind that.
  | @inside α β outer t next _ ih =>
    intro L o x rest h hrest heq
    obtain ⟨v, hv, -, hx⟩ := h.settle_call hrest heq
    obtain ⟨w, hw, hmorew⟩ := ih (outer.looks t t.rest.head?) rfl rfl
    refine ⟨v ++ w, ?_, fun more hmore => ?_⟩
    · rw [hv, hw, List.append_assoc]
    -- Only the first token behind what is read is looked at, and it stays the same.
    · have hhead : (w ++ more).head? = t.rest.head? := by
        rw [hw]
        exact head?_append_congr hmore
      rw [List.append_assoc, hx _ hhead]
      exact .inside (hmorew more hmore)
  | @behind α β first t u next b hfirst _ ih =>
    intro L o x rest h hrest heq
    obtain ⟨v, hv, hnext, hx⟩ := h.settle_call hrest heq
    obtain ⟨w, hw, hspells, hmorew⟩ := first.exists_word_of_yields hfirst
    obtain ⟨z, hz, hmorez⟩ := ih (hnext _ hspells b u u.rest.head?) rfl rfl
    refine ⟨v ++ (w ++ z), ?_, fun more hmore => ?_⟩
    · rw [hv, hw, hz]
      simp
    · have hhead : (w ++ (z ++ more)).head? = t.rest.head? := by
        rw [hw, hz]
        exact head?_append_congr (head?_append_congr hmore)
      have hhead' : (z ++ more).head? = u.rest.head? := by
        rw [hz]
        exact head?_append_congr hmore
      rw [List.append_assoc, List.append_assoc, hx _ hhead]
      exact .behind (hmorew _ hhead') (hmorez more hmore)

theorem Rule.exists_word_of_calls (outer : Rule α) {rule : Rule γ}
    (h : (outer.step s).Calls rule t) :
    ∃ w, s.rest = w ++ t.rest ∧ ∀ more, more.head? = t.rest.head? →
      (outer.step (s.facing (w ++ more))).Calls rule (t.facing more) :=
  LooksAt.calls h (outer.looks s s.rest.head?) rfl rfl

/-! ### Loops around a statement -/

/-- What is put in front of a statement makes a loop of it: for ever, or while a number is not
zero. -/
inductive IsLoopStart : Option Int64 → List Token → Prop
  | bare {loc : Nat} : IsLoopStart none [⟨.keyword, loc, "for"⟩]
  | empty {loc first second : Nat} : IsLoopStart none
    [⟨.keyword, loc, "for"⟩, ⟨.punctuator, first, ";"⟩, ⟨.punctuator, second, ";"⟩]
  | number {loc place : Nat} {value : Int64} {text : String} : IsLoopStart (some value)
    [⟨.keyword, loc, "for"⟩, ⟨.number (some value), place, text⟩]

namespace Rule

variable {loc : Nat} {rest : List Token}

theorem step_for {token : Token} (h : token.reads "for" = true) :
    stmt.step (s.facing (token :: rest)) = .call loopHead (s.facing rest) fun head t =>
      .call stmt t fun body u =>
        .done (.loop ⟨token.loc, none⟩ head.init head.cond head.step body) u := by
  have hfor : (s.facing (token :: rest)).sees "for" = true := h
  have hother : ∀ text, "for" ≠ text → (s.facing (token :: rest)).sees text = false := fun _ =>
    ParseState.sees_eq_false hfor
  rw [step, hother "return" (by decide), hother "if" (by decide), hfor]
  rfl

/-- A number in front of a statement is an expression. -/
theorem yields_expr_number {value : Int64} {text : String} (h : StartsStmt s.rest) :
    (expr.step (s.facing (⟨.number (some value), loc, text⟩ :: s.rest))).Yields
      (.num ⟨loc, none⟩ value) s := by
  let brace : Token := ⟨.punctuator, loc, "\x7b"⟩
  have hprimary : (primary.step (s.facing [⟨.number (some value), loc, text⟩, brace])).Yields
      (.num ⟨loc, none⟩ value) (s.facing [brace]) := .done
  have hstops : (s.facing [brace]).Stops 0 := ⟨loc, "\x7b", rfl, by decide⟩
  have hbrace : (expr.step (s.facing [⟨.number (some value), loc, text⟩, brace])).Yields
      (.num ⟨loc, none⟩ value) (s.facing [brace]) :=
    (hprimary.unary rfl).loosen (Nat.zero_le 5) (Nat.le_refl 5) hstops
  obtain ⟨w, hw, hmore⟩ := settles_expr s _ _ _ hbrace
  have hw' : [⟨.number (some value), loc, text⟩] ++ [brace] = w ++ [brace] := hw
  obtain rfl := List.append_cancel_right hw'
  exact hmore s.rest (.inr ⟨⟨"\x7b", by decide, rfl⟩, h⟩)

end Rule

namespace IsLoopStart

variable {head : List Token}

theorem startsStmt (h : IsLoopStart value head) (rest : List Token) :
    StartsStmt (head ++ rest) := by
  cases h <;> exact ⟨"for", by decide, rfl⟩

theorem not_sees_brace (h : IsLoopStart value head) (rest : List Token) :
    ¬ (s.facing (head ++ rest)).sees "\x7b" = true := by
  cases h <;> exact Bool.false_ne_true

/-- A loop around a block is read, and a loop with a number around any statement. -/
theorem exists_loop (h : IsLoopStart value head) (hread : (Rule.stmt.step s).Yields node t)
    (hstarts : StartsStmt s.rest) (hbody : value ≠ none ∨ s.sees "\x7b" = true) :
    ∃ loop, node.Repeats value loop
      ∧ (Rule.stmt.step (s.facing (head ++ s.rest))).Yields loop t := by
  cases h with
  -- Of an empty head only the brace behind it tells that nothing is missing.
  | bare =>
    have hbrace := hbody.resolve_left fun h => h rfl
    have hhead : (Rule.loopHead.step s).Yields {} s := by
      rw [Rule.step, if_pos hbrace]
      exact .done
    exact ⟨_, .forever, .call hhead (.call hread .done)⟩
  | @empty loc first second =>
    have hbrace := hbody.resolve_left fun h => h rfl
    have hlast : ((Rule.exprUnless "\x7b").step s).Yields none s := by
      rw [Rule.step, if_pos hbrace]
      exact .done
    have hhead : (Rule.loopHead.step (s.facing
        (⟨.punctuator, first, ";"⟩ :: ⟨.punctuator, second, ";"⟩ :: s.rest))).Yields {} s :=
      .call .done (.call .done (.call hlast .done))
    exact ⟨_, .forever, .call hhead (.call hread .done)⟩
  -- A number in front of the statement is the condition: no semicolon follows.
  | @number loc place value text =>
    have hsemi : s.sees ";" = false := hstarts.not_reads (by decide)
    have hhead : (Rule.loopHead.step (s.facing
        (⟨.number (some value), place, text⟩ :: s.rest))).Yields
          { cond := some (.num ⟨place, none⟩ value) } s := by
      refine .call (.call (Rule.yields_expr_number hstarts) .done) ?_
      rw [hsemi]
      exact .done
    exact ⟨_, .whileNonzero, .call hhead (.call hread .done)⟩

/-- Without a number, a loop around anything but a block is not read. -/
theorem fails (h : IsLoopStart none head) (hstarts : StartsStmt s.rest)
    (hbrace : ¬ s.sees "\x7b" = true) :
    (Rule.stmt.step (s.facing (head ++ s.rest))).Fails (s.unexpected .expression) := by
  cases h with
  | bare => exact .inside (hstarts.fails_loopHead hbrace)
  | empty =>
    exact .inside (.behind .done (.behind .done (.inside (hstarts.fails_exprUnless hbrace))))

end IsLoopStart

/-! ### Sources with the same words -/

/-- The tokens are accepted as the program, and sources with the same words are, but for places. -/
def Source.AcceptedAs (source : Source) (tokens : List Token) (program : Program) : Prop :=
  parse source tokens = .ok program
    ∧ ∀ (other : Source) tokens', other.tokenize = .ok tokens' →
      tokens'.map Token.content = tokens.map Token.content →
        ∃ program', parse other tokens' = .ok program'
          ∧ Rewording.placeless.program program' = Rewording.placeless.program program

/-- The tokens are rejected with the failure, and sources with the same words are, but for the
place. -/
def Source.RejectedFor (source : Source) (tokens : List Token) (failure : Failure) : Prop :=
  parse source tokens = .error failure
    ∧ ∀ (other : Source) tokens', other.tokenize = .ok tokens' →
      tokens'.map Token.content = tokens.map Token.content →
        ∃ failure', parse other tokens' = .error failure'
          ∧ failure'.moved Rewording.placeless.place = failure.moved Rewording.placeless.place

section SameWords

variable {source other : Source} {tokens tokens' : List Token}

/-- All that is read in a source without places. -/
theorem parse_placeless (hends : ∃ token ∈ tokens, token.kind = .eof) :
    parse .blank (tokens.map Rewording.placeless.token)
      = moveResult Rewording.placeless.place Rewording.placeless.program (parse source tokens) :=
  parse_moved hends _

theorem moveResult_parse_of_content (source : Source)
    (hends : ∃ token ∈ tokens, token.kind = .eof)
    (htokens' : other.tokenize = .ok tokens')
    (hsame : tokens'.map Token.content = tokens.map Token.content) :
    moveResult Rewording.placeless.place Rewording.placeless.program (parse other tokens')
      = moveResult Rewording.placeless.place Rewording.placeless.program (parse source tokens) := by
  rw [← parse_placeless (Source.exists_eof htokens'), ← parse_placeless hends,
    Rewording.placeless_map, hsame, ← Rewording.placeless_map]

theorem Source.acceptedAs_of_parse {program : Program}
    (hends : ∃ token ∈ tokens, token.kind = .eof) (h : parse source tokens = .ok program) :
    source.AcceptedAs tokens program := by
  refine ⟨h, fun other tokens' htokens' hsame => ?_⟩
  have hmoved := moveResult_parse_of_content source hends htokens' hsame
  rw [h] at hmoved
  cases hparse' : parse other tokens' with
  | ok program' =>
    rw [hparse'] at hmoved
    exact ⟨program', rfl, Except.ok.inj hmoved⟩
  | error failure =>
    rw [hparse'] at hmoved
    cases hmoved

theorem Source.rejectedFor_of_parse {failure : Failure}
    (hends : ∃ token ∈ tokens, token.kind = .eof) (h : parse source tokens = .error failure) :
    source.RejectedFor tokens failure := by
  refine ⟨h, fun other tokens' htokens' hsame => ?_⟩
  have hmoved := moveResult_parse_of_content source hends htokens' hsame
  rw [h] at hmoved
  cases hparse' : parse other tokens' with
  | ok program' =>
    rw [hparse'] at hmoved
    cases hmoved
  | error failure' =>
    rw [hparse'] at hmoved
    exact ⟨failure', rfl, Except.error.inj hmoved⟩

end SameWords

/-! ### Which bodies a loop has -/

section Bodies

variable {source : Source} {tokens before head : List Token}

/-- Other tokens behind the first one of a call do not matter to whether a source comes to it. -/
theorem Source.Calls.exists_word {rule : Rule γ} (h : source.Calls tokens rule s) :
    ∃ w, tokens = w ++ s.rest ∧ ∀ more, more.head? = s.rest.head? →
      source.Calls (w ++ more) rule (s.facing more) := by
  obtain ⟨t, hfront, -, hcall⟩ := h
  obtain ⟨v, hv, hmorev⟩ := hfront.exists_front
  obtain ⟨w, hw, hmorew⟩ := Rule.topLevel.exists_word_of_calls hcall
  refine ⟨v ++ w, ?_, fun more hmore => ?_⟩
  · rw [List.append_assoc, ← hw]
    exact hv
  · have hcall' := hmorew more hmore
    rw [List.append_assoc]
    exact ⟨_, hmorev _, ParseState.atEnd_eq_false_of_calls hcall', hcall'⟩

/-- A loop is not the body of one that is left open. -/
theorem Source.parse_of_leavesOpen {r : ParseState} (hcalls : source.Calls tokens .stmt r)
    (hopen : r.LeavesOpen s) (hbefore : tokens = before ++ s.rest)
    (hhead : IsLoopStart value head) :
    parse source (before ++ (head ++ s.rest))
      = .error ((s.facing (head ++ s.rest)).unexpected .expression) := by
  obtain ⟨token, hcurrent, hreads⟩ := ParseState.exists_of_sees hopen.1
  have hr := ParseState.rest_of_current? hcurrent
  obtain ⟨v, hv, hmore⟩ := hcalls.exists_word
  obtain ⟨w, hw, hfails⟩ := Rule.fails_loopHead_facing hopen.2 (hhead.startsStmt s.rest)
    (hhead.not_sees_brace s.rest)
  have hcalls' := hmore (token :: (w ++ (head ++ s.rest))) (by rw [hr]; rfl)
  have hstmt : (Rule.stmt.step (r.facing (token :: (w ++ (head ++ s.rest))))).Fails
      ((s.facing (head ++ s.rest)).unexpected .expression) := by
    rw [Rule.step_for hreads]
    exact .inside hfails
  have hsplit : before = v ++ token :: w := by
    have hboth : before ++ s.rest = v ++ token :: w ++ s.rest := by
      rw [← hbefore, hv, hr, hw]
      simp
    exact List.append_cancel_right hboth
  rw [hsplit, List.append_assoc]
  exact hcalls'.parse_eq_error hstmt

/-- **Which bodies a loop has.**  In a source that is accepted, a loop is put around a statement
that starts with a token that only statements start with.

* If the loop has a number, or the statement is a block, and no loop around it is left open, the
  source is accepted, with that loop around the statement and all else the same.
* If the loop has no number and the statement is no block, it is rejected: an expression is wanted
  where the statement starts.
* If a loop around the statement is left open, it is rejected: an expression is wanted where the new
  loop starts. -/
theorem Source.parse_loop_around {program : Program} (htokens : source.tokenize = .ok tokens)
    (hparse : parse source tokens = .ok program) (hcalls : source.Calls tokens .stmt s)
    (hread : (Rule.stmt.step s).Yields node t) (hbefore : tokens = before ++ s.rest)
    (hstarts : StartsStmt s.rest) (hhead : IsLoopStart value head) :
    ((value ≠ none ∨ s.sees "\x7b" = true) → (∀ r, source.Calls tokens .stmt r → ¬ r.LeavesOpen s) →
        ∃ loop program', node.Repeats value loop
          ∧ source.Calls (before ++ (head ++ s.rest)) .stmt (s.facing (head ++ s.rest))
          ∧ (Rule.stmt.step (s.facing (head ++ s.rest))).Yields loop t
          ∧ program.Looped node value program'
          ∧ source.AcceptedAs (before ++ (head ++ s.rest)) program')
      ∧ (value = none → s.sees "\x7b" = false →
        (∀ r, source.Calls tokens .stmt r → ¬ r.LeavesOpen s) →
          source.RejectedFor (before ++ (head ++ s.rest)) (s.unexpected .expression))
      ∧ ∀ r, source.Calls tokens .stmt r → r.LeavesOpen s →
        source.RejectedFor (before ++ (head ++ s.rest))
          ((s.facing (head ++ s.rest)).unexpected .expression) := by
  -- The head stands in front of the statement, so the last token is still behind it.
  have hends : ∃ token ∈ before ++ (head ++ s.rest), token.kind = .eof := by
    obtain ⟨token, hmem, hkind⟩ := exists_eof htokens
    rw [hbefore] at hmem
    refine ⟨token, ?_, hkind⟩
    simp only [List.mem_append] at hmem ⊢
    exact hmem.imp_right .inr
  -- All three parts are about the same exchange of a statement for a loop.
  let l : Looping := ⟨s, t, node, value, head ++ s.rest, hread, .inr ⟨hstarts, hhead.startsStmt _⟩⟩
  refine ⟨fun hbody hopen => ?_, fun hvalue hbrace hopen => ?_, fun r hr hopen => ?_⟩
  · obtain ⟨loop, hloop, hreads⟩ := hhead.exists_loop hread hstarts hbody
    obtain ⟨hcalls', haccepts⟩ := l.parse hparse hcalls hbefore hopen
    obtain ⟨program', hparse', hlooped⟩ := haccepts loop hloop hreads
    exact ⟨loop, program', hloop, hcalls', hreads, hlooped, acceptedAs_of_parse hends hparse'⟩
  -- An empty head is followed by neither a condition nor a block.
  · subst hvalue
    obtain ⟨hcalls', -⟩ := l.parse hparse hcalls hbefore hopen
    have hfails := hhead.fails hstarts (ne_true_of_eq_false hbrace)
    exact rejectedFor_of_parse hends (hcalls'.parse_eq_error hfails)
  · exact rejectedFor_of_parse hends (parse_of_leavesOpen hr hopen hbefore hhead)

end Bodies

/-- A function that gives one. -/
def Source.returning : Source := ⟨"returning", "func f() int \x7b return 1; \x7d"⟩

/-- The same function, with a loop that has a number. -/
def Source.repeating : Source := ⟨"repeating", "func f() int \x7b for 2 return 1; \x7d"⟩

/-- The same function, with a loop that has no head. -/
def Source.headless : Source := ⟨"headless", "func f() int \x7b for return 1; \x7d"⟩

def Source.returningTokens : List Token :=
  [⟨.keyword, 0, "func"⟩, ⟨.identifier, 5, "f"⟩, ⟨.punctuator, 6, "("⟩, ⟨.punctuator, 7, ")"⟩,
    ⟨.keyword, 9, "int"⟩, ⟨.punctuator, 13, "\x7b"⟩, ⟨.keyword, 15, "return"⟩,
    ⟨.number (some 1), 22, "1"⟩, ⟨.punctuator, 23, ";"⟩, ⟨.punctuator, 25, "\x7d"⟩, ⟨.eof, 26, ""⟩]

/-- In front of the statement. -/
def Source.returningPoint : ParseState :=
  { rest := returningTokens.drop 6, stop := 26, scopes := [[], [], []] }

theorem Source.calls_returning : returning.Calls returningTokens .stmt returningPoint :=
  ⟨_, .refl, rfl, .inside <| .behind ((Rule.run_eq_ok_iff .parameterList).1 rfl) <|
    .behind ((Rule.run_eq_ok_iff .type).1 rfl) <| .inside <| .inside .here⟩

theorem Source.reads_returning : (Rule.stmt.step returningPoint).Yields
    (.ret ⟨15, none⟩ (.num ⟨22, none⟩ 1)) (returningPoint.facing (returningTokens.drop 9)) :=
  (Rule.run_eq_ok_iff .stmt).1 rfl

theorem Source.not_leavesOpen_returning {r : ParseState}
    (h : returning.Calls returningTokens .stmt r) : ¬ r.LeavesOpen returningPoint := by
  rintro ⟨hfor, -⟩
  obtain ⟨token, hcurrent, hreads⟩ := ParseState.exists_of_sees hfor
  obtain ⟨w, hw, -⟩ := h.exists_word
  have hmem : token ∈ returningTokens := by
    rw [hw, ParseState.rest_of_current? hcurrent]
    exact List.mem_append_right _ List.mem_cons_self
  have hnone : ∀ token ∈ returningTokens, token.reads "for" = false := by decide
  exact Bool.false_ne_true ((hnone token hmem).symm.trans hreads)

theorem Source.parse_loop_around_return :
    let tokens := returningTokens
    let s := returningPoint
    let number : List Token := [⟨.keyword, 15, "for"⟩, ⟨.number (some 2), 19, "2"⟩]
    let bare : List Token := [⟨.keyword, 15, "for"⟩]
    returning.tokenize = .ok tokens ∧ returning.Calls tokens .stmt s ∧ StartsStmt s.rest
      ∧ IsLoopStart (some 2) number ∧ IsLoopStart none bare
      ∧ (∃ tokens' program', repeating.tokenize = .ok tokens'
        ∧ parse repeating tokens' = .ok program' ∧ ∃ program, parse returning tokens = .ok program
          ∧ ∃ longer, program.Looped (.ret ⟨15, none⟩ (.num ⟨22, none⟩ 1)) (some 2) longer
            ∧ Rewording.placeless.program program' = Rewording.placeless.program longer)
      ∧ ∃ tokens' failure, headless.tokenize = .ok tokens' ∧ parse headless tokens' = .error failure
        ∧ failure.moved (fun _ => 0) = .complaint 0 (.unexpected .expression "return") := by
  intro tokens s number bare
  have htokens : returning.tokenize = .ok tokens := eq_ok_of_toOption_eq_some (by decide +kernel)
  obtain ⟨program, hprogram⟩ : ∃ program, parse returning tokens = .ok program := ⟨_, rfl⟩
  have hstarts : StartsStmt s.rest := ⟨"return", by decide, rfl⟩
  have hbefore : tokens = tokens.take 6 ++ s.rest := rfl
  have hnumber : IsLoopStart (some 2) number := .number
  have hbare : IsLoopStart none bare := .bare
  -- The other two texts are the loops around the statement.
  have hwords : repeating.tokenize.toOption.map (·.map Token.content)
      = some ((tokens.take 6 ++ (number ++ s.rest)).map Token.content) := by decide +kernel
  have hwords' : headless.tokenize.toOption.map (·.map Token.content)
      = some ((tokens.take 6 ++ (bare ++ s.rest)).map Token.content) := by decide +kernel
  obtain ⟨words, hrepeating, hwords⟩ := Option.map_eq_some_iff.1 hwords
  obtain ⟨words', hheadless, hwords'⟩ := Option.map_eq_some_iff.1 hwords'
  have hrepeating := eq_ok_of_toOption_eq_some hrepeating
  have hheadless := eq_ok_of_toOption_eq_some hheadless
  have hopen := fun r => not_leavesOpen_returning (r := r)
  -- With a number in its head the loop is read; with an empty head it is not.
  obtain ⟨loop, longer, -, -, -, hlooped, -, haccepted⟩ :=
    (Source.parse_loop_around htokens hprogram calls_returning reads_returning hbefore hstarts
      hnumber).1 (.inl (by decide)) hopen
  obtain ⟨-, hrejected⟩ :=
    (Source.parse_loop_around htokens hprogram calls_returning reads_returning hbefore hstarts
      hbare).2.1 rfl rfl hopen
  obtain ⟨program', hparse, hsame⟩ := haccepted _ _ hrepeating hwords
  obtain ⟨failure, hfails, hcause⟩ := hrejected _ _ hheadless hwords'
  exact ⟨htokens, calls_returning, hstarts, hnumber, hbare,
    ⟨words, program', hrepeating, hparse, program, hprogram, longer, hlooped, hsame⟩,
    words', failure, hheadless, hfails, hcause⟩

/-- **Not every statement is the body of a loop without a head.** -/
theorem Source.not_parse_loop_bare :
    ¬ ∀ (source : Source) tokens before program s node t loc, source.tokenize = .ok tokens →
      parse source tokens = .ok program → source.Calls tokens .stmt s →
        (Rule.stmt.step s).Yields node t → tokens = before ++ s.rest → StartsStmt s.rest →
          ∃ program', parse source (before ++ ⟨.keyword, loc, "for"⟩ :: s.rest) = .ok program' := by
  intro h
  have htokens : returning.tokenize = .ok returningTokens :=
    eq_ok_of_toOption_eq_some (by decide +kernel)
  obtain ⟨program, hprogram⟩ : ∃ program, parse returning returningTokens = .ok program := ⟨_, rfl⟩
  obtain ⟨program', hparse⟩ := h returning returningTokens (returningTokens.take 6) program _ _ _ 15
    htokens hprogram calls_returning reads_returning rfl ⟨"return", by decide, rfl⟩
  have hfails : parse returning (returningTokens.take 6
      ++ ⟨.keyword, 15, "for"⟩ :: returningPoint.rest)
        = .error (.complaint 15 (.unexpected .expression "return")) := rfl
  cases hfails.symm.trans hparse

end PocketCompiler
