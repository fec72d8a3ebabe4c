import PocketCompiler.Proofs.Grammar.Globals
import PocketCompiler.Proofs.Grammar.RoundTrip

/-!
# Other tokens in the middle

An `Exchange` puts the tokens `new` where `old` have been, behind the tokens `front`.  A rule that
calls another one in front of `old` goes on in the same way in front of `new`, if the other one
reads the same there.  This is not true of any tokens: the rules look at the first of them while
they are still in `front`.  But most of what they ask for is the first token of neither, and what an
`Exchange` says of the others is enough.

`Step.Twinned e rest x y` says of a step `x` in front of `rest`, which is part of `front` and `old`,
that `y` does the same with the other tokens behind, until `x` goes into `old`; from there on it
says nothing.  `Rule.twins` says so of every rule, and two things follow.

* `Step.Yields.exchange`: what is read in front of `old` is read in front of `new`.
* `Step.Calls.exchange`: what is read through a call in front of `old` is read if the call reads the
  same in front of `new`.
-/

namespace PocketCompiler

variable {α β γ : Type}

/-! ### Calls that are come to -/

/-- Following the rules comes to a call of `rule` in the state `s`. -/
inductive Step.Calls {γ : Type} (rule : Rule γ) (s : ParseState) : {α : Type} → Step α → Prop
  | here {α : Type} {next : γ → ParseState → Step α} : Calls rule s (.call rule s next)
  | inside {α β : Type} {outer : Rule β} {t : ParseState} {next : β → ParseState → Step α}
      (hrule : Calls rule s (outer.step t)) : Calls rule s (.call outer t next)
  | behind {α β : Type} {first : Rule β} {t u : ParseState} {next : β → ParseState → Step α} {b : β}
      (hrule : Yields (first.step t) b u) (hnext : Calls rule s (next b u)) :
    Calls rule s (.call first t next)

/-- A call in a call is a call. -/
theorem Step.Calls.trans {inner : Rule β} {outer : Rule γ} {s t : ParseState} {x : Step α}
    (h : x.Calls outer s) (h' : (outer.step s).Calls inner t) : x.Calls inner t := by
  induction h with
  | here => exact .inside h'
  | inside _ ih => exact .inside ih
  | behind hrule _ ih => exact .behind hrule ih

/-! ### Exchanges -/

/-- What rules look for in front of an operand or behind one, besides what it starts with and what
closes it: all texts but these. -/
def Exchange.brackets : List String := ["(", ")", "]"]

/-- Behind `front` the tokens `new` take the place of the tokens `old`.  They start at the same
place, and with a name, a literal or a bracket; a parenthesis that opens makes no call out of a name
in front of it, and one that closes takes the place of the bracket of a subscript. -/
structure Exchange where
  front : List Token
  old : List Token
  new : List Token
  loc : new.head?.map Token.loc = old.head?.map Token.loc
  nonempty : old ≠ []
  quiet : ∀ text, text ∉ Exchange.brackets →
    old.head?.any (·.reads text) = false ∧ new.head?.any (·.reads text) = false
  paren : (∀ token ∈ front.getLast?, token.kind ≠ .identifier)
    ∨ new.head?.any (·.reads "(") = old.head?.any (·.reads "(")
  unclosed : old.head?.any (·.reads ")") = false
  close : new.head?.any (·.reads ")") = true → old.head?.any (·.reads "]") = true

variable {e : Exchange} {s s' t t' : ParseState} {rest longer : List Token}

namespace Exchange

/-- `s'` is the state in which the other tokens are left where `s` is in front of the old ones; they
are the same where the old ones have been begun. -/
inductive Twin (e : Exchange) (s : ParseState) : ParseState → Prop
  | past (h : s.rest.length < e.old.length) : Twin e s s
  | within {c : List Token} (hc : c <:+ e.front) (hrest : s.rest = c ++ e.old) :
    Twin e s (s.facing (c ++ e.new))

namespace Twin

/-- The other state differs in the tokens only. -/
theorem facing (h : e.Twin s s') : s' = s.facing s'.rest := by
  cases h <;> rfl

theorem symbols (h : e.Twin s s') : s'.symbols = s.symbols := by
  rw [h.facing]
  rfl

theorem scopes (h : e.Twin s s') : s'.scopes = s.scopes := by
  rw [h.facing]
  rfl

theorem locals (h : e.Twin s s') : s'.locals = s.locals := by
  rw [h.facing]
  rfl

theorem globals (h : e.Twin s s') : s'.globals = s.globals := by
  rw [h.facing]
  rfl

/-- The same token is left, or the first of those that are exchanged. -/
theorem current? (h : e.Twin s s') :
    s'.current? = s.current? ∨ s.rest = e.old ∧ s' = s.facing e.new := by
  cases h with
  | past h => exact .inl rfl
  | @within c hc hrest =>
    cases c with
    | nil => exact .inr ⟨hrest, rfl⟩
    | cons token c =>
      refine .inl ?_
      rw [ParseState.current?, ParseState.current?, hrest]
      rfl

/-- The place of the next token is the same, since the first of the exchanged tokens have the same
place. -/
theorem loc (h : e.Twin s s') : s'.loc = s.loc := by
  rcases h.current? with hcurrent | ⟨hrest, rfl⟩
  · rw [h.facing] at hcurrent ⊢
    unfold ParseState.loc
    rw [hcurrent]
    rfl
  · have hloc := e.loc
    obtain ⟨first, old, hold⟩ := List.exists_cons_of_ne_nil e.nonempty
    rw [hold, List.head?_cons, Option.map_some] at hloc
    obtain ⟨first', hfirst', hloc⟩ := Option.map_eq_some_iff.1 hloc
    unfold ParseState.loc
    rw [ParseState.current?_facing, hfirst', ParseState.current?, hrest, hold]
    exact hloc

/-- What is no bracket is seen in both states or in neither. -/
theorem sees (h : e.Twin s s') {text : String} (htext : text ∉ brackets) :
    s'.sees text = s.sees text := by
  rcases h.current? with hcurrent | ⟨hrest, rfl⟩
  · rw [ParseState.sees, ParseState.sees, hcurrent]
  · obtain ⟨hold, hnew⟩ := e.quiet text htext
    rw [ParseState.sees_facing, hnew, ParseState.sees, ParseState.current?, hrest, hold]

/-- No operator is a bracket. -/
theorem not_mem_brackets {text : String} (h : text ∈ operatorTexts) : text ∉ brackets := by
  revert text
  decide

/-- Which operator comes next is the same: the exchanged tokens start with none. -/
theorem join? (h : e.Twin s s') (l : Level) : l.join? s' = l.join? s := by
  rcases h.current? with hcurrent | ⟨hrest, rfl⟩
  · have hsees : ∀ text, s'.sees text = s.sees text := fun text => by
      rw [ParseState.sees, ParseState.sees, hcurrent]
    cases l <;> simp only [Level.join?, hsees, ParseState.lookup, hcurrent]
  · -- Neither of the first tokens is an operator.
    have hnone : ∀ u : ParseState, (∀ text ∉ brackets, u.sees text = false) → l.join? u = none := by
      intro u hu
      rw [Option.eq_none_iff_forall_ne_some]
      intro join hjoin
      obtain ⟨text, hmem, hsees⟩ := Level.exists_sees_of_join? hjoin
      rw [hu text (not_mem_brackets hmem)] at hsees
      exact Bool.false_ne_true hsees
    have hold : ∀ text ∉ brackets, s.sees text = false := fun text htext => by
      rw [ParseState.sees, ParseState.current?, hrest]
      exact (e.quiet text htext).1
    rw [hnone s hold]
    exact hnone _ fun text htext => (h.sees htext).trans (hold text htext)

theorem sign? (h : e.Twin s s') : s'.sign? = s.sign? := by
  have hsees : ∀ text ∉ brackets, s'.sees text = s.sees text := fun _ => h.sees
  simp only [ParseState.sign?, hsees "+" (by decide), hsees "-" (by decide),
    hsees "&" (by decide), hsees "*" (by decide)]

/-- A name is called in both states or in neither. -/
theorem sees_open (hs : e.Twin s s') {loc : Nat} {name : String}
    (hcurrent : s.current? = some ⟨.identifier, loc, name⟩) (ht : e.Twin s.advance t') :
    t'.sees "(" = s.advance.sees "(" := by
  rcases ht.current? with hsame | ⟨hrest, rfl⟩
  · rw [ParseState.sees, ParseState.sees, hsame]
  · -- The name is the last token in front of those that are exchanged.
    have hsplit := ParseState.rest_of_current? hcurrent
    rw [hrest] at hsplit
    have hfront : [⟨.identifier, loc, name⟩] <:+ e.front := by
      cases hs with
      | past h =>
        rw [hsplit, List.length_cons] at h
        omega
      | @within c hc hs =>
        have hc' : c = [⟨.identifier, loc, name⟩] :=
          List.append_cancel_right (hs.symm.trans hsplit)
        rwa [← hc']
    have hparen := e.paren.resolve_left fun hother => by
      obtain ⟨front, hfront⟩ := hfront
      have hlast : e.front.getLast? = some ⟨.identifier, loc, name⟩ := by
        rw [← hfront, List.getLast?_concat]
      exact hother _ hlast rfl
    rw [ParseState.sees_facing, hparen, ParseState.sees, ParseState.current?, hrest]

/-- What is done to the tables is done to both. -/
theorem map (h : e.Twin s s') {f : ParseState → ParseState}
    (hf : ∀ (s : ParseState) rest, f (s.facing rest) = (f s).facing rest) :
    e.Twin (f s) (f s') := by
  have hsame : f s = (f s).facing s.rest := hf s s.rest
  have hrest : (f s).rest = s.rest := (congrArg ParseState.rest hsame).trans rfl
  cases h with
  | past h => exact .past (by rwa [hrest])
  | within hc hsplit =>
    rw [hf]
    exact .within hc (hrest.trans hsplit)

end Twin

/-- Parts of the tokens have twins, too. -/
theorem Twin.exists_of_suffix (hs : e.Twin s s') (ht : t.rest <:+ s.rest) : ∃ t', e.Twin t t' := by
  rcases Nat.lt_or_ge t.rest.length e.old.length with hpast | hlength
  · exact ⟨t, .past hpast⟩
  · cases hs with
    | past h => exact absurd (Nat.lt_of_le_of_lt ht.length_le h) (Nat.not_lt_of_le hlength)
    | @within c hc hrest =>
      have hold : e.old <:+ s.rest := ⟨c, hrest.symm⟩
      obtain ⟨d, hd⟩ := List.suffix_of_suffix_length_le hold ht hlength
      obtain ⟨first, hfirst⟩ := ht
      have hsame : first ++ d ++ e.old = c ++ e.old := by
        rw [List.append_assoc, hd, hfirst, hrest]
      have hsuffix : d <:+ c := ⟨first, List.append_cancel_right hsame⟩
      exact ⟨_, .within (hsuffix.trans hc) hd.symm⟩

/-- Where the old tokens are still to come, the twin has the new ones. -/
theorem Twin.exists_front (hs : e.Twin s s') (hold : e.old <:+ s.rest) :
    ∃ c, c <:+ e.front ∧ s.rest = c ++ e.old ∧ s' = s.facing (c ++ e.new) := by
  cases hs with
  | past h => exact absurd h (Nat.not_lt_of_le hold.length_le)
  | within hc hrest => exact ⟨_, hc, hrest, rfl⟩

/-- Behind the first of the exchanged tokens there are fewer tokens than these. -/
theorem past_of_tail (h : s.rest = e.old) : s.advance.rest.length < e.old.length := by
  have hpos := List.length_pos_iff.2 e.nonempty
  rw [ParseState.advance, h, List.length_tail]
  omega

end Exchange

open Exchange
open Parse (DeclaredName)

/-- The rule asks for no bracket that it leaves where it is. -/
def Rule.LeavesBrackets : Rule α → Prop
  | .exprUnless text => text ∉ brackets
  | _ => True

theorem Rule.leavesBrackets_operand (l : Level) : l.operand.LeavesBrackets := by
  cases l <;> trivial

/-! ### Steps with other tokens behind -/

/-- The step `x` goes on in parts of `rest`, and where these are parts of `front` with `old` behind
them, `y` does the same with `new` behind them. -/
def Step.Twinned (e : Exchange) (rest : List Token) : Step α → Step α → Prop
  | .done a t, y => t.rest <:+ rest
    ∧ ∀ c, c <:+ e.front → t.rest = c ++ e.old → y = .done a (t.facing (c ++ e.new))
  | .fail _, _ => True
  | .call rule s next, y => rule.LeavesBrackets ∧ s.rest <:+ rest
    ∧ (∀ c, c <:+ e.front → s.rest = c ++ e.old → (∃ b t, (rule.step s).Yields b t) →
      y = .call rule (s.facing (c ++ e.new)) next)
    ∧ ∀ b t, (rule.step s).Yields b t → ∀ t', e.Twin t t' →
      (next b t).Twinned e t.rest (next b t')

namespace Step

variable {x x' y y' : Step α} {a : α}

/-- Nothing is said of a step in the tokens that have been exchanged. -/
theorem Twinned.of_past (h : x.Twinned e rest y) (hrest : rest.length < e.old.length) :
    x.Twinned e rest y' := by
  have hnever : ∀ {tokens c : List Token}, tokens <:+ rest → tokens = c ++ e.old → False := by
    intro tokens c hsuffix htokens
    have hlength := hsuffix.length_le
    rw [htokens, List.length_append] at hlength
    omega
  cases x with
  | done a t => exact ⟨h.1, fun c _ hc => (hnever h.1 hc).elim⟩
  | fail failure => trivial
  | call rule s next => exact ⟨h.1, h.2.1, fun c _ hc _ => (hnever h.2.1 hc).elim, h.2.2.2⟩

/-- What holds of a step with these tokens left holds with more of them. -/
theorem Twinned.mono (h : x.Twinned e rest y) (hrest : rest <:+ longer) :
    x.Twinned e longer y := by
  cases x with
  | done a t => exact ⟨h.1.trans hrest, h.2⟩
  | fail failure => trivial
  | call rule s next => exact ⟨h.1, h.2.1.trans hrest, h.2.2⟩

/-- Of a step that fails nothing is claimed. -/
theorem twinned_fail {failure : Failure} : (fail failure : Step α).Twinned e rest y := trivial

theorem twinned_done (ht : e.Twin t t') : (done a t).Twinned e t.rest (done a t') := by
  refine ⟨List.suffix_refl _, fun c hc hrest => ?_⟩
  cases ht with
  | past h =>
    rw [hrest, List.length_append] at h
    omega
  | within hc' hrest' =>
    rw [List.append_cancel_right (hrest.symm.trans hrest')]

/-- The tokens are exchanged inside the call, or before it, or behind it. -/
theorem twinned_call {rule : Rule β} {next : β → ParseState → Step α} (hs : e.Twin s s')
    (hrule : rule.LeavesBrackets) (hnext : ∀ b t t', (rule.step s).Yields b t → e.Twin t t' →
      (next b t).Twinned e t.rest (next b t')) :
    (call rule s next).Twinned e s.rest (call rule s' next) := by
  refine ⟨hrule, List.suffix_refl _, fun c hc hrest _ => ?_,
    fun b t hread t' ht => hnext b t t' hread ht⟩
  cases hs with
  | past h =>
    rw [hrest, List.length_append] at h
    omega
  | within hc' hrest' =>
    rw [List.append_cancel_right (hrest.symm.trans hrest')]

/-- A call that nothing comes behind. -/
theorem twinned_last {rule : Rule α} (hs : e.Twin s s') (hrule : rule.LeavesBrackets) :
    (call rule s done).Twinned e s.rest (call rule s' done) :=
  twinned_call hs hrule fun _ _ _ _ ht => twinned_done ht

/-- Behind the current token.  Where this is the first one of those that are exchanged, nothing is
said any more, so only `s.advance` itself has to have a twin. -/
theorem twinned_advance {z : ParseState → Step α} (hs : e.Twin s s')
    (hz : ∀ t', e.Twin s.advance t' → x.Twinned e s.advance.rest (z t'))
    (hy : s'.current? = s.current? → y = z s'.advance) : x.Twinned e s.rest y := by
  have htail : s.advance.rest <:+ s.rest := List.tail_suffix _
  have hpast : s.advance.rest.length < e.old.length → x.Twinned e s.rest y := fun h =>
    ((hz _ (.past h)).of_past h).mono htail
  cases hs with
  | past h => exact hpast (Nat.lt_of_le_of_lt htail.length_le h)
  | @within c hc hrest =>
    cases c with
    | nil => exact hpast (past_of_tail hrest)
    | cons token c =>
      have hsame : (s.facing (token :: c ++ e.new)).current? = s.current? := by
        rw [ParseState.current?_facing, ParseState.current?, hrest]
        rfl
      rw [hy hsame]
      have hadvance : s.advance.rest = c ++ e.old := by
        rw [ParseState.advance, hrest]
        rfl
      exact (hz _ (.within ((List.suffix_cons _ _).trans hc) hadvance)).mono htail

/-- The last token that is read is passed. -/
theorem twinned_doneBehind (hs : e.Twin s s') :
    (done a s.advance).Twinned e s.rest (done a s'.advance) :=
  twinned_advance (z := done a) hs (fun _ ht => twinned_done ht) fun _ => rfl

/-- The call comes behind the token that is passed. -/
theorem twinned_callBehind {rule : Rule β} {next : β → ParseState → Step α} (hs : e.Twin s s')
    (hrule : rule.LeavesBrackets) (hnext : ∀ b t t', (rule.step s.advance).Yields b t →
      e.Twin t t' → (next b t).Twinned e t.rest (next b t')) :
    (call rule s.advance next).Twinned e s.rest (call rule s'.advance next) :=
  twinned_advance (z := fun t' => call rule t' next) hs (fun _ ht => twinned_call ht hrule hnext)
    fun _ => rfl

/-- The last call comes behind the token that is passed. -/
theorem twinned_lastBehind {rule : Rule α} (hs : e.Twin s s') (hrule : rule.LeavesBrackets) :
    (call rule s.advance done).Twinned e s.rest (call rule s'.advance done) :=
  twinned_callBehind hs hrule fun _ _ _ _ ht => twinned_done ht

/-- A choice by the current token that is the same in both states. -/
theorem twinned_sees {text : String} (hs : e.Twin s s') (htext : text ∉ brackets)
    (hx : s.sees text = true → x.Twinned e rest x')
    (hy : s.sees text = false → y.Twinned e rest y') :
    (if s.sees text = true then x else y).Twinned e rest
      (if s'.sees text = true then x' else y') := by
  rw [hs.sees htext]
  cases hsees : s.sees text with
  | true => exact hx hsees
  | false => exact hy hsees

/-- A token that has to come next may be any: if it is exchanged, nothing is said. -/
theorem twinned_expect {text : String} {next next' : ParseState → Step α} (hs : e.Twin s s')
    (hnext : ∀ t', e.Twin s.advance t' →
      (next s.advance).Twinned e s.advance.rest (next' t')) :
    (expect text s next).Twinned e s.rest (expect text s' next') := by
  unfold expect
  split
  · next hsees =>
    refine twinned_advance (z := next') hs hnext fun hsame => if_pos ?_
    rw [ParseState.sees, hsame]
    exact hsees
  · exact twinned_fail

theorem twinned_ofResult {r : Except Failure β} {next next' : β → Step α}
    (hnext : ∀ b, r = .ok b → (next b).Twinned e rest (next' b)) :
    (ofResult r next).Twinned e rest (ofResult r next') := by
  cases r with
  | ok b => exact hnext b rfl
  | error failure => exact twinned_fail

/-- Declaring and checking looks at no token. -/
theorem twinned_ofRun {p : Parse β} (hp : p.Blind) {next next' : β → ParseState → Step α}
    (hs : e.Twin s s') (hnext : ∀ b t t', p.run s = .ok (b, t) → e.Twin t t' →
      (next b t).Twinned e t.rest (next' b t')) :
    (ofRun (p.run s) next).Twinned e s.rest (ofRun (p.run s') next') := by
  have hrun : p.run s' = (p.run s).map fun r => (r.1, r.2.facing s'.rest) := by
    rw [hs.facing]
    exact hp.run_facing s s'.rest
  rw [hrun]
  cases hread : p.run s with
  | error failure => exact twinned_fail
  | ok r =>
    have hrest : r.2.rest = s.rest := hp.rest hread
    rw [← hrest]
    refine hnext r.1 r.2 _ hread ?_
    cases hs with
    | past h =>
      rw [← hrest]
      exact .past (by rwa [hrest])
    | within hc hsplit => exact .within hc (hrest.trans hsplit)

/-- A name is the same in both, unless the tokens are exchanged right here. -/
theorem twinned_identifier {next k : String → Nat → ParseState → Step α} (hs : e.Twin s s')
    (hnext : ∀ name loc t', s.current? = some ⟨.identifier, loc, name⟩ → e.Twin s.advance t' →
      (next name loc s.advance).Twinned e s.advance.rest (k name loc t'))
    (hy : s'.current? = s.current? → y = identifier s' k) :
    (identifier s next).Twinned e s.rest y := by
  unfold identifier
  split
  · next loc name hcurrent =>
    refine twinned_advance (z := k name loc) hs (fun t' ht => hnext name loc t' hcurrent ht)
      fun hsame => ?_
    rw [hy hsame, identifier, hsame, hcurrent]
  · exact twinned_fail

theorem twinned_number {next k : Int64 → Nat → ParseState → Step α} (hs : e.Twin s s')
    (hnext : ∀ value loc t', e.Twin s.advance t' →
      (next value loc s.advance).Twinned e s.advance.rest (k value loc t'))
    (hy : s'.current? = s.current? → y = number s' k) :
    (number s next).Twinned e s.rest y := by
  unfold number
  split
  · next value loc text hcurrent =>
    refine twinned_advance (z := k value loc) hs (hnext value loc) fun hsame => ?_
    rw [hy hsame, number, hsame, hcurrent]
  · exact twinned_fail
  · exact twinned_fail

theorem twinned_literal {next k : List UInt8 → Ty → ParseState → Step α} (hs : e.Twin s s')
    (hnext : ∀ bytes ty t', e.Twin s.advance t' →
      (next bytes ty s.advance).Twinned e s.advance.rest (k bytes ty t'))
    (hy : s'.current? = s.current? → y = literal s' k) :
    (literal s next).Twinned e s.rest y := by
  unfold literal
  split
  · next bytes ty loc text hcurrent =>
    refine twinned_advance (z := k bytes ty) hs (hnext bytes ty) fun hsame => ?_
    rw [hy hsame, literal, hsame, hcurrent]
  · exact twinned_fail

end Step

/-! ### Brackets that close -/

/-- No operand starts with the bracket that closes a subscript. -/
theorem Rule.not_yields_expr (h : s.sees "]" = true) {node : Node} :
    ¬ (Rule.expr.step s).Yields node t := by
  have hother : ∀ text, "]" ≠ text → s.sees text = false := fun text =>
    ParseState.sees_eq_false h
  have hprimary : ∀ node t, ¬ (Rule.primary.step s).Yields node t := by
    intro node t
    obtain ⟨⟨kind, loc, text⟩, hcurrent, hreads⟩ := ParseState.exists_of_sees h
    rw [Rule.step, hother "(" (by decide), hcurrent]
    cases kind with
    | identifier | string | number => exact absurd hreads Bool.false_ne_true
    | _ => rintro ⟨⟩
  have hunary : ∀ node t, ¬ (Rule.unary.step s).Yields node t := by
    have hsign : s.sign? = none := by
      refine ParseState.sign?_eq_none fun text htext => hother text ?_
      revert text
      decide
    intro node t hread
    rw [Rule.step_unary_of_none hsign] at hread
    obtain ⟨_, _, hread, -⟩ := Step.yields_call_iff.1 hread
    obtain ⟨_, _, hread, -⟩ := Step.yields_call_iff.1 hread
    exact hprimary _ _ hread
  -- Every level starts with an operand of the next one.
  have hlevel : ∀ l : Level, (∀ node t, ¬ (l.operand.step s).Yields node t) →
      ∀ node t, ¬ ((Rule.level l).step s).Yields node t := by
    intro l hoperand node t hread
    obtain ⟨_, _, hread, -⟩ := Step.yields_call_iff.1 hread
    exact hoperand _ _ hread
  intro hread
  obtain ⟨_, _, hread, -⟩ := Step.yields_call_iff.1 hread
  exact hlevel .equality (hlevel .relational (hlevel .sum (hlevel .product hunary))) _ _ hread

/-- A bracket that closes is no argument. -/
theorem Rule.not_yields_arguments (h : s.sees "]" = true) {loc : Nat} {name : String}
    {args : List Node} {node : Node} : ¬ ((Rule.arguments loc name args).step s).Yields node t := by
  intro hread
  rw [Rule.step, Step.yields_ite_iff] at hread
  rcases hread with ⟨-, hread⟩ | ⟨-, hread⟩
  · obtain ⟨_, _, hread, -⟩ := Step.yields_call_iff.1 hread
    exact Rule.not_yields_expr h hread
  · exact Step.not_yields_fail hread

/-- A bracket that closes is no parameter. -/
theorem Rule.not_yields_parameters (h : s.sees "]" = true) {read params : List (Nat × Ty)} :
    ¬ ((Rule.parameters read).step s).Yields params t := by
  intro hread
  rw [Rule.step, Step.yields_ite_iff] at hread
  rcases hread with ⟨-, hread⟩ | ⟨-, hread⟩
  · obtain ⟨name, loc, hcurrent, -⟩ := Step.yields_identifier_iff.1 hread
    exact Bool.false_ne_true ((ParseState.sees_identifier hcurrent "]").symm.trans h)
  · exact Step.not_yields_fail hread

namespace Step

/-- A list that may be empty.  Where a parenthesis takes the place of the bracket of a subscript,
nothing would have been read there. -/
theorem twinned_closeOr {rule : Rule α} {a : α} (hs : e.Twin s s')
    (hleaves : rule.LeavesBrackets)
    (hrule : s.sees "]" = true → ∀ b t, ¬ (rule.step s).Yields b t) :
    (if s.sees ")" = true then done a s.advance else call rule s done).Twinned e s.rest
      (if s'.sees ")" = true then done a s'.advance else call rule s' done) := by
  rcases hs.current? with hsame | ⟨hrest, rfl⟩
  · have hsees : s'.sees ")" = s.sees ")" := by rw [ParseState.sees, ParseState.sees, hsame]
    rw [hsees]
    split
    · exact twinned_doneBehind hs
    · exact twinned_last hs hleaves
  · have hsees : ∀ text, s.sees text = e.old.head?.any (·.reads text) := fun text => by
      rw [ParseState.sees, ParseState.current?, hrest]
    rw [hsees, e.unclosed, if_neg Bool.false_ne_true, ParseState.sees_facing]
    split
    · next hclose =>
      have hnone := hrule ((hsees "]").trans (e.close hclose))
      refine ⟨hleaves, List.suffix_refl _, fun _ _ _ hread => ?_,
        fun b t hread => (hnone b t hread).elim⟩
      obtain ⟨b, t, hread⟩ := hread
      exact (hnone b t hread).elim
    · exact twinned_last hs hleaves

/-- The end of a list, or one more behind a comma. -/
theorem twinned_commaOrClose {rule : Rule α} {a : α} (hs : e.Twin s s')
    (hrule : rule.LeavesBrackets) :
    (if s.sees ")" = true then done a s.advance
      else expect "," s fun t => call rule t done).Twinned e s.rest
      (if s'.sees ")" = true then done a s'.advance
        else expect "," s' fun t => call rule t done) := by
  rcases hs.current? with hsame | ⟨hrest, rfl⟩
  · have hsees : s'.sees ")" = s.sees ")" := by rw [ParseState.sees, ParseState.sees, hsame]
    rw [hsees]
    split
    · exact twinned_doneBehind hs
    · exact twinned_expect hs fun t' ht => twinned_last ht hrule
  · have hsees : ∀ text, s.sees text = e.old.head?.any (·.reads text) := fun text => by
      rw [ParseState.sees, ParseState.current?, hrest]
    have hcomma : s.sees "," = false := (hsees ",").trans (e.quiet "," (by decide)).1
    rw [hsees, e.unclosed, if_neg Bool.false_ne_true, expect, hcomma, if_neg Bool.false_ne_true]
    exact twinned_fail

end Step

/-! ### Rules with other tokens behind -/

/-- A primary expression that starts with no parenthesis. -/
def Step.atom (s : ParseState) : Step Node :=
  match s.current?.map Token.kind with
  | some .identifier => .identifier s fun name loc t =>
    if t.sees "(" then .callOf name loc t.advance else .useOf name loc t
  | some (.string _ _) => .literal s fun bytes ty t =>
    .done (.var ⟨s.loc, none⟩ (.globalVar t.globals.length)) (t.addLiteral bytes ty)
  | some (.number _) => .number s fun value loc t => .done (.num ⟨loc, none⟩ value) t
  | _ => .fail (s.unexpected .expression)

/-- A primary expression is one in parentheses or an atom. -/
theorem Rule.step_primary : Rule.primary.step s = if s.sees "(" = true then
    .call .expr s.advance fun node t => .expect ")" t fun u => .done node u else .atom s := rfl

/-- The rule does the same with the other tokens behind. -/
def Rule.Twins (rule : Rule α) : Prop :=
  ∀ (e : Exchange) (s s' : ParseState), e.Twin s s' →
    (rule.step s).Twinned e s.rest (rule.step s')

namespace Rule

open Step

/-! ### Expressions -/

theorem twins_expr : expr.Twins := by
  intro e s s' hs
  refine twinned_call hs trivial fun node t t' _ ht => ?_
  rw [ht.loc]
  refine twinned_sees ht (by decide) (fun _ => ?_) fun _ => twinned_done ht
  exact twinned_callBehind ht trivial fun value u u' _ hu => twinned_done hu

theorem twins_level (l : Level) : (level l).Twins := by
  intro e s s' hs
  exact twinned_call hs (leavesBrackets_operand l) fun node t t' _ ht => twinned_last ht trivial

/-- What comes behind an operator is read behind it in both. -/
theorem twins_more (l : Level) (lhs : Node) : (more l lhs).Twins := by
  intro e s s' hs
  rw [step, step, hs.join?, hs.loc]
  cases l.join? s with
  | none => exact twinned_done hs
  | some join =>
    refine twinned_callBehind hs (leavesBrackets_operand l) fun rhs t t' _ ht => ?_
    rw [ht.symbols]
    exact twinned_ofResult fun node _ => twinned_last ht trivial

/-- An operator in front of an operand has been passed when the operand is read. -/
theorem twins_unary : unary.Twins := by
  intro e s s' hs
  rw [step, step, hs.sign?, hs.loc]
  cases s.sign? with
  | none => exact twinned_last hs trivial
  | some sign => exact twinned_callBehind hs trivial fun node t t' _ ht => twinned_done ht

theorem twins_postfixed : postfixed.Twins := by
  intro e s s' hs
  exact twinned_call hs trivial fun node t t' _ ht => twinned_last ht trivial

/-- A bracket that opens has been passed when the index is read. -/
theorem twins_subscripts (node : Node) : (subscripts node).Twins := by
  intro e s s' hs
  rw [step, step, hs.loc]
  refine twinned_sees hs (by decide) (fun _ => ?_) fun _ => twinned_done hs
  refine twinned_callBehind hs trivial fun index t t' _ ht => ?_
  refine twinned_expect ht fun u' hu => ?_
  rw [hu.symbols]
  exact twinned_ofResult fun place _ => twinned_last hu trivial

theorem twinned_callOf (name : String) (loc : Nat) (hs : e.Twin s s') :
    (callOf name loc s).Twinned e s.rest (callOf name loc s') := by
  unfold callOf
  split
  · exact twinned_fail
  · exact twinned_closeOr hs trivial fun hclose _ _ => not_yields_arguments hclose

/-- What a name refers to is a matter of the scopes, which are the same. -/
theorem twinned_useOf (name : String) (loc : Nat) (hs : e.Twin s s') :
    (useOf name loc s).Twinned e s.rest (useOf name loc s') := by
  unfold useOf
  rw [hs.scopes]
  cases s.scopes.find? name with
  | some ref => exact twinned_done hs
  | none => exact twinned_fail

/-- A primary expression moves past its first token, so if that one is exchanged it does not matter
what the other one starts. -/
theorem twinned_atom {y : Step Node} (hs : e.Twin s s')
    (hy : s'.current? = s.current? → y = atom s') : (atom s).Twinned e s.rest y := by
  have hkind : s'.current? = s.current? → s'.current?.map Token.kind = s.current?.map Token.kind :=
    congrArg _
  unfold atom
  split
  · next hname =>
    refine twinned_identifier (k := fun name loc t =>
      if t.sees "(" = true then callOf name loc t.advance else useOf name loc t) hs
      (fun name loc t' hcurrent ht => ?_) fun hsame => ?_
    · rw [hs.sees_open hcurrent ht]
      split
      · exact twinned_advance ht (fun u' hu => twinned_callOf name loc hu) fun _ => rfl
      · exact twinned_useOf name loc ht
    · rw [hy hsame, atom, hkind hsame, hname]
  · next hstring =>
    refine twinned_literal (k := fun bytes ty t =>
      done (.var ⟨s.loc, none⟩ (.globalVar t.globals.length)) (t.addLiteral bytes ty)) hs
      (fun bytes ty t' ht => ?_) fun hsame => ?_
    · rw [ht.globals]
      exact twinned_done (ht.map (f := (·.addLiteral bytes ty)) fun _ _ => rfl)
    · rw [hy hsame, atom, hkind hsame, hstring, hs.loc]
  · next hnumber =>
    refine twinned_number (k := fun value loc t => done (.num ⟨loc, none⟩ value) t) hs
      (fun value loc t' ht => twinned_done ht) fun hsame => ?_
    rw [hy hsame, atom, hkind hsame, hnumber]
  · exact twinned_fail

/-- An atom is read from one token, so the exchanged tokens come before it or behind it. -/
theorem twins_primary : primary.Twins := by
  intro e s s' hs
  by_cases hopen : s.sees "(" = true
  · rw [step_primary, if_pos hopen]
    refine twinned_advance (z := fun t => call expr t fun node u => expect ")" u fun v =>
      done node v) hs (fun t' ht => ?_) fun hsame => ?_
    · refine twinned_call ht trivial fun node u u' _ hu => ?_
      exact twinned_expect hu fun v' hv => twinned_done hv
    · have hopen' : s'.sees "(" = true := by rwa [ParseState.sees, hsame]
      rw [step_primary, if_pos hopen']
  · rw [step_primary, if_neg hopen]
    refine twinned_atom hs fun hsame => ?_
    have hopen' : ¬ s'.sees "(" = true := by rwa [ParseState.sees, hsame]
    rw [step_primary, if_neg hopen']

/-- A comma has been passed when the next argument is read. -/
theorem twins_arguments (loc : Nat) (name : String) (args : List Node) :
    (arguments loc name args).Twins := by
  intro e s s' hs
  rw [step, step]
  split
  · exact twinned_call hs trivial fun argument t t' _ ht => twinned_commaOrClose ht trivial
  · exact twinned_fail

/-! ### Declarations -/

theorem twins_stars (count : Nat) : (stars count).Twins := by
  intro e s s' hs
  exact twinned_sees hs (by decide) (fun _ => twinned_lastBehind hs trivial)
    fun _ => twinned_done hs

theorem twins_names (read : List DeclaredName) : (names read).Twins := by
  intro e s s' hs
  refine twinned_call hs trivial fun count t t' _ ht => ?_
  refine twinned_identifier ht (fun name loc u' _ hu => ?_) fun _ => rfl
  exact twinned_sees hu (by decide) (fun _ => twinned_lastBehind hu trivial)
    fun _ => twinned_done hu

theorem twins_dimensions (read : List (Int64 × Nat)) : (dimensions read).Twins := by
  intro e s s' hs
  refine twinned_sees hs (by decide) (fun _ => ?_) fun _ => twinned_done hs
  refine twinned_advance (z := fun t => number t fun len loc u => expect "]" u fun v =>
    call (dimensions (read ++ [(len, loc)])) v done) hs (fun t' ht => ?_) fun _ => rfl
  refine twinned_number ht (fun len loc u' hu => ?_) fun _ => rfl
  exact twinned_expect hu fun v' hv => twinned_last hv trivial

/-- The lengths of arrays are numbers, so nothing that could be exchanged stands in a type. -/
theorem twins_type : type.Twins := by
  intro e s s' hs
  refine twinned_call hs trivial fun dimensions t t' _ ht => ?_
  refine twinned_call ht trivial fun depth u u' _ hu => ?_
  have hbase : ∀ base : Ty,
      (ofRun ((Parse.arrayTypes base dimensions).run u.advance) done).Twinned e u.rest
        (ofRun ((Parse.arrayTypes base dimensions).run u'.advance) done) := fun base =>
    twinned_advance (z := fun v => ofRun ((Parse.arrayTypes base dimensions).run v) done) hu
      (fun v' hv => twinned_ofRun (Parse.blind_arrayTypes base dimensions) hv
        fun _ _ _ _ hw => twinned_done hw) fun _ => rfl
  refine twinned_sees hu (by decide) (fun _ => hbase _) fun _ => ?_
  exact twinned_sees hu (by decide) (fun _ => hbase _) fun _ => twinned_fail

theorem twins_values (read : List Node) : (values read).Twins := by
  intro e s s' hs
  refine twinned_call hs trivial fun value t t' _ ht => ?_
  exact twinned_sees ht (by decide) (fun _ => twinned_lastBehind ht trivial)
    fun _ => twinned_done ht

/-- The equals sign has been passed when the values are read. -/
theorem twins_initializers (count : Nat) : (initializers count).Twins := by
  intro e s s' hs
  refine twinned_sees hs (by decide) (fun _ => ?_) fun _ =>
    twinned_expect hs fun t' ht => twinned_done ht
  refine twinned_advance (z := fun t => call (values []) t fun values u =>
    if values.length = count then expect ";" u fun v => done values v
    else fail (.complaint t.loc (.initializerCount count values.length))) hs (fun t' ht => ?_)
    fun _ => rfl
  rw [ht.loc]
  refine twinned_call ht trivial fun values u u' _ hu => ?_
  split
  · exact twinned_expect hu fun v' hv => twinned_done hv
  · exact twinned_fail

/-- Locals are declared in both when all tokens of the declaration have been read. -/
theorem twins_declaration (loc : Nat) : (declaration loc).Twins := by
  intro e s s' hs
  refine twinned_call hs trivial fun names t t' _ ht => ?_
  refine twinned_call ht trivial fun ty u u' _ hu => ?_
  refine twinned_call hu trivial fun values v v' _ hv => ?_
  exact twinned_ofRun (Parse.blind_declareLocals ty names values) hv
    fun body w w' _ hw => twinned_done hw

/-! ### Statements -/

theorem twins_items (read : List Node) : (items read).Twins := by
  intro e s s' hs
  have hitem : ∀ (node : Node) (t t' : ParseState), e.Twin t t' →
      (ofResult (annotate t.symbols node) fun typed =>
          call (items (read ++ [typed])) t done).Twinned e t.rest
        (ofResult (annotate t'.symbols node) fun typed =>
          call (items (read ++ [typed])) t' done) := by
    intro node t t' ht
    rw [ht.symbols]
    exact twinned_ofResult fun typed _ => twinned_last ht trivial
  rw [step, step, hs.loc]
  refine twinned_sees hs (by decide) (fun _ => twinned_doneBehind hs) fun _ => ?_
  refine twinned_sees hs (by decide) (fun _ => ?_) fun _ => ?_
  · exact twinned_callBehind hs trivial fun node t t' _ ht => hitem node t t' ht
  · exact twinned_call hs trivial fun node t t' _ ht => hitem node t t' ht

theorem twins_block (loc : Nat) : (block loc).Twins := by
  intro e s s' hs
  have henter : e.Twin s.enterScope s'.enterScope := hs.map fun _ _ => rfl
  refine twinned_call henter trivial fun body t t' _ ht => ?_
  exact twinned_done (ht.map (f := ParseState.leaveScope) fun _ _ => rfl)

theorem twins_exprUnless {text : String} (htext : text ∉ brackets) : (exprUnless text).Twins := by
  intro e s s' hs
  refine twinned_sees hs htext (fun _ => twinned_done hs) fun _ => ?_
  exact twinned_call hs trivial fun node t t' _ ht => twinned_done ht

theorem twins_loopHead : loopHead.Twins := by
  intro e s s' hs
  refine twinned_sees hs (by decide) (fun _ => twinned_done hs) fun _ => ?_
  refine twinned_call hs (by decide : ";" ∉ brackets) fun first t t' _ ht => ?_
  refine twinned_sees ht (by decide) (fun _ => ?_) fun _ => twinned_done ht
  refine twinned_callBehind ht (by decide : ";" ∉ brackets) fun cond u u' _ hu => ?_
  refine twinned_expect hu fun v' hv => ?_
  exact twinned_call hv (by decide : "\x7b" ∉ brackets) fun step w w' _ hw => twinned_done hw

theorem twinned_exprStatement (hs : e.Twin s s') :
    (exprStatement s).Twinned e s.rest (exprStatement s') := by
  unfold exprStatement
  rw [hs.loc]
  refine twinned_sees hs (by decide) (fun _ => twinned_doneBehind hs) fun _ => ?_
  refine twinned_call hs trivial fun value t t' _ ht => ?_
  exact twinned_expect ht fun u' hu => twinned_done hu

theorem twins_stmt : stmt.Twins := by
  intro e s s' hs
  rw [step, step, hs.loc]
  refine twinned_sees hs (by decide) (fun _ => ?_) fun _ => ?_
  · refine twinned_callBehind hs trivial fun value t t' _ ht => ?_
    exact twinned_expect ht fun u' hu => twinned_done hu
  refine twinned_sees hs (by decide) (fun _ => ?_) fun _ => ?_
  · refine twinned_callBehind hs trivial fun cond t t' _ ht => ?_
    refine twinned_call ht trivial fun onTrue u u' _ hu => ?_
    refine twinned_sees hu (by decide) (fun _ => ?_) fun _ => twinned_done hu
    exact twinned_callBehind hu trivial fun onFalse v v' _ hv => twinned_done hv
  refine twinned_sees hs (by decide) (fun _ => ?_) fun _ => ?_
  · refine twinned_callBehind hs trivial fun head t t' _ ht => ?_
    exact twinned_call ht trivial fun body u u' _ hu => twinned_done hu
  refine twinned_sees hs (by decide) (fun _ => ?_) fun _ => twinned_exprStatement hs
  exact twinned_lastBehind hs trivial

/-! ### Functions and globals -/

theorem twins_parameters (read : List (Nat × Ty)) : (parameters read).Twins := by
  intro e s s' hs
  rw [step, step]
  split
  · refine twinned_identifier hs (fun name loc t' _ ht => ?_) fun _ => rfl
    refine twinned_call ht trivial fun ty u u' _ hu => ?_
    dsimp only
    rw [hu.locals]
    have hadded := hu.map (f := (·.addLocal { name, ty := ty.decay })) fun _ _ => rfl
    exact twinned_commaOrClose hadded trivial
  · exact twinned_fail

theorem twins_parameterList : parameterList.Twins := by
  intro e s s' hs
  exact twinned_closeOr hs trivial fun hclose _ _ => not_yields_parameters hclose

theorem twins_function : function.Twins := by
  intro e s s' hs
  rw [step, step]
  refine twinned_identifier hs (fun name loc t' _ ht => ?_) fun _ => rfl
  refine twinned_ofRun (Parse.blind_checkFunction name loc) ht fun _ u u' _ hu => ?_
  have hopen := hu.map (f := fun u => { u with locals := [] }.enterScope) fun _ _ => rfl
  refine twinned_expect hopen fun v' hv => ?_
  refine twinned_call hv trivial fun params w w' _ hw => ?_
  refine twinned_call hw trivial fun result x x' _ hx => ?_
  rw [hx.loc]
  refine twinned_expect hx fun y' hy => ?_
  refine twinned_call hy trivial fun body z z' _ hz => ?_
  rw [hz.locals]
  split
  · exact twinned_done (hz.map
      (f := fun z => z.leaveScope.addFunction name params result body) fun _ _ => rfl)
  · exact twinned_fail

theorem twins_global : global.Twins := by
  intro e s s' hs
  refine twinned_call hs trivial fun names t t' _ ht => ?_
  refine twinned_call ht trivial fun ty u u' _ hu => ?_
  refine twinned_call hu trivial fun values v v' _ hv => ?_
  exact twinned_ofRun (Parse.blind_declareGlobals ty names values) hv
    fun _ w w' _ hw => twinned_done hw

theorem twins_topLevel : topLevel.Twins := by
  intro e s s' hs
  refine twinned_sees hs (by decide) (fun _ => twinned_lastBehind hs trivial) fun _ => ?_
  exact twinned_sees hs (by decide) (fun _ => twinned_lastBehind hs trivial) fun _ => twinned_fail

end Rule

/-- **Every rule does the same with other tokens behind.** -/
theorem Rule.twins (rule : Rule α) (hrule : rule.LeavesBrackets) : rule.Twins := by
  cases rule with
  | expr => exact twins_expr
  | level l => exact twins_level l
  | more l lhs => exact twins_more l lhs
  | unary => exact twins_unary
  | postfixed => exact twins_postfixed
  | subscripts node => exact twins_subscripts node
  | primary => exact twins_primary
  | arguments loc name args => exact twins_arguments loc name args
  | stars count => exact twins_stars count
  | names read => exact twins_names read
  | dimensions read => exact twins_dimensions read
  | type => exact twins_type
  | values read => exact twins_values read
  | initializers count => exact twins_initializers count
  | declaration loc => exact twins_declaration loc
  | items read => exact twins_items read
  | block loc => exact twins_block loc
  | exprUnless text => exact twins_exprUnless hrule
  | loopHead => exact twins_loopHead
  | stmt => exact twins_stmt
  | parameters read => exact twins_parameters read
  | parameterList => exact twins_parameterList
  | function => exact twins_function
  | global => exact twins_global
  | topLevel => exact twins_topLevel

/-! ### Runs with other tokens behind -/

namespace Step

variable {a : α} {u : ParseState}

/-- A step that has a twin reads what the twin reads. -/
theorem Yields.twin {x : Step α} (h : x.Yields a u) :
    ∀ {y : Step α} {s s' : ParseState}, e.Twin s s' → x.Twinned e s.rest y →
      u.rest <:+ s.rest
        ∧ ∀ d, d <:+ e.front → u.rest = d ++ e.old → y.Yields a (u.facing (d ++ e.new)) := by
  induction h with
  | done =>
    intro y s s' _ hx
    refine ⟨hx.1, fun d hd hrest => ?_⟩
    rw [hx.2 d hd hrest]
    exact .done
  | @call _ _ rule t u v next b a hrule _ ihrule ihnext =>
    rintro y s s' hs ⟨hleaves, htrest, hy, hmore⟩
    obtain ⟨t', ht⟩ := hs.exists_of_suffix htrest
    obtain ⟨hurest, hread⟩ := ihrule ht (rule.twins hleaves e t t' ht)
    obtain ⟨u', hu⟩ := ht.exists_of_suffix hurest
    obtain ⟨hvrest, hreadnext⟩ := ihnext hu (hmore b u hrule u' hu)
    refine ⟨hvrest.trans (hurest.trans htrest), fun d hd hrest => ?_⟩
    have hold : e.old <:+ u.rest := List.IsSuffix.trans ⟨d, hrest.symm⟩ hvrest
    obtain ⟨c, hc, hcrest, rfl⟩ := hu.exists_front hold
    obtain ⟨c', hc', hcrest', rfl⟩ := ht.exists_front (hold.trans hurest)
    rw [hy c' hc' hcrest' ⟨b, u, hrule⟩]
    exact .call (hread c hc hcrest) (hreadnext d hd hrest)

/-- **What is read in front of some tokens is read in front of others.** -/
theorem Yields.exchange {rule : Rule α} (hrule : rule.LeavesBrackets) {c d : List Token}
    (h : (rule.step s).Yields a u) (hs : s.rest = c ++ e.old) (hc : c <:+ e.front)
    (hu : u.rest = d ++ e.old) (hd : d <:+ e.front) :
    (rule.step (s.facing (c ++ e.new))).Yields a (u.facing (d ++ e.new)) :=
  have htwin : e.Twin s (s.facing (c ++ e.new)) := .within hc hs
  (h.twin htwin (rule.twins hrule e _ _ htwin)).2 d hd hu

/-- **What is read through a call is read if the call reads the same.** -/
theorem Calls.exchange {rule : Rule γ} {x : Step α} (h : x.Calls rule s) (hs : s.rest = e.old)
    (hsame : ∀ b t, (rule.step s).Yields b t → (rule.step (s.facing e.new)).Yields b t) :
    ∀ {y : Step α} {t t' : ParseState}, e.Twin t t' → x.Twinned e t.rest y →
      e.old <:+ t.rest ∧ ∀ a u, x.Yields a u → y.Yields a u := by
  induction h with
  | here =>
    rintro y t t' ht ⟨-, hrest, hy, -⟩
    rw [hs] at hrest
    refine ⟨hrest, fun a u hread => ?_⟩
    cases hread with
    | call hrule hnext =>
      rw [hy [] (List.nil_suffix) hs ⟨_, _, hrule⟩]
      exact .call (hsame _ _ hrule) hnext
  | @inside _ _ outer v next _ ih =>
    rintro y t t' ht ⟨hleaves, hrest, hy, -⟩
    obtain ⟨v', hv⟩ := ht.exists_of_suffix hrest
    -- On the way down the rule that is called starts in states that are twins again.
    obtain ⟨hold, hread⟩ := ih hv (outer.twins hleaves e v v' hv)
    refine ⟨hold.trans hrest, fun a u hyields => ?_⟩
    obtain ⟨c, hc, hcrest, rfl⟩ := hv.exists_front hold
    cases hyields with
    | call hrule hnext =>
      rw [hy c hc hcrest ⟨_, _, hrule⟩]
      exact .call (hread _ _ hrule) hnext
  | @behind _ _ first v w next b hfirst _ ih =>
    rintro y t t' ht ⟨hleaves, hrest, hy, hmore⟩
    obtain ⟨v', hv⟩ := ht.exists_of_suffix hrest
    -- What is read before the call is read on both sides, and stops in front of the old tokens.
    obtain ⟨hwrest, hread⟩ := hfirst.twin hv (first.twins hleaves e v v' hv)
    obtain ⟨w', hw⟩ := hv.exists_of_suffix hwrest
    obtain ⟨hold, hreadnext⟩ := ih hw (hmore b w hfirst w' hw)
    refine ⟨hold.trans (hwrest.trans hrest), fun a u hyields => ?_⟩
    obtain ⟨c, hc, hcrest, rfl⟩ := hw.exists_front hold
    obtain ⟨d, hd, hdrest, rfl⟩ := hv.exists_front (hold.trans hwrest)
    cases hyields with
    | call hrule hnext =>
      -- A rule reads only one thing, so this derivation is the one that the call stands behind.
      obtain ⟨rfl, rfl⟩ := Prod.mk.inj (Except.ok.inj (hrule.run.symm.trans hfirst.run))
      rw [hy d hd hdrest ⟨_, _, hrule⟩]
      exact .call (hread c hc hcrest) (hreadnext _ _ hnext)

end Step

end PocketCompiler
