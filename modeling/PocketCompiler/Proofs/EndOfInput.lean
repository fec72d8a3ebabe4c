import PocketCompiler.Proofs.Grammar.Likeness
import PocketCompiler.Proofs.Grammar.Unit
import PocketCompiler.Proofs.SyntacticSugar

/-!
# The end of the tokens

Whatever the tokens are, reading them comes to an end, and it does not go past the first of them
that stands for the end of the source.

* Reading moves on over tokens that stand for no end (`IsLeft`), in every rule and up to every call
  (`Rule.onward`, `Step.Calls.onward`), and calls inside a call are lighter than the call itself
  (`Rule.weight`, `Step.Calls.weight_lt`).
* Where reading stops early, in whatever call, it stops with a complaint
  (`Source.Calls.exists_complaint`).
* So what follows the first end makes no difference, and the end of the list is as good as a token
  for it (`readUnits_congr`).

`Source.parse_to_end` has all of this for the tokens of a source.
-/

namespace PocketCompiler

variable {α β γ : Type} {s t u : ParseState} {tokens left more : List Token}

/-! ### Tokens that are left -/

/-- Of `tokens` some have been read, none of which stands for the end of the source, and `left` are
left. -/
def IsLeft (tokens left : List Token) : Prop :=
  ∃ read, tokens = read ++ left ∧ ∀ token ∈ read, token.kind ≠ .eof

namespace IsLeft

/-- All tokens are left where none has been read. -/
theorem refl (tokens : List Token) : IsLeft tokens tokens :=
  ⟨[], rfl, fun _ h => absurd h List.not_mem_nil⟩

/-- What is left of what is left is left. -/
theorem trans (h : IsLeft tokens left) (h' : IsLeft left more) : IsLeft tokens more := by
  obtain ⟨read, rfl, hread⟩ := h
  obtain ⟨read', rfl, hread'⟩ := h'
  refine ⟨read ++ read', (List.append_assoc _ _ _).symm, fun token htoken => ?_⟩
  rcases List.mem_append.1 htoken with htoken | htoken
  · exact hread token htoken
  · exact hread' token htoken

/-- A token that is not the end of the source may be moved past. -/
theorem advance {token : Token} (h : s.current? = some token) (hkind : token.kind ≠ .eof) :
    IsLeft s.rest s.advance.rest := by
  refine ⟨[token], ParseState.rest_of_current? h, fun found hfound => ?_⟩
  rw [List.mem_singleton.1 hfound]
  exact hkind

/-- No keyword or punctuator is the end of the source. -/
theorem of_sees {text : String} (h : s.sees text = true) : IsLeft s.rest s.advance.rest := by
  obtain ⟨token, hcurrent, hreads⟩ := ParseState.exists_of_sees h
  refine advance hcurrent fun heof => ?_
  rw [Token.reads, heof] at hreads
  exact Bool.false_ne_true hreads

/-- No identifier is the end of the source. -/
theorem of_identifier {loc : Nat} {name : String}
    (h : s.current? = some ⟨.identifier, loc, name⟩) : IsLeft s.rest s.advance.rest :=
  advance h TokenKind.noConfusion

/-- No number is the end of the source. -/
theorem of_number {value : Int64} {loc : Nat} {text : String}
    (h : s.current? = some ⟨.number (some value), loc, text⟩) : IsLeft s.rest s.advance.rest :=
  advance h TokenKind.noConfusion

/-- No string literal is the end of the source. -/
theorem of_literal {bytes : List UInt8} {ty : Ty} {loc : Nat} {text : String}
    (h : s.current? = some ⟨.string (some bytes) (some ty), loc, text⟩) :
    IsLeft s.rest s.advance.rest :=
  advance h TokenKind.noConfusion

theorem of_join? {l : Level} {join : Join} (h : l.join? s = some join) :
    IsLeft s.rest s.advance.rest := by
  obtain ⟨text, -, hsees⟩ := Level.exists_sees_of_join? h
  exact of_sees hsees

theorem of_sign? {sign : Sign} (h : s.sign? = some sign) : IsLeft s.rest s.advance.rest := by
  obtain ⟨text, -, hsees⟩ := ParseState.exists_sees_of_sign? h
  exact of_sees hsees

end IsLeft

/-! ### Rules move on -/

/-- Calls are made where `tokens` have been read in part, and the rules that are called move on. -/
def Contract.onward (tokens : List Token) : Contract where
  pre _ s := IsLeft tokens s.rest
  post _ s _ t := IsLeft s.rest t.rest

/-- The rule moves on, and so it does up to every call. -/
def Rule.Onward (rule : Rule α) : Prop :=
  ∀ s, (rule.step s).Meets (.onward s.rest) fun _ t => IsLeft s.rest t.rest

namespace Rule

section Onward

open Step

attribute [local grind →] IsLeft.trans IsLeft.of_sees IsLeft.of_join? IsLeft.of_sign?
attribute [local grind .] IsLeft.refl

/-- An operand comes earlier in the grammar than the level that it belongs to. -/
theorem onward_level (l : Level) : (level l).Onward := by
  intro s
  rw [step]
  cases l <;>
  · simp only [Level.operand, meets_call, meets_done, Contract.onward]
    grind -ring -linarith

/-- Behind an operator fewer tokens are left for the right operand. -/
theorem onward_more (l : Level) (lhs : Node) : (Rule.more l lhs).Onward := by
  intro s
  rw [step]
  split
  · exact .refl _
  · cases l <;>
    · simp only [Level.operand, meets_call, meets_ofResult, meets_done, Contract.onward]
      grind -ring -linarith

/-- Behind a sign fewer tokens are left for the operand. -/
theorem onward_unary : unary.Onward := by
  intro s
  rw [step]
  split
  · simp only [meets_call, meets_done, Contract.onward]
    grind -ring -linarith
  · simp only [meets_call, meets_done, Contract.onward]
    grind -ring -linarith

/-- Behind a parenthesis or a name fewer tokens are left. -/
theorem onward_primary : primary.Onward := by
  intro s
  refine meets_ite.2 ⟨fun _ => ?_, fun _ => ?_⟩
  · simp only [meets_call, meets_expect, meets_done, Contract.onward]
    grind -ring -linarith
  split
  · refine meets_identifier.2 fun name loc hcurrent => ?_
    have hname := IsLeft.of_identifier hcurrent
    simp only [callOf, useOf, meets_ite, meets_fail, meets_call, meets_done, Contract.onward]
    refine ⟨by grind -ring -linarith, fun _ => ?_⟩
    split
    · exact hname
    · trivial
  · exact meets_literal.2 fun _ _ _ _ => IsLeft.of_literal
  · exact meets_number.2 fun _ _ _ => IsLeft.of_number
  · trivial

/-- Behind the name of a parameter fewer tokens are left for its type. -/
theorem onward_parameters (read : List (Nat × Ty)) : (parameters read).Onward := by
  intro s
  have hadd : ∀ (t : ParseState) v, (t.addLocal v).rest = t.rest := fun _ _ => rfl
  rw [step]
  simp only [meets_ite, meets_identifier, meets_call, meets_expect, meets_done, meets_fail,
    Contract.onward]
  grind -ring -linarith [IsLeft.of_identifier]

theorem onward_function : function.Onward := by
  intro s
  rw [step]
  simp only [meets_identifier, meets_ofRun, meets_expect, meets_ite, meets_call, meets_done,
    meets_fail, Contract.onward, ParseState.leaveScope, ParseState.addFunction]
  intro name loc hcurrent _ t hcheck hopen
  have hname := IsLeft.of_identifier hcurrent
  -- Looking for another function of the same name does not read.
  have hrest := (Parse.blind_checkFunction name loc).rest hcheck
  have hparen := IsLeft.of_sees hopen
  change IsLeft t.rest _ at hparen
  rw [hrest] at hparen
  grind -ring -linarith

/-- **Every rule moves on.** -/
theorem onward (rule : Rule α) : rule.Onward := by
  -- Rules that test a token which decides between several kinds have lemmas of their own.
  cases rule with
  | level l => exact onward_level l
  | more l lhs => exact onward_more l lhs
  | unary => exact onward_unary
  | primary => exact onward_primary
  | type =>
    intro s
    rw [step]
    simp only [meets_call, meets_ite, meets_ofRun, meets_done, meets_fail, Contract.onward]
    grind -ring -linarith [Parse.blind_arrayTypes, Parse.Blind.rest]
  | declaration loc =>
    intro s
    rw [step]
    simp only [meets_call, meets_ofRun, meets_done, Contract.onward]
    grind -ring -linarith [Parse.blind_declareLocals, Parse.Blind.rest]
  | global =>
    intro s
    rw [step]
    simp only [meets_call, meets_ofRun, meets_done, Contract.onward]
    grind -ring -linarith [Parse.blind_declareGlobals, Parse.Blind.rest]
  | stmt =>
    intro s
    rw [step]
    simp only [exprStatement, meets_ite, meets_call, meets_expect, meets_done, Contract.onward]
    grind -ring -linarith
  | block loc =>
    intro s
    rw [step]
    simp only [meets_call, meets_done, Contract.onward, ParseState.leaveScope,
      ParseState.enterScope]
    grind -ring -linarith
  | parameters read => exact onward_parameters read
  | function => exact onward_function
  | _ =>
    -- The others do nothing but look at tokens and call rules.
    intro s
    rw [step]
    simp only [meets_call, meets_ite, meets_expect, meets_ofResult, meets_identifier, meets_number,
      meets_done, meets_fail, Contract.onward]
    grind -ring -linarith [IsLeft.of_identifier, IsLeft.of_number]

end Onward

end Rule

/-- No rule moves past the end of the source. -/
theorem Contract.holds_onward (tokens : List Token) : (Contract.onward tokens).Holds := by
  intro α rule s hs
  refine Step.Meets.imp ?_ ?_ (rule.onward s)
  · exact fun _ _ => hs.trans
  · exact fun _ _ _ _ h => h

/-- What a rule has read is some of the tokens, and the end of the source is not among them. -/
theorem Step.Yields.onward {rule : Rule α} {a : α} (h : (rule.step s).Yields a t) :
    IsLeft s.rest t.rest :=
  Contract.Holds.yields (Contract.holds_onward s.rest) (IsLeft.refl _) h

/-- Every call that is come to may assume what the contract says. -/
theorem Step.Calls.meets {c : Contract} (hc : c.Holds) {rule : Rule γ} {x : Step α}
    (h : x.Calls rule s) : ∀ {post : α → ParseState → Prop}, x.Meets c post → c.pre rule s := by
  induction h with
  | here => exact fun hx => hx.1
  | inside _ ih => exact fun hx => ih (hc _ _ hx.1)
  | behind hrule _ ih => exact fun hx => ih (hx.2 _ _ (hrule.meets hc (hc _ _ hx.1)))

/-- **What a rule calls starts in tokens that the rule has left.** -/
theorem Step.Calls.onward {rule : Rule α} {inner : Rule γ} (h : (rule.step s).Calls inner t) :
    IsLeft s.rest t.rest :=
  h.meets (Contract.holds_onward s.rest) (rule.onward s)

/-- What a call has before it: the tokens that are left, and among calls on the same tokens the
rules that come earlier in the grammar. -/
def Rule.weight (rule : Rule α) (s : ParseState) : Nat := 16 * s.rest.length + rule.rank

/-- A rule that starts below a bound makes its calls below it. -/
theorem Contract.holds_below (bound : Nat) : (Contract.below bound).Holds := by
  intro α rule s hs
  refine Step.Meets.imp ?_ ?_ (rule.descends s)
  · exact fun _ _ hcall => Nat.lt_trans hcall hs
  · exact fun _ _ _ _ h => h

/-- **A call inside a call is lighter.** -/
theorem Step.Calls.weight_lt {rule : Rule α} {inner : Rule γ} (h : (rule.step s).Calls inner t) :
    inner.weight t < rule.weight s :=
  h.meets (Contract.holds_below (rule.weight s)) (rule.descends s)

/-- Declarations that are read one after the other do not move past the end. -/
theorem ParseState.Units.onward (h : s.Units t) : IsLeft s.rest t.rest := by
  induction h with
  | refl => exact .refl _
  | next _ hread _ ih => exact hread.onward.trans ih

/-! ### Reading that stops early -/

/-- **A parser that fails complains**, whatever tokens it is given. -/
theorem exists_complaint_of_parse {source : Source} {failure : Failure}
    (h : parse source tokens = .error failure) : ∃ loc cause, failure = .complaint loc cause :=
  Failure.isComplaint_iff.1 ((ends_parse source tokens).of_eq_error h)

/-- **A call that fails complains**, whatever the tokens are: its failure is that of the whole. -/
theorem Source.Calls.exists_complaint {source : Source} {rule : Rule γ} {failure : Failure}
    (h : source.Calls tokens rule s) (hfails : (rule.step s).Fails failure) :
    ∃ loc cause, failure = .complaint loc cause :=
  exists_complaint_of_parse (h.parse_eq_error hfails)

/-! ### What follows the end makes no difference -/

/-- No function has been read in either state. -/
def Likeness.initial : Likeness := ⟨[], [], rfl⟩

/-- Where no function has been read, states that are alike have the same program. -/
theorem Likeness.Like.program (h : Likeness.initial.Like s s') : s'.program = s.program := by
  cases h with
  | intro hends hadded =>
    rw [ParseState.program, ParseState.program, hadded]
    rfl

/-- States that are alike stop at the same failure. -/
theorem Likeness.Like.stopsAt {e : Likeness} {failure : Option Failure} (h : e.Like s s')
    (hstop : s.StopsAt failure) : s'.StopsAt failure := by
  cases failure with
  | none => exact h.atEnd.trans hstop
  | some failure =>
    exact ⟨h.atEnd.trans hstop.1, hstop.2.like (Rule.topLevel.likens e s s' h)⟩

/-- **Tokens that end alike are read alike**: the program is the same, and so is the failure. -/
theorem readUnits_congr {source : Source} (h : EndsAlike source.byteSize tokens more) :
    readUnits source more = readUnits source tokens := by
  obtain ⟨program, failure, hread⟩ : ∃ program failure,
    readUnits source tokens = (program, failure) := ⟨_, _, rfl⟩
  obtain ⟨t, hunits, hstop, rfl⟩ := readUnits_eq_iff.1 hread
  have hstart : Likeness.initial.Like (source.start tokens) (source.start more) :=
    .intro (s := source.start tokens) h rfl
  obtain ⟨t', ht, hunits'⟩ := hunits.like hstart
  rw [hread]
  exact readUnits_eq_iff.2 ⟨t', hunits', ht.stopsAt hstop, ht.program⟩

/-- Only the tokens up to the end of the source are looked at. -/
theorem parse_congr {source : Source} (h : EndsAlike source.byteSize tokens more) :
    parse source more = parse source tokens := by
  rw [parse, parse, readUnits_congr h]

/-- What follows an end is not looked at. -/
theorem EndsAlike.cut {stop : Nat} {last : Token} (hlast : last.kind = .eof)
    (tokens rest : List Token) : EndsAlike stop (tokens ++ [last]) (tokens ++ last :: rest) :=
  .append tokens (.ends (isEnd_cons hlast) (isEnd_cons hlast) rfl)

/-- No token is as good as the one for the end. -/
theorem EndsAlike.atEnd (source : Source) (tokens : List Token) :
    EndsAlike source.byteSize tokens (tokens ++ [Token.atEnd source]) := by
  have hnone : EndsAlike source.byteSize [] [Token.atEnd source] :=
    .ends isEnd_nil (isEnd_cons rfl) rfl
  have hends := hnone.append tokens
  rwa [List.append_nil] at hends

/-! ### Reading to the end -/

/-- **Any tokens are read to an end, and none behind the first end of the source.**

* Every call that reading comes to, and every state between declarations, is in front of that end or
  at it.  The call comes to a result further on or to a complaint, and the calls inside it are
  further on and lighter.
* The result is the program of the declarations that are read up to the end, the failure is the
  complaint that stops them, and there is always one or the other.
* Tokens behind one for the end can be left out, and so can the last one for it. -/
theorem Source.parse_to_end (source : Source) (tokens : List Token) :
    (∀ {γ : Type} (rule : Rule γ) s, source.Calls tokens rule s → IsLeft tokens s.rest
        ∧ ((∃ a t, (rule.step s).Yields a t ∧ IsLeft s.rest t.rest)
          ∨ ∃ loc cause, (rule.step s).Fails (.complaint loc cause))
        ∧ ∀ {δ : Type} (inner : Rule δ) t, (rule.step s).Calls inner t →
          IsLeft s.rest t.rest ∧ inner.weight t < rule.weight s)
      ∧ (∀ t, (source.start tokens).Units t → IsLeft tokens t.rest)
      ∧ (∃ t, (source.start tokens).Units t
        ∧ ((t.atEnd = true ∧ parse source tokens = .ok t.program)
          ∨ ∃ loc cause, t.atEnd = false ∧ (Rule.topLevel.step t).Fails (.complaint loc cause)
            ∧ parse source tokens = .error (.complaint loc cause)))
      ∧ (∀ (last : Token) rest, last.kind = .eof →
        parse source (tokens ++ [last] ++ rest) = parse source (tokens ++ [last]))
      ∧ parse source (tokens ++ [Token.atEnd source]) = parse source tokens := by
  refine ⟨fun rule s hcalls => ?_, fun t hunits => hunits.onward, ?_, fun last rest hlast => ?_, ?_⟩
  · have ⟨t, hunits, _, hcall⟩ := hcalls
    refine ⟨hunits.onward.trans hcall.onward, ?_, fun inner t hinner => ?_⟩
    -- Every call has an outcome, and where it is a failure it is no fault.
    · rcases rule.exists_outcome s with ⟨a, t, hread⟩ | ⟨failure, hfails⟩
      · exact .inl ⟨a, t, hread, hread.onward⟩
      · obtain ⟨loc, cause, rfl⟩ := hcalls.exists_complaint hfails
        exact .inr ⟨loc, cause, hfails⟩
    · exact ⟨hinner.onward, hinner.weight_lt⟩
  -- Declarations are read in turn; the end or a complaint comes after the last one.
  · cases hparse : parse source tokens with
    | ok program =>
      obtain ⟨t, hunits, hend, rfl⟩ := parse_eq_ok_iff.1 hparse
      exact ⟨t, hunits, .inl ⟨hend, rfl⟩⟩
    | error failure =>
      obtain ⟨loc, cause, rfl⟩ := exists_complaint_of_parse hparse
      obtain ⟨t, hunits, hend, hfails⟩ := parse_eq_error_iff.1 hparse
      exact ⟨t, hunits, .inr ⟨loc, cause, hend, hfails, rfl⟩⟩
  -- What stands behind a token of the end is not read.
  · rw [List.append_assoc]
    exact parse_congr (.cut hlast tokens rest)
  · exact parse_congr (.atEnd source tokens)

/-- A function that gives an array whose length has no value.  The number is read, and nothing
behind it. -/
theorem Source.parse_to_end_unfinished :
    let source : Source := ⟨"unfinished", "func f() [9]int"⟩
    let tokens : List Token := [⟨.keyword, 0, "func"⟩, ⟨.identifier, 5, "f"⟩,
      ⟨.punctuator, 6, "("⟩, ⟨.punctuator, 7, ")"⟩, ⟨.punctuator, 9, "["⟩, ⟨.number none, 10, "9"⟩]
    let last : Token := ⟨.eof, 15, ""⟩
    let more : List Token := [⟨.string none none, 9, "["⟩, ⟨.eof, 0, "func"⟩]
    let s : ParseState := { rest := tokens.tail, stop := 15 }
    source.Calls tokens .function s ∧ last.kind = .eof
      ∧ IsLeft tokens s.rest
      ∧ (∃ t, (source.start tokens).Units t
        ∧ (Rule.topLevel.step t).Fails (.complaint 10 .numberWithoutValue))
      ∧ parse source (tokens ++ [last] ++ more) = parse source (tokens ++ [last])
      ∧ parse source (tokens ++ [last]) = parse source tokens
      ∧ parse source tokens = .error (.complaint 10 .numberWithoutValue) := by
  intro source tokens last more s
  have hcalls : source.Calls tokens .function s := ⟨source.start tokens, .refl, rfl, .here⟩
  have hparse : parse source tokens = .error (.complaint 10 .numberWithoutValue) := rfl
  obtain ⟨hcall, -, ⟨t, hunits, hread⟩, hcut, hend⟩ := source.parse_to_end tokens
  refine ⟨hcalls, rfl, (hcall _ s hcalls).1, ⟨t, hunits, ?_⟩, hcut last more rfl, hend, hparse⟩
  rcases hread with ⟨-, hok⟩ | ⟨loc, cause, -, hfails, herror⟩
  · rw [hparse] at hok
    cases hok
  · rw [Except.error.inj (hparse.symm.trans herror)]
    exact hfails

end PocketCompiler
