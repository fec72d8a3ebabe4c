import PocketCompiler.Proofs.Grammar.Sugar
import PocketCompiler.Proofs.Layout

/-!
# Syntactic sugar

`Source.Desugars tokens plain`: one piece of sugar in the tokens of a source is spelled out in
`plain`.  It is a subscript, for which the value at a sum is written, or it is two operands in
parentheses without string literals, which change places around a comparison or around a sum of a
pointer and a number.  What counts as a piece of sugar is what reading the source takes for it.

The two are read as the same tree (`Proofs/Grammar/Sugar.lean`), so everything around them is read
as before (`Proofs/Grammar/Exchange.lean`) and the assembly is the same.  Trees hold places, which
differ; so both sources are compared with one of which all tokens are said to be at its start.
-/

namespace PocketCompiler

variable {α β γ : Type} {s t u p q : ParseState} {node : Node}

/-! ### Calls that a source comes to -/

/-- Reading the tokens of a source comes to a call of `rule` in the state `s`. -/
def Source.Calls (source : Source) (tokens : List Token) (rule : Rule γ) (s : ParseState) : Prop :=
  ∃ t, (source.start tokens).Units t ∧ t.atEnd = false ∧ (Rule.topLevel.step t).Calls rule s

/-- A failure of a call that is come to is the failure of all. -/
theorem Step.Calls.fails {rule : Rule γ} {failure : Failure} {x : Step α} (h : x.Calls rule s)
    (hfails : (rule.step s).Fails failure) : x.Fails failure := by
  induction h with
  | here => exact .inside hfails
  | inside _ ih => exact .inside ih
  | behind hrule _ ih => exact .behind hrule ih

/-- A call that fails is where reading the source ends. -/
theorem Source.Calls.parse_eq_error {source : Source} {tokens : List Token} {rule : Rule γ}
    {failure : Failure} (h : source.Calls tokens rule s) (hfails : (rule.step s).Fails failure) :
    parse source tokens = .error failure := by
  obtain ⟨t, hunits, hend, hcalls⟩ := h
  exact parse_eq_error_iff.2 ⟨t, hunits, hend, hcalls.fails hfails⟩

/-- What is read is not at the end of the tokens. -/
theorem ParseState.atEnd_eq_false_of_yields (h : (Rule.topLevel.step s).Yields () t) :
    s.atEnd = false := by
  rcases reads_of_yields h with ⟨hsees, -⟩ | ⟨hsees, -⟩
  · exact atEnd_eq_false_of_sees hsees
  · exact atEnd_eq_false_of_sees hsees

/-- Declarations may be read in two parts. -/
theorem ParseState.Units.trans (h : s.Units t) (h' : t.Units u) : s.Units u := by
  induction h with
  | refl => exact h'
  | next hs hread _ ih => exact .next hs hread (ih h')

/-- **If a call reads the same with other tokens, a source with these is the same program.** -/
theorem Source.parse_exchange {source : Source} {tokens : List Token} {program : Program}
    {e : Exchange} {rule : Rule γ} (hparse : parse source tokens = .ok program)
    (hcalls : source.Calls tokens rule s) (hs : s.rest = e.old)
    (htokens : tokens = e.front ++ e.old)
    (hsame : ∀ b t, (rule.step s).Yields b t → (rule.step (s.facing e.new)).Yields b t) :
    parse source (e.front ++ e.new) = .ok program := by
  obtain ⟨last, hunits, hend, hprogram⟩ := parse_eq_ok_iff.1 hparse
  obtain ⟨t, hbefore, hnotEnd, hcall⟩ := hcalls
  obtain ⟨front, hfront, hmore⟩ := hbefore.exists_front
  have hstart : (source.start tokens).rest = e.front ++ e.old := htokens
  have htwin := Exchange.Twin.within (List.suffix_refl _) hstart
  -- The declaration in which the call is, and those behind it.
  obtain ⟨t', ht⟩ := htwin.exists_of_suffix (t := t) ⟨front, hfront.symm⟩
  obtain ⟨hold, hread⟩ := hcall.exchange hs hsame ht (Rule.topLevel.twins trivial e t t' ht)
  obtain ⟨c, hc, hrest, rfl⟩ := ht.exists_front hold
  have htogether : front ++ c ++ e.old = e.front ++ e.old := by
    rw [List.append_assoc, ← hrest, ← hfront]
    exact hstart
  have hsplit : front ++ c = e.front := List.append_cancel_right htogether
  refine parse_eq_ok_iff.2 ⟨last, ?_, hend, hprogram⟩
  have hmore' := hmore (c ++ e.new)
  rw [← List.append_assoc, hsplit] at hmore'
  cases hbefore.of_atEnd hunits hend with
  | refl => exact absurd (hnotEnd.symm.trans hend) Bool.false_ne_true
  | next _ hthis hbehind =>
    have hthis' := hread _ _ hthis
    exact hmore'.trans (.next (ParseState.atEnd_eq_false_of_yields hthis') hthis' hbehind)

/-! ### In other words -/

section Mirror

variable {w : Rewording}

/-- A call that is come to is carried over. -/
theorem Step.Calls.mirror {rule : Rule γ} {x : Step α} (h : x.Calls rule s) :
    ∀ {f : α → α} {y : Step α}, x.Mirrored w f y →
      w.Fits s ∧ y.Calls (w.rule rule) (w.state s) := by
  induction h with
  | here =>
    rintro f y ⟨hs, -, next', rfl, -⟩
    exact ⟨hs, .here⟩
  | @inside _ _ outer t next _ ih =>
    rintro f y ⟨ht, hkeeps, next', rfl, -⟩
    obtain ⟨hs, hcalls⟩ := ih (outer.mirrors w t ht hkeeps)
    exact ⟨hs, .inside hcalls⟩
  | @behind _ _ first t u next b hfirst _ ih =>
    rintro f y ⟨ht, hkeeps, next', rfl, hmirror⟩
    obtain ⟨hu, hfirst'⟩ := hfirst.mirror (first.mirrors w t ht hkeeps)
    obtain ⟨hs, hcalls⟩ := ih (hmirror b u hfirst hu)
    exact ⟨hs, .behind hfirst' hcalls⟩

/-- In other words a source comes to the same calls. -/
theorem Source.Calls.mirror {source : Source} {tokens : List Token} {rule : Rule γ}
    (h : source.Calls tokens rule s) (other : Source) (hstop : other.byteSize = w.stop)
    (hfaithful : w.Faithful) (hfits : w.Fits (source.start tokens)) :
    w.Fits s ∧ other.Calls (tokens.map w.token) (w.rule rule) (w.state s) := by
  obtain ⟨t, hunits, hend, hcalls⟩ := h
  obtain ⟨ht, hunits'⟩ := hunits.mirror hfits fun v _ => hfaithful v.name
  rw [Rewording.start_eq hstop] at hunits'
  obtain ⟨hs, hcalls'⟩ :=
    hcalls.mirror (Rule.topLevel.mirrors w t ht fun _ _ v _ => hfaithful v.name)
  refine ⟨hs, w.state t, hunits', ?_, hcalls'⟩
  rw [Rewording.atEnd_state]
  exact hend

namespace ParseState

variable {text : String} {inner : List Token}

/-- In other words the same text is seen. -/
theorem At.mirror (h : s.At text) : (w.state s).At text := by
  obtain ⟨loc, hcurrent⟩ := h
  refine ⟨w.place loc, ?_⟩
  rw [Rewording.current?_state, hcurrent]
  rfl

theorem At.fits (h : s.At text) (hs : w.Fits s) : w.Fits s.advance := by
  obtain ⟨loc, hcurrent⟩ := h
  exact hs.advance hcurrent nofun

/-- The tokens between two states are carried over. -/
theorem rest_state (h : s.rest = inner ++ t.rest) :
    (w.state s).rest = inner.map w.token ++ (w.state t).rest := by
  show s.rest.map w.token = _
  rw [h, List.map_append]
  rfl

/-- In other words the same subscripts are read. -/
theorem ReadsPostfix.mirror (h : s.ReadsPostfix node p) (hs : w.Fits s) :
    w.Fits p ∧ (w.state s).ReadsPostfix (node.moved w.place) (w.state p) := by
  induction h with
  | primary h =>
    obtain ⟨ht, hread⟩ := h.mirror (Rule.primary.mirrors w s hs trivial)
    exact ⟨ht, .primary hread⟩
  | @subscript node index place p q _ hopen hindex hclose hplace ih =>
    obtain ⟨hp, hread⟩ := ih
    obtain ⟨hq, hindex'⟩ := hindex.mirror (Rule.expr.mirrors w _ (hopen.fits hp) trivial)
    refine ⟨hclose.fits hq, ?_⟩
    have hplace' : Join.typed Node.sum (w.state q.advance).symbols (node.moved w.place)
        (index.moved w.place) (w.state p).loc = .ok (place.moved w.place) := by
      rw [hp.loc, Rewording.typed_moved Node.sum_moved, hplace]
      rfl
    rw [← Rewording.advance_state] at hindex' hplace' ⊢
    have hsub := hread.subscript hopen.mirror hindex' hclose.mirror hplace'
    rw [hp.loc] at hsub
    exact hsub

/-- In other words the same parentheses are read. -/
theorem ReadsParens.mirror (h : s.ReadsParens inner node t) (hs : w.Fits s) :
    w.Fits t ∧ (w.state s).ReadsParens (inner.map w.token) (node.moved w.place) (w.state t) := by
  cases h with
  | @intro t hopen hnode hinner hclose =>
    obtain ⟨ht, hnode'⟩ := hnode.mirror (Rule.expr.mirrors w _ (hopen.fits hs) trivial)
    have hsplit := rest_state (w := w) hinner
    rw [← Rewording.advance_state] at hnode' hsplit ⊢
    exact ⟨hclose.fits ht, .intro hopen.mirror hnode' hsplit hclose.mirror⟩

end ParseState

/-- Whether an expression is an address does not depend on its place. -/
theorem Node.isAddress_moved : (node.moved w.place).IsAddress (w.state s).symbols
    ↔ node.IsAddress s.symbols := by
  have hannotate : annotate (w.state s).symbols (node.moved w.place)
      = moveResult w.place (Node.moved w.place) (annotate s.symbols node) :=
    annotate_moved Rewording.sameTypes_state node
  unfold IsAddress
  rw [hannotate]
  cases annotate s.symbols node with
  | error failure => exact ⟨nofun, nofun⟩
  | ok typed =>
    constructor
    · rintro ⟨_, ty, htyped, hty, hbase⟩
      obtain rfl := Except.ok.inj htyped
      rw [Node.ty_moved] at hty
      exact ⟨typed, ty, rfl, hty, hbase⟩
    · rintro ⟨_, ty, htyped, hty, hbase⟩
      obtain rfl := Except.ok.inj htyped
      exact ⟨_, ty, rfl, (Node.ty_moved _).trans hty, hbase⟩

/-- What may be swapped may be swapped in other words. -/
theorem Node.Swaps.mirror {l r : Node} {op swapped : String}
    (h : Node.Swaps s.symbols l r op swapped) :
    Node.Swaps (w.state s).symbols (l.moved w.place) (r.moved w.place) op swapped := by
  cases h with
  | greater => exact .greater
  | atLeast => exact .atLeast
  | sum h => exact .sum (by rwa [Node.isAddress_moved, Node.isAddress_moved])

end Mirror

/-! ### Sugar in a source -/

/-- In `plain` one piece of sugar in the tokens of the source is spelled out.  The words that are
written anew are said to be at the start of the source.

* A subscript `operand[index]`, read as such, is written as `( * ( operand + ( index ) ) )`, unless
  a name is right in front of it, which the parenthesis would make the name of a function.
* An expression `(lhs) op (rhs)` with a parenthesis behind it, which is all that is read there, is
  written as `(rhs) swapped (lhs)`, if there is no string literal in it. -/
inductive Source.Desugars (source : Source) (tokens : List Token) : (plain : List Token) → Prop
  | subscript {before operand index : List Token} {s p q : ParseState} {base i : Node}
      (hcalls : source.Calls tokens .postfixed s) (hbefore : tokens = before ++ s.rest)
      (hname : ∀ token ∈ before.getLast?, token.kind ≠ .identifier)
      (hbase : s.ReadsPostfix base p) (hoperand : s.rest = operand ++ p.rest) (hopen : p.At "[")
      (hi : (Rule.expr.step p.advance).Yields i q) (hindex : p.advance.rest = index ++ q.rest)
      (hclose : q.At "]") :
    Desugars source tokens (before ++ (dereferenced operand index ++ q.advance.rest))
  | operands {before lhs rhs : List Token} {s t u : ParseState} {l r : Node} {op swapped : String}
      (hcalls : source.Calls tokens .expr s) (hbefore : tokens = before ++ s.rest)
      (hlhs : s.ReadsParens lhs l t) (hop : t.At op) (hrhs : t.advance.ReadsParens rhs r u)
      (hclose : u.At ")") (hswaps : Node.Swaps u.symbols l r op swapped)
      (hnone : ∀ token ∈ lhs, token.isLiteral = false)
      (hnone' : ∀ token ∈ rhs, token.isLiteral = false) :
    Desugars source tokens (before ++ (swappedOperands swapped lhs rhs ++ u.rest))

/-- Where a primary expression is read, what starts with a parenthesis may stand. -/
def Exchange.opening (hs : s.Placeless) (hread : (Rule.primary.step s).Yields node t)
    (front new : List Token)
    (hparen : (∀ token ∈ front.getLast?, token.kind ≠ .identifier) ∨ s.sees "(" = true) :
    Exchange where
  front := front
  old := s.rest
  new := .punctuator "(" :: new
  loc := by
    obtain ⟨first, rest, hrest⟩ := hread.exists_cons
    have hfirst : first.loc = 0 := hs first (by rw [hrest]; exact List.mem_cons_self)
    rw [hrest]
    exact congrArg some hfirst.symm
  nonempty := by
    obtain ⟨first, rest, hrest⟩ := hread.exists_cons
    rw [hrest]
    exact List.cons_ne_nil _ _
  quiet text htext := by
    have hne : text ≠ "(" := by
      rintro rfl
      exact htext (by decide)
    exact ⟨Rule.not_sees_of_primary hread hne, beq_false_of_ne hne.symm⟩
  paren := hparen.imp_right fun hopen => hopen.symm
  unclosed := Rule.not_sees_of_primary hread (by decide)
  close h := nomatch h

/-- All tokens are said to be at the start of the source. -/
def Rewording.placeless : Rewording := .move (fun _ => 0) 0

/-- A source without a text. -/
def Source.blank : Source := ⟨"", ""⟩

/-- With all tokens at the start of the source no token has a place. -/
theorem Rewording.placeless_state (s : ParseState) : (placeless.state s).Placeless := by
  intro token htoken
  obtain ⟨token, -, rfl⟩ := List.mem_map.1 htoken
  rfl

/-- Without places tokens are told by their kinds and texts. -/
theorem Rewording.placeless_map (tokens : List Token) : tokens.map placeless.token
    = (tokens.map Token.content).map fun content => ⟨content.1, 0, content.2⟩ := by
  rw [List.map_map]
  exact List.map_congr_left fun token _ => token_move _ _ token

@[simp] theorem Rewording.placeless_punctuator (text : String) :
    placeless.token (.punctuator text) = .punctuator text := rfl

theorem Rewording.placeless_dereferenced (operand index : List Token) :
    (dereferenced operand index).map placeless.token
      = dereferenced (operand.map placeless.token) (index.map placeless.token) := by
  simp [dereferenced]

theorem Rewording.placeless_swappedOperands (op : String) (lhs rhs : List Token) :
    (swappedOperands op lhs rhs).map placeless.token
      = swappedOperands op (lhs.map placeless.token) (rhs.map placeless.token) := by
  simp [swappedOperands]

/-- **Desugaring exchanges tokens of an expression for others** that read as the same tree. -/
theorem Source.Desugars.exists_exchange {source : Source} {tokens plain : List Token}
    (htokens : source.tokenize = .ok tokens) (h : source.Desugars tokens plain) :
    ∃ (e : Exchange) (rule : Rule Node) (s : ParseState),
      Source.blank.Calls (tokens.map Rewording.placeless.token) rule s ∧ s.rest = e.old
        ∧ tokens.map Rewording.placeless.token = e.front ++ e.old
        ∧ plain.map Rewording.placeless.token = e.front ++ e.new
        ∧ ∀ a t, (rule.step s).Yields a t → (rule.step (s.facing e.new)).Yields a t := by
  -- Without places, both sources have the same tokens but for those of the sugar.
  let w := Rewording.placeless
  have hfits : w.Fits (source.start tokens) := ⟨exists_eof htokens, fun _ _ => rfl⟩
  have hsplit : ∀ {before : List Token} {s : ParseState}, tokens = before ++ s.rest →
      tokens.map w.token = before.map w.token ++ (w.state s).rest := by
    intro before s hbefore
    rw [hbefore, List.map_append]
    rfl
  cases h with
  | @subscript before operand index s p q base i hcalls hbefore hname hbase hoperand hopen hi hindex
      hclose =>
    -- What was read at the subscript is read without places, too.
    obtain ⟨hs, hcalls'⟩ := hcalls.mirror .blank rfl (fun _ => rfl) hfits
    obtain ⟨hp, hbase'⟩ := hbase.mirror hs
    obtain ⟨-, hi'⟩ := hi.mirror (Rule.expr.mirrors w _ (hopen.fits hp) trivial)
    have hindex' := ParseState.rest_state (w := w) hindex
    rw [← Rewording.advance_state] at hi' hindex'
    obtain ⟨first, t, hfirst⟩ := hbase'.exists_primary
    -- No name is in front of the parenthesis that comes in place of the operand.
    have hname' : ∀ token ∈ (before.map w.token).getLast?, token.kind ≠ .identifier := by
      intro token htoken
      rw [List.getLast?_map] at htoken
      obtain ⟨last, hlast, rfl⟩ := Option.map_eq_some_iff.1 htoken
      exact hname last hlast
    have hbehind : q.advance.rest.map w.token = (w.state q).advance.rest := by
      rw [Rewording.advance_state]
      rfl
    let new := dereferenced (operand.map w.token) (index.map w.token) ++ (w.state q).advance.rest
    refine ⟨.opening (Rewording.placeless_state s) hfirst (before.map w.token) new.tail
      (.inl hname'), .postfixed, w.state s, hcalls', rfl, hsplit hbefore, ?_, fun a t hread => ?_⟩
    · rw [List.map_append, List.map_append, Rewording.placeless_dereferenced, hbehind]
      rfl
    · exact hbase'.yields_dereferenced (ParseState.rest_state hoperand) hopen.mirror hi' hindex'
        hclose.mirror (Rewording.placeless_state s) hread
  | @operands before lhs rhs s t u l r op swapped hcalls hbefore hlhs hop hrhs hclose hswaps hnone
      hnone' =>
    obtain ⟨hs, hcalls'⟩ := hcalls.mirror .blank rfl (fun _ => rfl) hfits
    obtain ⟨ht, hlhs'⟩ := hlhs.mirror hs
    obtain ⟨-, hrhs'⟩ := hrhs.mirror (hop.fits ht)
    rw [← Rewording.advance_state] at hrhs'
    -- Tokens that are no literals are none without their places.
    have hmute : ∀ {text : List Token}, (∀ token ∈ text, token.isLiteral = false) →
        ∀ token ∈ text.map w.token, token.isLiteral = false := by
      intro text htext token htoken
      obtain ⟨token, hmem, rfl⟩ := List.mem_map.1 htoken
      exact htext token hmem
    let new := swappedOperands swapped (lhs.map w.token) (rhs.map w.token) ++ (w.state u).rest
    refine ⟨.opening (Rewording.placeless_state s) hlhs'.primary (before.map w.token) new.tail
      (.inr hlhs'.sees_open), .expr, w.state s, hcalls', rfl, hsplit hbefore, ?_,
      fun a v hread => ?_⟩
    · rw [List.map_append, List.map_append, Rewording.placeless_swappedOperands]
      rfl
    · exact hlhs'.yields_swapped hop.mirror hrhs' hclose.mirror hswaps.mirror
        (Rewording.placeless_state s) (hmute hnone) (hmute hnone') hread

/-! ### Spelled out sources -/

/-- A source with the words spelled out compiles to the same assembly. -/
theorem Source.Desugars.compile {source other : Source} {tokens tokens' plain : List Token}
    {listing : Listing} (htokens : source.tokenize = .ok tokens)
    (hcompile : source.compile = .ok listing) (h : source.Desugars tokens plain)
    (htokens' : other.tokenize = .ok tokens')
    (hsame : tokens'.map Token.content = plain.map Token.content) :
    other.compile = .ok listing := by
  let w := Rewording.placeless
  have hfaithful : w.Faithful := fun _ => rfl
  have hfits : w.Fits (source.start tokens) := ⟨exists_eof htokens, fun _ _ => rfl⟩
  have hfits' : w.Fits (other.start tokens') := ⟨exists_eof htokens', fun _ _ => rfl⟩
  -- The source compiles, so it is read.
  cases hparse : parse source tokens with
  | error failure =>
    rw [compile_of_parse_error htokens hparse] at hcompile
    exact nomatch hcompile
  | ok program =>
    -- Without places, both are the same program.
    have hblank : parse .blank (tokens.map w.token) = .ok (w.program program) :=
      parse_reworded rfl hfits (fun _ _ => rfl) hparse
    obtain ⟨e, rule, s, hcalls, hs, hold, hnew, hread⟩ := h.exists_exchange htokens
    have hplain := parse_exchange hblank hcalls hs hold hread
    rw [← hnew, Rewording.placeless_map, ← hsame, ← Rewording.placeless_map] at hplain
    cases hparse' : parse other tokens' with
    | error failure =>
      have hfails : parse .blank (tokens'.map w.token) = .error (failure.moved w.place) :=
        parse_reworded_error rfl hfits' hfaithful hparse'
      exact nomatch hplain.symm.trans hfails
    | ok program' =>
      have hblank' : parse .blank (tokens'.map w.token) = .ok (w.program program') :=
        parse_reworded rfl hfits' (fun _ _ => rfl) hparse'
      have hprogram : w.program program' = w.program program :=
        Except.ok.inj (hblank'.symm.trans hplain)
      -- Places are not in the listing, so it is that of the program without them.
      rw [compile_of_parse htokens' hparse', ← Rewording.lower_program (w := w) program', hprogram,
        Rewording.lower_program, ← compile_of_parse htokens hparse]
      exact hcompile

/-- Without the end, the lexemes are left. -/
theorem Token.filter_append_atEnd {source : Source} {front : List Token}
    (h : ∀ token ∈ front, ∃ shape, token.HasShape shape) :
    (front ++ [Token.atEnd source]).filter (·.kind ≠ .eof) = front := by
  have hfront : front.filter (·.kind ≠ .eof) = front := by
    apply List.filter_eq_self.2
    intro token htoken
    obtain ⟨shape, hshape⟩ := h token htoken
    simpa using hshape.kind_ne_eof
  rw [List.filter_append, hfront]
  exact List.append_nil _

/-- The words that are written anew are punctuators. -/
def spellings : List Token := ["(", ")", "*", "+", "<", "<="].map Token.punctuator

/-- Each of those words is a punctuator to the lexer. -/
theorem hasShape_of_mem_spellings : ∀ token ∈ spellings, token.HasShape .punctuator := by
  intro token htoken
  obtain ⟨text, htext, rfl⟩ := List.mem_map.1 htoken
  have hknown : ∀ text ∈ ["(", ")", "*", "+", "<", "<="], text ∈ punctuatorTexts := by decide
  refine ⟨?_, rfl⟩
  show String.ofList text.toList ∈ punctuatorTexts
  rw [String.ofList_toList]
  exact hknown text htext

/-- Nothing but punctuators is new in an operand without a subscript. -/
theorem mem_dereferenced {operand index : List Token} {token : Token}
    (h : token ∈ dereferenced operand index) :
    token ∈ operand ∨ token ∈ index ∨ token ∈ spellings := by
  simp only [dereferenced, List.mem_cons, List.mem_append, List.not_mem_nil, or_false] at h
  simp only [spellings, List.map_cons, List.map_nil, List.mem_cons, List.not_mem_nil, or_false]
  tauto

/-- Nothing but punctuators is new in swapped operands. -/
theorem mem_swappedOperands {lhs rhs : List Token} {op : String} {token : Token}
    (h : token ∈ swappedOperands op lhs rhs) (hop : .punctuator op ∈ spellings) :
    token ∈ lhs ∨ token ∈ rhs ∨ token ∈ spellings := by
  simp only [swappedOperands, List.mem_cons, List.mem_append, List.not_mem_nil, or_false] at h
  simp only [spellings, List.map_cons, List.map_nil, List.mem_cons, List.not_mem_nil, or_false]
    at hop ⊢
  rcases h with h | h | h | rfl | h | h | h <;> tauto

/-- What stands in front of the last tokens can be replaced by lexemes. -/
theorem Source.exists_front_of_split {source : Source} {tokens first other rest : List Token}
    (htokens : source.tokenize = .ok tokens) (hsplit : tokens = first ++ rest) (hrest : rest ≠ [])
    (hother : ∀ token ∈ other, token ∈ first ∨ token ∈ spellings) :
    ∃ front, other ++ rest = front ++ [Token.atEnd source]
      ∧ ∀ token ∈ front, ∃ shape, token.HasShape shape := by
  obtain ⟨words, rfl, hshapes⟩ := exists_lexemes_of_tokenize htokens
  obtain ⟨behind, last, rfl⟩ := (List.eq_nil_or_concat rest).resolve_left hrest
  rw [List.concat_eq_append, ← List.append_assoc] at hsplit
  obtain ⟨rfl, hlast⟩ := List.append_inj' hsplit rfl
  refine ⟨other ++ behind, ?_, fun token htoken => ?_⟩
  · rw [hlast, List.concat_eq_append, List.append_assoc]
  · rcases List.mem_append.1 htoken with htoken | htoken
    · rcases hother token htoken with hfirst | hspelled
      · exact hshapes token (List.mem_append_left _ hfirst)
      · exact ⟨_, hasShape_of_mem_spellings token hspelled⟩
    · exact hshapes token (List.mem_append_right _ htoken)

/-- Spelled out, the words of a source are lexemes, and then its end. -/
theorem Source.Desugars.exists_words {source : Source} {tokens plain : List Token}
    (htokens : source.tokenize = .ok tokens) (h : source.Desugars tokens plain) :
    ∃ front, plain = front ++ [Token.atEnd source]
      ∧ ∀ token ∈ front, ∃ shape, token.HasShape shape := by
  let w := Rewording.placeless
  have hfits : w.Fits (source.start tokens) := ⟨exists_eof htokens, fun _ _ => rfl⟩
  cases h with
  | @subscript before operand index s p q base i hcalls hbefore hname hbase hoperand hopen hi hindex
      hclose =>
    obtain ⟨hs, -⟩ := hcalls.mirror .blank rfl (fun _ => rfl) hfits
    obtain ⟨hp, -⟩ := hbase.mirror hs
    obtain ⟨hq, -⟩ := hi.mirror (Rule.expr.mirrors w _ (hopen.fits hp) trivial)
    -- The end of the source is behind the bracket, so it is not among the tokens that are moved.
    obtain ⟨token, htoken, -⟩ := (hclose.fits hq).ends
    obtain ⟨opening, hopening⟩ := hopen
    obtain ⟨closing, hclosing⟩ := hclose
    have hsplit : tokens = (before ++ (operand ++ ⟨.punctuator, opening, "["⟩
        :: (index ++ [⟨.punctuator, closing, "]"⟩]))) ++ q.advance.rest := by
      rw [hbefore, hoperand, ParseState.rest_of_current? hopening, hindex,
        ParseState.rest_of_current? hclosing]
      simp
    rw [← List.append_assoc]
    refine exists_front_of_split htokens hsplit (List.ne_nil_of_mem htoken) fun token hmem => ?_
    rcases List.mem_append.1 hmem with hmem | hmem
    · exact .inl (by simp [hmem])
    · rcases mem_dereferenced hmem with hmem | hmem | hmem
      · exact .inl (by simp [hmem])
      · exact .inl (by simp [hmem])
      · exact .inr hmem
  | @operands before lhs rhs s t u l r op swapped hcalls hbefore hlhs hop hrhs hclose hswaps hnone
      hnone' =>
    obtain ⟨first, last, hfirst⟩ := hlhs.exists_rest
    obtain ⟨first', last', hfirst'⟩ := hrhs.exists_rest
    obtain ⟨loc, hcurrent⟩ := hop
    obtain ⟨closing, hclosing⟩ := hclose
    have hsplit : tokens = (before ++ first :: (lhs ++ last :: ⟨.punctuator, loc, op⟩ :: first'
        :: (rhs ++ [last']))) ++ u.rest := by
      rw [hbefore, hfirst, ParseState.rest_of_current? hcurrent, hfirst']
      simp
    have hrest : u.rest ≠ [] := by
      rw [ParseState.rest_of_current? hclosing]
      exact List.cons_ne_nil _ _
    -- The other operator is one of those that are spelled.
    have hspelled : .punctuator swapped ∈ spellings := by
      cases hswaps <;> decide
    rw [← List.append_assoc]
    refine exists_front_of_split htokens hsplit hrest fun token hmem => ?_
    rcases List.mem_append.1 hmem with hmem | hmem
    · exact .inl (by simp [hmem])
    · rcases mem_swappedOperands hmem hspelled with hmem | hmem | hmem
      · exact .inl (by simp [hmem])
      · exact .inl (by simp [hmem])
      · exact .inr hmem

/-- **Sugar makes no difference.**  A source in which a piece of sugar is spelled out is accepted if
the source is, and compiles to the same assembly, however it is laid out. -/
theorem Source.compile_of_desugars {source : Source} {tokens plain : List Token}
    {listing : Listing} (htokens : source.tokenize = .ok tokens)
    (hcompile : source.compile = .ok listing) (h : source.Desugars tokens plain) :
    (∀ (other : Source) tokens', other.tokenize = .ok tokens' →
      tokens'.map Token.content = plain.map Token.content → other.compile = .ok listing)
      ∧ ∀ other : Source,
        IsLayout ((plain.filter (·.kind ≠ .eof)).map Token.text) other.text.toList →
          other.compile = .ok listing := by
  have hsame : ∀ (other : Source) tokens', other.tokenize = .ok tokens' →
      tokens'.map Token.content = plain.map Token.content → other.compile = .ok listing :=
    fun other tokens' htokens' hcontent => h.compile htokens hcompile htokens' hcontent
  refine ⟨hsame, fun other hlayout => ?_⟩
  obtain ⟨front, rfl, hshapes⟩ := h.exists_words htokens
  rw [Token.filter_append_atEnd hshapes] at hlayout
  obtain ⟨chunks, hchunks, hcontent⟩ := hlayout.exists_decomposition hshapes
  refine hsame other _ hchunks.tokenize ?_
  rw [List.map_append, List.map_append, hcontent]
  rfl

/-- A function that reads what a pointer leads to, at the value of a comparison. -/
def Source.sugared : Source :=
  ⟨"sugared", "func f(p *int) int \x7b return p[((2) > (1))]; \x7d"⟩

/-- The same function without the subscript. -/
def Source.unsubscripted : Source :=
  ⟨"unsubscripted", "func f(p *int) int \x7b return (*(p + (((2) > (1))))); \x7d"⟩

/-- The same function with the operands of the comparison the other way round. -/
def Source.turned : Source :=
  ⟨"turned", "func f(p *int) int \x7b return p[((1) < (2))]; \x7d"⟩

theorem Source.compile_of_desugars_comparison :
    let before : List Token := [⟨.keyword, 0, "func"⟩, ⟨.identifier, 5, "f"⟩,
      ⟨.punctuator, 6, "("⟩, ⟨.identifier, 7, "p"⟩, ⟨.punctuator, 9, "*"⟩, ⟨.keyword, 10, "int"⟩,
      ⟨.punctuator, 13, ")"⟩, ⟨.keyword, 15, "int"⟩, ⟨.punctuator, 19, "\x7b"⟩,
      ⟨.keyword, 21, "return"⟩]
    let operand : List Token := [⟨.identifier, 28, "p"⟩]
    let two : List Token := [⟨.number (some 2), 32, "2"⟩]
    let one : List Token := [⟨.number (some 1), 38, "1"⟩]
    let index : List Token := ⟨.punctuator, 30, "("⟩ :: ⟨.punctuator, 31, "("⟩ :: (two
      ++ ⟨.punctuator, 33, ")"⟩ :: ⟨.punctuator, 35, ">"⟩ :: ⟨.punctuator, 37, "("⟩ :: (one
        ++ [⟨.punctuator, 39, ")"⟩, ⟨.punctuator, 40, ")"⟩]))
    let behind : List Token :=
      [⟨.punctuator, 42, ";"⟩, ⟨.punctuator, 44, "\x7d"⟩, ⟨.eof, 45, ""⟩]
    let tokens := before ++ (operand ++ ⟨.punctuator, 29, "["⟩
      :: (index ++ ⟨.punctuator, 41, "]"⟩ :: behind))
    let plain := before ++ (dereferenced operand index ++ behind)
    let plain' := tokens.take 13 ++ (swappedOperands "<" two one ++ tokens.drop 20)
    Source.sugared.tokenize = .ok tokens
      ∧ Source.sugared.Desugars tokens plain ∧ Source.sugared.Desugars tokens plain'
      ∧ ∃ listing, Source.sugared.compile = .ok listing
        ∧ Source.unsubscripted.compile = .ok listing ∧ Source.turned.compile = .ok listing := by
  intro before operand two one index behind tokens plain plain'
  have htokens : Source.sugared.tokenize = .ok tokens :=
    eq_ok_of_toOption_eq_some (by decide +kernel)
  have hcompiles : Source.sugared.compile.toOption.isSome = true := by decide +kernel
  obtain ⟨listing, hlisting⟩ := Option.isSome_iff_exists.1 hcompiles
  have hlisting := eq_ok_of_toOption_eq_some hlisting
  -- In front of the operand, of the bracket behind it and of the one behind the index.
  let s : ParseState :=
    { rest := tokens.drop 10
      stop := 45
      scopes := [[], [("p", .localVar 0)], []]
      locals := [⟨"p", .ptr .int, none⟩] }
  let p : ParseState := s.facing (tokens.drop 11)
  let q : ParseState := s.facing (tokens.drop 21)
  have hcalls : Source.sugared.Calls tokens .postfixed s := ⟨_, .refl, rfl, .inside <|
    .behind ((Rule.run_eq_ok_iff .parameterList).1 rfl) <|
    .behind ((Rule.run_eq_ok_iff .type).1 rfl) <|
    .inside <| .inside <| .inside <| .inside <| .inside <| .inside <| .inside <| .inside <|
    .inside .here⟩
  have hbase : (Rule.primary.step s).Yields _ p := (Rule.run_eq_ok_iff .primary).1 rfl
  have hindex : (Rule.expr.step p.advance).Yields _ q := (Rule.run_eq_ok_iff .expr).1 rfl
  have hplain : Source.sugared.Desugars tokens plain :=
    .subscript (s := s) (p := p) (q := q) hcalls rfl (by decide) (.primary hbase) rfl ⟨29, rfl⟩
      hindex rfl ⟨41, rfl⟩
  -- In front of the comparison, of its operator and of the parenthesis behind it.
  let s' : ParseState := s.facing (tokens.drop 13)
  let t : ParseState := s.facing (tokens.drop 16)
  let u : ParseState := s.facing (tokens.drop 20)
  have hcalls' : Source.sugared.Calls tokens .expr s' := by
    obtain ⟨first, hunits, hend, hfirst⟩ := hcalls
    exact ⟨first, hunits, hend, hfirst.trans <| .behind hbase <| .inside <| .inside <| .inside <|
      .inside <| .inside <| .inside <| .inside <| .inside <| .inside .here⟩
  have hlhs : s'.ReadsParens two _ t := .intro (t := s.facing (tokens.drop 15)) ⟨31, rfl⟩
    ((Rule.run_eq_ok_iff .expr).1 rfl) rfl ⟨33, rfl⟩
  have hrhs : t.advance.ReadsParens one _ u := .intro (t := s.facing (tokens.drop 19)) ⟨37, rfl⟩
    ((Rule.run_eq_ok_iff .expr).1 rfl) rfl ⟨39, rfl⟩
  have hplain' : Source.sugared.Desugars tokens plain' :=
    .operands (s := s') (t := t) (u := u) hcalls' rfl hlhs ⟨35, rfl⟩ hrhs ⟨40, rfl⟩ .greater
      (by decide) (by decide)
  -- The tokens of the other two texts are the rewritten ones.
  have hwords : Source.unsubscripted.tokenize.toOption.map (·.map Token.content)
      = some (plain.map Token.content) := by decide +kernel
  have hwords' : Source.turned.tokenize.toOption.map (·.map Token.content)
      = some (plain'.map Token.content) := by decide +kernel
  obtain ⟨words, htokens', hwords⟩ := Option.map_eq_some_iff.1 hwords
  obtain ⟨words', htokens'', hwords'⟩ := Option.map_eq_some_iff.1 hwords'
  exact ⟨htokens, hplain, hplain', listing, hlisting,
    (Source.compile_of_desugars htokens hlisting hplain).1 _ _
      (eq_ok_of_toOption_eq_some htokens') hwords,
    (Source.compile_of_desugars htokens hlisting hplain').1 _ _
      (eq_ok_of_toOption_eq_some htokens'') hwords'⟩

end PocketCompiler
