import PocketCompiler.Proofs.Grammar.Accepts
import PocketCompiler.Proofs.Grammar.Productions
import PocketCompiler.Proofs.Token.Decomposition

/-!
# Syntax errors

Of every source that has tokens, what is read is compared with the grammar.

* A source that is read is a program of the grammar, and a program of the grammar, if its loops
  repeat blocks, is not refused for its syntax (`Source.parse_agrees_with_grammar`).
* A source that is refused for its syntax is refused because of one token (`Pinpoints`): what stands
  in front of it can be continued to a program, together with it it cannot, and what stands behind
  it has not been looked at (`Source.exists_pinpointed_of_isSyntaxError`).
-/

namespace PocketCompiler

variable {s t : ParseState} {source : Source} {tokens : List Token} {failure : Failure}

/-! ### Messages -/

/-- The failure says what was expected, and what was there instead. -/
def Failure.IsSyntaxError (failure : Failure) : Prop :=
  ∃ wanted got, failure.message = "expected " ++ wanted ++ ", but got \"" ++ got ++ "\""

/-- The text starts unlike a syntax error. -/
def StartsOtherwise (text : String) : Prop := ∃ c, text.toList.head? = some c ∧ c ≠ 'e'

/-- Only the first character of a text matters. -/
theorem StartsOtherwise.append {text : String} (h : StartsOtherwise text) (more : String) :
    StartsOtherwise (text ++ more) := by
  obtain ⟨c, hc, hne⟩ := h
  refine ⟨c, ?_, hne⟩
  rw [String.toList_append, List.head?_append, hc]
  rfl

theorem StartsOtherwise.ofList {c : Char} (h : c ≠ 'e') (cs : List Char) :
    StartsOtherwise (String.ofList (c :: cs)) := by
  refine ⟨c, ?_, h⟩
  rw [String.toList_ofList]
  rfl

/-- No message of a fault is taken for that of a syntax error. -/
theorem Fault.startsOtherwise_message (cause : Fault) : StartsOtherwise cause.message := by
  cases cause with
  | overflow => exact .append (.append (.ofList (by decide) _) _) _
  | noSuchEntry | tooFewRegisters => exact .append (.append (.append (.ofList (by decide) _) _) _) _
  | stackUnbalanced =>
    exact .append (.append (.append (.append (.ofList (by decide) _) _) _) _) _
  | _ => exact .ofList (by decide) _

/-- No other message is taken for that of a syntax error, but for that about a missing value. -/
theorem Complaint.startsOtherwise_message {cause : Complaint}
    (hunexpected : ∀ wanted got, cause ≠ .unexpected wanted got) (hvalue : cause ≠ .noValue) :
    StartsOtherwise cause.message := by
  cases cause with
  | unexpected wanted got => exact absurd rfl (hunexpected wanted got)
  | noValue => exact absurd rfl hvalue
  | strayCharacter | undefinedVariable | reservedName | functionRedefined | redefined
  | frameTooLarge =>
    exact .append (.append (.ofList (by decide) _) _) _
  | initializerCount => exact .append (.append (.append (.append (.ofList (by decide) _) _) _) _) _
  | _ => exact .ofList (by decide) _

/-- The message of a syntax error starts with `expected`. -/
theorem Failure.IsSyntaxError.not_startsOtherwise (h : failure.IsSyntaxError) :
    ¬ StartsOtherwise failure.message := by
  rintro ⟨c, hc, hne⟩
  obtain ⟨wanted, got, h⟩ := h
  have hliteral : "expected ".toList = ['e', 'x', 'p', 'e', 'c', 't', 'e', 'd', ' '] := by decide
  rw [h] at hc
  simp only [String.toList_append, hliteral, List.cons_append, List.head?_cons] at hc
  exact hne (Option.some.inj hc).symm

/-- Only a token that the grammar does not want is a syntax error. -/
theorem Failure.IsSyntaxError.isUnexpected (h : failure.IsSyntaxError) : failure.IsUnexpected := by
  have hstarts := h.not_startsOtherwise
  cases failure with
  | fault cause => exact absurd cause.startsOtherwise_message hstarts
  | complaint loc cause =>
    by_contra hother
    have hunexpected : ∀ wanted got, cause ≠ .unexpected wanted got := by
      rintro wanted got rfl
      exact hother trivial
    have hvalue : cause ≠ .noValue := by
      -- This message starts like one of a syntax error, but goes on without a comma.
      rintro rfl
      obtain ⟨wanted, got, h⟩ := h
      have hcomma : ',' ∈ "expected an expression".toList := by
        rw [show "expected an expression" = _ from h]
        simp
      exact absurd hcomma (by decide)
    exact hstarts (Complaint.startsOtherwise_message hunexpected hvalue)

/-! ### Tokens of a source -/

/-- The text and the kind of a token from a source go together. -/
theorem Token.HasShape.wellMade {token : Token} {shape : Shape} (h : token.HasShape shape) :
    token.WellMade := by
  obtain ⟨kind, loc, text⟩ := token
  obtain ⟨-, hkind⟩ := h
  -- Only keywords and literals have something to be made well.
  cases shape with
  | blank | comment => exact nomatch hkind
  | number =>
    obtain rfl : kind = .number (some (Int64.ofNat (decimal text.toList))) :=
      PieceKind.lexeme.inj hkind
    exact ⟨nofun, nofun⟩
  | punctuator =>
    obtain rfl : kind = .punctuator := PieceKind.lexeme.inj hkind
    exact ⟨nofun, nofun⟩
  | word =>
    obtain rfl : kind = wordKind text.toList := PieceKind.lexeme.inj hkind
    unfold wordKind
    split
    · next hkeyword =>
      rw [String.ofList_toList] at hkeyword
      exact ⟨fun _ => hkeyword, nofun⟩
    · exact ⟨nofun, nofun⟩
  | literal =>
    obtain rfl : kind = literalKind text.toList.tail.dropLast := PieceKind.lexeme.inj hkind
    refine ⟨nofun, fun h => ?_⟩
    obtain ⟨rfl, rfl⟩ := TokenKind.string.inj h
    exact ⟨rfl, rfl⟩

/-- No token from a source stands for its end. -/
theorem Token.HasShape.kind_ne_eof {token : Token} {shape : Shape} (h : token.HasShape shape) :
    token.kind ≠ .eof := by
  obtain ⟨kind, loc, text⟩ := token
  obtain ⟨-, hkind⟩ := h
  rintro rfl
  have hword : wordKind text.toList ≠ .eof := by
    unfold wordKind
    split <;> exact nofun
  cases shape with
  | word => exact hword (PieceKind.lexeme.inj hkind).symm
  | _ => exact nomatch hkind

/-- The token for the end of a source is well made. -/
theorem Token.wellMade_atEnd (source : Source) : (Token.atEnd source).WellMade :=
  ⟨nofun, nofun⟩

/-- A token that the grammar sees as the terminal. -/
def Terminal.token : Terminal → Token
  | .lexeme text => ⟨.punctuator, 0, text⟩
  | .identifier => ⟨.identifier, 0, ""⟩
  | .number => ⟨.number none, 0, ""⟩
  | .string => ⟨.string (some []) (some .char), 0, ""⟩
  | .eof => ⟨.eof, 0, ""⟩

/-- The grammar sees a token that is made for a terminal as that terminal. -/
@[simp] theorem Terminal.terminal_token (terminal : Terminal) :
    terminal.token.terminal = terminal := by
  cases terminal <;> rfl

/-- The token that is made for a terminal is well made. -/
theorem Terminal.wellMade_token (terminal : Terminal) : terminal.token.WellMade := by
  cases terminal <;> exact ⟨nofun, by simp [Terminal.token]⟩

/-! ### Words without an end -/

/-- The terminals of a form. -/
def Form.terminals : Form → List Terminal
  | .terminal t => [t]
  | .rule _ | .empty => []
  | .seq first second | .either first second => first.terminals ++ second.terminals
  | .many inner => inner.terminals

/-- A word consists of terminals of the form and of the productions. -/
theorem Derives.mem_terminals {g : Nonterminal → Form} {f : Form} {w : List Terminal}
    (h : Derives g f w) {x : Terminal} (hx : x ∈ w) :
    x ∈ f.terminals ∨ ∃ n, x ∈ (g n).terminals := by
  induction h with
  | terminal t => exact .inl hx
  | @rule n w _ ih => exact .inr ((ih hx).elim (fun h => ⟨n, h⟩) id)
  | empty | nil => exact absurd hx List.not_mem_nil
  | seq _ _ ihf ihh =>
    rcases List.mem_append.1 hx with hx | hx
    · exact (ihf hx).imp_left (List.mem_append_left _)
    · exact (ihh hx).imp_left (List.mem_append_right _)
  | left _ ih => exact (ih hx).imp_left (List.mem_append_left _)
  | right _ ih => exact (ih hx).imp_left (List.mem_append_right _)
  | cons _ _ ihf ihmore =>
    rcases List.mem_append.1 hx with hx | hx
    · exact ihf hx
    · exact ihmore hx

/-- The end of the source is no part of a program. -/
theorem eof_not_mem_program {w : List Terminal} (h : Derives wholeGrammar (.rule .program) w) :
    .eof ∉ w := by
  have hproductions : ∀ n, Terminal.eof ∉ (wholeGrammar n).terminals := by
    intro n
    cases n <;> decide
  intro heof
  rcases h.mem_terminals heof with hform | ⟨n, hn⟩
  · exact absurd hform List.not_mem_nil
  · exact hproductions n hn

/-! ### Reading declaration after declaration -/

theorem ParseState.atEnd_facing {rest more : List Token} (h : more.head? = rest.head?) :
    (s.facing more).atEnd = (s.facing rest).atEnd := by
  unfold atEnd
  rw [current?_facing, current?_facing, h]

/-- **What has been read between declarations is a program**, and other tokens behind it lead to the
same. -/
theorem ParseState.Units.exists_word (h : s.Units t) :
    ∃ w, s.rest = w ++ t.rest ∧ Derives wholeGrammar (.rule .program) (w.map Token.terminal)
      ∧ ∀ more, more.head? = t.rest.head? → (s.facing (w ++ more)).Units (t.facing more) := by
  induction h with
  | refl => exact ⟨[], rfl, .rule .nil, fun _ _ => .refl⟩
  | @next s t u hs hread _ ih =>
    obtain ⟨w, hw, hword, hmorew⟩ := Rule.topLevel.exists_word_of_yields hread
    obtain ⟨v, hv, hprogram, hmorev⟩ := ih
    refine ⟨w ++ v, ?_, ?_, fun more hmore => ?_⟩
    · rw [hw, hv, List.append_assoc]
    · rw [List.map_append]
      exact .rule (.cons hword (Derives.rule_iff.1 hprogram))
    · have hhead : (v ++ more).head? = t.rest.head? := by
        rw [hv]
        exact head?_append_congr hmore
      have hstart : (w ++ (v ++ more)).head? = s.rest.head? := by
        rw [hw]
        exact head?_append_congr hhead
      rw [List.append_assoc]
      refine .next ?_ (hmorew _ hhead) (hmorev more hmore)
      rw [atEnd_facing hstart]
      exact hs

/-- Well-made tokens of a program are not refused for their syntax. -/
theorem not_isUnexpected_of_derives {w : List Terminal}
    (hmade : ∀ token ∈ tokens, token.WellMade) (hword : tokens.map Token.terminal = w ++ [.eof])
    (hw : Derives bracedGrammar (.rule .program) w) (h : parse source tokens = .error failure) :
    ¬ failure.IsUnexpected := by
  obtain ⟨t, hunits, hstop⟩ := parse_eq_error_iff.1 h
  exact hunits.not_isUnexpected hstop hw ⟨hmade, hword⟩

/-! ### The grammar of sources -/

/-- Reading that comes to an end has come to the last token of the source. -/
theorem ParseState.eq_lexemes_of_atEnd {front w : List Token}
    (hshapes : ∀ token ∈ front, ∃ shape, token.HasShape shape) (hend : t.atEnd = true)
    (hw : front ++ [Token.atEnd source] = w ++ t.rest)
    (hword : Derives wholeGrammar (.rule .program) (w.map Token.terminal)) : w = front := by
  rcases List.append_eq_append_iff.1 hw with ⟨read, rfl, hread⟩ | ⟨left, rfl, hleft⟩
  · cases read with
    | nil => exact List.append_nil _
    | cons token read =>
      obtain ⟨rfl, -⟩ := List.cons.inj hread
      refine absurd (eof_not_mem_program hword)
        (not_not.2 (List.mem_map.2 ⟨Token.atEnd source, ?_, rfl⟩))
      exact List.mem_append_right _ List.mem_cons_self
  · cases left with
    | nil => exact (List.append_nil _).symm
    | cons token left =>
      obtain ⟨shape, hshape⟩ := hshapes token (List.mem_append_right _ List.mem_cons_self)
      unfold atEnd current? at hend
      rw [hleft] at hend
      exact absurd (eq_of_beq hend) hshape.kind_ne_eof

/-- The tokens of a source are well made. -/
theorem Source.wellMade_of_tokenize (htokens : source.tokenize = .ok tokens) :
    ∀ token ∈ tokens, token.WellMade := by
  obtain ⟨front, rfl, hshapes⟩ := exists_lexemes_of_tokenize htokens
  intro token htoken
  rcases List.mem_append.1 htoken with htoken | htoken
  · obtain ⟨shape, hshape⟩ := hshapes token htoken
    exact hshape.wellMade
  · rw [List.mem_singleton.1 htoken]
    exact Token.wellMade_atEnd source

/-- **Sources that are read are programs of the grammar**, and programs whose loops repeat blocks
are not refused for their syntax. -/
theorem Source.parse_agrees_with_grammar (htokens : source.tokenize = .ok tokens) :
    ∃ front, tokens = front ++ [Token.atEnd source]
      ∧ (∀ program, parse source tokens = .ok program →
        Derives wholeGrammar (.rule .program) (front.map Token.terminal))
      ∧ (Derives bracedGrammar (.rule .program) (front.map Token.terminal) →
        ∀ failure, parse source tokens = .error failure → ¬ failure.IsSyntaxError) := by
  have hmade := wellMade_of_tokenize htokens
  obtain ⟨front, rfl, hshapes⟩ := exists_lexemes_of_tokenize htokens
  refine ⟨front, rfl, fun program hparse => ?_, fun hword failure hparse herror => ?_⟩
  · obtain ⟨t, hunits, hend, -⟩ := parse_eq_ok_iff.1 hparse
    obtain ⟨w, hw, hword, -⟩ := hunits.exists_word
    obtain rfl := ParseState.eq_lexemes_of_atEnd hshapes hend hw hword
    exact hword
  · refine not_isUnexpected_of_derives hmade ?_ hword hparse herror.isUnexpected
    rw [List.map_append]
    rfl

/-- A program that the grammar derives in two ways: the `else` may belong to either conditional. -/
def Source.dangling : Source :=
  ⟨"dangling", "var x, *p int; func f(x int) int \x7b if x if x return 1; else f(x); "
    ++ "for x; ; \x7b return *&x; \x7d return 0; \x7d"⟩

/-- A program of the grammar that is refused, since there is no `y`. -/
def Source.undeclared : Source := ⟨"undeclared", "func f() int \x7b for y \x7b \x7d \x7d"⟩

/-- Nothing but a name is an expression. -/
theorem Derives.expr_identifier : Derives bracedGrammar (.rule .expr) [.identifier] := by
  have hprimary : Derives bracedGrammar (.rule .primary) [.identifier] :=
    .rule (.left (.left (.right (.seq (.terminal .identifier) (.right .empty)))))
  have hunary : Derives bracedGrammar (.rule .unary) [.identifier] :=
    .rule (.right (.rule (.seq hprimary .nil)))
  have hmul : Derives bracedGrammar (.rule .mul) [.identifier] := .rule (.seq hunary .nil)
  have hadd : Derives bracedGrammar (.rule .add) [.identifier] := .rule (.seq hmul .nil)
  have hrelational : Derives bracedGrammar (.rule .relational) [.identifier] :=
    .rule (.seq hadd .nil)
  have hequality : Derives bracedGrammar (.rule .equality) [.identifier] :=
    .rule (.seq hrelational .nil)
  exact .rule (.rule (.seq hequality (.right .empty)))

/-- The loop, whose head is the name. -/
theorem Derives.program_undeclared : Derives bracedGrammar (.rule .program)
    [.lexeme "func", .identifier, .lexeme "(", .lexeme ")", .lexeme "int", .lexeme "\x7b",
      .lexeme "for", .identifier, .lexeme "\x7b", .lexeme "\x7d", .lexeme "\x7d"] := by
  have hempty : Derives bracedGrammar (.rule .compoundStmt) [.lexeme "\x7d"] :=
    .rule (.seq .nil (.text "\x7d"))
  have hblock : Derives bracedGrammar .block [.lexeme "\x7b", .lexeme "\x7d"] :=
    .seq (.text "\x7b") hempty
  have hloop : Derives bracedGrammar (.rule .stmt)
      [.lexeme "for", .identifier, .lexeme "\x7b", .lexeme "\x7d"] :=
    .rule (.left (.left (.right (.seq (.seq (.text "for") expr_identifier) hblock))))
  have hbody : Derives bracedGrammar (.rule .compoundStmt)
      [.lexeme "for", .identifier, .lexeme "\x7b", .lexeme "\x7d", .lexeme "\x7d"] :=
    .rule (.seq (.cons (.right hloop) .nil) (.text "\x7d"))
  have hparams : Derives bracedGrammar (.rule .params) [] := .rule (.right .empty)
  have hint : Derives bracedGrammar (.rule .type) [.lexeme "int"] :=
    .rule (.right (.seq .nil (.rule (.left (.text "int")))))
  have hname := (Derives.text "func").append (.terminal (g := bracedGrammar) .identifier)
  have hhead := ((hname.append (.text "(")).append hparams).append (.text ")")
  have hfunction : Derives bracedGrammar (.rule .function) _ :=
    .rule (((hhead.append hint).append (.text "\x7b")).append hbody)
  exact .rule (.cons (.left hfunction) .nil)

/-- The first source is read, so the grammar derives it.  The grammar derives the second one, which
is refused, so it is refused for something else than its syntax. -/
theorem Source.parse_agrees_with_grammar_dangling :
    (∃ front, dangling.tokenize = .ok (front ++ [Token.atEnd dangling])
      ∧ Derives wholeGrammar (.rule .program) (front.map Token.terminal))
    ∧ ∃ front failure, undeclared.tokenize = .ok (front ++ [Token.atEnd undeclared])
      ∧ Derives bracedGrammar (.rule .program) (front.map Token.terminal)
      ∧ parse undeclared (front ++ [Token.atEnd undeclared]) = .error failure
      ∧ ¬ failure.IsSyntaxError := by
  constructor
  · have hparse : (dangling.tokenize.toOption.map fun tokens =>
        (parse dangling tokens).toOption.isSome) = some true := by decide +kernel
    obtain ⟨tokens, htokens, hparse⟩ := Option.map_eq_some_iff.1 hparse
    have htokens := eq_ok_of_toOption_eq_some htokens
    obtain ⟨program, hprogram⟩ := Option.isSome_iff_exists.1 hparse
    obtain ⟨front, rfl, hsound, -⟩ := Source.parse_agrees_with_grammar htokens
    exact ⟨front, htokens, hsound program (eq_ok_of_toOption_eq_some hprogram)⟩
  · let front : List Token := [⟨.keyword, 0, "func"⟩, ⟨.identifier, 5, "f"⟩, ⟨.punctuator, 6, "("⟩,
      ⟨.punctuator, 7, ")"⟩, ⟨.keyword, 9, "int"⟩, ⟨.punctuator, 13, "\x7b"⟩, ⟨.keyword, 15, "for"⟩,
      ⟨.identifier, 19, "y"⟩, ⟨.punctuator, 21, "\x7b"⟩, ⟨.punctuator, 23, "\x7d"⟩,
      ⟨.punctuator, 25, "\x7d"⟩]
    have htokens : undeclared.tokenize = .ok (front ++ [Token.atEnd undeclared]) :=
      eq_ok_of_toOption_eq_some (by decide +kernel)
    have hparse : parse undeclared (front ++ [Token.atEnd undeclared])
        = .error (.complaint 19 (.undefinedVariable "y")) := rfl
    obtain ⟨front', hfront, -, hcomplete⟩ := Source.parse_agrees_with_grammar htokens
    obtain rfl := List.append_cancel_right hfront
    exact ⟨front, _, htokens, Derives.program_undeclared, hparse,
      hcomplete Derives.program_undeclared _ hparse⟩

/-! ### The token of a syntax error -/

/-- The failure is about the token with the index `k`, and about nothing else. -/
structure Pinpoints (source : Source) (tokens : List Token) (failure : Failure) (k : Nat)
    (token : Token) : Prop where
  index : tokens[k]? = some token
  /-- The failure names the token and its place. -/
  names : ∃ wanted, failure = .complaint token.loc (.unexpected wanted token.describe)
  /-- The tokens in front of it can be continued to a program. -/
  viable : ∃ w, Derives wholeGrammar (.rule .program) ((tokens.take k).map Token.terminal ++ w)
  /-- Together with it they cannot, if loops repeat blocks. -/
  unwanted : ∀ w, Derives bracedGrammar (.rule .program) w →
    ¬ (tokens.take (k + 1)).map Token.terminal <+: w ++ [.eof]
  /-- The tokens behind it make no difference. -/
  same : ∀ tokens', tokens'.take (k + 1) = tokens.take (k + 1) →
    parse source tokens' = .error failure

/-- Reading fails between two tokens: those in front can be continued to a program, and other tokens
behind the next one lead to the same failure. -/
theorem exists_split_of_parse_eq_error (h : parse source tokens = .error failure) :
    ∃ w left, tokens = w ++ left ∧ failure.About left.head?
      ∧ (∃ v, Derives wholeGrammar (.rule .program) (w.map Token.terminal ++ v))
      ∧ ∀ more, more.head? = left.head? → parse source (w ++ more) = .error failure := by
  obtain ⟨t, hunits, hend, hfails⟩ := parse_eq_error_iff.1 h
  obtain ⟨u, hu, hprogram, hmoreu⟩ := hunits.exists_word
  obtain ⟨w, left, hw, habout, ⟨v, hspells⟩, hmorew⟩ := Rule.topLevel.exists_word_of_fails hfails
  refine ⟨u ++ w, left, ?_, habout, ⟨v, ?_⟩, fun more hmore => ?_⟩
  · rw [List.append_assoc, ← hw]
    exact hu
  · rw [List.map_append, List.append_assoc]
    refine .rule (Derives.many_iff.2 ?_)
    obtain ⟨words, hwords, heq⟩ := Derives.many_iff.1 (Derives.rule_iff.1 hprogram)
    refine ⟨words ++ [w.map Token.terminal ++ v], ?_, ?_⟩
    · intro word hword
      rcases List.mem_append.1 hword with hword | hword
      · exact hwords word hword
      · rw [List.mem_singleton.1 hword]
        exact hspells
    · rw [heq, List.flatten_append, List.flatten_singleton]
  -- The next token has been looked at, so it stays; those behind it have not.
  · have hhead : (w ++ more).head? = t.rest.head? := by
      rw [hw]
      exact head?_append_congr hmore
    refine parse_eq_error_iff.2 ⟨t.facing (w ++ more), ?_, ?_, hmorew more hmore⟩
    · rw [List.append_assoc]
      exact hmoreu _ hhead
    · rw [ParseState.atEnd_facing hhead]
      exact hend

/-- A failure about an unwanted token says which one was found, and where. -/
theorem Failure.IsUnexpected.exists_wanted {token : Token} (h : failure.IsUnexpected)
    (habout : failure.About (some token)) :
    ∃ wanted, failure = .complaint token.loc (.unexpected wanted token.describe) := by
  unfold Failure.IsUnexpected at h
  split at h
  · next loc wanted got =>
    obtain ⟨rfl, rfl⟩ := habout loc wanted got rfl token rfl
    exact ⟨wanted, rfl⟩
  · exact h.elim

/-- Tokens that are refused for their syntax, whatever follows, do not start a program. -/
theorem not_isPrefix_of_parse_eq_error {front : List Token} {w : List Terminal}
    (hmade : ∀ token ∈ front, token.WellMade)
    (h : ∀ more, parse source (front ++ more) = .error failure) (hunexpected : failure.IsUnexpected)
    (hw : Derives bracedGrammar (.rule .program) w) :
    ¬ front.map Token.terminal <+: w ++ [.eof] := by
  rintro ⟨rest, hrest⟩
  -- Tokens for the rest of the word would make a program that is refused for its syntax.
  refine not_isUnexpected_of_derives ?_ ?_ hw (h (rest.map Terminal.token)) hunexpected
  · intro token htoken
    rcases List.mem_append.1 htoken with htoken | htoken
    · exact hmade token htoken
    · obtain ⟨terminal, -, rfl⟩ := List.mem_map.1 htoken
      exact terminal.wellMade_token
  · rw [List.map_append, List.map_map, ← hrest]
    congr 1
    exact List.map_id'' Terminal.terminal_token _

/-- **A syntax error is about one token.** -/
theorem Source.exists_pinpointed_of_isSyntaxError (htokens : source.tokenize = .ok tokens)
    (hparse : parse source tokens = .error failure) (herror : failure.IsSyntaxError) :
    ∃ k token, Pinpoints source tokens failure k token := by
  have hmade := wellMade_of_tokenize htokens
  obtain ⟨front, hfront, -⟩ := exists_lexemes_of_tokenize htokens
  obtain ⟨w, left, rfl, habout, ⟨v, hviable⟩, hsame⟩ := exists_split_of_parse_eq_error hparse
  have hunexpected := herror.isUnexpected
  cases left with
  | nil =>
    -- The end of the source would have been read.
    refine absurd (eof_not_mem_program hviable) (not_not.2 (List.mem_append_left _ ?_))
    refine List.mem_map.2 ⟨Token.atEnd source, ?_, rfl⟩
    rw [List.append_nil] at hfront
    rw [hfront]
    exact List.mem_append_right _ List.mem_cons_self
  | cons token left =>
    rw [List.append_cons] at hmade
    -- The token is the last one that is looked at, so the failure is the same with any tokens
    -- behind it.
    have hsame : ∀ more, parse source (w ++ [token] ++ more) = .error failure := by
      intro more
      rw [List.append_assoc]
      exact hsame _ rfl
    have htake : (w ++ token :: left).take (w.length + 1) = w ++ [token] := by
      rw [List.append_cons]
      exact List.take_left' (by rw [List.length_append, List.length_singleton])
    refine ⟨w.length, token, ?_, hunexpected.exists_wanted habout, ⟨v, ?_⟩, fun word hword => ?_,
      fun tokens' htokens' => ?_⟩
    · rw [List.getElem?_append_right (Nat.le_refl _), Nat.sub_self]
      rfl
    · rw [List.take_left]
      exact hviable
    · rw [htake]
      exact not_isPrefix_of_parse_eq_error (fun found hfound => hmade found
        (List.mem_append_left _ hfound)) hsame hunexpected hword
    · rw [← List.take_append_drop (w.length + 1) tokens', htokens', htake]
      exact hsame _

/-- A sum without a second operand, behind a call that is read as one. -/
def Source.unfinished : Source :=
  ⟨"unfinished", "func f(x int) int \x7b if f(x) x = 1 + ; return x; \x7d"⟩

theorem Source.exists_pinpointed_unfinished :
    ∃ tokens k token, Source.unfinished.tokenize = .ok tokens
      ∧ Pinpoints Source.unfinished tokens
        (.complaint 36 (.unexpected .expression ";")) k token := by
  have hparse : (Source.unfinished.tokenize.toOption.map fun tokens =>
      match parse Source.unfinished tokens with
      | .ok _ => none
      | .error failure => some failure)
      = some (some (.complaint 36 (.unexpected .expression ";"))) := by decide +kernel
  obtain ⟨tokens, htokens, hparse⟩ := Option.map_eq_some_iff.1 hparse
  have htokens := eq_ok_of_toOption_eq_some htokens
  split at hparse
  · exact nomatch hparse
  · next failure hfailure =>
    obtain rfl := Option.some.inj hparse
    obtain ⟨k, token, h⟩ :=
      Source.exists_pinpointed_of_isSyntaxError htokens hfailure ⟨"an expression", ";", rfl⟩
    exact ⟨tokens, k, token, htokens, h⟩

end PocketCompiler
