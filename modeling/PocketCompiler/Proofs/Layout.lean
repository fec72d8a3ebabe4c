import PocketCompiler.Proofs.Grammar.Lockstep

/-!
# Layout

`IsLayout texts cs`: the text `cs` is made of the words `texts` with separators between them.  A
separator starts with a blank, and behind it blanks and comments may follow one another in any
order; a line comment is closed by its newline.

* `Behind.exists_decomposition`: at the end of every separator the lexer is where it was at the end
  of the blank, whatever the comments say, so it finds the same words.
* `Source.compile_of_layout`: how a source is laid out makes no difference but to the places that
  are reported.
-/

namespace PocketCompiler

/-! ### Separators -/

/-- Blanks and closed comments, in any order. -/
inductive IsFiller : List Char → Prop
  | nil : IsFiller []
  | blank {c : Char} {rest : List Char} (hc : isBlank c = true) (h : IsFiller rest) :
    IsFiller (c :: rest)
  | lineComment {comment rest : List Char} (hcomment : IsLineComment comment) (h : IsFiller rest) :
    IsFiller (comment ++ '\n' :: rest)
  | blockComment {comment rest : List Char} (hcomment : IsBlockComment comment)
      (h : IsFiller rest) : IsFiller (comment ++ rest)

/-- A blank, and then blanks and closed comments in any order. -/
def IsSeparator (cs : List Char) : Prop :=
  ∃ c rest, cs = c :: rest ∧ isBlank c = true ∧ IsFiller rest

/-- What may stand behind a word: the other words with separators in front of them, and in the end
a separator or nothing. -/
inductive Behind : (texts : List String) → List Char → Prop
  | nothing : Behind [] []
  | separator {cs : List Char} (h : IsSeparator cs) : Behind [] cs
  | word {text : String} {texts : List String} {gap rest : List Char} (hgap : IsSeparator gap)
      (hrest : Behind texts rest) : Behind (text :: texts) (gap ++ text.toList ++ rest)

/-- A text made of words with separators between them. -/
def IsLayout : (texts : List String) → List Char → Prop
  | [], cs => IsFiller cs
  | text :: texts, cs =>
    ∃ lead rest, IsFiller lead ∧ Behind texts rest ∧ cs = lead ++ text.toList ++ rest

/-! ### Finding the words again -/

/-- What a token is and how it is spelled: all but its place. -/
def Token.content (token : Token) : TokenKind × String := (token.kind, token.text)

variable {rest cs : List Char} {chunks : List Chunk} {texts : List String}

theorem lexemes_blank (loc : Nat) (text : List Char) (chunks : List Chunk) :
    lexemes loc (⟨.blank, text⟩ :: chunks) = lexemes (loc + byteLength text) chunks := by
  rw [lexemes_cons]
  rfl

theorem lexemes_comment (loc : Nat) (text : List Char) (chunks : List Chunk) :
    lexemes loc (⟨.comment, text⟩ :: chunks) = lexemes (loc + byteLength text) chunks := by
  rw [lexemes_cons]
  rfl

theorem Decomposition.blank_cons {c : Char} (h : Decomposition rest chunks)
    (hc : isBlank c = true) :
    Decomposition (c :: rest) (⟨.blank, [c]⟩ :: chunks) := by
  have hblank : Shape.blank.Found [c] rest := by
    refine ⟨⟨List.cons_ne_nil _ _, ?_⟩, trivial⟩
    simpa using hc
  exact .cons hblank h

/-- **Fillers leave no token**: the lexer goes on behind them as if they were not there. -/
theorem IsFiller.exists_decomposition (h : IsFiller cs) (hrest : Decomposition rest chunks) :
    ∃ more, Decomposition (cs ++ rest) more
      ∧ ∀ loc, ∃ behind, lexemes loc more = lexemes behind chunks := by
  induction h with
  | nil => exact ⟨chunks, hrest, fun loc => ⟨loc, rfl⟩⟩
  | @blank c tail hc _ ih =>
    obtain ⟨more, hmore, hlexemes⟩ := ih
    have hmore := hmore.blank_cons hc
    refine ⟨_, hmore, fun loc => ?_⟩
    rw [lexemes_blank]
    exact hlexemes _
  | @lineComment comment tail hcomment _ ih =>
    obtain ⟨more, hmore, hlexemes⟩ := ih
    -- The newline behind the comment is a blank of its own.
    have hmore := hmore.blank_cons (c := '\n') (by decide)
    have hfound : Shape.comment.Found comment ('\n' :: (tail ++ rest)) := by
      refine ⟨.inl hcomment, fun _ c hc => ?_⟩
      exact (Option.some.inj hc).symm
    rw [List.append_assoc]
    refine ⟨_, .cons hfound hmore, fun loc => ?_⟩
    rw [lexemes_comment, lexemes_blank]
    exact hlexemes _
  | @blockComment comment tail hcomment _ ih =>
    obtain ⟨more, hmore, hlexemes⟩ := ih
    have hfound : Shape.comment.Found comment (tail ++ rest) := by
      -- A comment between stars is not one that goes to the end of the line.
      refine ⟨.inr hcomment, fun hline => ?_⟩
      obtain ⟨body, rfl, -⟩ := hcomment
      obtain ⟨_, hslash, -⟩ := hline
      exact nomatch hslash
    rw [List.append_assoc]
    refine ⟨_, .cons hfound hmore, fun loc => ?_⟩
    rw [lexemes_comment]
    exact hlexemes _

theorem IsSeparator.isFiller (h : IsSeparator cs) : IsFiller cs := by
  obtain ⟨c, rest, rfl, hc, hrest⟩ := h
  exact .blank hc hrest

theorem IsSeparator.head? (h : IsSeparator cs) (rest : List Char) :
    ∀ c ∈ (cs ++ rest).head?, isBlank c = true := by
  obtain ⟨first, tail, rfl, hfirst, -⟩ := h
  intro c hc
  obtain rfl : first = c := Option.some.inj hc
  exact hfirst

/-- Behind a word comes a blank, or nothing at all. -/
theorem Behind.head? (h : Behind texts cs) : ∀ c ∈ cs.head?, isBlank c = true := by
  cases h with
  | nothing => exact fun c hc => nomatch hc
  | separator h => simpa using h.head? []
  | word hgap _ =>
    rw [List.append_assoc]
    exact hgap.head? _

/-- A blank makes no lexeme longer. -/
theorem Shape.endsBefore_of_isBlank {shape : Shape} {piece : List Char} (hshape : shape ≠ .comment)
    (hrest : ∀ c ∈ rest.head?, isBlank c = true) : shape.EndsBefore piece rest := by
  have hclass : ∀ c, isBlank c = true → isDigit c = false ∧ isWordPart c = false
      ∧ c ≠ '=' ∧ c ≠ '/' ∧ c ≠ '*' := by
    intro c hc
    simp only [isBlank, Bool.or_eq_true, beq_iff_eq] at hc
    rcases hc with (((rfl | rfl) | rfl) | rfl) | rfl <;> decide
  have hne : ∀ d, (∀ c, isBlank c = true → c ≠ d) → rest.head? ≠ some d := by
    intro d hd hhead
    exact hd d (hrest d hhead) rfl
  cases shape with
  | comment => exact absurd rfl hshape
  | blank | literal => exact trivial
  | number => exact fun c hc => (hclass c (hrest c hc)).1
  | word => exact fun c hc => (hclass c (hrest c hc)).2.1
  | punctuator =>
    refine ⟨fun _ => hne '=' fun c hc => (hclass c hc).2.2.1, fun _ => ⟨?_, ?_⟩⟩
    · exact hne '/' fun c hc => (hclass c hc).2.2.2.1
    · exact hne '*' fun c hc => (hclass c hc).2.2.2.2

/-- A word with a blank behind it is found. -/
theorem Token.HasShape.found {token : Token} {shape : Shape} (h : token.HasShape shape)
    (hrest : ∀ c ∈ rest.head?, isBlank c = true) : shape.Found token.text.toList rest := by
  refine ⟨h.fits, Shape.endsBefore_of_isBlank ?_ hrest⟩
  rintro rfl
  exact nomatch h.kind

theorem Token.HasShape.lexemes_cons {token : Token} {shape : Shape} (h : token.HasShape shape)
    (loc : Nat) (chunks : List Chunk) :
    lexemes loc (⟨shape, token.text.toList⟩ :: chunks) = ⟨token.kind, loc, token.text⟩
      :: lexemes (loc + byteLength token.text.toList) chunks := by
  have htoken : Piece.token? ⟨shape.kind token.text.toList, loc, token.text.toList⟩
      = some ⟨token.kind, loc, token.text⟩ := by
    rw [← h.kind, Piece.token?, String.ofList_toList]
  rw [PocketCompiler.lexemes_cons, htoken]
  rfl

/-- **Words with separators between them are found again.** -/
theorem Behind.exists_decomposition {tokens : List Token}
    (hshapes : ∀ token ∈ tokens, ∃ shape, token.HasShape shape)
    (h : Behind (tokens.map Token.text) cs) :
    ∃ chunks, Decomposition cs chunks
      ∧ ∀ loc, (lexemes loc chunks).map Token.content = tokens.map Token.content := by
  -- Word by word, with the filler in front of it.
  induction tokens generalizing cs with
  | nil =>
    have hfiller : IsFiller cs := by
      cases h with
      | nothing => exact .nil
      | separator h => exact h.isFiller
    obtain ⟨chunks, hchunks, hlexemes⟩ := hfiller.exists_decomposition .nil
    rw [List.append_nil] at hchunks
    refine ⟨chunks, hchunks, fun loc => ?_⟩
    obtain ⟨behind, heq⟩ := hlexemes loc
    rw [heq]
    rfl
  | cons token tokens ih =>
    obtain ⟨⟨shape, hshape⟩, hmore⟩ := List.forall_mem_cons.1 hshapes
    cases h with
    | word hgap hrest =>
      obtain ⟨chunks, hchunks, hlexemes⟩ := ih hmore hrest
      obtain ⟨more, hmore, hsame⟩ :=
        hgap.isFiller.exists_decomposition (.cons (hshape.found hrest.head?) hchunks)
      rw [List.append_assoc]
      refine ⟨more, hmore, fun loc => ?_⟩
      obtain ⟨behind, heq⟩ := hsame loc
      rw [heq, hshape.lexemes_cons, List.map_cons, hlexemes, List.map_cons]
      rfl

/-- **A laid out text has the words that it is made of.** -/
theorem IsLayout.exists_decomposition {tokens : List Token}
    (hshapes : ∀ token ∈ tokens, ∃ shape, token.HasShape shape)
    (h : IsLayout (tokens.map Token.text) cs) :
    ∃ chunks, Decomposition cs chunks
      ∧ (lexemes 0 chunks).map Token.content = tokens.map Token.content := by
  cases tokens with
  -- A text without words is filler.
  | nil =>
    obtain ⟨chunks, hchunks, hlexemes⟩ := IsFiller.exists_decomposition h .nil
    rw [List.append_nil] at hchunks
    obtain ⟨behind, heq⟩ := hlexemes 0
    refine ⟨chunks, hchunks, ?_⟩
    rw [heq]
    rfl
  | cons token tokens =>
    -- No separator has to stand in front of the first word.
    obtain ⟨lead, rest, hlead, hrest, rfl⟩ := h
    obtain ⟨⟨shape, hshape⟩, hmore⟩ := List.forall_mem_cons.1 hshapes
    obtain ⟨chunks, hchunks, hlexemes⟩ := hrest.exists_decomposition hmore
    obtain ⟨more, hmore, hsame⟩ :=
      hlead.exists_decomposition (.cons (hshape.found hrest.head?) hchunks)
    rw [List.append_assoc]
    obtain ⟨behind, heq⟩ := hsame 0
    refine ⟨more, hmore, ?_⟩
    rw [heq, hshape.lexemes_cons, List.map_cons, hlexemes, List.map_cons]
    rfl

/-! ### Places do not matter -/

/-- Tokens with the same contents are the same tokens at other places. -/
theorem exists_place {tokens other : List Token} (hsorted : tokens.Pairwise (·.loc < ·.loc))
    (h : other.map Token.content = tokens.map Token.content) :
    ∃ place : Nat → Nat, other = tokens.map fun token => { token with loc := place token.loc } := by
  induction tokens generalizing other with
  | nil => exact ⟨id, List.map_eq_nil_iff.1 h⟩
  | cons token tokens ih =>
    obtain ⟨first, more, rfl⟩ := List.exists_cons_of_ne_nil
      (l := other) (fun hnil => by rw [hnil] at h; exact nomatch h)
    obtain ⟨hfirst, hmore⟩ := List.cons.inj h
    obtain ⟨hbelow, hsorted⟩ := List.pairwise_cons.1 hsorted
    obtain ⟨place, rfl⟩ := ih hsorted hmore
    -- The places are distinct, so the first one can be sent where it has to go.
    refine ⟨fun loc => if loc = token.loc then first.loc else place loc, ?_⟩
    obtain ⟨kind, loc, text⟩ := first
    obtain ⟨rfl, rfl⟩ := Prod.mk.inj hfirst
    dsimp only
    rw [List.map_cons, if_pos rfl]
    congr 1
    apply List.map_congr_left
    intro later hlater
    have hne : later.loc ≠ token.loc := by
      have := hbelow later hlater
      omega
    rw [if_neg hne]

/-- The rewording that only moves tokens. -/
def Rewording.move (place : Nat → Nat) (stop : Nat) : Rewording :=
  ⟨place, id, Function.injective_id, stop⟩

theorem Rewording.token_move (place : Nat → Nat) (stop : Nat) (token : Token) :
    (move place stop).token token = { token with loc := place token.loc } := by
  simp [move, Rewording.token]

/-- The tokens say where the source ends. -/
theorem Source.exists_eof {source : Source} {tokens : List Token}
    (h : source.tokenize = .ok tokens) : ∃ token ∈ tokens, token.kind = .eof := by
  obtain ⟨front, rfl, -⟩ := exists_lexemes_of_tokenize h
  exact ⟨Token.atEnd source, List.mem_append_right _ List.mem_cons_self, rfl⟩

/-- **Tokens at other places are read alike**: as the same program, with its trees at the other
places, or to the same failure. -/
theorem parse_moved {source other : Source} {tokens : List Token}
    (hends : ∃ token ∈ tokens, token.kind = .eof) (place : Nat → Nat) :
    parse other (tokens.map (Rewording.move place other.byteSize).token)
      = moveResult place (Rewording.move place other.byteSize).program (parse source tokens) := by
  have hfits : (Rewording.move place other.byteSize).Fits (source.start tokens) :=
    ⟨hends, fun _ _ => rfl⟩
  cases hparse : parse source tokens with
  | ok program => exact parse_reworded rfl hfits (fun _ _ => rfl) hparse
  | error failure => exact parse_reworded_error rfl hfits (fun _ => rfl) hparse

theorem Source.compile_of_parse {source : Source} {tokens : List Token} {program : Program}
    (htokens : source.tokenize = .ok tokens) (hparse : parse source tokens = .ok program) :
    source.compile = orFault program.lower := by
  rw [Source.compile, Source.program, htokens]
  show (parse source tokens >>= fun program => orFault program.lower) = _
  rw [hparse]
  rfl

theorem Source.compile_of_parse_error {source : Source} {tokens : List Token} {failure : Failure}
    (htokens : source.tokenize = .ok tokens) (hparse : parse source tokens = .error failure) :
    source.compile = .error failure := by
  rw [Source.compile, Source.program, htokens]
  show (parse source tokens >>= fun program => orFault program.lower) = _
  rw [hparse]
  rfl

/-- **A source with the same tokens at other places compiles alike**: to the same assembly, or to
the same failure at its other place. -/
theorem Source.compile_of_moved {source other : Source} {tokens : List Token} {place : Nat → Nat}
    (htokens : source.tokenize = .ok tokens)
    (htokens' : other.tokenize
      = .ok (tokens.map fun token => { token with loc := place token.loc })) :
    other.compile = moveResult place id source.compile := by
  let w := Rewording.move place other.byteSize
  have hmap : tokens.map w.token
      = tokens.map fun token => { token with loc := place token.loc } :=
    List.map_congr_left fun token _ => Rewording.token_move place other.byteSize token
  have hprogram : other.program = moveResult place w.program source.program := by
    rw [program, program, htokens, htokens', ← hmap]
    exact parse_moved (exists_eof htokens) place
  refine bind_moveResult hprogram fun program => ?_
  rw [Rewording.lower_program]
  cases program.lower <;> rfl

/-- Sources with tokens of the same contents compile to the same assembly, or to failures with the
same message. -/
theorem Source.compile_of_content {source other : Source} {tokens tokens' : List Token}
    (htokens : source.tokenize = .ok tokens) (htokens' : other.tokenize = .ok tokens')
    (hsame : tokens'.map Token.content = tokens.map Token.content) :
    (∃ listing, source.compile = .ok listing ∧ other.compile = .ok listing)
      ∨ ∃ failure failure', source.compile = .error failure ∧ other.compile = .error failure'
        ∧ failure'.message = failure.message := by
  obtain ⟨place, rfl⟩ := exists_place (pairwise_tokenize htokens) hsame
  have hmoved := compile_of_moved htokens htokens'
  cases hcompile : source.compile with
  | ok listing =>
    rw [hcompile] at hmoved
    exact .inl ⟨listing, rfl, hmoved⟩
  | error failure =>
    rw [hcompile] at hmoved
    exact .inr ⟨failure, failure.moved place, rfl, hmoved, failure.message_moved⟩

/-- **Layout makes no difference.**  A text that is made of the words of a source, with separators
between them, is cut into the same words.  The two compile to the same assembly, or fail with the
same message. -/
theorem Source.compile_of_layout {source other : Source} {tokens : List Token}
    (htokens : source.tokenize = .ok tokens)
    (hlayout : IsLayout ((tokens.filter (·.kind ≠ .eof)).map Token.text) other.text.toList) :
    (∃ tokens', other.tokenize = .ok tokens'
        ∧ tokens'.map Token.content = tokens.map Token.content)
      ∧ ((∃ listing, source.compile = .ok listing ∧ other.compile = .ok listing)
        ∨ ∃ failure failure', source.compile = .error failure ∧ other.compile = .error failure'
          ∧ failure'.message = failure.message) := by
  obtain ⟨front, rfl, hshapes⟩ := exists_lexemes_of_tokenize htokens
  -- Only the last token is one of the end.
  have hwords : (front ++ [Token.atEnd source]).filter (·.kind ≠ .eof) = front := by
    have hfront : front.filter (·.kind ≠ .eof) = front := by
      apply List.filter_eq_self.2
      intro token htoken
      obtain ⟨shape, hshape⟩ := hshapes token htoken
      simpa using hshape.kind_ne_eof
    rw [List.filter_append, hfront]
    exact List.append_nil _
  rw [hwords] at hlayout
  obtain ⟨chunks, hchunks, hcontent⟩ := hlayout.exists_decomposition hshapes
  have hsame : (lexemes 0 chunks ++ [Token.atEnd other]).map Token.content
      = (front ++ [Token.atEnd source]).map Token.content := by
    rw [List.map_append, List.map_append, hcontent]
    rfl
  exact ⟨⟨_, hchunks.tokenize, hsame⟩, compile_of_content htokens hchunks.tokenize hsame⟩

/-- A declaration with no blank that it does not need. -/
def Source.dense : Source := ⟨"dense", "var x int=6/2;"⟩

/-- The same declaration with blanks and comments everywhere. -/
def Source.spread : Source :=
  ⟨"spread", "// x\nvar\tx int = /* 6 * /* 7 */6 /\n//*\n2 ; "⟩

theorem Source.compile_of_layout_spread :
    ∃ tokens tokens' listing, Source.dense.tokenize = .ok tokens
      ∧ Source.spread.tokenize = .ok tokens'
      ∧ tokens'.map Token.content = tokens.map Token.content
      ∧ Source.dense.compile = .ok listing ∧ Source.spread.compile = .ok listing := by
  have hwords : (Source.dense.tokenize.toOption.map fun tokens =>
      (tokens.filter (·.kind ≠ .eof)).map Token.text)
      = some ["var", "x", "int", "=", "6", "/", "2", ";"] := by decide +kernel
  have hcompiles : Source.dense.compile.toOption.isSome = true := by decide +kernel
  have hblank : ∀ c, isBlank c = true → IsSeparator [c] := fun c hc => ⟨c, [], rfl, hc, .nil⟩
  -- A comment that holds what looks like the start of another one.
  have hblock : IsSeparator (' ' :: ("/* 6 * /* 7 */".toList ++ [])) :=
    ⟨' ', _, rfl, by decide,
      .blockComment ⟨" 6 * /* 7 ".toList, by decide +kernel, by decide +kernel⟩ .nil⟩
  -- A line comment that starts like the other kind.
  have hline : IsSeparator ('\n' :: ("//*".toList ++ ['\n'])) :=
    ⟨'\n', _, rfl, by decide, .lineComment ⟨"*".toList, by decide +kernel, by decide +kernel⟩ .nil⟩
  have hlead : IsFiller ("// x".toList ++ ['\n']) :=
    .lineComment ⟨" x".toList, by decide +kernel, by decide +kernel⟩ .nil
  have hlayout :
      IsLayout ["var", "x", "int", "=", "6", "/", "2", ";"] Source.spread.text.toList := by
    refine ⟨_, _, hlead, .word (hblank '\t' rfl) (.word (hblank ' ' rfl) (.word (hblank ' ' rfl)
      (.word hblock (.word (hblank ' ' rfl) (.word hline (.word (hblank ' ' rfl)
        (.separator (hblank ' ' rfl)))))))), ?_⟩
    decide +kernel
  obtain ⟨tokens, htokens, hwords⟩ := Option.map_eq_some_iff.1 hwords
  have htokens := eq_ok_of_toOption_eq_some htokens
  rw [← hwords] at hlayout
  obtain ⟨⟨tokens', htokens', hsame⟩, houtcome⟩ := Source.compile_of_layout htokens hlayout
  rcases houtcome with ⟨listing, hdense, hspread⟩ | ⟨failure, failure', hfailure, -⟩
  · exact ⟨tokens, tokens', listing, htokens, htokens', hsame, hdense, hspread⟩
  · rw [hfailure] at hcompiles
    exact nomatch hcompiles

end PocketCompiler
