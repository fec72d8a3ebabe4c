import PocketCompiler.Compile
import PocketCompiler.Proofs.Token.LiteralEncoding

/-!
# String literals of a source

A literal in front of any text is one token, with the bytes that it encodes, and every token that is
a literal comes from such an encoding.  A quote that nothing closes is refused.  What makes it one
that opens a literal is said without the lexer: the text before it runs through whole comments and
whole literals (`Outside`).
-/

namespace PocketCompiler

variable {c : Char} {cs body before after : List Char}

/-! ### Quotes that are not closed -/

/-- The text ends outside comments and literals. -/
inductive Outside : List Char → Prop
  | nil : Outside []
  | plain {c : Char} {cs : List Char} (hquote : c ≠ '"')
      (hslash : c = '/' → cs.head? ≠ some '/' ∧ cs.head? ≠ some '*') (h : Outside cs) :
    Outside (c :: cs)
  | lineComment {body cs : List Char} (hbody : '\n' ∉ body) (h : Outside cs) :
    Outside ('/' :: '/' :: (body ++ '\n' :: cs))
  | blockComment {body cs : List Char} (hbody : ¬ ['*', '/'] <:+: body ++ ['*']) (h : Outside cs) :
    Outside ('/' :: '*' :: (body ++ '*' :: '/' :: cs))
  | literal {body cs : List Char} (hbody : LiteralBody body) (h : Outside cs) :
    Outside ('"' :: (body ++ '"' :: cs))

/-- What follows a quote reaches a newline or the end of the text before a quote that closes it. -/
def Unclosed (after : List Char) : Prop :=
  ∃ body rest, after = body ++ rest ∧ LiteralBody body
    ∧ (rest = [] ∨ rest = ['\\'] ∨ rest.head? = some '\n')

theorem Unclosed.literalBody? (h : Unclosed after) : PocketCompiler.literalBody? after = none := by
  obtain ⟨body, rest, rfl, hbody, hrest⟩ := h
  induction hbody with
  | nil =>
    rcases hrest with rfl | rfl | hnewline
    · rfl
    · rfl
    · obtain ⟨rest, rfl⟩ := List.head?_eq_some_iff.1 hnewline
      rfl
  | @plain c cs hc _ ih =>
    rw [List.cons_append, literalBody?_plain hc, ih]
    rfl
  | @escaped c cs _ ih =>
    rw [List.cons_append, List.cons_append, literalBody?.eq_5, ih]
    rfl

theorem Unclosed.scan (h : Unclosed after) :
    PocketCompiler.scan '"' after = .error .unclosedString := by
  rw [PocketCompiler.scan, if_neg (by decide), if_neg (by simp), if_neg (by simp),
    if_neg (by decide), if_pos (by decide), h.literalBody?]

/-- A quote makes no piece longer. -/
theorem scan_append_quote (hquote : c ≠ '"')
    (hslash : c = '/' → cs.head? ≠ some '/' ∧ cs.head? ≠ some '*') (after : List Char) :
    scan c (cs ++ '"' :: after) = scan c cs := by
  have hhead : ∀ d, d ≠ '"' → ((cs ++ '"' :: after).head? = some d ↔ cs.head? = some d) := by
    intro d hd
    cases cs with
    | nil => simpa using hd.symm
    | cons c cs => rfl
  -- The quote is neither a slash nor a star, so it starts no comment.
  have hcomment : ∀ d, d ≠ '"' → (c = '/' → cs.head? ≠ some d) →
      (c == '/' && (cs ++ '"' :: after).head? == some d) = false
        ∧ (c == '/' && cs.head? == some d) = false := by
    intro d hd h
    by_cases hc : c = '/'
    · have hwhole : (cs ++ '"' :: after).head? ≠ some d := fun heq => h hc ((hhead d hd).1 heq)
      rw [beq_false_of_ne hwhole, beq_false_of_ne (h hc), Bool.and_false]
      exact ⟨rfl, rfl⟩
    · rw [beq_false_of_ne hc, Bool.false_and, Bool.false_and]
      exact ⟨rfl, rfl⟩
  have hpair : (cs ++ '"' :: after).head?.any (isPair c) = cs.head?.any (isPair c) := by
    cases cs with
    | nil => rfl
    | cons c cs => rfl
  obtain ⟨hline, hline'⟩ := hcomment '/' (by decide) fun hc => (hslash hc).1
  obtain ⟨hblock, hblock'⟩ := hcomment '*' (by decide) fun hc => (hslash hc).2
  have htake : ∀ p : Char → Bool, (cs ++ '"' :: after).take (runLength p cs)
      = cs.take (runLength p cs) := fun p => List.take_append_of_le_length (runLength_le p cs)
  -- A quote is no digit and no part of a word, so it ends both.
  have hdigits := runLength_append_cons (p := isDigit) (d := '"') rfl cs after
  have hparts := runLength_append_cons (p := isWordPart) (d := '"') rfl cs after
  simp only [scan, hline, hline', hblock, hblock', hdigits, hparts, hpair, htake,
    beq_false_of_ne hquote, Bool.false_eq_true, if_false]

namespace Outside

/-- A piece that is no comment and no literal is passed character by character. -/
theorem tail (h : Outside (c :: cs)) (hquote : c ≠ '"') (hslash : c ≠ '/') : Outside cs := by
  cases h with
  | plain _ _ h => exact h
  | lineComment => exact absurd rfl hslash
  | blockComment => exact absurd rfl hslash
  | literal => exact absurd rfl hquote

theorem drop_runLength {p : Char → Bool} (hquote : p '"' = false) (hslash : p '/' = false)
    (h : Outside cs) : Outside (cs.drop (runLength p cs)) := by
  induction cs with
  | nil => exact h
  | cons c cs ih =>
    by_cases hc : p c = true
    · rw [runLength, List.takeWhile_cons_of_pos hc, List.length_cons, List.drop_succ_cons]
      refine ih (h.tail ?_ ?_)
      · rintro rfl
        exact absurd hc (by rw [hquote]; exact Bool.false_ne_true)
      · rintro rfl
        exact absurd hc (by rw [hslash]; exact Bool.false_ne_true)
    · rw [runLength, List.takeWhile_cons_of_neg hc]
      exact h

/-- What is left behind a piece that is no comment and no literal ends outside them too. -/
theorem drop_of_scan {kind : PieceKind} {length : Nat} (h : Outside cs) (hquote : c ≠ '"')
    (hslash : c = '/' → cs.head? ≠ some '/' ∧ cs.head? ≠ some '*')
    (hscan : scan c cs = .ok (kind, length)) : Outside (cs.drop length) := by
  -- The cases of the scanner; comments and literals do not start with this character.
  unfold scan at hscan
  split at hscan
  · obtain ⟨-, rfl⟩ := Prod.mk.inj (Except.ok.inj hscan)
    exact h
  split at hscan
  · next hline =>
    simp only [Bool.and_eq_true, beq_iff_eq] at hline
    exact absurd hline.2 (hslash hline.1).1
  split at hscan
  · next hblock =>
    simp only [Bool.and_eq_true, beq_iff_eq] at hblock
    exact absurd hblock.2 (hslash hblock.1).2
  split at hscan
  · obtain ⟨kind, -, hpair⟩ := bind_eq_ok_iff.1 hscan
    obtain ⟨-, rfl⟩ := Prod.mk.inj (Except.ok.inj hpair)
    exact h.drop_runLength rfl rfl
  split at hscan
  · next hc => exact absurd (eq_of_beq hc) hquote
  split at hscan
  · obtain ⟨-, rfl⟩ := Prod.mk.inj (Except.ok.inj hscan)
    exact h.drop_runLength rfl rfl
  split at hscan
  · next hpair =>
    obtain ⟨-, rfl⟩ := Prod.mk.inj (Except.ok.inj hscan)
    -- The second character of a pair is a `=`.
    obtain ⟨d, hhead, hequals⟩ := (Option.any_eq_true _ _).1 hpair
    obtain ⟨cs, rfl⟩ := List.head?_eq_some_iff.1 hhead
    rw [isPair, Bool.and_eq_true] at hequals
    obtain rfl := eq_of_beq hequals.1
    exact h.tail (by decide) (by decide)
  split at hscan
  · obtain ⟨-, rfl⟩ := Prod.mk.inj (Except.ok.inj hscan)
    exact h
  · cases hscan

/-- **One piece of a text that ends outside comments and literals**: the quote behind the text does
not change it, and the rest of the text ends outside them too. -/
theorem step (h : Outside (c :: cs)) (after : List Char) :
    scan c (cs ++ '"' :: after) = scan c cs
      ∧ ∀ kind length, scan c cs = .ok (kind, length) →
        length ≤ cs.length ∧ Outside (cs.drop length) := by
  -- A comment and a literal are closed in the text, so the scanner finds all of them.
  have hclosed : ∀ {shape : Shape} {piece rest : List Char}, shape ≠ .blank → cs = piece ++ rest →
      shape.Found (c :: piece) rest → shape.Found (c :: piece) (rest ++ '"' :: after) →
      Outside rest → scan c (cs ++ '"' :: after) = scan c cs
        ∧ ∀ kind length, scan c cs = .ok (kind, length) →
          length ≤ cs.length ∧ Outside (cs.drop length) := by
    rintro shape piece rest hblank rfl hfound hfound' hrest
    have hscan := hfound.scan fun h => absurd h hblank
    have hscan' := hfound'.scan fun h => absurd h hblank
    rw [List.append_assoc, hscan, hscan']
    refine ⟨rfl, fun kind length heq => ?_⟩
    obtain ⟨-, rfl⟩ := Prod.mk.inj (Except.ok.inj heq)
    rw [List.drop_left]
    exact ⟨by rw [List.length_append]; exact Nat.le_add_right _ _, hrest⟩
  -- Any other piece ends at the quote at the latest.
  cases h with
  | plain hquote hslash h =>
    exact ⟨scan_append_quote hquote hslash after, fun kind length hscan =>
      ⟨length_le_of_scan hscan, h.drop_of_scan hquote hslash hscan⟩⟩
  | @lineComment body cs hbody h =>
    have hline : IsLineComment ('/' :: '/' :: body) := ⟨body, rfl, hbody⟩
    refine @hclosed .comment ('/' :: body) _ (by decide) rfl ⟨.inl hline, ?_⟩
      ⟨.inl hline, ?_⟩ (.plain (by decide) (fun hslash => absurd hslash (by decide)) h)
    · exact fun _ d hd => (Option.some.inj hd).symm
    · exact fun _ d hd => (Option.some.inj hd).symm
  | @blockComment body cs hbody h =>
    have hblock : IsBlockComment ('/' :: '*' :: (body ++ ['*', '/'])) := ⟨body, rfl, hbody⟩
    have hnot : ¬ IsLineComment ('/' :: '*' :: (body ++ ['*', '/'])) := by
      rintro ⟨_, heq, -⟩
      exact absurd (List.cons.inj (List.cons.inj heq).2).1 (by decide)
    exact @hclosed .comment ('*' :: (body ++ ['*', '/'])) _ (by decide) (by simp)
      ⟨.inr hblock, fun hline => absurd hline hnot⟩ ⟨.inr hblock, fun hline => absurd hline hnot⟩ h
  | @literal body cs hbody h =>
    exact @hclosed .literal (body ++ ['"']) _ (by decide) (by simp)
      ⟨⟨body, rfl, hbody⟩, trivial⟩ ⟨⟨body, rfl, hbody⟩, trivial⟩ h

/-- **A quote that is not closed ends the reading of the text**, after what stands before it. -/
theorem piecesFrom_append : ∀ {size : Nat} {before : List Char}, before.length ≤ size →
    Outside before → Unclosed after → ∀ loc,
      piecesFrom 0 loc (before ++ '"' :: after)
        = (piecesFrom 0 loc before).bind fun _ =>
          .error (.complaint (loc + byteLength before) .unclosedString) := by
  have hnil : ∀ loc, Unclosed after →
      piecesFrom 0 loc ('"' :: after) = .error (.complaint loc .unclosedString) := by
    intro loc hafter
    rw [piecesFrom, hafter.scan]
  -- The induction is on a bound for the text in front of the quote.
  intro size
  induction size with
  | zero =>
    intro before hsize h hafter loc
    obtain rfl := List.eq_nil_of_length_eq_zero (Nat.le_zero.1 hsize)
    exact hnil loc hafter
  | succ size ih =>
    intro before hsize h hafter loc
    cases before with
    | nil => exact hnil loc hafter
    | cons c cs =>
      -- A piece before the quote is found as without the quote, and less text is left behind it.
      obtain ⟨hsame, hstep⟩ := h.step after
      rw [List.cons_append, piecesFrom, piecesFrom, hsame]
      cases hscan : scan c cs with
      | error cause => rfl
      | ok found =>
        obtain ⟨kind, length⟩ := found
        obtain ⟨hlength, hrest⟩ := hstep kind length hscan
        have hshort : (cs.drop length).length ≤ size := by
          rw [List.length_cons] at hsize
          rw [List.length_drop]
          omega
        -- The quote stands behind the piece and what is left behind that.
        have hbytes : c.utf8Size + byteLength (cs.take length) + byteLength (cs.drop length)
            = byteLength (c :: cs) := by
          rw [byteLength, Nat.add_assoc, ← byteLength_append, List.take_append_drop]
        simp only
        rw [piecesFrom_eq_drop, List.drop_append_of_le_length hlength,
          List.take_append_of_le_length hlength, ih hshort hrest hafter,
          piecesFrom_eq_drop length, ← hbytes]
        have hloc : loc + c.utf8Size + byteLength (cs.take length) + byteLength (cs.drop length)
            = loc + (c.utf8Size + byteLength (cs.take length) + byteLength (cs.drop length)) := by
          omega
        rw [hloc]
        cases piecesFrom 0 (loc + c.utf8Size + byteLength (cs.take length)) (cs.drop length) with
        | error failure => rfl
        | ok pieces => rfl

end Outside

namespace Source

/-- A quote that is not closed, after a text that ends outside comments and literals. -/
theorem tokenize_unclosed (name : String) {before after : String} (h : Outside before.toList)
    (hafter : Unclosed after.toList) :
    tokenize ⟨name, before ++ "\"" ++ after⟩ = (tokenize ⟨name, before⟩).bind fun _ =>
      .error (.complaint before.utf8ByteSize .unclosedString) := by
  have hpieces := h.piecesFrom_append (Nat.le_refl _) hafter 0
  have htext : (before ++ "\"" ++ after).toList = before.toList ++ '"' :: after.toList := by
    rw [String.toList_append, String.toList_append, List.append_assoc]
    rfl
  rw [tokenize, pieces, htext, hpieces, tokenize, pieces, Nat.zero_add, byteLength_toList]
  cases piecesFrom 0 0 before.toList with
  | error failure => rfl
  | ok pieces => rfl

theorem compile_of_tokenize_eq_error {source : Source} {failure : Failure}
    (h : source.tokenize = .error failure) : source.compile = .error failure := by
  rw [compile, program, h]
  rfl

end Source

/-! ### Literals that are closed -/

/-- The token at a place of the literal with this body, which encodes the bytes. -/
def Token.literal (loc : Nat) (bytes : List UInt8) (body : String) : Token :=
  ⟨.string (some (bytes ++ [0])) (some (.array .char (bytes.length + 1))), loc,
    "\"" ++ body ++ "\""⟩

theorem Token.length_literal (loc : Nat) (bytes : List UInt8) (body : String) :
    (Token.literal loc bytes body).length = body.toUTF8.data.toList.length + 2 := by
  have hquote : "\"".utf8ByteSize = 1 := by decide
  rw [toList_toUTF8, length_utf8, byteLength_toList]
  show ("\"" ++ body ++ "\"").utf8ByteSize = body.utf8ByteSize + 2
  rw [String.utf8ByteSize_append, String.utf8ByteSize_append, hquote]
  omega

theorem toList_quoted (body : String) :
    ("\"" ++ body ++ "\"").toList = '"' :: (body.toList ++ ['"']) := by
  rw [String.toList_append, String.toList_append]
  rfl

/-- What the lexer makes of a quoted body. -/
theorem literalKind_of_unescape {bytes : List UInt8} (h : unescape body = bytes) :
    literalKind body = .string (some (bytes ++ [0])) (some (.array .char (bytes.length + 1))) := by
  rw [literalKind, h]
  simp

namespace Source

variable {name : String}

/-- A literal in front of a text. -/
theorem tokenize_literal {top : Nat} {bytes : List UInt8} {body rest : String} {tokens : List Token}
    (h : Encodes top bytes body.toUTF8.data.toList) (hrest : tokenize ⟨name, rest⟩ = .ok tokens) :
    ∃ more, tokenize ⟨name, "\"" ++ body ++ "\"" ++ rest⟩
      = .ok (Token.literal 0 bytes body :: more) := by
  rw [toList_toUTF8] at h
  obtain ⟨hbody, hbytes⟩ := h.decodes (Nat.le_refl _)
  obtain ⟨chunks, hchunks, -⟩ := exists_decomposition_of_tokenize hrest
  have hfound : Shape.literal.Found ('"' :: (body.toList ++ ['"'])) rest.toList :=
    ⟨⟨body.toList, rfl, hbody⟩, trivial⟩
  have hwhole := Decomposition.cons hfound hchunks
  have htext : ("\"" ++ body ++ "\"" ++ rest).toList
      = '"' :: (body.toList ++ ['"']) ++ rest.toList := by
    rw [String.toList_append, toList_quoted]
  rw [← htext] at hwhole
  have hquoted : String.ofList ('"' :: (body.toList ++ ['"'])) = "\"" ++ body ++ "\"" := by
    rw [← toList_quoted, String.ofList_toList]
  have hkind : Shape.literal.kind ('"' :: (body.toList ++ ['"']))
      = .lexeme (literalKind body.toList) := by simp [Shape.kind]
  have htokens : tokenize ⟨name, "\"" ++ body ++ "\"" ++ rest⟩ = _ := hwhole.tokenize
  rw [lexemes_cons, hkind, literalKind_of_unescape hbytes, Piece.token?, hquoted] at htokens
  exact ⟨_, htokens⟩

/-- Every literal among the tokens. -/
theorem exists_encodes_of_mem {source : Source} {tokens : List Token}
    (h : source.tokenize = .ok tokens) {token : Token} (htoken : token ∈ tokens)
    {data : Option (List UInt8)} {ty : Option Ty} (hkind : token.kind = .string data ty) :
    ∃ bytes body, Encodes 511 bytes body.toUTF8.data.toList
      ∧ token = Token.literal token.loc bytes body := by
  obtain ⟨front, rfl, hfront⟩ := exists_lexemes_of_tokenize h
  -- The token that stands for the end is no literal.
  rcases List.mem_append.1 htoken with hmem | hend
  swap
  · rw [List.mem_singleton.1 hend] at hkind
    exact nomatch hkind
  obtain ⟨shape, hshape⟩ := hfront token hmem
  -- Only a literal has the kind of a string.
  have hliteral : shape = .literal := by
    have hlexeme := hshape.kind
    rw [hkind] at hlexeme
    cases shape with
    | literal => rfl
    | word =>
      simp only [Shape.kind, wordKind] at hlexeme
      split at hlexeme <;> injection PieceKind.lexeme.inj hlexeme
    | number | punctuator => injection PieceKind.lexeme.inj hlexeme
    | _ => injection hlexeme
  subst hliteral
  obtain ⟨body, htext, hbody⟩ := hshape.fits
  refine ⟨unescape body, String.ofList body, ?_, ?_⟩
  · rw [toList_toUTF8, String.toList_ofList]
    exact encodes_utf8_iff.2 ⟨hbody, rfl⟩
  -- A token is its kind, its place and its text, and all three are those of the literal.
  · have hquoted : token.text = "\"" ++ String.ofList body ++ "\"" := by
      refine String.toList_inj.1 ?_
      rw [htext, toList_quoted, String.toList_ofList]
    have hdecoded := hshape.kind
    rw [htext] at hdecoded
    have hkind : token.kind = literalKind body := by
      simpa [Shape.kind] using hdecoded
    rw [literalKind_of_unescape rfl] at hkind
    obtain ⟨kind, loc, text⟩ := token
    obtain rfl : kind = _ := hkind
    obtain rfl : text = _ := hquoted
    rfl

/-- **Literals decode to what was encoded, and to nothing else.**  An encoding in quotes, in front
of a text with tokens, is one token with its bytes and a zero byte.  Every literal of a source comes
from an encoding, but its octal numbers may be greater than a byte.  A quote outside comments and
literals that nothing closes is refused, where it stands, unless something before it is. -/
theorem literals_decode :
    (∀ (name : String) (bytes : List UInt8) (body rest : String) (tokens : List Token),
      Encodes 255 bytes body.toUTF8.data.toList → tokenize ⟨name, rest⟩ = .ok tokens →
        ∃ token more, tokenize ⟨name, "\"" ++ body ++ "\"" ++ rest⟩ = .ok (token :: more)
          ∧ token.kind = .string (some (bytes ++ [0])) (some (.array .char (bytes.length + 1)))
          ∧ token.loc = 0 ∧ token.length = body.toUTF8.data.toList.length + 2)
    ∧ (∀ (source : Source) (tokens : List Token), source.tokenize = .ok tokens →
      ∀ token ∈ tokens, ∀ data ty, token.kind = .string data ty →
        ∃ bytes body, token.text = "\"" ++ body ++ "\""
          ∧ Encodes 511 bytes body.toUTF8.data.toList
          ∧ data = some (bytes ++ [0]) ∧ ty = some (.array .char (bytes.length + 1)))
    ∧ ∀ name before after : String, Outside before.toList → Unclosed after.toList →
      (∃ failure, compile ⟨name, before ++ "\"" ++ after⟩ = .error failure)
      ∧ (∀ tokens, tokenize ⟨name, before⟩ = .ok tokens →
        tokenize ⟨name, before ++ "\"" ++ after⟩
          = .error (.complaint before.utf8ByteSize .unclosedString))
      ∧ ∀ failure, tokenize ⟨name, before⟩ = .error failure →
        tokenize ⟨name, before ++ "\"" ++ after⟩ = .error failure := by
  refine ⟨fun name bytes body rest tokens h hrest => ?_, fun source tokens h token htoken data ty
    hkind => ?_, fun name before after h hafter => ?_⟩
  -- From the bytes to the token, from a token to its bytes, and a quote that is not closed.
  · obtain ⟨more, hmore⟩ := tokenize_literal h hrest
    exact ⟨_, more, hmore, rfl, rfl, Token.length_literal 0 bytes body⟩
  · obtain ⟨bytes, body, hencodes, htoken⟩ := exists_encodes_of_mem h htoken hkind
    rw [htoken] at hkind
    obtain ⟨hdata, hty⟩ := TokenKind.string.inj hkind
    exact ⟨bytes, body, congrArg Token.text htoken, hencodes, hdata.symm, hty.symm⟩
  · have hwhole := tokenize_unclosed name h hafter
    refine ⟨?_, fun tokens htokens => ?_, fun failure hfailure => ?_⟩
    · cases hbefore : tokenize ⟨name, before⟩ with
      | error failure => exact ⟨_, compile_of_tokenize_eq_error (by rw [hwhole, hbefore]; rfl)⟩
      | ok tokens => exact ⟨_, compile_of_tokenize_eq_error (by rw [hwhole, hbefore]; rfl)⟩
    · rw [hwhole, htokens]
      rfl
    · rw [hwhole, hfailure]
      rfl

/-- A literal with every kind of escape, one whose octal number is greater than a byte, and a quote
that is not closed, after a comment with a quote. -/
theorem literals_decode_escapes :
    (∃ token more,
      tokenize ⟨"a.c", "\"" ++ "a\\n\\\"\\101\\0é" ++ "\"" ++ ";"⟩ = .ok (token :: more)
      ∧ token.kind = .string (some [97, 10, 34, 65, 0, 195, 169, 0]) (some (.array .char 8))
      ∧ token.loc = 0 ∧ token.length = 15)
    ∧ (∃ bytes body, "\"\\777\"" = "\"" ++ body ++ "\"" ∧ Encodes 511 bytes body.toUTF8.data.toList
      ∧ some [255, 0] = some (bytes ++ [0])
      ∧ some (.array .char 2) = some (Ty.array .char (bytes.length + 1)))
    ∧ tokenize ⟨"a.c", "/*\"*/ " ++ "\"" ++ "a\\\"\n\""⟩
      = .error (.complaint 6 .unclosedString) := by
  have hbody : "a\\n\\\"\\101\\0é".toUTF8.data.toList
      = [97, 92, 110, 92, 34, 92, 49, 48, 49, 92, 48, 195, 169] := by decide
  -- One byte of each kind: plain, named, escaped, three octal digits and one.
  have hencodes : Encodes 255 [97, 10, 34, 65, 0, 195, 169]
      "a\\n\\\"\\101\\0é".toUTF8.data.toList := by
    rw [hbody]
    refine .plain (by decide) (.named (by decide) (.escaped (by decide) (by decide) ?_))
    refine .octal (List.all_iff_forall_prop.1 (by decide)) (by decide) (by decide) ?_
    refine @Encodes.shortOctal _ _ [48] _ _ (List.all_iff_forall_prop.1 (by decide)) (by decide)
      (by decide) (by rintro _ ⟨⟩; rfl) ?_
    exact .plain (by decide) (.plain (by decide) .nil)
  -- A quote in a comment opens no literal.
  have hbefore : Outside "/*\"*/ ".toList :=
    @Outside.blockComment ['"'] _ (by decide) (.plain (by decide) (by decide) .nil)
  -- The escaped quote does not close it, and then the line ends.
  have hafter : Unclosed "a\\\"\n\"".toList :=
    ⟨['a', '\\', '"'], ['\n', '"'], rfl, .plain (by decide) (.escaped .nil), .inr (.inr rfl)⟩
  obtain ⟨hclosed, hmem, hunclosed⟩ := literals_decode
  exact ⟨hclosed "a.c" _ _ ";" _ hencodes rfl,
    hmem ⟨"a.c", "\"\\777\""⟩ _ rfl _ List.mem_cons_self _ _ rfl,
    (hunclosed "a.c" _ _ hbefore hafter).2.1 _ rfl⟩

end Source

end PocketCompiler
