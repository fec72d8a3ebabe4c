import PocketCompiler.Proofs.Token.Lexer
import PocketCompiler.Proofs.Token.Spelling

/-!
# The lexical grammar

What the pieces of a text may look like (`Shape.Fits`), and what may follow them
(`Shape.EndsBefore`), said without a scanner.  A `Decomposition` cuts a text into such pieces.  The
lexer succeeds exactly on the texts that have one, it is unique but for how blanks are divided, and
the tokens are its lexemes (`Source.tokenize_iff_decomposition`).
-/

namespace PocketCompiler

/-! ### Shapes -/

/-- What a piece of a text is. -/
inductive Shape where
  | blank
  | comment
  | number
  | word
  | literal
  | punctuator
deriving DecidableEq, Repr

/-- The punctuators. -/
def punctuatorTexts : List String :=
  ["==", "!=", "<=", ">=", "+", "-", "*", "/", "(", ")", "<", ">", ";", "=", "\x7b", "\x7d", "&",
    ",", "[", "]"]

/-- What may stand between the quotes of a literal: every quote and newline is escaped. -/
inductive LiteralBody : List Char → Prop
  | nil : LiteralBody []
  | plain {c : Char} {cs : List Char} (hc : c ∉ ['"', '\\', '\n']) (h : LiteralBody cs) :
    LiteralBody (c :: cs)
  | escaped {c : Char} {cs : List Char} (h : LiteralBody cs) : LiteralBody ('\\' :: c :: cs)

/-- A comment that a newline ends. -/
def IsLineComment (cs : List Char) : Prop := ∃ body, cs = '/' :: '/' :: body ∧ '\n' ∉ body

/-- A comment that the first `*/` behind its opening ends. -/
def IsBlockComment (cs : List Char) : Prop :=
  ∃ body, cs = '/' :: '*' :: (body ++ ['*', '/']) ∧ ¬ ['*', '/'] <:+: body ++ ['*']

namespace Shape

/-- The piece looks like one of the shape. -/
def Fits : Shape → List Char → Prop
  | .blank, cs => cs ≠ [] ∧ ∀ c ∈ cs, isBlank c = true
  | .comment, cs => IsLineComment cs ∨ IsBlockComment cs
  | .number, cs => cs ≠ [] ∧ (∀ c ∈ cs, isDigit c = true) ∧ (decimal cs : Int) ≤ Word.greatest
  | .word, cs => ∃ c rest, cs = c :: rest ∧ isWordStart c = true ∧ ∀ d ∈ rest, isWordPart d = true
  | .literal, cs => ∃ body, cs = '"' :: (body ++ ['"']) ∧ LiteralBody body
  | .punctuator, cs => String.ofList cs ∈ punctuatorTexts

/-- What follows the piece does not make it longer. -/
def EndsBefore : Shape → (piece rest : List Char) → Prop
  | .blank, _, _ => True
  | .comment, piece, rest => IsLineComment piece → ∀ c ∈ rest.head?, c = '\n'
  | .number, _, rest => ∀ c ∈ rest.head?, isDigit c = false
  | .word, _, rest => ∀ c ∈ rest.head?, isWordPart c = false
  | .literal, _, _ => True
  | .punctuator, piece, rest => (piece ∈ [['='], ['<'], ['>']] → rest.head? ≠ some '=')
      ∧ (piece = ['/'] → rest.head? ≠ some '/' ∧ rest.head? ≠ some '*')

/-- What the lexer makes of a piece. -/
def kind : Shape → List Char → PieceKind
  | .blank, _ => .blank
  | .comment, _ => .comment
  | .number, cs => .lexeme (.number (some (Int64.ofNat (decimal cs))))
  | .word, cs => .lexeme (wordKind cs)
  | .literal, cs => .lexeme (literalKind cs.tail.dropLast)
  | .punctuator, _ => .lexeme .punctuator

end Shape

/-! ### Scanning a piece -/

variable {c : Char} {cs piece rest body : List Char}

/-- Characters of one class end where one of another class comes. -/
theorem runLength_append {p : Char → Bool} (hpiece : ∀ c ∈ piece, p c = true)
    (hrest : ∀ c ∈ rest.head?, p c = false) : runLength p (piece ++ rest) = piece.length := by
  rw [runLength, List.takeWhile_append_of_pos hpiece]
  cases rest with
  | nil => simp
  | cons c rest =>
    rw [List.takeWhile_cons_of_neg (by rw [hrest c rfl]; exact Bool.false_ne_true), List.append_nil]

/-- A character of another class makes no run longer. -/
theorem runLength_append_cons {p : Char → Bool} {d : Char} (hd : p d = false)
    (cs rest : List Char) : runLength p (cs ++ d :: rest) = runLength p cs := by
  have hnot : ¬ p d = true := by
    rw [hd]
    exact Bool.false_ne_true
  unfold runLength
  rw [List.takeWhile_append, List.takeWhile_cons_of_neg hnot, List.append_nil]
  split
  · next hall => rw [hall]
  · rfl

/-- A run is no longer than the text. -/
theorem runLength_le (p : Char → Bool) (cs : List Char) : runLength p cs ≤ cs.length :=
  (List.takeWhile_prefix p).length_le

/-- A run is as long as its characters go on. -/
theorem take_runLength (p : Char → Bool) (cs : List Char) :
    cs.take (runLength p cs) = cs.takeWhile p :=
  (List.prefix_iff_eq_take.1 (List.takeWhile_prefix p)).symm

/-- Behind a run is the first character that does not go on. -/
theorem drop_runLength (p : Char → Bool) (cs : List Char) :
    cs.drop (runLength p cs) = cs.dropWhile p := by
  have hsplit := List.take_append_drop (runLength p cs) cs
  rw [take_runLength] at hsplit
  exact List.append_cancel_left (hsplit.trans List.takeWhile_append_dropWhile.symm)

/-- A run of characters is followed by one of another class. -/
theorem head?_drop_runLength (p : Char → Bool) (cs : List Char) :
    ∀ c ∈ (cs.drop (runLength p cs)).head?, p c = false := by
  intro c hc
  have hnot := List.head?_dropWhile_not p cs
  rw [drop_runLength] at hc
  rw [Option.mem_def.1 hc] at hnot
  exact hnot

/-- Every character of a run goes on. -/
theorem mem_take_runLength {p : Char → Bool} (h : c ∈ cs.take (runLength p cs)) : p c = true := by
  rw [take_runLength] at h
  exact List.all_eq_true.1 List.all_takeWhile c h

/-- A block comment ends at the first `*/`. -/
theorem commentEnd?_append (h : ¬ ['*', '/'] <:+: body ++ ['*']) (rest : List Char) :
    commentEnd? (body ++ '*' :: '/' :: rest) = some (body.length + 2) := by
  induction body with
  | nil => rfl
  | cons c body ih =>
    rw [List.cons_append, List.infix_cons_iff, not_or] at h
    have hfirst : ∀ cs, c = '*' → body ++ '*' :: '/' :: rest = '/' :: cs → False := by
      rintro cs rfl hslash
      refine h.1 ?_
      cases body with
      | nil => exact nomatch hslash
      | cons d body =>
        obtain ⟨rfl, -⟩ := List.cons.inj hslash
        exact ⟨_, rfl⟩
    rw [List.cons_append, commentEnd?.eq_3 _ _ hfirst, ih h.2]
    rfl

/-- The end that is found is the first `*/`: none is in what stands in front of it. -/
theorem exists_of_commentEnd? {length : Nat} (h : commentEnd? cs = some length) :
    ∃ body rest, cs = body ++ '*' :: '/' :: rest ∧ length = body.length + 2
      ∧ ¬ ['*', '/'] <:+: body ++ ['*'] := by
  fun_induction commentEnd? cs generalizing length with
  | case1 => exact nomatch h
  | case2 cs =>
    obtain rfl := Option.some.inj h
    exact ⟨[], cs, rfl, rfl, by decide⟩
  | case3 c cs hfirst ih =>
    obtain ⟨inner, hinner, rfl⟩ := Option.map_eq_some_iff.1 h
    obtain ⟨body, rest, rfl, rfl, hbody⟩ := ih hinner
    refine ⟨c :: body, rest, rfl, rfl, ?_⟩
    rw [List.cons_append, List.infix_cons_iff, not_or]
    refine ⟨fun hprefix => ?_, hbody⟩
    obtain ⟨tail, htail⟩ := hprefix
    obtain ⟨rfl, hslash⟩ := List.cons.inj htail
    cases body with
    | nil => exact nomatch hslash
    | cons d body =>
      obtain ⟨rfl, -⟩ := List.cons.inj hslash
      exact hfirst _ rfl rfl

/-- A character that means nothing special is part of the body. -/
theorem literalBody?_plain (hc : c ∉ ['"', '\\', '\n']) (cs : List Char) :
    literalBody? (c :: cs) = (literalBody? cs).map (c :: ·) := by
  simp only [List.mem_cons, List.not_mem_nil, or_false, not_or] at hc
  exact literalBody?.eq_6 _ _ hc.1 hc.2.2 (fun h => absurd h hc.2.1) fun _ _ h => absurd h hc.2.1

/-- A literal ends at the first quote that no backslash escapes. -/
theorem LiteralBody.literalBody? (h : LiteralBody body) (rest : List Char) :
    PocketCompiler.literalBody? (body ++ '"' :: rest) = some body := by
  induction h with
  | nil => rfl
  | @plain c cs hc _ ih =>
    rw [List.cons_append, literalBody?_plain hc, ih]
    rfl
  | @escaped c cs _ ih =>
    rw [List.cons_append, List.cons_append, literalBody?.eq_5, ih]
    rfl

/-- What is found between quotes has every quote and newline escaped. -/
theorem literalBody_of_literalBody? (h : literalBody? cs = some body) : LiteralBody body := by
  fun_induction PocketCompiler.literalBody? cs generalizing body with
  | case1 => cases h
  | case2 cs =>
    obtain rfl := Option.some.inj h
    exact .nil
  | case3 => cases h
  | case4 => cases h
  | case5 c cs ih =>
    obtain ⟨inner, hinner, rfl⟩ := Option.map_eq_some_iff.1 h
    exact .escaped (ih hinner)
  | case6 c cs h1 h2 h3 h4 ih =>
    obtain ⟨inner, hinner, rfl⟩ := Option.map_eq_some_iff.1 h
    refine .plain (fun hc => ?_) (ih hinner)
    simp only [List.mem_cons, List.not_mem_nil, or_false] at hc
    rcases hc with rfl | rfl | rfl
    · exact h1 rfl
    · cases cs with
      | nil => exact h3 rfl rfl
      | cons d cs => exact h4 d cs rfl rfl
    · exact h2 rfl

/-! ### What a scan finds -/

namespace Shape

/-- A piece of the shape stands in front of what follows. -/
structure Found (shape : Shape) (piece rest : List Char) : Prop where
  fits : shape.Fits piece
  ends : shape.EndsBefore piece rest

/-- A line comment is scanned up to its newline. -/
theorem scan_lineComment (h : IsLineComment (c :: cs)) (hends : ∀ d ∈ rest.head?, d = '\n') :
    scan c (cs ++ rest) = .ok (comment.kind (c :: cs), cs.length) := by
  obtain ⟨body, heq, hline⟩ := h
  obtain ⟨rfl, rfl⟩ := List.cons.inj heq
  have hnewline : ∀ d ∈ rest.head?, inLine d = false := by
    intro d hd
    rw [hends d hd]
    rfl
  have hlength : runLength inLine ('/' :: body ++ rest) = ('/' :: body).length := by
    refine runLength_append (fun d hd => ?_) hnewline
    rcases List.mem_cons.1 hd with rfl | hd
    · rfl
    · simpa [inLine] using fun hnewline : d = '\n' => hline (hnewline ▸ hd)
  rw [PocketCompiler.scan, if_neg (by decide), if_pos (by simp), hlength]
  rfl

/-- A block comment is scanned up to its end, whatever follows. -/
theorem scan_blockComment (h : IsBlockComment (c :: cs)) (rest : List Char) :
    scan c (cs ++ rest) = .ok (comment.kind (c :: cs), cs.length) := by
  obtain ⟨body, heq, hblock⟩ := h
  obtain ⟨rfl, rfl⟩ := List.cons.inj heq
  have hend : commentEnd? ('*' :: (body ++ ['*', '/']) ++ rest).tail = some (body.length + 2) := by
    have happend := commentEnd?_append hblock rest
    simpa using happend
  rw [PocketCompiler.scan, if_neg (by decide), if_neg (by simp), if_pos (by simp), hend]
  simp [kind]

/-- A punctuator is found unless a `=` makes it longer or a slash or star a comment. -/
theorem scan_punctuator (h : punctuator.Found (c :: cs) rest) :
    scan c (cs ++ rest) = .ok (punctuator.kind (c :: cs), cs.length) := by
  obtain ⟨hfits, hends⟩ := h
  have hall : ∀ text ∈ punctuatorTexts, isPunctuator text = true := by decide
  have hpunctuator := hall _ hfits
  unfold isPunctuator at hpunctuator
  rw [String.toList_ofList] at hpunctuator
  split at hpunctuator
  · next d heq =>
    obtain ⟨rfl, rfl⟩ := List.cons.inj heq
    have hc := List.contains_iff_mem.1 hpunctuator
    refine scan_single hc (fun hslash => hends.2 (by rw [hslash])) ?_
    rw [List.nil_append]
    cases hrest : rest.head? with
    | none => rfl
    | some d =>
      -- Another character would make it one of the four pairs.
      refine Bool.eq_false_iff.2 fun hpair => ?_
      simp only [Option.any_some, isPair, Bool.and_eq_true, Bool.or_eq_true, beq_iff_eq] at hpair
      obtain ⟨rfl, ((rfl | rfl) | rfl) | rfl⟩ := hpair
      · exact hends.1 (by decide) hrest
      · exact absurd hc (by decide)
      · exact hends.1 (by decide) hrest
      · exact hends.1 (by decide) hrest
  · next d e heq =>
    obtain ⟨rfl, rfl⟩ := List.cons.inj heq
    exact scan_pair hpunctuator rest
  · cases hpunctuator

/-- **The scanner finds every piece that what follows does not make longer**, but of blanks it finds
one at a time. -/
theorem Found.scan {shape : Shape} (h : shape.Found (c :: cs) rest)
    (hblank : shape = .blank → cs = []) :
    scan c (cs ++ rest) = .ok (shape.kind (c :: cs), cs.length) := by
  cases shape with
  | blank =>
    obtain rfl := hblank rfl
    have hc : isBlank c = true := h.fits.2 c List.mem_cons_self
    rw [PocketCompiler.scan, if_pos hc]
    rfl
  | comment =>
    rcases h.fits with hline | hblock
    · exact scan_lineComment hline (h.ends hline)
    · exact scan_blockComment hblock rest
  -- The run of digits ends where the piece does, since no digit follows.
  | number =>
    obtain ⟨-, hdigits, hvalue⟩ := h.fits
    have hlength : runLength isDigit (cs ++ rest) = cs.length :=
      runLength_append (fun d hd => hdigits d (List.mem_cons_of_mem _ hd)) h.ends
    rw [scan_of_isDigit (hdigits c List.mem_cons_self), hlength, List.take_left]
    simp only [numberKind, if_pos hvalue]
    rfl
  | word =>
    obtain ⟨c', rest', heq, hc, hpart⟩ := h.fits
    obtain ⟨rfl, rfl⟩ := List.cons.inj heq
    rw [scan_of_isWordStart hc, runLength_append hpart h.ends, List.take_left]
    rfl
  -- The first quote that is not escaped is the one that closes the literal.
  | literal =>
    obtain ⟨body, heq, hbody⟩ := h.fits
    obtain ⟨rfl, rfl⟩ := List.cons.inj heq
    have hfound : literalBody? (body ++ ['"'] ++ rest) = some body := by
      rw [List.append_assoc]
      exact hbody.literalBody? rest
    rw [PocketCompiler.scan, if_neg (by decide), if_neg (by simp), if_neg (by simp),
      if_neg (by decide), if_pos (by decide), hfound]
    simp [kind]
  | punctuator => exact scan_punctuator h

/-- Two slashes open a comment that the newline ends. -/
theorem found_lineComment (hhead : cs.head? = some '/') :
    comment.Found ('/' :: cs.take (runLength inLine cs)) (cs.drop (runLength inLine cs)) := by
  obtain ⟨cs, rfl⟩ := List.head?_eq_some_iff.1 hhead
  have hline : IsLineComment ('/' :: ('/' :: cs).take (runLength inLine ('/' :: cs))) := by
    refine ⟨cs.takeWhile inLine, ?_, fun hnewline => ?_⟩
    · rw [take_runLength, List.takeWhile_cons_of_pos (by decide)]
    · exact absurd (List.all_eq_true.1 List.all_takeWhile _ hnewline) (by decide)
  refine ⟨.inl hline, fun _ d hd => ?_⟩
  have hnot := head?_drop_runLength inLine _ d hd
  simpa [inLine] using hnot

/-- A slash and a star open a comment that the first `*/` ends. -/
theorem found_blockComment {length : Nat} (hhead : cs.head? = some '*')
    (hend : commentEnd? cs.tail = some length) :
    comment.Found ('/' :: cs.take (length + 1)) (cs.drop (length + 1)) := by
  obtain ⟨cs, rfl⟩ := List.head?_eq_some_iff.1 hhead
  obtain ⟨body, rest, hcs, rfl, hbody⟩ := exists_of_commentEnd? hend
  obtain rfl : cs = body ++ '*' :: '/' :: rest := hcs
  have htake : ('*' :: (body ++ '*' :: '/' :: rest)).take (body.length + 2 + 1)
      = '*' :: (body ++ ['*', '/']) := by
    rw [List.take_succ_cons, List.take_append, List.take_of_length_le (Nat.le_add_right _ _),
      Nat.add_sub_cancel_left]
    rfl
  rw [htake]
  refine ⟨.inr ⟨body, rfl, hbody⟩, fun hline => ?_⟩
  obtain ⟨_, heq, -⟩ := hline
  exact nomatch heq

/-- A digit starts a number of all digits that follow. -/
theorem found_number {kind : TokenKind} (hc : isDigit c = true)
    (hkind : numberKind (c :: cs.take (runLength isDigit cs)) = .ok kind) :
    number.Found (c :: cs.take (runLength isDigit cs)) (cs.drop (runLength isDigit cs))
      ∧ .lexeme kind = number.kind (c :: cs.take (runLength isDigit cs)) := by
  simp only [numberKind] at hkind
  split at hkind
  · next hvalue =>
    obtain rfl := Except.ok.inj hkind
    refine ⟨⟨⟨List.cons_ne_nil _ _, fun d hd => ?_, hvalue⟩, head?_drop_runLength _ _⟩, rfl⟩
    rcases List.mem_cons.1 hd with rfl | hd
    · exact hc
    · exact mem_take_runLength hd
  · cases hkind

/-- A quote starts a literal up to the next quote that is not escaped. -/
theorem found_literal (hbody : literalBody? cs = some body) :
    literal.Found ('"' :: cs.take (body.length + 1)) (cs.drop (body.length + 1))
      ∧ .lexeme (literalKind body) = literal.kind ('"' :: cs.take (body.length + 1)) := by
  have hgood := literalBody_of_literalBody? hbody
  obtain ⟨rest, rfl⟩ := exists_of_literalBody? hbody
  have htake : (body ++ '"' :: rest).take (body.length + 1) = body ++ ['"'] := by
    rw [List.take_append, List.take_of_length_le (Nat.le_succ _), Nat.add_sub_cancel_left]
    rfl
  rw [htake]
  exact ⟨⟨⟨body, rfl, hgood⟩, trivial⟩, by simp [kind]⟩

/-- A letter starts a word of all letters and digits that follow. -/
theorem found_word (hc : isWordStart c = true) :
    word.Found (c :: cs.take (runLength isWordPart cs)) (cs.drop (runLength isWordPart cs)) :=
  ⟨⟨c, _, rfl, hc, fun _ hd => mem_take_runLength hd⟩, head?_drop_runLength _ _⟩

/-- Two characters that make a pair are one punctuator. -/
theorem found_pair {d : Char} (hpair : isPair c d = true) : punctuator.Found [c, d] rest := by
  have hmem : String.ofList [c, d] ∈ punctuatorTexts := by
    simp only [isPair, Bool.and_eq_true, Bool.or_eq_true, beq_iff_eq] at hpair
    obtain ⟨rfl, ((rfl | rfl) | rfl) | rfl⟩ := hpair <;> decide
  exact ⟨hmem, fun hsingle => by simp at hsingle, fun hslash => by simp at hslash⟩

/-- A punctuator of one character stands where no pair and no comment starts. -/
theorem found_single (hc : c ∈ punctuators)
    (hslash : c = '/' → rest.head? ≠ some '/' ∧ rest.head? ≠ some '*')
    (hpair : ¬ rest.head?.any (isPair c) = true) : punctuator.Found [c] rest := by
  have hall : punctuators.all (String.ofList [·] ∈ punctuatorTexts) = true := by decide
  have htext : String.ofList [c] ∈ punctuatorTexts := by simpa using List.all_eq_true.1 hall c hc
  refine ⟨htext, fun hmem hequals => hpair ?_, fun heq => hslash (List.cons.inj heq).1⟩
  rw [hequals]
  simp only [List.mem_cons, List.cons.injEq, and_true, List.not_mem_nil, or_false] at hmem
  rcases hmem with rfl | rfl | rfl <;> rfl

/-- **What the scanner finds is a piece that what follows does not make longer.** -/
theorem exists_found_of_scan {found : PieceKind} {length : Nat}
    (h : scan c cs = .ok (found, length)) :
    ∃ shape : Shape, shape.Found (c :: cs.take length) (cs.drop length)
      ∧ found = shape.kind (c :: cs.take length) := by
  -- One case for each kind of piece, in the order in which the scanner tries them.
  unfold PocketCompiler.scan at h
  split at h
  · next hblank =>
    obtain ⟨rfl, rfl⟩ := Prod.mk.inj (Except.ok.inj h)
    refine ⟨.blank, ⟨⟨List.cons_ne_nil _ _, fun d hd => ?_⟩, trivial⟩, rfl⟩
    rw [List.take_zero] at hd
    rw [List.mem_singleton.1 hd]
    exact hblank
  split at h
  · next hline =>
    obtain ⟨rfl, rfl⟩ := Prod.mk.inj (Except.ok.inj h)
    simp only [Bool.and_eq_true, beq_iff_eq] at hline
    obtain ⟨rfl, hhead⟩ := hline
    exact ⟨.comment, found_lineComment hhead, rfl⟩
  split at h
  · next hblock =>
    simp only [Bool.and_eq_true, beq_iff_eq] at hblock
    obtain ⟨rfl, hhead⟩ := hblock
    split at h
    · next length hend =>
      obtain ⟨rfl, rfl⟩ := Prod.mk.inj (Except.ok.inj h)
      exact ⟨.comment, found_blockComment hhead hend, rfl⟩
    · exact nomatch h
  split at h
  -- A number out of range has no kind, so a scan that succeeds has found one in range.
  · next hdigit =>
    obtain ⟨kind, hkind, hpair⟩ := bind_eq_ok_iff.1 h
    obtain ⟨rfl, rfl⟩ := Prod.mk.inj (Except.ok.inj hpair)
    exact ⟨.number, found_number hdigit hkind⟩
  split at h
  · next hquote =>
    obtain rfl := eq_of_beq hquote
    split at h
    · next body hbody =>
      obtain ⟨rfl, rfl⟩ := Prod.mk.inj (Except.ok.inj h)
      exact ⟨.literal, found_literal hbody⟩
    · exact nomatch h
  split at h
  · next hword =>
    obtain ⟨rfl, rfl⟩ := Prod.mk.inj (Except.ok.inj h)
    exact ⟨.word, found_word hword, rfl⟩
  split at h
  · next hpair =>
    obtain ⟨rfl, rfl⟩ := Prod.mk.inj (Except.ok.inj h)
    obtain ⟨d, hhead, hpair⟩ := (Option.any_eq_true _ _).1 hpair
    obtain ⟨cs, rfl⟩ := List.head?_eq_some_iff.1 hhead
    exact ⟨.punctuator, found_pair hpair, rfl⟩
  split at h
  -- A slash is a punctuator, since the comments have been tried before.
  · next hline hblock _ _ _ hpair hmem =>
    obtain ⟨rfl, rfl⟩ := Prod.mk.inj (Except.ok.inj h)
    simp only [Bool.and_eq_true, beq_iff_eq, not_and] at hline hblock
    exact ⟨.punctuator, found_single hmem (fun hslash => ⟨hline hslash, hblock hslash⟩) hpair, rfl⟩
  · exact nomatch h

/-- What the lexer makes of a piece says which shape it has. -/
theorem kind_injective {shape shape' : Shape} (h : shape.kind cs = shape'.kind cs) :
    shape = shape' := by
  have hword : wordKind cs = .keyword ∨ wordKind cs = .identifier := by
    unfold wordKind
    split
    · exact .inl rfl
    · exact .inr rfl
  cases shape <;> cases shape' <;> grind [kind, literalKind]

end Shape

/-- A piece is no longer than the text that it is found in. -/
theorem length_le_of_scan {kind : PieceKind} {length : Nat} (h : scan c cs = .ok (kind, length)) :
    length ≤ cs.length := by
  obtain ⟨shape, hfound, -⟩ := Shape.exists_found_of_scan h
  have hblank : shape = .blank → cs.take length = [] := by
    rintro rfl
    have hc : isBlank c = true := hfound.fits.2 c List.mem_cons_self
    rw [scan, if_pos hc] at h
    obtain ⟨-, rfl⟩ := Prod.mk.inj (Except.ok.inj h)
    rfl
  -- The scanner finds the piece again, and counts the characters that it really has.
  have hagain := hfound.scan hblank
  rw [List.take_append_drop, h] at hagain
  have hlength : length = (cs.take length).length := (Prod.mk.inj (Except.ok.inj hagain)).2
  rw [List.length_take] at hlength
  omega

/-! ### Decompositions -/

/-- A piece of a text and its shape. -/
structure Chunk where
  shape : Shape
  text : List Char
deriving DecidableEq, Repr

/-- The text is cut into the pieces, each of which looks like one of its shape and is not made
longer by what follows. -/
inductive Decomposition : List Char → List Chunk → Prop
  | nil : Decomposition [] []
  | cons {shape : Shape} {piece rest : List Char} {chunks : List Chunk}
      (hpiece : shape.Found piece rest) (hrest : Decomposition rest chunks) :
    Decomposition (piece ++ rest) (⟨shape, piece⟩ :: chunks)

/-- The pieces that the lexer finds if it is at the byte `loc`. -/
def placed : (loc : Nat) → List Chunk → List Piece
  | _, [] => []
  | loc, chunk :: chunks => ⟨chunk.shape.kind chunk.text, loc, chunk.text⟩
      :: placed (loc + byteLength chunk.text) chunks

/-- Blanks are divided into single ones. -/
def divided (chunks : List Chunk) : List Chunk :=
  chunks.flatMap fun chunk =>
    if chunk.shape = .blank then chunk.text.map fun c => ⟨.blank, [c]⟩ else [chunk]

namespace Shape

/-- No shape fits nothing. -/
theorem Fits.ne_nil {shape : Shape} (h : shape.Fits piece) : piece ≠ [] := by
  cases shape with
  | blank | number => exact h.1
  | comment =>
    rcases h with ⟨body, rfl, -⟩ | ⟨body, rfl, -⟩ <;> exact List.cons_ne_nil _ _
  | word =>
    obtain ⟨c, rest, rfl, -⟩ := h
    exact List.cons_ne_nil _ _
  | literal =>
    obtain ⟨body, rfl, -⟩ := h
    exact List.cons_ne_nil _ _
  | punctuator =>
    rintro rfl
    have habsent : String.ofList [] ∉ punctuatorTexts := by decide
    exact habsent h

end Shape

namespace Decomposition

variable {text : List Char} {chunks chunks' : List Chunk}

/-- Blanks may be divided. -/
theorem divided (h : Decomposition text chunks) :
    Decomposition text (PocketCompiler.divided chunks) := by
  induction h with
  | nil => exact .nil
  | @cons shape piece rest chunks hpiece _ ih =>
    rw [PocketCompiler.divided, List.flatMap_cons]
    by_cases hblank : shape = .blank
    · subst hblank
      rw [if_pos rfl]
      have hall : ∀ c ∈ piece, isBlank c = true := hpiece.fits.2
      clear hpiece
      induction piece with
      | nil => exact ih
      | cons c piece ihpiece =>
        have hc : ∀ d ∈ [c], isBlank d = true :=
          List.forall_mem_singleton.2 (hall c List.mem_cons_self)
        have hfirst : Shape.blank.Found [c] (piece ++ rest) :=
          ⟨⟨List.cons_ne_nil _ _, hc⟩, trivial⟩
        exact .cons hfirst (ihpiece fun d hd => hall d (List.mem_cons_of_mem _ hd))
    · rw [if_neg hblank]
      exact .cons hpiece ih

/-- **The lexer finds the pieces of a decomposition**, if its blanks are single. -/
theorem piecesFrom (h : Decomposition text chunks)
    (hsingle : ∀ chunk ∈ chunks, chunk.shape = .blank → chunk.text.length = 1) (loc : Nat) :
    PocketCompiler.piecesFrom 0 loc text = .ok (placed loc chunks) := by
  induction h generalizing loc with
  | nil => rfl
  | @cons shape piece rest chunks hpiece _ ih =>
    obtain ⟨hfirst, hmore⟩ := List.forall_mem_cons.1 hsingle
    obtain ⟨c, cs, rfl⟩ := List.exists_cons_of_ne_nil hpiece.fits.ne_nil
    have hscan := hpiece.scan fun hblank => by simpa using hfirst hblank
    rw [piecesFrom_append hscan, Nat.add_assoc, ih hmore]
    rfl

/-- The lexer finds a decomposition. -/
theorem exists_of_piecesFrom : ∀ (size : Nat) {loc : Nat} {text : List Char},
    text.length ≤ size → ∀ {pieces : List Piece},
      PocketCompiler.piecesFrom 0 loc text = .ok pieces → ∃ chunks, Decomposition text chunks := by
  intro size
  -- On a bound for the text, since a piece takes any number of characters.
  induction size with
  | zero =>
    intro loc text hsize pieces _
    obtain rfl := List.eq_nil_of_length_eq_zero (Nat.le_zero.1 hsize)
    exact ⟨[], .nil⟩
  | succ size ih =>
    intro loc text hsize pieces h
    cases text with
    | nil => exact ⟨[], .nil⟩
    | cons c cs =>
      rw [PocketCompiler.piecesFrom] at h
      split at h
      · cases h
      · next found length hscan =>
        obtain ⟨more, hmore, -⟩ := bind_eq_ok_iff.1 h
        rw [piecesFrom_eq_drop] at hmore
        obtain ⟨shape, hfound, -⟩ := Shape.exists_found_of_scan hscan
        have hlength : (cs.drop length).length ≤ size := by
          rw [List.length_cons] at hsize
          rw [List.length_drop]
          omega
        obtain ⟨chunks, hchunks⟩ := ih hlength hmore
        refine ⟨⟨shape, c :: cs.take length⟩ :: chunks, ?_⟩
        have hcons := Decomposition.cons hfound hchunks
        rwa [List.cons_append, List.take_append_drop] at hcons

/-- Every divided blank is a single character. -/
theorem length_of_mem_divided {chunk : Chunk} (h : chunk ∈ PocketCompiler.divided chunks)
    (hblank : chunk.shape = .blank) : chunk.text.length = 1 := by
  obtain ⟨whole, -, hchunk⟩ := List.mem_flatMap.1 h
  split at hchunk
  · obtain ⟨c, -, rfl⟩ := List.mem_map.1 hchunk
    rfl
  · next hother =>
    rw [List.mem_singleton.1 hchunk] at hblank
    exact absurd hblank hother

/-- **The lexer finds the only decomposition**, with its blanks divided. -/
theorem piecesFrom_divided (h : Decomposition text chunks) (loc : Nat) :
    PocketCompiler.piecesFrom 0 loc text = .ok (placed loc (PocketCompiler.divided chunks)) :=
  h.divided.piecesFrom (fun _ => length_of_mem_divided) loc

/-- The pieces tell how the text was cut. -/
theorem placed_injective {loc : Nat} (h : placed loc chunks = placed loc chunks') :
    chunks = chunks' := by
  induction chunks generalizing loc chunks' with
  | nil =>
    cases chunks' with
    | nil => rfl
    | cons chunk chunks' => exact nomatch h
  | cons chunk chunks ih =>
    cases chunks' with
    | nil => exact nomatch h
    | cons chunk' chunks' =>
      obtain ⟨shape, piece⟩ := chunk
      obtain ⟨shape', piece'⟩ := chunk'
      obtain ⟨hfirst, hmore⟩ := List.cons.inj h
      obtain ⟨hkind, -, rfl⟩ := Piece.mk.inj hfirst
      obtain rfl : shape = shape' := Shape.kind_injective hkind
      rw [ih hmore]

/-- **A text has one decomposition at most**, but for how its blanks are divided. -/
theorem unique (h : Decomposition text chunks) (h' : Decomposition text chunks') :
    PocketCompiler.divided chunks = PocketCompiler.divided chunks' :=
  placed_injective (Except.ok.inj ((h.piecesFrom_divided 0).symm.trans (h'.piecesFrom_divided 0)))

end Decomposition

/-- The lexemes among the pieces of a text, as tokens at their places. -/
def lexemes (loc : Nat) (chunks : List Chunk) : List Token :=
  (placed loc chunks).filterMap Piece.token?

theorem lexemes_cons (loc : Nat) (chunk : Chunk) (chunks : List Chunk) :
    lexemes loc (chunk :: chunks)
      = (Piece.token? ⟨chunk.shape.kind chunk.text, loc, chunk.text⟩).toList
        ++ lexemes (loc + byteLength chunk.text) chunks := by
  rw [lexemes, placed, List.filterMap_cons]
  split
  · next hnone => rw [hnone]; rfl
  · next token htoken => rw [htoken]; rfl

/-- How blanks are divided makes no difference to the lexemes. -/
theorem lexemes_divided (loc : Nat) (chunks : List Chunk) :
    lexemes loc (divided chunks) = lexemes loc chunks := by
  induction chunks generalizing loc with
  | nil => rfl
  | cons chunk chunks ih =>
    rw [divided, List.flatMap_cons, lexemes_cons]
    by_cases hblank : chunk.shape = .blank
    · obtain ⟨shape, piece⟩ := chunk
      obtain rfl : shape = .blank := hblank
      rw [if_pos rfl]
      show lexemes loc (piece.map _ ++ divided chunks) = lexemes (loc + byteLength piece) chunks
      rw [← ih]
      induction piece generalizing loc with
      | nil => rfl
      | cons c piece ihpiece =>
        rw [List.map_cons, List.cons_append, lexemes_cons, ihpiece, byteLength, byteLength,
          byteLength, Nat.add_zero, Nat.add_assoc]
        rfl
    · rw [if_neg hblank, List.singleton_append, lexemes_cons]
      exact congrArg _ (ih _)

/-- The ends of a stretch that is there are boundaries. -/
theorem Source.isBoundary_of_slice? {source : Source} {start length : Nat} {middle : List Char}
    (h : slice? start length source.text.toList = some middle) :
    source.IsBoundary start ∧ source.IsBoundary (start + length) := by
  unfold slice? at h
  simp only at h
  split at h
  · next hbytes =>
    have hfirst := cutAt_append start source.text.toList
    have hsecond := cutAt_append length (cutAt start source.text.toList).2
    refine ⟨⟨_, _, hfirst, hbytes.1⟩,
      (cutAt start source.text.toList).1 ++ (cutAt length (cutAt start source.text.toList).2).1,
      (cutAt length (cutAt start source.text.toList).2).2, ?_, ?_⟩
    · rw [List.append_assoc, hsecond, hfirst]
    · rw [byteLength_append, hbytes.1, hbytes.2]
  · exact nomatch h

/-- **The lexer accepts exactly the lexical grammar**: it succeeds on the texts that have a
decomposition, there is only one, but for how blanks are divided, and the tokens are its lexemes at
their places, all of them boundaries, and the end of the source. -/
theorem Source.tokenize_iff_decomposition (source : Source) :
    ((∃ tokens, source.tokenize = .ok tokens) ↔ ∃ chunks, Decomposition source.text.toList chunks)
    ∧ (∀ chunks chunks', Decomposition source.text.toList chunks →
        Decomposition source.text.toList chunks' → divided chunks = divided chunks')
    ∧ (∀ tokens chunks, source.tokenize = .ok tokens → Decomposition source.text.toList chunks →
        tokens = lexemes 0 chunks ++ [⟨.eof, source.byteSize, ""⟩])
    ∧ ∀ tokens, source.tokenize = .ok tokens → ∀ token ∈ tokens,
        source.IsBoundary token.loc ∧ source.IsBoundary (token.loc + token.length) := by
  have htokens : ∀ {chunks}, Decomposition source.text.toList chunks →
      source.tokenize = .ok (lexemes 0 chunks ++ [⟨.eof, source.byteSize, ""⟩]) := by
    intro chunks h
    rw [tokenize, pieces, h.piecesFrom_divided 0, ← lexemes_divided]
    rfl
  refine ⟨⟨?_, ?_⟩, fun _ _ h h' => h.unique h', fun tokens chunks h hchunks => ?_,
    fun tokens h token htoken => ?_⟩
  · rintro ⟨tokens, h⟩
    obtain ⟨pieces, hpieces, -⟩ := bind_eq_ok_iff.1 h
    exact Decomposition.exists_of_piecesFrom _ (Nat.le_refl _) hpieces
  · rintro ⟨chunks, h⟩
    exact ⟨_, htokens h⟩
  · exact Except.ok.inj (h.symm.trans (htokens hchunks))
  · exact isBoundary_of_slice? (((ends_tokenize source).of_eq_ok h token htoken).slice)

/-- The tokens of a text with a decomposition are its lexemes, and then the end. -/
theorem Decomposition.tokenize {source : Source} {chunks : List Chunk}
    (h : Decomposition source.text.toList chunks) :
    source.tokenize = .ok (lexemes 0 chunks ++ [Token.atEnd source]) := by
  rw [Source.tokenize, Source.pieces, h.piecesFrom_divided 0, ← lexemes_divided]
  rfl

/-- A text with tokens has a decomposition, and the tokens are its lexemes. -/
theorem Source.exists_decomposition_of_tokenize {source : Source} {tokens : List Token}
    (h : source.tokenize = .ok tokens) :
    ∃ chunks, Decomposition source.text.toList chunks
      ∧ tokens = lexemes 0 chunks ++ [Token.atEnd source] := by
  obtain ⟨pieces, hpieces, -⟩ := bind_eq_ok_iff.1 h
  obtain ⟨chunks, hchunks⟩ := Decomposition.exists_of_piecesFrom _ (Nat.le_refl _) hpieces
  exact ⟨chunks, hchunks, Except.ok.inj (h.symm.trans hchunks.tokenize)⟩

/-! ### Shapes of tokens -/

/-- The token is a lexeme of the shape. -/
structure Token.HasShape (token : Token) (shape : Shape) : Prop where
  fits : shape.Fits token.text.toList
  kind : .lexeme token.kind = shape.kind token.text.toList

/-- The tokens of a source are lexemes, and then its end. -/
theorem Source.exists_lexemes_of_tokenize {source : Source} {tokens : List Token}
    (h : source.tokenize = .ok tokens) :
    ∃ front, tokens = front ++ [Token.atEnd source]
      ∧ ∀ token ∈ front, ∃ shape, token.HasShape shape := by
  obtain ⟨pieces, hpieces, htokens⟩ := bind_eq_ok_iff.1 h
  obtain rfl := Except.ok.inj htokens
  refine ⟨_, rfl, fun token htoken => ?_⟩
  obtain ⟨piece, hpiece, htoken⟩ := List.mem_filterMap.1 htoken
  have hfound := (ends_piecesFrom _ 0 source.text.toList (Nat.le_refl _) .start).of_eq_ok hpieces
  obtain ⟨c, cs, length, hfound⟩ := hfound piece hpiece
  obtain ⟨shape, hshape, hkind⟩ := Shape.exists_found_of_scan hfound.scan
  unfold Piece.token? at htoken
  split at htoken
  · next kind hpieceKind =>
    obtain rfl := Option.some.inj htoken
    refine ⟨shape, ?_, ?_⟩
    · rw [String.toList_ofList, hfound.text]
      exact hshape.fits
    · rw [String.toList_ofList, hfound.text, ← hpieceKind]
      exact hkind
  · exact nomatch htoken

end PocketCompiler
