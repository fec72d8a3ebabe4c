import Mathlib.Data.List.Forall2
import PocketCompiler.Token.Lexer
import PocketCompiler.Proofs.Ends

/-!
# Words with blanks between them

A text that is put together from words, with a blank between any two of them, is cut into these
words again (`Source.tokenize_spelled`).  The places of the tokens are of no interest here, only
what they are and how they are spelled.
-/

namespace PocketCompiler

/-- A word of the language. -/
inductive Lexeme where
  | punctuator (text : String)
  | keyword (text : String)
  | identifier (name : String)
  | number (value : Int64)
deriving DecidableEq, Repr

/-- Whether a text is one punctuator. -/
def isPunctuator (text : String) : Bool :=
  match text.toList with
  | [c] => punctuators.contains c
  | [c, d] => isPair c d
  | _ => false

/-- Whether a text is made of the characters of a word. -/
def isWord (text : String) : Bool :=
  match text.toList with
  | [] => false
  | c :: cs => isWordStart c && cs.all isWordPart

/-- Whether a text can be the name of something. -/
def isIdentifier (name : String) : Bool := isWord name && !keywords.contains name

namespace Lexeme

/-- How a word is written. -/
def text : Lexeme → String
  | .punctuator text | .keyword text | .identifier text => text
  | .number value => value.toInt.toNat.repr

/-- What the lexer makes of a word. -/
def kind : Lexeme → TokenKind
  | .punctuator _ => .punctuator
  | .keyword _ => .keyword
  | .identifier _ => .identifier
  | .number value => .number (some value)

/-- A word that the lexer knows. -/
def IsKnown : Lexeme → Prop
  | .punctuator text => isPunctuator text = true
  | .keyword text => text ∈ keywords
  | .identifier name => isIdentifier name = true
  | .number value => 0 ≤ value.toInt

instance : (word : Lexeme) → Decidable word.IsKnown
  | .punctuator text => inferInstanceAs (Decidable (isPunctuator text = true))
  | .keyword text => inferInstanceAs (Decidable (text ∈ keywords))
  | .identifier name => inferInstanceAs (Decidable (isIdentifier name = true))
  | .number value => inferInstanceAs (Decidable (0 ≤ value.toInt))

/-- A token is what the lexer makes of the word, wherever it stands. -/
structure Spells (word : Lexeme) (token : Token) : Prop where
  kind : token.kind = word.kind
  text : token.text = word.text

end Lexeme

/-! ### One word -/

/-- What is left begins with a blank, if there is anything left. -/
def Apart (rest : List Char) : Prop := ∀ c ∈ rest.head?, c = ' '

theorem Apart.takeWhile {rest : List Char} (h : Apart rest) {p : Char → Bool} (hp : p ' ' = false) :
    rest.takeWhile p = [] := by
  cases rest with
  | nil => rfl
  | cons c rest => rw [h c rfl, List.takeWhile_cons_of_neg (by simp [hp])]

/-- Characters of one class end where a blank comes. -/
theorem Apart.runLength {rest : List Char} (h : Apart rest) {p : Char → Bool} (hp : p ' ' = false)
    {cs : List Char} (hcs : ∀ c ∈ cs, p c = true) : runLength p (cs ++ rest) = cs.length := by
  rw [PocketCompiler.runLength, List.takeWhile_append_of_pos hcs, h.takeWhile hp, List.append_nil]

theorem isDigit_of_isDigit {c : Char} (h : c.isDigit = true) : isDigit c = true := by
  simp only [Char.isDigit, Bool.and_eq_true, decide_eq_true_eq] at h
  simp only [isDigit, Bool.and_eq_true, decide_eq_true_eq]
  exact h

/-- The digits of a number stand for it. -/
theorem decimal_toDigits (n : Nat) : decimal (Nat.toDigits 10 n) = n := by
  have h := Nat.ofDigitChars_toDigits (b := 10) (n := n) (by decide) (by decide)
  rw [Nat.ofDigitChars] at h
  simpa only [decimal, digitValue, Nat.mul_comm] using h

theorem numberKind_toDigits {value : Int64} (h : 0 ≤ value.toInt) :
    numberKind (Nat.toDigits 10 value.toInt.toNat) = .ok (.number (some value)) := by
  have hvalue : (value.toInt.toNat : Int) = value.toInt := Int.toNat_of_nonneg h
  have hfits : (value.toInt.toNat : Int) ≤ Word.greatest := by
    rw [hvalue, Word.greatest]
    exact Int64.toInt_le value
  simp only [numberKind, decimal_toDigits, if_pos hfits]
  rw [← Int64.ofInt_eq_ofNat, hvalue, Int64.ofInt_toInt]

/-- A character of a class is none of those outside the class. -/
theorem beq_eq_false_of_class {p : Char → Bool} {c d : Char} (hc : p c = true) (hd : p d = false) :
    (c == d) = false := by
  refine beq_eq_false_iff_ne.2 fun hcd => ?_
  rw [hcd, hd] at hc
  exact Bool.false_ne_true hc

theorem scan_of_isDigit {c : Char} (h : isDigit c = true) (cs : List Char) :
    scan c cs = do
      let kind ← numberKind (c :: cs.take (runLength isDigit cs))
      return (.lexeme kind, runLength isDigit cs) := by
  have hblank : isBlank c = false := by
    simp only [isBlank, beq_eq_false_of_class h (show isDigit ' ' = false by decide),
      beq_eq_false_of_class h (show isDigit '\t' = false by decide),
      beq_eq_false_of_class h (show isDigit '\n' = false by decide),
      beq_eq_false_of_class h (show isDigit '\x0c' = false by decide),
      beq_eq_false_of_class h (show isDigit '\r' = false by decide), Bool.or_false]
  have hslash : (c == '/') = false := beq_eq_false_of_class h (by decide)
  simp only [scan, hblank, hslash, Bool.false_and, Bool.false_eq_true, if_false, h, if_true]

theorem isDigit_of_isWordStart {c : Char} (h : isWordStart c = true) : isDigit c = false := by
  have hnine : ('9' : Char).val.toNat = 57 := rfl
  simp only [isWordStart, isDigit, Bool.or_eq_true, Bool.and_eq_true, decide_eq_true_eq,
    Bool.and_eq_false_iff, decide_eq_false_iff_not, Char.le_def, UInt32.le_iff_toNat_le,
    beq_iff_eq] at h ⊢
  right
  rcases h with (⟨h, -⟩ | ⟨h, -⟩) | rfl
  · have ha : ('a' : Char).val.toNat = 97 := rfl
    omega
  · have ha : ('A' : Char).val.toNat = 65 := rfl
    omega
  · decide

theorem scan_of_isWordStart {c : Char} (h : isWordStart c = true) (cs : List Char) :
    scan c cs = .ok (.lexeme (wordKind (c :: cs.take (runLength isWordPart cs))),
      runLength isWordPart cs) := by
  have hblank : isBlank c = false := by
    simp only [isBlank, beq_eq_false_of_class h (show isWordStart ' ' = false by decide),
      beq_eq_false_of_class h (show isWordStart '\t' = false by decide),
      beq_eq_false_of_class h (show isWordStart '\n' = false by decide),
      beq_eq_false_of_class h (show isWordStart '\x0c' = false by decide),
      beq_eq_false_of_class h (show isWordStart '\r' = false by decide), Bool.or_false]
  have hslash : (c == '/') = false := beq_eq_false_of_class h (by decide)
  have hquote : (c == '"') = false := beq_eq_false_of_class h (by decide)
  simp only [scan, hblank, hslash, hquote, isDigit_of_isWordStart h, Bool.false_and,
    Bool.false_eq_true, if_false, h, if_true]

/-- A single character is a punctuator, unless what follows makes it something longer. -/
theorem scan_single {c : Char} {rest : List Char} (hc : c ∈ punctuators)
    (hslash : c = '/' → rest.head? ≠ some '/' ∧ rest.head? ≠ some '*')
    (hpair : rest.head?.any (isPair c) = false) : scan c rest = .ok (.lexeme .punctuator, 0) := by
  have hcomment : ∀ d ∈ ['/', '*'], (c == '/' && rest.head? == some d) = false := by
    intro d hd
    by_cases hcs : c = '/'
    · have hne : rest.head? ≠ some d := by
        simp only [List.mem_cons, List.not_mem_nil, or_false] at hd
        rcases hd with rfl | rfl
        · exact (hslash hcs).1
        · exact (hslash hcs).2
      rw [beq_eq_false_iff_ne.2 hne, Bool.and_false]
    · rw [beq_eq_false_iff_ne.2 hcs, Bool.false_and]
  have hall : punctuators.all
      (fun c => !(isBlank c || isDigit c || c == '"' || isWordStart c)) = true := by decide
  have hclass := List.all_eq_true.1 hall c hc
  simp only [Bool.not_eq_true', Bool.or_eq_false_iff] at hclass
  obtain ⟨⟨⟨hblank, hdigit⟩, hquote⟩, hword⟩ := hclass
  simp only [scan, hblank, hdigit, hquote, hword, hpair, hcomment '/' (by decide),
    hcomment '*' (by decide), Bool.false_eq_true, if_false, hc, if_true]

theorem Apart.scan_single {rest : List Char} (h : Apart rest) {c : Char} (hc : c ∈ punctuators) :
    scan c rest = .ok (.lexeme .punctuator, 0) := by
  refine PocketCompiler.scan_single hc (fun _ => ⟨fun hrest => ?_, fun hrest => ?_⟩) ?_
  · exact absurd (h _ hrest) (by decide)
  · exact absurd (h _ hrest) (by decide)
  · cases hrest : rest.head? with
    | none => rfl
    | some d =>
      rw [h d hrest]
      rfl

theorem scan_pair {c d : Char} (h : isPair c d = true) (rest : List Char) :
    scan c (d :: rest) = .ok (.lexeme .punctuator, 1) := by
  simp only [isPair, Bool.and_eq_true, Bool.or_eq_true, beq_iff_eq] at h
  obtain ⟨rfl, ((rfl | rfl) | rfl) | rfl⟩ := h <;> rfl

/-- **The lexer finds a word that it knows, if a blank comes behind it.** -/
theorem Lexeme.IsKnown.exists_scan {word : Lexeme} (h : word.IsKnown) :
    ∃ c cs, word.text.toList = c :: cs
      ∧ ∀ rest, Apart rest → scan c (cs ++ rest) = .ok (.lexeme word.kind, cs.length) := by
  -- Keywords and identifiers are found in the same way, and told apart afterwards.
  have hword : ∀ {text : String} {kind : TokenKind}, isWord text = true →
      wordKind text.toList = kind → ∃ c cs, text.toList = c :: cs
        ∧ ∀ rest, Apart rest → scan c (cs ++ rest) = .ok (.lexeme kind, cs.length) := by
    intro text kind htext hkind
    unfold isWord at htext
    split at htext
    · exact nomatch htext
    · next c cs hchars =>
      obtain ⟨hc, hcs⟩ := Bool.and_eq_true_iff.1 htext
      refine ⟨c, cs, hchars, fun rest hrest => ?_⟩
      have hlength := hrest.runLength (p := isWordPart) rfl (List.all_eq_true.1 hcs)
      rw [scan_of_isWordStart hc, hlength, List.take_left, ← hchars, hkind]
  cases word with
  -- A punctuator of one character is not taken for a part of a longer one, as a blank is behind it.
  | punctuator text =>
    change isPunctuator text = true at h
    unfold isPunctuator at h
    split at h
    · next c hchars =>
      exact ⟨c, [], hchars, fun rest hrest => hrest.scan_single (List.contains_iff_mem.1 h)⟩
    · next c d hchars => exact ⟨c, [d], hchars, fun rest _ => scan_pair h rest⟩
    · exact nomatch h
  | keyword text =>
    have hkeywords : ∀ text ∈ keywords, isWord text = true := by decide
    have hmem : text ∈ keywords := h
    refine hword (hkeywords text hmem) ?_
    change wordKind text.toList = .keyword
    rw [wordKind, String.ofList_toList, if_pos hmem]
  | identifier name =>
    obtain ⟨hname, hkeyword⟩ := Bool.and_eq_true_iff.1 h
    have hnot : name ∉ keywords := by simpa using hkeyword
    refine hword hname ?_
    change wordKind name.toList = .identifier
    rw [wordKind, String.ofList_toList, if_neg hnot]
  -- The digits of a number are read back as its value.
  | number value =>
    have hchars : (Lexeme.number value).text.toList = Nat.toDigits 10 value.toInt.toNat :=
      Nat.toList_repr
    have hdigits : ∀ c ∈ Nat.toDigits 10 value.toInt.toNat, isDigit c = true := fun c hc =>
      isDigit_of_isDigit (Nat.isDigit_of_mem_toDigits (by decide) (by decide) hc)
    have hkind := numberKind_toDigits h
    rw [hchars]
    cases hlist : Nat.toDigits 10 value.toInt.toNat with
    | nil => exact absurd hlist Nat.toDigits_ne_nil
    | cons c cs =>
      rw [hlist] at hdigits hkind
      refine ⟨c, cs, rfl, fun rest hrest => ?_⟩
      have hlength := hrest.runLength (p := isDigit) rfl fun d hd =>
        hdigits d (List.mem_cons_of_mem _ hd)
      rw [scan_of_isDigit (hdigits c List.mem_cons_self), hlength, List.take_left, hkind]
      rfl

/-! ### Many words -/

/-- A piece is cut off where it ends. -/
theorem piecesFrom_append {c : Char} {cs rest : List Char} {kind : PieceKind}
    (h : scan c (cs ++ rest) = .ok (kind, cs.length)) (loc : Nat) :
    piecesFrom 0 loc (c :: cs ++ rest) = do
      let more ← piecesFrom 0 (loc + c.utf8Size + byteLength cs) rest
      return ⟨kind, loc, c :: cs⟩ :: more := by
  rw [List.cons_append, piecesFrom, h]
  dsimp only
  rw [piecesFrom_eq_drop, List.take_left, List.drop_left]

theorem Lexeme.IsKnown.piecesFrom {word : Lexeme} (h : word.IsKnown) {rest : List Char}
    (hrest : Apart rest) (loc : Nat) :
    ∃ behind, PocketCompiler.piecesFrom 0 loc (word.text.toList ++ rest) = do
      let more ← PocketCompiler.piecesFrom 0 behind rest
      return ⟨.lexeme word.kind, loc, word.text.toList⟩ :: more := by
  obtain ⟨c, cs, hchars, hscan⟩ := h.exists_scan
  rw [hchars]
  exact ⟨_, piecesFrom_append (hscan rest hrest) loc⟩

/-- The text of some words. -/
def spelled (words : List Lexeme) : String := " ".intercalate (words.map Lexeme.text)

theorem toList_spelled_cons_cons (word next : Lexeme) (words : List Lexeme) :
    (spelled (word :: next :: words)).toList
      = word.text.toList ++ ' ' :: (spelled (next :: words)).toList := by
  simp only [spelled, String.toList_intercalate, List.map_cons, List.intercalate_cons_cons]
  simp

/-- Words with blanks between them are cut apart. -/
theorem exists_piecesFrom_spelled {words : List Lexeme} (h : ∀ word ∈ words, word.IsKnown)
    (loc : Nat) :
    ∃ pieces, piecesFrom 0 loc (spelled words).toList = .ok pieces
      ∧ List.Forall₂ Lexeme.Spells words (pieces.filterMap Piece.token?) := by
  induction words generalizing loc with
  | nil => exact ⟨[], by simp [spelled, piecesFrom], .nil⟩
  | cons word words ih =>
    have hword := h word List.mem_cons_self
    have hspells : word.Spells ⟨word.kind, loc, String.ofList word.text.toList⟩ :=
      ⟨rfl, String.ofList_toList⟩
    cases words with
    | nil =>
      have hapart : Apart [] := fun c hc => absurd hc (Option.not_mem_none c)
      obtain ⟨behind, hpieces⟩ := hword.piecesFrom hapart loc
      rw [List.append_nil] at hpieces
      have htext : spelled [word] = word.text := by simp [spelled]
      rw [htext, hpieces]
      exact ⟨_, rfl, .cons hspells .nil⟩
    | cons next words =>
      rw [toList_spelled_cons_cons]
      have hapart : Apart (' ' :: (spelled (next :: words)).toList) := fun c hc =>
        (Option.some.inj hc).symm
      obtain ⟨behind, hpieces⟩ := hword.piecesFrom hapart loc
      -- The blank ends the word, and is a piece that leaves no token.
      have hscan : scan ' ' ([] ++ (spelled (next :: words)).toList) = .ok (.blank, 0) := rfl
      have hblank := piecesFrom_append hscan behind
      rw [List.cons_append, List.nil_append] at hblank
      rw [hpieces, hblank]
      obtain ⟨more, hmore, hall⟩ := ih (fun w hw => h w (List.mem_cons_of_mem _ hw)) _
      rw [hmore]
      exact ⟨_, rfl, .cons hspells hall⟩

/-- **A text that is put together from words is cut into these words again.** -/
theorem Source.tokenize_spelled {source : Source} {words : List Lexeme}
    (hwords : ∀ word ∈ words, word.IsKnown) (htext : source.text = spelled words) :
    ∃ tokens, source.tokenize = .ok (tokens ++ [Token.atEnd source])
      ∧ List.Forall₂ Lexeme.Spells words tokens := by
  obtain ⟨pieces, hpieces, hall⟩ := exists_piecesFrom_spelled hwords 0
  refine ⟨pieces.filterMap Piece.token?, ?_, hall⟩
  rw [Source.tokenize, Source.pieces, htext, hpieces]
  rfl

end PocketCompiler
