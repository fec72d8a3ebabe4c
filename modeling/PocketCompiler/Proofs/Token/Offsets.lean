import PocketCompiler.Proofs.Reports
import PocketCompiler.Proofs.Token.LiteralEncoding

/-!
# The lexer by byte offsets

`Source.tokenize` walks over the characters of a source.  `Source.tokenizeByOffsets?` computes its
tokens as a program does that has the bytes of the source and an offset into them: it looks at
single bytes, moves the offset on by numbers of bytes, and slices the text between offsets, at first
for what it looks for and in the end for the text of every token.  A slice that would cut a
character, an index behind the bytes and a loop that does not end are no result (`none`).

At every offset that the lexer comes to, whole characters are left (`Source.LeftAt`).  Behind a
backslash it steps on by single bytes, so there a character may be left in part; but none of the
bytes of such a character means anything in a literal (`literalFrom?_append`).

`Source.tokenizeByOffsets?_eq`: the computation never fails, and gives the tokens or the complaint
of `Source.tokenize`.
-/

namespace PocketCompiler

/-! ### The computation -/

/-- The bytes of a source. -/
def Source.bytes (source : Source) : List UInt8 := source.text.toUTF8.data.toList

/-- A byte as a character.  One that is no character on its own belongs to none of the classes. -/
def asChar (b : UInt8) : Char := Char.ofNat b.toNat

/-- The text from byte `i` on. -/
def Source.suffix? (source : Source) (i : Nat) : Option (List Char) :=
  slice? i (source.byteSize - i) source.text.toList

/-- The bytes from byte `i` on. -/
def bytesFrom? (bytes : List UInt8) (i : Nat) : Option (List UInt8) :=
  if i ≤ bytes.length then some (bytes.drop i) else none

/-- Where the bytes of a class end, from byte `i` on. -/
def runEnd (p : Char → Bool) (bytes : List UInt8) (i : Nat) : Nat :=
  i + ((bytes.drop i).takeWhile fun b => p (asChar b)).length

/-- The byte at which the first `*/` of a text stands. -/
def commentClose? : List Char → Option Nat
  | [] => none
  | '*' :: '/' :: _ => some 0
  | c :: cs => (commentClose? cs).map (c.utf8Size + ·)

/-- The byte that an escape stands for, and the number of bytes that it takes from those behind the
backslash. -/
def escapeOf : List UInt8 → UInt8 × Nat
  | [] => (0, 0)
  | b :: bs =>
    if isOctalByte b then
      let digits := ((b :: bs).take 3).takeWhile isOctalByte
      (UInt8.ofNat (octalValue digits), digits.length)
    else ((namedBytes.lookup b).getD b, 1)

/-- What a literal stands for whose body goes on at byte `i`, and the byte behind its closing quote,
if there is one.  At most `bound` bytes and escapes are read. -/
def literalFrom? (bytes : List UInt8) :
    (bound i : Nat) → Option (Option (List UInt8 × Nat))
  | 0, _ => none
  | bound + 1, i =>
    match bytes[i]? with
    | none => some none
    | some b =>
      if b = '\n'.toUInt8 then some none
      else if b = '"'.toUInt8 then some (some ([], i + 1))
      else if b = '\\'.toUInt8 then do
        let (byte, width) := escapeOf (← bytesFrom? bytes (i + 1))
        if width = 0 then
          return none
        let found ← literalFrom? bytes bound (i + 1 + width)
        return found.map (Prod.map (byte :: ·) id)
      else do
        let found ← literalFrom? bytes bound (i + 1)
        return found.map (Prod.map (b :: ·) id)

/-- The punctuators of two characters. -/
def pairTexts : List (List Char) := [['=', '='], ['!', '='], ['<', '='], ['>', '=']]

/-- What stands at byte `i`: the kind of the lexeme, if it is one, and the byte behind it.  Keywords
are not told from other words. -/
def Source.round? (source : Source) (i : Nat) :
    Option (Except Complaint (Option TokenKind × Nat)) := do
  let c := asChar (← source.bytes[i]?)
  if isBlank c then
    return .ok (none, i + 1)
  let rest ← source.suffix? i
  if ['/', '/'].isPrefixOf rest then
    return .ok (none, ((firstNewline? rest).map (i + ·)).getD source.byteSize)
  if ['/', '*'].isPrefixOf rest then
    match commentClose? (← source.suffix? (i + 2)) with
    | none => return .error .unclosedComment
    | some offset => return .ok (none, i + offset + 4)
  if isDigit c then
    let stop := runEnd isDigit source.bytes (i + 1)
    let digits ← slice? i (stop - i) source.text.toList
    return (numberKind digits).map fun kind => (some kind, stop)
  if c == '"' then
    match ← literalFrom? source.bytes (source.byteSize + 1) (i + 1) with
    | none => return .error .unclosedString
    | some (bytes, stop) =>
      let bytes := bytes ++ [0]
      return .ok (some (.string (some bytes) (some (.array .char bytes.length))), stop)
  if isWordStart c then
    return .ok (some .identifier, runEnd isWordPart source.bytes (i + 1))
  if pairTexts.any (·.isPrefixOf rest) then
    return .ok (some .punctuator, i + 2)
  if c ∈ punctuators then
    return .ok (some .punctuator, i + 1)
  return .error (.strayCharacter (rest.head?.getD '\x00'))

/-- A lexeme as its kind, the byte at which it starts, and the number of its bytes. -/
structure Extent where
  kind : TokenKind
  loc : Nat
  length : Nat
deriving DecidableEq, Repr

/-- The lexemes from byte `i` on, in at most `bound` rounds. -/
def Source.extentsFrom? (source : Source) :
    (bound i : Nat) → Option (Except Failure (List Extent))
  | 0, _ => none
  | bound + 1, i =>
    if i < source.byteSize then do
      match ← source.round? i with
      | .error cause => return .error (.complaint i cause)
      | .ok (kind, stop) =>
        let found := kind.toList.map (Extent.mk · i (stop - i))
        let more ← source.extentsFrom? bound stop
        return more.map (found ++ ·)
    else return .ok []

/-- The kind of a lexeme with this text: of the words, some are keywords. -/
def TokenKind.withText (text : List Char) : TokenKind → TokenKind
  | .identifier => wordKind text
  | kind => kind

/-- The token of a lexeme, whose text is sliced out of the source. -/
def Source.tokenOf? (source : Source) (extent : Extent) : Option Token := do
  let text ← slice? extent.loc extent.length source.text.toList
  return ⟨extent.kind.withText text, extent.loc, String.ofList text⟩

/-- The tokens of a source by byte offsets.  There are none if a slice does not fall between
characters. -/
def Source.tokenizeByOffsets? (source : Source) : Option (Except Failure (List Token)) := do
  match ← source.extentsFrom? (source.byteSize + 1) 0 with
  | .error failure => return .error failure
  | .ok extents =>
    let tokens ← (extents ++ [Extent.mk .eof source.byteSize 0]).mapM source.tokenOf?
    return .ok tokens

/-! ### Bytes and characters -/

variable {source : Source} {i : Nat} {c : Char} {cs rest : List Char} {p : Char → Bool}

/-- The bytes of a source are those of its characters, one after the other. -/
theorem Source.bytes_eq (source : Source) : source.bytes = utf8 source.text.toList :=
  toList_toUTF8 source.text

/-- A text of characters of one byte has as many bytes as characters. -/
theorem byteLength_of_lt (h : ∀ c ∈ cs, c.toNat < 128) : byteLength cs = cs.length := by
  rw [← length_utf8, utf8_of_lt h, List.length_map]

/-- A character of one byte is read off its byte. -/
theorem asChar_toUInt8 (h : c.toNat < 128) : asChar c.toUInt8 = c := by
  rw [asChar, toNat_toUInt8_of_lt h, Char.ofNat_toNat]

/-- A byte that is no character on its own is none of those of one byte. -/
theorem le_asChar {b : UInt8} (h : 128 ≤ b.toNat) : 128 ≤ (asChar b).toNat := by
  have hlt := b.toNat_lt
  have hvalid : b.toNat.isValidChar := Or.inl (by omega)
  rwa [asChar, Char.ofNat, dif_pos hvalid]

/-- A class of characters that have one byte. -/
def IsPlain (p : Char → Bool) : Prop := ∀ c, p c = true → c.toNat < 128

/-- A byte of a character with several bytes is in no such class, and nor is the character. -/
theorem IsPlain.eq_false (hp : IsPlain p) (h : 128 ≤ c.toNat) : p c = false :=
  Bool.eq_false_iff.2 fun hc => Nat.not_lt.2 h (hp c hc)

/-- The first byte of a character is in the classes of the character. -/
theorem exists_lead (c : Char) : ∃ b bs, String.utf8EncodeChar c = b :: bs
    ∧ ∀ p, IsPlain p → p (asChar b) = p c := by
  by_cases hc : c.toNat < 128
  · exact ⟨_, [], utf8EncodeChar_of_lt hc, fun p _ => by rw [asChar_toUInt8 hc]⟩
  · obtain ⟨b, bs, hbytes, hb, -⟩ := exists_bytes_of_le (Nat.not_lt.1 hc)
    refine ⟨b, bs, hbytes, fun p hp => ?_⟩
    rw [hp.eq_false (le_asChar hb), hp.eq_false (Nat.not_lt.1 hc)]

/-- A run of bytes is as long as the run of characters. -/
theorem length_takeWhile_utf8 (hp : IsPlain p) (cs : List Char) :
    ((utf8 cs).takeWhile fun b => p (asChar b)).length = runLength p cs := by
  induction cs with
  | nil => rfl
  | cons c cs ih =>
    rw [utf8_cons, runLength]
    by_cases hc : p c = true
    · have hlt := hp c hc
      rw [utf8EncodeChar_of_lt hlt, List.singleton_append, List.takeWhile_cons_of_pos hc,
        List.takeWhile_cons_of_pos (by rwa [asChar_toUInt8 hlt]), List.length_cons,
        List.length_cons, ih]
      rfl
    · obtain ⟨b, bs, hbytes, hlead⟩ := exists_lead c
      rw [hbytes, List.cons_append, List.takeWhile_cons_of_neg hc,
        List.takeWhile_cons_of_neg (by rwa [hlead p hp]), List.length_nil, List.length_nil]

theorem isPlain_isBlank : IsPlain isBlank := by
  intro c hc
  simp only [isBlank, Bool.or_eq_true, beq_iff_eq] at hc
  rcases hc with (((rfl | rfl) | rfl) | rfl) | rfl <;> decide

theorem isPlain_isDigit : IsPlain isDigit := by
  intro c hc
  simp only [isDigit, Bool.and_eq_true, decide_eq_true_eq] at hc
  exact Nat.lt_of_le_of_lt hc.2 (by decide)

theorem isPlain_isWordStart : IsPlain isWordStart := by
  intro c hc
  simp only [isWordStart, Bool.or_eq_true, Bool.and_eq_true, decide_eq_true_eq, beq_iff_eq] at hc
  rcases hc with (⟨-, hc⟩ | ⟨-, hc⟩) | rfl
  · exact Nat.lt_of_le_of_lt hc (by decide)
  · exact Nat.lt_of_le_of_lt hc (by decide)
  · decide

theorem isPlain_isWordPart : IsPlain isWordPart := by
  intro c hc
  rw [isWordPart, Bool.or_eq_true] at hc
  exact hc.elim (isPlain_isWordStart c) (isPlain_isDigit c)

theorem isPlain_beq {d : Char} (hd : d.toNat < 128) : IsPlain (· == d) := by
  intro c hc
  rwa [eq_of_beq hc]

/-- Every punctuator has one byte. -/
theorem isPlain_punctuators : IsPlain fun c => decide (c ∈ punctuators) := by
  have hall : ∀ c ∈ punctuators, c.toNat < 128 := List.all_iff_forall_prop.1 (by decide)
  exact fun c hc => hall c (of_decide_eq_true hc)

/-! ### What is left at an offset -/

namespace Source.LeftAt

/-- Behind a character the offset is greater by its bytes. -/
theorem tail (h : source.LeftAt i (c :: cs)) : source.LeftAt (i + c.utf8Size) cs :=
  append (show source.LeftAt i ([c] ++ cs) from h)

/-- What is left ends where the source does. -/
theorem byteSize_eq (h : source.LeftAt i rest) : source.byteSize = i + byteLength rest := by
  obtain ⟨before, htext, rfl⟩ := h
  rw [Source.byteSize, ← byteLength_toList, ← htext, byteLength_append]

/-- Where something is left, the slice falls between characters. -/
theorem suffix? (h : source.LeftAt i rest) : source.suffix? i = some rest := by
  have hwhole : source.LeftAt i (rest ++ []) := by rwa [List.append_nil]
  rw [Source.suffix?, h.byteSize_eq, Nat.add_sub_cancel_left]
  exact hwhole.slice?

/-- The bytes that are left are those of the text that is left. -/
theorem drop_bytes (h : source.LeftAt i rest) : source.bytes.drop i = utf8 rest := by
  obtain ⟨before, htext, rfl⟩ := h
  rw [Source.bytes_eq, ← htext, utf8_append, ← length_utf8, List.drop_left]

/-- The bytes of a class end where the characters of the class do. -/
theorem runEnd (h : source.LeftAt i rest) (hp : IsPlain p) :
    runEnd p source.bytes i = i + byteLength (rest.take (runLength p rest)) := by
  have hlt : ∀ c ∈ rest.take (runLength p rest), c.toNat < 128 :=
    fun c hc => hp c (mem_take_runLength hc)
  rw [PocketCompiler.runEnd, h.drop_bytes, length_takeWhile_utf8 hp, byteLength_of_lt hlt,
    List.length_take_of_le (runLength_le p rest)]

end Source.LeftAt

/-- The offset of the end of a comment is the number of its bytes. -/
theorem commentClose?_eq (cs : List Char) :
    (commentClose? cs).map (· + 2)
      = (commentEnd? cs).map fun count => byteLength (cs.take count) := by
  fun_induction commentEnd? cs with
  | case1 => rfl
  | case2 cs => rfl
  | case3 c cs hopen ih =>
    rw [commentClose?.eq_3 c cs hopen, Option.map_map, Option.map_map]
    cases hclose : commentClose? cs <;> cases hend : commentEnd? cs <;>
      simp [hclose, hend, byteLength] at ih ⊢
    omega

/-! ### Literals -/

section

variable {bytes bs more : List UInt8} {b byte : UInt8} {bound width : Nat}

theorem getElem?_of_drop (h : bytes.drop i = b :: bs) : bytes[i]? = some b := by
  rw [← List.head?_drop, h, List.head?_cons]

/-- Dropping some bytes, and then more, is dropping all of them. -/
theorem drop_of_drop (bs : List UInt8) (h : bytes.drop i = bs ++ more) :
    bytes.drop (i + bs.length) = more := by
  rw [← List.drop_drop, h, List.drop_left]

/-- At the end of the source a literal is not closed. -/
theorem literalFrom?_nil (h : bytes.drop i = []) : literalFrom? bytes (bound + 1) i = some none := by
  have hnone : bytes[i]? = none := by rw [← List.head?_drop, h, List.head?_nil]
  rw [literalFrom?, hnone]

/-- At the end of a line a literal is not closed. -/
theorem literalFrom?_newline (h : bytes.drop i = '\n'.toUInt8 :: bs) :
    literalFrom? bytes (bound + 1) i = some none := by
  rw [literalFrom?, getElem?_of_drop h]
  rfl

/-- At a quote a literal is closed, and the byte behind the quote is the next one. -/
theorem literalFrom?_quote (h : bytes.drop i = '"'.toUInt8 :: bs) :
    literalFrom? bytes (bound + 1) i = some (some ([], i + 1)) := by
  rw [literalFrom?, getElem?_of_drop h]
  rfl

/-- Behind a byte that is there the slice does not fail. -/
theorem bytesFrom?_of_drop (h : bytes.drop i = b :: bs) : bytesFrom? bytes (i + 1) = some bs := by
  have hlength := congrArg List.length h
  rw [List.length_drop, List.length_cons] at hlength
  rw [bytesFrom?, if_pos (by omega)]
  exact congrArg some (drop_of_drop [b] h)

/-- A backslash with nothing behind it closes nothing. -/
theorem literalFrom?_backslash (h : bytes.drop i = ['\\'.toUInt8]) :
    literalFrom? bytes (bound + 1) i = some none := by
  rw [literalFrom?, getElem?_of_drop h]
  simp only [bytesFrom?_of_drop h]
  rfl

/-- An escape is read. -/
theorem literalFrom?_escape (h : bytes.drop i = '\\'.toUInt8 :: bs)
    (hescape : escapeOf bs = (byte, width)) (hwidth : width ≠ 0) :
    literalFrom? bytes (bound + 1) i = (literalFrom? bytes bound (i + 1 + width)).map
      (Option.map (Prod.map (byte :: ·) id)) := by
  rw [literalFrom?, getElem?_of_drop h]
  simp only [bytesFrom?_of_drop h, Option.bind_eq_bind, Option.bind_some, hescape, if_neg hwidth,
    if_true]
  rw [if_neg (by decide), if_neg (by decide), Option.map_eq_bind]
  rfl

/-- A byte that means nothing special stands for itself. -/
theorem literalFrom?_cons (h : bytes.drop i = b :: bs) (hb : b ∉ specialBytes) :
    literalFrom? bytes (bound + 1) i = (literalFrom? bytes bound (i + 1)).map
      (Option.map (Prod.map (b :: ·) id)) := by
  simp only [specialBytes, List.mem_cons, List.not_mem_nil, or_false, not_or] at hb
  rw [literalFrom?, getElem?_of_drop h]
  simp only [if_neg hb.1, if_neg hb.2.1, if_neg hb.2.2]
  rw [Option.map_eq_bind]
  rfl

/-- Bytes that mean nothing special stand for themselves. -/
theorem literalFrom?_append (h : bytes.drop i = bs ++ more) (hbs : ∀ b ∈ bs, b ∉ specialBytes) :
    literalFrom? bytes (bound + bs.length) i = (literalFrom? bytes bound (i + bs.length)).map
      (Option.map (Prod.map (bs ++ ·) id)) := by
  induction bs generalizing i with
  | nil =>
    have hid : Option.map (Prod.map (([] : List UInt8) ++ ·) (id : Nat → Nat)) = id := by
      funext found
      cases found <;> rfl
    rw [hid, Option.map_id]
    rfl
  | cons b bs ih =>
    obtain ⟨hb, hbs⟩ := List.forall_mem_cons.1 hbs
    have hrest : bytes.drop (i + 1) = bs ++ more := drop_of_drop [b] h
    have hstop : i + (bs.length + 1) = i + 1 + bs.length := by omega
    rw [List.length_cons, ← Nat.add_assoc, literalFrom?_cons h hb, ih hrest hbs, Option.map_map,
      hstop]
    congr 1
    funext found
    cases found <;> rfl

/-- Octal digits behind a backslash. -/
theorem escapeOf_octal {digits : List Char} (h : TakesDigits isOctal digits rest) :
    escapeOf (utf8 (digits ++ rest)) = (octalByte digits, digits.length) := by
  have hlt : ∀ c ∈ digits, c.toNat < 128 := fun c hc => lt_of_isOctal (h.isDigit c hc)
  have htakes := (takesDigits_utf8 hlt).2 h
  have hvalue : UInt8.ofNat (octalValue (digits.map Char.toUInt8)) = octalByte digits := by
    rw [← UInt8.toNat_inj, toNat_octalByte hlt, UInt8.toNat_ofNat']
  rw [utf8_append, utf8_of_lt hlt]
  obtain ⟨d, tail, hdigits⟩ := List.exists_cons_of_ne_nil htakes.ne_nil
  have hd : isOctalByte d = true := htakes.isDigit d (by rw [hdigits]; exact List.mem_cons_self)
  have htaken := htakes.takeWhile_take
  rw [hdigits] at htaken ⊢
  rw [List.cons_append, escapeOf, if_pos hd, ← List.cons_append, htaken, ← hdigits]
  simp only [hvalue, List.length_map]

/-- A byte that is no digit stands for the byte that it names or for itself. -/
theorem escapeOf_cons (hb : isOctalByte b = false) (bs : List UInt8) :
    escapeOf (b :: bs) = ((namedBytes.lookup b).getD b, 1) := by
  have hnot : ¬ isOctalByte b = true := by
    rw [hb]
    exact Bool.false_ne_true
  rw [escapeOf, if_neg hnot]

/-- A byte that no letter names stands for itself behind a backslash. -/
theorem escapeOf_cons_self (hb : isOctalByte b = false) (hnamed : b ∉ namedBytes.map (·.1))
    (bs : List UInt8) : escapeOf (b :: bs) = (b, 1) := by
  have hlookup : namedBytes.lookup b = none := by
    refine List.lookup_eq_none_iff.2 fun pair hpair => bne_iff_ne.2 ?_
    rintro rfl
    exact hnamed (List.mem_map_of_mem hpair)
  rw [escapeOf_cons hb, hlookup, Option.getD_none]

/-- Any other character behind a backslash: the escape takes its first byte, and its other bytes
mean nothing special. -/
theorem exists_escapeOf (hc : isOctal c = false) (cs : List Char) :
    ∃ lead byte bs, String.utf8EncodeChar c = lead :: bs ∧ escapedBytes c = byte :: bs
      ∧ (∀ b ∈ bs, b ∉ specialBytes) ∧ escapeOf (lead :: (bs ++ utf8 cs)) = (byte, 1) := by
  by_cases hlt : c.toNat < 128
  · have hoctal : isOctalByte c.toUInt8 = false := (isOctalByte_toUInt8 hlt).trans hc
    by_cases hnamed : c ∈ namedChars
    · have hall : ∀ c ∈ namedChars, ∃ byte ∈ namedBytes.map (·.2), escapedBytes c = [byte]
          ∧ namedBytes.lookup c.toUInt8 = some byte := List.all_iff_forall_prop.1 (by decide)
      obtain ⟨byte, -, hbyte, hlookup⟩ := hall c hnamed
      refine ⟨_, byte, [], utf8EncodeChar_of_lt hlt, hbyte,
        fun b hb => absurd hb List.not_mem_nil, ?_⟩
      rw [escapeOf_cons hoctal, hlookup, Option.getD_some]
    · rw [escapedBytes_of_not_mem hnamed, utf8EncodeChar_of_lt hlt]
      refine ⟨_, _, [], rfl, rfl, fun b hb => absurd hb List.not_mem_nil, ?_⟩
      exact escapeOf_cons_self hoctal (fun hmem => hnamed ((mem_namedChars_iff hlt).2 hmem)) _
  · -- The other bytes of the character are left, and the literal goes on with them.
    obtain ⟨lead, bs, hbytes, hlead, hbs⟩ := exists_bytes_of_le (Nat.not_lt.1 hlt)
    have hoctal : isOctalByte lead = false := by
      rw [Bool.eq_false_iff, ne_eq, isOctalByte_iff]
      omega
    have hnamed : lead ∉ namedBytes.map (·.1) := by
      have hall : ∀ b ∈ namedBytes.map (·.1), b.toNat < 128 :=
        List.all_iff_forall_prop.1 (by decide)
      exact fun hmem => absurd (hall lead hmem) (Nat.not_lt.2 hlead)
    rw [escapedBytes_of_not_mem fun hmem => hlt (lt_of_mem_namedChars hmem), hbytes]
    refine ⟨lead, lead, bs, rfl, rfl, fun b hb hspecial => ?_, escapeOf_cons_self hoctal hnamed _⟩
    exact absurd (lt_of_mem_specialBytes hspecial) (Nat.not_lt.2 (hbs b hb))

/-- Digits behind a backslash are part of the body. -/
theorem literalBody?_digits {digits : List Char} (hdigits : ∀ d ∈ digits, isOctal d = true)
    (hne : digits ≠ []) (rest : List Char) :
    literalBody? ('\\' :: (digits ++ rest))
      = (literalBody? rest).map fun body => '\\' :: (digits ++ body) := by
  have hspecial : ∀ c ∈ ['"', '\\', '\n'], isOctal c = false :=
    List.all_iff_forall_prop.1 (by decide)
  obtain ⟨d, digits, rfl⟩ := List.exists_cons_of_ne_nil hne
  have hmore : literalBody? (digits ++ rest) = (literalBody? rest).map (digits ++ ·) := by
    replace hdigits := (List.forall_mem_cons.1 hdigits).2
    clear hne
    induction digits with
    | nil => simp
    | cons c digits ih =>
      obtain ⟨hc, hdigits⟩ := List.forall_mem_cons.1 hdigits
      have hplain : c ∉ ['"', '\\', '\n'] := fun hmem => by
        rw [hspecial c hmem] at hc
        exact Bool.false_ne_true hc
      rw [List.cons_append, literalBody?_plain hplain, ih hdigits, Option.map_map]
      rfl
  rw [List.cons_append, literalBody?.eq_5, hmore, Option.map_map]
  rfl

/-- What escape digits take from a text, they take from the body of a literal in front of it. -/
theorem TakesDigits.of_literalBody? {digits body : List Char} (h : TakesDigits isOctal digits rest)
    (hbody : literalBody? rest = some body) : TakesDigits isOctal digits body := by
  obtain ⟨behind, rfl⟩ := exists_of_literalBody? hbody
  refine { h with ends := fun hlt d hd => h.ends hlt d ?_ }
  obtain ⟨body, rfl⟩ := List.head?_eq_some_iff.1 hd
  rfl

/-- From byte `i` on, where `cs` is left, a literal is read in `bound` rounds as it is character by
character. -/
def Source.ReadsLiteral (source : Source) (bound i : Nat) (cs : List Char) : Prop :=
  literalFrom? source.bytes bound i
    = some ((literalBody? cs).map fun body => (unescape body, i + byteLength body + 1))

namespace Source.ReadsLiteral

/-- A character that means nothing special takes a round for each of its bytes. -/
theorem plain (h : source.LeftAt i (c :: cs)) (hc : c ∉ ['"', '\\', '\n'])
    (hrest : source.ReadsLiteral bound (i + c.utf8Size) cs) :
    source.ReadsLiteral (bound + c.utf8Size) i (c :: cs) := by
  have hbytes := h.drop_bytes
  have hlength := String.length_utf8EncodeChar c
  have hslash : c ≠ '\\' := fun heq => hc (by rw [heq]; decide)
  rw [ReadsLiteral, ← hlength, literalFrom?_append hbytes (not_mem_specialBytes hc), hlength, hrest,
    literalBody?_plain hc, Option.map_some, Option.map_map, Option.map_map]
  refine congrArg some (Option.map_congr fun body _ => ?_)
  refine Prod.ext (unescape_plain hslash body).symm ?_
  simp only [Function.comp_apply, Prod.map, id, byteLength]
  omega

/-- Octal digits behind a backslash take one round with it. -/
theorem octal {digits : List Char} (h : source.LeftAt i ('\\' :: (digits ++ rest)))
    (hdigits : TakesDigits isOctal digits rest)
    (hrest : source.ReadsLiteral bound (i + 1 + digits.length) rest) :
    source.ReadsLiteral (bound + 1) i ('\\' :: (digits ++ rest)) := by
  have hpos := List.length_pos_of_ne_nil hdigits.ne_nil
  rw [ReadsLiteral, literalFrom?_escape h.drop_bytes (escapeOf_octal hdigits) (Nat.ne_of_gt hpos),
    hrest, literalBody?_digits hdigits.isDigit hdigits.ne_nil, Option.map_some, Option.map_map,
    Option.map_map]
  refine congrArg some (Option.map_congr fun body hbody => ?_)
  refine Prod.ext (unescape_octal (hdigits.of_literalBody? hbody)).symm ?_
  have hlt : ∀ c ∈ digits, c.toNat < 128 := fun c hc => lt_of_isOctal (hdigits.isDigit c hc)
  have hone : ('\\').utf8Size = 1 := by decide
  simp only [Function.comp_apply, Prod.map, id, byteLength, byteLength_append, byteLength_of_lt hlt]
  omega

/-- Any other character behind a backslash takes a round for each of its bytes, the first one with
the backslash. -/
theorem escaped (h : source.LeftAt i ('\\' :: c :: cs)) (hc : isOctal c = false)
    (hrest : source.ReadsLiteral bound (i + 1 + c.utf8Size) cs) :
    source.ReadsLiteral (bound + c.utf8Size) i ('\\' :: c :: cs) := by
  obtain ⟨lead, byte, bs, hchar, hdecoded, hbs, hescape⟩ := exists_escapeOf hc cs
  have hbytes := h.drop_bytes
  rw [utf8_cons, utf8_cons, hchar] at hbytes
  have hlength := String.length_utf8EncodeChar c
  rw [hchar, List.length_cons] at hlength
  have hmore : source.bytes.drop (i + 1 + 1) = bs ++ utf8 cs :=
    drop_of_drop ['\\'.toUInt8, lead] hbytes
  have hstop : i + 1 + 1 + bs.length = i + 1 + c.utf8Size := by omega
  rw [ReadsLiteral, ← hlength, ← Nat.add_assoc, literalFrom?_escape hbytes hescape Nat.one_ne_zero,
    literalFrom?_append hmore hbs, hstop, hrest, literalBody?.eq_5, Option.map_some,
    Option.map_some, Option.map_map, Option.map_map, Option.map_map]
  refine congrArg some (Option.map_congr fun body _ => ?_)
  have hunescape := unescape_escaped hc body
  rw [hdecoded] at hunescape
  refine Prod.ext hunescape.symm ?_
  have hone : ('\\').utf8Size = 1 := by decide
  simp only [Function.comp_apply, Prod.map, id, byteLength]
  omega

end Source.ReadsLiteral

/-- **A literal by offsets** is decoded and ends as it does character by character. -/
theorem Source.LeftAt.readsLiteral (h : source.LeftAt i cs) (hbound : byteLength cs < bound) :
    source.ReadsLiteral bound i cs := by
  -- The induction is on the rounds, of which a character takes as many as it has bytes.
  induction bound using Nat.strong_induction_on generalizing i cs with
  | _ bound ih =>
    have hbytes := h.drop_bytes
    obtain ⟨rounds, rfl⟩ := Nat.exists_eq_add_one.2 (Nat.zero_lt_of_lt hbound)
    rcases cs with _ | ⟨c, cs⟩
    · exact literalFrom?_nil hbytes
    have hsize := c.utf8Size_pos
    rw [byteLength] at hbound
    -- A quote closes the literal, a newline leaves it open, and a backslash starts an escape.
    by_cases hspecial : c ∈ ['"', '\\', '\n']
    · simp only [List.mem_cons, List.not_mem_nil, or_false] at hspecial
      rcases hspecial with rfl | rfl | rfl
      · exact literalFrom?_quote hbytes
      · rcases cs with _ | ⟨c, cs⟩
        · exact literalFrom?_backslash hbytes
        have hsize := c.utf8Size_pos
        rw [byteLength] at hbound
        by_cases hc : isOctal c = true
        · obtain ⟨digits, rest, heq, hdigits⟩ := exists_digits_of_isOctal hc cs
          have hlt : ∀ c ∈ digits, c.toNat < 128 := fun c hc => lt_of_isOctal (hdigits.isDigit c hc)
          have hlength := congrArg byteLength heq
          rw [byteLength, byteLength_append, byteLength_of_lt hlt] at hlength
          rw [heq] at h ⊢
          have hleft := h.tail.append
          rw [byteLength_of_lt hlt] at hleft
          exact .octal h hdigits (ih rounds (Nat.lt_succ_self _) hleft (by omega))
        · obtain ⟨more, hrounds⟩ :=
            Nat.exists_eq_add_of_le' (m := c.utf8Size) (n := rounds + 1) (by omega)
          rw [hrounds]
          exact .escaped h (Bool.eq_false_iff.2 hc) (ih more (by omega) h.tail.tail (by omega))
      · exact literalFrom?_newline hbytes
    · obtain ⟨more, hrounds⟩ :=
        Nat.exists_eq_add_of_le' (m := c.utf8Size) (n := rounds + 1) (by omega)
      rw [hrounds]
      exact .plain h hspecial (ih more (by omega) h.tail (by omega))

end

/-! ### Rounds -/

/-- The kind of a piece that is a lexeme. -/
def PieceKind.lexeme? : PieceKind → Option TokenKind
  | .lexeme kind => some kind
  | _ => none

/-- What a round finds at byte `i`, where `c :: cs` is left, is what a scan does. -/
def Source.Agrees (source : Source) (i : Nat) (c : Char) (cs : List Char) :
    Except Complaint (PieceKind × Nat) → Prop
  | .error cause => source.round? i = some (.error cause)
  | .ok (kind, length) => ∃ found,
    source.round? i = some (.ok (found, i + byteLength (c :: cs.take length)))
      ∧ found.map (·.withText (c :: cs.take length)) = kind.lexeme?

theorem utf8Size_of_lt (h : c.toNat < 128) : c.utf8Size = 1 := by
  rw [← String.length_utf8EncodeChar, utf8EncodeChar_of_lt h, List.length_singleton]

/-- Two characters are seen by looking at the first one and at the one behind it. -/
theorem isPrefixOf_cons (d e c : Char) (cs : List Char) :
    [d, e].isPrefixOf (c :: cs) = (c == d && cs.head? == some e) := by
  cases cs with
  | nil => simp [List.isPrefixOf]
  | cons f cs => simp [List.isPrefixOf, Bool.beq_comm]

/-- One of the punctuators of two characters is seen if the two make a pair. -/
theorem any_pairTexts (c : Char) (cs : List Char) :
    pairTexts.any (·.isPrefixOf (c :: cs)) = cs.head?.any (isPair c) := by
  cases cs with
  | nil => simp [pairTexts, isPrefixOf_cons]
  | cons d cs =>
    simp only [pairTexts, isPrefixOf_cons, isPair, List.any_cons, List.any_nil, List.head?_cons,
      Option.any_some, Option.some_beq_some]
    cases d == '=' <;> simp [Bool.or_assoc]

/-- A line comment ends at the first newline, or with the text. -/
theorem Source.LeftAt.getD_firstNewline? (h : source.LeftAt i rest) :
    ((firstNewline? rest).map (i + ·)).getD source.byteSize
      = i + byteLength (rest.takeWhile inLine) := by
  rw [← PocketCompiler.getD_firstNewline?, h.byteSize_eq]
  cases firstNewline? rest <;> rfl

/-- A round in front of the character `c`. -/
theorem Source.LeftAt.round? (h : source.LeftAt i (c :: cs)) : source.round? i =
    if isBlank c then some (.ok (none, i + 1))
    else if c == '/' && cs.head? == some '/' then
      some (.ok (none, i + byteLength ((c :: cs).takeWhile inLine)))
    else if c == '/' && cs.head? == some '*' then
      (source.suffix? (i + 2)).bind fun behind =>
        match commentClose? behind with
        | none => some (.error .unclosedComment)
        | some offset => some (.ok (none, i + offset + 4))
    else if isDigit c then
      (PocketCompiler.slice? i (PocketCompiler.runEnd isDigit source.bytes (i + 1) - i)
        source.text.toList).bind fun digits => some ((numberKind digits).map fun kind =>
          (some kind, PocketCompiler.runEnd isDigit source.bytes (i + 1)))
    else if c == '"' then
      (literalFrom? source.bytes (source.byteSize + 1) (i + 1)).bind fun
        | none => some (.error .unclosedString)
        | some (bytes, stop) => some (.ok (some (.string (some (bytes ++ [0]))
          (some (.array .char (bytes ++ [0]).length))), stop))
    else if isWordStart c then
      some (.ok (some .identifier, PocketCompiler.runEnd isWordPart source.bytes (i + 1)))
    else if cs.head?.any (isPair c) then some (.ok (some .punctuator, i + 2))
    else if c ∈ punctuators then some (.ok (some .punctuator, i + 1))
    else some (.error (.strayCharacter c)) := by
  -- The byte in front is in a class of characters exactly if the character is, as all classes are
  -- of one byte.
  obtain ⟨b, bs, hchar, hlead⟩ := exists_lead c
  have hb : source.bytes[i]? = some b := by
    have hbytes := h.drop_bytes
    rw [utf8_cons, hchar] at hbytes
    exact getElem?_of_drop hbytes
  have hquote := hlead _ (isPlain_beq (d := '"') (by decide))
  have hpunctuator : asChar b ∈ punctuators ↔ c ∈ punctuators :=
    decide_eq_decide.1 (hlead _ isPlain_punctuators)
  simp only [Source.round?, hb, h.suffix?, Option.bind_eq_bind, Option.bind_some, Option.pure_def,
    hlead _ isPlain_isBlank, hlead _ isPlain_isDigit, hlead _ isPlain_isWordStart, hquote,
    hpunctuator, isPrefixOf_cons, any_pairTexts, h.getD_firstNewline?, List.head?_cons,
    Option.getD_some]

/-- A run behind a character of one byte. -/
theorem Source.LeftAt.runEnd_tail (h : source.LeftAt i (c :: cs)) (hc : c.toNat < 128)
    (hp : IsPlain p) :
    PocketCompiler.runEnd p source.bytes (i + 1)
      = i + byteLength (c :: cs.take (runLength p cs)) := by
  have hsize := utf8Size_of_lt hc
  have htail := h.tail
  rw [hsize] at htail
  rw [htail.runEnd hp, byteLength, hsize, Nat.add_assoc]

/-- A block comment ends behind the first `*/`. -/
theorem Source.LeftAt.agrees_blockComment (h : source.LeftAt i ('/' :: '*' :: cs))
    (hround : source.round? i = (source.suffix? (i + 2)).bind fun behind =>
      match commentClose? behind with
      | none => some (.error .unclosedComment)
      | some offset => some (.ok (none, i + offset + 4))) :
    source.Agrees i '/' ('*' :: cs) (match commentEnd? cs with
      | some length => .ok (.comment, length + 1)
      | none => .error .unclosedComment) := by
  have hbehind : source.suffix? (i + 2) = some cs := h.tail.tail.suffix?
  have hclose := commentClose?_eq cs
  rw [hbehind, Option.bind_some] at hround
  cases hend : commentEnd? cs with
  | none =>
    rw [hend, Option.map_none, Option.map_eq_none_iff] at hclose
    rwa [hclose] at hround
  | some count =>
    rw [hend, Option.map_some] at hclose
    obtain ⟨offset, hoffset, hcount⟩ := Option.map_eq_some_iff.1 hclose
    rw [hoffset] at hround
    -- Two bytes open the comment, and two close it.
    have hslash : ('/').utf8Size = 1 := by decide
    have hstar : ('*').utf8Size = 1 := by decide
    have hstop : i + offset + 4 = i + byteLength ('/' :: ('*' :: cs).take (count + 1)) := by
      rw [List.take_succ_cons, byteLength, byteLength, ← hcount, hslash, hstar]
      omega
    exact ⟨none, by rw [hround, ← hstop], rfl⟩

/-- A number has the value of its digits. -/
theorem Source.LeftAt.agrees_number (h : source.LeftAt i (c :: cs)) (hc : isDigit c = true)
    (hround : source.round? i = (PocketCompiler.slice? i
      (PocketCompiler.runEnd isDigit source.bytes (i + 1) - i) source.text.toList).bind
        fun digits => some ((numberKind digits).map fun kind =>
          (some kind, PocketCompiler.runEnd isDigit source.bytes (i + 1)))) :
    source.Agrees i c cs (do
      let kind ← numberKind (c :: cs.take (runLength isDigit cs))
      return (.lexeme kind, runLength isDigit cs)) := by
  rw [h.runEnd_tail (isPlain_isDigit c hc) isPlain_isDigit, Nat.add_sub_cancel_left, h.slice_piece,
    Option.bind_some] at hround
  cases hkind : numberKind (c :: cs.take (runLength isDigit cs)) with
  | error cause => rwa [hkind] at hround
  | ok kind =>
    rw [hkind] at hround
    refine ⟨some kind, hround, ?_⟩
    -- A number is no word, so its text does not change its kind.
    simp only [numberKind] at hkind
    split at hkind
    · obtain rfl := Except.ok.inj hkind
      rfl
    · cases hkind

/-- A literal ends behind its closing quote. -/
theorem Source.LeftAt.agrees_literal (h : source.LeftAt i ('"' :: cs))
    (hround : source.round? i = (literalFrom? source.bytes (source.byteSize + 1) (i + 1)).bind fun
      | none => some (.error .unclosedString)
      | some (bytes, stop) => some (.ok (some (.string (some (bytes ++ [0]))
        (some (.array .char (bytes ++ [0]).length))), stop))) :
    source.Agrees i '"' cs (match literalBody? cs with
      | some body => .ok (.lexeme (literalKind body), body.length + 1)
      | none => .error .unclosedString) := by
  -- The quote is one byte, and what is left of the text bounds the rounds.
  have hone : ('"').utf8Size = 1 := by decide
  have htail := h.tail
  rw [hone] at htail
  have hsize := htail.byteSize_eq
  have hliteral : source.ReadsLiteral (source.byteSize + 1) (i + 1) cs :=
    htail.readsLiteral (by omega)
  rw [hliteral, Option.bind_some] at hround
  cases hbody : literalBody? cs with
  | none => rwa [hbody] at hround
  | some body =>
    rw [hbody, Option.map_some] at hround
    obtain ⟨rest, rfl⟩ := exists_of_literalBody? hbody
    have htake : (body ++ '"' :: rest).take (body.length + 1) = body ++ ['"'] := by
      rw [List.take_append, List.take_of_length_le (Nat.le_succ _), Nat.add_sub_cancel_left]
      rfl
    -- The bytes of the body and of both quotes are those up to the stop.
    have hstop : i + 1 + byteLength body + 1
        = i + byteLength ('"' :: (body ++ '"' :: rest).take (body.length + 1)) := by
      rw [htake, byteLength, byteLength_append, byteLength, hone]
      simp only [byteLength]
      omega
    exact ⟨some (literalKind body), by rw [hround, hstop]; rfl, rfl⟩

/-- **A round by offsets finds what is scanned**, and moves on over its bytes. -/
theorem Source.LeftAt.agrees (h : source.LeftAt i (c :: cs)) :
    source.Agrees i c cs (scan c cs) := by
  have hround := h.round?
  -- The cases of `scan` in their order.
  rw [scan]
  by_cases hblank : isBlank c = true
  · rw [if_pos hblank] at hround ⊢
    have hsize := utf8Size_of_lt (isPlain_isBlank c hblank)
    exact ⟨none, by rw [hround, List.take_zero, byteLength, hsize]; rfl, rfl⟩
  rw [if_neg hblank] at hround ⊢
  by_cases hline : (c == '/' && cs.head? == some '/') = true
  · rw [if_pos hline] at hround ⊢
    obtain rfl : c = '/' := eq_of_beq (Bool.and_eq_true_iff.1 hline).1
    refine ⟨none, ?_, rfl⟩
    rw [hround, take_runLength, List.takeWhile_cons_of_pos (by decide)]
  rw [if_neg hline] at hround ⊢
  by_cases hblock : (c == '/' && cs.head? == some '*') = true
  · rw [if_pos hblock] at hround ⊢
    obtain ⟨hslash, hstar⟩ := Bool.and_eq_true_iff.1 hblock
    obtain rfl := eq_of_beq hslash
    obtain ⟨cs, rfl⟩ := List.head?_eq_some_iff.1 (eq_of_beq hstar)
    exact h.agrees_blockComment hround
  rw [if_neg hblock] at hround ⊢
  by_cases hdigit : isDigit c = true
  · rw [if_pos hdigit] at hround ⊢
    exact h.agrees_number hdigit hround
  rw [if_neg hdigit] at hround ⊢
  by_cases hquote : (c == '"') = true
  · rw [if_pos hquote] at hround ⊢
    obtain rfl := eq_of_beq hquote
    exact h.agrees_literal hround
  rw [if_neg hquote] at hround ⊢
  by_cases hword : isWordStart c = true
  · rw [if_pos hword] at hround ⊢
    rw [h.runEnd_tail (isPlain_isWordStart c hword) isPlain_isWordPart] at hround
    exact ⟨some .identifier, hround, rfl⟩
  rw [if_neg hword] at hround ⊢
  by_cases hpair : cs.head?.any (isPair c) = true
  · rw [if_pos hpair] at hround ⊢
    obtain ⟨d, hd, hequals⟩ := (Option.any_eq_true _ _).1 hpair
    obtain ⟨cs, rfl⟩ := List.head?_eq_some_iff.1 hd
    -- Both characters of a pair have one byte, so the round ends two bytes further on.
    have hsizes : c.utf8Size = 1 ∧ d.utf8Size = 1 := by
      simp only [isPair, Bool.and_eq_true, Bool.or_eq_true, beq_iff_eq] at hequals
      obtain ⟨rfl, ((rfl | rfl) | rfl) | rfl⟩ := hequals <;> decide
    refine ⟨some .punctuator, ?_, rfl⟩
    rw [hround, List.take_succ_cons, List.take_zero, byteLength, byteLength, hsizes.1, hsizes.2]
    rfl
  rw [if_neg hpair] at hround ⊢
  by_cases hsingle : c ∈ punctuators
  · rw [if_pos hsingle] at hround ⊢
    have hsize := utf8Size_of_lt (isPlain_punctuators c (decide_eq_true hsingle))
    exact ⟨some .punctuator, by rw [hround, List.take_zero, byteLength, hsize]; rfl, rfl⟩
  · rwa [if_neg hsingle] at hround ⊢

/-! ### All of the text -/

/-- What is found from byte `i` on, where `rest` is left, are the pieces there: the same complaint,
or lexemes whose tokens are theirs. -/
def Source.AgreesFrom (source : Source) (bound i : Nat) :
    Except Failure (List Piece) → Prop
  | .error failure => source.extentsFrom? bound i = some (.error failure)
  | .ok pieces => ∃ extents, source.extentsFrom? bound i = some (.ok extents)
    ∧ extents.mapM source.tokenOf? = some (pieces.filterMap Piece.token?)

/-- A lexeme that a round finds gives the token of its piece. -/
theorem Source.LeftAt.mapM_tokenOf? {found : Option TokenKind} {kind : PieceKind} {length : Nat}
    (h : source.LeftAt i (c :: cs))
    (hfound : found.map (·.withText (c :: cs.take length)) = kind.lexeme?) :
    (found.toList.map (Extent.mk · i (byteLength (c :: cs.take length)))).mapM source.tokenOf?
      = some (Piece.token? ⟨kind, i, c :: cs.take length⟩).toList := by
  cases found with
  | none =>
    cases kind with
    | blank => rfl
    | comment => rfl
    | lexeme => exact nomatch hfound
  | some raw =>
    have htoken : source.tokenOf? ⟨raw, i, byteLength (c :: cs.take length)⟩ = some
        ⟨raw.withText (c :: cs.take length), i, String.ofList (c :: cs.take length)⟩ := by
      rw [tokenOf?, h.slice_piece]
      rfl
    cases kind with
    | blank => exact nomatch hfound
    | comment => exact nomatch hfound
    | lexeme kind =>
      obtain rfl : raw.withText (c :: cs.take length) = kind := Option.some.inj hfound
      rw [Option.toList_some, List.map_singleton, List.mapM_cons, htoken]
      rfl

/-- **From every offset that the lexer comes to, it goes on as it does character by character.** -/
theorem Source.LeftAt.agreesFrom {bound : Nat} (h : source.LeftAt i rest)
    (hbound : byteLength rest < bound) : source.AgreesFrom bound i (piecesFrom 0 i rest) := by
  -- The induction is on the rounds that are left, since a piece takes any number of bytes.
  induction bound using Nat.strong_induction_on generalizing i rest with
  | _ bound ih =>
    obtain ⟨rounds, rfl⟩ := Nat.exists_eq_add_one.2 (Nat.zero_lt_of_lt hbound)
    have hsize := h.byteSize_eq
    cases rest with
    -- At the end of the text no round is made.
    | nil =>
      have hend : ¬ i < source.byteSize := by
        rw [hsize]
        exact Nat.lt_irrefl _
      refine ⟨[], ?_, rfl⟩
      rw [extentsFrom?, if_neg hend]
      rfl
    | cons c cs =>
      have hpos := c.utf8Size_pos
      have hbytes : byteLength (c :: cs) = c.utf8Size + byteLength cs := rfl
      have hinside : i < source.byteSize := by omega
      have hagrees := h.agrees
      rw [piecesFrom]
      cases hscan : scan c cs with
      -- A scan that complains is a round that does.
      | error cause =>
        rw [hscan] at hagrees
        have hround : source.round? i = some (.error cause) := hagrees
        show source.extentsFrom? (rounds + 1) i = _
        rw [extentsFrom?, if_pos hinside, hround]
        rfl
      | ok scanned =>
        obtain ⟨kind, length⟩ := scanned
        rw [hscan] at hagrees
        obtain ⟨found, hround, hfound⟩ := hagrees
        -- What is left behind the piece is shorter, and the rounds that are left suffice for it.
        have hleft : source.LeftAt (i + byteLength (c :: cs.take length)) (cs.drop length) :=
          h.drop (length + 1)
        have hshorter := byteLength_drop_le length cs
        have hmore := ih rounds (Nat.lt_succ_self _) hleft (by omega)
        have htokens := h.mapM_tokenOf? hfound
        have hstep : source.extentsFrom? (rounds + 1) i
            = (source.extentsFrom? rounds (i + byteLength (c :: cs.take length))).map
              (Except.map
                (found.toList.map (Extent.mk · i (byteLength (c :: cs.take length))) ++ ·)) := by
          rw [extentsFrom?, if_pos hinside, hround, Option.map_eq_bind]
          simp only [Option.bind_eq_bind, Option.bind_some, Nat.add_sub_cancel_left]
          rfl
        -- The pieces are found by skipping what the scan took; the rounds start behind it.
        have hskip : piecesFrom length (i + c.utf8Size) cs
            = piecesFrom 0 (i + byteLength (c :: cs.take length)) (cs.drop length) := by
          rw [piecesFrom_eq_drop, byteLength, Nat.add_assoc]
        show source.AgreesFrom (rounds + 1) i (do
          let rest ← piecesFrom length (i + c.utf8Size) cs
          return ⟨kind, i, c :: cs.take length⟩ :: rest)
        rw [hskip]
        cases hpieces : piecesFrom 0 (i + byteLength (c :: cs.take length)) (cs.drop length) with
        | error failure =>
          rw [hpieces] at hmore
          have hextents : source.extentsFrom? rounds _ = some (.error failure) := hmore
          show source.extentsFrom? (rounds + 1) i = _
          rw [hstep, hextents]
          rfl
        | ok pieces =>
          rw [hpieces] at hmore
          obtain ⟨extents, hextents, hrest⟩ := hmore
          refine ⟨_, by rw [hstep, hextents]; rfl, ?_⟩
          rw [List.mapM_append, htokens, hrest, List.filterMap_cons]
          cases Piece.token? ⟨kind, i, c :: cs.take length⟩ <;> rfl

/-- **The lexer by byte offsets never slices a text inside a character**, and never reads behind its
end: it gives the tokens of the source, or the complaint about it. -/
theorem Source.tokenizeByOffsets?_eq (source : Source) :
    source.tokenizeByOffsets? = some source.tokenize := by
  -- Every round takes a byte at least, so the rounds do not run out.
  have hbound : byteLength source.text.toList < source.byteSize + 1 := by
    rw [byteLength_toList]
    exact Nat.lt_succ_self _
  have hagrees := (LeftAt.start source).agreesFrom hbound
  rw [tokenizeByOffsets?, tokenize, pieces]
  cases hpieces : piecesFrom 0 0 source.text.toList with
  | error failure =>
    rw [hpieces] at hagrees
    have hextents : source.extentsFrom? (source.byteSize + 1) 0 = some (.error failure) := hagrees
    rw [hextents]
    rfl
  | ok pieces =>
    rw [hpieces] at hagrees
    obtain ⟨extents, hextents, htokens⟩ := hagrees
    -- The token of the end is an empty slice.
    have hend : source.tokenOf? ⟨.eof, source.byteSize, 0⟩ = some (Token.atEnd source) := by
      have hslice : slice? source.byteSize 0 source.text.toList = some [] :=
        (Token.of_atEnd source).slice
      rw [tokenOf?, hslice]
      rfl
    rw [hextents]
    simp only [Option.bind_eq_bind, Option.bind_some, List.mapM_append, htokens, List.mapM_cons,
      List.mapM_nil, hend]
    rfl

example : (Source.mk "" "x/* é */=\"\\é\"").tokenizeByOffsets?
    = some (.ok [⟨.identifier, 0, "x"⟩, ⟨.punctuator, 9, "="⟩,
      ⟨.string (some [195, 169, 0]) (some (.array .char 3)), 10, "\"\\é\""⟩, ⟨.eof, 15, ""⟩]) := by
  decide +kernel

end PocketCompiler
