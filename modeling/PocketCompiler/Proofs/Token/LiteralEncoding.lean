import Mathlib.Algebra.Ring.Nat
import Mathlib.Data.Bool.AllAny
import Mathlib.Data.List.Induction
import Mathlib.Data.List.Nodup
import PocketCompiler.Proofs.Token.Decomposition

/-!
# How bytes are written in a string literal

`Encodes top bytes written` says that the bytes `written`, between quotes, stand for `bytes`.  It is
said byte by byte, without a decoder: a byte is written as it is, by an octal number, by a letter
that names it, or as it is behind a backslash.  Octal numbers go up to `top`.

A literal is decoded character by character, and a character may have several bytes.  Only its first
byte can stand behind a backslash, and none of its bytes means anything special, so the two views
agree: `encodes_utf8_iff`.
-/

namespace PocketCompiler

/-! ### Bytes of characters -/

/-- The bytes of a text in UTF-8. -/
def utf8 (text : List Char) : List UInt8 := text.flatMap String.utf8EncodeChar

@[simp] theorem utf8_nil : utf8 [] = [] := rfl

@[simp] theorem utf8_cons (c : Char) (cs : List Char) :
    utf8 (c :: cs) = String.utf8EncodeChar c ++ utf8 cs := List.flatMap_cons

@[simp] theorem utf8_append (cs ds : List Char) : utf8 (cs ++ ds) = utf8 cs ++ utf8 ds :=
  List.flatMap_append

/-- The bytes of a text are those of its characters, one after the other. -/
theorem toList_toUTF8 (text : String) : text.toUTF8.data.toList = utf8 text.toList := by
  rw [← String.ofList_toList (s := text), String.toUTF8_eq_toByteArray, String.toByteArray_ofList,
    List.utf8Encode, List.toList_data_toByteArray, String.ofList_toList]
  rfl

/-- The length of a text in bytes is the number of its bytes. -/
theorem length_utf8 (text : List Char) : (utf8 text).length = byteLength text := by
  induction text with
  | nil => rfl
  | cons c cs ih => rw [utf8_cons, List.length_append, ih, String.length_utf8EncodeChar, byteLength]

/-- A character of one byte is that byte. -/
theorem utf8EncodeChar_of_lt {c : Char} (h : c.toNat < 128) :
    String.utf8EncodeChar c = [c.toUInt8] := by
  have hv : c.val.toNat ≤ 127 := Nat.le_of_lt_succ h
  rw [String.utf8EncodeChar, if_pos hv]
  rfl

/-- A character of one byte is that byte. -/
theorem toNat_toUInt8_of_lt {c : Char} (h : c.toNat < 128) : c.toUInt8.toNat = c.toNat := by
  rw [Char.toUInt8, UInt32.toNat_toUInt8]
  exact Nat.mod_eq_of_lt (Nat.lt_trans h (by decide))

/-- No byte of a character with several bytes is a character. -/
theorem le_of_mem_utf8EncodeChar {c : Char} (h : 128 ≤ c.toNat) {b : UInt8}
    (hb : b ∈ String.utf8EncodeChar c) : 128 ≤ b.toNat := by
  have hv : ¬ c.val.toNat ≤ 127 := Nat.not_le.2 h
  have hbyte : ∀ n, 128 ≤ n → n < 256 → 128 ≤ (UInt8.ofNat n).toNat := by
    intro n hn hlt
    rwa [UInt8.toNat_ofNat_of_lt' hlt]
  unfold String.utf8EncodeChar at hb
  simp only [if_neg hv] at hb
  split at hb
  · simp only [List.mem_cons, List.not_mem_nil, or_false] at hb
    rcases hb with rfl | rfl <;> apply hbyte <;> omega
  split at hb
  · simp only [List.mem_cons, List.not_mem_nil, or_false] at hb
    rcases hb with rfl | rfl | rfl <;> apply hbyte <;> omega
  · simp only [List.mem_cons, List.not_mem_nil, or_false] at hb
    rcases hb with rfl | rfl | rfl | rfl <;> apply hbyte <;> omega

/-- Any other character has only bytes that no character of one byte has. -/
theorem exists_bytes_of_le {c : Char} (h : 128 ≤ c.toNat) :
    ∃ b bs, String.utf8EncodeChar c = b :: bs ∧ 128 ≤ b.toNat ∧ ∀ d ∈ bs, 128 ≤ d.toNat := by
  obtain ⟨b, bs, hbytes⟩ := List.exists_cons_of_ne_nil (String.utf8EncodeChar_ne_nil (c := c))
  have hall : ∀ d ∈ b :: bs, 128 ≤ d.toNat :=
    fun d hd => le_of_mem_utf8EncodeChar h (hbytes ▸ hd)
  exact ⟨b, bs, hbytes, List.forall_mem_cons.1 hall⟩

/-- A text whose first byte is a character starts with that character. -/
theorem exists_of_utf8_eq_cons {text : List Char} {b : UInt8} {bs : List UInt8}
    (h : utf8 text = b :: bs) (hb : b.toNat < 128) :
    ∃ c cs, text = c :: cs ∧ c.toNat < 128 ∧ c.toUInt8 = b ∧ utf8 cs = bs := by
  cases text with
  | nil => exact nomatch h
  | cons c cs =>
    rw [utf8_cons] at h
    by_cases hc : c.toNat < 128
    · rw [utf8EncodeChar_of_lt hc, List.singleton_append] at h
      obtain ⟨hfirst, hrest⟩ := List.cons.inj h
      exact ⟨c, cs, rfl, hc, hfirst, hrest⟩
    · obtain ⟨d, ds, hd, hlarge, -⟩ := exists_bytes_of_le (Nat.not_lt.1 hc)
      rw [hd] at h
      obtain ⟨rfl, -⟩ := List.cons.inj h
      omega

/-- Characters of one byte are told apart by their bytes. -/
theorem char_eq_of_toUInt8 {c d : Char} (hc : c.toNat < 128) (hd : d.toNat < 128)
    (h : c.toUInt8 = d.toUInt8) : c = d := by
  have hnat := congrArg UInt8.toNat h
  rw [toNat_toUInt8_of_lt hc, toNat_toUInt8_of_lt hd] at hnat
  exact Char.toNat_inj.1 hnat

/-! ### Encodings -/

/-- A byte that is a digit of base eight. -/
def isOctalByte (b : UInt8) : Bool := '0'.toUInt8 ≤ b && b ≤ '7'.toUInt8

/-- The number that octal digits stand for. -/
def octalValue (digits : List UInt8) : Nat :=
  digits.foldl (fun value d => value * 8 + (d.toNat - '0'.toNat)) 0

/-- The letters that name a byte, and the bytes that they name. -/
def namedBytes : List (UInt8 × UInt8) :=
  [('a'.toUInt8, 7), ('b'.toUInt8, 8), ('t'.toUInt8, 9), ('n'.toUInt8, 10), ('v'.toUInt8, 11),
    ('f'.toUInt8, 12), ('r'.toUInt8, 13), ('e'.toUInt8, 27)]

/-- The bytes that end a literal or start an escape if they stand on their own. -/
def specialBytes : List UInt8 := ['"'.toUInt8, '\\'.toUInt8, '\n'.toUInt8]

/-- The bytes `written` between quotes stand for `bytes`.  Octal numbers go up to `top`, and one
that is greater than a byte counts modulo 256. -/
inductive Encodes (top : Nat) : (bytes written : List UInt8) → Prop
  | nil : Encodes top [] []
  /-- A byte as it is. -/
  | plain {b : UInt8} {bytes written : List UInt8} (hb : b ∉ specialBytes)
      (h : Encodes top bytes written) : Encodes top (b :: bytes) (b :: written)
  /-- Three octal digits. -/
  | octal {b d e f : UInt8} {bytes written : List UInt8}
      (hdigits : ∀ digit ∈ [d, e, f], isOctalByte digit = true) (htop : octalValue [d, e, f] ≤ top)
      (hb : octalValue [d, e, f] % 256 = b.toNat) (h : Encodes top bytes written) :
    Encodes top (b :: bytes) ('\\'.toUInt8 :: d :: e :: f :: written)
  /-- One or two octal digits, if no further digit follows. -/
  | shortOctal {b : UInt8} {digits bytes written : List UInt8}
      (hdigits : ∀ digit ∈ digits, isOctalByte digit = true) (hlength : digits.length ∈ [1, 2])
      (hb : octalValue digits = b.toNat) (hends : ∀ next ∈ written.head?, isOctalByte next = false)
      (h : Encodes top bytes written) :
    Encodes top (b :: bytes) ('\\'.toUInt8 :: (digits ++ written))
  /-- A letter that names the byte. -/
  | named {letter b : UInt8} {bytes written : List UInt8} (hnamed : (letter, b) ∈ namedBytes)
      (h : Encodes top bytes written) :
    Encodes top (b :: bytes) ('\\'.toUInt8 :: letter :: written)
  /-- The byte itself behind a backslash, if it means nothing else there. -/
  | escaped {b : UInt8} {bytes written : List UInt8} (hoctal : isOctalByte b = false)
      (hnamed : b ∉ namedBytes.map (·.1)) (h : Encodes top bytes written) :
    Encodes top (b :: bytes) ('\\'.toUInt8 :: b :: written)

/-- The digits that an octal escape takes from what stands behind its backslash: one to three, and
three if a further digit follows. -/
structure TakesDigits {α : Type} (p : α → Bool) (digits rest : List α) : Prop where
  isDigit : ∀ d ∈ digits, p d = true
  ne_nil : digits ≠ []
  length_le : digits.length ≤ 3
  ends : digits.length < 3 → ∀ d ∈ rest.head?, p d = false

/-- Another digit multiplies the number by eight. -/
theorem octalValue_append (digits : List UInt8) (d : UInt8) :
    octalValue (digits ++ [d]) = octalValue digits * 8 + (d.toNat - '0'.toNat) := by
  rw [octalValue, List.foldl_append]
  rfl

/-- So many digits stand for a number below that power of eight. -/
theorem octalValue_lt {digits : List UInt8} (h : ∀ d ∈ digits, isOctalByte d = true) :
    octalValue digits < 8 ^ digits.length := by
  induction digits using List.reverseRecOn with
  | nil => exact Nat.one_pos
  | append_singleton digits d ih =>
    rw [octalValue_append, List.length_append, List.length_singleton, Nat.pow_succ]
    have hd := h d (List.mem_append_right _ List.mem_cons_self)
    simp only [isOctalByte, Bool.and_eq_true, decide_eq_true_eq] at hd
    have hd : d.toNat ≤ 55 := UInt8.le_iff_toNat_le.1 hd.2
    have hdigits := ih fun e he => h e (List.mem_append_left _ he)
    have hzero : '0'.toNat = 48 := rfl
    omega

/-- Octal numbers of all lengths. -/
theorem Encodes.ofDigits {top : Nat} {b : UInt8} {digits bytes written : List UInt8}
    (hdigits : TakesDigits isOctalByte digits written) (hvalue : octalValue digits ≤ top)
    (hb : octalValue digits % 256 = b.toNat) (h : Encodes top bytes written) :
    Encodes top (b :: bytes) ('\\'.toUInt8 :: (digits ++ written)) := by
  by_cases hthree : digits.length = 3
  · obtain ⟨d, e, f, rfl⟩ := List.length_eq_three.1 hthree
    exact .octal hdigits.isDigit hvalue hb h
  · have hle := hdigits.length_le
    have hpos := List.length_pos_of_ne_nil hdigits.ne_nil
    have hshort : digits.length ∈ [1, 2] := by
      rw [List.mem_pair]
      omega
    have hlt : octalValue digits < 8 ^ 2 := by
      refine Nat.lt_of_lt_of_le (octalValue_lt hdigits.isDigit) ?_
      exact Nat.pow_le_pow_right (by decide) (by omega)
    rw [Nat.mod_eq_of_lt (Nat.lt_trans hlt (by decide))] at hb
    exact .shortOctal hdigits.isDigit hshort hb (hdigits.ends (by omega)) h

/-! ### Decoding -/

/-- A character that is not a backslash stands for itself. -/
theorem unescape_plain {c : Char} (hc : c ≠ '\\') (cs : List Char) :
    unescape (c :: cs) = String.utf8EncodeChar c ++ unescape cs := by
  rw [unescape, unescapeFrom.eq_def]
  simp only [if_neg hc]
  rfl

/-- An escape takes its digits and no more. -/
theorem TakesDigits.takeWhile_take {α : Type} {q : α → Bool} {digits rest : List α}
    (h : TakesDigits q digits rest) : ((digits ++ rest).take 3).takeWhile q = digits := by
  have hends : (rest.take (3 - digits.length)).takeWhile q = [] := by
    cases rest with
    | nil => rw [List.take_nil, List.takeWhile_nil]
    | cons d rest =>
      rcases Nat.lt_or_ge digits.length 3 with hlt | hge
      · obtain ⟨n, hn⟩ := Nat.exists_eq_add_of_lt hlt
        have hd : ¬ q d = true := by
          rw [h.ends hlt d rfl]
          exact Bool.false_ne_true
        rw [show 3 - digits.length = n + 1 by omega, List.take_succ_cons,
          List.takeWhile_cons_of_neg hd]
      · rw [Nat.sub_eq_zero_of_le hge, List.take_zero, List.takeWhile_nil]
  rw [List.take_append, List.take_of_length_le h.length_le,
    List.takeWhile_append_of_pos h.isDigit, hends, List.append_nil]

/-- The digits that are decoded are those that an octal escape takes. -/
theorem exists_of_octalDigits {cs : List Char} (h : octalDigits cs ≠ []) :
    ∃ rest, cs = octalDigits cs ++ rest ∧ TakesDigits isOctal (octalDigits cs) rest := by
  have hprefix : octalDigits cs <+: cs.take 3 := List.takeWhile_prefix isOctal
  obtain ⟨rest, hrest⟩ := hprefix.trans (List.take_prefix 3 cs)
  refine ⟨rest, hrest.symm, List.all_eq_true.1 List.all_takeWhile, h, ?_, fun hlt d hd => ?_⟩
  · exact Nat.le_trans hprefix.length_le (List.length_take_le 3 cs)
  · -- If it were a digit, it would have been taken.
    refine Bool.eq_false_iff.2 fun hoctal => ?_
    obtain ⟨more, rfl⟩ := List.head?_eq_some_iff.1 hd
    obtain ⟨n, hn⟩ := Nat.exists_eq_add_of_lt hlt
    generalize hdigits : octalDigits cs = digits at *
    have htaken : octalDigits cs = digits ++ d :: (more.take n).takeWhile isOctal := by
      rw [octalDigits, ← hrest, List.take_append, List.take_of_length_le (Nat.le_of_lt hlt),
        show 3 - digits.length = n + 1 by omega, List.take_succ_cons,
        List.takeWhile_append_of_pos (hdigits ▸ List.all_eq_true.1 List.all_takeWhile),
        List.takeWhile_cons_of_pos hoctal]
    have hlength := congrArg List.length (hdigits.symm.trans htaken)
    rw [List.length_append, List.length_cons] at hlength
    omega

/-- The digits behind a backslash stand for one byte. -/
theorem unescape_octal {digits rest : List Char} (h : TakesDigits isOctal digits rest) :
    unescape ('\\' :: (digits ++ rest)) = octalByte digits :: unescape rest := by
  have htaken : octalDigits (digits ++ rest) = digits := h.takeWhile_take
  obtain ⟨d, digits, rfl⟩ := List.exists_cons_of_ne_nil h.ne_nil
  rw [unescape, unescapeFrom.eq_def]
  simp only [if_true, htaken]
  rw [unescapeFrom_eq_unescape_drop]
  exact congrArg (_ :: unescape ·) List.drop_left

/-- Any other character behind a backslash stands for itself or for the byte that it names. -/
theorem unescape_escaped {c : Char} (hc : isOctal c = false) (cs : List Char) :
    unescape ('\\' :: c :: cs) = escapedBytes c ++ unescape cs := by
  have hnone : octalDigits (c :: cs) = [] := by
    have hnot : ¬ isOctal c = true := by
      rw [hc]
      exact Bool.false_ne_true
    rw [octalDigits, List.take_succ_cons, List.takeWhile_cons_of_neg hnot]
  rw [unescape, unescapeFrom.eq_def]
  simp only [if_true, hnone]
  rfl

/-! ### The two views agree -/

section

variable {top : Nat} {bytes written : List UInt8}

/-- Bytes that mean nothing special may be written as they are. -/
theorem Encodes.plains {more : List UInt8} (h : Encodes top bytes written)
    (hmore : ∀ b ∈ more, b ∉ specialBytes) : Encodes top (more ++ bytes) (more ++ written) := by
  induction more with
  | nil => exact h
  | cons b more ih =>
    exact .plain (hmore b List.mem_cons_self) (ih fun c hc => hmore c (List.mem_cons_of_mem _ hc))

/-- The special bytes are characters of one byte. -/
theorem lt_of_mem_specialBytes {b : UInt8} (h : b ∈ specialBytes) : b.toNat < 128 := by
  have hall : ∀ b ∈ specialBytes, b.toNat < 128 := List.all_iff_forall_prop.1 (by decide)
  exact hall b h

/-- What a backslash and what stands behind it stand for. -/
inductive EscapeFor (b : UInt8) : (escape rest : List UInt8) → Prop
  | digits {digits rest : List UInt8} (hdigits : TakesDigits isOctalByte digits rest)
      (hb : octalValue digits % 256 = b.toNat) : EscapeFor b digits rest
  | named {letter : UInt8} {rest : List UInt8} (hnamed : (letter, b) ∈ namedBytes) :
    EscapeFor b [letter] rest
  | escaped {rest : List UInt8} (hoctal : isOctalByte b = false)
      (hnamed : b ∉ namedBytes.map (·.1)) : EscapeFor b [b] rest

/-- What is written starts with a byte as it is or with an escape. -/
theorem Encodes.cons_cases {b : UInt8} (h : Encodes top bytes (b :: written)) :
    ∃ byte rest, bytes = byte :: rest
      ∧ ((byte = b ∧ b ∉ specialBytes ∧ Encodes top rest written)
        ∨ (b = '\\'.toUInt8 ∧ ∃ escape more, written = escape ++ more ∧ EscapeFor byte escape more
          ∧ Encodes top rest more)) := by
  generalize hwhole : b :: written = whole at h
  -- A byte stands for itself, or the first one is a backslash and an escape follows.
  cases h with
  | nil => exact nomatch hwhole
  | plain hb h =>
    obtain ⟨rfl, rfl⟩ := List.cons.inj hwhole
    exact ⟨_, _, rfl, .inl ⟨rfl, hb, h⟩⟩
  | @octal byte d e f bytes more hdigits htop hb h =>
    obtain ⟨rfl, rfl⟩ := List.cons.inj hwhole
    have htakes : TakesDigits isOctalByte [d, e, f] more :=
      ⟨hdigits, List.cons_ne_nil _ _, Nat.le_refl _, fun hlt => absurd hlt (Nat.lt_irrefl _)⟩
    exact ⟨_, _, rfl, .inr ⟨rfl, [d, e, f], more, rfl, .digits htakes hb, h⟩⟩
  | @shortOctal byte digits bytes more hdigits hlength hb hends h =>
    obtain ⟨rfl, rfl⟩ := List.cons.inj hwhole
    rw [List.mem_pair] at hlength
    have hne : digits ≠ [] := List.ne_nil_of_length_pos (by omega)
    have htakes : TakesDigits isOctalByte digits more :=
      ⟨hdigits, hne, by omega, fun _ => hends⟩
    -- Below 256 the value is the byte itself.
    have hmod : octalValue digits % 256 = byte.toNat := by
      rw [hb]
      exact Nat.mod_eq_of_lt byte.toNat_lt
    exact ⟨_, _, rfl, .inr ⟨rfl, digits, more, rfl, .digits htakes hmod, h⟩⟩
  | @named letter byte bytes more hnamed h =>
    obtain ⟨rfl, rfl⟩ := List.cons.inj hwhole
    exact ⟨_, _, rfl, .inr ⟨rfl, [letter], more, rfl, .named hnamed, h⟩⟩
  | @escaped byte bytes more hoctal hnamed h =>
    obtain ⟨rfl, rfl⟩ := List.cons.inj hwhole
    exact ⟨_, _, rfl, .inr ⟨rfl, [byte], more, rfl, .escaped hoctal hnamed, h⟩⟩

/-- Bytes that are no characters are written as they are. -/
theorem Encodes.exists_of_append {more : List UInt8} (hmore : ∀ b ∈ more, 128 ≤ b.toNat)
    (h : Encodes top bytes (more ++ written)) :
    ∃ rest, bytes = more ++ rest ∧ Encodes top rest written := by
  induction more generalizing bytes with
  | nil => exact ⟨bytes, rfl, h⟩
  | cons b more ih =>
    obtain ⟨hb, htail⟩ := List.forall_mem_cons.1 hmore
    obtain ⟨byte, rest, rfl, ⟨rfl, -, hplain⟩ | ⟨rfl, -⟩⟩ := h.cons_cases
    · obtain ⟨rest, rfl, hrest⟩ := ih htail hplain
      exact ⟨rest, rfl, hrest⟩
    · exact absurd hb (by decide)

/-- Digits of a text are digits of its bytes. -/
theorem exists_of_utf8_eq_append {text : List Char} {digits : List UInt8}
    (hdigits : ∀ d ∈ digits, d.toNat < 128) (h : utf8 text = digits ++ written) :
    ∃ cs rest, text = cs ++ rest ∧ (∀ c ∈ cs, c.toNat < 128) ∧ cs.map Char.toUInt8 = digits
      ∧ utf8 rest = written := by
  induction digits generalizing text with
  | nil => exact ⟨[], text, rfl, fun _ h => absurd h List.not_mem_nil, rfl, h⟩
  | cons d digits ih =>
    obtain ⟨c, text, rfl, hc, hcd, htext⟩ := exists_of_utf8_eq_cons h (hdigits d List.mem_cons_self)
    obtain ⟨cs, rest, rfl, hcs, hmap, hrest⟩ :=
      ih (fun e he => hdigits e (List.mem_cons_of_mem _ he)) htext
    refine ⟨c :: cs, rest, rfl, List.forall_mem_cons.2 ⟨hc, hcs⟩, ?_, hrest⟩
    rw [List.map_cons, hcd, hmap]

/-- The octal digits are those from 48 to 55. -/
theorem isOctal_iff {c : Char} : isOctal c = true ↔ 48 ≤ c.toNat ∧ c.toNat ≤ 55 := by
  rw [isOctal, Bool.and_eq_true, decide_eq_true_iff, decide_eq_true_iff]
  exact Iff.rfl

/-- The bytes of octal digits are those from 48 to 55. -/
theorem isOctalByte_iff {b : UInt8} : isOctalByte b = true ↔ 48 ≤ b.toNat ∧ b.toNat ≤ 55 := by
  rw [isOctalByte, Bool.and_eq_true, decide_eq_true_iff, decide_eq_true_iff]
  exact Iff.rfl

/-- A character of one byte is an octal digit if its byte is one. -/
theorem isOctalByte_toUInt8 {c : Char} (h : c.toNat < 128) : isOctalByte c.toUInt8 = isOctal c := by
  rw [Bool.eq_iff_iff, isOctalByte_iff, isOctal_iff, toNat_toUInt8_of_lt h]

/-- The first byte of a text is a digit if its first character is one. -/
theorem isOctalByte_head?_utf8 {text : List Char} :
    (∀ b ∈ (utf8 text).head?, isOctalByte b = false) ↔ ∀ c ∈ text.head?, isOctal c = false := by
  cases text with
  | nil => simp
  | cons c cs =>
    rw [utf8_cons]
    by_cases hc : c.toNat < 128
    · rw [utf8EncodeChar_of_lt hc]
      simp [isOctalByte_toUInt8 hc]
    · obtain ⟨d, ds, hd, hlarge, -⟩ := exists_bytes_of_le (Nat.not_lt.1 hc)
      have hbyte : isOctalByte d = false := by
        rw [Bool.eq_false_iff, ne_eq, isOctalByte_iff]
        omega
      have hchar : isOctal c = false := by
        rw [Bool.eq_false_iff, ne_eq, isOctal_iff]
        omega
      rw [hd]
      simp [hbyte, hchar]

/-- The digits of an escape are the same characters and bytes. -/
theorem takesDigits_utf8 {digits rest : List Char} (hdigits : ∀ c ∈ digits, c.toNat < 128) :
    TakesDigits isOctalByte (digits.map Char.toUInt8) (utf8 rest)
      ↔ TakesDigits isOctal digits rest := by
  have hall : (∀ b ∈ digits.map Char.toUInt8, isOctalByte b = true)
      ↔ ∀ c ∈ digits, isOctal c = true := by
    rw [List.forall_mem_map]
    exact forall₂_congr fun c hc => by rw [isOctalByte_toUInt8 (hdigits c hc)]
  constructor
  · rintro ⟨h1, h2, h3, h4⟩
    rw [List.length_map] at h3 h4
    exact ⟨hall.1 h1, fun hnil => h2 (by rw [hnil]; rfl), h3,
      fun hlt => isOctalByte_head?_utf8.1 (h4 hlt)⟩
  · rintro ⟨h1, h2, h3, h4⟩
    refine ⟨hall.2 h1, fun hnil => h2 (List.map_eq_nil_iff.1 hnil), ?_, ?_⟩
    · rwa [List.length_map]
    · rw [List.length_map]
      exact fun hlt => isOctalByte_head?_utf8.2 (h4 hlt)

/-- The number of an escape is the same of characters and bytes. -/
theorem toNat_octalByte {digits : List Char} (hdigits : ∀ c ∈ digits, c.toNat < 128) :
    (octalByte digits).toNat = octalValue (digits.map Char.toUInt8) % 256 := by
  have hvalue : ∀ value, digits.foldl (fun value d => value * 8 + digitValue d) value
      = (digits.map Char.toUInt8).foldl (fun value d => value * 8 + (d.toNat - '0'.toNat)) value
      := by
    induction digits with
    | nil => exact fun _ => rfl
    | cons c digits ih =>
      intro value
      rw [List.map_cons, List.foldl_cons, List.foldl_cons,
        toNat_toUInt8_of_lt (hdigits c List.mem_cons_self),
        ih fun d hd => hdigits d (List.mem_cons_of_mem _ hd)]
      rfl
  rw [octalByte, UInt8.toNat_ofNat', hvalue 0]
  rfl

/-- The letters that name a byte, as characters. -/
def namedChars : List Char := ['a', 'b', 't', 'n', 'v', 'f', 'r', 'e']

/-- The letters in both tables are the same, in the same order. -/
theorem map_toUInt8_namedChars : namedChars.map Char.toUInt8 = namedBytes.map (·.1) := rfl

theorem lt_of_mem_namedChars {c : Char} (h : c ∈ namedChars) : c.toNat < 128 := by
  have hall : ∀ c ∈ namedChars, c.toNat < 128 := List.all_iff_forall_prop.1 (by decide)
  exact hall c h

/-- A letter names a byte if its own byte is in the table of bytes. -/
theorem mem_namedChars_iff {c : Char} (hc : c.toNat < 128) :
    c ∈ namedChars ↔ c.toUInt8 ∈ namedBytes.map (·.1) := by
  rw [← map_toUInt8_namedChars, List.mem_map]
  constructor
  · exact fun h => ⟨c, h, rfl⟩
  · rintro ⟨d, hd, hdc⟩
    rwa [← char_eq_of_toUInt8 (lt_of_mem_namedChars hd) hc hdc]

/-- A letter that names no byte stands for itself behind a backslash. -/
theorem escapedBytes_of_not_mem {c : Char} (h : c ∉ namedChars) :
    escapedBytes c = String.utf8EncodeChar c := by
  simp only [namedChars, List.mem_cons, List.not_mem_nil, or_false, not_or] at h
  obtain ⟨h1, h2, h3, h4, h5, h6, h7, h8⟩ := h
  exact escapedBytes.eq_9 c h1 h2 h3 h4 h5 h6 h7 h8

/-- A letter that names a byte stands for that byte behind a backslash. -/
theorem escapedBytes_of_mem {c : Char} (hc : c ∈ namedChars) :
    ∃ b, escapedBytes c = [b] ∧ (c.toUInt8, b) ∈ namedBytes := by
  have hall : ∀ c ∈ namedChars, ∃ b ∈ namedBytes.map (·.2), escapedBytes c = [b]
      ∧ (c.toUInt8, b) ∈ namedBytes := List.all_iff_forall_prop.1 (by decide)
  obtain ⟨b, -, hb⟩ := hall c hc
  exact ⟨b, hb⟩

/-- Digits behind a backslash are part of a body: the first one is escaped, and the others are
plain. -/
theorem LiteralBody.digits {digits rest : List Char} (hdigits : ∀ c ∈ digits, isOctal c = true)
    (hne : digits ≠ []) (h : LiteralBody rest) : LiteralBody ('\\' :: (digits ++ rest)) := by
  obtain ⟨d, digits, rfl⟩ := List.exists_cons_of_ne_nil hne
  refine .escaped ?_
  replace hdigits := (List.forall_mem_cons.1 hdigits).2
  clear hne
  induction digits with
  | nil => exact h
  | cons c digits ih =>
    obtain ⟨hc, hmore⟩ := List.forall_mem_cons.1 hdigits
    refine .plain (fun hspecial => ?_) (ih hmore)
    have hnone : ∀ c ∈ ['"', '\\', '\n'], isOctal c = false :=
      List.all_iff_forall_prop.1 (by decide)
    rw [hnone c hspecial] at hc
    exact nomatch hc

/-- Behind a plain character the body goes on. -/
theorem LiteralBody.of_cons {c : Char} {cs : List Char} (h : LiteralBody (c :: cs))
    (hc : c ≠ '\\') : LiteralBody cs := by
  cases h with
  | plain _ h => exact h
  | escaped => exact absurd rfl hc

/-- Behind the digits of an escape the body goes on. -/
theorem LiteralBody.of_digits {digits rest : List Char} (hdigits : ∀ c ∈ digits, isOctal c = true)
    (hne : digits ≠ []) (h : LiteralBody ('\\' :: (digits ++ rest))) : LiteralBody rest := by
  obtain ⟨d, digits, rfl⟩ := List.exists_cons_of_ne_nil hne
  have hbody : LiteralBody (digits ++ rest) := by
    cases h with
    | plain hc => exact absurd (by decide) hc
    | escaped h => exact h
  replace hdigits := (List.forall_mem_cons.1 hdigits).2
  clear hne h
  induction digits with
  | nil => exact hbody
  | cons c digits ih =>
    obtain ⟨hc, hmore⟩ := List.forall_mem_cons.1 hdigits
    refine ih (hbody.of_cons ?_) hmore
    rintro rfl
    exact absurd hc (by decide)

theorem lt_of_mem_specialChars {c : Char} (h : c ∈ ['"', '\\', '\n']) : c.toNat < 128 := by
  have hall : ∀ c ∈ ['"', '\\', '\n'], c.toNat < 128 := List.all_iff_forall_prop.1 (by decide)
  exact hall c h

/-- A character of one byte is special if its byte is. -/
theorem mem_specialBytes_iff {c : Char} (hc : c.toNat < 128) :
    c.toUInt8 ∈ specialBytes ↔ c ∈ ['"', '\\', '\n'] := by
  rw [show specialBytes = ['"', '\\', '\n'].map Char.toUInt8 from rfl, List.mem_map]
  constructor
  · rintro ⟨d, hd, hdc⟩
    rwa [← char_eq_of_toUInt8 (lt_of_mem_specialChars hd) hc hdc]
  · exact fun h => ⟨c, h, rfl⟩

/-- No byte of a character that means nothing special means anything special. -/
theorem not_mem_specialBytes {c : Char} (hc : c ∉ ['"', '\\', '\n']) :
    ∀ b ∈ String.utf8EncodeChar c, b ∉ specialBytes := by
  intro b hb hspecial
  by_cases hlt : c.toNat < 128
  · rw [utf8EncodeChar_of_lt hlt, List.mem_singleton] at hb
    exact hc ((mem_specialBytes_iff hlt).1 (hb ▸ hspecial))
  · have hlarge := le_of_mem_utf8EncodeChar (Nat.not_lt.1 hlt) hb
    exact absurd (lt_of_mem_specialBytes hspecial) (Nat.not_lt.2 hlarge)

/-- A character that means nothing special may be written as it is. -/
theorem Encodes.char {c : Char} (h : Encodes top bytes written) (hc : c ∉ ['"', '\\', '\n']) :
    Encodes top (String.utf8EncodeChar c ++ bytes) (String.utf8EncodeChar c ++ written) :=
  h.plains (not_mem_specialBytes hc)

/-- A character behind a backslash that is no digit. -/
theorem Encodes.escape {c : Char} (h : Encodes top bytes written) (hc : isOctal c = false) :
    Encodes top (escapedBytes c ++ bytes)
      ('\\'.toUInt8 :: (String.utf8EncodeChar c ++ written)) := by
  by_cases hnamed : c ∈ namedChars
  · obtain ⟨b, hb, hmem⟩ := escapedBytes_of_mem hnamed
    rw [hb, utf8EncodeChar_of_lt (lt_of_mem_namedChars hnamed)]
    exact .named hmem h
  rw [escapedBytes_of_not_mem hnamed]
  by_cases hlt : c.toNat < 128
  · rw [utf8EncodeChar_of_lt hlt]
    refine .escaped ?_ (fun hmem => hnamed ((mem_namedChars_iff hlt).2 hmem)) h
    rwa [isOctalByte_toUInt8 hlt]
  · -- The backslash takes the first of the bytes, and the others stand as they are.
    obtain ⟨d, ds, hd, hfirst, hmore⟩ := exists_bytes_of_le (Nat.not_lt.1 hlt)
    rw [hd]
    refine .escaped ?_ (fun hmem => ?_) (h.plains fun b hb hspecial => ?_)
    · rw [Bool.eq_false_iff, ne_eq, isOctalByte_iff]
      omega
    · have hall : ∀ b ∈ namedBytes.map (·.1), b.toNat < 128 :=
        List.all_iff_forall_prop.1 (by decide)
      exact absurd (hall d hmem) (Nat.not_lt.2 hfirst)
    · exact absurd (lt_of_mem_specialBytes hspecial) (Nat.not_lt.2 (hmore b hb))

theorem lt_of_isOctal {c : Char} (h : isOctal c = true) : c.toNat < 128 := by
  have hle := (isOctal_iff.1 h).2
  omega

/-- A text of characters of one byte has one byte for each. -/
theorem utf8_of_lt {cs : List Char} (h : ∀ c ∈ cs, c.toNat < 128) :
    utf8 cs = cs.map Char.toUInt8 := by
  induction cs with
  | nil => rfl
  | cons c cs ih =>
    obtain ⟨hc, hmore⟩ := List.forall_mem_cons.1 h
    rw [utf8_cons, utf8EncodeChar_of_lt hc, ih hmore]
    rfl

/-- Digits behind a backslash. -/
theorem Encodes.octalDigits {digits rest : List Char} (h : Encodes 511 bytes (utf8 rest))
    (hdigits : TakesDigits isOctal digits rest) :
    Encodes 511 (octalByte digits :: bytes)
      (String.utf8EncodeChar '\\' ++ utf8 (digits ++ rest)) := by
  have hlt : ∀ c ∈ digits, c.toNat < 128 := fun c hc => lt_of_isOctal (hdigits.isDigit c hc)
  have htakes := (takesDigits_utf8 hlt).2 hdigits
  have hvalue : octalValue (digits.map Char.toUInt8) < 8 ^ 3 := by
    refine Nat.lt_of_lt_of_le (octalValue_lt htakes.isDigit) ?_
    exact Nat.pow_le_pow_right (by decide) htakes.length_le
  rw [utf8_append, utf8_of_lt hlt, utf8EncodeChar_of_lt (by decide), List.singleton_append]
  exact .ofDigits htakes (Nat.le_of_lt_succ hvalue) (toNat_octalByte hlt).symm h

/-- An octal escape takes at least the first digit and at most three. -/
theorem exists_digits_of_isOctal {c : Char} (hc : isOctal c = true) (cs : List Char) :
    ∃ digits rest, c :: cs = digits ++ rest ∧ TakesDigits isOctal digits rest := by
  have hne : PocketCompiler.octalDigits (c :: cs) ≠ [] := by
    rw [PocketCompiler.octalDigits, List.take_succ_cons, List.takeWhile_cons_of_pos hc]
    exact List.cons_ne_nil _ _
  obtain ⟨rest, hrest⟩ := exists_of_octalDigits hne
  exact ⟨_, rest, hrest⟩

/-- **What a literal is decoded to is what it encodes.** -/
theorem LiteralBody.encodes : ∀ {size : Nat} {body : List Char}, body.length ≤ size →
    LiteralBody body → Encodes 511 (unescape body) (utf8 body) := by
  -- The induction is on a bound for the body, since an escape takes several characters.
  intro size
  induction size with
  | zero =>
    intro body hsize _
    obtain rfl := List.eq_nil_of_length_eq_zero (Nat.le_zero.1 hsize)
    exact .nil
  | succ size ih =>
    intro body hsize h
    cases h with
    | nil => exact .nil
    | @plain c cs hc h =>
      have hslash : c ≠ '\\' := fun heq => hc (by rw [heq]; decide)
      rw [unescape_plain hslash, utf8_cons]
      exact (ih (Nat.le_of_succ_le_succ hsize) h).char hc
    | @escaped c cs h =>
      rw [utf8_cons]
      -- An octal escape takes up to three digits, so what is left is shorter by all of them.
      by_cases hoctal : isOctal c = true
      · obtain ⟨digits, rest, heq, hdigits⟩ := exists_digits_of_isOctal hoctal cs
        have hbody : LiteralBody ('\\' :: (digits ++ rest)) := heq ▸ .escaped h
        have hlength := congrArg List.length heq
        have hpos := List.length_pos_of_ne_nil hdigits.ne_nil
        rw [List.length_append, List.length_cons] at hlength
        rw [List.length_cons, List.length_cons] at hsize
        have hrest := ih (by omega) (hbody.of_digits hdigits.isDigit hdigits.ne_nil)
        rw [heq, unescape_octal hdigits]
        exact hrest.octalDigits hdigits
      · have hsize : cs.length ≤ size := by
          rw [List.length_cons, List.length_cons] at hsize
          omega
        rw [unescape_escaped (Bool.eq_false_iff.2 hoctal), utf8_cons]
        exact (ih hsize h).escape (Bool.eq_false_iff.2 hoctal)

/-- An escape in the bytes of a text is one of the text.  It may be longer there, since what stands
behind a backslash may be a character of several bytes. -/
theorem EscapeFor.exists_text {byte : UInt8} {rest escape more : List UInt8} {cs : List Char}
    (h : EscapeFor byte escape more) (hrest : Encodes top rest more)
    (hcs : utf8 cs = escape ++ more) :
    ∃ front back start decoded, cs = front ++ back ∧ byte :: rest = start ++ decoded
      ∧ Encodes top decoded (utf8 back) ∧ (LiteralBody back → LiteralBody ('\\' :: cs))
      ∧ unescape ('\\' :: cs) = start ++ unescape back := by
  cases h with
  | digits hdigits hb =>
    -- Digits are characters of one byte, so the text is split where the bytes are.
    have hlt : ∀ d ∈ escape, d.toNat < 128 := by
      intro d hd
      have hle := (isOctalByte_iff.1 (hdigits.isDigit d hd)).2
      omega
    obtain ⟨front, back, rfl, hfront, rfl, rfl⟩ := exists_of_utf8_eq_append hlt hcs
    have htakes := (takesDigits_utf8 hfront).1 hdigits
    have hbyte : octalByte front = byte := UInt8.toNat_inj.1 ((toNat_octalByte hfront).trans hb)
    refine ⟨front, back, [byte], rest, rfl, rfl, hrest, ?_, ?_⟩
    · exact LiteralBody.digits htakes.isDigit htakes.ne_nil
    · rw [unescape_octal htakes, hbyte]
      rfl
  | @named letter _ hnamed =>
    have hall : ∀ pair ∈ namedBytes, pair.1.toNat < 128 ∧ isOctalByte pair.1 = false :=
      List.all_iff_forall_prop.1 (by decide)
    obtain ⟨hlt, hoctal⟩ := hall _ hnamed
    obtain ⟨c, cs, rfl, hc, rfl, rfl⟩ := exists_of_utf8_eq_cons hcs hlt
    rw [isOctalByte_toUInt8 hc] at hoctal
    obtain ⟨b, hb, hmem⟩ :=
      escapedBytes_of_mem ((mem_namedChars_iff hc).2 (List.mem_map_of_mem hnamed))
    -- A letter is in the table once, so it names one byte.
    have hunique : (namedBytes.map (·.1)).Nodup := by decide
    obtain rfl : byte = b := congrArg Prod.snd (List.inj_on_of_nodup_map hunique hnamed hmem rfl)
    refine ⟨[c], cs, [byte], rest, rfl, rfl, hrest, .escaped, ?_⟩
    rw [unescape_escaped hoctal, hb]
  -- The byte may be the first of a character of several bytes.
  | escaped hoctal hnamed =>
    cases cs with
    | nil => exact nomatch hcs
    | cons c cs =>
      rw [utf8_cons] at hcs
      by_cases hlt : c.toNat < 128
      · rw [utf8EncodeChar_of_lt hlt] at hcs
        obtain ⟨rfl, rfl⟩ := List.cons.inj hcs
        rw [isOctalByte_toUInt8 hlt] at hoctal
        refine ⟨[c], cs, [c.toUInt8], rest, rfl, rfl, hrest, .escaped, ?_⟩
        rw [unescape_escaped hoctal, ← utf8EncodeChar_of_lt hlt,
          escapedBytes_of_not_mem fun hmem => hnamed ((mem_namedChars_iff hlt).1 hmem)]
      · -- The other bytes of the character stand as they are.
        have hle := Nat.not_lt.1 hlt
        obtain ⟨b, tail, hbytes, -, htail⟩ := exists_bytes_of_le hle
        rw [hbytes] at hcs
        obtain ⟨rfl, rfl⟩ := List.cons.inj hcs
        obtain ⟨decoded, rfl, hdecoded⟩ := Encodes.exists_of_append htail hrest
        have hdigit : isOctal c = false := Bool.eq_false_iff.2 fun h => hlt (lt_of_isOctal h)
        refine ⟨[c], cs, b :: tail, decoded, rfl, rfl, hdecoded, .escaped, ?_⟩
        rw [unescape_escaped hdigit, ← hbytes,
          escapedBytes_of_not_mem fun hmem => hlt (lt_of_mem_namedChars hmem)]

/-- **What is encoded is a literal that decodes to it.** -/
theorem Encodes.decodes : ∀ {size : Nat} {body : List Char}, body.length ≤ size →
    ∀ {bytes : List UInt8}, Encodes top bytes (utf8 body) →
      LiteralBody body ∧ unescape body = bytes := by
  -- The induction is on a bound for the body, since an escape takes several characters.
  intro size
  induction size with
  | zero =>
    intro body hsize bytes h
    obtain rfl := List.eq_nil_of_length_eq_zero (Nat.le_zero.1 hsize)
    cases h
    exact ⟨.nil, rfl⟩
  | succ size ih =>
    intro body hsize bytes h
    cases body with
    | nil =>
      cases h
      exact ⟨.nil, rfl⟩
    | cons c cs =>
      have hlength : cs.length ≤ size := Nat.le_of_succ_le_succ hsize
      rw [utf8_cons] at h
      -- A character of several bytes stands as it is; one of a single byte may start an escape.
      by_cases hlt : c.toNat < 128
      swap
      · have hlarge : ∀ b ∈ String.utf8EncodeChar c, 128 ≤ b.toNat :=
          fun b hb => le_of_mem_utf8EncodeChar (Nat.not_lt.1 hlt) hb
        obtain ⟨rest, rfl, hrest⟩ := Encodes.exists_of_append hlarge h
        obtain ⟨hbody, rfl⟩ := ih hlength hrest
        have hc : c ∉ ['"', '\\', '\n'] := fun hmem => hlt (lt_of_mem_specialChars hmem)
        exact ⟨.plain hc hbody, unescape_plain (fun heq => hc (by rw [heq]; decide)) cs⟩
      rw [utf8EncodeChar_of_lt hlt, List.singleton_append] at h
      obtain ⟨byte, rest, rfl, ⟨rfl, hspecial, hrest⟩ | ⟨hslash, escape, more, hcs, hfor, hrest⟩⟩ :=
        h.cons_cases
      · obtain ⟨hbody, rfl⟩ := ih hlength hrest
        have hc : c ∉ ['"', '\\', '\n'] := fun hmem => hspecial ((mem_specialBytes_iff hlt).2 hmem)
        refine ⟨.plain hc hbody, ?_⟩
        rw [unescape_plain (fun heq => hc (by rw [heq]; decide)), utf8EncodeChar_of_lt hlt]
        rfl
      -- A backslash: the escape is split off, and less of the body is left behind it.
      · obtain rfl : c = '\\' := char_eq_of_toUInt8 hlt (by decide) hslash
        obtain ⟨front, back, start, decoded, rfl, heq, hdecoded, hbody, hunescape⟩ :=
          hfor.exists_text hrest hcs
        have hback : back.length ≤ size := by
          rw [List.length_append] at hlength
          omega
        obtain ⟨hliteral, rfl⟩ := ih hback hdecoded
        exact ⟨hbody hliteral, hunescape.trans heq.symm⟩

/-- **Decoding a literal undoes every encoding, and nothing else is a literal.** -/
theorem encodes_utf8_iff {body : List Char} :
    Encodes 511 bytes (utf8 body) ↔ LiteralBody body ∧ unescape body = bytes := by
  constructor
  · exact fun h => h.decodes (Nat.le_refl _)
  · rintro ⟨h, rfl⟩
    exact h.encodes (Nat.le_refl _)

end

end PocketCompiler
