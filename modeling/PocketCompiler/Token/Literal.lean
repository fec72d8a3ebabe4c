import PocketCompiler.Token

/-!
# String literals

A literal runs from its opening quote to the first quote that no backslash escapes, and may not
hold a newline that no backslash escapes.  Since an octal digit is neither a quote, a backslash
nor a newline, the extent of a literal is found without decoding it (`literalBody?`), and decoding
works on the body alone (`unescape`).
-/

namespace PocketCompiler

/-- The characters between the quotes, given what follows the opening quote; none if the literal
is not closed. -/
def literalBody? : List Char → Option (List Char)
  | [] => none
  | '"' :: _ => some []
  | '\n' :: _ => none
  | ['\\'] => none
  | '\\' :: c :: cs => (literalBody? cs).map fun body => '\\' :: c :: body
  | c :: cs => (literalBody? cs).map (c :: ·)

/-- Whether a character is a digit of base eight. -/
def isOctal (c : Char) : Bool := '0' ≤ c && c ≤ '7'

/-- The value of a digit. -/
def digitValue (c : Char) : Nat := c.toNat - '0'.toNat

/-- The octal digits that an escape takes from the characters behind its backslash: as many as
there are, up to three. -/
def octalDigits (cs : List Char) : List Char := (cs.take 3).takeWhile isOctal

/-- The byte that octal digits stand for: their value modulo 256. -/
def octalByte (digits : List Char) : UInt8 :=
  UInt8.ofNat (digits.foldl (fun value d => value * 8 + digitValue d) 0)

/-- The bytes of a character behind a backslash that is no octal digit.  Eight letters name
control characters, and any other character stands for itself. -/
def escapedBytes : Char → List UInt8
  | 'a' => [7]
  | 'b' => [8]
  | 't' => [9]
  | 'n' => [10]
  | 'v' => [11]
  | 'f' => [12]
  | 'r' => [13]
  | 'e' => [27]
  | c => String.utf8EncodeChar c

/-- The bytes that a literal's body stands for, after its first `skip` characters, which an
escape before them has used up. -/
def unescapeFrom : (skip : Nat) → List Char → List UInt8
  | _, [] => []
  | skip + 1, _ :: cs => unescapeFrom skip cs
  | 0, c :: cs =>
    if c = '\\' then
      match octalDigits cs, cs with
      | [], [] => []
      | [], d :: _ => escapedBytes d ++ unescapeFrom 1 cs
      | d :: digits, _ => octalByte (d :: digits) :: unescapeFrom (digits.length + 1) cs
    else String.utf8EncodeChar c ++ unescapeFrom 0 cs

/-- The bytes that a literal's body stands for. -/
def unescape (body : List Char) : List UInt8 := unescapeFrom 0 body

/-- The characters that an escape has used up are not read again. -/
theorem unescapeFrom_eq_unescape_drop (skip : Nat) (cs : List Char) :
    unescapeFrom skip cs = unescape (cs.drop skip) := by
  induction skip generalizing cs with
  | zero => rfl
  | succ skip ih =>
    cases cs with
    | nil => simp [unescape, unescapeFrom]
    | cons c cs => simpa [unescapeFrom] using ih cs

end PocketCompiler
