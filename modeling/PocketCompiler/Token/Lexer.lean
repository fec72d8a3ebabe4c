import PocketCompiler.Token.Literal

/-!
# The lexer

A source is cut into *pieces*: blanks, comments and lexemes, one after the other with nothing in
between.  `scan` finds the first piece of a text that is not empty, as long as it can be, and
`piecesFrom` repeats that.  The tokens of a source are its lexemes, followed by the token for its
end (`tokenize`).

`scan` answers with the number of characters of the piece *behind* its first one, so a piece is
never empty and the recursion follows the text.
-/

namespace PocketCompiler

/-! ### Character classes -/

/-- The characters that separate and mean nothing else. -/
def isBlank (c : Char) : Bool := c == ' ' || c == '\t' || c == '\n' || c == '\x0c' || c == '\r'

/-- Whether a character is a decimal digit. -/
def isDigit (c : Char) : Bool := '0' ≤ c && c ≤ '9'

/-- Whether a word can start with the character. -/
def isWordStart (c : Char) : Bool :=
  ('a' ≤ c && c ≤ 'z') || ('A' ≤ c && c ≤ 'Z') || c == '_'

/-- Whether a word can go on with the character. -/
def isWordPart (c : Char) : Bool := isWordStart c || isDigit c

/-- The characters that are punctuators on their own. -/
def punctuators : List Char :=
  ['+', '-', '*', '/', '(', ')', '<', '>', ';', '=', '\x7b', '\x7d', '&', ',', '[', ']']

/-- Whether the two characters are one punctuator.  Two characters win over one. -/
def isPair (c d : Char) : Bool := d == '=' && (c == '=' || c == '!' || c == '<' || c == '>')

/-! ### Pieces -/

/-- What a stretch of a source is. -/
inductive PieceKind where
  | blank
  | comment
  | lexeme (kind : TokenKind)
deriving DecidableEq, Repr

/-- A stretch of a source: what it is, the byte it starts at, and its characters. -/
structure Piece where
  kind : PieceKind
  loc : Nat
  text : List Char
deriving DecidableEq, Repr

/-- The token of a piece, if it is a lexeme. -/
def Piece.token? (piece : Piece) : Option Token :=
  match piece.kind with
  | .lexeme kind => some ⟨kind, piece.loc, String.ofList piece.text⟩
  | _ => none

/-- The number of characters up to and including the first `*/`. -/
def commentEnd? : List Char → Option Nat
  | [] => none
  | '*' :: '/' :: _ => some 2
  | _ :: cs => (commentEnd? cs).map (· + 1)

/-- The number that decimal digits stand for. -/
def decimal (digits : List Char) : Nat :=
  digits.foldl (fun value d => value * 10 + digitValue d) 0

/-- How many characters at the start of a text are of one class. -/
def runLength (p : Char → Bool) (cs : List Char) : Nat := (cs.takeWhile p).length

/-- The kind of a word. -/
def wordKind (word : List Char) : TokenKind :=
  if String.ofList word ∈ keywords then .keyword else .identifier

/-- The kind of a run of digits, if the number is a signed 64-bit word. -/
def numberKind (digits : List Char) : Except Complaint TokenKind :=
  let value := decimal digits
  if (value : Int) ≤ Word.greatest then .ok (.number (some (Int64.ofNat value)))
  else .error .numberTooLarge

/-- The kind of a literal with this body: its bytes have a zero byte at their end, and their
number is the length of its type. -/
def literalKind (body : List Char) : TokenKind :=
  let bytes := unescape body ++ [0]
  .string (some bytes) (some (.array .char bytes.length))

/-- The first piece of the text `c :: cs`: what it is, and how many characters of `cs` belong to
it. -/
def scan (c : Char) (cs : List Char) : Except Complaint (PieceKind × Nat) :=
  if isBlank c then .ok (.blank, 0)
  else if c == '/' && cs.head? == some '/' then .ok (.comment, runLength inLine cs)
  else if c == '/' && cs.head? == some '*' then
    match commentEnd? cs.tail with
    | some length => .ok (.comment, length + 1)
    | none => .error .unclosedComment
  else if isDigit c then do
    let length := runLength isDigit cs
    let kind ← numberKind (c :: cs.take length)
    return (.lexeme kind, length)
  else if c == '"' then
    match literalBody? cs with
    | some body => .ok (.lexeme (literalKind body), body.length + 1)
    | none => .error .unclosedString
  else if isWordStart c then
    let length := runLength isWordPart cs
    .ok (.lexeme (wordKind (c :: cs.take length)), length)
  -- Two characters are looked at before one, so `<=` is not `<` and `=`.
  else if cs.head?.any (isPair c) then .ok (.lexeme .punctuator, 1)
  else if c ∈ punctuators then .ok (.lexeme .punctuator, 0)
  else .error (.strayCharacter c)

/-! ### The whole text -/

/-- The pieces of a text from byte `loc` on, after its first `skip` characters, which belong to
the piece before them.  A complaint is about the place where its piece starts. -/
def piecesFrom : (skip loc : Nat) → List Char → Except Failure (List Piece)
  | _, _, [] => .ok []
  | skip + 1, loc, c :: cs => piecesFrom skip (loc + c.utf8Size) cs
  | 0, loc, c :: cs =>
    match scan c cs with
    | .error cause => .error (.complaint loc cause)
    | .ok (kind, length) => do
      let rest ← piecesFrom length (loc + c.utf8Size) cs
      return ⟨kind, loc, c :: cs.take length⟩ :: rest

/-- The pieces of a source, in order. -/
def Source.pieces (source : Source) : Except Failure (List Piece) :=
  piecesFrom 0 0 source.text.toList

/-- The tokens of a source: its lexemes in order, and then its end. -/
def Source.tokenize (source : Source) : Except Failure (List Token) := do
  let pieces ← source.pieces
  return pieces.filterMap Piece.token? ++ [Token.atEnd source]

/-- The characters that the piece before them has used up are not read again. -/
theorem piecesFrom_eq_drop (skip loc : Nat) (cs : List Char) :
    piecesFrom skip loc cs = piecesFrom 0 (loc + byteLength (cs.take skip)) (cs.drop skip) := by
  induction skip generalizing loc cs with
  | zero => simp [byteLength]
  | succ skip ih =>
    cases cs with
    | nil => simp [piecesFrom]
    | cons c cs =>
      rw [piecesFrom, ih]
      simp [byteLength, Nat.add_assoc]

end PocketCompiler
