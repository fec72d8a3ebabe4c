import PocketCompiler.Complaint
import PocketCompiler.Ty

/-!
# Tokens

A token is a lexeme with its place and its text.  Numbers and string literals carry what they
stand for.  A token keeps its text, so that whoever reads a list of tokens needs the source for
nothing but the place where it ends.
-/

namespace PocketCompiler

/-- The kinds of tokens.  A number may lack its value, and a literal its bytes or its type, when
a token was put together by hand; the lexer gives all of them. -/
inductive TokenKind where
  | punctuator
  | identifier
  | keyword
  | number (value : Option Int64)
  /-- The decoded bytes, the final zero byte included. -/
  | string (bytes : Option (List UInt8)) (ty : Option Ty)
  /-- The end of the source. -/
  | eof
deriving DecidableEq, Repr

/-- A lexeme, the byte it starts at, and its text. -/
structure Token where
  kind : TokenKind
  loc : Nat
  text : String
deriving DecidableEq, Repr

namespace Token

/-- The number of bytes of a token. -/
def length (token : Token) : Nat := token.text.utf8ByteSize

/-- How a complaint names what it found: the end of the source has a name of its own. -/
def describe (token : Token) : String :=
  match token.kind with
  | .eof => "EOF"
  | _ => token.text

/-- How a complaint names the token it found, if it found one. -/
def describe? : Option Token → String
  | some token => token.describe
  | none => "EOF"

/-- Whether the token is the punctuator or keyword `text`. -/
def reads (token : Token) (text : String) : Bool :=
  match token.kind with
  | .punctuator | .keyword => token.text == text
  | _ => false

/-- The token that ends a source. -/
def atEnd (source : Source) : Token := ⟨.eof, source.byteSize, ""⟩

end Token

/-- The words with a meaning of their own. -/
def keywords : List String := ["return", "if", "else", "for", "int", "char", "var", "func"]

end PocketCompiler
