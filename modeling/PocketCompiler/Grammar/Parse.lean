import PocketCompiler.Scope
import PocketCompiler.Symbol
import PocketCompiler.Token
import PocketCompiler.Typing

/-!
# Reading tokens

The grammar is read from left to right with one token of lookahead.  `Parse` is a computation that
reads tokens and keeps the tables of what has been declared; it stops at the first failure.  This
module has the state, the ways to look at the current token and to move past it, and the two ways
to repeat: `collect` for lists and `extend` for chains.

A repetition is bounded by the number of tokens that are left.  Every round of one moves past at
least one token, so the bound is never what ends it; it only makes the recursion structural.
-/

namespace PocketCompiler

/-- What a reader of tokens knows. -/
structure ParseState where
  /-- The tokens that are left, the current one first. -/
  rest : List Token
  /-- The place where the source ends. -/
  stop : Nat
  /-- The names that are visible. -/
  scopes : Scopes := [[]]
  /-- The locals of the function at hand, in the order of their declarations. -/
  locals : List Variable := []
  /-- The globals so far, string literals included. -/
  globals : List Variable := []
  /-- The functions so far. -/
  functions : List Function := []
  /-- The number of string literals so far. -/
  literals : Nat := 0

namespace ParseState

/-- The current token. -/
def current? (s : ParseState) : Option Token := s.rest.head?

/-- The place of the current token, or of the end of the source. -/
def loc (s : ParseState) : Nat :=
  match s.current? with
  | some token => token.loc
  | none => s.stop

/-- Whether all tokens have been read.  Nothing behind the token for the end is looked at. -/
def atEnd (s : ParseState) : Bool :=
  match s.current? with
  | some token => token.kind == .eof
  | none => true

/-- Moves past the current token. -/
def advance (s : ParseState) : ParseState := { s with rest := s.rest.tail }

/-- Opens a block. -/
def enterScope (s : ParseState) : ParseState := { s with scopes := s.scopes.enter }

/-- Closes the innermost block. -/
def leaveScope (s : ParseState) : ParseState := { s with scopes := s.scopes.leave }

/-- Declares a local behind those there are. -/
def addLocal (s : ParseState) (added : Variable) : ParseState :=
  { s with
    locals := s.locals ++ [added]
    scopes := s.scopes.bind added.name (.localVar s.locals.length) }

/-- Declares a global behind those there are. -/
def addGlobal (s : ParseState) (added : Variable) : ParseState :=
  { s with
    globals := s.globals ++ [added]
    scopes := s.scopes.bind added.name (.globalVar s.globals.length) }

/-- The global that holds the next string literal. -/
def nextLiteral (s : ParseState) (bytes : List UInt8) (ty : Ty) : Variable :=
  { name := Symbol.ofLiteral s.literals, ty, contents := some (.bytes bytes) }

/-- Adds the global that holds a string literal.  It has no name that could be visible. -/
def addLiteral (s : ParseState) (bytes : List UInt8) (ty : Ty) : ParseState :=
  { s with
    globals := s.globals ++ [s.nextLiteral bytes ty]
    literals := s.literals + 1 }

/-- The program that has been read. -/
def program (s : ParseState) : Program := ⟨s.globals, s.functions⟩

end ParseState

/-- A computation that reads tokens. -/
abbrev Parse := StateT ParseState (Except Failure)

namespace Parse

/-! ### The current token -/

/-- The place of the current token. -/
def here : Parse Nat := return (← get).loc

/-- The number of tokens that are left. -/
def remaining : Parse Nat := return (← get).rest.length

/-- Stops with a complaint about a place. -/
def complainAt (loc : Nat) (cause : Complaint) : Parse α := throw (.complaint loc cause)

/-- Stops with the complaint that the current token is not what the grammar wants. -/
def unexpected (wanted : Expected) : Parse α := do
  let s ← get
  complainAt s.loc (.unexpected wanted (Token.describe? s.current?))

/-- Whether the current token is the punctuator or keyword `text`. -/
def check (text : String) : Parse Bool :=
  return (← get).current?.any (·.reads text)

/-- Moves past the current token if it is the punctuator or keyword `text`, and says whether it
was. -/
def accept (text : String) : Parse Bool := do
  if ← check text then
    modify ParseState.advance
    return true
  else
    return false

/-- Moves past the punctuator or keyword `text`, which has to come next. -/
def expect (text : String) : Parse Unit := do
  if ← accept text then
    return
  else
    unexpected (.lexeme text)

/-- Moves past the current token if it is a punctuator of the table, and gives what the table says
of it. -/
def operator (table : List (String × α)) : Parse (Option α) := do
  match (← get).current? with
  | some ⟨.punctuator, _, text⟩ =>
    match table.lookup text with
    | some a =>
      modify ParseState.advance
      return some a
    | none => return none
  | _ => return none

/-- Reads an identifier: its text and its place. -/
def identifier : Parse (String × Nat) := do
  match (← get).current? with
  | some ⟨.identifier, loc, text⟩ =>
    modify ParseState.advance
    return (text, loc)
  | _ => unexpected .identifier

/-- Reads a number: its value and its place. -/
def number : Parse (Int64 × Nat) := do
  match (← get).current? with
  | some ⟨.number (some value), loc, _⟩ =>
    modify ParseState.advance
    return (value, loc)
  | some ⟨.number none, loc, _⟩ => complainAt loc .numberWithoutValue
  | _ => unexpected .number

/-- Reads a string literal: its bytes and its type. -/
def literal : Parse (List UInt8 × Ty) := do
  match (← get).current? with
  | some ⟨.string (some bytes) (some ty), _, _⟩ =>
    modify ParseState.advance
    return (bytes, ty)
  | _ => unexpected .stringLiteral

/-! ### Repetition -/

/-- Reads items until there is none, but at most `bound` of them. -/
def collectWithin (item : Parse (Option α)) : (bound : Nat) → Parse (List α)
  | 0 => return []
  | bound + 1 => do
    match ← item with
    | none => return []
    | some a =>
      let more ← collectWithin item bound
      return a :: more

/-- Reads items until there is none. -/
def collect (item : Parse (Option α)) : Parse (List α) := do
  collectWithin item ((← remaining) + 1)

/-- Makes something longer until it cannot be made longer, but at most `bound` times. -/
def extendWithin (longer : α → Parse (Option α)) : (bound : Nat) → α → Parse α
  | 0, a => return a
  | bound + 1, a => do
    match ← longer a with
    | none => return a
    | some b => extendWithin longer bound b

/-- Makes something longer until it cannot be made longer. -/
def extend (longer : α → Parse (Option α)) (a : α) : Parse α := do
  extendWithin longer ((← remaining) + 1) a

/-- One item, and one more behind every comma that follows. -/
def separated (item : Parse α) : Parse (List α) := do
  let first ← item
  let more ← collect do
    if ← accept "," then
      return some (← item)
    else
      return none
  return first :: more

/-! ### Declarations in force -/

/-- Gives the expressions of a tree their types, by the declarations in force. -/
def typed (node : Node) : Parse Node := do
  let s ← get
  annotate ⟨s.locals, s.globals⟩ node

/-- Reads `inner` as a block of its own. -/
def inScope (inner : Parse α) : Parse α := do
  modify ParseState.enterScope
  let a ← inner
  modify ParseState.leaveScope
  return a

/-- Declares a local, and gives its index. -/
def addLocal (name : String) (ty : Ty) : Parse Nat := do
  let index := (← get).locals.length
  modify (·.addLocal { name, ty })
  return index

/-- Adds the global that holds a string literal, and gives its index. -/
def addLiteral (bytes : List UInt8) (ty : Ty) : Parse Nat := do
  let index := (← get).globals.length
  modify (·.addLiteral bytes ty)
  return index

end PocketCompiler.Parse
