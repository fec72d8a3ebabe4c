import PocketCompiler.Grammar.Unit
import PocketCompiler.Lower.Program
import PocketCompiler.Token.Lexer

/-!
# Compiling

From a source to the assembly of the program that it holds.  `events` is what there is to tell of
a compilation, step by step, up to the step that fails.
-/

namespace PocketCompiler

/-- The program that a source holds. -/
def Source.program (source : Source) : Except Failure Program := do
  let tokens ← source.tokenize
  parse source tokens

/-- The assembly of the program that a source holds. -/
def Source.compile (source : Source) : Except Failure Listing := do
  let program ← source.program
  orFault program.lower

/-- The full text of a failure: a complaint is shown with its place. -/
def Source.explain (source : Source) : Failure → String
  | .complaint loc cause => (source.reportAt loc cause.message).render
  | .fault cause => cause.message

/-! ### Events -/

/-- A step of a compilation. -/
inductive Event where
  /-- The source called `name` has been cut into `count` tokens. -/
  | tokenized (name : String) (count : Nat)
  /-- A function has been read. -/
  | functionRead (name : String) (params locals : Nat)
  /-- All of the program has been read. -/
  | programRead (functions globals : Nat)
  /-- The frame of the function called `name` has been laid out. -/
  | frameLaidOut (name : String) (size : Int)
  /-- The assembly has been written. -/
  | assembled (bytes : Nat)
deriving DecidableEq, Repr

/-- How closely one has to look to be told of an event. -/
inductive Detail where
  | debug
  | trace
deriving DecidableEq, Repr

/-- How closely one has to look to be told of an event. -/
def Event.detail : Event → Detail
  | .tokenized _ _ => .trace
  | _ => .debug

/-- The text of an event. -/
def Event.message : Event → String
  | .tokenized name count => name ++ ": " ++ toString count ++ " tokens"
  | .functionRead name params locals =>
    "parsed function " ++ name ++ ": " ++ toString params ++ " params, " ++ toString locals
      ++ " locals"
  | .programRead functions globals =>
    "parsed " ++ toString functions ++ " functions and " ++ toString globals ++ " globals"
  | .frameLaidOut name size => "frame of " ++ name ++ ": " ++ decimalText size ++ " bytes"
  | .assembled bytes => "emitted " ++ toString bytes ++ " bytes of assembly"

/-- The event that a function has been read. -/
def Function.readEvent (function : Function) : Event :=
  .functionRead function.name function.params.length function.locals.length

/-- The events of laying out frames, up to the first that cannot be laid out. -/
def frameEvents : List Function → List Event
  | [] => []
  | function :: more =>
    match function.frame with
    | .ok frame => .frameLaidOut function.name frame.size :: frameEvents more
    | .error _ => []

/-- The events of making the assembly of a program. -/
def Program.events (program : Program) : List Event :=
  frameEvents program.functions ++
    match program.lower with
    | .ok listing => [.assembled listing.text.utf8ByteSize]
    | .error _ => []

/-- The events of a compilation, up to its end or its failure. -/
def Source.events (source : Source) : List Event :=
  match source.tokenize with
  | .error _ => []
  | .ok tokens =>
    let (program, failure) := readUnits source tokens
    .tokenized source.name tokens.length :: program.functions.map Function.readEvent ++
      match failure with
      | none =>
        .programRead program.functions.length program.globals.length :: program.events
      | some _ => []

end PocketCompiler
