import PocketCompiler.Constant
import PocketCompiler.Grammar.Stmt

/-!
# Programs, from their tokens

```
program  = (function | global)*
function = "func" identifier "(" (param ("," param)*)? ")" type block
param    = identifier type
global   = "var" names type ("=" expr ("," expr)*)? ";"
```

`readUnits` gives the program that was read and, if reading stopped early, the failure: what was
declared before a mistake is known as well as the mistake.
-/

namespace PocketCompiler

namespace Parse

/-! ### Names of globals and functions -/

/-- Whether a global or function of that name has been declared.  The labels of string literals
are not declared names. -/
def isDeclared (s : ParseState) (name : String) : Bool :=
  s.globals.any (fun g => g.name == name && !Symbol.isLiteral g.name)
    || s.functions.any (·.name == name)

/-- Stops if a global or function must not have that name. -/
def checkSymbol (name : String) (loc : Nat) : Parse Unit := do
  if name ∈ Symbol.reserved then
    complainAt loc (.reservedName name)
  else if isDeclared (← get) name then
    complainAt loc (.redefined name)
  else
    return

/-- Stops if a function must not have that name. -/
def checkFunction (name : String) (loc : Nat) : Parse Unit := do
  if (← get).functions.any (·.name == name) then
    complainAt loc (.functionRedefined name)
  else
    checkSymbol name loc

/-! ### Functions -/

/-- Reads the parameters of a function behind its opening parenthesis, of which there is at least
one, when there may be `room` more.  An array parameter is the address of an array. -/
def parameters : (room : Nat) → Parse (List (Nat × Ty))
  | 0 => do complainAt (← here) .tooManyParameters
  | room + 1 => do
    let (name, _) ← identifier
    let ty := (← type).decay
    let index ← addLocal name ty
    if ← accept ")" then
      return [(index, ty)]
    else
      expect ","
      let more ← parameters room
      return (index, ty) :: more

/-- The sum of two sizes, if it is a word. -/
def addSize? (total size : Int) : Option Int :=
  if Word.Fits (total + size) then some (total + size) else none

/-- The sum of the sizes of some locals, if it is a word and so is every sum on the way. -/
def frameBytes? (locals : List Variable) : Option Int :=
  locals.foldlM (fun total v => addSize? total v.ty.size) 0

/-- Reads a function behind its `func`.  The parameters have a scope of their own around that of
the body. -/
def function : Parse Unit := do
  let (name, loc) ← identifier
  checkFunction name loc
  -- The locals of the function before are its own.
  modify fun s => { s with locals := [] }
  let (params, result, body) ← inScope do
    expect "("
    let params ← if ← accept ")" then pure [] else parameters maxArguments
    let result ← type
    let start ← here
    expect "\x7b"
    let body ← block stmt start
    return (params, result, body)
  let locals := (← get).locals
  if (frameBytes? locals).any (· ≤ maxObjectSize) then
    let ty := .func result (params.map (·.2))
    let read : Function := { name, ty, params := params.map (·.1), locals, body }
    modify fun s => { s with locals := [], functions := s.functions ++ [read] }
  else
    complainAt loc (.frameTooLarge name)

/-! ### Globals -/

/-- Declares globals of type `ty` with their initial values. -/
def declareGlobals (ty : Ty) : List DeclaredName → List Node → Parse Unit
  | [], _ => return
  | declared :: names, values => do
    -- The names are checked one by one, so a name that comes twice is found at its second place.
    checkSymbol declared.name declared.loc
    let ownTy := declared.ty ty
    let contents ← match values with
      | [] => pure none
      | value :: _ => do
        let contents ← contentsFor (← get).globals value ownTy
        pure (some contents)
    modify (·.addGlobal { name := declared.name, ty := ownTy, contents })
    declareGlobals ty names values.tail

/-- Reads a declaration of globals behind its `var`. -/
def global : Parse Unit := do
  let names ← declaredNames
  let ty ← type
  let values ← initializers names.length
  declareGlobals ty names values

/-- Reads a declaration of a function or of globals. -/
def topLevel : Parse Unit := do
  if ← accept "func" then
    function
  else if ← accept "var" then
    global
  else
    unexpected .topLevel

end Parse

/-! ### Whole programs -/

/-- Reads at most `bound` declarations. -/
def readUnitsWithin : (bound : Nat) → ParseState → Program × Option Failure
  | 0, s => (s.program, none)
  | bound + 1, s =>
    if s.atEnd then (s.program, none)
    else
      match Parse.topLevel.run s with
      | .ok ((), next) => readUnitsWithin bound next
      | .error failure => (s.program, some failure)

/-- Reads declarations to the end: the program that they make up, and the failure that stopped
the reading, if one did. -/
def readUnits (source : Source) (tokens : List Token) : Program × Option Failure :=
  readUnitsWithin (tokens.length + 1) { rest := tokens, stop := source.byteSize }

/-- The program that the tokens of a source make up. -/
def parse (source : Source) (tokens : List Token) : Except Failure Program :=
  match readUnits source tokens with
  | (program, none) => .ok program
  | (_, some failure) => .error failure

end PocketCompiler
