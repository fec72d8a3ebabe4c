import PocketCompiler.Grammar.Declarator
import PocketCompiler.Grammar.Expr

/-!
# Statements

```
stmt        = "return" expr ";"
            | "if" expr stmt ("else" stmt)?
            | "for" head stmt
            | block
            | expr? ";"
head        = (expr? (";" expr? ";" expr?)?)?
block       = "{" (declaration | stmt)* "}"
declaration = "var" names type ("=" expr ("," expr)*)? ";"
```

A loop's head is empty exactly when a block follows at once, and a head of one expression is the
condition of the loop.  As with expressions, a rule takes the reader for the statements inside it
as an argument, and `stmtWithin` ties the knot.
-/

namespace PocketCompiler.Parse

/-! ### Declarations -/

/-- Reads the initial values of a declaration of `count` names and its closing semicolon.  Either
there are as many values as names, or none. -/
def initializers (count : Nat) : Parse (List Node) := do
  if ← accept "=" then
    let loc ← here
    let values ← separated expr
    if values.length = count then
      expect ";"
      return values
    else
      complainAt loc (.initializerCount count values.length)
  else
    expect ";"
    return []

/-- The statement that gives a local its initial value. -/
def initialized (index loc : Nat) (value : Node) : Node :=
  .exprStmt ⟨value.loc, none⟩
    (.assign ⟨value.loc, none⟩ (.var ⟨loc, none⟩ (.localVar index)) value)

/-- Declares locals of type `ty`, and gives the statements that initialize them. -/
def declareLocals (ty : Ty) : List DeclaredName → List Node → Parse (List Node)
  | [], _ => return []
  | declared :: names, values => do
    let index ← addLocal declared.name (declared.ty ty)
    let more ← declareLocals ty names values.tail
    match values with
    | [] => return more
    | value :: _ => return initialized index declared.loc value :: more

/-- Reads a declaration behind its `var` at byte `loc`.  The names become visible only behind it,
so the initial values mean what their names meant before. -/
def declaration (loc : Nat) : Parse Node := do
  let names ← declaredNames
  let ty ← type
  let values ← initializers names.length
  let body ← declareLocals ty names values
  return .block ⟨loc, none⟩ body

/-! ### Blocks -/

/-- Reads the next item of a block and types it; none at the end of the block. -/
def item? (inner : Parse Node) : Parse (Option Node) := do
  if ← accept "\x7d" then
    return none
  else
    let loc ← here
    let node ← if ← accept "var" then declaration loc else inner
    return some (← typed node)

/-- Reads a block behind its opening brace at byte `loc`. -/
def block (inner : Parse Node) (loc : Nat) : Parse Node := do
  let body ← inScope (collect (item? inner))
  return .block ⟨loc, none⟩ body

/-! ### Loops -/

/-- The head of a loop. -/
structure LoopHead where
  init : Option Node := none
  cond : Option Node := none
  step : Option Node := none

/-- Reads an expression, unless the punctuator `text` comes next. -/
def exprUnless (text : String) : Parse (Option Node) := do
  if ← check text then
    return none
  else
    return some (← expr)

/-- Reads the head of a loop. -/
def loopHead : Parse LoopHead := do
  if ← check "\x7b" then
    return {}
  else
    let first ← exprUnless ";"
    if ← accept ";" then
      let cond ← exprUnless ";"
      expect ";"
      let step ← exprUnless "\x7b"
      return { init := first, cond, step }
    else
      -- No semicolon: the only expression is the condition.
      return { cond := first }

/-! ### Statements -/

/-- Reads a statement that is an expression, or empty. -/
def exprStatement : Parse Node := do
  let loc ← here
  if ← accept ";" then
    return .block ⟨loc, none⟩ []
  else
    let value ← expr
    expect ";"
    return .exprStmt ⟨loc, none⟩ value

/-- Reads a statement. -/
def statement (inner : Parse Node) : Parse Node := do
  let loc ← here
  if ← accept "return" then
    let value ← expr
    expect ";"
    return .ret ⟨loc, none⟩ value
  else if ← accept "if" then
    let cond ← expr
    let onTrue ← inner
    if ← accept "else" then
      let onFalse ← inner
      return .ifElse ⟨loc, none⟩ cond onTrue (some onFalse)
    else
      return .ifElse ⟨loc, none⟩ cond onTrue none
  else if ← accept "for" then
    let head ← loopHead
    let body ← inner
    return .loop ⟨loc, none⟩ head.init head.cond head.step body
  else if ← accept "\x7b" then
    block inner loc
  else
    exprStatement

/-- Reads a statement with at most `depth` statements inside one another. -/
def stmtWithin : (depth : Nat) → Parse Node
  | 0 => unexpected .expression
  | depth + 1 => statement (stmtWithin depth)

/-- Reads a statement. -/
def stmt : Parse Node := do stmtWithin ((← remaining) + 1)

end PocketCompiler.Parse
