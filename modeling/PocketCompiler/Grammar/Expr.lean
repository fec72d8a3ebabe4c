import PocketCompiler.Grammar.Parse
import PocketCompiler.Limit

/-!
# Expressions

```
expr       = equality ("=" expr)?
equality   = relational (("==" | "!=") relational)*
relational = sum (("<" | "<=" | ">" | ">=") sum)*
sum        = product (("+" | "-") product)*
product    = unary (("*" | "/") unary)*
unary      = ("+" | "-" | "&" | "*")* postfix
postfix    = primary ("[" expr "]")*
primary    = "(" expr ")" | identifier | call | string | number
call       = identifier "(" (expr ("," expr)*)? ")"
```

Each rule takes the reader for the expressions inside it as an argument, so that no rule refers
to itself, and `exprWithin` ties the knot.  An expression inside another one comes after at least
one token of the outer one, so the depth of expressions is bounded by the number of tokens left.

A sum or difference of a pointer and a number counts in elements, so the number is multiplied by
the size of an element.  The operands of a sum are typed as soon as it is built, to see which of
them is the pointer.
-/

namespace PocketCompiler

/-! ### Sums and differences -/

/-- The size of what an expression points to, if it is a pointer or an array. -/
def Node.elementSize? (node : Node) : Option Int := do
  let ty ← node.ty
  let base ← ty.base?
  return base.size

/-- `pointer op number`, where `number` counts elements of `size` bytes. -/
def Node.scaled (op : BinaryOp) (pointer number : Node) (size : Int) (loc : Nat) : Node :=
  let width := .num ⟨number.loc, none⟩ (Int64.ofInt size)
  .binary ⟨loc, none⟩ op pointer (.binary ⟨loc, none⟩ .mul number width)

/-- The sum of two expressions with types.  The pointer becomes the left operand. -/
def Node.sum (lhs rhs : Node) (loc : Nat) : Except Failure Node :=
  match lhs.elementSize?, rhs.elementSize? with
  | none, none => .ok (.binary ⟨loc, none⟩ .add lhs rhs)
  | some size, none => .ok (Node.scaled .add lhs rhs size loc)
  | none, some size => .ok (Node.scaled .add rhs lhs size loc)
  | some _, some _ => .error (.complaint loc .invalidOperands)

/-- The difference of two expressions with types.  Only a number can be taken away. -/
def Node.difference (lhs rhs : Node) (loc : Nat) : Except Failure Node :=
  match lhs.elementSize?, rhs.elementSize? with
  | none, none => .ok (.binary ⟨loc, none⟩ .sub lhs rhs)
  | some size, none => .ok (Node.scaled .sub lhs rhs size loc)
  | _, some _ => .error (.complaint loc .invalidOperands)

/-! ### Signs -/

/-- The operators that stand in front of their operand. -/
inductive Sign where
  | plus
  | minus
  | address
  | pointee
deriving DecidableEq, Repr

/-- A sign at byte `loc` with its operand.  A plus leaves no trace. -/
def Sign.apply (sign : Sign) (loc : Nat) (operand : Node) : Node :=
  match sign with
  | .plus => operand
  | .minus => .neg ⟨loc, none⟩ operand
  | .address => .addr ⟨loc, none⟩ operand
  | .pointee => .deref ⟨loc, none⟩ operand

namespace Parse

/-- Types both operands and combines them. -/
def combined (combine : Node → Node → Nat → Except Failure Node) (lhs rhs : Node) (loc : Nat) :
    Parse Node := do
  let lhs ← typed lhs
  let rhs ← typed rhs
  combine lhs rhs loc

/-! ### Primary expressions -/

/-- Reads the arguments of a call behind its opening parenthesis, of which there is at least one,
when `room` more can be passed. -/
def arguments (inner : Parse Node) : (room : Nat) → Parse (List Node)
  | 0 => do complainAt (← here) .tooManyArguments
  | room + 1 => do
    let argument ← inner
    if ← accept ")" then
      return [argument]
    else
      expect ","
      let more ← arguments inner room
      return argument :: more

/-- Reads a call behind the name of the function and the opening parenthesis. -/
def call (inner : Parse Node) (name : String) (loc : Nat) : Parse Node := do
  if name ∈ Symbol.reserved then
    complainAt loc (.reservedName name)
  else if ← accept ")" then
    return .call ⟨loc, none⟩ name []
  else
    let args ← arguments inner maxArguments
    return .call ⟨loc, none⟩ name args

/-- The use of a name at byte `loc`. -/
def useOf (name : String) (loc : Nat) : Parse Node := do
  match (← get).scopes.find? name with
  | some ref => return .var ⟨loc, none⟩ ref
  | none => complainAt loc (.undefinedVariable name)

/-- Reads an expression that no operator is part of. -/
def primary (inner : Parse Node) : Parse Node := do
  let start ← here
  if ← accept "(" then
    let node ← inner
    expect ")"
    return node
  else
    match (← get).current?.map Token.kind with
    | some .identifier =>
      let (name, loc) ← identifier
      if ← accept "(" then
        call inner name loc
      else
        useOf name loc
    | some (.string _ _) =>
      let (bytes, ty) ← literal
      let index ← addLiteral bytes ty
      return .var ⟨start, none⟩ (.globalVar index)
    | some (.number _) =>
      let (value, loc) ← number
      return .num ⟨loc, none⟩ value
    | _ => unexpected .expression

/-! ### Operators, from the ones that bind most to the ones that bind least -/

/-- Reads a subscript behind `node`, if there is one: the element of that index. -/
def subscript? (inner : Parse Node) (node : Node) : Parse (Option Node) := do
  let loc ← here
  if ← accept "[" then
    let index ← inner
    expect "]"
    let place ← combined Node.sum node index loc
    return some (.deref ⟨loc, none⟩ place)
  else
    return none

/-- Reads a primary expression and the subscripts behind it. -/
def postfixed (inner : Parse Node) : Parse Node := do
  let node ← primary inner
  extend (subscript? inner) node

/-- Reads a sign and gives its place, if there is one. -/
def sign? : Parse (Option (Sign × Nat)) := do
  let loc ← here
  if ← accept "+" then
    return some (.plus, loc)
  else if ← accept "-" then
    return some (.minus, loc)
  else if ← accept "&" then
    return some (.address, loc)
  else if ← accept "*" then
    return some (.pointee, loc)
  else
    return none

/-- Reads an operand and the signs in front of it; the one next to it is applied first. -/
def unary (inner : Parse Node) : Parse Node := do
  let signs ← collect sign?
  let operand ← postfixed inner
  return signs.foldr (fun (sign, loc) node => sign.apply loc node) operand

/-- Reads operands with the operators of a table between them.  The table says how an operator
combines the operands on both sides of it, and the first operator comes first. -/
def chain (table : List (String × (Node → Node → Nat → Node))) (operand : Parse Node) :
    Parse Node := do
  let first ← operand
  extend (fun lhs => do
    let loc ← here
    match ← operator table with
    | some combine =>
      let rhs ← operand
      return some (combine lhs rhs loc)
    | none => return none) first

/-- How an operator combines its operands. -/
def applied (op : BinaryOp) (lhs rhs : Node) (loc : Nat) : Node := .binary ⟨loc, none⟩ op lhs rhs

/-- How an operator combines its operands when they trade places. -/
def swapped (op : BinaryOp) (lhs rhs : Node) (loc : Nat) : Node := .binary ⟨loc, none⟩ op rhs lhs

/-- Reads products and quotients. -/
def product (inner : Parse Node) : Parse Node :=
  chain [("*", applied .mul), ("/", applied .div)] (unary inner)

/-- Reads a term behind `lhs`, if there is one: the sum or difference with it. -/
def term? (inner : Parse Node) (lhs : Node) : Parse (Option Node) := do
  let loc ← here
  if ← accept "+" then
    let rhs ← product inner
    return some (← combined Node.sum lhs rhs loc)
  else if ← accept "-" then
    let rhs ← product inner
    return some (← combined Node.difference lhs rhs loc)
  else
    return none

/-- Reads sums and differences. -/
def terms (inner : Parse Node) : Parse Node := do
  let first ← product inner
  extend (term? inner) first

/-- Reads comparisons of order. -/
def relational (inner : Parse Node) : Parse Node :=
  chain [("<", applied .lt), ("<=", applied .le), (">", swapped .lt), (">=", swapped .le)]
    (terms inner)

/-- Reads comparisons of equality. -/
def equality (inner : Parse Node) : Parse Node :=
  chain [("==", applied .eq), ("!=", applied .ne)] (relational inner)

/-- Reads an expression; an assignment has the next one as its value. -/
def assignment (inner : Parse Node) : Parse Node := do
  let node ← equality inner
  let loc ← here
  if ← accept "=" then
    let value ← inner
    return .assign ⟨loc, none⟩ node value
  else
    return node

/-- Reads an expression with at most `depth` expressions inside one another. -/
def exprWithin : (depth : Nat) → Parse Node
  | 0 => unexpected .expression
  | depth + 1 => assignment (exprWithin depth)

/-- Reads an expression. -/
def expr : Parse Node := do exprWithin ((← remaining) + 1)

end PocketCompiler.Parse
