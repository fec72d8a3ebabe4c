import PocketCompiler.Complaint
import PocketCompiler.Program

/-!
# Typing

`annotate` gives every expression of a tree its type, from the leaves up.  A node that has a type
already is left alone with all that is below it, so a part of a tree can be typed as soon as it is
built, and again as part of a larger tree.  Statements are walked through and stay without a type.
-/

namespace PocketCompiler

/-- The type of a node that has to have a value. -/
def Node.valueTy (node : Node) : Except Failure Ty :=
  match node.ty with
  | some ty => .ok ty
  | none => .error (.complaint node.loc .noValue)

/-- The type of an assignment to `target`: the type of the target, which has to have an address
and must not be an array. -/
def assignTy (target : Node) : Except Failure Ty := do
  let ty ← target.valueTy
  if !target.hasAddress || ty.isArray then
    throw (.complaint target.loc .notAssignable)
  return ty

/-- The type of the address of `operand`.  The address of an array is the address of its first
element. -/
def addrTy (operand : Node) : Except Failure Ty := do
  if !operand.hasAddress then
    throw (.complaint operand.loc .notAssignable)
  let ty ← operand.valueTy
  match ty with
  | .array elem _ => return .ptr elem
  | _ => return .ptr ty

/-- The type of what `operand` points to, for a dereference at byte `loc`. -/
def derefTy (loc : Nat) (operand : Node) : Except Failure Ty := do
  let ty ← operand.valueTy
  match ty.base? with
  | some base => return base
  | none => throw (.complaint loc .notDereferenceable)

/-- The type of `lhs op rhs`: arithmetic has the type of its left operand, and a comparison is a
word. -/
def binaryTy (op : BinaryOp) (lhs : Node) : Except Failure Ty :=
  if op.isArithmetic then lhs.valueTy else .ok .int

/-- The mark of a node whose type has been found. -/
def Mark.typed (mark : Mark) (ty : Ty) : Mark := { mark with ty := some ty }

mutual

/-- Gives every expression of a tree its type.  Of two mistakes the one met first, from left to
right and from the leaves up, is the one reported. -/
def annotate (symbols : Symbols) (node : Node) : Except Failure Node :=
  if node.ty.isSome then .ok node
  else
    match node with
    | .num mark value => .ok (.num (mark.typed .int) value)
    | .var mark ref => do
      let found ← orFault (symbols.get ref)
      return .var (mark.typed found.ty) ref
    | .neg mark operand => do
      let operand ← annotate symbols operand
      let ty ← operand.valueTy
      return .neg (mark.typed ty) operand
    | .addr mark operand => do
      let operand ← annotate symbols operand
      let ty ← addrTy operand
      return .addr (mark.typed ty) operand
    | .deref mark operand => do
      let operand ← annotate symbols operand
      let ty ← derefTy mark.loc operand
      return .deref (mark.typed ty) operand
    | .binary mark op lhs rhs => do
      let lhs ← annotate symbols lhs
      let rhs ← annotate symbols rhs
      let ty ← binaryTy op lhs
      return .binary (mark.typed ty) op lhs rhs
    | .assign mark target value => do
      let target ← annotate symbols target
      let value ← annotate symbols value
      let ty ← assignTy target
      return .assign (mark.typed ty) target value
    | .call mark name args => do
      let args ← annotateAll symbols args
      return .call (mark.typed .int) name args
    | .exprStmt mark expr => do
      let expr ← annotate symbols expr
      return .exprStmt mark expr
    | .ret mark value => do
      let value ← annotate symbols value
      return .ret mark value
    | .block mark body => do
      let body ← annotateAll symbols body
      return .block mark body
    | .ifElse mark cond onTrue onFalse => do
      let cond ← annotate symbols cond
      let onTrue ← annotate symbols onTrue
      let onFalse ← annotateSome symbols onFalse
      return .ifElse mark cond onTrue onFalse
    | .loop mark init cond step body => do
      let init ← annotateSome symbols init
      let cond ← annotateSome symbols cond
      let step ← annotateSome symbols step
      let body ← annotate symbols body
      return .loop mark init cond step body

/-- Gives the trees of a list their types, from left to right. -/
def annotateAll (symbols : Symbols) (nodes : List Node) : Except Failure (List Node) :=
  match nodes with
  | [] => .ok []
  | node :: nodes => do
    let node ← annotate symbols node
    let nodes ← annotateAll symbols nodes
    return node :: nodes

/-- Gives the tree its type, if there is one. -/
def annotateSome (symbols : Symbols) (node : Option Node) : Except Failure (Option Node) :=
  match node with
  | none => .ok none
  | some node => do
    let node ← annotate symbols node
    return some node

end

end PocketCompiler
