import PocketCompiler.Ty

/-!
# Syntax trees

One type of tree serves for expressions and statements.  Every node carries a `Mark`: the byte it
stands for in reports, and its type once it has one.  Statements have no type.

Variables are referred to by their place in a table (`VarRef`), so a tree holds no names but those
of the functions that it calls.
-/

namespace PocketCompiler

/-- The operators with two operands.  There is no "greater": its operands are swapped. -/
inductive BinaryOp where
  | add
  | sub
  | mul
  | div
  | eq
  | ne
  | lt
  | le
deriving DecidableEq, Repr

/-- Whether the result of an operator is a number computed from its operands, not a truth
value. -/
def BinaryOp.isArithmetic : BinaryOp → Bool
  | .add | .sub | .mul | .div => true
  | .eq | .ne | .lt | .le => false

/-- A variable, by its index in the table that holds it. -/
inductive VarRef where
  /-- A local or parameter of the function at hand. -/
  | localVar (index : Nat)
  /-- A global of the program. -/
  | globalVar (index : Nat)
deriving DecidableEq, Repr

/-- What every node carries: the byte it stands for, and its type once it has one. -/
structure Mark where
  loc : Nat
  ty : Option Ty := none
deriving DecidableEq, Repr

/-- A syntax tree. -/
inductive Node where
  | num (mark : Mark) (value : Int64)
  | var (mark : Mark) (ref : VarRef)
  | neg (mark : Mark) (operand : Node)
  | addr (mark : Mark) (operand : Node)
  | deref (mark : Mark) (operand : Node)
  | binary (mark : Mark) (op : BinaryOp) (lhs rhs : Node)
  | assign (mark : Mark) (target value : Node)
  | call (mark : Mark) (name : String) (args : List Node)
  | exprStmt (mark : Mark) (expr : Node)
  | ret (mark : Mark) (value : Node)
  | block (mark : Mark) (body : List Node)
  | ifElse (mark : Mark) (cond onTrue : Node) (onFalse : Option Node)
  | loop (mark : Mark) (init cond step : Option Node) (body : Node)

namespace Node

/-- What a node carries. -/
def mark : Node → Mark
  | .num mark _ | .var mark _ | .neg mark _ | .addr mark _ | .deref mark _ | .binary mark _ _ _
  | .assign mark _ _ | .call mark _ _ | .exprStmt mark _ | .ret mark _ | .block mark _
  | .ifElse mark _ _ _ | .loop mark _ _ _ _ => mark

/-- The byte that a node stands for. -/
def loc (node : Node) : Nat := node.mark.loc

/-- The type of a node, once it has one. -/
def ty (node : Node) : Option Ty := node.mark.ty

/-- Variables and dereferences are the only nodes with an address. -/
def hasAddress : Node → Bool
  | .var _ _ | .deref _ _ => true
  | _ => false

end PocketCompiler.Node
