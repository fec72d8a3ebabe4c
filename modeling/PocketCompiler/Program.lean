import PocketCompiler.Node

/-!
# Programs

A program is its global variables and its functions, both in the order of their declarations.
-/

namespace PocketCompiler

/-- What a global holds when the program starts. -/
inductive Contents where
  /-- These bytes; the bytes of the global behind them are zero. -/
  | bytes (bytes : List UInt8)
  /-- The address of the global called `label`. -/
  | address (label : String)
deriving DecidableEq, Repr

/-- A local, a parameter or a global.  Only globals have contents from the start, and one without
contents starts with zero bytes. -/
structure Variable where
  name : String
  ty : Ty
  contents : Option Contents := none
deriving DecidableEq, Repr

/-- A function.  Its parameters are among its locals, and `params` gives their indices. -/
structure Function where
  name : String
  ty : Ty
  params : List Nat
  locals : List Variable
  body : Node

/-- A program. -/
structure Program where
  globals : List Variable
  functions : List Function

/-- The variables that a tree can refer to. -/
structure Symbols where
  locals : List Variable
  globals : List Variable

/-- The variable that a reference refers to. -/
def Symbols.get (symbols : Symbols) : VarRef → Except Fault Variable
  | .localVar index => entry symbols.locals index
  | .globalVar index => entry symbols.globals index

end PocketCompiler
