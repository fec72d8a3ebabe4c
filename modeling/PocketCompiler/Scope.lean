import PocketCompiler.Node

/-!
# Scopes

A scope holds the names that one block declares, the newest first.  Scopes stand on one another,
the innermost first, so the declaration that a name means is the first one found.
-/

namespace PocketCompiler

/-- The declarations of one block, the newest first. -/
abbrev Scope := List (String × VarRef)

/-- The scopes of the blocks that are open, the innermost first. -/
abbrev Scopes := List Scope

namespace Scopes

/-- Opens a block. -/
def enter (scopes : Scopes) : Scopes := [] :: scopes

/-- Closes the innermost block. -/
def leave (scopes : Scopes) : Scopes := scopes.tail

/-- Declares a name in the innermost block. -/
def bind (scopes : Scopes) (name : String) (ref : VarRef) : Scopes :=
  match scopes with
  | [] => []
  | scope :: outer => ((name, ref) :: scope) :: outer

/-- The variable that a name means: the newest declaration of the innermost block that has
one. -/
def find? (scopes : Scopes) (name : String) : Option VarRef :=
  scopes.findSome? (·.lookup name)

@[simp] theorem leave_enter (scopes : Scopes) : scopes.enter.leave = scopes := rfl

@[simp] theorem find?_enter (scopes : Scopes) (name : String) :
    scopes.enter.find? name = scopes.find? name := rfl

/-- A name means its newest declaration, and a declaration leaves the meaning of every other
name as it is. -/
theorem find?_bind (scope : Scope) (outer : Scopes) (declared name : String) (ref : VarRef) :
    find? (bind (scope :: outer) declared ref) name
      = if name = declared then some ref else find? (scope :: outer) name := by
  simp only [find?, bind, List.findSome?_cons, List.lookup_cons]
  by_cases h : name = declared
  · simp [h]
  · simp [h, beq_eq_false_iff_ne.2 h]

end PocketCompiler.Scopes
