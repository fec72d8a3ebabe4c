import PocketCompiler.Proofs.Jump
import PocketCompiler.Node

/-!
# What statements mean

`Statements.runs` says what a statement does, by its tree alone.  An expression is one step on the
state, and of what it does only the value in `rax` matters: a conditional and a loop look whether it
is zero.  A statement is `done` or has `returned`, and what it has performed is told as a list of
actions.

A loop is the only statement that does not end with its parts, so `Statements.Loop` is inductive;
everything else follows the tree.
-/

namespace PocketCompiler

/-- A step of a statement. -/
inductive Action where
  /-- An expression is evaluated. -/
  | evaluate (node : Node)
  /-- The value is compared with zero. -/
  | test
  /-- The value is cut to a byte. -/
  | narrow

/-- What a statement does: the state before, the actions, how it ends, and the state after. -/
abbrev Effect (σ : Type) := σ → List Action → Ending → σ → Prop

/-- What the steps of statements do. -/
structure Statements (σ : Type) where
  /-- What an expression does, if it does not fail. -/
  evaluate : Node → σ → Option σ
  /-- The value that was computed last. -/
  rax : σ → Int64
  /-- What is left of comparing the value with zero. -/
  test : σ → σ
  /-- Cuts the value to a byte. -/
  narrow : σ → σ
  /-- Whether a value is cut to a byte when it is returned. -/
  narrows : Bool

namespace Statements

variable {σ : Type} (S : Statements σ)

/-- Evaluates an expression, if there is one. -/
def evaluatesSome : Option Node → σ → List Action → σ → Prop
  | none, s, actions, t => actions = [] ∧ t = s
  | some node, s, actions, t => actions = [.evaluate node] ∧ S.evaluate node s = some t

/-- The condition of a loop is found to hold.  A missing condition always holds. -/
def enters : Option Node → σ → List Action → σ → Prop
  | none, s, actions, t => actions = [] ∧ t = s
  | some cond, s, actions, t => ∃ u, S.evaluate cond s = some u ∧ S.rax u ≠ 0
      ∧ actions = [.evaluate cond, .test] ∧ t = S.test u

/-- The condition of a loop is found not to hold. -/
def leaves : Option Node → σ → List Action → σ → Prop
  | none, _, _, _ => False
  | some cond, s, actions, t => ∃ u, S.evaluate cond s = some u ∧ S.rax u = 0
      ∧ actions = [.evaluate cond, .test] ∧ t = S.test u

/-- A loop from a test of its condition on. -/
inductive Loop (cond step : Option Node) (body : Effect σ) : Effect σ where
  | leave {s t : σ} {actions : List Action} : S.leaves cond s actions t →
    Loop cond step body s actions .done t
  | stop {s u t : σ} {tested inside : List Action} : S.enters cond s tested u →
    body u inside .returned t → Loop cond step body s (tested ++ inside) .returned t
  | again {s u v w t : σ} {tested inside stepped rest : List Action} {out : Ending} :
    S.enters cond s tested u → body u inside .done v → S.evaluatesSome step v stepped w →
      Loop cond step body w rest out t →
        Loop cond step body s (tested ++ (inside ++ (stepped ++ rest))) out t

mutual

/-- What a statement does. -/
def runs (S : Statements σ) : Node → Effect σ
  | .exprStmt _ node, s, actions, out, t =>
    out = .done ∧ actions = [.evaluate node] ∧ S.evaluate node s = some t
  | .ret _ value, s, actions, out, t =>
    out = .returned ∧ ∃ u rest, S.evaluate value s = some u ∧ actions = .evaluate value :: rest
      ∧ if S.narrows then rest = [.narrow] ∧ t = S.narrow u else rest = [] ∧ t = u
  | .block _ body, s, actions, out, t => S.runsAll body s actions out t
  | .ifElse _ cond onTrue onFalse, s, actions, out, t =>
    ∃ u rest, S.evaluate cond s = some u ∧ actions = .evaluate cond :: .test :: rest
      ∧ if S.rax u = 0 then S.runsSome onFalse (S.test u) rest out t
        else S.runs onTrue (S.test u) rest out t
  | .loop _ init cond step body, s, actions, out, t =>
    ∃ u start rest, S.evaluatesSome init s start u ∧ actions = start ++ rest
      ∧ S.Loop cond step (S.runs body) u rest out t
  | .num _ _, _, _, _, _ | .var _ _, _, _, _, _ | .neg _ _, _, _, _, _ | .addr _ _, _, _, _, _
  | .deref _ _, _, _, _, _ | .binary _ _ _ _, _, _, _, _ | .assign _ _ _, _, _, _, _
  | .call _ _ _, _, _, _, _ => False

/-- What statements do, one after the other, up to one that returns. -/
def runsAll (S : Statements σ) : List Node → Effect σ
  | [], s, actions, out, t => out = .done ∧ actions = [] ∧ t = s
  | node :: nodes, s, actions, out, t =>
    (∃ u first rest, S.runs node s first .done u ∧ S.runsAll nodes u rest out t
        ∧ actions = first ++ rest)
      ∨ (out = .returned ∧ S.runs node s actions .returned t)

/-- What a statement does, if there is one. -/
def runsSome (S : Statements σ) : Option Node → Effect σ
  | none, s, actions, out, t => out = .done ∧ actions = [] ∧ t = s
  | some node, s, actions, out, t => S.runs node s actions out t

end

theorem runs_block (mark : Mark) (body : List Node) :
    S.runs (.block mark body) = S.runsAll body := by
  funext s actions out t
  simp only [runs]

theorem runsSome_none : S.runsSome none = S.runsAll [] := by
  funext s actions out t
  simp only [runsSome, runsAll]

theorem runsSome_some (node : Node) : S.runsSome (some node) = S.runs node := by
  funext s actions out t
  simp only [runsSome]

end Statements

/-! ### Statements inside a statement -/

mutual

/-- A statement and the statements inside it. -/
def Node.statements : Node → List Node
  | .block mark body => .block mark body :: Node.statementsAll body
  | .ifElse mark cond onTrue onFalse =>
    .ifElse mark cond onTrue onFalse :: (onTrue.statements ++ Node.statementsSome onFalse)
  | .loop mark init cond step body => .loop mark init cond step body :: body.statements
  | .exprStmt mark node => [.exprStmt mark node]
  | .ret mark value => [.ret mark value]
  | .num _ _ | .var _ _ | .neg _ _ | .addr _ _ | .deref _ _ | .binary _ _ _ _ | .assign _ _ _
  | .call _ _ _ => []

/-- The statements of a list and the statements inside them. -/
def Node.statementsAll : List Node → List Node
  | [] => []
  | node :: nodes => node.statements ++ Node.statementsAll nodes

/-- A statement, if there is one, and the statements inside it. -/
def Node.statementsSome : Option Node → List Node
  | none => []
  | some node => node.statements

end

end PocketCompiler
