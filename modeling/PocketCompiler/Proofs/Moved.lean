import PocketCompiler.Constant
import PocketCompiler.Grammar.Unit
import PocketCompiler.Proofs.Ends
import PocketCompiler.Proofs.Lower.Program

/-!
# Trees at other places

Every node of a tree holds the byte that it stands for.  `Node.moved place` is the tree with these
bytes changed by `place`, and `moveResult place` does the same to what a computation gives.

* `annotate_moved`, `contentsFor_moved`: typing and constant folding do with a moved tree what they
  do with the tree, and report the moved place.
* `Lower.stmtFrom_moved`: the code of a statement does not depend on places at all.
-/

namespace PocketCompiler

variable {α β γ : Type}

/-! ### Moving -/

/-- The mark at another place. -/
def Mark.moved (place : Nat → Nat) (mark : Mark) : Mark := { mark with loc := place mark.loc }

mutual

/-- The tree at other places. -/
def Node.moved (place : Nat → Nat) : Node → Node
  | .num mark value => .num (mark.moved place) value
  | .var mark ref => .var (mark.moved place) ref
  | .neg mark operand => .neg (mark.moved place) (operand.moved place)
  | .addr mark operand => .addr (mark.moved place) (operand.moved place)
  | .deref mark operand => .deref (mark.moved place) (operand.moved place)
  | .binary mark op lhs rhs => .binary (mark.moved place) op (lhs.moved place) (rhs.moved place)
  | .assign mark target value => .assign (mark.moved place) (target.moved place) (value.moved place)
  | .call mark name args => .call (mark.moved place) name (Node.movedAll place args)
  | .exprStmt mark expr => .exprStmt (mark.moved place) (expr.moved place)
  | .ret mark value => .ret (mark.moved place) (value.moved place)
  | .block mark body => .block (mark.moved place) (Node.movedAll place body)
  | .ifElse mark cond onTrue onFalse =>
    .ifElse (mark.moved place) (cond.moved place) (onTrue.moved place)
      (Node.movedSome place onFalse)
  | .loop mark init cond step body =>
    .loop (mark.moved place) (Node.movedSome place init) (Node.movedSome place cond)
      (Node.movedSome place step) (body.moved place)

/-- The trees of a list at other places. -/
def Node.movedAll (place : Nat → Nat) : List Node → List Node
  | [] => []
  | node :: nodes => node.moved place :: Node.movedAll place nodes

/-- The tree at other places, if there is one. -/
def Node.movedSome (place : Nat → Nat) : Option Node → Option Node
  | none => none
  | some node => some (node.moved place)

end

/-- The failure reported at another place. -/
def Failure.moved (place : Nat → Nat) : Failure → Failure
  | .complaint loc cause => .complaint (place loc) cause
  | .fault cause => .fault cause

/-- A result with its value changed by `f`, or its failure moved. -/
def moveResult (place : Nat → Nat) (f : α → β) : Except Failure α → Except Failure β
  | .ok a => .ok (f a)
  | .error failure => .error (failure.moved place)

variable {place : Nat → Nat}

/-- What a failure says does not depend on the place that it is reported at. -/
@[simp] theorem Failure.message_moved (failure : Failure) :
    (failure.moved place).message = failure.message := by
  cases failure <;> rfl

@[simp] theorem moveResult_ok {f : α → β} {a : α} : moveResult place f (.ok a) = .ok (f a) := rfl

@[simp] theorem moveResult_pure {f : α → β} {a : α} : moveResult place f (pure a) = .ok (f a) := rfl

@[simp] theorem moveResult_error {f : α → β} {failure : Failure} :
    moveResult place f (.error failure) = .error (failure.moved place) := rfl

@[simp] theorem moveResult_throw {f : α → β} {failure : Failure} :
    moveResult place f (throw failure) = .error (failure.moved place) := rfl

/-- **Sequence**: a sequence is moved if both of its parts are. -/
theorem bind_moveResult {δ : Type} {f : α → β} {g : γ → δ} {x : Except Failure α}
    {y : Except Failure β} {k : α → Except Failure γ} {l : β → Except Failure δ}
    (hx : y = moveResult place f x) (hk : ∀ a, l (f a) = moveResult place g (k a)) :
    (y >>= l) = moveResult place g (x >>= k) := by
  subst hx
  cases x with
  | ok a => exact hk a
  | error failure => rfl

namespace Node

@[simp] theorem movedAll_eq_map (nodes : List Node) :
    movedAll place nodes = nodes.map (moved place) := by
  induction nodes with
  | nil => rfl
  | cons node nodes ih => rw [movedAll, ih, List.map_cons]

@[simp] theorem movedSome_eq_map (node : Option Node) :
    movedSome place node = node.map (moved place) := by
  cases node <;> rfl

mutual

/-- A tree that is moved nowhere. -/
theorem moved_id : ∀ node : Node, node.moved id = node
  | .num _ _ => rfl
  | .var _ _ => rfl
  | .neg _ operand => by rw [moved, moved_id operand]; rfl
  | .addr _ operand => by rw [moved, moved_id operand]; rfl
  | .deref _ operand => by rw [moved, moved_id operand]; rfl
  | .binary _ _ lhs rhs => by rw [moved, moved_id lhs, moved_id rhs]; rfl
  | .assign _ target value => by rw [moved, moved_id target, moved_id value]; rfl
  | .call _ _ args => by rw [moved, movedAll_id args]; rfl
  | .exprStmt _ expr => by rw [moved, moved_id expr]; rfl
  | .ret _ value => by rw [moved, moved_id value]; rfl
  | .block _ body => by rw [moved, movedAll_id body]; rfl
  | .ifElse _ cond onTrue onFalse => by
    rw [moved, moved_id cond, moved_id onTrue, movedSome_id onFalse]; rfl
  | .loop _ init cond step body => by
    rw [moved, movedSome_id init, movedSome_id cond, movedSome_id step, moved_id body]; rfl

theorem movedAll_id : ∀ nodes : List Node, movedAll id nodes = nodes
  | [] => rfl
  | node :: nodes => by rw [movedAll, moved_id node, movedAll_id nodes]

theorem movedSome_id : ∀ node : Option Node, movedSome id node = node
  | none => rfl
  | some node => by rw [movedSome, moved_id node]

end

@[simp] theorem mark_moved (node : Node) : (node.moved place).mark = node.mark.moved place := by
  cases node <;> rfl

@[simp] theorem loc_moved (node : Node) : (node.moved place).loc = place node.loc := by
  rw [loc, mark_moved]
  rfl

@[simp] theorem ty_moved (node : Node) : (node.moved place).ty = node.ty := by
  rw [ty, mark_moved]
  rfl

@[simp] theorem hasAddress_moved (node : Node) :
    (node.moved place).hasAddress = node.hasAddress := by
  cases node <;> rfl

end Node

/-! ### Typing -/

/-- The tables have variables of the same types at the same places. -/
def Symbols.SameTypes (symbols other : Symbols) : Prop :=
  ∀ ref, (other.get ref).map Variable.ty = (symbols.get ref).map Variable.ty

/-- The type of a value is the same at every place, and a complaint is about the moved one. -/
theorem valueTy_moved (node : Node) :
    (node.moved place).valueTy = moveResult place id node.valueTy := by
  unfold Node.valueTy
  rw [Node.ty_moved, Node.loc_moved]
  cases node.ty <;> rfl

theorem assignTy_moved (target : Node) :
    assignTy (target.moved place) = moveResult place id (assignTy target) := by
  refine bind_moveResult (valueTy_moved target) fun ty => ?_
  rw [Node.hasAddress_moved, Node.loc_moved]
  dsimp only [id]
  split <;> rfl

theorem addrTy_moved (operand : Node) :
    addrTy (operand.moved place) = moveResult place id (addrTy operand) := by
  unfold addrTy
  rw [Node.hasAddress_moved, Node.loc_moved]
  split
  · rfl
  · refine bind_moveResult (valueTy_moved operand) fun ty => ?_
    cases ty <;> rfl

/-- What is not a pointer is complained about where the operator stands. -/
theorem derefTy_moved (loc : Nat) (operand : Node) :
    derefTy (place loc) (operand.moved place) = moveResult place id (derefTy loc operand) := by
  refine bind_moveResult (valueTy_moved operand) fun ty => ?_
  dsimp only [id]
  cases ty.base? <;> rfl

/-- Operands are complained about where they stand. -/
theorem binaryTy_moved (op : BinaryOp) (lhs : Node) :
    binaryTy op (lhs.moved place) = moveResult place id (binaryTy op lhs) := by
  unfold binaryTy
  split
  · exact valueTy_moved lhs
  · rfl

section Annotate

variable {symbols other : Symbols}

/-- A variable is found in both tables or in neither, and with the same type. -/
theorem orFault_get_bind (h : symbols.SameTypes other) (mark : Mark) (ref : VarRef) :
    (do
      let found ← orFault (other.get ref)
      return Node.var ((mark.moved place).typed found.ty) ref)
      = moveResult place (Node.moved place) (do
          let found ← orFault (symbols.get ref)
          return Node.var (mark.typed found.ty) ref) := by
  have hsame := h ref
  cases hother : other.get ref with
  | ok found =>
    rw [hother] at hsame
    obtain ⟨v, hv, hty⟩ := map_eq_ok_iff.1 hsame.symm
    rw [hv]
    show Except.ok _ = Except.ok _
    rw [← hty]
    rfl
  | error cause =>
    rw [hother] at hsame
    cases hget : symbols.get ref with
    | ok v => rw [hget] at hsame; exact nomatch hsame
    | error cause' =>
      rw [hget] at hsame
      obtain rfl : cause = cause' := Except.error.inj hsame
      rfl

/-- A node with a type is left alone, wherever it is. -/
theorem ite_moveResult {p : Prop} [Decidable p] {f : α → β} {x y : Except Failure α}
    {x' y' : Except Failure β} (hx : x' = moveResult place f x) (hy : y' = moveResult place f y) :
    (if p then x' else y') = moveResult place f (if p then x else y) := by
  split
  · exact hx
  · exact hy

mutual

/-- **Typing does not depend on places.** -/
theorem annotate_moved (h : symbols.SameTypes other) : ∀ node : Node,
    annotate other (node.moved place) = moveResult place (Node.moved place) (annotate symbols node)
  -- A node that has a type stays as it is; any other one gets its type from its moved children.
  | .num mark value => by
    rw [Node.moved, annotate, annotate]
    exact ite_moveResult rfl rfl
  | .var mark ref => by
    rw [Node.moved, annotate, annotate]
    exact ite_moveResult rfl (orFault_get_bind h mark ref)
  | .neg mark operand => by
    rw [Node.moved, annotate, annotate]
    exact ite_moveResult rfl <| bind_moveResult (annotate_moved h operand) fun operand =>
      bind_moveResult (valueTy_moved operand) fun ty => rfl
  | .addr mark operand => by
    rw [Node.moved, annotate, annotate]
    exact ite_moveResult rfl <| bind_moveResult (annotate_moved h operand) fun operand =>
      bind_moveResult (addrTy_moved operand) fun ty => rfl
  | .deref mark operand => by
    rw [Node.moved, annotate, annotate]
    exact ite_moveResult rfl <| bind_moveResult (annotate_moved h operand) fun operand =>
      bind_moveResult (derefTy_moved mark.loc operand) fun ty => rfl
  | .binary mark op lhs rhs => by
    rw [Node.moved, annotate, annotate]
    exact ite_moveResult rfl <| bind_moveResult (annotate_moved h lhs) fun lhs =>
      bind_moveResult (annotate_moved h rhs) fun rhs =>
        bind_moveResult (binaryTy_moved op lhs) fun ty => rfl
  | .assign mark target value => by
    rw [Node.moved, annotate, annotate]
    exact ite_moveResult rfl <| bind_moveResult (annotate_moved h target) fun target =>
      bind_moveResult (annotate_moved h value) fun value =>
        bind_moveResult (assignTy_moved target) fun ty => rfl
  | .call mark name args => by
    rw [Node.moved, annotate, annotate]
    exact ite_moveResult rfl <| bind_moveResult (annotateAll_moved h args) fun args => rfl
  | .exprStmt mark expr => by
    rw [Node.moved, annotate, annotate]
    exact ite_moveResult rfl <| bind_moveResult (annotate_moved h expr) fun expr => rfl
  | .ret mark value => by
    rw [Node.moved, annotate, annotate]
    exact ite_moveResult rfl <| bind_moveResult (annotate_moved h value) fun value => rfl
  | .block mark body => by
    rw [Node.moved, annotate, annotate]
    exact ite_moveResult rfl <| bind_moveResult (annotateAll_moved h body) fun body => rfl
  | .ifElse mark cond onTrue onFalse => by
    rw [Node.moved, annotate, annotate]
    exact ite_moveResult rfl <| bind_moveResult (annotate_moved h cond) fun cond =>
      bind_moveResult (annotate_moved h onTrue) fun onTrue =>
        bind_moveResult (annotateSome_moved h onFalse) fun onFalse => rfl
  | .loop mark init cond step body => by
    rw [Node.moved, annotate, annotate]
    exact ite_moveResult rfl <| bind_moveResult (annotateSome_moved h init) fun init =>
      bind_moveResult (annotateSome_moved h cond) fun cond =>
        bind_moveResult (annotateSome_moved h step) fun step =>
          bind_moveResult (annotate_moved h body) fun body => rfl

theorem annotateAll_moved (h : symbols.SameTypes other) : ∀ nodes : List Node,
    annotateAll other (Node.movedAll place nodes)
      = moveResult place (Node.movedAll place) (annotateAll symbols nodes)
  | [] => rfl
  | node :: nodes => by
    rw [Node.movedAll, annotateAll, annotateAll]
    exact bind_moveResult (annotate_moved h node) fun node =>
      bind_moveResult (annotateAll_moved h nodes) fun nodes => rfl

theorem annotateSome_moved (h : symbols.SameTypes other) : ∀ node : Option Node,
    annotateSome other (Node.movedSome place node)
      = moveResult place (Node.movedSome place) (annotateSome symbols node)
  | none => rfl
  | some node => by
    rw [Node.movedSome, annotateSome, annotateSome]
    exact bind_moveResult (annotate_moved h node) fun node => rfl

end

end Annotate

/-! ### Constants -/

/-- The value of a constant does not depend on places. -/
theorem fold_moved (node : Node) : fold (node.moved place) = moveResult place id (fold node) := by
  fun_induction fold node with
  | case1 mark value => rfl
  | case2 mark operand ih =>
    rw [Node.moved, fold]
    exact bind_moveResult ih fun value => rfl
  | case3 mark op lhs rhs ihl ihr =>
    rw [Node.moved, fold]
    refine bind_moveResult ihl fun a => bind_moveResult ihr fun b => ?_
    cases op with
    | div => exact ite_moveResult rfl rfl
    | _ => rfl
  | case4 node hnum hneg hbinary =>
    cases node with
    | num mark value => exact absurd rfl (hnum mark value)
    | neg mark operand => exact absurd rfl (hneg mark operand)
    | binary mark op lhs rhs => exact absurd rfl (hbinary mark op lhs rhs)
    | _ => rfl

/-- Whether a tree refers to a string literal is read off its variable, not off its place. -/
theorem literalOf?_moved (globals : List Variable) (node : Node) :
    literalOf? globals (node.moved place) = literalOf? globals node := by
  cases node with
  | var mark ref => cases ref <;> rfl
  | _ => rfl

/-- A literal that does not fit is complained about where the initial value stands. -/
theorem literalContents_moved (literal : Variable) (ty : Ty) (loc : Nat) :
    literalContents literal ty (place loc)
      = moveResult place id (literalContents literal ty loc) := by
  unfold literalContents
  split
  · rfl
  · split <;> rfl
  · rfl
  · rfl

/-- **What a global holds does not depend on places.** -/
theorem contentsFor_moved (globals : List Variable) (init : Node) (ty : Ty) :
    contentsFor globals (init.moved place) ty
      = moveResult place id (contentsFor globals init ty) := by
  unfold contentsFor
  rw [literalOf?_moved, Node.loc_moved]
  cases literalOf? globals init with
  | some literal => exact literalContents_moved literal ty init.loc
  | none =>
    refine ite_moveResult ?_ rfl
    exact bind_moveResult (fold_moved init) fun value => rfl

/-! ### Sums and differences -/

@[simp] theorem Node.elementSize?_moved (node : Node) :
    (node.moved place).elementSize? = node.elementSize? := by
  rw [elementSize?, elementSize?, ty_moved]

/-- A scaled number is put where its operator is. -/
theorem Node.scaled_moved (op : BinaryOp) (pointer number : Node) (size : Int) (loc : Nat) :
    scaled op (pointer.moved place) (number.moved place) size (place loc)
      = (scaled op pointer number size loc).moved place := by
  simp [scaled, moved, Mark.moved]

/-- Whether an operand is scaled depends on types alone. -/
theorem Node.sum_moved (lhs rhs : Node) (loc : Nat) :
    Node.sum (lhs.moved place) (rhs.moved place) (place loc)
      = moveResult place (moved place) (Node.sum lhs rhs loc) := by
  unfold Node.sum
  rw [elementSize?_moved, elementSize?_moved]
  cases lhs.elementSize? <;> cases rhs.elementSize?
  · rfl
  · exact congrArg Except.ok (scaled_moved ..)
  · exact congrArg Except.ok (scaled_moved ..)
  · rfl

/-- Whether the difference is divided depends on types alone. -/
theorem Node.difference_moved (lhs rhs : Node) (loc : Nat) :
    Node.difference (lhs.moved place) (rhs.moved place) (place loc)
      = moveResult place (moved place) (Node.difference lhs rhs loc) := by
  unfold Node.difference
  rw [elementSize?_moved, elementSize?_moved]
  cases lhs.elementSize? <;> cases rhs.elementSize?
  · rfl
  · rfl
  · exact congrArg Except.ok (scaled_moved ..)
  · rfl

@[simp] theorem Sign.apply_moved (sign : Sign) (loc : Nat) (operand : Node) :
    sign.apply (place loc) (operand.moved place) = (sign.apply loc operand).moved place := by
  cases sign <;> rfl

/-! ### Code -/

namespace Lower

variable (routine : Routine)

mutual

/-- Code is made of what a tree is, and never of where it stands. -/
theorem exprAt_moved : ∀ (node : Node) (depth : Nat),
    exprAt routine depth (node.moved place) = exprAt routine depth node
  | .num _ _, _ => rfl
  | .var _ _, _ => rfl
  | .neg _ operand, depth => by simp only [Node.moved, exprAt, exprAt_moved operand]
  | .addr _ operand, depth => by simp only [Node.moved, exprAt, addressAt_moved operand]
  | .deref mark operand, depth => by
    simp only [Node.moved, exprAt, exprAt_moved operand, Mark.moved]
  | .binary _ _ lhs rhs, depth => by
    simp only [Node.moved, exprAt, exprAt_moved lhs, exprAt_moved rhs]
  | .assign _ target value, depth => by
    simp only [Node.moved, exprAt, addressAt_moved target, exprAt_moved value, Mark.moved]
  | .call _ _ args, depth => by
    have hlength : (Node.movedAll place args).length = args.length := by simp
    rw [Node.moved, exprAt, exprAt, argumentsAt_moved args, hlength]
  | .exprStmt _ _, _ => rfl
  | .ret _ _, _ => rfl
  | .block _ _, _ => rfl
  | .ifElse _ _ _ _, _ => rfl
  | .loop _ _ _ _ _, _ => rfl

theorem addressAt_moved : ∀ (node : Node) (depth : Nat),
    addressAt routine depth (node.moved place) = addressAt routine depth node
  | .var _ _, _ => rfl
  | .deref _ operand, depth => by simp only [Node.moved, addressAt, exprAt_moved operand]
  | .num _ _, _ => rfl
  | .neg _ _, _ => rfl
  | .addr _ _, _ => rfl
  | .binary _ _ _ _, _ => rfl
  | .assign _ _ _, _ => rfl
  | .call _ _ _, _ => rfl
  | .exprStmt _ _, _ => rfl
  | .ret _ _, _ => rfl
  | .block _ _, _ => rfl
  | .ifElse _ _ _ _, _ => rfl
  | .loop _ _ _ _ _, _ => rfl

theorem argumentsAt_moved : ∀ (args : List Node) (depth : Nat),
    argumentsAt routine depth (Node.movedAll place args) = argumentsAt routine depth args
  | [], _ => rfl
  | arg :: args, depth => by
    simp only [Node.movedAll, argumentsAt, exprAt_moved arg, argumentsAt_moved args]

end

theorem exprSomeAt_moved (node : Option Node) :
    exprSomeAt routine (Node.movedSome place node) = exprSomeAt routine node := by
  cases node with
  | none => rfl
  | some node => exact exprAt_moved routine node 0

theorem guardAt_moved (exit : Label) (cond : Option Node) :
    guardAt routine exit (Node.movedSome place cond) = guardAt routine exit cond := by
  cases cond with
  | none => rfl
  | some cond => simp only [Node.movedSome, guardAt, exprAt_moved routine cond]

mutual

/-- **The code of a statement does not depend on places.** -/
theorem stmtFrom_moved : ∀ (node : Node) (labels : Nat),
    stmtFrom routine labels (node.moved place) = stmtFrom routine labels node
  | .exprStmt _ node, labels => by simp only [Node.moved, stmtFrom, exprAt_moved routine node]
  | .ret _ value, labels => by simp only [Node.moved, stmtFrom, exprAt_moved routine value]
  | .block _ body, labels => by simp only [Node.moved, stmtFrom, stmtsFrom_moved body]
  | .ifElse _ cond onTrue onFalse, labels => by
    simp only [Node.moved, stmtFrom, exprAt_moved routine cond, stmtFrom_moved onTrue,
      stmtSomeFrom_moved onFalse]
  | .loop _ init cond step body, labels => by
    simp only [Node.moved, stmtFrom, exprSomeAt_moved, guardAt_moved, stmtFrom_moved body]
  | .num _ _, _ => rfl
  | .var _ _, _ => rfl
  | .neg _ _, _ => rfl
  | .addr _ _, _ => rfl
  | .deref _ _, _ => rfl
  | .binary _ _ _ _, _ => rfl
  | .assign _ _ _, _ => rfl
  | .call _ _ _, _ => rfl

theorem stmtsFrom_moved : ∀ (nodes : List Node) (labels : Nat),
    stmtsFrom routine labels (Node.movedAll place nodes) = stmtsFrom routine labels nodes
  | [], _ => rfl
  | node :: nodes, labels => by
    simp only [Node.movedAll, stmtsFrom, stmtFrom_moved node, stmtsFrom_moved nodes]

theorem stmtSomeFrom_moved : ∀ (node : Option Node) (labels : Nat),
    stmtSomeFrom routine labels (Node.movedSome place node) = stmtSomeFrom routine labels node
  | none, _ => rfl
  | some node, labels => by simp only [Node.movedSome, stmtSomeFrom, stmtFrom_moved node]

end

end Lower

end PocketCompiler
