import Mathlib.Data.List.Forall2
import PocketCompiler.Proofs.Typing

/-!
# Typing early and typing late

Parts of a tree may be typed while the tree is built, and the whole tree is typed in the end.
`Node.TypedInParts` says that a tree has come about so: parts of it were typed one after the
other, in any order, and variables were added to the tables in between.
`Node.TypedInParts.annotate_agrees` says that the order makes no difference.

Typing treats all kinds of nodes alike: it types the children of a node and then finds its type
from theirs.  `annotate_eq` says so once, and the proofs below go by the children of a node and look
at no kind of node on its own.

What needs care is that a node with a type is left alone, with all that is below it.  Typing a part
below such a node makes no difference because nothing is left to be typed there: `Node.Coherent`.
-/

namespace PocketCompiler

/-! ### The children of a node -/

namespace Node

/-- The trees that a node is made of, from left to right. -/
def children : Node → List Node
  | .num _ _ | .var _ _ => []
  | .neg _ operand | .addr _ operand | .deref _ operand => [operand]
  | .binary _ _ lhs rhs => [lhs, rhs]
  | .assign _ target value => [target, value]
  | .call _ _ args => args
  | .exprStmt _ expr => [expr]
  | .ret _ value => [value]
  | .block _ body => body
  | .ifElse _ cond onTrue onFalse => cond :: onTrue :: onFalse.toList
  | .loop _ init cond step body => init.toList ++ (cond.toList ++ (step.toList ++ [body]))

/-- Takes a tree from the front of a list, if there was one before. -/
def takeSome : Option Node → List Node → Option Node × List Node
  | none, nodes => (none, nodes)
  | some node, nodes => (some (nodes.headD node), nodes.tail)

/-- The node with other children.  There have to be as many as before. -/
def withChildren (node : Node) (nodes : List Node) : Node :=
  match node with
  | .num mark value => .num mark value
  | .var mark ref => .var mark ref
  | .neg mark operand => .neg mark (nodes.headD operand)
  | .addr mark operand => .addr mark (nodes.headD operand)
  | .deref mark operand => .deref mark (nodes.headD operand)
  | .binary mark op lhs rhs => .binary mark op (nodes.headD lhs) (nodes.tail.headD rhs)
  | .assign mark target value => .assign mark (nodes.headD target) (nodes.tail.headD value)
  | .call mark name _ => .call mark name nodes
  | .exprStmt mark expr => .exprStmt mark (nodes.headD expr)
  | .ret mark value => .ret mark (nodes.headD value)
  | .block mark _ => .block mark nodes
  | .ifElse mark cond onTrue onFalse =>
    .ifElse mark (nodes.headD cond) (nodes.tail.headD onTrue) (takeSome onFalse nodes.tail.tail).1
  | .loop mark init cond step body =>
    let init := takeSome init nodes
    let cond := takeSome cond init.2
    let step := takeSome step cond.2
    .loop mark init.1 cond.1 step.1 (step.2.headD body)

/-- The node with another type. -/
def withTy (node : Node) (ty : Option Ty) : Node :=
  match node with
  | .num mark value => .num { mark with ty } value
  | .var mark ref => .var { mark with ty } ref
  | .neg mark operand => .neg { mark with ty } operand
  | .addr mark operand => .addr { mark with ty } operand
  | .deref mark operand => .deref { mark with ty } operand
  | .binary mark op lhs rhs => .binary { mark with ty } op lhs rhs
  | .assign mark target value => .assign { mark with ty } target value
  | .call mark name args => .call { mark with ty } name args
  | .exprStmt mark expr => .exprStmt { mark with ty } expr
  | .ret mark value => .ret { mark with ty } value
  | .block mark body => .block { mark with ty } body
  | .ifElse mark cond onTrue onFalse => .ifElse { mark with ty } cond onTrue onFalse
  | .loop mark init cond step body => .loop { mark with ty } init cond step body

/-- The type of a node whose children have been typed.  A statement has none. -/
def ownTy (symbols : Symbols) : Node → Except Failure (Option Ty)
  | .num _ _ | .call _ _ _ => .ok (some .int)
  | .var _ ref => return some (← orFault (symbols.get ref)).ty
  | .neg _ operand => return some (← operand.valueTy)
  | .addr _ operand => return some (← addrTy operand)
  | .deref mark operand => return some (← derefTy mark.loc operand)
  | .binary _ op lhs _ => return some (← binaryTy op lhs)
  | .assign _ target _ => return some (← assignTy target)
  | .exprStmt _ _ | .ret _ _ | .block _ _ | .ifElse _ _ _ _ | .loop _ _ _ _ _ => .ok none

@[simp] theorem children_withTy (node : Node) (ty : Option Ty) :
    (node.withTy ty).children = node.children := by
  cases node <;> rfl

@[simp] theorem ty_withTy (node : Node) (ty : Option Ty) : (node.withTy ty).ty = ty := by
  cases node <;> rfl

/-- Giving a node the type that it has changes nothing. -/
theorem withTy_of_ty {node : Node} {ty : Option Ty} (h : node.ty = ty) : node.withTy ty = node := by
  subst h
  cases node <;> rfl

@[simp] theorem ty_withChildren (node : Node) (nodes : List Node) :
    (node.withChildren nodes).ty = node.ty := by
  cases node <;> rfl

/-- A list that is long enough is a tree, if there was one before, and the rest. -/
theorem takeSome_of_length {node : Option Node} {nodes rest : List Node}
    (h : nodes.length = (node.toList ++ rest).length) :
    (takeSome node nodes).1.toList ++ (takeSome node nodes).2 = nodes
      ∧ (takeSome node nodes).2.length = rest.length := by
  cases node with
  | none => exact ⟨rfl, h⟩
  | some node =>
    obtain ⟨first, more, rfl⟩ := List.exists_cons_of_length_eq_add_one h
    exact ⟨rfl, Nat.succ.inj h⟩

/-- Which trees stand in a list depends on whether there was a tree before, not on which. -/
theorem takeSome_takeSome {node : Option Node} {nodes more rest : List Node}
    (h : more.length = (node.toList ++ rest).length) :
    takeSome (takeSome node nodes).1 more = takeSome node more := by
  cases node with
  | none => rfl
  | some node =>
    obtain ⟨first, more, rfl⟩ := List.exists_cons_of_length_eq_add_one h
    rfl

/-- Giving a node its own children changes nothing. -/
theorem withChildren_children (node : Node) : node.withChildren node.children = node := by
  cases node with
  | ifElse mark cond onTrue onFalse => cases onFalse <;> rfl
  | loop mark init cond step body => cases init <;> cases cond <;> cases step <;> rfl
  | _ => rfl

/-- A node has the children that it is given, if they are as many as before. -/
theorem children_withChildren {node : Node} {nodes : List Node}
    (h : nodes.length = node.children.length) : (node.withChildren nodes).children = nodes := by
  cases node with
  | num | var => exact (List.length_eq_zero_iff.1 h).symm
  | neg | addr | deref | exprStmt | ret =>
    obtain ⟨node, rfl⟩ := List.length_eq_one_iff.1 h
    rfl
  | binary | assign =>
    obtain ⟨first, second, rfl⟩ := List.length_eq_two.1 h
    rfl
  | call | block => rfl
  | ifElse mark cond onTrue onFalse =>
    obtain ⟨first, more, rfl⟩ := List.exists_cons_of_length_eq_add_one h
    obtain ⟨second, more, rfl⟩ := List.exists_cons_of_length_eq_add_one (Nat.succ.inj h)
    have hrest : more.length = (onFalse.toList ++ []).length := by
      rw [List.append_nil]
      exact Nat.succ.inj (Nat.succ.inj h)
    obtain ⟨hmore, hempty⟩ := takeSome_of_length hrest
    rw [List.length_eq_zero_iff.1 hempty, List.append_nil] at hmore
    exact congrArg (first :: second :: ·) hmore
  | loop mark init cond step body =>
    -- The clauses of a loop may be missing, so each that is there takes its tree off the list.
    obtain ⟨hinit, hlength⟩ := takeSome_of_length h
    obtain ⟨hcond, hlength⟩ := takeSome_of_length hlength
    obtain ⟨hstep, hlength⟩ := takeSome_of_length hlength
    obtain ⟨last, hlast⟩ := List.length_eq_one_iff.1 hlength
    simp only [withChildren, children]
    rw [hlast, List.headD_cons, ← hlast, hstep, hcond, hinit]

/-- Only the children that are given last count. -/
theorem withChildren_withChildren (node : Node) (nodes : List Node) {more : List Node}
    (hmore : more.length = node.children.length) :
    (node.withChildren nodes).withChildren more = node.withChildren more := by
  cases node with
  | num | var | call | block => rfl
  | neg | addr | deref | exprStmt | ret =>
    obtain ⟨node, rfl⟩ := List.length_eq_one_iff.1 hmore
    rfl
  | binary | assign =>
    obtain ⟨first, second, rfl⟩ := List.length_eq_two.1 hmore
    rfl
  | ifElse mark cond onTrue onFalse =>
    obtain ⟨first, more, rfl⟩ := List.exists_cons_of_length_eq_add_one hmore
    obtain ⟨second, more, rfl⟩ := List.exists_cons_of_length_eq_add_one (Nat.succ.inj hmore)
    have hrest : more.length = (onFalse.toList ++ []).length := by
      rw [List.append_nil]
      exact Nat.succ.inj (Nat.succ.inj hmore)
    simp only [withChildren, List.headD_cons, List.tail_cons, takeSome_takeSome hrest]
  | loop mark init cond step body =>
    -- How many trees the clauses take depends on which clauses there are, and these stay.
    have hcond := (takeSome_of_length hmore).2
    have hstep := (takeSome_of_length hcond).2
    have hbody := (takeSome_of_length hstep).2
    obtain ⟨last, hlast⟩ := List.length_eq_one_iff.1 hbody
    simp only [withChildren, takeSome_takeSome hmore, takeSome_takeSome hcond,
      takeSome_takeSome hstep, hlast, List.headD_cons]

end Node

theorem annotateAll_nil (symbols : Symbols) : annotateAll symbols [] = pure [] := by
  rw [annotateAll]
  rfl

/-- Typing, said once for all kinds of nodes: the children come first, and the type of the node is
found from theirs. -/
theorem annotate_eq (symbols : Symbols) (node : Node) :
    annotate symbols node
      = if node.ty.isSome then .ok node
        else do
          let nodes ← annotateAll symbols node.children
          let ty ← (node.withChildren nodes).ownTy symbols
          return (node.withChildren nodes).withTy ty := by
  rw [annotate.eq_def]
  split
  · rfl
  · next hty =>
    have hty : node.ty = none := by simpa using hty
    have hok : ∀ ty : Option Ty, (Except.ok ty : Except Failure (Option Ty)) = pure ty :=
      fun _ => rfl
    -- A statement keeps the type that it has, which is none.
    have hstmt : ∀ nodes, (node.withChildren nodes).withTy none = node.withChildren nodes :=
      fun nodes => Node.withTy_of_ty (by rw [Node.ty_withChildren, hty])
    cases node with
    | num => rfl
    | var | neg | addr | deref | binary | assign | call =>
      simp only [Node.children, annotateAll_nil, annotateAll, bind_assoc, pure_bind, Node.ownTy,
        Node.withChildren, hok]
      rfl
    | exprStmt | ret =>
      simp only [Node.withChildren] at hstmt
      simp only [Node.children, annotateAll, bind_assoc, pure_bind, Node.ownTy, Node.withChildren,
        hok, hstmt]
      rfl
    | block =>
      simp only [Node.withChildren] at hstmt
      simp only [Node.children, pure_bind, Node.ownTy, Node.withChildren, hok, hstmt]
    | ifElse mark cond onTrue onFalse =>
      simp only [Node.withChildren] at hstmt
      cases onFalse <;>
      · simp only [Node.children, annotateAll, annotateSome, bind_assoc, pure_bind, Node.ownTy,
          Node.withChildren, hok, hstmt, Option.toList]
        rfl
    -- The parts of a head that are there are the first children, in their order.
    | loop mark init cond step body =>
      simp only [Node.withChildren] at hstmt
      cases init <;> cases cond <;> cases step <;>
      · simp only [Node.children, annotateAll, annotateSome, bind_assoc, pure_bind, Node.ownTy,
          Node.withChildren, hok, hstmt, Option.toList, List.nil_append, List.cons_append]
        rfl

/-! ### Parts of a tree -/

namespace Node

/-- A child is smaller than its node, so an induction on the size comes to all parts. -/
theorem sizeOf_lt_of_mem_children {node child : Node} (h : child ∈ node.children) :
    sizeOf child < sizeOf node := by
  cases node with
  | num | var => exact nomatch h
  | neg | addr | deref | exprStmt | ret =>
    obtain rfl := List.mem_singleton.1 h
    simp only [neg.sizeOf_spec, addr.sizeOf_spec, deref.sizeOf_spec, exprStmt.sizeOf_spec,
      ret.sizeOf_spec]
    omega
  | binary | assign =>
    simp only [children, List.mem_cons, List.not_mem_nil, or_false] at h
    rcases h with rfl | rfl <;> simp only [binary.sizeOf_spec, assign.sizeOf_spec] <;> omega
  | call | block =>
    have := List.sizeOf_lt_of_mem h
    simp only [call.sizeOf_spec, block.sizeOf_spec]
    simp only [children] at this
    omega
  -- The parts that may be missing are told apart, so that all children are listed.
  | ifElse mark cond onTrue onFalse =>
    cases onFalse <;>
    · simp only [children, Option.toList, List.mem_cons, List.not_mem_nil, or_false] at h
      simp only [ifElse.sizeOf_spec, Option.some.sizeOf_spec]
      grind
  | loop mark init cond step body =>
    cases init <;> cases cond <;> cases step <;>
    · simp only [children, Option.toList, List.nil_append, List.cons_append, List.mem_cons,
        List.not_mem_nil, or_false] at h
      simp only [loop.sizeOf_spec, Option.some.sizeOf_spec]
      grind

/-- What holds of a node if it holds of its children holds of all trees. -/
theorem children_induction {p : Node → Prop}
    (h : ∀ node, (∀ child ∈ node.children, p child) → p node) (node : Node) : p node :=
  (measure fun node : Node => sizeOf node).wf.induction node fun node ih =>
    h node fun child hchild => ih child (sizeOf_lt_of_mem_children hchild)

/-- The parts of a tree, the tree itself included. -/
inductive Within (node : Node) : Node → Prop
  | self : Within node node
  | child {part child : Node} (hpart : Within node part) (hchild : child ∈ part.children) :
    Within node child

/-- A part of a part is a part. -/
theorem Within.trans {node part inner : Node} (h : node.Within part) (hinner : part.Within inner) :
    node.Within inner := by
  induction hinner with
  | self => exact h
  | child _ hchild ih => exact .child ih hchild

/-- A part of a child is a part of the node. -/
theorem Within.of_child {node child part : Node} (hchild : child ∈ node.children)
    (h : child.Within part) : node.Within part :=
  .trans (.child .self hchild) h

/-- A part of a tree is the tree or a part of one of its children. -/
theorem within_iff {node part : Node} :
    node.Within part ↔ part = node ∨ ∃ child ∈ node.children, child.Within part := by
  constructor
  · intro h
    induction h with
    | self => exact .inl rfl
    | @child inner part _ hpart ih =>
      rcases ih with rfl | ⟨child, hchild, hinner⟩
      · exact .inr ⟨part, hpart, .self⟩
      · exact .inr ⟨child, hchild, .child hinner hpart⟩
  · rintro (rfl | ⟨child, hchild, hpart⟩)
    · exact .self
    · exact .of_child hchild hpart

/-- What holds of all parts holds of the node and of all parts of its children. -/
theorem forall_within_iff {node : Node} {p : Node → Prop} :
    (∀ part, node.Within part → p part)
      ↔ p node ∧ ∀ child ∈ node.children, ∀ part, child.Within part → p part := by
  simp only [@within_iff node, or_imp, forall_and, forall_eq, forall_exists_index, and_imp]
  exact and_congr_right fun _ =>
    ⟨fun h child hchild part hpart => h part child hchild hpart,
      fun h part child hchild hpart => h child hchild part hpart⟩

/-- The part of a tree at a place, which is told by the numbers of the children on the way to it. -/
def at? (node : Node) : (path : List Nat) → Option Node
  | [] => some node
  | index :: path => node.children[index]?.bind (·.at? path)

/-- Typing one part of a tree.  The part may be the tree. -/
inductive TypesPart (symbols : Symbols) : Node → Node → Prop
  | here {node typed : Node} (htyped : annotate symbols node = .ok typed) :
    TypesPart symbols node typed
  | inside {node child next : Node} (index : Nat) (hchild : node.children[index]? = some child)
      (hnext : TypesPart symbols child next) :
    TypesPart symbols node (node.withChildren (node.children.set index next))

/-- Trees that have come from `fresh` by typing parts, one after the other, while the tables grew
from `first` to the present ones. -/
inductive TypedInParts (first : Symbols) (fresh : Node) : (last : Symbols) → Node → Prop
  | start : TypedInParts first fresh first fresh
  | grow {symbols last : Symbols} {node : Node} (h : TypedInParts first fresh symbols node)
      (hgrow : symbols.Extends last) : TypedInParts first fresh last node
  | part {last : Symbols} {node next : Node} (h : TypedInParts first fresh last node)
      (hpart : node.TypesPart last next) : TypedInParts first fresh last next

end Node

/-! ### Typing has an effect once -/

section Once

variable {symbols larger : Symbols}

/-- A list is typed if each of its trees is, one by one. -/
theorem annotateAll_eq_ok_iff {nodes typed : List Node} :
    annotateAll symbols nodes = .ok typed
      ↔ List.Forall₂ (fun node typed => annotate symbols node = .ok typed) nodes typed := by
  induction nodes generalizing typed with
  | nil =>
    rw [annotateAll, List.forall₂_nil_left_iff]
    exact ⟨fun h => (Except.ok.inj h).symm, fun h => h ▸ rfl⟩
  | cons node nodes ih =>
    rw [annotateAll, List.forall₂_cons_left_iff]
    constructor
    · intro h
      obtain ⟨first, hfirst, h⟩ := bind_eq_ok_iff.1 h
      obtain ⟨rest, hrest, h⟩ := bind_eq_ok_iff.1 h
      exact ⟨first, rest, hfirst, ih.1 hrest, (Except.ok.inj h).symm⟩
    · rintro ⟨first, rest, hfirst, hrest, rfl⟩
      exact bind_eq_ok_iff.2 ⟨first, hfirst, bind_eq_ok_iff.2 ⟨rest, ih.2 hrest, rfl⟩⟩

theorem length_of_annotateAll {nodes typed : List Node}
    (h : annotateAll symbols nodes = .ok typed) :
    typed.length = nodes.length :=
  (annotateAll_eq_ok_iff.1 h).length_eq.symm

/-- Every tree of a list that has been typed was typed on its own. -/
theorem exists_of_mem_annotateAll {nodes typed : List Node}
    (h : annotateAll symbols nodes = .ok typed) {part : Node} (hpart : part ∈ typed) :
    ∃ node ∈ nodes, annotate symbols node = .ok part := by
  rw [annotateAll_eq_ok_iff] at h
  induction h with
  | nil => exact absurd hpart List.not_mem_nil
  | @cons node first nodes rest hfirst _ ih =>
    rcases List.mem_cons.1 hpart with rfl | hpart
    · exact ⟨node, List.mem_cons_self, hfirst⟩
    · obtain ⟨node, hnode, hannotate⟩ := ih hpart
      exact ⟨node, List.mem_cons_of_mem _ hnode, hannotate⟩

/-- A node without a type is typed by way of its children. -/
theorem exists_children_of_annotate {node typed : Node} (hty : node.ty = none)
    (h : annotate symbols node = .ok typed) :
    ∃ ty, annotateAll symbols node.children = .ok typed.children
      ∧ (node.withChildren typed.children).ownTy symbols = .ok ty
      ∧ typed = (node.withChildren typed.children).withTy ty := by
  rw [annotate_eq, hty] at h
  obtain ⟨nodes, hnodes, h⟩ := bind_eq_ok_iff.1 h
  obtain ⟨ty, hown, h⟩ := bind_eq_ok_iff.1 h
  have hchildren : typed.children = nodes := by
    rw [← Except.ok.inj h, Node.children_withTy,
      Node.children_withChildren (length_of_annotateAll hnodes)]
  rw [hchildren]
  exact ⟨ty, hnodes, hown, (Except.ok.inj h).symm⟩

/-- Whether a node is a statement is seen without the tables. -/
theorem Node.ownTy_of_none {node : Node} (h : node.ownTy symbols = .ok none) :
    node.ownTy larger = .ok none := by
  cases node with
  | exprStmt | ret | block | ifElse | loop => rfl
  | num | call => exact nomatch h
  | var | neg | addr | deref | binary | assign =>
    obtain ⟨ty, -, h⟩ := bind_eq_ok_iff.1 h
    exact nomatch h

/-- **Typing once is enough**: what has been typed is left as it is, whatever the tables are. -/
theorem annotate_of_annotate {node typed : Node} (h : annotate symbols node = .ok typed)
    (larger : Symbols) : annotate larger typed = .ok typed := by
  induction node using Node.children_induction generalizing typed with
  | h node ih =>
  cases hty : node.ty with
  | some ty =>
    rw [annotate_of_ty hty] at h
    obtain rfl := Except.ok.inj h
    exact annotate_of_ty hty
  | none =>
    obtain ⟨ty, hnodes, hown, htyped⟩ := exists_children_of_annotate hty h
    cases ty with
    | some ty => exact annotate_of_ty (htyped ▸ Node.ty_withTy _ _)
    | none =>
      -- A statement is walked through again, and nothing is found to do.
      have hagain : annotateAll larger typed.children = .ok typed.children := by
        rw [annotateAll_eq_ok_iff, List.forall₂_same]
        intro part hpart
        obtain ⟨child, hchild, hannotate⟩ := exists_of_mem_annotateAll hnodes hpart
        exact ih child hchild hannotate
      have hstmt : typed = node.withChildren typed.children := by
        rw [Node.withTy_of_ty (by rw [Node.ty_withChildren, hty])] at htyped
        exact htyped
      have hnone : typed.ty = none := by rw [hstmt, Node.ty_withChildren, hty]
      rw [← hstmt] at hown
      rw [annotate_eq, hnone, hagain]
      show (do
        let ty ← (typed.withChildren typed.children).ownTy larger
        return (typed.withChildren typed.children).withTy ty) = _
      rw [Node.withChildren_children, Node.ownTy_of_none hown]
      exact congrArg _ (Node.withTy_of_ty hnone)

/-- What is known of the end of a sequence is known of the end of its first part. -/
theorem Ends.of_bind {ε α β : Type} {good : β → Prop} {bad : ε → Prop} {r : Except ε α}
    {f : α → Except ε β} (h : Ends (r >>= f) good bad) :
    Ends r (fun a => Ends (f a) good bad) bad := by
  cases r with
  | ok a => exact h
  | error e => exact h

/-- The type of a node whose children are typed is the same in larger tables, a complaint
included. -/
theorem Node.ownTy_extend (hgrow : symbols.Extends larger) {node : Node} {good : Option Ty → Prop}
    (h : Ends (node.ownTy symbols) good Failure.IsComplaint) :
    node.ownTy larger = node.ownTy symbols := by
  cases node with
  | var mark ref =>
    cases hget : symbols.get ref with
    | ok found => rw [ownTy, ownTy, hget, hgrow.get hget]
    | error fault =>
      rw [ownTy, hget] at h
      exact h.elim
  | _ => rfl

/-- A list whose trees are typed alike in larger tables is typed alike in them. -/
theorem annotateAll_extend {nodes : List Node} {good : List Node → Prop}
    (ih : ∀ node ∈ nodes, ∀ good, Ends (annotate symbols node) good Failure.IsComplaint →
      annotate larger node = annotate symbols node)
    (h : Ends (annotateAll symbols nodes) good Failure.IsComplaint) :
    annotateAll larger nodes = annotateAll symbols nodes := by
  induction nodes generalizing good with
  | nil => rw [annotateAll, annotateAll]
  | cons node nodes ihs =>
    rw [annotateAll] at h ⊢
    rw [annotateAll, ih node List.mem_cons_self _ h.of_bind]
    cases hnode : annotate symbols node with
    | error failure => rfl
    | ok typed =>
      rw [hnode] at h
      have hrest : Ends (annotateAll symbols nodes) _ Failure.IsComplaint := Ends.of_bind h.of_bind
      show (do let rest ← annotateAll larger nodes; return typed :: rest) = _
      rw [ihs (fun n hn => ih n (List.mem_cons_of_mem _ hn)) hrest]
      rfl

/-- Larger tables make no difference, unless a variable was missing. -/
theorem annotate_extend (hgrow : symbols.Extends larger) {node : Node} {good : Node → Prop}
    (h : Ends (annotate symbols node) good Failure.IsComplaint) :
    annotate larger node = annotate symbols node := by
  induction node using Node.children_induction generalizing good with
  | h node ih =>
  rw [annotate_eq] at h ⊢
  rw [annotate_eq]
  split at h
  · next hty => rw [if_pos hty, if_pos hty]
  · next hty =>
    rw [if_neg hty, if_neg hty, annotateAll_extend (fun n hn _ => ih n hn) h.of_bind]
    cases hnodes : annotateAll symbols node.children with
    | error failure => rfl
    | ok nodes =>
      rw [hnodes] at h
      have hown : Ends ((node.withChildren nodes).ownTy symbols) _ Failure.IsComplaint :=
        Ends.of_bind h.of_bind
      show (do
        let ty ← (node.withChildren nodes).ownTy larger
        return (node.withChildren nodes).withTy ty) = _
      rw [Node.ownTy_extend hgrow hown]
      rfl

/-- A tree that is typed is typed alike in larger tables. -/
theorem annotate_extend_of_eq_ok (hgrow : symbols.Extends larger) {node typed : Node}
    (h : annotate symbols node = .ok typed) : annotate larger node = .ok typed := by
  have hends : Ends (annotate symbols node) (fun _ => True) Failure.IsComplaint := by
    rw [h]
    trivial
  rw [annotate_extend hgrow hends, h]

end Once

/-! ### Variables that are in the tables -/

/-- All variables of a tree are in the tables. -/
def Node.InTables (symbols : Symbols) (node : Node) : Prop :=
  ∀ mark ref, node.Within (.var mark ref) → ∃ found, symbols.get ref = .ok found

/-- An expression without a value is complained about, and nothing else goes wrong. -/
theorem complains_valueTy (node : Node) :
    Ends node.valueTy (fun _ => True) Failure.IsComplaint := by
  unfold Node.valueTy
  split <;> trivial

theorem complains_addrTy (operand : Node) :
    Ends (addrTy operand) (fun _ => True) Failure.IsComplaint := by
  unfold addrTy
  cases operand.hasAddress with
  | false => trivial
  | true =>
    refine (complains_valueTy operand).bind fun ty _ => ?_
    cases ty <;> trivial

/-- What cannot be dereferenced is complained about, and nothing else goes wrong. -/
theorem complains_derefTy (loc : Nat) (operand : Node) :
    Ends (derefTy loc operand) (fun _ => True) Failure.IsComplaint := by
  refine (complains_valueTy operand).bind fun ty _ => ?_
  cases ty.base? <;> trivial

theorem complains_assignTy (target : Node) :
    Ends (assignTy target) (fun _ => True) Failure.IsComplaint := by
  refine (complains_valueTy target).bind fun ty _ => ?_
  split <;> trivial

/-- A left operand without a value is complained about, and nothing else goes wrong. -/
theorem complains_binaryTy (op : BinaryOp) (lhs : Node) :
    Ends (binaryTy op lhs) (fun _ => True) Failure.IsComplaint := by
  unfold binaryTy
  split
  · exact complains_valueTy lhs
  · trivial

/-- Only a variable can be missing from the tables. -/
theorem Node.complains_ownTy {symbols : Symbols} {node : Node}
    (h : ∀ mark ref, node = .var mark ref → ∃ found, symbols.get ref = .ok found) :
    Ends (node.ownTy symbols) (fun _ => True) Failure.IsComplaint := by
  cases node with
  | var mark ref =>
    obtain ⟨found, hget⟩ := h mark ref rfl
    rw [ownTy, hget]
    trivial
  | neg mark operand => exact (complains_valueTy operand).bind fun _ _ => trivial
  | addr mark operand => exact (complains_addrTy operand).bind fun _ _ => trivial
  | deref mark operand => exact (complains_derefTy mark.loc operand).bind fun _ _ => trivial
  | binary mark op lhs rhs => exact (complains_binaryTy op lhs).bind fun _ _ => trivial
  | assign mark target value => exact (complains_assignTy target).bind fun _ _ => trivial
  | _ => trivial

/-- If all variables are in the tables, then typing fails only with a complaint. -/
theorem Node.InTables.ends_annotate {symbols : Symbols} {node : Node} (h : node.InTables symbols) :
    Ends (annotate symbols node) (fun _ => True) Failure.IsComplaint := by
  induction node using Node.children_induction with
  | h node ih =>
  rw [annotate_eq]
  split
  · trivial
  have hchildren : ∀ child ∈ node.children,
      Ends (annotate symbols child) (fun _ => True) Failure.IsComplaint :=
    fun child hchild => ih child hchild fun mark ref hvar => h mark ref (.of_child hchild hvar)
  refine (ends_annotateAll _ hchildren).bind fun nodes _ => ?_
  refine (Node.complains_ownTy fun mark ref hvar => ?_).bind fun _ _ => trivial
  have hnode : node = .var mark ref := by
    cases node with
    | var => exact hvar
    | _ => exact nomatch hvar
  exact h mark ref (hnode ▸ .self)

/-! ### Typing in parts -/

namespace Node

/-- Nothing is left to be typed in a tree. -/
def Settled (node : Node) : Prop :=
  ∀ part, node.Within part → ∀ symbols, annotate symbols part = .ok part

/-- Below a node with a type nothing is left to be typed. -/
def Coherent (node : Node) : Prop :=
  ∀ part, node.Within part → part.ty.isSome → part.Settled

variable {symbols : Symbols} {node child typed next : Node}

/-- The parts of a settled tree are settled. -/
theorem Settled.within {part : Node} (h : node.Settled) (hpart : node.Within part) : part.Settled :=
  fun _ hinner => h _ (hpart.trans hinner)

/-- A settled tree is coherent: all of its parts are settled. -/
theorem Settled.coherent (h : node.Settled) : node.Coherent :=
  fun _ hpart _ => h.within hpart

/-- The children of a coherent tree are coherent. -/
theorem Coherent.of_mem (h : node.Coherent) (hchild : child ∈ node.children) : child.Coherent :=
  fun part hpart => h part (.of_child hchild hpart)

/-- A node without a type is coherent if its children are. -/
theorem coherent_of_children (hty : node.ty = none) (h : ∀ child ∈ node.children, child.Coherent) :
    node.Coherent := by
  intro part hpart hsome
  rcases within_iff.1 hpart with rfl | ⟨child, hchild, hpart⟩
  · rw [hty] at hsome
    exact nomatch hsome
  · exact h child hchild part hpart hsome

/-- Nothing is left to be typed in a tree that has been typed. -/
theorem Coherent.settled_of_annotate (h : node.Coherent)
    (htyped : annotate symbols node = .ok typed) :
    typed.Settled := by
  induction node using Node.children_induction generalizing typed with
  | h node ih =>
  cases hty : node.ty with
  | some ty =>
    rw [annotate_of_ty hty] at htyped
    obtain rfl := Except.ok.inj htyped
    exact h _ .self (by rw [hty]; rfl)
  | none =>
    obtain ⟨ty, hnodes, -, -⟩ := exists_children_of_annotate hty htyped
    intro part hpart larger
    rcases within_iff.1 hpart with rfl | ⟨typedChild, hmem, hpart⟩
    · exact annotate_of_annotate htyped larger
    · obtain ⟨child, hchild, hannotate⟩ := exists_of_mem_annotateAll hnodes hmem
      exact ih child hchild (h.of_mem hchild) hannotate part hpart larger

/-- Where nothing is left to be typed, typing a part changes nothing. -/
theorem TypesPart.eq_of_settled (h : node.TypesPart symbols next) (hnode : node.Settled) :
    next = node := by
  induction h with
  | here htyped =>
    rw [hnode _ .self] at htyped
    exact (Except.ok.inj htyped).symm
  | @inside node child next index hchild _ ih =>
    have hmem := List.mem_of_getElem? hchild
    obtain ⟨hindex, rfl⟩ := List.getElem?_eq_some_iff.1 hchild
    rw [ih (hnode.within (.of_child hmem .self)), List.set_getElem_self, withChildren_children]

/-- Trees of a list are typed on their own. -/
theorem annotateAll_set {larger : Symbols} {nodes : List Node} {index : Nat}
    (hchild : nodes[index]? = some child) (h : annotate larger next = annotate larger child) :
    annotateAll larger (nodes.set index next) = annotateAll larger nodes := by
  induction nodes generalizing index with
  | nil => exact nomatch hchild
  | cons first nodes ih =>
    cases index with
    | zero =>
      obtain rfl := Option.some.inj hchild
      rw [List.set_cons_zero, annotateAll, annotateAll, h]
    | succ index => rw [List.set_cons_succ, annotateAll, annotateAll, ih hchild]

/-- **Typing a part** leaves the outcome of typing the whole tree as it was. -/
theorem TypesPart.annotate_eq (h : node.TypesPart symbols next) (hnode : node.Coherent) :
    next.Coherent
      ∧ ∀ larger, symbols.Extends larger → annotate larger next = annotate larger node := by
  induction h with
  | @here node typed htyped =>
    refine ⟨(hnode.settled_of_annotate htyped).coherent, fun larger hgrow => ?_⟩
    rw [annotate_of_annotate htyped, annotate_extend_of_eq_ok hgrow htyped]
  | @inside node child next index hchild hnext ih =>
    have hmem := List.mem_of_getElem? hchild
    cases hty : node.ty with
    -- Below a node with a type there was nothing left to do.
    | some ty =>
      have hsettled : node.Settled := hnode node .self (by rw [hty]; rfl)
      rw [TypesPart.eq_of_settled (.inside index hchild hnext) hsettled]
      exact ⟨hnode, fun _ _ => rfl⟩
    | none =>
      obtain ⟨hcoherent, hagree⟩ := ih (hnode.of_mem hmem)
      have hchildren : (node.withChildren (node.children.set index next)).children
          = node.children.set index next := children_withChildren List.length_set
      refine ⟨?_, fun larger hgrow => ?_⟩
      · refine coherent_of_children (by rw [ty_withChildren, hty]) fun other hother => ?_
        rw [hchildren] at hother
        rcases List.mem_or_eq_of_mem_set hother with hother | rfl
        · exact hnode.of_mem hother
        · exact hcoherent
      · rw [PocketCompiler.annotate_eq, PocketCompiler.annotate_eq, ty_withChildren, hty, hchildren,
          annotateAll_set hchild (hagree larger hgrow)]
        -- The children come out the same, and the node is built from them alone.
        cases hnodes : annotateAll larger node.children with
        | error failure => rfl
        | ok nodes =>
          show (do
            let ty ← ((node.withChildren _).withChildren nodes).ownTy larger
            return ((node.withChildren _).withChildren nodes).withTy ty) = _
          rw [withChildren_withChildren node _ (length_of_annotateAll hnodes)]
          rfl

/-- Typing parts leaves the outcome of typing the whole tree as it was. -/
theorem TypedInParts.annotate_eq {first last : Symbols} {fresh : Node}
    (h : fresh.TypedInParts first last node) (hfresh : fresh.Coherent) :
    node.Coherent
      ∧ ∀ larger, last.Extends larger → annotate larger node = annotate larger fresh := by
  induction h with
  | start => exact ⟨hfresh, fun _ _ => rfl⟩
  | grow _ hgrow ih => exact ⟨ih.1, fun larger hlarger => ih.2 larger (hgrow.trans hlarger)⟩
  | part _ hpart ih =>
    obtain ⟨hcoherent, hagree⟩ := hpart.annotate_eq ih.1
    exact ⟨hcoherent, fun larger hgrow => (hagree larger hgrow).trans (ih.2 larger hgrow)⟩

/-- While parts are typed, the tables do nothing but grow. -/
theorem TypedInParts.extends {first last : Symbols} {fresh : Node}
    (h : fresh.TypedInParts first last node) : first.Extends last := by
  induction h with
  | start => exact .refl _
  | grow _ hgrow ih => exact ih.trans hgrow
  | part _ _ ih => exact ih

/-! ### What typing leaves as it was -/

/-- `typed` is `node` with types where there were none. -/
structure CompletedBy (node typed : Node) : Prop where
  /-- There is nothing left to do. -/
  again : ∀ symbols, annotate symbols typed = .ok typed
  /-- Kinds, places and children are the same. -/
  untyped : typed.untyped = node.untyped
  /-- A part that had a type has not been touched. -/
  keeps : ∀ path part, node.at? path = some part → part.ty.isSome → typed.at? path = some part

/-- A part that has a type stays as it is at its place. -/
theorem at?_of_annotate {path : List Nat} {part : Node} (htyped : annotate symbols node = .ok typed)
    (hpart : node.at? path = some part) (hsome : part.ty.isSome) : typed.at? path = some part := by
  induction path generalizing node typed with
  | nil =>
    obtain rfl := Option.some.inj hpart
    obtain ⟨ty, hty⟩ := Option.isSome_iff_exists.1 hsome
    rw [annotate_of_ty hty] at htyped
    rw [← Except.ok.inj htyped]
    rfl
  | cons index path ih =>
    cases hty : node.ty with
    | some ty =>
      rw [annotate_of_ty hty] at htyped
      rw [← Except.ok.inj htyped]
      exact hpart
    | none =>
      obtain ⟨ty, hnodes, -, -⟩ := exists_children_of_annotate hty htyped
      obtain ⟨child, hchild, hpart⟩ := Option.bind_eq_some_iff.1 hpart
      obtain ⟨hindex, rfl⟩ := List.getElem?_eq_some_iff.1 hchild
      have hall := annotateAll_eq_ok_iff.1 hnodes
      have hindex' : index < typed.children.length := hall.length_eq ▸ hindex
      refine Option.bind_eq_some_iff.2 ⟨_, List.getElem?_eq_getElem hindex', ?_⟩
      exact ih (hall.get hindex hindex') hpart

/-- Typing adds types where there are none, and changes nothing else. -/
theorem completedBy_of_annotate (h : annotate symbols node = .ok typed) :
    node.CompletedBy typed where
  again := annotate_of_annotate h
  untyped := (ends_untyped_annotate symbols node).of_eq_ok h
  keeps _ _ := at?_of_annotate h

/-- **Typing early and typing late agree.**  Take a tree without types whose variables are in the
tables.  However parts of it were typed while the tables grew, typing the tree in the end has the
outcome that typing it at once would have had: the same tree or the same failure.  And whatever the
tree, typing only gives types where there were none, and a second time it does nothing. -/
theorem TypedInParts.annotate_agrees {first last : Symbols} {fresh : Node}
    (hfresh : ∀ part, fresh.Within part → part.ty = none) (hvariables : fresh.InTables first)
    (h : fresh.TypedInParts first last node) :
    annotate last node = annotate first fresh
      ∧ ∀ symbols node typed, annotate symbols node = .ok typed → node.CompletedBy typed := by
  have hcoherent : fresh.Coherent := by
    intro part hpart hsome
    rw [hfresh part hpart] at hsome
    exact nomatch hsome
  refine ⟨?_, fun _ _ _ => completedBy_of_annotate⟩
  calc annotate last node = annotate last fresh := (h.annotate_eq hcoherent).2 last (.refl last)
    _ = annotate first fresh := annotate_extend h.extends hvariables.ends_annotate

/-- `*(p + 3);`, where the sum is typed as soon as it is built, then a global is added, then an
operand of the sum is typed again, and then the dereference. -/
theorem TypedInParts.annotate_agrees_sum :
    let first : Symbols := ⟨[⟨"p", .ptr .int, none⟩], []⟩
    let last : Symbols := ⟨[⟨"p", .ptr .int, none⟩], [⟨"g", .char, none⟩]⟩
    let fresh : Node := .exprStmt ⟨0, none⟩ (.deref ⟨0, none⟩
      (.binary ⟨4, none⟩ .add (.var ⟨2, none⟩ (.localVar 0)) (.num ⟨6, none⟩ 3)))
    let node : Node := .exprStmt ⟨0, none⟩ (.deref ⟨0, some .int⟩
      (.binary ⟨4, some (.ptr .int)⟩ .add (.var ⟨2, some (.ptr .int)⟩ (.localVar 0))
        (.num ⟨6, some .int⟩ 3)))
    fresh.TypedInParts first last node ∧ annotate last node = annotate first fresh
      ∧ annotate first fresh = .ok node := by
  intro first last fresh node
  -- Nothing is typed yet, and the one variable is among the locals.
  have hparts : ∀ part, fresh.Within part → part.ty = none
      ∧ ∀ mark ref, part = .var mark ref → ∃ found, first.get ref = .ok found := by
    refine forall_within_iff.2 ⟨⟨rfl, nofun⟩, List.forall_mem_singleton.2 ?_⟩
    refine forall_within_iff.2 ⟨⟨rfl, nofun⟩, List.forall_mem_singleton.2 ?_⟩
    refine forall_within_iff.2 ⟨⟨rfl, nofun⟩, List.forall_mem_cons.2 ⟨?_, ?_⟩⟩
    · refine forall_within_iff.2 ⟨⟨rfl, ?_⟩, nofun⟩
      rintro mark ref hvar
      obtain ⟨-, rfl⟩ := Node.var.inj hvar
      exact ⟨_, rfl⟩
    · exact List.forall_mem_singleton.2 (forall_within_iff.2 ⟨⟨rfl, nofun⟩, nofun⟩)
  -- The sum is typed first, then its left operand once more, then the dereference.
  have hsum : fresh.TypedInParts first first _ :=
    .part .start (.inside 0 rfl (.inside 0 rfl (.here rfl)))
  have hgrown : fresh.TypedInParts first last _ := .grow hsum ⟨List.prefix_refl _, List.nil_prefix⟩
  have hoperand : fresh.TypedInParts first last _ :=
    .part hgrown (.inside 0 rfl (.inside 0 rfl (.inside 0 rfl (.here rfl))))
  have htyped : fresh.TypedInParts first last node := .part hoperand (.inside 0 rfl (.here rfl))
  have hagrees := TypedInParts.annotate_agrees (fun part hpart => (hparts part hpart).1)
    (fun mark ref hvar => (hparts _ hvar).2 mark ref rfl) htyped
  exact ⟨htyped, hagrees.1, rfl⟩

end Node

end PocketCompiler
