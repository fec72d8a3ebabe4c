import PocketCompiler.Limit
import PocketCompiler.Typing
import PocketCompiler.Proofs.Ends

/-!
# Well-typed trees

`Node.Typed symbols node` is the typing of expressions as rules: every node carries the type that
the rules give it, operands of `&` and targets of assignments have addresses, what is
dereferenced points somewhere, variables are in the tables, and calls pass no more arguments than
there are registers.  A tree is built from the leaves up and parts of it are typed early, so
while it is built it is a `Node.Draft`: at the top nodes without a type, and below them parts that
are typed already.

`ends_annotate_of_draft`: typing a draft gives a well-typed tree or one of the two complaints that
typing can make, and never a fault.  `ends_annotate_of_overDraft` says the same of statements.
`ends_untyped_annotate`: whatever the tree, typing changes nothing but its types.
-/

namespace PocketCompiler

/-! ### Tables that grow -/

/-- A table that has all variables of another one at the same places. -/
structure Symbols.Extends (symbols larger : Symbols) : Prop where
  locals : symbols.locals <+: larger.locals
  globals : symbols.globals <+: larger.globals

/-- Every table has its own variables at their places. -/
theorem Symbols.Extends.refl (symbols : Symbols) : symbols.Extends symbols :=
  ⟨List.prefix_refl _, List.prefix_refl _⟩

/-- Tables may grow step by step. -/
theorem Symbols.Extends.trans {a b c : Symbols} (hab : a.Extends b) (hbc : b.Extends c) :
    a.Extends c :=
  ⟨hab.locals.trans hbc.locals, hab.globals.trans hbc.globals⟩

/-- What is found in a table is found at the same place in a longer one. -/
theorem entry_of_isPrefix {α : Type} {table larger : List α} {index : Nat} {a : α}
    (h : table <+: larger) (ha : entry table index = .ok a) : entry larger index = .ok a := by
  rw [entry_eq_ok_iff] at ha ⊢
  obtain ⟨rest, rfl⟩ := h
  have hindex : index < table.length := (List.getElem?_eq_some_iff.1 ha).1
  rw [List.getElem?_append_left hindex]
  exact ha

/-- A variable stays what it is when tables grow. -/
theorem Symbols.Extends.get {symbols larger : Symbols} {ref : VarRef} {found : Variable}
    (h : symbols.Extends larger) (hget : symbols.get ref = .ok found) :
    larger.get ref = .ok found := by
  cases ref with
  | localVar index => exact entry_of_isPrefix h.locals hget
  | globalVar index => exact entry_of_isPrefix h.globals hget

/-! ### The rules -/

/-- The type of the address of something of type `ty`: an array is found at its first element. -/
def Ty.ofAddress : Ty → Ty
  | .array elem _ => .ptr elem
  | ty => .ptr ty

/-- The type of `lhs op rhs` for a left operand of type `ty`. -/
def BinaryOp.resultTy (op : BinaryOp) (ty : Ty) : Ty := if op.isArithmetic then ty else .int

/-- Well-typed expressions: every node carries the type that the rules give it. -/
inductive Node.Typed (symbols : Symbols) : Node → Prop
  | num {loc value} : Typed symbols (.num ⟨loc, some .int⟩ value)
  | var {loc ref} {found : Variable} (hget : symbols.get ref = .ok found) :
    Typed symbols (.var ⟨loc, some found.ty⟩ ref)
  | neg {loc operand ty} (hoperand : Typed symbols operand) (hty : operand.ty = some ty) :
    Typed symbols (.neg ⟨loc, some ty⟩ operand)
  | addr {loc operand ty} (haddress : operand.hasAddress = true)
      (hoperand : Typed symbols operand) (hty : operand.ty = some ty) :
    Typed symbols (.addr ⟨loc, some ty.ofAddress⟩ operand)
  | deref {loc operand ty base} (hoperand : Typed symbols operand) (hty : operand.ty = some ty)
      (hbase : ty.base? = some base) :
    Typed symbols (.deref ⟨loc, some base⟩ operand)
  | binary {loc op lhs rhs ty} (hlhs : Typed symbols lhs) (hrhs : Typed symbols rhs)
      (hty : lhs.ty = some ty) :
    Typed symbols (.binary ⟨loc, some (op.resultTy ty)⟩ op lhs rhs)
  | assign {loc target value ty} (haddress : target.hasAddress = true)
      (htarget : Typed symbols target) (hvalue : Typed symbols value) (hty : target.ty = some ty)
      (harray : ty.isArray = false) :
    Typed symbols (.assign ⟨loc, some ty⟩ target value)
  | call {loc name args} (hlength : args.length ≤ maxArguments)
      (hargs : ∀ arg ∈ args, Typed symbols arg) :
    Typed symbols (.call ⟨loc, some .int⟩ name args)

/-- Expressions while they are built: parts that are typed, and nodes without a type on top. -/
inductive Node.Draft (symbols : Symbols) : Node → Prop
  | typed {node} (h : Typed symbols node) : Draft symbols node
  | num {loc value} : Draft symbols (.num ⟨loc, none⟩ value)
  | var {loc ref} {found : Variable} (hget : symbols.get ref = .ok found) :
    Draft symbols (.var ⟨loc, none⟩ ref)
  | neg {loc operand} (hoperand : Draft symbols operand) : Draft symbols (.neg ⟨loc, none⟩ operand)
  | addr {loc operand} (hoperand : Draft symbols operand) :
    Draft symbols (.addr ⟨loc, none⟩ operand)
  | deref {loc operand} (hoperand : Draft symbols operand) :
    Draft symbols (.deref ⟨loc, none⟩ operand)
  | binary {loc op lhs rhs} (hlhs : Draft symbols lhs) (hrhs : Draft symbols rhs) :
    Draft symbols (.binary ⟨loc, none⟩ op lhs rhs)
  | assign {loc target value} (htarget : Draft symbols target) (hvalue : Draft symbols value) :
    Draft symbols (.assign ⟨loc, none⟩ target value)
  | call {loc name args} (hlength : args.length ≤ maxArguments)
      (hargs : ∀ arg ∈ args, Draft symbols arg) : Draft symbols (.call ⟨loc, none⟩ name args)

/-- Statements whose expressions satisfy `p`, with expressions and statements each in their
places.  Statements have no type. -/
inductive Node.Over (p : Node → Prop) : Node → Prop
  | exprStmt {loc node} (hnode : p node) : Over p (.exprStmt ⟨loc, none⟩ node)
  | ret {loc value} (hvalue : p value) : Over p (.ret ⟨loc, none⟩ value)
  | block {loc body} (hbody : ∀ node ∈ body, Over p node) : Over p (.block ⟨loc, none⟩ body)
  | ifElse {loc cond onTrue onFalse} (hcond : p cond) (htrue : Over p onTrue)
      (hfalse : ∀ node ∈ onFalse, Over p node) : Over p (.ifElse ⟨loc, none⟩ cond onTrue onFalse)
  | loop {loc init cond step body} (hinit : ∀ node ∈ init, p node) (hcond : ∀ node ∈ cond, p node)
      (hstep : ∀ node ∈ step, p node) (hbody : Over p body) :
    Over p (.loop ⟨loc, none⟩ init cond step body)

/-! ### Larger tables, weaker properties -/

/-- A well-typed expression has a type at its root. -/
theorem Node.Typed.exists_ty {symbols : Symbols} {node : Node} (h : node.Typed symbols) :
    ∃ ty, node.ty = some ty := by
  cases h <;> exact ⟨_, rfl⟩

/-- A well-typed expression is so in larger tables, too. -/
theorem Node.Typed.extend {symbols larger : Symbols} (hsymbols : symbols.Extends larger)
    {node : Node} (h : node.Typed symbols) : node.Typed larger := by
  induction h with
  | num => exact .num
  | var hget => exact .var (hsymbols.get hget)
  | neg _ hty ih => exact .neg ih hty
  | addr haddress _ hty ih => exact .addr haddress ih hty
  | deref _ hty hbase ih => exact .deref ih hty hbase
  | binary _ _ hty ihl ihr => exact .binary ihl ihr hty
  | assign haddress _ _ hty harray iht ihv => exact .assign haddress iht ihv hty harray
  | call hlength _ ih => exact .call hlength ih

/-- A draft is one in larger tables, too. -/
theorem Node.Draft.extend {symbols larger : Symbols} (hsymbols : symbols.Extends larger)
    {node : Node} (h : node.Draft symbols) : node.Draft larger := by
  induction h with
  | typed h => exact .typed (h.extend hsymbols)
  | num => exact .num
  | var hget => exact .var (hsymbols.get hget)
  | neg _ ih => exact .neg ih
  | addr _ ih => exact .addr ih
  | deref _ ih => exact .deref ih
  | binary _ _ ihl ihr => exact .binary ihl ihr
  | assign _ _ iht ihv => exact .assign iht ihv
  | call hlength _ ih => exact .call hlength ih

/-- What follows for expressions follows for all expressions of a statement. -/
theorem Node.Over.imp {p q : Node → Prop} (hpq : ∀ node, p node → q node) {node : Node}
    (h : node.Over p) : node.Over q := by
  induction h with
  | exprStmt hnode => exact .exprStmt (hpq _ hnode)
  | ret hvalue => exact .ret (hpq _ hvalue)
  | block _ ih => exact .block ih
  | ifElse hcond _ _ iht ihf => exact .ifElse (hpq _ hcond) iht ihf
  | loop hinit hcond hstep _ ih =>
    exact .loop (fun node hnode => hpq _ (hinit node hnode))
      (fun node hnode => hpq _ (hcond node hnode)) (fun node hnode => hpq _ (hstep node hnode)) ih

/-- A statement with typed expressions is one with drafts. -/
theorem Node.Over.draft {symbols : Symbols} {node : Node} (h : node.Over (Node.Typed symbols)) :
    node.Over (Node.Draft symbols) :=
  h.imp fun _ hnode => .typed hnode

/-- A statement of drafts is one in larger tables, too. -/
theorem Node.Over.extend {symbols larger : Symbols} (hext : symbols.Extends larger) {node : Node}
    (h : node.Over (Node.Draft symbols)) : node.Over (Node.Draft larger) :=
  h.imp fun _ hnode => hnode.extend hext

/-! ### Typing a draft -/

/-- The complaints that typing can make. -/
def Failure.IsTyping (failure : Failure) : Prop :=
  ∃ loc, failure = .complaint loc .notAssignable ∨ failure = .complaint loc .notDereferenceable

theorem Failure.IsTyping.isComplaint {failure : Failure} (h : failure.IsTyping) :
    failure.IsComplaint := by
  obtain ⟨loc, rfl | rfl⟩ := h
  · trivial
  · trivial

/-- A node with a type is left alone. -/
theorem annotate_of_ty {symbols : Symbols} {node : Node} {ty : Ty} (h : node.ty = some ty) :
    annotate symbols node = .ok node := by
  rw [annotate.eq_def, h]
  rfl

theorem valueTy_of_ty {node : Node} {ty : Ty} (h : node.ty = some ty) :
    node.valueTy = .ok ty := by
  rw [Node.valueTy, h]

theorem binaryTy_of_ty {op : BinaryOp} {lhs : Node} {ty : Ty} (h : lhs.ty = some ty) :
    binaryTy op lhs = .ok (op.resultTy ty) := by
  unfold binaryTy BinaryOp.resultTy
  split
  · exact valueTy_of_ty h
  · rfl

/-- The address is taken of what has one, and of nothing else. -/
theorem ends_addrTy {operand : Node} {ty : Ty} (h : operand.ty = some ty) :
    Ends (addrTy operand) (fun found => operand.hasAddress = true ∧ found = ty.ofAddress)
      Failure.IsTyping := by
  unfold addrTy
  rw [valueTy_of_ty h]
  cases haddress : operand.hasAddress with
  | false => exact ⟨operand.loc, Or.inl rfl⟩
  | true => cases ty <;> exact ⟨rfl, rfl⟩

/-- A pointer or array is dereferenced, and nothing else. -/
theorem ends_derefTy {loc : Nat} {operand : Node} {ty : Ty} (h : operand.ty = some ty) :
    Ends (derefTy loc operand) (fun found => ty.base? = some found) Failure.IsTyping := by
  unfold derefTy
  rw [valueTy_of_ty h]
  cases hbase : ty.base? with
  | none =>
    simp only [bind, Except.bind, hbase]
    exact ⟨loc, Or.inr rfl⟩
  | some base =>
    simp only [bind, Except.bind, hbase]
    exact rfl

/-- A value is assigned to what has an address and is no array. -/
theorem ends_assignTy {target : Node} {ty : Ty} (h : target.ty = some ty) :
    Ends (assignTy target)
      (fun found => target.hasAddress = true ∧ ty.isArray = false ∧ found = ty)
      Failure.IsTyping := by
  unfold assignTy
  rw [valueTy_of_ty h]
  cases haddress : target.hasAddress with
  | false => exact ⟨target.loc, Or.inl rfl⟩
  | true =>
    cases ty with
    | array elem len => exact ⟨target.loc, Or.inl rfl⟩
    | _ => exact ⟨rfl, rfl, rfl⟩

/-- Trees of a list are typed one by one. -/
theorem ends_annotateAll {symbols : Symbols} {p : Node → Prop} {bad : Failure → Prop} :
    ∀ nodes : List Node, (∀ node ∈ nodes, Ends (annotate symbols node) p bad) →
      Ends (annotateAll symbols nodes)
        (fun typed => typed.length = nodes.length ∧ ∀ node ∈ typed, p node) bad
  | [], _ => by
    rw [annotateAll]
    exact ⟨rfl, fun node hnode => absurd hnode List.not_mem_nil⟩
  | node :: nodes, h => by
    rw [annotateAll]
    refine (h node List.mem_cons_self).bind fun first hfirst => ?_
    refine (ends_annotateAll nodes fun n hn => h n (List.mem_cons_of_mem _ hn)).bind
      fun rest hrest => ?_
    refine ⟨by rw [List.length_cons, hrest.1, List.length_cons], fun n hn => ?_⟩
    rcases List.mem_cons.1 hn with rfl | hn
    · exact hfirst
    · exact hrest.2 n hn

/-- An expression that may be missing is typed if it is there. -/
theorem ends_annotateSome {symbols : Symbols} {p : Node → Prop} {bad : Failure → Prop}
    {node : Option Node} (h : ∀ n ∈ node, Ends (annotate symbols n) p bad) :
    Ends (annotateSome symbols node) (fun typed => ∀ n ∈ typed, p n) bad := by
  cases node with
  | none =>
    rw [annotateSome]
    exact fun n hn => absurd hn (Option.not_mem_none n)
  | some node =>
    rw [annotateSome]
    refine (h node rfl).bind fun typed htyped => ?_
    intro n hn
    obtain rfl := Option.some.inj hn
    exact htyped

/-- **Typing a draft** gives a well-typed tree or a complaint of typing. -/
theorem ends_annotate_of_draft {symbols : Symbols} {node : Node} (h : node.Draft symbols) :
    Ends (annotate symbols node) (Node.Typed symbols) Failure.IsTyping := by
  induction h with
  -- A part that was typed before is left as it is.
  | typed h =>
    obtain ⟨ty, hty⟩ := h.exists_ty
    rw [annotate_of_ty hty]
    exact h
  | num => exact .num
  | var hget =>
    rw [annotate.eq_def]
    simp only [Node.ty, Node.mark, Option.isSome_none, Bool.false_eq_true, if_false, hget]
    exact .var hget
  | neg _ ih =>
    rw [annotate.eq_def]
    refine ih.bind fun operand hoperand => ?_
    obtain ⟨ty, hty⟩ := hoperand.exists_ty
    rw [valueTy_of_ty hty]
    exact .neg hoperand hty
  | addr _ ih =>
    rw [annotate.eq_def]
    refine ih.bind fun operand hoperand => ?_
    obtain ⟨ty, hty⟩ := hoperand.exists_ty
    refine (ends_addrTy hty).bind ?_
    rintro found ⟨haddress, rfl⟩
    exact .addr haddress hoperand hty
  | deref _ ih =>
    rw [annotate.eq_def]
    refine ih.bind fun operand hoperand => ?_
    obtain ⟨ty, hty⟩ := hoperand.exists_ty
    exact (ends_derefTy hty).bind fun base hbase => .deref hoperand hty hbase
  | binary _ _ ihl ihr =>
    rw [annotate.eq_def]
    refine ihl.bind fun lhs hlhs => ihr.bind fun rhs hrhs => ?_
    obtain ⟨ty, hty⟩ := hlhs.exists_ty
    rw [binaryTy_of_ty hty]
    exact .binary hlhs hrhs hty
  | assign _ _ iht ihv =>
    rw [annotate.eq_def]
    refine iht.bind fun target htarget => ihv.bind fun value hvalue => ?_
    obtain ⟨ty, hty⟩ := htarget.exists_ty
    refine (ends_assignTy hty).bind ?_
    rintro found ⟨haddress, harray, rfl⟩
    exact .assign haddress htarget hvalue hty harray
  -- Typing keeps the number of arguments.
  | call hlength _ ih =>
    rw [annotate.eq_def]
    refine (ends_annotateAll _ ih).bind fun args hargs => ?_
    exact .call (hargs.1 ▸ hlength) hargs.2

/-- Typing a statement types the expressions in it. -/
theorem Node.Over.ends_annotate {symbols : Symbols} {p q : Node → Prop} {bad : Failure → Prop}
    (hpq : ∀ node, p node → Ends (annotate symbols node) q bad) {node : Node} (h : node.Over p) :
    Ends (annotate symbols node) (Node.Over q) bad := by
  -- Statements are only rebuilt; what can fail is the typing of the expressions in them.
  induction h with
  | exprStmt hnode =>
    rw [annotate.eq_def]
    exact (hpq _ hnode).bind fun _ hnode => .exprStmt hnode
  | ret hvalue =>
    rw [annotate.eq_def]
    exact (hpq _ hvalue).bind fun _ hvalue => .ret hvalue
  | block _ ih =>
    rw [annotate.eq_def]
    exact (ends_annotateAll _ ih).bind fun _ hbody => .block hbody.2
  | ifElse hcond _ _ iht ihf =>
    rw [annotate.eq_def]
    exact (hpq _ hcond).bind fun _ hcond => iht.bind fun _ htrue =>
      (ends_annotateSome ihf).bind fun _ hfalse => .ifElse hcond htrue hfalse
  | loop hinit hcond hstep _ ih =>
    rw [annotate.eq_def]
    refine (ends_annotateSome fun n hn => hpq n (hinit n hn)).bind fun _ hinit => ?_
    refine (ends_annotateSome fun n hn => hpq n (hcond n hn)).bind fun _ hcond => ?_
    refine (ends_annotateSome fun n hn => hpq n (hstep n hn)).bind fun _ hstep => ?_
    exact ih.bind fun _ hbody => .loop hinit hcond hstep hbody

/-- Typing a statement over drafts gives a statement over well-typed expressions or a complaint
of typing. -/
theorem ends_annotate_of_overDraft {symbols : Symbols} {node : Node}
    (h : node.Over (Node.Draft symbols)) :
    Ends (annotate symbols node) (Node.Over (Node.Typed symbols)) Failure.IsTyping :=
  h.ends_annotate fun _ hnode => ends_annotate_of_draft hnode

/-! ### Typing changes nothing else -/

mutual

/-- A tree without its types. -/
def Node.untyped : Node → Node
  | .num mark value => .num ⟨mark.loc, none⟩ value
  | .var mark ref => .var ⟨mark.loc, none⟩ ref
  | .neg mark operand => .neg ⟨mark.loc, none⟩ operand.untyped
  | .addr mark operand => .addr ⟨mark.loc, none⟩ operand.untyped
  | .deref mark operand => .deref ⟨mark.loc, none⟩ operand.untyped
  | .binary mark op lhs rhs => .binary ⟨mark.loc, none⟩ op lhs.untyped rhs.untyped
  | .assign mark target value => .assign ⟨mark.loc, none⟩ target.untyped value.untyped
  | .call mark name args => .call ⟨mark.loc, none⟩ name (Node.untypedAll args)
  | .exprStmt mark expr => .exprStmt ⟨mark.loc, none⟩ expr.untyped
  | .ret mark value => .ret ⟨mark.loc, none⟩ value.untyped
  | .block mark body => .block ⟨mark.loc, none⟩ (Node.untypedAll body)
  | .ifElse mark cond onTrue onFalse =>
    .ifElse ⟨mark.loc, none⟩ cond.untyped onTrue.untyped (Node.untypedSome onFalse)
  | .loop mark init cond step body =>
    .loop ⟨mark.loc, none⟩ (Node.untypedSome init) (Node.untypedSome cond) (Node.untypedSome step)
      body.untyped

/-- The trees of a list without their types. -/
def Node.untypedAll : List Node → List Node
  | [] => []
  | node :: nodes => node.untyped :: Node.untypedAll nodes

/-- A tree, if there is one, without its types. -/
def Node.untypedSome : Option Node → Option Node
  | none => none
  | some node => some node.untyped

end

/-- A failure that is not about a name. -/
def Failure.NotOfName (failure : Failure) : Prop :=
  ∀ loc name, failure ≠ .complaint loc (.undefinedVariable name)

/-- A failure of a check: neither a token that the grammar does not want nor a name that is
undefined. -/
def Failure.IsCheck : Failure → Prop
  | .complaint _ (.unexpected _ _) => False
  | .complaint _ (.undefinedVariable _) => False
  | _ => True

theorem Failure.IsCheck.notOfName {failure : Failure} (h : failure.IsCheck) :
    failure.NotOfName := by
  rintro loc name rfl
  exact h

/-- A failure to type has nothing to do with names or with what follows. -/
theorem checks_valueTy (node : Node) : Ends node.valueTy (fun _ => True) Failure.IsCheck := by
  unfold Node.valueTy
  split
  · trivial
  · trivial

theorem checks_orFault {α : Type} (r : Except Fault α) :
    Ends (orFault r) (fun _ => True) Failure.IsCheck := by
  cases r with
  | ok a => trivial
  | error fault => trivial

theorem checks_addrTy (operand : Node) :
    Ends (addrTy operand) (fun _ => True) Failure.IsCheck := by
  unfold addrTy
  cases operand.hasAddress with
  | false => trivial
  | true =>
    refine (checks_valueTy operand).bind fun ty _ => ?_
    cases ty <;> trivial

theorem checks_derefTy (loc : Nat) (operand : Node) :
    Ends (derefTy loc operand) (fun _ => True) Failure.IsCheck := by
  unfold derefTy
  refine (checks_valueTy operand).bind fun ty _ => ?_
  cases ty.base? with
  | some base => trivial
  | none => trivial

theorem checks_assignTy (target : Node) :
    Ends (assignTy target) (fun _ => True) Failure.IsCheck := by
  unfold assignTy
  refine (checks_valueTy target).bind fun ty _ => ?_
  split
  · trivial
  · trivial

theorem checks_binaryTy (op : BinaryOp) (lhs : Node) :
    Ends (binaryTy op lhs) (fun _ => True) Failure.IsCheck := by
  unfold binaryTy
  split
  · exact checks_valueTy lhs
  · trivial

mutual

/-- **Typing gives types to a tree and changes nothing else**, and what it complains of are failed
checks. -/
theorem ends_untyped_annotate (symbols : Symbols) (node : Node) :
    Ends (annotate symbols node) (fun typed => typed.untyped = node.untyped)
      Failure.IsCheck := by
  rw [annotate.eq_def]
  -- A tree that has a type already is left as it is.
  cases node.ty.isSome with
  | true => exact rfl
  | false =>
    -- Each node types its children from left to right, and then itself.
    cases node with
    | num mark value => exact rfl
    | var mark ref => exact (checks_orFault _).bind fun found _ => rfl
    | neg mark operand =>
      refine (ends_untyped_annotate symbols operand).bind fun typed htyped => ?_
      refine (checks_valueTy _).bind fun ty _ => ?_
      simp only [ends_pure, Node.untyped, Mark.typed, htyped]
    | addr mark operand =>
      refine (ends_untyped_annotate symbols operand).bind fun typed htyped => ?_
      refine (checks_addrTy _).bind fun ty _ => ?_
      simp only [ends_pure, Node.untyped, Mark.typed, htyped]
    | deref mark operand =>
      refine (ends_untyped_annotate symbols operand).bind fun typed htyped => ?_
      refine (checks_derefTy _ _).bind fun ty _ => ?_
      simp only [ends_pure, Node.untyped, Mark.typed, htyped]
    | binary mark op lhs rhs =>
      refine (ends_untyped_annotate symbols lhs).bind fun lhs' hlhs => ?_
      refine (ends_untyped_annotate symbols rhs).bind fun rhs' hrhs => ?_
      refine (checks_binaryTy _ _).bind fun ty _ => ?_
      simp only [ends_pure, Node.untyped, Mark.typed, hlhs, hrhs]
    | assign mark target value =>
      refine (ends_untyped_annotate symbols target).bind fun target' htarget => ?_
      refine (ends_untyped_annotate symbols value).bind fun value' hvalue => ?_
      refine (checks_assignTy _).bind fun ty _ => ?_
      simp only [ends_pure, Node.untyped, Mark.typed, htarget, hvalue]
    | call mark name args =>
      refine (ends_untyped_annotateAll symbols args).bind fun args' hargs => ?_
      simp only [ends_pure, Node.untyped, Mark.typed, hargs]
    | exprStmt mark expr =>
      refine (ends_untyped_annotate symbols expr).bind fun typed htyped => ?_
      simp only [ends_pure, Node.untyped, htyped]
    | ret mark value =>
      refine (ends_untyped_annotate symbols value).bind fun typed htyped => ?_
      simp only [ends_pure, Node.untyped, htyped]
    | block mark body =>
      refine (ends_untyped_annotateAll symbols body).bind fun body' hbody => ?_
      simp only [ends_pure, Node.untyped, hbody]
    | ifElse mark cond onTrue onFalse =>
      refine (ends_untyped_annotate symbols cond).bind fun cond' hcond => ?_
      refine (ends_untyped_annotate symbols onTrue).bind fun onTrue' htrue => ?_
      refine (ends_untyped_annotateSome symbols onFalse).bind fun onFalse' hfalse => ?_
      simp only [ends_pure, Node.untyped, hcond, htrue, hfalse]
    | loop mark init cond step body =>
      refine (ends_untyped_annotateSome symbols init).bind fun init' hinit => ?_
      refine (ends_untyped_annotateSome symbols cond).bind fun cond' hcond => ?_
      refine (ends_untyped_annotateSome symbols step).bind fun step' hstep => ?_
      refine (ends_untyped_annotate symbols body).bind fun body' hbody => ?_
      simp only [ends_pure, Node.untyped, hinit, hcond, hstep, hbody]

/-- Typing a list changes nothing but types. -/
theorem ends_untyped_annotateAll (symbols : Symbols) (nodes : List Node) :
    Ends (annotateAll symbols nodes) (fun typed => Node.untypedAll typed = Node.untypedAll nodes)
      Failure.IsCheck := by
  cases nodes with
  | nil =>
    rw [annotateAll]
    exact rfl
  | cons node nodes =>
    rw [annotateAll]
    refine (ends_untyped_annotate symbols node).bind fun typed htyped => ?_
    refine (ends_untyped_annotateAll symbols nodes).bind fun more hmore => ?_
    simp only [ends_pure, Node.untypedAll, htyped, hmore]

/-- Typing an expression that may be missing changes nothing but types. -/
theorem ends_untyped_annotateSome (symbols : Symbols) (node : Option Node) :
    Ends (annotateSome symbols node) (fun typed => Node.untypedSome typed = Node.untypedSome node)
      Failure.IsCheck := by
  cases node with
  | none =>
    rw [annotateSome]
    exact rfl
  | some node =>
    rw [annotateSome]
    refine (ends_untyped_annotate symbols node).bind fun typed htyped => ?_
    simp only [ends_pure, Node.untypedSome, htyped]

end

end PocketCompiler
