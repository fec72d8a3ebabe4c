import PocketCompiler.Grammar.Stmt
import PocketCompiler.Proofs.Grammar.Declarator
import PocketCompiler.Proofs.Grammar.Expr

/-!
# Statements are read over drafts

A statement that is read has expressions and statements in their places, and its expressions are
drafts (`readsStmt_stmt`).  The items of a block are typed as soon as they are complete, so a block
is over well-typed expressions (`readsFrom_block`).

A block opens a scope and closes it, so the names that are visible behind it are those that were
visible before it; its items add names to that scope and leave the scopes around it alone.
-/

namespace PocketCompiler.Parse

variable {honest : Prop} {s : ParseState}

/-- A reader of statements. -/
def ReadsStmt (honest : Prop) (p : Parse Node) : Prop :=
  ∀ s, s.Valid honest →
    ReadsFrom honest ParseState.Keeps s p fun symbols node => node.Over (Node.Draft symbols)

/-! ### Declarations -/

theorem readsFrom_initializers {R : ParseState → ParseState → Prop} (hR : Steps R)
    (hs : s.Valid honest) (count : Nat) :
    ReadsFrom honest R s (initializers count)
      fun symbols values => ∀ value ∈ values, value.Draft symbols := by
  unfold initializers
  refine (readsFrom_accept hR hs "=").bind hR fun given t ht _ _ => ?_
  cases given with
  | false =>
    exact (readsFrom_expect hR ht ";").bind hR fun _ u hu _ _ =>
      readsFrom_pure hR hu fun value hvalue => absurd hvalue List.not_mem_nil
  | true =>
    refine (readsFrom_here hR ht).bind hR fun loc u hu _ _ => ?_
    refine (readsFrom_separated hR lasting_draft
      (fun w hw => (readsExpr_expr w hw).widen hR) hu).bind hR fun values v hv _ hvalues => ?_
    split
    · exact (readsFrom_expect hR hv ";").bind hR fun _ w hw hvw _ =>
        readsFrom_pure hR hw fun value hvalue => (hvalues value hvalue).extend (hR.symbols hvw)
    · exact readsFrom_complainAt _ _

theorem readsFrom_addLocal (hs : s.Valid honest) (name : String) {ty : Ty}
    (hty : honest → ty.Sized) :
    ReadsFrom honest ParseState.Grows s (addLocal name ty)
      fun symbols index => ∃ found, symbols.get (.localVar index) = .ok found :=
  ⟨hs.addLocal { name, ty } hty,
    ⟨⟨List.prefix_append _ _, List.prefix_refl _⟩, rfl, Scopes.tail_bind _ _ _⟩,
    _, entry_length_append⟩

theorem draft_initialized {symbols : Symbols} {index loc : Nat} {value : Node} {found : Variable}
    (hindex : symbols.get (.localVar index) = .ok found) (hvalue : value.Draft symbols) :
    (initialized index loc value).Over (Node.Draft symbols) :=
  .exprStmt (.assign (.var hindex) hvalue)

theorem readsFrom_declareLocals {ty : Ty} (hty : honest → ty.Sized) :
    ∀ (names : List DeclaredName) (values : List Node) (s : ParseState), s.Valid honest →
      (∀ value ∈ values, value.Draft s.symbols) →
        ReadsFrom honest ParseState.Grows s (declareLocals ty names values)
          fun symbols body => ∀ node ∈ body, node.Over (Node.Draft symbols)
  | [], _, s, hs, _ => readsFrom_pure steps_grows hs fun node hnode =>
    absurd hnode List.not_mem_nil
  | declared :: names, values, s, hs, hvalues => by
    unfold declareLocals
    have hdeclared : honest → (declared.ty ty).Sized := fun hhonest =>
      (hty hhonest).pointers declared.stars
    refine (readsFrom_addLocal hs declared.name hdeclared).bind steps_grows
      fun index t ht hst hindex => ?_
    obtain ⟨found, hfound⟩ := hindex
    have htail : ∀ value ∈ values.tail, value.Draft t.symbols := fun value hvalue =>
      (hvalues value (List.mem_of_mem_tail hvalue)).extend hst.symbols
    refine (readsFrom_declareLocals hty names values.tail t ht htail).bind steps_grows
      fun more u hu htu hmore => ?_
    -- Values are initial values of the first names; the names behind them have none.
    cases values with
    | nil => exact readsFrom_pure steps_grows hu hmore
    | cons value rest =>
      refine readsFrom_pure steps_grows hu fun node hnode => ?_
      rcases List.mem_cons.1 hnode with rfl | hnode
      · have hvalue := (hvalues value List.mem_cons_self).extend (hst.symbols.trans htu.symbols)
        exact draft_initialized (htu.symbols.get hfound) hvalue
      · exact hmore node hnode

theorem readsFrom_declaration (hs : s.Valid honest) (loc : Nat) :
    ReadsFrom honest ParseState.Grows s (declaration loc)
      fun symbols node => node.Over (Node.Draft symbols) := by
  unfold declaration
  refine (readsFrom_declaredNames steps_grows hs).bind steps_grows fun names t ht _ _ => ?_
  refine (readsFrom_type steps_grows ht).bind steps_grows fun ty u hu _ hty => ?_
  refine (readsFrom_initializers steps_grows hu names.length).bind steps_grows
    fun values v hv _ hvalues => ?_
  exact (readsFrom_declareLocals hty names values v hv hvalues).bind steps_grows
    fun body w hw _ hbody => readsFrom_pure steps_grows hw (.block hbody)

/-! ### Blocks -/

/-- What is read as a block of its own leaves the visible names as they were. -/
theorem readsFrom_inScope {α : Type} {good : Symbols → α → Prop} {inner : Parse α}
    (h : ReadsFrom honest ParseState.Grows s.enterScope inner good) :
    ReadsFrom honest ParseState.Keeps s (inScope inner) good := by
  unfold ReadsFrom at h
  change Ends (StateT.run (do let a ← inner; modify ParseState.leaveScope; return a) s.enterScope) _ _
  rw [StateT.run_bind]
  refine Ends.bind h ?_
  rintro ⟨a, t⟩ ⟨ht, hst, ha⟩
  exact ⟨ht.leaveScope, ⟨hst.symbols, hst.functions, hst.outer⟩, ha⟩

variable {inner : Parse Node}

/-- The items of a block are well-typed. -/
theorem readsFrom_item (hinner : ReadsStmt honest inner) (hs : s.Valid honest) :
    ReadsFrom honest ParseState.Grows s (item? inner)
      fun symbols found => ∀ node ∈ found, node.Over (Node.Typed symbols) := by
  -- A statement and a declaration are both typed as soon as they have been read.
  have hsome : ∀ t : ParseState, t.Valid honest → ∀ node : Node, node.Over (Node.Draft t.symbols) →
      ReadsFrom honest ParseState.Grows t (do return some (← typed node))
        fun symbols found => ∀ node ∈ found, node.Over (Node.Typed symbols) := by
    intro t ht node hnode
    refine (readsFrom_typed_stmt steps_grows ht hnode).bind steps_grows fun typed u hu _ htyped =>
      readsFrom_pure steps_grows hu fun n hn => ?_
    obtain rfl := Option.some.inj hn
    exact htyped
  unfold item?
  refine (readsFrom_accept steps_grows hs "\x7d").bind steps_grows fun closed t ht _ _ => ?_
  cases closed with
  | true => exact readsFrom_pure steps_grows ht fun node hnode => nomatch hnode
  | false =>
    refine (readsFrom_here steps_grows ht).bind steps_grows fun loc u hu _ _ => ?_
    refine (readsFrom_accept steps_grows hu "var").bind steps_grows fun declares v hv _ _ => ?_
    cases declares with
    | true =>
      exact (readsFrom_declaration hv loc).bind steps_grows fun node w hw _ hnode =>
        hsome w hw node hnode
    | false =>
      exact ((hinner v hv).widen steps_grows).bind steps_grows fun node w hw _ hnode =>
        hsome w hw node hnode

theorem readsFrom_block (hinner : ReadsStmt honest inner) (hs : s.Valid honest) (loc : Nat) :
    ReadsFrom honest ParseState.Keeps s (block inner loc)
      fun symbols node => node.Over (Node.Typed symbols) := by
  have hlasting : Lasting fun symbols node => Node.Over (Node.Typed symbols) node :=
    fun _ _ _ hext h => h.imp fun _ hnode => hnode.extend hext
  unfold block
  refine (readsFrom_inScope (readsFrom_collect steps_grows hlasting
    (fun t ht => readsFrom_item hinner ht) (hs.enterScope))).bind steps_keeps
      fun body t ht _ hbody => ?_
  exact readsFrom_pure steps_keeps ht (.block hbody)

/-! ### Loops -/

theorem readsFrom_exprUnless (hs : s.Valid honest) (text : String) :
    ReadsFrom honest ParseState.Keeps s (exprUnless text)
      fun symbols found => ∀ node ∈ found, node.Draft symbols := by
  unfold exprUnless
  refine (readsFrom_check steps_keeps hs text).bind steps_keeps fun found t ht _ _ => ?_
  cases found with
  | true => exact readsFrom_pure steps_keeps ht fun node hnode => nomatch hnode
  | false =>
    refine (readsExpr_expr t ht).bind steps_keeps fun node u hu _ hnode =>
      readsFrom_pure steps_keeps hu fun n hn => ?_
    obtain rfl := Option.some.inj hn
    exact hnode

/-- A loop head whose expressions are drafts. -/
structure LoopHead.Draft (symbols : Symbols) (head : LoopHead) : Prop where
  init : ∀ node ∈ head.init, node.Draft symbols
  cond : ∀ node ∈ head.cond, node.Draft symbols
  step : ∀ node ∈ head.step, node.Draft symbols

theorem LoopHead.Draft.extend {symbols larger : Symbols} (hext : symbols.Extends larger)
    {head : LoopHead} (h : head.Draft symbols) : head.Draft larger where
  init node hnode := (h.init node hnode).extend hext
  cond node hnode := (h.cond node hnode).extend hext
  step node hnode := (h.step node hnode).extend hext

theorem readsFrom_loopHead (hs : s.Valid honest) :
    ReadsFrom honest ParseState.Keeps s loopHead fun symbols head => head.Draft symbols := by
  have hnone : ∀ (symbols : Symbols), ∀ node ∈ (none : Option Node), node.Draft symbols :=
    fun _ node hnode => nomatch hnode
  unfold loopHead
  refine (readsFrom_check steps_keeps hs "\x7b").bind steps_keeps fun bare t ht _ _ => ?_
  cases bare with
  | true => exact readsFrom_pure steps_keeps ht ⟨hnone _, hnone _, hnone _⟩
  | false =>
    refine (readsFrom_exprUnless ht ";").bind steps_keeps fun first u hu _ hfirst => ?_
    refine (readsFrom_accept steps_keeps hu ";").bind steps_keeps fun three v hv huv _ => ?_
    -- What has been read first is the condition, if no semicolon follows it.
    have hfirst : ∀ node ∈ first, node.Draft v.symbols :=
      fun node hnode => draft_of_keeps huv (hfirst node hnode)
    cases three with
    | false => exact readsFrom_pure steps_keeps hv ⟨hnone _, hfirst, hnone _⟩
    | true =>
      refine (readsFrom_exprUnless hv ";").bind steps_keeps fun cond w hw hvw hcond => ?_
      refine (readsFrom_expect steps_keeps hw ";").bind steps_keeps fun _ x hx hwx _ => ?_
      refine (readsFrom_exprUnless hx "\x7b").bind steps_keeps fun step y hy hxy hstep => ?_
      have hwy := steps_keeps.trans hwx hxy
      exact readsFrom_pure steps_keeps hy
        ⟨fun node hnode => draft_of_keeps (steps_keeps.trans hvw hwy) (hfirst node hnode),
          fun node hnode => draft_of_keeps hwy (hcond node hnode), hstep⟩

/-! ### Statements -/

theorem readsStmt_exprStatement : ReadsStmt honest exprStatement := by
  intro s hs
  unfold exprStatement
  refine (readsFrom_here steps_keeps hs).bind steps_keeps fun loc t ht _ _ => ?_
  refine (readsFrom_accept steps_keeps ht ";").bind steps_keeps fun empty u hu _ _ => ?_
  cases empty with
  | true =>
    exact readsFrom_pure steps_keeps hu (.block fun node hnode => absurd hnode List.not_mem_nil)
  | false =>
    refine (readsExpr_expr u hu).bind steps_keeps fun value v hv _ hvalue => ?_
    exact (readsFrom_expect steps_keeps hv ";").bind steps_keeps fun _ w hw hvw _ =>
      readsFrom_pure steps_keeps hw (.exprStmt (draft_of_keeps hvw hvalue))

theorem readsStmt_statement (hinner : ReadsStmt honest inner) :
    ReadsStmt honest (statement inner) := by
  intro s hs
  unfold statement
  refine (readsFrom_here steps_keeps hs).bind steps_keeps fun loc t ht _ _ => ?_
  refine (readsFrom_accept steps_keeps ht "return").bind steps_keeps fun isReturn u hu _ _ => ?_
  -- The statement starts with a keyword or with a brace, or it is an expression.
  cases isReturn with
  | true =>
    refine (readsExpr_expr u hu).bind steps_keeps fun value v hv _ hvalue => ?_
    exact (readsFrom_expect steps_keeps hv ";").bind steps_keeps fun _ w hw hvw _ =>
      readsFrom_pure steps_keeps hw (.ret (draft_of_keeps hvw hvalue))
  | false =>
  refine (readsFrom_accept steps_keeps hu "if").bind steps_keeps fun isIf v hv _ _ => ?_
  cases isIf with
  | true =>
    refine (readsExpr_expr v hv).bind steps_keeps fun cond w hw _ hcond => ?_
    refine (hinner w hw).bind steps_keeps fun onTrue x hx hwx htrue => ?_
    refine (readsFrom_accept steps_keeps hx "else").bind steps_keeps fun isElse y hy hxy _ => ?_
    -- What was read before is a draft over more symbols now.
    have hcond := draft_of_keeps (steps_keeps.trans hwx hxy) hcond
    have htrue := htrue.extend hxy.symbols
    cases isElse with
    | false => exact readsFrom_pure steps_keeps hy (.ifElse hcond htrue fun n hn => nomatch hn)
    | true =>
      refine (hinner y hy).bind steps_keeps fun onFalse z hz hyz hfalse =>
        readsFrom_pure steps_keeps hz (.ifElse (draft_of_keeps hyz hcond)
          (htrue.extend hyz.symbols) fun n hn => ?_)
      obtain rfl := Option.some.inj hn
      exact hfalse
  | false =>
  refine (readsFrom_accept steps_keeps hv "for").bind steps_keeps fun isFor w hw _ _ => ?_
  cases isFor with
  | true =>
    refine (readsFrom_loopHead hw).bind steps_keeps fun head x hx _ hhead => ?_
    refine (hinner x hx).bind steps_keeps fun body y hy hxy hbody => ?_
    have hhead := hhead.extend hxy.symbols
    exact readsFrom_pure steps_keeps hy (.loop hhead.init hhead.cond hhead.step hbody)
  | false =>
  refine (readsFrom_accept steps_keeps hw "\x7b").bind steps_keeps fun isBlock x hx _ _ => ?_
  cases isBlock with
  | true => exact (readsFrom_block hinner hx loc).imp fun _ _ hnode => hnode.draft
  | false => exact readsStmt_exprStatement x hx

/-- Statements of every depth are read over drafts. -/
theorem readsStmt_stmtWithin (depth : Nat) : ReadsStmt honest (stmtWithin depth) := by
  induction depth with
  | zero => exact fun _ _ => readsFrom_unexpected _
  | succ depth ih => exact readsStmt_statement ih

theorem readsStmt_stmt : ReadsStmt honest stmt := fun _ hs =>
  (readsFrom_remaining steps_keeps hs).bind steps_keeps fun _ t ht _ _ =>
    readsStmt_stmtWithin _ t ht

end PocketCompiler.Parse
