import PocketCompiler.Grammar.Expr
import PocketCompiler.Proofs.Grammar.State

/-!
# Expressions are read as drafts

Every rule of the grammar of expressions gives a draft, if the reader for the expressions inside it
does (`readsExpr_assignment`), so expressions of every depth are read as drafts (`readsExpr_expr`).
The operands of a sum are typed before it is built, and it is built on top of them without a type.
-/

namespace PocketCompiler

/-! ### Sums and differences -/

/-- Scaling leaves two nodes without a type on top, which are typed with the whole expression. -/
theorem Node.Typed.scaled {symbols : Symbols} {op : BinaryOp} {pointer number : Node} {size : Int}
    {loc : Nat} (hpointer : pointer.Typed symbols) (hnumber : number.Typed symbols) :
    (Node.scaled op pointer number size loc).Draft symbols :=
  .binary (.typed hpointer) (.binary (.typed hnumber) .num)

/-- A way to combine two typed expressions. -/
def Combines (combine : Node → Node → Nat → Except Failure Node) : Prop :=
  ∀ symbols lhs rhs loc, lhs.Typed symbols → rhs.Typed symbols →
    Ends (combine lhs rhs loc) (Node.Draft symbols) Failure.IsComplaint

/-- A sum of typed operands is a draft, scaled or not. -/
theorem combines_sum : Combines Node.sum := by
  intro symbols lhs rhs loc hlhs hrhs
  unfold Node.sum
  split
  · exact Node.Draft.binary (.typed hlhs) (.typed hrhs)
  · exact hlhs.scaled hrhs
  · exact hrhs.scaled hlhs
  · trivial

/-- A difference of typed operands is a draft, whether it is scaled, divided or neither. -/
theorem combines_difference : Combines Node.difference := by
  intro symbols lhs rhs loc hlhs hrhs
  unfold Node.difference
  split
  · exact Node.Draft.binary (.typed hlhs) (.typed hrhs)
  · exact hlhs.scaled hrhs
  · trivial

/-- A sign in front of a draft makes a draft.  A plus sign leaves the draft as it is. -/
theorem Sign.draft_apply {symbols : Symbols} (sign : Sign) (loc : Nat) {operand : Node}
    (h : operand.Draft symbols) : (sign.apply loc operand).Draft symbols := by
  cases sign with
  | plus => exact h
  | minus => exact .neg h
  | address => exact .addr h
  | pointee => exact .deref h

namespace Parse

/-- A reader of expressions. -/
def ReadsExpr (honest : Prop) (p : Parse Node) : Prop :=
  ∀ s, s.Valid honest → ReadsFrom honest ParseState.Keeps s p fun symbols node => node.Draft symbols

/-- A draft stays one in larger tables. -/
theorem lasting_draft : Lasting fun symbols node => Node.Draft symbols node :=
  fun _ _ _ hext h => h.extend hext

/-- An expression that was read earlier is still a draft. -/
theorem draft_of_keeps {s t : ParseState} (h : s.Keeps t) {node : Node}
    (hnode : node.Draft s.symbols) : node.Draft t.symbols :=
  hnode.extend h.symbols

variable {honest : Prop} {s : ParseState}

/-- Operands are typed before they are combined, since their types tell how to. -/
theorem readsFrom_combined {combine : Node → Node → Nat → Except Failure Node}
    (hcombine : Combines combine) (hs : s.Valid honest) {lhs rhs : Node} {loc : Nat}
    (hlhs : lhs.Draft s.symbols) (hrhs : rhs.Draft s.symbols) :
    ReadsFrom honest ParseState.Keeps s (combined combine lhs rhs loc)
      fun symbols node => node.Draft symbols := by
  unfold combined
  refine (readsFrom_typed steps_keeps hs hlhs).bind steps_keeps fun lhs t ht hst hlhs => ?_
  have hrhs := draft_of_keeps hst hrhs
  refine (readsFrom_typed steps_keeps ht hrhs).bind steps_keeps fun rhs u hu htu hrhs => ?_
  exact readsFrom_liftM steps_keeps hu
    (hcombine u.symbols lhs rhs loc (hlhs.extend htu.symbols) hrhs)

/-! ### Primary expressions -/

variable {inner : Parse Node}

/-- No more arguments are read than there is room for. -/
theorem readsFrom_arguments (hinner : ReadsExpr honest inner) :
    ∀ (room : Nat) (s : ParseState), s.Valid honest →
    ReadsFrom honest ParseState.Keeps s (arguments inner room)
      fun symbols args => args.length ≤ room ∧ ∀ arg ∈ args, arg.Draft symbols
  | 0, s, hs => (readsFrom_here steps_keeps hs).bind steps_keeps fun _ _ _ _ _ =>
    readsFrom_complainAt _ _
  | room + 1, s, hs => by
    unfold arguments
    refine (hinner s hs).bind steps_keeps fun argument t ht _ hargument => ?_
    refine (readsFrom_accept steps_keeps ht ")").bind steps_keeps fun closed u hu htu _ => ?_
    have hargument := draft_of_keeps htu hargument
    cases closed with
    | true =>
      refine readsFrom_pure steps_keeps hu ⟨by simp, fun a ha => ?_⟩
      rw [List.mem_singleton.1 ha]
      exact hargument
    | false =>
      refine (readsFrom_expect steps_keeps hu ",").bind steps_keeps fun _ v hv huv _ => ?_
      refine (readsFrom_arguments hinner room v hv).bind steps_keeps fun more w hw hvw hmore => ?_
      refine readsFrom_pure steps_keeps hw ⟨by simpa using hmore.1, fun a ha => ?_⟩
      rcases List.mem_cons.1 ha with rfl | ha
      · exact draft_of_keeps hvw (draft_of_keeps huv hargument)
      · exact hmore.2 a ha

/-- A call is a draft, as its arguments are. -/
theorem readsFrom_call (hinner : ReadsExpr honest inner) (hs : s.Valid honest) (name : String)
    (loc : Nat) :
    ReadsFrom honest ParseState.Keeps s (call inner name loc)
      fun symbols node => node.Draft symbols := by
  unfold call
  split
  · exact readsFrom_complainAt _ _
  · refine (readsFrom_accept steps_keeps hs ")").bind steps_keeps fun closed t ht _ _ => ?_
    cases closed with
    | true =>
      exact readsFrom_pure steps_keeps ht
        (.call (Nat.zero_le _) fun a ha => absurd ha List.not_mem_nil)
    | false =>
      exact (readsFrom_arguments hinner maxArguments t ht).bind steps_keeps
        fun args u hu _ hargs => readsFrom_pure steps_keeps hu (.call hargs.1 hargs.2)

/-- A name that is visible is that of a variable in the tables. -/
theorem readsFrom_useOf (hs : s.Valid honest) (name : String) (loc : Nat) :
    ReadsFrom honest ParseState.Keeps s (useOf name loc)
      fun symbols node => node.Draft symbols := by
  unfold useOf
  refine readsFrom_get ?_
  split
  · next ref href =>
    obtain ⟨found, hfound⟩ := hs.find href
    exact readsFrom_pure steps_keeps hs (.var hfound)
  · exact readsFrom_complainAt _ _

/-- A string literal becomes a global of the size of its bytes, if the token says so. -/
theorem readsFrom_addLiteral (hs : s.Valid honest) {bytes : List UInt8} {ty : Ty}
    (hty : honest → ty = .array .char bytes.length) :
    ReadsFrom honest ParseState.Keeps s (addLiteral bytes ty)
      fun symbols index => ∃ found, symbols.get (.globalVar index) = .ok found :=
  ⟨hs.addLiteral hty,
    ⟨⟨List.prefix_refl _, List.prefix_append _ _⟩, rfl, rfl⟩, _, entry_length_append⟩

/-- A primary expression is read, by what reads the expressions inside of it. -/
theorem readsExpr_primary (hinner : ReadsExpr honest inner) : ReadsExpr honest (primary inner) := by
  intro s hs
  unfold primary
  refine (readsFrom_here steps_keeps hs).bind steps_keeps fun start t ht _ _ => ?_
  refine (readsFrom_accept steps_keeps ht "(").bind steps_keeps fun opened u hu _ _ => ?_
  cases opened with
  | true =>
    refine (hinner u hu).bind steps_keeps fun node v hv _ hnode => ?_
    exact (readsFrom_expect steps_keeps hv ")").bind steps_keeps fun _ w hw hvw _ =>
      readsFrom_pure steps_keeps hw (draft_of_keeps hvw hnode)
  | false =>
    refine readsFrom_get ?_
    split
    -- A name is a call if a parenthesis follows, and else a variable.
    · refine (readsFrom_identifier steps_keeps hu).bind steps_keeps ?_
      rintro ⟨name, loc⟩ v hv _ _
      refine (readsFrom_accept steps_keeps hv "(").bind steps_keeps fun called w hw _ _ => ?_
      cases called with
      | true => exact readsFrom_call hinner hw name loc
      | false => exact readsFrom_useOf hw name loc
    -- A literal becomes a global of its own.
    · refine (readsFrom_literal steps_keeps hu).bind steps_keeps ?_
      rintro ⟨bytes, ty⟩ v hv _ hty
      refine (readsFrom_addLiteral hv hty).bind steps_keeps fun index w hw _ hindex => ?_
      obtain ⟨found, hfound⟩ := hindex
      exact readsFrom_pure steps_keeps hw (.var hfound)
    · refine (readsFrom_number steps_keeps hu).bind steps_keeps ?_
      rintro ⟨value, loc⟩ v hv _ _
      exact readsFrom_pure steps_keeps hv .num
    · exact readsFrom_unexpected _

/-! ### Operators -/

/-- Each subscript makes a draft of the operand in front of it. -/
theorem readsFrom_subscript (hinner : ReadsExpr honest inner) (hs : s.Valid honest) {node : Node}
    (hnode : node.Draft s.symbols) :
    ReadsFrom honest ParseState.Keeps s (subscript? inner node)
      fun symbols found => ∀ b ∈ found, b.Draft symbols := by
  unfold subscript?
  refine (readsFrom_here steps_keeps hs).bind steps_keeps fun loc t ht hst _ => ?_
  refine (readsFrom_accept steps_keeps ht "[").bind steps_keeps fun opened u hu htu _ => ?_
  have hnode := draft_of_keeps htu (draft_of_keeps hst hnode)
  cases opened with
  | false => exact readsFrom_pure steps_keeps hu fun b hb => nomatch hb
  | true =>
    refine (hinner u hu).bind steps_keeps fun index v hv huv hindex => ?_
    refine (readsFrom_expect steps_keeps hv "]").bind steps_keeps fun _ w hw hvw _ => ?_
    have hnode := draft_of_keeps hvw (draft_of_keeps huv hnode)
    have hindex := draft_of_keeps hvw hindex
    refine (readsFrom_combined combines_sum hw hnode hindex).bind steps_keeps
      fun place x hx _ hplace => readsFrom_pure steps_keeps hx fun b hb => ?_
    obtain rfl := Option.some.inj hb
    exact .deref hplace

theorem readsExpr_postfixed (hinner : ReadsExpr honest inner) :
    ReadsExpr honest (postfixed inner) := by
  intro s hs
  unfold postfixed
  refine (readsExpr_primary hinner s hs).bind steps_keeps fun node t ht _ hnode => ?_
  exact readsFrom_extend steps_keeps lasting_draft
    (fun u a hu ha => readsFrom_subscript hinner hu ha) ht hnode

/-- Signs are read one by one, and they are put in front of the operand afterwards. -/
theorem readsFrom_sign (hs : s.Valid honest) :
    ReadsFrom honest ParseState.Keeps s sign? fun _ _ => True := by
  unfold sign?
  refine (readsFrom_here steps_keeps hs).bind steps_keeps fun loc t ht _ _ => ?_
  refine (readsFrom_accept steps_keeps ht "+").bind steps_keeps fun plus u hu _ _ => ?_
  cases plus with
  | true => exact readsFrom_pure steps_keeps hu trivial
  | false =>
    refine (readsFrom_accept steps_keeps hu "-").bind steps_keeps fun minus v hv _ _ => ?_
    cases minus with
    | true => exact readsFrom_pure steps_keeps hv trivial
    | false =>
      refine (readsFrom_accept steps_keeps hv "&").bind steps_keeps fun address w hw _ _ => ?_
      cases address with
      | true => exact readsFrom_pure steps_keeps hw trivial
      | false =>
        refine (readsFrom_accept steps_keeps hw "*").bind steps_keeps fun pointee x hx _ _ => ?_
        cases pointee with
        | true => exact readsFrom_pure steps_keeps hx trivial
        | false => exact readsFrom_pure steps_keeps hx trivial

/-- Any number of signs in front of a draft makes a draft. -/
theorem draft_foldr_sign {symbols : Symbols} {operand : Node} (h : operand.Draft symbols)
    (signs : List (Sign × Nat)) :
    (signs.foldr (fun (sign, loc) node => sign.apply loc node) operand).Draft symbols := by
  induction signs with
  | nil => exact h
  | cons first rest ih => exact first.1.draft_apply first.2 ih

theorem readsExpr_unary (hinner : ReadsExpr honest inner) : ReadsExpr honest (unary inner) := by
  intro s hs
  unfold unary
  refine (readsFrom_collect_any steps_keeps (fun t ht => readsFrom_sign ht) hs).bind steps_keeps
    fun signs t ht _ _ => ?_
  exact (readsExpr_postfixed hinner t ht).bind steps_keeps fun operand u hu _ hoperand =>
    readsFrom_pure steps_keeps hu (draft_foldr_sign hoperand signs)

/-- A table whose operators build drafts from drafts. -/
def Builds (table : List (String × (Node → Node → Nat → Node))) : Prop :=
  ∀ text combine, (text, combine) ∈ table → ∀ (symbols : Symbols) lhs rhs loc,
    lhs.Draft symbols → rhs.Draft symbols → (combine lhs rhs loc).Draft symbols

/-- Each operator of a chain makes a draft of the operands on its sides. -/
theorem readsExpr_chain {table : List (String × (Node → Node → Nat → Node))} (htable : Builds table)
    {operand : Parse Node} (hoperand : ReadsExpr honest operand) :
    ReadsExpr honest (chain table operand) := by
  intro s hs
  unfold chain
  refine (hoperand s hs).bind steps_keeps fun first t ht _ hfirst => ?_
  refine readsFrom_extend steps_keeps lasting_draft (fun u lhs hu hlhs => ?_) ht hfirst
  refine (readsFrom_here steps_keeps hu).bind steps_keeps fun loc v hv huv _ => ?_
  refine (readsFrom_operator steps_keeps hv table).bind steps_keeps fun found w hw hvw hfound => ?_
  have hlhs := draft_of_keeps hvw (draft_of_keeps huv hlhs)
  cases found with
  | none => exact readsFrom_pure steps_keeps hw fun b hb => nomatch hb
  | some combine =>
    obtain ⟨text, htext⟩ := hfound combine rfl
    refine (hoperand w hw).bind steps_keeps fun rhs x hx hwx hrhs => ?_
    refine readsFrom_pure steps_keeps hx fun b hb => ?_
    obtain rfl := Option.some.inj hb
    exact htable text combine htext _ lhs rhs loc (draft_of_keeps hwx hlhs) hrhs

theorem draft_applied {symbols : Symbols} {op : BinaryOp} {lhs rhs : Node} {loc : Nat}
    (hlhs : lhs.Draft symbols) (hrhs : rhs.Draft symbols) :
    (applied op lhs rhs loc).Draft symbols :=
  .binary hlhs hrhs

/-- Greater is less with the operands the other way round. -/
theorem draft_swapped {symbols : Symbols} {op : BinaryOp} {lhs rhs : Node} {loc : Nat}
    (hlhs : lhs.Draft symbols) (hrhs : rhs.Draft symbols) :
    (swapped op lhs rhs loc).Draft symbols :=
  .binary hrhs hlhs

theorem readsExpr_product (hinner : ReadsExpr honest inner) : ReadsExpr honest (product inner) := by
  refine readsExpr_chain ?_ (readsExpr_unary hinner)
  intro text combine hmem symbols lhs rhs loc hlhs hrhs
  simp only [List.mem_cons, List.not_mem_nil, or_false, Prod.mk.injEq] at hmem
  rcases hmem with ⟨-, rfl⟩ | ⟨-, rfl⟩
  · exact draft_applied hlhs hrhs
  · exact draft_applied hlhs hrhs

/-- A term behind a sum types what is in front of it, so that it can be scaled. -/
theorem readsFrom_term (hinner : ReadsExpr honest inner) (hs : s.Valid honest) {lhs : Node}
    (hlhs : lhs.Draft s.symbols) :
    ReadsFrom honest ParseState.Keeps s (term? inner lhs)
      fun symbols found => ∀ b ∈ found, b.Draft symbols := by
  unfold term?
  refine (readsFrom_here steps_keeps hs).bind steps_keeps fun loc t ht hst _ => ?_
  refine (readsFrom_accept steps_keeps ht "+").bind steps_keeps fun plus u hu htu _ => ?_
  have hlhs := draft_of_keeps htu (draft_of_keeps hst hlhs)
  cases plus with
  | true =>
    refine (readsExpr_product hinner u hu).bind steps_keeps fun rhs v hv huv hrhs => ?_
    refine (readsFrom_combined combines_sum hv (draft_of_keeps huv hlhs) hrhs).bind steps_keeps
      fun node w hw _ hnode => readsFrom_pure steps_keeps hw fun b hb => ?_
    obtain rfl := Option.some.inj hb
    exact hnode
  | false =>
    refine (readsFrom_accept steps_keeps hu "-").bind steps_keeps fun minus v hv huv _ => ?_
    have hlhs := draft_of_keeps huv hlhs
    cases minus with
    | false => exact readsFrom_pure steps_keeps hv fun b hb => nomatch hb
    | true =>
      refine (readsExpr_product hinner v hv).bind steps_keeps fun rhs w hw hvw hrhs => ?_
      refine (readsFrom_combined combines_difference hw (draft_of_keeps hvw hlhs) hrhs).bind
        steps_keeps fun node x hx _ hnode => readsFrom_pure steps_keeps hx fun b hb => ?_
      obtain rfl := Option.some.inj hb
      exact hnode

theorem readsExpr_terms (hinner : ReadsExpr honest inner) : ReadsExpr honest (terms inner) := by
  intro s hs
  unfold terms
  refine (readsExpr_product hinner s hs).bind steps_keeps fun first t ht _ hfirst => ?_
  exact readsFrom_extend steps_keeps lasting_draft
    (fun u a hu ha => readsFrom_term hinner hu ha) ht hfirst

theorem readsExpr_relational (hinner : ReadsExpr honest inner) :
    ReadsExpr honest (relational inner) := by
  refine readsExpr_chain ?_ (readsExpr_terms hinner)
  intro text combine hmem symbols lhs rhs loc hlhs hrhs
  simp only [List.mem_cons, List.not_mem_nil, or_false, Prod.mk.injEq] at hmem
  rcases hmem with ⟨-, rfl⟩ | ⟨-, rfl⟩ | ⟨-, rfl⟩ | ⟨-, rfl⟩
  · exact draft_applied hlhs hrhs
  · exact draft_applied hlhs hrhs
  · exact draft_swapped hlhs hrhs
  · exact draft_swapped hlhs hrhs

theorem readsExpr_equality (hinner : ReadsExpr honest inner) :
    ReadsExpr honest (equality inner) := by
  refine readsExpr_chain ?_ (readsExpr_relational hinner)
  intro text combine hmem symbols lhs rhs loc hlhs hrhs
  simp only [List.mem_cons, List.not_mem_nil, or_false, Prod.mk.injEq] at hmem
  rcases hmem with ⟨-, rfl⟩ | ⟨-, rfl⟩
  · exact draft_applied hlhs hrhs
  · exact draft_applied hlhs hrhs

theorem readsExpr_assignment (hinner : ReadsExpr honest inner) :
    ReadsExpr honest (assignment inner) := by
  intro s hs
  unfold assignment
  refine (readsExpr_equality hinner s hs).bind steps_keeps fun node t ht _ hnode => ?_
  refine (readsFrom_here steps_keeps ht).bind steps_keeps fun loc u hu htu _ => ?_
  refine (readsFrom_accept steps_keeps hu "=").bind steps_keeps fun assigned v hv huv _ => ?_
  have hnode := draft_of_keeps huv (draft_of_keeps htu hnode)
  cases assigned with
  | false => exact readsFrom_pure steps_keeps hv hnode
  | true =>
    exact (hinner v hv).bind steps_keeps fun value w hw hvw hvalue =>
      readsFrom_pure steps_keeps hw (.assign (draft_of_keeps hvw hnode) hvalue)

/-- Expressions of every depth are read as drafts. -/
theorem readsExpr_exprWithin (depth : Nat) : ReadsExpr honest (exprWithin depth) := by
  induction depth with
  | zero => exact fun _ _ => readsFrom_unexpected _
  | succ depth ih => exact readsExpr_assignment ih

/-- **Every expression that is read is a draft**, with the variables in the tables. -/
theorem readsExpr_expr : ReadsExpr honest expr := fun _ hs =>
  (readsFrom_remaining steps_keeps hs).bind steps_keeps fun _ t ht _ _ =>
    readsExpr_exprWithin _ t ht

end Parse

end PocketCompiler
