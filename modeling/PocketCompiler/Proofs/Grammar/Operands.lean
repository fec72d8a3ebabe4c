import PocketCompiler.Proofs.Grammar.Lookahead

/-!
# Expressions as operands and what joins them

Behind its levels an expression is a list of operands with something between them that joins two
expressions: an operator, or the sign of an assignment (`IsChain`).  The levels say how the operands
are grouped and not which words are expressions, so two expressions with an operator between them
are an expression again.

An expression can be followed by what would make it longer (`ExprEnds`), which happens in front of a
statement.  Then the statement is an expression itself, and both together are one
(`IsChain.append_of_not_exprEnds`).
-/

namespace PocketCompiler

variable {u v w r : List Terminal}

/-! ### Operators -/

/-- The operators of a level, as the grammar sees them. -/
def Level.terminals : Level → List Terminal
  | .equality => [.lexeme "==", .lexeme "!="]
  | .relational => [.lexeme "<", .lexeme "<=", .lexeme ">", .lexeme ">="]
  | .sum => [.lexeme "+", .lexeme "-"]
  | .product => [.lexeme "*", .lexeme "/"]

theorem Level.derives_operators_iff {g : Nonterminal → Form} {l : Level} :
    Derives g l.operators w ↔ ∃ op ∈ l.terminals, w = [op] := by
  cases l <;> simp [Level.operators, Level.terminals, or_assoc]

/-- The signs, as the grammar sees them. -/
def signs : List Terminal := [.lexeme "+", .lexeme "-", .lexeme "&", .lexeme "*"]

/-- What joins two expressions. -/
def joiners : List Terminal :=
  .lexeme "=" :: (Level.equality.terminals ++ Level.relational.terminals ++ Level.sum.terminals
    ++ Level.product.terminals)

theorem Level.mem_joiners {l : Level} {op : Terminal} (h : op ∈ l.terminals) : op ∈ joiners := by
  cases l <;> simp [joiners, h]

/-! ### Operands -/

/-- The word is an operand. -/
def IsOperand (w : List Terminal) : Prop := Derives bracedGrammar (.rule .unary) w

/-- What an expression can start with. -/
def exprStarts : List Terminal := [.identifier, .number, .string, .lexeme "("] ++ signs

theorem Derives.signs_iff {g : Nonterminal → Form} :
    Derives g .signs w ↔ ∃ t ∈ signs, w = [t] := by
  simp [Form.signs, signs, or_assoc]

/-- An operand is a sign and an operand, or something without a sign. -/
theorem isOperand_iff : IsOperand w ↔ (∃ t ∈ signs, ∃ u, w = t :: u ∧ IsOperand u)
    ∨ Derives bracedGrammar (.rule .postfixed) w := by
  rw [IsOperand, Derives.rule_iff]
  refine Derives.or_iff.trans (or_congr_left ?_)
  rw [Derives.append_iff]
  constructor
  · rintro ⟨_, u, rfl, hsign, hu⟩
    obtain ⟨t, ht, rfl⟩ := Derives.signs_iff.1 hsign
    exact ⟨t, ht, u, rfl, hu⟩
  · rintro ⟨t, ht, u, rfl, hu⟩
    exact ⟨[t], u, rfl, Derives.signs_iff.2 ⟨t, ht, rfl⟩, hu⟩

/-- The ways to write a primary expression. -/
theorem primary_cases (h : Derives bracedGrammar (.rule .primary) w) :
    (∃ u, w = .lexeme "(" :: (u ++ [.lexeme ")"]) ∧ Derives bracedGrammar (.rule .expr) u)
    ∨ w = [.identifier]
    ∨ (∃ u, w = .identifier :: .lexeme "(" :: (u ++ [.lexeme ")"])
      ∧ Derives bracedGrammar (.rule .args) u)
    ∨ w = [.string] ∨ w = [.number] := by
  rcases Derives.or_iff.1 (Derives.rule_iff.1 h) with h | hnumber
  rcases Derives.or_iff.1 h with h | hstring
  rcases Derives.or_iff.1 h with hparen | hname
  · obtain ⟨v, rfl, hv⟩ := Derives.text_append_iff.1 (Derives.assoc_iff.1 hparen)
    obtain ⟨u, last, rfl, hu, hlast⟩ := Derives.append_iff.1 hv
    rw [Derives.text_iff.1 hlast]
    exact .inl ⟨u, rfl, hu⟩
  · obtain ⟨v, rfl, hv⟩ := Derives.terminal_append_iff.1 hname
    rcases Derives.optional_iff.1 hv with hcall | rfl
    · obtain ⟨v, rfl, hargs⟩ := Derives.text_append_iff.1 (Derives.assoc_iff.1 hcall)
      obtain ⟨u, last, rfl, hu, hlast⟩ := Derives.append_iff.1 hargs
      rw [Derives.text_iff.1 hlast]
      exact .inr (.inr (.inl ⟨u, rfl, hu⟩))
    · exact .inr (.inl rfl)
  · exact .inr (.inr (.inr (.inl (Derives.terminal_iff.1 hstring))))
  · exact .inr (.inr (.inr (.inr (Derives.terminal_iff.1 hnumber))))

/-- A subscript. -/
def Form.subscript : Form := .text "[" ++ .rule .expr ++ .text "]"

theorem postfixed_iff : Derives bracedGrammar (.rule .postfixed) w ↔ ∃ u v, w = u ++ v
    ∧ Derives bracedGrammar (.rule .primary) u ∧ Derives bracedGrammar (.many .subscript) v :=
  Derives.rule_iff.trans Derives.append_iff

theorem subscript_iff : Derives bracedGrammar .subscript w ↔
    ∃ u, w = .lexeme "[" :: (u ++ [.lexeme "]"]) ∧ Derives bracedGrammar (.rule .expr) u := by
  rw [Form.subscript, Derives.assoc_iff, Derives.text_append_iff]
  constructor
  · rintro ⟨_, rfl, hv⟩
    obtain ⟨u, last, rfl, hu, hlast⟩ := Derives.append_iff.1 hv
    rw [Derives.text_iff.1 hlast]
    exact ⟨u, rfl, hu⟩
  · rintro ⟨u, rfl, hu⟩
    exact ⟨_, rfl, hu.append (.text "]")⟩

/-- Subscripts start and end with a bracket. -/
theorem subscripts_cases (h : Derives bracedGrammar (.many .subscript) w) :
    w = [] ∨ w.head? = some (.lexeme "[") ∧ w.getLast? = some (.lexeme "]") := by
  refine Derives.many_induction (motive := fun w => w = [] ∨ w.head? = some (.lexeme "[")
    ∧ w.getLast? = some (.lexeme "]")) (.inl rfl) (fun u v hu _ ih => .inr ?_) h
  obtain ⟨u, rfl, -⟩ := subscript_iff.1 hu
  rcases ih with rfl | ⟨-, hlast⟩
  · simp [List.getLast?_cons]
  · simp [List.getLast?_append, List.getLast?_cons, hlast]

theorem head?_primary (h : Derives bracedGrammar (.rule .primary) w) :
    ∃ t v, w = t :: v ∧ t ∈ [.identifier, .number, .string, .lexeme "("] := by
  rcases primary_cases h with ⟨u, rfl, -⟩ | rfl | ⟨u, rfl, -⟩ | rfl | rfl <;>
    exact ⟨_, _, rfl, by decide⟩

theorem head?_postfixed (h : Derives bracedGrammar (.rule .postfixed) w) :
    ∃ t v, w = t :: v ∧ t ∈ [.identifier, .number, .string, .lexeme "("] := by
  obtain ⟨u, v, rfl, hu, -⟩ := postfixed_iff.1 h
  obtain ⟨t, u, rfl, ht⟩ := head?_primary hu
  exact ⟨t, u ++ v, rfl, ht⟩

/-- An operand starts like an expression. -/
theorem IsOperand.exists_start (h : IsOperand w) : ∃ t v, w = t :: v ∧ t ∈ exprStarts := by
  rcases isOperand_iff.1 h with ⟨t, ht, u, rfl, -⟩ | hw
  · exact ⟨t, u, rfl, List.mem_append_right _ ht⟩
  · obtain ⟨t, v, rfl, ht⟩ := head?_postfixed hw
    exact ⟨t, v, rfl, List.mem_append_left _ ht⟩

theorem IsOperand.ne_nil (h : IsOperand w) : w ≠ [] := by
  obtain ⟨t, v, rfl, -⟩ := h.exists_start
  exact List.cons_ne_nil t v

/-- What has a name at its end and no sign is the name. -/
theorem eq_identifier_of_getLast? (h : Derives bracedGrammar (.rule .postfixed) w)
    (hlast : w.getLast? = some .identifier) : w = [.identifier] := by
  obtain ⟨u, v, rfl, hu, hv⟩ := postfixed_iff.1 h
  rcases subscripts_cases hv with rfl | ⟨-, hbracket⟩
  · rw [List.append_nil] at hlast ⊢
    rcases primary_cases hu with ⟨u, rfl, -⟩ | rfl | ⟨u, rfl, -⟩ | rfl | rfl
    · simp [List.getLast?_cons] at hlast
    · rfl
    · simp [List.getLast?_cons] at hlast
    · exact nomatch hlast
    · exact nomatch hlast
  · rw [List.getLast?_append, hbracket] at hlast
    exact nomatch hlast

/-- What starts with a parenthesis and has a name in front of it is a call. -/
theorem postfixed_call (h : Derives bracedGrammar (.rule .postfixed) w)
    (hhead : w.head? = some (.lexeme "(")) :
    Derives bracedGrammar (.rule .postfixed) (.identifier :: w) := by
  obtain ⟨u, v, rfl, hu, hv⟩ := postfixed_iff.1 h
  rcases primary_cases hu with ⟨u, rfl, hexpr⟩ | rfl | ⟨u, rfl, -⟩ | rfl | rfl
  · have hargs : Derives bracedGrammar (.rule .args) u :=
      .rule (.left ((Derives.append (Derives.rule_iff.1 hexpr) .nil).of_eq (List.append_nil u)))
    have hcall := (Derives.terminal .identifier).append
      (.left (h := .empty) (((Derives.text "(").append hargs).append (.text ")")))
    exact postfixed_iff.2 ⟨_, v, by simp, .rule (.left (.left (.right hcall))), hv⟩
  all_goals exact nomatch hhead

/-- An operand with a name at its end becomes a call if an operand in parentheses follows. -/
theorem IsOperand.call (hv : IsOperand v) (hhead : v.head? = some (.lexeme "(")) :
    ∀ {u : List Terminal}, IsOperand u → u.getLast? = some .identifier → IsOperand (u ++ v) := by
  intro u
  induction u with
  | nil => exact fun _ hlast => nomatch hlast
  | cons t u ih =>
    intro hu hlast
    rcases isOperand_iff.1 hu with ⟨t', ht, u', heq, hu'⟩ | hpostfixed
    · obtain ⟨rfl, rfl⟩ := List.cons.inj heq
      obtain ⟨x, y, rfl, -⟩ := hu'.exists_start
      rw [List.getLast?_cons_cons] at hlast
      exact isOperand_iff.2 (.inl ⟨t, ht, _, rfl, ih hu' hlast⟩)
    · obtain ⟨rfl, rfl⟩ := List.cons.inj (eq_identifier_of_getLast? hpostfixed hlast)
      rcases isOperand_iff.1 hv with ⟨t, ht, w, rfl, -⟩ | hv
      · obtain rfl := Option.some.inj hhead
        exact absurd ht (by decide)
      · exact isOperand_iff.2 (.inr (postfixed_call hv hhead))

/-! ### Chains -/

/-- Operands with what joins each of them to those before. -/
def joined (pairs : List (Terminal × List Terminal)) : List Terminal :=
  pairs.flatMap fun p => p.1 :: p.2

/-- The word is operands with something between them that joins two expressions. -/
def IsChain (w : List Terminal) : Prop :=
  ∃ u pairs, IsOperand u ∧ (∀ p ∈ pairs, p.1 ∈ joiners ∧ IsOperand p.2) ∧ w = u ++ joined pairs

theorem IsOperand.isChain (h : IsOperand w) : IsChain w :=
  ⟨w, [], h, fun _ hp => absurd hp List.not_mem_nil, (List.append_nil w).symm⟩

theorem IsChain.join {op : Terminal} (hv : IsChain v) (hop : op ∈ joiners) (hw : IsChain w) :
    IsChain (v ++ op :: w) := by
  obtain ⟨u, pairs, hu, hpairs, rfl⟩ := hv
  obtain ⟨u', pairs', hu', hpairs', rfl⟩ := hw
  refine ⟨u, pairs ++ (op, u') :: pairs', hu, fun p hp => ?_, ?_⟩
  · rcases List.mem_append.1 hp with hp | hp
    · exact hpairs p hp
    · rcases List.mem_cons.1 hp with rfl | hp
      · exact ⟨hop, hu'⟩
      · exact hpairs' p hp
  · simp [joined]

/-- Chains with operators between them are a chain. -/
theorem Level.isChain {l : Level}
    (hoperand : ∀ u, Derives bracedGrammar (.rule l.operandNonterminal) u → IsChain u)
    (h : Derives bracedGrammar (.rule l.nonterminal) w) : IsChain w := by
  obtain ⟨u, v, rfl, hu, hv⟩ := Derives.append_iff.1 (l.derives_iff.1 h)
  refine Derives.many_induction (motive := fun v => ∀ u, IsChain u → IsChain (u ++ v)) ?_ ?_ hv u
    (hoperand u hu)
  · exact fun u hu => (List.append_nil u).symm ▸ hu
  · intro x v hx _ ih u hu
    obtain ⟨_, y, rfl, hop, hy⟩ := Derives.append_iff.1 hx
    obtain ⟨op, hmem, rfl⟩ := Level.derives_operators_iff.1 hop
    have hmore := ih _ (hu.join (Level.mem_joiners hmem) (hoperand y hy))
    simpa using hmore

/-- **Every expression is a chain of operands.** -/
theorem isChain_of_expr (h : Derives bracedGrammar (.rule .expr) w) : IsChain w := by
  -- Level by level, from the one that binds tightest.
  have hproduct : ∀ u, Derives bracedGrammar (.rule .mul) u → IsChain u :=
    fun u hu => Level.isChain (l := .product) (fun _ => IsOperand.isChain) hu
  have hsum : ∀ u, Derives bracedGrammar (.rule .add) u → IsChain u :=
    fun u hu => Level.isChain (l := .sum) hproduct hu
  have hrelational : ∀ u, Derives bracedGrammar (.rule .relational) u → IsChain u :=
    fun u hu => Level.isChain (l := .relational) hsum hu
  have hequality : ∀ u, Derives bracedGrammar (.rule .equality) u → IsChain u :=
    fun u hu => Level.isChain (l := .equality) hrelational hu
  -- Assignment associates to the right, so its value is shorter than the whole.
  have hassign : ∀ n, ∀ u : List Terminal, u.length < n → Derives bracedGrammar (.rule .assign) u →
      IsChain u := by
    intro n
    induction n with
    | zero => exact fun u hu => absurd hu (Nat.not_lt_zero _)
    | succ n ih =>
      intro u hlength hu
      obtain ⟨x, y, rfl, hx, hy⟩ := Derives.append_iff.1 (Derives.rule_iff.1 hu)
      rcases Derives.optional_iff.1 hy with hy | rfl
      · obtain ⟨y, rfl, hvalue⟩ := Derives.text_append_iff.1 hy
        refine (hequality x hx).join (by decide) (ih y ?_ hvalue)
        simp only [List.length_append, List.length_cons] at hlength
        omega
      · exact (List.append_nil x).symm ▸ hequality x hx
  exact hassign _ w (Nat.lt_succ_self _) (Derives.rule_iff.1 h)

theorem IsChain.exists_start (h : IsChain w) : ∃ t v, w = t :: v ∧ t ∈ exprStarts := by
  obtain ⟨u, pairs, hu, -, rfl⟩ := h
  obtain ⟨t, v, rfl, ht⟩ := hu.exists_start
  exact ⟨t, v ++ joined pairs, rfl, ht⟩

/-! ### Where expressions end -/

/-- What follows an operand does not make it longer. -/
def OperandEnds (w r : List Terminal) : Prop :=
  r.head? ≠ some (.lexeme "[") ∧ (r.head? = some (.lexeme "(") → w.getLast? ≠ some .identifier)

/-- What follows an expression does not make it longer. -/
def ExprEnds (w r : List Terminal) : Prop :=
  OperandEnds w r ∧ ∀ t ∈ joiners, r.head? ≠ some t

/-- A token that neither joins expressions nor opens anything ends every expression. -/
theorem exprEnds_of_head? {t : Terminal} (hr : r.head? = some t)
    (ht : t ∉ .lexeme "(" :: .lexeme "[" :: joiners) : ExprEnds w r := by
  simp only [List.mem_cons, not_or] at ht
  refine ⟨⟨?_, fun hparen => ?_⟩, fun t' ht' hhead => ?_⟩
  · rw [hr]
    exact fun h => ht.2.1 (Option.some.inj h)
  · rw [hr] at hparen
    exact absurd (Option.some.inj hparen) ht.1
  · rw [hr] at hhead
    exact ht.2.2 (Option.some.inj hhead ▸ ht')

/-- More operands behind a chain. -/
theorem IsChain.append_joined {pairs : List (Terminal × List Terminal)} (hw : IsChain w)
    (hpairs : ∀ p ∈ pairs, p.1 ∈ joiners ∧ IsOperand p.2) : IsChain (w ++ joined pairs) := by
  obtain ⟨u, pairs', hu, hpairs', rfl⟩ := hw
  refine ⟨u, pairs' ++ pairs, hu, fun p hp => ?_, by simp [joined]⟩
  exact (List.mem_append.1 hp).elim (hpairs' p) (hpairs p)

/-- The last operand of a chain becomes a call. -/
theorem IsChain.call (hw : IsChain w) (hlast : w.getLast? = some .identifier) (hv : IsOperand v)
    (hhead : v.head? = some (.lexeme "(")) : IsChain (w ++ v) := by
  obtain ⟨u, pairs, hu, hpairs, rfl⟩ := hw
  rcases List.eq_nil_or_concat pairs with rfl | ⟨pairs, ⟨op, x⟩, rfl⟩
  · rw [joined, List.flatMap_nil, List.append_nil] at hlast ⊢
    exact (hv.call hhead hu hlast).isChain
  · obtain ⟨hop, hx⟩ := hpairs (op, x) (by simp)
    have hbefore : IsChain (u ++ joined pairs) :=
      ⟨u, pairs, hu, fun p hp => hpairs p (by simp [hp]), rfl⟩
    have hsplit : u ++ joined (pairs.concat (op, x)) = u ++ joined pairs ++ op :: x := by
      simp [joined]
    rw [hsplit] at hlast ⊢
    have hlast' : x.getLast? = some .identifier := by
      obtain ⟨t, y, rfl, -⟩ := hx.exists_start
      simpa [List.getLast?_append, List.getLast?_cons] using hlast
    have hmore := hbefore.join hop (hv.call hhead hx hlast').isChain
    simpa using hmore

/-- **An expression that another one makes longer is an expression together with it.** -/
theorem IsChain.append_of_not_exprEnds (hw : IsChain w) (hv : IsChain v) (hends : ¬ ExprEnds w v) :
    IsChain (w ++ v) := by
  obtain ⟨u, pairs, hu, hpairs, rfl⟩ := hv
  obtain ⟨t, u', rfl, ht⟩ := hu.exists_start
  have hcases : t ∈ joiners ∨ t = .lexeme "(" ∧ w.getLast? = some .identifier := by
    by_contra hneither
    simp only [not_or, not_and] at hneither
    refine hends ⟨⟨fun hbracket => ?_, fun hparen => hneither.2 (Option.some.inj hparen)⟩,
      fun t' ht' hhead => hneither.1 (Option.some.inj hhead ▸ ht')⟩
    rw [Option.some.inj hbracket] at ht
    exact absurd ht (by decide)
  rcases hcases with hjoin | ⟨rfl, hlast⟩
  · rcases isOperand_iff.1 hu with ⟨t', -, u'', heq, hu'⟩ | hpostfixed
    · obtain ⟨rfl, rfl⟩ := List.cons.inj heq
      exact hw.join hjoin (hu'.isChain.append_joined hpairs)
    · obtain ⟨t', u'', heq, ht'⟩ := head?_postfixed hpostfixed
      rw [← (List.cons.inj heq).1] at ht'
      have hdisjoint : ∀ t ∈ joiners, t ∉ [Terminal.identifier, .number, .string, .lexeme "("] := by
        decide
      exact absurd ht' (hdisjoint t hjoin)
  · rw [← List.append_assoc]
    exact (hw.call hlast hu rfl).append_joined hpairs

end PocketCompiler
