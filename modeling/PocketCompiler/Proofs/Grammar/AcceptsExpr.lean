import PocketCompiler.Proofs.Grammar.Leaves
import PocketCompiler.Proofs.Grammar.Operands
import PocketCompiler.Proofs.Grammar.Productions

/-!
# Every expression of the grammar is read

If an expression of the grammar comes next, and what follows does not make it longer, then the rule
for expressions leaves what follows (`IsChain.leaves`).  An expression is looked at as a chain of
operands: a level reads operands as long as the operators between them bind at least as much as its
own, and leaves the rest of the chain to the levels that called it.

The proof goes by induction on the length of the expression, since an operand may hold shorter ones.
-/

namespace PocketCompiler

variable {s : ParseState} {u v w r : List Terminal} {n : Nat}

/-! ### Operators -/

namespace ParseState.Ahead

/-- No operator of the level is there, if the word starts with none. -/
theorem join?_eq_none {l : Level} (h : s.Ahead w) (hne : ∀ op ∈ l.terminals, w.head? ≠ some op) :
    l.join? s = none := by
  cases hjoin : l.join? s with
  | none => rfl
  | some join =>
    obtain ⟨token, hcurrent, hoperator⟩ := Level.exists_of_join? hjoin
    obtain ⟨op, hop, heq⟩ := Level.derives_operators_iff.1 hoperator
    refine absurd ?_ (hne op hop)
    rw [← h.head?, hcurrent, Option.map_some, (List.cons.inj heq).1]

/-- An operator is looked up in the table of its level. -/
theorem exists_lookup {β : Type} {table : List (String × β)} {op : Terminal} (h : s.Ahead (op :: w))
    (hop : ∃ entry ∈ table, op = .lexeme entry.1) (htable : ∀ entry ∈ table, entry.1 ∉ keywords) :
    ∃ b, s.lookup table = some b := by
  obtain ⟨⟨text, b⟩, hentry, rfl⟩ := hop
  obtain ⟨⟨kind, loc, found⟩, hcurrent, hterminal, hmade⟩ := h.exists_token
  have hlookup : ∃ b, table.lookup text = some b := by
    cases hfound : table.lookup text with
    | some b => exact ⟨b, rfl⟩
    | none =>
      have hne := List.lookup_eq_none_iff.1 hfound _ hentry
      simp at hne
  cases kind with
  | punctuator =>
    obtain rfl := Terminal.lexeme.inj hterminal
    unfold ParseState.lookup
    rw [hcurrent]
    exact hlookup
  | keyword =>
    obtain rfl := Terminal.lexeme.inj hterminal
    exact absurd (hmade.text rfl) (htable _ hentry)
  | _ => exact nomatch hterminal

/-- An operator that the word starts with is there. -/
theorem exists_join? {l : Level} {op : Terminal} (h : s.Ahead (op :: w)) (hop : op ∈ l.terminals) :
    ∃ join, l.join? s = some join := by
  have hplain : l.terminals = l.table.map (fun entry => .lexeme entry.1) →
      (∀ entry ∈ l.table, entry.1 ∉ keywords) →
        ∃ join, (s.lookup l.table).map Join.plain = some join := by
    intro hterminals htable
    rw [hterminals] at hop
    obtain ⟨entry, hentry, heq⟩ := List.mem_map.1 hop
    obtain ⟨combine, hcombine⟩ := h.exists_lookup ⟨entry, hentry, heq.symm⟩ htable
    exact ⟨.plain combine, by rw [hcombine]; rfl⟩
  cases l with
  | sum =>
    simp only [Level.terminals, List.mem_cons, List.not_mem_nil, or_false] at hop
    simp only [Level.join?]
    rcases hop with rfl | rfl
    · rw [if_pos h.sees]
      exact ⟨_, rfl⟩
    · rw [if_neg (by rw [h.not_sees (by simp)]; exact Bool.false_ne_true), if_pos h.sees]
      exact ⟨_, rfl⟩
  | equality => exact hplain rfl (by simp [Level.table, keywords])
  | relational => exact hplain rfl (by simp [Level.table, keywords])
  | product => exact hplain rfl (by simp [Level.table, keywords])

/-- No sign is there, if the word starts with none. -/
theorem sign?_eq_none (h : s.Ahead w) (hne : ∀ t ∈ signs, w.head? ≠ some t) : s.sign? = none := by
  cases hsign : s.sign? with
  | none => rfl
  | some sign =>
    obtain ⟨token, hcurrent, hsigns⟩ := ParseState.exists_of_sign? hsign
    obtain ⟨t, ht, heq⟩ := Derives.signs_iff.1 hsigns
    refine absurd ?_ (hne t ht)
    rw [← h.head?, hcurrent, Option.map_some, (List.cons.inj heq).1]

/-- A sign that the word starts with is there. -/
theorem exists_sign? {t : Terminal} (h : s.Ahead (t :: w)) (ht : t ∈ signs) :
    ∃ sign, s.sign? = some sign := by
  have hsees : ∃ text ∈ ["+", "-", "&", "*"], s.sees text = true := by
    simp only [signs, List.mem_cons, List.not_mem_nil, or_false] at ht
    rcases ht with rfl | rfl | rfl | rfl <;> exact ⟨_, by decide, h.sees⟩
  simp only [List.mem_cons, List.not_mem_nil, or_false, exists_eq_or_imp, exists_eq_left] at hsees
  rw [← Option.isSome_iff_exists]
  unfold ParseState.sign?
  grind

end ParseState.Ahead

/-! ### Operands -/

/-- Expressions shorter than `n` are read. -/
def ExprsAccepted (n : Nat) : Prop :=
  ∀ {w r : List Terminal} {s : ParseState}, w.length < n → IsChain w → ExprEnds w r →
    s.Ahead (w ++ r) → (Rule.expr.step s).Leaves r

section Operand

variable (hn : ExprsAccepted n)

include hn

/-- The arguments of a call are read. -/
theorem leaves_arguments {loc : Nat} {name : String}
    (hw : Derives bracedGrammar (.separated (.rule .assign)) w) (hlength : w.length < n) :
    ∀ {args : List Node} {s : ParseState}, s.Ahead (w ++ .lexeme ")" :: r) →
      ((Rule.arguments loc name args).step s).Leaves r := by
  refine Derives.separated_induction (motive := fun w => w.length < n → ∀ {args : List Node}
    {s : ParseState}, s.Ahead (w ++ .lexeme ")" :: r) →
      ((Rule.arguments loc name args).step s).Leaves r) ?_ ?_ hw hlength
  · intro u hu hlength args s h
    refine .ite (fun _ => .call (hn hlength (isChain_of_expr (.rule hu)) ?_ h) fun _ t ht => ?_)
      fun _ => .check trivial
    · exact exprEnds_of_head? rfl (by decide)
    · exact .sees ht (.done ht.advance)
  · intro u v hu _ ih hlength args s h
    rw [List.length_append, List.length_cons] at hlength
    rw [List.append_assoc, List.cons_append] at h
    refine .ite (fun _ => .call (hn (by omega) (isChain_of_expr (.rule hu)) ?_ h) fun _ t ht => ?_)
      fun _ => .check trivial
    · exact exprEnds_of_head? rfl (by decide)
    · exact .not_sees ht (by simp) (.expect ht fun t ht => .tail (ih (by omega) ht))

/-- A call is read behind its opening parenthesis. -/
theorem leaves_callOf {name : String} {loc : Nat} (hw : Derives bracedGrammar (.rule .args) w)
    (hlength : w.length < n) (h : s.Ahead (w ++ .lexeme ")" :: r)) :
    (Step.callOf name loc s).Leaves r := by
  refine .ite (fun _ => .check trivial) fun _ => ?_
  rcases Derives.optional_iff.1 (Derives.rule_iff.1 hw) with hargs | rfl
  · obtain ⟨u, x, heq, hu, -⟩ := Derives.append_iff.1 hargs
    obtain ⟨t, u, rfl, ht⟩ := (isChain_of_expr (.rule hu)).exists_start
    refine .not_sees h ?_ (.tail (leaves_arguments hn hargs hlength h))
    rw [heq]
    rintro ⟨⟩
    exact absurd ht (by decide)
  · exact .sees h (.done h.advance)

omit hn in
/-- The use of a name reads nothing. -/
theorem leaves_useOf {name : String} {loc : Nat} (h : s.Ahead r) :
    (Step.useOf name loc s).Leaves r := by
  unfold Step.useOf
  split
  · exact .done h
  · exact .fail fun hunexpected => hunexpected

/-- What stands for a value without an operator is read. -/
theorem leaves_primary (hw : Derives bracedGrammar (.rule .primary) w) (hlength : w.length ≤ n)
    (hend : r.head? = some (.lexeme "(") → w.getLast? ≠ some .identifier) (h : s.Ahead (w ++ r)) :
    (Rule.primary.step s).Leaves r := by
  rw [Rule.step]
  -- The first token tells the forms apart, but for a name, which may be that of a function.
  rcases primary_cases hw with ⟨u, rfl, hu⟩ | rfl | ⟨u, rfl, hu⟩ | rfl | rfl
  · simp only [List.cons_append, List.append_assoc, List.nil_append] at h
    simp only [List.length_cons, List.length_append, List.length_nil] at hlength
    have hexpr := hn (by omega) (isChain_of_expr hu) (exprEnds_of_head? rfl (by decide)) h.advance
    exact .sees h (.call hexpr fun _ t ht => .expect ht fun t ht => .done ht)
  · refine .not_sees h (by simp) ?_
    rw [h.kind_identifier]
    refine .identifier h fun name loc t ht => .not_sees ht (fun hparen => ?_) (leaves_useOf ht)
    exact hend hparen rfl
  · simp only [List.cons_append, List.append_assoc, List.nil_append] at h
    simp only [List.length_cons, List.length_append, List.length_nil] at hlength
    refine .not_sees h (by simp) ?_
    rw [h.kind_identifier]
    exact .identifier h fun name loc t ht => .sees ht (leaves_callOf hn hu (by omega) ht.advance)
  · refine .not_sees h (by simp) ?_
    obtain ⟨bytes, ty, hkind⟩ := h.kind_string
    rw [hkind]
    exact .literal h fun bytes ty t ht => .done (ht.of_rest rfl)
  · refine .not_sees h (by simp) ?_
    obtain ⟨value, hkind⟩ := h.kind_number
    rw [hkind]
    exact .number h fun value loc t ht => .done ht

/-- Subscripts are read. -/
theorem leaves_subscripts (hw : Derives bracedGrammar (.many .subscript) w) (hlength : w.length ≤ n)
    (hend : r.head? ≠ some (.lexeme "[")) :
    ∀ {node : Node} {s : ParseState}, s.Ahead (w ++ r) →
      ((Rule.subscripts node).step s).Leaves r := by
  refine Derives.many_induction (motive := fun w => w.length ≤ n → ∀ {node : Node} {s : ParseState},
    s.Ahead (w ++ r) → ((Rule.subscripts node).step s).Leaves r) ?_ ?_ hw hlength
  · exact fun _ node s h => .not_sees h hend (.done h)
  · intro u v hu _ ih hlength node s h
    obtain ⟨u, rfl, hindex⟩ := subscript_iff.1 hu
    simp only [List.cons_append, List.append_assoc, List.nil_append] at h
    simp only [List.length_cons, List.length_append, List.length_nil] at hlength
    have hexpr :=
      hn (by omega) (isChain_of_expr hindex) (exprEnds_of_head? rfl (by decide)) h.advance
    refine .sees h (.call hexpr fun index t ht => .expect ht fun t ht => ?_)
    exact .ofResult (Join.checks_typed Node.checks_sum _ _ _ _)
      fun place => .tail (ih (by omega) ht)

/-- A postfixed expression is read up to a token that ends operands. -/
theorem leaves_postfixed (hw : Derives bracedGrammar (.rule .postfixed) w) (hlength : w.length ≤ n)
    (hend : OperandEnds w r) (h : s.Ahead (w ++ r)) : (Rule.postfixed.step s).Leaves r := by
  obtain ⟨u, v, rfl, hu, hv⟩ := postfixed_iff.1 hw
  rw [List.append_assoc] at h
  rw [List.length_append] at hlength
  refine .call (leaves_primary hn hu (by omega) (fun hparen => ?_) h) fun node t ht =>
    .tail (leaves_subscripts hn hv (by omega) hend.1 ht)
  rcases subscripts_cases hv with rfl | ⟨hbracket, -⟩
  · rw [List.append_nil] at hend
    exact hend.2 hparen
  · simp [List.head?_append, hbracket] at hparen

/-- An operand is read. -/
theorem leaves_unary : ∀ {w : List Terminal} {s : ParseState}, IsOperand w → w.length ≤ n →
    OperandEnds w r → s.Ahead (w ++ r) → (Rule.unary.step s).Leaves r := by
  intro w
  induction w with
  | nil => exact fun hw => absurd rfl hw.ne_nil
  | cons t w ih =>
    intro s hw hlength hend h
    rw [Rule.step]
    rcases isOperand_iff.1 hw with ⟨t', ht, w', heq, hw'⟩ | hpostfixed
    · obtain ⟨rfl, rfl⟩ := List.cons.inj heq
      obtain ⟨sign, hsign⟩ := h.exists_sign? ht
      have hend' : OperandEnds w r := by
        obtain ⟨x, y, rfl, -⟩ := hw'.exists_start
        exact ⟨hend.1, fun hparen => List.getLast?_cons_cons ▸ hend.2 hparen⟩
      rw [hsign]
      exact .call (ih hw' (Nat.le_of_succ_le hlength) hend' h.advance) fun _ t ht => .done ht
    · obtain ⟨x, y, heq, hx⟩ := head?_postfixed hpostfixed
      -- No postfix expression starts with a sign.
      have hdisjoint : ∀ t ∈ signs, t ∉ [Terminal.identifier, .number, .string, .lexeme "("] := by
        decide
      have hnone : s.sign? = none := by
        refine h.sign?_eq_none fun t' ht' hhead => hdisjoint t' ht' ?_
        obtain rfl : t = t' := Option.some.inj hhead
        rw [(List.cons.inj heq).1]
        exact hx
      rw [hnone]
      exact .tail (leaves_postfixed hn hpostfixed hlength hend h)

end Operand

/-! ### Levels -/

/-- How much a level binds. -/
def Level.rank : Level → Nat
  | .equality => 0
  | .relational => 1
  | .sum => 2
  | .product => 3

/-- Levels that bind as much are the same. -/
theorem Level.rank_injective {l l' : Level} (h : l.rank = l'.rank) : l = l' := by
  revert h
  cases l <;> cases l' <;> decide

/-- The terminal is an operator that binds at least as much as the rank says. -/
def binds (rank : Nat) (op : Terminal) : Bool :=
  [Level.equality, .relational, .sum, .product].any fun l => op ∈ l.terminals && rank ≤ l.rank

/-- An operator binds at least so much if it is one of a level that does. -/
theorem binds_iff {rank : Nat} {op : Terminal} :
    binds rank op = true ↔ ∃ l : Level, op ∈ l.terminals ∧ rank ≤ l.rank := by
  simp only [binds, List.any_eq_true, Bool.and_eq_true, decide_eq_true_eq]
  exact ⟨fun ⟨l, _, hl⟩ => ⟨l, hl⟩, fun ⟨l, hl⟩ => ⟨l, by cases l <;> decide, hl⟩⟩

/-- What binds at least so much binds at least less. -/
theorem binds_of_le {rank more : Nat} {op : Terminal} (hle : rank ≤ more)
    (h : binds more op = true) : binds rank op = true := by
  obtain ⟨l, hop, hrank⟩ := binds_iff.1 h
  exact binds_iff.2 ⟨l, hop, Nat.le_trans hle hrank⟩

/-- What binds as much as a level and not more is an operator of the level. -/
theorem Level.mem_terminals_of_binds {l : Level} {op : Terminal} (h : binds l.rank op = true)
    (hnot : binds (l.rank + 1) op = false) : op ∈ l.terminals := by
  obtain ⟨l', hop, hrank⟩ := binds_iff.1 h
  have hle : ¬ l.rank + 1 ≤ l'.rank := fun hle => by
    rw [binds_iff.2 ⟨l', hop, hle⟩] at hnot
    exact nomatch hnot
  have hrank : l'.rank = l.rank := by omega
  rwa [← Level.rank_injective hrank]

/-- What is left of a chain when all that binds at least as much as `rank` has been read. -/
def left (rank : Nat) (pairs : List (Terminal × List Terminal)) : List (Terminal × List Terminal) :=
  pairs.dropWhile fun p => binds rank p.1

/-- What binds more is read first, and it makes no difference to what is left in the end. -/
theorem left_left {rank more : Nat} (h : rank ≤ more) (pairs : List (Terminal × List Terminal)) :
    left rank (left more pairs) = left rank pairs := by
  unfold left
  induction pairs with
  | nil => rfl
  | cons p pairs ih =>
    cases hmore : binds more p.1 with
    | true => simp [hmore, binds_of_le h hmore, ih]
    | false => simp [hmore]

/-- What is left of a chain is the end of it. -/
theorem left_suffix (rank : Nat) (pairs : List (Terminal × List Terminal)) :
    left rank pairs <:+ pairs := List.dropWhile_suffix _

/-- What is left of a chain starts with an operator that binds less. -/
theorem not_binds_left {rank : Nat} {pairs more : List (Terminal × List Terminal)}
    {p : Terminal × List Terminal} (h : left rank pairs = p :: more) : binds rank p.1 = false := by
  have hnot := List.head?_dropWhile_not (fun p : Terminal × List Terminal => binds rank p.1) pairs
  rw [show pairs.dropWhile _ = _ from h] at hnot
  exact hnot

/-- The operands are operands, what joins them does so, and what follows them does not. -/
structure ChainEnds (pairs : List (Terminal × List Terminal)) (r : List Terminal) : Prop where
  each : ∀ p ∈ pairs, p.1 ∈ joiners ∧ IsOperand p.2
  join : ∀ t ∈ joiners, r.head? ≠ some t
  operand : pairs ≠ [] → OperandEnds (joined pairs) r

/-- Only the end of a word matters to what may follow. -/
theorem OperandEnds.of_append (h : OperandEnds (u ++ v) r) (hv : v ≠ []) : OperandEnds v r := by
  refine ⟨h.1, fun hparen => ?_⟩
  have hlast := h.2 hparen
  have hsome := List.getLast?_eq_some_getLast hv
  rwa [List.getLast?_append, hsome, Option.some_or, ← hsome] at hlast

theorem joined_ne_nil {pairs : List (Terminal × List Terminal)} (h : pairs ≠ []) :
    joined pairs ≠ [] := by
  obtain ⟨p, pairs, rfl⟩ := List.exists_cons_of_ne_nil h
  simp [joined]

/-- The end of a chain has no more words than the chain. -/
theorem length_joined_le {pairs more : List (Terminal × List Terminal)} (h : more <:+ pairs) :
    (joined more).length ≤ (joined pairs).length := by
  obtain ⟨before, rfl⟩ := h
  simp [joined]

/-- The end of a chain ends as the chain does. -/
theorem ChainEnds.of_suffix {pairs more : List (Terminal × List Terminal)} (h : ChainEnds pairs r)
    (hmore : more <:+ pairs) : ChainEnds more r where
  each p hp := h.each p (hmore.subset hp)
  join := h.join
  operand hne := by
    obtain ⟨before, rfl⟩ := hmore
    have hends := h.operand (by simp [hne])
    rw [joined, List.flatMap_append] at hends
    exact hends.of_append (joined_ne_nil hne)

/-- The rule reads an operand and all behind it that binds at least as much as `rank`. -/
def LevelAccepted (n rank : Nat) (rule : Rule Node) : Prop :=
  ∀ {u : List Terminal} {pairs : List (Terminal × List Terminal)} {r : List Terminal}
      {s : ParseState},
    IsOperand u → ChainEnds pairs r → (pairs = [] → OperandEnds u r) →
      (u ++ joined pairs).length ≤ n → s.Ahead (u ++ joined pairs ++ r) →
        (rule.step s).Leaves (joined (left rank pairs) ++ r)

/-- Nothing binds as much as a sign. -/
theorem levelAccepted_unary (hn : ExprsAccepted n) :
    LevelAccepted n (Level.product.rank + 1) .unary := by
  intro u pairs r s hu hpairs hend hlength h
  have hleft : left (Level.product.rank + 1) pairs = pairs := by
    cases pairs with
    | nil => rfl
    | cons p pairs =>
      refine List.dropWhile_cons_of_neg fun hbinds => ?_
      obtain ⟨l, -, hrank⟩ := binds_iff.1 hbinds
      cases l <;> simp [Level.rank] at hrank
  rw [hleft]
  rw [List.append_assoc] at h
  rw [List.length_append] at hlength
  refine leaves_unary hn hu (by omega) ?_ h
  cases pairs with
  | nil => exact hend rfl
  | cons p pairs =>
    have hdisjoint : ∀ t ∈ joiners, t ≠ .lexeme "[" ∧ t ≠ .lexeme "(" := by decide
    have hjoin := hdisjoint p.1 (hpairs.each p List.mem_cons_self).1
    exact ⟨fun hhead => hjoin.1 (Option.some.inj hhead),
      fun hhead => absurd (Option.some.inj hhead) hjoin.2⟩

/-- Behind an operand of a level all that binds at least as much as the level is read. -/
theorem leaves_more {l : Level} (hoperand : LevelAccepted n (l.rank + 1) l.operand) :
    ∀ (k : Nat) {pairs : List (Terminal × List Terminal)} {lhs : Node} {s : ParseState},
      pairs.length < k → ChainEnds pairs r → (joined pairs).length ≤ n →
        left (l.rank + 1) pairs = pairs → s.Ahead (joined pairs ++ r) →
          ((Rule.more l lhs).step s).Leaves (joined (left l.rank pairs) ++ r) := by
  intro k
  -- Every turn of the loop reads one pair, so the induction is on their number.
  induction k with
  | zero => exact fun hk => absurd hk (Nat.not_lt_zero _)
  | succ k ih =>
    intro pairs lhs s hk hpairs hlength hmore h
    rw [Rule.step]
    cases pairs with
    | nil =>
      rw [h.join?_eq_none fun op hop => hpairs.join op (Level.mem_joiners hop)]
      exact .done h
    | cons p pairs =>
      obtain ⟨op, u⟩ := p
      have hnot : binds (l.rank + 1) op = false := not_binds_left hmore
      have hrest : ChainEnds pairs r := hpairs.of_suffix (List.suffix_cons _ _)
      have hu : IsOperand u := (hpairs.each _ List.mem_cons_self).2
      have hsplit : joined ((op, u) :: pairs) = op :: (u ++ joined pairs) := by simp [joined]
      rw [hsplit] at h hlength
      -- An operator of the level is read with its operand; one that binds less is left.
      by_cases hop : op ∈ l.terminals
      · obtain ⟨join, hjoin⟩ := h.exists_join? hop
        have hgo : left l.rank ((op, u) :: pairs) = left l.rank pairs :=
          List.dropWhile_cons_of_pos (binds_iff.2 ⟨l, hop, Nat.le_refl _⟩)
        -- The last operand is followed by what follows the chain.
        have hend : pairs = [] → OperandEnds u r := by
          rintro rfl
          have hends := hpairs.operand (List.cons_ne_nil _ _)
          rw [hsplit, joined, List.flatMap_nil, List.append_nil] at hends
          exact hends.of_append (u := [op]) hu.ne_nil
        have hleft : ChainEnds (left (l.rank + 1) pairs) r := hrest.of_suffix (left_suffix _ _)
        rw [hjoin, hgo, ← left_left (Nat.le_add_right l.rank 1)]
        rw [List.length_cons] at hlength
        -- The operand reads all that binds more, so the rest of the chain starts at this level or
        -- below.
        refine .call (hoperand hu hrest hend (by omega) h.advance) fun rhs t ht =>
          .ofResult (Level.checks_join hjoin _ _ _ _) fun node => .tail (ih ?_ hleft ?_ ?_ ht)
        · have hle := (left_suffix (l.rank + 1) pairs).length_le
          rw [List.length_cons] at hk
          omega
        · have hle := length_joined_le (left_suffix (l.rank + 1) pairs)
          rw [List.length_append] at hlength
          omega
        · exact left_left (Nat.le_refl _) _
      · have hnone : l.join? s = none := by
          refine h.join?_eq_none fun op' hop' hhead => hop ?_
          obtain rfl : op = op' := Option.some.inj hhead
          exact hop'
        have hstay : left l.rank ((op, u) :: pairs) = (op, u) :: pairs := by
          refine List.dropWhile_cons_of_neg fun hbinds => hop ?_
          exact Level.mem_terminals_of_binds hbinds hnot
        rw [hnone, hstay]
        exact .done h

/-- A level reads what its operands read, and goes on while its own operators follow. -/
theorem levelAccepted_level {l : Level} (hoperand : LevelAccepted n (l.rank + 1) l.operand) :
    LevelAccepted n l.rank (.level l) := by
  intro u pairs r s hu hpairs hend hlength h
  refine .call (hoperand hu hpairs hend hlength h) fun node t ht => ?_
  have hsuffix := left_suffix (l.rank + 1) pairs
  have hle := length_joined_le hsuffix
  rw [List.length_append] at hlength
  rw [← left_left (Nat.le_add_right l.rank 1)]
  exact .tail (leaves_more hoperand _ (Nat.lt_succ_self _) (hpairs.of_suffix hsuffix) (by omega)
    (left_left (Nat.le_refl _) _) ht)

/-! ### Expressions -/

/-- What joins expressions and has no level is the sign of an assignment. -/
theorem eq_of_not_binds {op : Terminal} (hop : op ∈ joiners) (hnot : binds 0 op = false) :
    op = .lexeme "=" := by
  revert op
  decide

/-- Expressions of any length are read if all that are shorter are. -/
theorem exprsAccepted_succ (hn : ExprsAccepted n) : ExprsAccepted (n + 1) := by
  intro w r s hlength hw hend h
  -- The levels from the tightest to the loosest, each reading what the one before it left.
  have hproduct : LevelAccepted n Level.product.rank (.level .product) :=
    levelAccepted_level (levelAccepted_unary hn)
  have hsum : LevelAccepted n Level.sum.rank (.level .sum) := levelAccepted_level hproduct
  have hrelational : LevelAccepted n Level.relational.rank (.level .relational) :=
    levelAccepted_level hsum
  have hequality : LevelAccepted n Level.equality.rank (.level .equality) :=
    levelAccepted_level hrelational
  obtain ⟨u, pairs, hu, hpairs, rfl⟩ := hw
  have hchain : ChainEnds pairs r :=
    ⟨hpairs, hend.2, fun hne => hend.1.of_append (joined_ne_nil hne)⟩
  have hfirst : pairs = [] → OperandEnds u r := by
    rintro rfl
    simpa [joined] using hend.1
  refine .call (hequality hu hchain hfirst (Nat.le_of_lt_succ hlength) h) fun node t ht => ?_
  have hsuffix := left_suffix Level.equality.rank pairs
  have hle := length_joined_le hsuffix
  have hleft := hchain.of_suffix hsuffix
  -- What the levels leave is nothing, or starts with an assignment.
  cases hmore : left Level.equality.rank pairs with
  | nil =>
    rw [hmore] at ht
    exact .not_sees ht (hend.2 _ (by decide)) (.done ht)
  | cons p more =>
    obtain ⟨op, v⟩ := p
    rw [hmore] at ht hle hleft
    obtain ⟨hop, hv⟩ := hleft.each _ List.mem_cons_self
    obtain rfl := eq_of_not_binds hop (not_binds_left hmore)
    have hsplit : joined ((.lexeme "=", v) :: more) = .lexeme "=" :: (v ++ joined more) := by
      simp [joined]
    rw [hsplit] at ht hle
    have hends := hleft.operand (List.cons_ne_nil _ _)
    rw [hsplit] at hends
    have hvalue : IsChain (v ++ joined more) :=
      ⟨v, more, hv, fun p hp => hleft.each p (List.mem_cons_of_mem _ hp), rfl⟩
    have hne : v ++ joined more ≠ [] := by simp [hv.ne_nil]
    -- The value behind an assignment is an expression again, and a shorter one.
    refine .sees ht (.call (hn ?_ hvalue ⟨hends.of_append (u := [_]) hne, hend.2⟩ ht.advance)
      fun _ t ht => .done ht)
    simp only [List.length_append, List.length_cons] at hlength hle ⊢
    omega

/-- **Every expression is read**, if what follows does not make it longer. -/
theorem IsChain.leaves (hw : IsChain w) (hend : ExprEnds w r) (h : s.Ahead (w ++ r)) :
    (Rule.expr.step s).Leaves r := by
  have haccepted : ∀ n, ExprsAccepted n := by
    intro n
    induction n with
    | zero => exact fun hlength => absurd hlength (Nat.not_lt_zero _)
    | succ n ih => exact exprsAccepted_succ ih
  exact haccepted _ (Nat.lt_succ_self w.length) hw hend h

end PocketCompiler
