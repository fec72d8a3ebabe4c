import PocketCompiler.Proofs.Grammar.Exchange

/-!
# Expressions that say the same

A subscript is the value at a sum, and a sum or a comparison can be written with its operands the
other way round.  Where one of these is read, the other one is read as the same tree.
-/

namespace PocketCompiler

variable {α β : Type} {s t u p q : ParseState} {node value : Node}

/-! ### Reading is determined -/

/-- There is one way to follow the rules, so what they give is determined. -/
theorem Step.Yields.unique {x : Step α} {a b : α} (h : x.Yields a t) (h' : x.Yields b u) :
    a = b ∧ t = u :=
  Prod.mk.inj (Except.ok.inj (h.run.symm.trans h'.run))

/-- A call of which the result is known. -/
theorem Step.yields_call_of {rule : Rule β} {next : β → ParseState → Step α} {a : α} {b : β}
    (h : (rule.step s).Yields b t) : (call rule s next).Yields a u ↔ (next b t).Yields a u := by
  constructor
  · intro hcall
    obtain ⟨c, v, hrule, hnext⟩ := yields_call_iff.1 hcall
    obtain ⟨rfl, rfl⟩ := hrule.unique h
    exact hnext
  · exact .call h

/-! ### Expressions without string literals -/

/-- Whether the token is a string literal. -/
def Token.isLiteral (token : Token) : Bool :=
  match token.kind with
  | .string _ _ => true
  | _ => false

/-- Whether a rule reads a part of an expression. -/
def Rule.isOperand : Rule α → Bool
  | .expr | .level _ | .more _ _ | .unary | .postfixed | .subscripts _ | .primary
  | .arguments _ _ _ => true
  | _ => false

/-- If there is no string literal between `s` and `t`, only the place changes. -/
def ParseState.Passing (s t : ParseState) : Prop :=
  ∃ text, s.rest = text ++ t.rest ∧ ((∀ token ∈ text, token.isLiteral = false) → s.Past text t)

namespace ParseState.Passing

/-- Where nothing is read, nothing changes. -/
theorem refl (s : ParseState) : s.Passing s := ⟨[], rfl, fun _ => .refl s⟩

theorem trans (h : s.Passing t) (h' : t.Passing u) : s.Passing u := by
  obtain ⟨first, hfirst, hpast⟩ := h
  obtain ⟨second, hsecond, hpast'⟩ := h'
  refine ⟨first ++ second, by rw [hfirst, hsecond, List.append_assoc], fun hnone => ?_⟩
  obtain ⟨hnone, hnone'⟩ := List.forall_mem_append.1 hnone
  exact (hpast hnone).trans (hpast' hnone')

theorem advance (s : ParseState) : s.Passing s.advance := by
  cases hcurrent : s.current? with
  | none =>
    have hrest : s.rest = [] := List.head?_eq_none_iff.1 hcurrent
    have hsame : s.advance = s := by
      rw [ParseState.advance, hrest, List.tail_nil, ← hrest]
    rw [hsame]
    exact refl s
  | some token => exact ⟨[token], rest_of_current? hcurrent, fun _ => .advance hcurrent⟩

/-- A string literal does not count: nothing is said of what it adds to the tables. -/
theorem literal {bytes : Option (List UInt8)} {type : Option Ty} {loc : Nat} {text : String}
    (h : s.current? = some ⟨.string bytes type, loc, text⟩) (bytes' : List UInt8) (ty' : Ty) :
    s.Passing (s.advance.addLiteral bytes' ty') := by
  refine ⟨[⟨.string bytes type, loc, text⟩], rest_of_current? h, fun hnone => ?_⟩
  exact nomatch hnone _ List.mem_cons_self

end ParseState.Passing

/-- Parts of expressions pass. -/
def Contract.passing : Contract where
  pre _ _ := True
  post rule s _ t := rule.isOperand = true → s.Passing t

open Step in
/-- Every part of an expression passes. -/
theorem Contract.holds_passing : Contract.passing.Holds := by
  intro α rule s _
  have hrefl := ParseState.Passing.refl
  have htrans := @ParseState.Passing.trans
  have hadvance := ParseState.Passing.advance
  -- As in `ParseState.Steady.holds_along`, the rules are chains of moves and calls.
  cases rule with
  | expr | postfixed | subscripts =>
    rw [Rule.step]
    simp only [meets_call, meets_ite, meets_expect, meets_ofResult, meets_done, Contract.passing,
      Rule.isOperand]
    grind -ring -linarith
  | arguments =>
    rw [Rule.step]
    simp only [meets_call, meets_ite, meets_expect, meets_done, meets_fail, Contract.passing,
      Rule.isOperand]
    grind -ring -linarith
  | level l =>
    cases l <;>
    · rw [Rule.step]
      simp only [Level.operand, meets_call, meets_done, Contract.passing, Rule.isOperand]
      grind -ring -linarith
  | more l lhs =>
    rw [Rule.step]
    split
    · exact fun _ => hrefl s
    · cases l <;>
      · simp only [Level.operand, meets_call, meets_ofResult, meets_done, Contract.passing,
          Rule.isOperand]
        grind -ring -linarith
  | unary =>
    rw [Rule.step]
    split
    · simp only [meets_call, meets_done, Contract.passing, Rule.isOperand]
      grind -ring -linarith
    · simp only [meets_call, meets_done, Contract.passing, Rule.isOperand]
      grind -ring -linarith
  | primary =>
    rw [Rule.step]
    simp only [callOf, useOf, meets_ite]
    refine ⟨fun _ => ?_, fun _ => ?_⟩
    · simp only [meets_call, meets_expect, meets_done, Contract.passing, Rule.isOperand]
      grind -ring -linarith
    split
    · simp only [meets_identifier, meets_ite, meets_fail, meets_call, meets_done, Contract.passing,
        Rule.isOperand]
      intro name loc _
      refine ⟨by grind -ring -linarith, fun _ => ?_⟩
      split
      · exact fun _ => hadvance s
      · trivial
    -- A literal adds a global, but then it is among the tokens, and nothing is claimed.
    · simp only [meets_literal, meets_done]
      exact fun bytes ty loc text hcurrent _ => .literal hcurrent bytes ty
    · simp only [meets_number, meets_done]
      exact fun _ _ _ _ _ => hadvance s
    · trivial
  -- No other rule reads a part of an expression.
  | _ => exact meets_of_forall (fun _ _ => trivial) (fun _ _ h => Bool.noConfusion h) _

/-- **An expression without string literals changes nothing** but where reading goes on. -/
theorem Step.Yields.past (h : (Rule.expr.step s).Yields node t) {text : List Token}
    (hrest : s.rest = text ++ t.rest) (hnone : ∀ token ∈ text, token.isLiteral = false) :
    s.Past text t := by
  obtain ⟨text', hrest', hpast⟩ := Contract.holds_passing.yields trivial h rfl
  obtain rfl := List.append_cancel_right (hrest.symm.trans hrest')
  exact hpast hnone

/-! ### Tokens without places -/

/-- A punctuator at the start of a source. -/
def Token.punctuator (text : String) : Token := ⟨.punctuator, 0, text⟩

/-- All tokens that are left are said to be at the start of the source. -/
def ParseState.Placeless (s : ParseState) : Prop := ∀ token ∈ s.rest, token.loc = 0

namespace ParseState

/-- Fewer tokens have no places, either. -/
theorem Placeless.of_suffix (hs : s.Placeless) (h : t.rest <:+ s.rest) : t.Placeless :=
  fun token htoken => hs token (h.subset htoken)

theorem Placeless.advance (hs : s.Placeless) : s.advance.Placeless :=
  hs.of_suffix (List.tail_suffix _)

/-- A punctuator that is put in front is the current token. -/
theorem at_facing {text : String} {rest : List Token} :
    (s.facing (.punctuator text :: rest)).At text := ⟨0, rfl⟩

variable {text : String}

/-- A text that is seen is that of a punctuator without a place. -/
theorem At.current? (h : s.At text) (hs : s.Placeless) : s.current? = some (.punctuator text) := by
  obtain ⟨loc, hcurrent⟩ := h
  obtain rfl : loc = 0 := hs _ (List.mem_of_mem_head? hcurrent)
  exact hcurrent

/-- The tokens start with the text that is seen. -/
theorem At.rest (h : s.At text) (hs : s.Placeless) :
    s.rest = .punctuator text :: s.advance.rest :=
  rest_of_current? (h.current? hs)

theorem At.loc (h : s.At text) (hs : s.Placeless) : s.loc = 0 := by
  rw [ParseState.loc, h.current? hs]
  rfl

end ParseState

/-! ### Operators between operands -/

/-- An operand that is followed by nothing that binds more than a level is an operand of it. -/
theorem Level.yields_operand {l : Level} (h : (Rule.unary.step s).Yields node t)
    (hnone : ∀ l' : Level, l.binding < l'.binding → l'.join? t = none) :
    (l.operand.step s).Yields node t := by
  have hmore : ∀ l' : Level, l.binding < l'.binding →
      ((Rule.more l' node).step t).Yields node t := by
    intro l' hl
    rw [Rule.step_more_of_none node (hnone l' hl)]
    exact .done
  cases l with
  | product => exact h
  | sum => exact .level (l := .product) h (hmore .product (by decide))
  | relational =>
    refine .level (l := .sum) ?_ (hmore .sum (by decide))
    exact .level (l := .product) h (hmore .product (by decide))
  | equality =>
    refine .level (l := .relational) ?_ (hmore .relational (by decide))
    refine .level (l := .sum) ?_ (hmore .sum (by decide))
    exact .level (l := .product) h (hmore .product (by decide))

/-- What is between two operands that are a whole expression. -/
structure Level.Between (l : Level) (join : Join) (s t u : ParseState) (lhs rhs : Node) : Prop where
  lhs : (Rule.unary.step s).Yields lhs t
  join : l.join? t = some join
  tight : ∀ l' : Level, l.binding < l'.binding → l'.join? t = none
  rhs : (Rule.unary.step t.advance).Yields rhs u
  stops : u.Stops 0

namespace Level.Between

variable {l : Level} {join : Join} {lhs rhs : Node}

/-- The right operand is read behind the operator. -/
theorem rhs_operand (h : l.Between join s t u lhs rhs) :
    (l.operand.step t.advance).Yields rhs u :=
  yields_operand h.rhs fun l' _ => (h.stops.le (Nat.zero_le l'.binding)).join?_eq_none

/-- Two operands with an operator between them are read as what it makes of them. -/
theorem yields (h : l.Between join s t u lhs rhs)
    (hjoined : join u.symbols lhs rhs t.loc = .ok node) : (Rule.expr.step s).Yields node u := by
  have hlevel : ((Rule.level l).step s).Yields node u := by
    refine .level (yields_operand h.lhs h.tight) ?_
    rw [Rule.step, h.join]
    refine .call h.rhs_operand ?_
    rw [hjoined]
    exact .call (.more_done node (h.stops.le (Nat.zero_le _))) .done
  rw [← Rule.operandOf_binding] at hlevel
  exact hlevel.loosen (Nat.zero_le _) (by cases l <;> decide) h.stops

/-- If they are read, the operator makes something of them. -/
theorem exists_joined (h : l.Between join s t u lhs rhs)
    (hread : (Rule.expr.step s).Yields value q) :
    ∃ node, join u.symbols lhs rhs t.loc = .ok node := by
  -- What reads the whole expression reads the level in it.
  have hlevel : ∃ node v, ((Rule.level l).step s).Yields node v := by
    obtain ⟨_, _, hequality, -⟩ := Step.yields_call_iff.1 hread
    cases l with
    | equality => exact ⟨_, _, hequality⟩
    | relational =>
      obtain ⟨_, _, hrelational, -⟩ := Step.yields_call_iff.1 hequality
      exact ⟨_, _, hrelational⟩
    | sum =>
      obtain ⟨_, _, hrelational, -⟩ := Step.yields_call_iff.1 hequality
      obtain ⟨_, _, hsum, -⟩ := Step.yields_call_iff.1 hrelational
      exact ⟨_, _, hsum⟩
    | product =>
      obtain ⟨_, _, hrelational, -⟩ := Step.yields_call_iff.1 hequality
      obtain ⟨_, _, hsum, -⟩ := Step.yields_call_iff.1 hrelational
      obtain ⟨_, _, hproduct, -⟩ := Step.yields_call_iff.1 hsum
      exact ⟨_, _, hproduct⟩
  obtain ⟨node, v, hlevel⟩ := hlevel
  rw [Rule.step, Step.yields_call_of (yields_operand h.lhs h.tight)] at hlevel
  obtain ⟨_, _, hmore, -⟩ := Step.yields_call_iff.1 hlevel
  rw [Rule.step, h.join] at hmore
  dsimp only at hmore
  rw [Step.yields_call_of h.rhs_operand] at hmore
  cases hjoined : join u.symbols lhs rhs t.loc with
  | ok node => exact ⟨node, rfl⟩
  | error failure =>
    rw [hjoined] at hmore
    exact absurd hmore Step.not_yields_fail

end Level.Between

/-! ### Primary expressions as operands -/

/-- A primary expression starts with a name, a literal or a parenthesis. -/
theorem Rule.not_sees_of_primary (h : (Rule.primary.step s).Yields node t) {text : String}
    (htext : text ≠ "(") : s.sees text = false := by
  by_cases hopen : s.sees "(" = true
  · exact ParseState.sees_eq_false hopen htext.symm
  · rw [step_primary, if_neg hopen, Step.atom] at h
    cases hcurrent : s.current? with
    | none => rw [ParseState.sees, hcurrent]; rfl
    | some token =>
      obtain ⟨kind, loc, name⟩ := token
      rw [hcurrent] at h
      rw [ParseState.sees, hcurrent]
      cases kind with
      | identifier | string | number => rfl
      | _ => exact absurd h Step.not_yields_fail

/-- A primary expression has a first token. -/
theorem Step.Yields.exists_cons (h : (Rule.primary.step s).Yields node t) :
    ∃ token left, s.rest = token :: left := by
  have hlength : t.rest.length + 1 ≤ s.rest.length := h.length
  exact List.exists_cons_of_length_pos (by omega)

/-- No primary expression starts with a sign. -/
theorem Rule.sign?_of_primary (h : (Rule.primary.step s).Yields node t) : s.sign? = none := by
  refine ParseState.sign?_eq_none fun text htext => not_sees_of_primary h ?_
  revert text
  decide

/-- Without subscripts behind it, a primary expression is an operand. -/
theorem Step.Yields.unary (h : (Rule.primary.step s).Yields node t) (ht : t.sees "[" = false) :
    (Rule.unary.step s).Yields node t := by
  rw [Rule.step_unary_of_none (Rule.sign?_of_primary h)]
  refine .call (.call h (.call ?_ .done)) .done
  rw [Rule.step_subscripts_of_not_sees node ht]
  exact .done

/-! ### Expressions in parentheses -/

/-- Between `s` and the state at the end stands the expression `inner` in parentheses. -/
inductive ParseState.ReadsParens (s : ParseState) (inner : List Token) (node : Node) :
    ParseState → Prop
  | intro {t : ParseState} (hopen : s.At "(") (hnode : (Rule.expr.step s.advance).Yields node t)
      (hinner : s.advance.rest = inner ++ t.rest) (hclose : t.At ")") :
    ReadsParens s inner node t.advance

namespace ParseState.ReadsParens

variable {inner : List Token}

/-- An expression in parentheses is read as a primary one. -/
theorem primary (h : s.ReadsParens inner node t) : (Rule.primary.step s).Yields node t := by
  cases h with
  | intro hopen hnode _ hclose =>
    rw [Rule.step_primary, hopen.sees, beq_self_eq_true, if_pos rfl]
    refine .call hnode ?_
    exact Step.yields_expect (hclose.sees ")") .done

/-- An expression in parentheses is an operand, if no subscript follows. -/
theorem unary (h : s.ReadsParens inner node t) (ht : t.sees "[" = false) :
    (Rule.unary.step s).Yields node t :=
  h.primary.unary ht

/-- The parentheses are the first token and the last one. -/
theorem exists_rest (h : s.ReadsParens inner node t) :
    ∃ first last, s.rest = first :: (inner ++ last :: t.rest) := by
  cases h with
  | intro hopen _ hinner hclose =>
    obtain ⟨loc, hopen⟩ := hopen
    obtain ⟨loc', hclose⟩ := hclose
    refine ⟨⟨.punctuator, loc, "("⟩, ⟨.punctuator, loc', ")"⟩, ?_⟩
    rw [rest_of_current? hopen, hinner, rest_of_current? hclose]

theorem sees_open (h : s.ReadsParens inner node t) : s.sees "(" = true := by
  cases h with
  | intro hopen => exact hopen.sees "("

/-- Parentheses may be put around an expression that is read up to one. -/
theorem of_facing {outer : ParseState} {rest : List Token}
    (h : (Rule.expr.step (s.facing (inner ++ .punctuator ")" :: rest))).Yields node
      (outer.facing (.punctuator ")" :: rest))) :
    (s.facing (.punctuator "(" :: (inner ++ .punctuator ")" :: rest))).ReadsParens inner node
      (outer.facing rest) :=
  .intro at_facing h rfl at_facing

/-- Without string literals, an expression in parentheses is read in the same way wherever it
stands. -/
theorem elsewhere (h : s.ReadsParens inner node t) (hs : s.Placeless)
    (hnone : ∀ token ∈ inner, token.isLiteral = false) :
    s.Past (.punctuator "(" :: inner ++ [.punctuator ")"]) t
      ∧ ∀ rest, (s.facing (.punctuator "(" :: (inner ++ .punctuator ")" :: rest))).ReadsParens inner
          node (s.facing rest) := by
  cases h with
  | @intro t hopen hnode hinner hclose =>
    have hpast := hnode.past hinner hnone
    have ht : t.Placeless := hs.advance.of_suffix ⟨inner, hinner.symm⟩
    have hsame : t = s.facing t.rest := hpast.same
    refine ⟨⟨?_, ?_⟩, fun rest => ?_⟩
    · rw [hopen.rest hs, hinner, hclose.rest ht]
      simp
    · exact congrArg ParseState.advance hsame
    · obtain ⟨text, htext, -, hmore⟩ := Rule.expr.exists_word_of_yields hnode
      obtain rfl := List.append_cancel_right (hinner.symm.trans htext)
      have hhead : (Token.punctuator ")" :: rest).head? = t.rest.head? := by
        rw [hclose.rest ht]
        rfl
      have hread := hmore _ hhead
      rw [hsame] at hread
      exact .intro at_facing hread rfl at_facing

end ParseState.ReadsParens

/-! ### Operands the other way round -/

/-- The expression gets a pointer or array type. -/
def Node.IsAddress (symbols : Symbols) (node : Node) : Prop :=
  ∃ typed ty, annotate symbols node = .ok typed ∧ typed.ty = some ty ∧ ty.base? ≠ none

/-- What `op` makes of two operands, the second operator makes of them the other way round. -/
inductive Node.Swaps (symbols : Symbols) (lhs rhs : Node) : (op swapped : String) → Prop
  | greater : Swaps symbols lhs rhs ">" "<"
  | atLeast : Swaps symbols lhs rhs ">=" "<="
  | sum (h : lhs.IsAddress symbols ↔ ¬ rhs.IsAddress symbols) : Swaps symbols lhs rhs "+" "+"

/-- An expression is an address exactly if the tree that it is typed to counts elements. -/
theorem Node.isAddress_iff {symbols : Symbols} {typed : Node}
    (h : annotate symbols node = .ok typed) :
    node.IsAddress symbols ↔ typed.elementSize?.isSome = true := by
  have hsize : typed.elementSize? = typed.ty.bind fun ty => ty.base?.map Ty.size := by
    cases hty : typed.ty with
    | none => rw [elementSize?, hty]; rfl
    | some ty => exact elementSize?_of_ty hty
  rw [hsize]
  constructor
  · rintro ⟨typed', ty, htyped, hty, hbase⟩
    obtain rfl := Except.ok.inj (h.symm.trans htyped)
    rw [hty, Option.bind_some, Option.isSome_map]
    exact Option.isSome_iff_ne_none.2 hbase
  · intro hsome
    cases hty : typed.ty with
    | none =>
      rw [hty] at hsome
      exact absurd hsome Bool.false_ne_true
    | some ty =>
      rw [hty, Option.bind_some, Option.isSome_map] at hsome
      exact ⟨typed, ty, h, hty, Option.isSome_iff_ne_none.1 hsome⟩

/-- The pointer becomes the left operand wherever it stands. -/
theorem Node.sum_comm {lhs rhs : Node}
    (h : lhs.elementSize?.isSome = true ↔ ¬ rhs.elementSize?.isSome = true) (loc : Nat) :
    Node.sum lhs rhs loc = Node.sum rhs lhs loc := by
  unfold Node.sum
  cases hlhs : lhs.elementSize? with
  | none =>
    cases hrhs : rhs.elementSize? with
    | none => simp [hlhs, hrhs] at h
    | some size => rfl
  | some size =>
    cases hrhs : rhs.elementSize? with
    | none => rfl
    | some size => simp [hlhs, hrhs] at h

/-- No product is in front of another operator. -/
theorem ParseState.At.join?_product {text : String} (h : t.At text) (htext : text ∉ ["*", "/"]) :
    Level.product.join? t = none := by
  obtain ⟨loc, hcurrent⟩ := h
  simp only [List.mem_cons, List.not_mem_nil, or_false, not_or] at htext
  have hlookup : Level.product.table.lookup text = none := by
    rw [Level.table, List.lookup_cons, List.lookup_cons, beq_false_of_ne htext.1,
      beq_false_of_ne htext.2]
    rfl
  rw [Level.join?, ParseState.lookup, hcurrent]
  · simp only [hlookup, Option.map_none]
  · rintro ⟨⟩

/-- A comparison is on the level of comparisons, and on none that binds more. -/
theorem ParseState.At.join?_relational {text : String} {combine : Node → Node → Nat → Node}
    (h : t.At text) (hlookup : Level.relational.table.lookup text = some combine)
    (htext : text ∉ ["+", "-", "*", "/"]) : Level.relational.join? t = some (.plain combine)
      ∧ ∀ l' : Level, Level.relational.binding < l'.binding → l'.join? t = none := by
  simp only [List.mem_cons, List.not_mem_nil, or_false, not_or] at htext
  obtain ⟨hplus, hminus, hstar, hslash⟩ := htext
  refine ⟨?_, fun l' hl => ?_⟩
  · obtain ⟨loc, hcurrent⟩ := h
    rw [Level.join?, ParseState.lookup, hcurrent]
    · simp only [hlookup, Option.map_some]
    · rintro ⟨⟩
  · cases l' with
    | equality | relational => exact absurd hl (by decide)
    | sum =>
      rw [Level.join?, h.sees, h.sees, beq_false_of_ne hplus, beq_false_of_ne hminus]
      rfl
    | product => exact h.join?_product (by simp [hstar, hslash])

/-- A plus is on the level of sums, and on none that binds more. -/
theorem ParseState.At.join?_sum (h : t.At "+") : Level.sum.join? t = some (.typed Node.sum)
    ∧ ∀ l' : Level, Level.sum.binding < l'.binding → l'.join? t = none := by
  refine ⟨?_, fun l' hl => ?_⟩
  · rw [Level.join?, h.sees]
    rfl
  · cases l' with
    | equality | relational | sum => exact absurd hl (by decide)
    | product => exact h.join?_product (by decide)

/-- An operator and the one that swaps its operands are on one level, and they make the same of
their operands. -/
theorem Node.Swaps.exists_join {symbols : Symbols} {lhs rhs : Node} {op swapped : String}
    (h : Node.Swaps symbols lhs rhs op swapped) : ∃ (l : Level) (join join' : Join),
      (∀ t : ParseState, t.At op → l.join? t = some join
        ∧ ∀ l' : Level, l.binding < l'.binding → l'.join? t = none)
      ∧ (∀ t : ParseState, t.At swapped → l.join? t = some join'
        ∧ ∀ l' : Level, l.binding < l'.binding → l'.join? t = none)
      ∧ ∀ loc node, join symbols lhs rhs loc = .ok node → join' symbols rhs lhs loc = .ok node := by
  cases h with
  | greater =>
    exact ⟨.relational, _, _, fun t ht => ht.join?_relational rfl (by decide),
      fun t ht => ht.join?_relational rfl (by decide), fun loc node hjoin => hjoin⟩
  | atLeast =>
    exact ⟨.relational, _, _, fun t ht => ht.join?_relational rfl (by decide),
      fun t ht => ht.join?_relational rfl (by decide), fun loc node hjoin => hjoin⟩
  -- A pointer and a number make the same sum in either order.
  | sum h =>
    refine ⟨.sum, _, _, fun t ht => ht.join?_sum, fun t ht => ht.join?_sum,
      fun loc node hjoin => ?_⟩
    obtain ⟨l, hl, hjoin⟩ := bind_eq_ok_iff.1 hjoin
    obtain ⟨r, hr, hjoin⟩ := bind_eq_ok_iff.1 hjoin
    refine bind_eq_ok_iff.2 ⟨r, hr, bind_eq_ok_iff.2 ⟨l, hl, ?_⟩⟩
    rw [isAddress_iff hl, isAddress_iff hr] at h
    rw [← Node.sum_comm h]
    exact hjoin

/-- Two expressions in parentheses with an operator between them, up to a parenthesis. -/
theorem ParseState.ReadsParens.between {inner inner' : List Token} {lhs rhs : Node} {l : Level}
    {join : Join} {op : String} (hlhs : s.ReadsParens inner lhs t) (hop : t.At op) (hne : op ≠ "[")
    (hjoin : l.join? t = some join ∧ ∀ l' : Level, l.binding < l'.binding → l'.join? t = none)
    (hrhs : t.advance.ReadsParens inner' rhs u) (hend : u.At ")") : l.Between join s t u lhs rhs :=
  ⟨hlhs.unary ((hop.sees _).trans (beq_false_of_ne hne)), hjoin.1, hjoin.2,
    hrhs.unary (hend.sees "["), hend.stops (by decide)⟩

/-- Two expressions in parentheses and the operator `op` between them. -/
def swappedOperands (op : String) (lhs rhs : List Token) : List Token :=
  .punctuator "(" :: (rhs ++ .punctuator ")" :: .punctuator op :: .punctuator "("
    :: (lhs ++ [.punctuator ")"]))

/-- **Operands without string literals can be swapped**: where the one expression is read, the other
one is read as the same tree. -/
theorem ParseState.ReadsParens.yields_swapped {lhs rhs : List Token} {l r : Node}
    {op swapped : String} (hlhs : s.ReadsParens lhs l t) (hop : t.At op)
    (hrhs : t.advance.ReadsParens rhs r u) (hend : u.At ")")
    (hswaps : Node.Swaps u.symbols l r op swapped) (hs : s.Placeless)
    (hnone : ∀ token ∈ lhs, token.isLiteral = false)
    (hnone' : ∀ token ∈ rhs, token.isLiteral = false)
    (hread : (Rule.expr.step s).Yields value q) :
    (Rule.expr.step (s.facing (swappedOperands swapped lhs rhs ++ u.rest))).Yields value q := by
  -- Without string literals an operand is read anywhere as it is read here.
  obtain ⟨hpast, hlhs'⟩ := hlhs.elsewhere hs hnone
  have ht : t.Placeless := hs.of_suffix ⟨_, hpast.rest.symm⟩
  obtain ⟨hpast', hrhs'⟩ := hrhs.elsewhere ht.advance hnone'
  have hfacing : ∀ rest, t.advance.facing rest = s.facing rest := fun rest => by
    rw [hpast.same]
    rfl
  have hu : u = s.facing u.rest := hpast'.same.trans (hfacing u.rest)
  simp only [hfacing] at hrhs'
  obtain ⟨level, join, join', hjoin, hjoin', hsame⟩ := hswaps.exists_join
  have hops : op ≠ "[" ∧ swapped ≠ "[" := by
    cases hswaps <;> decide
  have hbetween := hlhs.between hop hops.1 (hjoin t hop) hrhs hend
  -- What is read is what the operator joins the operands to.
  obtain ⟨node, hjoined⟩ := hbetween.exists_joined hread
  obtain ⟨rfl, rfl⟩ := hread.unique (hbetween.yields hjoined)
  rw [hop.loc ht] at hjoined
  -- The same operands are read with the other operator between them.
  obtain ⟨t', ht'⟩ : ∃ t', t' = s.facing (.punctuator swapped :: .punctuator "("
    :: (lhs ++ .punctuator ")" :: q.rest)) := ⟨_, rfl⟩
  have hswapped : t'.At swapped := ht' ▸ at_facing
  have hfirst := hrhs' t'.rest
  have hlast : t'.advance.ReadsParens lhs l q := by
    rw [hu, ht']
    exact hlhs' q.rest
  have hstart : s.facing (.punctuator "(" :: (rhs ++ .punctuator ")" :: t'.rest))
      = s.facing (swappedOperands swapped lhs rhs ++ q.rest) := by
    rw [ht', swappedOperands]
    simp
  have hbehind : s.facing t'.rest = t' := by
    rw [ht']
    rfl
  rw [hstart, hbehind] at hfirst
  have hbetween' := hfirst.between hswapped hops.2 (hjoin' t' hswapped) hlast hend
  refine hbetween'.yields (hsame _ _ ?_)
  have hloc : t'.loc = 0 := ht' ▸ rfl
  rw [hloc]
  exact hjoined

/-! ### Operands with subscripts -/

/-- A call of which the arguments have been read closes itself. -/
theorem Rule.closes_arguments (loc : Nat) (name : String) (args : List Node) :
    (Rule.arguments loc name args).Closes := by
  intro s rest
  induction hlength : rest.length using Nat.strong_induction_on generalizing s rest args with
  | _ length ih =>
    by_cases hroom : args.length < maxArguments
    · simp only [step, if_pos hroom]
      refine .call fun argument t hread => .ite_sees ?_ (.ite_sees ?_ .fail)
      · rintro token left hrest
        rw [hrest]
        exact .last (.done t)
      · rintro token left hrest
        rw [hrest]
        have hmoved : t.rest.length + 1 ≤ rest.length := hread.length
        rw [hrest, List.length_cons] at hmoved
        exact .advance (.callLast (ih left.length (by omega) _ t left rfl) fun _ u => .done u)
    · simp only [step, if_neg hroom]
      exact .fail

/-- Whether a name is called shows at the token behind it. -/
theorem Step.closesAt_callOf (loc : Nat) (name : String) (s : ParseState) (left : List Token) :
    ClosesAt (fun rest => callOf name loc (s.facing rest)) left := by
  unfold callOf
  by_cases hreserved : name ∈ Symbol.reserved
  · simp only [if_pos hreserved]
    exact .fail
  · simp only [if_neg hreserved]
    refine .ite_sees ?_ ?_
    · rintro token left rfl
      exact .last (.done s)
    · exact .callLast (Rule.closes_arguments loc name [] s left) fun _ t => .done t

/-- A literal or the name of a function is read the same whatever follows it. -/
theorem Step.closesAt_atom {token : Token} {left : List Token}
    (h : token.kind ≠ .identifier ∨ left.head?.any (·.reads "(") = true) :
    ClosesAt (fun rest => atom (s.facing rest)) (token :: left) := by
  obtain ⟨kind, loc, text⟩ := token
  cases kind with
  -- The name is called, so all that follows stands in the parentheses.
  | identifier =>
    obtain ⟨paren, hhead, hparen⟩ := (Option.any_eq_true _ _).1 (h.resolve_left fun hne => hne rfl)
    obtain ⟨behind, rfl⟩ := List.head?_eq_some_iff.1 hhead
    have hcalled : ∀ rest, atom (s.facing (⟨.identifier, loc, text⟩ :: paren :: rest))
        = callOf text loc (s.facing rest) := fun rest => by
      have hsees : (s.facing (paren :: rest)).sees "(" = true := hparen
      exact if_pos hsees
    refine .advance (.advance ?_)
    simp only [hcalled]
    exact closesAt_callOf loc text s behind
  | number value =>
    cases value with
    | none => exact .advance .fail
    | some value => exact .last (.done s)
  | string bytes ty =>
    cases bytes with
    | none => exact .advance .fail
    | some bytes =>
      cases ty with
      | none => exact .advance .fail
      | some ty =>
        exact .last (Still.done (a := Node.var ⟨loc, none⟩ (.globalVar s.globals.length))
          (s.addLiteral bytes ty))
  | punctuator | keyword | eof => exact .advance .fail

/-- A primary expression is read the same whatever follows it, unless it is a name, which a
parenthesis makes the name of a function. -/
theorem Rule.closesAt_primary {token : Token} {left : List Token}
    (h : token.kind ≠ .identifier ∨ left.head?.any (·.reads "(") = true) :
    ClosesAt (fun rest => Rule.primary.step (s.facing rest)) (token :: left) := by
  simp only [step_primary]
  refine .ite_sees ?_ (Step.closesAt_atom h)
  intro paren inner hsplit
  rw [hsplit]
  exact .advance (.call fun node t _ => .expectLast (.done t))

/-- From `s` on a primary expression is read, and subscripts behind it up to the state at the
end. -/
inductive ParseState.ReadsPostfix (s : ParseState) : Node → ParseState → Prop
  | primary {node : Node} {t : ParseState} (h : (Rule.primary.step s).Yields node t) :
    ReadsPostfix s node t
  | subscript {node index place : Node} {p q : ParseState} (h : ReadsPostfix s node p)
      (hopen : p.At "[") (hindex : (Rule.expr.step p.advance).Yields index q) (hclose : q.At "]")
      (hplace : Join.typed Node.sum q.advance.symbols node index p.loc = .ok place) :
    ReadsPostfix s (.deref ⟨p.loc, none⟩ place) q.advance

namespace ParseState.ReadsPostfix

/-- Behind an operand, its other subscripts are read. -/
theorem yields_iff (h : s.ReadsPostfix node p) : (Rule.postfixed.step s).Yields value t
    ↔ ((Rule.subscripts node).step p).Yields value t := by
  induction h with
  | primary h =>
    rw [Rule.step, Step.yields_call_of h]
    simp only [Step.yields_call_iff, Step.yields_done_iff]
    constructor
    · rintro ⟨_, _, hread, rfl, rfl⟩
      exact hread
    · exact fun hread => ⟨_, _, hread, rfl, rfl⟩
  | @subscript node index place p q _ hopen hindex hclose hplace ih =>
    have hbracket : p.sees "[" = true := hopen.sees "["
    have hbracket' : q.sees "]" = true := hclose.sees "]"
    rw [ih, Rule.step, if_pos hbracket, Step.yields_call_of hindex, Step.yields_expect_iff, hplace]
    simp only [hbracket', true_and, Step.ofResult, Step.yields_call_iff, Step.yields_done_iff]
    constructor
    · rintro ⟨_, _, hread, rfl, rfl⟩
      exact hread
    · exact fun hread => ⟨_, _, hread, rfl, rfl⟩

/-- What is in front of the subscripts is a primary expression. -/
theorem exists_primary (h : s.ReadsPostfix node p) :
    ∃ first t, (Rule.primary.step s).Yields first t := by
  induction h with
  | primary h => exact ⟨_, _, h⟩
  | subscript _ _ _ _ _ ih => exact ih

end ParseState.ReadsPostfix

/-- What follows a primary expression does not matter, unless it is a parenthesis. -/
theorem Rule.exists_primary_follow (h : (Rule.primary.step s).Yields node t) :
    ∃ text, s.rest = text ++ t.rest ∧ ∀ more, more.head?.any (·.reads "(") = false →
      (Rule.primary.step (s.facing (text ++ more))).Yields node (t.facing more) := by
  obtain ⟨token, left, hrest⟩ := h.exists_cons
  have hread : (Rule.primary.step (s.facing (token :: left))).Yields node t := by
    rwa [← hrest]
  -- Only a name looks at the token behind it, to see whether it is called.
  by_cases hclosed : token.kind ≠ .identifier ∨ left.head?.any (·.reads "(") = true
  · obtain ⟨text, -, htext, hmore⟩ := closesAt_primary hclosed node t hread
    exact ⟨text, hrest.trans htext, fun more _ => hmore more⟩
  · obtain ⟨hname, hcall⟩ := not_or.1 hclosed
    obtain ⟨kind, loc, name⟩ := token
    obtain rfl : kind = .identifier := not_not.1 hname
    have hstep : ∀ rest, rest.head?.any (·.reads "(") = false →
        Rule.primary.step (s.facing (⟨.identifier, loc, name⟩ :: rest))
          = Step.useOf name loc (s.facing rest) := fun rest hrest => by
      have hsees : ¬ (s.facing rest).sees "(" = true := by
        rw [ParseState.sees_facing, hrest]
        exact Bool.false_ne_true
      exact if_neg hsees
    rw [hstep left (Bool.eq_false_iff.2 hcall), Step.useOf] at hread
    cases hfind : s.scopes.find? name with
    | none =>
      have hnone : (s.facing left).scopes.find? name = none := hfind
      rw [hnone] at hread
      exact absurd hread Step.not_yields_fail
    | some ref =>
      have hsome : ∀ rest, (s.facing rest).scopes.find? name = some ref := fun _ => hfind
      rw [hsome] at hread
      obtain ⟨rfl, rfl⟩ := Step.yields_done_iff.1 hread
      refine ⟨[⟨.identifier, loc, name⟩], hrest, fun more hmore => ?_⟩
      rw [List.singleton_append, hstep more hmore, Step.useOf, hsome]
      exact .done

/-- What follows an operand with subscripts does not matter either. -/
theorem ParseState.ReadsPostfix.exists_follow (h : s.ReadsPostfix node p) (hs : s.Placeless) :
    ∃ text, s.rest = text ++ p.rest ∧ ∀ more, more.head?.any (·.reads "(") = false →
      (s.facing (text ++ more)).ReadsPostfix node (p.facing more) := by
  induction h with
  | primary h =>
    obtain ⟨text, htext, hmore⟩ := Rule.exists_primary_follow h
    exact ⟨text, htext, fun more hhead => .primary (hmore more hhead)⟩
  | @subscript node index place p q _ hopen hindex hclose hplace ih =>
    obtain ⟨text, htext, hmore⟩ := ih
    obtain ⟨inner, hinner, -, hmoreinner⟩ := Rule.expr.exists_word_of_yields hindex
    have hp : p.Placeless := hs.of_suffix ⟨text, htext.symm⟩
    have hq : q.Placeless := hp.advance.of_suffix ⟨inner, hinner.symm⟩
    refine ⟨text ++ .punctuator "[" :: (inner ++ [.punctuator "]"]), ?_, fun more _ => ?_⟩
    · rw [htext, hopen.rest hp, hinner, hclose.rest hq]
      simp
    · have hbehind : (Token.punctuator "]" :: more).head? = q.rest.head? := by
        rw [hclose.rest hq]
        rfl
      have hfirst := hmore (.punctuator "[" :: (inner ++ .punctuator "]" :: more)) rfl
      rw [hopen.loc hp] at hplace ⊢
      rw [List.append_assoc, List.cons_append, List.append_assoc, List.singleton_append]
      exact .subscript hfirst at_facing (hmoreinner _ hbehind) at_facing hplace

/-- The words of `operand[index]` without a subscript. -/
def dereferenced (operand index : List Token) : List Token :=
  .punctuator "(" :: .punctuator "*" :: .punctuator "("
    :: (operand ++ .punctuator "+" :: .punctuator "("
      :: (index ++ [.punctuator ")", .punctuator ")", .punctuator ")"]))

/-- The bracket behind an index is exchanged for a parenthesis. -/
def Exchange.closing (front old new : List Token) : Exchange where
  front := front
  old := .punctuator "]" :: old
  new := .punctuator ")" :: new
  loc := rfl
  nonempty := List.cons_ne_nil _ _
  quiet text htext := by
    refine ⟨beq_false_of_ne ?_, beq_false_of_ne ?_⟩
    · rintro rfl
      exact htext (by decide)
    · rintro rfl
      exact htext (by decide)
  paren := .inr rfl
  unclosed := rfl
  close _ := rfl

section Dereferenced

variable {operand index : List Token} {i place : Node}

/-- No operator comes in front of a closing parenthesis. -/
theorem ParseState.stops_facing {rest : List Token} :
    (s.facing (.punctuator ")" :: rest)).Stops 0 :=
  at_facing.stops (by decide)

/-- What has been read is the value at a sum, and what comes behind the subscript. -/
theorem ParseState.ReadsPostfix.exists_place (h : s.ReadsPostfix node p) (hopen : p.At "[")
    (hindex : (Rule.expr.step p.advance).Yields i q)
    (hread : (Rule.postfixed.step s).Yields value t) :
    ∃ place, Join.typed Node.sum q.advance.symbols node i p.loc = .ok place
      ∧ ((Rule.subscripts (.deref ⟨p.loc, none⟩ place)).step q.advance).Yields value t := by
  have hbracket : p.sees "[" = true := hopen.sees "["
  rw [h.yields_iff, Rule.step, if_pos hbracket, Step.yields_call_of hindex,
    Step.yields_expect_iff] at hread
  obtain ⟨-, hread⟩ := hread
  cases hplace : Join.typed Node.sum q.advance.symbols node i p.loc with
  | error failure =>
    rw [hplace] at hread
    exact absurd hread Step.not_yields_fail
  | ok place =>
    rw [hplace] at hread
    obtain ⟨_, _, hbehind, hdone⟩ := Step.yields_call_iff.1 hread
    obtain ⟨rfl, rfl⟩ := Step.yields_done_iff.1 hdone
    exact ⟨place, rfl, hbehind⟩

/-- The index is read in parentheses as it is read in brackets. -/
theorem ParseState.readsParens_of_index (hindex : (Rule.expr.step p.advance).Yields i q)
    (hsplit : p.advance.rest = index ++ q.rest) (hclose : q.At "]") (hp : p.Placeless)
    (rest : List Token) :
    (p.facing (.punctuator "(" :: (index ++ .punctuator ")" :: rest))).ReadsParens index i
      (q.facing rest) := by
  have hq : q.Placeless := hp.advance.of_suffix ⟨index, hsplit.symm⟩
  have hleaves : Rule.expr.LeavesBrackets := trivial
  have hread : (Rule.expr.step (p.facing (index ++ .punctuator ")" :: rest))).Yields i
      (q.facing (.punctuator ")" :: rest)) :=
    hindex.exchange (e := .closing index q.advance.rest rest) hleaves
      (hsplit.trans (congrArg _ (hclose.rest hq))) (List.suffix_refl _) (d := [])
      (hclose.rest hq) List.nil_suffix
  exact .of_facing hread

/-- An operand and an expression in parentheses with a plus between them are read as their sum. -/
theorem ParseState.ReadsPostfix.yields_sum (h : s.ReadsPostfix node p)
    (hoperand : s.rest = operand ++ p.rest) (hs : s.Placeless) {rest behind : List Token}
    (hindex : (p.facing rest).ReadsParens index i (q.facing (.punctuator ")" :: behind)))
    (hplace : Join.typed Node.sum q.symbols node i 0 = .ok place) :
    (Rule.expr.step (s.facing (operand ++ .punctuator "+" :: rest))).Yields place
      (q.facing (.punctuator ")" :: behind)) := by
  have hoperand' : (s.facing (operand ++ .punctuator "+" :: rest)).ReadsPostfix node
      (p.facing (.punctuator "+" :: rest)) := by
    obtain ⟨text, htext, hmore⟩ := h.exists_follow hs
    obtain rfl := List.append_cancel_right (hoperand.symm.trans htext)
    exact hmore _ rfl
  obtain ⟨first, v, hprimary⟩ := hoperand'.exists_primary
  have hunary : (Rule.unary.step (s.facing (operand ++ .punctuator "+" :: rest))).Yields node
      (p.facing (.punctuator "+" :: rest)) := by
    rw [Rule.step_unary_of_none (Rule.sign?_of_primary hprimary)]
    exact .call (hoperand'.yields_iff.2 .done) .done
  obtain ⟨hjoin, htight⟩ := (at_facing : (p.facing (.punctuator "+" :: rest)).At "+").join?_sum
  have hbetween : Level.sum.Between (.typed Node.sum) _ _ _ node i :=
    ⟨hunary, hjoin, htight, hindex.unary rfl, stops_facing⟩
  exact hbetween.yields hplace

/-- **A subscript is the value at a sum**: where the one is read, the other one is read as the same
tree. -/
theorem ParseState.ReadsPostfix.yields_dereferenced (h : s.ReadsPostfix node p)
    (hoperand : s.rest = operand ++ p.rest) (hopen : p.At "[")
    (hindex : (Rule.expr.step p.advance).Yields i q) (hsplit : p.advance.rest = index ++ q.rest)
    (hclose : q.At "]") (hs : s.Placeless) (hread : (Rule.postfixed.step s).Yields value t) :
    (Rule.postfixed.step (s.facing (dereferenced operand index ++ q.advance.rest))).Yields value
      t := by
  have hp : p.Placeless := hs.of_suffix ⟨operand, hoperand.symm⟩
  obtain ⟨place, hplace, hbehind⟩ := h.exists_place hopen hindex hread
  rw [hopen.loc hp] at hplace hbehind
  obtain ⟨after, hafter⟩ : ∃ after, q.advance.rest = after := ⟨_, rfl⟩
  have hq : q.facing after = q.advance := by
    rw [← hafter]
    rfl
  -- The index in its parentheses is the right operand of the sum.
  have hparens := readsParens_of_index hindex hsplit hclose hp
    (.punctuator ")" :: .punctuator ")" :: after)
  have hsum := h.yields_sum hoperand hs hparens hplace
  -- The sum in its parentheses, the value there, and the parentheses around it.
  obtain ⟨sum, hsums⟩ : ∃ sum, operand ++ .punctuator "+" :: .punctuator "("
      :: (index ++ [.punctuator ")"]) = sum := ⟨_, rfl⟩
  have hsplits : operand ++ .punctuator "+" :: .punctuator "(" :: (index ++ .punctuator ")"
      :: .punctuator ")" :: .punctuator ")" :: after)
        = sum ++ .punctuator ")" :: .punctuator ")" :: after := by
    simp [← hsums]
  rw [hsplits] at hsum
  have hinner := ReadsParens.of_facing hsum
  -- The star in front of the sum, and the whole in parentheses.
  have hpointee : ((Rule.operandOf 5).step (s.facing (.punctuator "*" :: .punctuator "("
      :: (sum ++ .punctuator ")" :: .punctuator ")" :: after)))).Yields (.deref ⟨0, none⟩ place)
        (q.facing (.punctuator ")" :: after)) :=
    .call (hinner.unary rfl) .done
  have hwhole : (Rule.expr.step (s.facing (.punctuator "*" :: .punctuator "("
      :: (sum ++ [.punctuator ")"]) ++ .punctuator ")" :: after))).Yields (.deref ⟨0, none⟩ place)
        (q.facing (.punctuator ")" :: after)) := by
    rw [List.cons_append, List.cons_append, List.append_assoc, List.singleton_append]
    exact hpointee.loosen (Nat.zero_le 5) (Nat.le_refl 5) stops_facing
  have houter := ReadsParens.of_facing hwhole
  -- These are the words in the order in which they stand.
  have hstart : dereferenced operand index ++ after = .punctuator "(" :: (.punctuator "*"
      :: .punctuator "(" :: (sum ++ [.punctuator ")"]) ++ .punctuator ")" :: after) := by
    simp [dereferenced, ← hsums]
  rw [hafter, hstart]
  rw [hq] at houter
  exact (ReadsPostfix.primary houter.primary).yields_iff.2 hbehind

end Dereferenced

end PocketCompiler
