import PocketCompiler.Proofs.Grammar.Rule

/-!
# Derivations

`Step.Yields x a t`: the rules that `x` calls, and those that they call, can be followed to the end,
and what is read is `a`, up to the state `t`.  `Step.Fails x failure` says where following them ends
in a failure, and `Step.Reaches p x` that it comes to a rule and a state with the property `p`.

Three things are shown once for the whole grammar.

* `Contract.Holds.yields`: a contract of preconditions and postconditions that every rule meets
  while the rules that it calls do, holds of every derivation.
* `Rule.exists_outcome`: every rule is followed to an end, since a call is made on fewer tokens or of
  a rule that comes earlier in the grammar.
* `Step.Yields.length`: a derivation does not give back tokens.
-/

namespace PocketCompiler

variable {α β : Type}

/-! ### Where the current token does not go on with what is read -/

section NotGoingOn

variable {s : ParseState}

/-- A chain of operands ends where no operator of its level comes next. -/
theorem Rule.step_more_of_none {l : Level} (lhs : Node) (h : l.join? s = none) :
    (more l lhs).step s = .done lhs s := by
  rw [step, h]

/-- Without a sign, an operand is a postfixed expression. -/
theorem Rule.step_unary_of_none (h : s.sign? = none) :
    unary.step s = .call .postfixed s .done := by
  rw [step, h]

/-- Subscripts end where no bracket comes next. -/
theorem Rule.step_subscripts_of_not_sees (node : Node) (h : s.sees "[" = false) :
    (subscripts node).step s = .done node s := by
  rw [step, h, if_neg Bool.false_ne_true]

/-- There is no sign where none of the four texts is seen. -/
theorem ParseState.sign?_eq_none (h : ∀ text ∈ ["+", "-", "&", "*"], s.sees text = false) :
    s.sign? = none := by
  rw [ParseState.sign?, h "+" (by decide), h "-" (by decide), h "&" (by decide), h "*" (by decide)]
  rfl

end NotGoingOn

/-! ### Derivations and failures -/

namespace Step

/-- Following the rules gives `a` and ends in `t`. -/
inductive Yields : {α : Type} → Step α → α → ParseState → Prop
  | done {α : Type} {a : α} {t : ParseState} : Yields (.done a t) a t
  | call {α β : Type} {rule : Rule β} {s t u : ParseState} {next : β → ParseState → Step α} {b : β}
      {a : α} (hrule : Yields (rule.step s) b t) (hnext : Yields (next b t) a u) :
    Yields (.call rule s next) a u

/-- Following the rules ends in a failure. -/
inductive Fails (failure : Failure) : {α : Type} → Step α → Prop
  | fail {α : Type} : Fails failure (.fail failure : Step α)
  | inside {α β : Type} {rule : Rule β} {s : ParseState} {next : β → ParseState → Step α}
      (hrule : Fails failure (rule.step s)) : Fails failure (.call rule s next)
  | behind {α β : Type} {rule : Rule β} {s t : ParseState} {next : β → ParseState → Step α} {b : β}
      (hrule : Yields (rule.step s) b t) (hnext : Fails failure (next b t)) :
    Fails failure (.call rule s next)

/-- Following the rules comes to a primary expression in a state with the property `p`. -/
inductive Reaches (p : ParseState → Prop) : {α : Type} → Step α → Prop
  | here {α : Type} {s : ParseState} {next : Node → ParseState → Step α} (hs : p s) :
    Reaches p (.call .primary s next)
  | inside {α β : Type} {rule : Rule β} {s : ParseState} {next : β → ParseState → Step α}
      (hrule : Reaches p (rule.step s)) : Reaches p (.call rule s next)
  | behind {α β : Type} {rule : Rule β} {s t : ParseState} {next : β → ParseState → Step α} {b : β}
      (hrule : Yields (rule.step s) b t) (hnext : Reaches p (next b t)) :
    Reaches p (.call rule s next)

end Step

/-! ### Contracts -/

/-- What a rule may assume of the state that it starts in, and what it promises of what it reads. -/
structure Contract where
  pre : {α : Type} → Rule α → ParseState → Prop
  post : {α : Type} → Rule α → ParseState → α → ParseState → Prop

/-- A rule does what its caller relies on, if the rules that it calls keep the contract. -/
def Step.Meets (c : Contract) (post : α → ParseState → Prop) : Step α → Prop
  | .done a t => post a t
  | .fail _ => True
  | .call rule s next => c.pre rule s ∧ ∀ b t, c.post rule s b t → (next b t).Meets c post

/-- Every rule keeps the contract, if the rules that it calls do. -/
def Contract.Holds (c : Contract) : Prop :=
  ∀ {α : Type} (rule : Rule α) (s : ParseState), c.pre rule s → (rule.step s).Meets c (c.post rule s)

section Contract

variable {c : Contract}

/-- **What a step promises holds of what it yields**, if every rule keeps the contract. -/
theorem Step.Yields.meets (hc : c.Holds) {x : Step α} {a : α} {t : ParseState}
    (h : x.Yields a t) : ∀ {post : α → ParseState → Prop}, x.Meets c post → post a t := by
  induction h with
  | done => exact fun hx => hx
  | call _ _ ihrule ihnext => exact fun hx => ihnext (hx.2 _ _ (ihrule (hc _ _ hx.1)))

/-- **Every derivation keeps a contract that the rules keep.** -/
theorem Contract.Holds.yields (hc : c.Holds) {rule : Rule α} {s t : ParseState} {a : α}
    (hs : c.pre rule s) (h : (rule.step s).Yields a t) : c.post rule s a t :=
  h.meets hc (hc rule s hs)

/-- Every primary expression that is come to may assume what the contract says. -/
theorem Step.Reaches.meets (hc : c.Holds) {p : ParseState → Prop} {x : Step α} (h : x.Reaches p) :
    ∀ {post : α → ParseState → Prop}, x.Meets c post →
      x.Reaches fun s => p s ∧ c.pre .primary s := by
  induction h with
  | here hs => exact fun hx => .here ⟨hs, hx.1⟩
  | inside _ ih => exact fun hx => .inside (ih (hc _ _ hx.1))
  | behind hrule _ ih =>
    exact fun hx => .behind hrule (ih (hx.2 _ _ (hrule.meets hc (hc _ _ hx.1))))

namespace Step

variable {s : ParseState} {post : α → ParseState → Prop}

@[simp] theorem meets_done {a : α} {t : ParseState} : (done a t).Meets c post ↔ post a t := Iff.rfl

@[simp] theorem meets_fail {failure : Failure} : (fail failure : Step α).Meets c post ↔ True := Iff.rfl

/-- A call is made where its rule may start, and what is behind it relies on what the rule
promises. -/
@[simp] theorem meets_call {rule : Rule β} {next : β → ParseState → Step α} :
    (call rule s next).Meets c post
      ↔ c.pre rule s ∧ ∀ b t, c.post rule s b t → (next b t).Meets c post := Iff.rfl

@[simp] theorem meets_ofResult {r : Except Failure β} {next : β → Step α} :
    (ofResult r next).Meets c post ↔ ∀ b, r = .ok b → (next b).Meets c post := by
  cases r with
  | ok b => exact ⟨fun h _ hb => Except.ok.inj hb ▸ h, fun h => h b rfl⟩
  | error failure => exact ⟨fun _ _ hb => (nomatch hb), fun _ => trivial⟩

/-- What a reader does to the tables is left to its own lemmas. -/
@[simp] theorem meets_ofRun {r : Except Failure (β × ParseState)} {next : β → ParseState → Step α} :
    (ofRun r next).Meets c post ↔ ∀ b t, r = .ok (b, t) → (next b t).Meets c post := by
  cases r with
  | ok r =>
    constructor
    · rintro h b t hbt
      obtain rfl := Except.ok.inj hbt
      exact h
    · exact fun h => h r.1 r.2 rfl
  | error failure => exact ⟨fun _ _ _ hbt => (nomatch hbt), fun _ => trivial⟩

@[simp] theorem meets_expect {text : String} {next : ParseState → Step α} :
    (expect text s next).Meets c post ↔ (s.sees text = true → (next s.advance).Meets c post) := by
  unfold expect
  cases s.sees text with
  | true => exact ⟨fun h _ => h, fun h => h rfl⟩
  | false => exact ⟨fun _ h => (nomatch h), fun _ => trivial⟩

@[simp] theorem meets_ite {p : Prop} [Decidable p] {x y : Step α} :
    (if p then x else y).Meets c post ↔ (p → x.Meets c post) ∧ (¬ p → y.Meets c post) := by
  split <;> simp_all

/-- A name that is read is the text of the current token. -/
@[simp] theorem meets_identifier {next : String → Nat → ParseState → Step α} :
    (identifier s next).Meets c post ↔ ∀ name loc, s.current? = some ⟨.identifier, loc, name⟩ →
      (next name loc s.advance).Meets c post := by
  unfold identifier
  split
  · next loc name hcurrent =>
    constructor
    · rintro h name' loc' hcurrent'
      obtain ⟨-, rfl, rfl⟩ := Token.mk.inj (Option.some.inj (hcurrent.symm.trans hcurrent'))
      exact h
    · exact fun h => h name loc hcurrent
  · next hnone => exact ⟨fun _ name loc hcurrent => (hnone loc name hcurrent).elim, fun _ => trivial⟩

/-- A number that is read is the value of the current token. -/
@[simp] theorem meets_number {next : Int64 → Nat → ParseState → Step α} :
    (number s next).Meets c post
      ↔ ∀ value loc text, s.current? = some ⟨.number (some value), loc, text⟩ →
        (next value loc s.advance).Meets c post := by
  unfold number
  split
  · next value loc text hcurrent =>
    constructor
    · rintro h value' loc' text' hcurrent'
      obtain ⟨hkind, rfl, -⟩ := Token.mk.inj (Option.some.inj (hcurrent.symm.trans hcurrent'))
      obtain rfl := Option.some.inj (TokenKind.number.inj hkind)
      exact h
    · exact fun h => h value loc text hcurrent
  · next hcurrent =>
    refine ⟨fun _ value loc text hcurrent' => ?_, fun _ => trivial⟩
    obtain ⟨hkind, -, -⟩ := Token.mk.inj (Option.some.inj (hcurrent.symm.trans hcurrent'))
    exact nomatch TokenKind.number.inj hkind
  · next hnone _ =>
    exact ⟨fun _ value loc text hcurrent => (hnone value loc text hcurrent).elim, fun _ => trivial⟩

/-- Bytes and type are those of the current token. -/
@[simp] theorem meets_literal {next : List UInt8 → Ty → ParseState → Step α} :
    (literal s next).Meets c post
      ↔ ∀ bytes ty loc text, s.current? = some ⟨.string (some bytes) (some ty), loc, text⟩ →
        (next bytes ty s.advance).Meets c post := by
  unfold literal
  split
  · next bytes ty loc text hcurrent =>
    constructor
    · rintro h bytes' ty' loc' text' hcurrent'
      obtain ⟨hkind, -, -⟩ := Token.mk.inj (Option.some.inj (hcurrent.symm.trans hcurrent'))
      obtain ⟨hbytes, hty⟩ := TokenKind.string.inj hkind
      obtain rfl := Option.some.inj hbytes
      obtain rfl := Option.some.inj hty
      exact h
    · exact fun h => h bytes ty loc text hcurrent
  · next hnone =>
    exact ⟨fun _ bytes ty loc text hcurrent => (hnone bytes ty loc text hcurrent).elim,
      fun _ => trivial⟩

end Step

end Contract

/-- A state that is reached is one of those with the property. -/
theorem Step.Reaches.exists {p : ParseState → Prop} {x : Step α} (h : x.Reaches p) :
    ∃ s, p s ∧ x.Reaches (· = s) := by
  induction h with
  | here hs => exact ⟨_, hs, .here rfl⟩
  | inside _ ih =>
    obtain ⟨s, hs, hreach⟩ := ih
    exact ⟨s, hs, .inside hreach⟩
  | behind hrule _ ih =>
    obtain ⟨s, hs, hreach⟩ := ih
    exact ⟨s, hs, .behind hrule hreach⟩

/-- A failure of a primary expression that is come to is the failure of all. -/
theorem Step.Reaches.fails {p : ParseState → Prop} {failure : Failure} {x : Step α}
    (h : x.Reaches p) (hp : ∀ s, p s → (Rule.primary.step s).Fails failure) : x.Fails failure := by
  induction h with
  | here hs => exact .inside (hp _ hs)
  | inside _ ih => exact .inside ih
  | behind hrule _ ih => exact .behind hrule ih

/-! ### Every rule comes to an end -/

/-- How late a rule comes in the grammar.  A rule calls only earlier ones before it has moved past a
token. -/
def Rule.rank : Rule α → Nat
  | .primary | .stars _ | .dimensions _ => 0
  | .postfixed | .names _ | .type => 1
  | .unary | .parameters _ => 2
  | .level .product | .parameterList => 3
  | .level .sum => 4
  | .level .relational => 5
  | .level .equality => 6
  | .expr => 7
  | .more _ _ | .subscripts _ | .arguments _ _ _ | .values _ | .exprUnless _ => 8
  | .initializers _ | .loopHead => 9
  | .stmt => 10
  | .declaration _ | .items _ => 11
  | .block _ => 12
  | .function | .global => 13
  | .topLevel => 14

/-- The number of tokens that a rule moves past at least. -/
def Rule.moved : Rule α → Nat
  | .expr | .level _ | .unary | .postfixed | .primary | .names _ | .type | .values _ | .stmt
  | .topLevel => 1
  | .more _ _ | .subscripts _ | .arguments _ _ _ | .stars _ | .dimensions _ | .initializers _
  | .declaration _ | .items _ | .block _ | .exprUnless _ | .loopHead | .parameters _ | .parameterList
  | .function | .global => 0

/-- The calls of a rule are below `bound`, and the rules that it calls move on. -/
def Contract.below (bound : Nat) : Contract where
  pre rule s := 16 * s.rest.length + rule.rank < bound
  post rule s _ t := t.rest.length + rule.moved ≤ s.rest.length

/-- A call is below the bound if it is made on fewer tokens, or on as many by an earlier rule. -/
theorem Step.meets_call_below {bound : Nat} {rule : Rule β} {s : ParseState}
    {next : β → ParseState → Step α} {post : α → ParseState → Prop} :
    (call rule s next).Meets (.below bound) post
      ↔ 16 * s.rest.length + rule.rank < bound
        ∧ ∀ b t, t.rest.length + rule.moved ≤ s.rest.length →
          (next b t).Meets (.below bound) post :=
  Iff.rfl

/-- The texts of the operators with one or two operands. -/
def operatorTexts : List String :=
  ["==", "!=", "<", "<=", ">", ">=", "+", "-", "*", "/", "&"]

/-- What is looked up in a table is at a text that is seen. -/
theorem ParseState.sees_of_lookup {s : ParseState} {β : Type} {table : List (String × β)} {b : β}
    (h : s.lookup table = some b) : ∃ text, (text, b) ∈ table ∧ s.sees text = true := by
  obtain ⟨loc, text, hcurrent, hlookup⟩ := ParseState.exists_of_lookup h
  refine ⟨text, mem_of_lookup hlookup, ?_⟩
  rw [ParseState.sees, hcurrent]
  exact beq_self_eq_true text

/-- The operators of every level are operators. -/
theorem Level.mem_operatorTexts {l : Level} {text : String} {combine : Node → Node → Nat → Node}
    (h : (text, combine) ∈ l.table) : text ∈ operatorTexts := by
  have htexts : ∀ l : Level, (l.table.map (·.1)).all (operatorTexts.contains ·) = true := by
    intro l
    cases l <;> decide
  have hmem : text ∈ l.table.map (·.1) := List.mem_map_of_mem h
  exact List.contains_iff_mem.1 (List.all_eq_true.1 (htexts l) text hmem)

/-- Operands are joined by an operator. -/
theorem Level.exists_sees_of_join? {l : Level} {s : ParseState} {join : Join}
    (h : l.join? s = some join) : ∃ text ∈ operatorTexts, s.sees text = true := by
  have hplain : (s.lookup l.table).map Join.plain = some join →
      ∃ text ∈ operatorTexts, s.sees text = true := by
    intro h
    obtain ⟨combine, hcombine, -⟩ := Option.map_eq_some_iff.1 h
    obtain ⟨text, hmem, hsees⟩ := ParseState.sees_of_lookup hcombine
    exact ⟨text, Level.mem_operatorTexts hmem, hsees⟩
  cases l with
  | sum =>
    simp only [join?] at h
    split at h
    · next hsees => exact ⟨_, by decide, hsees⟩
    · split at h
      · next hsees => exact ⟨_, by decide, hsees⟩
      · exact nomatch h
  | equality => exact hplain h
  | relational => exact hplain h
  | product => exact hplain h

/-- A sign is one of the operators. -/
theorem ParseState.exists_sees_of_sign? {s : ParseState} {sign : Sign} (h : s.sign? = some sign) :
    ∃ text ∈ operatorTexts, s.sees text = true := by
  unfold ParseState.sign? at h
  split at h
  · next hsees => exact ⟨_, by decide, hsees⟩
  split at h
  · next hsees => exact ⟨_, by decide, hsees⟩
  split at h
  · next hsees => exact ⟨_, by decide, hsees⟩
  split at h
  · next hsees => exact ⟨_, by decide, hsees⟩
  · cases h

/-- Behind an operator one token less is left. -/
theorem Level.length_advance {l : Level} {s : ParseState} {join : Join} (h : l.join? s = some join) :
    s.advance.rest.length + 1 = s.rest.length := by
  obtain ⟨text, -, hsees⟩ := Level.exists_sees_of_join? h
  exact ParseState.length_advance_of_sees hsees

/-- Behind a sign one token less is left. -/
theorem ParseState.length_advance_of_sign? {s : ParseState} {sign : Sign} (h : s.sign? = some sign) :
    s.advance.rest.length + 1 = s.rest.length := by
  obtain ⟨text, -, hsees⟩ := ParseState.exists_sees_of_sign? h
  exact length_advance_of_sees hsees

/-- A rule calls earlier rules or calls with fewer tokens left, and moves on. -/
def Rule.Descends (rule : Rule α) : Prop :=
  ∀ s, (rule.step s).Meets (.below (16 * s.rest.length + rule.rank))
    fun _ t => t.rest.length + rule.moved ≤ s.rest.length

namespace Rule

section Descends

open Step

/-! What is left of each rule, once its calls are written out, is arithmetic with the numbers of
tokens: every look at a token that succeeds makes the rest shorter by one. -/

attribute [local grind =] rank moved

attribute [local grind →] ParseState.length_advance_of_sees ParseState.length_advance
  ParseState.length_advance_of_sign? Level.length_advance

theorem descends_level (l : Level) : (level l).Descends := by
  intro s
  rw [step]
  cases l <;>
  · simp only [Level.operand, meets_call_below, meets_done]
    grind -ring -linarith

theorem descends_more (l : Level) (lhs : Node) : (more l lhs).Descends := by
  intro s
  rw [step]
  split
  · exact Nat.le_refl _
  · next hjoin =>
    -- The operator is what makes the rest shorter: the rule may call itself again behind it.
    have hadvance := Level.length_advance hjoin
    cases l <;>
    · simp only [Level.operand, meets_call_below, meets_ofResult, meets_done]
      grind -ring -linarith

theorem descends_unary : unary.Descends := by
  intro s
  rw [step]
  split
  · simp only [meets_call_below, meets_done]
    grind -ring -linarith
  · simp only [meets_call_below, meets_done]
    grind -ring -linarith

theorem descends_primary : primary.Descends := by
  intro s
  refine meets_ite.2 ⟨fun hopen => ?_, fun _ => ?_⟩
  · simp only [meets_call_below, meets_expect, meets_done]
    grind -ring -linarith
  split
  · refine meets_identifier.2 fun name loc hcurrent => ?_
    have hadvance := ParseState.length_advance hcurrent
    simp only [callOf, useOf, meets_ite, meets_fail, meets_call_below, meets_done]
    refine ⟨fun hopen => by grind -ring -linarith, fun _ => ?_⟩
    split
    · exact Nat.le_of_eq hadvance
    · trivial
  · simp only [meets_literal, meets_done, ParseState.addLiteral]
    grind -ring -linarith
  · simp only [meets_number, meets_done]
    grind -ring -linarith
  · trivial

theorem descends_type : type.Descends := by
  intro s
  rw [step]
  simp only [meets_call_below, meets_ite, meets_ofRun, meets_done, meets_fail]
  grind -ring -linarith [Parse.blind_arrayTypes, Parse.Blind.rest]

theorem descends_declaration (loc : Nat) : (declaration loc).Descends := by
  intro s
  rw [step]
  simp only [meets_call_below, meets_ofRun, meets_done]
  grind -ring -linarith [Parse.blind_declareLocals, Parse.Blind.rest]

theorem descends_block (loc : Nat) : (block loc).Descends := by
  intro s
  rw [step]
  simp only [meets_call_below, meets_done, ParseState.leaveScope,
    ParseState.enterScope]
  grind -ring -linarith

theorem descends_stmt : stmt.Descends := by
  intro s
  rw [step]
  -- One case for each keyword that a statement can begin with, and one for the others.
  split
  · simp only [meets_call_below, meets_expect, meets_done]
    grind -ring -linarith
  split
  · simp only [meets_call_below, meets_ite, meets_done]
    grind -ring -linarith
  split
  · simp only [meets_call_below, meets_done]
    grind -ring -linarith
  split
  · simp only [meets_call_below, meets_done]
    grind -ring -linarith
  · simp only [exprStatement, meets_ite, meets_call_below, meets_expect, meets_done]
    grind -ring -linarith

theorem descends_parameters (read : List (Nat × Ty)) : (parameters read).Descends := by
  intro s
  have hadd : ∀ (t : ParseState) v, (t.addLocal v).rest = t.rest := fun _ _ => rfl
  rw [step]
  simp only [meets_ite, meets_identifier, meets_call_below, meets_expect, meets_done, meets_fail]
  grind -ring -linarith

theorem descends_function : function.Descends := by
  intro s
  rw [step]
  simp only [meets_identifier, meets_ofRun, meets_expect, meets_ite, meets_call_below, meets_done,
    meets_fail, ParseState.leaveScope, ParseState.addFunction]
  intro name loc hcurrent _ t hcheck hopen
  have hname := ParseState.length_advance hcurrent
  -- Looking for another function of the same name does not read.
  have hrest := (Parse.blind_checkFunction name loc).rest hcheck
  have hparen := ParseState.length_advance_of_sees hopen
  change _ = t.rest.length at hparen
  grind -ring -linarith

theorem descends_global : global.Descends := by
  intro s
  rw [step]
  simp only [meets_call_below, meets_ofRun, meets_done]
  grind -ring -linarith [Parse.blind_declareGlobals, Parse.Blind.rest]

/-- **Every rule descends.** -/
theorem descends (rule : Rule α) : rule.Descends := by
  cases rule with
  | level l => exact descends_level l
  | more l lhs => exact descends_more l lhs
  | unary => exact descends_unary
  | primary => exact descends_primary
  | type => exact descends_type
  | declaration loc => exact descends_declaration loc
  | block loc => exact descends_block loc
  | stmt => exact descends_stmt
  | parameters read => exact descends_parameters read
  | function => exact descends_function
  | global => exact descends_global
  | _ =>
    -- The others do nothing but look at tokens and call rules.
    intro s
    rw [step]
    simp only [meets_call_below, meets_ite, meets_expect, meets_ofResult, meets_identifier,
      meets_number, meets_done, meets_fail]
    grind -ring -linarith

end Descends

end Rule

/-! ### Outcomes -/

/-- A contract that asks for less and promises more is kept by more steps. -/
theorem Step.Meets.imp {c c' : Contract} {post : α → ParseState → Prop} {x : Step α}
    (hpre : ∀ {β : Type} (rule : Rule β) s, c.pre rule s → c'.pre rule s)
    (hpost : ∀ {β : Type} (rule : Rule β) s b t, c'.post rule s b t → c.post rule s b t)
    (h : x.Meets c post) : x.Meets c' post := by
  induction x with
  | done a t => exact h
  | fail failure => trivial
  | call rule s next ih =>
    exact ⟨hpre rule s h.1, fun b t hbt => ih b t (h.2 b t (hpost rule s b t hbt))⟩

/-- Every rule moves on. -/
def Contract.moves : Contract where
  pre _ _ := True
  post rule s _ t := t.rest.length + rule.moved ≤ s.rest.length

/-- No rule moves back, and those that read a token at least move on. -/
theorem Contract.holds_moves : Contract.moves.Holds := by
  intro α rule s _
  refine Step.Meets.imp ?_ ?_ (rule.descends s)
  · exact fun _ _ _ => trivial
  · exact fun _ _ _ _ h => h

/-- A derivation moves past the tokens that its rule moves past at least. -/
theorem Step.Yields.length {rule : Rule α} {s t : ParseState} {a : α}
    (h : (rule.step s).Yields a t) : t.rest.length + rule.moved ≤ s.rest.length :=
  Contract.holds_moves.yields trivial h

/-- Following a step comes to an end, if following the rules that it calls does. -/
theorem Step.exists_outcome {bound : Nat}
    (hrules : ∀ {β : Type} (rule : Rule β) s, 16 * s.rest.length + rule.rank < bound →
      (∃ b t, (rule.step s).Yields b t) ∨ ∃ failure, (rule.step s).Fails failure)
    {post : α → ParseState → Prop} (x : Step α) (h : x.Meets (.below bound) post) :
    (∃ a t, x.Yields a t) ∨ ∃ failure, x.Fails failure := by
  induction x with
  | done a t => exact .inl ⟨a, t, .done⟩
  | fail failure => exact .inr ⟨failure, .fail⟩
  | call rule s next ih =>
    rcases hrules rule s h.1 with ⟨b, t, hrule⟩ | ⟨failure, hrule⟩
    · rcases ih b t (h.2 b t hrule.length) with ⟨a, u, hnext⟩ | ⟨failure, hnext⟩
      · exact .inl ⟨a, u, .call hrule hnext⟩
      · exact .inr ⟨failure, .behind hrule hnext⟩
    · exact .inr ⟨failure, .inside hrule⟩

/-- **Every rule is followed to an end.** -/
theorem Rule.exists_outcome (rule : Rule α) (s : ParseState) :
    (∃ a t, (rule.step s).Yields a t) ∨ ∃ failure, (rule.step s).Fails failure := by
  have hbelow : ∀ (bound : Nat) {β : Type} (rule : Rule β) s,
      16 * s.rest.length + rule.rank < bound →
        (∃ b t, (rule.step s).Yields b t) ∨ ∃ failure, (rule.step s).Fails failure := by
    intro bound
    induction bound with
    | zero => exact fun _ _ h => absurd h (Nat.not_lt_zero _)
    | succ bound ih =>
      intro β rule s h
      refine Step.exists_outcome ih (rule.step s) (Step.Meets.imp ?_ ?_ (rule.descends s))
      · exact fun _ _ hcall => Nat.lt_of_lt_of_le hcall (Nat.le_of_lt_succ h)
      · exact fun _ _ _ _ h => h
  exact hbelow _ rule s (Nat.lt_succ_self _)

end PocketCompiler
