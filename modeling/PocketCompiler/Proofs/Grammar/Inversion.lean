import PocketCompiler.Proofs.Grammar.Resolution

/-!
# What a derivation did

A derivation is taken apart here instead of being built up.

* `Step.yields_call_iff`, `Step.yields_expect_iff` and the like say what a derivation of each kind
  of step consists of, so that a rule without a loop is inverted by rewriting.
  `ParseState.ReadsFunction` and `ParseState.ReadsGlobals` are what comes out for the two kinds of
  declarations.
* `Contract.Derived` is `Contract.Holds` for a contract whose proof also looks at the derivations of
  the rules that a rule calls.
* `ParseState.Steady.yields`: a relation between states that the single moves of a reader respect
  is respected by every rule inside a declaration.  `ParseState.Leads` is the one that says most.
-/

namespace PocketCompiler

open Parse (DeclaredName)

variable {α β : Type} {s t u : ParseState}

/-! ### Derivations of each kind of step -/

namespace Step

variable {a b : α} {failure : Failure}

@[simp] theorem yields_done_iff : (done a t).Yields b u ↔ b = a ∧ u = t := by
  constructor
  · rintro ⟨⟩
    exact ⟨rfl, rfl⟩
  · rintro ⟨rfl, rfl⟩
    exact .done

@[simp] theorem not_yields_fail : ¬ (fail failure : Step α).Yields a t := nofun

/-- A call yields what the step behind it yields with a result of the rule. -/
@[simp] theorem yields_call_iff {rule : Rule β} {next : β → ParseState → Step α} :
    (call rule s next).Yields a u ↔ ∃ b t, (rule.step s).Yields b t ∧ (next b t).Yields a u := by
  constructor
  · rintro ⟨⟩
    exact ⟨_, _, ‹_›, ‹_›⟩
  · rintro ⟨b, t, hrule, hnext⟩
    exact .call hrule hnext

@[simp] theorem yields_ite_iff {p : Prop} [Decidable p] {x y : Step α} :
    (if p then x else y).Yields a t ↔ p ∧ x.Yields a t ∨ ¬ p ∧ y.Yields a t := by
  split <;> simp_all

/-- Behind a text that has to be there, the text was there. -/
@[simp] theorem yields_expect_iff {text : String} {next : ParseState → Step α} :
    (expect text s next).Yields a t ↔ s.sees text = true ∧ (next s.advance).Yields a t := by
  simp [expect]

/-- Behind a reader the step goes on in the state that the reader leaves. -/
@[simp] theorem yields_ofRun_iff {r : Except Failure (β × ParseState)}
    {next : β → ParseState → Step α} :
    (ofRun r next).Yields a u ↔ ∃ b t, r = .ok (b, t) ∧ (next b t).Yields a u := by
  cases r with
  | ok r =>
    constructor
    · exact fun h => ⟨r.1, r.2, rfl, h⟩
    · rintro ⟨b, t, hr, h⟩
      obtain rfl := Except.ok.inj hr
      exact h
  | error failure => simp [ofRun]

/-- Behind a name that has to be there, the current token was a name. -/
@[simp] theorem yields_identifier_iff {next : String → Nat → ParseState → Step α} :
    (identifier s next).Yields a t ↔ ∃ name loc, s.current? = some ⟨.identifier, loc, name⟩
      ∧ (next name loc s.advance).Yields a t := by
  unfold identifier
  split
  · next loc name hcurrent =>
    constructor
    · exact fun h => ⟨name, loc, hcurrent, h⟩
    · rintro ⟨name', loc', hcurrent', h⟩
      obtain ⟨-, rfl, rfl⟩ := Token.mk.inj (Option.some.inj (hcurrent.symm.trans hcurrent'))
      exact h
  · next hnone =>
    constructor
    · exact fun h => absurd h not_yields_fail
    · rintro ⟨name, loc, hcurrent, -⟩
      exact (hnone loc name hcurrent).elim

end Step

/-! ### Declarations -/

/-- Behind `func`, a function is read from `s` to the state at the end. -/
inductive ParseState.ReadsFunction (s : ParseState) : ParseState → Prop
  | intro {name : String} {loc : Nat} {params : List (Nat × Ty)} {result : Ty} {body : Node}
      {t u v : ParseState} (hname : s.current? = some ⟨.identifier, loc, name⟩)
      (hopen : s.advance.sees "(" = true)
      (hparams : (Rule.parameterList.step { s.advance.advance with locals := [] }.enterScope).Yields
        params t)
      (hresult : (Rule.type.step t).Yields result u)
      (hbody : ((Rule.block u.loc).step u.advance).Yields body v)
      (hroom : (Parse.frameBytes? v.locals).any (· ≤ maxObjectSize) = true) :
    ReadsFunction s (v.leaveScope.addFunction name params result body)

/-- Behind `var`, names, their type and their values are read from `s`, and then they are
declared. -/
inductive ParseState.ReadsGlobals (s : ParseState) : ParseState → Prop
  | intro {names : List DeclaredName} {ty : Ty} {values : List Node} {t u v w : ParseState}
      (hnames : ((Rule.names []).step s).Yields names t) (hty : (Rule.type.step t).Yields ty u)
      (hvalues : ((Rule.initializers names.length).step u).Yields values v)
      (hdeclare : (Parse.declareGlobals ty names values).run v = .ok ((), w)) : ReadsGlobals s w

/-- A function that is read is checked, and its parts are read one after the other. -/
theorem ParseState.readsFunction_of_yields (h : (Rule.function.step s).Yields () t) :
    s.ReadsFunction t := by
  rw [Rule.step] at h
  simp only [Step.yields_identifier_iff, Step.yields_ofRun_iff, Step.yields_expect_iff,
    Step.yields_call_iff, Step.yields_ite_iff, Step.yields_done_iff, Step.not_yields_fail,
    and_false, or_false, true_and] at h
  obtain ⟨name, loc, hname, _, u, hcheck, hopen, params, v, hparams, result, w, hresult, -, body, x,
    hbody, hroom, rfl⟩ := h
  obtain rfl := Parse.state_of_run_checkFunction hcheck
  exact .intro hname hopen hparams hresult hbody hroom

/-- Globals that are read are declared behind their semicolon. -/
theorem ParseState.readsGlobals_of_yields (h : (Rule.global.step s).Yields () t) :
    s.ReadsGlobals t := by
  rw [Rule.step] at h
  simp only [Step.yields_call_iff, Step.yields_ofRun_iff, Step.yields_done_iff, true_and] at h
  obtain ⟨names, u, hnames, ty, v, hty, values, w, hvalues, _, x, hdeclare, rfl⟩ := h
  exact .intro hnames hty hvalues hdeclare

/-- A declaration is a function or some globals. -/
theorem ParseState.reads_of_yields (h : (Rule.topLevel.step s).Yields () t) :
    s.sees "func" = true ∧ s.advance.ReadsFunction t
      ∨ s.sees "var" = true ∧ s.advance.ReadsGlobals t := by
  rw [Rule.step] at h
  simp only [Step.yields_ite_iff, Step.yields_call_iff, Step.yields_done_iff, Step.not_yields_fail,
    and_false, or_false] at h
  rcases h with ⟨hfunc, _, u, hread, -, rfl⟩ | ⟨-, hvar, _, u, hread, -, rfl⟩
  · exact .inl ⟨hfunc, readsFunction_of_yields hread⟩
  · exact .inr ⟨hvar, readsGlobals_of_yields hread⟩

/-! ### Contracts with derivations -/

/-- What the contract says of a rule, together with the derivation that it is said of. -/
def Contract.derived (c : Contract) : Contract where
  pre := c.pre
  post rule s a t := c.post rule s a t ∧ (rule.step s).Yields a t

/-- Every rule keeps the contract, if the rules that it calls keep it in their derivations. -/
def Contract.Derived (c : Contract) : Prop :=
  ∀ {α : Type} (rule : Rule α) (s : ParseState), c.pre rule s →
    (rule.step s).Meets c.derived (c.post rule s)

variable {c : Contract}

/-- What a step promises holds of what it yields, where calls are known by their derivations. -/
theorem Step.Yields.meets_derived (hc : c.Derived) {x : Step α} {a : α} (h : x.Yields a t) :
    ∀ {post : α → ParseState → Prop}, x.Meets c.derived post → post a t := by
  induction h with
  | done => exact fun hx => hx
  | call hrule _ ihrule ihnext =>
    -- The called rule hands on its derivation together with its postcondition.
    exact fun hx => ihnext (hx.2 _ _ ⟨ihrule (hc _ _ hx.1), hrule⟩)

/-- What a contract says of a rule holds of what the rule yields. -/
theorem Contract.Derived.yields (hc : c.Derived) {rule : Rule α} {a : α} (hs : c.pre rule s)
    (h : (rule.step s).Yields a t) : c.post rule s a t :=
  h.meets_derived hc (hc rule s hs)

/-- A rule of which nothing is wanted meets a contract that assumes nothing. -/
theorem Step.meets_of_forall (hpre : ∀ {β : Type} (rule : Rule β) (s : ParseState), c.pre rule s)
    {post : α → ParseState → Prop} (hpost : ∀ a t, post a t) (x : Step α) : x.Meets c post := by
  induction x with
  | done a t => exact hpost a t
  | fail failure => trivial
  | call rule s next ih => exact ⟨hpre rule s, fun b t _ => ih b t⟩

/-- A step that promises more promises less. -/
theorem Step.Meets.mono {post post' : α → ParseState → Prop} (hpost : ∀ a t, post a t → post' a t)
    {x : Step α} (h : x.Meets c post) : x.Meets c post' := by
  induction x with
  | done a t => exact hpost a t h
  | fail failure => trivial
  | call rule s next ih => exact ⟨h.1, fun b t hb => ih b t (h.2 b t hb)⟩

/-! ### Rules inside a declaration -/

/-- Whether a rule reads less than a declaration of a program. -/
def Rule.isInner : Rule α → Bool
  | .function | .global | .topLevel => false
  | _ => true

/-- A relation between states that the single moves of a reader inside a declaration respect. -/
structure ParseState.Steady (R : ParseState → ParseState → Prop) : Prop where
  refl : ∀ s, R s s
  trans : ∀ {s t u}, R s t → R t u → R s u
  advance : ∀ s, R s s.advance
  enterScope : ∀ s, R s s.enterScope
  leaveScope : ∀ s, R s s.leaveScope
  addLocal : ∀ s v, R s (s.addLocal v)
  addLiteral : ∀ (s : ParseState) bytes ty loc text,
    s.current? = some ⟨.string (some bytes) (some ty), loc, text⟩ →
      R s (s.advance.addLiteral bytes ty)

section Steady

variable {R : ParseState → ParseState → Prop}

/-- Locals may be declared at once, however many they are. -/
theorem ParseState.Steady.foldl_addLocal (hR : ParseState.Steady R) (added : List Variable)
    (s : ParseState) : R s (added.foldl ParseState.addLocal s) := by
  induction added generalizing s with
  | nil => exact hR.refl s
  | cons v added ih => exact hR.trans (hR.addLocal s v) (ih (s.addLocal v))

/-- Every rule inside a declaration goes along the relation. -/
def Contract.along (R : ParseState → ParseState → Prop) : Contract where
  pre _ _ := True
  post rule s _ t := rule.isInner = true → R s t

section Along

open Step

/-- A primary expression may add the global of a string literal. -/
theorem ParseState.Steady.along_primary (hR : ParseState.Steady R) (s : ParseState) :
    (Rule.primary.step s).Meets (.along R) ((Contract.along R).post .primary s) := by
  have htrans := @hR.trans
  have hadvance := hR.advance
  refine meets_ite.2 ⟨fun _ => ?_, fun _ => ?_⟩
  · simp only [meets_call, meets_expect, meets_done, Contract.along, Rule.isInner]
    grind -ring -linarith
  split
  · refine meets_identifier.2 fun name loc _ => ?_
    simp only [callOf, useOf, meets_ite, meets_fail, meets_call, meets_done, Contract.along,
      Rule.isInner]
    refine ⟨by grind -ring -linarith, fun _ => ?_⟩
    split
    · exact fun _ => hadvance s
    · trivial
  · exact meets_literal.2 fun bytes ty loc text hcurrent _ =>
      hR.addLiteral s bytes ty loc text hcurrent
  · exact meets_number.2 fun _ _ _ _ _ => hadvance s
  · trivial

/-- A declaration adds its locals behind those that are there. -/
theorem ParseState.Steady.along_declaration (hR : ParseState.Steady R) (loc : Nat)
    (s : ParseState) : ((Rule.declaration loc).step s).Meets (.along R)
      ((Contract.along R).post (.declaration loc) s) := by
  refine ⟨trivial, fun names t ht => ⟨trivial, fun ty u hu => ⟨trivial, fun values v hv => ?_⟩⟩⟩
  refine meets_ofRun.2 fun body x hrun _ => ?_
  rw [Parse.run_declareLocals] at hrun
  obtain ⟨-, rfl⟩ := Prod.mk.inj (Except.ok.inj hrun)
  have hread : R s v := hR.trans (hR.trans (ht rfl) (hu rfl)) (hv rfl)
  exact hR.trans hread (hR.foldl_addLocal _ v)

/-- **Whatever is read inside a declaration goes along a steady relation.** -/
theorem ParseState.Steady.holds_along (hR : ParseState.Steady R) : (Contract.along R).Holds := by
  intro α rule s _
  have hrefl := hR.refl
  have htrans := @hR.trans
  have hadvance := hR.advance
  -- Most rules are chains of moves and calls, which `grind` puts together by transitivity.  The
  -- named cases look at the state in between or change its tables.
  cases rule with
  | more l lhs =>
    rw [Rule.step]
    split
    · exact fun _ => hrefl s
    · cases l <;>
      · simp only [Level.operand, meets_call, meets_ofResult, meets_done, Contract.along,
          Rule.isInner]
        grind -ring -linarith
  | level l =>
    cases l <;>
    · rw [Rule.step]
      simp only [Level.operand, meets_call, meets_done, Contract.along, Rule.isInner]
      grind -ring -linarith
  | unary =>
    rw [Rule.step]
    split
    · simp only [meets_call, meets_done, Contract.along, Rule.isInner]
      grind -ring -linarith
    · simp only [meets_call, meets_done, Contract.along, Rule.isInner]
      grind -ring -linarith
  | primary => exact hR.along_primary s
  | type =>
    rw [Rule.step]
    simp only [meets_call, meets_ite, meets_ofRun, meets_done, meets_fail, Contract.along,
      Rule.isInner]
    grind -ring -linarith [Parse.state_of_run_arrayTypes]
  | declaration loc => exact hR.along_declaration loc s
  | block loc =>
    rw [Rule.step]
    simp only [meets_call, meets_done, Contract.along, Rule.isInner, forall_const]
    refine ⟨trivial, fun t ht => ?_⟩
    exact htrans (htrans (hR.enterScope s) ht) (hR.leaveScope t)
  | parameters read =>
    rw [Rule.step]
    simp only [meets_ite, meets_identifier, meets_call, meets_expect, meets_done, meets_fail,
      Contract.along, Rule.isInner]
    have hlocal := hR.addLocal
    grind -ring -linarith
  | stmt =>
    rw [Rule.step]
    simp only [exprStatement, meets_ite, meets_call, meets_expect, meets_done, Contract.along,
      Rule.isInner]
    grind -ring -linarith
  -- Of whole declarations nothing is said.
  | function => exact meets_of_forall (fun _ _ => trivial) (fun _ _ h => Bool.noConfusion h) _
  | global => exact meets_of_forall (fun _ _ => trivial) (fun _ _ h => Bool.noConfusion h) _
  | topLevel => exact meets_of_forall (fun _ _ => trivial) (fun _ _ h => Bool.noConfusion h) _
  | _ =>
    rw [Rule.step]
    simp only [meets_call, meets_ite, meets_expect, meets_ofResult, meets_identifier, meets_number,
      meets_done, meets_fail, Contract.along, Rule.isInner]
    grind -ring -linarith

end Along

/-- **What the single moves respect, every rule inside a declaration respects.** -/
theorem ParseState.Steady.yields (hR : ParseState.Steady R) {rule : Rule α} {a : α}
    (hrule : rule.isInner = true) (h : (rule.step s).Yields a t) : R s t :=
  Contract.Holds.yields hR.holds_along trivial h hrule

end Steady

/-- Reading inside a declaration leads from `s` to `t`: tokens are used up, locals and globals come
behind those there are, and no function is declared. -/
structure ParseState.Leads (s t : ParseState) : Prop where
  rest : t.rest <:+ s.rest
  locals : s.locals <+: t.locals
  globals : s.globals <+: t.globals
  functions : t.functions = s.functions

/-- Reading uses up tokens and adds variables, step by step. -/
theorem ParseState.steady_leads : ParseState.Steady ParseState.Leads where
  refl _ := ⟨List.suffix_refl _, List.prefix_refl _, List.prefix_refl _, rfl⟩
  trans h h' := ⟨h'.rest.trans h.rest, h.locals.trans h'.locals, h.globals.trans h'.globals,
    h'.functions.trans h.functions⟩
  advance _ := ⟨List.tail_suffix _, List.prefix_refl _, List.prefix_refl _, rfl⟩
  enterScope _ := ⟨List.suffix_refl _, List.prefix_refl _, List.prefix_refl _, rfl⟩
  leaveScope _ := ⟨List.suffix_refl _, List.prefix_refl _, List.prefix_refl _, rfl⟩
  addLocal _ _ := ⟨List.suffix_refl _, List.prefix_append _ _, List.prefix_refl _, rfl⟩
  addLiteral _ _ _ _ _ _ := ⟨List.tail_suffix _, List.prefix_refl _, List.prefix_append _ _, rfl⟩

theorem Step.Yields.leads {rule : Rule α} {a : α} (h : (rule.step s).Yields a t)
    (hrule : rule.isInner = true) : s.Leads t :=
  ParseState.steady_leads.yields hrule h

end PocketCompiler
