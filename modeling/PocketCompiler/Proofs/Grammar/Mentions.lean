import PocketCompiler.Proofs.Grammar.Lockstep
import PocketCompiler.Proofs.Grammar.Naming

/-!
# Names that a program mentions

The assembly of a program mentions the names of its globals, of its functions and of the functions
that these call (`Program.mentioned`).  Its globals have names that are identifiers of the source,
but for the labels of string literals (`mem_identifiers_of_parse`).

Conversely, an identifier with an opening parenthesis behind it is mentioned
(`Source.calledNames_subset`).  In an expression it becomes a call of the tree, and behind `func` it
becomes the name of a function.  Nowhere else does the grammar let a parenthesis follow a name: a
name that is declared is followed by a type, and the value of a global is constant, so it calls
nothing.
-/

namespace PocketCompiler

open Parse (DeclaredName)

variable {s t u : ParseState}

/-! ### Names of globals -/

/-- The identifiers that are left have the property `p`, and so have the names of globals, but for
those of string literals. -/
structure ParseState.Drawn (p : String → Prop) (s : ParseState) : Prop where
  tokens : ∀ token ∈ s.rest, token.kind = .identifier → p token.text
  globals : ∀ g ∈ s.globals, p g.name ∨ ∃ number, g.name = Symbol.ofLiteral number

namespace ParseState.Drawn

variable {p : String → Prop}

/-- Only the tokens and the globals matter. -/
theorem of_eq (h : s.Drawn p) (hrest : t.rest ⊆ s.rest) (hglobals : t.globals = s.globals) :
    t.Drawn p :=
  ⟨fun token htoken => h.tokens token (hrest htoken), hglobals ▸ h.globals⟩

/-- Fewer identifiers are left behind a token. -/
theorem advance (h : s.Drawn p) : s.advance.Drawn p :=
  h.of_eq (fun _ htoken => List.mem_of_mem_tail htoken) rfl

/-- The identifier that is read next has the property. -/
theorem identifier {loc : Nat} {name : String} (h : s.Drawn p)
    (hcurrent : s.current? = some ⟨.identifier, loc, name⟩) : p name :=
  h.tokens _ (List.mem_of_mem_head? hcurrent) rfl

/-- The variable of a string literal is not named by an identifier. -/
theorem addLiteral (h : s.Drawn p) (bytes : List UInt8) (ty : Ty) :
    (s.addLiteral bytes ty).Drawn p := by
  refine ⟨h.tokens, fun g hg => ?_⟩
  rcases List.mem_append.1 hg with hg | hg
  · exact h.globals g hg
  · obtain rfl := List.mem_singleton.1 hg
    exact .inr ⟨s.literals, rfl⟩

end ParseState.Drawn

/-- The names that a rule has gathered have the property `p`. -/
def Rule.DrawnSoFar (p : String → Prop) {α : Type} : Rule α → Prop
  | .names read => ∀ d ∈ read, p d.name
  | _ => True

/-- The names that a rule reads have the property `p`. -/
def Rule.DrawnResult (p : String → Prop) {α : Type} : Rule α → α → Prop
  | .names _, read => ∀ d ∈ read, p d.name
  | _, _ => True

/-- Globals get their names from identifiers with the property `p`. -/
def Contract.drawing (p : String → Prop) : Contract where
  pre rule s := s.Drawn p ∧ rule.DrawnSoFar p
  post rule _ a t := t.Drawn p ∧ rule.DrawnResult p a

/-- The rule draws on the identifiers, if the rules that it calls do. -/
def Rule.KeepsDrawing {α : Type} (rule : Rule α) : Prop :=
  ∀ (p : String → Prop) (s : ParseState), (Contract.drawing p).pre rule s →
    (rule.step s).Meets (.drawing p) ((Contract.drawing p).post rule s)

section Drawing

open Contract (drawing)
open Step

attribute [local grind →] ParseState.Drawn.advance ParseState.Drawn.identifier

namespace Rule

/-- Operators read no identifiers of their own. -/
theorem keepsDrawing_more (l : Level) (lhs : Node) : (more l lhs).KeepsDrawing := by
  intro p s ⟨hs, _⟩
  rw [step]
  split
  · exact ⟨hs, trivial⟩
  · cases l <;>
    · simp only [Level.operand, meets_call, meets_ofResult, meets_done, drawing, DrawnSoFar,
        DrawnResult]
      grind -ring -linarith

theorem keepsDrawing_unary : unary.KeepsDrawing := by
  intro p s ⟨hs, _⟩
  rw [step]
  split
  · simp only [meets_call, meets_done, drawing, DrawnSoFar, DrawnResult]
    grind -ring -linarith
  · simp only [meets_call, meets_done, drawing, DrawnSoFar, DrawnResult]
    grind -ring -linarith

theorem keepsDrawing_primary : primary.KeepsDrawing := by
  intro p s ⟨hs, _⟩
  refine meets_ite.2 ⟨fun _ => ?_, fun _ => ?_⟩
  · simp only [meets_call, meets_expect, meets_done, drawing, DrawnSoFar, DrawnResult]
    grind -ring -linarith
  split
  · refine meets_identifier.2 fun name loc _ => ?_
    simp only [callOf, useOf, meets_ite, meets_fail, meets_call, meets_done, drawing, DrawnSoFar,
      DrawnResult]
    refine ⟨by grind -ring -linarith, fun _ => ?_⟩
    split
    · exact ⟨hs.advance, trivial⟩
    · trivial
  · exact meets_literal.2 fun bytes ty _ _ _ => ⟨hs.advance.addLiteral bytes ty, trivial⟩
  · exact meets_number.2 fun _ _ _ _ => ⟨hs.advance, trivial⟩
  · trivial

/-- The names that a local declaration reads are those of locals. -/
theorem keepsDrawing_declaration (loc : Nat) : (declaration loc).KeepsDrawing := by
  intro p s ⟨hs, _⟩
  refine ⟨⟨hs, fun d hd => absurd hd List.not_mem_nil⟩, fun names t ⟨ht, _⟩ =>
    ⟨⟨ht, trivial⟩, fun ty u ⟨hu, _⟩ => ⟨⟨hu, trivial⟩, fun values v ⟨hv, _⟩ => ?_⟩⟩⟩
  refine meets_ofRun.2 fun body x hrun => ?_
  rw [Parse.run_declareLocals] at hrun
  obtain ⟨-, rfl⟩ := Prod.mk.inj (Except.ok.inj hrun)
  -- Locals are no globals.
  obtain ⟨scopes, hlocals⟩ :=
    ParseState.exists_foldl_addLocal (names.map (DeclaredName.toLocal ty)) v
  rw [hlocals]
  exact ⟨hv.of_eq (List.Subset.refl _) rfl, trivial⟩

theorem keepsDrawing_block (loc : Nat) : (block loc).KeepsDrawing := by
  intro p s ⟨hs, _⟩
  refine ⟨⟨hs.of_eq (List.Subset.refl _) rfl, trivial⟩, fun body t ⟨ht, _⟩ => ?_⟩
  exact ⟨ht.of_eq (List.Subset.refl _) rfl, trivial⟩

/-- The name of a function is no name of a global. -/
theorem keepsDrawing_function : function.KeepsDrawing := by
  rintro p s ⟨hs, -⟩
  rw [step]
  refine meets_identifier.2 fun name loc _ => meets_ofRun.2 fun _ t hcheck => ?_
  obtain rfl := Parse.state_of_run_checkFunction hcheck
  have hstart : ({ s.advance with locals := [] }.enterScope.advance).Drawn p :=
    hs.advance.advance.of_eq (List.Subset.refl _) rfl
  refine meets_expect.2 fun _ => ⟨⟨hstart, trivial⟩, ?_⟩
  rintro params x ⟨hx, -⟩
  refine ⟨⟨hx, trivial⟩, ?_⟩
  rintro result y ⟨hy, -⟩
  refine meets_expect.2 fun _ => ⟨⟨hy.advance, trivial⟩, ?_⟩
  rintro body z ⟨hz, -⟩
  exact meets_ite.2 ⟨fun _ => ⟨hz.of_eq (List.Subset.refl _) rfl, trivial⟩, fun _ => trivial⟩

/-- The names that a global declaration reads become those of globals. -/
theorem keepsDrawing_global : global.KeepsDrawing := by
  intro p s ⟨hs, _⟩
  refine ⟨⟨hs, fun d hd => absurd hd List.not_mem_nil⟩, fun names t ⟨ht, hnames⟩ =>
    ⟨⟨ht, trivial⟩, fun ty u ⟨hu, _⟩ => ⟨⟨hu, trivial⟩, fun values v ⟨hv, _⟩ => ?_⟩⟩⟩
  refine meets_ofRun.2 fun _ x hrun => ?_
  obtain ⟨added, rfl, hadded, -⟩ := Parse.exists_of_run_declareGlobals hrun
  obtain ⟨scopes, hglobals⟩ := ParseState.exists_foldl_addGlobal added v
  rw [hglobals]
  refine ⟨⟨hv.tokens, fun g hg => ?_⟩, trivial⟩
  rcases List.mem_append.1 hg with hg | hg
  · exact hv.globals g hg
  · have hmem : g.name ∈ names.map (·.name) := hadded ▸ List.mem_map_of_mem hg
    obtain ⟨d, hd, hname⟩ := List.mem_map.1 hmem
    exact .inl (hname ▸ hnames d hd)

end Rule

/-- Every rule draws on the identifiers. -/
theorem Contract.holds_drawing (p : String → Prop) : (drawing p).Holds := by
  intro α rule s ⟨hs, hread⟩
  cases rule with
  | level l =>
    cases l <;>
    · rw [Rule.step]
      simp only [Level.operand, meets_call, meets_done, drawing, Rule.DrawnSoFar, Rule.DrawnResult]
      grind -ring -linarith
  | more l lhs => exact Rule.keepsDrawing_more l lhs p s ⟨hs, hread⟩
  | unary => exact Rule.keepsDrawing_unary p s ⟨hs, hread⟩
  | primary => exact Rule.keepsDrawing_primary p s ⟨hs, hread⟩
  | names read =>
    rw [Rule.step]
    simp only [meets_call, meets_ite, meets_identifier, meets_done, drawing, Rule.DrawnSoFar,
      Rule.DrawnResult] at hread ⊢
    grind -ring -linarith
  | type =>
    rw [Rule.step]
    simp only [meets_call, meets_ite, meets_ofRun, meets_done, meets_fail, drawing, Rule.DrawnSoFar,
      Rule.DrawnResult]
    grind -ring -linarith [Parse.state_of_run_arrayTypes]
  | declaration loc => exact Rule.keepsDrawing_declaration loc p s ⟨hs, hread⟩
  | function => exact Rule.keepsDrawing_function p s ⟨hs, hread⟩
  | global => exact Rule.keepsDrawing_global p s ⟨hs, hread⟩
  | stmt =>
    rw [Rule.step]
    simp only [exprStatement, meets_ite, meets_call, meets_expect, meets_done, drawing,
      Rule.DrawnSoFar, Rule.DrawnResult]
    grind -ring -linarith
  -- A parameter is a local, and the names of locals are not asked about.
  | parameters read =>
    have hadd : ∀ (u : ParseState) v, u.Drawn p → (u.addLocal v).Drawn p := fun u v hu =>
      hu.of_eq (List.Subset.refl _) rfl
    rw [Rule.step]
    simp only [meets_ite, meets_identifier, meets_call, meets_expect, meets_done, meets_fail,
      drawing, Rule.DrawnSoFar, Rule.DrawnResult]
    grind -ring -linarith
  | block loc => exact Rule.keepsDrawing_block loc p s ⟨hs, hread⟩
  | _ =>
    -- The others do nothing but look at tokens and call rules.
    rw [Rule.step]
    simp only [meets_call, meets_ite, meets_expect, meets_ofResult, meets_number, meets_done,
      meets_fail, drawing, Rule.DrawnSoFar, Rule.DrawnResult]
    grind -ring -linarith

end Drawing

/-! ### Names of functions -/

namespace ParseState

/-- Only an identifier is called. -/
theorem calledNames_of_kind {token : Token} (hcurrent : s.current? = some token)
    (hkind : token.kind ≠ .identifier) : calledNames s.rest = calledNames s.advance.rest := by
  rw [rest_of_current? hcurrent]
  exact if_neg fun hcalled => hkind hcalled.1

/-- An identifier is called if a parenthesis follows. -/
theorem calledNames_of_identifier {loc : Nat} {name : String}
    (hcurrent : s.current? = some ⟨.identifier, loc, name⟩) :
    calledNames s.rest
      = if s.advance.sees "(" = true then name :: calledNames s.advance.rest
        else calledNames s.advance.rest := by
  have hif : ∀ rest : List Token, calledNames (⟨.identifier, loc, name⟩ :: rest)
      = if rest.head?.any (·.reads "(") = true then name :: calledNames rest
        else calledNames rest := by
    intro rest
    simp only [calledNames, true_and]
  rw [rest_of_current? hcurrent]
  exact hif s.advance.rest

/-- A token is one lexeme only. -/
theorem sees_unique {text other : String} (h : s.sees text = true) (h' : s.sees other = true) :
    text = other := by
  obtain ⟨token, hcurrent, hreads⟩ := exists_of_sees h
  obtain ⟨token', hcurrent', hreads'⟩ := exists_of_sees h'
  obtain rfl := Option.some.inj (hcurrent.symm.trans hcurrent')
  exact Terminal.lexeme.inj ((Token.reads_iff.1 hreads).symm.trans (Token.reads_iff.1 hreads'))

/-- What is called between `s` and `t` is among the names. -/
def CallsAmong (names : List String) (s t : ParseState) : Prop :=
  ∀ name ∈ calledNames s.rest, name ∈ names ∨ name ∈ calledNames t.rest

namespace CallsAmong

variable {names more : List String}

/-- Where no token is read, nothing is called. -/
theorem of_rest (hrest : t.rest = s.rest) : s.CallsAmong names t := by
  intro name hname
  rw [hrest]
  exact .inr hname

theorem refl : s.CallsAmong names s := of_rest rfl

theorem mono (h : s.CallsAmong names t) (hnames : names ⊆ more) : s.CallsAmong more t :=
  fun name hname => (h name hname).imp_left fun hmem => hnames hmem

/-- The names may be the same for two stretches. -/
theorem trans (h : s.CallsAmong names t) (h' : t.CallsAmong names u) : s.CallsAmong names u :=
  fun name hname => (h name hname).elim .inl (h' name)

/-- What is called in two stretches is called in both together. -/
theorem append (h : s.CallsAmong names t) (h' : t.CallsAmong more u) :
    s.CallsAmong (names ++ more) u :=
  (h.mono (List.subset_append_left _ _)).trans (h'.mono (List.subset_append_right _ _))

/-- Behind the last tree of a list. -/
theorem concat {read : List Node} {node : Node} (h : s.CallsAmong node.calls t)
    (hnames : Node.callsAll (read ++ [node]) ⊆ names) :
    Node.callsAll read ⊆ names ∧ s.CallsAmong names t := by
  rw [Node.callsAll_concat] at hnames
  obtain ⟨hread, hnode⟩ := List.append_subset.1 hnames
  exact ⟨hread, h.mono hnode⟩

/-- Behind a token that is no identifier. -/
theorem pastKind {token : Token} (h : s.CallsAmong names t) (hcurrent : t.current? = some token)
    (hkind : token.kind ≠ .identifier) : s.CallsAmong names t.advance := by
  refine h.trans fun name hname => .inr ?_
  rwa [← calledNames_of_kind hcurrent hkind]

/-- A keyword or a punctuator calls nothing. -/
theorem past {text : String} (h : s.CallsAmong names t) (hsees : t.sees text = true) :
    s.CallsAmong names t.advance := by
  obtain ⟨token, hcurrent, hreads⟩ := exists_of_sees hsees
  refine h.pastKind hcurrent fun hkind => ?_
  rw [Token.reads, hkind] at hreads
  cases hreads

/-- Behind a name that no parenthesis follows. -/
theorem use {loc : Nat} {name : String} (h : s.CallsAmong names t)
    (hcurrent : t.current? = some ⟨.identifier, loc, name⟩) (hopen : t.advance.sees "(" = false) :
    s.CallsAmong names t.advance := by
  refine h.trans fun called hcalled => .inr ?_
  rwa [calledNames_of_identifier hcurrent, hopen, if_neg Bool.false_ne_true] at hcalled

/-- Behind a name that is called. -/
theorem call {loc : Nat} {name : String} (h : s.CallsAmong names t)
    (hcurrent : t.current? = some ⟨.identifier, loc, name⟩) (hname : name ∈ names) :
    s.CallsAmong names t.advance := by
  refine h.trans fun called hcalled => ?_
  rw [calledNames_of_identifier hcurrent] at hcalled
  split at hcalled
  · rcases List.mem_cons.1 hcalled with rfl | hcalled
    · exact .inl hname
    · exact .inr hcalled
  · exact .inr hcalled

end CallsAmong

end ParseState

/-- The names that stand in the assembly of a program: those of its globals and functions, and those
of the functions that are called. -/
def Program.mentioned (program : Program) : List String :=
  program.names ++ program.functions.flatMap (·.body.calls)

/-- A function is mentioned from then on, and so is all that it calls. -/
theorem ParseState.subset_mentioned_addFunction (s : ParseState) (name : String)
    (params : List (Nat × Ty)) (result : Ty) (body : Node) :
    name :: body.calls ⊆ (s.addFunction name params result body).program.mentioned := by
  intro called hcalled
  simp only [Program.mentioned, Program.names, ParseState.program, addFunction, List.map_append,
    List.flatMap_append, List.mem_append]
  rcases List.mem_cons.1 hcalled with rfl | hcalled
  · simp
  · simp [hcalled]

/-- No name that has been mentioned is forgotten. -/
theorem ParseState.Before.mentioned (h : s.Before t) :
    s.program.mentioned ⊆ t.program.mentioned := by
  obtain ⟨globals, hglobals⟩ := h.globals
  obtain ⟨functions, hfunctions⟩ := h.functions
  intro name
  simp only [Program.mentioned, Program.names, ParseState.program, ← hglobals, ← hfunctions,
    List.map_append, List.flatMap_append, List.mem_append]
  grind -ring -linarith

/-- A constant calls nothing. -/
theorem Node.calls_of_fold {node : Node} {value : Int64} (h : fold node = .ok value) :
    node.calls = [] := by
  induction node using fold.induct generalizing value with
  | case1 mark number => rfl
  | case2 mark operand ih =>
    rw [fold] at h
    obtain ⟨inner, hinner, -⟩ := bind_eq_ok_iff.1 h
    exact ih hinner
  | case3 mark op lhs rhs ihl ihr =>
    rw [fold] at h
    obtain ⟨a, ha, hmore⟩ := bind_eq_ok_iff.1 h
    obtain ⟨b, hb, -⟩ := bind_eq_ok_iff.1 hmore
    rw [calls, ihl ha, ihr hb]
    rfl
  | case4 node hnum hneg hbinary =>
    rw [fold.eq_4 node hnum hneg hbinary] at h
    cases h

/-- What a global starts with calls nothing. -/
theorem Node.calls_of_contentsFor {globals : List Variable} {value : Node} {ty : Ty}
    {contents : Contents} (h : contentsFor globals value ty = .ok contents) : value.calls = [] := by
  unfold contentsFor at h
  split at h
  · next hliteral =>
    unfold literalOf? at hliteral
    split at hliteral
    · rfl
    · exact nomatch hliteral
  · split at h
    · obtain ⟨word, hfold, -⟩ := bind_eq_ok_iff.1 h
      exact calls_of_fold hfold
    · exact nomatch h

/-- The values of globals are constants, so nothing is called in them. -/
theorem Parse.callsAll_of_run_declareGlobals {ty : Ty} : ∀ {names : List DeclaredName}
    {values : List Node} {s t : ParseState} {u : Unit},
      (values = [] ∨ values.length = names.length) →
        (declareGlobals ty names values).run s = .ok (u, t) → Node.callsAll values = []
  | [], _, _, _, _, hcount, _ => by
    obtain rfl := hcount.elim id List.eq_nil_of_length_eq_zero
    rfl
  | _ :: _, [], _, _, _, _, _ => rfl
  | declared :: names, value :: values, s, t, u, hcount, h => by
    rw [declareGlobals, StateT.run_bind] at h
    obtain ⟨⟨_, s'⟩, -, hrun⟩ := bind_eq_ok_iff.1 h
    dsimp only at hrun
    rw [run_bind run_get] at hrun
    cases hcontents : contentsFor s'.globals value (declared.ty ty) with
    | error failure => rw [hcontents] at hrun; cases hrun
    | ok contents =>
      rw [hcontents] at hrun
      have hlength : values.length = names.length := by simpa using hcount
      rw [Node.callsAll, Node.calls_of_contentsFor hcontents,
        callsAll_of_run_declareGlobals (.inr hlength) hrun]
      rfl

/-- Initial values are kept, if there is one for every name. -/
theorem Node.callsAll_initializations {names : List DeclaredName} {values : List Node} (index : Nat)
    (hcount : values = [] ∨ values.length = names.length) :
    callsAll (Parse.initializations index names values) = callsAll values := by
  induction names generalizing values index with
  | nil =>
    obtain rfl := hcount.elim id List.eq_nil_of_length_eq_zero
    rfl
  | cons declared names ih =>
    cases values with
    | nil => rfl
    | cons value values =>
      have hlength : values.length = names.length := by simpa using hcount
      exact congrArg (value.calls ++ ·) (ih (index + 1) (.inr hlength))

/-- The names of the functions that are called in what a rule has gathered. -/
def Rule.calledSoFar {α : Type} : Rule α → List String
  | .more _ node | .subscripts node => node.calls
  | .arguments _ name nodes => name :: Node.callsAll nodes
  | .values nodes | .items nodes => Node.callsAll nodes
  | _ => []

/-- The names of the functions that are called in what a rule reads. -/
def Rule.called {α : Type} : Rule α → α → List String
  | .expr, node | .level _, node | .more _ _, node | .unary, node | .postfixed, node
  | .subscripts _, node | .primary, node | .arguments _ _ _, node | .declaration _, node
  | .block _, node | .stmt, node => node.calls
  | .values _, nodes | .initializers _, nodes | .items _, nodes => Node.callsAll nodes
  | .exprUnless _, found => Node.callsSome found
  | .loopHead, head =>
    Node.callsSome head.init ++ Node.callsSome head.cond ++ Node.callsSome head.step
  | _, _ => []

/-- Where the names are that have been called from `s` to `t`. -/
def Rule.Accounts {α : Type} (rule : Rule α) (s : ParseState) (a : α) (t : ParseState) : Prop :=
  match rule, a with
  | .stars _, _ | .dimensions _, _ => s.CallsAmong [] t ∧ (s.sees "(" = true → t = s)
  | .type, _ => s.CallsAmong [] t ∧ s.sees "(" = false
  -- A type follows, so the last of the names is not called.
  | .names _, _ => t.sees "(" = false → s.CallsAmong [] t
  | .initializers count, found =>
    (found = [] ∨ found.length = count) ∧ s.CallsAmong (Node.callsAll found) t
  | .function, _ | .global, _ | .topLevel, _ => s.CallsAmong t.program.mentioned t
  | rule, a => rule.calledSoFar ⊆ rule.called a ∧ s.CallsAmong (rule.called a) t

/-- What is called is found again in what is read. -/
def Contract.accounting : Contract where
  pre _ _ := True
  post rule s a t := rule.Accounts s a t

/-- The rule accounts for what is called, if the rules that it calls do. -/
def Rule.KeepsAccount {α : Type} (rule : Rule α) : Prop :=
  ∀ s, (rule.step s).Meets Contract.accounting (Contract.accounting.post rule s)

/-- What is called in an operand stands in its tree. -/
theorem Level.callsAmong_operand {l : Level} {node : Node}
    (h : Contract.accounting.post l.operand s node t) : s.CallsAmong node.calls t := by
  cases l <;> exact h.2

namespace Rule

open Contract (accounting)
open ParseState (CallsAmong)
open Step (meets_ite meets_expect meets_identifier meets_literal meets_number meets_ofResult
  meets_ofRun)

/-- Both operands keep their calls in the joined tree. -/
theorem keepsAccount_more (l : Level) (lhs : Node) : (more l lhs).KeepsAccount := by
  intro s
  rw [Rule.step]
  split
  · exact ⟨List.Subset.refl _, .refl⟩
  · next join hjoin =>
    obtain ⟨text, -, hsees⟩ := Level.exists_sees_of_join? hjoin
    refine ⟨trivial, fun rhs t hpost => meets_ofResult.2 fun node hnode => ⟨trivial, ?_⟩⟩
    rintro found u ⟨hnode', hu⟩
    have hperm := Level.keepsCalls_join hjoin hnode
    obtain ⟨hlhs, hrhs⟩ := List.append_subset.1 fun name hname => hnode' (hperm.mem_iff.2 hname)
    have ht : s.advance.CallsAmong found.calls t := (Level.callsAmong_operand hpost).mono hrhs
    exact ⟨hlhs, ((CallsAmong.refl.past hsees).trans ht).trans hu⟩

theorem keepsAccount_unary : unary.KeepsAccount := by
  intro s
  rw [Rule.step]
  split
  · exact ⟨trivial, fun found u hfound => hfound⟩
  · next sign hsign =>
    obtain ⟨text, -, hsees⟩ := ParseState.exists_sees_of_sign? hsign
    refine ⟨trivial, ?_⟩
    rintro node t ⟨-, ht⟩
    refine ⟨List.nil_subset _, ?_⟩
    show s.CallsAmong (sign.apply s.loc node).calls t
    rw [Sign.calls_apply]
    exact (CallsAmong.refl.past hsees).trans ht

theorem keepsAccount_subscripts (node : Node) : (subscripts node).KeepsAccount := by
  intro s
  refine meets_ite.2 ⟨fun hopen => ?_, fun _ => ⟨List.Subset.refl _, .refl⟩⟩
  refine ⟨trivial, fun index t ⟨_, ht⟩ => meets_expect.2 fun hclose =>
    meets_ofResult.2 fun place hplace => ⟨trivial, ?_⟩⟩
  rintro found u ⟨hplace', hu⟩
  have hperm := Join.keepsCalls_typed Node.perm_calls_sum hplace
  obtain ⟨hnode, hindex⟩ := List.append_subset.1 fun name hname => hplace' (hperm.mem_iff.2 hname)
  have ht : s.advance.CallsAmong found.calls t := CallsAmong.mono ht hindex
  exact ⟨hnode, ((CallsAmong.refl.past hopen).trans (ht.past hclose)).trans hu⟩

/-- A call adds its own name to those in its arguments. -/
theorem keepsAccount_primary : primary.KeepsAccount := by
  intro s
  refine meets_ite.2 ⟨fun hopen => ?_, fun _ => ?_⟩
  · refine ⟨trivial, fun node t ⟨_, ht⟩ => meets_expect.2 fun hclose => ⟨List.nil_subset _, ?_⟩⟩
    exact (CallsAmong.refl.past hopen).trans (CallsAmong.past ht hclose)
  split
  -- A name with a parenthesis behind it is called; any other is only used.
  · refine meets_identifier.2 fun name loc hcurrent =>
      meets_ite.2 ⟨fun hopen => ?_, fun hopen => ?_⟩
    · refine meets_ite.2 ⟨fun _ => trivial, fun _ => meets_ite.2 ⟨fun hclose => ?_, fun _ => ?_⟩⟩
      · have hname : s.CallsAmong [name] s.advance :=
          CallsAmong.refl.call hcurrent List.mem_cons_self
        exact ⟨List.nil_subset _, (hname.past hopen).past hclose⟩
      · refine ⟨trivial, fun found u ⟨hfound, hu⟩ => ⟨List.nil_subset _, ?_⟩⟩
        have hname : s.CallsAmong found.calls s.advance :=
          CallsAmong.refl.call hcurrent (hfound List.mem_cons_self)
        exact (hname.past hopen).trans hu
    · unfold Step.useOf
      split
      · exact ⟨List.nil_subset _, CallsAmong.refl.use hcurrent (Bool.not_eq_true _ ▸ hopen)⟩
      · trivial
  · refine meets_literal.2 fun bytes ty loc text hcurrent => ⟨List.nil_subset _, ?_⟩
    exact CallsAmong.refl.pastKind hcurrent nofun
  · refine meets_number.2 fun value loc text hcurrent => ⟨List.nil_subset _, ?_⟩
    exact CallsAmong.refl.pastKind hcurrent nofun
  · trivial

/-- The arguments that have been read keep their calls. -/
theorem keepsAccount_arguments (loc : Nat) (name : String) (args : List Node) :
    (arguments loc name args).KeepsAccount := by
  intro s
  refine meets_ite.2 ⟨fun _ => ⟨trivial, fun argument t ⟨_, ht⟩ => ?_⟩, fun _ => trivial⟩
  have hargs : ∀ {names : List String}, name :: Node.callsAll (args ++ [argument]) ⊆ names →
      name :: Node.callsAll args ⊆ names ∧ s.CallsAmong names t := by
    intro names hnames
    obtain ⟨hname, hargs⟩ := List.cons_subset.1 hnames
    obtain ⟨hread, ht⟩ := CallsAmong.concat ht hargs
    exact ⟨List.cons_subset.2 ⟨hname, hread⟩, ht⟩
  refine meets_ite.2 ⟨fun hclose => ?_, fun _ => meets_expect.2 fun hcomma => ⟨trivial, ?_⟩⟩
  · obtain ⟨hread, ht⟩ := hargs (List.Subset.refl _)
    exact ⟨hread, ht.past hclose⟩
  · rintro found u ⟨hfound, hu⟩
    obtain ⟨hread, ht⟩ := hargs hfound
    exact ⟨hread, (ht.past hcomma).trans hu⟩

theorem keepsAccount_names (read : List DeclaredName) : (names read).KeepsAccount := by
  intro s
  refine ⟨trivial, fun stars t ⟨ht, _⟩ => meets_identifier.2 fun name loc hcurrent => ?_⟩
  refine meets_ite.2 ⟨fun hcomma => ⟨trivial, fun found u hu hopen => ?_⟩, fun _ hopen => ?_⟩
  · have hname : s.CallsAmong [] t.advance := by
      refine CallsAmong.use ht hcurrent (Bool.eq_false_iff.2 fun hopen => ?_)
      exact absurd (ParseState.sees_unique hcomma hopen) (by decide)
    exact (hname.past hcomma).trans (hu hopen)
  · exact CallsAmong.use ht hcurrent hopen

theorem keepsAccount_type : type.KeepsAccount := by
  intro s
  refine ⟨trivial, fun dimensions t ⟨ht, hsame⟩ => ⟨trivial, fun depth u ⟨hu, hsame'⟩ => ?_⟩⟩
  -- A type starts with a bracket, a star or a keyword, so not with a parenthesis.
  have hclosed : ∀ {text}, u.sees text = true → text ≠ "(" → s.sees "(" = false := by
    intro text hsees hne
    refine Bool.eq_false_iff.2 fun hopen => hne ?_
    obtain rfl := hsame hopen
    obtain rfl := hsame' hopen
    exact ParseState.sees_unique hsees hopen
  have harray : ∀ (elem : Ty) {text}, u.sees text = true → text ≠ "(" →
      (Step.ofRun ((Parse.arrayTypes (elem.pointers depth) dimensions).run u.advance) .done).Meets
        accounting (accounting.post .type s) := by
    intro elem text hsees hne
    refine meets_ofRun.2 fun ty v hrun => ?_
    obtain rfl := Parse.state_of_run_arrayTypes hrun
    exact ⟨(ht.trans hu).past hsees, hclosed hsees hne⟩
  exact meets_ite.2 ⟨fun hint => harray .int hint (by decide), fun _ => meets_ite.2
    ⟨fun hchar => harray .char hchar (by decide), fun _ => trivial⟩⟩

/-- Typing a statement keeps its calls. -/
theorem keepsAccount_items (read : List Node) : (items read).KeepsAccount := by
  intro s
  have hitem : ∀ node (t : ParseState), s.CallsAmong node.calls t →
      (Step.ofResult (annotate t.symbols node) fun typed =>
        .call (.items (read ++ [typed])) t .done).Meets accounting
          (accounting.post (.items read) s) := by
    intro node t ht
    refine meets_ofResult.2 fun typed htyped => ⟨trivial, fun found u ⟨hfound, hu⟩ => ?_⟩
    rw [← calls_of_annotate htyped] at ht
    obtain ⟨hread, ht⟩ := ht.concat hfound
    exact ⟨hread, ht.trans hu⟩
  refine meets_ite.2 ⟨fun hclose => ⟨List.Subset.refl _, CallsAmong.refl.past hclose⟩,
    fun _ => meets_ite.2 ⟨fun hvar => ?_, fun _ => ?_⟩⟩
  · exact ⟨trivial, fun node t ⟨_, ht⟩ => hitem node t ((CallsAmong.refl.past hvar).trans ht)⟩
  · exact ⟨trivial, fun node t ⟨_, ht⟩ => hitem node t ht⟩

theorem keepsAccount_loopHead : loopHead.KeepsAccount := by
  intro s
  refine meets_ite.2 ⟨fun _ => ⟨List.nil_subset _, .refl⟩, fun _ => ⟨trivial, ?_⟩⟩
  refine fun first t ⟨_, ht⟩ => meets_ite.2 ⟨fun hsemicolon => ?_, fun _ => ?_⟩
  · refine ⟨trivial, fun cond u ⟨_, hu⟩ => meets_expect.2 fun hsemicolon' => ⟨trivial, ?_⟩⟩
    refine fun step v ⟨_, hv⟩ => ⟨List.nil_subset _, ?_⟩
    exact ((CallsAmong.past ht hsemicolon).append (CallsAmong.past hu hsemicolon')).append hv
  · refine ⟨List.nil_subset _, CallsAmong.mono ht ?_⟩
    show Node.callsSome first ⊆ [] ++ Node.callsSome first ++ []
    rw [List.nil_append, List.append_nil]
    exact List.Subset.refl _

theorem keepsAccount_stmt : stmt.KeepsAccount := by
  intro s
  refine meets_ite.2 ⟨fun hreturn => ?_, fun _ => meets_ite.2 ⟨fun hif => ?_, fun _ => meets_ite.2
    ⟨fun hfor => ?_, fun _ => meets_ite.2 ⟨fun hopen => ?_,
      fun _ => meets_ite.2 ⟨fun hempty => ?_, fun _ => ?_⟩⟩⟩⟩⟩
  · exact ⟨trivial, fun value t ⟨_, ht⟩ => meets_expect.2 fun hend =>
      ⟨List.nil_subset _, (CallsAmong.refl.past hreturn).trans (CallsAmong.past ht hend)⟩⟩
  · refine ⟨trivial, fun cond t ⟨_, ht⟩ => ⟨trivial, fun onTrue u ⟨_, hu⟩ =>
      meets_ite.2 ⟨fun helse => ?_, fun _ => ⟨List.nil_subset _, ?_⟩⟩⟩⟩
    · refine ⟨trivial, fun onFalse v ⟨_, hv⟩ => ⟨List.nil_subset _, ?_⟩⟩
      exact (CallsAmong.refl.past hif).trans
        ((CallsAmong.append ht (CallsAmong.past hu helse)).append hv)
    · exact (CallsAmong.refl.past hif).trans
        ((CallsAmong.append ht hu).mono (List.subset_append_left _ _))
  · exact ⟨trivial, fun head t ⟨_, ht⟩ => ⟨trivial, fun body u ⟨_, hu⟩ =>
      ⟨List.nil_subset _, (CallsAmong.refl.past hfor).trans (CallsAmong.append ht hu)⟩⟩⟩
  · exact ⟨trivial, fun found u ⟨_, hu⟩ =>
      ⟨List.nil_subset _, (CallsAmong.refl.past hopen).trans hu⟩⟩
  · exact ⟨List.nil_subset _, CallsAmong.refl.past hempty⟩
  · exact ⟨trivial, fun value t ⟨_, ht⟩ => meets_expect.2 fun hend =>
      ⟨List.nil_subset _, CallsAmong.past ht hend⟩⟩

/-- The values of a declaration are assigned, so their calls stay. -/
theorem keepsAccount_declaration (loc : Nat) : (declaration loc).KeepsAccount := by
  intro s
  refine ⟨trivial, fun names t hnames => ⟨trivial, fun ty u ⟨hu, hclosed⟩ => ⟨trivial, ?_⟩⟩⟩
  rintro values v ⟨hcount, hv⟩
  refine meets_ofRun.2 fun body x hrun => ?_
  rw [Parse.run_declareLocals] at hrun
  obtain ⟨rfl, rfl⟩ := Prod.mk.inj (Except.ok.inj hrun)
  have hcalls := Node.callsAll_initializations v.locals.length hcount
  obtain ⟨scopes, hlocals⟩ :=
    ParseState.exists_foldl_addLocal (names.map (DeclaredName.toLocal ty)) v
  refine ⟨List.nil_subset _, ?_⟩
  show s.CallsAmong (Node.callsAll (Parse.initializations v.locals.length names values)) _
  rw [hcalls, hlocals]
  exact (((hnames hclosed).trans hu).append hv).trans (.of_rest rfl)

theorem keepsAccount_parameters (read : List (Nat × Ty)) : (parameters read).KeepsAccount := by
  intro s
  refine meets_ite.2 ⟨fun _ => meets_identifier.2 fun name loc hcurrent => ?_, fun _ => trivial⟩
  refine ⟨trivial, fun ty t ⟨ht, hclosed⟩ => ?_⟩
  have hadded : s.CallsAmong [] (t.addLocal { name, ty := ty.decay }) :=
    ((CallsAmong.refl.use hcurrent hclosed).trans ht).trans (.of_rest rfl)
  refine meets_ite.2 ⟨fun hclose => ⟨List.nil_subset _, hadded.past hclose⟩,
    fun _ => meets_expect.2 fun hcomma => ⟨trivial, ?_⟩⟩
  exact fun found u ⟨_, hu⟩ => ⟨List.nil_subset _, (hadded.past hcomma).trans hu⟩

/-- The calls of a body are in its tree, which is put into the program. -/
theorem keepsAccount_function : function.KeepsAccount := by
  intro s
  rw [Rule.step]
  refine meets_identifier.2 fun name loc hcurrent => meets_ofRun.2 fun _ t hcheck => ?_
  obtain rfl := Parse.state_of_run_checkFunction hcheck
  refine meets_expect.2 fun hopen => ⟨trivial, ?_⟩
  rintro params u ⟨-, hu⟩
  refine ⟨trivial, ?_⟩
  rintro result v ⟨hv, -⟩
  refine meets_expect.2 fun hbrace => ⟨trivial, ?_⟩
  rintro body w ⟨-, hw⟩
  refine meets_ite.2 ⟨fun _ => ?_, fun _ => trivial⟩
  -- In the end the name is that of a function, and what the body calls is called by that function.
  have hmentioned : name :: body.calls
      ⊆ (w.leaveScope.addFunction name params result body).program.mentioned :=
    w.leaveScope.subset_mentioned_addFunction name params result body
  obtain ⟨hname, hbody⟩ := List.cons_subset.1 hmentioned
  have hstart : s.CallsAmong _ { s.advance with locals := [] }.enterScope :=
    (CallsAmong.refl.call hcurrent hname).trans (.of_rest rfl)
  have hhead : CallsAmong [] { s.advance with locals := [] }.enterScope.advance v.advance :=
    CallsAmong.trans hu (hv.past hbrace)
  exact (((hstart.past hopen).trans (hhead.mono (List.nil_subset _))).trans
    (CallsAmong.mono hw hbody)).trans (.of_rest rfl)

/-- The values of globals are not kept, but they cannot call anything. -/
theorem keepsAccount_global : global.KeepsAccount := by
  intro s
  refine ⟨trivial, fun names t hnames => ⟨trivial, fun ty u ⟨hu, hclosed⟩ => ⟨trivial, ?_⟩⟩⟩
  rintro values v ⟨hcount, hv⟩
  refine meets_ofRun.2 fun _ x hrun => ?_
  -- The values have turned out to be constant, so nothing was called in them.
  rw [Parse.callsAll_of_run_declareGlobals hcount hrun] at hv
  have hrest := (Parse.blind_declareGlobals ty names values).rest hrun
  have hx : s.CallsAmong [] x := (((hnames hclosed).trans hu).trans hv).trans (.of_rest hrest)
  exact hx.mono (List.nil_subset _)

end Rule

open Step in
/-- **Every rule accounts for what is called.** -/
theorem Contract.holds_accounting : Contract.accounting.Holds := by
  intro α rule s _
  -- Rules that build trees have lemmas of their own; the others pass on what the rules that they
  -- call account for.
  cases rule with
  | expr =>
    refine ⟨trivial, fun node t ⟨_, ht⟩ => meets_ite.2 ⟨fun hassign => ?_, fun _ => ?_⟩⟩
    · exact ⟨trivial, fun value u ⟨_, hu⟩ =>
        ⟨List.nil_subset _, (ParseState.CallsAmong.past ht hassign).append hu⟩⟩
    · exact ⟨List.nil_subset _, ht⟩
  | level l =>
    exact ⟨trivial, fun node t hpost => ⟨trivial, fun found u ⟨hnode, hu⟩ =>
      ⟨List.nil_subset _, ((Level.callsAmong_operand hpost).mono hnode).trans hu⟩⟩⟩
  | more l lhs => exact Rule.keepsAccount_more l lhs s
  | unary => exact Rule.keepsAccount_unary s
  | postfixed =>
    exact ⟨trivial, fun node t ⟨_, ht⟩ => ⟨trivial, fun found u ⟨hnode, hu⟩ =>
      ⟨List.nil_subset _, (ParseState.CallsAmong.mono ht hnode).trans hu⟩⟩⟩
  | subscripts node => exact Rule.keepsAccount_subscripts node s
  | primary => exact Rule.keepsAccount_primary s
  | arguments loc name args => exact Rule.keepsAccount_arguments loc name args s
  -- A star is no parenthesis, so where one is read no call is.
  | stars count =>
    refine meets_ite.2 ⟨fun hstar => ⟨trivial, fun found u ⟨hu, _⟩ => ⟨?_, fun hopen => ?_⟩⟩,
      fun _ => ⟨.refl, fun _ => rfl⟩⟩
    · exact (ParseState.CallsAmong.refl.past hstar).trans hu
    · exact absurd (ParseState.sees_unique hstar hopen) (by decide)
  | names read => exact Rule.keepsAccount_names read s
  | dimensions read =>
    refine meets_ite.2 ⟨fun hbracket => ?_, fun _ => ⟨.refl, fun _ => rfl⟩⟩
    refine meets_number.2 fun len loc text hcurrent => meets_expect.2 fun hclose =>
      ⟨trivial, fun found u ⟨hu, _⟩ => ⟨?_, fun hopen => ?_⟩⟩
    · have hnumber : s.CallsAmong [] s.advance.advance :=
        (ParseState.CallsAmong.refl.past hbracket).pastKind hcurrent nofun
      exact (hnumber.past hclose).trans hu
    · exact absurd (ParseState.sees_unique hbracket hopen) (by decide)
  | type => exact Rule.keepsAccount_type s
  | values read =>
    refine ⟨trivial, fun value t ⟨_, ht⟩ => ?_⟩
    refine meets_ite.2 ⟨fun hcomma => ⟨trivial, fun found u ⟨hfound, hu⟩ => ?_⟩,
      fun _ => ParseState.CallsAmong.concat ht (List.Subset.refl _)⟩
    obtain ⟨hread, ht⟩ := ParseState.CallsAmong.concat ht hfound
    exact ⟨hread, (ht.past hcomma).trans hu⟩
  | initializers count =>
    refine meets_ite.2 ⟨fun hassign => ⟨trivial, fun values t ⟨_, ht⟩ => ?_⟩, fun _ =>
      meets_expect.2 fun hend => ⟨.inl rfl, ParseState.CallsAmong.refl.past hend⟩⟩
    refine meets_ite.2 ⟨fun hcount => meets_expect.2 fun hend => ⟨.inr hcount, ?_⟩,
      fun _ => trivial⟩
    exact (ParseState.CallsAmong.refl.past hassign).trans (ParseState.CallsAmong.past ht hend)
  -- The values wait for the names that they are assigned to.
  | declaration loc => exact Rule.keepsAccount_declaration loc s
  | items read => exact Rule.keepsAccount_items read s
  | block loc =>
    exact ⟨trivial, fun body t ⟨_, ht⟩ => ⟨List.nil_subset _,
      (ParseState.CallsAmong.of_rest rfl).trans (ParseState.CallsAmong.trans ht (.of_rest rfl))⟩⟩
  | exprUnless text =>
    exact meets_ite.2 ⟨fun _ => ⟨List.nil_subset _, .refl⟩, fun _ => ⟨trivial,
      fun node t ⟨_, ht⟩ => ⟨List.nil_subset _, ht⟩⟩⟩
  | loopHead => exact Rule.keepsAccount_loopHead s
  | stmt => exact Rule.keepsAccount_stmt s
  | parameters read => exact Rule.keepsAccount_parameters read s
  | parameterList =>
    exact meets_ite.2 ⟨fun hclose => ⟨List.nil_subset _, ParseState.CallsAmong.refl.past hclose⟩,
      fun _ => ⟨trivial, fun found u hfound => hfound⟩⟩
  | function => exact Rule.keepsAccount_function s
  | global => exact Rule.keepsAccount_global s
  -- What is called in a declaration is mentioned in the program behind it.
  | topLevel =>
    have hlast : ∀ {text}, s.sees text = true → ∀ (u : ParseState),
        s.advance.CallsAmong u.program.mentioned u → s.CallsAmong u.program.mentioned u :=
      fun hsees u hu => (ParseState.CallsAmong.refl.past hsees).trans hu
    exact meets_ite.2 ⟨fun hfunc => ⟨trivial, fun _ u hu => hlast hfunc u hu⟩,
      fun _ => meets_ite.2 ⟨fun hvar => ⟨trivial, fun _ u hu => hlast hvar u hu⟩,
        fun _ => trivial⟩⟩

/-! ### Whole programs -/

/-- The identifiers among the tokens. -/
def identifiers (tokens : List Token) : List String :=
  (tokens.filter (·.kind = .identifier)).map Token.text

/-- An identifier is the text of a token of that kind. -/
theorem mem_identifiers {tokens : List Token} {name : String} :
    name ∈ identifiers tokens ↔ ∃ token ∈ tokens, token.kind = .identifier ∧ token.text = name := by
  simp [identifiers, and_assoc]

/-- Whatever is called is an identifier. -/
theorem calledNames_subset_identifiers (tokens : List Token) :
    calledNames tokens ⊆ identifiers tokens := by
  induction tokens with
  | nil => exact List.Subset.refl _
  | cons token tokens ih =>
    have hmore : identifiers tokens ⊆ identifiers (token :: tokens) := fun name hname => by
      obtain ⟨found, hfound, hname⟩ := mem_identifiers.1 hname
      exact mem_identifiers.2 ⟨found, List.mem_cons_of_mem _ hfound, hname⟩
    rw [calledNames]
    split
    · next hcalled =>
      have hfirst : token.text ∈ identifiers (token :: tokens) :=
        mem_identifiers.2 ⟨token, List.mem_cons_self, hcalled.1, rfl⟩
      exact List.cons_subset.2 ⟨hfirst, fun name hname => hmore (ih hname)⟩
    · exact fun name hname => hmore (ih hname)

/-- **Declaration after declaration accounts for what is called.** -/
theorem ParseState.Units.callsAmong (h : s.Units t) : s.CallsAmong t.program.mentioned t := by
  induction h with
  | refl => exact .refl
  | next _ hread hmore ih =>
    have hfirst := Contract.holds_accounting.yields trivial hread
    exact (CallsAmong.mono hfirst hmore.before.mentioned).trans ih

variable {source : Source} {tokens : List Token} {program : Program}

/-- **What is called is mentioned in the program.** -/
theorem Source.calledNames_subset (htokens : source.tokenize = .ok tokens)
    (hparse : parse source tokens = .ok program) : calledNames tokens ⊆ program.mentioned := by
  obtain ⟨front, rfl, hshapes⟩ := exists_lexemes_of_tokenize htokens
  obtain ⟨t, hunits, hend, rfl⟩ := parse_eq_ok_iff.1 hparse
  obtain ⟨w, hw, hword, -⟩ := hunits.exists_word
  obtain rfl := ParseState.eq_lexemes_of_atEnd hshapes hend hw hword
  have hrest : t.rest = [Token.atEnd source] := (List.append_cancel_left hw).symm
  intro name hname
  rcases hunits.callsAmong name hname with hmentioned | hleft
  · exact hmentioned
  · rw [hrest] at hleft
    exact absurd hleft List.not_mem_nil

/-- **Globals have names that occur in the source**, but for those of string literals. -/
theorem mem_identifiers_of_parse (hparse : parse source tokens = .ok program) :
    ∀ g ∈ program.globals,
      g.name ∈ identifiers tokens ∨ ∃ number, g.name = Symbol.ofLiteral number := by
  obtain ⟨t, hunits, -, rfl⟩ := parse_eq_ok_iff.1 hparse
  have hstart : (source.start tokens).Drawn (· ∈ identifiers tokens) :=
    ⟨fun token htoken hkind => mem_identifiers.2 ⟨token, htoken, hkind, rfl⟩,
      fun g hg => absurd hg List.not_mem_nil⟩
  have hstep : ∀ s t : ParseState, s.Drawn (· ∈ identifiers tokens) →
      (Rule.topLevel.step s).Yields () t → t.Drawn (· ∈ identifiers tokens) := by
    intro s t hs hread
    have hpre : (Contract.drawing (· ∈ identifiers tokens)).pre .topLevel s := ⟨hs, trivial⟩
    exact (Contract.Holds.yields (Contract.holds_drawing _) hpre hread).1
  exact (hunits.keeps hstep hstart).globals

end PocketCompiler
