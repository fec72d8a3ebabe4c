import PocketCompiler.Proofs.Grammar.Growth
import PocketCompiler.Proofs.Grammar.Rewording
import PocketCompiler.Proofs.SyntaxErrors

/-!
# Two runs in lockstep

`Step.Mirrored w f x y`: what `y` does is what `x` does in the words of `w`, and what it reads is
what `x` reads changed by `f`.  `Rule.mirrored` says so of every rule, and `Step.Yields.mirror` and
`Step.Fails.mirror` carry results and failures over.

Failures quote names, so they are carried over only if the rewording is faithful to names.

The names of globals and functions are looked at by more than the scopes: they are checked when
they are declared, and calls hold them.  So a rewording has to leave them as they are.  For names
that are called this is a property of the tokens (`calledNames`), for globals it is one of what is
read in the end (`Rule.KeepsGlobals`).
-/

namespace PocketCompiler

open Parse (DeclaredName LoopHead)

variable {α β : Type}

/-! ### What can be reworded -/

/-- The identifiers with an opening parenthesis right behind them. -/
def calledNames : List Token → List String
  | [] => []
  | token :: rest =>
    if token.kind = .identifier ∧ rest.head?.any (·.reads "(") = true then
      token.text :: calledNames rest
    else calledNames rest

/-- The tokens come to an end, and no name of a function is changed. -/
structure Rewording.Fits (w : Rewording) (s : ParseState) : Prop where
  ends : ∃ token ∈ s.rest, token.kind = .eof
  calls : ∀ name ∈ calledNames s.rest, w.name name = name

/-- No name of a global is changed, if the rule declares any. -/
def Rule.KeepsGlobals (w : Rewording) : {α : Type} → Rule α → ParseState → Prop
  | _, .global, s =>
    ∀ t, (Rule.global.step s).Yields () t → ∀ v ∈ t.globals, w.name v.name = v.name
  | _, .topLevel, s =>
    ∀ t, (Rule.topLevel.step s).Yields () t → ∀ v ∈ t.globals, w.name v.name = v.name
  | _, _, _ => True

namespace Rewording.Fits

variable {w : Rewording} {s t : ParseState}

/-- Fewer tokens call fewer functions. -/
theorem calledNames_tail (rest : List Token) : calledNames rest.tail ⊆ calledNames rest := by
  cases rest with
  | nil => exact List.Subset.refl _
  | cons token rest =>
    rw [calledNames]
    split
    · exact List.subset_cons_self _ _
    · exact List.Subset.refl _

/-- The end of the source is never moved past. -/
theorem advance {token : Token} (hs : w.Fits s) (hcurrent : s.current? = some token)
    (hkind : token.kind ≠ .eof) : w.Fits s.advance where
  ends := by
    obtain ⟨last, hlast, heof⟩ := hs.ends
    rw [ParseState.rest_of_current? hcurrent] at hlast
    rcases List.mem_cons.1 hlast with rfl | hlast
    · exact absurd heof hkind
    · exact ⟨last, hlast, heof⟩
  calls name hname := hs.calls name (calledNames_tail _ hname)

/-- What fits depends only on the tokens that are left. -/
theorem of_rest (hs : w.Fits s) (hrest : t.rest = s.rest) : w.Fits t where
  ends := hrest ▸ hs.ends
  calls := hrest ▸ hs.calls

/-- Behind a token that is seen the words still fit. -/
theorem past {text : String} (hs : w.Fits s) (hsees : s.sees text = true) : w.Fits s.advance := by
  obtain ⟨token, hcurrent, hreads⟩ := ParseState.exists_of_sees hsees
  refine hs.advance hcurrent fun heof => ?_
  rw [Token.reads, heof] at hreads
  cases hreads

/-- The place of the next token is moved like the places in the tokens. -/
theorem loc (hs : w.Fits s) : (w.state s).loc = w.place s.loc := by
  obtain ⟨token, htoken, -⟩ := hs.ends
  have hcurrent : ∃ first, s.current? = some first := by
    unfold ParseState.current?
    cases hrest : s.rest with
    | nil => rw [hrest] at htoken; exact absurd htoken List.not_mem_nil
    | cons first rest => exact ⟨first, rfl⟩
  obtain ⟨first, hfirst⟩ := hcurrent
  simp [ParseState.loc, hfirst]

/-- A name with an opening parenthesis behind it is the name of a function. -/
theorem called {loc : Nat} {name : String} (hs : w.Fits s)
    (hcurrent : s.current? = some ⟨.identifier, loc, name⟩) (hopen : s.advance.sees "(" = true) :
    w.name name = name := by
  refine hs.calls name ?_
  rw [ParseState.rest_of_current? hcurrent, calledNames, if_pos ⟨rfl, hopen⟩]
  exact List.mem_cons_self

end Rewording.Fits

/-! ### Steps in lockstep -/

/-- What `y` does is what `x` does in other words. -/
def Step.Mirrored (w : Rewording) (f : α → α) : Step α → Step α → Prop
  | .done a t, y => w.Fits t ∧ y = .done (f a) (w.state t)
  | .fail failure, y => w.Faithful → y = .fail (failure.moved w.place)
  | .call rule s next, y => w.Fits s ∧ rule.KeepsGlobals w s
    ∧ ∃ next', y = .call (w.rule rule) (w.state s) next'
      ∧ ∀ b t, (rule.step s).Yields b t → w.Fits t →
        (next b t).Mirrored w f (next' (w.result rule b) (w.state t))

namespace Step

variable {w : Rewording} {s t : ParseState} {f : α → α}

theorem mirrored_done {a : α} (ht : w.Fits t) :
    (done a t).Mirrored w f (done (f a) (w.state t)) := ⟨ht, rfl⟩

/-- The rule that is called is followed in other words, and then the step behind it. -/
theorem mirrored_call {rule : Rule β} {next next' : β → ParseState → Step α} (hs : w.Fits s)
    (hrule : rule.KeepsGlobals w s)
    (hnext : ∀ b t, (rule.step s).Yields b t → w.Fits t →
      (next b t).Mirrored w f (next' (w.result rule b) (w.state t))) :
    (call rule s next).Mirrored w f (call (w.rule rule) (w.state s) next') :=
  ⟨hs, hrule, next', rfl, hnext⟩

/-- The last rule that a rule calls reads what the rule reads. -/
theorem mirrored_last {rule rule' : Rule α} (hs : w.Fits s) (hkeeps : rule.KeepsGlobals w s)
    (hrule : rule' = w.rule rule) (hf : f = w.result rule) :
    (call rule s done).Mirrored w f (call rule' (w.state s) done) := by
  subst hrule hf
  exact mirrored_call hs hkeeps fun b t _ ht => mirrored_done ht

/-- A complaint is about the place that its own is moved to. -/
theorem mirrored_complaint {loc : Nat} {cause : Complaint} :
    (fail (.complaint loc cause) : Step α).Mirrored w f (fail (.complaint (w.place loc) cause)) :=
  fun _ => rfl

/-- The token that is found instead is quoted in the other words. -/
theorem mirrored_unexpected (hs : w.Fits s) (wanted : Expected) :
    (fail (s.unexpected wanted) : Step α).Mirrored w f (fail ((w.state s).unexpected wanted)) := by
  intro hfaithful
  have hdescribe : Token.describe? (w.state s).current? = Token.describe? s.current? := by
    rw [Rewording.current?_state]
    cases s.current? with
    | none => rfl
    | some token =>
      show (w.token token).describe = token.describe
      simp [Token.describe, Rewording.token, hfaithful token.text]
  rw [ParseState.unexpected, ParseState.unexpected, hs.loc, hdescribe]
  rfl

/-- Keywords and punctuators are not changed, so the same branch is taken. -/
theorem mirrored_sees {text : String} {x y x' y' : Step α}
    (hx : s.sees text = true → x.Mirrored w f x') (hy : s.sees text = false → y.Mirrored w f y') :
    (if s.sees text = true then x else y).Mirrored w f
      (if (w.state s).sees text = true then x' else y') := by
  rw [Rewording.sees_state]
  cases hsees : s.sees text with
  | true => exact hx hsees
  | false => exact hy hsees

/-- The text that has to be there is there in other words as well. -/
theorem mirrored_expect {text : String} {next next' : ParseState → Step α} (hs : w.Fits s)
    (hnext : s.sees text = true → w.Fits s.advance →
      (next s.advance).Mirrored w f (next' (w.state s.advance))) :
    (expect text s next).Mirrored w f (expect text (w.state s) next') := by
  refine mirrored_sees (fun hsees => ?_) fun _ => mirrored_unexpected hs _
  rw [Rewording.advance_state]
  exact hnext hsees (hs.past hsees)

/-- What is computed from moved operands is moved. -/
theorem mirrored_ofResult {g : β → β} {r r' : Except Failure β} {next next' : β → Step α}
    (hr : r' = moveResult w.place g r)
    (hnext : ∀ b, r = .ok b → (next b).Mirrored w f (next' (g b))) :
    (ofResult r next).Mirrored w f (ofResult r' next') := by
  subst hr
  cases r with
  | ok b => exact hnext b rfl
  | error failure => exact fun _ => rfl

/-- A reader that computes with the tables does so on the moved ones. -/
theorem mirrored_ofRun {g : β → β} {r r' : Except Failure (β × ParseState)}
    {next next' : β → ParseState → Step α} (hr : r' = moveResult w.place (Prod.map g w.state) r)
    (hnext : ∀ b t, r = .ok (b, t) → (next b t).Mirrored w f (next' (g b) (w.state t))) :
    (ofRun r next).Mirrored w f (ofRun r' next') := by
  subst hr
  cases r with
  | ok r => exact hnext r.1 r.2 rfl
  | error failure => exact fun _ => rfl

/-- A name that is read may be another one. -/
theorem mirrored_identifier {next next' : String → Nat → ParseState → Step α} (hs : w.Fits s)
    (hnext : ∀ name loc, s.current? = some ⟨.identifier, loc, name⟩ → w.Fits s.advance →
      (next name loc s.advance).Mirrored w f
        (next' (w.name name) (w.place loc) (w.state s.advance))) :
    (identifier s next).Mirrored w f (identifier (w.state s) next') := by
  have hwrong := mirrored_unexpected (f := f) hs .identifier
  unfold identifier
  rw [Rewording.current?_state, Rewording.advance_state]
  cases hcurrent : s.current? with
  | none => exact hwrong
  | some token =>
    obtain ⟨kind, loc, text⟩ := token
    cases kind with
    | identifier => exact hnext text loc hcurrent (hs.advance hcurrent (nomatch ·))
    | _ => exact hwrong

/-- A number keeps its value. -/
theorem mirrored_number {next next' : Int64 → Nat → ParseState → Step α} (hs : w.Fits s)
    (hnext : ∀ value loc, w.Fits s.advance →
      (next value loc s.advance).Mirrored w f (next' value (w.place loc) (w.state s.advance))) :
    (number s next).Mirrored w f (number (w.state s) next') := by
  have hwrong := mirrored_unexpected (f := f) hs .number
  unfold number
  rw [Rewording.current?_state, Rewording.advance_state]
  cases hcurrent : s.current? with
  | none => exact hwrong
  | some token =>
    obtain ⟨kind, loc, text⟩ := token
    cases kind with
    | number value =>
      cases value with
      | none => exact mirrored_complaint
      | some value => exact hnext value loc (hs.advance hcurrent (nomatch ·))
    | _ => exact hwrong

/-- A string literal keeps its bytes and its type. -/
theorem mirrored_literal {next next' : List UInt8 → Ty → ParseState → Step α} (hs : w.Fits s)
    (hnext : ∀ bytes ty, w.Fits s.advance →
      (next bytes ty s.advance).Mirrored w f (next' bytes ty (w.state s.advance))) :
    (literal s next).Mirrored w f (literal (w.state s) next') := by
  have hwrong := mirrored_unexpected (f := f) hs .stringLiteral
  unfold literal
  rw [Rewording.current?_state, Rewording.advance_state]
  cases hcurrent : s.current? with
  | none => exact hwrong
  | some token =>
    obtain ⟨kind, loc, text⟩ := token
    cases kind with
    | string bytes ty =>
      cases bytes with
      | none => exact hwrong
      | some bytes =>
        cases ty with
        | none => exact hwrong
        | some ty => exact hnext bytes ty (hs.advance hcurrent (nomatch ·))
    | _ => exact hwrong

end Step

/-! ### Rules in lockstep -/

/-- The rule does the same in other words. -/
def Rule.Mirrors (rule : Rule α) : Prop :=
  ∀ (w : Rewording) (s : ParseState), w.Fits s → rule.KeepsGlobals w s →
    (rule.step s).Mirrored w (w.result rule) ((w.rule rule).step (w.state s))

namespace Rule

open Step

variable {w : Rewording} {s : ParseState}

/-- No operand declares a global, so nothing is asked of the names. -/
theorem mirrored_operand {l : Level} {f : α → α} {next next' : Node → ParseState → Step α}
    (hs : w.Fits s) (hnext : ∀ node t, w.Fits t →
      (next node t).Mirrored w f (next' (node.moved w.place) (w.state t))) :
    (call l.operand s next).Mirrored w f (call l.operand (w.state s) next') := by
  cases l <;> exact mirrored_call hs trivial fun node t _ ht => hnext node t ht

/-! ### Expressions -/

theorem mirrors_expr : expr.Mirrors := by
  intro w s hs _
  refine mirrored_call hs trivial fun node t _ ht => ?_
  refine mirrored_sees (fun hsees => ?_) fun _ => mirrored_done ht
  rw [Rewording.advance_state, ht.loc]
  exact mirrored_call (ht.past hsees) trivial fun value u _ hu => mirrored_done hu

theorem mirrors_level (l : Level) : (level l).Mirrors := by
  intro w s hs _
  refine mirrored_operand hs fun node t ht => ?_
  exact mirrored_last ht trivial rfl rfl

/-- The operator is the same, and it joins the moved operands to the moved result. -/
theorem mirrors_more (l : Level) (lhs : Node) : (more l lhs).Mirrors := by
  intro w s hs _
  rw [Rewording.rule, step, step, Rewording.join?_state]
  cases hjoin : l.join? s with
  | none => exact mirrored_done hs
  | some join =>
    obtain ⟨text, -, hsees⟩ := Level.exists_sees_of_join? hjoin
    dsimp only
    rw [Rewording.advance_state, hs.loc]
    refine mirrored_operand (hs.past hsees) fun rhs t ht => ?_
    refine mirrored_ofResult (Rewording.join_moved hjoin lhs rhs s.loc) fun node _ => ?_
    exact mirrored_last ht trivial rfl rfl

theorem mirrors_unary : unary.Mirrors := by
  intro w s hs _
  show (unary.step s).Mirrored w _ (unary.step (w.state s))
  rw [step, step, Rewording.sign?_state]
  cases hsign : s.sign? with
  | none => exact mirrored_last hs trivial rfl rfl
  | some sign =>
    obtain ⟨text, -, hsees⟩ := ParseState.exists_sees_of_sign? hsign
    dsimp only
    rw [Rewording.advance_state, hs.loc]
    refine mirrored_call (hs.past hsees) trivial fun node t _ ht => ⟨ht, ?_⟩
    exact congrArg (done · (w.state t)) (Sign.apply_moved sign s.loc node)

theorem mirrors_postfixed : postfixed.Mirrors := by
  intro w s hs _
  refine mirrored_call hs trivial fun node t _ ht => ?_
  exact mirrored_last ht trivial rfl rfl

theorem mirrors_subscripts (node : Node) : (subscripts node).Mirrors := by
  intro w s hs _
  refine mirrored_sees (fun hsees => ?_) fun _ => mirrored_done hs
  rw [Rewording.advance_state, hs.loc]
  refine mirrored_call (hs.past hsees) trivial fun index t _ ht => ?_
  refine mirrored_expect ht fun _ hu => ?_
  refine mirrored_ofResult (Rewording.typed_moved Node.sum_moved node index s.loc) fun place _ => ?_
  exact mirrored_last hu trivial rfl rfl

/-- The name of a function that is called stays. -/
theorem mirrored_callOf (name : String) (loc : Nat) (hs : w.Fits s) :
    (callOf name loc s).Mirrored w (Node.moved w.place)
      (callOf name (w.place loc) (w.state s)) := by
  unfold callOf
  split
  · exact mirrored_complaint
  · refine mirrored_sees (fun hsees => ?_) fun _ => ?_
    · rw [Rewording.advance_state]
      exact mirrored_done (hs.past hsees)
    · exact mirrored_last hs trivial rfl rfl

/-- A variable is found by its other name where it was found by its own. -/
theorem mirrored_useOf (name : String) (loc : Nat) (hs : w.Fits s) :
    (useOf name loc s).Mirrored w (Node.moved w.place)
      (useOf (w.name name) (w.place loc) (w.state s)) := by
  have hfind : (w.state s).scopes.find? (w.name name) = s.scopes.find? name :=
    Rewording.find?_scopes s.scopes name
  unfold useOf
  rw [hfind]
  cases s.scopes.find? name with
  | some ref => exact mirrored_done hs
  | none =>
    intro hfaithful
    rw [hfaithful name]
    rfl

/-- A name with a parenthesis behind it is a call and stays; any other one may change. -/
theorem mirrors_primary : primary.Mirrors := by
  intro w s hs _
  have hkind : (w.state s).current?.map Token.kind = s.current?.map Token.kind := by
    simp [Function.comp_def]
  refine mirrored_sees (fun hsees => ?_) fun _ => ?_
  · rw [Rewording.advance_state]
    refine mirrored_call (hs.past hsees) trivial fun node t _ ht => ?_
    exact mirrored_expect ht fun _ hu => mirrored_done hu
  rw [hkind]
  split
  · refine mirrored_identifier hs fun name loc hcurrent ht => ?_
    refine mirrored_sees (fun hsees => ?_) fun _ => mirrored_useOf name loc ht
    rw [Rewording.advance_state, hs.called hcurrent hsees]
    exact mirrored_callOf name loc (ht.past hsees)
  · rw [hs.loc]
    exact mirrored_literal hs fun bytes ty ht => mirrored_done (ht.of_rest rfl)
  · exact mirrored_number hs fun value loc ht => mirrored_done ht
  · exact mirrored_unexpected hs .expression

theorem mirrors_arguments (loc : Nat) (name : String) (args : List Node) :
    (arguments loc name args).Mirrors := by
  intro w s hs _
  rw [Rewording.rule, step, step, List.length_map]
  split
  · refine mirrored_call hs trivial fun argument t _ ht => ?_
    refine mirrored_sees (fun hsees => ?_) fun _ => ?_
    · rw [Rewording.advance_state]
      refine ⟨ht.past hsees, ?_⟩
      simp [Rewording.result, Node.moved, Mark.moved]
    · refine mirrored_expect ht fun _ hu => ?_
      exact mirrored_last hu trivial (by simp [Rewording.rule, Rewording.result]) rfl
  · rw [hs.loc]
    exact mirrored_complaint

/-! ### Declarations -/

theorem mirrors_stars (count : Nat) : (stars count).Mirrors := by
  intro w s hs _
  refine mirrored_sees (fun hsees => ?_) fun _ => mirrored_done hs
  rw [Rewording.advance_state]
  exact mirrored_last (hs.past hsees) trivial rfl rfl

/-- The declared names are the only ones that are gathered before they are in a table. -/
theorem mirrors_names (read : List DeclaredName) : (names read).Mirrors := by
  intro w s hs _
  refine mirrored_call hs trivial fun count t _ ht => ?_
  refine mirrored_identifier ht fun name loc _ hu => ?_
  have hread : read.map w.declared ++ [w.declared ⟨name, loc, count⟩]
      = List.map w.declared (read ++ [⟨name, loc, count⟩]) := by
    simp
  show Mirrored w _ _
    (if _ then call (names (read.map w.declared ++ [w.declared ⟨name, loc, count⟩])) _ _
      else done (read.map w.declared ++ [w.declared ⟨name, loc, count⟩]) _)
  rw [hread]
  refine mirrored_sees (fun hsees => ?_) fun _ => mirrored_done hu
  rw [Rewording.advance_state]
  exact mirrored_last (hu.past hsees) trivial rfl rfl

theorem mirrors_dimensions (read : List (Int64 × Nat)) : (dimensions read).Mirrors := by
  intro w s hs _
  refine mirrored_sees (fun hsees => ?_) fun _ => mirrored_done hs
  rw [Rewording.advance_state]
  refine mirrored_number (hs.past hsees) fun len loc ht => ?_
  refine mirrored_expect ht fun _ hu => ?_
  exact mirrored_last hu trivial (by simp [Rewording.rule]) rfl

theorem mirrors_type : type.Mirrors := by
  intro w s hs _
  refine mirrored_call hs trivial fun dimensions t _ ht => ?_
  refine mirrored_call ht trivial fun depth u _ hu => ?_
  have hbase : ∀ (base : Ty) (text : String), u.sees text = true →
      (ofRun ((Parse.arrayTypes (base.pointers depth) dimensions).run u.advance) done).Mirrored w id
        (ofRun ((Parse.arrayTypes (base.pointers depth)
          (dimensions.map fun d => (d.1, w.place d.2))).run (w.state u).advance) done) := by
    intro base text hsees
    rw [Rewording.advance_state]
    refine mirrored_ofRun (Rewording.run_arrayTypes _ dimensions) fun ty v hrun => ?_
    obtain rfl := Parse.state_of_run_arrayTypes hrun
    exact mirrored_done (hu.past hsees)
  refine mirrored_sees (hbase .int "int") fun _ => ?_
  exact mirrored_sees (hbase .char "char") fun _ => mirrored_unexpected hu .type

theorem mirrors_values (read : List Node) : (values read).Mirrors := by
  intro w s hs _
  refine mirrored_call hs trivial fun value t _ ht => ?_
  have hread : read.map (Node.moved w.place) ++ [value.moved w.place]
      = (read ++ [value]).map (Node.moved w.place) := by
    simp
  show Mirrored w _ _
    (if _ then call (values (read.map (Node.moved w.place) ++ [value.moved w.place])) _ _
      else done (read.map (Node.moved w.place) ++ [value.moved w.place]) _)
  rw [hread]
  refine mirrored_sees (fun hsees => ?_) fun _ => mirrored_done ht
  rw [Rewording.advance_state]
  exact mirrored_last (ht.past hsees) trivial rfl rfl

theorem mirrors_initializers (count : Nat) : (initializers count).Mirrors := by
  intro w s hs _
  refine mirrored_sees (fun hsees => ?_) fun _ => mirrored_expect hs fun _ ht => mirrored_done ht
  rw [Rewording.advance_state, (hs.past hsees).loc]
  refine mirrored_call (hs.past hsees) trivial fun values t _ ht => ?_
  have hlength : (w.result (.values []) values).length = values.length := List.length_map _
  rw [hlength]
  split
  · exact mirrored_expect ht fun _ hu => mirrored_done hu
  · exact mirrored_complaint

/-- The same number of values is there for the same number of names. -/
theorem mirrors_declaration (loc : Nat) : (declaration loc).Mirrors := by
  intro w s hs _
  refine mirrored_call hs trivial fun names t _ ht => ?_
  refine mirrored_call ht trivial fun ty u _ hu => ?_
  have hlength : (w.result (.names []) names).length = names.length := List.length_map _
  rw [hlength]
  refine mirrored_call hu trivial fun values v _ hv => ?_
  refine mirrored_ofRun (Rewording.run_declareLocals ty names values) fun body x hrun => ⟨?_, ?_⟩
  · exact hv.of_rest ((Parse.blind_declareLocals ty names values).rest hrun)
  · simp [Rewording.result, Node.moved, Mark.moved]

/-! ### Statements -/

/-- A statement gets its types from tables that agree in everything but places and names. -/
theorem mirrors_items (read : List Node) : (items read).Mirrors := by
  intro w s hs _
  -- A declaration and a statement are typed in the same way, and the items behind it follow.
  have hitem : ∀ (node : Node) (t : ParseState), w.Fits t →
      (ofResult (annotate t.symbols node) fun typed =>
          call (items (read ++ [typed])) t done).Mirrored w (List.map (Node.moved w.place))
        (ofResult (annotate (w.state t).symbols (node.moved w.place)) fun typed =>
          call (items (read.map (Node.moved w.place) ++ [typed])) (w.state t) done) := by
    intro node t ht
    refine mirrored_ofResult (annotate_moved Rewording.sameTypes_state node) fun typed _ => ?_
    exact mirrored_last ht trivial (by simp [Rewording.rule]) rfl
  refine mirrored_sees (fun hsees => ?_) fun _ => ?_
  · rw [Rewording.advance_state]
    exact mirrored_done (hs.past hsees)
  refine mirrored_sees (fun hsees => ?_) fun _ => ?_
  · rw [Rewording.advance_state, hs.loc]
    exact mirrored_call (hs.past hsees) trivial fun node t _ ht => hitem node t ht
  · exact mirrored_call hs trivial fun node t _ ht => hitem node t ht

theorem mirrors_block (loc : Nat) : (block loc).Mirrors := by
  intro w s hs _
  refine mirrored_call (hs.of_rest rfl) trivial fun body t _ ht => ⟨ht.of_rest rfl, ?_⟩
  simp [Rewording.result, Node.moved, Mark.moved]

theorem mirrors_exprUnless (text : String) : (exprUnless text).Mirrors := by
  intro w s hs _
  refine mirrored_sees (fun _ => mirrored_done hs) fun _ => ?_
  exact mirrored_call hs trivial fun node t _ ht => mirrored_done ht

/-- Which of the three heads it is shows at keywords and punctuators. -/
theorem mirrors_loopHead : loopHead.Mirrors := by
  intro w s hs _
  refine mirrored_sees (fun _ => mirrored_done hs) fun _ => ?_
  refine mirrored_call hs trivial fun first t _ ht => ?_
  refine mirrored_sees (fun hsees => ?_) fun _ => mirrored_done ht
  rw [Rewording.advance_state]
  refine mirrored_call (ht.past hsees) trivial fun cond u _ hu => ?_
  refine mirrored_expect hu fun _ hv => ?_
  exact mirrored_call hv trivial fun step x _ hx => mirrored_done hx

/-- A statement that is an expression is marked with the place where that starts. -/
theorem mirrored_exprStatement (hs : w.Fits s) :
    (exprStatement s).Mirrored w (Node.moved w.place) (exprStatement (w.state s)) := by
  unfold exprStatement
  rw [hs.loc]
  refine mirrored_sees (fun hsees => ?_) fun _ => ?_
  · rw [Rewording.advance_state]
    exact mirrored_done (hs.past hsees)
  · refine mirrored_call hs trivial fun value t _ ht => ?_
    exact mirrored_expect ht fun _ hu => mirrored_done hu

theorem mirrors_stmt : stmt.Mirrors := by
  intro w s hs _
  show (stmt.step s).Mirrored w _ (stmt.step (w.state s))
  rw [step, step, hs.loc, Rewording.advance_state]
  refine mirrored_sees (fun hsees => ?_) fun _ => ?_
  · refine mirrored_call (hs.past hsees) trivial fun value t _ ht => ?_
    exact mirrored_expect ht fun _ hu => mirrored_done hu
  refine mirrored_sees (fun hsees => ?_) fun _ => ?_
  · refine mirrored_call (hs.past hsees) trivial fun cond t _ ht => ?_
    refine mirrored_call ht trivial fun onTrue u _ hu => ?_
    refine mirrored_sees (fun helse => ?_) fun _ => mirrored_done hu
    rw [Rewording.advance_state]
    exact mirrored_call (hu.past helse) trivial fun onFalse v _ hv => mirrored_done hv
  refine mirrored_sees (fun hsees => ?_) fun _ => ?_
  · refine mirrored_call (hs.past hsees) trivial fun head t _ ht => ?_
    refine mirrored_call ht trivial fun body u _ hu => ⟨hu, ?_⟩
    simp [Rewording.result, Rewording.loopHead, Node.moved, Mark.moved]
  refine mirrored_sees (fun hsees => ?_) fun _ => mirrored_exprStatement hs
  exact mirrored_last (hs.past hsees) trivial rfl rfl

/-! ### Functions and globals -/

theorem mirrors_parameters (read : List (Nat × Ty)) : (parameters read).Mirrors := by
  intro w s hs _
  show (step (parameters read) s).Mirrored w id (step (parameters read) (w.state s))
  rw [step, step]
  split
  · refine mirrored_identifier hs fun name loc _ ht => ?_
    refine mirrored_call ht trivial fun ty u _ hu => ?_
    have hty : w.result type ty = ty := rfl
    have hadded : (w.state u).addLocal { name := w.name name, ty := ty.decay }
        = w.state (u.addLocal { name, ty := ty.decay }) :=
      Rewording.addLocal_state (w := w) (s := u) { name, ty := ty.decay }
    have hlength : (w.state u).locals.length = u.locals.length := List.length_map _
    have hfits : w.Fits (u.addLocal { name, ty := ty.decay }) := hu.of_rest rfl
    dsimp only
    rw [hty, hadded, hlength]
    refine mirrored_sees (fun hsees => ?_) fun _ => ?_
    · rw [Rewording.advance_state]
      exact mirrored_done (hfits.past hsees)
    · exact mirrored_expect hfits fun _ hv => mirrored_last hv trivial rfl rfl
  · rw [hs.loc]
    exact mirrored_complaint

theorem mirrors_parameterList : parameterList.Mirrors := by
  intro w s hs _
  refine mirrored_sees (fun hsees => ?_) fun _ => mirrored_last hs trivial rfl rfl
  rw [Rewording.advance_state]
  exact mirrored_done (hs.past hsees)

/-- The sizes of the locals do not depend on their names. -/
theorem frameBytes?_state : Parse.frameBytes? (w.state s).locals = Parse.frameBytes? s.locals := by
  show (s.locals.map w.localVar).foldlM _ 0 = _
  rw [List.foldlM_map]
  rfl

/-- The name of a function stays, since a parenthesis is behind it. -/
theorem mirrors_function : function.Mirrors := by
  intro w s hs _
  show (function.step s).Mirrored w id (function.step (w.state s))
  rw [step, step]
  refine mirrored_identifier hs fun name loc hcurrent ht => ?_
  by_cases hname : w.name name = name
  · rw [hname]
    refine mirrored_ofRun (Rewording.run_checkFunction name loc) fun _ u hrun => ?_
    obtain rfl := Parse.state_of_run_checkFunction hrun
    -- The function begins without locals, in a scope of its own.
    have hfresh : w.Fits { s.advance with locals := [] }.enterScope := ht.of_rest rfl
    refine mirrored_expect hfresh fun _ hv => ?_
    refine mirrored_call hv trivial fun params x _ hx => ?_
    refine mirrored_call hx trivial fun result y _ hy => ?_
    rw [hy.loc]
    refine mirrored_expect hy fun _ hz => ?_
    refine mirrored_call hz trivial fun body z _ hz => ?_
    -- Renaming leaves the sizes of the locals, so both frames are small enough or neither is.
    rw [frameBytes?_state]
    split
    · refine ⟨hz.of_rest rfl, ?_⟩
      rw [Rewording.leaveScope_state]
      exact congrArg (done ()) (Rewording.addFunction_state name params result body)
    · exact mirrored_complaint
  · -- A name that is changed has no parenthesis behind it, so this is no function.
    have hlost : ∀ (failure : Failure) (y : Step Unit), (fail failure).Mirrored w id y :=
      fun failure y hfaithful => absurd (hfaithful name) hname
    cases hrun : (Parse.checkFunction name loc).run s.advance with
    | error failure => exact hlost failure _
    | ok r =>
      obtain ⟨u, t⟩ := r
      obtain rfl := Parse.state_of_run_checkFunction hrun
      have hopen : ¬ { s.advance with locals := [] }.enterScope.sees "(" = true :=
        fun hopen => hname (hs.called hcurrent hopen)
      rw [ofRun, expect, if_neg hopen]
      exact hlost _ _

/-- The names of globals stay, and their values are folded to the same bytes. -/
theorem mirrors_global : global.Mirrors := by
  intro w s hs hkeeps
  refine mirrored_call hs trivial fun names t hnames ht => ?_
  refine mirrored_call ht trivial fun ty u hty hu => ?_
  have hlength : (w.result (.names []) names).length = names.length := List.length_map _
  rw [hlength]
  refine mirrored_call hu trivial fun values v hvalues hv => ?_
  by_cases hsame : ∀ d ∈ names, w.name d.name = d.name
  · refine mirrored_ofRun (Rewording.run_declareGlobals ty names hsame values) fun _ x hrun => ?_
    exact mirrored_done (hv.of_rest ((Parse.blind_declareGlobals ty names values).rest hrun))
  · have hfaithful : ¬ w.Faithful := fun hfaithful => hsame fun d _ => hfaithful d.name
    cases hrun : (Parse.declareGlobals ty names values).run v with
    | error failure => exact fun h => absurd h hfaithful
    | ok r =>
      -- What has been declared is among the globals in the end, and these are not changed.
      refine absurd (fun d hd => ?_) hsame
      obtain ⟨added, hadded, hnamed, -⟩ := Parse.exists_of_run_declareGlobals hrun
      have hyields : (Rule.global.step s).Yields () r.2 :=
        .call hnames (.call hty (.call hvalues (by rw [hrun]; exact .done)))
      have hmem : d.name ∈ added.map (·.name) := hnamed ▸ List.mem_map_of_mem hd
      obtain ⟨v, hv, hname⟩ := List.mem_map.1 hmem
      rw [← hname]
      refine hkeeps r.2 hyields v ?_
      obtain ⟨scopes, hglobals⟩ := ParseState.exists_foldl_addGlobal added _
      rw [hadded, hglobals]
      exact List.mem_append_right _ hv

theorem mirrors_topLevel : topLevel.Mirrors := by
  intro w s hs hkeeps
  refine mirrored_sees (fun hsees => ?_) fun hfunc => ?_
  · rw [Rewording.advance_state]
    exact mirrored_last (hs.past hsees) trivial rfl rfl
  refine mirrored_sees (fun hsees => ?_) fun _ => mirrored_unexpected hs .topLevel
  rw [Rewording.advance_state]
  refine mirrored_last (hs.past hsees) (fun t ht => hkeeps t ?_) rfl rfl
  rw [step, hfunc, hsees]
  exact .call ht .done

end Rule

/-- **Every rule does the same in other words.** -/
theorem Rule.mirrors (rule : Rule α) : rule.Mirrors := by
  cases rule with
  | expr => exact mirrors_expr
  | level l => exact mirrors_level l
  | more l lhs => exact mirrors_more l lhs
  | unary => exact mirrors_unary
  | postfixed => exact mirrors_postfixed
  | subscripts node => exact mirrors_subscripts node
  | primary => exact mirrors_primary
  | arguments loc name args => exact mirrors_arguments loc name args
  | stars count => exact mirrors_stars count
  | names read => exact mirrors_names read
  | dimensions read => exact mirrors_dimensions read
  | type => exact mirrors_type
  | values read => exact mirrors_values read
  | initializers count => exact mirrors_initializers count
  | declaration loc => exact mirrors_declaration loc
  | items read => exact mirrors_items read
  | block loc => exact mirrors_block loc
  | exprUnless text => exact mirrors_exprUnless text
  | loopHead => exact mirrors_loopHead
  | stmt => exact mirrors_stmt
  | parameters read => exact mirrors_parameters read
  | parameterList => exact mirrors_parameterList
  | function => exact mirrors_function
  | global => exact mirrors_global
  | topLevel => exact mirrors_topLevel

/-! ### Runs in lockstep -/

variable {w : Rewording}

/-- **A result is carried over.** -/
theorem Step.Yields.mirror {x : Step α} {a : α} {t : ParseState} (h : x.Yields a t) :
    ∀ {f : α → α} {y : Step α}, x.Mirrored w f y → w.Fits t ∧ y.Yields (f a) (w.state t) := by
  induction h with
  | done =>
    rintro f y ⟨ht, rfl⟩
    exact ⟨ht, .done⟩
  | @call _ _ rule s t u next b a hrule hnext ihrule ihnext =>
    rintro f y ⟨hs, hkeeps, next', rfl, hmirror⟩
    obtain ⟨ht, hrule'⟩ := ihrule (rule.mirrors w s hs hkeeps)
    obtain ⟨hu, hnext'⟩ := ihnext (hmirror b t hrule ht)
    exact ⟨hu, .call hrule' hnext'⟩

/-- **A failure is carried over** to its new place, if names stay as they are. -/
theorem Step.Fails.mirror {x : Step α} {failure : Failure} (hfaithful : w.Faithful)
    (h : x.Fails failure) :
    ∀ {f : α → α} {y : Step α}, x.Mirrored w f y → y.Fails (failure.moved w.place) := by
  induction h with
  | fail =>
    intro f y hy
    rw [hy hfaithful]
    exact .fail
  | @inside _ _ rule s next hrule ih =>
    rintro f y ⟨hs, hkeeps, next', rfl, -⟩
    exact .inside (ih (rule.mirrors w s hs hkeeps))
  | @behind _ _ rule s t next b hrule hnext ih =>
    rintro f y ⟨hs, hkeeps, next', rfl, hmirror⟩
    obtain ⟨ht, hrule'⟩ := hrule.mirror (rule.mirrors w s hs hkeeps)
    exact .behind hrule' (ih (hmirror b t hrule ht))

/-- **Declaration after declaration is carried over.** -/
theorem ParseState.Units.mirror {s t : ParseState} (h : s.Units t) (hs : w.Fits s)
    (hglobals : ∀ v ∈ t.globals, w.name v.name = v.name) :
    w.Fits t ∧ (w.state s).Units (w.state t) := by
  induction h with
  | refl => exact ⟨hs, .refl⟩
  | @next s t u hend hread hmore ih =>
    have hkeeps : Rule.topLevel.KeepsGlobals w s := by
      intro t' ht' v hv
      obtain ⟨-, rfl⟩ := Prod.mk.inj (Except.ok.inj (ht'.run.symm.trans hread.run))
      exact hglobals v (hmore.before.globals.subset hv)
    obtain ⟨ht, hread'⟩ := hread.mirror (Rule.topLevel.mirrors w s hs hkeeps)
    obtain ⟨hu, hmore'⟩ := ih ht hglobals
    refine ⟨hu, .next ?_ hread' hmore'⟩
    rw [Rewording.atEnd_state]
    exact hend

/-! ### Programs in other words -/

/-- Reading starts with empty tables in both, and with the end of the text at its own place. -/
theorem Rewording.start_eq {source other : Source} {tokens : List Token}
    (hstop : other.byteSize = w.stop) :
    w.state (source.start tokens) = other.start (tokens.map w.token) := by
  rw [Source.start, Source.start, hstop]
  rfl

/-- **The reworded tokens make up the reworded program.** -/
theorem parse_reworded {source other : Source} {tokens : List Token} {program : Program}
    (hstop : other.byteSize = w.stop) (hfits : w.Fits (source.start tokens))
    (hglobals : ∀ v ∈ program.globals, w.name v.name = v.name)
    (h : parse source tokens = .ok program) :
    parse other (tokens.map w.token) = .ok (w.program program) := by
  obtain ⟨t, hunits, hend, rfl⟩ := parse_eq_ok_iff.1 h
  obtain ⟨-, hunits'⟩ := hunits.mirror hfits hglobals
  rw [Rewording.start_eq hstop] at hunits'
  refine parse_eq_ok_iff.2 ⟨w.state t, hunits', ?_, rfl⟩
  rw [Rewording.atEnd_state]
  exact hend

/-- **Tokens at other places are refused for the same reason.** -/
theorem parse_reworded_error {source other : Source} {tokens : List Token} {failure : Failure}
    (hstop : other.byteSize = w.stop) (hfits : w.Fits (source.start tokens))
    (hfaithful : w.Faithful) (h : parse source tokens = .error failure) :
    parse other (tokens.map w.token) = .error (failure.moved w.place) := by
  obtain ⟨t, hunits, hend, hfails⟩ := parse_eq_error_iff.1 h
  obtain ⟨ht, hunits'⟩ := hunits.mirror hfits fun v _ => hfaithful v.name
  rw [Rewording.start_eq hstop] at hunits'
  have hkeeps : Rule.topLevel.KeepsGlobals w t := fun _ _ v _ => hfaithful v.name
  refine parse_eq_error_iff.2 ⟨w.state t, hunits', ?_, ?_⟩
  · rw [Rewording.atEnd_state]
    exact hend
  · exact hfails.mirror hfaithful (Rule.topLevel.mirrors w t ht hkeeps)

end PocketCompiler
