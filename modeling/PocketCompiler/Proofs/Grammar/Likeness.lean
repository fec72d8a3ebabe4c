import PocketCompiler.Proofs.Grammar.Readers

/-!
# States that are read alike

Of the tokens that are left, what stands behind the first end of the source is never looked at, and
neither is the token for that end: no token at all stands for the same.  Of the functions that have
been read, only the names are looked at.  So states that differ in nothing else are alike
(`Likeness.Like`), and every rule does the same in both (`Rule.likens`).

Three things follow: `Step.Yields.like` for results, `Step.Fails.like` for failures, and
`ParseState.Units.like` for declaration after declaration.
-/

namespace PocketCompiler

open Parse (DeclaredName)

variable {α β : Type} {stop : Nat} {rest rest' : List Token} {s s' t t' u : ParseState}

/-! ### Lists of tokens that end alike -/

/-- No token is left, or the one for the end of the source. -/
def IsEnd (tokens : List Token) : Prop := ∀ token ∈ tokens.head?, token.kind = .eof

/-- The end of the list is as good as a token for the end. -/
theorem isEnd_nil : IsEnd [] := by
  rintro token ⟨⟩

theorem isEnd_cons {token : Token} (h : token.kind = .eof) : IsEnd (token :: rest) := by
  rintro first ⟨⟩
  exact h

/-- The tokens are the same in front of the first end of the source, and the ends have one place.
The place where the source ends is `stop`. -/
inductive EndsAlike (stop : Nat) : List Token → List Token → Prop
  | ends {rest rest' : List Token} (h : IsEnd rest) (h' : IsEnd rest')
      (hloc : (rest'.head?.map Token.loc).getD stop = (rest.head?.map Token.loc).getD stop) :
    EndsAlike stop rest rest'
  | cons {token : Token} {rest rest' : List Token} (hkind : token.kind ≠ .eof)
      (h : EndsAlike stop rest rest') : EndsAlike stop (token :: rest) (token :: rest')

namespace EndsAlike

theorem refl (stop : Nat) (rest : List Token) : EndsAlike stop rest rest := by
  induction rest with
  | nil => exact .ends isEnd_nil isEnd_nil rfl
  | cons token rest ih =>
    by_cases hkind : token.kind = .eof
    · exact .ends (isEnd_cons hkind) (isEnd_cons hkind) rfl
    · exact .cons hkind ih

/-- What stands in front makes no difference, even if it holds an end. -/
theorem append (tokens : List Token) (h : EndsAlike stop rest rest') :
    EndsAlike stop (tokens ++ rest) (tokens ++ rest') := by
  induction tokens with
  | nil => exact h
  | cons token tokens ih =>
    by_cases hkind : token.kind = .eof
    · exact .ends (isEnd_cons hkind) (isEnd_cons hkind) rfl
    · exact .cons hkind ih

end EndsAlike

/-! ### States that are alike -/

/-- Two lists of functions of which one stands where the other does; they have the same names. -/
structure Likeness where
  before : List Function
  before' : List Function
  names : before'.map (·.name) = before.map (·.name)

/-- The state is `s` but for what is not looked at. -/
inductive Likeness.Like (e : Likeness) (s : ParseState) : ParseState → Prop
  | intro {rest : List Token} {added : List Function} (hrest : EndsAlike s.stop s.rest rest)
      (hfunctions : s.functions = e.before ++ added) :
    Like e s { s with rest, functions := e.before' ++ added }

variable {e : Likeness}

/-- A state is at the end where its tokens are. -/
theorem ParseState.atEnd_eq_true_iff : s.atEnd = true ↔ IsEnd s.rest := by
  unfold atEnd current? IsEnd
  cases s.rest with
  | nil => simp
  | cons token rest => simp

namespace Likeness.Like

theorem symbols (h : e.Like s s') : s'.symbols = s.symbols := by
  cases h
  rfl

theorem scopes (h : e.Like s s') : s'.scopes = s.scopes := by
  cases h
  rfl

theorem locals (h : e.Like s s') : s'.locals = s.locals := by
  cases h
  rfl

theorem globals (h : e.Like s s') : s'.globals = s.globals := by
  cases h
  rfl

/-- Both are at the end, or have a token to move past, which is the same. -/
theorem cases_current (h : e.Like s s') : (s.atEnd = true ∧ s'.atEnd = true)
    ∨ ∃ token, s.current? = some token ∧ s'.current? = some token ∧ token.kind ≠ .eof
      ∧ e.Like s.advance s'.advance := by
  cases h with
  | @intro rest added hrest hfunctions =>
    generalize hfirst : s.rest = first at hrest
    cases hrest with
    | ends hend hend' hloc =>
      refine .inl ⟨ParseState.atEnd_eq_true_iff.2 ?_, ParseState.atEnd_eq_true_iff.2 hend'⟩
      rw [hfirst]
      exact hend
    | @cons token more more' hkind hmore =>
      refine .inr ⟨token, ?_, rfl, hkind, ?_⟩
      · rw [ParseState.current?, hfirst]
        rfl
      · have hadvance : s.advance.rest = more := by
          rw [ParseState.advance, hfirst]
          rfl
        have hmore' : EndsAlike s.advance.stop s.advance.rest more' := by
          rw [hadvance]
          exact hmore
        exact .intro (s := s.advance) hmore' hfunctions

/-- The place of the next token is the same: where the tokens differ, it is the end of the source.
-/
theorem loc (h : e.Like s s') : s'.loc = s.loc := by
  have hloc : ∀ u : ParseState, u.loc = (u.rest.head?.map Token.loc).getD u.stop := by
    intro u
    unfold ParseState.loc ParseState.current?
    cases u.rest <;> rfl
  rw [hloc, hloc]
  cases h with
  | @intro rest added hrest hfunctions =>
    show (rest.head?.map Token.loc).getD s.stop = _
    generalize s.rest = first at hrest
    cases hrest with
    | ends hend hend' hloc => exact hloc
    | cons hkind hmore => rfl

end Likeness.Like

/-- A missing token is described like the one for the end. -/
theorem ParseState.describe_of_atEnd (h : s.atEnd = true) :
    Token.describe? s.current? = "EOF" := by
  have hend := atEnd_eq_true_iff.1 h
  unfold IsEnd at hend
  unfold current?
  cases hhead : s.rest.head? with
  | none => rfl
  | some token =>
    rw [Token.describe?, Token.describe, hend token hhead]

/-- Nothing is seen at the end. -/
theorem ParseState.sees_of_atEnd (h : s.atEnd = true) (text : String) : s.sees text = false := by
  rw [← Bool.not_eq_true]
  intro hsees
  rw [atEnd_eq_false_of_sees hsees] at h
  exact Bool.false_ne_true h

/-- No operator stands at the end. -/
theorem ParseState.lookup_of_atEnd {γ : Type} (h : s.atEnd = true) (table : List (String × γ)) :
    s.lookup table = none := by
  have hend := atEnd_eq_true_iff.1 h
  rw [Option.eq_none_iff_forall_ne_some]
  intro a ha
  obtain ⟨loc, text, hcurrent, -⟩ := exists_of_lookup ha
  cases hend _ hcurrent

namespace Likeness.Like

/-- So a complaint about the next token has the same place and the same words. -/
theorem unexpected (h : e.Like s s') (wanted : Expected) :
    s'.unexpected wanted = s.unexpected wanted := by
  have hdescribe : Token.describe? s'.current? = Token.describe? s.current? := by
    rcases h.cases_current with ⟨hs, hs'⟩ | ⟨token, hs, hs', -⟩
    · rw [ParseState.describe_of_atEnd hs, ParseState.describe_of_atEnd hs']
    · rw [hs, hs']
  rw [ParseState.unexpected, ParseState.unexpected, h.loc, hdescribe]

/-- One of them is at the end exactly if the other one is. -/
theorem atEnd (h : e.Like s s') : s'.atEnd = s.atEnd := by
  rcases h.cases_current with ⟨hs, hs'⟩ | ⟨token, hs, hs', -⟩
  · rw [hs, hs']
  · rw [ParseState.atEnd, ParseState.atEnd, hs, hs']

/-- Both find the same punctuators and keywords, or neither does. -/
theorem sees (h : e.Like s s') (text : String) : s'.sees text = s.sees text := by
  rcases h.cases_current with ⟨hs, hs'⟩ | ⟨token, hs, hs', -⟩
  · rw [ParseState.sees_of_atEnd hs, ParseState.sees_of_atEnd hs']
  · rw [ParseState.sees, ParseState.sees, hs, hs']

theorem lookup {γ : Type} (h : e.Like s s') (table : List (String × γ)) :
    s'.lookup table = s.lookup table := by
  rcases h.cases_current with ⟨hs, hs'⟩ | ⟨token, hs, hs', -⟩
  · rw [ParseState.lookup_of_atEnd hs, ParseState.lookup_of_atEnd hs']
  · rw [ParseState.lookup, ParseState.lookup, hs, hs']

/-- Both find the same operator between operands. -/
theorem join? (h : e.Like s s') (l : Level) : l.join? s' = l.join? s := by
  cases l <;> simp only [Level.join?, h.sees, h.lookup]

/-- Both find the same operator in front of an operand. -/
theorem sign? (h : e.Like s s') : s'.sign? = s.sign? := by
  simp only [ParseState.sign?, h.sees]

/-- What is seen is moved past in both. -/
theorem past {text : String} (h : e.Like s s') (hsees : s.sees text = true) :
    e.Like s.advance s'.advance := by
  rcases h.cases_current with ⟨hs, -⟩ | ⟨token, -, -, -, hadvance⟩
  · rw [ParseState.sees_of_atEnd hs] at hsees
    exact absurd hsees Bool.false_ne_true
  · exact hadvance

/-- What is done to the tables is done to both. -/
theorem map (h : e.Like s s') {f : ParseState → ParseState}
    (hf : ∀ (s : ParseState) rest stop functions,
      f { s with rest, stop, functions } = { f s with rest, stop, functions }) :
    e.Like (f s) (f s') := by
  have hsame := hf s s.rest s.stop s.functions
  cases h with
  | @intro rest added hends hadded =>
    have hsame' := hf s rest s.stop (e.before' ++ added)
    change f s = _ at hsame
    change f { s with rest, functions := e.before' ++ added } = _ at hsame'
    rw [hsame', hsame]
    exact .intro (s := { f s with rest := s.rest, stop := s.stop, functions := s.functions }) hends
      hadded

/-- A function that is read in both is added behind those that differ. -/
theorem addFunction (h : e.Like s s') (name : String) (params : List (Nat × Ty)) (result : Ty)
    (body : Node) :
    e.Like (s.addFunction name params result body) (s'.addFunction name params result body) := by
  cases h with
  | @intro rest added hends hadded =>
    let read : Function :=
      ⟨name, .func result (params.map (·.2)), params.map (·.1), s.locals, body⟩
    have hadded' : (s.addFunction name params result body).functions
        = e.before ++ (added ++ [read]) := by
      show s.functions ++ [read] = _
      rw [hadded, List.append_assoc]
    have hboth := Like.intro (e := e) (s := s.addFunction name params result body) hends hadded'
    rw [← List.append_assoc] at hboth
    exact hboth

theorem functionNames (h : e.Like s s') :
    s'.functions.map (·.name) = s.functions.map (·.name) := by
  cases h with
  | intro hends hadded =>
    show (e.before' ++ _).map (·.name) = _
    rw [hadded, List.map_append, e.names, List.map_append]

end Likeness.Like

/-! ### Readers that look at the names of functions -/

namespace Parse

/-- Of the functions, the reader looks at the names at most, and it reads none.  It does not look at
the place where the source ends. -/
def Nominal (p : Parse α) : Prop :=
  ∀ (s : ParseState) stop functions, functions.map (·.name) = s.functions.map (·.name) →
    p.run { s with stop, functions } = (p.run s).map fun r => (r.1, { r.2 with stop, functions })

/-- Such a reader leaves the functions alone, and the place where the source ends. -/
theorem Nominal.keeps {p : Parse α} (h : Nominal p) {a : α} (hrun : p.run s = .ok (a, t)) :
    t.stop = s.stop ∧ t.functions = s.functions := by
  have hsame := h s s.stop s.functions rfl
  rw [show { s with stop := s.stop, functions := s.functions } = s from rfl, hrun] at hsame
  have ht : t = { t with stop := s.stop, functions := s.functions } :=
    (Prod.mk.inj (Except.ok.inj hsame)).2
  have hstop := congrArg ParseState.stop ht
  have hfunctions := congrArg ParseState.functions ht
  exact ⟨hstop, hfunctions⟩

/-- Readers of this kind can be put one behind the other. -/
theorem Nominal.bind {p : Parse α} {f : α → Parse β} (hp : Nominal p) (hf : ∀ a, Nominal (f a)) :
    Nominal (p >>= f) := by
  intro s stop functions hnames
  rw [StateT.run_bind, StateT.run_bind, hp s stop functions hnames]
  cases hrun : p.run s with
  | error failure => rfl
  | ok r =>
    refine hf r.1 r.2 stop functions ?_
    rw [(hp.keeps hrun).2]
    exact hnames

theorem nominal_pure (a : α) : Nominal (pure a : Parse α) := fun _ _ _ _ => rfl

theorem nominal_complainAt (loc : Nat) (cause : Complaint) :
    Nominal (complainAt loc cause : Parse α) := fun _ _ _ _ => rfl

theorem nominal_liftM (r : Except Failure α) : Nominal (liftM r : Parse α) := by
  intro s stop functions _
  cases r with
  | ok a => rfl
  | error failure => rfl

/-- Making array types looks at sizes only. -/
theorem nominal_arrayTypes (elem : Ty) : ∀ dimensions, Nominal (arrayTypes elem dimensions)
  | [] => nominal_pure _
  | (len, loc) :: inner => by
    unfold arrayTypes
    refine (nominal_arrayTypes elem inner).bind fun ty => ?_
    unfold arrayType
    simp only
    split
    · exact nominal_liftM _
    · exact nominal_complainAt _ _

/-- Declaring locals looks at their number only. -/
theorem nominal_declareLocals (ty : Ty) : ∀ names values, Nominal (declareLocals ty names values)
  | [], _ => by
    unfold declareLocals
    exact nominal_pure _
  | declared :: names, values => by
    have hadd : Nominal (addLocal declared.name (declared.ty ty)) := fun _ _ _ _ => rfl
    unfold declareLocals
    refine hadd.bind fun index => (nominal_declareLocals ty names values.tail).bind fun more => ?_
    split
    · exact nominal_pure _
    · exact nominal_pure _

/-- Whether there is a function of a name is a matter of the names. -/
theorem any_name_congr {fs gs : List Function} (h : gs.map (·.name) = fs.map (·.name))
    (name : String) : gs.any (·.name == name) = fs.any (·.name == name) := by
  have hany : ∀ l : List Function,
      l.any (·.name == name) = (l.map (·.name)).any (· == name) := fun l => by
    rw [List.any_map]
    rfl
  rw [hany, hany, h]

/-- A name is free or taken by the names of functions and globals, not by the functions themselves.
-/
theorem nominal_checkSymbol (name : String) (loc : Nat) : Nominal (checkSymbol name loc) := by
  intro s stop functions hnames
  unfold checkSymbol
  split
  · rfl
  · rw [run_bind run_get, run_bind run_get]
    have hdeclared : isDeclared { s with stop, functions } name = isDeclared s name := by
      rw [isDeclared, isDeclared, any_name_congr hnames]
    rw [hdeclared]
    cases isDeclared s name with
    | true => rfl
    | false => rfl

/-- The check looks for a function of the same name, and at nothing else of the functions. -/
theorem nominal_checkFunction (name : String) (loc : Nat) : Nominal (checkFunction name loc) := by
  intro s stop functions hnames
  unfold checkFunction
  rw [run_bind run_get, run_bind run_get, any_name_congr hnames]
  cases s.functions.any (·.name == name) with
  | true => rfl
  | false => exact nominal_checkSymbol name loc s stop functions hnames

/-- Each global is checked like a function, and its value is computed from the globals before it. -/
theorem nominal_declareGlobals (ty : Ty) : ∀ names values, Nominal (declareGlobals ty names values)
  | [], _ => by
    unfold declareGlobals
    exact nominal_pure _
  | declared :: names, values => by
    unfold declareGlobals
    refine (nominal_checkSymbol _ _).bind fun _ => ?_
    have hadd : ∀ added, Nominal (do
        modify (·.addGlobal added)
        declareGlobals ty names values.tail) := fun added =>
      Nominal.bind (p := modify (·.addGlobal added)) (fun _ _ _ _ => rfl)
        fun _ => nominal_declareGlobals ty names values.tail
    cases values with
    | nil => exact hadd _
    | cons value rest =>
      intro s stop functions hnames
      rw [run_bind run_get, run_bind run_get]
      exact (Nominal.bind (nominal_liftM _) fun contents => hadd _) s stop functions hnames

end Parse

/-! ### Steps that are alike -/

/-- The step `y` does what `x` does, in states that are alike. -/
def Step.Likened (e : Likeness) : Step α → Step α → Prop
  | .done a t, y => ∃ t', e.Like t t' ∧ y = .done a t'
  | .fail failure, y => y = .fail failure
  | .call rule s next, y => ∃ s' next', e.Like s s' ∧ y = .call rule s' next'
    ∧ ∀ b t t', e.Like t t' → (next b t).Likened e (next' b t')

namespace Step

theorem likened_done {a : α} (ht : e.Like t t') : (done a t).Likened e (done a t') := ⟨t', ht, rfl⟩

/-- After a call the two go on from results that are the same and states that are alike. -/
theorem likened_call {rule : Rule β} {next next' : β → ParseState → Step α} (hs : e.Like s s')
    (hnext : ∀ b t t', e.Like t t' → (next b t).Likened e (next' b t')) :
    (call rule s next).Likened e (call rule s' next') := ⟨s', next', hs, rfl, hnext⟩

/-- The last rule that a rule calls reads what the rule reads. -/
theorem likened_last {rule : Rule α} (hs : e.Like s s') :
    (call rule s done).Likened e (call rule s' done) := likened_call hs fun _ _ _ => likened_done

theorem likened_complaint {cause : Complaint} (hs : e.Like s s') :
    (fail (.complaint s.loc cause) : Step α).Likened e (fail (.complaint s'.loc cause)) := by
  rw [hs.loc]
  rfl

theorem likened_unexpected (hs : e.Like s s') (wanted : Expected) :
    (fail (s.unexpected wanted) : Step α).Likened e (fail (s'.unexpected wanted)) :=
  congrArg fail (hs.unexpected wanted)

/-- A step that looks for a text goes the same way in both. -/
theorem likened_sees {text : String} {x y x' y' : Step α} (hs : e.Like s s')
    (hx : e.Like s.advance s'.advance → x.Likened e x') (hy : y.Likened e y') :
    (if s.sees text = true then x else y).Likened e (if s'.sees text = true then x' else y') := by
  rw [hs.sees text]
  split
  · next hsees => exact hx (hs.past hsees)
  · exact hy

/-- Both move on over the text, or both complain about the same token. -/
theorem likened_expect {text : String} {next next' : ParseState → Step α} (hs : e.Like s s')
    (hnext : e.Like s.advance s'.advance → (next s.advance).Likened e (next' s'.advance)) :
    (expect text s next).Likened e (expect text s' next') :=
  likened_sees hs hnext (likened_unexpected hs _)

/-- What is computed from the same operands comes out the same. -/
theorem likened_ofResult {r : Except Failure β} {next next' : β → Step α}
    (hnext : ∀ b, (next b).Likened e (next' b)) :
    (ofResult r next).Likened e (ofResult r next') := by
  cases r with
  | ok b => exact hnext b
  | error failure => rfl

/-- A reader that looks at no token, and of functions at their names. -/
theorem likened_ofRun {p : Parse β} {next next' : β → ParseState → Step α} (hblind : p.Blind)
    (hp : p.Nominal) (hs : e.Like s s')
    (hnext : ∀ b t t', e.Like t t' → (next b t).Likened e (next' b t')) :
    (ofRun (p.run s) next).Likened e (ofRun (p.run s') next') := by
  have hnames := hs.functionNames
  cases hs with
  | @intro rest added hends hadded =>
    have hrun := hblind { s with functions := e.before' ++ added } rest
    rw [show p.run { s with functions := e.before' ++ added } = _ from hp s s.stop _ hnames] at hrun
    rw [show p.run { s with rest, functions := e.before' ++ added } = _ from hrun]
    cases hresult : p.run s with
    | error failure => rfl
    | ok r =>
      obtain ⟨b, t⟩ := r
      obtain ⟨hstop, hfunctions⟩ := hp.keeps hresult
      refine hnext b t _ ?_
      rw [← hstop]
      refine .intro ?_ (hfunctions.trans hadded)
      rw [hstop, hblind.rest hresult]
      exact hends

/-- What needs a token to move past does the same, if it does so for each such token. -/
theorem likened_current {x : ParseState → Step α} (wanted : Expected) (hs : e.Like s s')
    (hend : ∀ u : ParseState, u.atEnd = true → x u = fail (u.unexpected wanted))
    (htoken : ∀ token, s.current? = some token → s'.current? = some token →
      e.Like s.advance s'.advance → (x s).Likened e (x s')) : (x s).Likened e (x s') := by
  rcases hs.cases_current with ⟨hs₀, hs₁⟩ | ⟨token, hcurrent, hcurrent', -, hadvance⟩
  · rw [hend s hs₀, hend s' hs₁]
    exact likened_unexpected hs wanted
  · exact htoken token hcurrent hcurrent' hadvance

/-- A name that is read is no end, so it is the same in both. -/
theorem likened_identifier {next : String → Nat → ParseState → Step α} (hs : e.Like s s')
    (hnext : ∀ name loc, e.Like s.advance s'.advance →
      (next name loc s.advance).Likened e (next name loc s'.advance)) :
    (identifier s next).Likened e (identifier s' next) := by
  have hwrong := likened_unexpected (α := α) hs .identifier
  refine likened_current (x := (identifier · next)) .identifier hs (fun u hu => ?_)
    fun token hcurrent hcurrent' hadvance => ?_
  · unfold identifier
    split
    · next hcurrent => cases ParseState.atEnd_eq_true_iff.1 hu _ hcurrent
    · rfl
  · obtain ⟨kind, loc, text⟩ := token
    simp only [identifier, hcurrent, hcurrent']
    cases kind with
    | identifier => exact hnext text loc hadvance
    | _ => exact hwrong

/-- A number that is read is the same in both; one without a value is complained about in both. -/
theorem likened_number {next : Int64 → Nat → ParseState → Step α} (hs : e.Like s s')
    (hnext : ∀ value loc, e.Like s.advance s'.advance →
      (next value loc s.advance).Likened e (next value loc s'.advance)) :
    (number s next).Likened e (number s' next) := by
  have hwrong := likened_unexpected (α := α) hs .number
  refine likened_current (x := (number · next)) .number hs (fun u hu => ?_)
    fun token hcurrent hcurrent' hadvance => ?_
  · unfold number
    split
    · next hcurrent => cases ParseState.atEnd_eq_true_iff.1 hu _ hcurrent
    · next hcurrent => cases ParseState.atEnd_eq_true_iff.1 hu _ hcurrent
    · rfl
  · obtain ⟨kind, loc, text⟩ := token
    simp only [number, hcurrent, hcurrent']
    cases kind with
    | number value =>
      cases value with
      | none => rfl
      | some value => exact hnext value loc hadvance
    | _ => exact hwrong

/-- A literal that is read is the same in both. -/
theorem likened_literal {next : List UInt8 → Ty → ParseState → Step α} (hs : e.Like s s')
    (hnext : ∀ bytes ty, e.Like s.advance s'.advance →
      (next bytes ty s.advance).Likened e (next bytes ty s'.advance)) :
    (literal s next).Likened e (literal s' next) := by
  have hwrong := likened_unexpected (α := α) hs .stringLiteral
  refine likened_current (x := (literal · next)) .stringLiteral hs (fun u hu => ?_)
    fun token hcurrent hcurrent' hadvance => ?_
  · unfold literal
    split
    · next hcurrent => cases ParseState.atEnd_eq_true_iff.1 hu _ hcurrent
    · rfl
  · obtain ⟨kind, loc, text⟩ := token
    simp only [literal, hcurrent, hcurrent']
    cases kind with
    | string bytes ty =>
      cases bytes with
      | none => exact hwrong
      | some bytes =>
        cases ty with
        | none => exact hwrong
        | some ty => exact hnext bytes ty hadvance
    | _ => exact hwrong

end Step

/-! ### Rules that do the same -/

/-- The rule does the same in states that are alike. -/
def Rule.Likens (rule : Rule α) : Prop :=
  ∀ (e : Likeness) (s s' : ParseState), e.Like s s' → (rule.step s).Likened e (rule.step s')

namespace Rule

open Step

/-! ### Expressions -/

theorem likens_expr : expr.Likens := by
  intro e s s' hs
  refine likened_call hs fun node t t' ht => ?_
  refine likened_sees ht (fun hu => ?_) (likened_done ht)
  rw [ht.loc]
  exact likened_call hu fun value v v' hv => likened_done hv

/-- The operands of a level are those of the next one. -/
theorem likens_level (l : Level) : (level l).Likens := by
  intro e s s' hs
  exact likened_call hs fun node t t' ht => likened_last ht

/-- Which operator comes next is the same, and so is the way in which it joins its operands. -/
theorem likens_more (l : Level) (lhs : Node) : (more l lhs).Likens := by
  intro e s s' hs
  rw [step, step, hs.join?, hs.loc]
  cases hjoin : l.join? s with
  | none => exact likened_done hs
  | some join =>
    obtain ⟨text, -, hsees⟩ := Level.exists_sees_of_join? hjoin
    refine likened_call (hs.past hsees) fun rhs t t' ht => ?_
    rw [ht.symbols]
    exact likened_ofResult fun node => likened_last ht

/-- The operators in front of an operand are read one by one. -/
theorem likens_unary : unary.Likens := by
  intro e s s' hs
  rw [step, step, hs.sign?, hs.loc]
  cases hsign : s.sign? with
  | none => exact likened_last hs
  | some sign =>
    obtain ⟨text, -, hsees⟩ := ParseState.exists_sees_of_sign? hsign
    exact likened_call (hs.past hsees) fun node t t' ht => likened_done ht

theorem likens_postfixed : postfixed.Likens := by
  intro e s s' hs
  exact likened_call hs fun node t t' ht => likened_last ht

/-- Every bracket is followed by an expression and another bracket. -/
theorem likens_subscripts (node : Node) : (subscripts node).Likens := by
  intro e s s' hs
  rw [step, step, hs.loc]
  refine likened_sees hs (fun ht => ?_) (likened_done hs)
  refine likened_call ht fun index u u' hu => likened_expect hu fun hv => ?_
  rw [hv.symbols]
  exact likened_ofResult fun place => likened_last hv

/-- A call is refused for its name before anything of it is read. -/
theorem likened_callOf {e : Likeness} (name : String) (loc : Nat) (hs : e.Like s s') :
    (callOf name loc s).Likened e (callOf name loc s') := by
  unfold callOf
  split
  · rfl
  · exact likened_sees hs likened_done (likened_last hs)

/-- What a name refers to is a matter of the scopes, which are the same. -/
theorem likened_useOf {e : Likeness} (name : String) (loc : Nat) (hs : e.Like s s') :
    (useOf name loc s).Likened e (useOf name loc s') := by
  unfold useOf
  rw [hs.scopes]
  cases s.scopes.find? name with
  | some ref => exact likened_done hs
  | none => rfl

/-- There is no primary expression at the end. -/
theorem step_primary_of_atEnd (h : s.atEnd = true) :
    primary.step s = fail (s.unexpected .expression) := by
  have hkind : ∀ kind, s.current?.map Token.kind = some kind → kind = .eof := by
    intro kind hkind
    obtain ⟨token, htoken, rfl⟩ := Option.map_eq_some_iff.1 hkind
    exact ParseState.atEnd_eq_true_iff.1 h token htoken
  rw [step, ParseState.sees_of_atEnd h]
  simp only [Bool.false_eq_true, if_false]
  split
  · next hfound => cases hkind _ hfound
  · next hfound => cases hkind _ hfound
  · next hfound => cases hkind _ hfound
  · rfl

/-- The four kinds of primary expressions are told apart by the next token. -/
theorem likens_primary : primary.Likens := by
  intro e s s' hs
  refine likened_current (x := primary.step) .expression hs (fun _ => step_primary_of_atEnd)
    fun token hcurrent hcurrent' _ => ?_
  refine likened_sees hs (fun ht => ?_) ?_
  · exact likened_call ht fun node u u' hu => likened_expect hu fun hv => likened_done hv
  rw [hcurrent, hcurrent', hs.loc]
  split
  · refine likened_identifier hs fun name loc ht => ?_
    exact likened_sees ht (likened_callOf name loc) (likened_useOf name loc ht)
  · refine likened_literal hs fun bytes ty ht => ?_
    rw [ht.globals]
    exact likened_done (ht.map (f := (·.addLiteral bytes ty)) fun _ _ _ _ => rfl)
  · exact likened_number hs fun value loc ht => likened_done ht
  · exact congrArg fail (hs.unexpected .expression)

/-- The number of arguments that have been read is a parameter of the rule, not of the state. -/
theorem likens_arguments (loc : Nat) (name : String) (args : List Node) :
    (arguments loc name args).Likens := by
  intro e s s' hs
  rw [step, step]
  split
  · refine likened_call hs fun argument t t' ht => ?_
    exact likened_sees ht likened_done (likened_expect ht likened_last)
  · exact likened_complaint hs

/-! ### Declarations -/

theorem likens_stars (count : Nat) : (stars count).Likens := by
  intro e s s' hs
  exact likened_sees hs likened_last (likened_done hs)

theorem likens_names (read : List DeclaredName) : (names read).Likens := by
  intro e s s' hs
  refine likened_call hs fun count t t' ht => likened_identifier ht fun name loc hu => ?_
  exact likened_sees hu likened_last (likened_done hu)

/-- The lengths of arrays are gathered before the type of the elements is read. -/
theorem likens_dimensions (read : List (Int64 × Nat)) : (dimensions read).Likens := by
  intro e s s' hs
  refine likened_sees hs (fun ht => ?_) (likened_done hs)
  exact likened_number ht fun len loc hu => likened_expect hu likened_last

/-- The array types are made from what has been gathered, without looking at tokens. -/
theorem likens_type : type.Likens := by
  intro e s s' hs
  refine likened_call hs fun dimensions t t' ht => likened_call ht fun depth u u' hu => ?_
  have hbase : ∀ base : Ty, e.Like u.advance u'.advance →
      (ofRun ((Parse.arrayTypes base dimensions).run u.advance) done).Likened e
        (ofRun ((Parse.arrayTypes base dimensions).run u'.advance) done) := fun base hv =>
    likened_ofRun (Parse.blind_arrayTypes base dimensions)
      (Parse.nominal_arrayTypes base dimensions)
      hv fun _ _ _ => likened_done
  exact likened_sees hu (hbase _) (likened_sees hu (hbase _) (likened_unexpected hu .type))

theorem likens_values (read : List Node) : (values read).Likens := by
  intro e s s' hs
  exact likened_call hs fun value t t' ht => likened_sees ht likened_last (likened_done ht)

/-- The values are counted when all of them have been read. -/
theorem likens_initializers (count : Nat) : (initializers count).Likens := by
  intro e s s' hs
  refine likened_sees hs (fun ht => ?_) (likened_expect hs likened_done)
  rw [ht.loc]
  refine likened_call ht fun values u u' hu => ?_
  split
  · exact likened_expect hu likened_done
  · rfl

/-- The locals are declared behind the last token of the declaration. -/
theorem likens_declaration (loc : Nat) : (declaration loc).Likens := by
  intro e s s' hs
  refine likened_call hs fun names t t' ht => likened_call ht fun ty u u' hu => ?_
  refine likened_call hu fun values v v' hv => ?_
  exact likened_ofRun (Parse.blind_declareLocals ty names values)
    (Parse.nominal_declareLocals ty names values) hv fun body w w' => likened_done

/-! ### Statements -/

/-- Items are typed with the same tables. -/
theorem likens_items (read : List Node) : (items read).Likens := by
  intro e s s' hs
  have hitem : ∀ (node : Node) (t t' : ParseState), e.Like t t' →
      (ofResult (annotate t.symbols node) fun typed =>
          call (items (read ++ [typed])) t done).Likened e
        (ofResult (annotate t'.symbols node) fun typed =>
          call (items (read ++ [typed])) t' done) := by
    intro node t t' ht
    rw [ht.symbols]
    exact likened_ofResult fun typed => likened_last ht
  rw [step, step, hs.loc]
  refine likened_sees hs likened_done ?_
  exact likened_sees hs (fun ht => likened_call ht hitem) (likened_call hs hitem)

/-- The scope of a block is opened and closed in both. -/
theorem likens_block (loc : Nat) : (block loc).Likens := by
  intro e s s' hs
  refine likened_call (hs.map (f := ParseState.enterScope) fun _ _ _ _ => rfl)
    fun body t t' ht => ?_
  exact likened_done (ht.map (f := ParseState.leaveScope) fun _ _ _ _ => rfl)

theorem likens_exprUnless (text : String) : (exprUnless text).Likens := by
  intro e s s' hs
  refine likened_sees hs (fun _ => likened_done hs) ?_
  exact likened_call hs fun node t t' ht => likened_done ht

/-- The brace that makes the head of a loop empty is found in both or in neither. -/
theorem likens_loopHead : loopHead.Likens := by
  intro e s s' hs
  refine likened_sees hs (fun _ => likened_done hs) (likened_call hs fun first t t' ht => ?_)
  refine likened_sees ht (fun hu => ?_) (likened_done ht)
  refine likened_call hu fun cond v v' hv => likened_expect hv fun hw => ?_
  exact likened_call hw fun step x x' hx => likened_done hx

theorem likened_exprStatement {e : Likeness} (hs : e.Like s s') :
    (exprStatement s).Likened e (exprStatement s') := by
  unfold exprStatement
  rw [hs.loc]
  refine likened_sees hs likened_done ?_
  exact likened_call hs fun value t t' ht => likened_expect ht likened_done

/-- The kinds of statements are told apart by the next token. -/
theorem likens_stmt : stmt.Likens := by
  intro e s s' hs
  rw [step, step, hs.loc]
  refine likened_sees hs (fun ht => ?_) ?_
  · exact likened_call ht fun value u u' hu => likened_expect hu likened_done
  refine likened_sees hs (fun ht => ?_) ?_
  · refine likened_call ht fun cond u u' hu => likened_call hu fun onTrue v v' hv => ?_
    refine likened_sees hv (fun hw => ?_) (likened_done hv)
    exact likened_call hw fun onFalse x x' => likened_done
  refine likened_sees hs (fun ht => ?_) ?_
  · exact likened_call ht fun head u u' hu => likened_call hu fun body v v' => likened_done
  exact likened_sees hs likened_last (likened_exprStatement hs)

/-! ### Functions and globals -/

/-- Each parameter is declared as a local before the next one is read. -/
theorem likens_parameters (read : List (Nat × Ty)) : (parameters read).Likens := by
  intro e s s' hs
  rw [step, step]
  split
  · refine likened_identifier hs fun name loc ht => likened_call ht fun ty u u' hu => ?_
    have hadded := hu.map (f := (·.addLocal { name, ty := ty.decay })) fun _ _ _ _ => rfl
    dsimp only
    rw [hu.locals]
    exact likened_sees hadded likened_done (likened_expect hadded likened_last)
  · exact likened_complaint hs

theorem likens_parameterList : parameterList.Likens := by
  intro e s s' hs
  exact likened_sees hs likened_done (likened_last hs)

/-- The check of the name is the only step that looks at the functions that differ. -/
theorem likens_function : function.Likens := by
  intro e s s' hs
  rw [step, step]
  refine likened_identifier hs fun name loc ht => ?_
  refine likened_ofRun (Parse.blind_checkFunction name loc) (Parse.nominal_checkFunction name loc)
    ht fun _ u u' hu => ?_
  have hopen := hu.map (f := fun u => { u with locals := [] }.enterScope) fun _ _ _ _ => rfl
  refine likened_expect hopen fun hv => likened_call hv fun params w w' hw => ?_
  refine likened_call hw fun result x x' hx => ?_
  rw [hx.loc]
  refine likened_expect hx fun hy => likened_call hy fun body z z' hz => ?_
  rw [hz.locals]
  split
  · have hleave := hz.map (f := ParseState.leaveScope) fun _ _ _ _ => rfl
    exact likened_done (hleave.addFunction name params result body)
  · rfl

/-- The globals are declared behind the last token of the declaration. -/
theorem likens_global : global.Likens := by
  intro e s s' hs
  refine likened_call hs fun names t t' ht => likened_call ht fun ty u u' hu => ?_
  refine likened_call hu fun values v v' hv => ?_
  exact likened_ofRun (Parse.blind_declareGlobals ty names values)
    (Parse.nominal_declareGlobals ty names values) hv fun _ w w' => likened_done

/-- A declaration is one of a function or one of globals. -/
theorem likens_topLevel : topLevel.Likens := by
  intro e s s' hs
  refine likened_sees hs likened_last ?_
  exact likened_sees hs likened_last (likened_unexpected hs .topLevel)

end Rule

/-- **Every rule does the same in states that are alike.** -/
theorem Rule.likens (rule : Rule α) : rule.Likens := by
  cases rule with
  | expr => exact likens_expr
  | level l => exact likens_level l
  | more l lhs => exact likens_more l lhs
  | unary => exact likens_unary
  | postfixed => exact likens_postfixed
  | subscripts node => exact likens_subscripts node
  | primary => exact likens_primary
  | arguments loc name args => exact likens_arguments loc name args
  | stars count => exact likens_stars count
  | names read => exact likens_names read
  | dimensions read => exact likens_dimensions read
  | type => exact likens_type
  | values read => exact likens_values read
  | initializers count => exact likens_initializers count
  | declaration loc => exact likens_declaration loc
  | items read => exact likens_items read
  | block loc => exact likens_block loc
  | exprUnless text => exact likens_exprUnless text
  | loopHead => exact likens_loopHead
  | stmt => exact likens_stmt
  | parameters read => exact likens_parameters read
  | parameterList => exact likens_parameterList
  | function => exact likens_function
  | global => exact likens_global
  | topLevel => exact likens_topLevel

/-! ### Runs that are alike -/

/-- **A result is the same**, and the states behind it are alike. -/
theorem Step.Yields.like {x : Step α} {a : α} (h : x.Yields a t) :
    ∀ {y : Step α}, x.Likened e y → ∃ t', e.Like t t' ∧ y.Yields a t' := by
  induction h with
  | done =>
    rintro y ⟨t', ht, rfl⟩
    exact ⟨t', ht, .done⟩
  | @call _ _ rule s t u next b a _ _ ihrule ihnext =>
    rintro y ⟨s', next', hs, rfl, hlike⟩
    obtain ⟨t', ht, hrule'⟩ := ihrule (rule.likens e s s' hs)
    obtain ⟨u', hu, hnext'⟩ := ihnext (hlike b t t' ht)
    exact ⟨u', hu, .call hrule' hnext'⟩

/-- **A failure is the same.** -/
theorem Step.Fails.like {x : Step α} {failure : Failure} (h : x.Fails failure) :
    ∀ {y : Step α}, x.Likened e y → y.Fails failure := by
  induction h with
  | fail =>
    rintro y rfl
    exact .fail
  | @inside _ _ rule s next _ ih =>
    rintro y ⟨s', next', hs, rfl, -⟩
    exact .inside (ih (rule.likens e s s' hs))
  | @behind _ _ rule s t next b hrule _ ih =>
    rintro y ⟨s', next', hs, rfl, hlike⟩
    obtain ⟨t', ht, hrule'⟩ := hrule.like (rule.likens e s s' hs)
    exact .behind hrule' (ih (hlike b t t' ht))

/-- **Declaration after declaration is the same.** -/
theorem ParseState.Units.like (h : s.Units t) :
    ∀ {s'}, e.Like s s' → ∃ t', e.Like t t' ∧ s'.Units t' := by
  induction h with
  | refl => exact fun hs => ⟨_, hs, .refl⟩
  | @next s t u hend hread _ ih =>
    intro s' hs
    obtain ⟨t', ht, hread'⟩ := hread.like (Rule.topLevel.likens e s s' hs)
    obtain ⟨u', hu, hmore⟩ := ih ht
    exact ⟨u', hu, .next (hs.atEnd.trans hend) hread' hmore⟩

end PocketCompiler
