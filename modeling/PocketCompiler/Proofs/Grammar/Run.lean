import PocketCompiler.Grammar.Unit
import PocketCompiler.Proofs.Ends

/-!
# Running readers

What the readers of single tokens do, as equations of `run`.  Each depends on the current token
alone: `ParseState.sees` asks whether it is a certain punctuator or keyword, and
`ParseState.lookup` looks it up in a table of operators.  Readers that only declare or check look at
no token at all (`Parse.Blind`).
-/

namespace PocketCompiler

/-! ### The current token -/

/-- Whether the current token is the punctuator or keyword `text`. -/
def ParseState.sees (s : ParseState) (text : String) : Bool := s.current?.any (·.reads text)

/-- What a table says of the current token, if it is a punctuator. -/
def ParseState.lookup {α : Type} (s : ParseState) (table : List (String × α)) : Option α :=
  match s.current? with
  | some ⟨.punctuator, _, text⟩ => table.lookup text
  | _ => none

variable {s t : ParseState}

/-- A text that is seen is that of the current token. -/
theorem ParseState.exists_of_sees {text : String} (h : s.sees text = true) :
    ∃ token, s.current? = some token ∧ token.reads text = true :=
  (Option.any_eq_true _ _).1 h

/-- Where a text is seen, the tokens do not end. -/
theorem ParseState.atEnd_eq_false_of_sees {text : String} (h : s.sees text = true) :
    s.atEnd = false := by
  obtain ⟨⟨kind, loc, name⟩, hcurrent, hreads⟩ := exists_of_sees h
  rw [atEnd, hcurrent]
  cases kind with
  | eof => exact absurd hreads Bool.false_ne_true
  | _ => rfl

/-- A text that is found in a table is that of a punctuator. -/
theorem ParseState.exists_of_lookup {α : Type} {table : List (String × α)} {a : α}
    (h : s.lookup table = some a) :
    ∃ loc text, s.current? = some ⟨.punctuator, loc, text⟩ ∧ table.lookup text = some a := by
  unfold ParseState.lookup at h
  split at h
  · next loc text htoken => exact ⟨loc, text, htoken, h⟩
  · exact nomatch h

/-- A token in front of the others is the current one. -/
theorem ParseState.rest_of_current? {token : Token} (h : s.current? = some token) :
    s.rest = token :: s.advance.rest := by
  unfold ParseState.current? at h
  unfold ParseState.advance
  cases hrest : s.rest with
  | nil => rw [hrest] at h; exact nomatch h
  | cons first rest =>
    rw [hrest] at h
    rw [Option.some.inj h]
    rfl

/-- Behind the current token one token less is left. -/
theorem ParseState.length_advance {token : Token} (h : s.current? = some token) :
    s.advance.rest.length + 1 = s.rest.length := by
  rw [rest_of_current? h, List.length_cons]

theorem ParseState.length_advance_of_sees {text : String} (h : s.sees text = true) :
    s.advance.rest.length + 1 = s.rest.length := by
  obtain ⟨token, htoken, -⟩ := exists_of_sees h
  exact length_advance htoken

/-- The complaint that the current token is not what is wanted. -/
def ParseState.unexpected (s : ParseState) (wanted : Expected) : Failure :=
  .complaint s.loc (.unexpected wanted (Token.describe? s.current?))

namespace Parse

variable {α β : Type}

/-! ### Sequences -/

/-- Behind a reader that gives a result, the second reader goes on in the state it leaves. -/
theorem run_bind {p : Parse α} {f : α → Parse β} {a : α} (h : p.run s = .ok (a, t)) :
    (p >>= f).run s = (f a).run t := by
  rw [StateT.run_bind, h]
  rfl

/-- Behind a reader that fails nothing is read. -/
theorem run_bind_error {p : Parse α} {f : α → Parse β} {failure : Failure}
    (h : p.run s = .error failure) : (p >>= f).run s = .error failure := by
  rw [StateT.run_bind, h]
  rfl

/-! ### Tokens -/

theorem run_remaining : remaining.run s = .ok (s.rest.length, s) := rfl

/-- Looking at the current token does not move past it. -/
theorem run_check (text : String) : (check text).run s = .ok (s.sees text, s) := rfl

/-- A text that is there is moved past. -/
theorem run_accept_true {text : String} (h : s.sees text = true) :
    (accept text).run s = .ok (true, s.advance) := by
  unfold accept
  rw [run_bind (run_check text), h]
  rfl

/-- A text that is not there is left to others. -/
theorem run_accept_false {text : String} (h : s.sees text = false) :
    (accept text).run s = .ok (false, s) := by
  unfold accept
  rw [run_bind (run_check text), h]
  rfl

theorem run_expect {text : String} (h : s.sees text = true) :
    (expect text).run s = .ok ((), s.advance) := by
  unfold expect
  rw [run_bind (run_accept_true h)]
  rfl

/-- A text that has to be there and is not is a complaint about the token that is. -/
theorem run_expect_error {text : String} (h : s.sees text = false) :
    (expect text).run s = .error (s.unexpected (.lexeme text)) := by
  unfold expect
  rw [run_bind (run_accept_false h)]
  rfl

theorem run_get : (get : Parse ParseState).run s = .ok (s, s) := rfl

/-- An operator of the table is moved past. -/
theorem run_operator_some {table : List (String × α)} {a : α} (h : s.lookup table = some a) :
    (operator table).run s = .ok (some a, s.advance) := by
  obtain ⟨loc, text, htoken, ha⟩ := ParseState.exists_of_lookup h
  unfold operator
  rw [run_bind run_get, htoken]
  simp only [ha]
  rfl

/-- What is not in the table is left to others. -/
theorem run_operator_none {table : List (String × α)} (h : s.lookup table = none) :
    (operator table).run s = .ok (none, s) := by
  unfold ParseState.lookup at h
  unfold operator
  rw [run_bind run_get]
  split
  · next loc text htoken =>
    rw [htoken] at h
    simp only at h
    rw [h]
    rfl
  · rfl

theorem run_identifier {loc : Nat} {name : String}
    (h : s.current? = some ⟨.identifier, loc, name⟩) :
    identifier.run s = .ok ((name, loc), s.advance) := by
  unfold identifier
  rw [run_bind run_get, h]
  rfl

theorem run_number {value : Int64} {loc : Nat} {text : String}
    (h : s.current? = some ⟨.number (some value), loc, text⟩) :
    number.run s = .ok ((value, loc), s.advance) := by
  unfold number
  rw [run_bind run_get, h]
  rfl

theorem run_literal {bytes : List UInt8} {ty : Ty} {loc : Nat} {text : String}
    (h : s.current? = some ⟨.string (some bytes) (some ty), loc, text⟩) :
    literal.run s = .ok ((bytes, ty), s.advance) := by
  unfold literal
  rw [run_bind run_get, h]
  rfl

/-! ### Readers that look at no token -/

/-- The reader looks at no token and moves past none: it does the same with any tokens. -/
def Blind (p : Parse α) : Prop :=
  ∀ s rest, p.run { s with rest } = (p.run s).map fun r => (r.1, { r.2 with rest })

/-- A reader that looks at no token moves past none. -/
theorem Blind.rest {p : Parse α} (h : Blind p) {a : α} (hrun : p.run s = .ok (a, t)) :
    t.rest = s.rest := by
  have hsame := h s s.rest
  rw [show { s with rest := s.rest } = s from rfl, hrun] at hsame
  have hrest := congrArg ParseState.rest (Prod.mk.inj (Except.ok.inj hsame)).2
  exact hrest

/-- Two readers that look at no token look at none together. -/
theorem Blind.bind {p : Parse α} {f : α → Parse β} (hp : Blind p) (hf : ∀ a, Blind (f a)) :
    Blind (p >>= f) := by
  intro s rest
  rw [StateT.run_bind, StateT.run_bind, hp s rest]
  cases p.run s with
  | error failure => rfl
  | ok r => exact hf r.1 r.2 rest

theorem blind_pure (a : α) : Blind (pure a : Parse α) := fun _ _ => rfl

theorem blind_complainAt (loc : Nat) (cause : Complaint) : Blind (complainAt loc cause : Parse α) :=
  fun _ _ => rfl

theorem blind_liftM (r : Except Failure α) : Blind (liftM r : Parse α) := by
  intro s rest
  cases r with
  | ok a => rfl
  | error failure => rfl

theorem blind_arrayType (elem : Ty) (len : Int64) (loc : Nat) : Blind (arrayType elem len loc) := by
  unfold arrayType
  simp only
  split
  · exact blind_liftM _
  · exact blind_complainAt _ _

theorem blind_arrayTypes (elem : Ty) : ∀ dimensions, Blind (arrayTypes elem dimensions)
  | [] => blind_pure _
  | (len, loc) :: inner => by
    unfold arrayTypes
    exact (blind_arrayTypes elem inner).bind fun ty => blind_arrayType ty len loc

theorem blind_addLocal (name : String) (ty : Ty) : Blind (addLocal name ty) := fun _ _ => rfl

/-- Locals are declared by what has been read, without looking further. -/
theorem blind_declareLocals (ty : Ty) : ∀ names values, Blind (declareLocals ty names values)
  | [], _ => by
    unfold declareLocals
    exact blind_pure _
  | declared :: names, values => by
    unfold declareLocals
    refine (blind_addLocal _ _).bind fun index => ?_
    refine (blind_declareLocals ty names values.tail).bind fun more => ?_
    split
    · exact blind_pure _
    · exact blind_pure _

/-- Whether a name may be declared is seen from the tables. -/
theorem blind_checkSymbol (name : String) (loc : Nat) : Blind (checkSymbol name loc) := by
  intro s rest
  unfold checkSymbol
  split
  · rfl
  · rw [run_bind run_get, run_bind run_get]
    have hdeclared : isDeclared { s with rest } name = isDeclared s name := rfl
    rw [hdeclared]
    cases isDeclared s name with
    | true => rfl
    | false => rfl

theorem blind_checkFunction (name : String) (loc : Nat) : Blind (checkFunction name loc) := by
  intro s rest
  unfold checkFunction
  rw [run_bind run_get, run_bind run_get]
  show StateT.run (if s.functions.any _ then _ else _) _ = _
  cases s.functions.any (·.name == name) with
  | true => rfl
  | false => exact blind_checkSymbol name loc s rest

/-- Globals are declared by what has been read, without looking further. -/
theorem blind_declareGlobals (ty : Ty) : ∀ names values, Blind (declareGlobals ty names values)
  | [], _ => by
    unfold declareGlobals
    exact blind_pure _
  | declared :: names, values => by
    unfold declareGlobals
    refine (blind_checkSymbol _ _).bind fun _ => ?_
    have hadd : ∀ added, Blind (do
        modify (·.addGlobal added)
        declareGlobals ty names values.tail) := fun added =>
      Blind.bind (p := modify (·.addGlobal added)) (fun _ _ => rfl)
        fun _ => blind_declareGlobals ty names values.tail
    cases values with
    | nil => exact hadd _
    | cons value rest =>
      intro s tokens
      rw [run_bind run_get, run_bind run_get]
      exact (Blind.bind (blind_liftM _) fun contents => hadd _) s tokens

/-! ### Declaring -/

/-- A type is made without a look at the state. -/
theorem state_of_run_arrayTypes {elem ty : Ty} :
    ∀ {dimensions : List (Int64 × Nat)} {s t : ParseState},
      (arrayTypes elem dimensions).run s = .ok (ty, t) → t = s := by
  intro dimensions
  induction dimensions generalizing ty with
  | nil => exact fun h => (Prod.mk.inj (Except.ok.inj h)).2.symm
  | cons first inner ih =>
    intro s t h
    rw [arrayTypes, StateT.run_bind] at h
    obtain ⟨⟨made, u⟩, hmade, hrun⟩ := bind_eq_ok_iff.1 h
    obtain rfl := ih hmade
    change (arrayType made first.1 first.2).run u = _ at hrun
    unfold arrayType at hrun
    simp only at hrun
    split at hrun
    · cases harray : made.arrayOf first.1.toInt with
      | error fault => rw [harray] at hrun; exact nomatch hrun
      | ok array => rw [harray] at hrun; exact (Prod.mk.inj (Except.ok.inj hrun)).2.symm
    · exact nomatch hrun

/-- A check declares nothing. -/
theorem state_of_run_checkSymbol {name : String} {loc : Nat} {u : Unit}
    (h : (checkSymbol name loc).run s = .ok (u, t)) : t = s := by
  unfold checkSymbol at h
  split at h
  · exact nomatch h
  · rw [run_bind run_get] at h
    split at h
    · exact nomatch h
    · exact (Prod.mk.inj (Except.ok.inj h)).2.symm

/-- A check declares nothing. -/
theorem state_of_run_checkFunction {name : String} {loc : Nat} {u : Unit}
    (h : (checkFunction name loc).run s = .ok (u, t)) : t = s := by
  unfold checkFunction at h
  rw [run_bind run_get] at h
  split at h
  · exact nomatch h
  · exact state_of_run_checkSymbol h

/-- The locals that names of a declaration of type `ty` stand for. -/
def DeclaredName.toLocal (ty : Ty) (declared : DeclaredName) : Variable :=
  { name := declared.name, ty := declared.ty ty }

/-- The statements that initialize locals from index `index` on. -/
def initializations (index : Nat) : List DeclaredName → List Node → List Node
  | declared :: names, value :: values =>
    initialized index declared.loc value :: initializations (index + 1) names values
  | _, _ => []

/-- Without values nothing is assigned. -/
theorem initializations_nil (index : Nat) (names : List DeclaredName) :
    initializations index names [] = [] := by
  cases names <;> rfl

/-- Declaring locals declares them one after the other and initializes those with values. -/
theorem run_declareLocals (ty : Ty) : ∀ (names : List DeclaredName) (values : List Node)
    (s : ParseState), (declareLocals ty names values).run s
      = .ok (initializations s.locals.length names values,
          (names.map (DeclaredName.toLocal ty)).foldl ParseState.addLocal s)
  | [], _, _ => rfl
  | declared :: names, values, s => by
    have hlength : (s.addLocal (declared.toLocal ty)).locals.length = s.locals.length + 1 := by
      rw [ParseState.addLocal, List.length_append, List.length_singleton]
    have hmore := run_declareLocals ty names values.tail (s.addLocal (declared.toLocal ty))
    rw [hlength] at hmore
    rw [declareLocals]
    refine (run_bind (p := addLocal declared.name (declared.ty ty)) rfl).trans ?_
    refine (run_bind hmore).trans ?_
    cases values with
    | nil =>
      rw [initializations_nil]
      show Except.ok (initializations _ names [], _) = _
      rw [initializations_nil]
      rfl
    | cons value values => rfl

/-- The globals that are declared have the names and types of the declaration. -/
theorem exists_of_run_declareGlobals {ty : Ty} : ∀ {names : List DeclaredName} {values : List Node}
    {s t : ParseState} {u : Unit}, (declareGlobals ty names values).run s = .ok (u, t) →
      ∃ added : List Variable, t = added.foldl ParseState.addGlobal s
        ∧ added.map (·.name) = names.map (·.name)
        ∧ ∀ v ∈ added, ∃ d ∈ names, v.ty = d.ty ty
  | [], _, _, _, _, h =>
    ⟨[], (Prod.mk.inj (Except.ok.inj h)).2.symm, rfl, fun _ hv => absurd hv List.not_mem_nil⟩
  | declared :: names, values, s, t, u, h => by
    rw [declareGlobals, StateT.run_bind] at h
    obtain ⟨⟨_, s'⟩, hcheck, hrun⟩ := bind_eq_ok_iff.1 h
    obtain rfl := state_of_run_checkSymbol hcheck
    -- With an initial value or without one, the first global is added and the others follow.
    have hmore : ∀ contents, (declareGlobals ty names values.tail).run
        (s'.addGlobal ⟨declared.name, declared.ty ty, contents⟩) = .ok (u, t) →
          ∃ added : List Variable, t = added.foldl ParseState.addGlobal s'
            ∧ added.map (·.name) = (declared :: names).map (·.name)
            ∧ ∀ v ∈ added, ∃ d ∈ declared :: names, v.ty = d.ty ty := by
      intro contents hrest
      obtain ⟨added, hadded, hnames, htypes⟩ := exists_of_run_declareGlobals hrest
      refine ⟨_ :: added, hadded, ?_, fun v hv => ?_⟩
      · rw [List.map_cons, List.map_cons, hnames]
      · rcases List.mem_cons.1 hv with rfl | hv
        · exact ⟨declared, List.mem_cons_self, rfl⟩
        · obtain ⟨found, hfound, hty⟩ := htypes v hv
          exact ⟨found, List.mem_cons_of_mem _ hfound, hty⟩
    cases values with
    | nil => exact hmore none hrun
    | cons value values =>
      dsimp only at hrun
      rw [run_bind run_get] at hrun
      cases hcontents : contentsFor s'.globals value (declared.ty ty) with
      | error failure => rw [hcontents] at hrun; exact nomatch hrun
      | ok contents => rw [hcontents] at hrun; exact hmore (some contents) hrun

end Parse

end PocketCompiler
