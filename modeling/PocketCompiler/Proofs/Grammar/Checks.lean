import PocketCompiler.Proofs.Grammar.Rule

/-!
# Checks

Much of what a rule does reads no token: it types an expression, joins two operands, declares a name,
or computes the initial value of a global.  If this fails, a check has failed (`Failure.IsCheck`):
what stops reading is neither a token that the grammar does not want nor a name that is undefined.
-/

namespace PocketCompiler

variable {α β : Type} {s : ParseState}

/-! ### Operands -/

/-- Typing the operands first fails in a check at most. -/
theorem Join.checks_typed {combine : Node → Node → Nat → Except Failure Node}
    (hcombine : ∀ lhs rhs loc, Ends (combine lhs rhs loc) (fun _ => True) Failure.IsCheck)
    (symbols : Symbols) (lhs rhs : Node) (loc : Nat) :
    Ends (Join.typed combine symbols lhs rhs loc) (fun _ => True) Failure.IsCheck :=
  (ends_untyped_annotate symbols lhs).bind fun lhs _ =>
    (ends_untyped_annotate symbols rhs).bind fun rhs _ => hcombine lhs rhs loc

/-- Whether operands can be added is a check. -/
theorem Node.checks_sum (lhs rhs : Node) (loc : Nat) :
    Ends (Node.sum lhs rhs loc) (fun _ => True) Failure.IsCheck := by
  unfold Node.sum
  split <;> simp [Failure.IsCheck]

/-- Whether operands can be subtracted is a check. -/
theorem Node.checks_difference (lhs rhs : Node) (loc : Nat) :
    Ends (Node.difference lhs rhs loc) (fun _ => True) Failure.IsCheck := by
  unfold Node.difference
  split <;> simp [Failure.IsCheck]

/-- Joining operands looks at no token, so only a check can fail. -/
theorem Level.checks_join {l : Level} {join : Join} (h : l.join? s = some join)
    (symbols : Symbols) (lhs rhs : Node) (loc : Nat) :
    Ends (join symbols lhs rhs loc) (fun _ => True) Failure.IsCheck := by
  cases l with
  | sum =>
    simp only [join?] at h
    split at h
    · obtain rfl := Option.some.inj h
      exact Join.checks_typed Node.checks_sum symbols lhs rhs loc
    · split at h
      · obtain rfl := Option.some.inj h
        exact Join.checks_typed Node.checks_difference symbols lhs rhs loc
      · exact nomatch h
  | equality | relational | product =>
    obtain ⟨combine, -, rfl⟩ := Option.map_eq_some_iff.1 h
    trivial

/-! ### Readers -/

/-- If the reader fails, a check has failed. -/
def Parse.Checks (p : Parse α) : Prop := ∀ s, Ends (p.run s) (fun _ => True) Failure.IsCheck

namespace Parse

/-- Two readers that fail in checks at most do so together. -/
theorem Checks.bind {p : Parse α} {f : α → Parse β} (hp : Checks p) (hf : ∀ a, Checks (f a)) :
    Checks (p >>= f) := by
  intro s
  rw [StateT.run_bind]
  exact (hp s).bind fun r _ => hf r.1 r.2

theorem checks_pure (a : α) : Checks (pure a : Parse α) := fun _ => trivial

/-- Looking at the state does not fail. -/
theorem checks_get : Checks (get : Parse ParseState) := fun _ => trivial

/-- Changing the state does not fail. -/
theorem checks_modify (f : ParseState → ParseState) : Checks (modify f : Parse PUnit) :=
  fun _ => trivial

theorem checks_complainAt {loc : Nat} {cause : Complaint}
    (h : (Failure.complaint loc cause).IsCheck) : Checks (complainAt loc cause : Parse α) :=
  fun _ => h

theorem checks_liftM {r : Except Failure α} (h : Ends r (fun _ => True) Failure.IsCheck) :
    Checks (liftM r : Parse α) := by
  intro s
  cases r with
  | ok a => trivial
  | error failure => exact h

/-- Whether an array is too large is a check. -/
theorem checks_arrayTypes (elem : Ty) : ∀ dimensions, Checks (arrayTypes elem dimensions)
  | [] => checks_pure _
  | (len, loc) :: inner => by
    refine (checks_arrayTypes elem inner).bind fun ty => ?_
    unfold arrayType
    simp only
    split
    · exact checks_liftM (checks_orFault _)
    · exact checks_complainAt trivial

/-- Declaring locals does not fail. -/
theorem checks_declareLocals (ty : Ty) (names : List DeclaredName) (values : List Node) :
    Checks (declareLocals ty names values) := by
  intro s
  rw [run_declareLocals]
  trivial

/-- Whether a global may have a name is a check. -/
theorem checks_checkSymbol (name : String) (loc : Nat) : Checks (checkSymbol name loc) := by
  unfold checkSymbol
  split
  · exact checks_complainAt trivial
  · refine checks_get.bind fun s => ?_
    split
    · exact checks_complainAt trivial
    · exact checks_pure _

/-- Whether a function may have a name is a check. -/
theorem checks_checkFunction (name : String) (loc : Nat) : Checks (checkFunction name loc) := by
  unfold checkFunction
  refine checks_get.bind fun s => ?_
  split
  · exact checks_complainAt trivial
  · exact checks_checkSymbol name loc

/-- Whether an expression is constant is a check. -/
theorem checks_fold (node : Node) : Ends (fold node) (fun _ => True) Failure.IsCheck := by
  induction node using fold.induct with
  | case1 mark value => trivial
  | case2 mark operand ih => exact ih.bind fun _ _ => trivial
  | case3 mark op lhs rhs ihl ihr =>
    refine ihl.bind fun a _ => ihr.bind fun b _ => ?_
    cases op with
    | div =>
      show Ends (if b = 0 then _ else _) _ _
      split
      · trivial
      · trivial
    | _ => trivial
  | case4 node h1 h2 h3 =>
    rw [fold.eq_4 node h1 h2 h3]
    trivial

/-- Whether an initial value fits its global is a check. -/
theorem checks_contentsFor (globals : List Variable) (init : Node) (ty : Ty) :
    Ends (contentsFor globals init ty) (fun _ => True) Failure.IsCheck := by
  unfold contentsFor
  split
  · unfold literalContents
    repeat' split
    all_goals simp [Failure.IsCheck]
  · split
    · exact (checks_fold init).bind fun _ _ => trivial
    · simp [Failure.IsCheck]

/-- Globals are declared by checks and computations alone. -/
theorem checks_declareGlobals (ty : Ty) : ∀ names values, Checks (declareGlobals ty names values)
  | [], _ => checks_pure _
  | declared :: names, values => by
    unfold declareGlobals
    refine (checks_checkSymbol _ _).bind fun _ => ?_
    have hadd : ∀ added, Checks (do
        modify (·.addGlobal added)
        declareGlobals ty names values.tail) := fun added =>
      (checks_modify _).bind fun _ => checks_declareGlobals ty names values.tail
    cases values with
    | nil => exact hadd _
    | cons value rest =>
      exact checks_get.bind fun s => (checks_liftM (checks_contentsFor _ _ _)).bind fun _ => hadd _

end Parse

end PocketCompiler
