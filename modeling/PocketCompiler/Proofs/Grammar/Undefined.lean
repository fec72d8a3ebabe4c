import PocketCompiler.Proofs.Grammar.Checks
import PocketCompiler.Proofs.Grammar.Readers

/-!
# Only a use can be undefined

Reading stops with many complaints, and one of them is that a name is undefined.  `Step.Quiet` says
that a rule does not make this complaint itself.  All rules are quiet but that of primary
expressions, and the complaint of that one comes from the use of a name alone
(`Rule.quiet_primary_or`).  So whoever stops with the complaint has come to such a use
(`Step.Fails.reaches`).
-/

namespace PocketCompiler

variable {α β : Type} {s : ParseState}

/-! ### Rules -/

namespace Step

/-- The rule does not complain itself that a name is undefined. -/
def Quiet : Step α → Prop
  | .done _ _ => True
  | .fail failure => failure.NotOfName
  | .call _ _ next => ∀ b t, (next b t).Quiet

@[simp] theorem quiet_done (a : α) (t : ParseState) : (done a t).Quiet := trivial

@[simp] theorem quiet_complaint {loc : Nat} {cause : Complaint} :
    (fail (.complaint loc cause) : Step α).Quiet ↔ ∀ name, cause ≠ .undefinedVariable name := by
  constructor
  · exact fun h name hcause => h loc name (by rw [hcause])
  · exact fun h found name heq => h name (Failure.complaint.inj heq).2

@[simp] theorem quiet_unexpected (wanted : Expected) :
    (fail (s.unexpected wanted) : Step α).Quiet := by
  rw [ParseState.unexpected, quiet_complaint]
  simp

@[simp] theorem quiet_call {rule : Rule β} {next : β → ParseState → Step α} :
    (call rule s next).Quiet ↔ ∀ b t, (next b t).Quiet := Iff.rfl

@[simp] theorem quiet_ite {p : Prop} [Decidable p] {x y : Step α} :
    (if p then x else y).Quiet ↔ (p → x.Quiet) ∧ (¬ p → y.Quiet) := by
  split <;> simp_all

theorem quiet_ofResult {r : Except Failure β} {next : β → Step α}
    (hr : Ends r (fun _ => True) Failure.IsCheck) (hnext : ∀ b, (next b).Quiet) :
    (ofResult r next).Quiet := by
  cases r with
  | ok b => exact hnext b
  | error failure => exact hr.notOfName

theorem quiet_ofRun {p : Parse β} {next : β → ParseState → Step α} (hp : p.Checks)
    (hnext : ∀ b t, (next b t).Quiet) : (ofRun (p.run s) next).Quiet := by
  have hrun := hp s
  cases h : p.run s with
  | ok r => exact hnext r.1 r.2
  | error failure =>
    rw [h] at hrun
    exact hrun.notOfName

@[simp] theorem quiet_expect {text : String} {next : ParseState → Step α}
    (hnext : ∀ t, (next t).Quiet) : (expect text s next).Quiet := by
  unfold expect
  split
  · exact hnext _
  · exact quiet_unexpected _

@[simp] theorem quiet_identifier {next : String → Nat → ParseState → Step α}
    (hnext : ∀ name loc t, (next name loc t).Quiet) : (identifier s next).Quiet := by
  unfold identifier
  split
  · exact hnext _ _ _
  · exact quiet_unexpected _

@[simp] theorem quiet_number {next : Int64 → Nat → ParseState → Step α}
    (hnext : ∀ value loc t, (next value loc t).Quiet) : (number s next).Quiet := by
  unfold number
  split
  · exact hnext _ _ _
  · simp
  · exact quiet_unexpected _

@[simp] theorem quiet_literal {next : List UInt8 → Ty → ParseState → Step α}
    (hnext : ∀ bytes ty t, (next bytes ty t).Quiet) : (literal s next).Quiet := by
  unfold literal
  split
  · exact hnext _ _ _
  · exact quiet_unexpected _

end Step

/-- The rule of primary expressions. -/
def Rule.IsPrimary : Rule α → Prop
  | .primary => True
  | _ => False

open Step in
/-- **Every rule but that of primary expressions is quiet.** -/
theorem Rule.quiet {rule : Rule α} (h : ¬ rule.IsPrimary) (s : ParseState) : (rule.step s).Quiet := by
  -- Apart from the calls a rule fails in a check, or at a token that is not expected.
  cases rule with
  | primary => exact absurd trivial h
  | more l lhs =>
    rw [step]
    split
    · trivial
    · next join hjoin =>
      exact fun rhs t => quiet_ofResult (Level.checks_join hjoin _ _ _ _) fun _ => by simp
  | unary =>
    rw [step]
    split <;> simp
  | subscripts node =>
    simp only [step, quiet_ite, quiet_call, quiet_done, implies_true, and_true]
    exact fun _ index t => quiet_expect fun u =>
      quiet_ofResult (Join.checks_typed Node.checks_sum _ _ _ _) fun _ => by simp
  | type =>
    simp only [step, quiet_call, quiet_ite]
    intro dimensions t depth u
    refine ⟨fun _ => ?_, fun _ => ⟨fun _ => ?_, fun _ => quiet_unexpected _⟩⟩
    · exact quiet_ofRun (Parse.checks_arrayTypes _ _) fun _ _ => quiet_done _ _
    · exact quiet_ofRun (Parse.checks_arrayTypes _ _) fun _ _ => quiet_done _ _
  | declaration loc =>
    simp only [step, quiet_call]
    exact fun names t ty u values v =>
      quiet_ofRun (Parse.checks_declareLocals _ _ _) fun _ _ => quiet_done _ _
  -- An item is typed before it is gathered, and typing fails in a check at most.
  | items read =>
    have hitem : ∀ (node : Node) (t : ParseState), (Step.ofResult (annotate t.symbols node)
        fun typed => .call (.items (read ++ [typed])) t .done).Quiet := fun node t =>
      quiet_ofResult ((ends_untyped_annotate _ _).imp_good fun _ _ => trivial) fun _ => by simp
    simp only [step, quiet_ite, quiet_call, quiet_done, hitem, implies_true, and_self]
  | function =>
    rw [step]
    refine quiet_identifier fun name loc t => ?_
    refine quiet_ofRun (Parse.checks_checkFunction name loc) fun _ u => ?_
    refine quiet_expect fun v => ?_
    simp
  | global =>
    simp only [step, quiet_call]
    exact fun names t ty u values v =>
      quiet_ofRun (Parse.checks_declareGlobals _ _ _) fun _ _ => quiet_done _ _
  | stmt =>
    rw [step, exprStatement]
    simp
  | _ =>
    rw [step]
    simp

/-! ### Uses -/

/-- The use of a name is next, and the name has no declaration. -/
structure ParseState.SeesUndefined (s : ParseState) (loc : Nat) (name : String) : Prop where
  token : s.current? = some ⟨.identifier, loc, name⟩
  notCall : s.advance.sees "(" = false
  unbound : s.scopes.find? name = none

/-- A name that is not called is used. -/
theorem Rule.step_primary_of_use {loc : Nat} {name : String}
    (htoken : s.current? = some ⟨.identifier, loc, name⟩) (hcall : s.advance.sees "(" = false) :
    Rule.primary.step s = .useOf name loc s.advance := by
  have hopen : s.sees "(" = false := by
    rw [ParseState.sees, htoken]
    rfl
  simp only [step, hopen, Bool.false_eq_true, if_false, htoken, Option.map_some, Step.identifier,
    hcall]

theorem ParseState.SeesUndefined.step_primary {loc : Nat} {name : String}
    (h : s.SeesUndefined loc name) :
    Rule.primary.step s = .fail (.complaint loc (.undefinedVariable name)) := by
  have hunbound : s.advance.scopes.find? name = none := h.unbound
  rw [Rule.step_primary_of_use h.token h.notCall, Step.useOf, hunbound]

open Step in
/-- A primary expression is quiet, or it is a use without a declaration. -/
theorem Rule.quiet_primary_or (s : ParseState) :
    (primary.step s).Quiet ∨ ∃ loc name, s.SeesUndefined loc name := by
  by_cases huse : ∃ loc name, s.SeesUndefined loc name
  · exact .inr huse
  refine .inl (quiet_ite.2 ⟨fun _ => by simp, fun _ => ?_⟩)
  split
  · unfold identifier
    split
    · next loc name htoken =>
      refine quiet_ite.2 ⟨fun _ => by simp [callOf], fun hcall => ?_⟩
      unfold useOf
      split
      · trivial
      · next hfind => exact absurd ⟨loc, name, htoken, eq_false_of_ne_true hcall, hfind⟩ huse
    · exact quiet_unexpected _
  · simp
  · simp
  · exact quiet_unexpected _

/-- **Whoever stops because a name is undefined has come to its use.** -/
theorem Step.Fails.reaches {loc : Nat} {name : String} {x : Step α}
    (h : x.Fails (.complaint loc (.undefinedVariable name))) (hx : x.Quiet) :
    x.Reaches fun s => s.SeesUndefined loc name := by
  induction h with
  | fail => exact absurd rfl (hx loc name)
  | behind hrule _ ih => exact .behind hrule (ih (hx _ _))
  | @inside _ _ rule s next hrule ih =>
    cases rule with
    | primary =>
      rcases Rule.quiet_primary_or s with hquiet | ⟨loc', name', hs⟩
      · exact .inside (ih hquiet)
      · rw [hs.step_primary] at hrule
        cases hrule
        exact .here hs
    | _ =>
      refine .inside (ih (Rule.quiet ?_ s))
      exact fun h => h

end PocketCompiler
