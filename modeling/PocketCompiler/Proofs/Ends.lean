import PocketCompiler.Complaint

/-!
# How a computation ends

A computation of the compiler gives a result or stops with an error.  `Ends r good bad` says of
both at once what is known: a result satisfies `good`, and an error satisfies `bad`.  It is what
the proofs about reading, typing and lowering are stated with, since each of them needs the
results to be well-formed and the errors to be of a certain kind.

A computation with a state is looked at through `run`, so the rules below are enough for it too:
running a sequence is a sequence of runs.
-/

namespace PocketCompiler

universe u v w

variable {ε : Type u} {α : Type v} {β : Type w}

/-- A result satisfies `good`, and an error satisfies `bad`. -/
def Ends (r : Except ε α) (good : α → Prop) (bad : ε → Prop) : Prop :=
  match r with
  | .ok a => good a
  | .error e => bad e

variable {good good' : α → Prop} {bad bad' : ε → Prop}

@[simp] theorem ends_ok {a : α} : Ends (.ok a : Except ε α) good bad ↔ good a := Iff.rfl

@[simp] theorem ends_error {e : ε} : Ends (.error e : Except ε α) good bad ↔ bad e := Iff.rfl

@[simp] theorem ends_pure {a : α} : Ends (pure a : Except ε α) good bad ↔ good a := Iff.rfl

/-- What is known of an end may be said more weakly. -/
theorem Ends.imp {r : Except ε α} (h : Ends r good bad) (hgood : ∀ a, good a → good' a)
    (hbad : ∀ e, bad e → bad' e) : Ends r good' bad' := by
  cases r with
  | ok a => exact hgood a h
  | error e => exact hbad e h

/-- What is known of a result may be said more weakly. -/
theorem Ends.imp_good {r : Except ε α} (h : Ends r good bad) (hgood : ∀ a, good a → good' a) :
    Ends r good' bad :=
  h.imp hgood fun _ he => he

/-- A result with a property is a result. -/
theorem Ends.exists_ok {r : Except ε α} (h : Ends r good fun _ => False) :
    ∃ a, r = .ok a ∧ good a := by
  cases r with
  | ok a => exact ⟨a, rfl, h⟩
  | error e => exact h.elim

/-- What is known of a computation holds of its result. -/
theorem Ends.of_eq_ok {r : Except ε α} {a : α} (h : Ends r good bad) (hr : r = .ok a) :
    good a := by
  rw [hr] at h
  exact h

/-- What is known of a computation holds of its error. -/
theorem Ends.of_eq_error {r : Except ε α} {e : ε} (h : Ends r good bad) (hr : r = .error e) :
    bad e := by
  rw [hr] at h
  exact h

theorem eq_ok_of_toOption_eq_some {r : Except ε α} {a : α} (h : r.toOption = some a) :
    r = .ok a := by
  cases r with
  | ok b => exact congrArg _ (Option.some.inj h)
  | error e => exact nomatch h

section Sequence

variable {γ : Type v} {after : γ → Prop}

/-- **Sequence**: the second computation starts from what is known of the first one's result. -/
theorem Ends.bind {r : Except ε α} {f : α → Except ε γ} (h : Ends r good bad)
    (hf : ∀ a, good a → Ends (f a) after bad) : Ends (r >>= f) after bad := by
  cases r with
  | ok a => exact hf a h
  | error e => exact h

/-- A sequence has a result exactly when both of its parts have one. -/
theorem bind_eq_ok_iff {r : Except ε α} {f : α → Except ε γ} {c : γ} :
    (r >>= f) = .ok c ↔ ∃ a, r = .ok a ∧ f a = .ok c := by
  cases r with
  | ok a =>
    constructor
    · exact fun h => ⟨a, rfl, h⟩
    · rintro ⟨b, hb, hc⟩
      rw [Except.ok.inj hb]
      exact hc
  | error e =>
    constructor
    · exact fun h => nomatch h
    · rintro ⟨b, hb, -⟩
      exact nomatch hb

/-- The image of a computation has a result exactly when the computation has one. -/
theorem map_eq_ok_iff {r : Except ε α} {f : α → β} {c : β} :
    r.map f = .ok c ↔ ∃ a, r = .ok a ∧ f a = c := by
  cases r with
  | ok a => simp [Except.map]
  | error e => simp [Except.map]

end Sequence

/-! ### Faults and complaints -/

/-- A failure that is a mistake in the program being compiled. -/
def Failure.IsComplaint : Failure → Prop
  | .complaint _ _ => True
  | .fault _ => False

@[simp] theorem Failure.isComplaint_complaint (loc : Nat) (cause : Complaint) :
    (Failure.complaint loc cause).IsComplaint := trivial

theorem Failure.isComplaint_iff {failure : Failure} :
    failure.IsComplaint ↔ ∃ loc cause, failure = .complaint loc cause := by
  constructor
  · intro h
    cases failure with
    | complaint loc cause => exact ⟨loc, cause, rfl⟩
    | fault _ => exact h.elim
  · rintro ⟨loc, cause, rfl⟩
    trivial

end PocketCompiler
