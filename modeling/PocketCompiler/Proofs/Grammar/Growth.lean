import PocketCompiler.Proofs.Grammar.Inversion

/-!
# Tables only grow

Whatever is read, the globals and functions that have been declared stay, and new ones come behind
them (`ParseState.Units.before`).  A declaration of a function adds one function, and one of globals
adds none (`ParseState.ReadsFunction.exists_functions`, `ParseState.ReadsGlobals.exists_globals`).
-/

namespace PocketCompiler

/-- `t` has the globals and functions of `s`, in front of its others. -/
structure ParseState.Before (s t : ParseState) : Prop where
  globals : s.globals <+: t.globals
  functions : s.functions <+: t.functions

namespace ParseState

variable {s t u : ParseState}

theorem Before.refl (s : ParseState) : s.Before s := ⟨List.prefix_refl _, List.prefix_refl _⟩

theorem Before.trans (h : s.Before t) (h' : t.Before u) : s.Before u :=
  ⟨h.globals.trans h'.globals, h.functions.trans h'.functions⟩

/-! ### Functions -/

/-- Up to the end of its body, a function is read like anything else inside a declaration. -/
theorem ReadsFunction.exists_functions (h : s.ReadsFunction t) :
    t.rest <:+ s.rest ∧ s.globals <+: t.globals ∧ ∃ f, t.functions = s.functions ++ [f]
      ∧ (Parse.frameBytes? f.locals).any (· ≤ maxObjectSize) = true := by
  obtain @⟨name, loc, params, result, body, t, u, v, -, -, hparams, hresult, hbody, hroom⟩ := h
  have hread := steady_leads.trans (steady_leads.trans (hparams.leads rfl) (hresult.leads rfl))
    (steady_leads.trans (steady_leads.advance _) (hbody.leads rfl))
  have hfunctions : v.functions = s.functions := hread.functions
  refine ⟨?_, hread.globals,
    ⟨name, .func result (params.map (·.2)), params.map (·.1), v.locals, body⟩, ?_, hroom⟩
  · exact hread.rest.trans ((List.tail_suffix _).trans (List.tail_suffix _))
  · rw [← hfunctions]
    rfl

/-! ### Globals -/

/-- A declaration of globals adds them behind the literals of its values. -/
theorem ReadsGlobals.exists_globals (h : s.ReadsGlobals t) :
    t.rest <:+ s.rest ∧ s.globals <+: t.globals ∧ t.functions = s.functions := by
  obtain ⟨hnames, hty, hvalues, hdeclare⟩ := h
  obtain ⟨added, rfl, -⟩ := Parse.exists_of_run_declareGlobals hdeclare
  have hread := steady_leads.trans (steady_leads.trans (hnames.leads rfl) (hty.leads rfl))
    (hvalues.leads rfl)
  obtain ⟨scopes, hglobals⟩ := exists_foldl_addGlobal added _
  rw [hglobals]
  exact ⟨hread.rest, hread.globals.trans (List.prefix_append _ _), hread.functions⟩

/-! ### Whole programs -/

theorem before_of_yields (h : (Rule.topLevel.step s).Yields () t) : s.Before t := by
  rcases reads_of_yields h with ⟨-, hread⟩ | ⟨-, hread⟩
  · obtain ⟨-, hglobals, f, hfunctions, -⟩ := hread.exists_functions
    exact ⟨hglobals, hfunctions ▸ List.prefix_append _ _⟩
  · obtain ⟨-, hglobals, hfunctions⟩ := hread.exists_globals
    exact ⟨hglobals, hfunctions ▸ List.prefix_refl _⟩

theorem rest_of_yields (h : (Rule.topLevel.step s).Yields () t) : t.rest <:+ s.rest := by
  rcases reads_of_yields h with ⟨-, hread⟩ | ⟨-, hread⟩
  · exact hread.exists_functions.1.trans (List.tail_suffix _)
  · exact hread.exists_globals.1.trans (List.tail_suffix _)

/-- **Tables only grow** while a program is read. -/
theorem Units.before (h : s.Units t) : s.Before t := by
  induction h with
  | refl => exact .refl _
  | next _ hread _ ih => exact (before_of_yields hread).trans ih

/-- What holds of every function that is read holds of all functions in the end. -/
theorem Units.forall_functions {p : Function → Prop} (h : s.Units t)
    (hread : ∀ u v : ParseState, u.rest <:+ s.rest → u.sees "func" = true →
      u.advance.ReadsFunction v → ∀ f, v.functions = u.functions ++ [f] → p f)
    (hs : ∀ f ∈ s.functions, p f) : ∀ f ∈ t.functions, p f := by
  -- The tokens are carried along because only functions of this reading have the property.
  have hinside : t.rest <:+ s.rest ∧ ∀ f ∈ t.functions, p f := by
    apply h.keeps (p := fun u => u.rest <:+ s.rest ∧ ∀ f ∈ u.functions, p f) _
      ⟨List.suffix_refl _, hs⟩
    rintro u v ⟨hu, hp⟩ hyields
    refine ⟨(rest_of_yields hyields).trans hu, fun f hf => ?_⟩
    rcases reads_of_yields hyields with ⟨hfunc, hfunction⟩ | ⟨-, hglobals⟩
    · obtain ⟨-, -, g, hfunctions, -⟩ := hfunction.exists_functions
      rw [hfunctions] at hf
      rcases List.mem_append.1 hf with hf | hf
      · exact hp f hf
      · rw [List.mem_singleton.1 hf]
        exact hread u v hu hfunc hfunction g hfunctions
    · rw [hglobals.exists_globals.2.2] at hf
      exact hp f hf
  exact hinside.2

end ParseState

end PocketCompiler
