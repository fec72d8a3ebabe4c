import PocketCompiler.Proofs.Grammar.Resolution
import PocketCompiler.Proofs.Grammar.Undefined

/-!
# Lexical scoping

A name means the declaration that `Resolver` finds from the tokens alone.  This module puts together
what is known of the rules: what holds of every declaration of a source holds of the program
(`ParseState.Resolved`), and reading stops because a name is undefined where the resolver finds no
declaration, and nowhere else (`Source.lexicallyScoped`).
-/

namespace PocketCompiler

variable {all : List Token} {s t u : ParseState}

/-- **Every rule resolves names as the resolver does.** -/
theorem Contract.holds_scoping (all : List Token) : (Contract.scoping all).Holds := by
  intro α rule s hs
  cases rule with
  | expr => exact Rule.resolves_expr s hs
  | level l => exact Rule.resolves_level l s hs
  | more l lhs => exact Rule.resolves_more l lhs s hs
  | unary => exact Rule.resolves_unary s hs
  | postfixed => exact Rule.resolves_postfixed s hs
  | subscripts node => exact Rule.resolves_subscripts node s hs
  | primary => exact Rule.resolves_primary s hs
  | arguments loc name args => exact Rule.resolves_arguments loc name args s hs
  | stars count => exact Rule.resolves_stars count s hs
  | names read => exact Rule.resolves_names read s hs
  | dimensions read => exact Rule.resolves_dimensions read s hs
  | type => exact Rule.resolves_type s hs
  | values read => exact Rule.resolves_values read s hs
  | initializers count => exact Rule.resolves_initializers count s hs
  | declaration loc => exact Rule.resolves_declaration loc s hs
  | items read => exact Rule.resolves_items read s hs
  | block loc => exact Rule.resolves_block loc s hs
  | exprUnless text => exact Rule.resolves_exprUnless text s hs
  | loopHead => exact Rule.resolves_loopHead s hs
  | stmt => exact Rule.resolves_stmt s hs
  | parameters read => exact Rule.resolves_parameters read s hs
  | parameterList => exact Rule.resolves_parameterList s hs
  | function => exact Rule.resolves_function s hs
  | global => exact Rule.resolves_global s hs
  | topLevel => exact Rule.resolves_topLevel s hs

/-! ### From declarations to programs -/

/-- What holds behind every declaration of a source. -/
structure ParseState.Resolved (all : List Token) (t : ParseState) : Prop where
  between : Between all t
  outside : (t.resolver all).depth = 0
  stand : ∀ f ∈ t.functions, AllStand all ⟨f.locals, t.globals⟩ f.body.vars
  /-- The uses in front of here that are in a function are in its tree. -/
  uses : ∀ before token after k, UseIn all before token after → t.rest.length ≤ after.length →
    (Resolver.after before).place = some k → ∃ f, t.functions[k]? = some f
      ∧ ∃ ref, (Resolver.after before).find? token.text = some ref ∧ (token.loc, ref) ∈ f.body.vars

theorem resolved_start (source : Source) (tokens : List Token) :
    (source.start tokens).Resolved tokens := by
  have hresolver : (source.start tokens).resolver tokens = .after [] :=
    ParseState.resolver_eq (List.nil_append tokens).symm
  rw [Resolver.after_nil] at hresolver
  refine ⟨⟨?_, ?_, ?_⟩, ?_, fun f hf => absurd hf List.not_mem_nil, ?_⟩
  · rw [hresolver]
    exact ⟨List.suffix_refl _, rfl, rfl, rfl, rfl, rfl, fun d hd => absurd hd List.not_mem_nil⟩
  · rw [hresolver]
  · rw [hresolver]
  · rw [hresolver]
  · intro before token after k huse hlength
    rw [huse.split, List.length_append, List.length_cons] at hlength
    omega

/-- One more declaration. -/
theorem ParseState.Resolved.declares (hs : s.Resolved all) (h : Declares all s t) :
    t.Resolved all := by
  -- A declaration adds at most one function, behind those that are there.
  have hprefix : s.functions <+: t.functions := by
    rcases h.read with ⟨hfunctions, -⟩ | ⟨f, hfunctions, -⟩
    · exact ⟨[], by rw [hfunctions, List.append_nil]⟩
    · exact ⟨[f], hfunctions.symm⟩
  have hstand : ∀ f ∈ s.functions, AllStand all ⟨f.locals, t.globals⟩ f.body.vars := fun f hf =>
    (hs.stand f hf).extend ⟨List.prefix_refl _, h.globals⟩
  refine ⟨h.between, h.outside, ?_, ?_⟩
  · rcases h.read with ⟨hfunctions, -⟩ | ⟨f, hfunctions, hf, -⟩
    · rw [hfunctions]
      exact hstand
    · rw [hfunctions]
      exact fun g hg => (List.mem_append.1 hg).elim (hstand g) fun hg => List.mem_singleton.1 hg ▸ hf
  · intro before token after k huse hlength hplace
    rcases Nat.lt_or_ge after.length s.rest.length with hlt | hge
    · -- The use is in the declaration, so this is the function of the place.
      rcases h.read with ⟨-, vars, hcovers⟩ | ⟨f, hfunctions, -, hcovers⟩
      · have hnone := (hcovers before token after huse hlength hlt).1
        exact nomatch hplace.symm.trans hnone
      · obtain ⟨hsome, huse⟩ := hcovers before token after huse hlength hlt
        obtain rfl := Option.some.inj (hsome.symm.trans hplace)
        refine ⟨f, ?_, huse⟩
        rw [hfunctions]
        exact List.getElem?_concat_length
    -- The use stands in front of the declaration, and its function is where it was.
    · obtain ⟨f, hf, huse⟩ := hs.uses before token after k huse hge hplace
      have hf' := entry_of_isPrefix hprefix (entry_eq_ok_iff.2 hf)
      exact ⟨f, entry_eq_ok_iff.1 hf', huse⟩

theorem ParseState.Units.resolved {source : Source} {tokens : List Token}
    (h : (source.start tokens).Units t) : t.Resolved tokens := by
  refine h.keeps (fun s t hs hread => ?_) (resolved_start source tokens)
  have henters : (Contract.scoping tokens).pre .topLevel s := ⟨hs.between, hs.outside⟩
  exact hs.declares (Contract.Holds.yields (Contract.holds_scoping tokens) henters hread)

/-- The uses behind the declarations that have been read are in none of their functions. -/
theorem UseIn.functions_le {before after : List Token} {token : Token}
    (h : UseIn all before token after) (ht : t.rest <:+ all)
    (hlength : after.length < t.rest.length) :
    (t.resolver all).functions ≤ (Resolver.after before).functions := by
  obtain ⟨front, hfront⟩ := ht
  have hlengths := congrArg List.length (hfront.trans h.split)
  simp only [List.length_append, List.length_cons] at hlengths
  have hprefix : front <+: before :=
    List.prefix_of_prefix_length_le ⟨_, hfront⟩ ⟨_, h.split.symm⟩ (by omega)
  obtain ⟨middle, rfl⟩ := hprefix
  rw [ParseState.resolver_eq hfront.symm, Resolver.after, Resolver.after, List.foldl_append]
  exact Resolver.functions_le_foldl middle _

/-! ### Uses that are come to -/

/-- Reading the tokens of a source comes to a primary expression in the state `u`. -/
def Source.ComesTo (source : Source) (tokens : List Token) (u : ParseState) : Prop :=
  ∃ s, (source.start tokens).Units s ∧ s.atEnd = false ∧ (Rule.topLevel.step s).Reaches (· = u)

/-- An expression can stand where a primary expression is come to. -/
theorem Source.ComesTo.ready {source : Source} {tokens : List Token} (h : source.ComesTo tokens u) :
    Ready tokens u := by
  obtain ⟨s, hunits, -, hreaches⟩ := h
  have hs := hunits.resolved
  have hmeets := Contract.holds_scoping tokens .topLevel s ⟨hs.between, hs.outside⟩
  obtain ⟨found, ⟨rfl, hready, -⟩, -⟩ :=
    (hreaches.meets (Contract.holds_scoping tokens) hmeets).exists
  exact hready

/-- Whoever fails at a primary expression stops there. -/
theorem Source.ComesTo.stops {source : Source} {tokens : List Token} (h : source.ComesTo tokens u)
    {failure : Failure} (hfails : (Rule.primary.step u).Fails failure) {program : Program}
    {found : Option Failure} (hread : readUnits source tokens = (program, found)) :
    found = some failure := by
  obtain ⟨s, hunits, hend, hreaches⟩ := h
  have hstops : s.StopsAt (some failure) := ⟨hend, hreaches.fails fun v hv => hv ▸ hfails⟩
  have hread' : readUnits source tokens = (s.program, some failure) :=
    readUnits_eq_iff.2 ⟨s, hunits, hstops, rfl⟩
  exact (Prod.mk.inj (hread.symm.trans hread')).2

/-- Whoever stops because a name is undefined has come to its use. -/
theorem Source.comesTo_of_undefined {source : Source} {tokens : List Token} {program : Program}
    {loc : Nat} {name : String}
    (h : readUnits source tokens = (program, some (.complaint loc (.undefinedVariable name)))) :
    ∃ u, source.ComesTo tokens u ∧ u.SeesUndefined loc name := by
  obtain ⟨s, hunits, ⟨hend, hfails⟩, -⟩ := readUnits_eq_iff.1 h
  have hother : ¬ Rule.topLevel.IsPrimary := fun h => h
  obtain ⟨u, hu, hreaches⟩ := (hfails.reaches (Rule.quiet hother s)).exists
  exact ⟨u, ⟨s, hunits, hend, hreaches⟩, hu⟩

/-- A use that is come to is a use by the tokens alone. -/
theorem Source.ComesTo.useIn {source : Source} {tokens after : List Token} {token : Token}
    (h : source.ComesTo tokens u) (hrest : u.rest = token :: after)
    (hkind : token.kind = .identifier) (hcall : after.head?.any (·.reads "(") = false) :
    ∃ before, UseIn tokens before token after ∧ u.resolver tokens = .after before := by
  obtain ⟨before, hbefore⟩ := h.ready.tracks.suffix
  have hresolver := ParseState.resolver_eq hbefore.symm
  refine ⟨before, ⟨?_, hkind, ?_, hcall⟩, hresolver⟩
  · rw [← hbefore, hrest]
  · rw [← hresolver]
    exact h.ready.reading

/-! ### Sources -/

/-- The place of a token tells which of the tokens it is. -/
theorem split_unique {before after before' after' : List Token} {token token' : Token}
    (hsorted : all.Pairwise (·.loc < ·.loc)) (h : all = before ++ token :: after)
    (h' : all = before' ++ token' :: after') (hloc : token.loc = token'.loc) :
    before = before' ∧ token = token' ∧ after = after' := by
  have hnodup : (all.map (·.loc)).Nodup :=
    List.pairwise_map.2 (hsorted.imp fun hlt => Nat.ne_of_lt hlt)
  have hget : (all.map (·.loc))[before.length]? = some token.loc := by
    rw [h, List.getElem?_map, List.getElem?_append_right (Nat.le_refl _), Nat.sub_self]
    rfl
  have hget' : (all.map (·.loc))[before'.length]? = some token'.loc := by
    rw [h', List.getElem?_map, List.getElem?_append_right (Nat.le_refl _), Nat.sub_self]
    rfl
  have hindex : before.length < (all.map (·.loc)).length := (List.getElem?_eq_some_iff.1 hget).1
  have hlength : before.length = before'.length :=
    (List.getElem?_inj hindex hnodup).1 (by rw [hget, hget', hloc])
  obtain ⟨hbefore, hrest⟩ := List.append_inj (h.symm.trans h') hlength
  exact ⟨hbefore, List.cons.inj hrest⟩

/-- The names of a source mean what the resolver says. -/
structure LexicallyScoped (source : Source) (tokens : List Token) (program : Program)
    (failure : Option Failure) : Prop where
  /-- The text of a token is that of the source at its place. -/
  texts : ∀ token ∈ tokens,
    slice? token.loc token.length source.text.toList = some token.text.toList
  /-- What the resolver finds is a declaration of the innermost block that declares the name. -/
  innermost : ∀ before name ref, (Resolver.after before).find? name = some ref →
    ∃ d ∈ (Resolver.after before).declared, d.name = name ∧ d.ref = ref
      ∧ ∀ other ∈ (Resolver.after before).declared, other.name = name → other.depth ≤ d.depth
  /-- A use in a function of the program is in its tree at its place, as the variable that the
  resolver finds and as no other. -/
  uses : ∀ before token after k f, UseIn tokens before token after →
    (Resolver.after before).place = some k → program.functions[k]? = some f →
      ∃ ref, (Resolver.after before).find? token.text = some ref
        ∧ ∀ other, (token.loc, other) ∈ f.body.vars ↔ other = ref
  /-- A variable in a tree is at the place of an identifier that is its name, or of a string
  literal. -/
  stand : ∀ f ∈ program.functions, AllStand tokens ⟨f.locals, program.globals⟩ f.body.vars
  /-- A name that reading comes to in an expression, and that is not called, is a use.  It is read as
  the variable that the resolver finds, and reading stops there because it is undefined if and only
  if the resolver finds none. -/
  reached : ∀ u token after, source.ComesTo tokens u → u.rest = token :: after →
    token.kind = .identifier → after.head?.any (·.reads "(") = false →
      ∃ before, UseIn tokens before token after
        ∧ (∀ ref, (Resolver.after before).find? token.text = some ref →
          (Parse.primary Parse.expr).run u = .ok (.var ⟨token.loc, none⟩ ref, u.advance))
        ∧ (failure = some (.complaint token.loc (.undefinedVariable token.text))
          ↔ (Resolver.after before).find? token.text = none)
  /-- Reading stops because a name is undefined at a use that it comes to, and nowhere else. -/
  undefined : ∀ loc name, failure = some (.complaint loc (.undefinedVariable name)) →
    ∃ u before after, source.ComesTo tokens u ∧ u.rest = ⟨.identifier, loc, name⟩ :: after
      ∧ UseIn tokens before ⟨.identifier, loc, name⟩ after
      ∧ (Resolver.after before).find? name = none

/-- **Names are scoped lexically.** -/
theorem Source.lexicallyScoped {source : Source} {tokens : List Token} {program : Program}
    {failure : Option Failure} (htokens : source.tokenize = .ok tokens)
    (hread : readUnits source tokens = (program, failure)) :
    LexicallyScoped source tokens program failure := by
  have hsorted := source.pairwise_tokenize htokens
  obtain ⟨t, hunits, -, rfl⟩ := readUnits_eq_iff.1 hread
  have ht := hunits.resolved
  -- Where reading stops at an undefined variable, the resolver knows no declaration either.
  have hundefined : ∀ loc name, failure = some (.complaint loc (.undefinedVariable name)) →
      ∃ u before after, source.ComesTo tokens u ∧ u.rest = ⟨.identifier, loc, name⟩ :: after
        ∧ UseIn tokens before ⟨.identifier, loc, name⟩ after
        ∧ (Resolver.after before).find? name = none := by
    rintro loc name rfl
    obtain ⟨u, hcomes, hu⟩ := Source.comesTo_of_undefined hread
    have hrest := ParseState.rest_of_current? hu.token
    obtain ⟨before, huse, hresolver⟩ := hcomes.useIn hrest rfl hu.notCall
    refine ⟨u, before, _, hcomes, hrest, huse, ?_⟩
    rw [← hresolver, ← hcomes.ready.tracks.find?]
    exact hu.unbound
  refine ⟨?_, fun _ _ _ => Resolver.exists_innermost_of_find?, ?_, ht.stand, ?_, hundefined⟩
  -- The tokens are slices of the text.
  · exact fun token htoken => ((ends_tokenize source).of_eq_ok htokens token htoken).slice
  -- A use in a function that has been read lies in front of where reading stops.
  · intro before token after k f huse hplace hf
    have hpassed : t.rest.length ≤ after.length := by
      by_contra hlength
      have hle := huse.functions_le ht.between.tracks.suffix (Nat.lt_of_not_le hlength)
      have hk : k < t.functions.length := (List.getElem?_eq_some_iff.1 hf).1
      rw [ht.between.tracks.functions] at hle
      unfold Resolver.place at hplace
      split at hplace
      · exact nomatch hplace
      · obtain rfl := Option.some.inj hplace
        omega
    -- The use is a variable of the body, and no other variable stands at its place.
    obtain ⟨g, hg, ref, hfind, hmem⟩ := ht.uses before token after k huse hpassed hplace
    obtain rfl := Option.some.inj (hg.symm.trans hf)
    refine ⟨ref, hfind, fun other => ⟨fun hother => ?_, fun hother => hother ▸ hmem⟩⟩
    obtain ⟨before', token', after', v, hsplit, hloc, -, hkind⟩ :=
      ht.stand g (List.mem_of_getElem? hg) _ hother
    obtain ⟨rfl, rfl, rfl⟩ := split_unique hsorted hsplit huse.split hloc
    rcases hkind with ⟨-, -, hother⟩ | ⟨⟨bytes, ty, hstring⟩, -⟩
    · exact Option.some.inj ((hother huse).symm.trans hfind)
    · exact nomatch hstring.symm.trans huse.kind
  -- Where reading comes to a use, the scopes and the resolver look up the same name.
  · intro u token after hcomes hrest hkind hcall
    obtain ⟨before, huse, hresolver⟩ := hcomes.useIn hrest hkind hcall
    obtain ⟨kind, loc, name⟩ := token
    obtain rfl : kind = .identifier := hkind
    have htoken : u.current? = some ⟨.identifier, loc, name⟩ := by
      rw [ParseState.current?, hrest]
      rfl
    have hafter : u.advance.rest = after := by
      rw [ParseState.advance, hrest]
      rfl
    have hnotCall : u.advance.sees "(" = false := by
      rw [ParseState.sees, ParseState.current?, hafter]
      exact hcall
    have hfind : u.scopes.find? name = (Resolver.after before).find? name := by
      rw [← hresolver]
      exact hcomes.ready.tracks.find? name
    refine ⟨before, huse, fun ref href => ?_, fun hfailure => ?_, fun hnone => ?_⟩
    · refine Rule.primary.run_eq_ok_iff.2 ?_
      have hfound : u.advance.scopes.find? name = some ref := hfind.trans href
      rw [Rule.step_primary_of_use htoken hnotCall, Step.useOf, hfound]
      exact .done
    · obtain ⟨_, before', after', -, -, huse', hnone⟩ := hundefined loc name hfailure
      obtain ⟨rfl, -, -⟩ := split_unique hsorted huse'.split huse.split rfl
      exact hnone
    · have hundef : u.SeesUndefined loc name := ⟨htoken, hnotCall, hfind.trans hnone⟩
      refine hcomes.stops ?_ hread
      rw [hundef.step_primary]
      exact .fail

/-- Names that are declared again: a local whose initial value is the global of its name, and two
locals of an inner block that start with one another's outer bindings.  The parameter of the first
function is not visible in the second. -/
def Source.shadows : Source :=
  ⟨"shadows", "var x int; func f(y int) int \x7b var x int = x + y; "
    ++ "\x7b var y, x int = x, y; y = x; \x7d return x; \x7d func g() int \x7b return y; \x7d"⟩

theorem Source.lexicallyScoped_shadows :
    ∃ tokens program failure, Source.shadows.tokenize = .ok tokens
      ∧ readUnits Source.shadows tokens = (program, failure)
      ∧ program.functions.map (·.body.vars)
        = [[(35, .localVar 1), (43, .globalVar 0), (47, .localVar 0), (56, .localVar 2),
          (67, .localVar 1), (59, .localVar 3), (70, .localVar 0), (73, .localVar 2),
          (77, .localVar 3), (89, .localVar 1)]]
      ∧ failure = some (.complaint 116 (.undefinedVariable "y"))
      ∧ LexicallyScoped Source.shadows tokens program failure := by
  have hread : (Source.shadows.tokenize.toOption.map fun tokens =>
      ((readUnits Source.shadows tokens).1.functions.map (·.body.vars),
        (readUnits Source.shadows tokens).2))
      = some ([[(35, .localVar 1), (43, .globalVar 0), (47, .localVar 0), (56, .localVar 2),
          (67, .localVar 1), (59, .localVar 3), (70, .localVar 0), (73, .localVar 2),
          (77, .localVar 3), (89, .localVar 1)]],
        some (.complaint 116 (.undefinedVariable "y"))) := by decide +kernel
  obtain ⟨tokens, htokens, hread⟩ := Option.map_eq_some_iff.1 hread
  have htokens := eq_ok_of_toOption_eq_some htokens
  obtain ⟨hvars, hfailure⟩ := Prod.mk.inj hread
  exact ⟨tokens, _, _, htokens, rfl, hvars, hfailure, Source.lexicallyScoped htokens rfl⟩

end PocketCompiler
