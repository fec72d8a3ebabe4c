import PocketCompiler.Proofs.Grammar.Scoping

/-!
# Every rule resolves names as the resolver does

`Rule.Enters` says where the resolver is when a rule starts, and `Rule.Leaves` where it is when the
rule is done and which variables stand in what was read.  Expressions leave the resolver where it is
(`Scans`).  A declaration makes its names visible behind the semicolon, and blocks and functions open
and close what the resolver opens and closes at the braces.
-/

namespace PocketCompiler

open Parse (DeclaredName)

variable {all : List Token} {r : Resolver} {s t u : ParseState}

/-! ### Single tokens -/

/-- The symbol that a string literal gets is seen to be one. -/
theorem Symbol.isLiteral_ofLiteral (number : Nat) : isLiteral (ofLiteral number) = true := by
  rw [isLiteral, ofLiteral, String.toList_append, String.toList_ofList]
  exact List.isPrefixOf_iff_prefix.2 (List.prefix_append _ _)

/-- A name inside an expression does not change what the resolver expects. -/
theorem Resolver.stepName_of_reading (hr : r.Reading) (name : String) : r.stepName name = r := by
  rcases hr with hr | hr <;> rw [stepName, hr]

/-- What the resolver finds is in the tables under its name. -/
theorem Tracks.get_of_find? (h : Tracks all r s) {name : String} {ref : VarRef}
    (hfind : r.find? name = some ref) : ∃ v, s.symbols.get ref = .ok v ∧ v.name = name := by
  obtain ⟨d, hd, rfl⟩ := Option.map_eq_some_iff.1 hfind
  obtain ⟨v, hget, hname⟩ := (h.named d (List.mem_of_find?_eq_some hd)).get
  have hd' := List.find?_some hd
  exact ⟨v, hget, hname.trans (eq_of_beq hd')⟩

/-- A name that is called is no use. -/
theorem Ready.called (hs : Ready all s) {loc : Nat} {name : String}
    (htoken : s.current? = some ⟨.identifier, loc, name⟩) (hcall : s.advance.sees "(" = true) :
    Scans all s s.advance [] [] :=
  .advance hs.tracks htoken (Resolver.stepName_of_reading hs.reading name) hs.tracks rfl
    (fun _ _ => hcall) (allStand_nil _)

/-- **A use is resolved to what the resolver finds.** -/
theorem Ready.use (hs : Ready all s) {loc : Nat} {name : String} {ref : VarRef}
    (htoken : s.current? = some ⟨.identifier, loc, name⟩) (hfind : s.scopes.find? name = some ref) :
    Scans all s s.advance [] [(loc, ref)] := by
  -- A name in an expression changes nothing that the resolver keeps.
  have hresolver : s.advance.resolver all = s.resolver all :=
    (ParseState.resolver_advance hs.tracks.suffix htoken).trans
      (Resolver.stepName_of_reading hs.reading name)
  have hrest := ParseState.rest_of_current? htoken
  have hfound : (s.resolver all).find? name = some ref := (hs.tracks.find? name).symm.trans hfind
  refine ⟨?_, ?_, congrArg _ hresolver, .refl _, rfl, fun _ hx => absurd hx List.not_mem_nil, ?_, ?_⟩
  · rw [hresolver]
    exact hs.tracks.advance
  · rw [hresolver]
    exact .refl _
  · intro x hx
    obtain rfl := List.mem_singleton.1 hx
    obtain ⟨before, hbefore⟩ := hs.tracks.suffix
    obtain ⟨v, hget, hname⟩ := hs.tracks.get_of_find? hfound
    refine ⟨before, _, s.advance.rest, v, hbefore.symm.trans (congrArg _ hrest), rfl, hget,
      .inl ⟨rfl, hname, fun _ => ?_⟩⟩
    rw [← ParseState.resolver_eq hbefore.symm]
    exact hfound
  -- The name itself is the only use between the two states.
  · intro before token after huse hm hn
    have hlength := ParseState.length_advance htoken
    obtain ⟨hsplit, hbefore⟩ := huse.at_state hs.tracks.suffix (by omega)
    obtain ⟨rfl, -⟩ := List.cons.inj (hrest.symm.trans hsplit)
    rw [← hbefore]
    exact ⟨rfl, ref, hfound, List.mem_singleton.2 rfl⟩

/-- A string literal becomes the next global. -/
theorem Ready.literal (hs : Ready all s) {bytes : List UInt8} {ty : Ty} {loc : Nat} {text : String}
    (htoken : s.current? = some ⟨.string (some bytes) (some ty), loc, text⟩) :
    Scans all s (s.advance.addLiteral bytes ty) [] [(s.loc, .globalVar s.globals.length)] := by
  -- A literal takes the number of a global in the resolver as it does in the reader.
  have hstep : (s.resolver all).step ⟨.string (some bytes) (some ty), loc, text⟩
      = { s.resolver all with globals := (s.resolver all).globals + 1 } := if_pos hs.reading
  have hresolver : (s.advance.addLiteral bytes ty).resolver all
      = { s.resolver all with globals := (s.resolver all).globals + 1 } :=
    (ParseState.resolver_advance hs.tracks.suffix htoken).trans hstep
  have hrest := ParseState.rest_of_current? htoken
  have hextends : s.symbols.Extends (s.advance.addLiteral bytes ty).symbols :=
    ⟨List.prefix_refl _, List.prefix_append _ _⟩
  refine ⟨?_, ?_, ?_, hextends, rfl, fun _ hx => absurd hx List.not_mem_nil, ?_, ?_⟩
  · rw [hresolver]
    exact hs.tracks.advance.literal bytes ty
  · rw [hresolver]
    exact ⟨⟨rfl, rfl, rfl⟩, rfl⟩
  · rw [hresolver]
    rfl
  · intro x hx
    obtain rfl := List.mem_singleton.1 hx
    obtain ⟨before, hbefore⟩ := hs.tracks.suffix
    refine ⟨before, _, s.advance.rest, s.nextLiteral bytes ty,
      hbefore.symm.trans (congrArg _ hrest), ?_, entry_length_append,
      .inr ⟨⟨_, _, rfl⟩, Symbol.isLiteral_ofLiteral _⟩⟩
    rw [ParseState.loc, htoken]
  · exact covers_advance hs.tracks.suffix htoken (fun hkind => nomatch hkind) _ _

/-! ### What a rule starts from and leaves -/

/-- The name of a declaration is an identifier, and no use. -/
def Parse.DeclaredName.Placed (all : List Token) (d : DeclaredName) : Prop :=
  ∃ before token after, all = before ++ token :: after ∧ token.kind = .identifier
    ∧ token.loc = d.loc ∧ token.text = d.name ∧ ¬ (Resolver.after before).Reading

/-- From `s` to `t`, a function or globals have been declared outside of all functions. -/
structure Declares (all : List Token) (s t : ParseState) : Prop where
  between : Between all t
  outside : (t.resolver all).depth = 0
  globals : s.globals <+: t.globals
  read : (t.functions = s.functions ∧ ∃ vars, Covers all none t.rest.length s.rest.length vars)
    ∨ ∃ f, t.functions = s.functions ++ [f] ∧ AllStand all ⟨f.locals, t.globals⟩ f.body.vars
      ∧ Covers all (some s.functions.length) t.rest.length s.rest.length f.body.vars

/-- The variables of what a rule has gathered. -/
def Rule.gathered {α : Type} : Rule α → List (Nat × VarRef)
  | .more _ node | .subscripts node => node.vars
  | .arguments _ _ nodes | .values nodes | .items nodes => Node.varsAll nodes
  | _ => []

/-- The variables of what a rule reads. -/
def Rule.vars {α : Type} : Rule α → α → List (Nat × VarRef)
  | .expr, node | .level _, node | .more _ _, node | .unary, node | .postfixed, node
  | .subscripts _, node | .primary, node | .arguments _ _ _, node | .declaration _, node
  | .block _, node | .stmt, node => node.vars
  | .values _, nodes | .initializers _, nodes | .items _, nodes => Node.varsAll nodes
  | .exprUnless _, found => Node.varsSome found
  | .loopHead, head =>
    Node.varsSome head.init ++ Node.varsSome head.cond ++ Node.varsSome head.step
  | _, _ => []

/-- Where the resolver is when a rule starts. -/
def Rule.Enters {α : Type} (all : List Token) (rule : Rule α) (s : ParseState) : Prop :=
  let r := s.resolver all
  match rule with
  | .stars _ | .dimensions _ | .type => Tracks all r s
  | .names read =>
    Tracks all r s ∧ r.phase = .naming ∧ r.pending = read.map (·.name) ∧ ∀ d ∈ read, d.Placed all
  | .initializers _ => Tracks all r s ∧ r.phase = .naming
  | .declaration _ => Tracks all r s ∧ r.phase = .naming ∧ r.pending = [] ∧ r.depth ≠ 0
  | .global => Tracks all r s ∧ r.phase = .naming ∧ r.pending = [] ∧ r.depth = 0
  | .items read => Between all s ∧ 2 ≤ r.depth ∧ AllStand all s.symbols (Node.varsAll read)
  | .block _ =>
    -- The resolver is inside of the block, and the tables are not yet.
    Tracks all { r with depth := r.depth - 1 } s ∧ r.phase = .plain ∧ r.pending = [] ∧ 2 ≤ r.depth
  | .loopHead => Between all s
  | .stmt => Between all s ∧ 2 ≤ r.depth
  | .parameters _ | .parameterList =>
    Tracks all r s ∧ r.phase = .params ∧ r.pending = [] ∧ r.depth = 1
  | .function => ∃ before, Tracks all before s ∧ before.depth = 0 ∧ before.pending = []
    ∧ r = { before with phase := .heading, depth := 1, locals := 0 }
  | .topLevel => Between all s ∧ r.depth = 0
  | rule => Ready all s ∧ AllStand all s.symbols rule.gathered

/-- Where the resolver is when a rule is done, and what variables stand in what it has read. -/
def Rule.Leaves {α : Type} (all : List Token) (rule : Rule α) (s : ParseState) (a : α)
    (t : ParseState) : Prop :=
  let r := s.resolver all
  match rule, a with
  | .names _, found =>
    Arrives all { r with pending := found.map (·.name) } s t [] [] ∧ ∀ d ∈ found, d.Placed all
  | .initializers count, found =>
    ∃ last, Tracks all last t ∧ r.Stays last ∧ t.resolver all = last.complete .plain
      ∧ Reads all s t [] (Node.varsAll found) ∧ found.length ≤ count
  | .declaration _, node => Arrives all { r with phase := .plain } s t [] node.vars
  | .parameters _, _ | .parameterList, _ => Arrives all { r with phase := .plain } s t [] []
  | .items read, nodes =>
    ∃ last, Tracks all last t ∧ r.Keeps last ∧ t.resolver all = last.close
      ∧ Reads all s t (Node.varsAll read) (Node.varsAll nodes)
  | .block _, node =>
    ∃ last, Tracks all last t ∧ { r with depth := r.depth - 1 }.Keeps last
      ∧ t.resolver all = (if last.depth = 1 then last.finish else last)
      ∧ Reads all s t [] node.vars
  | .function, _ | .global, _ | .topLevel, _ => Declares all s t
  | rule, a => Scans all s t rule.gathered (rule.vars a)

/-- Names are resolved as the resolver does. -/
def Contract.scoping (all : List Token) : Contract where
  pre rule s := rule.Enters all s
  post rule s a t := rule.Leaves all s a t

/-- A rule resolves names as the resolver does, if the rules that it calls do. -/
def Rule.Resolves {α : Type} (all : List Token) (rule : Rule α) : Prop :=
  ∀ s, rule.Enters all s → (rule.step s).Meets (.scoping all) (rule.Leaves all s)

/-! ### Expressions -/

/-- No operator opens or closes anything that the resolver looks at. -/
theorem not_mem_of_mem_operatorTexts {text : String} (h : text ∈ operatorTexts) :
    text ∉ ["func", "var", "\x7b", "\x7d", ";"] := by
  have hall : operatorTexts.all
      (fun text => text ∉ ["func", "var", "\x7b", "\x7d", ";"]) = true := by decide
  simpa using List.all_eq_true.1 hall text h

/-- An operand may start wherever an expression may. -/
theorem Level.enters_operand (l : Level) (hs : Ready all s) : l.operand.Enters all s := by
  cases l <;> exact ⟨hs, allStand_nil _⟩

/-- An operand is read like an expression, whatever rule reads it. -/
theorem Level.scans_operand {l : Level} {node : Node} (h : l.operand.Leaves all s node t) :
    Scans all s t [] node.vars := by
  cases l <;> exact h

namespace Rule

open Step

theorem resolves_expr : expr.Resolves all := by
  rintro s ⟨hs, -⟩
  refine ⟨⟨hs, allStand_nil _⟩, fun node t (hnode : Scans all s t [] node.vars) => ?_⟩
  refine meets_ite.2 ⟨fun hsees => ?_, fun _ => hnode⟩
  have hpast := hnode.past_reading hs hsees (by decide)
  exact ⟨⟨hpast.ready hs, allStand_nil _⟩, fun value u hvalue => hpast.andThen hvalue⟩

theorem resolves_level (l : Level) : (level l).Resolves all := by
  rintro s ⟨hs, -⟩
  refine ⟨l.enters_operand hs, fun node t hnode => ?_⟩
  have hnode := Level.scans_operand hnode
  exact ⟨⟨hnode.ready hs, hnode.reads.stand⟩, fun found u hfound => hnode.trans hfound⟩

/-- The left operand has been gathered, and its variables stay in the joined tree. -/
theorem resolves_more (l : Level) (lhs : Node) : (more l lhs).Resolves all := by
  rintro s ⟨hs, hlhs⟩
  have hnone : Scans all s s lhs.vars lhs.vars := .refl hs.tracks hlhs
  rw [step]
  split
  · exact hnone
  · next join hjoin =>
    obtain ⟨text, hmem, hsees⟩ := Level.exists_sees_of_join? hjoin
    have hpast := hnone.past_reading hs hsees (not_mem_of_mem_operatorTexts hmem)
    refine ⟨l.enters_operand (hpast.ready hs), fun rhs t hrhs => meets_ofResult.2 fun node hnode => ?_⟩
    have hjoined : Scans all s t lhs.vars node.vars :=
      (hpast.andThen (Level.scans_operand hrhs)).congr (Level.keepsVars_join hjoin hnode)
    exact ⟨⟨hjoined.ready hs, hjoined.reads.stand⟩, fun found u hfound => hjoined.trans hfound⟩

theorem resolves_unary : unary.Resolves all := by
  rintro s ⟨hs, -⟩
  rw [step]
  split
  · exact ⟨⟨hs, allStand_nil _⟩, fun found u hfound => hfound⟩
  · next sign hsign =>
    obtain ⟨text, hmem, hsees⟩ := ParseState.exists_sees_of_sign? hsign
    have hpast := (Scans.refl hs.tracks (allStand_nil _)).past_reading hs hsees
      (not_mem_of_mem_operatorTexts hmem)
    refine ⟨⟨hpast.ready hs, allStand_nil _⟩, fun node t hnode => ?_⟩
    show Scans all s t [] (sign.apply s.loc node).vars
    rw [Sign.vars_apply]
    exact hpast.andThen hnode

theorem resolves_postfixed : postfixed.Resolves all := by
  rintro s ⟨hs, -⟩
  refine ⟨⟨hs, allStand_nil _⟩, fun node t (hnode : Scans all s t [] node.vars) => ?_⟩
  exact ⟨⟨hnode.ready hs, hnode.reads.stand⟩, fun found u hfound => hnode.trans hfound⟩

theorem resolves_subscripts (node : Node) : (subscripts node).Resolves all := by
  rintro s ⟨hs, hnode⟩
  have hnone : Scans all s s node.vars node.vars := .refl hs.tracks hnode
  refine meets_ite.2 ⟨fun hopen => ?_, fun _ => hnone⟩
  have hpast := hnone.past_reading hs hopen (by decide)
  refine ⟨⟨hpast.ready hs, allStand_nil _⟩, fun index t hindex => meets_expect.2 fun hclose => ?_⟩
  refine meets_ofResult.2 fun place hplace => ?_
  have hindex : Scans all s t node.vars (node.vars ++ index.vars) := hpast.andThen hindex
  have hread : Scans all s t.advance node.vars place.vars :=
    (hindex.past_reading hs hclose (by decide)).congr
      (Join.keepsVars_typed Node.mem_vars_sum hplace)
  exact ⟨⟨hread.ready hs, hread.reads.stand⟩, fun found u hfound => hread.trans hfound⟩

/-- An identifier with a parenthesis behind it is a call, and any other one is a use. -/
theorem resolves_primary : primary.Resolves all := by
  rintro s ⟨hs, -⟩
  have hnone : Scans all s s [] [] := .refl hs.tracks (allStand_nil _)
  refine meets_ite.2 ⟨fun hopen => ?_, fun _ => ?_⟩
  · have hpast := hnone.past_reading hs hopen (by decide)
    refine ⟨⟨hpast.ready hs, allStand_nil _⟩, fun node t hnode => meets_expect.2 fun hclose => ?_⟩
    have hnode : Scans all s t [] node.vars := hpast.andThen hnode
    exact hnode.past_reading hs hclose (by decide)
  split
  · refine meets_identifier.2 fun name loc htoken => meets_ite.2 ⟨fun hcall => ?_, fun _ => ?_⟩
    · have hpast := (hs.called htoken hcall).past_reading hs hcall (by decide)
      refine meets_ite.2 ⟨fun _ => trivial, fun _ => meets_ite.2 ⟨fun hclose => ?_, fun _ => ?_⟩⟩
      · exact hpast.past_reading hs hclose (by decide)
      · exact ⟨⟨hpast.ready hs, allStand_nil _⟩, fun found u hfound => hpast.trans hfound⟩
    · unfold Step.useOf
      split
      · next ref hfind => exact hs.use htoken hfind
      · trivial
  · exact meets_literal.2 fun bytes ty loc text htoken => hs.literal htoken
  · exact meets_number.2 fun value loc text htoken => hnone.past_number htoken
  · trivial

/-- The arguments that have been read are gathered. -/
theorem resolves_arguments (loc : Nat) (name : String) (args : List Node) :
    (arguments loc name args).Resolves all := by
  rintro s ⟨hs, hargs⟩
  have hnone : Scans all s s (Node.varsAll args) (Node.varsAll args) := .refl hs.tracks hargs
  refine meets_ite.2 ⟨fun _ => ?_, fun _ => trivial⟩
  refine ⟨⟨hs, allStand_nil _⟩, fun argument t hargument => ?_⟩
  have hread : Scans all s t (Node.varsAll args) (Node.varsAll (args ++ [argument])) := by
    rw [Node.varsAll_concat]
    exact hnone.andThen hargument
  refine meets_ite.2 ⟨fun hclose => hread.past_reading hs hclose (by decide), fun _ => ?_⟩
  refine meets_expect.2 fun hcomma => ?_
  have hpast := hread.past_reading hs hcomma (by decide)
  exact ⟨⟨hpast.ready hs, hpast.reads.stand⟩, fun found u hfound => hpast.trans hfound⟩

/-- The values of a declaration come in front of its semicolon, so its names are not in scope. -/
theorem resolves_values (read : List Node) : (values read).Resolves all := by
  rintro s ⟨hs, hstand⟩
  have hnone : Scans all s s (Node.varsAll read) (Node.varsAll read) := .refl hs.tracks hstand
  refine ⟨⟨hs, allStand_nil _⟩, fun value t hvalue => ?_⟩
  have hread : Scans all s t (Node.varsAll read) (Node.varsAll (read ++ [value])) := by
    rw [Node.varsAll_concat]
    exact hnone.andThen hvalue
  refine meets_ite.2 ⟨fun hcomma => ?_, fun _ => hread⟩
  have hpast := hread.past_reading hs hcomma (by decide)
  exact ⟨⟨hpast.ready hs, hpast.reads.stand⟩, fun found u hfound => hpast.trans hfound⟩

theorem resolves_exprUnless (text : String) : (exprUnless text).Resolves all := by
  rintro s ⟨hs, -⟩
  refine meets_ite.2 ⟨fun _ => Scans.refl hs.tracks (allStand_nil _), fun _ => ?_⟩
  exact ⟨⟨hs, allStand_nil _⟩, fun node t hnode => hnode⟩

/-! ### Types -/

theorem resolves_stars (count : Nat) : (stars count).Resolves all := by
  intro s hs
  have hnone : Scans all s s [] [] := .refl hs (allStand_nil _)
  refine meets_ite.2 ⟨fun hstar => ?_, fun _ => hnone⟩
  have hpast := hnone.past_type hstar (by decide)
  exact ⟨hpast.tracks, fun found u hfound => hpast.trans hfound⟩

theorem resolves_dimensions (read : List (Int64 × Nat)) : (dimensions read).Resolves all := by
  intro s hs
  have hnone : Scans all s s [] [] := .refl hs (allStand_nil _)
  refine meets_ite.2 ⟨fun hopen => ?_, fun _ => hnone⟩
  refine meets_number.2 fun len loc text htoken => meets_expect.2 fun hclose => ?_
  have hpast := ((hnone.past_type hopen (by decide)).past_number htoken).past_type hclose (by decide)
  exact ⟨hpast.tracks, fun found u hfound => hpast.trans hfound⟩

/-- The names of a type are keywords, and its numbers are no uses. -/
theorem resolves_type : type.Resolves all := by
  intro s hs
  refine ⟨hs, fun dimensions t (hdimensions : Scans all s t [] []) => ?_⟩
  refine ⟨hdimensions.tracks, fun depth u hstars => ?_⟩
  have hread : Scans all s u [] [] := hdimensions.trans hstars
  have harray : ∀ (elem : Ty) (text : String), u.sees text = true →
      text ∈ ["[", "]", "*", "int", "char"] →
        (Step.ofRun ((Parse.arrayTypes (elem.pointers depth) dimensions).run u.advance) .done).Meets
          (.scoping all) (type.Leaves all s) := by
    intro elem text hsees htext
    refine meets_ofRun.2 fun ty v hrun => ?_
    obtain rfl := Parse.state_of_run_arrayTypes hrun
    exact hread.past_type hsees htext
  exact meets_ite.2 ⟨fun hint => harray .int "int" hint (by decide), fun _ => meets_ite.2
    ⟨fun hchar => harray .char "char" hchar (by decide), fun _ => trivial⟩⟩

end Rule

/-! ### Declarations -/

/-- Declaring locals changes the tables of locals and visible names. -/
theorem ParseState.exists_foldl_addLocal (added : List Variable) (s : ParseState) :
    ∃ scopes, added.foldl ParseState.addLocal s
      = { s with locals := s.locals ++ added, scopes } := by
  induction added generalizing s with
  | nil => exact ⟨s.scopes, by rw [List.append_nil]; rfl⟩
  | cons v added ih =>
    obtain ⟨scopes, h⟩ := ih (s.addLocal v)
    refine ⟨scopes, h.trans ?_⟩
    simp only [ParseState.addLocal, List.append_assoc, List.singleton_append]

/-- Declaring globals changes the tables of globals and visible names. -/
theorem ParseState.exists_foldl_addGlobal (added : List Variable) (s : ParseState) :
    ∃ scopes, added.foldl ParseState.addGlobal s
      = { s with globals := s.globals ++ added, scopes } := by
  induction added generalizing s with
  | nil => exact ⟨s.scopes, by rw [List.append_nil]; rfl⟩
  | cons v added ih =>
    obtain ⟨scopes, h⟩ := ih (s.addGlobal v)
    refine ⟨scopes, h.trans ?_⟩
    simp only [ParseState.addGlobal, List.append_assoc, List.singleton_append]

/-- A variable in the assignments of a declaration is in one of the values, or a declared name. -/
theorem Node.mem_of_mem_initializations {x : Nat × VarRef} {names : List DeclaredName}
    {values : List Node} {index : Nat} (h : x ∈ varsAll (Parse.initializations index names values)) :
    x ∈ varsAll values
      ∨ ∃ k d, names[k]? = some d ∧ x = (d.loc, .localVar (index + k)) := by
  induction names generalizing values index with
  | nil => exact absurd h List.not_mem_nil
  | cons d names ih =>
    cases values with
    | nil => exact absurd h List.not_mem_nil
    | cons value values =>
      rcases List.mem_append.1 h with h | h
      · rcases List.mem_append.1 h with h | h
        · exact .inr ⟨0, d, rfl, List.mem_singleton.1 h⟩
        · exact .inl (List.mem_append_left _ h)
      · rcases ih h with h | ⟨k, found, hfound, rfl⟩
        · exact .inl (List.mem_append_right _ h)
        · exact .inr ⟨k + 1, found, hfound, by rw [Nat.add_assoc, Nat.add_comm 1 k]⟩

/-- No variable of a value is lost, if there are no more values than names. -/
theorem Node.mem_initializations {x : Nat × VarRef} {names : List DeclaredName}
    {values : List Node} {index : Nat} (hlength : values.length ≤ names.length)
    (h : x ∈ varsAll values) : x ∈ varsAll (Parse.initializations index names values) := by
  induction names generalizing values index with
  | nil =>
    obtain rfl := List.length_eq_zero_iff.1 (Nat.le_zero.1 hlength)
    exact absurd h List.not_mem_nil
  | cons d names ih =>
    cases values with
    | nil => exact absurd h List.not_mem_nil
    | cons value values =>
      rcases List.mem_append.1 h with h | h
      · exact List.mem_append_left _ (List.mem_append_right _ h)
      · exact List.mem_append_right _ (ih (Nat.le_of_succ_le_succ hlength) h)

/-- Only between statements and in initial values are names uses. -/
theorem Resolver.not_reading (hr : r.phase ≠ .plain) (hr' : r.phase ≠ .valuing) : ¬ r.Reading :=
  fun h => h.elim hr hr'

/-- The name of a variable that is being declared. -/
theorem Tracks.name (hs : Tracks all (s.resolver all) s)
    (hphase : (s.resolver all).phase = .naming ∨ (s.resolver all).phase = .params) {loc : Nat}
    {name : String} (htoken : s.current? = some ⟨.identifier, loc, name⟩) :
    Arrives all { s.resolver all with pending := (s.resolver all).pending ++ [name] } s s.advance
        [] []
      ∧ ∀ stars, DeclaredName.Placed all ⟨name, loc, stars⟩ := by
  have hnot : ¬ (s.resolver all).Reading := by
    rcases hphase with h | h <;> exact Resolver.not_reading (by rw [h]; decide) (by rw [h]; decide)
  have hstep : (s.resolver all).step ⟨.identifier, loc, name⟩
      = { s.resolver all with pending := (s.resolver all).pending ++ [name] } := by
    show (s.resolver all).stepName name = _
    rcases hphase with h | h <;> simp only [Resolver.stepName, h]
  constructor
  · exact .advance hs htoken hstep (hs.change _ _) rfl (fun _ h => absurd h hnot) (allStand_nil _)
  · intro stars
    obtain ⟨before, hbefore⟩ := hs.suffix
    refine ⟨before, ⟨.identifier, loc, name⟩, s.advance.rest, ?_, rfl, rfl, rfl, ?_⟩
    · rw [← hbefore, ParseState.rest_of_current? htoken]
    · rw [← ParseState.resolver_eq hbefore.symm]
      exact hnot

namespace Rule

open Step

/-- The names of a declaration wait, and are no uses. -/
theorem resolves_names (read : List DeclaredName) : (names read).Resolves all := by
  rintro s ⟨hs, hphase, hpending, hplaced⟩
  refine ⟨hs, fun stars t (hstars : Scans all s t [] []) => ?_⟩
  refine meets_identifier.2 fun name loc htoken => ?_
  obtain ⟨hname, hplace⟩ := hstars.tracks.name (.inl (hstars.keeps.phase.trans hphase)) htoken
  have hread : Arrives all
      { s.resolver all with pending := (read ++ [DeclaredName.mk name loc stars]).map (·.name) }
        s t.advance [] [] := by
    refine Arrives.trans hstars hname
      ⟨⟨hstars.keeps.depth, hstars.keeps.functions, ?_⟩, hstars.keeps.phase⟩
    show (t.resolver all).pending ++ [name] = _
    rw [hstars.keeps.pending, hpending, List.map_append]
    rfl
  have hplaced' : ∀ d ∈ read ++ [⟨name, loc, stars⟩], d.Placed all := fun d hd =>
    (List.mem_append.1 hd).elim (hplaced d) fun hd => List.mem_singleton.1 hd ▸ hplace stars
  have hphase' := hread.keeps.phase.trans hphase
  refine meets_ite.2 ⟨fun hcomma => ?_, fun _ => ⟨hread, hplaced'⟩⟩
  have hpast := hread.past hcomma (by rw [Resolver.stepText, hphase']; rfl)
  refine ⟨⟨hpast.tracks, hpast.keeps.phase.trans hphase, hpast.keeps.pending, hplaced'⟩, ?_⟩
  rintro found u ⟨hfound, hplaced''⟩
  exact ⟨hpast.trans hfound
    ⟨⟨hpast.keeps.depth, hpast.keeps.functions, rfl⟩, hpast.keeps.phase⟩, hplaced''⟩

/-- Behind the equals sign the values are read, and the names still wait. -/
theorem resolves_initializers (count : Nat) : (initializers count).Resolves all := by
  rintro s ⟨hs, hphase⟩
  refine meets_ite.2 ⟨fun hequal => ?_, fun _ => meets_expect.2 fun hsemi => ?_⟩
  · have hpast : Arrives all { s.resolver all with phase := .valuing } s s.advance [] [] :=
      .advance_of_sees hs hequal (by rw [Resolver.stepText, hphase]; rfl) (hs.change _ _) rfl
        (allStand_nil _)
    refine ⟨⟨⟨hpast.tracks, .inr hpast.keeps.phase⟩, allStand_nil _⟩, fun values t hvalues => ?_⟩
    refine meets_ite.2 ⟨fun hlength => meets_expect.2 fun hsemi => ?_, fun _ => trivial⟩
    have hread : Arrives all { s.resolver all with phase := .valuing } s t [] (Node.varsAll values) :=
      hpast.trans hvalues hpast.keeps
    refine ⟨t.resolver all, hread.tracks.advance, ?_, ?_, ?_, Nat.le_of_eq hlength⟩
    · exact ⟨hread.keeps.depth, hread.keeps.functions, hread.keeps.pending⟩
    · rw [ParseState.resolver_advance_of_sees hread.tracks.suffix hsemi, Resolver.stepText,
        hread.keeps.phase]
      rfl
    · exact hread.reads.past hread.tracks.suffix hsemi hread.place
  · refine ⟨s.resolver all, hs.advance, ⟨rfl, rfl, rfl⟩, ?_, ?_, Nat.zero_le _⟩
    · rw [ParseState.resolver_advance_of_sees hs.suffix hsemi, Resolver.stepText, hphase]
      rfl
    · exact (Reads.refl (allStand_nil _)).past hs.suffix hsemi rfl

/-- The variables of the initializations of locals stand for their names and for what stands in the
initial values. -/
theorem allStand_initializations {ty : Ty} {names : List DeclaredName} {values : List Node}
    (hnames : ∀ d ∈ names, d.Placed all) (hvalues : AllStand all s.symbols (Node.varsAll values)) :
    AllStand all ⟨s.locals ++ names.map (DeclaredName.toLocal ty), s.globals⟩
      (Node.varsAll (Parse.initializations s.locals.length names values)) := by
  intro x hx
  rcases Node.mem_of_mem_initializations hx with hx | ⟨k, d, hd, rfl⟩
  · exact (hvalues x hx).extend ⟨List.prefix_append _ _, List.prefix_refl _⟩
  · obtain ⟨before, token, after, hsplit, hkind, hloc, htext, hnot⟩ :=
      hnames d (List.mem_of_getElem? hd)
    refine ⟨before, token, after, d.toLocal ty, hsplit, hloc, entry_eq_ok_iff.2 ?_,
      .inl ⟨hkind, htext.symm, fun huse => absurd huse.reading hnot⟩⟩
    show (s.locals ++ names.map (DeclaredName.toLocal ty))[s.locals.length + k]? = _
    rw [List.getElem?_append_right (Nat.le_add_right _ _), Nat.add_sub_cancel_left,
      List.getElem?_map, hd]
    rfl

/-- What a declaration reads up to its semicolon: its names wait to be declared, and the variables
of its initial values stand. -/
structure Declared (all : List Token) (s v : ParseState) (names : List DeclaredName)
    (values : List Node) (last : Resolver) : Prop where
  tracks : Tracks all last v
  depth : last.depth = (s.resolver all).depth
  functions : last.functions = (s.resolver all).functions
  pending : last.pending = names.map (·.name)
  resolver : v.resolver all = last.complete .plain
  placed : ∀ d ∈ names, d.Placed all
  reads : Reads all s v [] (Node.varsAll values)
  length : values.length ≤ names.length

/-- The names, the type and the initial values of a declaration. -/
theorem meets_declared {α : Type} {post : α → ParseState → Prop}
    {next : List DeclaredName → Ty → List Node → ParseState → Step α}
    (hs : Tracks all (s.resolver all) s) (hphase : (s.resolver all).phase = .naming)
    (hpending : (s.resolver all).pending = [])
    (hnext : ∀ names ty values v last, Declared all s v names values last →
      (next names ty values v).Meets (.scoping all) post) :
    (Step.call (.names []) s fun names t => .call .type t fun ty u =>
      .call (.initializers names.length) u fun values v => next names ty values v).Meets
        (.scoping all) post := by
  refine ⟨⟨hs, hphase, hpending, fun d hd => absurd hd List.not_mem_nil⟩, ?_⟩
  rintro names t ⟨hnames, hplaced⟩
  refine ⟨hnames.tracks, fun ty u (hty : Scans all t u [] []) => ?_⟩
  have hread : Arrives all { s.resolver all with pending := names.map (·.name) } s u [] [] :=
    hnames.trans hty hnames.keeps
  refine ⟨⟨hread.tracks, hread.keeps.phase.trans hphase⟩, ?_⟩
  rintro values v ⟨last, hlast, hstays, hresolver, hvalues, hlength⟩
  exact hnext names ty values v last ⟨hlast, hstays.depth.trans hread.keeps.depth,
    hstays.functions.trans hread.keeps.functions, hstays.pending.trans hread.keeps.pending, hresolver,
    hplaced, hread.reads.trans hvalues hread.place, hlength⟩

/-- The semicolon of a declaration in a block is where its names become locals. -/
theorem resolves_declaration (loc : Nat) : (declaration loc).Resolves all := by
  rintro s ⟨hs, hphase, hpending, hdepth⟩
  refine meets_declared hs hphase hpending fun names ty values v last h => ?_
  refine meets_ofRun.2 fun body w hrun => ?_
  rw [Parse.run_declareLocals] at hrun
  obtain ⟨rfl, rfl⟩ := Prod.mk.inj (Except.ok.inj hrun)
  have hlocals : last.pending = (names.map (DeclaredName.toLocal ty)).map (·.name) := by
    rw [h.pending, List.map_map]
    rfl
  -- At the semicolon the pending names become locals, in the order in which they are added.
  have htracks := h.tracks.complete_locals (by rw [h.depth]; exact hdepth) hlocals .plain
  obtain ⟨scopes, hw⟩ := ParseState.exists_foldl_addLocal (names.map (DeclaredName.toLocal ty)) v
  rw [hw] at htracks ⊢
  have hkeeps : { s.resolver all with phase := .plain }.Keeps (last.complete .plain) :=
    ⟨⟨(last.depth_complete _).trans h.depth, (last.functions_complete _).trans h.functions,
      hpending.symm⟩, rfl⟩
  have hsame : ParseState.resolver all { v with
      locals := v.locals ++ names.map (DeclaredName.toLocal ty), scopes } = last.complete .plain :=
    h.resolver
  refine ⟨?_, ?_, ?_, ?_⟩
  · rw [hsame]
    exact htracks
  · rw [hsame]
    exact hkeeps
  · rw [hsame]
    exact hkeeps.place
  · have hgrown : Reads all s { v with
        locals := v.locals ++ names.map (DeclaredName.toLocal ty), scopes } [] _ :=
      h.reads.extend rfl ⟨List.prefix_append _ _, List.prefix_refl _⟩ rfl
    refine hgrown.more ?_ ?_
    · exact fun x hx => Node.mem_initializations h.length hx
    · exact allStand_initializations h.placed h.reads.stand

/-- A parameter is visible behind the comma or the closing parenthesis that comes behind it. -/
theorem arrives_parameter {name : String} {v : Variable} {text : String} {phase : Resolver.Phase}
    (hread : Arrives all { s.resolver all with pending := [name] } s u [] []) (hname : v.name = name)
    (hpending : (s.resolver all).pending = []) (hdepth : (s.resolver all).depth = 1)
    (hsees : (u.addLocal v).sees text = true)
    (hstep : (u.resolver all).stepText text = (u.resolver all).complete phase) :
    Arrives all { s.resolver all with phase } s (u.addLocal v).advance [] [] := by
  have hsame : (u.addLocal v).resolver all = u.resolver all := ParseState.resolver_congr rfl
  -- The comma or the parenthesis completes the declaration of the one name that waits.
  have hnames : (u.resolver all).pending = [v].map (·.name) := by
    rw [hread.keeps.pending, List.map_singleton, hname]
  have hdepth' : (u.resolver all).depth = 1 := hread.keeps.depth.trans hdepth
  have htracks : Tracks all ((u.resolver all).complete phase) (u.addLocal v) :=
    hread.tracks.complete_locals (by omega) hnames phase
  have hresolver : (u.addLocal v).advance.resolver all = (u.resolver all).complete phase := by
    rw [ParseState.resolver_advance_of_sees htracks.suffix hsees, hsame, hstep]
  have hkeeps : { s.resolver all with phase }.Keeps ((u.resolver all).complete phase) :=
    ⟨⟨(Resolver.depth_complete _ _).trans hread.keeps.depth,
      (Resolver.functions_complete _ _).trans hread.keeps.functions, hpending.symm⟩, rfl⟩
  refine ⟨?_, ?_, ?_, ?_⟩
  · rw [hresolver]
    exact htracks.advance
  · rw [hresolver]
    exact hkeeps
  · rw [hresolver]
    exact hkeeps.place
  · have hgrown : Reads all s (u.addLocal v) [] [] :=
      hread.reads.extend rfl ⟨List.prefix_append _ _, List.prefix_refl _⟩ rfl
    exact hgrown.past htracks.suffix hsees (by rw [hsame]; exact hread.place)

/-- Each parameter waits for its type and is declared at the comma behind it or at the
parenthesis. -/
theorem resolves_parameters (read : List (Nat × Ty)) : (parameters read).Resolves all := by
  rintro s ⟨hs, hphase, hpending, hdepth⟩
  refine meets_ite.2 ⟨fun _ => meets_identifier.2 fun name loc htoken => ?_, fun _ => trivial⟩
  have hname : Arrives all { s.resolver all with pending := [name] } s s.advance [] [] := by
    have hname := (hs.name (.inr hphase) htoken).1
    rw [hpending] at hname
    exact hname
  refine ⟨hname.tracks, fun ty u (hty : Scans all s.advance u [] []) => ?_⟩
  have hread := hname.trans hty hname.keeps
  have hphase' : (u.resolver all).phase = .params := hread.keeps.phase.trans hphase
  refine meets_ite.2 ⟨fun hclose => ?_, fun _ => meets_expect.2 fun hcomma => ?_⟩
  · exact arrives_parameter hread rfl hpending hdepth hclose
      (by rw [Resolver.stepText, hphase']; rfl)
  · have hstep : (u.resolver all).stepText "," = (u.resolver all).complete .params := by
      rw [Resolver.stepText, hphase']
      rfl
    have hpast := arrives_parameter hread rfl hpending hdepth hcomma hstep
    refine ⟨⟨hpast.tracks, hpast.keeps.phase, hpast.keeps.pending.trans hpending,
      hpast.keeps.depth.trans hdepth⟩, fun found v hmore => ?_⟩
    exact hpast.trans hmore
      ⟨⟨hpast.keeps.depth, hpast.keeps.functions, hpast.keeps.pending⟩, rfl⟩

/-- The parameters are declared in the block that the body of the function is in. -/
theorem resolves_parameterList : parameterList.Resolves all := by
  rintro s ⟨hs, hphase, hpending, hdepth⟩
  refine meets_ite.2 ⟨fun hclose => ?_, fun _ => ?_⟩
  · refine Arrives.advance_of_sees hs hclose ?_ (hs.change .plain _) rfl (allStand_nil _)
    rw [Resolver.stepText, hphase]
    show (s.resolver all).complete .plain = _
    rw [Resolver.complete_eq, hpending]
    rfl
  · exact ⟨⟨hs, hphase, hpending, hdepth⟩, fun found u hfound => hfound⟩

/-! ### Statements -/

/-- What a statement declares stays visible to the end of its block. -/
theorem resolves_items (read : List Node) : (items read).Resolves all := by
  rintro s ⟨hs, hdepth, hstand⟩
  -- A declaration and a statement are typed alike, and the loop goes on behind them.
  have hitem : ∀ node (t : ParseState), Scans all s t [] node.vars →
      (Step.ofResult (annotate t.symbols node) fun typed =>
        .call (.items (read ++ [typed])) t .done).Meets (.scoping all)
          ((items read).Leaves all s) := by
    intro node t hnode
    refine meets_ofResult.2 fun typed htyped => ?_
    have hread : Scans all s t (Node.varsAll read) (Node.varsAll (read ++ [typed])) := by
      rw [Node.varsAll_concat, vars_of_annotate htyped]
      exact hnode.frame hstand
    refine ⟨⟨hread.between hs, ?_, hread.reads.stand⟩, ?_⟩
    · rw [hread.keeps.depth]
      exact hdepth
    · rintro nodes u ⟨last, hlast, hkeeps, hresolver, hmore⟩
      exact ⟨last, hlast, hread.keeps.trans hkeeps, hresolver, hread.reads.trans hmore hread.place⟩
  -- The brace closes the block, `var` starts a declaration, and all else is a statement.
  refine meets_ite.2 ⟨fun hclose => ?_, fun _ => meets_ite.2 ⟨fun hvar => ?_, fun _ => ?_⟩⟩
  · refine ⟨s.resolver all, hs.tracks.advance, .refl _, ?_, ?_⟩
    · rw [ParseState.resolver_advance_of_sees hs.tracks.suffix hclose, Resolver.stepText, hs.plain]
      rfl
    · exact (Reads.refl hstand).past hs.tracks.suffix hclose rfl
  · have hpast : Arrives all { s.resolver all with phase := .naming, pending := [] } s s.advance
        [] [] :=
      .advance_of_sees hs.tracks hvar (by rw [Resolver.stepText, hs.plain]; rfl)
        (hs.tracks.change _ _) rfl (allStand_nil _)
    refine ⟨⟨hpast.tracks, hpast.keeps.phase, hpast.keeps.pending, ?_⟩, fun node t hnode => ?_⟩
    · rw [hpast.keeps.depth]
      show (s.resolver all).depth ≠ 0
      omega
    · have hkeeps : (s.resolver all).Keeps { s.advance.resolver all with phase := .plain } :=
        ⟨⟨hpast.keeps.depth, hpast.keeps.functions, hpast.keeps.pending.trans hs.pending.symm⟩,
          hs.plain.symm⟩
      exact hitem node t (hpast.trans hnode hkeeps)
  · exact ⟨⟨hs, hdepth⟩, hitem⟩

/-- The braces of a block are the step into a scope and out of it. -/
theorem resolves_block (loc : Nat) : (block loc).Resolves all := by
  rintro s ⟨hs, hphase, hpending, hdepth⟩
  have hsame : s.enterScope.resolver all = s.resolver all := ParseState.resolver_congr rfl
  -- The resolver has opened the scope at the brace already; the reader opens it only now.
  have htracks : Tracks all (s.enterScope.resolver all) s.enterScope := by
    have hentered := hs.enterScope
    have hrestored : (s.resolver all).depth - 1 + 1 = (s.resolver all).depth := by omega
    rw [hsame]
    simp only [hrestored] at hentered
    exact hentered
  refine ⟨⟨⟨htracks, ?_, ?_⟩, ?_, allStand_nil _⟩, ?_⟩
  · rw [hsame]
    exact hphase
  · rw [hsame]
    exact hpending
  · rw [hsame]
    exact hdepth
  · rintro body t ⟨last, hlast, hkeeps, hresolver, hreads⟩
    rw [hsame] at hkeeps
    have hdepth' : last.depth = (s.resolver all).depth := hkeeps.depth
    refine ⟨last.leave, hlast.leaveScope (by omega), ?_, ?_, ?_⟩
    · exact ⟨⟨congrArg (· - 1) hkeeps.depth, hkeeps.functions, hkeeps.pending⟩, hkeeps.phase⟩
    · have hiff : last.leave.depth = 1 ↔ last.depth = 2 := by
        show last.depth - 1 = 1 ↔ _
        omega
      have hclosed : t.leaveScope.resolver all = last.close := hresolver
      rw [hclosed, Resolver.close]
      simp only [hiff]
    · have hopened : Reads all s t [] (Node.varsAll body) := hreads.start rfl (.refl _) rfl
      exact hopened.extend rfl (.refl _) rfl

/-- A block starts behind its opening brace. -/
theorem opens_block (hs : Between all s) (hopen : s.sees "\x7b" = true)
    (hdepth : 1 ≤ (s.resolver all).depth) (loc : Nat) :
    (block loc).Enters all s.advance ∧ ∀ node t, (block loc).Leaves all s.advance node t →
      ∃ last, Tracks all last t ∧ (s.resolver all).Keeps last
        ∧ t.resolver all = (if last.depth = 1 then last.finish else last)
        ∧ Reads all s t [] node.vars := by
  have hresolver : s.advance.resolver all
      = { s.resolver all with depth := (s.resolver all).depth + 1 } :=
    (ParseState.resolver_advance_of_sees hs.tracks.suffix hopen).trans
      (Resolver.stepText_open hs.plain)
  unfold Rule.Enters Rule.Leaves
  simp only [hresolver, Nat.add_sub_cancel]
  refine ⟨⟨hs.tracks.advance, hs.plain, hs.pending, Nat.succ_le_succ hdepth⟩, ?_⟩
  rintro node t ⟨last, hlast, hkeeps, hlast', hreads⟩
  have hplace : (s.advance.resolver all).place = (s.resolver all).place := by
    rw [hresolver, Resolver.place, Resolver.place, if_neg (Nat.succ_ne_zero _),
      if_neg (by omega)]
  refine ⟨last, hlast, hkeeps, hlast', ?_⟩
  exact ((Reads.refl (allStand_nil _)).past hs.tracks.suffix hopen rfl).trans hreads hplace

/-- The parts of a head are in the block around the loop. -/
theorem resolves_loopHead : loopHead.Resolves all := by
  intro s (hs : Between all s)
  have hnone : Scans all s s [] [] := .refl hs.tracks (allStand_nil _)
  refine meets_ite.2 ⟨fun _ => hnone, fun _ => ?_⟩
  refine ⟨⟨hs.ready, allStand_nil _⟩, fun first t (hfirst : Scans all s t [] _) => ?_⟩
  refine meets_ite.2 ⟨fun hsemi => ?_, fun _ => ?_⟩
  · have hpast := hfirst.past_plain hs hsemi (by decide)
    refine ⟨⟨hpast.ready hs.ready, allStand_nil _⟩, fun cond u hcond => ?_⟩
    refine meets_expect.2 fun hsemi' => ?_
    have hpast' := (hpast.andThen hcond).past_plain hs hsemi' (by decide)
    exact ⟨⟨hpast'.ready hs.ready, allStand_nil _⟩, fun step v hstep => hpast'.andThen hstep⟩
  · refine hfirst.congr fun x => ?_
    show x ∈ [] ++ Node.varsSome first ++ [] ↔ _
    rw [List.nil_append, List.append_nil]
    rfl

/-- A statement ends in the block that it starts in. -/
theorem resolves_stmt : stmt.Resolves all := by
  rintro s ⟨hs, hdepth⟩
  have hnone : Scans all s s [] [] := .refl hs.tracks (allStand_nil _)
  have hinside : ∀ {t : ParseState} {new : List (Nat × VarRef)}, Scans all s t [] new →
      stmt.Enters all t := fun h => ⟨h.between hs, by rw [h.keeps.depth]; exact hdepth⟩
  -- In the order of the rule: return, conditional, loop, block and expression.
  refine meets_ite.2 ⟨fun hreturn => ?_, fun _ => meets_ite.2 ⟨fun hif => ?_, fun _ => meets_ite.2
    ⟨fun hfor => ?_, fun _ => meets_ite.2 ⟨fun hopen => ?_, fun _ => ?_⟩⟩⟩⟩
  · have hpast := hnone.past_plain hs hreturn (by decide)
    refine ⟨⟨hpast.ready hs.ready, allStand_nil _⟩, fun value t hvalue => ?_⟩
    exact meets_expect.2 fun hsemi => (hpast.andThen hvalue).past_plain hs hsemi (by decide)
  · have hpast := hnone.past_plain hs hif (by decide)
    refine ⟨⟨hpast.ready hs.ready, allStand_nil _⟩, fun cond t hcond => ?_⟩
    have hcond : Scans all s t [] cond.vars := hpast.andThen hcond
    refine ⟨hinside hcond, fun onTrue u htrue => ?_⟩
    have htrue : Scans all s u [] (cond.vars ++ onTrue.vars) := hcond.andThen htrue
    refine meets_ite.2 ⟨fun helse => ?_, fun _ => ?_⟩
    · have helse := htrue.past_plain hs helse (by decide)
      exact ⟨hinside helse, fun onFalse v hfalse => helse.andThen hfalse⟩
    -- Without another branch nothing is added.
    · refine htrue.congr fun x => ?_
      show x ∈ cond.vars ++ onTrue.vars ++ [] ↔ _
      rw [List.append_nil]
  · have hpast := hnone.past_plain hs hfor (by decide)
    refine ⟨hpast.between hs, fun head t hhead => ?_⟩
    have hhead := hpast.andThen hhead
    exact ⟨hinside hhead, fun body u hbody => hhead.andThen hbody⟩
  · have hblock := opens_block hs hopen (Nat.le_of_succ_le hdepth) s.loc
    refine ⟨hblock.1, fun node t hnode => ?_⟩
    obtain ⟨last, hlast, hkeeps, hresolver, hreads⟩ := hblock.2 node t hnode
    -- Inside a function the end of a block is not the end of the function.
    have hsame : t.resolver all = last := by
      have hinner : last.depth ≠ 1 := by
        rw [hkeeps.depth]
        omega
      rw [hresolver, if_neg hinner]
    show Scans all s t [] node.vars
    rw [← hsame] at hlast hkeeps
    exact ⟨hlast, hkeeps, hkeeps.place, hreads⟩
  · refine meets_ite.2 ⟨fun hsemi => hnone.past_plain hs hsemi (by decide), fun _ => ?_⟩
    refine ⟨⟨hs.ready, allStand_nil _⟩, fun value t (hvalue : Scans all s t [] _) => ?_⟩
    exact meets_expect.2 fun hsemi => hvalue.past_plain hs hsemi (by decide)

end Rule

/-! ### Declarations outside of functions -/

/-- From `s` to `v`, the name of a function has been read, and the block of its parameters is
open. -/
structure Headed (all : List Token) (s v : ParseState) : Prop where
  tracks : Tracks all (v.resolver all) v
  phase : (v.resolver all).phase = .heading
  pending : (v.resolver all).pending = []
  depth : (v.resolver all).depth = 1
  functions : v.functions = s.functions
  globals : v.globals = s.globals
  covers : Covers all (some s.functions.length) v.rest.length s.rest.length []

/-- The name of a function is no use, and behind it the resolver is in a block of its own. -/
theorem headed (hs : Rule.function.Enters all s) {loc : Nat} {name : String}
    (htoken : s.current? = some ⟨.identifier, loc, name⟩) :
    Headed all s { s.advance with locals := [] }.enterScope := by
  obtain ⟨before, hs, hdepth, hpending, hresolver⟩ := hs
  have hphase : (s.resolver all).phase = .heading := by rw [hresolver]
  have hnot : ¬ (s.resolver all).Reading :=
    Resolver.not_reading (by rw [hphase]; decide) (by rw [hphase]; decide)
  have hsame : { s.advance with locals := [] }.enterScope.resolver all
      = { before with phase := .heading, depth := 1, locals := 0 } := by
    have hadvance : s.advance.resolver all = (s.resolver all).stepName name :=
      ParseState.resolver_advance hs.suffix htoken
    refine Eq.trans (ParseState.resolver_congr rfl) (hadvance.trans ?_)
    rw [Resolver.stepName, hphase, hresolver]
  have hopened := (hs.advance.forget hdepth).enterScope.change .heading before.pending
  simp only [hdepth] at hopened
  refine ⟨?_, ?_, ?_, ?_, rfl, rfl, covers_advance hs.suffix htoken (fun _ h => absurd h hnot) _ _⟩
  · rw [hsame]
    exact hopened
  · rw [hsame]
  · rw [hsame]
    exact hpending
  · rw [hsame]

/-- The number of a function is known as soon as its name has been read. -/
theorem Headed.place {v : ParseState} (h : Headed all s v) :
    (v.resolver all).place = some s.functions.length := by
  rw [Resolver.place, if_neg (by rw [h.depth]; decide), h.tracks.functions, h.functions]

/-- The function is complete behind the block of its body. -/
theorem Headed.declares {v z : ParseState} (h : Headed all s v) {body : Node}
    (hread : Reads all v z [] body.vars) (hr : Tracks all r z) (hdepth : r.depth = 1)
    (hplain : r.phase = .plain) (hpending : r.pending = []) (hz : z.resolver all = r.finish)
    (name : String) (params : List (Nat × Ty)) (result : Ty) :
    Declares all s (z.leaveScope.addFunction name params result body) := by
  have hend : (z.leaveScope.addFunction name params result body).resolver all = r.finish := hz
  have hfunctions : z.functions = s.functions := hread.functions.trans h.functions
  refine ⟨⟨?_, ?_, ?_⟩, ?_, ?_, .inr ⟨_, congrArg (· ++ [_]) hfunctions, hread.stand, ?_⟩⟩
  · rw [hend]
    exact hr.finish hdepth name params result body
  · rw [hend]
    exact hplain
  · rw [hend]
    exact hpending
  · rw [hend]
    show r.depth - 1 = 0
    rw [hdepth]
  · rw [← h.globals]
    exact hread.grows.globals
  · have hcovers := hread.covers
    rw [h.place] at hcovers
    exact (h.covers.mono fun _ hx => absurd hx List.not_mem_nil).append hcovers

/-- What is declared behind a keyword is declared by the whole. -/
theorem Declares.behind {text : String} (h : Declares all s.advance t)
    (hs : s.rest <:+ all) (hsees : s.sees text = true) : Declares all s t := by
  obtain ⟨token, htoken, hreads⟩ := ParseState.exists_of_sees hsees
  have hnot := Token.kind_ne_identifier_of_reads hreads
  have hfirst : ∀ place vars, Covers all place s.advance.rest.length s.rest.length vars :=
    covers_advance hs htoken fun hkind => absurd hkind hnot
  refine ⟨h.between, h.outside, h.globals, ?_⟩
  rcases h.read with ⟨hfunctions, vars, hcovers⟩ | ⟨f, hfunctions, hstand, hcovers⟩
  · exact .inl ⟨hfunctions, vars, (hfirst _ _).append hcovers⟩
  · exact .inr ⟨f, hfunctions, hstand, (hfirst _ _).append hcovers⟩

namespace Rule

open Step

/-- Behind the body all locals are forgotten, and the next function has the next number. -/
theorem resolves_function : function.Resolves all := by
  intro s hs
  rw [step]
  refine meets_identifier.2 fun name loc htoken => meets_ofRun.2 fun _ t hcheck => ?_
  obtain rfl := Parse.state_of_run_checkFunction hcheck
  generalize hv : { s.advance with locals := [] }.enterScope = v
  have hheaded : Headed all s v := hv ▸ headed hs htoken
  refine meets_expect.2 fun hopen => ?_
  have hparen : Arrives all { v.resolver all with phase := .params } v v.advance [] [] := by
    refine .advance_of_sees hheaded.tracks hopen ?_ (hheaded.tracks.change _ _) rfl (allStand_nil _)
    rw [Resolver.stepText, hheaded.phase]
    rfl
  refine ⟨⟨hparen.tracks, hparen.keeps.phase, hparen.keeps.pending.trans hheaded.pending,
    hparen.keeps.depth.trans hheaded.depth⟩, fun params w hparams => ?_⟩
  refine ⟨hparams.tracks, fun result x (hresult : Scans all w x [] []) => ?_⟩
  refine meets_expect.2 fun hbrace => ?_
  have hhead : Arrives all { v.resolver all with phase := .plain } v x [] [] := by
    have hkeeps : { v.resolver all with phase := .plain }.Keeps
        { v.advance.resolver all with phase := .plain } :=
      ⟨⟨hparen.keeps.depth, hparen.keeps.functions, hparen.keeps.pending⟩, rfl⟩
    have hlist : Arrives all _ v w [] [] := hparen.trans hparams hkeeps
    exact hlist.trans hresult hlist.keeps
  have hbody : Between all x :=
    ⟨hhead.tracks, hhead.keeps.phase, hhead.keeps.pending.trans hheaded.pending⟩
  -- The body is the outermost scope, so its end is the end of the function.
  have hinside : (x.resolver all).depth = 1 := hhead.keeps.depth.trans hheaded.depth
  have hblock := opens_block hbody hbrace (Nat.le_of_eq hinside.symm) x.loc
  refine ⟨hblock.1, fun body z hz => meets_ite.2 ⟨fun _ => ?_, fun _ => trivial⟩⟩
  obtain ⟨last, hlast, hkeeps, hz, hreads⟩ := hblock.2 body z hz
  have hdepth : last.depth = 1 := hkeeps.depth.trans hinside
  rw [if_pos hdepth] at hz
  exact hheaded.declares (hhead.reads.trans hreads hhead.place) hlast hdepth
    (hkeeps.phase.trans hbody.plain) (hkeeps.pending.trans hbody.pending) hz name params result

/-- The semicolon of a declaration outside of functions is where its names become globals. -/
theorem resolves_global : global.Resolves all := by
  rintro s ⟨hs, hphase, hpending, hdepth⟩
  refine meets_declared hs hphase hpending fun names ty values v last h => ?_
  refine meets_ofRun.2 fun _ w hrun => ?_
  obtain ⟨added, rfl, hadded, -⟩ := Parse.exists_of_run_declareGlobals hrun
  have hdepth' : last.depth = 0 := h.depth.trans hdepth
  have htracks := h.tracks.complete_globals hdepth' (h.pending.trans hadded.symm) .plain
  obtain ⟨scopes, hw⟩ := ParseState.exists_foldl_addGlobal added v
  have hnone : (s.resolver all).place = none := if_pos hdepth
  rw [hw] at htracks ⊢
  have hsame : ParseState.resolver all { v with globals := v.globals ++ added, scopes }
      = last.complete .plain := h.resolver
  refine ⟨⟨?_, ?_, ?_⟩, ?_, ?_, .inl ⟨h.reads.functions, _, hnone ▸ h.reads.covers⟩⟩
  · rw [hsame]
    exact htracks
  · rw [hsame]
    rfl
  · rw [hsame]
    rfl
  · rw [hsame, Resolver.depth_complete, hdepth']
  · exact h.reads.grows.globals.trans (List.prefix_append _ _)

/-- The keyword in front tells a function from globals. -/
theorem resolves_topLevel : topLevel.Resolves all := by
  rintro s ⟨hs, hdepth⟩
  have hstep : ∀ {text}, s.sees text = true →
      s.advance.resolver all = (s.resolver all).stepText text :=
    ParseState.resolver_advance_of_sees hs.tracks.suffix
  refine meets_ite.2 ⟨fun hfunc => ?_, fun _ => meets_ite.2 ⟨fun hvar => ?_, fun _ => trivial⟩⟩
  · refine ⟨⟨s.resolver all, hs.tracks.advance, hdepth, hs.pending, ?_⟩, fun _ t ht => ?_⟩
    · rw [hstep hfunc, Resolver.stepText, hs.plain, hdepth]
      rfl
    · exact Declares.behind ht hs.tracks.suffix hfunc
  · have hpast : Arrives all { s.resolver all with phase := .naming, pending := [] } s s.advance
        [] [] :=
      .advance_of_sees hs.tracks hvar (by rw [Resolver.stepText, hs.plain]; rfl)
        (hs.tracks.change _ _) rfl (allStand_nil _)
    refine ⟨⟨hpast.tracks, hpast.keeps.phase, hpast.keeps.pending,
      hpast.keeps.depth.trans hdepth⟩, fun _ t ht => ?_⟩
    exact Declares.behind ht hs.tracks.suffix hvar

end Rule

end PocketCompiler
