import PocketCompiler.Proofs.Grammar.Resolver
import PocketCompiler.Proofs.Grammar.Scaling

/-!
# Names mean what the resolver says

`Proofs/Grammar/Resolver.lean` says what a name means by the tokens alone.  Here it is shown that the
grammar agrees.  `Tracks all r s` relates what the resolver knows to the tables of a state, and
`Contract.scoping` says of every rule that the two go on together, that the variables in what it reads
stand where the tokens name them, and that none of the uses that it passes is left out.
-/

namespace PocketCompiler

/-! ### The variables of a tree -/

mutual

/-- The variables of a tree, with their places. -/
def Node.vars : Node → List (Nat × VarRef)
  | .num _ _ => []
  | .var mark ref => [(mark.loc, ref)]
  | .neg _ operand | .addr _ operand | .deref _ operand => operand.vars
  | .binary _ _ lhs rhs => lhs.vars ++ rhs.vars
  | .assign _ target value => target.vars ++ value.vars
  | .call _ _ args => Node.varsAll args
  | .exprStmt _ expr => expr.vars
  | .ret _ value => value.vars
  | .block _ body => Node.varsAll body
  | .ifElse _ cond onTrue onFalse => cond.vars ++ onTrue.vars ++ Node.varsSome onFalse
  | .loop _ init cond step body =>
    Node.varsSome init ++ Node.varsSome cond ++ Node.varsSome step ++ body.vars

/-- The variables of the trees of a list. -/
def Node.varsAll : List Node → List (Nat × VarRef)
  | [] => []
  | node :: nodes => node.vars ++ Node.varsAll nodes

/-- The variables of a tree, if there is one. -/
def Node.varsSome : Option Node → List (Nat × VarRef)
  | none => []
  | some node => node.vars

end

/-- The variables of two lists one behind the other are those of the first and then those of the
second. -/
theorem Node.varsAll_append (nodes more : List Node) :
    varsAll (nodes ++ more) = varsAll nodes ++ varsAll more := by
  induction nodes with
  | nil => rfl
  | cons node nodes ih => rw [List.cons_append, varsAll, ih, varsAll, List.append_assoc]

/-- One more tree adds its variables behind the others. -/
theorem Node.varsAll_concat (nodes : List Node) (node : Node) :
    varsAll (nodes ++ [node]) = varsAll nodes ++ node.vars := by
  rw [varsAll_append, varsAll, varsAll, List.append_nil]

mutual

/-- Forgetting the types leaves every variable at its place. -/
theorem Node.vars_untyped : ∀ node : Node, node.untyped.vars = node.vars
  | .num _ _ | .var _ _ => by simp only [untyped, vars]
  | .neg _ operand | .addr _ operand | .deref _ operand => by
    simp only [untyped, vars, vars_untyped operand]
  | .binary _ _ lhs rhs => by simp only [untyped, vars, vars_untyped lhs, vars_untyped rhs]
  | .assign _ target value => by
    simp only [untyped, vars, vars_untyped target, vars_untyped value]
  | .call _ _ args => by simp only [untyped, vars, varsAll_untypedAll args]
  | .exprStmt _ expr => by simp only [untyped, vars, vars_untyped expr]
  | .ret _ value => by simp only [untyped, vars, vars_untyped value]
  | .block _ body => by simp only [untyped, vars, varsAll_untypedAll body]
  | .ifElse _ cond onTrue onFalse => by
    simp only [untyped, vars, vars_untyped cond, vars_untyped onTrue, varsSome_untypedSome onFalse]
  | .loop _ init cond step body => by
    simp only [untyped, vars, varsSome_untypedSome init, varsSome_untypedSome cond,
      varsSome_untypedSome step, vars_untyped body]

theorem Node.varsAll_untypedAll : ∀ nodes : List Node, varsAll (untypedAll nodes) = varsAll nodes
  | [] => rfl
  | node :: nodes => by simp only [untypedAll, varsAll, vars_untyped node, varsAll_untypedAll nodes]

theorem Node.varsSome_untypedSome : ∀ node : Option Node, varsSome (untypedSome node) = varsSome node
  | none => rfl
  | some node => by simp only [untypedSome, varsSome, vars_untyped node]

end

/-- Typing leaves every variable at its place, since it changes nothing but types. -/
theorem vars_of_annotate {symbols : Symbols} {node typed : Node}
    (h : annotate symbols node = .ok typed) : typed.vars = node.vars := by
  have huntyped := (ends_untyped_annotate symbols node).of_eq_ok h
  rw [← Node.vars_untyped, huntyped, Node.vars_untyped]

/-- Joining operands gives a tree with the variables of both. -/
def Join.KeepsVars (join : Join) : Prop :=
  ∀ {symbols : Symbols} {lhs rhs : Node} {loc : Nat} {node : Node},
    join symbols lhs rhs loc = .ok node → ∀ x, x ∈ node.vars ↔ x ∈ lhs.vars ++ rhs.vars

/-- Typing the operands first does not change which variables the result has. -/
theorem Join.keepsVars_typed {combine : Node → Node → Nat → Except Failure Node}
    (hcombine : ∀ {lhs rhs loc node}, combine lhs rhs loc = .ok node →
      ∀ x, x ∈ node.vars ↔ x ∈ lhs.vars ++ rhs.vars) : (Join.typed combine).KeepsVars := by
  intro symbols lhs rhs loc node h
  obtain ⟨lhs', hlhs, h⟩ := bind_eq_ok_iff.1 h
  obtain ⟨rhs', hrhs, h⟩ := bind_eq_ok_iff.1 h
  rw [← vars_of_annotate hlhs, ← vars_of_annotate hrhs]
  exact hcombine h

/-- Scaling puts a number into the tree, which has no variables. -/
theorem Node.mem_vars_scaled {op : BinaryOp} {pointer number : Node} {size : Int} {loc : Nat}
    (x : Nat × VarRef) :
    x ∈ (Node.scaled op pointer number size loc).vars ↔ x ∈ pointer.vars ++ number.vars := by
  simp only [Node.scaled, Node.vars, List.append_nil]

/-- A sum has the variables of both operands, also when a pointer is put in front of its number. -/
theorem Node.mem_vars_sum {lhs rhs node : Node} {loc : Nat} (h : Node.sum lhs rhs loc = .ok node)
    (x : Nat × VarRef) : x ∈ node.vars ↔ x ∈ lhs.vars ++ rhs.vars := by
  unfold Node.sum at h
  split at h
  · obtain rfl := Except.ok.inj h
    exact Iff.rfl
  · obtain rfl := Except.ok.inj h
    exact mem_vars_scaled x
  · obtain rfl := Except.ok.inj h
    rw [mem_vars_scaled, List.mem_append, List.mem_append, or_comm]
  · exact nomatch h

/-- A difference has the variables of both operands, whether it is scaled, divided or neither. -/
theorem Node.mem_vars_difference {lhs rhs node : Node} {loc : Nat}
    (h : Node.difference lhs rhs loc = .ok node) (x : Nat × VarRef) :
    x ∈ node.vars ↔ x ∈ lhs.vars ++ rhs.vars := by
  unfold Node.difference at h
  split at h
  · obtain rfl := Except.ok.inj h
    exact Iff.rfl
  · obtain rfl := Except.ok.inj h
    exact mem_vars_scaled x
  · exact nomatch h

/-- Every operator keeps the variables of its operands. -/
theorem Level.keepsVars_join {l : Level} {s : ParseState} {join : Join} (h : l.join? s = some join) :
    join.KeepsVars := by
  rcases Level.join?_cases h with ⟨text, combine, hmem, rfl⟩ | rfl | rfl
  · obtain ⟨op, -, rfl | rfl⟩ := Level.not_isAdditive_of_mem_table hmem
    · intro symbols lhs rhs loc node hnode x
      obtain rfl := Except.ok.inj hnode
      exact Iff.rfl
    · intro symbols lhs rhs loc node hnode x
      obtain rfl := Except.ok.inj hnode
      rw [Parse.swapped, Node.vars, List.mem_append, List.mem_append, or_comm]
  · exact Join.keepsVars_typed Node.mem_vars_sum
  · exact Join.keepsVars_typed Node.mem_vars_difference

theorem Sign.vars_apply (sign : Sign) (loc : Nat) (operand : Node) :
    (sign.apply loc operand).vars = operand.vars := by
  cases sign <;> rfl

/-! ### Scopes as lists of declarations -/

/-- The declarations of scopes, the newest first. -/
def Scopes.declarations : Scopes → List Declaration
  | [] => []
  | scope :: outer => scope.map (fun b => ⟨b.1, b.2, outer.length⟩) ++ declarations outer

/-- The depth of a declaration counts the scopes that are open around its own. -/
theorem Scopes.depth_lt {scopes : Scopes} {d : Declaration} (h : d ∈ scopes.declarations) :
    d.depth < scopes.length := by
  induction scopes with
  | nil => exact absurd h List.not_mem_nil
  | cons scope outer ih =>
    rcases List.mem_append.1 h with h | h
    · obtain ⟨b, -, rfl⟩ := List.mem_map.1 h
      exact Nat.lt_succ_self _
    · exact Nat.lt_succ_of_lt (ih h)

/-- Closing a scope forgets the declarations that are as deep as it, and those only. -/
theorem Scopes.declarations_tail (scope : Scope) (outer : Scopes) :
    (declarations (scope :: outer)).filter (·.depth < outer.length) = declarations outer := by
  have hscope : (scope.map fun b => (⟨b.1, b.2, outer.length⟩ : Declaration)).filter
      (·.depth < outer.length) = [] := by
    refine List.filter_eq_nil_iff.2 fun d hd => ?_
    obtain ⟨b, -, rfl⟩ := List.mem_map.1 hd
    simp
  have houter : (declarations outer).filter (·.depth < outer.length) = declarations outer :=
    List.filter_eq_self.2 fun d hd => decide_eq_true (depth_lt hd)
  rw [declarations, List.filter_append, hscope, houter, List.nil_append]

/-- A name means its first declaration. -/
theorem Scopes.find?_eq (scopes : Scopes) (name : String) :
    scopes.find? name = (scopes.declarations.find? (·.name == name)).map (·.ref) := by
  -- In one scope: the depth that a declaration is given does not matter for the search.
  have hscope : ∀ (scope : Scope) (depth : Nat),
      ((scope.map fun b => (⟨b.1, b.2, depth⟩ : Declaration)).find? (·.name == name)).map (·.ref)
        = scope.lookup name := by
    intro scope depth
    induction scope with
    | nil => rfl
    | cons b scope ih =>
      rw [List.map_cons, List.find?_cons, List.lookup_cons]
      by_cases hname : b.1 = name
      · simp [hname]
      · have hname' : (name == b.1) = false := beq_eq_false_iff_ne.2 fun h => hname h.symm
        have hname : (b.1 == name) = false := beq_eq_false_iff_ne.2 hname
        rw [hname, hname']
        exact ih
  induction scopes with
  | nil => rfl
  | cons scope outer ih =>
    rw [find?, List.findSome?_cons, declarations, List.find?_append, ← hscope scope outer.length]
    cases (scope.map fun b => (⟨b.1, b.2, outer.length⟩ : Declaration)).find? (·.name == name) with
    | some d => rfl
    | none => exact ih

/-! ### The resolver and the tables go on together -/

section Tracking

variable {all : List Token} {r : Resolver} {s t u : ParseState}

/-- What the resolver knows where the state is. -/
def ParseState.resolver (all : List Token) (s : ParseState) : Resolver :=
  .after (all.take (all.length - s.rest.length))

/-- What the resolver knows depends only on the tokens in front of the state. -/
theorem ParseState.resolver_eq {before : List Token} (h : all = before ++ s.rest) :
    s.resolver all = .after before := by
  rw [resolver, h, List.length_append, Nat.add_sub_cancel, List.take_left]

/-- What the resolver knows depends on the position alone. -/
theorem ParseState.resolver_congr (h : t.rest = s.rest) : t.resolver all = s.resolver all := by
  rw [resolver, resolver, h]

/-- Moving past a token is a step of the resolver. -/
theorem ParseState.resolver_advance {token : Token} (hs : s.rest <:+ all)
    (htoken : s.current? = some token) :
    s.advance.resolver all = (s.resolver all).step token := by
  obtain ⟨before, hbefore⟩ := hs
  have hrest := ParseState.rest_of_current? htoken
  have hsplit : all = (before ++ [token]) ++ s.advance.rest := by
    rw [← hbefore, hrest, List.append_assoc]
    rfl
  rw [resolver_eq hsplit, resolver_eq hbefore.symm, Resolver.after_concat]

/-- Moving past a punctuator or keyword is a step of the resolver for that text. -/
theorem ParseState.resolver_advance_of_sees {text : String} (hs : s.rest <:+ all)
    (hsees : s.sees text = true) : s.advance.resolver all = (s.resolver all).stepText text := by
  obtain ⟨token, htoken, hreads⟩ := ParseState.exists_of_sees hsees
  rw [resolver_advance hs htoken, Resolver.step_of_reads hreads]

/-- The table has the variable under the name of the declaration, and a declaration outside of all
blocks is that of a global. -/
structure Declaration.Names (symbols : Symbols) (d : Declaration) : Prop where
  get : ∃ v, symbols.get d.ref = .ok v ∧ v.name = d.name
  isGlobal : d.depth = 0 → ∃ index, d.ref = .globalVar index

/-- A declaration names the same variable in any table that has grown. -/
theorem Declaration.Names.extend {symbols larger : Symbols} {d : Declaration}
    (h : d.Names symbols) (hlarger : symbols.Extends larger) : d.Names larger := by
  obtain ⟨⟨v, hget, hname⟩, hglobal⟩ := h
  exact ⟨⟨v, hlarger.get hget, hname⟩, hglobal⟩

/-- The tables of the state hold what the resolver knows. -/
structure Tracks (all : List Token) (r : Resolver) (s : ParseState) : Prop where
  suffix : s.rest <:+ all
  depth : s.scopes.length = r.depth + 1
  declared : r.declared = s.scopes.declarations
  locals : r.locals = s.locals.length
  globals : r.globals = s.globals.length
  functions : r.functions = s.functions.length
  named : ∀ d ∈ r.declared, d.Names s.symbols

namespace Tracks

/-- A name means the same declaration to the scopes and to the resolver. -/
theorem find? (h : Tracks all r s) (name : String) : s.scopes.find? name = r.find? name := by
  rw [Scopes.find?_eq, Resolver.find?, h.declared]

theorem suffix_advance (h : Tracks all r s) : s.advance.rest <:+ all :=
  (List.tail_suffix s.rest).trans h.suffix

/-- Moving on does not touch the tables. -/
theorem advance (h : Tracks all r s) : Tracks all r s.advance :=
  ⟨h.suffix_advance, h.depth, h.declared, h.locals, h.globals, h.functions, h.named⟩

/-- What is being read does not matter to the tables. -/
theorem change (h : Tracks all r s) (phase : Resolver.Phase) (pending : List String) :
    Tracks all { r with phase, pending } s :=
  ⟨h.suffix, h.depth, h.declared, h.locals, h.globals, h.functions, h.named⟩

/-- There is an innermost scope, and as many around it as the resolver has blocks open. -/
theorem exists_scopes (h : Tracks all r s) :
    ∃ scope outer, s.scopes = scope :: outer ∧ outer.length = r.depth := by
  have hdepth := h.depth
  cases hscopes : s.scopes with
  | nil =>
    rw [hscopes] at hdepth
    exact nomatch hdepth
  | cons scope outer =>
    rw [hscopes, List.length_cons] at hdepth
    exact ⟨scope, outer, rfl, Nat.succ.inj hdepth⟩

/-- A local that is added to the tables is the declaration that the resolver makes in a block. -/
theorem declare_local (h : Tracks all r s) (hdepth : r.depth ≠ 0) (v : Variable) :
    Tracks all (r.declare v.name) (s.addLocal v) := by
  obtain ⟨scope, outer, hscopes, houter⟩ := h.exists_scopes
  have hextends : s.symbols.Extends (s.addLocal v).symbols :=
    ⟨List.prefix_append _ _, List.prefix_refl _⟩
  rw [Resolver.declare, if_neg hdepth]
  refine ⟨h.suffix, ?_, ?_, ?_, h.globals, h.functions, ?_⟩
  · rw [← h.depth, ParseState.addLocal, hscopes]
    rfl
  · show _ :: r.declared = Scopes.declarations (s.scopes.bind v.name (.localVar s.locals.length))
    rw [h.declared, hscopes, h.locals, ← houter]
    rfl
  · show r.locals + 1 = (s.locals ++ [v]).length
    rw [List.length_append, h.locals]
    rfl
  · refine List.forall_mem_cons.2 ⟨⟨⟨v, ?_, rfl⟩, fun h0 => absurd h0 hdepth⟩, fun d hd =>
      (h.named d hd).extend hextends⟩
    refine entry_eq_ok_iff.2 ?_
    show (s.locals ++ [v])[r.locals]? = some v
    rw [h.locals, List.getElem?_append_right (Nat.le_refl _), Nat.sub_self]
    rfl

/-- A global that is added to the tables is the declaration that the resolver makes outside of
blocks. -/
theorem declare_global (h : Tracks all r s) (hdepth : r.depth = 0) (v : Variable) :
    Tracks all (r.declare v.name) (s.addGlobal v) := by
  obtain ⟨scope, outer, hscopes, houter⟩ := h.exists_scopes
  have hextends : s.symbols.Extends (s.addGlobal v).symbols :=
    ⟨List.prefix_refl _, List.prefix_append _ _⟩
  rw [Resolver.declare, if_pos hdepth]
  refine ⟨h.suffix, ?_, ?_, h.locals, ?_, h.functions, ?_⟩
  · rw [← h.depth, ParseState.addGlobal, hscopes]
    rfl
  · show _ :: r.declared = Scopes.declarations (s.scopes.bind v.name (.globalVar s.globals.length))
    rw [h.declared, hscopes, h.globals, ← hdepth, ← houter]
    rfl
  · show r.globals + 1 = (s.globals ++ [v]).length
    rw [List.length_append, h.globals]
    rfl
  · refine List.forall_mem_cons.2 ⟨⟨⟨v, ?_, rfl⟩, fun _ => ⟨_, rfl⟩⟩, fun d hd =>
      (h.named d hd).extend hextends⟩
    refine entry_eq_ok_iff.2 ?_
    show (s.globals ++ [v])[r.globals]? = some v
    rw [h.globals, List.getElem?_append_right (Nat.le_refl _), Nat.sub_self]
    rfl

/-- The variable of a string literal takes the number of a global but declares no name. -/
theorem literal (h : Tracks all r s) (bytes : List UInt8) (ty : Ty) :
    Tracks all { r with globals := r.globals + 1 } (s.addLiteral bytes ty) := by
  have hextends : s.symbols.Extends (s.addLiteral bytes ty).symbols :=
    ⟨List.prefix_refl _, List.prefix_append _ _⟩
  refine ⟨h.suffix, h.depth, h.declared, h.locals, ?_, h.functions, fun d hd =>
    (h.named d hd).extend hextends⟩
  show r.globals + 1 = (s.globals ++ [_]).length
  rw [List.length_append, h.globals]
  rfl

/-- A scope is opened where the resolver gets one block deeper. -/
theorem enterScope (h : Tracks all r s) : Tracks all { r with depth := r.depth + 1 } s.enterScope :=
  ⟨h.suffix, congrArg (· + 1) h.depth, h.declared, h.locals, h.globals, h.functions, h.named⟩

/-- A scope is closed where the resolver leaves a block, and both forget its declarations. -/
theorem leaveScope (h : Tracks all r s) (hdepth : r.depth ≠ 0) : Tracks all r.leave s.leaveScope := by
  obtain ⟨scope, outer, hscopes, houter⟩ := h.exists_scopes
  have hscopes' : s.leaveScope.scopes = outer := by
    rw [ParseState.leaveScope, hscopes]
    rfl
  refine ⟨h.suffix, ?_, ?_, h.locals, h.globals, h.functions, fun d hd =>
    h.named d (List.mem_of_mem_filter hd)⟩
  · rw [hscopes', houter]
    show r.depth = r.depth - 1 + 1
    omega
  · rw [hscopes']
    show r.declared.filter (·.depth < r.depth) = _
    rw [h.declared, hscopes, ← houter, Scopes.declarations_tail]

/-- Globals are there whatever the locals are. -/
theorem forget (h : Tracks all r s) (hdepth : r.depth = 0) :
    Tracks all { r with locals := 0 } { s with locals := [] } := by
  refine ⟨h.suffix, h.depth, h.declared, rfl, h.globals, h.functions, fun d hd => ?_⟩
  have hd' := h.named d hd
  have hzero : d.depth = 0 := by
    have hlt := Scopes.depth_lt (h.declared ▸ hd)
    rw [h.depth, hdepth] at hlt
    omega
  obtain ⟨index, hindex⟩ := hd'.isGlobal hzero
  obtain ⟨v, hget, hname⟩ := hd'.get
  rw [hindex] at hget
  exact ⟨⟨v, by rw [hindex]; exact hget, hname⟩, hd'.isGlobal⟩

/-- Behind a function its scope is closed, and the next function has locals of its own. -/
theorem finish (h : Tracks all r s) (hdepth : r.depth = 1) (name : String) (params : List (Nat × Ty))
    (result : Ty) (body : Node) :
    Tracks all r.finish (s.leaveScope.addFunction name params result body) := by
  have hleave := h.leaveScope (by omega)
  have hzero : r.leave.depth = 0 := by
    show r.depth - 1 = 0
    omega
  have hforget := hleave.forget hzero
  refine ⟨hforget.suffix, hforget.depth, hforget.declared, rfl, hforget.globals, ?_, hforget.named⟩
  show r.functions + 1 = (s.functions ++ [_]).length
  rw [List.length_append, h.functions]
  rfl

end Tracks

/-- The names that wait are declared in their order, and none of them waits any more. -/
theorem Resolver.complete_eq (r : Resolver) (phase : Resolver.Phase) :
    r.complete phase = { r.pending.foldl Resolver.declare r with phase, pending := [] } := rfl

/-- Completing a declaration declares its variables one after the other. -/
theorem Tracks.complete {add : ParseState → Variable → ParseState}
    (hadd : ∀ {r' : Resolver} {s' : ParseState} (v : Variable), Tracks all r' s' →
      r'.depth = r.depth → Tracks all (r'.declare v.name) (add s' v))
    {added : List Variable} (h : Tracks all r s) (hpending : r.pending = added.map (·.name))
    (phase : Resolver.Phase) : Tracks all (r.complete phase) (added.foldl add s) := by
  have hdeclare : ∀ (added : List Variable) {r' : Resolver} {s' : ParseState}, Tracks all r' s' →
      r'.depth = r.depth →
        Tracks all ((added.map (·.name)).foldl Resolver.declare r') (added.foldl add s') := by
    intro added
    induction added with
    | nil => exact fun h _ => h
    | cons v added ih =>
      intro r' s' h hdepth
      exact ih (hadd v h hdepth) ((Resolver.foldl_declare_keeps [v.name] r').1.trans hdepth)
  rw [Resolver.complete_eq, hpending]
  exact (hdeclare added h rfl).change phase []

/-- The locals of a declaration are added where the resolver comes to its semicolon. -/
theorem Tracks.complete_locals {added : List Variable} (h : Tracks all r s) (hdepth : r.depth ≠ 0)
    (hpending : r.pending = added.map (·.name)) (phase : Resolver.Phase) :
    Tracks all (r.complete phase) (added.foldl ParseState.addLocal s) :=
  h.complete (fun v h' hsame => h'.declare_local (hsame ▸ hdepth) v) hpending phase

/-- The globals of a declaration are added where the resolver comes to its semicolon. -/
theorem Tracks.complete_globals {added : List Variable} (h : Tracks all r s) (hdepth : r.depth = 0)
    (hpending : r.pending = added.map (·.name)) (phase : Resolver.Phase) :
    Tracks all (r.complete phase) (added.foldl ParseState.addGlobal s) :=
  h.complete (fun v h' hsame => h'.declare_global (hsame.trans hdepth) v) hpending phase

/-! ### Variables stand where the tokens name them -/

/-- A variable in a tree stands for a token at its place: for an identifier that is its name, and
that the resolver resolves to it if it is a use; or for a string literal. -/
def StandsFor (all : List Token) (symbols : Symbols) (x : Nat × VarRef) : Prop :=
  ∃ before token after v, all = before ++ token :: after ∧ token.loc = x.1
    ∧ symbols.get x.2 = .ok v
    ∧ ((token.kind = .identifier ∧ v.name = token.text
        ∧ (UseIn all before token after → (Resolver.after before).find? token.text = some x.2))
      ∨ ((∃ bytes ty, token.kind = .string bytes ty) ∧ Symbol.isLiteral v.name = true))

/-- Tables that grow do not change what a variable stands for. -/
theorem StandsFor.extend {symbols larger : Symbols} {x : Nat × VarRef}
    (h : StandsFor all symbols x) (hlarger : symbols.Extends larger) : StandsFor all larger x := by
  obtain ⟨before, token, after, v, hsplit, hloc, hget, hkind⟩ := h
  exact ⟨before, token, after, v, hsplit, hloc, hlarger.get hget, hkind⟩

/-- All the variables stand for tokens. -/
def AllStand (all : List Token) (symbols : Symbols) (vars : List (Nat × VarRef)) : Prop :=
  ∀ x ∈ vars, StandsFor all symbols x

theorem AllStand.extend {symbols larger : Symbols} {vars : List (Nat × VarRef)}
    (h : AllStand all symbols vars) (hlarger : symbols.Extends larger) :
    AllStand all larger vars := fun x hx => (h x hx).extend hlarger

theorem allStand_nil (symbols : Symbols) : AllStand all symbols [] :=
  fun _ hx => absurd hx List.not_mem_nil

/-- The uses in front of which `n` or fewer and behind which `m` or more tokens are left have
declarations, are where `place` says, and are among the variables. -/
def Covers (all : List Token) (place : Option Nat) (m n : Nat) (vars : List (Nat × VarRef)) : Prop :=
  ∀ before token after, UseIn all before token after → m ≤ after.length → after.length < n →
    (Resolver.after before).place = place
      ∧ ∃ ref, (Resolver.after before).find? token.text = some ref ∧ (token.loc, ref) ∈ vars

/-- More variables cover what fewer do. -/
theorem Covers.mono {place : Option Nat} {m n : Nat} {vars more : List (Nat × VarRef)}
    (h : Covers all place m n vars) (hmore : ∀ x ∈ vars, x ∈ more) : Covers all place m n more := by
  intro before token after huse hm hn
  obtain ⟨hplace, ref, hfind, hmem⟩ := h before token after huse hm hn
  exact ⟨hplace, ref, hfind, hmore _ hmem⟩

/-- Two stretches of tokens, one behind the other, are covered if both are. -/
theorem Covers.append {place : Option Nat} {k m n : Nat} {vars : List (Nat × VarRef)}
    (h : Covers all place m n vars) (hmore : Covers all place k m vars) :
    Covers all place k n vars := by
  intro before token after huse hk hn
  rcases Nat.lt_or_ge after.length m with hlt | hge
  · exact hmore before token after huse hk hlt
  · exact h before token after huse hge hn

/-- A stretch without tokens has no uses. -/
theorem covers_refl (place : Option Nat) (n : Nat) (vars : List (Nat × VarRef)) :
    Covers all place n n vars :=
  fun _ _ _ _ hm hn => absurd hn (Nat.not_lt.2 hm)

/-- The use that stands at the position of a state. -/
theorem UseIn.at_state {before after : List Token} {token : Token} (h : UseIn all before token after)
    (hs : s.rest <:+ all) (hlength : after.length + 1 = s.rest.length) :
    s.rest = token :: after ∧ s.resolver all = .after before := by
  obtain ⟨front, hfront⟩ := hs
  have hsplit : front ++ s.rest = before ++ token :: after := hfront.trans h.split
  obtain ⟨hbefore, hrest⟩ := List.append_inj' hsplit (by rw [List.length_cons, hlength])
  exact ⟨hrest, (ParseState.resolver_eq hfront.symm).trans (congrArg _ hbefore)⟩

/-- A token that is no use. -/
theorem covers_advance (hs : s.rest <:+ all) {token : Token} (htoken : s.current? = some token)
    (hnot : token.kind = .identifier → (s.resolver all).Reading → s.advance.sees "(" = true)
    (place : Option Nat) (vars : List (Nat × VarRef)) :
    Covers all place s.advance.rest.length s.rest.length vars := by
  intro before found after huse hm hn
  have hlength := ParseState.length_advance htoken
  obtain ⟨hrest, hresolver⟩ := huse.at_state hs (by omega)
  have hcurrent : s.rest = token :: s.advance.rest := ParseState.rest_of_current? htoken
  obtain ⟨rfl, hafter⟩ := List.cons.inj (hcurrent.symm.trans hrest)
  have hcall := hnot huse.kind (hresolver ▸ huse.reading)
  rw [ParseState.sees, ParseState.current?, hafter, huse.notCall] at hcall
  exact absurd hcall Bool.false_ne_true

/-! ### Reading on -/

/-- From `s` to `t`, what is read has the variables `new`, of which `old` had been read before. -/
structure Reads (all : List Token) (s t : ParseState) (old new : List (Nat × VarRef)) : Prop where
  grows : s.symbols.Extends t.symbols
  functions : t.functions = s.functions
  kept : ∀ x ∈ old, x ∈ new
  stand : AllStand all t.symbols new
  covers : Covers all (s.resolver all).place t.rest.length s.rest.length new

namespace Reads

variable {old mid new : List (Nat × VarRef)}

/-- Reading no tokens adds no variables. -/
theorem refl (h : AllStand all s.symbols old) : Reads all s s old old :=
  ⟨.refl _, rfl, fun _ hx => hx, h, covers_refl _ _ _⟩

/-- Two stretches are read as one, if they are in the same function. -/
theorem trans (h : Reads all s t old mid) (hmore : Reads all t u mid new)
    (hplace : (t.resolver all).place = (s.resolver all).place) : Reads all s u old new where
  grows := h.grows.trans hmore.grows
  functions := hmore.functions.trans h.functions
  kept x hx := hmore.kept x (h.kept x hx)
  stand := hmore.stand
  covers := by
    have hlast := hmore.covers
    rw [hplace] at hlast
    exact (h.covers.mono hmore.kept).append hlast

/-- What had been read before can be anything that stands. -/
theorem frame (h : Reads all s t [] new) (hold : AllStand all s.symbols old) :
    Reads all s t old (old ++ new) where
  grows := h.grows
  functions := h.functions
  kept _ hx := List.mem_append_left _ hx
  stand x hx := (List.mem_append.1 hx).elim ((hold.extend h.grows) x) (h.stand x)
  covers := h.covers.mono fun _ hx => List.mem_append_right _ hx

/-- The order of the variables that have been read does not matter. -/
theorem congr {new' : List (Nat × VarRef)} (h : Reads all s t old new)
    (hnew : ∀ x, x ∈ new' ↔ x ∈ new) : Reads all s t old new' where
  grows := h.grows
  functions := h.functions
  kept x hx := (hnew x).2 (h.kept x hx)
  stand x hx := h.stand x ((hnew x).1 hx)
  covers := h.covers.mono fun x hx => (hnew x).2 hx

/-- Moving past a token that is no use. -/
theorem advance (hs : s.rest <:+ all) {token : Token} (htoken : s.current? = some token)
    (hnot : token.kind = .identifier → (s.resolver all).Reading → s.advance.sees "(" = true)
    (hold : AllStand all s.symbols old) : Reads all s s.advance old old :=
  ⟨.refl _, rfl, fun _ hx => hx, hold, covers_advance hs htoken hnot _ _⟩

/-- Moving past a punctuator or keyword. -/
theorem past (h : Reads all s t old new) (ht : t.rest <:+ all) {text : String}
    (hsees : t.sees text = true) (hplace : (t.resolver all).place = (s.resolver all).place) :
    Reads all s t.advance old new := by
  obtain ⟨token, htoken, hreads⟩ := ParseState.exists_of_sees hsees
  have hnot := Token.kind_ne_identifier_of_reads hreads
  exact h.trans (.advance ht htoken (fun hkind => absurd hkind hnot) h.stand) hplace

/-- The tables may grow at one position. -/
theorem extend (h : Reads all s t old new) (hrest : u.rest = t.rest)
    (hgrows : t.symbols.Extends u.symbols) (hfunctions : u.functions = t.functions) :
    Reads all s u old new where
  grows := h.grows.trans hgrows
  functions := hfunctions.trans h.functions
  kept := h.kept
  stand := h.stand.extend hgrows
  covers := by
    rw [hrest]
    exact h.covers

/-- Reading may start with smaller tables at the same position. -/
theorem start (h : Reads all t u old new) (hrest : t.rest = s.rest)
    (hgrows : s.symbols.Extends t.symbols) (hfunctions : t.functions = s.functions) :
    Reads all s u old new where
  grows := hgrows.trans h.grows
  functions := h.functions.trans hfunctions
  kept := h.kept
  stand := h.stand
  covers := by
    have hcovers := h.covers
    rw [ParseState.resolver_congr hrest, hrest] at hcovers
    exact hcovers

/-- More variables may be there, as long as they stand. -/
theorem more {more : List (Nat × VarRef)} (h : Reads all s t old new) (hmore : ∀ x ∈ new, x ∈ more)
    (hstand : AllStand all t.symbols more) : Reads all s t old more where
  grows := h.grows
  functions := h.functions
  kept x hx := hmore x (h.kept x hx)
  stand := hstand
  covers := h.covers.mono hmore

end Reads

/-- The resolver is in the block that it was in, and the same names wait to be declared. -/
structure Resolver.Stays (r r' : Resolver) : Prop where
  depth : r'.depth = r.depth
  functions : r'.functions = r.functions
  pending : r'.pending = r.pending

/-- The resolver is where it was, and reads what it read. -/
structure Resolver.Keeps (r r' : Resolver) : Prop extends Resolver.Stays r r' where
  phase : r'.phase = r.phase

theorem Resolver.Stays.trans {a b c : Resolver} (hab : a.Stays b) (hbc : b.Stays c) : a.Stays c :=
  ⟨hbc.depth.trans hab.depth, hbc.functions.trans hab.functions, hbc.pending.trans hab.pending⟩

/-- In the same block the resolver is in the same function. -/
theorem Resolver.Stays.place {a b : Resolver} (h : a.Stays b) : b.place = a.place := by
  rw [Resolver.place, Resolver.place, h.depth, h.functions]

theorem Resolver.Keeps.refl (r : Resolver) : r.Keeps r := ⟨⟨rfl, rfl, rfl⟩, rfl⟩

theorem Resolver.Keeps.trans {a b c : Resolver} (hab : a.Keeps b) (hbc : b.Keeps c) : a.Keeps c :=
  ⟨hab.toStays.trans hbc.toStays, hbc.phase.trans hab.phase⟩

/-- Where an expression could stand, one can stand again. -/
theorem Resolver.Keeps.reading {a b : Resolver} (h : a.Keeps b) (ha : a.Reading) : b.Reading := by
  rw [Resolver.Reading, h.phase]
  exact ha

/-- The state tracks the resolver where an expression can stand. -/
structure Ready (all : List Token) (s : ParseState) : Prop where
  tracks : Tracks all (s.resolver all) s
  reading : (s.resolver all).Reading

/-- The state tracks the resolver between statements or declarations. -/
structure Between (all : List Token) (s : ParseState) : Prop where
  tracks : Tracks all (s.resolver all) s
  plain : (s.resolver all).phase = .plain
  pending : (s.resolver all).pending = []

/-- An expression can stand where a statement can. -/
theorem Between.ready (h : Between all s) : Ready all s := ⟨h.tracks, .inl h.plain⟩

/-- From `s` to `t`, what is read has the variables `new`, and the resolver gets to where `r` is. -/
structure Arrives (all : List Token) (r : Resolver) (s t : ParseState)
    (old new : List (Nat × VarRef)) : Prop where
  tracks : Tracks all (t.resolver all) t
  keeps : r.Keeps (t.resolver all)
  place : (t.resolver all).place = (s.resolver all).place
  reads : Reads all s t old new

/-- From `s` to `t`, what is read has the variables `new`, and the resolver stays where it is. -/
abbrev Scans (all : List Token) (s t : ParseState) (old new : List (Nat × VarRef)) : Prop :=
  Arrives all (s.resolver all) s t old new

namespace Arrives

variable {r' : Resolver} {old mid new : List (Nat × VarRef)}

/-- The order of the variables that have been read does not matter. -/
theorem congr {new' : List (Nat × VarRef)} (h : Arrives all r s t old new)
    (hnew : ∀ x, x ∈ new' ↔ x ∈ new) : Arrives all r s t old new' :=
  ⟨h.tracks, h.keeps, h.place, h.reads.congr hnew⟩

/-- It does not matter where the first stretch arrives, only where the second one does. -/
theorem trans {q : Resolver} (h : Arrives all q s t old mid) (hmore : Arrives all r' t u mid new)
    (hkeeps : r.Keeps r') : Arrives all r s u old new :=
  ⟨hmore.tracks, hkeeps.trans hmore.keeps, hmore.place.trans h.place,
    h.reads.trans hmore.reads h.place⟩

/-- Variables that have been read before stay in front of those that are read now. -/
theorem frame (h : Arrives all r s t [] new) (hold : AllStand all s.symbols old) :
    Arrives all r s t old (old ++ new) :=
  ⟨h.tracks, h.keeps, h.place, h.reads.frame hold⟩

/-- Moving past a token that is no use. -/
theorem advance (hs : Tracks all (s.resolver all) s) {token : Token}
    (htoken : s.current? = some token) (hstep : (s.resolver all).step token = r)
    (hr : Tracks all r s) (hplace : r.place = (s.resolver all).place)
    (hnot : token.kind = .identifier → (s.resolver all).Reading → s.advance.sees "(" = true)
    (hold : AllStand all s.symbols old) : Arrives all r s s.advance old old := by
  have hresolver : s.advance.resolver all = r :=
    (ParseState.resolver_advance hs.suffix htoken).trans hstep
  refine ⟨?_, ?_, ?_, .advance hs.suffix htoken hnot hold⟩
  · rw [hresolver]
    exact hr.advance
  · rw [hresolver]
    exact .refl _
  · rw [hresolver, hplace]

/-- Moving past a punctuator or keyword. -/
theorem advance_of_sees (hs : Tracks all (s.resolver all) s) {text : String}
    (hsees : s.sees text = true) (hstep : (s.resolver all).stepText text = r)
    (hr : Tracks all r s) (hplace : r.place = (s.resolver all).place)
    (hold : AllStand all s.symbols old) : Arrives all r s s.advance old old := by
  obtain ⟨token, htoken, hreads⟩ := ParseState.exists_of_sees hsees
  have hnot := Token.kind_ne_identifier_of_reads hreads
  exact advance hs htoken ((Resolver.step_of_reads hreads).trans hstep) hr hplace
    (fun hkind => absurd hkind hnot) hold

/-- Moving past a punctuator or keyword that is of no interest to the resolver. -/
theorem past (h : Arrives all r s t old new) {text : String} (hsees : t.sees text = true)
    (hstep : (t.resolver all).stepText text = t.resolver all) :
    Arrives all r s t.advance old new :=
  h.trans (.advance_of_sees h.tracks hsees hstep h.tracks rfl h.reads.stand) h.keeps

end Arrives

namespace Scans

variable {old mid new : List (Nat × VarRef)}

/-- Behind an expression another one can stand. -/
theorem ready (h : Scans all s t old new) (hs : Ready all s) : Ready all t :=
  ⟨h.tracks, h.keeps.reading hs.reading⟩

/-- Behind a statement another one can stand. -/
theorem between (h : Scans all s t old new) (hs : Between all s) : Between all t :=
  ⟨h.tracks, h.keeps.phase.trans hs.plain, h.keeps.pending.trans hs.pending⟩

/-- Reading no tokens leaves the resolver where it is. -/
theorem refl (hs : Tracks all (s.resolver all) s) (hold : AllStand all s.symbols old) :
    Scans all s s old old :=
  ⟨hs, .refl _, rfl, .refl hold⟩

theorem trans (h : Scans all s t old mid) (hmore : Scans all t u mid new) :
    Scans all s u old new :=
  Arrives.trans h hmore h.keeps

/-- What is read next is read behind what has been read. -/
theorem andThen (h : Scans all s t old mid) (hmore : Scans all t u [] new) :
    Scans all s u old (mid ++ new) :=
  h.trans (hmore.frame h.reads.stand)

/-- Moving past a punctuator or keyword inside an expression. -/
theorem past_reading (h : Scans all s t old new) (hs : Ready all s) {text : String}
    (hsees : t.sees text = true) (htext : text ∉ ["func", "var", "\x7b", "\x7d", ";"]) :
    Scans all s t.advance old new :=
  Arrives.past h hsees (Resolver.stepText_of_reading (h.ready hs).reading htext)

/-- Moving past a punctuator or keyword inside a statement. -/
theorem past_plain (h : Scans all s t old new) (hs : Between all s) {text : String}
    (hsees : t.sees text = true) (htext : text ∉ ["func", "var", "\x7b", "\x7d"]) :
    Scans all s t.advance old new :=
  Arrives.past h hsees (Resolver.stepText_of_plain (h.between hs).plain htext)

/-- Moving past a punctuator or keyword of a type. -/
theorem past_type (h : Scans all s t old new) {text : String} (hsees : t.sees text = true)
    (htext : text ∈ ["[", "]", "*", "int", "char"]) : Scans all s t.advance old new :=
  Arrives.past h hsees (Resolver.stepText_of_type htext)

/-- A number is no variable, and the resolver does not look at it. -/
theorem past_number (h : Scans all s t old new) {value : Option Int64} {loc : Nat} {text : String}
    (htoken : t.current? = some ⟨.number value, loc, text⟩) : Scans all s t.advance old new :=
  h.trans (.advance h.tracks htoken rfl h.tracks rfl (fun hkind => nomatch hkind) h.reads.stand)

end Scans

end Tracking

end PocketCompiler
