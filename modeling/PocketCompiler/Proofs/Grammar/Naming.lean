import PocketCompiler.Proofs.Grammar.Scaling
import PocketCompiler.Proofs.Token.Decomposition

/-!
# Names of globals and functions

Globals and functions get their names from identifiers, and string literals theirs from a counter.
`Program.Named` says what comes of it: the names are distinct, those that the program chose are
identifiers that the assembler does not read as something else, and so are the names of the
functions that are called.

Two tables and a counter have to be seen together for that.  A name is checked when its declaration
is read, and that of a function is put into its table only when the body has been read, so it has to
be known what can be declared meanwhile: string literals and nothing else (`ParseState.KeepsNames`).
-/

namespace PocketCompiler

open Parse (DeclaredName)

/-! ### Calls of a tree -/

mutual

/-- The names of the functions that a tree calls. -/
def Node.calls : Node → List String
  | .num _ _ | .var _ _ => []
  | .neg _ operand | .addr _ operand | .deref _ operand => operand.calls
  | .binary _ _ lhs rhs => lhs.calls ++ rhs.calls
  | .assign _ target value => target.calls ++ value.calls
  | .call _ name args => name :: Node.callsAll args
  | .exprStmt _ expr => expr.calls
  | .ret _ value => value.calls
  | .block _ body => Node.callsAll body
  | .ifElse _ cond onTrue onFalse => cond.calls ++ onTrue.calls ++ Node.callsSome onFalse
  | .loop _ init cond step body =>
    Node.callsSome init ++ Node.callsSome cond ++ Node.callsSome step ++ body.calls

/-- The names of the functions that the trees of a list call. -/
def Node.callsAll : List Node → List String
  | [] => []
  | node :: nodes => node.calls ++ Node.callsAll nodes

/-- The names of the functions that a tree calls, if there is one. -/
def Node.callsSome : Option Node → List String
  | none => []
  | some node => node.calls

end

/-- One more tree adds its calls behind the others. -/
theorem Node.callsAll_concat (nodes : List Node) (node : Node) :
    callsAll (nodes ++ [node]) = callsAll nodes ++ node.calls := by
  induction nodes with
  | nil => exact List.append_nil _
  | cons first nodes ih => rw [List.cons_append, callsAll, ih, callsAll, List.append_assoc]

mutual

/-- Forgetting the types changes no name that is called. -/
theorem Node.calls_untyped : ∀ node : Node, node.untyped.calls = node.calls
  | .num _ _ | .var _ _ => by simp only [untyped, calls]
  | .neg _ operand | .addr _ operand | .deref _ operand => by
    simp only [untyped, calls, calls_untyped operand]
  | .binary _ _ lhs rhs => by simp only [untyped, calls, calls_untyped lhs, calls_untyped rhs]
  | .assign _ target value => by
    simp only [untyped, calls, calls_untyped target, calls_untyped value]
  | .call _ _ args => by simp only [untyped, calls, callsAll_untypedAll args]
  | .exprStmt _ expr => by simp only [untyped, calls, calls_untyped expr]
  | .ret _ value => by simp only [untyped, calls, calls_untyped value]
  | .block _ body => by simp only [untyped, calls, callsAll_untypedAll body]
  | .ifElse _ cond onTrue onFalse => by
    simp only [untyped, calls, calls_untyped cond, calls_untyped onTrue,
      callsSome_untypedSome onFalse]
  | .loop _ init cond step body => by
    simp only [untyped, calls, callsSome_untypedSome init, callsSome_untypedSome cond,
      callsSome_untypedSome step, calls_untyped body]

theorem Node.callsAll_untypedAll : ∀ nodes : List Node, callsAll (untypedAll nodes) = callsAll nodes
  | [] => rfl
  | node :: nodes => by
    simp only [untypedAll, callsAll, calls_untyped node, callsAll_untypedAll nodes]

theorem Node.callsSome_untypedSome : ∀ node : Option Node,
    callsSome (untypedSome node) = callsSome node
  | none => rfl
  | some node => by simp only [untypedSome, callsSome, calls_untyped node]

end

/-- Typing changes no name that is called. -/
theorem calls_of_annotate {symbols : Symbols} {node typed : Node}
    (h : annotate symbols node = .ok typed) : typed.calls = node.calls := by
  have huntyped := (ends_untyped_annotate symbols node).of_eq_ok h
  rw [← Node.calls_untyped, huntyped, Node.calls_untyped]

/-! ### Symbols -/

/-- A name that a program can give to a symbol of the assembly. -/
def IsSymbol (name : String) : Prop := isIdentifier name = true ∧ name ∉ Symbol.reserved

/-- Names that a program can give to symbols of the assembly. -/
def AllSymbols (names : List String) : Prop := ∀ name ∈ names, IsSymbol name

theorem allSymbols_nil : AllSymbols [] := fun _ h => absurd h List.not_mem_nil

theorem AllSymbols.append {names more : List String} (h : AllSymbols names)
    (hmore : AllSymbols more) : AllSymbols (names ++ more) :=
  List.forall_mem_append.2 ⟨h, hmore⟩

/-- The text of a token of the kind identifier is spelled like one. -/
theorem Token.HasShape.isIdentifier {token : Token} {shape : Shape} (h : token.HasShape shape)
    (hkind : token.kind = .identifier) : isIdentifier token.text = true := by
  obtain ⟨hfits, hshape⟩ := h
  rw [hkind] at hshape
  cases shape with
  | word =>
    obtain ⟨c, rest, htext, hc, hrest⟩ := hfits
    have hword : wordKind token.text.toList = .identifier := (PieceKind.lexeme.inj hshape).symm
    unfold wordKind at hword
    split at hword
    · exact nomatch hword
    · next hkeyword =>
      rw [String.ofList_toList] at hkeyword
      have hisWord : isWord token.text = true := by
        unfold isWord
        rw [htext]
        simpa [hc] using hrest
      simp [PocketCompiler.isIdentifier, hisWord, hkeyword]
  | _ => exact nomatch hshape

/-- Identifiers start like words. -/
theorem exists_of_isIdentifier {name : String} (h : isIdentifier name = true) :
    ∃ c cs, name.toList = c :: cs ∧ isWordStart c = true := by
  simp only [isIdentifier, isWord, Bool.and_eq_true] at h
  obtain ⟨hword, -⟩ := h
  split at hword
  · exact nomatch hword
  · next c cs htext =>
    simp only [Bool.and_eq_true] at hword
    exact ⟨c, cs, htext, hword.1⟩

/-- The symbol of a literal starts with a dot, as no identifier does. -/
theorem toList_ofLiteral (number : Nat) :
    (Symbol.ofLiteral number).toList = '.' :: 'L' :: '.' :: '.' :: Nat.toDigits 10 number := by
  have hdigits : (toString number).toList = Nat.toDigits 10 number := Nat.toList_repr
  rw [Symbol.ofLiteral, String.toList_append, String.toList_ofList, hdigits]
  rfl

/-- Two numbers with the same digits are equal. -/
theorem toDigits_injective {m n : Nat} (h : Nat.toDigits 10 m = Nat.toDigits 10 n) : m = n := by
  rw [← decimal_toDigits m, h, decimal_toDigits]

/-- Literals with different numbers have different symbols. -/
theorem ofLiteral_injective {m n : Nat} (h : Symbol.ofLiteral m = Symbol.ofLiteral n) : m = n := by
  have hlist := congrArg String.toList h
  rw [toList_ofLiteral, toList_ofLiteral] at hlist
  simp only [List.cons.injEq, true_and] at hlist
  exact toDigits_injective hlist

/-- Identifiers are not labels of string literals. -/
theorem isLiteral_of_isIdentifier {name : String} (h : isIdentifier name = true) :
    Symbol.isLiteral name = false := by
  obtain ⟨c, cs, htext, hc⟩ := exists_of_isIdentifier h
  rw [Symbol.isLiteral, htext, Symbol.literalStart, List.isPrefixOf_cons_cons]
  have hdot : ('.' == c) = false := by
    rw [beq_eq_false_iff_ne]
    rintro rfl
    exact absurd hc (by decide)
  rw [hdot, Bool.false_and]

/-- The symbol of a literal is no identifier, so no variable or function of a program has it. -/
theorem isIdentifier_ofLiteral (number : Nat) : isIdentifier (Symbol.ofLiteral number) = false := by
  rw [← Bool.not_eq_true]
  intro h
  obtain ⟨c, cs, htext, hc⟩ := exists_of_isIdentifier h
  rw [toList_ofLiteral] at htext
  obtain ⟨rfl, -⟩ := List.cons.inj htext
  exact absurd hc (by decide)

/-- The label of a string literal is none of the names that a program chooses. -/
theorem IsSymbol.mem_of_perm {name : String} {names more : List String} {number : Nat}
    (h : IsSymbol name) (hperm : more.Perm (name :: names))
    (hmem : Symbol.ofLiteral number ∈ more) : Symbol.ofLiteral number ∈ names := by
  rcases List.mem_cons.1 (hperm.mem_iff.1 hmem) with heq | hmem
  · have hidentifier := h.1
    rw [← heq, isIdentifier_ofLiteral] at hidentifier
    exact absurd hidentifier Bool.false_ne_true
  · exact hmem

/-! ### Programs and states -/

/-- The names of globals and functions. -/
def Program.names (program : Program) : List String :=
  program.globals.map (·.name) ++ program.functions.map (·.name)

/-- The names of a program are distinct and can be symbols of the assembly. -/
structure Program.Named (program : Program) : Prop where
  globals : ∀ g ∈ program.globals, IsSymbol g.name ∨ ∃ number, g.name = Symbol.ofLiteral number
  functions : ∀ f ∈ program.functions, IsSymbol f.name ∧ AllSymbols f.body.calls
  nodup : program.names.Nodup
  /-- A global that starts with an address starts with that of a global. -/
  addresses : ∀ g ∈ program.globals, ∀ label, g.contents = some (.address label) →
    label ∈ program.globals.map (·.name)

/-- What holds of names while tokens are read. -/
structure ParseState.Named (s : ParseState) : Prop where
  tokens : ∀ token ∈ s.rest, token.kind = .identifier → isIdentifier token.text = true
  /-- The label of the next string literal is new. -/
  literals : ∀ number, Symbol.ofLiteral number ∈ s.program.names → number < s.literals
  program : s.program.Named

/-- No identifier becomes the name of a global or a function. -/
structure ParseState.KeepsNames (s t : ParseState) : Prop where
  named : t.Named
  names : ∀ name, isIdentifier name = true → name ∈ t.program.names → name ∈ s.program.names

namespace ParseState

variable {s t u : ParseState}

/-- A state that is named keeps its names. -/
theorem KeepsNames.refl (h : s.Named) : s.KeepsNames s := ⟨h, fun _ _ hname => hname⟩

theorem KeepsNames.trans (h : s.KeepsNames t) (h' : t.KeepsNames u) : s.KeepsNames u :=
  ⟨h'.named, fun name hname hu => h.names name hname (h'.names name hname hu)⟩

/-- The names depend on the tables only. -/
theorem KeepsNames.of_tables (h : s.KeepsNames t) (hrest : u.rest ⊆ t.rest)
    (hprogram : u.program = t.program) (hliterals : u.literals = t.literals) : s.KeepsNames u := by
  refine ⟨⟨fun token htoken => h.named.tokens token (hrest htoken), ?_, ?_⟩, ?_⟩
  · rw [hprogram, hliterals]
    exact h.named.literals
  · rw [hprogram]
    exact h.named.program
  · rw [hprogram]
    exact h.names

/-- Moving past a token gives no names. -/
theorem KeepsNames.advance (h : s.KeepsNames t) : s.KeepsNames t.advance :=
  h.of_tables (fun _ htoken => List.mem_of_mem_tail htoken) rfl rfl

/-- A local is not a symbol, so its name does not matter. -/
theorem KeepsNames.addLocal (h : s.KeepsNames t) (added : Variable) :
    s.KeepsNames (t.addLocal added) :=
  h.of_tables (List.Subset.refl _) rfl rfl

/-- Locals are no symbols, however many are declared at once. -/
theorem KeepsNames.foldl_addLocal (h : s.KeepsNames t) (added : List Variable) :
    s.KeepsNames (added.foldl ParseState.addLocal t) := by
  induction added generalizing t with
  | nil => exact h
  | cons v added ih => exact ih (h.addLocal v)

theorem Named.advance (h : s.Named) : s.advance.Named := (KeepsNames.refl h).advance.named

/-- The identifier that comes next is one. -/
theorem Named.isIdentifier {loc : Nat} {name : String} (h : s.Named)
    (hcurrent : s.current? = some ⟨.identifier, loc, name⟩) : isIdentifier name = true :=
  h.tokens _ (List.mem_of_mem_head? hcurrent) rfl

end ParseState

/-- Another global adds its name to those of the program. -/
theorem Program.perm_names_addGlobal (globals : List Variable) (functions : List Function)
    (added : Variable) : (Program.names ⟨globals ++ [added], functions⟩).Perm
      (added.name :: Program.names ⟨globals, functions⟩) := by
  simp only [Program.names, List.map_append, List.map_cons, List.map_nil, List.append_assoc]
  exact List.perm_middle

/-- Another function adds its name to those of the program. -/
theorem Program.perm_names_addFunction (globals : List Variable) (functions : List Function)
    (added : Function) : (Program.names ⟨globals, functions ++ [added]⟩).Perm
      (added.name :: Program.names ⟨globals, functions⟩) := by
  simp only [Program.names, List.map_append, List.map_cons, List.map_nil, ← List.append_assoc]
  exact List.perm_append_singleton _ _

/-- A new global, with a name that is none yet. -/
theorem Program.Named.addGlobal {globals : List Variable} {functions : List Function}
    (h : Program.Named ⟨globals, functions⟩) {added : Variable}
    (hname : IsSymbol added.name ∨ ∃ number, added.name = Symbol.ofLiteral number)
    (hnew : added.name ∉ Program.names ⟨globals, functions⟩)
    (haddress : ∀ label, added.contents = some (.address label) → label ∈ globals.map (·.name)) :
    Program.Named ⟨globals ++ [added], functions⟩ := by
  refine ⟨fun g hg => ?_, h.functions, ?_, fun g hg label hlabel => ?_⟩
  · rcases List.mem_append.1 hg with hg | hg
    · exact h.globals g hg
    · exact List.mem_singleton.1 hg ▸ hname
  · exact (perm_names_addGlobal _ _ _).nodup_iff.2 (List.nodup_cons.2 ⟨hnew, h.nodup⟩)
  · rw [List.map_append]
    refine List.mem_append_left _ ?_
    rcases List.mem_append.1 hg with hg | hg
    · exact h.addresses g hg label hlabel
    · exact haddress label (List.mem_singleton.1 hg ▸ hlabel)

/-- A new function, with a name that is none yet. -/
theorem Program.Named.addFunction {globals : List Variable} {functions : List Function}
    (h : Program.Named ⟨globals, functions⟩) {added : Function} (hname : IsSymbol added.name)
    (hbody : AllSymbols added.body.calls) (hnew : added.name ∉ Program.names ⟨globals, functions⟩) :
    Program.Named ⟨globals, functions ++ [added]⟩ := by
  refine ⟨h.globals, fun f hf => ?_, ?_, h.addresses⟩
  · rcases List.mem_append.1 hf with hf | hf
    · exact h.functions f hf
    · exact List.mem_singleton.1 hf ▸ ⟨hname, hbody⟩
  · exact (perm_names_addFunction _ _ _).nodup_iff.2 (List.nodup_cons.2 ⟨hnew, h.nodup⟩)

namespace ParseState

variable {s t : ParseState}

/-- A string literal gets a label that is new, and no name. -/
theorem KeepsNames.addLiteral (h : s.KeepsNames t) (bytes : List UInt8) (ty : Ty) :
    s.KeepsNames (t.addLiteral bytes ty) := by
  have hnew : Symbol.ofLiteral t.literals ∉ t.program.names := fun hmem =>
    absurd (h.named.literals _ hmem) (Nat.lt_irrefl _)
  have hnames : ∀ name, name ∈ (t.addLiteral bytes ty).program.names →
      name = Symbol.ofLiteral t.literals ∨ name ∈ t.program.names := fun name hname =>
    List.mem_cons.1 ((Program.perm_names_addGlobal _ _ _).mem_iff.1 hname)
  refine ⟨⟨h.named.tokens, fun number hnumber => ?_, ?_⟩, fun name hname hmem => ?_⟩
  · rcases hnames _ hnumber with hnext | hold
    · rw [ofLiteral_injective hnext]
      exact Nat.lt_succ_self _
    · exact Nat.lt_succ_of_lt (h.named.literals number hold)
  · exact h.named.program.addGlobal (.inr ⟨_, rfl⟩) hnew fun label hlabel => nomatch hlabel
  · rcases hnames name hmem with rfl | hold
    · exact absurd hname (by rw [isIdentifier_ofLiteral]; exact Bool.false_ne_true)
    · exact h.names name hname hold

end ParseState

/-! ### Checked names -/

namespace Parse

variable {s t : ParseState} {name : String} {loc : Nat} {u : Unit}

/-- An identifier that is not declared is not a name of the program: the other names are those of
literals. -/
theorem not_mem_names_of_isDeclared (hname : isIdentifier name = true)
    (h : isDeclared s name = false) : name ∉ s.program.names := by
  intro hmem
  simp only [isDeclared, Bool.or_eq_false_iff, List.any_eq_false] at h
  rcases List.mem_append.1 hmem with hmem | hmem
  · obtain ⟨g, hg, rfl⟩ := List.mem_map.1 hmem
    refine h.1 g hg ?_
    rw [isLiteral_of_isIdentifier hname]
    simp
  · obtain ⟨f, hf, rfl⟩ := List.mem_map.1 hmem
    exact h.2 f hf (beq_self_eq_true _)

/-- A name that passes the check is a symbol, and new. -/
theorem isSymbol_of_run_checkSymbol (hname : isIdentifier name = true)
    (h : (checkSymbol name loc).run s = .ok (u, t)) : IsSymbol name ∧ name ∉ s.program.names := by
  unfold checkSymbol at h
  split at h
  · exact nomatch h
  · next hreserved =>
    rw [run_bind run_get] at h
    split at h
    · exact nomatch h
    · next hdeclared =>
      exact ⟨⟨hname, hreserved⟩, not_mem_names_of_isDeclared hname (Bool.not_eq_true _ ▸ hdeclared)⟩

/-- A name that passes the check for functions can be a symbol and is not taken. -/
theorem isSymbol_of_run_checkFunction (hname : isIdentifier name = true)
    (h : (checkFunction name loc).run s = .ok (u, t)) : IsSymbol name ∧ name ∉ s.program.names := by
  unfold checkFunction at h
  rw [run_bind run_get] at h
  split at h
  · exact nomatch h
  · exact isSymbol_of_run_checkSymbol hname h

end Parse

/-- The address that a global starts with is that of a global. -/
theorem mem_of_contentsFor {globals : List Variable} {value : Node} {ty : Ty} {label : String}
    (h : contentsFor globals value ty = .ok (.address label)) : label ∈ globals.map (·.name) := by
  unfold contentsFor at h
  -- Only a literal gives a label, and it is the name of that literal.
  split at h
  · next literal hliteral =>
    have hmem : literal ∈ globals := by
      unfold literalOf? at hliteral
      split at hliteral
      · obtain ⟨hfound, -⟩ := Option.filter_eq_some_iff.1 hliteral
        exact List.mem_of_getElem? hfound
      · exact nomatch hliteral
    unfold literalContents at h
    split at h
    · obtain rfl := Contents.address.inj (Except.ok.inj h)
      exact List.mem_map_of_mem hmem
    · split at h
      · exact nomatch h
      · exact nomatch h
    · exact nomatch h
    · exact nomatch h
  · split at h
    · obtain ⟨word, -, hword⟩ := bind_eq_ok_iff.1 h
      exact nomatch hword
    · exact nomatch h

/-- Declaring a global under a name that has passed the check. -/
theorem ParseState.Named.addGlobal {s : ParseState} (hs : s.Named) (added : Variable)
    (hname : IsSymbol added.name) (hnew : added.name ∉ s.program.names)
    (haddress : ∀ label, added.contents = some (.address label) → label ∈ s.globals.map (·.name)) :
    (s.addGlobal added).Named := by
  refine ⟨hs.tokens, fun number hnumber => ?_, hs.program.addGlobal (.inl hname) hnew haddress⟩
  exact hs.literals number (hname.mem_of_perm (Program.perm_names_addGlobal _ _ _) hnumber)

/-- The globals of one declaration are checked one by one, each against those in front of it. -/
theorem Parse.named_of_run_declareGlobals {ty : Ty} : ∀ {names : List DeclaredName}
    {values : List Node} {s t : ParseState} {u : Unit}, s.Named →
      (∀ d ∈ names, isIdentifier d.name = true) →
        (declareGlobals ty names values).run s = .ok (u, t) → t.Named
  | [], _, s, t, _, hs, _, h => by
    obtain rfl : s = t := (Prod.mk.inj (Except.ok.inj h)).2
    exact hs
  | declared :: names, values, s, t, u, hs, hnames, h => by
    obtain ⟨hfirst, hmore⟩ := List.forall_mem_cons.1 hnames
    rw [declareGlobals, StateT.run_bind] at h
    obtain ⟨⟨_, s'⟩, hcheck, hrun⟩ := bind_eq_ok_iff.1 h
    obtain ⟨hsymbol, hnew⟩ := isSymbol_of_run_checkSymbol hfirst hcheck
    obtain rfl := state_of_run_checkSymbol hcheck
    cases values with
    | nil =>
      exact named_of_run_declareGlobals
        (hs.addGlobal ⟨declared.name, declared.ty ty, none⟩ hsymbol hnew
          fun label hlabel => absurd hlabel (Option.not_mem_none _)) hmore hrun
    | cons value values =>
      dsimp only at hrun
      rw [run_bind run_get] at hrun
      cases hcontents : contentsFor s'.globals value (declared.ty ty) with
      | error failure => rw [hcontents] at hrun; cases hrun
      | ok contents =>
        rw [hcontents] at hrun
        -- An address in an initial value is that of a global that there is already.
        refine named_of_run_declareGlobals
          (hs.addGlobal ⟨declared.name, declared.ty ty, some contents⟩ hsymbol hnew
            fun label hlabel => ?_) hmore hrun
        obtain rfl := Option.some.inj hlabel
        exact mem_of_contentsFor hcontents

/-! ### What is called -/

/-- Joining operands makes no calls. -/
def Join.KeepsCalls (join : Join) : Prop :=
  ∀ {symbols : Symbols} {lhs rhs : Node} {loc : Nat} {node : Node},
    join symbols lhs rhs loc = .ok node → node.calls.Perm (lhs.calls ++ rhs.calls)

/-- Typing the operands first makes no calls. -/
theorem Join.keepsCalls_typed {combine : Node → Node → Nat → Except Failure Node}
    (hcombine : ∀ {lhs rhs loc node}, combine lhs rhs loc = .ok node →
      node.calls.Perm (lhs.calls ++ rhs.calls)) : (Join.typed combine).KeepsCalls := by
  intro symbols lhs rhs loc node h
  obtain ⟨lhs', hlhs, h⟩ := bind_eq_ok_iff.1 h
  obtain ⟨rhs', hrhs, h⟩ := bind_eq_ok_iff.1 h
  rw [← calls_of_annotate hlhs, ← calls_of_annotate hrhs]
  exact hcombine h

/-- Scaling puts a number into the tree, which calls nothing. -/
theorem Node.calls_scaled {op : BinaryOp} {pointer number : Node} {size : Int} {loc : Nat} :
    (Node.scaled op pointer number size loc).calls = pointer.calls ++ number.calls := by
  simp only [Node.scaled, Node.calls, List.append_nil]

/-- A sum calls what its operands call, though a pointer may be put in front of its number. -/
theorem Node.perm_calls_sum {lhs rhs node : Node} {loc : Nat}
    (h : Node.sum lhs rhs loc = .ok node) : node.calls.Perm (lhs.calls ++ rhs.calls) := by
  unfold Node.sum at h
  split at h
  · obtain rfl := Except.ok.inj h
    exact .refl _
  · obtain rfl := Except.ok.inj h
    rw [calls_scaled]
  · obtain rfl := Except.ok.inj h
    rw [calls_scaled]
    exact List.perm_append_comm
  · exact nomatch h

/-- A difference calls what its operands call, whether it is scaled, divided or neither. -/
theorem Node.perm_calls_difference {lhs rhs node : Node} {loc : Nat}
    (h : Node.difference lhs rhs loc = .ok node) : node.calls.Perm (lhs.calls ++ rhs.calls) := by
  unfold Node.difference at h
  split at h
  · obtain rfl := Except.ok.inj h
    exact .refl _
  · obtain rfl := Except.ok.inj h
    rw [calls_scaled]
  · exact nomatch h

/-- No operator makes a call. -/
theorem Level.keepsCalls_join {l : Level} {s : ParseState} {join : Join}
    (h : l.join? s = some join) : join.KeepsCalls := by
  rcases Level.join?_cases h with ⟨text, combine, hmem, rfl⟩ | rfl | rfl
  · obtain ⟨op, -, rfl | rfl⟩ := Level.not_isAdditive_of_mem_table hmem
    · intro symbols lhs rhs loc node hnode
      obtain rfl := Except.ok.inj hnode
      exact .refl _
    · intro symbols lhs rhs loc node hnode
      obtain rfl := Except.ok.inj hnode
      exact List.perm_append_comm
  · exact Join.keepsCalls_typed Node.perm_calls_sum
  · exact Join.keepsCalls_typed Node.perm_calls_difference

/-- The order of names does not matter. -/
theorem AllSymbols.of_perm {names more : List String} (h : AllSymbols names)
    (hperm : more.Perm names) : AllSymbols more := fun name hname => h name (hperm.mem_iff.1 hname)

/-- No sign makes a call. -/
theorem Sign.calls_apply (sign : Sign) (loc : Nat) (operand : Node) :
    (sign.apply loc operand).calls = operand.calls := by
  cases sign <;> rfl

theorem allSymbols_concat {nodes : List Node} {node : Node} (h : AllSymbols (Node.callsAll nodes))
    (hnode : AllSymbols node.calls) : AllSymbols (Node.callsAll (nodes ++ [node])) := by
  rw [Node.callsAll_concat]
  exact h.append hnode

/-- The assignments of a declaration call what its values call. -/
theorem allSymbols_initializations {names : List DeclaredName} {values : List Node} {index : Nat}
    (h : AllSymbols (Node.callsAll values)) :
    AllSymbols (Node.callsAll (Parse.initializations index names values)) := by
  induction names generalizing values index with
  | nil => exact allSymbols_nil
  | cons declared names ih =>
    cases values with
    | nil => exact allSymbols_nil
    | cons value values =>
      obtain ⟨hvalue, hvalues⟩ := List.forall_mem_append.1 h
      exact AllSymbols.append hvalue (ih hvalues)

/-! ### Every rule keeps to names -/

/-- What a rule has gathered calls functions by names that can be symbols. -/
def Rule.NamedSoFar {α : Type} : Rule α → Prop
  | .more _ node | .subscripts node => AllSymbols node.calls
  | .arguments _ name nodes => AllSymbols (name :: Node.callsAll nodes)
  | .values nodes | .items nodes => AllSymbols (Node.callsAll nodes)
  | .names read => ∀ d ∈ read, isIdentifier d.name = true
  | _ => True

/-- What a rule reads calls functions by names that can be symbols. -/
def Rule.NamedResult {α : Type} : Rule α → α → Prop
  | .expr, node | .level _, node | .more _ _, node | .unary, node | .postfixed, node
  | .subscripts _, node | .primary, node | .arguments _ _ _, node | .declaration _, node
  | .block _, node | .stmt, node => AllSymbols node.calls
  | .values _, nodes | .initializers _, nodes | .items _, nodes => AllSymbols (Node.callsAll nodes)
  | .exprUnless _, found => AllSymbols (Node.callsSome found)
  | .loopHead, head => AllSymbols
    (Node.callsSome head.init ++ Node.callsSome head.cond ++ Node.callsSome head.step)
  | .names _, found => ∀ d ∈ found, isIdentifier d.name = true
  | _, _ => True

/-- What a rule does to the names.  Only declarations outside of functions add some. -/
def Rule.Names {α : Type} : Rule α → ParseState → ParseState → Prop
  | .function, _, t | .global, _, t | .topLevel, _, t => t.Named
  | _, s, t => s.KeepsNames t

/-- Names are distinct and can be symbols. -/
def Contract.naming : Contract where
  pre rule s := s.Named ∧ rule.NamedSoFar
  post rule s a t := rule.Names s t ∧ rule.NamedResult a

/-- An operand of a level keeps to names as an expression does, whatever rule it is read by. -/
theorem Level.post_operand {l : Level} {s t : ParseState} {node : Node}
    (h : Contract.naming.post l.operand s node t) : s.KeepsNames t ∧ AllSymbols node.calls := by
  cases l <;> exact h

/-- Nothing but names that are in order is asked for in front of an operand. -/
theorem Level.pre_operand (l : Level) {s : ParseState} (h : s.Named) :
    Contract.naming.pre l.operand s := by
  cases l <;> exact ⟨h, trivial⟩

/-- The rule keeps names distinct and fit to be symbols, if the rules that it calls do. -/
def Rule.KeepsNaming {α : Type} (rule : Rule α) : Prop :=
  ∀ s, Contract.naming.pre rule s →
    (rule.step s).Meets Contract.naming (Contract.naming.post rule s)

namespace Rule

open Contract (naming)
open Step (meets_ite meets_expect meets_identifier meets_literal meets_number meets_ofResult
  meets_ofRun)

theorem keepsNaming_more (l : Level) (lhs : Node) : (more l lhs).KeepsNaming := by
  rintro s ⟨hs, hread⟩
  have hrefl := ParseState.KeepsNames.refl hs
  rw [Rule.step]
  split
  · exact ⟨hrefl, hread⟩
  · next join hjoin =>
    refine ⟨l.pre_operand hs.advance, fun rhs t hpost => meets_ofResult.2 fun node hnode => ?_⟩
    obtain ⟨ht, hrhs⟩ := Level.post_operand hpost
    have hnode : AllSymbols node.calls :=
      (AllSymbols.append hread hrhs).of_perm (Level.keepsCalls_join hjoin hnode)
    refine ⟨⟨ht.named, hnode⟩, ?_⟩
    rintro found u ⟨hu, hfound⟩
    exact ⟨(hrefl.advance.trans ht).trans hu, hfound⟩

theorem keepsNaming_unary : unary.KeepsNaming := by
  rintro s ⟨hs, -⟩
  have hrefl := ParseState.KeepsNames.refl hs
  rw [Rule.step]
  split
  · exact ⟨⟨hs, trivial⟩, fun found u hfound => hfound⟩
  · next sign _ =>
    refine ⟨⟨hs.advance, trivial⟩, ?_⟩
    rintro node t ⟨ht, hnode⟩
    refine ⟨hrefl.advance.trans ht, ?_⟩
    show AllSymbols (sign.apply s.loc node).calls
    rw [Sign.calls_apply]
    exact hnode

theorem keepsNaming_subscripts (node : Node) : (subscripts node).KeepsNaming := by
  intro s ⟨hs, hread⟩
  have hrefl := ParseState.KeepsNames.refl hs
  refine meets_ite.2 ⟨fun _ => ?_, fun _ => ⟨hrefl, hread⟩⟩
  refine ⟨⟨hs.advance, trivial⟩, fun index t ⟨ht, hindex⟩ => meets_expect.2 fun _ => ?_⟩
  refine meets_ofResult.2 fun place hplace => ?_
  have hplace : AllSymbols place.calls := (AllSymbols.append hread hindex).of_perm
    (Join.keepsCalls_typed Node.perm_calls_sum hplace)
  exact ⟨⟨ht.named.advance, hplace⟩,
    fun found u ⟨hu, hfound⟩ => ⟨(hrefl.advance.trans ht.advance).trans hu, hfound⟩⟩

theorem keepsNaming_primary : primary.KeepsNaming := by
  intro s ⟨hs, _⟩
  have hrefl := ParseState.KeepsNames.refl hs
  refine meets_ite.2 ⟨fun _ => ?_, fun _ => ?_⟩
  · exact ⟨⟨hs.advance, trivial⟩, fun node t ⟨ht, hnode⟩ => meets_expect.2 fun _ =>
      ⟨hrefl.advance.trans ht.advance, hnode⟩⟩
  split
  · refine meets_identifier.2 fun name loc hcurrent => meets_ite.2 ⟨fun _ => ?_, fun _ => ?_⟩
    · refine meets_ite.2 ⟨fun _ => trivial, fun hreserved => ?_⟩
      have hname : AllSymbols [name] :=
        List.forall_mem_singleton.2 ⟨hs.isIdentifier hcurrent, hreserved⟩
      refine meets_ite.2 ⟨fun _ => ⟨hrefl.advance.advance.advance, hname⟩, fun _ => ?_⟩
      exact ⟨⟨hs.advance.advance, hname⟩,
        fun found u ⟨hu, hfound⟩ => ⟨hrefl.advance.advance.trans hu, hfound⟩⟩
    · unfold Step.useOf
      split
      · exact ⟨hrefl.advance, allSymbols_nil⟩
      · trivial
  · exact meets_literal.2 fun bytes ty loc text _ =>
      ⟨hrefl.advance.addLiteral bytes ty, allSymbols_nil⟩
  · exact meets_number.2 fun value loc text _ => ⟨hrefl.advance, allSymbols_nil⟩
  · trivial

theorem keepsNaming_arguments (loc : Nat) (name : String) (args : List Node) :
    (arguments loc name args).KeepsNaming := by
  intro s ⟨hs, hread⟩
  refine meets_ite.2 ⟨fun _ => ?_, fun _ => trivial⟩
  refine ⟨⟨hs, trivial⟩, fun argument t ⟨ht, hargument⟩ => ?_⟩
  have hargs : AllSymbols (name :: Node.callsAll (args ++ [argument])) := by
    obtain ⟨hname, hargs⟩ := List.forall_mem_cons.1 hread
    exact List.forall_mem_cons.2 ⟨hname, allSymbols_concat hargs hargument⟩
  refine meets_ite.2 ⟨fun _ => ⟨ht.advance, hargs⟩, fun _ => meets_expect.2 fun _ => ?_⟩
  exact ⟨⟨ht.named.advance, hargs⟩, fun found u ⟨hu, hfound⟩ => ⟨ht.advance.trans hu, hfound⟩⟩

theorem keepsNaming_names (read : List DeclaredName) : (names read).KeepsNaming := by
  intro s ⟨hs, hread⟩
  refine ⟨⟨hs, trivial⟩, fun stars t ⟨ht, _⟩ => meets_identifier.2 fun name loc hcurrent => ?_⟩
  have hnames : ∀ d ∈ read ++ [⟨name, loc, stars⟩], isIdentifier d.name = true :=
    List.forall_mem_append.2 ⟨hread, List.forall_mem_singleton.2 (ht.named.isIdentifier hcurrent)⟩
  refine meets_ite.2 ⟨fun _ =>
    ⟨⟨ht.named.advance.advance, hnames⟩, fun found u ⟨hu, hfound⟩ => ?_⟩,
    fun _ => ⟨ht.advance, hnames⟩⟩
  exact ⟨ht.advance.advance.trans hu, hfound⟩

theorem keepsNaming_type : type.KeepsNaming := by
  intro s ⟨hs, _⟩
  refine ⟨⟨hs, trivial⟩, fun dimensions t ⟨ht, _⟩ =>
    ⟨⟨ht.named, trivial⟩, fun depth u ⟨hu, _⟩ => ?_⟩⟩
  have harray : ∀ elem : Ty,
      (Step.ofRun ((Parse.arrayTypes (elem.pointers depth) dimensions).run u.advance) .done).Meets
        naming (naming.post .type s) := by
    intro elem
    refine meets_ofRun.2 fun ty v hrun => ?_
    obtain rfl := Parse.state_of_run_arrayTypes hrun
    exact ⟨(ht.trans hu).advance, trivial⟩
  exact meets_ite.2 ⟨fun _ => harray .int, fun _ => meets_ite.2
    ⟨fun _ => harray .char, fun _ => trivial⟩⟩

theorem keepsNaming_items (read : List Node) : (items read).KeepsNaming := by
  intro s ⟨hs, hread⟩
  have hrefl := ParseState.KeepsNames.refl hs
  have hitem : ∀ node (t : ParseState), s.KeepsNames t → AllSymbols node.calls →
      (Step.ofResult (annotate t.symbols node) fun typed =>
        .call (.items (read ++ [typed])) t .done).Meets naming (naming.post (.items read) s) := by
    intro node t ht hnode
    refine meets_ofResult.2 fun typed htyped => ?_
    rw [← calls_of_annotate htyped] at hnode
    exact ⟨⟨ht.named, allSymbols_concat hread hnode⟩,
      fun found u ⟨hu, hfound⟩ => ⟨ht.trans hu, hfound⟩⟩
  refine meets_ite.2 ⟨fun _ => ⟨hrefl.advance, hread⟩,
    fun _ => meets_ite.2 ⟨fun _ => ?_, fun _ => ?_⟩⟩
  · exact ⟨⟨hs.advance, trivial⟩,
      fun node t ⟨ht, hnode⟩ => hitem node t (hrefl.advance.trans ht) hnode⟩
  · exact ⟨⟨hs, trivial⟩, fun node t ⟨ht, hnode⟩ => hitem node t ht hnode⟩

theorem keepsNaming_loopHead : loopHead.KeepsNaming := by
  intro s ⟨hs, _⟩
  have hrefl := ParseState.KeepsNames.refl hs
  refine meets_ite.2 ⟨fun _ => ⟨hrefl, allSymbols_nil⟩, fun _ => ?_⟩
  refine ⟨⟨hs, trivial⟩, fun first t ⟨ht, hfirst⟩ => meets_ite.2 ⟨fun _ => ?_, fun _ => ?_⟩⟩
  · refine ⟨⟨ht.named.advance, trivial⟩, fun cond u ⟨hu, hcond⟩ => meets_expect.2 fun _ => ?_⟩
    exact ⟨⟨hu.named.advance, trivial⟩, fun step v ⟨hv, hstep⟩ =>
      ⟨(ht.advance.trans hu.advance).trans hv, (AllSymbols.append hfirst hcond).append hstep⟩⟩
  · exact ⟨ht, (allSymbols_nil.append hfirst).append allSymbols_nil⟩

theorem keepsNaming_stmt : stmt.KeepsNaming := by
  intro s ⟨hs, _⟩
  have hrefl := ParseState.KeepsNames.refl hs
  refine meets_ite.2 ⟨fun _ => ?_, fun _ => meets_ite.2 ⟨fun _ => ?_, fun _ => meets_ite.2
    ⟨fun _ => ?_, fun _ => meets_ite.2 ⟨fun _ => ?_,
      fun _ => meets_ite.2 ⟨fun _ => ?_, fun _ => ?_⟩⟩⟩⟩⟩
  · exact ⟨⟨hs.advance, trivial⟩, fun value t ⟨ht, hvalue⟩ => meets_expect.2 fun _ =>
      ⟨hrefl.advance.trans ht.advance, hvalue⟩⟩
  · refine ⟨⟨hs.advance, trivial⟩, fun cond t ⟨ht, hcond⟩ => ⟨⟨ht.named, trivial⟩,
      fun onTrue u ⟨hu, htrue⟩ => meets_ite.2 ⟨fun _ => ?_, fun _ => ?_⟩⟩⟩
    · exact ⟨⟨hu.named.advance, trivial⟩, fun onFalse v ⟨hv, hfalse⟩ =>
        ⟨((hrefl.advance.trans ht).trans hu.advance).trans hv,
          (AllSymbols.append hcond htrue).append hfalse⟩⟩
    · exact ⟨(hrefl.advance.trans ht).trans hu,
        (AllSymbols.append hcond htrue).append allSymbols_nil⟩
  · exact ⟨⟨hs.advance, trivial⟩, fun head t ⟨ht, hhead⟩ => ⟨⟨ht.named, trivial⟩,
      fun body u ⟨hu, hbody⟩ => ⟨(hrefl.advance.trans ht).trans hu,
        AllSymbols.append hhead hbody⟩⟩⟩
  · exact ⟨⟨hs.advance, trivial⟩, fun found u ⟨hu, hfound⟩ => ⟨hrefl.advance.trans hu, hfound⟩⟩
  · exact ⟨hrefl.advance, allSymbols_nil⟩
  · exact ⟨⟨hs, trivial⟩, fun value t ⟨ht, hvalue⟩ => meets_expect.2
      fun _ => ⟨ht.advance, hvalue⟩⟩

theorem keepsNaming_function : function.KeepsNaming := by
  rintro s ⟨hs, -⟩
  have hrefl := ParseState.KeepsNames.refl hs
  rw [Rule.step]
  refine meets_identifier.2 fun name loc hcurrent => meets_ofRun.2 fun _ t hcheck => ?_
  obtain ⟨hsymbol, hnew⟩ := Parse.isSymbol_of_run_checkFunction (hs.isIdentifier hcurrent) hcheck
  obtain rfl := Parse.state_of_run_checkFunction hcheck
  have henter : s.KeepsNames { s.advance with locals := [] }.enterScope :=
    hrefl.advance.of_tables (List.Subset.refl _) rfl rfl
  have hstart := henter.advance
  refine meets_expect.2 fun _ => ⟨⟨hstart.named, trivial⟩, ?_⟩
  rintro params u ⟨hu, -⟩
  refine ⟨⟨hu.named, trivial⟩, ?_⟩
  rintro result v ⟨hv, -⟩
  refine meets_expect.2 fun _ => ⟨⟨hv.named.advance, trivial⟩, ?_⟩
  rintro body w ⟨hw, hbody⟩
  refine meets_ite.2 ⟨fun _ => ⟨?_, trivial⟩, fun _ => trivial⟩
  have hkeeps := ((hstart.trans hu).trans hv.advance).trans hw
  -- Nothing but string literals was declared since the name was checked.
  have hstill : name ∉ w.program.names := fun hmem => hnew (hkeeps.names name hsymbol.1 hmem)
  refine ⟨hw.named.tokens, fun number hnumber => ?_,
    hw.named.program.addFunction hsymbol hbody hstill⟩
  exact hw.named.literals number
    (hsymbol.mem_of_perm (Program.perm_names_addFunction _ _ _) hnumber)

end Rule

open Step in
/-- **Every rule keeps names distinct and fit to be symbols.** -/
theorem Contract.holds_naming : Contract.naming.Holds := by
  intro α rule s ⟨hs, hread⟩
  have hrefl := ParseState.KeepsNames.refl hs
  -- Rules that read a name, declare one or join trees have lemmas of their own.
  cases rule with
  | expr =>
    refine ⟨⟨hs, trivial⟩, fun node t ⟨ht, hnode⟩ =>
      meets_ite.2 ⟨fun _ => ?_, fun _ => ⟨ht, hnode⟩⟩⟩
    exact ⟨⟨ht.named.advance, trivial⟩, fun value u ⟨hu, hvalue⟩ =>
      ⟨ht.advance.trans hu, AllSymbols.append hnode hvalue⟩⟩
  | level l =>
    refine ⟨l.pre_operand hs, fun node t hpost => ?_⟩
    obtain ⟨ht, hnode⟩ := Level.post_operand hpost
    exact ⟨⟨ht.named, hnode⟩, fun found u ⟨hu, hfound⟩ => ⟨ht.trans hu, hfound⟩⟩
  | more l lhs => exact Rule.keepsNaming_more l lhs s ⟨hs, hread⟩
  | unary => exact Rule.keepsNaming_unary s ⟨hs, hread⟩
  | postfixed =>
    exact ⟨⟨hs, trivial⟩, fun node t ⟨ht, hnode⟩ =>
      ⟨⟨ht.named, hnode⟩, fun found u ⟨hu, hfound⟩ => ⟨ht.trans hu, hfound⟩⟩⟩
  | subscripts node => exact Rule.keepsNaming_subscripts node s ⟨hs, hread⟩
  | primary => exact Rule.keepsNaming_primary s ⟨hs, hread⟩
  | arguments loc name args => exact Rule.keepsNaming_arguments loc name args s ⟨hs, hread⟩
  | stars count =>
    exact meets_ite.2 ⟨fun _ => ⟨⟨hs.advance, trivial⟩, fun found u ⟨hu, hfound⟩ =>
      ⟨hrefl.advance.trans hu, hfound⟩⟩, fun _ => ⟨hrefl, trivial⟩⟩
  | names read => exact Rule.keepsNaming_names read s ⟨hs, hread⟩
  | dimensions read =>
    refine meets_ite.2 ⟨fun _ => ?_, fun _ => ⟨hrefl, trivial⟩⟩
    exact meets_number.2 fun len loc text _ => meets_expect.2 fun _ =>
      ⟨⟨hs.advance.advance.advance, trivial⟩, fun found u ⟨hu, hfound⟩ =>
        ⟨hrefl.advance.advance.advance.trans hu, hfound⟩⟩
  | type => exact Rule.keepsNaming_type s ⟨hs, hread⟩
  | values read =>
    refine ⟨⟨hs, trivial⟩, fun value t ⟨ht, hvalue⟩ => ?_⟩
    have hvalues := allSymbols_concat hread hvalue
    exact meets_ite.2 ⟨fun _ => ⟨⟨ht.named.advance, hvalues⟩, fun found u ⟨hu, hfound⟩ =>
      ⟨ht.advance.trans hu, hfound⟩⟩, fun _ => ⟨ht, hvalues⟩⟩
  | initializers count =>
    refine meets_ite.2 ⟨fun _ => ?_, fun _ => meets_expect.2
      fun _ => ⟨hrefl.advance, allSymbols_nil⟩⟩
    refine ⟨⟨hs.advance, allSymbols_nil⟩, fun values t ⟨ht, hvalues⟩ => ?_⟩
    exact meets_ite.2 ⟨fun _ => meets_expect.2 fun _ => ⟨hrefl.advance.trans ht.advance, hvalues⟩,
      fun _ => trivial⟩
  -- The locals of a declaration are no symbols, so their names may be any.
  | declaration loc =>
    refine ⟨⟨hs, fun d hd => absurd hd List.not_mem_nil⟩, fun names t ⟨ht, _⟩ =>
      ⟨⟨ht.named, trivial⟩, fun ty u ⟨hu, _⟩ =>
        ⟨⟨hu.named, trivial⟩, fun values v ⟨hv, hvalues⟩ => ?_⟩⟩⟩
    refine meets_ofRun.2 fun body w hrun => ?_
    rw [Parse.run_declareLocals] at hrun
    obtain ⟨rfl, rfl⟩ := Prod.mk.inj (Except.ok.inj hrun)
    exact ⟨((ht.trans hu).trans hv).foldl_addLocal _, allSymbols_initializations hvalues⟩
  | items read => exact Rule.keepsNaming_items read s ⟨hs, hread⟩
  -- A block changes the scopes, and the names of globals and functions are elsewhere.
  | block loc =>
    have henter : s.KeepsNames s.enterScope := hrefl.of_tables (List.Subset.refl _) rfl rfl
    exact ⟨⟨henter.named, allSymbols_nil⟩, fun body t ⟨ht, hbody⟩ =>
      ⟨(henter.trans ht).of_tables (List.Subset.refl _) rfl rfl, hbody⟩⟩
  | exprUnless text =>
    exact meets_ite.2 ⟨fun _ => ⟨hrefl, allSymbols_nil⟩, fun _ => ⟨⟨hs, trivial⟩,
      fun node t ⟨ht, hnode⟩ => ⟨ht, hnode⟩⟩⟩
  | loopHead => exact Rule.keepsNaming_loopHead s ⟨hs, hread⟩
  | stmt => exact Rule.keepsNaming_stmt s ⟨hs, hread⟩
  | parameters read =>
    refine meets_ite.2 ⟨fun _ => meets_identifier.2 fun name loc _ => ?_, fun _ => trivial⟩
    refine ⟨⟨hs.advance, trivial⟩, fun ty t ⟨ht, _⟩ => ?_⟩
    have hadded := (hrefl.advance.trans ht).addLocal { name, ty := ty.decay }
    refine meets_ite.2 ⟨fun _ => ⟨hadded.advance, trivial⟩, fun _ => meets_expect.2 fun _ => ?_⟩
    exact ⟨⟨hadded.advance.named, trivial⟩, fun found u ⟨hu, hfound⟩ =>
      ⟨hadded.advance.trans hu, hfound⟩⟩
  | parameterList =>
    exact meets_ite.2 ⟨fun _ => ⟨hrefl.advance, trivial⟩,
      fun _ => ⟨⟨hs, trivial⟩, fun found u hfound => hfound⟩⟩
  | function => exact Rule.keepsNaming_function s ⟨hs, hread⟩
  -- The names come with the identifiers that they were read from, and declaring them checks that
  -- they are distinct.
  | global =>
    refine ⟨⟨hs, fun d hd => absurd hd List.not_mem_nil⟩, fun names t ⟨ht, hnames⟩ =>
      ⟨⟨ht.named, trivial⟩, fun ty u ⟨hu, _⟩ => ⟨⟨hu.named, trivial⟩, fun values v ⟨hv, _⟩ => ?_⟩⟩⟩
    exact meets_ofRun.2 fun _ w hrun =>
      ⟨Parse.named_of_run_declareGlobals hv.named hnames hrun, trivial⟩
  | topLevel =>
    exact meets_ite.2 ⟨fun _ => ⟨⟨hs.advance, trivial⟩, fun found u hfound => hfound⟩,
      fun _ => meets_ite.2 ⟨fun _ => ⟨⟨hs.advance, trivial⟩, fun found u hfound => hfound⟩,
        fun _ => trivial⟩⟩

/-- A lexer takes nothing for an identifier that is not spelled like one. -/
theorem Source.isIdentifier_of_tokenize {source : Source} {tokens : List Token}
    (h : source.tokenize = .ok tokens) :
    ∀ token ∈ tokens, token.kind = .identifier → isIdentifier token.text = true := by
  obtain ⟨front, rfl, hshapes⟩ := exists_lexemes_of_tokenize h
  intro token htoken hkind
  rcases List.mem_append.1 htoken with htoken | htoken
  · obtain ⟨shape, hshape⟩ := hshapes token htoken
    exact hshape.isIdentifier hkind
  · rw [List.mem_singleton.1 htoken] at hkind
    exact nomatch hkind

/-- Names stay distinct and fit to be symbols while a source is read. -/
theorem Source.named_units {source : Source} {tokens : List Token} {t : ParseState}
    (htokens : source.tokenize = .ok tokens) (h : (source.start tokens).Units t) : t.Named := by
  have hstart : (source.start tokens).Named := by
    refine ⟨isIdentifier_of_tokenize htokens, fun number hmem => absurd hmem List.not_mem_nil, ?_⟩
    exact ⟨fun g hg => absurd hg List.not_mem_nil, fun f hf => absurd hf List.not_mem_nil,
      List.nodup_nil, fun g hg => absurd hg List.not_mem_nil⟩
  have hstep : ∀ s t : ParseState, s.Named → (Rule.topLevel.step s).Yields () t → t.Named := by
    intro s t hs hread
    have hpre : Contract.naming.pre .topLevel s := ⟨hs, trivial⟩
    exact (Contract.holds_naming.yields hpre hread).1
  exact h.keeps hstep hstart

/-- **The names of a source are distinct and can be symbols.** -/
theorem Source.named_program {source : Source} {program : Program}
    (h : source.program = .ok program) : program.Named := by
  obtain ⟨tokens, htokens, hparse⟩ := bind_eq_ok_iff.1 h
  obtain ⟨t, hunits, -, rfl⟩ := parse_eq_ok_iff.1 hparse
  exact (named_units htokens hunits).program

end PocketCompiler
