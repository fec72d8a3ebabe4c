import PocketCompiler.Proofs.Grammar.Closing
import PocketCompiler.Proofs.Grammar.Literals
import PocketCompiler.Proofs.Grammar.Naming

/-!
# Declarations of globals

`ParseState.DeclaresGlobals` is a declaration of globals as it is read: names, a type, and the
tokens and trees of initial values.  The globals that come of it are in the order of the names, each
with its own initial value (`ParseState.DeclaresGlobals.exists_added`), and `Variable.Initialised`
says what a global holds by what its initial value is.

`Source.GlobalDeclaration` is such a declaration where reading a source comes to it.  In an accepted
source every name of it has a global (`Source.GlobalDeclaration.exists_has`), and the other globals
are those of string literals (`Source.explains_units`).  Of the initial values that are refused, one
is looked at closely: a string literal that is too long for its array
(`Source.GlobalDeclaration.ComesTo.declaring_literal`).
-/

namespace PocketCompiler

open Parse (DeclaredName)

variable {α : Type} {s t u v w : ParseState}

/-! ### Declarations as they are read -/

/-- Initial values with commas between them are read from `s` to `t`: the tokens and the tree of
each. -/
inductive ParseState.ReadsInitials : ParseState → List (List Token × Node) → ParseState → Prop
  | last {s t : ParseState} {text : List Token} {node : Node}
      (hread : (Rule.expr.step s).Yields node t) (htext : s.rest = text ++ t.rest) :
    ReadsInitials s [(text, node)] t
  | more {s t u : ParseState} {text : List Token} {node : Node} {inits : List (List Token × Node)}
      (hread : (Rule.expr.step s).Yields node t) (htext : s.rest = text ++ t.rest)
      (hcomma : t.sees "," = true) (hmore : ReadsInitials t.advance inits u) :
    ReadsInitials s ((text, node) :: inits) u

/-- A declaration of globals is read, with its semicolon: names, a type, and either no initial
values or one for each name. -/
inductive ParseState.DeclaresGlobals (s : ParseState) (names : List DeclaredName) (ty : Ty) :
    List (List Token × Node) → ParseState → Prop
  | bare {t u : ParseState} (hvar : s.sees "var" = true)
      (hnames : ((Rule.names []).step s.advance).Yields names t)
      (hty : (Rule.type.step t).Yields ty u) (hend : u.sees ";" = true) :
    DeclaresGlobals s names ty [] u.advance
  | valued {t u v : ParseState} {inits : List (List Token × Node)} (hvar : s.sees "var" = true)
      (hnames : ((Rule.names []).step s.advance).Yields names t)
      (hty : (Rule.type.step t).Yields ty u) (hequals : u.sees "=" = true)
      (hinits : u.advance.ReadsInitials inits v) (hcount : inits.length = names.length)
      (hend : v.sees ";" = true) :
    DeclaresGlobals s names ty inits v.advance

/-- The tokens spell initial values with commas between them. -/
inductive InitialsText : List Token → List (List Token) → Prop
  | last (text : List Token) : InitialsText text [text]
  | more {comma : Token} {text rest : List Token} {texts : List (List Token)}
      (hcomma : comma.reads "," = true) (hmore : InitialsText rest texts) :
    InitialsText (text ++ comma :: rest) (text :: texts)

/-- The tokens spell a declaration of globals, with the tokens of its initial values. -/
inductive GlobalsText : List Token → List DeclaredName → Ty → List (List Token) → Prop
  | bare {var semicolon : Token} {first second : List Token} {names : List DeclaredName} {ty : Ty}
      (hvar : var.reads "var" = true) (hnames : NamesText first names) (hty : TypeText second ty)
      (hend : semicolon.reads ";" = true) :
    GlobalsText (var :: (first ++ (second ++ [semicolon]))) names ty []
  | valued {var equals semicolon : Token} {first second third : List Token}
      {names : List DeclaredName} {ty : Ty} {texts : List (List Token)}
      (hvar : var.reads "var" = true) (hnames : NamesText first names) (hty : TypeText second ty)
      (hequals : equals.reads "=" = true) (hinits : InitialsText third texts)
      (hend : semicolon.reads ";" = true) :
    GlobalsText (var :: (first ++ (second ++ equals :: (third ++ [semicolon])))) names ty texts

/-- Each initial value is spelled by some of the tokens. -/
theorem InitialsText.subset {text : List Token} {texts : List (List Token)}
    (h : InitialsText text texts) : ∀ part ∈ texts, part ⊆ text := by
  induction h with
  | last text => exact List.forall_mem_singleton.2 (List.Subset.refl _)
  | more _ _ ih =>
    refine List.forall_mem_cons.2 ⟨List.subset_append_left _ _, fun part hpart token htoken => ?_⟩
    exact List.mem_append_right _ (List.mem_cons_of_mem _ (ih part hpart htoken))

section

variable {text : List Token} {names : List DeclaredName} {ty : Ty} {texts : List (List Token)}

theorem GlobalsText.subset (h : GlobalsText text names ty texts) : ∀ part ∈ texts, part ⊆ text := by
  cases h with
  | bare _ _ _ _ => exact List.forall_mem_nil _
  | valued _ _ _ _ hinits _ =>
    intro part hpart token htoken
    simp [hinits.subset part hpart htoken]

/-- The type of a declaration is spelled by some of its tokens. -/
theorem GlobalsText.exists_type (h : GlobalsText text names ty texts) :
    ∃ part, part ⊆ text ∧ TypeText part ty := by
  cases h with
  | bare _ _ hty _ => exact ⟨_, fun token htoken => by simp [htoken], hty⟩
  | valued _ _ hty _ _ _ => exact ⟨_, fun token htoken => by simp [htoken], hty⟩

end

/-- Initial values that are read are spelled by the tokens that are moved past. -/
theorem ParseState.ReadsInitials.exists_text {inits : List (List Token × Node)}
    (h : s.ReadsInitials inits t) :
    ∃ text, s.rest = text ++ t.rest ∧ InitialsText text (inits.map (·.1)) := by
  induction h with
  | last _ htext => exact ⟨_, htext, .last _⟩
  | more _ htext hcomma _ ih =>
    obtain ⟨comma, hreads, hpast⟩ := Past.of_sees hcomma
    obtain ⟨rest, hrest, hmore⟩ := ih
    refine ⟨_, ?_, .more hreads hmore⟩
    rw [htext, hpast.rest, hrest]
    simp

/-- A declaration of globals reads what is written. -/
theorem ParseState.DeclaresGlobals.exists_text {names : List DeclaredName} {ty : Ty}
    {inits : List (List Token × Node)} (h : s.DeclaresGlobals names ty inits v) :
    ∃ text, s.rest = text ++ v.rest ∧ GlobalsText text names ty (inits.map (·.1)) := by
  cases h with
  | bare hvar hnames hty hend =>
    obtain ⟨var, hvar, hpast⟩ := Past.of_sees hvar
    obtain ⟨first, _, hfirst, rfl, hnames⟩ := hnames.written
    obtain ⟨second, hsecond, hty⟩ := hty.written
    obtain ⟨semicolon, hsemicolon, hlast⟩ := Past.of_sees hend
    refine ⟨_, ?_, .bare hvar hnames hty hsemicolon⟩
    rw [hpast.rest, hfirst.rest, hsecond.rest, hlast.rest]
    simp
  | valued hvar hnames hty hequals hinits _ hend =>
    obtain ⟨var, hvar, hpast⟩ := Past.of_sees hvar
    obtain ⟨first, _, hfirst, rfl, hnames⟩ := hnames.written
    obtain ⟨second, hsecond, hty⟩ := hty.written
    obtain ⟨equals, hequals, hmiddle⟩ := Past.of_sees hequals
    obtain ⟨third, hthird, hinits⟩ := hinits.exists_text
    obtain ⟨semicolon, hsemicolon, hlast⟩ := Past.of_sees hend
    refine ⟨_, ?_, .valued hvar hnames hty hequals hinits hsemicolon⟩
    rw [hpast.rest, hfirst.rest, hsecond.rest, hmiddle.rest, hthird, hlast.rest]
    simp

/-- Where one text is seen no other is. -/
theorem ParseState.sees_eq_false {text other : String} (h : s.sees text = true)
    (hne : text ≠ other) : s.sees other = false := by
  rw [Bool.eq_false_iff]
  intro hother
  obtain ⟨token, hcurrent, hreads⟩ := exists_of_sees h
  obtain ⟨token', hcurrent', hreads'⟩ := exists_of_sees hother
  obtain rfl := Option.some.inj (hcurrent.symm.trans hcurrent')
  have hsame := (Token.reads_iff.1 hreads).symm.trans (Token.reads_iff.1 hreads')
  exact hne (Terminal.lexeme.inj hsame)

/-- Values are read one after the other. -/
def Contract.initials : Contract where
  pre _ _ := True
  post
    | .values read, s, values, t =>
      ∃ inits, values = read ++ inits.map (·.2) ∧ s.ReadsInitials inits t
    | _, _, _, _ => True

open Step in
/-- Every rule keeps that contract: the loop of values reads one after the other. -/
theorem Contract.derived_initials : Contract.initials.Derived := by
  intro α rule s _
  cases rule with
  | values read =>
    rw [Rule.step]
    refine ⟨trivial, ?_⟩
    rintro node t ⟨-, hread⟩
    obtain ⟨text, htext⟩ := (hread.leads rfl).rest
    refine meets_ite.2 ⟨fun hcomma => ⟨trivial, ?_⟩, fun _ => ?_⟩
    · rintro values u ⟨⟨inits, rfl, hinits⟩, -⟩
      refine ⟨(text, node) :: inits, ?_, .more hread htext.symm hcomma hinits⟩
      rw [List.append_assoc]
      rfl
    · exact ⟨[(text, node)], rfl, .last hread htext.symm⟩
  | _ => exact meets_of_forall (fun _ _ => trivial) (fun _ _ => trivial) _

/-- The loop of values reads all of them, if no comma is behind the last. -/
theorem ParseState.ReadsInitials.yields {inits : List (List Token × Node)}
    (h : s.ReadsInitials inits t) (hend : t.sees "," = false) (read : List Node) :
    ((Rule.values read).step s).Yields (read ++ inits.map (·.2)) t := by
  -- Each value goes behind those that the rule has read before.
  induction h generalizing read with
  | @last s t text node hread htext =>
    rw [Rule.step, Step.yields_call_iff]
    refine ⟨node, t, hread, ?_⟩
    rw [if_neg (by rw [hend]; exact Bool.false_ne_true)]
    exact .done
  | @more s t u text node inits hread htext hcomma _ ih =>
    rw [Rule.step, Step.yields_call_iff]
    refine ⟨node, t, hread, ?_⟩
    have hmore := ih hend (read ++ [node])
    rw [List.append_assoc] at hmore
    rw [if_pos hcomma]
    exact .call hmore .done

/-- A declaration is read in three parts: names, a type and initial values. -/
theorem ParseState.DeclaresGlobals.exists_initializers {names : List DeclaredName} {ty : Ty}
    {inits : List (List Token × Node)} (h : s.DeclaresGlobals names ty inits v) :
    s.sees "var" = true ∧ ∃ t u, ((Rule.names []).step s.advance).Yields names t
      ∧ (Rule.type.step t).Yields ty u
      ∧ ((Rule.initializers names.length).step u).Yields (inits.map (·.2)) v := by
  cases h with
  | @bare t u hvar hnames hty hend =>
    refine ⟨hvar, t, u, hnames, hty, ?_⟩
    rw [Rule.step, if_neg (by rw [sees_eq_false hend (by decide)]; exact Bool.false_ne_true)]
    exact Step.yields_expect_iff.2 ⟨hend, .done⟩
  | @valued t u v _ hvar hnames hty hequals hinits hcount hend =>
    refine ⟨hvar, t, u, hnames, hty, ?_⟩
    rw [Rule.step, if_pos hequals, Step.yields_call_iff]
    refine ⟨_, v, hinits.yields (sees_eq_false hend (by decide)) [], ?_⟩
    rw [if_pos (by rw [List.nil_append, List.length_map, hcount])]
    exact Step.yields_expect_iff.2 ⟨hend, .done⟩

/-- Behind a declaration, its globals are declared. -/
theorem ParseState.DeclaresGlobals.run_topLevel {names : List DeclaredName} {ty : Ty}
    {inits : List (List Token × Node)} (h : s.DeclaresGlobals names ty inits v) :
    Parse.topLevel.run s = (Parse.declareGlobals ty names (inits.map (·.2))).run v := by
  obtain ⟨hvar, t, u, hnames, hty, hinits⟩ := h.exists_initializers
  have hglobal : Parse.global.run s.advance
      = (Parse.declareGlobals ty names (inits.map (·.2))).run v := by
    have hnames : Parse.declaredNames.run s.advance = .ok (names, t) := by
      rw [← Rule.reader_names]
      exact (Rule.run_eq_ok_iff _).2 hnames
    have hty : Parse.type.run t = .ok (ty, u) := (Rule.run_eq_ok_iff _).2 hty
    have hinits : (Parse.initializers names.length).run u = .ok (inits.map (·.2), v) :=
      (Rule.run_eq_ok_iff _).2 hinits
    unfold Parse.global
    rw [Parse.run_bind hnames, Parse.run_bind hty, Parse.run_bind hinits]
  rw [← hglobal]
  unfold Parse.topLevel
  rw [Parse.run_bind (Parse.run_accept_false (sees_eq_false hvar (by decide)))]
  rw [if_neg Bool.false_ne_true, Parse.run_bind (Parse.run_accept_true hvar), if_pos rfl]

/-- Globals that are read are read by a declaration, and then declared. -/
theorem ParseState.ReadsGlobals.exists_declares (hvar : s.sees "var" = true)
    (h : s.advance.ReadsGlobals w) : ∃ names ty inits v, s.DeclaresGlobals names ty inits v
      ∧ (Parse.declareGlobals ty names (inits.map (·.2))).run v = .ok ((), w) := by
  obtain @⟨names, ty, values, t, u, v, _, hnames, hty, hvalues, hdeclare⟩ := h
  rw [Rule.step] at hvalues
  simp only [Step.yields_ite_iff, Step.yields_call_iff, Step.yields_expect_iff,
    Step.yields_done_iff, Step.not_yields_fail, and_false, or_false] at hvalues
  rcases hvalues with ⟨hequals, read, v', hread, hcount, hend, rfl, rfl⟩ | ⟨-, hend, rfl, rfl⟩
  · obtain ⟨inits, rfl, hinits⟩ := Contract.derived_initials.yields trivial hread
    rw [List.nil_append] at hcount hdeclare
    rw [List.length_map] at hcount
    exact ⟨names, ty, inits, _, .valued hvar hnames hty hequals hinits hcount hend, hdeclare⟩
  · exact ⟨names, ty, [], _, .bare hvar hnames hty hend, hdeclare⟩

/-! ### Declaring them -/

namespace Parse

/-- What a global of type `ty` with this initial value starts with. -/
def initialContents (globals : List Variable) (ty : Ty) :
    Option Node → Except Failure (Option Contents)
  | none => .ok none
  | some value => (contentsFor globals value ty).map some

/-- The first name is checked and declared, and the others are declared behind it. -/
theorem run_declareGlobals_cons (ty : Ty) (d : DeclaredName) (names : List DeclaredName)
    (values : List Node) (s : ParseState) :
    (declareGlobals ty (d :: names) values).run s = (do
      let _ ← (checkSymbol d.name d.loc).run s
      let contents ← initialContents s.globals (d.ty ty) values.head?
      (declareGlobals ty names values.tail).run (s.addGlobal ⟨d.name, d.ty ty, contents⟩)) := by
  rw [declareGlobals]
  cases hcheck : (checkSymbol d.name d.loc).run s with
  | error failure => exact run_bind_error hcheck
  | ok r =>
    obtain ⟨_, s'⟩ := r
    obtain rfl := state_of_run_checkSymbol hcheck
    rw [run_bind hcheck]
    cases values with
    | nil => rfl
    | cons value values =>
      dsimp only
      rw [run_bind run_get, List.head?_cons, initialContents]
      cases contentsFor s'.globals value (d.ty ty) <;> rfl

/-- Names may be declared in two parts, each with its own values. -/
theorem run_declareGlobals_append (ty : Ty) (second : List DeclaredName) :
    ∀ (first : List DeclaredName) (values : List Node) (s : ParseState),
      (declareGlobals ty (first ++ second) values).run s
        = (declareGlobals ty first values).run s >>= fun r =>
          (declareGlobals ty second (values.drop first.length)).run r.2
  | [], values, s => rfl
  | d :: first, values, s => by
    rw [List.cons_append, run_declareGlobals_cons, run_declareGlobals_cons]
    simp only [bind_assoc]
    congr 1
    funext _
    congr 1
    funext contents
    rw [run_declareGlobals_append ty second first, List.drop_tail]
    rfl

/-- The globals that are declared, by the index of their names. -/
theorem exists_added {ty : Ty} : ∀ {names : List DeclaredName} {values : List Node}
    {s t : ParseState}, (declareGlobals ty names values).run s = .ok ((), t) →
      ∃ added : List Variable, t = added.foldl ParseState.addGlobal s ∧ added.length = names.length
        ∧ ∀ i d, names[i]? = some d → ∃ contents,
          initialContents (s.globals ++ added.take i) (d.ty ty) values[i]? = .ok contents
            ∧ added[i]? = some ⟨d.name, d.ty ty, contents⟩
  | [], values, s, t, h => ⟨[], (Prod.mk.inj (Except.ok.inj h)).2.symm, rfl, nofun⟩
  | d :: names, values, s, t, h => by
    rw [run_declareGlobals_cons] at h
    obtain ⟨-, -, h⟩ := bind_eq_ok_iff.1 h
    obtain ⟨contents, hcontents, h⟩ := bind_eq_ok_iff.1 h
    obtain ⟨added, hadded, hlength, hmore⟩ := exists_added h
    refine ⟨⟨d.name, d.ty ty, contents⟩ :: added, hadded, by simp [hlength], ?_⟩
    intro i found hfound
    cases i with
    | zero =>
      obtain rfl := Option.some.inj hfound
      refine ⟨contents, ?_, rfl⟩
      rw [← List.head?_eq_getElem?, List.take_zero, List.append_nil]
      exact hcontents
    | succ i =>
      -- A later name sees the first global at the end of the table in front of it.
      obtain ⟨contents', hcontents', hg⟩ := hmore i found hfound
      refine ⟨contents', ?_, hg⟩
      rw [List.getElem?_tail] at hcontents'
      rw [List.take_succ_cons, ← List.singleton_append, ← List.append_assoc]
      exact hcontents'

end Parse

/-! ### Initial values -/

/-- What an initial value with these tokens is, by the globals there are: a reference to the global
of a string literal if they are one, and else no such reference. -/
inductive Node.IsInitial (globals : List Variable) (text : List Token) (node : Node) : Prop
  | literal {token : Token} {bytes : List UInt8} {ty : Ty} {index number : Nat}
      (htext : LiteralText text token) (hkind : token.kind = .string (some bytes) (some ty))
      (hnode : node = .var ⟨token.loc, none⟩ (.globalVar index))
      (hglobal : globals[index]? = some ⟨Symbol.ofLiteral number, ty, some (.bytes bytes)⟩)
  | plain (htext : ∀ token, ¬ LiteralText text token) (hnode : node.Plain globals)

/-- What a global holds by its initial value: nothing of its own, a number, bytes of a string
literal, or the address of one. -/
inductive Variable.Initialised (globals : List Variable) (g : Variable) :
    Option (List Token × Node) → Prop
  | zero (h : g.contents = none) : Initialised globals g none
  | folded {text : List Token} {node : Node} {value : Int64}
      (htext : ∀ token, ¬ LiteralText text token)
      (hty : (g.ty.isInteger || g.ty.isPointer) = true) (hfold : fold node = .ok value)
      (h : g.contents = some (.bytes (littleEndian value g.ty.size.toNat))) :
    Initialised globals g (some (text, node))
  | copied {text : List Token} {node : Node} {token : Token} {bytes : List UInt8} {ty : Ty}
      {len : Int} (htext : LiteralText text token)
      (hkind : token.kind = .string (some bytes) (some ty))
      (hty : g.ty = .array .char len) (hfits : (bytes.length : Int) - 1 ≤ len)
      (h : g.contents = some (.bytes (bytes.take len.toNat))) :
    Initialised globals g (some (text, node))
  | pointed {text : List Token} {node : Node} {token : Token} {bytes : List UInt8} {ty : Ty}
      {number : Nat} (htext : LiteralText text token)
      (hkind : token.kind = .string (some bytes) (some ty)) (hty : g.ty = .ptr .char)
      (hmem : ⟨Symbol.ofLiteral number, ty, some (.bytes bytes)⟩ ∈ globals)
      (h : g.contents = some (.address (Symbol.ofLiteral number))) :
    Initialised globals g (some (text, node))

section

variable {globals larger : List Variable} {text : List Token} {node : Node}

/-- A text that is one string literal is spelled by a token of that kind. -/
theorem LiteralText.exists_kind {token : Token} (h : LiteralText text token) :
    ∃ bytes ty, token.kind = .string bytes ty := by
  induction h with
  | alone hkind => exact ⟨_, _, hkind⟩
  | parens _ _ _ ih => exact ih
  | plus _ _ ih => exact ih

/-- What an initial value is does not change when more globals are declared. -/
theorem Node.IsInitial.mono (h : node.IsInitial globals text) (hext : globals <+: larger) :
    node.IsInitial larger text := by
  cases h with
  | @literal token bytes ty index number htext hkind hnode hglobal =>
    have hkept : larger[index]? = globals[index]? := by
      obtain ⟨more, rfl⟩ := hext
      exact List.getElem?_append_left (List.getElem?_eq_some_iff.1 hglobal).1
    exact .literal htext hkind hnode (hkept.trans hglobal)
  | plain htext hnode =>
    refine .plain htext ?_
    cases node with
    | var mark ref => exact VarRef.Named.mono hext hnode
    | _ => trivial

/-- A tree that is read refers to a string literal if it was spelled as one, and only then. -/
theorem ParseState.ReadsValue.isInitial (h : s.ReadsValue text node t) :
    node.IsInitial t.globals text := by
  cases h with
  | @literal token bytes ty htext hkind hnode hglobals =>
    have hglobal : t.globals[s.globals.length]? = some (s.nextLiteral bytes ty) := by
      rw [hglobals]
      exact List.getElem?_concat_length
    exact .literal htext hkind hnode hglobal
  | plain htext hnode =>
    refine .plain (fun token hliteral => ?_) hnode
    obtain ⟨bytes, ty, hkind⟩ := hliteral.exists_kind
    exact htext token bytes ty hkind hliteral.traces_eq

/-- Reading initial values leads from one state to the next. -/
theorem ParseState.ReadsInitials.leads {inits : List (List Token × Node)}
    (h : s.ReadsInitials inits t) : s.Leads t := by
  induction h with
  | last hread _ => exact hread.leads rfl
  | more hread _ _ _ ih =>
    exact steady_leads.trans (hread.leads rfl) (steady_leads.trans (steady_leads.advance _) ih)

/-- Every initial value is what its tokens say. -/
theorem ParseState.ReadsInitials.isInitial {inits : List (List Token × Node)}
    (h : s.ReadsInitials inits t) (hs : s.Apart) :
    ∀ init ∈ inits, init.2.IsInitial t.globals init.1 := by
  have hone : ∀ {s t : ParseState} {text : List Token} {node : Node}, s.Apart →
      (Rule.expr.step s).Yields node t → s.rest = text ++ t.rest →
        node.IsInitial t.globals text := by
    intro s t text node hs hread htext
    obtain ⟨found, hfound, hvalue⟩ := hread.readsValue hs
    obtain rfl := List.append_cancel_right (htext.symm.trans hfound)
    exact hvalue.isInitial
  induction h with
  | last hread htext => exact List.forall_mem_singleton.2 (hone hs hread htext)
  | @more s t u text node inits hread htext hcomma hmore ih =>
    have ht : t.Apart := steady_apart.yields rfl hread hs
    refine List.forall_mem_cons.2 ⟨?_, ih ht⟩
    exact (hone hs hread htext).mono hmore.leads.globals

/-- An initial value that is a string literal is looked up as such. -/
theorem contentsFor_literal {token : Token} {literal : Variable} {index : Nat}
    (hnode : node = .var ⟨token.loc, none⟩ (.globalVar index))
    (hglobal : globals[index]? = some literal) (hname : Symbol.isLiteral literal.name = true)
    (ty : Ty) : contentsFor globals node ty = literalContents literal ty token.loc := by
  have hliteral : literalOf? globals node = some literal := by
    rw [hnode, literalOf?, hglobal, Option.filter_some, if_pos hname]
  rw [contentsFor, hliteral, hnode]
  rfl

/-- A plain tree does not refer to a string literal. -/
theorem Node.Plain.literalOf?_eq (h : node.Plain globals) : literalOf? globals node = none := by
  cases node with
  | var mark ref =>
    cases ref with
    | localVar index => rfl
    | globalVar index =>
      obtain ⟨g, hg, hname⟩ := h
      rw [literalOf?, hg, Option.filter_some, hname]
      rfl
  | _ => rfl

/-- A global that could be declared holds what its initial value says. -/
theorem Node.IsInitial.initialised (h : node.IsInitial globals text) {g : Variable}
    {contents : Contents} (hcontents : contentsFor globals node g.ty = .ok contents)
    (hg : g.contents = some contents) : g.Initialised globals (some (text, node)) := by
  cases h with
  | @literal token bytes ty index number htext hkind hnode hglobal =>
    rw [contentsFor_literal hnode hglobal (Symbol.isLiteral_ofLiteral number)] at hcontents
    unfold literalContents at hcontents
    -- A pointer keeps the address of the literal, and an array its bytes.
    split at hcontents
    · next hpointer =>
      obtain rfl := Except.ok.inj hcontents
      exact .pointed htext hkind hpointer (List.mem_of_getElem? hglobal) hg
    · next hbytes harray =>
      obtain rfl := Contents.bytes.inj (Option.some.inj hbytes)
      split at hcontents
      · exact nomatch hcontents
      · next hfits =>
        obtain rfl := Except.ok.inj hcontents
        exact .copied htext hkind harray (not_lt.1 hfits) hg
    · exact nomatch hcontents
    · exact nomatch hcontents
  | plain htext hnode =>
    rw [contentsFor, hnode.literalOf?_eq] at hcontents
    dsimp only at hcontents
    split at hcontents
    · next hty =>
      obtain ⟨value, hfold, hbytes⟩ := bind_eq_ok_iff.1 hcontents
      obtain rfl := Except.ok.inj hbytes
      exact .folded htext hty hfold hg
    · exact nomatch hcontents

theorem Variable.Initialised.mono {g : Variable} {init : Option (List Token × Node)}
    (h : g.Initialised globals init) (hext : globals <+: larger) : g.Initialised larger init := by
  cases h with
  | zero h => exact .zero h
  | folded htext hty hfold h => exact .folded htext hty hfold h
  | copied htext hkind hty hfits h => exact .copied htext hkind hty hfits h
  | pointed htext hkind hty hmem h => exact .pointed htext hkind hty (hext.subset hmem) h

end

section DeclaresGlobals

variable {names : List DeclaredName} {ty : Ty} {inits : List (List Token × Node)}

/-- What every reading keeps is kept by a declaration. -/
theorem ParseState.DeclaresGlobals.along {R : ParseState → ParseState → Prop} (hR : Steady R)
    (h : s.DeclaresGlobals names ty inits v) : R s v := by
  obtain ⟨-, t, u, hnames, hty, hinits⟩ := h.exists_initializers
  exact hR.trans (hR.advance s)
    (hR.trans (hR.yields rfl hnames) (hR.trans (hR.yields rfl hty) (hR.yields rfl hinits)))

/-- Each of the trees is what its own tokens spell. -/
theorem ParseState.DeclaresGlobals.isInitial (h : s.DeclaresGlobals names ty inits v)
    (hs : s.Apart) : ∀ init ∈ inits, init.2.IsInitial v.globals init.1 := by
  cases h with
  | bare _ _ _ _ => exact List.forall_mem_nil _
  | @valued t u v _ _ hnames hty _ hinits _ _ =>
    have ht : t.Apart := steady_apart.yields rfl hnames hs
    have hu : u.Apart := steady_apart.yields rfl hty ht
    exact hinits.isInitial hu

/-- The global of the `i`-th name of a declaration: it has this name and its type, and holds what
the `i`-th initial value says. -/
structure Variable.Declared (g : Variable) (globals : List Variable) (names : List DeclaredName)
    (ty : Ty) (inits : List (List Token × Node)) (i : Nat) : Prop where
  named : ∃ d, names[i]? = some d ∧ g.name = d.name ∧ g.ty = d.ty ty
  initialised : g.Initialised globals inits[i]?

/-- **The globals that a declaration adds are its names, in their order, and each holds what its own
initial value says.** -/
theorem ParseState.DeclaresGlobals.exists_added (h : s.DeclaresGlobals names ty inits v)
    (hs : s.Apart)
    (hdeclare : (Parse.declareGlobals ty names (inits.map (·.2))).run v = .ok ((), w)) :
    ∃ added : List Variable, w = added.foldl ParseState.addGlobal v ∧ added.length = names.length
      ∧ ∀ (i : Nat) (g : Variable), added[i]? = some g → g.Declared w.globals names ty inits i := by
  obtain ⟨added, rfl, hlength, hadded⟩ := Parse.exists_added hdeclare
  refine ⟨added, rfl, hlength, fun i g hg => ?_⟩
  obtain ⟨scopes, hglobals⟩ := exists_foldl_addGlobal added v
  rw [hglobals]
  have hi : i < names.length := hlength ▸ (List.getElem?_eq_some_iff.1 hg).1
  obtain ⟨contents, hcontents, hfound⟩ := hadded i names[i] (List.getElem?_eq_getElem hi)
  obtain rfl := Option.some.inj (hg.symm.trans hfound)
  refine ⟨⟨_, List.getElem?_eq_getElem hi, rfl, rfl⟩, ?_⟩
  -- When the global was declared, there were only those in front of it.
  have hfront : v.globals ++ added.take i <+: v.globals ++ added :=
    (List.prefix_append_right_inj _).2 (List.take_prefix i added)
  refine Variable.Initialised.mono ?_ hfront
  rw [List.getElem?_map] at hcontents
  cases hinit : inits[i]? with
  | none =>
    rw [hinit] at hcontents
    exact .zero (Except.ok.inj hcontents).symm
  | some init =>
    rw [hinit] at hcontents
    obtain ⟨made, hmade, rfl⟩ := map_eq_ok_iff.1 hcontents
    have hvalue := (h.isInitial hs init (List.mem_of_getElem? hinit)).mono
      (List.prefix_append v.globals (added.take i))
    exact hvalue.initialised hmade rfl

theorem Variable.Declared.mono {g : Variable} {globals larger : List Variable} {i : Nat}
    (h : g.Declared globals names ty inits i) (hext : globals <+: larger) :
    g.Declared larger names ty inits i :=
  ⟨h.named, h.initialised.mono hext⟩

end DeclaresGlobals

/-! ### States between declarations -/

/-- The name of a declared global may be visible, since it is not that of a string literal. -/
theorem ParseState.Apart.addGlobal {g : Variable} (h : s.Apart)
    (hname : Symbol.isLiteral g.name = false) : (s.addGlobal g).Apart := by
  have hold : ∀ scope ∈ s.scopes, ∀ binding ∈ scope, binding.2.Named (s.globals ++ [g]) :=
    fun scope hscope binding hbinding =>
      (h scope hscope binding hbinding).mono (List.prefix_append _ _)
  exact Scopes.mem_bind hold ⟨g, List.getElem?_concat_length, hname⟩

/-- However many globals are declared, none of their names is that of a string literal. -/
theorem ParseState.Apart.foldl_addGlobal {added : List Variable} (h : s.Apart)
    (hnames : ∀ g ∈ added, Symbol.isLiteral g.name = false) :
    (added.foldl ParseState.addGlobal s).Apart := by
  induction added generalizing s with
  | nil => exact h
  | cons g added ih =>
    obtain ⟨hg, hnames⟩ := List.forall_mem_cons.1 hnames
    exact ih (h.addGlobal hg) hnames

/-- A declaration of a function goes along every steady relation that knows nothing of locals and
functions. -/
theorem ParseState.ReadsFunction.along {R : ParseState → ParseState → Prop} (hR : Steady R)
    (htables : ∀ (s : ParseState) locals functions, R s { s with locals, functions })
    (h : s.ReadsFunction t) : R s t := by
  obtain @⟨name, loc, params, result, body, t, u, v, -, -, hparams, hresult, hbody, -⟩ := h
  have hstart : R s { s.advance.advance with locals := [] }.enterScope :=
    hR.trans (hR.trans (hR.advance s) (hR.advance _)) (hR.trans (htables _ _ _) (hR.enterScope _))
  have hread : R s v := hR.trans hstart (hR.trans (hR.yields rfl hparams)
    (hR.trans (hR.yields rfl hresult) (hR.trans (hR.advance _) (hR.yields rfl hbody))))
  exact hR.trans hread (hR.trans (hR.leaveScope v) (htables _ _ _))

/-- No declaration makes the name of a string literal visible. -/
theorem ParseState.apart_of_yields (h : (Rule.topLevel.step s).Yields () t) (hnamed : s.Named)
    (hs : s.Apart) : t.Apart := by
  rcases reads_of_yields h with ⟨-, hread⟩ | ⟨hvar, hread⟩
  · exact hread.along steady_apart (fun _ _ _ h => h) hs
  · obtain ⟨names, ty, inits, v, hdeclares, hdeclare⟩ := hread.exists_declares hvar
    obtain ⟨-, u, -, hnames, -, -⟩ := hdeclares.exists_initializers
    have hpre : Contract.naming.pre (.names []) s.advance := ⟨hnamed.advance, nofun⟩
    have hidentifiers : ∀ d ∈ names, isIdentifier d.name = true :=
      (Contract.holds_naming.yields hpre hnames).2
    obtain ⟨added, rfl, -, hadded⟩ := hdeclares.exists_added hs hdeclare
    refine (hdeclares.along steady_apart hs).foldl_addGlobal fun g hg => ?_
    obtain ⟨i, hi⟩ := List.mem_iff_getElem?.1 hg
    obtain ⟨⟨d, hd, hname, -⟩, -⟩ := hadded i g hi
    rw [hname]
    exact isLiteral_of_isIdentifier (hidentifiers d (List.mem_of_getElem? hd))

/-- What every declaration keeps that is come to, any number of them keeps. -/
theorem ParseState.Units.keeps_reached {p : ParseState → Prop} (h : s.Units t)
    (hstep : ∀ u v, s.Units u → p u → (Rule.topLevel.step u).Yields () v → p v) (hs : p s) :
    p t := by
  induction h with
  | refl => exact hs
  | next hend hread _ ih =>
    exact ih (fun u v hu => hstep u v (.next hend hread hu)) (hstep _ _ .refl hs hread)

/-- Where a source is read, no name is that of a string literal. -/
theorem Source.apart_units {source : Source} {tokens : List Token}
    (htokens : source.tokenize = .ok tokens) (h : (source.start tokens).Units t) : t.Apart := by
  apply h.keeps_reached
  · intro u v hu happart hread
    exact ParseState.apart_of_yields hread (named_units htokens hu) happart
  · exact List.forall_mem_singleton.2 (List.forall_mem_nil _)

/-! ### Where globals come from -/

/-- The global is that of the string literal that the token is. -/
def Variable.Quotes (g : Variable) (token : Token) : Prop :=
  ∃ number bytes ty, token.kind = .string (some bytes) (some ty)
    ∧ g = ⟨Symbol.ofLiteral number, ty, some (.bytes bytes)⟩

/-- The globals of `t` are those of `s` and string literals that were read in between. -/
structure ParseState.AddsLiterals (s t : ParseState) : Prop where
  rest : t.rest <:+ s.rest
  globals : ∀ g ∈ t.globals, g ∈ s.globals ∨ ∃ token ∈ s.rest, g.Quotes token

/-- Reading an expression adds no globals but those of string literals. -/
theorem ParseState.steady_addsLiterals : ParseState.Steady ParseState.AddsLiterals where
  refl _ := ⟨List.suffix_refl _, fun _ hg => .inl hg⟩
  trans h h' := by
    refine ⟨h'.rest.trans h.rest, fun g hg => ?_⟩
    rcases h'.globals g hg with hg | ⟨token, htoken, hquotes⟩
    · exact h.globals g hg
    · exact .inr ⟨token, h.rest.subset htoken, hquotes⟩
  advance _ := ⟨List.tail_suffix _, fun _ hg => .inl hg⟩
  enterScope _ := ⟨List.suffix_refl _, fun _ hg => .inl hg⟩
  leaveScope _ := ⟨List.suffix_refl _, fun _ hg => .inl hg⟩
  addLocal _ _ := ⟨List.suffix_refl _, fun _ hg => .inl hg⟩
  addLiteral s bytes ty loc text hcurrent := by
    refine ⟨List.tail_suffix _, fun g hg => ?_⟩
    rcases List.mem_append.1 hg with hg | hg
    · exact .inl hg
    · obtain rfl := List.mem_singleton.1 hg
      exact .inr ⟨_, List.mem_of_mem_head? hcurrent, _, bytes, ty, rfl, rfl⟩

/-- A declaration of globals that reading a source comes to. -/
structure Source.GlobalDeclaration (source : Source) where
  tokens : List Token
  start : ParseState
  names : List DeclaredName
  ty : Ty
  inits : List (List Token × Node)
  behind : ParseState
  tokenized : source.tokenize = .ok tokens
  reached : (source.start tokens).Units start
  read : start.DeclaresGlobals names ty inits behind

/-- The global is that of the `i`-th name of the declaration. -/
abbrev Source.GlobalDeclaration.Has {source : Source} (declaration : source.GlobalDeclaration)
    (globals : List Variable) (i : Nat) (g : Variable) : Prop :=
  g.Declared globals declaration.names declaration.ty declaration.inits i

/-- The global is that of a string literal, or of a name of a declaration. -/
def Source.Explains (source : Source) (tokens : List Token) (globals : List Variable)
    (g : Variable) : Prop :=
  (∃ token ∈ tokens, g.Quotes token)
    ∨ ∃ (declaration : source.GlobalDeclaration) (i : Nat), declaration.Has globals i g

section Origins

variable {source : Source} {tokens : List Token}

/-- A global that has been explained stays so when more globals are declared. -/
theorem Source.Explains.mono {globals larger : List Variable} {g : Variable}
    (h : source.Explains tokens globals g) (hext : globals <+: larger) :
    source.Explains tokens larger g := by
  rcases h with hquotes | ⟨declaration, i, hg⟩
  · exact .inl hquotes
  · exact .inr ⟨declaration, i, hg.mono hext⟩

/-- One more declaration adds globals of names and of string literals. -/
theorem Source.explains_of_yields (htokens : source.tokenize = .ok tokens)
    (hs : (source.start tokens).Units s) (hrest : s.rest <:+ tokens)
    (h : (Rule.topLevel.step s).Yields () t)
    (hglobals : ∀ g ∈ s.globals, source.Explains tokens s.globals g) :
    ∀ g ∈ t.globals, source.Explains tokens t.globals g := by
  have hext : s.globals <+: t.globals := (ParseState.before_of_yields h).globals
  -- What was there before has been explained, and what reading added is a literal.
  have hadds : ∀ {u : ParseState}, s.AddsLiterals u → ∀ g ∈ u.globals,
      source.Explains tokens t.globals g := by
    intro u hu g hg
    rcases hu.globals g hg with hg | ⟨token, htoken, hquotes⟩
    · exact (hglobals g hg).mono hext
    · exact .inl ⟨token, hrest.subset htoken, hquotes⟩
  rcases ParseState.reads_of_yields h with ⟨-, hread⟩ | ⟨hvar, hread⟩
  · have hbody : s.advance.AddsLiterals t := hread.along ParseState.steady_addsLiterals
      fun s _ _ => ⟨List.suffix_refl _, fun _ hg => .inl hg⟩
    exact hadds (ParseState.steady_addsLiterals.trans (ParseState.steady_addsLiterals.advance s)
      hbody)
  · obtain ⟨names, ty, inits, v, hdeclares, hdeclare⟩ := hread.exists_declares hvar
    have hapart : s.Apart := Source.apart_units htokens hs
    obtain ⟨added, rfl, -, hadded⟩ := hdeclares.exists_added hapart hdeclare
    have hliterals := hadds (hdeclares.along ParseState.steady_addsLiterals)
    obtain ⟨scopes, hfold⟩ := ParseState.exists_foldl_addGlobal added v
    intro g hg
    rw [hfold] at hg
    rcases List.mem_append.1 hg with hg | hg
    · exact hliterals g hg
    · obtain ⟨i, hi⟩ := List.mem_iff_getElem?.1 hg
      exact .inr ⟨⟨tokens, s, names, ty, inits, v, htokens, hs, hdeclares⟩, i, hadded i g hi⟩

/-- **Every global is that of a string literal, or of a name of a declaration.** -/
theorem Source.explains_units (htokens : source.tokenize = .ok tokens)
    (h : (source.start tokens).Units t) : ∀ g ∈ t.globals, source.Explains tokens t.globals g := by
  have hinside : t.rest <:+ tokens ∧ ∀ g ∈ t.globals, source.Explains tokens t.globals g := by
    apply h.keeps_reached
      (p := fun u => u.rest <:+ tokens ∧ ∀ g ∈ u.globals, source.Explains tokens u.globals g)
    · rintro u v hu ⟨hrest, hglobals⟩ hread
      exact ⟨(ParseState.rest_of_yields hread).trans hrest,
        explains_of_yields htokens hu hrest hread hglobals⟩
    · exact ⟨List.suffix_refl _, List.forall_mem_nil _⟩
  exact hinside.2

end Origins

/-! ### What comes of a declaration -/

namespace Source.GlobalDeclaration

variable {source : Source} (declaration : source.GlobalDeclaration)

/-- What declaring the first `count` names comes to. -/
def declaring (count : Nat) : Except Failure (Unit × ParseState) :=
  (Parse.declareGlobals declaration.ty (declaration.names.take count)
    (declaration.inits.map (·.2))).run declaration.behind

theorem apart : declaration.start.Apart := apart_units declaration.tokenized declaration.reached

/-- A declaration starts in front of the end of the tokens. -/
theorem atEnd_start : declaration.start.atEnd = false := by
  obtain ⟨hvar, -⟩ := declaration.read.exists_initializers
  obtain ⟨token, hcurrent, hreads⟩ := ParseState.exists_of_sees hvar
  unfold ParseState.atEnd
  rw [hcurrent]
  unfold Token.reads at hreads
  split at hreads <;> simp_all

/-- The declaration is a stretch of the source. -/
theorem exists_text : ∃ before text after, declaration.tokens = before ++ text ++ after
    ∧ GlobalsText text declaration.names declaration.ty (declaration.inits.map (·.1)) := by
  obtain ⟨text, hrest, htext⟩ := declaration.read.exists_text
  obtain ⟨before, hbefore⟩ : declaration.start.rest <:+ declaration.tokens :=
    declaration.reached.keeps (p := fun u => u.rest <:+ declaration.tokens)
      (fun _ _ hu hread => (ParseState.rest_of_yields hread).trans hu) (List.suffix_refl _)
  exact ⟨before, text, _, by rw [← hbefore, hrest, List.append_assoc], htext⟩

/-- **In an accepted source every name of a declaration has a global.** -/
theorem exists_has {program : Program} (h : source.program = .ok program) {i : Nat}
    (hi : i < declaration.names.length) :
    ∃ g ∈ program.globals, declaration.Has program.globals i g := by
  obtain ⟨tokens, htokens, hparse⟩ := bind_eq_ok_iff.1 h
  obtain ⟨t, hunits, hend, rfl⟩ := parse_eq_ok_iff.1 hparse
  obtain rfl := Except.ok.inj (htokens.symm.trans declaration.tokenized)
  -- There is one way to read the source, so the whole reading goes on from this declaration.
  cases declaration.reached.of_atEnd hunits hend with
  | refl => exact absurd (hend.symm.trans declaration.atEnd_start) Bool.noConfusion
  | next _ hread hmore =>
    rw [← Rule.topLevel.run_eq_ok_iff] at hread
    have hdeclare := declaration.read.run_topLevel.symm.trans hread
    obtain ⟨added, rfl, hlength, hadded⟩ := declaration.read.exists_added declaration.apart hdeclare
    obtain ⟨scopes, hfold⟩ := ParseState.exists_foldl_addGlobal added declaration.behind
    have hi : i < added.length := hlength ▸ hi
    have hkept := hmore.before.globals
    refine ⟨added[i], hkept.subset ?_, (hadded i _ (List.getElem?_eq_getElem hi)).mono hkept⟩
    rw [hfold]
    exact List.mem_append_right _ (List.getElem_mem hi)

/-- What stops a declaration at one of its names stops the reading of the source. -/
theorem program_eq_error {count : Nat} {failure : Failure}
    (h : declaration.declaring count = .error failure) : source.program = .error failure := by
  have hrun : Parse.topLevel.run declaration.start = .error failure := by
    rw [declaring] at h
    rw [declaration.read.run_topLevel, ← List.take_append_drop count declaration.names,
      Parse.run_declareGlobals_append, h]
    rfl
  have hparse : parse source declaration.tokens = .error failure :=
    parse_eq_error_iff.2 ⟨_, declaration.reached, declaration.atEnd_start,
      Rule.topLevel.run_eq_error_iff.1 hrun⟩
  unfold Source.program
  rw [declaration.tokenized]
  exact hparse

/-- The names in front of the `i`-th have been declared, up to the state `w`, and the name of the
`i`-th may be declared there. -/
structure ComesTo (i : Nat) (d : DeclaredName) (w : ParseState) : Prop where
  name : declaration.names[i]? = some d
  front : declaration.declaring i = .ok ((), w)
  free : d.name ∉ Symbol.reserved
  fresh : Parse.isDeclared w d.name = false

variable {declaration} {i : Nat} {d : DeclaredName}

/-- The next name is declared with what its initial value says, or declaring it fails. -/
theorem ComesTo.declaring_succ (h : declaration.ComesTo i d w) {text : List Token} {node : Node}
    (hinit : declaration.inits[i]? = some (text, node)) :
    declaration.declaring (i + 1)
      = (contentsFor w.globals node (d.ty declaration.ty)).map fun contents =>
        ((), w.addGlobal ⟨d.name, d.ty declaration.ty, some contents⟩) := by
  have hlength : (declaration.names.take i).length = i :=
    List.length_take_of_le (List.getElem?_eq_some_iff.1 h.name).1.le
  have hvalue : ((declaration.inits.map (·.2)).drop i).head? = some node := by
    rw [List.head?_drop, List.getElem?_map, hinit]
    rfl
  have hfront := h.front
  rw [declaring] at hfront
  have hcheck : (Parse.checkSymbol d.name d.loc).run w = .ok ((), w) := by
    rw [Parse.checkSymbol, if_neg h.free, Parse.run_bind Parse.run_get, h.fresh]
    rfl
  -- Behind the first `i` names, one name is left to declare.
  rw [declaring, List.take_add_one, h.name, Parse.run_declareGlobals_append, hfront, hlength]
  show (Parse.declareGlobals _ [d] _).run w = _
  rw [Parse.run_declareGlobals_cons, hcheck, hvalue]
  show Except.bind ((contentsFor _ _ _).map some) _ = _
  cases contentsFor w.globals node (d.ty declaration.ty) <;> rfl

/-- Behind the names in front of it, a name has the globals that its initial value was read with. -/
theorem ComesTo.isInitial (h : declaration.ComesTo i d w) {text : List Token} {node : Node}
    (hinit : declaration.inits[i]? = some (text, node)) : node.IsInitial w.globals text := by
  obtain ⟨added, rfl, -⟩ := Parse.exists_added h.front
  obtain ⟨scopes, hfold⟩ := ParseState.exists_foldl_addGlobal added declaration.behind
  rw [hfold]
  have hread := declaration.read.isInitial declaration.apart _ (List.mem_of_getElem? hinit)
  exact hread.mono (List.prefix_append _ _)

/-- **A string literal is too long for an array exactly when its bytes without the last are.** -/
theorem ComesTo.declaring_literal (h : declaration.ComesTo i d w) {text : List Token} {node : Node}
    (hinit : declaration.inits[i]? = some (text, node)) {token : Token}
    (htext : LiteralText text token) {bytes : List UInt8} {ty : Ty}
    (hkind : token.kind = .string (some bytes) (some ty)) {len : Int}
    (hty : d.ty declaration.ty = .array .char len) :
    declaration.declaring (i + 1)
      = if (bytes.length : Int) - 1 > len then .error (.complaint token.loc .initializerTooLong)
        else .ok ((), w.addGlobal
          ⟨d.name, .array .char len, some (.bytes (bytes.take len.toNat))⟩) := by
  rw [h.declaring_succ hinit, hty]
  cases h.isInitial hinit with
  | plain hplain _ => exact absurd htext (hplain token)
  | @literal found bytes' ty' index number hfound hkind' hnode hglobal =>
    obtain rfl := htext.unique hfound
    obtain ⟨hbytes, -⟩ := TokenKind.string.inj (hkind.symm.trans hkind')
    obtain rfl := Option.some.inj hbytes
    rw [contentsFor_literal hnode hglobal (Symbol.isLiteral_ofLiteral number)]
    unfold literalContents
    dsimp only
    split <;> rfl

end Source.GlobalDeclaration

end PocketCompiler
