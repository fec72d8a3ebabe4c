import PocketCompiler.Proofs.Grammar.Declared
import PocketCompiler.Proofs.Grammar.Language

/-!
# Expressions that are string literals

A string literal becomes a global of its own, and its tree is a reference to that global.  Other
trees can be references to globals too, so what is written as a literal has to be told from what is
written as a name.

`LiteralText text token` says that the tokens `text` are the literal `token`, with nothing around it
but what leaves no trace in a tree: parentheses and plus signs.  `Step.Yields.readsValue` says that
an expression is a reference to a new literal exactly when its tokens are one.  What carries the
proof is that an expression with a further operand has at least two tokens that leave a trace.
-/

namespace PocketCompiler

variable {α : Type} {s t u v : ParseState}

/-! ### Texts -/

/-- The tokens are a string literal, perhaps in parentheses or behind plus signs. -/
inductive LiteralText : List Token → Token → Prop
  | alone {token : Token} {bytes : Option (List UInt8)} {ty : Option Ty}
      (hkind : token.kind = .string bytes ty) : LiteralText [token] token
  | parens {first last token : Token} {text : List Token} (hfirst : first.reads "(" = true)
      (hlast : last.reads ")" = true) (h : LiteralText text token) :
    LiteralText (first :: (text ++ [last])) token
  | plus {first token : Token} {text : List Token} (hfirst : first.reads "+" = true)
      (h : LiteralText text token) : LiteralText (first :: text) token

/-- Whether a token can be told from the tree of an expression that it is in. -/
def Token.leavesTrace (token : Token) : Bool :=
  !(token.reads "(" || token.reads ")" || token.reads "+")

/-- The tokens that leave a trace. -/
def traces (text : List Token) : List Token := text.filter Token.leavesTrace

@[simp] theorem traces_append (first second : List Token) :
    traces (first ++ second) = traces first ++ traces second :=
  List.filter_append ..

/-- Parentheses and plus signs leave no trace. -/
theorem traces_cons_of_mute {token : Token} {text : List Token} {lexeme : String}
    (hlexeme : lexeme ∈ ["(", ")", "+"]) (h : token.reads lexeme = true) :
    traces (token :: text) = traces text := by
  apply List.filter_cons_of_neg
  simp only [List.mem_cons, List.not_mem_nil, or_false] at hlexeme
  rcases hlexeme with rfl | rfl | rfl <;> simp [Token.leavesTrace, h]

/-- A name, a number or a literal leaves a trace. -/
theorem traces_cons_of_kind {token : Token} {text : List Token}
    (hpunctuator : token.kind ≠ .punctuator) (hkeyword : token.kind ≠ .keyword) :
    traces (token :: text) = token :: traces text := by
  have hreads : ∀ lexeme, token.reads lexeme = false := by
    intro lexeme
    unfold Token.reads
    split <;> simp_all
  apply List.filter_cons_of_pos
  simp [Token.leavesTrace, hreads]

/-- Any other punctuator or keyword leaves a trace. -/
theorem traces_cons_of_reads {token : Token} {text : List Token} {lexeme : String}
    (h : token.reads lexeme = true) (hlexeme : lexeme ∉ ["(", ")", "+"]) :
    traces (token :: text) = token :: traces text := by
  have hreads : ∀ other ∈ ["(", ")", "+"], token.reads other = false := by
    intro other hother
    rw [Bool.eq_false_iff]
    intro hreads
    have heq := Terminal.lexeme.inj ((Token.reads_iff.1 h).symm.trans (Token.reads_iff.1 hreads))
    exact hlexeme (heq ▸ hother)
  apply List.filter_cons_of_pos
  simp [Token.leavesTrace, hreads]

/-- A literal is all that leaves a trace. -/
theorem LiteralText.traces_eq {text : List Token} {token : Token} (h : LiteralText text token) :
    traces text = [token] := by
  induction h with
  | alone hkind => exact traces_cons_of_kind (by rw [hkind]; nofun) (by rw [hkind]; nofun)
  | parens hfirst hlast _ ih =>
    have hclose : traces [_] = traces [] := traces_cons_of_mute (by decide) hlast
    rw [traces_cons_of_mute (by decide) hfirst, traces_append, ih, hclose]
    rfl
  | plus hfirst _ ih => rw [traces_cons_of_mute (by decide) hfirst, ih]

/-- The tokens of a literal in parentheses are those of one literal only. -/
theorem LiteralText.unique {text : List Token} {token other : Token} (h : LiteralText text token)
    (h' : LiteralText text other) : token = other :=
  List.singleton_inj.1 (h.traces_eq.symm.trans h'.traces_eq)

theorem LiteralText.mem {text : List Token} {token : Token} (h : LiteralText text token) :
    token ∈ text := by
  have hmem : token ∈ traces text := h.traces_eq ▸ List.mem_singleton_self token
  exact List.mem_of_mem_filter hmem

/-! ### Trees -/

/-- Whether a tree is a reference to a variable. -/
def Node.isVar : Node → Bool
  | .var _ _ => true
  | _ => false

/-- A reference that is not to a string literal. -/
def VarRef.Named (globals : List Variable) : VarRef → Prop
  | .localVar _ => True
  | .globalVar index => ∃ g, globals[index]? = some g ∧ Symbol.isLiteral g.name = false

/-- A tree that is no reference to a string literal. -/
def Node.Plain (globals : List Variable) : Node → Prop
  | .var _ ref => ref.Named globals
  | _ => True

/-- A global keeps its name when more globals are declared. -/
theorem VarRef.Named.mono {globals larger : List Variable} (hext : globals <+: larger)
    {ref : VarRef} (h : ref.Named globals) : ref.Named larger := by
  cases ref with
  | localVar index => trivial
  | globalVar index =>
    obtain ⟨g, hg, hname⟩ := h
    obtain ⟨more, rfl⟩ := hext
    refine ⟨g, ?_, hname⟩
    rw [List.getElem?_append_left (List.getElem?_eq_some_iff.1 hg).1, hg]

/-- A tree that is no reference at all is none to a string literal. -/
theorem Node.plain_of_isVar {globals : List Variable} {node : Node} (h : node.isVar = false) :
    node.Plain globals := by
  cases node with
  | var mark ref => exact nomatch h
  | _ => trivial

/-- A sum is no reference. -/
theorem Node.isVar_sum {lhs rhs node : Node} {loc : Nat} (h : Node.sum lhs rhs loc = .ok node) :
    node.isVar = false := by
  unfold Node.sum at h
  split at h
  all_goals cases h
  all_goals rfl

/-- A difference is no reference. -/
theorem Node.isVar_difference {lhs rhs node : Node} {loc : Nat}
    (h : Node.difference lhs rhs loc = .ok node) : node.isVar = false := by
  unfold Node.difference at h
  split at h
  all_goals cases h
  all_goals rfl

/-- Operands that are joined are no longer a variable. -/
theorem Level.isVar_join {l : Level} {join : Join} (h : l.join? s = some join) {symbols : Symbols}
    {lhs rhs node : Node} {loc : Nat} (hnode : join symbols lhs rhs loc = .ok node) :
    node.isVar = false := by
  rcases Level.join?_cases h with ⟨text, combine, hmem, rfl⟩ | rfl | rfl
  · obtain ⟨op, -, rfl | rfl⟩ := Level.not_isAdditive_of_mem_table hmem
    · cases hnode; rfl
    · cases hnode; rfl
  · obtain ⟨lhs', -, hnode⟩ := bind_eq_ok_iff.1 hnode
    obtain ⟨rhs', -, hnode⟩ := bind_eq_ok_iff.1 hnode
    exact Node.isVar_sum hnode
  · obtain ⟨lhs', -, hnode⟩ := bind_eq_ok_iff.1 hnode
    obtain ⟨rhs', -, hnode⟩ := bind_eq_ok_iff.1 hnode
    exact Node.isVar_difference hnode

/-! ### Names are not literals -/

/-- No name that is visible is that of a string literal. -/
def ParseState.Apart (s : ParseState) : Prop :=
  ∀ scope ∈ s.scopes, ∀ binding ∈ scope, binding.2.Named s.globals

/-- What a visible name refers to is no string literal. -/
theorem ParseState.Apart.find (h : s.Apart) {name : String} {ref : VarRef}
    (hfind : s.scopes.find? name = some ref) : ref.Named s.globals := by
  obtain ⟨scope, hscope, hlookup⟩ := List.exists_of_findSome?_eq_some hfind
  exact h scope hscope (name, ref) (mem_of_lookup hlookup)

/-- Whatever is read, no name of a string literal becomes visible. -/
theorem ParseState.steady_apart : ParseState.Steady fun s t => s.Apart → t.Apart where
  refl _ := id
  trans h h' := h' ∘ h
  advance _ h := h
  enterScope _ h := List.forall_mem_cons.2 ⟨List.forall_mem_nil _, h⟩
  leaveScope _ h scope hscope := h scope (List.mem_of_mem_tail hscope)
  addLocal _ _ h := Scopes.mem_bind h trivial
  -- The global of a literal gets no name: the scopes stay, and the table grows at its end.
  addLiteral _ _ _ _ _ _ h scope hscope binding hbinding :=
    (h scope hscope binding hbinding).mono (List.prefix_append _ _)

/-! ### Reading an expression -/

/-- What an expression with these tokens is: a reference to a new string literal if they are one,
and else no reference to a string literal. -/
inductive ParseState.ReadsValue (s : ParseState) (text : List Token) (node : Node)
    (t : ParseState) : Prop
  | literal {token : Token} {bytes : List UInt8} {ty : Ty} (htext : LiteralText text token)
      (hkind : token.kind = .string (some bytes) (some ty))
      (hnode : node = .var ⟨token.loc, none⟩ (.globalVar s.globals.length))
      (hglobals : t.globals = s.globals ++ [s.nextLiteral bytes ty])
  | plain (htext : ∀ token bytes ty, token.kind = .string bytes ty → traces text ≠ [token])
      (hnode : node.Plain t.globals)

/-- An expression is read from `s` to `t`. -/
def ParseState.Value (s : ParseState) (node : Node) (t : ParseState) : Prop :=
  ∃ text, s.rest = text ++ t.rest ∧ traces text ≠ [] ∧ s.ReadsValue text node t

/-- What comes behind the operand `lhs` is read from `s` to `t`: nothing, or a further operand. -/
def ParseState.Tail (s : ParseState) (lhs node : Node) (t : ParseState) : Prop :=
  (node = lhs ∧ t = s)
    ∨ ∃ text, s.rest = text ++ t.rest ∧ traces text ≠ [] ∧ node.isVar = false

namespace ParseState

/-- Tokens with two parts that leave a trace are no literal. -/
theorem Value.tail {node lhs : Node} (h : s.Value lhs t) (htail : t.Tail lhs node u) :
    s.Value node u := by
  obtain ⟨text, hrest, htraces, hvalue⟩ := h
  rcases htail with ⟨rfl, rfl⟩ | ⟨more, hmore, hmoreTraces, hnode⟩
  · exact ⟨text, hrest, htraces, hvalue⟩
  · refine ⟨text ++ more, by rw [hrest, hmore, List.append_assoc], by simp [htraces], ?_⟩
    refine .plain (fun token _ _ _ hone => ?_) (Node.plain_of_isVar hnode)
    -- Two parts with traces leave two of them, and a literal leaves one.
    have hlength := congrArg List.length hone
    rw [traces_append, List.length_append, List.length_singleton] at hlength
    have hfirst := List.length_pos_iff.2 htraces
    have hsecond := List.length_pos_iff.2 hmoreTraces
    omega

/-- A further operand, with other tokens in front of it and behind it, and what comes then. -/
theorem Tail.of_value {before between : List Token} {rhs lhs joined node : Node}
    (hbefore : s.rest = before ++ t.rest) (hvalue : t.Value rhs u)
    (hbetween : u.rest = between ++ v.rest) {w : ParseState} (hjoined : joined.isVar = false)
    (htail : v.Tail joined node w) : s.Tail lhs node w := by
  obtain ⟨text, hrest, htraces, -⟩ := hvalue
  rcases htail with ⟨rfl, rfl⟩ | ⟨more, hmore, -, hnode⟩
  · exact .inr ⟨before ++ text ++ between, by rw [hbefore, hrest, hbetween]; simp,
      by simp [htraces], hjoined⟩
  · exact .inr ⟨before ++ text ++ between ++ more, by rw [hbefore, hrest, hbetween, hmore]; simp,
      by simp [htraces], hnode⟩

/-- A token that is an operand, but no literal, with more tokens behind it. -/
theorem Value.of_operand {token : Token} {text : List Token} {node : Node}
    (hpunctuator : token.kind ≠ .punctuator) (hkeyword : token.kind ≠ .keyword)
    (hstring : ∀ bytes ty, token.kind ≠ .string bytes ty) (hrest : s.rest = token :: text ++ t.rest)
    (hnode : node.Plain t.globals) : s.Value node t := by
  have htraces : traces (token :: text) = token :: traces text :=
    traces_cons_of_kind hpunctuator hkeyword
  refine ⟨token :: text, hrest, by rw [htraces]; exact List.cons_ne_nil _ _, .plain ?_ hnode⟩
  intro found bytes ty hkind hone
  rw [htraces] at hone
  obtain ⟨rfl, -⟩ := List.cons.inj hone
  exact hstring bytes ty hkind

/-- A string literal is a reference to the global that is added for it. -/
theorem Value.literal {bytes : List UInt8} {ty : Ty} {loc : Nat} {text : String}
    (hcurrent : s.current? = some ⟨.string (some bytes) (some ty), loc, text⟩) :
    s.Value (.var ⟨s.loc, none⟩ (.globalVar s.advance.globals.length))
      (s.advance.addLiteral bytes ty) := by
  have hliteral : LiteralText [⟨.string (some bytes) (some ty), loc, text⟩] _ := .alone rfl
  have hloc : s.loc = loc := by rw [ParseState.loc, hcurrent]
  refine ⟨_, (Past.advance hcurrent).rest, ?_, ?_⟩
  · rw [hliteral.traces_eq]
    exact List.cons_ne_nil _ _
  exact .literal hliteral rfl (by rw [hloc]; rfl) rfl

/-- Parentheses leave no trace in the tree. -/
theorem Value.parens {node : Node} (h : s.advance.Value node t) (hopen : s.sees "(" = true)
    (hclose : t.sees ")" = true) : s.Value node t.advance := by
  obtain ⟨text, hrest, htraces, hvalue⟩ := h
  obtain ⟨first, hfirst, hpast⟩ := Past.of_sees hopen
  obtain ⟨last, hlast, hpast'⟩ := Past.of_sees hclose
  have hlastTraces : traces [last] = traces [] := traces_cons_of_mute (by decide) hlast
  have hsame : traces (first :: (text ++ [last])) = traces text := by
    rw [traces_cons_of_mute (by decide) hfirst, traces_append, hlastTraces]
    exact List.append_nil _
  refine ⟨first :: (text ++ [last]), ?_, by rw [hsame]; exact htraces, ?_⟩
  · rw [hpast.rest, hrest, hpast'.rest]
    simp
  · cases hvalue with
    | literal htext hkind hnode hglobals =>
      exact .literal (.parens hfirst hlast htext) hkind hnode hglobals
    | plain htext hnode => exact .plain (by rw [hsame]; exact htext) hnode

/-- A sign other than a plus can be told from the tree. -/
theorem exists_sees_of_sign {sign : Sign} (h : s.sign? = some sign) (hplus : ¬ s.sees "+" = true)
    (loc : Nat) (node : Node) : ∃ lexeme, lexeme ∉ ["(", ")", "+"] ∧ s.sees lexeme = true
      ∧ (sign.apply loc node).isVar = false := by
  rw [ParseState.sign?, if_neg hplus] at h
  split at h
  · next hsees =>
    obtain rfl := Option.some.inj h
    exact ⟨"-", by decide, hsees, rfl⟩
  split at h
  · next hsees =>
    obtain rfl := Option.some.inj h
    exact ⟨"&", by decide, hsees, rfl⟩
  split at h
  · next hsees =>
    obtain rfl := Option.some.inj h
    exact ⟨"*", by decide, hsees, rfl⟩
  · cases h

/-- A plus sign leaves no trace in the tree, and any other sign makes it no reference. -/
theorem Value.sign {node : Node} (h : s.advance.Value node t) {sign : Sign}
    (hsign : s.sign? = some sign) : s.Value (sign.apply s.loc node) t := by
  obtain ⟨text, hrest, htraces, hvalue⟩ := h
  -- Behind a plus sign a literal is still one.  Any other sign leaves a trace of its own.
  by_cases hplus : s.sees "+" = true
  · obtain ⟨first, hfirst, hpast⟩ := Past.of_sees hplus
    have hsame : traces (first :: text) = traces text := traces_cons_of_mute (by decide) hfirst
    rw [ParseState.sign?, if_pos hplus] at hsign
    obtain rfl := Option.some.inj hsign
    refine ⟨first :: text, ?_, by rw [hsame]; exact htraces, ?_⟩
    · rw [hpast.rest, hrest]
      rfl
    · cases hvalue with
      | literal htext hkind hnode hglobals =>
        exact .literal (.plus hfirst htext) hkind hnode hglobals
      | plain htext hnode => exact .plain (by rw [hsame]; exact htext) hnode
  · obtain ⟨lexeme, hlexeme, hsees, hnode⟩ := exists_sees_of_sign hsign hplus s.loc node
    obtain ⟨first, hfirst, hpast⟩ := Past.of_sees hsees
    have hmore : traces (first :: text) = first :: traces text :=
      traces_cons_of_reads hfirst hlexeme
    refine ⟨first :: text, ?_, by rw [hmore]; exact List.cons_ne_nil _ _, .plain ?_ ?_⟩
    · rw [hpast.rest, hrest]
      rfl
    · intro token _ _ _ hone
      rw [hmore] at hone
      exact htraces (List.cons.inj hone).2
    · exact Node.plain_of_isVar hnode

end ParseState

/-- What a rule for expressions reads. -/
def Rule.Values : {α : Type} → Rule α → ParseState → α → ParseState → Prop
  | _, .expr, s, node, t | _, .level _, s, node, t | _, .unary, s, node, t => s.Value node t
  | _, .postfixed, s, node, t | _, .primary, s, node, t => s.Value node t
  | _, .more _ lhs, s, node, t | _, .subscripts lhs, s, node, t => s.Tail lhs node t
  | _, .arguments _ _ _, _, node, _ => node.isVar = false
  | _, _, _, _, _ => True

/-- Where no name is that of a literal, expressions are what their tokens say. -/
def Contract.values : Contract where
  pre _ _ := True
  post rule s a t := s.Apart → rule.Values s a t

/-- The rule reads what its tokens say, if the rules that it calls do. -/
def Rule.ReadsValues (rule : Rule α) : Prop :=
  ∀ s : ParseState, s.Apart → (rule.step s).Meets Contract.values.derived (rule.Values s)

namespace Rule

open Step

theorem readsValues_expr : expr.ReadsValues := by
  intro s hs
  rw [step]
  refine ⟨trivial, ?_⟩
  rintro node t ⟨hnode, hread⟩
  have ht := ParseState.steady_apart.yields rfl hread hs
  refine meets_ite.2 ⟨fun hassign => ⟨trivial, ?_⟩, fun _ => hnode hs⟩
  rintro value u ⟨hvalue, -⟩
  obtain ⟨token, -, hpast⟩ := ParseState.Past.of_sees hassign
  apply (hnode hs).tail
  exact .of_value hpast.rest (hvalue ht) (List.nil_append _).symm rfl (.inl ⟨rfl, rfl⟩)

/-- An operand of a level is what its tokens say, whatever rule reads it. -/
theorem values_operand {l : Level} {node : Node} (h : l.operand.Values s node t) :
    s.Value node t := by
  cases l <;> exact h

/-- Reading an operand makes no name of a literal visible. -/
theorem apart_operand {l : Level} {node : Node} (hs : s.Apart)
    (h : (l.operand.step s).Yields node t) : t.Apart := by
  refine ParseState.steady_apart.yields ?_ h hs
  cases l <;> rfl

theorem readsValues_level (l : Level) : (level l).ReadsValues := by
  intro s hs
  rw [step]
  refine ⟨trivial, ?_⟩
  rintro lhs t ⟨hlhs, hread⟩
  refine ⟨trivial, ?_⟩
  rintro node u ⟨htail, -⟩
  exact (values_operand (hlhs hs)).tail (htail (apart_operand hs hread))

/-- An operator makes a tree that is no reference, and it leaves a trace. -/
theorem readsValues_more (l : Level) (lhs : Node) : (more l lhs).ReadsValues := by
  intro s hs
  rw [step]
  split
  · exact .inl ⟨rfl, rfl⟩
  · next join hjoin =>
    have hs' : s.advance.Apart := hs
    refine ⟨trivial, ?_⟩
    rintro rhs t ⟨hrhs, hread⟩
    refine meets_ofResult.2 fun joined hjoined => ⟨trivial, ?_⟩
    rintro node u ⟨htail, -⟩
    obtain ⟨text, -, hsees⟩ := Level.exists_sees_of_join? hjoin
    obtain ⟨token, -, hpast⟩ := ParseState.Past.of_sees hsees
    exact .of_value hpast.rest (values_operand (hrhs hs')) (List.nil_append _).symm
      (Level.isVar_join hjoin hjoined) (htail (apart_operand hs' hread))

theorem readsValues_postfixed : postfixed.ReadsValues := by
  intro s hs
  rw [step]
  refine ⟨trivial, ?_⟩
  rintro lhs t ⟨hlhs, hread⟩
  refine ⟨trivial, ?_⟩
  rintro node u ⟨htail, -⟩
  exact (hlhs hs).tail (htail (ParseState.steady_apart.yields rfl hread hs))

/-- A subscript makes a tree that is no reference. -/
theorem readsValues_subscripts (lhs : Node) : (subscripts lhs).ReadsValues := by
  intro s hs
  rw [step]
  refine meets_ite.2 ⟨fun hopen => ⟨trivial, ?_⟩, fun _ => .inl ⟨rfl, rfl⟩⟩
  rintro index t ⟨hindex, hread⟩
  have ht : t.Apart := ParseState.steady_apart.yields rfl hread hs
  refine meets_expect.2 fun hclose => meets_ofResult.2 fun place _ => ⟨trivial, ?_⟩
  rintro node u ⟨htail, -⟩
  obtain ⟨first, -, hpast⟩ := ParseState.Past.of_sees hopen
  obtain ⟨last, -, hpast'⟩ := ParseState.Past.of_sees hclose
  exact .of_value hpast.rest (hindex hs) hpast'.rest rfl (htail ht)

/-- A plus sign leaves no trace, and the other signs make a new tree. -/
theorem readsValues_unary : unary.ReadsValues := by
  intro s hs
  rw [step]
  split
  · refine ⟨trivial, ?_⟩
    rintro node t ⟨hnode, -⟩
    exact hnode hs
  · next sign hsign =>
    refine ⟨trivial, ?_⟩
    rintro node t ⟨hnode, -⟩
    exact (hnode hs).sign hsign

theorem readsValues_arguments (loc : Nat) (name : String) (args : List Node) :
    (arguments loc name args).ReadsValues := by
  intro s hs
  rw [step]
  refine meets_ite.2 ⟨fun _ => ⟨trivial, ?_⟩, fun _ => trivial⟩
  rintro argument t ⟨-, hread⟩
  have ht : t.Apart := ParseState.steady_apart.yields rfl hread hs
  refine meets_ite.2 ⟨fun _ => rfl, fun _ => meets_expect.2 fun _ => ⟨trivial, ?_⟩⟩
  rintro node u ⟨hnode, -⟩
  exact hnode ht

/-- A literal, a name, a number or a call is told by its first tokens. -/
theorem readsValues_primary : primary.ReadsValues := by
  intro s hs
  rw [step]
  -- Parentheses, a call, a variable, a literal or a number.
  refine meets_ite.2 ⟨fun hopen => ⟨trivial, ?_⟩, fun _ => ?_⟩
  · rintro node t ⟨hnode, -⟩
    exact meets_expect.2 fun hclose => (hnode hs).parens hopen hclose
  · split
    · refine meets_identifier.2 fun name loc hcurrent => meets_ite.2 ⟨fun hcall => ?_, fun _ => ?_⟩
      · -- A call is a tree of its own, whatever its arguments are.
        have hcalled : ∀ {node : Node} {t : ParseState}, node.isVar = false →
            s.advance.advance.Leads t → s.Value node t := by
          intro node t hnode hleads
          obtain ⟨text, htext⟩ := hleads.rest
          obtain ⟨token, -, hpast⟩ := ParseState.Past.of_sees hcall
          have hrest : s.rest = ⟨.identifier, loc, name⟩ :: (token :: text) ++ t.rest := by
            rw [((ParseState.Past.advance hcurrent).trans hpast).rest, ← htext]
            simp
          exact .of_operand (by simp) (by simp) (by simp) hrest (Node.plain_of_isVar hnode)
        refine meets_ite.2 ⟨fun _ => trivial, fun _ => meets_ite.2 ⟨fun hclose => ?_, fun _ => ?_⟩⟩
        · exact hcalled rfl (ParseState.steady_leads.advance _)
        · refine ⟨trivial, ?_⟩
          rintro node t ⟨hnode, hread⟩
          exact hcalled (hnode hs) (hread.leads rfl)
      · unfold useOf
        split
        · next ref hfind =>
          exact .of_operand (by simp) (by simp) (by simp) (ParseState.Past.advance hcurrent).rest
            (hs.find hfind)
        · trivial
    · refine meets_literal.2 fun bytes ty loc text hcurrent => ?_
      exact .literal hcurrent
    · refine meets_number.2 fun value loc digits hcurrent => ?_
      exact .of_operand (by simp) (by simp) (by simp) (ParseState.Past.advance hcurrent).rest
        trivial
    · trivial

end Rule

/-- **Expressions are what their tokens say**, whatever rule reads them. -/
theorem Contract.derived_values : Contract.values.Derived := by
  intro α rule s _
  -- Without `Apart` nothing is asked, so each rule is looked at in the other case only.
  by_cases hs : s.Apart
  · apply Step.Meets.mono (fun a t h _ => h)
    cases rule with
    | expr => exact Rule.readsValues_expr s hs
    | level l => exact Rule.readsValues_level l s hs
    | more l lhs => exact Rule.readsValues_more l lhs s hs
    | unary => exact Rule.readsValues_unary s hs
    | postfixed => exact Rule.readsValues_postfixed s hs
    | subscripts node => exact Rule.readsValues_subscripts node s hs
    | primary => exact Rule.readsValues_primary s hs
    | arguments loc name args => exact Rule.readsValues_arguments loc name args s hs
    | _ => exact Step.meets_of_forall (fun _ _ => trivial) (fun _ _ => trivial) _
  · exact Step.meets_of_forall (fun _ _ => trivial) (fun _ _ h => absurd h hs) _

/-- **An expression is a reference to a new string literal exactly when its tokens are one.** -/
theorem Step.Yields.readsValue {node : Node} (h : (Rule.expr.step s).Yields node t) (hs : s.Apart) :
    ∃ text, s.rest = text ++ t.rest ∧ s.ReadsValue text node t := by
  obtain ⟨text, hrest, -, hvalue⟩ := Contract.derived_values.yields trivial h hs
  exact ⟨text, hrest, hvalue⟩

end PocketCompiler
