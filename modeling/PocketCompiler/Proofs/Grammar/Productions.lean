import PocketCompiler.Proofs.Grammar.Lookahead

/-!
# The rules read their productions

`Rule.looks`: each rule looks at one token, and what it reads is a word of its form.  There is one
lemma for each way to put steps together, in which the form of the whole is made of the forms of its
parts, and then one for each rule.
-/

namespace PocketCompiler

variable {α β : Type} {s : ParseState} {o : Option Token}

/-! ### Every form has a word -/

namespace Form

/-- The form has a word. -/
def Productive (f : Form) : Prop := ∃ w, Derives wholeGrammar f w

namespace Productive

variable {f h : Form}

theorem terminal (t : Terminal) : (Form.terminal t).Productive := ⟨_, .terminal t⟩

/-- A text stands for one token, so it has a word. -/
theorem text (t : String) : (Form.text t).Productive := terminal _

/-- A nonterminal has a word if its production has one. -/
theorem rule {n : Nonterminal} (hn : (wholeGrammar n).Productive) : (Form.rule n).Productive :=
  hn.imp fun _ => .rule

/-- A word of each part makes a word of the whole. -/
theorem append (hf : f.Productive) (hh : h.Productive) : (f ++ h).Productive := by
  obtain ⟨u, hu⟩ := hf
  obtain ⟨v, hv⟩ := hh
  exact ⟨u ++ v, hu.append hv⟩

/-- A word of one side is enough. -/
theorem left (hf : f.Productive) : (f ||| h).Productive := hf.imp fun _ => .left

theorem right (hh : h.Productive) : (f ||| h).Productive := hh.imp fun _ => .right

theorem optional : f.optional.Productive := right ⟨[], .empty⟩

/-- No repetitions at all are a word. -/
theorem many : (Form.many f).Productive := ⟨[], .nil⟩

end Productive

/-- Every nonterminal has a word: a number is an expression, and a semicolon is a statement. -/
theorem productive_rule (n : Nonterminal) : (rule n).Productive := by
  -- Each nonterminal comes behind those that its word is made of.
  have primary : (rule .primary).Productive := .rule (.right (.terminal _))
  have postfixed : (rule .postfixed).Productive := .rule (primary.append .many)
  have unary : (rule .unary).Productive := .rule (.right postfixed)
  have mul : (rule .mul).Productive := .rule (unary.append .many)
  have add : (rule .add).Productive := .rule (mul.append .many)
  have relational : (rule .relational).Productive := .rule (add.append .many)
  have equality : (rule .equality).Productive := .rule (relational.append .many)
  have assign : (rule .assign).Productive := .rule (equality.append .optional)
  have expr : (rule .expr).Productive := .rule assign
  have exprStmt : (rule .exprStmt).Productive := .rule (.append .optional (.text _))
  have stmt : (rule .stmt).Productive := .rule (.right exprStmt)
  have compoundStmt : (rule .compoundStmt).Productive := .rule (.append .many (.text _))
  have baseType : (rule .baseType).Productive := .rule (.left (.text _))
  have type : (rule .type).Productive := .rule (.right (.append .many baseType))
  have declName : (rule .declName).Productive := .rule (.append .many (.terminal _))
  have declNames : (rule .declNames).Productive := .rule (declName.append .many)
  have initializers : Form.initializers.Productive := .append .optional (.text _)
  have declared := (((Productive.text "var").append declNames).append type).append initializers
  have params : (rule .params).Productive := .rule .optional
  have function : (rule .function).Productive := .rule ((((((((Productive.text _).append
    (.terminal _)).append (.text _)).append params).append (.text _)).append type).append
      (.text _)).append compoundStmt)
  cases n with
  | program => exact .rule .many
  | param => exact .rule (.append (.terminal _) type)
  | args => exact .rule .optional
  | globalVar | declaration => exact .rule declared
  | _ => assumption

/-- Every form has a word. -/
theorem productive (f : Form) : f.Productive := by
  induction f with
  | terminal t => exact .terminal t
  | rule n => exact productive_rule n
  | empty => exact ⟨[], .empty⟩
  | seq f h hf hh => exact hf.append hh
  | either f h hf hh => exact hf.left
  | many f hf => exact .many

end Form

/-! ### Putting steps together -/

namespace LooksAt

variable {L M : List Terminal → Prop} {x y : List Token → Step α} {f h : Form}

/-- What is read is also a word of any larger language. -/
theorem mono (h : LooksAt L o x) :
    ∀ {M : List Terminal → Prop}, (∀ w, L w → M w) → LooksAt M o x := by
  induction h with
  | done t hx hL => exact fun hLM => .done t hx (hLM _ hL)
  | fail hx hfailure hL => exact fun hLM => .fail hx hfailure (hL.imp hLM)
  | move hx hy ih => exact fun hLM => .move hx fun o => ih o fun w => hLM _
  | call s hx hnext ih =>
    exact fun hLM => .call s hx fun v hv b t o => ih v hv b t o fun w => hLM _

/-- Only what a step does in front of `o` matters. -/
theorem congr (h : LooksAt L o y) (hxy : ∀ rest, rest.head? = o → x rest = y rest) :
    LooksAt L o x := by
  cases h with
  | done t hx hL => exact .done t (fun rest hrest => (hxy rest hrest).trans (hx rest hrest)) hL
  | fail hx hfailure hL =>
    exact .fail (fun rest hrest => (hxy rest hrest).trans (hx rest hrest)) hfailure hL
  | move hx hy => exact .move (fun rest => (hxy _ rfl).trans (hx rest)) hy
  | call s hx hnext =>
    exact .call s (fun rest hrest => (hxy rest hrest).trans (hx rest hrest)) hnext

/-- Moves past the current token, whatever it is. -/
theorem advance {token : Token} {t : Terminal} (ht : token.terminal = t)
    (h : ∀ o, LooksAt (fun w => L (t :: w)) o fun rest => x (token :: rest)) :
    LooksAt L (some token) x := by
  subst ht
  exact .move (fun _ => rfl) h

/-- Nothing more is read. -/
theorem nothing {a : α} (t : ParseState) :
    LooksAt (Derives wholeGrammar .empty) o fun rest => .done a (t.facing rest) :=
  .done t (fun _ _ => rfl) .empty

/-- A failed check. -/
theorem check {failure : Failure} (hfailure : failure.IsCheck) :
    LooksAt (Derives wholeGrammar f) o fun _ => (.fail failure : Step α) :=
  .fail (fun _ _ => rfl) (hfailure.about o) f.productive

/-- A token that the grammar does not want. -/
theorem unexpected (hL : ∃ w, L w) (wanted : Expected) :
    LooksAt L o fun rest => (.fail ((s.facing rest).unexpected wanted) : Step α) := by
  have hfail : ∀ rest, rest.head? = o → (s.facing rest).unexpected wanted
      = (s.facing o.toList).unexpected wanted := fun rest hrest =>
    ParseState.unexpected_facing hrest wanted
  refine .fail (fun rest hrest => congrArg Step.fail (hfail rest hrest)) ?_ hL
  simpa only [ParseState.current?_facing, head?_toList] using
    (s.facing o.toList).about_unexpected wanted

/-- A choice by the current token. -/
theorem ite_sees {text : String}
    (hx : ∀ token, token.terminal = .lexeme text → LooksAt L (some token) x) (hy : LooksAt L o y) :
    LooksAt L o fun rest => if (s.facing rest).sees text then x rest else y rest := by
  by_cases ho : ∃ token, o = some token ∧ token.terminal = .lexeme text
  · obtain ⟨token, rfl, htoken⟩ := ho
    refine (hx token htoken).congr fun rest hrest => if_pos ?_
    rw [ParseState.sees_facing, hrest]
    exact Token.reads_iff.2 htoken
  · refine hy.congr fun rest hrest => if_neg ?_
    rw [ParseState.sees_facing, hrest]
    rintro hsees
    obtain ⟨token, rfl, htoken⟩ := (Option.any_eq_true _ _).1 hsees
    exact ho ⟨token, rfl, Token.reads_iff.1 htoken⟩

/-- A choice by the current token, which is moved past if it is the one that is asked for. -/
theorem ite_text {text : String} (hf : ∀ w, Derives wholeGrammar f w → L (.lexeme text :: w))
    (hx : ∀ token o, LooksAt (Derives wholeGrammar f) o fun rest => x (token :: rest))
    (hy : LooksAt L o y) :
    LooksAt L o fun rest => if (s.facing rest).sees text then x rest else y rest :=
  .ite_sees (fun token htoken => .advance htoken fun o => (hx token o).mono hf) hy

/-- What follows a certain token may be missing. -/
theorem optional {text : String}
    (hx : ∀ token o, LooksAt (Derives wholeGrammar f) o fun rest => x (token :: rest))
    (hy : LooksAt (Derives wholeGrammar .empty) o y) :
    LooksAt (Derives wholeGrammar (.optional (.text text ++ f))) o
      fun rest => if (s.facing rest).sees text then x rest else y rest :=
  .ite_text (fun _ hw => .left (.append (.terminal _) hw)) hx (hy.mono fun _ => .right)

/-- A condition that no token decides. -/
theorem ite_check {p : Prop} [Decidable p] {failure : Failure} (hfailure : failure.IsCheck)
    (hx : LooksAt (Derives wholeGrammar f) o x) :
    LooksAt (Derives wholeGrammar f) o fun rest => if p then x rest else .fail failure := by
  by_cases hp : p
  · simpa only [if_pos hp] using hx
  · simpa only [if_neg hp] using check hfailure

/-- A condition that no token decides, with a complaint about the current token. -/
theorem ite_here {p : Prop} [Decidable p] {cause : Complaint}
    (hcause : ∀ loc, (Failure.complaint loc cause).IsCheck)
    (hx : LooksAt (Derives wholeGrammar f) o x) :
    LooksAt (Derives wholeGrammar f) o
      fun rest => if p then x rest else .fail (.complaint (s.facing rest).loc cause) := by
  refine (ite_check (p := p) (hcause (s.facing o.toList).loc) hx).congr fun rest hrest => ?_
  rw [ParseState.loc_facing hrest]

/-- A check in front of a step takes no tokens. -/
theorem ite_refused {p : Prop} [Decidable p] {failure : Failure} (hfailure : failure.IsCheck)
    (hx : LooksAt (Derives wholeGrammar f) o x) :
    LooksAt (Derives wholeGrammar f) o fun rest => if p then .fail failure else x rest := by
  by_cases hp : p
  · simpa only [if_pos hp] using check hfailure
  · simpa only [if_neg hp] using hx

/-- A step that passes a text reads the text and what is read behind it. -/
theorem text {t : String} {next : ParseState → Step α}
    (hnext : ∀ o, LooksAt (Derives wholeGrammar f) o fun rest => next (s.facing rest)) :
    LooksAt (Derives wholeGrammar (.text t ++ f)) o fun rest => .expect t (s.facing rest) next :=
  .ite_text (fun _ hw => .append (.terminal _) hw) (fun _ o => hnext o)
    (.unexpected (Form.productive _) _)

/-- A step that passes a name reads a name and what is read behind it. -/
theorem identifier {next : String → Nat → ParseState → Step α}
    (hnext : ∀ name loc o, LooksAt (Derives wholeGrammar f) o
      fun rest => next name loc (s.facing rest)) :
    LooksAt (Derives wholeGrammar (.terminal .identifier ++ f)) o
      fun rest => .identifier (s.facing rest) next := by
  by_cases ho : ∃ loc name, o = some ⟨.identifier, loc, name⟩
  · obtain ⟨loc, name, rfl⟩ := ho
    refine .advance (t := .identifier) rfl fun o => ?_
    exact (hnext name loc o).mono fun w hw => .append (.terminal _) hw
  · refine (LooksAt.unexpected (s := s) (Form.productive _) .identifier).congr fun rest hrest => ?_
    unfold Step.identifier
    split
    · next loc name hcurrent => exact (ho ⟨loc, name, hrest.symm.trans hcurrent⟩).elim
    · rfl

theorem number {next : Int64 → Nat → ParseState → Step α}
    (hnext : ∀ value loc o, LooksAt (Derives wholeGrammar f) o
      fun rest => next value loc (s.facing rest)) :
    LooksAt (Derives wholeGrammar (.terminal .number ++ f)) o
      fun rest => .number (s.facing rest) next := by
  by_cases ho : ∃ value loc text, o = some ⟨.number value, loc, text⟩
  · obtain ⟨value, loc, text, rfl⟩ := ho
    cases value with
    | some value =>
      refine .advance (t := .number) rfl fun o => ?_
      exact (hnext value loc o).mono fun w hw => .append (.terminal _) hw
    | none =>
      have hcheck : (Failure.complaint loc .numberWithoutValue).IsCheck := trivial
      refine (check hcheck).congr fun rest hrest => ?_
      unfold Step.number
      rw [ParseState.current?_facing, hrest]
  · refine (LooksAt.unexpected (s := s) (Form.productive _) .number).congr fun rest hrest => ?_
    unfold Step.number
    split
    · next hcurrent => exact (ho ⟨_, _, _, hrest.symm.trans hcurrent⟩).elim
    · next hcurrent => exact (ho ⟨_, _, _, hrest.symm.trans hcurrent⟩).elim
    · rfl

theorem literal {next : List UInt8 → Ty → ParseState → Step α}
    (hnext : ∀ bytes ty o, LooksAt (Derives wholeGrammar f) o
      fun rest => next bytes ty (s.facing rest)) :
    LooksAt (Derives wholeGrammar (.terminal .string ++ f)) o
      fun rest => .literal (s.facing rest) next := by
  by_cases ho : ∃ bytes ty loc text, o = some ⟨.string (some bytes) (some ty), loc, text⟩
  · obtain ⟨bytes, ty, loc, text, rfl⟩ := ho
    refine .advance (t := .string) rfl fun o => ?_
    exact (hnext bytes ty o).mono fun w hw => .append (.terminal _) hw
  · refine (LooksAt.unexpected (s := s) (Form.productive _) .stringLiteral).congr
      fun rest hrest => ?_
    unfold Step.literal
    split
    · next hcurrent => exact (ho ⟨_, _, _, _, hrest.symm.trans hcurrent⟩).elim
    · rfl

/-- What a rule reads is also a word of any larger form. -/
theorem ruleAs {r : Rule β} {next : β → ParseState → Step α}
    (hr : ∀ v, r.Spells v → Derives wholeGrammar h v)
    (hnext : ∀ b (t : ParseState) o, LooksAt (Derives wholeGrammar f) o
      fun rest => next b (t.facing rest)) :
    LooksAt (Derives wholeGrammar (h ++ f)) o fun rest => .call r (s.facing rest) next :=
  .call s (fun _ _ => rfl) fun v hv b t o => (hnext b t o).mono fun _ hw => .append (hr v hv) hw

/-- A call reads the form of its rule, and then what is read behind it. -/
theorem rule {r : Rule β} {next : β → ParseState → Step α}
    (hnext : ∀ b (t : ParseState) o, LooksAt (Derives wholeGrammar f) o
      fun rest => next b (t.facing rest)) :
    LooksAt (Derives wholeGrammar (r.form ++ f)) o fun rest => .call r (s.facing rest) next :=
  .ruleAs (fun _ hv => hv) hnext

/-- What the last rule reads is all. -/
theorem last {r : Rule β} {next : β → ParseState → Step α}
    (hnext : ∀ b (t : ParseState) o, LooksAt (Derives wholeGrammar .empty) o
      fun rest => next b (t.facing rest)) :
    LooksAt (Derives wholeGrammar r.form) o fun rest => .call r (s.facing rest) next :=
  (LooksAt.rule hnext).mono fun _ hw => Derives.append_empty_iff.1 hw

/-- The last rule reads all, and what it reads is the result. -/
theorem tail {r : Rule α} :
    LooksAt (Derives wholeGrammar r.form) o fun rest => .call r (s.facing rest) .done :=
  .last fun _ _ _ => .nothing _

/-- The token is the last one. -/
theorem lastText {t : String} {next : ParseState → Step α}
    (hnext : ∀ o, LooksAt (Derives wholeGrammar .empty) o fun rest => next (s.facing rest)) :
    LooksAt (Derives wholeGrammar (.text t)) o fun rest => .expect t (s.facing rest) next :=
  (LooksAt.text hnext).mono fun _ hw => Derives.append_empty_iff.1 hw

/-- What is computed from what has been read takes no tokens, and what it complains about is no
token. -/
theorem ofResult {r : Except Failure β} {next : β → List Token → Step α}
    (hr : Ends r (fun _ => True) Failure.IsCheck)
    (hnext : ∀ b, LooksAt (Derives wholeGrammar f) o (next b)) :
    LooksAt (Derives wholeGrammar f) o fun rest => .ofResult r fun b => next b rest := by
  cases r with
  | ok b => exact hnext b
  | error failure => exact check hr

/-- A reader that looks at no token takes none. -/
theorem ofRun {p : Parse β} {next : β → ParseState → Step α} (hp : p.Checks) (hblind : p.Blind)
    (hnext : ∀ b (t : ParseState), LooksAt (Derives wholeGrammar f) o
      fun rest => next b (t.facing rest)) :
    LooksAt (Derives wholeGrammar f) o fun rest => .ofRun (p.run (s.facing rest)) next := by
  simp only [hblind.run_facing s]
  have hends := hp s
  cases hps : p.run s with
  | ok r => exact hnext r.1 r.2
  | error failure =>
    rw [hps] at hends
    exact check hends

end LooksAt

/-! ### Operators -/

/-- The operands of a level have the form of the next one. -/
theorem Level.form_operand (l : Level) : l.operand.form = .rule l.operandNonterminal := by
  cases l <;> rfl

/-- Only the current token says how operands are joined. -/
theorem Level.join?_facing {l : Level} {rest : List Token} (h : rest.head? = o) :
    l.join? (s.facing rest) = l.join? (s.facing o.toList) := by
  subst h
  cases rest <;> rfl

/-- Which operator stands in front of an operand is a matter of the next token. -/
theorem ParseState.sign?_facing {rest : List Token} (h : rest.head? = o) :
    (s.facing rest).sign? = (s.facing o.toList).sign? := by
  subst h
  cases rest <;> rfl

/-- The operators in the table of a level are operators of the level. -/
theorem Level.derives_operators {l : Level} {text : String} {combine : Node → Node → Nat → Node}
    (h : (text, combine) ∈ l.table) : Derives wholeGrammar l.operators [.lexeme text] := by
  cases l with
  | sum => exact absurd h List.not_mem_nil
  | equality | relational | product =>
    simp only [Level.table, List.mem_cons, Prod.mk.injEq, List.not_mem_nil, or_false] at h
    simp only [Level.operators, Derives.or_iff, Derives.text_iff]
    grind

/-- What joins operands is an operator of the level. -/
theorem Level.exists_of_join? {l : Level} {join : Join} (h : l.join? s = some join) :
    ∃ token, s.current? = some token ∧ Derives wholeGrammar l.operators [token.terminal] := by
  have hsees : ∃ text, s.sees text = true ∧ Derives wholeGrammar l.operators [.lexeme text] := by
    have hplain : (s.lookup l.table).map Join.plain = some join →
        ∃ text, s.sees text = true ∧ Derives wholeGrammar l.operators [.lexeme text] := by
      intro h
      obtain ⟨combine, hcombine, -⟩ := Option.map_eq_some_iff.1 h
      obtain ⟨text, hmem, hsees⟩ := ParseState.sees_of_lookup hcombine
      exact ⟨text, hsees, Level.derives_operators hmem⟩
    cases l with
    | sum =>
      simp only [Level.join?] at h
      split at h
      · next hsees => exact ⟨_, hsees, .left (.terminal _)⟩
      · split at h
        · next hsees => exact ⟨_, hsees, .right (.terminal _)⟩
        · cases h
    | equality => exact hplain h
    | relational => exact hplain h
    | product => exact hplain h
  obtain ⟨text, hsees, hoperator⟩ := hsees
  obtain ⟨token, hcurrent, hreads⟩ := ParseState.exists_of_sees hsees
  exact ⟨token, hcurrent, Token.reads_iff.1 hreads ▸ hoperator⟩

/-- The token of such an operator is one of four. -/
theorem ParseState.exists_of_sign? {sign : Sign} (h : s.sign? = some sign) :
    ∃ token, s.current? = some token ∧ Derives wholeGrammar .signs [token.terminal] := by
  have hsees : ∃ text, s.sees text = true ∧ Derives wholeGrammar .signs [.lexeme text] := by
    simp only [Form.signs, Derives.or_iff, Derives.text_iff]
    unfold ParseState.sign? at h
    grind
  obtain ⟨text, hsees, hsign⟩ := hsees
  obtain ⟨token, hcurrent, hreads⟩ := ParseState.exists_of_sees hsees
  exact ⟨token, hcurrent, Token.reads_iff.1 hreads ▸ hsign⟩

/-- One more of what has commas between them. -/
theorem Derives.comma {g : Nonterminal → Form} {f : Form} {w : List Terminal}
    (h : Derives g (.separated f) w) : Derives g (.many (.text "," ++ f)) (.lexeme "," :: w) := by
  obtain ⟨u, v, rfl, hu, hv⟩ := Derives.append_iff.1 h
  exact (Derives.cons ((Derives.text ",").append hu) hv).of_eq (by simp)

/-! ### Rules -/

namespace Rule

open ParseState (advance_facing_cons loc_facing_cons)

theorem looks_expr : expr.Looks := by
  intro s o
  have hreads : LooksAt (Derives wholeGrammar
      (.rule .equality ++ .optional (.text "=" ++ .rule .assign)))
      o fun rest => expr.step (s.facing rest) := by
    refine .rule (r := .level .equality) fun node t o => .optional (fun token o => ?_) (.nothing t)
    simp only [advance_facing_cons, loc_facing_cons]
    exact (LooksAt.last (r := .expr) fun _ t _ => .nothing t).mono fun _ hw => Derives.rule_iff.1 hw
  exact hreads.mono fun w hw => .rule (.rule hw)

/-- A level is its first operand and the operators behind it. -/
theorem looks_level (l : Level) : (level l).Looks := by
  intro s o
  have hreads : LooksAt (Derives wholeGrammar (l.operand.form
      ++ .many (l.operators ++ .rule l.operandNonterminal))) o
        fun rest => (level l).step (s.facing rest) :=
    .rule fun node t o => .tail (r := .more l node)
  rw [Level.form_operand] at hreads
  exact hreads.mono fun w hw => l.derives_iff.2 hw

/-- Every operator of the level is followed by an operand. -/
theorem looks_more (l : Level) (lhs : Node) : (more l lhs).Looks := by
  intro s o
  cases h : l.join? (s.facing o.toList) with
  | none =>
    refine .done (a := lhs) s (fun rest hrest => ?_) .nil
    rw [step, Level.join?_facing hrest, h]
  | some join =>
    -- The operator is the token that is looked at, and the rule goes on behind it.
    obtain ⟨token, htoken, hoperator⟩ := Level.exists_of_join? h
    rw [ParseState.current?_facing, head?_toList] at htoken
    subst htoken
    have hx : ∀ rest, (more l lhs).step (s.facing (token :: rest)) = .call l.operand (s.facing rest)
        fun rhs t => .ofResult (join t.symbols lhs rhs token.loc) fun node =>
          .call (.more l node) t .done := by
      intro rest
      rw [step, Level.join?_facing (o := some token) rfl, h]
      rfl
    have hreads : ∀ o, LooksAt (Derives wholeGrammar (l.operand.form
        ++ .many (l.operators ++ .rule l.operandNonterminal))) o
          fun rest => (more l lhs).step (s.facing (token :: rest)) := by
      intro o
      simp only [hx]
      exact .rule fun rhs t o =>
        .ofResult (Level.checks_join h t.symbols lhs rhs token.loc) fun node =>
          .tail (s := t) (r := .more l node)
    refine .advance rfl fun o => (hreads o).mono fun w hw => ?_
    obtain ⟨u, v, rfl, hu, hv⟩ := Derives.append_iff.1 hw
    rw [Level.form_operand] at hu
    exact .cons (.append hoperator hu) hv

/-- An operator in front of an operand, or no operator. -/
theorem looks_unary : unary.Looks := by
  intro s o
  cases h : (s.facing o.toList).sign? with
  | none =>
    have hreads : LooksAt (Derives wholeGrammar (.rule .postfixed)) o
        fun rest => .call .postfixed (s.facing rest) .done := .tail (r := .postfixed)
    refine (hreads.congr fun rest hrest => ?_).mono fun w hw => .rule (.right hw)
    rw [step, ParseState.sign?_facing hrest, h]
  | some sign =>
    obtain ⟨token, htoken, hform⟩ := ParseState.exists_of_sign? h
    rw [ParseState.current?_facing, head?_toList] at htoken
    subst htoken
    have hx : ∀ rest, unary.step (s.facing (token :: rest)) = .call .unary (s.facing rest)
        fun node t => .done (sign.apply token.loc node) t := by
      intro rest
      rw [step, ParseState.sign?_facing (o := some token) rfl, h]
      rfl
    have hreads : ∀ o, LooksAt (Derives wholeGrammar (.rule .unary)) o
        fun rest => unary.step (s.facing (token :: rest)) := by
      intro o
      simp only [hx]
      exact .last (r := .unary) fun _ t _ => .nothing t
    exact .advance rfl fun o => (hreads o).mono fun w hw => .rule (.left (.append hform hw))

theorem looks_postfixed : postfixed.Looks := by
  intro s o
  have hreads : LooksAt (Derives wholeGrammar (.rule .primary
      ++ .many (.text "[" ++ .rule .expr ++ .text "]"))) o
        fun rest => postfixed.step (s.facing rest) :=
    .rule (r := .primary) fun node t o => .tail (r := .subscripts node)
  exact hreads.mono fun w hw => .rule hw

/-- Subscripts in brackets, any number of them. -/
theorem looks_subscripts (node : Node) : (subscripts node).Looks := by
  intro s o
  have hreads : ∀ (token : Token) o, LooksAt (Derives wholeGrammar (.rule .expr ++ (.text "]"
      ++ (subscripts node).form))) o fun rest => .call .expr (s.facing rest) fun index t =>
        .expect "]" t fun u =>
          .ofResult (Join.typed Node.sum u.symbols node index token.loc) fun place =>
            .call (.subscripts (.deref ⟨token.loc, none⟩ place)) u .done :=
    fun token o => .rule (r := .expr) fun index t o => .text fun o =>
      .ofResult (Join.checks_typed Node.checks_sum t.symbols node index token.loc) fun place =>
        .tail (s := t) (r := .subscripts (.deref ⟨token.loc, none⟩ place))
  refine .ite_text (fun w hw => ?_) hreads (.done s (fun _ _ => rfl) .nil)
  obtain ⟨u, v, rfl, hu, hv⟩ := Derives.append_iff.1 hw
  obtain ⟨v, v', rfl, hv, hv'⟩ := Derives.append_iff.1 hv
  have hwords := Derives.cons (((Derives.text "[").append hu).append hv) hv'
  exact hwords.of_eq (by simp)

/-- Behind an element of a list in parentheses comes the end of the list, or a comma and more. -/
theorem looksAt_commaOrClose {a : α} {r : Rule α} {f : Form}
    (hr : r.form = .separated f ++ .text ")") (t : ParseState) (o : Option Token) :
    LooksAt (Derives wholeGrammar (.many (.text "," ++ f) ++ .text ")")) o fun rest =>
      if (t.facing rest).sees ")" then .done a (t.facing rest).advance
      else .expect "," (t.facing rest) fun u => .call r u .done := by
  have hcomma : LooksAt (Derives wholeGrammar (.text "," ++ r.form)) o fun rest =>
      .expect "," (t.facing rest) fun u => .call r u .done :=
    .text fun o => .tail
  rw [hr] at hcomma
  refine .ite_text (fun w hw => ?_) (fun token o => .nothing t) (hcomma.mono fun w hw => ?_)
  · rw [Derives.empty_iff.1 hw]
    exact .append .nil (.text ")")
  · obtain ⟨v, rfl, hv⟩ := Derives.text_append_iff.1 hw
    obtain ⟨u, last, rfl, hu, hlast⟩ := Derives.append_iff.1 hv
    exact (Derives.comma hu).append hlast

/-- The arguments that have been read are behind the state, so the form is that of the others. -/
theorem looks_arguments (loc : Nat) (name : String) (args : List Node) :
    (arguments loc name args).Looks := by
  intro s o
  have hreads : LooksAt (Derives wholeGrammar (.rule .assign ++ (.many (.text "," ++ .rule .assign)
      ++ .text ")"))) o fun rest => (arguments loc name args).step (s.facing rest) :=
    .ite_here (fun _ => trivial) (.ruleAs (r := .expr) (fun _ => Derives.rule_iff.1)
      fun argument t o => looksAt_commaOrClose rfl t o)
  exact hreads.mono fun w hw => Derives.assoc_iff.2 hw

/-- A call behind its opening parenthesis. -/
theorem looksAt_callOf (name : String) (loc : Nat) (s : ParseState) (o : Option Token) :
    LooksAt (Derives wholeGrammar (.rule .args ++ .text ")")) o
      fun rest => .callOf name loc (s.facing rest) := by
  have hargs : LooksAt (Derives wholeGrammar (.separated (.rule .assign) ++ .text ")")) o
      fun rest => .call (.arguments loc name []) (s.facing rest) .done :=
    .tail (r := .arguments loc name [])
  refine .ite_refused trivial (.ite_text (fun w hw => ?_) (fun token o => .nothing s)
    (hargs.mono fun w hw => ?_))
  · rw [Derives.empty_iff.1 hw]
    have hargs : Derives wholeGrammar (.rule .args) [] := .rule (.right .empty)
    exact hargs.append (.text ")")
  · obtain ⟨u, v, rfl, hu, hv⟩ := Derives.append_iff.1 hw
    exact .append (.rule (.left hu)) hv

theorem looksAt_useOf (name : String) (loc : Nat) (s : ParseState) (o : Option Token) :
    LooksAt (Derives wholeGrammar .empty) o fun rest => .useOf name loc (s.facing rest) := by
  have hscopes : ∀ rest, (s.facing rest).scopes = s.scopes := fun _ => rfl
  simp only [Step.useOf, hscopes]
  cases s.scopes.find? name with
  | some ref => exact .nothing s
  | none => exact .fail (fun _ _ => rfl) (fun _ _ _ h => by cases h) ⟨[], .empty⟩

/-- A primary expression without parentheses. -/
theorem looksAt_atom (s : ParseState) (o : Option Token) :
    LooksAt (Derives wholeGrammar (.rule .primary)) o fun rest =>
      match o.map Token.kind with
      | some .identifier => .identifier (s.facing rest) fun name loc t =>
        if t.sees "(" then .callOf name loc t.advance else .useOf name loc t
      | some (.string _ _) => .literal (s.facing rest) fun bytes ty t =>
        .done (.var ⟨(s.facing o.toList).loc, none⟩ (.globalVar t.globals.length))
          (t.addLiteral bytes ty)
      | some (.number _) => .number (s.facing rest)
        fun value loc t => .done (.num ⟨loc, none⟩ value) t
      | _ => .fail ((s.facing rest).unexpected .expression) := by
  split
  -- A name is a call or a variable, as the token behind it says.
  · have hname : LooksAt (Derives wholeGrammar (.terminal .identifier ++ .optional (.text "("
        ++ (.rule .args ++ .text ")")))) o
          fun rest => .identifier (s.facing rest) fun name loc t =>
            if t.sees "(" then .callOf name loc t.advance else .useOf name loc t :=
      .identifier fun name loc o =>
        .optional (fun token o => looksAt_callOf name loc s o) (looksAt_useOf name loc s o)
    refine hname.mono fun w hw => .rule (.left (.left (.right ?_)))
    obtain ⟨u, v, rfl, hu, hv⟩ := Derives.append_iff.1 hw
    exact .append hu ((Derives.optional_iff.1 hv).elim (fun hv => .left (Derives.assoc_iff.2 hv))
      fun hv => hv ▸ .right .empty)
  · refine LooksAt.mono (L := Derives wholeGrammar (.terminal .string ++ .empty)) ?_
      fun w hw => .rule (.left (.right (Derives.append_empty_iff.1 hw)))
    exact .literal fun bytes ty o =>
      .done (a := .var _ (.globalVar s.globals.length)) (s.addLiteral bytes ty)
        (fun _ _ => rfl) .empty
  · refine LooksAt.mono (L := Derives wholeGrammar (.terminal .number ++ .empty)) ?_
      fun w hw => .rule (.right (Derives.append_empty_iff.1 hw))
    exact .number fun value loc o => .nothing s
  · exact .unexpected (Form.productive _) _

/-- The next token tells which of the alternatives is read. -/
theorem looks_primary : primary.Looks := by
  intro s o
  have hreads : ∀ (token : Token) o, LooksAt (Derives wholeGrammar (.rule .expr ++ .text ")")) o
      fun rest => .call .expr (s.facing rest) fun node t => .expect ")" t fun u => .done node u :=
    fun token o => .rule (r := .expr) fun node t o => .lastText fun o => .nothing t
  refine .ite_text (fun w hw => ?_) hreads ((looksAt_atom s o).congr fun rest hrest => ?_)
  · exact .rule (.left (.left (.left (Derives.assoc_iff.2 ((Derives.text "(").append hw)))))
  · rewrite [ParseState.current?_facing, hrest, ParseState.loc_facing hrest]
    rfl

theorem looks_stars (count : Nat) : (stars count).Looks := fun s _ =>
  .ite_text (fun _ hw => .cons (.text "*") hw) (fun _ _ => .tail (s := s) (r := .stars count.succ))
    (.done s (fun _ _ => rfl) .nil)

theorem looks_names (read : List Parse.DeclaredName) : (names read).Looks := by
  intro s o
  refine LooksAt.mono (L := Derives wholeGrammar (.many (.text "*") ++ (.terminal .identifier
    ++ .many (.text "," ++ .rule .declName)))) ?_ fun w hw => .rule ?_
  · refine .rule (r := .stars 0) fun stars t o => .identifier fun name loc o => ?_
    have hmore : ∀ more o, LooksAt (Derives wholeGrammar (.rule .declNames)) o
        fun rest => .call (.names more) (t.facing rest) .done :=
      fun more o => .tail (r := .names more)
    exact .ite_text (f := .rule .declNames) (fun _ hw => Derives.comma (Derives.rule_iff.1 hw))
      (fun _ => hmore _)
      (.done t (fun _ _ => rfl) .nil)
  · obtain ⟨u, v, rfl, hu, hv⟩ := Derives.append_iff.1 (Derives.assoc_iff.2 hw)
    exact .append (.rule hu) hv

/-- The lengths of arrays, any number of them. -/
theorem looks_dimensions (read : List (Int64 × Nat)) : (dimensions read).Looks := by
  intro s o
  refine .ite_text (f := .terminal .number ++ (.text "]" ++ (dimensions read).form))
    (fun w hw => ?_)
    (fun _ _ => ?_) (.done s (fun _ _ => rfl) .nil)
  · obtain ⟨u, v, rfl, hu, hv⟩ := Derives.append_iff.1 (Derives.assoc_iff.2 hw)
    exact (Derives.cons (Derives.assoc_iff.2 ((Derives.text "[").append hu)) hv).of_eq (by simp)
  · exact .number (s := s) fun len loc o => .text fun o =>
      .tail (s := s) (r := .dimensions (read ++ [(len, loc)]))

/-- The grammar tells a type by its first length, the rule gathers the lengths first. -/
theorem looks_type : type.Looks := by
  intro s o
  refine LooksAt.mono (L := Derives wholeGrammar ((dimensions []).form ++ (.many (.text "*")
    ++ .rule .baseType))) ?_ fun w hw => ?_
  · refine .rule (r := .dimensions []) fun dimensions t o => .rule (r := .stars 0)
      fun depth u o => ?_
    -- The word for the base type is the last one of a type.
    have hbase : ∀ (base : Ty) token o, LooksAt (Derives wholeGrammar .empty) o fun rest =>
        .ofRun ((Parse.arrayTypes (base.pointers depth) dimensions).run
          (u.facing (token :: rest)).advance) .done := fun base token o =>
      .ofRun (s := u) (Parse.checks_arrayTypes _ _) (Parse.blind_arrayTypes _ _)
        fun _ t => .nothing t
    refine .ite_text (fun w hw => ?_) (hbase _) (.ite_text (fun w hw => ?_) (hbase _)
      (.unexpected (Form.productive _) _))
    · rw [Derives.empty_iff.1 hw]
      exact .rule (.left (.text "int"))
    · rw [Derives.empty_iff.1 hw]
      exact .rule (.right (.text "char"))
  · obtain ⟨u, v, rfl, hu, hv⟩ := Derives.append_iff.1 hw
    obtain ⟨words, hwords, rfl⟩ := Derives.many_iff.1 hu
    clear hu hw
    show Derives wholeGrammar (.rule .type) _
    -- In the grammar a type takes one dimension at a time.
    induction words with
    | nil => exact .rule (.right hv)
    | cons word words ih =>
      obtain ⟨hword, hwords⟩ := List.forall_mem_cons.1 hwords
      exact .rule (.left ((hword.append (ih hwords)).of_eq (by simp)))

theorem looks_values (read : List Node) : (values read).Looks := by
  intro s o
  refine .rule (r := .expr) fun value t o => ?_
  exact .ite_text (fun w hw => Derives.comma hw)
    (fun _ _ => LooksAt.tail (s := t) (r := values (read ++ [value])))
    (.done t (fun _ _ => rfl) .nil)

/-- With an equals sign there are values; the semicolon is there in any case. -/
theorem looks_initializers (count : Nat) : (initializers count).Looks := by
  intro s o
  refine .ite_text (f := .separated (.rule .expr) ++ .text ";") (fun w hw => ?_)
    (fun token o => ?_) ?_
  · obtain ⟨u, v, rfl, hu, hv⟩ := Derives.append_iff.1 hw
    exact (Derives.append (.left ((Derives.text "=").append hu)) hv).of_eq (by simp)
  · have hreads : LooksAt (Derives wholeGrammar (.separated (.rule .expr) ++ .text ";")) o
        fun rest => .call (.values []) (s.facing rest) fun values t =>
          if values.length = count then .expect ";" t fun u => .done values u
          else .fail (.complaint (s.facing o.toList).loc (.initializerCount count values.length)) :=
      .rule (r := .values []) fun values t o => .ite_check trivial (.lastText fun o => .nothing t)
    refine hreads.congr fun rest hrest => ?_
    rw [← ParseState.loc_facing hrest]
    rfl
  · refine LooksAt.mono (L := Derives wholeGrammar (.text ";")) (.lastText fun o => .nothing s)
      fun w hw => ?_
    exact (Derives.append (.right .empty) hw)

/-- Names, their type and their initial values, whatever is declared with them. -/
theorem looksAt_declared {next : List Parse.DeclaredName → Ty → List Node → ParseState → Step α}
    (hnext : ∀ names ty values (t : ParseState) o, LooksAt (Derives wholeGrammar .empty) o
      fun rest => next names ty values (t.facing rest)) (s : ParseState) (o : Option Token) :
    LooksAt (Derives wholeGrammar global.form) o fun rest =>
      .call (.names []) (s.facing rest) fun names t => .call .type t fun ty u =>
        .call (.initializers names.length) u fun values v => next names ty values v := by
  refine LooksAt.mono (L := Derives wholeGrammar (.rule .declNames ++ (.rule .type
    ++ Form.initializers))) ?_ fun w hw => Derives.assoc_iff.2 hw
  exact .rule (r := .names []) fun names t o => .rule (r := .type) fun ty u o =>
    .last (r := .initializers names.length) (hnext names ty)

theorem looks_declaration (loc : Nat) : (declaration loc).Looks :=
  looksAt_declared fun _ _ _ _ _ => .ofRun (Parse.checks_declareLocals _ _ _)
    (Parse.blind_declareLocals _ _ _) fun _ t => .nothing t

theorem looks_global : global.Looks :=
  looksAt_declared fun _ _ _ _ _ => .ofRun (Parse.checks_declareGlobals _ _ _)
    (Parse.blind_declareGlobals _ _ _) fun _ t => .nothing t

/-- One more item of a block. -/
theorem item {u v : List Terminal}
    (hu : Derives wholeGrammar (.rule .declaration ||| .rule .stmt) u)
    (hv : Derives wholeGrammar (.rule .compoundStmt) v) :
    Derives wholeGrammar (.rule .compoundStmt) (u ++ v) := by
  obtain ⟨w, last, rfl, hw, hlast⟩ := Derives.append_iff.1 (Derives.rule_iff.1 hv)
  exact .rule ((Derives.append (.cons hu hw) hlast).of_eq (by simp))

/-- Items up to the brace that closes the block. -/
theorem looks_items (read : List Node) : (items read).Looks := by
  intro s o
  have hnext : ∀ (node : Node) (t : ParseState) o,
      LooksAt (Derives wholeGrammar (.rule .compoundStmt)) o
      fun rest => .ofResult (annotate (t.facing rest).symbols node) fun typed =>
        .call (.items (read ++ [typed])) (t.facing rest) .done := fun node t o =>
    .ofResult ((ends_untyped_annotate t.symbols node).imp_good fun _ _ => trivial) fun typed =>
      .tail (s := t) (r := .items (read ++ [typed]))
  refine .ite_text (fun w hw => ?_) (fun token o => .nothing s) (.ite_text
    (f := (declaration 0).form ++ .rule .compoundStmt) (fun w hw => ?_) (fun token o => ?_) ?_)
  · rw [Derives.empty_iff.1 hw]
    exact .rule (.append .nil (.text "\x7d"))
  · obtain ⟨u, v, rfl, hu, hv⟩ := Derives.append_iff.1 hw
    have hvar := (Derives.text "var").append (Derives.assoc_iff.1 hu)
    exact item (.left (.rule (Derives.assoc_iff.2 (Derives.assoc_iff.2 hvar)))) hv
  · simp only [loc_facing_cons, advance_facing_cons]
    exact .rule (r := .declaration token.loc) hnext
  · refine LooksAt.mono (L := Derives wholeGrammar (.rule .stmt ++ .rule .compoundStmt))
      (.rule (r := .stmt) hnext) fun w hw => ?_
    obtain ⟨u, v, rfl, hu, hv⟩ := Derives.append_iff.1 hw
    exact item (.right hu) hv

theorem looks_block (loc : Nat) : (block loc).Looks := fun s _ =>
  .last (s := s.enterScope) (r := .items []) fun _ t _ => .nothing t.leaveScope

theorem looks_exprUnless (text : String) : (exprUnless text).Looks := fun s _ =>
  .ite_sees (fun _ _ => .done s (fun _ _ => rfl) (.right .empty))
    ((LooksAt.last (r := .expr) fun _ t _ => .nothing t).mono fun _ => .left)

/-- A head without clauses may be empty, or a condition, or clauses. -/
theorem looks_loopHead : loopHead.Looks := by
  intro s o
  refine .ite_sees (fun token _ => .done s (fun _ _ => rfl) (.left (.right .empty))) ?_
  refine .call s (fun _ _ => rfl) fun first hfirst b t o => ?_
  refine .ite_text (f := .optional (.rule .expr) ++ (.text ";" ++ .optional (.rule .expr)))
    (fun w hw => .left (.left ?_)) (fun token o => ?_) (.done t (fun _ _ => rfl) ?_)
  · have hclauses := hfirst.append ((Derives.text ";").append hw)
    exact Derives.assoc_iff.2 (Derives.assoc_iff.2 (Derives.assoc_iff.2 hclauses))
  · exact .rule (s := t) (r := .exprUnless ";") fun _ u o => .text fun o =>
      .last (s := u) (r := .exprUnless "\x7b") fun _ v o => .nothing v
  · rw [List.append_nil]
    exact (Derives.optional_iff.1 hfirst).elim .right fun hempty => hempty ▸ .left (.right .empty)

theorem looksAt_exprStatement (s : ParseState) (o : Option Token) :
    LooksAt (Derives wholeGrammar (.rule .exprStmt)) o
      fun rest => .exprStatement (s.facing rest) := by
  have hvalue : LooksAt (Derives wholeGrammar (.rule .expr ++ .text ";")) o fun rest =>
      .call .expr (s.facing rest) fun value t => .expect ";" t fun u =>
        .done (Node.exprStmt ⟨(s.facing o.toList).loc, none⟩ value) u :=
    .rule (r := .expr) fun value t o => .lastText fun o => .nothing t
  have hempty : ∀ token o, LooksAt (Derives wholeGrammar .empty) o fun rest => .done
      (Node.block ⟨(s.facing (token :: rest)).loc, none⟩ []) (s.facing (token :: rest)).advance :=
    fun token o => .done (a := .block ⟨token.loc, none⟩ []) s (fun _ _ => rfl) .empty
  refine .ite_text (fun w hw => ?_) hempty
    ((hvalue.mono fun w hw => ?_).congr fun rest hrest => ?_)
  · rw [Derives.empty_iff.1 hw]
    exact .rule (.append (.right .empty) (.text ";"))
  · obtain ⟨u, v, rfl, hu, hv⟩ := Derives.append_iff.1 hw
    exact .rule (.append (.left hu) hv)
  · rw [ParseState.loc_facing hrest]

/-- The keyword tells which of the alternatives is read. -/
theorem looks_stmt : stmt.Looks := by
  intro s o
  -- Each keyword is looked for in turn, and what stands behind it has a form of its own.
  refine .ite_text (f := .rule .expr ++ .text ";") (fun w hw => ?_) (fun token o => ?_)
    (.ite_text (f := .rule .expr ++ (.rule .stmt ++ .optional (.text "else" ++ .rule .stmt)))
      (fun w hw => ?_) (fun token o => ?_) (.ite_text (f := loopHead.form ++ .rule .stmt)
        (fun w hw => ?_) (fun token o => ?_) (.ite_text (f := .rule .compoundStmt) (fun w hw => ?_)
          (fun token o => ?_) ((looksAt_exprStatement s o).mono fun w hw => .rule (.right hw)))))
  · refine .rule (.left (.left (.left (.left (.left ?_)))))
    exact Derives.assoc_iff.2 ((Derives.text "return").append hw)
  · simp only [loc_facing_cons, advance_facing_cons]
    exact .rule (r := .expr) fun value t o => .lastText fun o => .nothing t
  · refine .rule (.left (.left (.left (.left (.right ?_)))))
    exact Derives.assoc_iff.2 (Derives.assoc_iff.2 ((Derives.text "if").append hw))
  · simp only [loc_facing_cons, advance_facing_cons]
    refine .rule (r := .expr) fun cond t o => .rule (r := .stmt) fun onTrue u o =>
      .optional (fun token' o => ?_) (.nothing u)
    exact .last (s := u) (r := .stmt) fun onFalse v o => .nothing v
  · obtain ⟨u, v, rfl, hu, hv⟩ := Derives.append_iff.1 hw
    refine .rule (.left (.left ?_))
    have hfor : ∀ {head : Form}, Derives wholeGrammar head u →
        Derives wholeGrammar (.text "for" ++ head ++ .rule .stmt) (.lexeme "for" :: (u ++ v)) :=
      fun hhead => ((Derives.text "for").append hhead).append hv
    exact (Derives.or_iff.1 hu).elim (fun hu => .left (.right (hfor hu))) fun hu => .right (hfor hu)
  · simp only [loc_facing_cons, advance_facing_cons]
    exact .rule (r := .loopHead) fun head t o => .last (r := .stmt) fun body u o => .nothing u
  · exact .rule (.left (.right ((Derives.text "\x7b").append hw)))
  · simp only [loc_facing_cons, advance_facing_cons]
    exact .tail (r := .block token.loc)

theorem looks_parameters (read : List (Nat × Ty)) : (parameters read).Looks := by
  intro s o
  refine LooksAt.mono (L := Derives wholeGrammar (.terminal .identifier ++ (.rule .type
    ++ (.many (.text "," ++ .rule .param) ++ .text ")")))) ?_ fun w hw => ?_
  · refine .ite_here (fun _ => trivial) (.identifier fun name loc o =>
      .rule (r := .type) fun ty u o => ?_)
    let params := read ++ [(u.locals.length, ty.decay)]
    exact looksAt_commaOrClose (a := params) (r := .parameters params) rfl
      (u.addLocal { name, ty := ty.decay }) o
  · obtain ⟨u, v, rfl, hu, hv⟩ := Derives.append_iff.1 (Derives.assoc_iff.2 hw)
    exact Derives.assoc_iff.2 (.append (.rule hu) hv)

theorem looks_parameterList : parameterList.Looks := by
  intro s o
  refine .ite_text (fun w hw => ?_) (fun token o => .nothing s) ((LooksAt.tail (s := s)
    (r := .parameters [])).mono fun w hw => ?_)
  · rw [Derives.empty_iff.1 hw]
    have hparams : Derives wholeGrammar (.rule .params) [] := .rule (.right .empty)
    exact hparams.append (.text ")")
  · obtain ⟨u, v, rfl, hu, hv⟩ := Derives.append_iff.1 hw
    exact .append (.rule (.left hu)) hv

/-- The body of a function, and what is done with it. -/
theorem looksAt_body (name : String) (loc start : Nat) (params : List (Nat × Ty)) (result : Ty)
    (s : ParseState) (o : Option Token) : LooksAt (Derives wholeGrammar .block) o fun rest =>
      .expect "\x7b" (s.facing rest) fun t => .call (.block start) t fun body u =>
        if (Parse.frameBytes? u.locals).any (· ≤ maxObjectSize) then
          .done () (u.leaveScope.addFunction name params result body)
        else .fail (.complaint loc (.frameTooLarge name)) := by
  refine .text fun o => .last (r := .block start) fun body u o => ?_
  show LooksAt _ _ fun rest => if (Parse.frameBytes? u.locals).any (· ≤ maxObjectSize) then
    .done () ((u.leaveScope.addFunction name params result body).facing rest) else _
  exact .ite_check trivial (.nothing _)

/-- The parts of a function, one behind the other. -/
theorem looks_function : function.Looks := by
  intro s o
  simp only [step]
  refine .identifier fun name loc o => .ofRun (Parse.checks_checkFunction name loc)
    (Parse.blind_checkFunction name loc) fun _ u => ?_
  show LooksAt _ _ fun rest =>
    Step.expect "(" ((ParseState.enterScope { u with locals := [] }).facing rest) _
  refine .text fun o => .rule (r := .parameterList) fun params w o => .rule (r := .type)
    fun result x o => ?_
  refine (looksAt_body name loc (x.facing o.toList).loc params result x o).congr
    fun rest hrest => ?_
  rw [ParseState.loc_facing hrest]

/-- A function behind its `func`. -/
theorem derives_function {w : List Terminal} (h : Derives wholeGrammar function.form w) :
    Derives wholeGrammar (.rule .function) (.lexeme "func" :: w) := by
  obtain ⟨name, w, rfl, hname, hw⟩ := Derives.append_iff.1 h
  obtain ⟨w, rfl, hrest⟩ := Derives.text_append_iff.1 hw
  obtain ⟨_, w, rfl, hparams, hbody⟩ := Derives.append_iff.1 hrest
  obtain ⟨params, close, rfl, hparams, hclose⟩ := Derives.append_iff.1 hparams
  obtain ⟨result, w, rfl, hresult, hblock⟩ := Derives.append_iff.1 hbody
  obtain ⟨w, rfl, hitems⟩ := Derives.text_append_iff.1 hblock
  have hhead :=
    ((((Derives.text "func").append hname).append (.text "(")).append hparams).append hclose
  exact .rule ((((hhead.append hresult).append (.text "\x7b")).append hitems).of_eq (by simp))

/-- The keyword tells a function from globals. -/
theorem looks_topLevel : topLevel.Looks := by
  intro s o
  refine .ite_text (f := function.form) (fun w hw => .left (derives_function hw)) (fun token o =>
    .tail (s := s) (r := .function)) (.ite_text (f := global.form) (fun w hw => .right (.rule ?_))
      (fun token o => .tail (s := s) (r := .global)) (.unexpected (Form.productive _) _))
  have hvar := (Derives.text "var").append (Derives.assoc_iff.1 hw)
  exact Derives.assoc_iff.2 (Derives.assoc_iff.2 hvar)

end Rule

/-- **Every rule looks at one token and reads one of its words.** -/
theorem Rule.looks (rule : Rule α) : rule.Looks := by
  cases rule with
  | expr => exact looks_expr
  | level l => exact looks_level l
  | more l lhs => exact looks_more l lhs
  | unary => exact looks_unary
  | postfixed => exact looks_postfixed
  | subscripts node => exact looks_subscripts node
  | primary => exact looks_primary
  | arguments loc name args => exact looks_arguments loc name args
  | stars count => exact looks_stars count
  | names read => exact looks_names read
  | dimensions read => exact looks_dimensions read
  | type => exact looks_type
  | values read => exact looks_values read
  | initializers count => exact looks_initializers count
  | declaration loc => exact looks_declaration loc
  | items read => exact looks_items read
  | block loc => exact looks_block loc
  | exprUnless text => exact looks_exprUnless text
  | loopHead => exact looks_loopHead
  | stmt => exact looks_stmt
  | parameters read => exact looks_parameters read
  | parameterList => exact looks_parameterList
  | function => exact looks_function
  | global => exact looks_global
  | topLevel => exact looks_topLevel

/-- **What a rule reads is a word of its form**, and other tokens behind it lead to the same. -/
theorem Rule.exists_word_of_yields (rule : Rule α) {t : ParseState} {a : α}
    (h : (rule.step s).Yields a t) :
    ∃ w, s.rest = w ++ t.rest ∧ rule.Spells (w.map Token.terminal)
      ∧ ∀ more, more.head? = t.rest.head? →
        (rule.step (s.facing (w ++ more))).Yields a (t.facing more) :=
  LooksAt.yields Rule.looks h (rule.looks s s.rest.head?) rfl rfl

/-- **What a rule has read when it fails can be continued to a word of its form**, a token that the
grammar does not want is the next one, and other tokens behind that one lead to the same failure. -/
theorem Rule.exists_word_of_fails (rule : Rule α) {failure : Failure}
    (h : (rule.step s).Fails failure) :
    ∃ w left, s.rest = w ++ left ∧ failure.About left.head?
      ∧ (∃ v, rule.Spells (w.map Token.terminal ++ v))
      ∧ ∀ more, more.head? = left.head? → (rule.step (s.facing (w ++ more))).Fails failure :=
  LooksAt.fails Rule.looks (fun rule => rule.form.productive) h (rule.looks s s.rest.head?) rfl rfl

end PocketCompiler
