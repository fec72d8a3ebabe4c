import PocketCompiler.Proofs.Grammar.Sugar

/-!
# What stands in front of a statement

An expression in front of a statement ends where the statement starts, if the statement starts with
a token that continues no expression.  So it is read in the same way in front of another such
statement: `SettlesAt x rest` says so of a step `x` in front of the tokens `rest`.  A step that
closes itself settles (`SettlesAt.of_closes`), and a step settles if the last rule that it calls
does.

Expressions settle (`Rule.settles_expr`), and so do statements (`Rule.settles_stmt`) and
declarations (`Rule.settles_declaration`).  The head of a loop does if it is not left open
(`Rule.yields_loopHead_facing`): where it is empty, or its last part is, it ends in front of a brace
and in front of no other statement (`Rule.fails_loopHead_facing`).
-/

namespace PocketCompiler

variable {α β γ : Type} {s t u : ParseState} {rest rest' : List Token} {text : String}

/-! ### Tokens that only statements start with -/

/-- The texts that start a statement, and continue no expression and no statement. -/
def statementTexts : List String := ["return", "if", "for", "\x7b"]

/-- The first token starts a statement, and continues no expression and no statement. -/
def StartsStmt (tokens : List Token) : Prop :=
  ∃ text ∈ statementTexts, tokens.head?.any (·.reads text) = true

/-- A token reads as one text only. -/
theorem Token.eq_of_reads {token : Token} {text text' : String} (h : token.reads text = true)
    (h' : token.reads text' = true) : text' = text := by
  obtain ⟨kind, loc, name⟩ := token
  have hname : ∀ text : String, reads ⟨kind, loc, name⟩ text = true → name = text := by
    intro text h
    cases kind with
    | punctuator | keyword => exact eq_of_beq h
    | identifier | number | string | eof => exact absurd h Bool.false_ne_true
  exact (hname text' h').symm.trans (hname text h)

/-- A token that starts a statement reads no other text. -/
theorem StartsStmt.not_reads (h : StartsStmt rest) (htext : text ∉ statementTexts) :
    rest.head?.any (·.reads text) = false := by
  obtain ⟨start, hstart, hreads⟩ := h
  rw [← Bool.not_eq_true]
  intro hother
  obtain ⟨token, htoken, hreads⟩ := (Option.any_eq_true _ _).1 hreads
  rw [htoken, Option.any_some] at hother
  rw [Token.eq_of_reads hreads hother] at htext
  exact htext hstart

/-- The two lists start with the same token, or each with one that starts a statement. -/
def SameStart (rest rest' : List Token) : Prop :=
  rest'.head? = rest.head? ∨ StartsStmt rest ∧ StartsStmt rest'

namespace SameStart

/-- Two lists that start alike still do behind the same tokens. -/
theorem append (w : List Token) (h : SameStart rest rest') :
    SameStart (w ++ rest) (w ++ rest') := by
  cases w with
  | nil => exact h
  | cons token w => exact .inl rfl

/-- A text that starts no statement is seen in both or in neither. -/
theorem sees (h : SameStart rest rest') (htext : text ∉ statementTexts) :
    (s.facing rest').sees text = (s.facing rest).sees text := by
  rw [ParseState.sees_facing, ParseState.sees_facing]
  rcases h with hhead | ⟨hrest, hrest'⟩
  · rw [hhead]
  · rw [hrest.not_reads htext, hrest'.not_reads htext]

/-- No operator starts a statement. -/
theorem not_mem_statementTexts (h : text ∈ operatorTexts) : text ∉ statementTexts := by
  revert text
  decide

/-- The same operator is there in both, or none in either. -/
theorem join? (h : SameStart rest rest') (l : Level) :
    l.join? (s.facing rest') = l.join? (s.facing rest) := by
  rcases h with hhead | ⟨hrest, hrest'⟩
  · have hcurrent : (s.facing rest').current? = (s.facing rest).current? := hhead
    have hsees : ∀ text, (s.facing rest').sees text = (s.facing rest).sees text := fun text => by
      rw [ParseState.sees, ParseState.sees, hcurrent]
    cases l <;> simp only [Level.join?, hsees, ParseState.lookup, hcurrent]
  · -- No operator starts a statement.
    have hnone : ∀ tokens, StartsStmt tokens → l.join? (s.facing tokens) = none := by
      intro tokens htokens
      rw [Option.eq_none_iff_forall_ne_some]
      intro join hjoin
      obtain ⟨text, htext, hsees⟩ := Level.exists_sees_of_join? hjoin
      rw [ParseState.sees_facing, htokens.not_reads (not_mem_statementTexts htext)] at hsees
      exact Bool.false_ne_true hsees
    rw [hnone rest hrest, hnone rest' hrest']

/-- The same sign is there in both, or none in either. -/
theorem sign? (h : SameStart rest rest') : (s.facing rest').sign? = (s.facing rest).sign? := by
  have hsees : ∀ text ∈ ["+", "-", "&", "*"],
      (s.facing rest').sees text = (s.facing rest).sees text := by
    intro text htext
    refine h.sees ?_
    revert text
    decide
  simp only [ParseState.sign?, hsees "+" (by decide), hsees "-" (by decide),
    hsees "&" (by decide), hsees "*" (by decide)]

end SameStart

/-! ### Steps that settle -/

/-- In front of `rest` the step reads the same in front of other tokens, if these start like those
that it leaves. -/
def SettlesAt (x : List Token → Step α) (rest : List Token) : Prop :=
  ∀ a t, (x rest).Yields a t → ∃ w, rest = w ++ t.rest
    ∧ ∀ more, SameStart t.rest more → (x (w ++ more)).Yields a (t.facing more)

namespace SettlesAt

variable {x y : List Token → Step α}

/-- A step that does not look behind what it reads settles. -/
theorem of_closes (h : ClosesAt x rest) : SettlesAt x rest := by
  intro a t hyields
  obtain ⟨w, -, hrest, hmore⟩ := h a t hyields
  exact ⟨w, hrest, fun more _ => hmore more⟩

/-- A step that is done looks at nothing more. -/
theorem done {a : α} (t : ParseState) : SettlesAt (fun rest => .done a (t.facing rest)) rest := by
  intro b u h
  cases h
  exact ⟨[], rfl, fun more _ => .done⟩

/-- A step that fails has nothing to read the same. -/
theorem fail {failure : List Token → Failure} :
    SettlesAt (fun rest => (.fail (failure rest) : Step α)) rest := by
  intro a t h
  cases h

/-- A token in front is the same in both. -/
theorem advance {token : Token} (h : SettlesAt (fun rest => x (token :: rest)) rest) :
    SettlesAt x (token :: rest) := by
  intro a t hyields
  obtain ⟨w, rfl, hmore⟩ := h a t hyields
  exact ⟨token :: w, rfl, hmore⟩

/-- Steps that agree on all tokens that start alike settle together. -/
theorem congr (h : SettlesAt y rest) (hxy : ∀ more, SameStart rest more → x more = y more) :
    SettlesAt x rest := by
  intro a t hyields
  rw [hxy rest (.inl rfl)] at hyields
  obtain ⟨w, hrest, hmore⟩ := h a t hyields
  refine ⟨w, hrest, fun more hsame => ?_⟩
  rw [hxy]
  · exact hmore more hsame
  · rw [hrest]
    exact hsame.append w

/-- A choice by the current token, if it is not by one that starts a statement. -/
theorem ite_sees (htext : text ∉ statementTexts)
    (hx : ∀ token left, rest = token :: left → SettlesAt x rest) (hy : SettlesAt y rest) :
    SettlesAt (fun rest => if (s.facing rest).sees text then x rest else y rest) rest := by
  by_cases hsees : (s.facing rest).sees text = true
  · obtain ⟨token, hcurrent, -⟩ := ParseState.exists_of_sees hsees
    obtain ⟨left, hrest⟩ := List.head?_eq_some_iff.1 hcurrent
    exact (hx token left hrest).congr fun more hmore => if_pos ((hmore.sees htext).trans hsees)
  · refine hy.congr fun more hmore => if_neg ?_
    rw [hmore.sees htext]
    exact hsees

/-- What is computed does not depend on the tokens behind. -/
theorem ofResult {r : Except Failure β} {next : β → List Token → Step α}
    (hnext : ∀ b, SettlesAt (next b) rest) :
    SettlesAt (fun rest => .ofResult r fun b => next b rest) rest := by
  cases r with
  | ok b => exact hnext b
  | error failure => exact fail

/-- A rule that settles leaves tokens that start alike for the step behind it. -/
theorem call {rule : Rule β} {next : β → ParseState → Step α}
    (hrule : SettlesAt (fun rest => rule.step (s.facing rest)) rest)
    (hnext : ∀ b t, (rule.step (s.facing rest)).Yields b t →
      SettlesAt (fun rest => next b (t.facing rest)) t.rest) :
    SettlesAt (fun rest => .call rule (s.facing rest) next) rest := by
  intro a u hyields
  cases hyields with
  | @call _ _ _ _ t _ _ b _ hfirst hbehind =>
    obtain ⟨v, hv, hmorev⟩ := hrule b t hfirst
    obtain ⟨w, hw, hmorew⟩ := hnext b t hfirst a u hbehind
    refine ⟨v ++ w, ?_, fun more hsame => ?_⟩
    · rw [List.append_assoc, ← hw]
      exact hv
    · have hbetween : SameStart t.rest (w ++ more) := by
        rw [hw]
        exact hsame.append w
      rw [List.append_assoc]
      exact .call (hmorev _ hbetween) (hmorew more hsame)

/-- The last rule that a step calls settles for the step. -/
theorem last {rule : Rule α} (hrule : SettlesAt (fun rest => rule.step (s.facing rest)) rest) :
    SettlesAt (fun rest => .call rule (s.facing rest) .done) rest :=
  call hrule fun _ t _ => done t

/-- Any rule may be called if something is read behind it: it looks at one token behind what it
reads. -/
theorem callBefore {rule : Rule β} {next : β → ParseState → Step α}
    (hnext : ∀ b t, (rule.step (s.facing rest)).Yields b t →
      SettlesAt (fun rest => next b (t.facing rest)) t.rest)
    (hmoves : ∀ b t, (rule.step (s.facing rest)).Yields b t → ∀ a u, (next b t).Yields a u →
      u.rest.length < t.rest.length) :
    SettlesAt (fun rest => .call rule (s.facing rest) next) rest := by
  intro a u hyields
  cases hyields with
  | @call _ _ _ _ t _ _ b _ hfirst hbehind =>
    obtain ⟨v, hv, -, hmorev⟩ := rule.exists_word_of_yields hfirst
    obtain ⟨w, hw, hmorew⟩ := hnext b t hfirst a u hbehind
    have hlength := hmoves b t hfirst a u hbehind
    refine ⟨v ++ w, ?_, fun more hsame => ?_⟩
    · rw [List.append_assoc, ← hw]
      exact hv
    -- What is behind moves past a token, so the one that the rule looks at stays.
    · have hhead : (w ++ more).head? = t.rest.head? := by
        cases w with
        | nil =>
          rw [hw, List.nil_append] at hlength
          exact absurd hlength (Nat.lt_irrefl _)
        | cons token w =>
          rw [hw]
          rfl
      rw [List.append_assoc]
      exact .call (hmorev _ hhead) (hmorew more hsame)

/-- Any rule may be called if a punctuator has to come behind it. -/
theorem callExpect {rule : Rule β} {next : β → ParseState → Step α}
    (htext : text ∉ statementTexts)
    (hnext : ∀ b t token left, (rule.step (s.facing rest)).Yields b t → t.rest = token :: left →
      SettlesAt (fun rest => next b (t.facing rest)) left) :
    SettlesAt (fun rest => .call rule (s.facing rest) fun b t => .expect text t (next b)) rest := by
  refine callBefore (fun b t hread => ite_sees htext (fun token left hrest => ?_) fail)
    fun b t hread a u hyields => ?_
  · rw [hrest]
    exact advance (hnext b t token left hread hrest)
  · obtain ⟨hsees, hyields⟩ := Step.yields_expect_iff.1 hyields
    obtain ⟨token, hcurrent, -⟩ := ParseState.exists_of_sees hsees
    have hrest := ParseState.rest_of_current? hcurrent
    obtain ⟨w, hw, -⟩ := hnext b t token t.advance.rest hread hrest a u hyields
    rw [hrest, hw, List.length_cons, List.length_append]
    omega

end SettlesAt

/-! ### Expressions -/

namespace Rule

open ParseState (advance_facing_cons loc_facing_cons)

/-- The rule reads the same in front of any statements. -/
def Settles (rule : Rule α) : Prop :=
  ∀ (s : ParseState) rest, SettlesAt (fun rest => rule.step (s.facing rest)) rest

/-- A variable is read without a look at the next token. -/
theorem settlesAt_useOf (name : String) (loc : Nat) :
    SettlesAt (fun rest => Step.useOf name loc (s.facing rest)) rest := by
  have hscopes : ∀ rest, (s.facing rest).scopes = s.scopes := fun _ => rfl
  cases hfind : s.scopes.find? name with
  | some ref =>
    have huse : ∀ rest, Step.useOf name loc (s.facing rest)
        = .done (.var ⟨loc, none⟩ ref) (s.facing rest) := by
      intro rest
      rw [Step.useOf, hscopes, hfind]
    simp only [huse]
    exact .done s
  | none =>
    have huse : ∀ rest, Step.useOf name loc (s.facing rest)
        = .fail (.complaint loc (.undefinedVariable name)) := by
      intro rest
      rw [Step.useOf, hscopes, hfind]
    simp only [huse]
    exact .fail

/-- Whether a name is called shows at a parenthesis, which starts no statement. -/
theorem settles_primary : primary.Settles := by
  intro s rest
  cases rest with
  | nil =>
    intro a t h
    cases h
  | cons token rest =>
    refine .ite_sees (by decide) ?_ ?_
    -- A parenthesis is closed by the one that belongs to it, whatever follows.
    · rintro _ _ ⟨⟩
      exact .advance (.of_closes (.call fun node t _ => .expectLast (.done t)))
    · refine .advance ?_
      obtain ⟨kind, loc, text⟩ := token
      cases kind with
      -- Behind a name the next token tells a call from a variable.
      | identifier =>
        refine .ite_sees (by decide) ?_ (settlesAt_useOf text loc)
        rintro _ left rfl
        exact .advance (.of_closes (Step.closesAt_callOf loc text s left))
      | number value =>
        cases value with
        | none => exact .fail
        | some value => exact .done s
      | string bytes ty =>
        cases bytes with
        | none => exact .fail
        | some bytes =>
          cases ty with
          | none => exact .fail
          | some ty => exact .done (s.addLiteral bytes ty)
      | punctuator | keyword | eof => exact .fail

/-- Every subscript moves past tokens, so the induction is on their number. -/
theorem settles_subscripts (node : Node) : (subscripts node).Settles := by
  intro s rest
  induction hlength : rest.length using Nat.strong_induction_on generalizing s rest node with
  | _ length ih =>
    refine .ite_sees (by decide) ?_ (.done s)
    rintro token left rfl
    refine .advance ?_
    simp only [loc_facing_cons, advance_facing_cons]
    refine .callExpect (by decide) fun index t close left' hread hrest => ?_
    refine .ofResult (r := Join.typed Node.sum t.symbols node index token.loc) fun place => ?_
    refine .last (ih _ ?_ _ t left' rfl)
    have hmoved : t.rest.length + 1 ≤ left.length := hread.length
    rw [hrest, List.length_cons] at hmoved
    rw [← hlength, List.length_cons]
    omega

/-- Whether a subscript follows shows at a bracket, which starts no statement. -/
theorem settles_postfixed : postfixed.Settles := by
  intro s rest
  exact .call (settles_primary s rest) fun node t _ => .last (settles_subscripts node t t.rest)

/-- Every sign moves past a token, so the induction is on their number. -/
theorem settles_unary : unary.Settles := by
  intro s rest
  -- Every sign is a token less, so the induction is on the number of tokens.
  induction hlength : rest.length using Nat.strong_induction_on generalizing s rest with
  | _ length ih =>
    cases hsign : (s.facing rest).sign? with
    | none =>
      have hnone : SettlesAt (fun rest => .call postfixed (s.facing rest) .done) rest :=
        .last (settles_postfixed s rest)
      refine hnone.congr fun more hmore => ?_
      rw [step, hmore.sign?, hsign]
    | some sign =>
      obtain ⟨text, -, hsees⟩ := ParseState.exists_sees_of_sign? hsign
      obtain ⟨token, hcurrent, -⟩ := ParseState.exists_of_sees hsees
      obtain ⟨left, rfl⟩ := List.head?_eq_some_iff.1 hcurrent
      refine .advance ?_
      have hstep : ∀ rest, unary.step (s.facing (token :: rest))
          = .call unary (s.facing rest) fun node t => .done (sign.apply token.loc node) t := by
        intro rest
        have hthis : (s.facing (token :: rest)).sign? = some sign := hsign
        rw [step, hthis]
        rfl
      simp only [hstep]
      refine .call (ih _ ?_ s left rfl) fun node t _ => .done t
      rw [← hlength, List.length_cons]
      omega

/-- Every operator moves past a token, so the induction is on their number. -/
theorem settles_more (l : Level) (hoperand : l.operand.Settles) (lhs : Node) :
    (more l lhs).Settles := by
  intro s rest
  induction hlength : rest.length using Nat.strong_induction_on generalizing s rest lhs with
  | _ length ih =>
    cases hjoin : l.join? (s.facing rest) with
    -- No operator of this level stands here, so nothing is read.
    | none =>
      have hnone : SettlesAt (fun rest => .done lhs (s.facing rest)) rest := .done s
      refine hnone.congr fun more hmore => ?_
      rw [step, hmore.join?, hjoin]
    -- The operator and its operand are read, and the loop goes on with fewer tokens.
    | some join =>
      obtain ⟨text, -, hsees⟩ := Level.exists_sees_of_join? hjoin
      obtain ⟨token, hcurrent, -⟩ := ParseState.exists_of_sees hsees
      obtain ⟨left, rfl⟩ := List.head?_eq_some_iff.1 hcurrent
      refine .advance ?_
      have hstep : ∀ rest, (more l lhs).step (s.facing (token :: rest))
          = .call l.operand (s.facing rest) fun rhs t =>
            .ofResult (join t.symbols lhs rhs token.loc) fun node =>
              .call (more l node) t .done := by
        intro rest
        have hthis : l.join? (s.facing (token :: rest)) = some join :=
          (SameStart.join? (.inl rfl) l).trans hjoin
        rw [step, hthis]
        rfl
      simp only [hstep]
      refine .call (hoperand s left) fun rhs t hread => ?_
      refine .ofResult (r := join t.symbols lhs rhs token.loc) fun node => ?_
      refine .last (ih _ ?_ node t t.rest rfl)
      have hmoved : t.rest.length ≤ left.length := Nat.le_of_add_right_le hread.length
      rw [← hlength, List.length_cons]
      omega

/-- Whether an operator follows shows at that operator, which starts no statement. -/
theorem settles_level (l : Level) : (level l).Settles := by
  have hlevel : ∀ l : Level, l.operand.Settles → (level l).Settles := fun l hoperand s rest =>
    .call (hoperand s rest) fun node t _ => .last (settles_more l hoperand node t t.rest)
  have hproduct := hlevel .product settles_unary
  have hsum := hlevel .sum hproduct
  have hrelational := hlevel .relational hsum
  cases l with
  | equality => exact hlevel .equality hrelational
  | relational => exact hrelational
  | sum => exact hsum
  | product => exact hproduct

/-- **Expressions settle.**  An assignment moves past a token in front of its value, so the
induction is on the number of tokens. -/
theorem settles_expr : expr.Settles := by
  intro s rest
  induction hlength : rest.length using Nat.strong_induction_on generalizing s rest with
  | _ length ih =>
    refine .call (settles_level .equality s rest) fun node t hread => ?_
    refine .ite_sees (by decide) (fun token left hrest => ?_) (.done t)
    rw [hrest]
    refine .advance ?_
    simp only [loc_facing_cons, advance_facing_cons]
    refine .call (ih _ ?_ t left rfl) fun value u _ => .done u
    have hmoved : t.rest.length + 1 ≤ rest.length := hread.length
    rw [hrest, List.length_cons] at hmoved
    omega

/-! ### Declarations and statements -/

/-- A declaration ends with its semicolon. -/
theorem settles_declaration (loc : Nat) : (declaration loc).Settles := by
  intro s rest
  refine .of_closes (.call fun names t _ => .call fun ty u _ => ?_)
  refine .callLast (closes_initializers _ u _) fun values v => ?_
  exact .ofRun (Parse.blind_declareLocals ty names values) fun body w => .done w

/-- A statement that is an expression ends with its semicolon. -/
theorem settlesAt_exprStatement :
    SettlesAt (fun rest => Step.exprStatement (s.facing rest)) rest := by
  have hexpr : ∀ loc, ClosesAt (fun rest => .call expr (s.facing rest) fun value t =>
      .expect ";" t fun u => .done (Node.exprStmt ⟨loc, none⟩ value) u) rest :=
    fun loc => .call fun value t _ => .expectLast (.done t)
  refine .of_closes (.ite_sees ?_ ((hexpr (s.facing rest).loc).congr fun more hmore => ?_))
  · rintro token left rfl
    refine .last ?_
    simp only [loc_facing_cons, advance_facing_cons]
    exact .done s
  · rw [ParseState.loc_congr hmore]

/-- **Statements settle.**  Those inside a statement come behind a token of it, so the induction is
on the number of tokens. -/
theorem settles_stmt : stmt.Settles := by
  -- The induction is on the number of tokens, since a statement contains shorter ones.
  intro s rest
  induction hlength : rest.length using Nat.strong_induction_on generalizing s rest with
  | _ length ih =>
    cases rest with
    | nil =>
      intro a t hyields
      exact absurd hyields.length (Nat.not_succ_le_zero _)
    | cons token rest =>
      have hinner : ∀ (t : ParseState), t.rest.length ≤ rest.length →
          SettlesAt (fun rest => stmt.step (t.facing rest)) t.rest := by
        intro t ht
        refine ih _ ?_ t t.rest rfl
        rw [← hlength, List.length_cons]
        omega
      have hsees : ∀ (text : String) (left : List Token),
          (s.facing (token :: left)).sees text = token.reads text := fun _ _ => rfl
      -- The first token decides which kind of statement it is.
      by_cases hret : token.reads "return" = true
      · refine .advance ?_
        simp only [step, hsees, if_pos hret]
        exact .of_closes (.call fun value t _ => .expectLast (.done t))
      by_cases hif : token.reads "if" = true
      · refine .advance ?_
        simp only [step, hsees, if_neg hret, if_pos hif]
        refine .call (settles_expr s rest) fun cond t hcond => ?_
        have ht : t.rest.length + 1 ≤ rest.length := hcond.length
        refine .call (hinner t (by omega)) fun onTrue u honTrue => ?_
        have hu : u.rest.length + 1 ≤ t.rest.length := honTrue.length
        -- Whether there is another branch shows at `else`, which starts no statement.
        refine .ite_sees (by decide) (fun token left hrest => ?_) (.done u)
        have hleft : left.length ≤ rest.length := by
          rw [hrest, List.length_cons] at hu
          omega
        rw [hrest]
        exact .advance (.call (hinner (u.facing left) hleft) fun onFalse v _ => .done v)
      by_cases hfor : token.reads "for" = true
      · refine .advance ?_
        simp only [step, hsees, if_neg hret, if_neg hif, if_pos hfor]
        -- The body moves past a token, so the head sees nothing of what is behind the loop.
        refine .callBefore (fun head t hhead => ?_) fun head t _ a u hyields => ?_
        · exact .call (hinner t hhead.length) fun body u _ => .done u
        · obtain ⟨body, v, hbody, hdone⟩ := Step.yields_call_iff.1 hyields
          obtain ⟨-, rfl⟩ := Step.yields_done_iff.1 hdone
          exact hbody.length
      by_cases hbrace : token.reads "\x7b" = true
      · refine .advance ?_
        simp only [step, hsees, if_neg hret, if_neg hif, if_neg hfor, if_pos hbrace]
        exact .of_closes (.callLast (closes_block _ s rest) fun _ t => .done t)
      -- Else the statement starts with its expression, and other tokens have to as well.
      · refine (settlesAt_exprStatement (s := s)).congr fun more hmore => ?_
        rcases hmore with hhead | ⟨hstarts, -⟩
        · obtain ⟨left, rfl⟩ := List.head?_eq_some_iff.1 hhead
          simp only [step, hsees, if_neg hret, if_neg hif, if_neg hfor, if_neg hbrace]
        · obtain ⟨text, htext, hreads⟩ := hstarts
          rw [List.head?_cons, Option.any_some] at hreads
          simp only [statementTexts, List.mem_cons, List.not_mem_nil, or_false] at htext
          rcases htext with rfl | rfl | rfl | rfl
          · exact absurd hreads hret
          · exact absurd hreads hif
          · exact absurd hreads hfor
          · exact absurd hreads hbrace

end Rule

/-! ### The heads of loops -/

/-- From `s` on the head of a loop is read that is empty, or of which the last part is, up to the
brace behind it. -/
inductive ParseState.OpensHead (s : ParseState) : ParseState → Prop
  | empty (hbrace : s.sees "\x7b" = true) : OpensHead s s
  | clauses {first cond : Option Node} {t u : ParseState} (hstart : ¬ s.sees "\x7b" = true)
      (hfirst : ((Rule.exprUnless ";").step s).Yields first t) (ht : t.sees ";" = true)
      (hcond : ((Rule.exprUnless ";").step t.advance).Yields cond u) (hu : u.sees ";" = true)
      (hbrace : u.advance.sees "\x7b" = true) : OpensHead s u.advance

/-- What stands behind the first token is not seen. -/
theorem ParseState.sees_facing_append {w : List Token} (h : s.rest = w ++ t.rest) (hw : w ≠ []) :
    (s.facing (w ++ rest)).sees text = s.sees text := by
  obtain ⟨token, w, rfl⟩ := List.exists_cons_of_ne_nil hw
  rw [ParseState.sees_facing, ParseState.sees, ParseState.current?, h]
  rfl

/-- A token that starts a statement starts no expression. -/
theorem StartsStmt.fails_expr (h : StartsStmt s.rest) :
    (Rule.expr.step s).Fails (s.unexpected .expression) := by
  have hother : ∀ text, text ∉ statementTexts → s.sees text = false := fun _ => h.not_reads
  have hprimary : (Rule.primary.step s).Fails (s.unexpected .expression) := by
    obtain ⟨text, -, hreads⟩ := h
    obtain ⟨⟨kind, loc, name⟩, hcurrent, hreads⟩ := (Option.any_eq_true _ _).1 hreads
    have hcurrent' : s.current? = some ⟨kind, loc, name⟩ := hcurrent
    rw [Rule.step, hother "(" (by decide), hcurrent']
    cases kind with
    | identifier | string | number => exact absurd hreads Bool.false_ne_true
    | _ => exact .fail
  have hunary : (Rule.unary.step s).Fails (s.unexpected .expression) := by
    have hsign : s.sign? = none := by
      refine ParseState.sign?_eq_none fun text htext => hother text ?_
      revert text
      decide
    rw [Rule.step_unary_of_none hsign]
    exact .inside (.inside hprimary)
  exact .inside (.inside (.inside (.inside (.inside hunary))))

/-- No expression starts where only a statement can. -/
theorem StartsStmt.fails_exprUnless (h : StartsStmt s.rest) (hsees : ¬ s.sees text = true) :
    ((Rule.exprUnless text).step s).Fails (s.unexpected .expression) := by
  rw [Rule.step, if_neg hsees]
  exact .inside h.fails_expr

/-- No loop has a statement for a head. -/
theorem StartsStmt.fails_loopHead (h : StartsStmt s.rest) (hbrace : ¬ s.sees "\x7b" = true) :
    (Rule.loopHead.step s).Fails (s.unexpected .expression) := by
  have hsemi : s.sees ";" = false := h.not_reads (by decide)
  rw [Rule.step, if_neg hbrace]
  exact .inside (h.fails_exprUnless (ne_true_of_eq_false hsemi))

namespace Rule

theorem sees_facing_of_reads {token : Token} (h : token.reads text = true) :
    (s.facing (token :: rest)).sees text = true := h

/-- An expression that is read is read again in front of other statements. -/
theorem yields_exprUnless_facing {node : Node} (h : (expr.step s).Yields node t)
    (hsees : ¬ s.sees text = true) (hsame : SameStart t.rest rest) :
    ∃ w, w ≠ [] ∧ s.rest = w ++ t.rest
      ∧ ((exprUnless text).step (s.facing (w ++ rest))).Yields (some node) (t.facing rest) := by
  obtain ⟨w, hw, hmore⟩ := settles_expr s s.rest node t h
  have hw' : s.rest = w ++ t.rest := hw
  have hne : w ≠ [] := by
    rintro rfl
    have hmoved : t.rest.length + 1 ≤ s.rest.length := h.length
    rw [hw'] at hmoved
    exact Nat.not_succ_le_self _ hmoved
  refine ⟨w, hne, hw, ?_⟩
  rw [step, ParseState.sees_facing_append hw' hne, if_neg hsees]
  exact .call (hmore rest hsame) .done

/-- The third part of a loop's head is read, or fails, behind the other two. -/
theorem exists_clauses {first cond : Option Node} (hstart : ¬ s.sees "\x7b" = true)
    (hfirst : ((exprUnless ";").step s).Yields first t) (ht : t.sees ";" = true)
    (hcond : ((exprUnless ";").step t.advance).Yields cond u) (hu : u.sees ";" = true) :
    ∃ w, s.rest = w ++ u.advance.rest ∧ ∀ more,
      (∀ last v, ((exprUnless "\x7b").step (u.advance.facing more)).Yields last v →
        (loopHead.step (s.facing (w ++ more))).Yields ⟨first, cond, last⟩ v)
      ∧ ∀ failure, ((exprUnless "\x7b").step (u.advance.facing more)).Fails failure →
        (loopHead.step (s.facing (w ++ more))).Fails failure := by
  -- Both parts end in front of a semicolon, so they are read the same with anything behind it.
  obtain ⟨a, ha, -, hmorea⟩ := (exprUnless ";").exists_word_of_yields hfirst
  obtain ⟨b, hb, -, hmoreb⟩ := (exprUnless ";").exists_word_of_yields hcond
  obtain ⟨semi, ht, hreads⟩ := ParseState.exists_of_sees ht
  obtain ⟨semi', hu, hreads'⟩ := ParseState.exists_of_sees hu
  have ht := ParseState.rest_of_current? ht
  have hu := ParseState.rest_of_current? hu
  obtain ⟨w, hw⟩ : ∃ w, w = a ++ semi :: (b ++ [semi']) := ⟨_, rfl⟩
  have hsplit : ∀ more, w ++ more = a ++ semi :: (b ++ semi' :: more) := by
    intro more
    rw [hw]
    simp
  have hrest : s.rest = w ++ u.advance.rest := by
    rw [hsplit, ha, ht, hb, hu]
  have hne : w ≠ [] := by
    rw [hw]
    simp
  refine ⟨w, hrest, fun more => ?_⟩
  have hfirst' := hmorea (semi :: (b ++ semi' :: more)) (by rw [ht]; rfl)
  have hcond' := hmoreb (semi' :: more) (by rw [hu]; rfl)
  have hstart' : (s.facing (w ++ more)).sees "\x7b" = s.sees "\x7b" :=
    ParseState.sees_facing_append hrest hne
  -- The last part is read behind them, or it fails there.
  constructor
  · intro last v hlast
    rw [step, hstart', if_neg hstart, hsplit]
    refine .call hfirst' ?_
    rw [if_pos (sees_facing_of_reads hreads)]
    refine .call hcond' ?_
    rw [Step.expect, if_pos (sees_facing_of_reads hreads')]
    exact .call hlast .done
  · intro failure hfails
    rw [step, hstart', if_neg hstart, hsplit]
    refine .behind hfirst' ?_
    rw [if_pos (sees_facing_of_reads hreads)]
    refine .behind hcond' ?_
    rw [Step.expect, if_pos (sees_facing_of_reads hreads')]
    exact .inside hfails

/-- **The head of a loop settles unless it is left open.** -/
theorem yields_loopHead_facing {head : Parse.LoopHead} (h : (loopHead.step s).Yields head t)
    (hopen : ¬ s.OpensHead t) (hsame : SameStart t.rest rest) :
    ∃ w, s.rest = w ++ t.rest
      ∧ (loopHead.step (s.facing (w ++ rest))).Yields head (t.facing rest) := by
  rw [step] at h
  simp only [Step.yields_ite_iff, Step.yields_call_iff, Step.yields_expect_iff,
    Step.yields_done_iff] at h
  -- A head without tokens is left open by what stands behind it.
  rcases h with ⟨hbrace, -, rfl⟩ | ⟨hstart, first, u, hfirst, h⟩
  · exact absurd (.empty hbrace) hopen
  rcases h with ⟨hu, cond, v, hcond, hv, last, w, hlast, rfl, rfl⟩ | ⟨hu, rfl, rfl⟩
  · obtain ⟨a, ha, hmorea⟩ := exists_clauses hstart hfirst hu hcond hv
    rw [step] at hlast
    simp only [Step.yields_ite_iff, Step.yields_call_iff, Step.yields_done_iff] at hlast
    rcases hlast with ⟨hbrace, -, rfl⟩ | ⟨hbrace, node, x, hnode, rfl, rfl⟩
    · exact absurd (.clauses hstart hfirst hu hcond hv hbrace) hopen
    · obtain ⟨b, -, hb, hlast⟩ := yields_exprUnless_facing hnode hbrace hsame
      refine ⟨a ++ b, ?_, ?_⟩
      · rw [ha, hb, List.append_assoc]
      · rw [List.append_assoc]
        exact (hmorea _).1 _ _ hlast
  · rw [step] at hfirst
    simp only [Step.yields_ite_iff, Step.yields_call_iff, Step.yields_done_iff] at hfirst
    rcases hfirst with ⟨hsemi, -, rfl⟩ | ⟨hsemi, node, x, hnode, rfl, rfl⟩
    · exact absurd hsemi hu
    obtain ⟨w, hne, hw, hfirst⟩ := yields_exprUnless_facing hnode hsemi hsame
    refine ⟨w, hw, ?_⟩
    have hu' : (t.facing rest).sees ";" = t.sees ";" := hsame.sees (by decide)
    rw [step, ParseState.sees_facing_append hw hne, if_neg hstart]
    refine .call hfirst ?_
    rw [hu', if_neg hu]
    exact .done

/-- A head that is left open is not read in front of a statement that is no block. -/
theorem fails_loopHead_facing (h : s.OpensHead t) (hstarts : StartsStmt rest)
    (hbrace : ¬ (t.facing rest).sees "\x7b" = true) :
    ∃ w, s.rest = w ++ t.rest ∧ (loopHead.step (s.facing (w ++ rest))).Fails
      ((t.facing rest).unexpected .expression) := by
  have hstarts' : StartsStmt (t.facing rest).rest := hstarts
  cases h with
  | empty => exact ⟨[], rfl, hstarts'.fails_loopHead hbrace⟩
  | clauses hstart hfirst ht hcond hu =>
    obtain ⟨w, hw, hmore⟩ := exists_clauses hstart hfirst ht hcond hu
    exact ⟨w, hw, (hmore rest).2 _ (hstarts'.fails_exprUnless hbrace)⟩

end Rule

end PocketCompiler
