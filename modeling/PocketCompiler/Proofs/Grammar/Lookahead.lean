import PocketCompiler.Proofs.Grammar.Checks
import PocketCompiler.Proofs.Grammar.Derivation
import PocketCompiler.Proofs.Grammar.Language

/-!
# One token of lookahead

A rule looks at the current token, moves past it, or calls another rule, and what it does depends on
no token behind the current one.  `LooksAt L o x` says so of a step `x`, given as a function of the
tokens that are left, the first of which is `o`, and it says at the same time what is read: a word
of `L`.

Three things follow for whatever follows the rules, by one induction over derivations.

* What has been read is a word of `L` (`LooksAt.yields`).
* What has been read when reading fails can be continued to a word of `L` (`LooksAt.fails`).
* Other tokens behind the current one lead to the same result, and to the same failure.
-/

namespace PocketCompiler

variable {α β : Type} {s : ParseState} {rest : List Token}

/-! ### States in front of tokens -/

/-- The state with other tokens in front of it. -/
def ParseState.facing (s : ParseState) (rest : List Token) : ParseState := { s with rest }

namespace ParseState

@[simp] theorem rest_facing : (s.facing rest).rest = rest := rfl

@[simp] theorem facing_rest : s.facing s.rest = s := rfl

@[simp] theorem facing_facing {more : List Token} :
    (s.facing rest).facing more = s.facing more := rfl

@[simp] theorem current?_facing : (s.facing rest).current? = rest.head? := rfl

@[simp] theorem advance_facing_cons {token : Token} :
    (s.facing (token :: rest)).advance = s.facing rest := rfl

@[simp] theorem symbols_facing : (s.facing rest).symbols = s.symbols := rfl

@[simp] theorem loc_facing_cons {token : Token} : (s.facing (token :: rest)).loc = token.loc := rfl

/-- The place of a state is that of its current token. -/
theorem loc_facing {o : Option Token} (h : rest.head? = o) :
    (s.facing rest).loc = (s.facing o.toList).loc := by
  subst h
  cases rest <;> rfl

theorem unexpected_facing {o : Option Token} (h : rest.head? = o) (wanted : Expected) :
    (s.facing rest).unexpected wanted = (s.facing o.toList).unexpected wanted := by
  subst h
  cases rest <;> rfl

theorem sees_facing {text : String} :
    (s.facing rest).sees text = rest.head?.any (·.reads text) := rfl

end ParseState

/-- A blind reader does the same in front of all tokens. -/
theorem Parse.Blind.run_facing {p : Parse α} (h : p.Blind) (s : ParseState) (rest : List Token) :
    p.run (s.facing rest) = (p.run s).map fun r => (r.1, r.2.facing rest) :=
  h s rest

/-- The tokens of which the first is `o`, one at most. -/
theorem head?_toList (o : Option Token) : o.toList.head? = o := by
  cases o <;> rfl

/-- What comes behind a word does not matter to its first token, as long as it starts the same. -/
theorem head?_append_congr {α : Type} {w u v : List α} (h : u.head? = v.head?) :
    (w ++ u).head? = (w ++ v).head? := by
  rw [List.head?_append, List.head?_append, h]

/-! ### Failures and the current token -/

/-- If the failure is that the grammar does not want a token, then that token is `o`. -/
def Failure.About (failure : Failure) (o : Option Token) : Prop :=
  ∀ loc wanted got, failure = .complaint loc (.unexpected wanted got) →
    ∀ token, o = some token → loc = token.loc ∧ got = token.describe

theorem Failure.IsCheck.about {failure : Failure} (h : failure.IsCheck) (o : Option Token) :
    failure.About o := by
  rintro loc wanted got rfl
  exact h.elim

theorem ParseState.about_unexpected (wanted : Expected) :
    (s.unexpected wanted).About s.current? := by
  rintro loc wanted' got h token htoken
  obtain ⟨hloc, hcause⟩ := Failure.complaint.inj h
  obtain ⟨-, hgot⟩ := Complaint.unexpected.inj hcause
  rw [htoken] at hgot
  refine ⟨?_, hgot.symm⟩
  rw [← hloc, ParseState.loc, htoken]

/-! ### What rules read -/

/-- The operators of a level. -/
def Level.operators : Level → Form
  | .equality => .text "==" ||| .text "!="
  | .relational => .text "<" ||| .text "<=" ||| .text ">" ||| .text ">="
  | .sum => .text "+" ||| .text "-"
  | .product => .text "*" ||| .text "/"

/-- The nonterminal of a level. -/
def Level.nonterminal : Level → Nonterminal
  | .equality => .equality
  | .relational => .relational
  | .sum => .add
  | .product => .mul

/-- The nonterminal of the operands of a level. -/
def Level.operandNonterminal : Level → Nonterminal
  | .equality => .relational
  | .relational => .add
  | .sum => .mul
  | .product => .unary

/-- A level is operands with operators between them. -/
theorem Level.derives_iff (l : Level) {body : Form} {w : List Terminal} :
    Derives (grammar body) (.rule l.nonterminal) w ↔ Derives (grammar body)
      (.rule l.operandNonterminal ++ .many (l.operators ++ .rule l.operandNonterminal)) w := by
  cases l <;> exact Derives.rule_iff

/-- The signs. -/
def Form.signs : Form := .text "+" ||| .text "-" ||| .text "&" ||| .text "*"

open Form in
/-- What a rule reads. -/
def Rule.form : Rule α → Form
  | .expr => rule .expr
  | .level l => rule l.nonterminal
  | .more l _ => many (l.operators ++ rule l.operandNonterminal)
  | .unary => rule .unary
  | .postfixed => rule .postfixed
  | .subscripts _ => many (text "[" ++ rule .expr ++ text "]")
  | .primary => rule .primary
  | .arguments _ _ _ => separated (rule .assign) ++ text ")"
  | .stars _ => many (text "*")
  | .names _ => rule .declNames
  | .dimensions _ => many (text "[" ++ terminal .number ++ text "]")
  | .type => rule .type
  | .values _ => separated (rule .expr)
  | .initializers _ => Form.initializers
  | .declaration _ | .global => rule .declNames ++ rule .type ++ Form.initializers
  | .items _ | .block _ => rule .compoundStmt
  | .exprUnless _ => optional (rule .expr)
  | .loopHead => optional clauses ||| rule .expr
  | .stmt => rule .stmt
  | .parameters _ => separated (rule .param) ++ text ")"
  | .parameterList => rule .params ++ text ")"
  | .function => terminal .identifier ++ (text "(" ++ (rule .params ++ text ")"
      ++ (rule .type ++ Form.block)))
  | .topLevel => rule .function ||| rule .globalVar

/-- The word is one that the rule reads. -/
def Rule.Spells (rule : Rule α) (w : List Terminal) : Prop := Derives wholeGrammar rule.form w

/-! ### Steps that look at one token -/

/-- The step `x`, as a function of the tokens that are left, reads a word of `L` if the first of
them is `o`, and nothing behind `o` decides what it does before it moves past `o`. -/
inductive LooksAt {α : Type} :
    (List Terminal → Prop) → Option Token → (List Token → Step α) → Prop
  | done {L : List Terminal → Prop} {o : Option Token} {x : List Token → Step α} {a : α}
      (t : ParseState) (hx : ∀ rest, rest.head? = o → x rest = .done a (t.facing rest))
      (hL : L []) : LooksAt L o x
  | fail {L : List Terminal → Prop} {o : Option Token} {x : List Token → Step α}
      {failure : Failure} (hx : ∀ rest, rest.head? = o → x rest = .fail failure)
      (hfailure : failure.About o) (hL : ∃ w, L w) : LooksAt L o x
  | move {L : List Terminal → Prop} {token : Token} {x y : List Token → Step α}
      (hx : ∀ rest, x (token :: rest) = y rest)
      (hy : ∀ o, LooksAt (fun w => L (token.terminal :: w)) o y) : LooksAt L (some token) x
  | call {L : List Terminal → Prop} {o : Option Token} {x : List Token → Step α} {β : Type}
      {rule : Rule β} {next : β → ParseState → Step α} (s : ParseState)
      (hx : ∀ rest, rest.head? = o → x rest = .call rule (s.facing rest) next)
      (hnext : ∀ v, rule.Spells v → ∀ b (t : ParseState) o,
        LooksAt (fun w => L (v ++ w)) o fun rest => next b (t.facing rest)) : LooksAt L o x

/-- The rule looks at one token and reads one of its words. -/
def Rule.Looks (rule : Rule α) : Prop :=
  ∀ (s : ParseState) o, LooksAt rule.Spells o fun rest => rule.step (s.facing rest)

/-- There is something for every rule to read. -/
theorem Rule.nonempty (rule : Rule α) : Nonempty α := by
  cases rule with
  | stars => exact ⟨0⟩
  | names | dimensions | values | initializers | items | parameters | parameterList => exact ⟨[]⟩
  | type => exact ⟨.int⟩
  | exprUnless => exact ⟨none⟩
  | loopHead => exact ⟨{}⟩
  | function | global | topLevel => exact ⟨()⟩
  | _ => exact ⟨.num ⟨0, none⟩ 0⟩

/-- There is a word to read, if every rule has one. -/
theorem LooksAt.exists_word (hwords : ∀ {β : Type} (rule : Rule β), ∃ w, rule.Spells w)
    {L : List Terminal → Prop} {o : Option Token} {x : List Token → Step α} (h : LooksAt L o x) :
    ∃ w, L w := by
  induction h with
  | done t _ hL => exact ⟨[], hL⟩
  | fail _ _ hL => exact hL
  | move _ _ ih =>
    obtain ⟨w, hw⟩ := ih none
    exact ⟨_, hw⟩
  | @call L o x β rule next s _ _ ih =>
    obtain ⟨v, hv⟩ := hwords rule
    obtain ⟨b⟩ := rule.nonempty
    obtain ⟨w, hw⟩ := ih v hv b s none
    exact ⟨_, hw⟩

/-- The first thing that a step does besides moving past tokens. -/
theorem LooksAt.settle {L : List Terminal → Prop} {o : Option Token} {x : List Token → Step α}
    (h : LooksAt L o x) : ∀ {rest : List Token}, rest.head? = o → ∃ v left, rest = v ++ left
      ∧ ((∃ a t, L (v.map Token.terminal)
          ∧ ∀ more, more.head? = left.head? → x (v ++ more) = .done a (ParseState.facing t more))
        ∨ (∃ failure, Failure.About failure left.head? ∧ (∃ w, L (v.map Token.terminal ++ w))
          ∧ ∀ more, more.head? = left.head? → x (v ++ more) = .fail failure)
        ∨ ∃ (β : Type) (rule : Rule β) (s : ParseState) (next : β → ParseState → Step α),
          (∀ w, rule.Spells w → ∀ b (t : ParseState) o,
            LooksAt (fun u => L (v.map Token.terminal ++ (w ++ u))) o
              fun rest => next b (t.facing rest))
          ∧ ∀ more, more.head? = left.head? → x (v ++ more) = .call rule (s.facing more) next) := by
  -- The induction is on how the step looks at its tokens: each one it moves past is added to `v`.
  induction h with
  | @done L o x a t hx hL =>
    intro rest hrest
    exact ⟨[], rest, rfl, .inl ⟨a, t, hL, fun more hmore => hx more (hmore.trans hrest)⟩⟩
  | @fail L o x failure hx hfailure hL =>
    intro rest hrest
    refine ⟨[], rest, rfl, .inr (.inl
      ⟨failure, ?_, hL, fun more hmore => hx more (hmore.trans hrest)⟩)⟩
    rw [hrest]
    exact hfailure
  | @call L o x β rule next s hx hnext =>
    intro rest hrest
    exact ⟨[], rest, rfl, .inr (.inr ⟨β, rule, s, next, hnext,
      fun more hmore => hx more (hmore.trans hrest)⟩)⟩
  | @move L token x y hx hy ih =>
    intro rest hrest
    obtain ⟨rest, rfl⟩ : ∃ more, rest = token :: more := ⟨_, List.eq_cons_of_mem_head? hrest⟩
    obtain ⟨v, left, rfl, hcases⟩ := ih rest.head? (rfl : rest.head? = rest.head?)
    refine ⟨token :: v, left, rfl, ?_⟩
    simp only [List.cons_append, hx]
    exact hcases

/-- Where a step comes to a call, it makes the same call in front of all tokens that start the
same. -/
theorem LooksAt.settle_call {L : List Terminal → Prop} {o : Option Token}
    {x : List Token → Step α} (h : LooksAt L o x) {rest : List Token} (hrest : rest.head? = o)
    {rule : Rule β} {next : β → ParseState → Step α} (heq : x rest = .call rule s next) :
    ∃ v, rest = v ++ s.rest
      ∧ (∀ w, rule.Spells w → ∀ b (t : ParseState) o,
        LooksAt (fun u => L (v.map Token.terminal ++ (w ++ u))) o
          fun rest => next b (t.facing rest))
      ∧ ∀ more, more.head? = s.rest.head? → x (v ++ more) = .call rule (s.facing more) next := by
  obtain ⟨v, left, rfl, ⟨b, u, -, hx⟩ | ⟨failure, -, -, hx⟩ | ⟨β', rule', s', next', hnext, hx⟩⟩ :=
    h.settle hrest
  · exact nomatch (hx left rfl).symm.trans heq
  · exact nomatch (hx left rfl).symm.trans heq
  · rw [hx left rfl] at heq
    cases heq
    exact ⟨v, rfl, hnext, hx⟩

section Derivations

variable (hrules : ∀ {β : Type} (rule : Rule β), rule.Looks)
  (hwords : ∀ {β : Type} (rule : Rule β), ∃ w, rule.Spells w)

include hrules

/-- **What is read is a word of the language**, and other tokens behind it lead to the same. -/
theorem LooksAt.yields {y : Step α} {a : α} {t : ParseState} (hyields : y.Yields a t) :
    ∀ {L : List Terminal → Prop} {o : Option Token} {x : List Token → Step α} {rest : List Token},
      LooksAt L o x → rest.head? = o → x rest = y →
        ∃ w, rest = w ++ t.rest ∧ L (w.map Token.terminal)
          ∧ ∀ more, more.head? = t.rest.head? → (x (w ++ more)).Yields a (t.facing more) := by
  -- The induction is on the derivation, for all steps that look at one token and lead to it.
  induction hyields with
  | @done α a t =>
    intro L o x rest h hrest heq
    obtain ⟨v, left, rfl, ⟨b, u, hL, hx⟩ | ⟨failure, -, -, hx⟩ | ⟨β, rule, s, next, -, hx⟩⟩ :=
      h.settle hrest
    · rw [hx left rfl] at heq
      obtain ⟨rfl, rfl⟩ := Step.done.inj heq
      refine ⟨v, rfl, hL, fun more hmore => ?_⟩
      rw [hx more hmore]
      exact .done
    · exact nomatch (hx left rfl).symm.trans heq
    · exact nomatch (hx left rfl).symm.trans heq
  | @call α β rule s t u next b a _ _ ihrule ihnext =>
    intro L o x rest h hrest heq
    obtain ⟨v, rfl, hnext, hx⟩ := h.settle_call hrest heq
    obtain ⟨w, hw, hspells, hmorew⟩ := ihrule (hrules rule s s.rest.head?) rfl rfl
    obtain ⟨z, hz, hL, hmorez⟩ := ihnext (hnext _ hspells b t t.rest.head?) rfl rfl
    refine ⟨v ++ (w ++ z), ?_, ?_, fun more hmore => ?_⟩
    · rw [hw, hz]
      simp
    · simpa using hL
    -- Only the first token behind what is read is looked at, and it stays the same.
    · have hhead : (w ++ (z ++ more)).head? = s.rest.head? := by
        rw [hw, hz]
        exact head?_append_congr (head?_append_congr hmore)
      have hhead' : (z ++ more).head? = t.rest.head? := by
        rw [hz]
        exact head?_append_congr hmore
      rw [List.append_assoc, List.append_assoc, hx _ hhead]
      exact .call (hmorew _ hhead') (hmorez more hmore)

include hwords in
/-- **What is read when reading fails can be continued to a word of the language**, a token that the
grammar does not want is the next one, and other tokens behind that one lead to the same failure. -/
theorem LooksAt.fails {y : Step α} {failure : Failure} (hfails : y.Fails failure) :
    ∀ {L : List Terminal → Prop} {o : Option Token} {x : List Token → Step α} {rest : List Token},
      LooksAt L o x → rest.head? = o → x rest = y →
        ∃ w left, rest = w ++ left ∧ failure.About left.head?
          ∧ (∃ v, L (w.map Token.terminal ++ v))
          ∧ ∀ more, more.head? = left.head? → (x (w ++ more)).Fails failure := by
  induction hfails with
  | fail =>
    -- The step itself fails, at the token behind what it has read.
    intro L o x rest h hrest heq
    obtain ⟨v, left, rfl, ⟨b, u, -, hx⟩ | ⟨found, habout, hL, hx⟩ | ⟨β, rule, s, next, -, hx⟩⟩ :=
      h.settle hrest
    · exact nomatch (hx left rfl).symm.trans heq
    · obtain rfl := Step.fail.inj ((hx left rfl).symm.trans heq)
      refine ⟨v, left, rfl, habout, hL, fun more hmore => ?_⟩
      rw [hx more hmore]
      exact .fail
    · exact nomatch (hx left rfl).symm.trans heq
  | @inside α β rule s next _ ih =>
    intro L o x rest h hrest heq
    obtain ⟨v, rfl, hnext, hx⟩ := h.settle_call hrest heq
    obtain ⟨w, last, hw, habout, ⟨z, hspells⟩, hmorew⟩ := ih (hrules rule s s.rest.head?) rfl rfl
    -- What comes behind the call has a word, whatever it would have read.
    obtain ⟨b⟩ := rule.nonempty
    obtain ⟨u, hL⟩ := (hnext _ hspells b s none).exists_word hwords
    refine ⟨v ++ w, last, ?_, habout, ⟨z ++ u, by simpa using hL⟩, fun more hmore => ?_⟩
    · rw [hw, List.append_assoc]
    · have hhead : (w ++ more).head? = s.rest.head? := by
        rw [hw]
        exact head?_append_congr hmore
      rw [List.append_assoc, hx _ hhead]
      exact .inside (hmorew more hmore)
  -- The rule reads its part, and the step behind it fails later on.
  | @behind α β rule s t next b hyields _ ih =>
    intro L o x rest h hrest heq
    obtain ⟨v, rfl, hnext, hx⟩ := h.settle_call hrest heq
    obtain ⟨w, hw, hspells, hmorew⟩ :=
      LooksAt.yields hrules hyields (hrules rule s s.rest.head?) rfl rfl
    obtain ⟨z, last, hz, habout, ⟨u, hL⟩, hmorez⟩ := ih (hnext _ hspells b t t.rest.head?) rfl rfl
    refine ⟨v ++ (w ++ z), last, ?_, habout, ⟨u, by simpa using hL⟩, fun more hmore => ?_⟩
    · rw [hw, hz]
      simp
    · have hhead : (w ++ (z ++ more)).head? = s.rest.head? := by
        rw [hw, hz]
        exact head?_append_congr (head?_append_congr hmore)
      have hhead' : (z ++ more).head? = t.rest.head? := by
        rw [hz]
        exact head?_append_congr hmore
      rw [List.append_assoc, List.append_assoc, hx _ hhead]
      exact .behind (hmorew _ hhead') (hmorez more hmore)

end Derivations

end PocketCompiler
