import PocketCompiler.Proofs.Grammar.Checks
import PocketCompiler.Proofs.Grammar.Derivation
import PocketCompiler.Proofs.Grammar.Language

/-!
# What a step leaves

`x.Leaves w`: if following the rules from `x` comes to an end, then the tokens that are left read as
the word `w`, and if it fails, then not because of a token that the grammar does not want.  It is
how a rule is shown to read a certain word: what is left is the rest.

Of the tokens that are left it is assumed that they could have been found by the lexer
(`Token.WellMade`).  A keyword with the text of an operator, say, would not be read as one.
-/

namespace PocketCompiler

variable {α β : Type} {s t : ParseState} {w v : List Terminal}

/-! ### Failures -/

/-- The failure is a token that the grammar does not want. -/
def Failure.IsUnexpected : Failure → Prop
  | .complaint _ (.unexpected _ _) => True
  | _ => False

/-- A failure of a check is not about an unwanted token. -/
theorem Failure.IsCheck.not_isUnexpected {failure : Failure} (h : failure.IsCheck) :
    ¬ failure.IsUnexpected := by
  intro hunexpected
  unfold IsUnexpected at hunexpected
  split at hunexpected
  · exact h
  · exact hunexpected

/-! ### The word ahead -/

/-- A token whose text and kind go together. -/
structure Token.WellMade (token : Token) : Prop where
  text : token.kind = .keyword → token.text ∈ keywords
  literal : ∀ {bytes ty}, token.kind = .string bytes ty → bytes.isSome ∧ ty.isSome

/-- The tokens that are left are well made and read as the word. -/
structure ParseState.Ahead (s : ParseState) (w : List Terminal) : Prop where
  wellMade : ∀ token ∈ s.rest, token.WellMade
  word : s.rest.map Token.terminal = w

namespace ParseState.Ahead

/-- The word ahead depends only on the tokens that are left. -/
theorem of_rest (h : s.Ahead w) (hrest : t.rest = s.rest) : t.Ahead w := by
  obtain ⟨hmade, hword⟩ := h
  exact ⟨hrest ▸ hmade, hrest ▸ hword⟩

/-- The first terminal of the word is that of the current token. -/
theorem exists_token {first : Terminal} (h : s.Ahead (first :: w)) :
    ∃ token, s.current? = some token ∧ token.terminal = first ∧ token.WellMade := by
  obtain ⟨token, rest, hrest, htoken, -⟩ := List.map_eq_cons_iff.1 h.word
  refine ⟨token, ?_, htoken, h.wellMade token ?_⟩
  · rw [current?, hrest]
    rfl
  · rw [hrest]
    exact List.mem_cons_self

/-- Behind its first token the rest of the word is ahead. -/
theorem advance {first : Terminal} (h : s.Ahead (first :: w)) : s.advance.Ahead w := by
  obtain ⟨token, rest, hrest, -, hword⟩ := List.map_eq_cons_iff.1 h.word
  have hadvance : s.advance.rest = rest := by
    rw [ParseState.advance, hrest]
    rfl
  refine ⟨fun token htoken => h.wellMade token ?_, hadvance ▸ hword⟩
  rw [hrest]
  exact List.mem_cons_of_mem _ (hadvance ▸ htoken)

/-- The current token reads as the first terminal of the word. -/
theorem head? (h : s.Ahead w) : s.current?.map Token.terminal = w.head? := by
  rw [← h.word, List.head?_map]
  rfl

/-- A text is seen exactly if the word starts with it. -/
theorem sees_iff (h : s.Ahead w) {text : String} :
    s.sees text = true ↔ w.head? = some (.lexeme text) := by
  rw [← h.head?, ParseState.sees, Option.any_eq_true, Option.map_eq_some_iff]
  simp only [Token.reads_iff]

theorem sees {text : String} (h : s.Ahead (.lexeme text :: w)) : s.sees text = true :=
  h.sees_iff.2 rfl

/-- A text that the word does not start with is not seen. -/
theorem not_sees (h : s.Ahead w) {text : String} (hne : w.head? ≠ some (.lexeme text)) :
    s.sees text = false := by
  rw [← Bool.not_eq_true, h.sees_iff]
  exact hne

/-- At the end of the word the tokens are at their end. -/
theorem atEnd (h : s.Ahead (.eof :: w)) : s.atEnd = true := by
  obtain ⟨⟨kind, loc, text⟩, hcurrent, hterminal, -⟩ := h.exists_token
  unfold ParseState.atEnd
  rw [hcurrent]
  cases kind with
  | eof => rfl
  | _ => exact nomatch hterminal

theorem kind_identifier (h : s.Ahead (.identifier :: w)) :
    s.current?.map Token.kind = some .identifier := by
  obtain ⟨⟨kind, loc, name⟩, hcurrent, hterminal, -⟩ := h.exists_token
  rw [hcurrent]
  cases kind with
  | identifier => rfl
  | _ => exact nomatch hterminal

theorem kind_number (h : s.Ahead (.number :: w)) :
    ∃ value, s.current?.map Token.kind = some (.number value) := by
  obtain ⟨⟨kind, loc, text⟩, hcurrent, hterminal, -⟩ := h.exists_token
  rw [hcurrent]
  cases kind with
  | number value => exact ⟨value, rfl⟩
  | _ => exact nomatch hterminal

theorem kind_string (h : s.Ahead (.string :: w)) :
    ∃ bytes ty, s.current?.map Token.kind = some (.string bytes ty) := by
  obtain ⟨⟨kind, loc, text⟩, hcurrent, hterminal, -⟩ := h.exists_token
  rw [hcurrent]
  cases kind with
  | string bytes ty => exact ⟨bytes, ty, rfl⟩
  | _ => exact nomatch hterminal

end ParseState.Ahead

/-! ### What is left -/

namespace Step

/-- The tokens that are left at the end read as the word, and no token is unwanted. -/
structure Leaves (x : Step α) (w : List Terminal) : Prop where
  yields : ∀ {a t}, x.Yields a t → t.Ahead w
  fails : ∀ {failure}, x.Fails failure → ¬ failure.IsUnexpected

namespace Leaves

/-- What has been read leaves the word that is ahead. -/
theorem done {a : α} (h : t.Ahead w) : (Step.done a t).Leaves w where
  yields hyields := by
    cases hyields
    exact h
  fails hfails := nomatch hfails

/-- A failure leaves any word, unless it is about an unwanted token. -/
theorem fail {failure : Failure} (h : ¬ failure.IsUnexpected) :
    (Step.fail failure : Step α).Leaves w where
  yields hyields := nomatch hyields
  fails hfails := by
    cases hfails
    exact h

/-- A failure of a check leaves any word. -/
theorem check {failure : Failure} (h : failure.IsCheck) : (Step.fail failure : Step α).Leaves w :=
  fail h.not_isUnexpected

/-- Behind a rule that leaves one word, a step may go on to leave another one. -/
theorem call {rule : Rule β} {next : β → ParseState → Step α} (hrule : (rule.step s).Leaves v)
    (hnext : ∀ b t, t.Ahead v → (next b t).Leaves w) : (Step.call rule s next).Leaves w where
  yields hyields := by
    cases hyields with
    | call hread hmore => exact (hnext _ _ (hrule.yields hread)).yields hmore
  fails hfails := by
    cases hfails with
    | inside hread => exact hrule.fails hread
    | behind hread hmore => exact (hnext _ _ (hrule.yields hread)).fails hmore

/-- What the last rule leaves is left. -/
theorem tail {rule : Rule α} (hrule : (rule.step s).Leaves w) : (Step.call rule s .done).Leaves w :=
  .call hrule fun _ _ => .done

/-- A step with two cases leaves a word if both cases do. -/
theorem ite {p : Prop} [Decidable p] {x y : Step α} (hx : p → x.Leaves w) (hy : ¬ p → y.Leaves w) :
    (if p then x else y).Leaves w := by
  split
  · next hp => exact hx hp
  · next hp => exact hy hp

/-- Where the word starts with the text, the first case counts. -/
theorem sees {text : String} {x y : Step α} (h : s.Ahead (.lexeme text :: v)) (hx : x.Leaves w) :
    (if s.sees text then x else y).Leaves w := by
  rw [if_pos h.sees]
  exact hx

/-- Where the word does not start with the text, the second case counts. -/
theorem not_sees {text : String} {x y : Step α} (h : s.Ahead v)
    (hne : v.head? ≠ some (.lexeme text)) (hy : y.Leaves w) :
    (if s.sees text then x else y).Leaves w := by
  rw [if_neg (by rw [h.not_sees hne]; exact Bool.false_ne_true)]
  exact hy

/-- What is computed reads no token, and it fails in a check at most. -/
theorem ofResult {r : Except Failure β} {next : β → Step α}
    (hr : Ends r (fun _ => True) Failure.IsCheck) (hnext : ∀ b, (next b).Leaves w) :
    (Step.ofResult r next).Leaves w := by
  cases r with
  | ok b => exact hnext b
  | error failure => exact check hr

/-- A reader that looks at no token leaves the word as it is. -/
theorem ofRun {p : Parse β} {next : β → ParseState → Step α} (hchecks : p.Checks) (hblind : p.Blind)
    (h : s.Ahead v) (hnext : ∀ b t, t.Ahead v → (next b t).Leaves w) :
    (Step.ofRun (p.run s) next).Leaves w := by
  have hends := hchecks s
  cases hrun : p.run s with
  | ok r => exact hnext r.1 r.2 (h.of_rest (hblind.rest hrun))
  | error failure =>
    rw [hrun] at hends
    exact check hends

/-- A text that the word starts with is not unwanted. -/
theorem expect {text : String} {next : ParseState → Step α} (h : s.Ahead (.lexeme text :: v))
    (hnext : ∀ t, t.Ahead v → (next t).Leaves w) : (Step.expect text s next).Leaves w :=
  .sees h (hnext _ h.advance)

/-- A name is not unwanted where the word starts with one. -/
theorem identifier {next : String → Nat → ParseState → Step α} (h : s.Ahead (.identifier :: v))
    (hnext : ∀ name loc t, t.Ahead v → (next name loc t).Leaves w) :
    (Step.identifier s next).Leaves w := by
  obtain ⟨⟨kind, loc, name⟩, hcurrent, hterminal, -⟩ := h.exists_token
  cases kind with
  | identifier =>
    unfold Step.identifier
    rw [hcurrent]
    exact hnext name loc _ h.advance
  | _ => exact nomatch hterminal

/-- A number is not unwanted where the word starts with one. -/
theorem number {next : Int64 → Nat → ParseState → Step α} (h : s.Ahead (.number :: v))
    (hnext : ∀ value loc t, t.Ahead v → (next value loc t).Leaves w) :
    (Step.number s next).Leaves w := by
  obtain ⟨⟨kind, loc, text⟩, hcurrent, hterminal, -⟩ := h.exists_token
  cases kind with
  | number value =>
    unfold Step.number
    rw [hcurrent]
    cases value with
    | some value => exact hnext value loc _ h.advance
    | none => exact check trivial
  | _ => exact nomatch hterminal

/-- A string literal is not unwanted where the word starts with one. -/
theorem literal {next : List UInt8 → Ty → ParseState → Step α} (h : s.Ahead (.string :: v))
    (hnext : ∀ bytes ty t, t.Ahead v → (next bytes ty t).Leaves w) :
    (Step.literal s next).Leaves w := by
  obtain ⟨⟨kind, loc, text⟩, hcurrent, hterminal, hmade⟩ := h.exists_token
  cases kind with
  | string bytes ty =>
    obtain ⟨hbytes, hty⟩ := hmade.literal rfl
    obtain ⟨bytes, rfl⟩ := Option.isSome_iff_exists.1 hbytes
    obtain ⟨ty, rfl⟩ := Option.isSome_iff_exists.1 hty
    unfold Step.literal
    rw [hcurrent]
    exact hnext bytes ty _ h.advance
  | _ => exact nomatch hterminal

end Leaves

end Step

end PocketCompiler
