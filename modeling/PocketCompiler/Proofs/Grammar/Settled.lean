import PocketCompiler.Proofs.Grammar.Operands

/-!
# Statements without ambiguity

The grammar derives some statements in more than one way: an `else` may belong to either of two
conditionals, and what follows the condition of a conditional may continue the condition or start a
statement.  `Settled` is the way in which a reader takes them: an `else` belongs to the last
conditional that has none, and a condition is as long as it can be.  Every statement of the grammar
is settled (`Settled.of_stmt`).

`Settled open w` says with `open` whether an `else` behind `w` would belong to a conditional of `w`.
-/

namespace PocketCompiler

variable {e s t w r : List Terminal} {isOpen isOpen' : Bool}

/-- The word is a statement, taken as a reader takes it. -/
inductive Settled : Bool → List Terminal → Prop
  | ret {e : List Terminal} (he : IsChain e) :
    Settled false (.lexeme "return" :: (e ++ [.lexeme ";"]))
  | loop {head body : List Terminal}
      (hhead : Derives bracedGrammar (.optional .clauses ||| .rule .expr) head)
      (hbody : Derives bracedGrammar .block body) : Settled false (.lexeme "for" :: (head ++ body))
  | block {w : List Terminal} (h : Derives bracedGrammar .block w) : Settled false w
  | empty : Settled false [.lexeme ";"]
  | expr {e : List Terminal} (he : IsChain e) : Settled false (e ++ [.lexeme ";"])
  | ifThen {isOpen : Bool} {e s : List Terminal} (he : IsChain e) (hend : ExprEnds e s)
      (hs : Settled isOpen s) : Settled true (.lexeme "if" :: (e ++ s))
  | ifElse {isOpen : Bool} {e s t : List Terminal} (he : IsChain e) (hend : ExprEnds e s)
      (hs : Settled false s) (ht : Settled isOpen t) :
    Settled isOpen (.lexeme "if" :: (e ++ (s ++ .lexeme "else" :: t)))

/-- What a statement can start with. -/
def stmtStarts : List Terminal :=
  [.lexeme "return", .lexeme "if", .lexeme "for", .lexeme "\x7b", .lexeme ";"] ++ exprStarts

namespace Settled

theorem exists_start (h : Settled isOpen w) : ∃ t v, w = t :: v ∧ t ∈ stmtStarts := by
  cases h with
  | ret | loop | empty | ifThen | ifElse => exact ⟨_, _, rfl, by decide⟩
  | block h =>
    obtain ⟨v, rfl, -⟩ := Derives.text_append_iff.1 h
    exact ⟨_, v, rfl, by decide⟩
  | expr he =>
    obtain ⟨t, v, rfl, ht⟩ := he.exists_start
    exact ⟨t, _, rfl, List.mem_append_right _ ht⟩

theorem head?_append (h : Settled isOpen w) (r : List Terminal) : (w ++ r).head? = w.head? := by
  obtain ⟨t, v, rfl, -⟩ := h.exists_start
  rfl

end Settled

/-- Only the first token behind an expression matters. -/
theorem ExprEnds.congr (h : ExprEnds w s) (hhead : t.head? = s.head?) : ExprEnds w t := by
  unfold ExprEnds OperandEnds at h ⊢
  rwa [hhead]

namespace Settled

/-- **A condition is as long as it can be**: what a statement behind an expression makes longer is
taken from the statement. -/
theorem split (he : IsChain e) (hs : Settled isOpen s) :
    ∃ e' s', e ++ s = e' ++ s' ∧ IsChain e' ∧ ExprEnds e' s' ∧ Settled isOpen s' := by
  by_cases hend : ExprEnds e s
  · exact ⟨e, s, rfl, he, hend, hs⟩
  · have habsurd : ∀ {t v}, s = t :: v → t ∉ .lexeme "(" :: .lexeme "[" :: joiners → False := by
      rintro t v rfl ht
      exact hend (exprEnds_of_head? rfl ht)
    cases hs with
    | ret | loop | empty | ifThen | ifElse => exact (habsurd rfl (by decide)).elim
    | block h =>
      obtain ⟨v, rfl, -⟩ := Derives.text_append_iff.1 h
      exact (habsurd rfl (by decide)).elim
    | @expr e' he' =>
      have hlonger : IsChain (e ++ e') := by
        refine he.append_of_not_exprEnds he' fun hends => hend (hends.congr ?_)
        obtain ⟨t, v, rfl, -⟩ := he'.exists_start
        rfl
      exact ⟨e ++ e', [.lexeme ";"], (List.append_assoc _ _ _).symm, hlonger,
        exprEnds_of_head? rfl (by decide), .empty⟩

/-- **An `else` belongs to the last conditional that has none.** -/
theorem append_else (hs : Settled isOpen s) (hopen : isOpen = true) (ht : Settled isOpen' t) :
    ∃ isOpen, Settled isOpen (s ++ .lexeme "else" :: t) := by
  induction hs with
  | ret | loop | block | empty | expr => exact nomatch hopen
  | @ifThen isOpen e s he hend hs ih =>
    cases isOpen with
    | false => exact ⟨_, by simpa using Settled.ifElse he hend hs ht⟩
    | true =>
      obtain ⟨_, hmore⟩ := ih rfl
      exact ⟨true, by simpa using Settled.ifThen he (hend.congr (hs.head?_append _)) hmore⟩
  | @ifElse isOpen e s s' he hend hs hs' _ ih =>
    obtain ⟨_, hmore⟩ := ih hopen
    exact ⟨_, by simpa using Settled.ifElse he hend hs hmore⟩

/-- A conditional that is taken as a reader takes it. -/
theorem conditional (he : IsChain e) (hs : Settled isOpen s) :
    Settled true (.lexeme "if" :: (e ++ s)) := by
  obtain ⟨e', s', heq, he', hend, hs'⟩ := split he hs
  rw [heq]
  exact .ifThen he' hend hs'

theorem conditional_else (he : IsChain e) (hs : Settled isOpen s) (ht : Settled isOpen' t) :
    ∃ isOpen, Settled isOpen (.lexeme "if" :: (e ++ (s ++ .lexeme "else" :: t))) := by
  obtain ⟨e', s', heq, he', hend, hs'⟩ := split he hs
  rw [← List.append_assoc, heq, List.append_assoc]
  cases isOpen with
  | false => exact ⟨_, .ifElse he' hend hs' ht⟩
  | true =>
    obtain ⟨_, hmore⟩ := hs'.append_else rfl ht
    exact ⟨_, .ifThen he' (hend.congr (hs'.head?_append _)) hmore⟩

end Settled

/-- The ways to write a statement. -/
theorem stmt_cases (h : Derives bracedGrammar (.rule .stmt) w) :
    (∃ e, w = .lexeme "return" :: (e ++ [.lexeme ";"]) ∧ Derives bracedGrammar (.rule .expr) e)
    ∨ (∃ e s, Derives bracedGrammar (.rule .expr) e ∧ Derives bracedGrammar (.rule .stmt) s
      ∧ (w = .lexeme "if" :: (e ++ s) ∨ ∃ t, Derives bracedGrammar (.rule .stmt) t
        ∧ w = .lexeme "if" :: (e ++ (s ++ .lexeme "else" :: t))))
    ∨ (∃ head body, w = .lexeme "for" :: (head ++ body)
      ∧ Derives bracedGrammar (.optional .clauses ||| .rule .expr) head
      ∧ Derives bracedGrammar .block body)
    ∨ Derives bracedGrammar .block w
    ∨ (∃ e, w = e ++ [.lexeme ";"] ∧ Derives bracedGrammar (.rule .expr) e)
    ∨ w = [.lexeme ";"] := by
  -- The alternatives of the rule, the last one first.
  rcases Derives.or_iff.1 (Derives.rule_iff.1 h) with h | hexpr
  rcases Derives.or_iff.1 h with h | hblock
  rcases Derives.or_iff.1 h with h | hloop
  rcases Derives.or_iff.1 h with h | hclauses
  rcases Derives.or_iff.1 h with hret | hif
  · obtain ⟨v, rfl, hv⟩ := Derives.text_append_iff.1 (Derives.assoc_iff.1 hret)
    obtain ⟨e, last, rfl, he, hlast⟩ := Derives.append_iff.1 hv
    rw [Derives.text_iff.1 hlast]
    exact .inl ⟨e, rfl, he⟩
  -- The other branch of a conditional may be missing.
  · obtain ⟨_, rest, rfl, hhead, hrest⟩ := Derives.append_iff.1 hif
    obtain ⟨_, s, rfl, hhead, hs⟩ := Derives.append_iff.1 hhead
    obtain ⟨e, rfl, he⟩ := Derives.text_append_iff.1 hhead
    refine .inr (.inl ⟨e, s, he, hs, ?_⟩)
    rcases Derives.optional_iff.1 hrest with helse | rfl
    · obtain ⟨t, rfl, ht⟩ := Derives.text_append_iff.1 helse
      exact .inr ⟨t, ht, by simp⟩
    · exact .inl (by simp)
  · obtain ⟨_, body, rfl, hhead, hbody⟩ := Derives.append_iff.1 hclauses
    obtain ⟨head, rfl, hinner⟩ := Derives.text_append_iff.1 hhead
    exact .inr (.inr (.inl ⟨head, body, rfl, .left hinner, hbody⟩))
  · obtain ⟨_, body, rfl, hhead, hbody⟩ := Derives.append_iff.1 hloop
    obtain ⟨head, rfl, hinner⟩ := Derives.text_append_iff.1 hhead
    exact .inr (.inr (.inl ⟨head, body, rfl, .right hinner, hbody⟩))
  · exact .inr (.inr (.inr (.inl hblock)))
  · obtain ⟨e, last, rfl, he, hlast⟩ := Derives.append_iff.1 (Derives.rule_iff.1 hexpr)
    rw [Derives.text_iff.1 hlast]
    rcases Derives.optional_iff.1 he with he | rfl
    · exact .inr (.inr (.inr (.inr (.inl ⟨e, rfl, he⟩))))
    · exact .inr (.inr (.inr (.inr (.inr rfl))))

/-- **Every statement is settled.** -/
theorem Settled.of_stmt (h : Derives bracedGrammar (.rule .stmt) w) :
    ∃ isOpen, Settled isOpen w := by
  -- The branches of a conditional are shorter than it, so the induction is on the length.
  have hbelow : ∀ n, ∀ w : List Terminal, w.length < n → Derives bracedGrammar (.rule .stmt) w →
      ∃ isOpen, Settled isOpen w := by
    intro n
    induction n with
    | zero => exact fun w hlength => absurd hlength (Nat.not_lt_zero _)
    | succ n ih =>
      intro w hlength h
      rcases stmt_cases h with ⟨e, rfl, he⟩ | ⟨e, s, he, hs, hif⟩ | ⟨head, body, rfl, hhead, hbody⟩
        | hblock | ⟨e, rfl, he⟩ | rfl
      · exact ⟨_, .ret (isChain_of_expr he)⟩
      · rcases hif with rfl | ⟨t, ht, rfl⟩
        · simp only [List.length_cons, List.length_append] at hlength
          obtain ⟨_, hs⟩ := ih s (by omega) hs
          exact ⟨_, .conditional (isChain_of_expr he) hs⟩
        · simp only [List.length_cons, List.length_append] at hlength
          obtain ⟨_, hs⟩ := ih s (by omega) hs
          obtain ⟨_, ht⟩ := ih t (by omega) ht
          exact conditional_else (isChain_of_expr he) hs ht
      · exact ⟨_, .loop hhead hbody⟩
      · exact ⟨_, .block hblock⟩
      · exact ⟨_, .expr (isChain_of_expr he)⟩
      · exact ⟨_, .empty⟩
  exact hbelow _ w (Nat.lt_succ_self _) h

end PocketCompiler
