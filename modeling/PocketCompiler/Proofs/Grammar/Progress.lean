import PocketCompiler.Grammar.Unit
import PocketCompiler.Proofs.Grammar.Run

/-!
# Readers make progress

Repetitions and nested rules are bounded by the number of tokens that are left, and the bound is
never what ends them.  This module says so: `expr` and `stmt` are the solutions of their own
equations (`run_expr`, `run_stmt`), and so are `collect` and `extend` (`run_collect`,
`run_extend`).  From here on no proof has to look at a bound.

`Alike n moved p q` carries the argument.  On states with fewer than `n` tokens left, `p` and `q` do
the same, and a result `a` comes behind at least `moved a` tokens.  A rule calls for the
expressions inside it only when it has moved past a token, so the rule is alike on `n + 1` tokens
if these are alike on `n`.
-/

namespace PocketCompiler.Parse

variable {α β : Type} {n : Nat}

/-! ### Readers that do the same -/

/-- On states with fewer than `n` tokens `p` and `q` do the same, and a result `a` comes behind at
least `moved a` tokens. -/
def Alike (n : Nat) (moved : α → Nat) (p q : Parse α) : Prop :=
  ∀ s, s.rest.length < n → p.run s = q.run s
    ∧ ∀ a t, p.run s = .ok (a, t) → t.rest.length + moved a ≤ s.rest.length

/-- A result `a` of the reader comes behind at least `moved a` tokens. -/
def Moves (moved : α → Nat) (p : Parse α) : Prop := ∀ n, Alike n moved p p

/-- What is there counts as one token. -/
def found : Option α → Nat
  | none => 0
  | some _ => 1

/-- Readers that are alike are so on fewer tokens, and if less is known of how far they move. -/
theorem Alike.weaken {moved moved' : α → Nat} {p q : Parse α} (h : Alike n moved p q) {m : Nat}
    (hm : m ≤ n) (hmoved : ∀ a, moved' a ≤ moved a) : Alike m moved' p q := by
  intro s hs
  obtain ⟨heq, hlength⟩ := h s (Nat.lt_of_lt_of_le hs hm)
  refine ⟨heq, fun a t hrun => ?_⟩
  have hle := hlength a t hrun
  have hmove := hmoved a
  omega

/-- **Sequence**: the second readers start behind the tokens that the first ones have moved past. -/
theorem Alike.bind {first : α → Nat} {moved : β → Nat} {p q : Parse α} {f g : α → Parse β}
    (h : Alike n first p q)
    (hf : ∀ a, Alike (n - first a) (fun b => moved b - first a) (f a) (g a)) :
    Alike n moved (p >>= f) (q >>= g) := by
  intro s hs
  obtain ⟨heq, hlength⟩ := h s hs
  rw [StateT.run_bind, StateT.run_bind, ← heq]
  cases hrun : p.run s with
  | error failure => exact ⟨rfl, fun b u hu => nomatch hu⟩
  | ok r =>
    obtain ⟨a, t⟩ := r
    have hmoved := hlength a t hrun
    obtain ⟨heq', hlength'⟩ := hf a t (by omega)
    refine ⟨heq', fun b u hu => ?_⟩
    have hmoved' : u.rest.length + (moved b - first a) ≤ t.rest.length := hlength' b u hu
    omega

/-- A reader moves on if every result of it has been read from more tokens than are left. -/
theorem moves_iff {moved : α → Nat} {p : Parse α} :
    Moves moved p
      ↔ ∀ s a t, p.run s = .ok (a, t) → t.rest.length + moved a ≤ s.rest.length :=
  ⟨fun h s => (h (s.rest.length + 1) s (Nat.lt_succ_self _)).2, fun h _ s _ => ⟨rfl, h s⟩⟩

/-! ### Readers of a token -/

theorem moves_pure {moved : α → Nat} {a : α} (h : moved a = 0) : Moves moved (pure a) := by
  refine moves_iff.2 fun s b t hrun => ?_
  obtain ⟨rfl, rfl⟩ := Prod.mk.inj (Except.ok.inj hrun)
  rw [h]
  exact Nat.le_refl _

/-- A reader without a result moves past as many tokens as one likes. -/
theorem moves_complainAt {moved : α → Nat} (loc : Nat) (cause : Complaint) :
    Moves moved (complainAt loc cause : Parse α) :=
  moves_iff.2 fun _ _ _ hrun => nomatch hrun

theorem moves_unexpected {moved : α → Nat} (wanted : Expected) :
    Moves moved (unexpected wanted : Parse α) :=
  moves_iff.2 fun _ _ _ hrun => nomatch hrun

/-- Looking at the state does not move. -/
theorem moves_get : Moves (fun _ => 0) (get : Parse ParseState) := by
  refine moves_iff.2 fun s b t hrun => ?_
  obtain ⟨-, rfl⟩ := Prod.mk.inj (Except.ok.inj hrun)
  exact Nat.le_refl _

theorem moves_here : Moves (fun _ => 0) here := fun _ =>
  (moves_get _).bind fun _ => moves_pure (by rfl) _

theorem moves_check (text : String) : Moves (fun _ => 0) (check text) := fun _ =>
  (moves_get _).bind fun _ => moves_pure (by rfl) _

/-- A change of the tables alone. -/
theorem moves_modify {f : ParseState → ParseState} (h : ∀ s, (f s).rest = s.rest) :
    Moves (fun _ => 0) (modify f : Parse Unit) := by
  refine moves_iff.2 fun s b t hrun => ?_
  obtain ⟨-, rfl⟩ := Prod.mk.inj (Except.ok.inj hrun)
  rw [h s]
  exact Nat.le_refl _

theorem moves_liftM (r : Except Failure α) : Moves (fun _ => 0) (liftM r : Parse α) := by
  refine moves_iff.2 fun s b t hrun => ?_
  cases r with
  | error failure => exact nomatch hrun
  | ok a =>
    obtain ⟨-, rfl⟩ := Prod.mk.inj (Except.ok.inj hrun)
    exact Nat.le_refl _

/-- A text that is there is moved over, and one that is not there is not. -/
theorem moves_accept (text : String) : Moves Bool.toNat (accept text) := by
  refine moves_iff.2 fun s b t hrun => ?_
  cases hsees : s.sees text with
  | false =>
    rw [run_accept_false hsees] at hrun
    obtain ⟨rfl, rfl⟩ := Prod.mk.inj (Except.ok.inj hrun)
    exact Nat.le_refl _
  | true =>
    rw [run_accept_true hsees] at hrun
    obtain ⟨rfl, rfl⟩ := Prod.mk.inj (Except.ok.inj hrun)
    exact Nat.le_of_eq (ParseState.length_advance_of_sees hsees)

theorem moves_expect (text : String) : Moves (fun _ => 1) (expect text) := by
  intro n
  refine (moves_accept text n).bind fun seen => ?_
  cases seen with
  | true => exact moves_pure (by rfl) _
  | false => exact moves_unexpected _ _

/-- An operator that is found is moved over. -/
theorem moves_operator (table : List (String × α)) : Moves found (operator table) := by
  refine moves_iff.2 fun s b t hrun => ?_
  cases hlookup : s.lookup table with
  | none =>
    rw [run_operator_none hlookup] at hrun
    obtain ⟨rfl, rfl⟩ := Prod.mk.inj (Except.ok.inj hrun)
    exact Nat.le_refl _
  | some a =>
    rw [run_operator_some hlookup] at hrun
    obtain ⟨rfl, rfl⟩ := Prod.mk.inj (Except.ok.inj hrun)
    obtain ⟨loc, text, htoken, -⟩ := ParseState.exists_of_lookup hlookup
    exact Nat.le_of_eq (ParseState.length_advance htoken)

/-- Moving past the current token, when there is one. -/
theorem length_of_advance {s t : ParseState} {token : Token} {a b : α} (h : s.current? = some token)
    (hrun : StateT.run (do modify ParseState.advance; return a : Parse α) s = .ok (b, t)) :
    t.rest.length + 1 ≤ s.rest.length := by
  obtain ⟨-, rfl⟩ := Prod.mk.inj (Except.ok.inj hrun)
  exact Nat.le_of_eq (ParseState.length_advance h)

theorem moves_identifier : Moves (fun _ => 1) identifier := by
  refine moves_iff.2 fun s b t hrun => ?_
  unfold identifier at hrun
  rw [run_bind run_get] at hrun
  split at hrun
  · next htoken => exact length_of_advance htoken hrun
  · exact nomatch hrun

theorem moves_number : Moves (fun _ => 1) number := by
  refine moves_iff.2 fun s b t hrun => ?_
  unfold number at hrun
  rw [run_bind run_get] at hrun
  split at hrun
  · next htoken => exact length_of_advance htoken hrun
  · exact nomatch hrun
  · exact nomatch hrun

theorem moves_literal : Moves (fun _ => 1) literal := by
  refine moves_iff.2 fun s b t hrun => ?_
  unfold literal at hrun
  rw [run_bind run_get] at hrun
  split at hrun
  · next htoken => exact length_of_advance htoken hrun
  · exact nomatch hrun

/-! ### Repetition -/

/-- Bounds that are not below the number of tokens make no difference. -/
theorem alike_collectWithin {item item' : Parse (Option α)} :
    ∀ (n bound bound' : Nat), n ≤ bound → n ≤ bound' → Alike n found item item' →
      Alike n (fun _ => 0) (collectWithin item bound) (collectWithin item' bound')
  | 0, _, _, _, _, _ => fun s hs => absurd hs (Nat.not_lt_zero _)
  | n + 1, bound + 1, bound' + 1, hb, hb', h => by
    unfold collectWithin
    refine h.bind fun o => ?_
    cases o with
    | none => exact moves_pure (by rfl) _
    | some a =>
      have hmore := alike_collectWithin n bound bound' (Nat.le_of_succ_le_succ hb)
        (Nat.le_of_succ_le_succ hb') (h.weaken (Nat.le_succ n) fun _ => Nat.le_refl _)
      exact hmore.bind fun more => moves_pure (by rfl) _

/-- The bounds on the rounds may differ, if both are as large as the number of tokens. -/
theorem alike_extendWithin {longer longer' : α → Parse (Option α)} :
    ∀ (n bound bound' : Nat) (a : α), n ≤ bound → n ≤ bound' →
      (∀ a, Alike n found (longer a) (longer' a)) →
        Alike n (fun _ => 0) (extendWithin longer bound a) (extendWithin longer' bound' a)
  | 0, _, _, _, _, _, _ => fun s hs => absurd hs (Nat.not_lt_zero _)
  | n + 1, bound + 1, bound' + 1, a, hb, hb', h => by
    unfold extendWithin
    refine (h a).bind fun o => ?_
    cases o with
    | none => exact moves_pure (by rfl) _
    | some b =>
      exact alike_extendWithin n bound bound' b (Nat.le_of_succ_le_succ hb)
        (Nat.le_of_succ_le_succ hb')
        fun c => (h c).weaken (Nat.le_succ n) fun _ => Nat.le_refl _

/-- A loop can do no more rounds than there are tokens, so loops whose rounds are alike are alike.
-/
theorem alike_collect {item item' : Parse (Option α)} (h : Alike n found item item') :
    Alike n (fun _ => 0) (collect item) (collect item') := by
  intro s hs
  exact alike_collectWithin (s.rest.length + 1) (s.rest.length + 1) (s.rest.length + 1)
    (Nat.le_refl _) (Nat.le_refl _) (h.weaken hs fun _ => Nat.le_refl _) s (Nat.lt_succ_self _)

/-- The same for a loop that makes an expression longer. -/
theorem alike_extend {longer longer' : α → Parse (Option α)}
    (h : ∀ a, Alike n found (longer a) (longer' a)) (a : α) :
    Alike n (fun _ => 0) (extend longer a) (extend longer' a) := by
  intro s hs
  exact alike_extendWithin (s.rest.length + 1) (s.rest.length + 1) (s.rest.length + 1) a
    (Nat.le_refl _) (Nat.le_refl _) (fun b => (h b).weaken hs fun _ => Nat.le_refl _) s
    (Nat.lt_succ_self _)

/-- A list is an item and the list behind it, if there is an item. -/
theorem run_collect {item : Parse (Option α)} (h : Moves found item) (s : ParseState) :
    (collect item).run s
      = (item >>= fun o => match o with
          | none => pure []
          | some a => do return a :: (← collect item)).run s := by
  show (collectWithin item (s.rest.length + 1)).run s = _
  unfold collectWithin
  -- An item takes a token, so one round less is enough for what is left.
  have hstep : Alike (s.rest.length + 1) (fun _ => 0)
      (item >>= fun o => match o with
        | none => pure []
        | some a => do return a :: (← collectWithin item s.rest.length))
      (item >>= fun o => match o with
        | none => pure []
        | some a => do return a :: (← collect item)) := by
    refine (h _).bind fun o => ?_
    cases o with
    | none => exact moves_pure (by rfl) _
    | some a =>
      have hmore : Alike (s.rest.length + 1 - found (some a)) (fun _ => 0)
          (collectWithin item s.rest.length) (collect item) := fun t ht =>
        alike_collectWithin (t.rest.length + 1) s.rest.length (t.rest.length + 1)
          ht (Nat.le_refl _) (h _) t (Nat.lt_succ_self _)
      exact hmore.bind fun _ => moves_pure (by rfl) _
  exact (hstep s (Nat.lt_succ_self _)).1

/-- What cannot be made longer is the result, and what can be is made longer once and then again. -/
theorem run_extend {longer : α → Parse (Option α)} (h : ∀ a, Moves found (longer a)) (a : α)
    (s : ParseState) :
    (extend longer a).run s
      = (longer a >>= fun o => match o with
          | none => pure a
          | some b => extend longer b).run s := by
  show (extendWithin longer (s.rest.length + 1) a).run s = _
  unfold extendWithin
  -- As for `run_collect`: each round takes a token.
  have hstep : Alike (s.rest.length + 1) (fun _ => 0)
      (longer a >>= fun o => match o with
        | none => pure a
        | some b => extendWithin longer s.rest.length b)
      (longer a >>= fun o => match o with
        | none => pure a
        | some b => extend longer b) := by
    refine (h a _).bind fun o => ?_
    cases o with
    | none => exact moves_pure (by rfl) _
    | some b =>
      intro t ht
      exact alike_extendWithin (t.rest.length + 1) s.rest.length (t.rest.length + 1) b ht
        (Nat.le_refl _) (fun c => h c _) t (Nat.lt_succ_self _)
  exact (hstep s (Nat.lt_succ_self _)).1

/-! ### Expressions -/

theorem moves_typed (node : Node) : Moves (fun _ => 0) (typed node) := fun _ =>
  (moves_get _).bind fun _ => moves_liftM _ _

theorem moves_combined (combine : Node → Node → Nat → Except Failure Node) (lhs rhs : Node)
    (loc : Nat) : Moves (fun _ => 0) (combined combine lhs rhs loc) := fun _ =>
  (moves_typed lhs _).bind fun _ => (moves_typed rhs _).bind fun _ => moves_liftM _ _

section Rules

variable {p q : Parse Node}

/-- Arguments are alike if expressions are. -/
theorem alike_arguments (h : Alike n (fun _ => 1) p q) :
    ∀ room, Alike n (fun _ => 0) (arguments p room) (arguments q room)
  | 0 => (moves_here _).bind fun _ => moves_complainAt _ _ _
  | room + 1 => by
    unfold arguments
    refine (h.weaken (Nat.le_refl n) fun _ => Nat.zero_le 1).bind fun argument => ?_
    refine (moves_accept ")" _).bind fun closed => ?_
    cases closed with
    | true => exact moves_pure (by rfl) _
    | false =>
      refine ((moves_expect "," _).weaken (Nat.le_refl _) fun _ => Nat.zero_le 1).bind fun _ => ?_
      exact (alike_arguments h room).bind fun more => moves_pure (by rfl) _

theorem alike_call (h : Alike n (fun _ => 1) p q) (name : String) (loc : Nat) :
    Alike n (fun _ => 0) (call p name loc) (call q name loc) := by
  unfold call
  split
  · exact moves_complainAt _ _ _
  · refine (moves_accept ")" _).bind fun closed => ?_
    cases closed with
    | true => exact moves_pure (by rfl) _
    | false => exact (alike_arguments h maxArguments).bind fun args => moves_pure (by rfl) _

theorem moves_useOf (name : String) (loc : Nat) : Moves (fun _ => 0) (useOf name loc) := by
  intro n
  refine (moves_get n).bind fun s => ?_
  split
  · exact moves_pure (by rfl) _
  · exact moves_complainAt _ _ _

theorem moves_addLiteral (bytes : List UInt8) (ty : Ty) :
    Moves (fun _ => 0) (addLiteral bytes ty) := by
  have hmodify : Moves (fun _ => 0) (modify (·.addLiteral bytes ty) : Parse Unit) :=
    moves_modify fun _ => rfl
  exact fun _ => (moves_get _).bind fun _ => (hmodify _).bind fun _ => moves_pure (by rfl) _

/-- An expression in parentheses is read behind one token at least, so it may be one token longer.
-/
theorem alike_primary (h : Alike n (fun _ => 1) p q) :
    Alike (n + 1) (fun _ => 1) (primary p) (primary q) := by
  unfold primary
  refine (moves_here _).bind fun start => (moves_accept "(" _).bind fun opened => ?_
  cases opened with
  | true =>
    refine (h.weaken (Nat.le_refl n) fun _ => Nat.zero_le 1).bind fun node => ?_
    exact ((moves_expect ")" _).weaken (Nat.le_refl _) fun _ => Nat.zero_le 1).bind
      fun _ => moves_pure (by rfl) _
  | false =>
    refine (moves_get _).bind fun s => ?_
    split
    · refine (moves_identifier _).bind fun named => (moves_accept "(" _).bind fun called => ?_
      cases called with
      | true => exact (alike_call h _ _).weaken (Nat.sub_le _ _) fun _ => Nat.le_refl _
      | false => exact moves_useOf _ _ _
    · refine (moves_literal _).bind fun read => ?_
      exact (moves_addLiteral _ _ _).bind fun _ => moves_pure (by rfl) _
    · exact (moves_number _).bind fun read => moves_pure (by rfl) _
    · exact moves_unexpected _ _

/-- A subscript is read behind its bracket. -/
theorem alike_subscript (h : Alike n (fun _ => 1) p q) (node : Node) :
    Alike (n + 1) found (subscript? p node) (subscript? q node) := by
  unfold subscript?
  refine (moves_here _).bind fun loc => (moves_accept "[" _).bind fun opened => ?_
  cases opened with
  | true =>
    refine (h.weaken (Nat.le_refl n) fun _ => Nat.zero_le 1).bind fun index => ?_
    refine ((moves_expect "]" _).weaken (Nat.le_refl _) fun _ => Nat.zero_le 1).bind fun _ => ?_
    refine (moves_combined _ _ _ _ _).bind fun place => ?_
    exact moves_pure (by rfl) _
  | false => exact moves_pure (by rfl) _

/-- Subscripts follow a primary expression, which has moved on. -/
theorem alike_postfixed (h : Alike n (fun _ => 1) p q) :
    Alike (n + 1) (fun _ => 1) (postfixed p) (postfixed q) := by
  unfold postfixed
  exact (alike_primary h).bind fun node =>
    (alike_extend (fun a => alike_subscript h a) node).weaken (Nat.sub_le _ _) fun _ => Nat.le_refl _

theorem moves_sign : Moves found sign? := by
  intro n
  unfold sign?
  refine (moves_here _).bind fun loc => (moves_accept "+" _).bind fun plus => ?_
  cases plus with
  | true => exact moves_pure (by rfl) _
  | false =>
    refine (moves_accept "-" _).bind fun minus => ?_
    cases minus with
    | true => exact moves_pure (by rfl) _
    | false =>
      refine (moves_accept "&" _).bind fun address => ?_
      cases address with
      | true => exact moves_pure (by rfl) _
      | false =>
        refine (moves_accept "*" _).bind fun pointee => ?_
        cases pointee with
        | true => exact moves_pure (by rfl) _
        | false => exact moves_pure (by rfl) _

/-- The operators in front of an operand move on as well. -/
theorem alike_unary (h : Alike n (fun _ => 1) p q) :
    Alike (n + 1) (fun _ => 1) (unary p) (unary q) := by
  unfold unary
  refine (alike_collect (moves_sign _)).bind fun signs => ?_
  exact (alike_postfixed h).bind fun operand => moves_pure (by rfl) _

/-- Reads an operator of a table and the operand behind it, if there is one. -/
def further (table : List (String × (Node → Node → Nat → Node))) (operand : Parse Node)
    (lhs : Node) : Parse (Option Node) := do
  let loc ← here
  match ← operator table with
  | some combine =>
    let rhs ← operand
    return some (combine lhs rhs loc)
  | none => return none

/-- A chain is its first operand and a loop that adds the others. -/
theorem chain_eq (table : List (String × (Node → Node → Nat → Node))) (operand : Parse Node) :
    chain table operand = operand >>= extend (further table operand) := rfl

/-- Every further operand stands behind an operator. -/
theorem alike_further (h : Alike n (fun _ => 1) p q)
    (table : List (String × (Node → Node → Nat → Node))) (lhs : Node) :
    Alike n found (further table p lhs) (further table q lhs) := by
  refine (moves_here n).bind fun loc => (moves_operator table n).bind fun o => ?_
  cases o with
  | none => exact moves_pure (by rfl) _
  | some combine =>
    exact (h.weaken (Nat.sub_le _ _) fun _ => Nat.zero_le 1).bind fun rhs => moves_pure (by rfl) _

/-- Chains of operands that are alike are alike. -/
theorem alike_chain (h : Alike (n + 1) (fun _ => 1) p q)
    (table : List (String × (Node → Node → Nat → Node))) :
    Alike (n + 1) (fun _ => 1) (chain table p) (chain table q) := by
  rw [chain_eq, chain_eq]
  exact h.bind fun first => (alike_extend (fun lhs => alike_further h table lhs) first).weaken
    (Nat.sub_le _ _) fun _ => Nat.le_refl _

theorem alike_product (h : Alike n (fun _ => 1) p q) :
    Alike (n + 1) (fun _ => 1) (product p) (product q) :=
  alike_chain (alike_unary h) _

/-- A term stands behind its sign. -/
theorem alike_term (h : Alike n (fun _ => 1) p q) (lhs : Node) :
    Alike (n + 1) found (term? p lhs) (term? q lhs) := by
  have hrhs : ∀ combine loc, Alike n (fun o => found o - 1)
      (do return some (← combined combine lhs (← product p) loc) : Parse (Option Node))
      (do return some (← combined combine lhs (← product q) loc)) := by
    intro combine loc
    refine ((alike_product h).weaken (Nat.le_succ n) fun _ => Nat.zero_le 1).bind fun rhs => ?_
    exact (moves_combined _ _ _ _ _).bind fun node => moves_pure (by rfl) _
  unfold term?
  refine (moves_here _).bind fun loc => (moves_accept "+" _).bind fun plus => ?_
  cases plus with
  | true => exact hrhs Node.sum loc
  | false =>
    refine (moves_accept "-" _).bind fun minus => ?_
    cases minus with
    | true => exact hrhs Node.difference loc
    | false => exact moves_pure (by rfl) _

theorem alike_terms (h : Alike n (fun _ => 1) p q) :
    Alike (n + 1) (fun _ => 1) (terms p) (terms q) := by
  unfold terms
  exact (alike_product h).bind fun first =>
    (alike_extend (fun a => alike_term h a) first).weaken (Nat.sub_le _ _) fun _ => Nat.le_refl _

theorem alike_relational (h : Alike n (fun _ => 1) p q) :
    Alike (n + 1) (fun _ => 1) (relational p) (relational q) :=
  alike_chain (alike_terms h) _

theorem alike_equality (h : Alike n (fun _ => 1) p q) :
    Alike (n + 1) (fun _ => 1) (equality p) (equality q) :=
  alike_chain (alike_relational h) _

/-- The value of an assignment stands behind its target, which has moved on. -/
theorem alike_assignment (h : Alike n (fun _ => 1) p q) :
    Alike (n + 1) (fun _ => 1) (assignment p) (assignment q) := by
  unfold assignment
  refine (alike_equality h).bind fun node => (moves_here _).bind fun loc => ?_
  refine (moves_accept "=" _).bind fun assigned => ?_
  cases assigned with
  | true =>
    refine (h.weaken ?_ fun _ => Nat.zero_le 1).bind fun value => moves_pure (by rfl) _
    exact Nat.sub_le _ _
  | false => exact moves_pure (by rfl) _

end Rules

/-- Depths that are not below the number of tokens make no difference. -/
theorem alike_exprWithin : ∀ n depth depth', n ≤ depth → n ≤ depth' →
    Alike n (fun _ => 1) (exprWithin depth) (exprWithin depth')
  | 0, _, _, _, _ => fun _ hs => absurd hs (Nat.not_lt_zero _)
  | n + 1, depth + 1, depth' + 1, h, h' =>
    alike_assignment (alike_exprWithin n depth depth' (Nat.le_of_succ_le_succ h)
      (Nat.le_of_succ_le_succ h'))

/-- **The depth to which expressions are read does not matter**, as long as there are no more tokens
than that. -/
theorem alike_expr (n : Nat) : Alike n (fun _ => 1) expr (exprWithin n) := by
  intro s hs
  unfold expr
  rw [run_bind run_remaining]
  exact alike_exprWithin (s.rest.length + 1) _ _ (Nat.le_refl _) hs s (Nat.lt_succ_self _)

/-- **An expression is an assignment of expressions.** -/
theorem run_expr (s : ParseState) : expr.run s = (assignment expr).run s := by
  have hinner := alike_assignment (alike_expr s.rest.length)
  rw [(hinner s (Nat.lt_succ_self _)).1]
  unfold expr
  rw [run_bind run_remaining]
  rfl

/-- There are no empty expressions. -/
theorem moves_expr : Moves (fun _ => 1) expr := fun n s hs =>
  ⟨rfl, (alike_expr n s hs).2⟩

/-! ### Declared types and names -/

theorem moves_stars : Moves (fun _ => 0) stars := by
  intro n
  refine (alike_collect (n := n) ?_).bind fun _ => moves_pure (by rfl) _
  refine (moves_accept "*" n).bind fun seen => ?_
  cases seen with
  | true => exact moves_pure (by rfl) _
  | false => exact moves_pure (by rfl) _

theorem moves_dimension : Moves found dimension? := by
  intro n
  refine (moves_accept "[" n).bind fun opened => ?_
  cases opened with
  | false => exact moves_pure (by rfl) _
  | true =>
    refine ((moves_number _).weaken (Nat.le_refl _) fun _ => Nat.zero_le 1).bind fun read => ?_
    exact ((moves_expect "]" _).weaken (Nat.le_refl _) fun _ => Nat.zero_le 1).bind
      fun _ => moves_pure (by rfl) _

theorem moves_simpleType : Moves (fun _ => 1) simpleType := by
  intro n
  refine (moves_accept "int" n).bind fun isInt => ?_
  cases isInt with
  | true => exact moves_pure (by rfl) _
  | false =>
    refine (moves_accept "char" _).bind fun isChar => ?_
    cases isChar with
    | true => exact moves_pure (by rfl) _
    | false => exact moves_unexpected _ _

theorem moves_arrayTypes (elem : Ty) : ∀ dimensions, Moves (fun _ => 0) (arrayTypes elem dimensions)
  | [] => moves_pure rfl
  | (len, loc) :: inner => by
    intro n
    refine (moves_arrayTypes elem inner n).bind fun ty => ?_
    unfold arrayType
    simp only
    split
    · exact moves_liftM _ _
    · exact moves_complainAt _ _ _

/-- There are no empty types. -/
theorem moves_type : Moves (fun _ => 1) type := by
  intro n
  refine (alike_collect (moves_dimension n)).bind fun dimensions => ?_
  refine (moves_stars _).bind fun depth => (moves_simpleType _).bind fun base => ?_
  exact moves_arrayTypes _ _ _

/-- A list with commas has a first item. -/
theorem moves_separated {item : Parse α} (h : Moves (fun _ => 1) item) :
    Moves (fun _ => 1) (separated item) := by
  intro n
  refine (h n).bind fun first => ?_
  refine (alike_collect ?_).bind fun more => moves_pure (by rfl) _
  refine (moves_accept "," _).bind fun seen => ?_
  cases seen with
  | false => exact moves_pure (by rfl) _
  | true =>
    exact ((h _).weaken (Nat.le_refl _) fun _ => Nat.zero_le 1).bind fun _ => moves_pure (by rfl) _

theorem moves_declaredName : Moves (fun _ => 1) declaredName := fun _ =>
  (moves_stars _).bind fun _ => (moves_identifier _).bind fun _ => moves_pure (by rfl) _

theorem moves_declaredNames : Moves (fun _ => 1) declaredNames := moves_separated moves_declaredName

/-! ### Statements -/

theorem moves_initializers (count : Nat) : Moves (fun _ => 0) (initializers count) := by
  intro n
  refine (moves_accept "=" n).bind fun given => ?_
  cases given with
  | true =>
    refine (moves_here _).bind fun loc => ?_
    refine ((moves_separated moves_expr _).weaken (Nat.le_refl _) fun _ => Nat.zero_le 1).bind
      fun values => ?_
    split
    · exact ((moves_expect ";" _).weaken (Nat.le_refl _) fun _ => Nat.zero_le 1).bind
        fun _ => moves_pure (by rfl) _
    · exact moves_complainAt _ _ _
  | false =>
    exact ((moves_expect ";" _).weaken (Nat.le_refl _) fun _ => Nat.zero_le 1).bind
      fun _ => moves_pure (by rfl) _

theorem moves_addLocal (name : String) (ty : Ty) : Moves (fun _ => 0) (addLocal name ty) := by
  have hmodify : Moves (fun _ => 0) (modify (·.addLocal { name, ty }) : Parse Unit) :=
    moves_modify fun _ => rfl
  exact fun _ => (moves_get _).bind fun _ => (hmodify _).bind fun _ => moves_pure (by rfl) _

theorem moves_declareLocals (ty : Ty) : ∀ names values,
    Moves (fun _ => 0) (declareLocals ty names values)
  | [], _ => by
    unfold declareLocals
    exact moves_pure rfl
  | declared :: names, values => by
    intro n
    unfold declareLocals
    refine (moves_addLocal _ _ n).bind fun index => ?_
    refine (moves_declareLocals ty names values.tail _).bind fun more => ?_
    split
    · exact moves_pure (by rfl) _
    · exact moves_pure (by rfl) _

/-- A declaration has a name at least. -/
theorem moves_declaration (loc : Nat) : Moves (fun _ => 1) (declaration loc) := fun _ =>
  (moves_declaredNames _).bind fun _ =>
    ((moves_type _).weaken (Nat.le_refl _) fun _ => Nat.zero_le 1).bind fun _ =>
      (moves_initializers _ _).bind fun _ =>
        (moves_declareLocals _ _ _ _).bind fun _ => moves_pure (by rfl) _

section Rules

variable {p q : Parse Node}

/-- Opening and closing a scope does not move. -/
theorem alike_inScope {inner inner' : Parse α} (h : Alike n (fun _ => 0) inner inner') :
    Alike n (fun _ => 0) (inScope inner) (inScope inner') := by
  have henter : Moves (fun _ => 0) (modify ParseState.enterScope : Parse Unit) :=
    moves_modify fun _ => rfl
  have hleave : Moves (fun _ => 0) (modify ParseState.leaveScope : Parse Unit) :=
    moves_modify fun _ => rfl
  exact (henter n).bind fun _ => h.bind fun _ => (hleave _).bind fun _ => moves_pure (by rfl) _

/-- An item that is read has moved on. -/
theorem alike_item (h : Alike n (fun _ => 1) p q) : Alike n found (item? p) (item? q) := by
  have htyped : ∀ node : Node, Moves (fun o => found o - 1) (do return some (← typed node)) :=
    fun node _ => (moves_typed node _).bind fun _ => moves_pure (by rfl) _
  unfold item?
  refine (moves_accept "\x7d" n).bind fun closed => ?_
  cases closed with
  | true => exact moves_pure (by rfl) _
  | false =>
    refine (moves_here _).bind fun loc => (moves_accept "var" _).bind fun declares => ?_
    cases declares with
    | true =>
      refine ((moves_declaration loc _).weaken (Nat.le_refl _) fun _ => Nat.zero_le 1).bind
        fun node => ?_
      exact htyped node _
    | false => exact h.bind fun node => htyped node _

/-- Blocks are alike if the statements in them are. -/
theorem alike_block (h : Alike n (fun _ => 1) p q) (loc : Nat) :
    Alike n (fun _ => 0) (block p loc) (block q loc) :=
  (alike_inScope (alike_collect (alike_item h))).bind fun _ => moves_pure (by rfl) _

/-- In front of the text there may be no expression. -/
theorem moves_exprUnless (text : String) : Moves (fun _ => 0) (exprUnless text) := by
  intro n
  refine (moves_check text n).bind fun seen => ?_
  cases seen with
  | true => exact moves_pure (by rfl) _
  | false =>
    exact ((moves_expr _).weaken (Nat.le_refl _) fun _ => Nat.zero_le 1).bind
      fun _ => moves_pure (by rfl) _

theorem moves_loopHead : Moves (fun _ => 0) loopHead := by
  intro n
  refine (moves_check "\x7b" n).bind fun bare => ?_
  cases bare with
  | true => exact moves_pure (by rfl) _
  | false =>
    refine (moves_exprUnless ";" _).bind fun first => (moves_accept ";" _).bind fun three => ?_
    cases three with
    | false => exact moves_pure (by rfl) _
    | true =>
      refine (moves_exprUnless ";" _).bind fun cond => ?_
      refine ((moves_expect ";" _).weaken (Nat.le_refl _) fun _ => Nat.zero_le 1).bind fun _ => ?_
      exact (moves_exprUnless "\x7b" _).bind fun step => moves_pure (by rfl) _

/-- Even an empty statement has a semicolon. -/
theorem moves_exprStatement : Moves (fun _ => 1) exprStatement := by
  intro n
  refine (moves_here n).bind fun loc => (moves_accept ";" _).bind fun empty => ?_
  cases empty with
  | true => exact moves_pure (by rfl) _
  | false =>
    refine (moves_expr _).bind fun value => ?_
    exact ((moves_expect ";" _).weaken (Nat.le_refl _) fun _ => Nat.zero_le 1).bind
      fun _ => moves_pure (by rfl) _

/-- A statement inside a statement stands behind the keyword or the brace. -/
theorem alike_statement (h : Alike n (fun _ => 1) p q) :
    Alike (n + 1) (fun _ => 1) (statement p) (statement q) := by
  -- Every statement reads a token, but behind a keyword that is more than has to be known.
  have hinner : Alike n (fun _ => 0) p q := h.weaken (Nat.le_refl n) fun _ => Nat.zero_le 1
  unfold statement
  refine (moves_here _).bind fun loc => (moves_accept "return" _).bind fun isReturn => ?_
  cases isReturn with
  | true =>
    refine ((moves_expr _).weaken (Nat.le_refl _) fun _ => Nat.zero_le 1).bind fun value => ?_
    exact ((moves_expect ";" _).weaken (Nat.le_refl _) fun _ => Nat.zero_le 1).bind
      fun _ => moves_pure (by rfl) _
  | false =>
  refine (moves_accept "if" _).bind fun isIf => ?_
  cases isIf with
  | true =>
    refine ((moves_expr n).weaken (Nat.le_refl _) fun _ => Nat.zero_le 1).bind fun cond => ?_
    refine hinner.bind fun onTrue => (moves_accept "else" _).bind fun isElse => ?_
    cases isElse with
    | true =>
      exact (hinner.weaken (Nat.sub_le _ _) fun _ => Nat.zero_le 0).bind
        fun onFalse => moves_pure (by rfl) _
    | false => exact moves_pure (by rfl) _
  | false =>
  refine (moves_accept "for" _).bind fun isFor => ?_
  cases isFor with
  | true => exact (moves_loopHead n).bind fun head => hinner.bind fun body => moves_pure (by rfl) _
  | false =>
  refine (moves_accept "\x7b" _).bind fun isBlock => ?_
  cases isBlock with
  | true => exact alike_block h loc
  | false => exact moves_exprStatement _

end Rules

/-- Statements are read alike to every depth that is as large as the number of tokens. -/
theorem alike_stmtWithin : ∀ n depth depth', n ≤ depth → n ≤ depth' →
    Alike n (fun _ => 1) (stmtWithin depth) (stmtWithin depth')
  | 0, _, _, _, _ => fun _ hs => absurd hs (Nat.not_lt_zero _)
  | n + 1, depth + 1, depth' + 1, h, h' =>
    alike_statement (alike_stmtWithin n depth depth' (Nat.le_of_succ_le_succ h)
      (Nat.le_of_succ_le_succ h'))

/-- **The depth to which statements are read does not matter**, as long as there are no more tokens
than that. -/
theorem alike_stmt (n : Nat) : Alike n (fun _ => 1) stmt (stmtWithin n) := by
  intro s hs
  unfold stmt
  rw [run_bind run_remaining]
  exact alike_stmtWithin (s.rest.length + 1) _ _ (Nat.le_refl _) hs s (Nat.lt_succ_self _)

/-- **A statement is a statement of statements.** -/
theorem run_stmt (s : ParseState) : stmt.run s = (statement stmt).run s := by
  have hinner := alike_statement (alike_stmt s.rest.length)
  rw [(hinner s (Nat.lt_succ_self _)).1]
  unfold stmt
  rw [run_bind run_remaining]
  rfl

theorem moves_stmt : Moves (fun _ => 1) stmt := fun n s hs =>
  ⟨rfl, (alike_stmt n s hs).2⟩

end PocketCompiler.Parse
