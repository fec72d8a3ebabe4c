import PocketCompiler.Proofs.Grammar.Run

/-!
# A reference resolver

Which declaration a name means can be told from the tokens alone.  `Resolver` reads tokens one by one
and knows nothing of the grammar but how declarations and blocks look:

* behind `func` and up to the closing parenthesis stand the names of parameters,
* behind `var` and up to its type stand the names that are declared, and they become visible behind
  the semicolon,
* braces open and close blocks, and the block of the parameters closes with that of the body.

What has been declared in a block that is still open is kept with the depth of its block, the newest
first, so the first declaration of a name that is found is the one that the name means.  It is one
of the innermost block that declares the name (`exists_innermost_of_find?`).

A name is used where an expression can stand, unless an opening parenthesis comes behind it
(`UseIn`).
-/

namespace PocketCompiler

/-- What the resolver is reading. -/
inductive Resolver.Phase where
  /-- Statements, or what stands between declarations. -/
  | plain
  /-- A function in front of its parameters. -/
  | heading
  /-- Parameters. -/
  | params
  /-- The names and the type of a declaration. -/
  | naming
  /-- The initial values of a declaration. -/
  | valuing
deriving DecidableEq, Repr

/-- A declaration in a block that is open. -/
structure Declaration where
  name : String
  ref : VarRef
  /-- The number of blocks around the declaration.  Globals are in none. -/
  depth : Nat
deriving DecidableEq, Repr

/-- What the resolver knows. -/
structure Resolver where
  phase : Resolver.Phase := .plain
  /-- The number of blocks that are open. -/
  depth : Nat := 0
  /-- The declarations of the blocks that are open, the newest first. -/
  declared : List Declaration := []
  /-- The names of the declaration at hand, which are not visible yet. -/
  pending : List String := []
  /-- The number of locals of the function at hand. -/
  locals : Nat := 0
  /-- The number of globals, string literals included. -/
  globals : Nat := 0
  /-- The number of functions that are complete. -/
  functions : Nat := 0
deriving Repr

namespace Resolver

/-- Makes a name visible in the innermost block. -/
def declare (r : Resolver) (name : String) : Resolver :=
  if r.depth = 0 then
    { r with declared := ⟨name, .globalVar r.globals, 0⟩ :: r.declared, globals := r.globals + 1 }
  else
    { r with declared := ⟨name, .localVar r.locals, r.depth⟩ :: r.declared, locals := r.locals + 1 }

/-- Makes the names of the declaration at hand visible. -/
def complete (r : Resolver) (phase : Phase) : Resolver :=
  { r.pending.foldl declare r with phase, pending := [] }

/-- Closes the innermost block. -/
def leave (r : Resolver) : Resolver :=
  { r with depth := r.depth - 1, declared := r.declared.filter (·.depth < r.depth) }

/-- Closes the block of the parameters, and with it the function. -/
def finish (r : Resolver) : Resolver :=
  { r.leave with locals := 0, functions := r.functions + 1 }

/-- Goes on at a closing brace.  The body of a function is the second block. -/
def close (r : Resolver) : Resolver := if r.depth = 2 then r.leave.finish else r.leave

/-- An expression can stand here. -/
def Reading (r : Resolver) : Prop := r.phase = .plain ∨ r.phase = .valuing

instance (r : Resolver) : Decidable r.Reading := inferInstanceAs (Decidable (_ ∨ _))

/-- Goes on behind a punctuator or keyword. -/
def stepText (r : Resolver) (text : String) : Resolver :=
  match r.phase with
  | .plain =>
    if text = "func" then { r with phase := .heading, depth := r.depth + 1, locals := 0 }
    else if text = "var" then { r with phase := .naming, pending := [] }
    else if text = "\x7b" then { r with depth := r.depth + 1 }
    else if text = "\x7d" then r.close
    else r
  | .heading => if text = "(" then { r with phase := .params } else r
  | .params =>
    if text = "," then r.complete .params
    else if text = ")" then r.complete .plain
    else r
  | .naming =>
    if text = "=" then { r with phase := .valuing }
    else if text = ";" then r.complete .plain
    else r
  | .valuing => if text = ";" then r.complete .plain else r

/-- Goes on behind an identifier. -/
def stepName (r : Resolver) (name : String) : Resolver :=
  match r.phase with
  | .params | .naming => { r with pending := r.pending ++ [name] }
  | _ => r

/-- Goes on behind a token. -/
def step (r : Resolver) (token : Token) : Resolver :=
  match token.kind with
  | .punctuator | .keyword => r.stepText token.text
  | .identifier => r.stepName token.text
  | .string _ _ => if r.Reading then { r with globals := r.globals + 1 } else r
  | .number _ | .eof => r

/-- What the resolver knows behind some tokens. -/
def after (tokens : List Token) : Resolver := tokens.foldl step {}

/-- The declaration that a name means. -/
def find? (r : Resolver) (name : String) : Option VarRef :=
  (r.declared.find? (·.name == name)).map (·.ref)

/-- The number of the function that is being read, if it is one. -/
def place (r : Resolver) : Option Nat := if r.depth = 0 then none else some r.functions

end Resolver

/-- The token between `before` and `after` is the use of a name. -/
structure UseIn (tokens before : List Token) (token : Token) (after : List Token) : Prop where
  split : tokens = before ++ token :: after
  kind : token.kind = .identifier
  reading : (Resolver.after before).Reading
  notCall : after.head?.any (·.reads "(") = false

/-! ### What tokens do -/

theorem Token.kind_ne_identifier_of_reads {token : Token} {text : String}
    (h : token.reads text = true) : token.kind ≠ .identifier := by
  intro hkind
  rw [reads, hkind] at h
  exact nomatch h

namespace Resolver

variable {r : Resolver} {token : Token}

@[simp] theorem after_nil : after [] = {} := rfl

theorem after_concat (tokens : List Token) (token : Token) :
    after (tokens ++ [token]) = (after tokens).step token := by
  rw [after, after, List.foldl_append]
  rfl

theorem step_of_reads {text : String} (h : token.reads text = true) :
    r.step token = r.stepText text := by
  unfold Token.reads at h
  unfold step
  split at h
  · next hkind => rw [hkind, eq_of_beq h]
  · next hkind => rw [hkind, eq_of_beq h]
  · exact nomatch h

/-- What stands in a statement is of no interest to the resolver, declarations and blocks apart. -/
theorem stepText_of_plain (hr : r.phase = .plain) {text : String}
    (htext : text ∉ ["func", "var", "\x7b", "\x7d"]) : r.stepText text = r := by
  simp only [List.mem_cons, List.not_mem_nil, or_false, not_or] at htext
  obtain ⟨hfunc, hvar, hopen, hclose⟩ := htext
  simp only [stepText, hr, hfunc, hvar, hopen, hclose, if_false]

/-- What stands in an expression is of no interest to the resolver. -/
theorem stepText_of_reading (hr : r.Reading) {text : String}
    (htext : text ∉ ["func", "var", "\x7b", "\x7d", ";"]) : r.stepText text = r := by
  rcases hr with hr | hr
  · exact stepText_of_plain hr fun h => htext (List.mem_append_left [";"] h)
  · have hsemi : text ≠ ";" := fun h => htext (by rw [h]; decide)
    simp only [stepText, hr, hsemi, if_false]

theorem stepText_open (hr : r.phase = .plain) :
    r.stepText "\x7b" = { r with depth := r.depth + 1 } := by
  cases r with
  | mk phase =>
    obtain rfl : phase = .plain := hr
    rfl

/-- What stands in a type is of no interest to the resolver. -/
theorem stepText_of_type {text : String} (htext : text ∈ ["[", "]", "*", "int", "char"]) :
    r.stepText text = r := by
  simp only [List.mem_cons, List.not_mem_nil, or_false] at htext
  unfold stepText
  rcases htext with rfl | rfl | rfl | rfl | rfl <;> cases r.phase <;> rfl

/-! ### Functions come in order -/

/-- Declaring names neither opens nor closes anything. -/
theorem foldl_declare_keeps (names : List String) (r : Resolver) :
    (names.foldl declare r).depth = r.depth ∧ (names.foldl declare r).functions = r.functions := by
  have hdeclare : ∀ (r : Resolver) name,
      (r.declare name).depth = r.depth ∧ (r.declare name).functions = r.functions := by
    intro r name
    unfold declare
    split <;> exact ⟨rfl, rfl⟩
  induction names generalizing r with
  | nil => exact ⟨rfl, rfl⟩
  | cons name names ih =>
    exact ⟨(ih _).1.trans (hdeclare r name).1, (ih _).2.trans (hdeclare r name).2⟩

theorem depth_complete (r : Resolver) (phase : Phase) : (r.complete phase).depth = r.depth :=
  (foldl_declare_keeps r.pending r).1

theorem functions_complete (r : Resolver) (phase : Phase) :
    (r.complete phase).functions = r.functions :=
  (foldl_declare_keeps r.pending r).2

/-- What the resolver does at a token: it goes on reading, opens a block, completes a declaration or
closes a block. -/
theorem step_cases (r : Resolver) (token : Token) :
    (∃ phase pending globals, r.step token = { r with phase, pending, globals })
      ∨ (∃ phase locals, r.step token = { r with phase, depth := r.depth + 1, locals })
      ∨ (∃ phase, r.step token = r.complete phase) ∨ r.step token = r.close := by
  -- Keywords and punctuators are told apart by their texts.
  have htext : ∀ text, (∃ phase pending globals, r.stepText text = { r with phase, pending, globals })
      ∨ (∃ phase locals, r.stepText text = { r with phase, depth := r.depth + 1, locals })
      ∨ (∃ phase, r.stepText text = r.complete phase) ∨ r.stepText text = r.close := by
    intro text
    unfold stepText
    repeat' split
    all_goals first
      | exact .inl ⟨_, _, _, rfl⟩
      | exact .inr (.inl ⟨_, _, rfl⟩)
      | exact .inr (.inr (.inl ⟨_, rfl⟩))
      | exact .inr (.inr (.inr rfl))
  unfold step
  split
  · exact htext _
  · exact htext _
  · unfold stepName
    split <;> exact .inl ⟨_, _, _, rfl⟩
  · split <;> exact .inl ⟨_, _, _, rfl⟩
  · exact .inl ⟨_, _, _, rfl⟩
  · exact .inl ⟨_, _, _, rfl⟩

/-- The number of functions does not go down. -/
theorem functions_le_step (r : Resolver) (token : Token) :
    r.functions ≤ (r.step token).functions := by
  rcases r.step_cases token with ⟨_, _, _, h⟩ | ⟨_, _, h⟩ | ⟨phase, h⟩ | h
  · exact Nat.le_of_eq (by rw [h])
  · exact Nat.le_of_eq (by rw [h])
  · exact Nat.le_of_eq (by rw [h, functions_complete])
  · rw [h, close]
    split
    · exact Nat.le_succ _
    · exact Nat.le_refl _

theorem functions_le_foldl (tokens : List Token) (r : Resolver) :
    r.functions ≤ (tokens.foldl step r).functions := by
  induction tokens generalizing r with
  | nil => exact Nat.le_refl _
  | cons token tokens ih => exact Nat.le_trans (functions_le_step r token) (ih _)

/-! ### The innermost block comes first -/

/-- The declarations are in blocks that are open, those of inner blocks first. -/
structure Nested (r : Resolver) : Prop where
  inside : ∀ d ∈ r.declared, d.depth ≤ r.depth
  sorted : r.declared.Pairwise fun d outer => outer.depth ≤ d.depth

theorem Nested.declare (h : r.Nested) (name : String) : (r.declare name).Nested := by
  unfold Resolver.declare
  split
  · next hdepth =>
    exact ⟨List.forall_mem_cons.2 ⟨Nat.zero_le _, h.inside⟩,
      .cons (fun d hd => hdepth ▸ h.inside d hd) h.sorted⟩
  · exact ⟨List.forall_mem_cons.2 ⟨Nat.le_refl _, h.inside⟩, .cons h.inside h.sorted⟩

theorem Nested.complete (h : r.Nested) (phase : Phase) : (r.complete phase).Nested := by
  have hfold : ∀ (names : List String) {r : Resolver}, r.Nested →
      (names.foldl Resolver.declare r).Nested := by
    intro names
    induction names with
    | nil => exact id
    | cons name names ih => exact fun h => ih (h.declare name)
  exact ⟨(hfold r.pending h).inside, (hfold r.pending h).sorted⟩

theorem Nested.leave (h : r.Nested) : r.leave.Nested := by
  refine ⟨fun d hd => ?_, h.sorted.filter _⟩
  have hlt : d.depth < r.depth := of_decide_eq_true (List.mem_filter.1 hd).2
  exact Nat.le_pred_of_lt hlt

theorem Nested.step (h : r.Nested) (token : Token) : (r.step token).Nested := by
  rcases r.step_cases token with ⟨_, _, _, heq⟩ | ⟨_, _, heq⟩ | ⟨phase, heq⟩ | heq
  · rw [heq]
    exact ⟨h.inside, h.sorted⟩
  · rw [heq]
    exact ⟨fun d hd => Nat.le_succ_of_le (h.inside d hd), h.sorted⟩
  · rw [heq]
    exact h.complete phase
  · rw [heq, close]
    split
    · exact ⟨h.leave.leave.inside, h.leave.leave.sorted⟩
    · exact h.leave

theorem nested_after (tokens : List Token) : (after tokens).Nested := by
  have hfoldl : ∀ (tokens : List Token) {r : Resolver}, r.Nested →
      (tokens.foldl Resolver.step r).Nested := by
    intro tokens
    induction tokens with
    | nil => exact id
    | cons token tokens ih => exact fun h => ih (h.step token)
  exact hfoldl tokens ⟨fun d hd => absurd hd List.not_mem_nil, .nil⟩

/-- **A name means a declaration of the innermost block that declares it.** -/
theorem exists_innermost_of_find? {tokens : List Token} {name : String} {ref : VarRef}
    (h : (after tokens).find? name = some ref) :
    ∃ d ∈ (after tokens).declared, d.name = name ∧ d.ref = ref
      ∧ ∀ other ∈ (after tokens).declared, other.name = name → other.depth ≤ d.depth := by
  obtain ⟨d, hd, rfl⟩ := Option.map_eq_some_iff.1 h
  obtain ⟨hname, newer, older, hsplit, hnewer⟩ := List.find?_eq_some_iff_append.1 hd
  have hsorted := (nested_after tokens).sorted
  rw [hsplit] at hsorted ⊢
  refine ⟨d, List.mem_append_right _ List.mem_cons_self, eq_of_beq hname, rfl, ?_⟩
  intro other hother hsame
  rcases List.mem_append.1 hother with hother | hother
  · have hdiffers := hnewer other hother
    rw [hsame, beq_self_eq_true] at hdiffers
    exact nomatch hdiffers
  · rcases List.mem_cons.1 hother with rfl | hother
    · exact Nat.le_refl _
    · exact (List.pairwise_cons.1 (List.pairwise_append.1 hsorted).2.1).1 other hother

end Resolver

end PocketCompiler
