import PocketCompiler.Grammar.Parse
import PocketCompiler.Proofs.Lower.Total
import PocketCompiler.Proofs.Token.Lexer

/-!
# What holds while tokens are read

`ParseState.Valid honest` is the invariant of a reader of tokens: visible names refer to variables
that are in the tables, and if the tokens are `honest`, then variables have sizes that code can
address, and functions that have been read are sound.  A reader may declare variables and move on;
`ParseState.Grows` says that what was declared before stays as it was, and `ParseState.Keeps` that
the visible names are the same, too.

`ReadsFrom honest R s p good`: started in `s`, the reader `p` keeps the invariant, relates the
states before and after by `R`, and gives a result that is `good` by the tables that there are
then; if it stops, it stops with a complaint, whether the tokens are honest or not.  This module
has the rules to put readers together, up to `collect` and `extend`.
-/

namespace PocketCompiler

/-! ### The invariant -/

/-- The variables that have been declared. -/
def ParseState.symbols (s : ParseState) : Symbols := ⟨s.locals, s.globals⟩

/-- A type whose values code can address. -/
def Ty.Sized (ty : Ty) : Prop := 0 ≤ ty.size ∧ ty.size ≤ maxObjectSize

instance (ty : Ty) : Decidable ty.Sized := inferInstanceAs (Decidable (_ ∧ _))

/-- What holds whenever a token has been read.  Only the visible names are as they should be in
any case: a number that is negative makes an array of a negative size. -/
structure ParseState.Valid (honest : Prop) (s : ParseState) : Prop where
  tokens : honest → ∀ token ∈ s.rest, token.Honest
  scopes : ∀ scope ∈ s.scopes, ∀ binding ∈ scope, ∃ found, s.symbols.get binding.2 = .ok found
  locals : honest → ∀ v ∈ s.locals, v.ty.Sized
  globals : honest → ∀ v ∈ s.globals, v.Storable
  functions : honest → ∀ f ∈ s.functions, f.Sound s.globals

variable {honest : Prop}

/-- `t` has what `s` had declared, and names that `s` could not see are as in `s`. -/
structure ParseState.Grows (s t : ParseState) : Prop where
  symbols : s.symbols.Extends t.symbols
  functions : t.functions = s.functions
  outer : t.scopes.tail = s.scopes.tail

/-- `t` has what `s` had declared, and the same names are visible. -/
structure ParseState.Keeps (s t : ParseState) : Prop where
  symbols : s.symbols.Extends t.symbols
  functions : t.functions = s.functions
  scopes : t.scopes = s.scopes

/-- Where the same names are visible, what was declared is still there. -/
theorem ParseState.Keeps.grows {s t : ParseState} (h : s.Keeps t) : s.Grows t :=
  ⟨h.symbols, h.functions, by rw [h.scopes]⟩

/-- How a reader may change the state: by steps that can be put together, and that leave what was
declared as it was. -/
structure Steps (R : ParseState → ParseState → Prop) : Prop where
  refl : ∀ s, R s s
  trans : ∀ {s t u}, R s t → R t u → R s u
  symbols : ∀ {s t}, R s t → s.symbols.Extends t.symbols
  keeps : ∀ {s t}, s.Keeps t → R s t

/-- Steps that grow can be put together. -/
theorem steps_grows : Steps ParseState.Grows where
  refl _ := ⟨.refl _, rfl, rfl⟩
  trans h h' :=
    ⟨h.symbols.trans h'.symbols, h'.functions.trans h.functions, h'.outer.trans h.outer⟩
  symbols h := h.symbols
  keeps h := h.grows

/-- Steps that keep what is visible can be put together. -/
theorem steps_keeps : Steps ParseState.Keeps where
  refl _ := ⟨.refl _, rfl, rfl⟩
  trans h h' :=
    ⟨h.symbols.trans h'.symbols, h'.functions.trans h.functions, h'.scopes.trans h.scopes⟩
  symbols h := h.symbols
  keeps h := h

/-- Moving past a token keeps the invariant. -/
theorem ParseState.Valid.advance {s : ParseState} (h : s.Valid honest) :
    s.advance.Valid honest where
  tokens hhonest token htoken := h.tokens hhonest token (List.mem_of_mem_tail htoken)
  scopes := h.scopes
  locals := h.locals
  globals := h.globals
  functions := h.functions

theorem ParseState.keeps_advance (s : ParseState) : s.Keeps s.advance := ⟨.refl _, rfl, rfl⟩

/-- If the tokens are honest, the current one is. -/
theorem ParseState.Valid.token_honest {s : ParseState} (h : s.Valid honest) {token : Token}
    (htoken : s.current? = some token) (hhonest : honest) : token.Honest :=
  h.tokens hhonest token (List.mem_of_mem_head? htoken)

/-! ### Tables that grow -/

/-- A function stays sound when globals are declared behind those that it knows. -/
theorem Function.Sound.extend {function : Function} {globals larger : List Variable}
    (h : function.Sound globals) (hlarger : globals <+: larger) : function.Sound larger where
  body := by
    have hext : Symbols.Extends ⟨function.locals, globals⟩ ⟨function.locals, larger⟩ :=
      ⟨List.prefix_refl _, hlarger⟩
    exact h.body.imp fun _ hnode => hnode.extend hext
  params := h.params
  arity := h.arity
  sizes := h.sizes
  room := h.room

/-- Visible names still refer to variables when tables grow. -/
theorem ParseState.Valid.extend_scopes {s : ParseState} (h : s.Valid honest) {larger : Symbols}
    (hext : s.symbols.Extends larger) :
    ∀ scope ∈ s.scopes, ∀ binding ∈ scope, ∃ found, larger.get binding.2 = .ok found := by
  intro scope hscope binding hbinding
  obtain ⟨found, hfound⟩ := h.scopes scope hscope binding hbinding
  exact ⟨found, hext.get hfound⟩

/-- A variable that is added is found behind the others. -/
theorem entry_length_append {table : List Variable} {added : Variable} :
    entry (table ++ [added]) table.length = .ok added :=
  entry_eq_ok_iff.2 List.getElem?_concat_length

/-- A name that is declared is visible, and no name that was visible is lost. -/
theorem Scopes.mem_bind {scopes : Scopes} {name : String} {ref : VarRef} {p : VarRef → Prop}
    (h : ∀ scope ∈ scopes, ∀ binding ∈ scope, p binding.2) (href : p ref) :
    ∀ scope ∈ scopes.bind name ref, ∀ binding ∈ scope, p binding.2 := by
  cases scopes with
  | nil => exact h
  | cons scope outer =>
    intro found hfound binding hbinding
    rcases List.mem_cons.1 hfound with rfl | hfound
    · rcases List.mem_cons.1 hbinding with rfl | hbinding
      · exact href
      · exact h scope List.mem_cons_self binding hbinding
    · exact h found (List.mem_cons_of_mem _ hfound) binding hbinding

/-- A name is bound in the innermost scope, so the scopes around it stay as they are. -/
theorem Scopes.tail_bind (scopes : Scopes) (name : String) (ref : VarRef) :
    (scopes.bind name ref).tail = scopes.tail := by
  cases scopes <;> rfl

/-! ### Declaring and looking up -/

theorem mem_of_lookup {α : Type} {table : List (String × α)} {text : String} {a : α}
    (h : table.lookup text = some a) : (text, a) ∈ table := by
  induction table with
  | nil => exact nomatch h
  | cons entry rest ih =>
    obtain ⟨key, b⟩ := entry
    rw [List.lookup_cons] at h
    split at h
    · next hkey =>
      rw [eq_of_beq hkey, Option.some.inj h]
      exact List.mem_cons_self
    · exact List.mem_cons_of_mem _ (ih h)

/-- A visible name refers to a variable that is in the tables. -/
theorem ParseState.Valid.find {s : ParseState} {name : String} {ref : VarRef} (hs : s.Valid honest)
    (h : s.scopes.find? name = some ref) : ∃ found, s.symbols.get ref = .ok found := by
  obtain ⟨scope, hscope, hlookup⟩ := List.exists_of_findSome?_eq_some h
  exact hs.scopes scope hscope (name, ref) (mem_of_lookup hlookup)

/-- Declaring a local keeps the invariant. -/
theorem ParseState.Valid.addLocal {s : ParseState} (hs : s.Valid honest) (added : Variable)
    (hty : honest → added.ty.Sized) : (s.addLocal added).Valid honest where
  tokens := hs.tokens
  scopes := by
    have hext : s.symbols.Extends (s.addLocal added).symbols :=
      ⟨List.prefix_append _ _, List.prefix_refl _⟩
    exact Scopes.mem_bind (p := fun ref => ∃ v, (s.addLocal added).symbols.get ref = .ok v)
      (hs.extend_scopes hext) ⟨added, entry_length_append⟩
  locals hhonest v hv := by
    rcases List.mem_append.1 hv with hv | hv
    · exact hs.locals hhonest v hv
    · rw [List.mem_singleton.1 hv]
      exact hty hhonest
  globals := hs.globals
  functions := hs.functions

/-- Declaring a string literal keeps the invariant. -/
theorem ParseState.Valid.addLiteral {s : ParseState} (hs : s.Valid honest) {bytes : List UInt8}
    {ty : Ty} (hty : honest → ty = .array .char bytes.length) :
    (s.addLiteral bytes ty).Valid honest where
  tokens := hs.tokens
  scopes := hs.extend_scopes ⟨List.prefix_refl _, List.prefix_append _ _⟩
  locals := hs.locals
  globals hhonest v hv := by
    rcases List.mem_append.1 hv with hv | hv
    · exact hs.globals hhonest v hv
    · rw [List.mem_singleton.1 hv]
      intro found hfound
      obtain rfl := Contents.bytes.inj (Option.some.inj hfound)
      -- The type of a literal has exactly as many bytes as the literal.
      have hsize : (s.nextLiteral bytes ty).ty.size - bytes.length = 0 := by
        show ty.size - bytes.length = 0
        rw [hty hhonest, Ty.size, Ty.size]
        omega
      rw [hsize]
      decide
  functions hhonest f hf := (hs.functions hhonest f hf).extend (List.prefix_append _ _)

/-- Opening a block keeps the invariant. -/
theorem ParseState.Valid.enterScope {s : ParseState} (hs : s.Valid honest) :
    s.enterScope.Valid honest where
  tokens := hs.tokens
  scopes scope hscope := by
    rcases List.mem_cons.1 hscope with rfl | hscope
    · exact fun binding hbinding => absurd hbinding List.not_mem_nil
    · exact hs.scopes scope hscope
  locals := hs.locals
  globals := hs.globals
  functions := hs.functions

/-- Closing a block keeps the invariant. -/
theorem ParseState.Valid.leaveScope {s : ParseState} (hs : s.Valid honest) :
    s.leaveScope.Valid honest where
  tokens := hs.tokens
  scopes scope hscope := hs.scopes scope (List.mem_of_mem_tail hscope)
  locals := hs.locals
  globals := hs.globals
  functions := hs.functions

/-! ### Readers -/

/-- What is known of a reader that starts in `s`. -/
def ReadsFrom {α : Type} (honest : Prop) (R : ParseState → ParseState → Prop) (s : ParseState)
    (p : Parse α) (good : Symbols → α → Prop) : Prop :=
  Ends (p.run s) (fun r => r.2.Valid honest ∧ R s r.2 ∧ good r.2.symbols r.1) Failure.IsComplaint

variable {α β : Type} {R : ParseState → ParseState → Prop} {s : ParseState}
  {good : Symbols → α → Prop} {after : Symbols → β → Prop}

/-- What follows from what is known of a reader is known of it. -/
theorem ReadsFrom.imp {p : Parse α} {good' : Symbols → α → Prop} (h : ReadsFrom honest R s p good)
    (hgood : ∀ symbols a, good symbols a → good' symbols a) : ReadsFrom honest R s p good' :=
  Ends.imp_good h fun _ hr => ⟨hr.1, hr.2.1, hgood _ _ hr.2.2⟩

/-- A reader that keeps the visible names may be used where they may change. -/
theorem ReadsFrom.widen (hR : Steps R) {p : Parse α}
    (h : ReadsFrom honest ParseState.Keeps s p good) : ReadsFrom honest R s p good :=
  Ends.imp_good h fun _ hr => ⟨hr.1, hR.keeps hr.2.1, hr.2.2⟩

/-- A reader that reads nothing leaves the state as it is. -/
theorem readsFrom_pure (hR : Steps R) (hs : s.Valid honest) {a : α} (ha : good s.symbols a) :
    ReadsFrom honest R s (pure a) good :=
  ⟨hs, hR.refl s, ha⟩

/-- **Sequence**: the second reader starts in the state that the first one leaves. -/
theorem ReadsFrom.bind (hR : Steps R) {p : Parse α} {q : α → Parse β}
    (hp : ReadsFrom honest R s p good)
    (hq : ∀ a t, t.Valid honest → R s t → good t.symbols a → ReadsFrom honest R t (q a) after) :
    ReadsFrom honest R s (p >>= q) after := by
  unfold ReadsFrom
  rw [StateT.run_bind]
  refine Ends.bind hp ?_
  rintro ⟨a, t⟩ ⟨ht, hst, ha⟩
  refine Ends.imp_good (hq a t ht hst ha) ?_
  rintro ⟨b, u⟩ ⟨hu, htu, hb⟩
  exact ⟨hu, hR.trans hst htu, hb⟩

/-- A reader that looks at the state goes on with the state that it is in. -/
theorem readsFrom_get {q : ParseState → Parse α} (h : ReadsFrom honest R s (q s) good) :
    ReadsFrom honest R s (get >>= q) good :=
  h

namespace Parse

/-! ### Looking at tokens -/

theorem readsFrom_here (hR : Steps R) (hs : s.Valid honest) :
    ReadsFrom honest R s here fun _ _ => True :=
  ⟨hs, hR.refl s, trivial⟩

theorem readsFrom_remaining (hR : Steps R) (hs : s.Valid honest) :
    ReadsFrom honest R s remaining fun _ _ => True :=
  ⟨hs, hR.refl s, trivial⟩

theorem readsFrom_check (hR : Steps R) (hs : s.Valid honest) (text : String) :
    ReadsFrom honest R s (check text) fun _ _ => True :=
  ⟨hs, hR.refl s, trivial⟩

/-- A reader that complains needs no invariant. -/
theorem readsFrom_complainAt (loc : Nat) (cause : Complaint) :
    ReadsFrom honest R s (complainAt loc cause) good :=
  trivial

theorem readsFrom_unexpected (wanted : Expected) : ReadsFrom honest R s (unexpected wanted) good :=
  trivial

/-- Moving past the current token is a step of any reader. -/
theorem readsFrom_advance (hR : Steps R) (hs : s.Valid honest) {a : α} (ha : good s.symbols a) :
    ReadsFrom honest R s (do modify ParseState.advance; return a) good :=
  ⟨hs.advance, hR.keeps s.keeps_advance, ha⟩

/-- A text may be there or not, and the state is valid in both cases. -/
theorem readsFrom_accept (hR : Steps R) (hs : s.Valid honest) (text : String) :
    ReadsFrom honest R s (accept text) fun _ _ => True := by
  unfold accept
  refine (readsFrom_check hR hs text).bind hR fun found t ht _ _ => ?_
  cases found with
  | true => exact readsFrom_advance hR ht trivial
  | false => exact readsFrom_pure hR ht trivial

theorem readsFrom_expect (hR : Steps R) (hs : s.Valid honest) (text : String) :
    ReadsFrom honest R s (expect text) fun _ _ => True := by
  unfold expect
  refine (readsFrom_accept hR hs text).bind hR fun found t ht _ _ => ?_
  cases found with
  | true => exact readsFrom_pure hR ht trivial
  | false => exact readsFrom_unexpected _

theorem readsFrom_identifier (hR : Steps R) (hs : s.Valid honest) :
    ReadsFrom honest R s identifier fun _ _ => True := by
  unfold identifier
  refine readsFrom_get ?_
  split
  · exact readsFrom_advance hR hs trivial
  · exact readsFrom_unexpected _

/-- The numbers that are read from honest tokens are not negative. -/
theorem readsFrom_number (hR : Steps R) (hs : s.Valid honest) :
    ReadsFrom honest R s number fun _ r => honest → 0 ≤ r.1.toInt := by
  unfold number
  refine readsFrom_get ?_
  split
  · next value loc text htoken =>
    have hvalue : honest → 0 ≤ value.toInt := hs.token_honest htoken
    exact readsFrom_advance hR hs hvalue
  · exact readsFrom_complainAt _ _
  · exact readsFrom_unexpected _

/-- The type of a literal that is read from honest tokens has room for its bytes. -/
theorem readsFrom_literal (hR : Steps R) (hs : s.Valid honest) :
    ReadsFrom honest R s literal fun _ r => honest → r.2 = .array .char r.1.length := by
  unfold literal
  refine readsFrom_get ?_
  split
  · next bytes ty loc text htoken =>
    have hty : honest → ty = .array .char bytes.length := hs.token_honest htoken
    exact readsFrom_advance hR hs hty
  · exact readsFrom_unexpected _

/-- An operator that is read stands in the table. -/
theorem readsFrom_operator (hR : Steps R) (hs : s.Valid honest) (table : List (String × α)) :
    ReadsFrom honest R s (operator table)
      fun _ found => ∀ a ∈ found, ∃ text, (text, a) ∈ table := by
  have hnone : ∀ a ∈ (none : Option α), ∃ text, (text, a) ∈ table := fun a ha => nomatch ha
  unfold operator
  refine readsFrom_get ?_
  split
  · next loc text htoken =>
    split
    · next a ha =>
      refine readsFrom_advance hR hs ?_
      intro b hb
      obtain rfl := Option.some.inj hb
      exact ⟨text, mem_of_lookup ha⟩
    · exact readsFrom_pure hR hs hnone
  · exact readsFrom_pure hR hs hnone

/-! ### Repetition -/

/-- What stays true when tables grow. -/
def Lasting (good : Symbols → α → Prop) : Prop :=
  ∀ symbols larger a, symbols.Extends larger → good symbols a → good larger a

/-- If every item that is read is good, all items are. -/
theorem readsFrom_collectWithin (hR : Steps R) (hgood : Lasting good) {item : Parse (Option α)}
    (hitem : ∀ s, s.Valid honest →
      ReadsFrom honest R s item fun symbols found => ∀ a ∈ found, good symbols a) :
    ∀ (bound : Nat) (s : ParseState), s.Valid honest →
      ReadsFrom honest R s (collectWithin item bound)
        fun symbols items => ∀ a ∈ items, good symbols a
  | 0, s, hs => readsFrom_pure hR hs fun a ha => absurd ha List.not_mem_nil
  | bound + 1, s, hs => by
    unfold collectWithin
    refine (hitem s hs).bind hR fun found t ht _ hfound => ?_
    cases found with
    | none => exact readsFrom_pure hR ht fun a ha => absurd ha List.not_mem_nil
    | some a =>
      refine (readsFrom_collectWithin hR hgood hitem bound t ht).bind hR
        fun more u hu htu hmore => ?_
      refine readsFrom_pure hR hu fun b hb => ?_
      rcases List.mem_cons.1 hb with rfl | hb
      · exact hgood _ _ _ (hR.symbols htu) (hfound b rfl)
      · exact hmore b hb

/-- Every item keeps what is known of those in front of it, since that lasts. -/
theorem readsFrom_collect (hR : Steps R) (hgood : Lasting good) {item : Parse (Option α)}
    (hitem : ∀ s, s.Valid honest →
      ReadsFrom honest R s item fun symbols found => ∀ a ∈ found, good symbols a)
    (hs : s.Valid honest) :
    ReadsFrom honest R s (collect item) fun symbols items => ∀ a ∈ items, good symbols a := by
  unfold collect
  exact (readsFrom_remaining hR hs).bind hR fun bound t ht _ _ =>
    readsFrom_collectWithin hR hgood hitem _ t ht

/-- Items of which nothing is known. -/
theorem readsFrom_collect_any (hR : Steps R) {item : Parse (Option α)}
    (hitem : ∀ s, s.Valid honest → ReadsFrom honest R s item fun _ _ => True)
    (hs : s.Valid honest) :
    ReadsFrom honest R s (collect item) fun _ _ => True := by
  have hlasting : Lasting fun (_ : Symbols) (_ : α) => True := fun _ _ _ _ _ => trivial
  have hany := readsFrom_collect hR hlasting
    (fun t ht => (hitem t ht).imp fun _ _ _ _ _ => trivial) hs
  exact hany.imp fun _ _ _ => trivial

/-- If every way to make a good thing longer gives a good thing, the longest is good. -/
theorem readsFrom_extendWithin (hR : Steps R) {longer : α → Parse (Option α)}
    (hlonger : ∀ s a, s.Valid honest → good s.symbols a →
      ReadsFrom honest R s (longer a) fun symbols found => ∀ b ∈ found, good symbols b)
    (hgood : Lasting good) :
    ∀ (bound : Nat) (s : ParseState) (a : α), s.Valid honest → good s.symbols a →
      ReadsFrom honest R s (extendWithin longer bound a) good
  | 0, s, a, hs, ha => readsFrom_pure hR hs ha
  | bound + 1, s, a, hs, ha => by
    unfold extendWithin
    refine (hlonger s a hs ha).bind hR fun found t ht hst hfound => ?_
    cases found with
    | none => exact readsFrom_pure hR ht (hgood _ _ _ (hR.symbols hst) ha)
    | some b =>
      exact readsFrom_extendWithin hR hlonger hgood bound t b ht (hfound b rfl)

/-- What is extended step by step is good as long as every step makes it so. -/
theorem readsFrom_extend (hR : Steps R) (hgood : Lasting good) {longer : α → Parse (Option α)}
    (hlonger : ∀ s a, s.Valid honest → good s.symbols a →
      ReadsFrom honest R s (longer a) fun symbols found => ∀ b ∈ found, good symbols b)
    (hs : s.Valid honest) {a : α} (ha : good s.symbols a) :
    ReadsFrom honest R s (extend longer a) good := by
  unfold extend
  exact (readsFrom_remaining hR hs).bind hR fun bound t ht hst _ =>
    readsFrom_extendWithin hR hlonger hgood _ t a ht (hgood _ _ _ (hR.symbols hst) ha)

/-- Items with commas between them are good if each of them is. -/
theorem readsFrom_separated (hR : Steps R) (hgood : Lasting good) {item : Parse α}
    (hitem : ∀ s, s.Valid honest → ReadsFrom honest R s item good) (hs : s.Valid honest) :
    ReadsFrom honest R s (separated item) fun symbols items => ∀ a ∈ items, good symbols a := by
  have hnone : ∀ symbols, ∀ a ∈ (none : Option α), good symbols a := fun _ a ha => nomatch ha
  unfold separated
  refine (hitem s hs).bind hR fun first t ht _ hfirst => ?_
  refine ReadsFrom.bind hR (readsFrom_collect hR hgood (fun u hu => ?_) ht)
    fun more u hu htu hmore => ?_
  · refine (readsFrom_accept hR hu ",").bind hR fun found w hw _ _ => ?_
    cases found with
    | false => exact readsFrom_pure hR hw (hnone _)
    | true =>
      refine (hitem w hw).bind hR fun a x hx _ ha => readsFrom_pure hR hx ?_
      intro b hb
      obtain rfl := Option.some.inj hb
      exact ha
  · refine readsFrom_pure hR hu fun b hb => ?_
    rcases List.mem_cons.1 hb with rfl | hb
    · exact hgood _ _ _ (hR.symbols htu) hfirst
    · exact hmore b hb

/-! ### Computations that read nothing -/

/-- What is computed without reading leaves the state as it is. -/
theorem readsFrom_liftM (hR : Steps R) (hs : s.Valid honest) {r : Except Failure α}
    (h : Ends r (good s.symbols) Failure.IsComplaint) : ReadsFrom honest R s (liftM r) good := by
  cases r with
  | ok a => exact ⟨hs, hR.refl s, h⟩
  | error failure => exact h

/-- A draft becomes well typed, or typing complains. -/
theorem readsFrom_typed (hR : Steps R) (hs : s.Valid honest) {node : Node}
    (h : node.Draft s.symbols) :
    ReadsFrom honest R s (typed node) fun symbols typed => typed.Typed symbols :=
  readsFrom_get (readsFrom_liftM hR hs
    ((ends_annotate_of_draft h).imp (fun _ ha => ha) fun _ hf => hf.isComplaint))

/-- A statement of drafts becomes one of typed expressions, or typing complains. -/
theorem readsFrom_typed_stmt (hR : Steps R) (hs : s.Valid honest) {node : Node}
    (h : node.Over (Node.Draft s.symbols)) :
    ReadsFrom honest R s (typed node) fun symbols typed => typed.Over (Node.Typed symbols) :=
  readsFrom_get (readsFrom_liftM hR hs
    ((ends_annotate_of_overDraft h).imp (fun _ ha => ha) fun _ hf => hf.isComplaint))

end Parse

end PocketCompiler
