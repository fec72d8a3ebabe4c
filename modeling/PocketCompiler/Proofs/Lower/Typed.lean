import PocketCompiler.Proofs.Lower.Total

/-!
# What typing guarantees to lowering

A tree that nobody has typed yet is `Node.Raw`: no node carries a type, expressions stand where
expressions belong, variables are in the tables, and calls pass no more arguments than there are
registers.  Whatever else such a tree may hold, `annotate` is all the checking it needs: if it gives
a tree, that tree has assembly in any function with room for its locals, and if it gives none, it
complains about an address or about a dereference.

How much room that is depends on how the size of a frame is rounded up.  `Word.roundUp` adds 16
before it takes 1 away, so the locals may need `Word.greatest - 16` bytes.  With one byte more the
frame would still have a size, since that number is a multiple of 16 itself, but the sum on the way
is no word any more (`Word.roundUp_eq_error`).
-/

namespace PocketCompiler

/-! ### Trees without types -/

/-- A reference to a variable that the tables hold. -/
def VarRef.InRange (symbols : Symbols) : VarRef → Prop
  | .localVar index => index < symbols.locals.length
  | .globalVar index => index < symbols.globals.length

instance (symbols : Symbols) (ref : VarRef) : Decidable (ref.InRange symbols) :=
  match ref with
  | .localVar index => inferInstanceAs (Decidable (index < symbols.locals.length))
  | .globalVar index => inferInstanceAs (Decidable (index < symbols.globals.length))

theorem VarRef.InRange.exists_get {symbols : Symbols} {ref : VarRef} (h : ref.InRange symbols) :
    ∃ found, symbols.get ref = .ok found := by
  cases ref with
  | localVar index => exact exists_entry_eq_ok_iff.2 h
  | globalVar index => exact exists_entry_eq_ok_iff.2 h

/-- Expressions without types, put together in any way. -/
inductive Node.Raw (symbols : Symbols) : Node → Prop
  | num {loc value} : Raw symbols (.num ⟨loc, none⟩ value)
  | var {loc ref} (href : ref.InRange symbols) : Raw symbols (.var ⟨loc, none⟩ ref)
  | neg {loc operand} (hoperand : Raw symbols operand) : Raw symbols (.neg ⟨loc, none⟩ operand)
  | addr {loc operand} (hoperand : Raw symbols operand) : Raw symbols (.addr ⟨loc, none⟩ operand)
  | deref {loc operand} (hoperand : Raw symbols operand) : Raw symbols (.deref ⟨loc, none⟩ operand)
  | binary {loc op lhs rhs} (hlhs : Raw symbols lhs) (hrhs : Raw symbols rhs) :
    Raw symbols (.binary ⟨loc, none⟩ op lhs rhs)
  | assign {loc target value} (htarget : Raw symbols target) (hvalue : Raw symbols value) :
    Raw symbols (.assign ⟨loc, none⟩ target value)
  | call {loc name args} (hlength : args.length ≤ maxArguments)
      (hargs : ∀ arg ∈ args, Raw symbols arg) : Raw symbols (.call ⟨loc, none⟩ name args)

theorem Node.Raw.draft {symbols : Symbols} {node : Node} (h : node.Raw symbols) :
    node.Draft symbols := by
  induction h with
  | num => exact .num
  | var href =>
    obtain ⟨found, hfound⟩ := href.exists_get
    exact .var hfound
  | neg _ ih => exact .neg ih
  | addr _ ih => exact .addr ih
  | deref _ ih => exact .deref ih
  | binary _ _ ihl ihr => exact .binary ihl ihr
  | assign _ _ iht ihv => exact .assign iht ihv
  | call hlength _ ih => exact .call hlength ih

/-- The complaints of typing, by their messages. -/
theorem Failure.IsTyping.message {failure : Failure} (h : failure.IsTyping) :
    failure.message = "not an lvalue" ∨ failure.message = "invalid pointer dereference" := by
  obtain ⟨loc, rfl | rfl⟩ := h
  · exact Or.inl rfl
  · exact Or.inr rfl

/-! ### Room for the locals -/

/-- A number that is one short of a step below the greatest word cannot be rounded up, whatever
its next multiple is: the first sum is no word. -/
theorem Word.roundUp_eq_error {n step : Int} (h : n + step - 1 = Word.greatest) :
    Word.roundUp n step = .error (.overflow .add) := by
  have hfits : ¬ Word.Fits (n + step) := by
    simp only [Word.Fits, Word.greatest] at h ⊢
    omega
  rw [Word.roundUp, Word.add, Word.checked, if_neg hfits]
  rfl

/-- The number of bytes that some locals need together. -/
def totalSize (locals : List Variable) : Int := (locals.map (·.ty.size)).sum

theorem Function.frame_eq_error {function : Function} (hsizes : ∀ v ∈ function.locals, 0 ≤ v.ty.size)
    (h : totalSize function.locals + 15 = Word.greatest) :
    function.frame = .error (.overflow .add) := by
  have hmap : ((function.locals.map (·.ty)).map Ty.size).sum = totalSize function.locals := by
    rw [List.map_map]
    rfl
  have hnonneg : ∀ ty ∈ function.locals.map (·.ty), 0 ≤ ty.size := by
    intro ty hty
    obtain ⟨v, hv, rfl⟩ := List.mem_map.1 hty
    exact hsizes v hv
  obtain ⟨offsets, -, hplace⟩ := Frame.place_of_le (function.locals.map (·.ty)) 0 (Int.le_refl 0)
    hnonneg (by omega)
  rw [hmap, Int.zero_add] at hplace
  rw [Function.frame, Frame.layout, hplace]
  show (Word.roundUp _ 16 >>= _) = _
  rw [Word.roundUp_eq_error (by omega)]
  rfl

/-! ### Globals put together by hand -/

/-- A global whose type and contents have sizes that are words. -/
structure Variable.Representable (stored : Variable) : Prop where
  size_nonneg : 0 ≤ stored.ty.size
  size_le : stored.ty.size ≤ Word.greatest
  bytes_le : ∀ bytes, stored.contents = some (.bytes bytes) → (bytes.length : Int) ≤ Word.greatest

theorem Variable.Representable.storable {stored : Variable} (h : stored.Representable) :
    stored.Storable := by
  intro bytes hbytes
  have hnonneg := h.size_nonneg
  have hle := h.size_le
  have hbytes := h.bytes_le bytes hbytes
  simp only [Word.Fits, Word.least, Word.greatest] at hle hbytes ⊢
  omega

/-! ### Typing and then lowering -/

/-- What a function with locals and a body put together by hand has to be like besides: at most as
many parameters as there are registers, each of them a local, and sizes that are not negative. -/
structure Symbols.Hosts (symbols : Symbols) (params : List Nat) : Prop where
  arity : params.length ≤ maxArguments
  params : ∀ index ∈ params, index < symbols.locals.length
  sizes : ∀ v ∈ symbols.locals, 0 ≤ v.ty.size
  globals : ∀ v ∈ symbols.globals, v.Representable

/-- The program of one function. -/
def Symbols.host (symbols : Symbols) (name : String) (ty : Ty) (params : List Nat) (body : Node) :
    Program :=
  ⟨symbols.globals, [⟨name, ty, params, symbols.locals, body⟩]⟩

theorem Symbols.Hosts.sound {symbols : Symbols} {params : List Nat} (h : symbols.Hosts params)
    (hroom : totalSize symbols.locals + 16 ≤ Word.greatest) {body : Node}
    (hbody : body.Over (Node.Typed symbols)) (name : String) (ty : Ty) :
    (symbols.host name ty params body).Sound where
  globals v hv := (h.globals v hv).storable
  functions f hf := by
    rw [List.mem_singleton.1 hf]
    exact { body := hbody, params := h.params, arity := h.arity, sizes := h.sizes, room := hroom }

theorem Symbols.Hosts.lower_eq_error {symbols : Symbols} {params : List Nat}
    (h : symbols.Hosts params) (hroom : totalSize symbols.locals + 15 = Word.greatest) (body : Node)
    (name : String) (ty : Ty) :
    (symbols.host name ty params body).lower = .error (.overflow .add) := by
  have hframe : Function.frame ⟨name, ty, params, symbols.locals, body⟩ = .error (.overflow .add) :=
    Function.frame_eq_error h.sizes hroom
  have hframes : (symbols.host name ty params body).frames = .error (.overflow .add) := by
    rw [Program.frames, Symbols.host, List.mapM_cons, hframe]
    rfl
  rw [Program.lower, hframes]
  rfl

/-- **Typing is all the checking that a tree needs before lowering.**  If a tree without types can
be typed, a function with that body has assembly exactly if its locals need less than
`Word.greatest - 15` bytes; and if they need just that many, adding 16 to their number is what
fails.  If the tree cannot be typed, the complaint is one of two. -/
theorem Symbols.lower_of_annotate {symbols : Symbols} {body : Node}
    (hbody : body.Over (Node.Raw symbols)) :
    (∀ typed, annotate symbols body = .ok typed → ∀ name ty params, symbols.Hosts params →
      totalSize symbols.locals ≤ Word.greatest - 15 →
        ((∃ listing, (symbols.host name ty params typed).lower = .ok listing)
            ↔ totalSize symbols.locals ≠ Word.greatest - 15)
          ∧ (totalSize symbols.locals = Word.greatest - 15 →
            (symbols.host name ty params typed).lower = .error (.overflow .add)))
      ∧ ∀ failure, annotate symbols body = .error failure →
        failure.message = "not an lvalue" ∨ failure.message = "invalid pointer dereference" := by
  have hends := ends_annotate_of_overDraft (hbody.imp fun _ hnode => hnode.draft)
  refine ⟨fun typed htyped name ty params hhosts hle => ⟨⟨?_, fun hne => ?_⟩, fun heq => ?_⟩,
    fun failure hfailure => (hends.of_eq_error hfailure).message⟩
  · rintro ⟨listing, hlisting⟩ heq
    rw [hhosts.lower_eq_error (by omega)] at hlisting
    exact nomatch hlisting
  · exact (hhosts.sound (by omega) (hends.of_eq_ok htyped) name ty).exists_lower
  · exact hhosts.lower_eq_error (by omega) typed name ty

/-- One pointer, and a global with a byte to start with. -/
def Symbols.sample : Symbols :=
  ⟨[⟨"p", .ptr .char, none⟩], [⟨"g", .char, some (.bytes [7])⟩]⟩

/-- `{ p = &g; return *p; }` without types. -/
def Node.sample : Node :=
  .block ⟨0, none⟩
    [.exprStmt ⟨0, none⟩ (.assign ⟨0, none⟩ (.var ⟨0, none⟩ (.localVar 0))
      (.addr ⟨0, none⟩ (.var ⟨0, none⟩ (.globalVar 0)))),
     .ret ⟨0, none⟩ (.deref ⟨0, none⟩ (.var ⟨0, none⟩ (.localVar 0)))]

theorem Node.over_sample : Node.sample.Over (Node.Raw Symbols.sample) := by
  refine .block fun node hnode => ?_
  simp only [List.mem_cons, List.not_mem_nil, or_false] at hnode
  rcases hnode with rfl | rfl
  · exact .exprStmt (.assign (.var (by decide)) (.addr (.var (by decide))))
  · exact .ret (.deref (.var (by decide)))

theorem Symbols.hosts_sample : Symbols.sample.Hosts [0] where
  arity := by decide
  params := by decide
  sizes := by decide
  globals v hv := by
    rw [List.mem_singleton.1 hv]
    refine ⟨by decide, by decide, fun bytes hbytes => ?_⟩
    obtain rfl := Contents.bytes.inj (Option.some.inj hbytes)
    decide

theorem Symbols.lower_of_annotate_sample :
    Node.sample.Over (Node.Raw Symbols.sample) ∧ Symbols.sample.Hosts [0]
      ∧ totalSize Symbols.sample.locals = 8
      ∧ ∃ typed, annotate Symbols.sample Node.sample = .ok typed
        ∧ ∃ listing, (Symbols.sample.host "f" (.func .int [.ptr .char]) [0] typed).lower
          = .ok listing := by
  obtain ⟨typed, htyped⟩ : ∃ typed, annotate Symbols.sample Node.sample = .ok typed := ⟨_, rfl⟩
  refine ⟨Node.over_sample, Symbols.hosts_sample, by decide, typed, htyped, ?_⟩
  have hlower := (Symbols.lower_of_annotate Node.over_sample).1 typed htyped "f"
    (.func .int [.ptr .char]) [0] Symbols.hosts_sample (by decide)
  exact hlower.1.2 (by decide)

/-- One array of `Word.greatest - 15` bytes. -/
def Symbols.large : Symbols := ⟨[⟨"a", .array .char 9223372036854775792, none⟩], []⟩

/-- The empty body can be typed and all sizes are words, but the frame of a local that needs
`Word.greatest - 15` bytes has no size. -/
theorem Symbols.not_lower_large :
    (Node.block ⟨0, none⟩ []).Over (Node.Raw Symbols.large) ∧ Symbols.large.Hosts []
      ∧ totalSize Symbols.large.locals = Word.greatest - 15
      ∧ annotate Symbols.large (.block ⟨0, none⟩ []) = .ok (.block ⟨0, none⟩ [])
      ∧ (Symbols.large.host "f" (.func .int []) [] (.block ⟨0, none⟩ [])).lower
        = .error (.overflow .add) := by
  refine ⟨.block fun node hnode => absurd hnode List.not_mem_nil, ?_, by decide, rfl, rfl⟩
  exact
    { arity := by decide
      params := by decide
      sizes := by decide
      globals := fun v hv => absurd hv List.not_mem_nil }

end PocketCompiler
