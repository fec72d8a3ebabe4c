import PocketCompiler.Grammar.Unit
import PocketCompiler.Proofs.Grammar.Stmt

/-!
# Programs that are read are sound

Between declarations no function is being read, so whatever locals there are could be forgotten:
`ParseState.Outside` says that the invariant holds without them, too.  Every declaration keeps that
(`Parse.endsOutside_topLevel`), so what is read in the end is a sound program (`ends_parse`), and
reading stops with a complaint if it stops early.
-/

namespace PocketCompiler

/-! ### Constants -/

/-- Computing a constant meets no fault. -/
theorem ends_fold (node : Node) : Ends (fold node) (fun _ => True) Failure.IsComplaint := by
  induction node using fold.induct with
  | case1 => trivial
  | case2 mark operand ih =>
    rw [fold]
    exact ih.bind fun _ _ => trivial
  | case3 mark op lhs rhs ihl ihr =>
    rw [fold]
    refine ihl.bind fun a _ => ihr.bind fun b _ => ?_
    cases op with
    | div =>
      by_cases hb : b = 0
      · simp only [if_pos hb]
        trivial
      · simp only [if_neg hb]
        trivial
    | _ => trivial
  | case4 node hnum hneg hbinary =>
    rw [fold.eq_4 node hnum hneg hbinary]
    trivial

variable {honest : Prop}

/-- A word is written with as many bytes as it is given. -/
theorem length_littleEndian (value : Int64) (count : Nat) :
    (littleEndian value count).length = count := by
  rw [littleEndian, List.length_map, List.length_range]

/-- The bytes of a literal that an array starts with leave no more than the array. -/
theorem storable_literalContents {literal : Variable} {ty : Ty} (hty : honest → ty.Sized)
    (name : String) (loc : Nat) :
    Ends (literalContents literal ty loc)
      (fun contents => honest → Variable.Storable ⟨name, ty, some contents⟩)
      Failure.IsComplaint := by
  unfold literalContents
  split
  · intro _ bytes hbytes
    exact nomatch hbytes
  · next bytes len _ =>
    split
    · trivial
    · intro hhonest found hfound
      obtain rfl := Contents.bytes.inj (Option.some.inj hfound)
      obtain ⟨hnonneg, hmax⟩ := hty hhonest
      simp only [Ty.size, Int.one_mul, maxObjectSize] at hnonneg hmax
      have htake : (bytes.take len.toNat).length ≤ len.toNat := List.length_take_le _ _
      simp only [Word.Fits, Word.least, Word.greatest, Ty.size]
      omega
  · trivial
  · trivial

/-- A global of a declared type can be stored with what its initial value comes to. -/
theorem storable_contentsFor (globals : List Variable) (value : Node) {ty : Ty}
    (hty : honest → ty.Sized) (name : String) :
    Ends (contentsFor globals value ty)
      (fun contents => honest → Variable.Storable ⟨name, ty, some contents⟩)
      Failure.IsComplaint := by
  unfold contentsFor
  split
  · exact storable_literalContents hty name _
  · split
    · refine (ends_fold value).bind fun word _ => ?_
      intro hhonest found hfound
      obtain rfl := Contents.bytes.inj (Option.some.inj hfound)
      -- A word is cut to the size of the type, so there is nothing left to fill.
      rw [length_littleEndian, Int.toNat_of_nonneg (hty hhonest).1, Int.sub_self]
      decide
    · trivial

/-! ### Between declarations -/

/-- The state without the locals of the function that was read last. -/
def ParseState.forgetLocals (s : ParseState) : ParseState := { s with locals := [] }

/-- What holds between declarations. -/
structure ParseState.Outside (honest : Prop) (s : ParseState) : Prop where
  valid : s.Valid honest
  forget : s.forgetLocals.Valid honest

/-- Reading that leaves the visible names alone does not make them depend on locals. -/
theorem ParseState.Outside.keeps {s t : ParseState} (hs : s.Outside honest) (ht : t.Valid honest)
    (hst : s.Keeps t) : t.Outside honest where
  valid := ht
  forget :=
    { tokens := ht.tokens
      scopes := by
        have hext : s.forgetLocals.symbols.Extends t.forgetLocals.symbols :=
          ⟨List.prefix_refl _, hst.symbols.globals⟩
        have hscopes := hs.forget.extend_scopes hext
        change ∀ scope ∈ t.scopes, _
        rw [hst.scopes]
        exact hscopes
      locals := fun _ v hv => absurd hv List.not_mem_nil
      globals := ht.globals
      functions := ht.functions }

/-- Declaring a global keeps the invariant. -/
theorem ParseState.Valid.addGlobal {s : ParseState} (hs : s.Valid honest) {added : Variable}
    (hadded : honest → added.Storable) : (s.addGlobal added).Valid honest where
  tokens := hs.tokens
  scopes := by
    have hext : s.symbols.Extends (s.addGlobal added).symbols :=
      ⟨List.prefix_refl _, List.prefix_append _ _⟩
    exact Scopes.mem_bind (p := fun ref => ∃ v, (s.addGlobal added).symbols.get ref = .ok v)
      (hs.extend_scopes hext) ⟨added, entry_length_append⟩
  locals := hs.locals
  globals hhonest v hv := by
    rcases List.mem_append.1 hv with hv | hv
    · exact hs.globals hhonest v hv
    · rw [List.mem_singleton.1 hv]
      exact hadded hhonest
  functions hhonest f hf := (hs.functions hhonest f hf).extend (List.prefix_append _ _)

/-- Another global that can be stored may be declared between declarations. -/
theorem ParseState.Outside.addGlobal {s : ParseState} (hs : s.Outside honest) {added : Variable}
    (hadded : honest → added.Storable) : (s.addGlobal added).Outside honest :=
  ⟨hs.valid.addGlobal hadded, hs.forget.addGlobal hadded⟩

/-- A function that has been read is added, and its locals are forgotten. -/
theorem ParseState.Outside.addFunction {s t : ParseState} (hs : s.Outside honest)
    (ht : t.Valid honest) (hst : s.forgetLocals.Keeps t) {read : Function}
    (hread : honest → read.Sound t.globals) :
    ParseState.Outside honest { t with locals := [], functions := t.functions ++ [read] } := by
  have hforget : ParseState.Valid honest
      { t with locals := [], functions := t.functions ++ [read] } :=
    { tokens := ht.tokens
      scopes := by
        have hout : s.forgetLocals.Outside honest := ⟨hs.forget, hs.forget⟩
        exact (hout.keeps ht hst).forget.scopes
      locals := fun _ v hv => absurd hv List.not_mem_nil
      globals := ht.globals
      functions := fun hhonest f hf => by
        rcases List.mem_append.1 hf with hf | hf
        · exact ht.functions hhonest f hf
        · rw [List.mem_singleton.1 hf]
          exact hread hhonest }
  exact ⟨hforget, hforget⟩

namespace Parse

variable {s : ParseState}

/-- A reader that is started between declarations and ends between declarations. -/
def EndsOutside (honest : Prop) (s : ParseState) (p : Parse Unit) : Prop :=
  Ends (p.run s) (fun r => r.2.Outside honest) Failure.IsComplaint

/-- A declaration starts with something that leaves the visible names alone. -/
theorem EndsOutside.bind {α : Type} {good : Symbols → α → Prop} {p : Parse α} {q : α → Parse Unit}
    (hs : s.Outside honest) (hp : ReadsFrom honest ParseState.Keeps s p good)
    (hq : ∀ a t, t.Outside honest → s.Keeps t → good t.symbols a → EndsOutside honest t (q a)) :
    EndsOutside honest s (p >>= q) := by
  unfold EndsOutside
  rw [StateT.run_bind]
  refine Ends.bind hp ?_
  rintro ⟨a, t⟩ ⟨ht, hst, ha⟩
  exact hq a t (hs.keeps ht hst) hst ha

/-- A change that keeps the state between declarations may come first. -/
theorem endsOutside_modify {f : ParseState → ParseState} {q : Parse Unit}
    (h : EndsOutside honest (f s) q) : EndsOutside honest s (do modify f; q) :=
  h

theorem endsOutside_get {q : ParseState → Parse Unit} (h : EndsOutside honest s (q s)) :
    EndsOutside honest s (get >>= q) :=
  h

/-! ### Functions -/

/-- A check of a name changes nothing. -/
theorem readsFrom_checkSymbol {R : ParseState → ParseState → Prop} (hR : Steps R)
    (hs : s.Valid honest) (name : String) (loc : Nat) :
    ReadsFrom honest R s (checkSymbol name loc) fun _ _ => True := by
  unfold checkSymbol
  split
  · exact readsFrom_complainAt _ _
  · refine readsFrom_get ?_
    split
    · exact readsFrom_complainAt _ _
    · exact readsFrom_pure hR hs trivial

/-- A check of the name of a function changes nothing. -/
theorem readsFrom_checkFunction {R : ParseState → ParseState → Prop} (hR : Steps R)
    (hs : s.Valid honest) (name : String) (loc : Nat) :
    ReadsFrom honest R s (checkFunction name loc) fun _ _ => True := by
  unfold checkFunction
  refine readsFrom_get ?_
  split
  · exact readsFrom_complainAt _ _
  · exact readsFrom_checkSymbol hR hs name loc

/-- Parameters that are among the locals, and no more of them than there is room for. -/
structure GoodParams (room : Nat) (symbols : Symbols) (params : List (Nat × Ty)) : Prop where
  length_le : params.length ≤ room
  index_lt : ∀ param ∈ params, param.1 < symbols.locals.length

theorem GoodParams.nil (room : Nat) (symbols : Symbols) : GoodParams room symbols [] :=
  ⟨Nat.zero_le _, fun _ hparam => absurd hparam List.not_mem_nil⟩

/-- Another parameter that is among the locals takes one place more. -/
theorem GoodParams.cons {room : Nat} {symbols : Symbols} {params : List (Nat × Ty)}
    (h : GoodParams room symbols params) {param : Nat × Ty}
    (hparam : param.1 < symbols.locals.length) : GoodParams (room + 1) symbols (param :: params) where
  length_le := by
    rw [List.length_cons]
    exact Nat.succ_le_succ h.length_le
  index_lt found hfound := by
    rcases List.mem_cons.1 hfound with rfl | hfound
    · exact hparam
    · exact h.index_lt found hfound

/-- Parameters stay among the locals when tables grow. -/
theorem GoodParams.extend {room : Nat} {symbols larger : Symbols} {params : List (Nat × Ty)}
    (h : GoodParams room symbols params) (hext : symbols.Extends larger) :
    GoodParams room larger params where
  length_le := h.length_le
  index_lt param hparam := Nat.lt_of_lt_of_le (h.index_lt param hparam) hext.locals.length_le

/-- No more parameters are read than there is room for, and each is declared as a local. -/
theorem readsFrom_parameters : ∀ (room : Nat) (s : ParseState), s.Valid honest →
    ReadsFrom honest ParseState.Grows s (parameters room) (GoodParams room)
  | 0, s, hs => by
    unfold parameters
    exact (readsFrom_here steps_grows hs).bind steps_grows fun _ _ _ _ _ => readsFrom_complainAt _ _
  | room + 1, s, hs => by
    unfold parameters
    refine (readsFrom_identifier steps_grows hs).bind steps_grows ?_
    rintro ⟨name, _⟩ t ht _ _
    refine (readsFrom_type steps_grows ht).bind steps_grows fun ty u hu _ hty => ?_
    have hdecay : honest → ty.decay.Sized := fun hhonest => (hty hhonest).decay
    refine (readsFrom_addLocal hu name hdecay).bind steps_grows fun index v hv _ hindex => ?_
    obtain ⟨found, hfound⟩ := hindex
    have hindex : index < v.symbols.locals.length := exists_entry_eq_ok_iff.1 ⟨found, hfound⟩
    refine (readsFrom_accept steps_grows hv ")").bind steps_grows fun closed w hw hvw _ => ?_
    -- The tables only grow, so the parameter is still there when the list ends.
    have hindex : index < w.symbols.locals.length :=
      Nat.lt_of_lt_of_le hindex hvw.symbols.locals.length_le
    cases closed with
    | true => exact readsFrom_pure steps_grows hw ((GoodParams.nil room _).cons hindex)
    | false =>
      refine (readsFrom_expect steps_grows hw ",").bind steps_grows fun _ x hx hwx _ => ?_
      refine (readsFrom_parameters room x hx).bind steps_grows fun more y hy hxy hmore => ?_
      have hlarger := hwx.symbols.trans hxy.symbols
      exact readsFrom_pure steps_grows hy
        (hmore.cons (Nat.lt_of_lt_of_le hindex hlarger.locals.length_le))

/-- A total of sizes that is given is their sum. -/
theorem foldlM_addSize? : ∀ (locals : List Variable) (start total : Int),
    locals.foldlM (fun total v => addSize? total v.ty.size) start = some total →
      total = start + (locals.map (·.ty.size)).sum
  | [], start, total, h => by
    rw [List.foldlM_nil] at h
    rw [List.map_nil, List.sum_nil, Int.add_zero, Option.some.inj h]
  | v :: locals, start, total, h => by
    rw [List.foldlM_cons] at h
    obtain ⟨next, hnext, hrest⟩ := Option.bind_eq_some_iff.1 h
    rw [foldlM_addSize? locals next total hrest]
    have hnext : next = start + v.ty.size := by
      unfold addSize? at hnext
      split at hnext
      · exact (Option.some.inj hnext).symm
      · exact nomatch hnext
    rw [hnext, List.map_cons, List.sum_cons, Int.add_assoc]

/-- The locals of a function that passes the check need no more than the limit. -/
theorem sum_le_of_frameBytes {locals : List Variable}
    (h : (frameBytes? locals).any (· ≤ maxObjectSize) = true) :
    (locals.map (·.ty.size)).sum ≤ maxObjectSize := by
  obtain ⟨total, htotal⟩ : ∃ total, frameBytes? locals = some total := by
    cases hbytes : frameBytes? locals with
    | none => rw [hbytes] at h; exact nomatch h
    | some total => exact ⟨total, rfl⟩
  rw [htotal] at h
  have hsum := foldlM_addSize? locals 0 total htotal
  have hle : total ≤ maxObjectSize := of_decide_eq_true h
  omega

/-- The locals of a function that passes the check leave room for rounding the frame up. -/
theorem room_of_frameBytes {locals : List Variable}
    (h : (frameBytes? locals).any (· ≤ maxObjectSize) = true) :
    (locals.map (·.ty.size)).sum + 16 ≤ Word.greatest := by
  have hle := sum_le_of_frameBytes h
  simp only [maxObjectSize, Word.greatest] at hle ⊢
  omega

/-- What is read behind the name of a function: its parameters, its result and its body. -/
def Signature (symbols : Symbols) (read : List (Nat × Ty) × Ty × Node) : Prop :=
  GoodParams maxArguments symbols read.1 ∧ read.2.2.Over (Node.Typed symbols)

/-- The parameters are in scope in the body, and out of it behind the body. -/
theorem readsFrom_signature (hs : s.Valid honest) :
    ReadsFrom honest ParseState.Keeps s (inScope do
      expect "("
      let params ← if ← accept ")" then pure [] else parameters maxArguments
      let result ← type
      let start ← here
      expect "\x7b"
      let body ← block stmt start
      return (params, result, body)) Signature := by
  refine readsFrom_inScope ?_
  refine (readsFrom_expect steps_grows hs.enterScope "(").bind steps_grows fun _ t ht _ _ => ?_
  -- With and without parameters, what follows is read in the same way.
  have hrest : ∀ params u, u.Valid honest → GoodParams maxArguments u.symbols params →
      ReadsFrom honest ParseState.Grows u (do
        let result ← type
        let start ← here
        expect "\x7b"
        let body ← block stmt start
        return (params, result, body)) Signature := by
    intro params u hu hparams
    refine (readsFrom_type steps_grows hu).bind steps_grows fun result v hv huv _ => ?_
    refine (readsFrom_here steps_grows hv).bind steps_grows fun start w hw hvw _ => ?_
    refine (readsFrom_expect steps_grows hw "\x7b").bind steps_grows fun _ x hx hwx _ => ?_
    refine ((readsFrom_block readsStmt_stmt hx start).widen steps_grows).bind steps_grows
      fun body y hy hxy hbody => ?_
    have huy := ((huv.symbols.trans hvw.symbols).trans hwx.symbols).trans hxy.symbols
    exact readsFrom_pure steps_grows hy ⟨hparams.extend huy, hbody⟩
  refine (readsFrom_accept steps_grows ht ")").bind steps_grows fun closed u hu _ _ => ?_
  cases closed with
  | true => exact hrest [] u hu (GoodParams.nil _ _)
  | false =>
    exact (readsFrom_parameters maxArguments u hu).bind steps_grows
      fun params v hv _ hparams => hrest params v hv hparams

/-- A function is put into the program with its locals, which are forgotten behind it. -/
theorem endsOutside_function (hs : s.Outside honest) : EndsOutside honest s function := by
  unfold function
  refine EndsOutside.bind hs (readsFrom_identifier steps_keeps hs.valid) ?_
  rintro ⟨name, loc⟩ t ht _ _
  refine EndsOutside.bind ht (readsFrom_checkFunction steps_keeps ht.valid name loc)
    fun _ u hu _ _ => ?_
  -- From here on the locals are those of this function.
  refine endsOutside_modify ?_
  unfold EndsOutside
  rw [StateT.run_bind]
  refine Ends.bind (readsFrom_signature hu.forget) ?_
  rintro ⟨⟨params, result, body⟩, v⟩ ⟨hv, huv, hparams, hbody⟩
  change Ends (StateT.run (if _ then _ else _) v) _ _
  split
  · next hroom =>
    refine hu.addFunction hv huv fun hhonest => ?_
    exact {
      body := hbody
      params := fun index hindex => by
        obtain ⟨param, hparam, rfl⟩ := List.mem_map.1 hindex
        exact hparams.index_lt param hparam
      arity := by
        rw [List.length_map]
        exact hparams.length_le
      sizes := fun v hv' => (hv.locals hhonest v hv').1
      room := room_of_frameBytes hroom }
  · trivial

/-! ### Globals -/

/-- Each name of a declaration is checked against those in front of it. -/
theorem endsOutside_declareGlobals {ty : Ty} (hty : honest → ty.Sized) :
    ∀ (names : List DeclaredName) (values : List Node) (s : ParseState), s.Outside honest →
      EndsOutside honest s (declareGlobals ty names values)
  | [], _, _, hs => hs
  | declared :: names, values, s, hs => by
    unfold declareGlobals
    have hdeclared : honest → (declared.ty ty).Sized := fun hhonest =>
      (hty hhonest).pointers declared.stars
    refine EndsOutside.bind hs (readsFrom_checkSymbol steps_keeps hs.valid _ _) fun _ t ht _ _ => ?_
    cases values with
    -- A global without an initial value has no contents, so nothing has to fit.
    | nil =>
      have hstorable : honest → Variable.Storable ⟨declared.name, declared.ty ty, none⟩ :=
        fun _ bytes hbytes => nomatch hbytes
      exact endsOutside_declareGlobals hty names [] _ (ht.addGlobal hstorable)
    | cons value rest =>
      have hcontents := storable_contentsFor t.globals value hdeclared declared.name
      refine endsOutside_get ?_
      unfold EndsOutside
      rw [StateT.run_bind]
      cases hvalue : contentsFor t.globals value (declared.ty ty) with
      | error failure => exact hcontents.of_eq_error hvalue
      | ok contents =>
        exact endsOutside_declareGlobals hty names rest _
          (ht.addGlobal (hcontents.of_eq_ok hvalue))

/-- A declaration outside of functions ends as it starts: outside of functions. -/
theorem endsOutside_global (hs : s.Outside honest) : EndsOutside honest s global := by
  unfold global
  refine EndsOutside.bind hs (readsFrom_declaredNames steps_keeps hs.valid) fun names t ht _ _ => ?_
  refine EndsOutside.bind ht (readsFrom_type steps_keeps ht.valid) fun ty u hu _ hty => ?_
  refine EndsOutside.bind hu (readsFrom_initializers steps_keeps hu.valid names.length)
    fun values v hv _ _ => ?_
  exact endsOutside_declareGlobals hty names values v hv

/-- What is read outside of functions is a function or a declaration of globals. -/
theorem endsOutside_topLevel (hs : s.Outside honest) : EndsOutside honest s topLevel := by
  unfold topLevel
  refine EndsOutside.bind hs (readsFrom_accept steps_keeps hs.valid "func")
    fun isFunc t ht _ _ => ?_
  cases isFunc with
  | true => exact endsOutside_function ht
  | false =>
    refine EndsOutside.bind ht (readsFrom_accept steps_keeps ht.valid "var")
      fun isVar u hu _ _ => ?_
    cases isVar with
    | true => exact endsOutside_global hu
    | false => trivial

end Parse

/-! ### Whole programs -/

/-- **The program of a valid state is sound**, if the tokens are honest. -/
theorem ParseState.Valid.sound {s : ParseState} (hs : s.Valid honest) (hhonest : honest) :
    s.program.Sound :=
  ⟨hs.globals hhonest, hs.functions hhonest⟩

/-- Declarations are read one after the other, each from a state between declarations. -/
theorem readUnitsWithin_sound : ∀ (bound : Nat) (s : ParseState), s.Outside honest →
    (honest → (readUnitsWithin bound s).1.Sound)
      ∧ ∀ failure ∈ (readUnitsWithin bound s).2, failure.IsComplaint
  | 0, s, hs => ⟨hs.valid.sound, fun failure hfailure => nomatch hfailure⟩
  | bound + 1, s, hs => by
    unfold readUnitsWithin
    by_cases hend : s.atEnd = true
    · rw [if_pos hend]
      exact ⟨hs.valid.sound, fun failure hfailure => nomatch hfailure⟩
    · rw [if_neg hend]
      have htop := Parse.endsOutside_topLevel hs
      unfold Parse.EndsOutside at htop
      split
      · next next hnext =>
        exact readUnitsWithin_sound bound next (htop.of_eq_ok hnext)
      · next failure hfailure =>
        refine ⟨hs.valid.sound, fun found hfound => ?_⟩
        obtain rfl := Option.some.inj hfound
        exact htop.of_eq_error hfailure

/-- **Reading gives a program or a complaint**, whatever the tokens are, and the program is sound if
they are honest. -/
theorem ends_parse (source : Source) (tokens : List Token) :
    Ends (parse source tokens)
      (fun program => (∀ token ∈ tokens, token.Honest) → program.Sound) Failure.IsComplaint := by
  have hvalid : ParseState.Valid (∀ token ∈ tokens, token.Honest)
      { rest := tokens, stop := source.byteSize } :=
    { tokens := fun htokens => htokens
      scopes := fun scope hscope binding hbinding => by
        rw [List.mem_singleton.1 hscope] at hbinding
        exact absurd hbinding List.not_mem_nil
      locals := fun _ v hv => absurd hv List.not_mem_nil
      globals := fun _ v hv => absurd hv List.not_mem_nil
      functions := fun _ f hf => absurd hf List.not_mem_nil }
  obtain ⟨hsound, hfailure⟩ := readUnitsWithin_sound (tokens.length + 1) _ ⟨hvalid, hvalid⟩
  unfold parse readUnits
  split
  · next program hread =>
    rw [hread] at hsound
    exact hsound
  · next failure hread =>
    rw [hread] at hfailure
    exact hfailure failure rfl

end PocketCompiler
