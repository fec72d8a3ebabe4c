import Mathlib.Algebra.Order.BigOperators.Group.List
import Mathlib.Algebra.Order.Ring.Int
import PocketCompiler.Proofs.Lower.Program
import PocketCompiler.Proofs.Typing

/-!
# Well-formed programs have assembly

`Program.Sound` says what lowering relies on: the bodies of functions are well-typed statements,
parameters are among the locals and fit into registers, and sizes stay far below the greatest
word.  `Program.Sound.exists_lower`: a sound program has assembly, so none of the faults of
lowering occurs.
-/

namespace PocketCompiler

/-! ### Expressions -/

namespace Lower

/-- A routine whose tables have a place for every variable of `symbols`. -/
structure Covers (routine : Routine) (symbols : Symbols) : Prop where
  locals : symbols.locals.length ≤ routine.offsets.length
  globals : symbols.globals.length ≤ routine.globals.length

theorem Covers.variableAt {routine : Routine} {symbols : Symbols} (h : Covers routine symbols)
    {ref : VarRef} {found : Variable} (hget : symbols.get ref = .ok found) :
    ∃ code, variableAt routine ref = .ok code := by
  cases ref with
  | localVar index =>
    have hindex : index < symbols.locals.length := exists_entry_eq_ok_iff.1 ⟨found, hget⟩
    obtain ⟨offset, hoffset⟩ := exists_entry_eq_ok_iff.2 (Nat.lt_of_lt_of_le hindex h.locals)
    exact ⟨_, bind_eq_ok_iff.2 ⟨offset, hoffset, rfl⟩⟩
  | globalVar index =>
    have hindex : index < symbols.globals.length := exists_entry_eq_ok_iff.1 ⟨found, hget⟩
    obtain ⟨other, hother⟩ := exists_entry_eq_ok_iff.2 (Nat.lt_of_lt_of_le hindex h.globals)
    exact ⟨_, bind_eq_ok_iff.2 ⟨other, hother, rfl⟩⟩

/-- What has an address and has code has code for its address. -/
theorem exists_addressAt {routine : Routine} {depth : Nat} {node : Node} {code : Code}
    (haddress : node.hasAddress = true) (h : exprAt routine depth node = .ok code) :
    ∃ place, addressAt routine depth node = .ok place := by
  cases node with
  | var mark ref =>
    rw [exprAt] at h
    obtain ⟨place, hplace, -⟩ := bind_eq_ok_iff.1 h
    exact ⟨place, by rw [addressAt]; exact hplace⟩
  | deref mark operand =>
    rw [exprAt] at h
    obtain ⟨place, hplace, -⟩ := bind_eq_ok_iff.1 h
    exact ⟨place, by rw [addressAt]; exact hplace⟩
  | _ => exact absurd haddress (by simp [Node.hasAddress])

theorem exists_callAt (depth : Nat) (name : String) {count : Nat} (h : count ≤ maxArguments) :
    ∃ code, callAt depth name count = .ok code := by
  have hcount : count ≤ Reg.forArguments.length := h
  unfold callAt
  rw [if_pos hcount]
  exact ⟨_, rfl⟩

theorem exists_argumentsAt {routine : Routine} : ∀ (args : List Node) (depth : Nat),
    (∀ arg ∈ args, ∀ depth, ∃ code, exprAt routine depth arg = .ok code) →
      ∃ code, argumentsAt routine depth args = .ok code
  | [], _, _ => ⟨[], by rw [argumentsAt]⟩
  | arg :: args, depth, h => by
    obtain ⟨code, hcode⟩ := h arg List.mem_cons_self depth
    obtain ⟨more, hmore⟩ := exists_argumentsAt args (depth + 1)
      fun a ha => h a (List.mem_cons_of_mem _ ha)
    exact ⟨_, by rw [argumentsAt, hcode, hmore]; rfl⟩

/-- A well-typed expression has code at every depth. -/
theorem exists_exprAt {routine : Routine} {symbols : Symbols} (hroutine : Covers routine symbols)
    {node : Node} (h : node.Typed symbols) :
    ∀ depth, ∃ code, exprAt routine depth node = .ok code := by
  -- The code of an expression is put together from that of its operands, so there is some.
  induction h with
  | num => exact fun depth => ⟨_, by rw [exprAt]⟩
  | var hget =>
    intro depth
    obtain ⟨place, hplace⟩ := hroutine.variableAt hget
    exact ⟨_, by rw [exprAt, hplace]; rfl⟩
  | neg _ _ ih =>
    intro depth
    obtain ⟨code, hcode⟩ := ih depth
    exact ⟨_, by rw [exprAt, hcode]; rfl⟩
  -- An operand with an address has code that ends in loading it, and what is in front is its
  -- address.
  | addr haddress _ _ ih =>
    intro depth
    obtain ⟨code, hcode⟩ := ih depth
    obtain ⟨place, hplace⟩ := exists_addressAt haddress hcode
    exact ⟨place, by rw [exprAt, hplace]⟩
  | deref _ _ _ ih =>
    intro depth
    obtain ⟨code, hcode⟩ := ih depth
    exact ⟨_, by rw [exprAt, hcode]; rfl⟩
  | binary _ _ _ ihl ihr =>
    intro depth
    obtain ⟨right, hright⟩ := ihr depth
    obtain ⟨left, hleft⟩ := ihl (depth + 1)
    exact ⟨_, by rw [exprAt, hright, hleft]; rfl⟩
  | assign haddress _ _ _ _ iht ihv =>
    intro depth
    obtain ⟨target, htarget⟩ := iht depth
    obtain ⟨place, hplace⟩ := exists_addressAt haddress htarget
    obtain ⟨code, hcode⟩ := ihv (depth + 1)
    exact ⟨_, by rw [exprAt, hplace, hcode]; rfl⟩
  | call hlength _ ih =>
    intro depth
    obtain ⟨pushed, hpushed⟩ := exists_argumentsAt _ depth ih
    obtain ⟨called, hcalled⟩ := exists_callAt depth _ hlength
    exact ⟨_, by rw [exprAt, hpushed, hcalled]; rfl⟩

/-! ### Statements -/

section Statements

variable {routine : Routine} {p : Node → Prop}

theorem exists_exprSomeAt (hp : ∀ node, p node → ∃ code, exprAt routine 0 node = .ok code)
    {node : Option Node} (h : ∀ n ∈ node, p n) : ∃ code, exprSomeAt routine node = .ok code := by
  cases node with
  | none => exact ⟨[], rfl⟩
  | some node => exact hp node (h node rfl)

theorem exists_guardAt (hp : ∀ node, p node → ∃ code, exprAt routine 0 node = .ok code)
    (exit : Label) {cond : Option Node} (h : ∀ n ∈ cond, p n) :
    ∃ code, guardAt routine exit cond = .ok code := by
  cases cond with
  | none => exact ⟨[], rfl⟩
  | some cond =>
    obtain ⟨code, hcode⟩ := hp cond (h cond rfl)
    exact ⟨_, by rw [guardAt, hcode]; rfl⟩

theorem exists_stmtsFrom : ∀ (nodes : List Node) (labels : Nat),
    (∀ node ∈ nodes, ∀ labels, ∃ r, stmtFrom routine labels node = .ok r) →
      ∃ r, stmtsFrom routine labels nodes = .ok r
  | [], labels, _ => ⟨([], labels), (cases_code routine).nil labels⟩
  | node :: nodes, labels, h => by
    obtain ⟨⟨code, middle⟩, hcode⟩ := h node List.mem_cons_self labels
    obtain ⟨⟨more, last⟩, hmore⟩ := exists_stmtsFrom nodes middle
      fun n hn => h n (List.mem_cons_of_mem _ hn)
    exact ⟨(code ++ more, last), (cases_code routine).cons _ _ _ _ _ _ _ hcode hmore⟩

/-- A statement has code if the expressions in it have. -/
theorem exists_stmtFrom (hp : ∀ node, p node → ∃ code, exprAt routine 0 node = .ok code)
    {node : Node} (h : node.Over p) : ∀ labels, ∃ r, stmtFrom routine labels node = .ok r := by
  -- For every number of labels, since a part is lowered with those behind the parts before it.
  induction h with
  | exprStmt hnode =>
    intro labels
    obtain ⟨code, hcode⟩ := hp _ hnode
    exact ⟨_, (cases_code routine).exprStmt labels _ _ _ hcode⟩
  | ret hvalue =>
    intro labels
    obtain ⟨code, hcode⟩ := hp _ hvalue
    exact ⟨_, (cases_code routine).ret labels _ _ _ hcode⟩
  | block _ ih =>
    intro labels
    obtain ⟨⟨code, last⟩, hcode⟩ := exists_stmtsFrom _ labels ih
    exact ⟨(code, last), (cases_code routine).block labels _ _ _ _ hcode⟩
  | @ifElse _ _ _ onFalse hcond _ _ iht ihf =>
    intro labels
    obtain ⟨test, htest⟩ := hp _ hcond
    obtain ⟨⟨first, middle⟩, hfirst⟩ := iht (labels + 1)
    have hsecond : ∃ r, stmtSomeFrom routine middle onFalse = .ok r := by
      cases onFalse with
      | none => exact ⟨([], middle), (cases_code routine).missing middle⟩
      | some node => rw [stmtSomeFrom]; exact ihf node rfl middle
    obtain ⟨⟨second, last⟩, hsecond⟩ := hsecond
    exact ⟨_, (cases_code routine).ifElse labels _ _ _ _ _ _ _ _ _ htest hfirst hsecond⟩
  | loop hinit hcond hstep _ ih =>
    intro labels
    obtain ⟨start, hstart⟩ := exists_exprSomeAt hp hinit
    obtain ⟨test, htest⟩ := exists_guardAt hp (.endOf (labels + 1)) hcond
    obtain ⟨⟨inside, last⟩, hinside⟩ := ih (labels + 1)
    obtain ⟨next, hnext⟩ := exists_exprSomeAt hp hstep
    exact ⟨_, (cases_code routine).loop labels _ _ _ _ _ _ _ _ _ _ hstart htest hinside hnext⟩

end Statements

end Lower

/-! ### Frames -/

/-- Locals that need no more than the words there are get a place each, in the bytes that they
need together. -/
theorem Frame.place_of_le : ∀ (types : List Ty) (used : Int), 0 ≤ used →
    (∀ ty ∈ types, 0 ≤ ty.size) → used + (types.map Ty.size).sum ≤ Word.greatest →
      ∃ offsets, offsets.length = types.length
        ∧ Frame.place used types = .ok (offsets, used + (types.map Ty.size).sum)
  | [], used, _, _, _ => ⟨[], rfl, by simp [Frame.place]⟩
  | ty :: types, used, hused, hsizes, htotal => by
    have hty : 0 ≤ ty.size := hsizes ty List.mem_cons_self
    have hrest : ∀ t ∈ types, 0 ≤ t.size := fun t ht => hsizes t (List.mem_cons_of_mem _ ht)
    have hsum : 0 ≤ (types.map Ty.size).sum := by
      apply List.sum_nonneg
      intro n hn
      obtain ⟨t, ht, rfl⟩ := List.mem_map.1 hn
      exact hrest t ht
    rw [List.map_cons, List.sum_cons] at htotal
    -- No sum on the way is greater than the last one, and no offset is below its negative.
    have hadd : Word.add used ty.size = .ok (used + ty.size) := by
      apply Word.checked_of_fits
      simp only [Word.Fits, Word.least, Word.greatest] at htotal ⊢
      omega
    have hneg : Word.neg (used + ty.size) = .ok (-(used + ty.size)) := by
      apply Word.checked_of_fits
      simp only [Word.Fits, Word.least, Word.greatest] at htotal ⊢
      omega
    obtain ⟨offsets, hlength, hplace⟩ := place_of_le types (used + ty.size) (by omega) hrest
      (by omega)
    refine ⟨-(used + ty.size) :: offsets, by rw [List.length_cons, hlength, List.length_cons], ?_⟩
    rw [Frame.place, hadd]
    refine bind_eq_ok_iff.2 ⟨_, rfl, bind_eq_ok_iff.2 ⟨_, hneg, bind_eq_ok_iff.2 ⟨_, hplace, ?_⟩⟩⟩
    rw [List.map_cons, List.sum_cons, ← Int.add_assoc]
    rfl

/-- Rounding up stays within a word when there is room for one step more. -/
theorem Word.roundUp_of_le {n step : Int} (hn : 0 ≤ n) (hstep : 0 < step)
    (hroom : n + step ≤ Word.greatest) :
    Word.roundUp n step = .ok ((n + step - 1) / step * step) := by
  -- The quotient of nonnegative numbers is the same for both roundings.
  have hdiv : (n + step - 1).tdiv step = (n + step - 1) / step :=
    Int.tdiv_eq_ediv_of_nonneg (by omega)
  have hquot : 0 ≤ (n + step - 1) / step := Int.ediv_nonneg (by omega) hstep.le
  have hself : (n + step - 1) / step ≤ n + step - 1 := Int.ediv_le_self _ (by omega)
  have hprod : 0 ≤ (n + step - 1) / step * step := Int.mul_nonneg hquot hstep.le
  have hback : (n + step - 1) / step * step ≤ n + step - 1 := Int.ediv_mul_le _ hstep.ne'
  simp only [Word.greatest] at hroom
  have hadd : Word.add n step = .ok (n + step) := by
    apply Word.checked_of_fits
    simp only [Word.Fits, Word.least, Word.greatest]
    omega
  have hsub : Word.sub (n + step) 1 = .ok (n + step - 1) := by
    apply Word.checked_of_fits
    simp only [Word.Fits, Word.least, Word.greatest]
    omega
  have hsteps : Word.div (n + step - 1) step = .ok ((n + step - 1) / step) := by
    rw [Word.div, if_neg hstep.ne', hdiv]
    apply Word.checked_of_fits
    simp only [Word.Fits, Word.least, Word.greatest]
    omega
  have hmul : Word.mul ((n + step - 1) / step) step = .ok ((n + step - 1) / step * step) := by
    apply Word.checked_of_fits
    simp only [Word.Fits, Word.least, Word.greatest]
    omega
  exact bind_eq_ok_iff.2 ⟨_, hadd, bind_eq_ok_iff.2 ⟨_, hsub, bind_eq_ok_iff.2 ⟨_, hsteps, hmul⟩⟩⟩

/-- Locals that leave room for 16 bytes more have a frame. -/
theorem Function.exists_frame {function : Function} (hsizes : ∀ v ∈ function.locals, 0 ≤ v.ty.size)
    (hroom : (function.locals.map (·.ty.size)).sum + 16 ≤ Word.greatest) :
    ∃ frame, function.frame = .ok frame ∧ frame.offsets.length = function.locals.length := by
  have hnonneg : ∀ ty ∈ function.locals.map (·.ty), 0 ≤ ty.size := by
    intro ty hty
    obtain ⟨v, hv, rfl⟩ := List.mem_map.1 hty
    exact hsizes v hv
  have htotal : ((function.locals.map (·.ty)).map Ty.size).sum + 16 ≤ Word.greatest := by
    rw [List.map_map]
    exact hroom
  have hsum : 0 ≤ ((function.locals.map (·.ty)).map Ty.size).sum := by
    apply List.sum_nonneg
    intro n hn
    obtain ⟨ty, hty, rfl⟩ := List.mem_map.1 hn
    exact hnonneg ty hty
  obtain ⟨offsets, hlength, hplace⟩ := Frame.place_of_le (function.locals.map (·.ty)) 0 (by omega)
    hnonneg (by omega)
  have hsize : Word.roundUp (0 + ((function.locals.map (·.ty)).map Ty.size).sum) 16 = .ok _ :=
    Word.roundUp_of_le (by omega) (by omega) (by omega)
  have hframe : function.frame = .ok ⟨offsets, _⟩ :=
    bind_eq_ok_iff.2 ⟨_, hplace, bind_eq_ok_iff.2 ⟨_, hsize, rfl⟩⟩
  exact ⟨_, hframe, by rw [hlength, List.length_map]⟩

/-! ### Functions -/

/-- What lowering relies on in a function, given the globals of the program. -/
structure Function.Sound (globals : List Variable) (function : Function) : Prop where
  body : function.body.Over (Node.Typed ⟨function.locals, globals⟩)
  params : ∀ index ∈ function.params, index < function.locals.length
  arity : function.params.length ≤ maxArguments
  sizes : ∀ v ∈ function.locals, 0 ≤ v.ty.size
  room : (function.locals.map (·.ty.size)).sum + 16 ≤ Word.greatest

namespace Lower

theorem exists_spills (offsets : List Int) : ∀ (params : List (Nat × Ty)) (registers : List Reg),
    (∀ param ∈ params, param.1 < offsets.length) → params.length ≤ registers.length →
      ∃ code, spills offsets params registers = .ok code
  | [], _, _, _ => ⟨[], by rw [spills]; rfl⟩
  | (index, ty) :: params, [], _, hlength => absurd hlength (by simp)
  | (index, ty) :: params, src :: registers, h, hlength => by
    obtain ⟨offset, hoffset⟩ := exists_entry_eq_ok_iff.2 (h (index, ty) List.mem_cons_self)
    obtain ⟨more, hmore⟩ := exists_spills offsets params registers
      (fun param hparam => h param (List.mem_cons_of_mem _ hparam)) (by simpa using hlength)
    exact ⟨_, by
      rw [spills]
      exact bind_eq_ok_iff.2 ⟨_, hoffset, bind_eq_ok_iff.2 ⟨_, hmore, rfl⟩⟩⟩

end Lower

/-- A sound function has code behind any number of conditionals and loops. -/
theorem Function.Sound.exists_functionFrom {globals : List Variable} {function : Function}
    (h : function.Sound globals) {frame : Frame}
    (hframe : frame.offsets.length = function.locals.length) (labels : Nat) :
    ∃ r, Lower.functionFrom globals labels function frame = .ok r := by
  have hspills : ∃ arguments, Lower.argumentsInto function frame = .ok arguments := by
    apply Lower.exists_spills
    · intro param hparam
      rw [hframe]
      exact h.params param.1 (List.of_mem_zip hparam).1
    · have harity : function.params.length ≤ Reg.forArguments.length := h.arity
      rw [List.length_zip]
      omega
  have hcovers : Lower.Covers (Lower.routineOf globals function frame)
      ⟨function.locals, globals⟩ := ⟨hframe.ge, le_rfl⟩
  obtain ⟨arguments, harguments⟩ := hspills
  obtain ⟨⟨body, last⟩, hbody⟩ := Lower.exists_stmtFrom
    (fun node hnode => Lower.exists_exprAt hcovers hnode 0) h.body labels
  exact ⟨_, bind_eq_ok_iff.2 ⟨_, harguments, bind_eq_ok_iff.2 ⟨_, hbody, rfl⟩⟩⟩

/-! ### Programs -/

/-- The bytes that a global starts with leave a number of bytes that is a word. -/
def Variable.Storable (stored : Variable) : Prop :=
  ∀ bytes, stored.contents = some (.bytes bytes) → Word.Fits (stored.ty.size - bytes.length)

theorem Lower.exists_padding {ty : Ty} {count : Nat} (h : Word.Fits (ty.size - count)) :
    ∃ code, padding ty count = .ok code := by
  have hsub : Word.sub ty.size count = .ok (ty.size - count) := Word.checked_of_fits h
  by_cases hpos : ty.size - count > 0
  · exact ⟨_, bind_eq_ok_iff.2 ⟨_, hsub, if_pos hpos⟩⟩
  · exact ⟨_, bind_eq_ok_iff.2 ⟨_, hsub, if_neg hpos⟩⟩

theorem Variable.Storable.exists_datum {stored : Variable} (h : stored.Storable) :
    ∃ code, Lower.datum stored = .ok code := by
  have hcontents : ∃ code, Lower.contents stored = .ok code := by
    unfold Lower.contents
    split
    · next bytes hbytes =>
      obtain ⟨zeros, hzeros⟩ := Lower.exists_padding (h bytes hbytes)
      exact ⟨_, bind_eq_ok_iff.2 ⟨zeros, hzeros, rfl⟩⟩
    · exact ⟨_, rfl⟩
    · exact ⟨_, rfl⟩
  obtain ⟨code, hcode⟩ := hcontents
  exact ⟨_, bind_eq_ok_iff.2 ⟨code, hcode, rfl⟩⟩

/-- What lowering relies on in a program. -/
structure Program.Sound (program : Program) : Prop where
  globals : ∀ stored ∈ program.globals, stored.Storable
  functions : ∀ function ∈ program.functions, function.Sound program.globals

/-- Computations that have results one by one have them together. -/
theorem exists_mapM {α β : Type} {f : α → Except Fault β} {p : α → β → Prop} : ∀ (xs : List α),
    (∀ x ∈ xs, ∃ y, f x = .ok y ∧ p x y) → ∃ ys, xs.mapM f = .ok ys ∧ List.Forall₂ p xs ys
  | [], _ => ⟨[], by rw [List.mapM_nil]; rfl, .nil⟩
  | x :: xs, h => by
    obtain ⟨y, hy, hp⟩ := h x List.mem_cons_self
    obtain ⟨ys, hys, hall⟩ := exists_mapM xs fun z hz => h z (List.mem_cons_of_mem _ hz)
    refine ⟨y :: ys, ?_, .cons hp hall⟩
    rw [List.mapM_cons]
    exact bind_eq_ok_iff.2 ⟨y, hy, bind_eq_ok_iff.2 ⟨ys, hys, rfl⟩⟩

/-- Functions that have code one by one have code together. -/
theorem Lower.exists_functionsFrom (globals : List Variable) :
    ∀ (fs : List (Function × Frame)) (labels : Nat),
      (∀ f ∈ fs, ∀ labels, ∃ r, functionFrom globals labels f.1 f.2 = .ok r) →
        ∃ r, functionsFrom globals labels fs = .ok r
  | [], labels, _ => ⟨([], labels), rfl⟩
  | (first, frame) :: more, labels, h => by
    obtain ⟨⟨code, middle⟩, hcode⟩ := h (first, frame) List.mem_cons_self labels
    obtain ⟨⟨rest, last⟩, hrest⟩ := exists_functionsFrom globals more middle
      fun f hf => h f (List.mem_cons_of_mem _ hf)
    exact ⟨_, bind_eq_ok_iff.2 ⟨_, hcode, bind_eq_ok_iff.2 ⟨_, hrest, rfl⟩⟩⟩

/-- **A sound program has assembly.** -/
theorem Program.Sound.exists_lower {program : Program} (h : program.Sound) :
    ∃ listing, program.lower = .ok listing := by
  obtain ⟨frames, hframes, hlengths⟩ := exists_mapM program.functions
    fun function hf => Function.exists_frame (h.functions function hf).sizes
      (h.functions function hf).room
  obtain ⟨data, hdata, -⟩ := exists_mapM (p := fun _ _ => True) program.globals
    fun stored hstored => (h.globals stored hstored).exists_datum.imp fun _ hcode => ⟨hcode, trivial⟩
  obtain ⟨⟨code, last⟩, hcode⟩ := Lower.exists_functionsFrom program.globals
    (program.functions.zip frames) 0 fun f hf labels =>
      (h.functions f.1 (List.of_mem_zip hf).1).exists_functionFrom
        (List.forall₂_zip hlengths hf) labels
  rw [program.lower_eq]
  exact ⟨_, bind_eq_ok_iff.2 ⟨_, hframes, bind_eq_ok_iff.2 ⟨_, hdata,
    bind_eq_ok_iff.2 ⟨_, hcode, rfl⟩⟩⟩⟩

end PocketCompiler
