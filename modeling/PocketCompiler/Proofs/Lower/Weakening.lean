import PocketCompiler.Proofs.Lower.Program
import PocketCompiler.Proofs.Typing

/-!
# Code in a longer program

Code refers to a global by its index, so globals that come behind those there are make no difference
to it (`Lower.exprAt_of_isPrefix`, `Lower.functionFrom_of_isPrefix`).  The number of conditionals
and loops is handed from one function to the next, so functions that come behind make none either
(`Lower.exists_of_functionsFrom_append`).  Hence the assembly of a program that starts like another
one is longer at two places only, behind the data and behind the code (`Program.Starts.lower`).
-/

namespace PocketCompiler

namespace Lower

variable {routine : Routine} {globals : List Variable}

theorem variableAt_of_isPrefix (h : routine.globals <+: globals) {ref : VarRef} {code : Code}
    (hcode : variableAt routine ref = .ok code) :
    variableAt { routine with globals } ref = .ok code := by
  cases ref with
  | localVar index => exact hcode
  | globalVar index =>
    obtain ⟨found, hfound, hline⟩ := bind_eq_ok_iff.1 hcode
    exact bind_eq_ok_iff.2 ⟨found, entry_of_isPrefix h hfound, hline⟩

/-- With more globals, expressions of every kind have the code that they have. -/
theorem cases_isPrefix (h : routine.globals <+: globals) :
    ExprCases routine
      (fun depth node code => exprAt { routine with globals } depth node = .ok code)
      (fun depth node code => addressAt { routine with globals } depth node = .ok code)
      (fun depth nodes code => argumentsAt { routine with globals } depth nodes = .ok code) where
  num _ _ _ := by rw [exprAt]
  var _ _ _ _ hplace := by
    rw [exprAt]
    exact bind_eq_ok_iff.2 ⟨_, variableAt_of_isPrefix h hplace, rfl⟩
  neg _ _ _ _ hcode := by
    rw [exprAt]
    exact bind_eq_ok_iff.2 ⟨_, hcode, rfl⟩
  addr _ _ _ _ hcode := by
    rw [exprAt]
    exact hcode
  deref _ _ _ _ hcode := by
    rw [exprAt]
    exact bind_eq_ok_iff.2 ⟨_, hcode, rfl⟩
  binary _ _ _ _ _ _ _ hright hleft := by
    rw [exprAt]
    exact bind_eq_ok_iff.2 ⟨_, hright, bind_eq_ok_iff.2 ⟨_, hleft, rfl⟩⟩
  assign _ _ _ _ _ _ hplace hcode := by
    rw [exprAt]
    exact bind_eq_ok_iff.2 ⟨_, hplace, bind_eq_ok_iff.2 ⟨_, hcode, rfl⟩⟩
  call _ _ _ _ _ _ hpushed hcalled := by
    rw [exprAt]
    exact bind_eq_ok_iff.2 ⟨_, hpushed, bind_eq_ok_iff.2 ⟨_, hcalled, rfl⟩⟩
  varAddress _ _ _ _ hplace := by
    rw [addressAt]
    exact variableAt_of_isPrefix h hplace
  derefAddress _ _ _ _ hcode := by
    rw [addressAt]
    exact hcode
  nil _ := by rw [argumentsAt]
  cons _ _ _ _ _ hcode hmore := by
    rw [argumentsAt]
    exact bind_eq_ok_iff.2 ⟨_, hcode, bind_eq_ok_iff.2 ⟨_, hmore, rfl⟩⟩

theorem exprAt_of_isPrefix (h : routine.globals <+: globals) {depth : Nat} {node : Node}
    {code : Code} (hcode : exprAt routine depth node = .ok code) :
    exprAt { routine with globals } depth node = .ok code :=
  (cases_isPrefix h).exprAt node hcode

theorem exprSomeAt_of_isPrefix (h : routine.globals <+: globals) {node : Option Node} {code : Code}
    (hcode : exprSomeAt routine node = .ok code) :
    exprSomeAt { routine with globals } node = .ok code := by
  cases node with
  | none => exact hcode
  | some node => exact exprAt_of_isPrefix h hcode

theorem guardAt_of_isPrefix (h : routine.globals <+: globals) {exit : Label} {cond : Option Node}
    {code : Code} (hcode : guardAt routine exit cond = .ok code) :
    guardAt { routine with globals } exit cond = .ok code := by
  cases cond with
  | none => exact hcode
  | some cond =>
    obtain ⟨test, htest, hline⟩ := bind_eq_ok_iff.1 hcode
    exact bind_eq_ok_iff.2 ⟨test, exprAt_of_isPrefix h htest, hline⟩

/-- With more globals, statements of every kind have the code that they have. -/
theorem cases_stmt_isPrefix (h : routine.globals <+: globals) :
    StmtCases routine
      (fun labels node code last =>
        stmtFrom { routine with globals } labels node = .ok (code, last))
      (fun labels nodes code last =>
        stmtsFrom { routine with globals } labels nodes = .ok (code, last))
      (fun labels node code last =>
        stmtSomeFrom { routine with globals } labels node = .ok (code, last)) where
  exprStmt _ _ _ _ hcode := (cases_code _).exprStmt _ _ _ _ (exprAt_of_isPrefix h hcode)
  ret _ _ _ _ hcode := (cases_code _).ret _ _ _ _ (exprAt_of_isPrefix h hcode)
  block := (cases_code _).block
  ifElse _ _ _ _ _ _ _ _ _ _ htest :=
    (cases_code _).ifElse _ _ _ _ _ _ _ _ _ _ (exprAt_of_isPrefix h htest)
  loop _ _ _ _ _ _ _ _ _ _ _ hstart htest hinside hnext :=
    (cases_code _).loop _ _ _ _ _ _ _ _ _ _ _ (exprSomeAt_of_isPrefix h hstart)
      (guardAt_of_isPrefix h htest) hinside (exprSomeAt_of_isPrefix h hnext)
  nil := (cases_code _).nil
  cons := (cases_code _).cons
  missing := (cases_code _).missing
  present := (cases_code _).present

/-- **More globals make no difference to the code of a function.** -/
theorem functionFrom_of_isPrefix {fewer : List Variable} (h : fewer <+: globals) {labels : Nat}
    {f : Function} {frame : Frame} {r : Code × Nat}
    (hcode : functionFrom fewer labels f frame = .ok r) :
    functionFrom globals labels f frame = .ok r := by
  obtain ⟨arguments, harguments, hrest⟩ := bind_eq_ok_iff.1 hcode
  obtain ⟨⟨body, last⟩, hbody, hline⟩ := bind_eq_ok_iff.1 hrest
  have hroutine : (routineOf fewer f frame).globals <+: globals := h
  have hbody' := (cases_stmt_isPrefix hroutine).stmtFrom f.body hbody
  exact bind_eq_ok_iff.2 ⟨arguments, harguments, bind_eq_ok_iff.2 ⟨_, hbody', hline⟩⟩

/-- Functions are lowered one after the other, and the first ones without a look at the others. -/
theorem exists_of_functionsFrom_append {fs gs : List (Function × Frame)} {labels last : Nat}
    {all : Code} (h : functionsFrom globals labels (fs ++ gs) = .ok (all, last)) :
    ∃ code middle more, functionsFrom globals labels fs = .ok (code, middle)
      ∧ functionsFrom globals middle gs = .ok (more, last) ∧ all = code ++ more := by
  induction fs generalizing labels all with
  | nil => exact ⟨[], labels, all, rfl, h, rfl⟩
  | cons first fs ih =>
    obtain ⟨f, frame⟩ := first
    rw [List.cons_append, functionsFrom] at h
    obtain ⟨⟨code, middle⟩, hfirst, hrest⟩ := bind_eq_ok_iff.1 h
    obtain ⟨⟨rest, last'⟩, hmore, hline⟩ := bind_eq_ok_iff.1 hrest
    obtain ⟨rfl, rfl⟩ := Prod.mk.inj (Except.ok.inj hline)
    obtain ⟨inner, labels', more, hinner, hgs, rfl⟩ := ih hmore
    refine ⟨code ++ inner, labels', more, ?_, hgs, (List.append_assoc _ _ _).symm⟩
    rw [functionsFrom]
    exact bind_eq_ok_iff.2 ⟨_, hfirst, bind_eq_ok_iff.2 ⟨_, hinner, rfl⟩⟩

/-- **More globals make no difference to the code of functions.** -/
theorem functionsFrom_of_isPrefix {fewer : List Variable} (h : fewer <+: globals)
    {fs : List (Function × Frame)} {labels : Nat} {r : Code × Nat}
    (hcode : functionsFrom fewer labels fs = .ok r) : functionsFrom globals labels fs = .ok r := by
  induction fs generalizing labels r with
  | nil => exact hcode
  | cons first fs ih =>
    obtain ⟨f, frame⟩ := first
    rw [functionsFrom] at hcode ⊢
    obtain ⟨⟨code, middle⟩, hfirst, hrest⟩ := bind_eq_ok_iff.1 hcode
    obtain ⟨⟨more, last⟩, hmore, hline⟩ := bind_eq_ok_iff.1 hrest
    exact bind_eq_ok_iff.2 ⟨_, functionFrom_of_isPrefix h hfirst,
      bind_eq_ok_iff.2 ⟨_, ih hmore, hline⟩⟩

end Lower

/-! ### Programs -/

/-- `larger` has the globals and functions of `program`, in front of its others. -/
structure Program.Starts (program larger : Program) : Prop where
  globals : program.globals <+: larger.globals
  functions : program.functions <+: larger.functions

theorem mapM_append_eq_ok {α β : Type} {f : α → Except Fault β} {xs more : List α} {ys zs : List β}
    (h : xs.mapM f = .ok ys) (h' : (xs ++ more).mapM f = .ok zs) :
    ∃ rest, more.mapM f = .ok rest ∧ zs = ys ++ rest := by
  rw [List.mapM_append] at h'
  obtain ⟨first, hfirst, h'⟩ := bind_eq_ok_iff.1 h'
  obtain ⟨rest, hrest, hline⟩ := bind_eq_ok_iff.1 h'
  obtain rfl : ys = first := Except.ok.inj (h.symm.trans hfirst)
  exact ⟨rest, hrest, (Except.ok.inj hline).symm⟩

/-- **A longer program has the assembly of a shorter one**, with more data behind its data and more
code behind its code. -/
theorem Program.Starts.lower {program larger : Program} {listing listing' : Listing}
    (h : program.Starts larger) (hlower : program.lower = .ok listing)
    (hlower' : larger.lower = .ok listing') :
    listing.data <+: listing'.data ∧ listing.code <+: listing'.code := by
  obtain ⟨globals, functions⟩ := program
  obtain ⟨moreGlobals, moreFunctions⟩ := larger
  obtain ⟨⟨addedGlobals, rfl⟩, ⟨addedFunctions, rfl⟩⟩ := h
  rw [Program.lower_eq] at hlower hlower'
  obtain ⟨frames, hframes, hrest⟩ := bind_eq_ok_iff.1 hlower
  obtain ⟨data, hdata, hrest⟩ := bind_eq_ok_iff.1 hrest
  obtain ⟨⟨code, labels⟩, hcode, hline⟩ := bind_eq_ok_iff.1 hrest
  obtain rfl := Except.ok.inj hline
  obtain ⟨frames', hframes', hrest⟩ := bind_eq_ok_iff.1 hlower'
  obtain ⟨data', hdata', hrest⟩ := bind_eq_ok_iff.1 hrest
  obtain ⟨⟨code', labels'⟩, hcode', hline⟩ := bind_eq_ok_iff.1 hrest
  obtain rfl := Except.ok.inj hline
  obtain ⟨addedFrames, -, rfl⟩ := mapM_append_eq_ok hframes hframes'
  obtain ⟨addedData, -, rfl⟩ := mapM_append_eq_ok hdata hdata'
  have hlength : functions.length = frames.length := (forall₂_of_mapM_eq_ok hframes).length_eq
  -- More globals change no code, and the code of more functions comes behind.
  have hcode := Lower.functionsFrom_of_isPrefix (List.prefix_append globals addedGlobals) hcode
  rw [List.zip_append hlength] at hcode'
  obtain ⟨first, middle, more, hfirst, -, rfl⟩ := Lower.exists_of_functionsFrom_append hcode'
  obtain ⟨rfl, -⟩ := Prod.mk.inj (Except.ok.inj (hcode.symm.trans hfirst))
  refine ⟨?_, List.prefix_append code more⟩
  rw [List.flatten_append]
  exact List.prefix_append _ _

end PocketCompiler
