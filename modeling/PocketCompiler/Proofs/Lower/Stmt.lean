import PocketCompiler.Lower.Stmt
import PocketCompiler.Proofs.Lower.Expr

/-!
# The code of a statement as a function of the label numbers

Between statements nothing waits on the stack, so of all the state `Lower.stmt` depends on the
number of conditionals and loops so far, and leaves behind how many there are then.  `stmtFrom`
computes both from that number alone, and `run_stmt` says that it does.

The check that nothing waits after a statement is a fault of `Lower.balanced` that `stmtFrom` does
not have, so `run_stmt` also says that the check never fails.
-/

namespace PocketCompiler.Lower

/-- The code of a conditional from the code of its parts. -/
def ifCode (number : Nat) (test first second : Code) : Code :=
  test ++ unlessTrue (.elseOf number) ++ first
    ++ [.instr (.jump (.endOf number)), .label (.elseOf number)] ++ second
    ++ [.label (.endOf number)]

/-- The code of a loop from the code of its parts. -/
def loopCode (number : Nat) (start test inside next : Code) : Code :=
  start ++ [.label (.beginOf number)] ++ test ++ inside ++ next
    ++ [.instr (.jump (.beginOf number)), .label (.endOf number)]

/-- The code of an expression, if there is one. -/
def exprSomeAt (routine : Routine) : Option Node → Except Fault Code
  | none => .ok []
  | some node => exprAt routine 0 node

/-- The code that leaves a loop unless its condition holds. -/
def guardAt (routine : Routine) (exit : Label) : Option Node → Except Fault Code
  | none => .ok []
  | some cond => do
    let code ← exprAt routine 0 cond
    return code ++ unlessTrue exit

mutual

/-- The code of a statement behind `labels` conditionals and loops, and their number then. -/
def stmtFrom (routine : Routine) (labels : Nat) : Node → Except Fault (Code × Nat)
  | .exprStmt _ node => do
    let code ← exprAt routine 0 node
    return (code, labels)
  | .ret _ value => do
    let code ← exprAt routine 0 value
    return (code ++ leave routine, labels)
  | .block _ body => stmtsFrom routine labels body
  | .ifElse _ cond onTrue onFalse => do
    let test ← exprAt routine 0 cond
    let (first, middle) ← stmtFrom routine (labels + 1) onTrue
    let (second, last) ← stmtSomeFrom routine middle onFalse
    return (ifCode (labels + 1) test first second, last)
  | .loop _ init cond step body => do
    let start ← exprSomeAt routine init
    let test ← guardAt routine (.endOf (labels + 1)) cond
    let (inside, last) ← stmtFrom routine (labels + 1) body
    let next ← exprSomeAt routine step
    return (loopCode (labels + 1) start test inside next, last)
  | .num _ _ | .var _ _ | .neg _ _ | .addr _ _ | .deref _ _ | .binary _ _ _ _ | .assign _ _ _
  | .call _ _ _ => .error .expressionAsStatement

/-- The code of statements, one after the other. -/
def stmtsFrom (routine : Routine) (labels : Nat) : List Node → Except Fault (Code × Nat)
  | [] => .ok ([], labels)
  | node :: nodes => do
    let (code, middle) ← stmtFrom routine labels node
    let (more, last) ← stmtsFrom routine middle nodes
    return (code ++ more, last)

/-- The code of a statement, if there is one. -/
def stmtSomeFrom (routine : Routine) (labels : Nat) : Option Node → Except Fault (Code × Nat)
  | none => .ok ([], labels)
  | some node => stmtFrom routine labels node

end

/-- A piece of code with the state behind it, when nothing waits on the stack. -/
def settled (r : Code × Nat) : Code × LowerState := (r.1, ⟨0, r.2⟩)

theorem run_exprSome (routine : Routine) (node : Option Node) (labels : Nat) :
    (exprSome routine node).run ⟨0, labels⟩ = (exprSomeAt routine node).map (·, ⟨0, labels⟩) := by
  cases node with
  | none => rfl
  | some node => exact run_expr routine node ⟨0, labels⟩

theorem run_guard (routine : Routine) (exit : Label) (cond : Option Node) (labels : Nat) :
    (guard routine exit cond).run ⟨0, labels⟩
      = (guardAt routine exit cond).map (·, ⟨0, labels⟩) := by
  cases cond with
  | none => rfl
  | some cond =>
    rw [guard, guardAt]
    exact run_bind_of_map (run_expr routine cond ⟨0, labels⟩) fun _ => rfl

theorem run_nextNumber (labels : Nat) :
    nextNumber.run ⟨0, labels⟩ = .ok (labels + 1, ⟨0, labels + 1⟩) := rfl

/-- With nothing waiting on the stack the check passes. -/
theorem run_balanced (loc : Nat) (code : Code) (labels : Nat) :
    (balanced loc code).run ⟨0, labels⟩ = .ok (code, ⟨0, labels⟩) := rfl

mutual

/-- The code of a statement depends on the number of conditionals and loops before it alone, and
nothing waits on the stack behind it. -/
theorem run_stmt (routine : Routine) : ∀ (node : Node) (labels : Nat),
    (stmt routine node).run ⟨0, labels⟩ = (stmtFrom routine labels node).map settled
  -- Every statement ends with as many words waiting as there were, so the check behind it passes.
  | .exprStmt mark node, labels => by
    rw [stmt, stmtFrom]
    exact run_bind_of_map (run_expr routine node ⟨0, labels⟩) fun code =>
      run_balanced mark.loc code labels
  | .ret mark value, labels => by
    rw [stmt, stmtFrom]
    exact run_bind_of_map (run_expr routine value ⟨0, labels⟩) fun code =>
      run_balanced mark.loc (code ++ leave routine) labels
  | .block mark body, labels => by
    rw [stmt, stmtFrom, run_bind_of_map (k := fun r => .ok r) (run_stmts routine body labels)
      fun r => run_balanced mark.loc r.1 r.2]
    cases stmtsFrom routine labels body <;> rfl
  | .ifElse mark cond onTrue onFalse, labels => by
    rw [stmt, stmtFrom, run_bind_of_ok (run_nextNumber labels)]
    exact run_bind_of_map (run_expr routine cond ⟨0, labels + 1⟩) fun test =>
      run_bind_of_map (run_stmt routine onTrue (labels + 1)) fun first =>
        run_bind_of_map (run_stmtSome routine onFalse first.2) fun second =>
          run_balanced mark.loc (ifCode (labels + 1) test first.1 second.1) second.2
  | .loop mark init cond step body, labels => by
    rw [stmt, stmtFrom, run_bind_of_ok (run_nextNumber labels)]
    exact run_bind_of_map (run_exprSome routine init (labels + 1)) fun start =>
      run_bind_of_map (run_guard routine _ cond (labels + 1)) fun test =>
        run_bind_of_map (run_stmt routine body (labels + 1)) fun inside =>
          run_bind_of_map (run_exprSome routine step inside.2) fun next =>
            run_balanced mark.loc (loopCode (labels + 1) start test inside.1 next) inside.2
  | .num _ _, _ => rfl
  | .var _ _, _ => rfl
  | .neg _ _, _ => rfl
  | .addr _ _, _ => rfl
  | .deref _ _, _ => rfl
  | .binary _ _ _ _, _ => rfl
  | .assign _ _ _, _ => rfl
  | .call _ _ _, _ => rfl

theorem run_stmts (routine : Routine) : ∀ (nodes : List Node) (labels : Nat),
    (stmts routine nodes).run ⟨0, labels⟩ = (stmtsFrom routine labels nodes).map settled
  | [], _ => rfl
  | node :: nodes, labels => by
    rw [stmts, stmtsFrom]
    exact run_bind_of_map (run_stmt routine node labels) fun code =>
      run_bind_of_map (run_stmts routine nodes code.2) fun more => rfl

theorem run_stmtSome (routine : Routine) : ∀ (node : Option Node) (labels : Nat),
    (stmtSome routine node).run ⟨0, labels⟩ = (stmtSomeFrom routine labels node).map settled
  | none, _ => rfl
  | some node, labels => run_stmt routine node labels

end

/-- A statement has code exactly when `stmtFrom` gives it. -/
theorem run_stmt_eq_ok_iff {routine : Routine} {node : Node} {labels : Nat} {code : Code}
    {t : LowerState} :
    (stmt routine node).run ⟨0, labels⟩ = .ok (code, t)
      ↔ ∃ last, stmtFrom routine labels node = .ok (code, last) ∧ t = ⟨0, last⟩ := by
  rw [run_stmt, map_eq_ok_iff]
  constructor
  · rintro ⟨⟨found, last⟩, hfound, heq⟩
    obtain ⟨rfl, rfl⟩ := Prod.mk.inj heq
    exact ⟨last, hfound, rfl⟩
  · rintro ⟨last, hcode, rfl⟩
    exact ⟨(code, last), hcode, rfl⟩

/-! ### Induction on code

`P` is the property of the code of a statement behind so many conditionals and loops, with their
number behind it; `L` is that of the code of some statements, and `O` that of the code of a
statement that may be missing. -/

section Induction

variable {routine : Routine} {P : Nat → Node → Code → Nat → Prop}
  {L : Nat → List Node → Code → Nat → Prop} {O : Nat → Option Node → Code → Nat → Prop}

/-- What holds of the code of every kind of statement, if it holds of the code of its parts. -/
structure StmtCases (routine : Routine) (P : Nat → Node → Code → Nat → Prop)
    (L : Nat → List Node → Code → Nat → Prop) (O : Nat → Option Node → Code → Nat → Prop) :
    Prop where
  exprStmt : ∀ labels mark node code, exprAt routine 0 node = .ok code →
    P labels (.exprStmt mark node) code labels
  ret : ∀ labels mark value code, exprAt routine 0 value = .ok code →
    P labels (.ret mark value) (code ++ leave routine) labels
  block : ∀ labels mark body code last, L labels body code last →
    P labels (.block mark body) code last
  ifElse : ∀ labels mark cond onTrue onFalse test first second middle last,
    exprAt routine 0 cond = .ok test → P (labels + 1) onTrue first middle →
      O middle onFalse second last →
        P labels (.ifElse mark cond onTrue onFalse) (ifCode (labels + 1) test first second) last
  loop : ∀ labels mark init cond step body start test inside next last,
    exprSomeAt routine init = .ok start → guardAt routine (.endOf (labels + 1)) cond = .ok test →
      P (labels + 1) body inside last → exprSomeAt routine step = .ok next →
        P labels (.loop mark init cond step body) (loopCode (labels + 1) start test inside next) last
  nil : ∀ labels, L labels [] [] labels
  cons : ∀ labels node nodes code more middle last, P labels node code middle →
    L middle nodes more last → L labels (node :: nodes) (code ++ more) last
  missing : ∀ labels, O labels none [] labels
  present : ∀ labels node code last, P labels node code last → O labels (some node) code last

mutual

theorem StmtCases.stmtFrom (h : StmtCases routine P L O) : ∀ (node : Node) {labels : Nat}
    {code : Code} {last : Nat}, stmtFrom routine labels node = .ok (code, last) →
      P labels node code last
  -- Lowering takes the parts of a statement in their order, and so do the cases.
  | .exprStmt _ _, _, _, _, hcode => by
    rw [Lower.stmtFrom] at hcode
    obtain ⟨inner, hinner, hline⟩ := bind_eq_ok_iff.1 hcode
    obtain ⟨rfl, rfl⟩ := Prod.mk.inj (Except.ok.inj hline)
    exact h.exprStmt _ _ _ _ hinner
  | .ret _ _, _, _, _, hcode => by
    rw [Lower.stmtFrom] at hcode
    obtain ⟨inner, hinner, hline⟩ := bind_eq_ok_iff.1 hcode
    obtain ⟨rfl, rfl⟩ := Prod.mk.inj (Except.ok.inj hline)
    exact h.ret _ _ _ _ hinner
  | .block _ body, _, _, _, hcode => by
    rw [Lower.stmtFrom] at hcode
    exact h.block _ _ _ _ _ (StmtCases.stmtsFrom h body hcode)
  | .ifElse _ _ onTrue onFalse, _, _, _, hcode => by
    rw [Lower.stmtFrom] at hcode
    obtain ⟨test, htest, hrest⟩ := bind_eq_ok_iff.1 hcode
    obtain ⟨⟨first, middle⟩, hfirst, hrest⟩ := bind_eq_ok_iff.1 hrest
    obtain ⟨⟨second, last⟩, hsecond, hline⟩ := bind_eq_ok_iff.1 hrest
    obtain ⟨rfl, rfl⟩ := Prod.mk.inj (Except.ok.inj hline)
    exact h.ifElse _ _ _ _ _ _ _ _ _ _ htest (StmtCases.stmtFrom h onTrue hfirst)
      (StmtCases.stmtSomeFrom h onFalse hsecond)
  | .loop _ _ _ _ body, _, _, _, hcode => by
    rw [Lower.stmtFrom] at hcode
    obtain ⟨start, hstart, hrest⟩ := bind_eq_ok_iff.1 hcode
    obtain ⟨test, htest, hrest⟩ := bind_eq_ok_iff.1 hrest
    obtain ⟨⟨inside, last⟩, hinside, hrest⟩ := bind_eq_ok_iff.1 hrest
    obtain ⟨next, hnext, hline⟩ := bind_eq_ok_iff.1 hrest
    obtain ⟨rfl, rfl⟩ := Prod.mk.inj (Except.ok.inj hline)
    exact h.loop _ _ _ _ _ _ _ _ _ _ _ hstart htest (StmtCases.stmtFrom h body hinside) hnext
  -- Expressions are not lowered as statements.
  | .num _ _, _, _, _, hcode => nomatch hcode
  | .var _ _, _, _, _, hcode => nomatch hcode
  | .neg _ _, _, _, _, hcode => nomatch hcode
  | .addr _ _, _, _, _, hcode => nomatch hcode
  | .deref _ _, _, _, _, hcode => nomatch hcode
  | .binary _ _ _ _, _, _, _, hcode => nomatch hcode
  | .assign _ _ _, _, _, _, hcode => nomatch hcode
  | .call _ _ _, _, _, _, hcode => nomatch hcode

theorem StmtCases.stmtsFrom (h : StmtCases routine P L O) : ∀ (nodes : List Node) {labels : Nat}
    {code : Code} {last : Nat}, stmtsFrom routine labels nodes = .ok (code, last) →
      L labels nodes code last
  | [], _, _, _, hcode => by
    rw [Lower.stmtsFrom] at hcode
    obtain ⟨rfl, rfl⟩ := Prod.mk.inj (Except.ok.inj hcode)
    exact h.nil _
  | node :: nodes, _, _, _, hcode => by
    rw [Lower.stmtsFrom] at hcode
    obtain ⟨⟨first, middle⟩, hfirst, hrest⟩ := bind_eq_ok_iff.1 hcode
    obtain ⟨⟨more, last⟩, hmore, hline⟩ := bind_eq_ok_iff.1 hrest
    obtain ⟨rfl, rfl⟩ := Prod.mk.inj (Except.ok.inj hline)
    exact h.cons _ _ _ _ _ _ _ (StmtCases.stmtFrom h node hfirst) (StmtCases.stmtsFrom h nodes hmore)

theorem StmtCases.stmtSomeFrom (h : StmtCases routine P L O) : ∀ (node : Option Node) {labels : Nat}
    {code : Code} {last : Nat}, stmtSomeFrom routine labels node = .ok (code, last) →
      O labels node code last
  | none, _, _, _, hcode => by
    rw [Lower.stmtSomeFrom] at hcode
    obtain ⟨rfl, rfl⟩ := Prod.mk.inj (Except.ok.inj hcode)
    exact h.missing _
  | some node, _, _, _, hcode => by
    rw [Lower.stmtSomeFrom] at hcode
    exact h.present _ _ _ _ (StmtCases.stmtFrom h node hcode)

end

/-- The code of a statement is put together from the code of its parts. -/
theorem cases_code (routine : Routine) :
    StmtCases routine
      (fun labels node code last => Lower.stmtFrom routine labels node = .ok (code, last))
      (fun labels nodes code last => Lower.stmtsFrom routine labels nodes = .ok (code, last))
      (fun labels node code last => Lower.stmtSomeFrom routine labels node = .ok (code, last)) where
  exprStmt _ _ _ _ hcode := by
    rw [Lower.stmtFrom]
    exact bind_eq_ok_iff.2 ⟨_, hcode, rfl⟩
  ret _ _ _ _ hcode := by
    rw [Lower.stmtFrom]
    exact bind_eq_ok_iff.2 ⟨_, hcode, rfl⟩
  block _ _ _ _ _ hcode := by
    rw [Lower.stmtFrom]
    exact hcode
  ifElse _ _ _ _ _ _ _ _ _ _ htest hfirst hsecond := by
    rw [Lower.stmtFrom]
    exact bind_eq_ok_iff.2 ⟨_, htest, bind_eq_ok_iff.2 ⟨_, hfirst,
      bind_eq_ok_iff.2 ⟨_, hsecond, rfl⟩⟩⟩
  loop _ _ _ _ _ _ _ _ _ _ _ hstart htest hinside hnext := by
    rw [Lower.stmtFrom]
    exact bind_eq_ok_iff.2 ⟨_, hstart, bind_eq_ok_iff.2 ⟨_, htest, bind_eq_ok_iff.2 ⟨_, hinside,
      bind_eq_ok_iff.2 ⟨_, hnext, rfl⟩⟩⟩⟩
  nil _ := by rw [Lower.stmtsFrom]
  cons _ _ _ _ _ _ _ hcode hmore := by
    rw [Lower.stmtsFrom]
    exact bind_eq_ok_iff.2 ⟨_, hcode, bind_eq_ok_iff.2 ⟨_, hmore, rfl⟩⟩
  missing _ := by rw [Lower.stmtSomeFrom]
  present _ _ _ _ hcode := by
    rw [Lower.stmtSomeFrom]
    exact hcode

end Induction

end PocketCompiler.Lower
