import PocketCompiler.Proofs.Lower.Program
import PocketCompiler.Proofs.Stack

/-!
# Lowered code keeps the stack

Scanned with any number of words waiting, the code of an expression leaves as many
(`scan_exprAt`), and that of a call makes their number even first.  The code of a statement is
scanned with nothing waiting (`scan_stmtFrom`).

Lowering itself counts the same words.  Whatever the program, it never takes a word that is not
there, and no statement leaves one (`Program.sparesStack_lower`).
-/

namespace PocketCompiler

/-! ### Scanning -/

/-- Code is scanned from front to back. -/
theorem Code.scan_seq {first second : Code} {a b c : Nat} (hfirst : first.scan a = some b)
    (hsecond : second.scan b = some c) : Code.scan a (first ++ second) = some c := by
  rw [Code.scan_append, hfirst]
  exact hsecond

/-- A line is scanned before the lines behind it. -/
theorem Code.scan_cons {line : Line} {more : Code} {a b c : Nat} (hline : line.scan a = some b)
    (hmore : more.scan b = some c) : Code.scan a (line :: more) = some c := by
  rw [Code.scan, hline]
  exact hmore

/-- Lines that leave the height alone, one after the other. -/
theorem Code.scan_of_forall {code : Code} {height : Nat}
    (h : ∀ line ∈ code, line.scan height = some height) : code.scan height = some height := by
  induction code with
  | nil => rfl
  | cons line more ih =>
    exact Code.scan_cons (h line List.mem_cons_self)
      (ih fun l hl => h l (List.mem_cons_of_mem _ hl))

namespace Lower

/-- A push makes one more word wait. -/
theorem scan_push (height : Nat) : Code.scan height [.instr (.push .rax)] = some (height + 1) := rfl

/-- A pop takes one word off, as long as it does not change the stack pointer itself. -/
theorem scan_pop {dst : Reg} (hdst : dst ≠ .rsp) (height : Nat) :
    Code.scan (height + 1) [.instr (.pop dst)] = some height := by
  have hline : Line.scan (height + 1) (.instr (.pop dst)) = some height :=
    if_pos ⟨hdst, Nat.succ_pos height⟩
  exact Code.scan_cons hline rfl

/-- As many pops as words take all of them off. -/
theorem scan_pops (height : Nat) : ∀ registers : List Reg, .rsp ∉ registers →
    Code.scan (height + registers.length) (registers.map fun dst => .instr (.pop dst)) = some height
  | [], _ => rfl
  | dst :: more, hrsp => by
    have hdst : dst ≠ .rsp := fun heq => hrsp (heq ▸ List.mem_cons_self)
    have hmore : .rsp ∉ more := fun hmem => hrsp (List.mem_cons_of_mem _ hmem)
    exact Code.scan_seq (scan_pop hdst (height + more.length)) (scan_pops height more hmore)

/-- Loading a value leaves the stack alone, whatever the type is. -/
theorem scan_load (ty : Option Ty) (height : Nat) : (load ty).scan height = some height := by
  unfold load
  split
  · split
    · rfl
    · split <;> rfl
  · rfl

/-- Storing a value leaves the stack alone, whatever the type is. -/
theorem scan_store (ty : Option Ty) (height : Nat) : (store ty).scan height = some height := by
  unfold store
  split
  · split <;> rfl
  · rfl

/-- The operations work on registers alone. -/
theorem scan_operate (op : BinaryOp) (height : Nat) :
    (operate op).scan height = some height := by
  cases op <;> rfl

/-- A call is made with an even number of words waiting. -/
theorem scan_aligned (height : Nat) (name : String) :
    (aligned height name).scan height = some height := by
  unfold aligned
  split
  · next hodd =>
    have hcall : Line.scan (height + 1) (.instr (.call name)) = some (height + 1) :=
      if_pos (by omega)
    exact Code.scan_cons (b := height + 1) rfl (Code.scan_cons hcall rfl)
  · next heven =>
    have hcall : Line.scan height (.instr (.call name)) = some height := if_pos (by omega)
    exact Code.scan_cons hcall rfl

/-- The address of a variable is computed in a register. -/
theorem scan_variableAt {routine : Routine} {ref : VarRef} {code : Code}
    (h : variableAt routine ref = .ok code) (height : Nat) : code.scan height = some height := by
  cases ref with
  | localVar index =>
    obtain ⟨offset, -, hline⟩ := bind_eq_ok_iff.1 h
    obtain rfl := Except.ok.inj hline
    rfl
  | globalVar index =>
    obtain ⟨found, -, hline⟩ := bind_eq_ok_iff.1 h
    obtain rfl := Except.ok.inj hline
    rfl

/-- A call takes its arguments from the stack. -/
theorem scan_callAt {height count : Nat} {name : String} {code : Code}
    (h : callAt height name count = .ok code) : code.scan (height + count) = some height := by
  unfold callAt at h
  split at h
  · next hcount =>
    obtain rfl := Except.ok.inj h
    have hlength : ((Reg.forArguments.take count).reverse).length = count := by
      rw [List.length_reverse, List.length_take, Nat.min_eq_left hcount]
    -- A pop into the stack pointer itself would not be a pop.
    have hrsp : .rsp ∉ (Reg.forArguments.take count).reverse := by
      intro hmem
      have hargument : .rsp ∈ Reg.forArguments := List.mem_of_mem_take (List.mem_reverse.1 hmem)
      exact absurd hargument (by decide)
    have hpops := scan_pops height (Reg.forArguments.take count).reverse hrsp
    rw [hlength] at hpops
    exact Code.scan_seq (Code.scan_seq hpops rfl) (scan_aligned height name)
  · exact nomatch h

/-- Expressions and addresses leave as many words as there were, and arguments one more each. -/
theorem cases_scan (routine : Routine) :
    ExprCases routine (fun height _ code => code.scan height = some height)
      (fun height _ code => code.scan height = some height)
      (fun height args code => code.scan height = some (height + args.length)) where
  num _ _ _ := rfl
  var height mark _ _ hplace :=
    Code.scan_seq (scan_variableAt hplace height) (scan_load mark.ty height)
  neg _ _ _ _ hcode := Code.scan_seq hcode rfl
  addr _ _ _ _ hcode := hcode
  deref height mark _ _ hcode := Code.scan_seq hcode (scan_load mark.ty height)
  binary height _ op _ _ _ _ hright hleft := by
    have hrdi : Reg.rdi ≠ .rsp := by decide
    -- An operand that waits is pushed, and popped behind the other one.
    have hwaits := Code.scan_seq hright (scan_push height)
    have htaken := Code.scan_seq (Code.scan_seq hwaits hleft) (scan_pop hrdi height)
    exact Code.scan_seq htaken (scan_operate op height)
  assign height mark _ _ _ _ hplace hcode := by
    have hrdi : Reg.rdi ≠ .rsp := by decide
    have hwaits := Code.scan_seq hplace (scan_push height)
    have htaken := Code.scan_seq (Code.scan_seq hwaits hcode) (scan_pop hrdi height)
    exact Code.scan_seq htaken (scan_store mark.ty height)
  call _ _ _ _ _ _ hpushed hcalled := Code.scan_seq hpushed (scan_callAt hcalled)
  varAddress height _ _ _ hplace := scan_variableAt hplace height
  derefAddress _ _ _ _ hcode := hcode
  nil _ := rfl
  cons height _ args _ _ hcode hmore := by
    have hwaits := Code.scan_seq (Code.scan_seq hcode (scan_push height)) hmore
    rw [List.length_cons, ← Nat.add_assoc, Nat.add_right_comm]
    exact hwaits

/-- The code of an expression leaves as many words waiting as it finds. -/
theorem scan_exprAt {routine : Routine} {height : Nat} {node : Node} {code : Code}
    (h : exprAt routine height node = .ok code) : code.scan height = some height :=
  (cases_scan routine).exprAt node h

/-- A missing expression has no code, so nothing waits. -/
theorem scan_exprSomeAt {routine : Routine} {node : Option Node} {code : Code}
    (h : exprSomeAt routine node = .ok code) : code.scan 0 = some 0 := by
  cases node with
  | none =>
    obtain rfl := Except.ok.inj h
    rfl
  | some node => exact scan_exprAt h

/-- The jump out of a loop is made when nothing waits. -/
theorem scan_guardAt {routine : Routine} {exit : Label} {cond : Option Node} {code : Code}
    (h : guardAt routine exit cond = .ok code) : code.scan 0 = some 0 := by
  cases cond with
  | none =>
    obtain rfl := Except.ok.inj h
    rfl
  | some cond =>
    obtain ⟨test, htest, hline⟩ := bind_eq_ok_iff.1 h
    obtain rfl := Except.ok.inj hline
    exact Code.scan_seq (scan_exprAt htest) rfl

/-- A return is a jump to the end of the function, and it keeps the stack. -/
theorem scan_leave (routine : Routine) : (leave routine).scan 0 = some 0 := by
  unfold leave
  split <;> rfl

/-- Both branches start and end with nothing waiting, so it does not matter which is taken. -/
theorem scan_ifCode {number : Nat} {test first second : Code} (htest : test.scan 0 = some 0)
    (hfirst : first.scan 0 = some 0) (hsecond : second.scan 0 = some 0) :
    (ifCode number test first second).scan 0 = some 0 := by
  have hunless : (unlessTrue (.elseOf number)).scan 0 = some 0 := rfl
  have hmiddle : Code.scan 0 [.instr (.jump (.endOf number)), .label (.elseOf number)] = some 0 := rfl
  have hbranch := Code.scan_seq (Code.scan_seq htest hunless) hfirst
  exact Code.scan_seq (Code.scan_seq (Code.scan_seq hbranch hmiddle) hsecond) rfl

/-- Every round of a loop starts and ends with nothing waiting. -/
theorem scan_loopCode {number : Nat} {start test inside next : Code} (hstart : start.scan 0 = some 0)
    (htest : test.scan 0 = some 0) (hinside : inside.scan 0 = some 0) (hnext : next.scan 0 = some 0) :
    (loopCode number start test inside next).scan 0 = some 0 := by
  have hlabel : Code.scan 0 [.label (.beginOf number)] = some 0 := rfl
  have hguard := Code.scan_seq (Code.scan_seq hstart hlabel) htest
  exact Code.scan_seq (Code.scan_seq (Code.scan_seq hguard hinside) hnext) rfl

/-- Nothing waits between statements. -/
theorem cases_scan_stmt (routine : Routine) :
    StmtCases routine (fun _ _ code _ => code.scan 0 = some 0) (fun _ _ code _ => code.scan 0 = some 0)
      (fun _ _ code _ => code.scan 0 = some 0) where
  exprStmt _ _ _ _ hcode := scan_exprAt hcode
  ret _ _ _ _ hcode := Code.scan_seq (scan_exprAt hcode) (scan_leave routine)
  block _ _ _ _ _ hcode := hcode
  ifElse _ _ _ _ _ _ _ _ _ _ htest hfirst hsecond :=
    scan_ifCode (scan_exprAt htest) hfirst hsecond
  loop _ _ _ _ _ _ _ _ _ _ _ hstart htest hinside hnext :=
    scan_loopCode (scan_exprSomeAt hstart) (scan_guardAt htest) hinside (scan_exprSomeAt hnext)
  nil _ := rfl
  cons _ _ _ _ _ _ _ hcode hmore := Code.scan_seq hcode hmore
  missing _ := rfl
  present _ _ _ _ hcode := hcode

/-- The code of a statement starts and ends with nothing waiting, and so does each part of it. -/
theorem scan_stmtFrom {routine : Routine} {node : Node} {labels last : Nat} {code : Code}
    (h : stmtFrom routine labels node = .ok (code, last)) : code.scan 0 = some 0 :=
  (cases_scan_stmt routine).stmtFrom node h

/-- The parameters are moved to their places without using the stack. -/
theorem scan_spills {offsets : List Int} {params : List (Nat × Ty)} {registers : List Reg}
    {code : Code} (h : spills offsets params registers = .ok code) : code.scan 0 = some 0 := by
  apply Code.scan_of_forall
  intro line hline
  obtain ⟨offset, ty, src, rfl⟩ := exists_spill_of_mem_spills h line hline
  unfold spill
  split <;> rfl

end Lower

/-! ### Faults -/

/-- A fault that is not about the words waiting on the stack. -/
def Fault.SparesStack : Fault → Prop
  | .stackUnderflow | .stackUnbalanced _ _ => False
  | _ => True

/-- A computation that meets no fault about the words waiting on the stack. -/
abbrev SparesStack {α : Type} (r : Except Fault α) : Prop :=
  Ends r (fun _ => True) Fault.SparesStack

/-- A computation of two parts meets no such fault if neither part does. -/
theorem SparesStack.bind {α β : Type} {r : Except Fault α} {k : α → Except Fault β}
    (h : SparesStack r) (hk : ∀ a, SparesStack (k a)) : SparesStack (r >>= k) :=
  Ends.bind h fun a _ => hk a

theorem sparesStack_entry {α : Type} (table : List α) (index : Nat) :
    SparesStack (entry table index) := by
  unfold entry
  split <;> trivial

/-- A computation over a list meets no such fault if none of its parts does. -/
theorem sparesStack_mapM {α β : Type} {f : α → Except Fault β} (hf : ∀ a, SparesStack (f a)) :
    ∀ xs : List α, SparesStack (xs.mapM f)
  | [] => by
    rw [List.mapM_nil]
    trivial
  | x :: xs => by
    rw [List.mapM_cons]
    exact (hf x).bind fun y => (sparesStack_mapM hf xs).bind fun ys => trivial

namespace Word

theorem sparesStack_checked (operation : Operation) (n : Int) :
    SparesStack (checked operation n) := by
  unfold checked
  split <;> trivial

theorem sparesStack_roundUp (n step : Int) : SparesStack (roundUp n step) := by
  have hdiv : ∀ a b, SparesStack (div a b) := by
    intro a b
    unfold div
    split
    · trivial
    · exact sparesStack_checked _ _
  exact (sparesStack_checked _ _).bind fun reached => (sparesStack_checked _ _).bind fun last =>
    (hdiv last step).bind fun steps => sparesStack_checked _ _

end Word

theorem Frame.sparesStack_place : ∀ (types : List Ty) (used : Int),
    SparesStack (Frame.place used types)
  | [], _ => trivial
  | _ :: types, _ =>
    (Word.sparesStack_checked _ _).bind fun below => (Word.sparesStack_checked _ _).bind fun _ =>
      (Frame.sparesStack_place types below).bind fun _ => trivial

theorem Function.sparesStack_frame (f : Function) : SparesStack f.frame :=
  (Frame.sparesStack_place _ 0).bind fun _ => (Word.sparesStack_roundUp _ 16).bind fun _ => trivial

namespace Lower

theorem sparesStack_datum (stored : Variable) : SparesStack (datum stored) := by
  have hcontents : SparesStack (contents stored) := by
    unfold contents
    split
    · refine SparesStack.bind ?_ fun _ => trivial
      refine (Word.sparesStack_checked _ _).bind fun missing => ?_
      split <;> trivial
    · trivial
    · trivial
  exact hcontents.bind fun _ => trivial

theorem sparesStack_variableAt (routine : Routine) (ref : VarRef) :
    SparesStack (variableAt routine ref) := by
  cases ref with
  | localVar index => exact (sparesStack_entry _ _).bind fun _ => trivial
  | globalVar index => exact (sparesStack_entry _ _).bind fun _ => trivial

theorem sparesStack_callAt (depth : Nat) (name : String) (count : Nat) :
    SparesStack (callAt depth name count) := by
  unfold callAt
  split <;> trivial

mutual

/-- The induction is on the tree, with the rules for addresses and arguments. -/
theorem sparesStack_exprAt (routine : Routine) : ∀ (node : Node) (depth : Nat),
    SparesStack (exprAt routine depth node)
  | .num _ _, _ => trivial
  | .var _ ref, _ => by
    rw [exprAt]
    exact (sparesStack_variableAt routine ref).bind fun _ => trivial
  | .neg _ operand, depth => by
    rw [exprAt]
    exact (sparesStack_exprAt routine operand depth).bind fun _ => trivial
  | .addr _ operand, depth => by
    rw [exprAt]
    exact sparesStack_addressAt routine operand depth
  | .deref _ operand, depth => by
    rw [exprAt]
    exact (sparesStack_exprAt routine operand depth).bind fun _ => trivial
  | .binary _ _ lhs rhs, depth => by
    rw [exprAt]
    exact (sparesStack_exprAt routine rhs depth).bind fun _ =>
      (sparesStack_exprAt routine lhs (depth + 1)).bind fun _ => trivial
  | .assign _ target value, depth => by
    rw [exprAt]
    exact (sparesStack_addressAt routine target depth).bind fun _ =>
      (sparesStack_exprAt routine value (depth + 1)).bind fun _ => trivial
  | .call _ name args, depth => by
    rw [exprAt]
    exact (sparesStack_argumentsAt routine args depth).bind fun _ =>
      (sparesStack_callAt depth name args.length).bind fun _ => trivial
  | .exprStmt _ _, _ => trivial
  | .ret _ _, _ => trivial
  | .block _ _, _ => trivial
  | .ifElse _ _ _ _, _ => trivial
  | .loop _ _ _ _ _, _ => trivial

theorem sparesStack_addressAt (routine : Routine) : ∀ (node : Node) (depth : Nat),
    SparesStack (addressAt routine depth node)
  | .var _ ref, _ => by
    rw [addressAt]
    exact sparesStack_variableAt routine ref
  | .deref _ operand, depth => by
    rw [addressAt]
    exact sparesStack_exprAt routine operand depth
  | .num _ _, _ => trivial
  | .neg _ _, _ => trivial
  | .addr _ _, _ => trivial
  | .binary _ _ _ _, _ => trivial
  | .assign _ _ _, _ => trivial
  | .call _ _ _, _ => trivial
  | .exprStmt _ _, _ => trivial
  | .ret _ _, _ => trivial
  | .block _ _, _ => trivial
  | .ifElse _ _ _ _, _ => trivial
  | .loop _ _ _ _ _, _ => trivial

theorem sparesStack_argumentsAt (routine : Routine) : ∀ (args : List Node) (depth : Nat),
    SparesStack (argumentsAt routine depth args)
  | [], _ => trivial
  | arg :: args, depth => by
    rw [argumentsAt]
    exact (sparesStack_exprAt routine arg depth).bind fun _ =>
      (sparesStack_argumentsAt routine args (depth + 1)).bind fun _ => trivial

end

theorem sparesStack_exprSomeAt (routine : Routine) (node : Option Node) :
    SparesStack (exprSomeAt routine node) := by
  cases node with
  | none => trivial
  | some node => exact sparesStack_exprAt routine node 0

theorem sparesStack_guardAt (routine : Routine) (exit : Label) (cond : Option Node) :
    SparesStack (guardAt routine exit cond) := by
  cases cond with
  | none => trivial
  | some cond => exact (sparesStack_exprAt routine cond 0).bind fun _ => trivial

mutual

theorem sparesStack_stmtFrom (routine : Routine) : ∀ (node : Node) (labels : Nat),
    SparesStack (stmtFrom routine labels node)
  | .exprStmt _ node, _ => by
    rw [stmtFrom]
    exact (sparesStack_exprAt routine node 0).bind fun _ => trivial
  | .ret _ value, _ => by
    rw [stmtFrom]
    exact (sparesStack_exprAt routine value 0).bind fun _ => trivial
  | .block _ body, labels => by
    rw [stmtFrom]
    exact sparesStack_stmtsFrom routine body labels
  | .ifElse _ cond onTrue onFalse, labels => by
    rw [stmtFrom]
    exact (sparesStack_exprAt routine cond 0).bind fun _ =>
      (sparesStack_stmtFrom routine onTrue (labels + 1)).bind fun first =>
        (sparesStack_stmtSomeFrom routine onFalse first.2).bind fun _ => trivial
  | .loop _ init cond step body, labels => by
    rw [stmtFrom]
    exact (sparesStack_exprSomeAt routine init).bind fun _ =>
      (sparesStack_guardAt routine _ cond).bind fun _ =>
        (sparesStack_stmtFrom routine body (labels + 1)).bind fun _ =>
          (sparesStack_exprSomeAt routine step).bind fun _ => trivial
  | .num _ _, _ => trivial
  | .var _ _, _ => trivial
  | .neg _ _, _ => trivial
  | .addr _ _, _ => trivial
  | .deref _ _, _ => trivial
  | .binary _ _ _ _, _ => trivial
  | .assign _ _ _, _ => trivial
  | .call _ _ _, _ => trivial

theorem sparesStack_stmtsFrom (routine : Routine) : ∀ (nodes : List Node) (labels : Nat),
    SparesStack (stmtsFrom routine labels nodes)
  | [], _ => trivial
  | node :: nodes, labels => by
    rw [stmtsFrom]
    exact (sparesStack_stmtFrom routine node labels).bind fun first =>
      (sparesStack_stmtsFrom routine nodes first.2).bind fun _ => trivial

theorem sparesStack_stmtSomeFrom (routine : Routine) : ∀ (node : Option Node) (labels : Nat),
    SparesStack (stmtSomeFrom routine labels node)
  | none, _ => trivial
  | some node, labels => by
    rw [stmtSomeFrom]
    exact sparesStack_stmtFrom routine node labels

end

theorem sparesStack_spills (offsets : List Int) :
    ∀ (params : List (Nat × Ty)) (registers : List Reg),
      SparesStack (spills offsets params registers)
  | [], _ => trivial
  | (index, _) :: params, registers => by
    refine (sparesStack_entry offsets index).bind fun _ => ?_
    cases registers with
    | nil => trivial
    | cons _ registers => exact (sparesStack_spills offsets params registers).bind fun _ => trivial

theorem sparesStack_functionsFrom (globals : List Variable) :
    ∀ (fs : List (Function × Frame)) (labels : Nat),
      SparesStack (functionsFrom globals labels fs)
  | [], _ => trivial
  | (f, frame) :: more, labels => by
    have hfunction : SparesStack (functionFrom globals labels f frame) :=
      (sparesStack_spills _ _ _).bind fun _ =>
        (sparesStack_stmtFrom _ f.body labels).bind fun _ => trivial
    exact hfunction.bind fun first =>
      (sparesStack_functionsFrom globals more first.2).bind fun _ => trivial

end Lower

/-- **Lowering never meets a fault about the words waiting on the stack**, whatever the program. -/
theorem Program.sparesStack_lower (program : Program) : SparesStack program.lower := by
  rw [program.lower_eq]
  exact (sparesStack_mapM Function.sparesStack_frame _).bind fun frames =>
    (sparesStack_mapM Lower.sparesStack_datum _).bind fun _ =>
      (Lower.sparesStack_functionsFrom program.globals (program.functions.zip frames) 0).bind
        fun _ => trivial

end PocketCompiler
