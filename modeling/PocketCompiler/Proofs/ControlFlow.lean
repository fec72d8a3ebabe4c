import PocketCompiler.Proofs.Compile
import PocketCompiler.Proofs.Lower.ControlFlow
import PocketCompiler.Proofs.Lower.Correct

/-!
# Compiled functions follow their statements

The lines of a function are a program with a program counter, and the body of the function says what
they should do.  `Function.Follows` says that they do it, for every statement of the body: an
execution that starts at its first line comes to the line behind its last one, or leaves for the end
of the function, exactly when the statement does so, after the same actions and in the same state.

`cases_stands` finds the code of every statement among the lines of its function, and
`Source.functions_follow` is the result for the functions of a source.  What instructions do is
left open in it; on the machine the steps of statements are evaluations
(`Routine.exists_evaluate_of_eval`).
-/

namespace PocketCompiler

/-- `code` is the code of a statement, for some number of conditionals and loops before it. -/
def Routine.IsCode (routine : Routine) (node : Node) (code : Code) : Prop :=
  ∃ labels state, (Lower.stmt routine node).run ⟨0, labels⟩ = .ok (code, state)

theorem Routine.isCode_iff {routine : Routine} {node : Node} {code : Code} :
    routine.IsCode node code
      ↔ ∃ labels last, Lower.stmtFrom routine labels node = .ok (code, last) := by
  constructor
  · rintro ⟨labels, state, hrun⟩
    obtain ⟨last, hcode, -⟩ := Lower.run_stmt_eq_ok_iff.1 hrun
    exact ⟨labels, last, hcode⟩
  · rintro ⟨labels, last, hcode⟩
    exact ⟨labels, ⟨0, last⟩, Lower.run_stmt_eq_ok_iff.2 ⟨last, hcode, rfl⟩⟩

/-- The code of a statement stands somewhere in `lines`. -/
def Routine.Stands (routine : Routine) (lines : Code) (node : Node) : Prop :=
  ∃ code pc, routine.IsCode node code ∧ lines.At pc code

theorem Routine.Stands.trans {routine : Routine} {lines code : Code} {node : Node} {pc : Nat}
    (h : routine.Stands code node) (hat : lines.At pc code) : routine.Stands lines node := by
  obtain ⟨piece, a, hpiece, hat'⟩ := h
  exact ⟨piece, pc + a, hpiece, hat.trans hat'⟩

/-! ### Where the statements inside a statement stand -/

namespace Lower

theorem stands_self {routine : Routine} {node : Node} {labels last : Nat} {code : Code}
    (h : stmtFrom routine labels node = .ok (code, last)) : routine.Stands code node :=
  ⟨code, 0, Routine.isCode_iff.2 ⟨labels, last, h⟩, Code.at_self code⟩

/-- The code of a statement holds the code of the statements inside it. -/
theorem cases_stands (routine : Routine) :
    StmtCases routine
      (fun labels node code last => stmtFrom routine labels node = .ok (code, last)
        ∧ ∀ inner ∈ node.statements, routine.Stands code inner)
      (fun labels nodes code last => stmtsFrom routine labels nodes = .ok (code, last)
        ∧ ∀ inner ∈ Node.statementsAll nodes, routine.Stands code inner)
      (fun labels node code last => stmtSomeFrom routine labels node = .ok (code, last)
        ∧ ∀ inner ∈ Node.statementsSome node, routine.Stands code inner) where
  -- A statement stands in its own code, and the statements inside of it stand in its parts.
  exprStmt labels mark node code hcode := by
    have hown := (cases_code routine).exprStmt labels mark node code hcode
    refine ⟨hown, fun inner hinner => ?_⟩
    rw [Node.statements, List.mem_singleton] at hinner
    exact hinner ▸ stands_self hown
  ret labels mark value code hcode := by
    have hown := (cases_code routine).ret labels mark value code hcode
    refine ⟨hown, fun inner hinner => ?_⟩
    rw [Node.statements, List.mem_singleton] at hinner
    exact hinner ▸ stands_self hown
  block labels mark body code last hbody := by
    have hown := (cases_code routine).block labels mark body code last hbody.1
    refine ⟨hown, fun inner hinner => ?_⟩
    rw [Node.statements] at hinner
    rcases List.mem_cons.1 hinner with rfl | hinner
    · exact stands_self hown
    · exact hbody.2 inner hinner
  ifElse labels mark cond onTrue onFalse test first second middle last htest hfirst hsecond := by
    have hown := (cases_code routine).ifElse labels mark cond onTrue onFalse test first second middle
      last htest hfirst.1 hsecond.1
    -- Where the branches stand is known from the code itself, placed at its own start.
    obtain ⟨_, _, _, -, -, -, -, -, -, hatFirst, -, hatSecond, -⟩ :=
      places_ifCode (Code.at_self (ifCode (labels + 1) test first second))
    refine ⟨hown, fun inner hinner => ?_⟩
    rw [Node.statements] at hinner
    rcases List.mem_cons.1 hinner with rfl | hinner
    · exact stands_self hown
    rcases List.mem_append.1 hinner with hinner | hinner
    · exact (hfirst.2 inner hinner).trans hatFirst
    · exact (hsecond.2 inner hinner).trans hatSecond
  loop labels mark init cond step body start test inside next last hstart htest hinside hnext := by
    have hown := (cases_code routine).loop labels mark init cond step body start test inside next
      last hstart htest hinside.1 hnext
    have hat := Code.at_self (loopCode (labels + 1) start test inside next)
    refine ⟨hown, fun inner hinner => ?_⟩
    rw [Node.statements] at hinner
    rcases List.mem_cons.1 hinner with rfl | hinner
    · exact stands_self hown
    · exact (hinside.2 inner hinner).trans hat.left.left.right
  nil labels := by
    refine ⟨(cases_code routine).nil labels, fun inner hinner => ?_⟩
    rw [Node.statementsAll] at hinner
    exact absurd hinner List.not_mem_nil
  -- The code of the first statement is in front of that of the others.
  cons labels node nodes code more middle last hcode hmore := by
    have hat := Code.at_self (code ++ more)
    refine ⟨(cases_code routine).cons _ _ _ _ _ _ _ hcode.1 hmore.1, fun inner hinner => ?_⟩
    rw [Node.statementsAll] at hinner
    rcases List.mem_append.1 hinner with hinner | hinner
    · exact (hcode.2 inner hinner).trans hat.left
    · exact (hmore.2 inner hinner).trans hat.right
  missing labels := by
    refine ⟨(cases_code routine).missing labels, fun inner hinner => ?_⟩
    rw [Node.statementsSome] at hinner
    exact absurd hinner List.not_mem_nil
  present labels node code last hcode := by
    refine ⟨(cases_code routine).present _ _ _ _ hcode.1, fun inner hinner => ?_⟩
    rw [Node.statementsSome] at hinner
    exact hcode.2 inner hinner

end Lower

/-! ### Functions -/

/-- The lines of a function do what the statements of its body do. -/
structure Function.Follows (f : Function) (routine : Routine) (lines : Code) : Prop where
  /-- A value that is returned is cut to a byte exactly if the function gives a byte. -/
  narrows : routine.returnsChar = true ↔ f.ty.result? = some .char
  /-- The code of every statement stands in front of the label that a return goes to. -/
  stands : ∃ inside, lines = inside ++ Lower.epilogue f.name
    ∧ lines.position (.returnOf f.name) = some inside.length
    ∧ ∀ node ∈ f.body.statements, routine.Stands inside node
  /-- Wherever the code of a statement stands, an execution from its first line on comes to the line
  behind it, or to a jump to the end of the function, exactly if the statement is done or returns. -/
  means : ∀ node code pc, routine.IsCode node code → lines.At pc code →
    ∀ {σ : Type} (D : Datapath σ) s out performed t,
      (∃ n, D.Exits lines f.name pc (pc + code.length) n pc s out performed t)
        ↔ ∃ actions, (routine.statements D).runs node s actions out t
          ∧ performed = actions.flatMap routine.performs

theorem IsRoutine.follows {globals : List Variable} {f : Function} {frame : Frame} {lines : Code}
    (h : IsRoutine globals f frame lines) :
    f.Follows (Lower.routineOf globals f frame) lines := by
  have hnodup := Lower.nodup_labels_routine h
  refine ⟨beq_iff_eq, ?_, ?_⟩
  · obtain ⟨labels, last, arguments, body, -, hbody, rfl⟩ := h.exists_parts
    refine ⟨Lower.prologue f.name frame.size ++ arguments ++ body, rfl, ?_, ?_⟩
    · apply Code.position_eq hnodup
      rw [List.getElem?_append_right (Nat.le_refl _), Nat.sub_self]
      rfl
    · intro node hnode
      have hat : Code.At (Lower.prologue f.name frame.size ++ arguments ++ body)
          (Lower.prologue f.name frame.size ++ arguments).length body :=
        ⟨_, [], by rw [List.append_nil], rfl⟩
      exact (((Lower.cases_stands _).stmtFrom f.body hbody).2 node hnode).trans hat
  · intro node code pc hcode hat σ D
    obtain ⟨labels, last, hcode⟩ := Routine.isCode_iff.1 hcode
    exact Lower.means_stmtFrom hnodup hcode hat

/-- **The code of every function of a source does what the statements of its body do.** -/
theorem Source.functions_follow {source : Source} {program : Program}
    (hprogram : source.program = .ok program) :
    ∃ listing routines, program.lower = .ok listing ∧ listing.code = routines.flatten
      ∧ List.Forall₂ (fun f lines => ∃ frame, f.frame = .ok frame
        ∧ f.Follows (Lower.routineOf program.globals f frame) lines) program.functions routines := by
  have hsound : program.Sound := (ends_program source).of_eq_ok hprogram
  obtain ⟨listing, hlisting⟩ := hsound.exists_lower
  obtain ⟨routines, hcode, hroutines⟩ := exists_routines_of_lower hlisting
  refine ⟨listing, routines, hlisting, hcode, hroutines.imp ?_⟩
  rintro f lines ⟨frame, hframe, hroutine⟩
  exact ⟨frame, hframe, hroutine.follows⟩

/-- **On the machine, an expression in a statement does what evaluating it does.** -/
theorem Routine.exists_evaluate_of_eval (world : World) {routine : Routine} {node : Node}
    {code : Code} (hcode : Lower.exprAt routine 0 node = .ok code) {m : Machine} {later : List Nat}
    (hpasses : m.passes = node.passes ++ later) {value : Int64} {memory : Memory}
    (heval : (world.setting routine (m.regs .rbp)).eval node m.memory = some (value, memory)) :
    ∃ n, (routine.statements world.datapath).evaluate node m = some n ∧ n.regs .rax = value
      ∧ n.memory = memory ∧ n.regs .rbp = m.regs .rbp ∧ n.passes = later := by
  have hrun : (Lower.expr routine node).run {} = .ok (code, {}) :=
    Lower.run_expr_eq_ok_iff.2 ⟨hcode, rfl⟩
  obtain ⟨n, hn, hrax, hmemory, hrbp, -, -, hlater⟩ :=
    (run_code_iff_eval world routine node hrun m later hpasses).2 value memory heval
  refine ⟨n, ?_, hrax, hmemory, hrbp, hlater⟩
  show world.datapath.exec (routine.codeOf node) m = some n
  rw [Datapath.exec_datapath, Routine.codeOf_eq hcode]
  exact hn

/-- A function with a loop, a conditional and two returns. -/
def Source.countdown : Source :=
  ⟨"countdown", "func f(n int) char { for n { if n < 3 { return 300; } else n = n - 1; } return n; }"⟩

/-- The conditional of the function. -/
def Node.choice : Node :=
  .ifElse ⟨29, none⟩
    (.binary ⟨34, some .int⟩ .lt (.var ⟨32, some .int⟩ (.localVar 0)) (.num ⟨36, some .int⟩ 3))
    (.block ⟨38, none⟩ [.ret ⟨40, none⟩ (.num ⟨47, some .int⟩ 300)])
    (some (.exprStmt ⟨59, none⟩ (.assign ⟨61, some .int⟩ (.var ⟨59, some .int⟩ (.localVar 0))
      (.binary ⟨65, some .int⟩ .sub (.var ⟨63, some .int⟩ (.localVar 0))
        (.num ⟨67, some .int⟩ 1)))))

/-- The function. -/
def Function.countdown : Function :=
  ⟨"f", .func .char [.int], [0], [⟨"n", .int, none⟩], .block ⟨19, none⟩
    [.loop ⟨21, none⟩ none (some (.var ⟨25, some .int⟩ (.localVar 0))) none
        (.block ⟨27, none⟩ [.choice]),
      .ret ⟨72, none⟩ (.var ⟨79, some .int⟩ (.localVar 0))]⟩

set_option maxRecDepth 2000 in
theorem Source.program_countdown : countdown.program = .ok ⟨[], [.countdown]⟩ := by
  let tokens : List Token := [⟨.keyword, 0, "func"⟩, ⟨.identifier, 5, "f"⟩, ⟨.punctuator, 6, "("⟩,
    ⟨.identifier, 7, "n"⟩, ⟨.keyword, 9, "int"⟩, ⟨.punctuator, 12, ")"⟩, ⟨.keyword, 14, "char"⟩,
    ⟨.punctuator, 19, "\x7b"⟩, ⟨.keyword, 21, "for"⟩, ⟨.identifier, 25, "n"⟩,
    ⟨.punctuator, 27, "\x7b"⟩, ⟨.keyword, 29, "if"⟩, ⟨.identifier, 32, "n"⟩, ⟨.punctuator, 34, "<"⟩,
    ⟨.number (some 3), 36, "3"⟩, ⟨.punctuator, 38, "\x7b"⟩, ⟨.keyword, 40, "return"⟩,
    ⟨.number (some 300), 47, "300"⟩, ⟨.punctuator, 50, ";"⟩, ⟨.punctuator, 52, "\x7d"⟩,
    ⟨.keyword, 54, "else"⟩, ⟨.identifier, 59, "n"⟩, ⟨.punctuator, 61, "="⟩, ⟨.identifier, 63, "n"⟩,
    ⟨.punctuator, 65, "-"⟩, ⟨.number (some 1), 67, "1"⟩, ⟨.punctuator, 68, ";"⟩,
    ⟨.punctuator, 70, "\x7d"⟩, ⟨.keyword, 72, "return"⟩, ⟨.identifier, 79, "n"⟩,
    ⟨.punctuator, 80, ";"⟩, ⟨.punctuator, 82, "\x7d"⟩, ⟨.eof, 83, ""⟩]
  have htokens : countdown.tokenize = .ok tokens := eq_ok_of_toOption_eq_some (by decide +kernel)
  have hparse : parse countdown tokens = .ok ⟨[], [.countdown]⟩ := rfl
  exact bind_eq_ok_iff.2 ⟨tokens, htokens, hparse⟩

/-- The frame of the function, whose number is the only local. -/
def Routine.countdown : Routine := Lower.routineOf [] .countdown ⟨[-8], 16⟩

/-- A world without functions. -/
def World.countdown : World := ⟨fun _ => 0, 0, fun _ _ _ => none⟩

/-- The statements of the function on the machine. -/
def Statements.countdown : Statements Machine :=
  Routine.countdown.statements World.countdown.datapath

/-- A memory in which the number that the function is called with is 2. -/
def Memory.countdown : Memory := fun address => if address = 4088 then 2 else 0

/-- A machine in the function. -/
structure Machine.AtCountdown (m : Machine) : Prop where
  memory : m.memory = .countdown
  rbp : m.regs .rbp = 4096
  passes : m.passes = []

/-- What evaluating an expression does that calls and assigns nothing. -/
theorem Routine.exists_evaluate_countdown {node : Node} {code : Code} {value : Int64} {m : Machine}
    (hcode : Lower.exprAt countdown 0 node = .ok code) (hpasses : node.passes = [])
    (heval : (World.countdown.setting countdown 4096).eval node .countdown
      = some (value, .countdown)) (hm : m.AtCountdown) :
    ∃ n, Statements.countdown.evaluate node m = some n
      ∧ n.regs .rax = value ∧ n.AtCountdown := by
  have hnone : m.passes = node.passes ++ [] := by rw [hm.passes, hpasses, List.append_nil]
  rw [← hm.rbp, ← hm.memory] at heval
  obtain ⟨n, hn, hrax, hmemory, hrbp, hlater⟩ := exists_evaluate_of_eval _ hcode hnone heval
  exact ⟨n, hn, hrax, hmemory.trans hm.memory, hrbp.trans hm.rbp, hlater⟩

/-- After a comparison with zero it is still a machine in the function. -/
theorem Machine.AtCountdown.test {m : Machine} (h : m.AtCountdown) :
    (Statements.countdown.test m).AtCountdown :=
  ⟨h.memory, h.rbp, h.passes⟩

/-- The conditional returns 300, of which the low byte arrives. -/
theorem Statements.exists_runs_choice {m : Machine} (hm : m.AtCountdown) :
    ∃ actions t, countdown.runs .choice m actions .returned t ∧ t.regs .rax = 44 := by
  let cond : Node :=
    .binary ⟨34, some .int⟩ .lt (.var ⟨32, some .int⟩ (.localVar 0)) (.num ⟨36, some .int⟩ 3)
  let value : Node := .num ⟨47, some .int⟩ 300
  obtain ⟨n, hless, hrax, hn⟩ := @Routine.exists_evaluate_countdown cond _ _ m rfl rfl rfl hm
  obtain ⟨t, hvalue, hrax', -⟩ := @Routine.exists_evaluate_countdown value _ _ _ rfl rfl rfl hn.test
  have hholds : countdown.rax n ≠ 0 := by
    show n.regs .rax ≠ 0
    rw [hrax]
    decide +kernel
  refine ⟨[.evaluate cond, .test, .evaluate value, .narrow], countdown.narrow t, ?_, ?_⟩
  · rw [Node.choice, runs]
    refine ⟨n, _, hless, rfl, ?_⟩
    rw [if_neg hholds, runs_block, runsAll]
    refine .inr ⟨rfl, ?_⟩
    rw [runs]
    exact ⟨rfl, t, _, hvalue, rfl, rfl, rfl⟩
  · show signedByte (lowByte (t.regs .rax)) = 44
    rw [hrax']
    decide +kernel

/-- The loop is entered, so what the conditional returns is returned. -/
theorem Statements.exists_runs_countdown {m : Machine} (hm : m.AtCountdown) :
    ∃ actions t, countdown.runs Function.countdown.body m actions .returned t
      ∧ t.regs .rax = 44 := by
  let cond : Node := .var ⟨25, some .int⟩ (.localVar 0)
  obtain ⟨n, hnumber, hrax, hn⟩ := @Routine.exists_evaluate_countdown cond _ _ m rfl rfl rfl hm
  have hnonzero : countdown.rax n ≠ 0 := by
    show n.regs .rax ≠ 0
    rw [hrax]
    decide +kernel
  have henters : countdown.enters (some cond) m [.evaluate cond, .test] (countdown.test n) :=
    ⟨n, hnumber, hnonzero, rfl, rfl⟩
  obtain ⟨actions, t, hchoice, ht⟩ := exists_runs_choice hn.test
  refine ⟨[.evaluate cond, .test] ++ actions, t, ?_, ht⟩
  rw [Function.countdown, runs_block, runsAll]
  refine .inr ⟨rfl, ?_⟩
  rw [runs]
  refine ⟨m, [], _, ⟨rfl, rfl⟩, rfl, .stop henters ?_⟩
  rw [runs_block, runsAll]
  exact .inr ⟨rfl, hchoice⟩

/-- The number that the function is called with is 2, so the loop is entered, the conditional
returns 300, and what arrives is the low byte of that. -/
theorem Source.functions_follow_countdown :
    countdown.program = .ok ⟨[], [.countdown]⟩
      ∧ ∃ listing lines, (Program.mk [] [.countdown]).lower = .ok listing ∧ listing.code = lines
        ∧ Function.countdown.Follows .countdown lines
        ∧ ∃ code pc n performed t, Routine.countdown.IsCode Function.countdown.body code
          ∧ lines.At pc code
          ∧ World.countdown.datapath.Exits lines "f" pc (pc + code.length) n pc
            ⟨fun _ => 4096, .countdown, [], (0, 0), []⟩ .returned performed t
          ∧ t.regs .rax = 44 := by
  obtain ⟨listing, routines, hlower, hlines, hroutines⟩ := functions_follow program_countdown
  obtain ⟨lines, ⟨frame, hframe, hfollows⟩, rfl⟩ : ∃ lines, (∃ frame,
      Function.countdown.frame = .ok frame
        ∧ Function.countdown.Follows (Lower.routineOf [] .countdown frame) lines)
      ∧ routines = [lines] := by
    cases hroutines with
    | cons hfollows hmore =>
      cases hmore
      exact ⟨_, hfollows, rfl⟩
  obtain rfl : (⟨[-8], 16⟩ : Frame) = frame := Except.ok.inj hframe
  obtain ⟨inside, hinside, -, hstands⟩ := hfollows.stands
  obtain ⟨code, pc, hcode, hat⟩ := hstands _ (List.mem_cons_self ..)
  have hat : lines.At pc code := by
    rw [hinside, ← Nat.zero_add pc]
    exact (Code.at_self _).left.trans hat
  obtain ⟨actions, t, hruns, hrax⟩ := Statements.exists_runs_countdown
    (m := ⟨fun _ => 4096, .countdown, [], (0, 0), []⟩) ⟨rfl, rfl, rfl⟩
  obtain ⟨n, hexits⟩ := (hfollows.means _ _ _ hcode hat _ _ _ _ _).2 ⟨actions, hruns, rfl⟩
  rw [List.flatten_singleton] at hlines
  exact ⟨program_countdown, listing, lines, hlower, hlines, hfollows, code, pc, n, _, t, hcode, hat,
    hexits, hrax⟩

end PocketCompiler
