import PocketCompiler.Proofs.Machine

/-!
# The frame and the stack

Code that computes a value may use all registers but those of the frame, and what it puts on the
stack it takes off again: `Machine.SameFrame`.  `Machine.Follows` compares what has come of running
code with what should have come of it, so failing is compared as well, and `Machine.Follows.bind` is
the rule for code that is followed by other code.
-/

namespace PocketCompiler

/-! ### Machines that agree -/

namespace Machine

/-- The same frame, and the same words on the stack. -/
structure SameFrame (m n : Machine) : Prop where
  rbp : n.regs .rbp = m.regs .rbp
  rsp : n.regs .rsp = m.regs .rsp
  stack : n.stack = m.stack

theorem SameFrame.refl (m : Machine) : m.SameFrame m := ⟨rfl, rfl, rfl⟩

theorem SameFrame.trans {m n o : Machine} (h : m.SameFrame n) (h' : n.SameFrame o) :
    m.SameFrame o :=
  ⟨h'.rbp.trans h.rbp, h'.rsp.trans h.rsp, h'.stack.trans h.stack⟩

/-- `n` has come from `m` to a value and a memory, with the calls `later` still to come. -/
structure Reaches (m : Machine) (later : List Nat) (value : Int64) (memory : Memory)
    (n : Machine) : Prop where
  frame : m.SameFrame n
  rax : n.regs .rax = value
  memory : n.memory = memory
  passes : n.passes = later

/-- What has come of running code ends as an evaluation does: both fail, or the machine has come
to the value and the memory. -/
def Follows (m : Machine) (later : List Nat) (result : Option (Int64 × Memory))
    (ran : Option Machine) : Prop :=
  match result with
  | none => ran = none
  | some (value, memory) => ∃ n, ran = some n ∧ m.Reaches later value memory n

variable {m n : Machine} {later mid : List Nat}

/-- **Sequence**: code that goes on where other code has ended. -/
theorem Follows.bind {result : Option (Int64 × Memory)} {ran : Option Machine}
    {f : Int64 × Memory → Option (Int64 × Memory)} {g : Machine → Option Machine}
    (h : n.Follows mid result ran)
    (hg : ∀ value memory o, n.Reaches mid value memory o → m.Follows later (f (value, memory)) (g o)) :
    m.Follows later (result.bind f) (ran.bind g) := by
  cases result with
  | none =>
    rw [show ran = none from h]
    rfl
  | some r =>
    obtain ⟨o, rfl, ho⟩ := h
    exact hg r.1 r.2 o ho

/-- A new value in `rax` is all that changes. -/
theorem Reaches.setRax {value : Int64} {memory : Memory} (h : m.Reaches later value memory n)
    (next : Int64) : m.Follows later (some (next, memory)) (n.write .rax next) :=
  ⟨n.set .rax next, rfl, ⟨h.frame.rbp, h.frame.rsp, h.frame.stack⟩, rfl, h.memory, h.passes⟩

/-! ### Words that wait -/

variable {m n : Machine}

/-- The machine with words on its stack, the last one first. -/
def stacked (m : Machine) (words : List Int64) : Machine := words.foldr (fun word m => m.push word) m

theorem SameFrame.push (h : m.SameFrame n) (word : Int64) : (m.push word).SameFrame (n.push word) where
  rbp := h.rbp
  rsp := congrArg (· - 8) h.rsp
  stack := congrArg (word :: ·) h.stack

theorem SameFrame.stacked (h : m.SameFrame n) (words : List Int64) :
    (m.stacked words).SameFrame (n.stacked words) := by
  induction words with
  | nil => exact h
  | cons word words ih => exact ih.push word

theorem stacked_append (m : Machine) (first second : List Int64) :
    m.stacked (first ++ second) = (m.stacked second).stacked first :=
  List.foldr_append

/-- A word that was pushed can be popped, and then the stack is as it was. -/
theorem SameFrame.pop {word : Int64} (h : (m.push word).SameFrame n) :
    ∃ popped, n.pop = some (word, popped) ∧ m.SameFrame popped
      ∧ (∀ r, r ≠ .rsp → popped.regs r = n.regs r) ∧ popped.memory = n.memory
      ∧ popped.passes = n.passes := by
  have hstack : n.stack = word :: m.stack := h.stack
  refine ⟨{ n.set .rsp (n.regs .rsp + 8) with stack := m.stack }, ?_, ?_, ?_, rfl, rfl⟩
  · rw [Machine.pop, hstack]
  · refine ⟨h.rbp, ?_, rfl⟩
    have hrsp : n.regs .rsp = m.regs .rsp - 8 := h.rsp
    show n.regs .rsp + 8 = m.regs .rsp
    rw [hrsp, Int64.sub_add_cancel]
  · intro r hr
    exact if_neg hr

/-- Popping a word into a register other than those of the frame. -/
theorem SameFrame.run_pop (world : World) {word : Int64} (dst : Reg)
    (h : (m.push word).SameFrame n) (hrsp : dst ≠ .rsp) (hrbp : dst ≠ .rbp) :
    ∃ o, world.run [.instr (.pop dst)] n = some o ∧ m.SameFrame o ∧ o.regs dst = word
      ∧ (∀ r, r ≠ .rsp → r ≠ dst → o.regs r = n.regs r) ∧ o.memory = n.memory
      ∧ o.passes = n.passes := by
  obtain ⟨popped, hpop, hframe, hregs, hmemory, hpasses⟩ := h.pop
  refine ⟨popped.set dst word, ?_, ⟨?_, ?_, hframe.stack⟩, if_pos rfl, ?_, hmemory, hpasses⟩
  · show ((n.pop.bind fun p => p.2.write dst p.1).bind some) = _
    rw [hpop, Option.bind_fun_some]
    exact if_neg hrsp
  · show (if Reg.rbp = dst then word else popped.regs .rbp) = _
    rw [if_neg hrbp.symm]
    exact hframe.rbp
  · show (if Reg.rsp = dst then word else popped.regs .rsp) = _
    rw [if_neg hrsp.symm]
    exact hframe.rsp
  · intro r hr hdst
    show (if r = dst then word else popped.regs r) = _
    rw [if_neg hdst]
    exact hregs r hr

/-- Popping as many words as wait gives every register its own word. -/
theorem SameFrame.run_pops (world : World) : ∀ (registers : List Reg) (words : List Int64)
    (n : Machine), registers.length = words.length → registers.Nodup →
      .rsp ∉ registers → .rbp ∉ registers → (m.stacked words).SameFrame n →
        ∃ o, world.run (registers.map fun dst => .instr (.pop dst)) n = some o ∧ m.SameFrame o
          ∧ registers.map o.regs = words ∧ (∀ r, r ≠ .rsp → r ∉ registers → o.regs r = n.regs r)
          ∧ o.memory = n.memory ∧ o.passes = n.passes
  | [], [], n, _, _, _, _, hframe => ⟨n, rfl, hframe, rfl, fun _ _ _ => rfl, rfl, rfl⟩
  | [], _ :: _, _, hlength, _, _, _, _ => nomatch hlength
  | _ :: _, [], _, hlength, _, _, _, _ => nomatch hlength
  | dst :: registers, word :: words, n, hlength, hnodup, hrsp, hrbp, hframe => by
    rw [List.mem_cons, not_or] at hrsp hrbp
    rw [List.nodup_cons] at hnodup
    obtain ⟨o, hrun, hsame, hdst, hother, hmemory, hpasses⟩ :=
      SameFrame.run_pop world (m := m.stacked words) dst hframe (Ne.symm hrsp.1) (Ne.symm hrbp.1)
    obtain ⟨p, hrun', hsame', hwords, hother', hmemory', hpasses'⟩ :=
      run_pops world registers words o (Nat.succ.inj hlength) hnodup.2 hrsp.2 hrbp.2 hsame
    refine ⟨p, ?_, hsame', ?_, ?_, hmemory'.trans hmemory, hpasses'.trans hpasses⟩
    · rw [List.map_cons, ← List.singleton_append, World.run_append, hrun]
      exact hrun'
    · -- The pops that follow leave the first register alone.
      rw [List.map_cons, hwords, hother' dst (Ne.symm hrsp.1) hnodup.1, hdst]
    · intro r hr hmem
      rw [List.mem_cons, not_or] at hmem
      rw [hother' r hr hmem.2, hother r hr hmem.1]

end Machine

end PocketCompiler
