import PocketCompiler.Proofs.Grammar.Derivation
import PocketCompiler.Proofs.Grammar.Progress

/-!
# The rules do what the readers do

`Rule.reader` is the reader that a rule stands for, and `Rule.run_reader` says that running it is
running one step of the rule, with the readers of the rules that the step calls.  So derivations and
runs are the same: `Rule.run_eq_ok_iff` and `Rule.run_eq_error_iff`.
-/

namespace PocketCompiler

open Parse

variable {α β : Type} {s t : ParseState}

/-! ### The readers of the rules -/

/-- The reader of a level. -/
def Level.reader : Level → Parse Node
  | .equality => Parse.equality Parse.expr
  | .relational => Parse.relational Parse.expr
  | .sum => terms Parse.expr
  | .product => Parse.product Parse.expr

/-- Reads one more operator of the level with its operand, if there is one. -/
def Level.longer : Level → Node → Parse (Option Node)
  | .equality => further Level.equality.table (Parse.relational Parse.expr)
  | .relational => further Level.relational.table (terms Parse.expr)
  | .sum => term? Parse.expr
  | .product => further Level.product.table (unary Parse.expr)

/-- The reader that a rule stands for. -/
def Rule.reader : Rule α → Parse α
  | .expr => Parse.expr
  | .level l => l.reader
  | .more l lhs => Parse.extend l.longer lhs
  | .unary => Parse.unary Parse.expr
  | .postfixed => Parse.postfixed Parse.expr
  | .subscripts node => Parse.extend (subscript? Parse.expr) node
  | .primary => Parse.primary Parse.expr
  | .arguments loc name args => do
    let more ← Parse.arguments Parse.expr (maxArguments - args.length)
    return .call ⟨loc, none⟩ name (args ++ more)
  | .stars count => do
    let more ← Parse.stars
    return count + more
  | .names read => do
    let more ← Parse.declaredNames
    return read ++ more
  | .dimensions read => do
    let more ← Parse.collect dimension?
    return read ++ more
  | .type => Parse.type
  | .values read => do
    let more ← Parse.separated Parse.expr
    return read ++ more
  | .initializers count => Parse.initializers count
  | .declaration loc => Parse.declaration loc
  | .items read => do
    let more ← Parse.collect (item? Parse.stmt)
    return read ++ more
  | .block loc => Parse.block Parse.stmt loc
  | .exprUnless text => Parse.exprUnless text
  | .loopHead => Parse.loopHead
  | .stmt => Parse.stmt
  | .parameters read => do
    let more ← Parse.parameters (maxArguments - read.length)
    return read ++ more
  | .parameterList => do if ← accept ")" then pure [] else Parse.parameters maxArguments
  | .function => Parse.function
  | .global => Parse.global
  | .topLevel => Parse.topLevel

/-- Runs a step with the readers of the rules that it calls. -/
def Step.run : Step α → Except Failure (α × ParseState)
  | .done a t => .ok (a, t)
  | .fail failure => .error failure
  | .call rule s next => rule.reader.run s >>= fun r => (next r.1 r.2).run

namespace Step

/-- A call behind which nothing is left to do. -/
theorem run_call_done (rule : Rule α) (s : ParseState) :
    (call rule s .done).run = rule.reader.run s :=
  bind_pure _

/-- A step that runs a reader goes on as the reader ends. -/
theorem run_ofRun {r : Except Failure (β × ParseState)} {next : β → ParseState → Step α} :
    (ofRun r next).run = r >>= fun q => (next q.1 q.2).run := by
  cases r with
  | ok q => rfl
  | error failure => rfl

theorem run_ite {p : Prop} [Decidable p] {x y : Step α} :
    (if p then x else y).run = if p then x.run else y.run := by
  split
  · rfl
  · rfl

end Step

namespace Parse

/-! ### Sequences that start with a look at the current token -/

/-- Asking for the place of the next token does not move. -/
theorem run_here_bind {f : Nat → Parse α} : (here >>= f).run s = (f s.loc).run s := rfl

theorem run_get_bind {f : ParseState → Parse α} : (get >>= f).run s = (f s).run s := rfl

theorem run_modify_bind {g : ParseState → ParseState} {f : PUnit → Parse α} :
    (modify g >>= f).run s = (f ()).run (g s) := rfl

/-- A local is known by the number of those before it. -/
theorem run_addLocal_bind {name : String} {ty : Ty} {f : Nat → Parse α} :
    (addLocal name ty >>= f).run s = (f s.locals.length).run (s.addLocal { name, ty }) := rfl

/-- A branch on a text that is not passed. -/
theorem run_if_check {text : String} {p q : Parse α} :
    (do if ← check text then p else q).run s = if s.sees text then p.run s else q.run s := by
  show StateT.run (if s.sees text then p else q) s = _
  split
  · rfl
  · rfl

/-- A branch on a text that is passed if it is there. -/
theorem run_if_accept {text : String} {p q : Parse α} :
    (do if ← accept text then p else q).run s
      = if s.sees text then p.run s.advance else q.run s := by
  cases hsees : s.sees text with
  | true => exact run_bind (run_accept_true hsees)
  | false => exact run_bind (run_accept_false hsees)

/-- A text that has to be there is a step of a rule. -/
theorem run_expect_bind {text : String} {f : Unit → Parse α} {next : ParseState → Step α}
    (h : (f ()).run s.advance = (next s.advance).run) :
    (expect text >>= f).run s = (Step.expect text s next).run := by
  unfold Step.expect
  cases hsees : s.sees text with
  | true => exact (run_bind (run_expect hsees)).trans h
  | false => exact run_bind_error (run_expect_error hsees)

/-- A name that has to be there is a step of a rule, and what follows may use it. -/
theorem run_identifier_bind {f : String × Nat → Parse α}
    {next : String → Nat → ParseState → Step α}
    (h : ∀ name loc, (f (name, loc)).run s.advance = (next name loc s.advance).run) :
    (identifier >>= f).run s = (Step.identifier s next).run := by
  unfold Step.identifier
  split
  · next hcurrent => exact (run_bind (run_identifier hcurrent)).trans (h _ _)
  · next hnone =>
    refine run_bind_error ?_
    unfold identifier
    rw [run_get_bind]
    split
    · next hcurrent => exact (hnone _ _ hcurrent).elim
    · rfl

/-- A number that has to be there is a step of a rule; one without a value is a complaint of its
own. -/
theorem run_number_bind {f : Int64 × Nat → Parse α} {next : Int64 → Nat → ParseState → Step α}
    (h : ∀ value loc, (f (value, loc)).run s.advance = (next value loc s.advance).run) :
    (number >>= f).run s = (Step.number s next).run := by
  unfold Step.number
  split
  · next hcurrent => exact (run_bind (run_number hcurrent)).trans (h _ _)
  · next hcurrent =>
    refine run_bind_error ?_
    unfold number
    rw [run_get_bind, hcurrent]
    rfl
  · next hsome hnone =>
    refine run_bind_error ?_
    unfold number
    rw [run_get_bind]
    split
    · next hcurrent => exact (hsome _ _ _ hcurrent).elim
    · next hcurrent => exact (hnone _ _ hcurrent).elim
    · rfl

/-- A literal that has to be there is a step of a rule. -/
theorem run_literal_bind {f : List UInt8 × Ty → Parse α}
    {next : List UInt8 → Ty → ParseState → Step α}
    (h : ∀ bytes ty, (f (bytes, ty)).run s.advance = (next bytes ty s.advance).run) :
    (literal >>= f).run s = (Step.literal s next).run := by
  unfold Step.literal
  split
  · next hcurrent => exact (run_bind (run_literal hcurrent)).trans (h _ _)
  · next hnone =>
    refine run_bind_error ?_
    unfold literal
    rw [run_get_bind]
    split
    · next hcurrent => exact (hnone _ _ _ _ hcurrent).elim
    · rfl

/-- A sequence that starts with the reader of a rule. -/
theorem run_rule_bind (rule : Rule β) {f : β → Parse α} {next : β → ParseState → Step α}
    (h : ∀ b t, (f b).run t = (next b t).run) :
    (rule.reader >>= f).run s = (Step.call rule s next).run := by
  rw [StateT.run_bind]
  exact bind_congr fun r => h r.1 r.2

/-- What comes behind a branch on a text comes behind both of its sides. -/
theorem run_if_accept_bind {text : String} {p q : Parse β} {f : β → Parse α} :
    ((do if ← accept text then p else q) >>= f).run s
      = if s.sees text then (p >>= f).run s.advance else (q >>= f).run s := by
  rw [bind_assoc]
  cases hsees : s.sees text with
  | true => exact run_bind (run_accept_true hsees)
  | false => exact run_bind (run_accept_false hsees)

/-- A computation that reads nothing is a step of a rule. -/
theorem run_liftM_bind {r : Except Failure β} {f : β → Parse α} {next : β → Step α}
    (h : ∀ b, (f b).run s = (next b).run) :
    ((liftM r : Parse β) >>= f).run s = (Step.ofResult r next).run := by
  cases r with
  | ok b => exact h b
  | error failure => rfl

/-- Typing an expression is such a computation: it looks at the tables only. -/
theorem run_typed_bind {node : Node} {f : Node → Parse α} {next : Node → Step α}
    (h : ∀ typed, (f typed).run s = (next typed).run) :
    (typed node >>= f).run s = (Step.ofResult (annotate s.symbols node) next).run := by
  unfold typed
  rw [bind_assoc, run_get_bind]
  exact run_liftM_bind h

/-- Typing an expression leaves the state as it is. -/
theorem run_typed (node : Node) (s : ParseState) :
    (typed node).run s = (annotate s.symbols node).map fun typed => (typed, s) := by
  show StateT.run (liftM (annotate s.symbols node) : Parse Node) s = _
  cases annotate s.symbols node with
  | ok typed => rfl
  | error failure => rfl

/-- Joining two typed operands leaves the state as it is. -/
theorem run_combined (combine : Node → Node → Nat → Except Failure Node) (lhs rhs : Node)
    (loc : Nat) (s : ParseState) :
    (combined combine lhs rhs loc).run s
      = (Join.typed combine s.symbols lhs rhs loc).map fun node => (node, s) := by
  unfold combined Join.typed
  rw [StateT.run_bind, run_typed]
  cases annotate s.symbols lhs with
  | error failure => rfl
  | ok lhs =>
    show StateT.run (typed rhs >>= fun rhs => (liftM (combine lhs rhs loc) : Parse Node)) s = _
    rw [StateT.run_bind, run_typed]
    cases annotate s.symbols rhs with
    | error failure => rfl
    | ok rhs =>
      show StateT.run (liftM (combine lhs rhs loc) : Parse Node) s
        = (combine lhs rhs loc).map fun node => (node, s)
      cases combine lhs rhs loc with
      | ok node => rfl
      | error failure => rfl

theorem run_combined_bind {combine : Node → Node → Nat → Except Failure Node} {lhs rhs : Node}
    {loc : Nat} {f : Node → Parse α} {next : Node → Step α}
    (h : ∀ node, (f node).run s = (next node).run) :
    (combined combine lhs rhs loc >>= f).run s
      = (Step.ofResult (Join.typed combine s.symbols lhs rhs loc) next).run := by
  rw [StateT.run_bind, run_combined]
  cases Join.typed combine s.symbols lhs rhs loc with
  | ok node => exact h node
  | error failure => rfl

/-! ### Loops -/

/-- A loop takes one round, and what comes behind it comes behind the rest of the rounds. The number
of rounds that are allowed does not matter, since each of them moves on. -/
theorem run_collect_bind {item : Parse (Option β)} (h : Moves found item) {f : List β → Parse α} :
    (collect item >>= f).run s
      = (item >>= fun o => match o with
          | none => f []
          | some b => collect item >>= fun more => f (b :: more)).run s := by
  rw [StateT.run_bind, run_collect h s, ← StateT.run_bind, bind_assoc, StateT.run_bind,
    StateT.run_bind]
  refine bind_congr fun r => ?_
  cases r.1 with
  | none => rfl
  | some b =>
    show ((collect item >>= fun more => pure (b :: more)) >>= f).run r.2 = _
    rw [bind_assoc]
    rfl

/-- Goes on after a try to make `a` longer. -/
def goOn (longer : α → Parse (Option α)) (a : α) : Option α → Parse α
  | none => pure a
  | some b => extend longer b

/-- The same for a loop that makes an expression longer and longer. -/
theorem run_extend_bind {longer : α → Parse (Option α)} (h : ∀ a, Moves found (longer a)) (a : α)
    (s : ParseState) : (extend longer a).run s = (longer a >>= goOn longer a).run s := by
  rw [run_extend h a s, StateT.run_bind, StateT.run_bind]
  refine bind_congr fun r => ?_
  cases r.1 with
  | none => rfl
  | some b => rfl

/-- Another operator moves on, and so does what follows it. -/
theorem moves_longer (l : Level) (lhs : Node) : Moves found (l.longer lhs) := by
  intro n
  have hexpr := moves_expr n
  cases l with
  | equality =>
    exact (alike_further (alike_relational hexpr) _ lhs).weaken (Nat.le_succ n) fun _ => Nat.le_refl _
  | relational =>
    exact (alike_further (alike_terms hexpr) _ lhs).weaken (Nat.le_succ n) fun _ => Nat.le_refl _
  | sum => exact (alike_term hexpr lhs).weaken (Nat.le_succ n) fun _ => Nat.le_refl _
  | product =>
    exact (alike_further (alike_unary hexpr) _ lhs).weaken (Nat.le_succ n) fun _ => Nat.le_refl _

/-- A subscript moves on over its bracket. -/
theorem moves_subscript (node : Node) : Moves found (subscript? expr node) := fun n =>
  (alike_subscript (moves_expr n) node).weaken (Nat.le_succ n) fun _ => Nat.le_refl _

/-- An item of a block moves on. -/
theorem moves_item : Moves found (item? stmt) := fun n => alike_item (moves_stmt n)

/-- The four operators in front of an operand are looked for in turn; the state finds the one that
is there. -/
theorem run_sign? (s : ParseState) :
    Parse.sign?.run s = match s.sign? with
      | none => .ok (none, s)
      | some sign => .ok (some (sign, s.loc), s.advance) := by
  unfold Parse.sign? ParseState.sign?
  simp only [run_here_bind, run_if_accept]
  split
  · rfl
  split
  · rfl
  split
  · rfl
  split
  · rfl
  · rfl

end Parse

/-! ### Loops that have gathered nothing yet -/

/-- Counting from zero is what the reader of stars does. -/
theorem Rule.reader_stars : (Rule.stars 0).reader = Parse.stars := by
  simp only [Rule.reader, Nat.zero_add, bind_pure]

/-- Without names that were read before, the rule reads the names of a declaration. -/
theorem Rule.reader_names : (Rule.names []).reader = Parse.declaredNames := bind_pure _

/-- Without lengths that were read before, it reads all lengths of a type. -/
theorem Rule.reader_dimensions : (Rule.dimensions []).reader = Parse.collect dimension? :=
  bind_pure _

/-- Without values that were read before, it reads all initial values. -/
theorem Rule.reader_values : (Rule.values []).reader = Parse.separated Parse.expr := bind_pure _

/-- Without items that were read before, it reads all items of a block. -/
theorem Rule.reader_items : (Rule.items []).reader = Parse.collect (item? Parse.stmt) :=
  bind_pure _

/-- Without parameters that were read before, there is room for as many as there are registers. -/
theorem Rule.reader_parameters :
    (Rule.parameters []).reader = Parse.parameters maxArguments := bind_pure _

/-! ### One equation for each rule -/

/-- Running the reader of a rule is running one step of the rule. -/
def Rule.Runs (rule : Rule α) : Prop := ∀ s, rule.reader.run s = (rule.step s).run

namespace Rule

/-- An expression is an assignment. -/
theorem runs_expr : expr.Runs := by
  intro s
  refine (run_expr s).trans (run_rule_bind (.level .equality) fun node t => ?_)
  rw [run_here_bind, run_if_accept, Step.run_ite]
  split
  · exact run_rule_bind .expr fun _ _ => rfl
  · rfl

/-- The first operand of a level is read, and then more and more of them. -/
theorem runs_level (l : Level) : (level l).Runs := by
  intro s
  cases l with
  | sum => exact run_rule_bind (.level .product) fun node t => (bind_pure _).symm
  | product => exact run_rule_bind .unary fun node t => (bind_pure _).symm
  | relational => exact run_rule_bind (.level .sum) fun node t => (bind_pure _).symm
  | equality => exact run_rule_bind (.level .relational) fun node t => (bind_pure _).symm

/-- A further operand of a level whose operators join their operands as they are. -/
theorem runs_more_table {l : Level} (hlonger : l.longer = further l.table l.operand.reader)
    (hjoin : ∀ s, l.join? s = (s.lookup l.table).map .plain) (lhs : Node) :
    (more l lhs).Runs := by
  intro s
  refine (run_extend_bind (moves_longer l) lhs s).trans ?_
  rw [Rule.step, hjoin, hlonger, further, bind_assoc, run_here_bind, bind_assoc]
  cases hlookup : s.lookup l.table with
  | none =>
    rw [run_bind (run_operator_none hlookup)]
    rfl
  | some combine =>
    rw [run_bind (run_operator_some hlookup), bind_assoc]
    refine run_rule_bind l.operand fun rhs t => ?_
    show (extend (further l.table l.operand.reader) (combine lhs rhs s.loc)).run t = _
    rw [← hlonger]
    exact (Step.run_call_done (more l (combine lhs rhs s.loc)) t).symm

/-- One more operator and operand, or what has been read. -/
theorem runs_more (l : Level) (lhs : Node) : (more l lhs).Runs := by
  cases l with
  | equality => exact runs_more_table rfl (fun _ => rfl) lhs
  | relational => exact runs_more_table rfl (fun _ => rfl) lhs
  | product => exact runs_more_table rfl (fun _ => rfl) lhs
  | sum =>
    -- Both operators of the level read a product and type the operands.
    have hoperand : ∀ combine loc (t : ParseState),
        ((do return some (← combined combine lhs (← Parse.product Parse.expr) loc) :
            Parse (Option Node)) >>= goOn Level.sum.longer lhs).run t
        = (Step.call (.level .product) t fun rhs u =>
            .ofResult (Join.typed combine u.symbols lhs rhs loc) fun node =>
              .call (.more .sum node) u .done).run := by
      intro combine loc t
      rw [bind_assoc]
      refine run_rule_bind (.level .product) fun rhs u => ?_
      rw [bind_assoc]
      exact run_combined_bind fun node => (Step.run_call_done (more .sum node) u).symm
    intro s
    refine (run_extend_bind (moves_longer .sum) lhs s).trans ?_
    show (term? Parse.expr lhs >>= _).run s = _
    rw [Rule.step, Level.join?, term?, bind_assoc, run_here_bind, run_if_accept_bind,
      run_if_accept_bind]
    split
    · exact hoperand Node.sum s.loc s.advance
    split
    · exact hoperand Node.difference s.loc s.advance
    · rfl

/-- The reader gathers the operators in front of an operand, the rule takes them one by one. -/
theorem runs_unary : unary.Runs := by
  intro s
  refine (run_collect_bind moves_sign).trans ?_
  rw [Rule.step, StateT.run_bind, run_sign?]
  cases s.sign? with
  | none => exact (run_rule_bind .postfixed fun _ _ => rfl)
  | some sign =>
    have hsigned : (unary.reader >>= fun node => pure (sign.apply s.loc node)).run s.advance
        = (Step.call unary s.advance fun node t => .done (sign.apply s.loc node) t).run :=
      run_rule_bind .unary fun _ _ => rfl
    refine Eq.trans ?_ hsigned
    rw [Rule.reader, Parse.unary]
    simp only [bind_assoc]
    rfl

theorem runs_postfixed : postfixed.Runs := fun _ =>
  run_rule_bind .primary fun node t => (Step.run_call_done (subscripts node) t).symm

/-- One more subscript, or what has been read. -/
theorem runs_subscripts (node : Node) : (subscripts node).Runs := by
  intro s
  refine (run_extend_bind moves_subscript node s).trans ?_
  rw [Rule.step, subscript?, bind_assoc, run_here_bind, run_if_accept_bind, Step.run_ite]
  split
  · rw [bind_assoc]
    refine run_rule_bind .expr fun index t => ?_
    rw [bind_assoc]
    refine run_expect_bind ?_
    rw [bind_assoc]
    exact run_combined_bind fun place =>
      (Step.run_call_done (subscripts (.deref ⟨s.loc, none⟩ place)) t.advance).symm
  · rfl

/-- The room that is left is that of the registers less the arguments that have been read. -/
theorem runs_arguments (loc : Nat) (name : String) (args : List Node) :
    (arguments loc name args).Runs := by
  intro s
  rw [Rule.reader, Rule.step, Step.run_ite]
  split
  · next hlt =>
    obtain ⟨room, hroom⟩ : ∃ room, maxArguments - args.length = room + 1 :=
      ⟨maxArguments - args.length - 1, by omega⟩
    rw [hroom, Parse.arguments, bind_assoc]
    refine run_rule_bind .expr fun argument t => ?_
    rw [run_if_accept_bind, Step.run_ite]
    split
    · rfl
    · rw [bind_assoc]
      refine run_expect_bind ?_
      have hless : maxArguments - (args ++ [argument]).length = room := by
        rw [List.length_append, List.length_singleton]
        omega
      rw [Step.run_call_done, Rule.reader, hless]
      simp only [bind_assoc, pure_bind, List.append_assoc, List.singleton_append]
  · next hle =>
    rw [Nat.sub_eq_zero_of_le (Nat.le_of_not_lt hle)]
    rfl

/-- The reader looks at the kind of the next token, and so does the rule. -/
theorem runs_primary : primary.Runs := by
  intro s
  rw [Rule.reader, Rule.step, Parse.primary, run_here_bind, run_if_accept, Step.run_ite]
  split
  · exact run_rule_bind .expr fun node t => run_expect_bind rfl
  · rw [run_get_bind]
    cases s.current?.map Token.kind with
    | none => rfl
    | some kind =>
      -- Which token it is decides; only a name looks at one more.
      cases kind with
      | identifier =>
        refine run_identifier_bind fun name loc => ?_
        rw [run_if_accept, Step.run_ite]
        split
        · unfold Parse.call Step.callOf
          split
          · rfl
          · rw [run_if_accept, Step.run_ite]
            split
            · rfl
            · exact (Step.run_call_done (arguments loc name []) _).symm
        · unfold Parse.useOf Step.useOf
          rw [run_get_bind]
          cases s.advance.scopes.find? name with
          | some ref => rfl
          | none => rfl
      | string bytes ty => exact run_literal_bind fun bytes ty => rfl
      | number value => exact run_number_bind fun value loc => rfl
      | _ => rfl

/-! ### Declarations -/

/-- One more star, or the number of them. -/
theorem runs_stars (count : Nat) : (stars count).Runs := by
  have hitem : Moves found (do if ← accept "*" then return some () else return none) := by
    intro n
    refine (moves_accept "*" n).bind fun seen => ?_
    cases seen with
    | true => exact moves_pure (by rfl) _
    | false => exact moves_pure (by rfl) _
  intro s
  rw [Rule.reader, Rule.step, Step.run_ite, Parse.stars, bind_assoc]
  refine (run_collect_bind hitem).trans ?_
  rw [run_if_accept_bind]
  split
  · rw [Step.run_call_done, Rule.reader, Parse.stars]
    simp only [bind_assoc, pure_bind, List.length_cons, Nat.add_assoc, Nat.add_comm 1]
  · rfl

/-- Items with commas between them, from the second one on. -/
theorem run_separated_bind {item : Parse β} (hitem : Moves (fun _ => 1) item)
    {f : List β → Parse α} :
    (separated item >>= f).run s
      = (item >>= fun first => do
          if ← accept "," then separated item >>= fun more => f (first :: more)
          else f [first]).run s := by
  have hmoves : Moves found (do if ← accept "," then return some (← item) else return none) := by
    intro n
    refine (moves_accept "," n).bind fun seen => ?_
    cases seen with
    | true =>
      exact ((hitem _).weaken (Nat.le_refl _) fun _ => Nat.zero_le 1).bind fun _ =>
        moves_pure (by rfl) _
    | false => exact moves_pure (by rfl) _
  unfold separated
  rw [bind_assoc, StateT.run_bind, StateT.run_bind]
  refine bind_congr fun r => ?_
  rw [bind_assoc, run_collect_bind hmoves, run_if_accept_bind, run_if_accept]
  split
  · simp only [bind_assoc, pure_bind]
  · rfl

/-- A declared name is some stars and an identifier. -/
theorem run_declaredName_bind {f : DeclaredName → Parse α} :
    (declaredName >>= f).run s
      = (Parse.stars >>= fun depth => identifier >>= fun r => f ⟨r.1, r.2, depth⟩).run s := by
  simp only [declaredName, bind_assoc, pure_bind]

theorem runs_names (read : List DeclaredName) : (names read).Runs := by
  intro s
  rw [Rule.reader, Rule.step]
  refine (run_separated_bind moves_declaredName).trans ?_
  rw [run_declaredName_bind, ← reader_stars]
  refine run_rule_bind (.stars 0) fun depth t => run_identifier_bind fun name loc => ?_
  rw [run_if_accept, Step.run_ite]
  split
  · rw [Step.run_call_done, Rule.reader]
    simp only [List.append_assoc, List.singleton_append, declaredNames]
  · rfl

theorem runs_values (read : List Node) : (values read).Runs := by
  intro s
  rw [Rule.reader, Rule.step]
  refine (run_separated_bind moves_expr).trans ?_
  refine run_rule_bind .expr fun value t => ?_
  rw [run_if_accept, Step.run_ite]
  split
  · rw [Step.run_call_done, Rule.reader]
    simp only [List.append_assoc, List.singleton_append]
  · rfl

/-- A length in brackets, or none. -/
theorem run_dimension_bind {f : Option (Int64 × Nat) → Parse α} :
    (dimension? >>= f).run s
      = if s.sees "[" then (do
          let r ← number
          expect "]"
          f (some r)).run s.advance
        else (f none).run s := by
  rw [dimension?, run_if_accept_bind]
  split
  · simp only [bind_assoc, pure_bind]
  · rfl

theorem runs_dimensions (read : List (Int64 × Nat)) : (dimensions read).Runs := by
  intro s
  rw [Rule.reader, Rule.step, Step.run_ite]
  refine (run_collect_bind moves_dimension).trans ?_
  rw [run_dimension_bind]
  split
  · refine run_number_bind fun len loc => run_expect_bind ?_
    rw [Step.run_call_done, Rule.reader]
    simp only [List.append_assoc, List.singleton_append]
  · simp only [List.append_nil]
    rfl

/-- The lengths, the stars, the type of the elements, and then the arrays from the inside out. -/
theorem runs_type : type.Runs := by
  intro s
  rw [Rule.reader, Rule.step, Parse.type, ← reader_dimensions]
  refine run_rule_bind (.dimensions []) fun dimensions t => ?_
  rw [← reader_stars]
  refine run_rule_bind (.stars 0) fun depth u => ?_
  rw [simpleType, run_if_accept_bind, run_if_accept_bind]
  simp only [Step.run_ite, Step.run_ofRun]
  split
  · exact (bind_pure _).symm
  split
  · exact (bind_pure _).symm
  · rfl

/-- Values are read behind an equals sign, and their number is compared with that of the names. -/
theorem runs_initializers (count : Nat) : (initializers count).Runs := by
  intro s
  rw [Rule.reader, Rule.step, Parse.initializers, run_if_accept, Step.run_ite]
  split
  · rw [run_here_bind, ← reader_values]
    refine run_rule_bind (.values []) fun values t => ?_
    rw [Step.run_ite]
    split
    · exact run_expect_bind rfl
    · rfl
  · exact run_expect_bind rfl

theorem runs_declaration (loc : Nat) : (declaration loc).Runs := by
  intro s
  rw [Rule.reader, Rule.step, Parse.declaration, ← reader_names]
  refine run_rule_bind (.names []) fun names t => run_rule_bind .type fun ty u => ?_
  refine run_rule_bind (.initializers names.length) fun values v => ?_
  rw [Step.run_ofRun, StateT.run_bind]
  rfl

/-! ### Statements -/

/-- The items of a block end at a brace; what starts with `var` is a declaration. -/
theorem run_item_bind {f : Option Node → Parse α} :
    (item? Parse.stmt >>= f).run s
      = if s.sees "\x7d" then (f none).run s.advance
        else if s.sees "var" then
          (Parse.declaration s.loc >>= fun node => typed node >>= fun node => f (some node)).run
            s.advance
        else (Parse.stmt >>= fun node => typed node >>= fun node => f (some node)).run s := by
  rw [item?, run_if_accept_bind]
  split
  · rfl
  · rw [bind_assoc, run_here_bind, bind_assoc]
    cases hsees : s.sees "var" with
    | true =>
      rw [run_bind (run_accept_true hsees)]
      simp only [if_true, bind_assoc, pure_bind]
    | false =>
      rw [run_bind (run_accept_false hsees)]
      simp only [Bool.false_eq_true, if_false, bind_assoc, pure_bind]

theorem runs_items (read : List Node) : (items read).Runs := by
  intro s
  rw [Rule.reader, Rule.step]
  refine (run_collect_bind moves_item).trans ?_
  rw [run_item_bind]
  simp only [Step.run_ite]
  -- A declaration and a statement are typed in the same way, and the items behind it follow.
  have hitem : ∀ typed (t : ParseState),
      StateT.run (do
        let more ← collect (item? Parse.stmt)
        return read ++ typed :: more) t = (Step.call (.items (read ++ [typed])) t .done).run := by
    intro typed t
    rw [Step.run_call_done, Rule.reader]
    simp only [List.append_assoc, List.singleton_append]
  split
  · simp only [List.append_nil]
    rfl
  split
  · exact run_rule_bind (.declaration s.loc) fun node t => run_typed_bind fun node => hitem node t
  · exact run_rule_bind .stmt fun node t => run_typed_bind fun node => hitem node t

/-- The items are read in a scope of their own. -/
theorem runs_block (loc : Nat) : (block loc).Runs := by
  intro s
  rw [Rule.reader, Rule.step, Parse.block, inScope, ← reader_items]
  simp only [bind_assoc]
  rw [run_modify_bind]
  exact run_rule_bind (.items []) fun body t => rfl

theorem runs_exprUnless (text : String) : (exprUnless text).Runs := by
  intro s
  rw [Rule.reader, Rule.step, Parse.exprUnless, run_if_check, Step.run_ite]
  split
  · rfl
  · exact run_rule_bind .expr fun _ _ => rfl

/-- The three forms of a head are told apart by a brace and by semicolons. -/
theorem runs_loopHead : loopHead.Runs := by
  intro s
  rw [Rule.reader, Rule.step, Parse.loopHead, run_if_check, Step.run_ite]
  split
  · rfl
  · refine run_rule_bind (.exprUnless ";") fun first t => ?_
    rw [run_if_accept, Step.run_ite]
    split
    · exact run_rule_bind (.exprUnless ";") fun cond u => run_expect_bind
        (run_rule_bind (.exprUnless "\x7b") fun _ _ => rfl)
    · rfl

/-- Each of the keywords is looked for in turn. -/
theorem runs_stmt : stmt.Runs := by
  intro s
  refine (run_stmt s).trans ?_
  rw [Rule.step, Parse.statement, run_here_bind, run_if_accept, run_if_accept, run_if_accept,
    run_if_accept]
  -- The first token decides: `return`, `if`, `for`, a block, or an expression.
  simp only [Step.run_ite]
  split
  · exact run_rule_bind .expr fun _ _ => run_expect_bind rfl
  split
  · refine run_rule_bind .expr fun cond t => run_rule_bind .stmt fun onTrue u => ?_
    rw [run_if_accept, Step.run_ite]
    split
    · exact run_rule_bind .stmt fun _ _ => rfl
    · rfl
  split
  · exact run_rule_bind .loopHead fun _ _ => run_rule_bind .stmt fun _ _ => rfl
  split
  · exact (Step.run_call_done (block s.loc) s.advance).symm
  · unfold Step.exprStatement
    rw [Parse.exprStatement, run_here_bind, run_if_accept, Step.run_ite]
    split
    · rfl
    · exact run_rule_bind .expr fun _ _ => run_expect_bind rfl

/-! ### Functions and globals -/

/-- The room that is left is that of the registers less the parameters that have been read. -/
theorem runs_parameters (read : List (Nat × Ty)) : (parameters read).Runs := by
  intro s
  rw [Rule.reader, Rule.step, Step.run_ite]
  split
  · next hlt =>
    -- The reader counts down the room that is left, the rule the parameters that have been read.
    obtain ⟨room, hroom⟩ : ∃ room, maxArguments - read.length = room + 1 :=
      ⟨maxArguments - read.length - 1, by omega⟩
    rw [hroom, Parse.parameters, bind_assoc]
    refine run_identifier_bind fun name loc => ?_
    rw [bind_assoc]
    refine run_rule_bind .type fun ty t => ?_
    rw [bind_assoc, run_addLocal_bind, run_if_accept_bind, Step.run_ite]
    split
    · rfl
    · rw [bind_assoc]
      refine run_expect_bind ?_
      have hless : maxArguments - (read ++ [(t.locals.length, ty.decay)]).length = room := by
        rw [List.length_append, List.length_singleton]
        omega
      rw [Step.run_call_done, Rule.reader, hless]
      simp only [bind_assoc, pure_bind, List.append_assoc, List.singleton_append]
  · next hle =>
    rw [Nat.sub_eq_zero_of_le (Nat.le_of_not_lt hle)]
    rfl

theorem runs_parameterList : parameterList.Runs := by
  intro s
  rw [Rule.reader, Rule.step, run_if_accept, Step.run_ite]
  split
  · rfl
  · rw [Step.run_call_done, reader_parameters]

/-- What is read of a function behind its parameters. -/
theorem run_functionRest (name : String) (loc : Nat) (params : List (Nat × Ty)) (s : ParseState) :
    StateT.run (do
        let result ← Parse.type
        let start ← here
        expect "\x7b"
        let body ← Parse.block Parse.stmt start
        modify ParseState.leaveScope
        let s ← get
        if (frameBytes? s.locals).any (· ≤ maxObjectSize) then
          let ty := .func result (params.map (·.2))
          let read : Function := { name, ty, params := params.map (·.1), locals := s.locals, body }
          modify fun t => { t with locals := [], functions := t.functions ++ [read] }
        else
          complainAt loc (.frameTooLarge name) : Parse Unit) s
      = (Step.call type s fun result t => .expect "\x7b" t fun u =>
          .call (.block t.loc) u fun body v =>
            if (frameBytes? v.locals).any (· ≤ maxObjectSize) then
              .done () (v.leaveScope.addFunction name params result body)
            else .fail (.complaint loc (.frameTooLarge name))).run := by
  refine run_rule_bind .type fun result t => ?_
  rw [run_here_bind]
  refine run_expect_bind (run_rule_bind (.block t.loc) fun body u => ?_)
  rw [run_modify_bind, run_get_bind, Step.run_ite]
  show StateT.run (if (frameBytes? u.locals).any (· ≤ maxObjectSize) then _ else _) _ = _
  split
  · rfl
  · rfl

/-- Everything behind the name is read in the scope of the parameters; the size of the frame is
checked when the body has been read. -/
theorem runs_function : function.Runs := by
  intro s
  rw [Rule.reader, Rule.step, Parse.function]
  refine run_identifier_bind fun name loc => ?_
  rw [Step.run_ofRun, StateT.run_bind]
  refine bind_congr fun r => ?_
  rw [run_modify_bind, inScope]
  simp only [bind_assoc]
  rw [run_modify_bind]
  refine run_expect_bind ?_
  -- From here on the function is read in its own scope.
  generalize { r.2 with locals := [] }.enterScope.advance = t
  show _ = parameterList.reader.run t >>= _
  rw [Rule.reader, run_if_accept]
  cases hsees : t.sees ")" with
  | true =>
    rw [run_bind (run_accept_true hsees)]
    simp only [if_true, bind_assoc, pure_bind]
    exact run_functionRest name loc [] t.advance
  | false =>
    rw [run_bind (run_accept_false hsees)]
    simp only [Bool.false_eq_true, if_false, bind_assoc, pure_bind]
    rw [StateT.run_bind]
    exact bind_congr fun q => run_functionRest name loc q.1 q.2

/-- The globals are declared when the whole declaration has been read. -/
theorem runs_global : global.Runs := by
  intro s
  rw [Rule.reader, Rule.step, Parse.global, ← reader_names]
  refine run_rule_bind (.names []) fun names t => run_rule_bind .type fun ty u => ?_
  refine run_rule_bind (.initializers names.length) fun values v => ?_
  rw [Step.run_ofRun]
  exact (bind_pure _).symm

/-- A declaration starts with `func` or with `var`. -/
theorem runs_topLevel : topLevel.Runs := by
  intro s
  rw [Rule.reader, Rule.step, Parse.topLevel, run_if_accept, run_if_accept]
  simp only [Step.run_ite, Step.run_call_done]
  rfl

end Rule

/-- **Running the reader of a rule is running one step of the rule.** -/
theorem Rule.run_reader (rule : Rule α) : rule.Runs := by
  cases rule with
  | expr => exact runs_expr
  | level l => exact runs_level l
  | more l lhs => exact runs_more l lhs
  | unary => exact runs_unary
  | postfixed => exact runs_postfixed
  | subscripts node => exact runs_subscripts node
  | primary => exact runs_primary
  | arguments loc name args => exact runs_arguments loc name args
  | stars count => exact runs_stars count
  | names read => exact runs_names read
  | dimensions read => exact runs_dimensions read
  | type => exact runs_type
  | values read => exact runs_values read
  | initializers count => exact runs_initializers count
  | declaration loc => exact runs_declaration loc
  | items read => exact runs_items read
  | block loc => exact runs_block loc
  | exprUnless text => exact runs_exprUnless text
  | loopHead => exact runs_loopHead
  | stmt => exact runs_stmt
  | parameters read => exact runs_parameters read
  | parameterList => exact runs_parameterList
  | function => exact runs_function
  | global => exact runs_global
  | topLevel => exact runs_topLevel

/-! ### Derivations are runs -/

/-- What a rule is derived to yield is what its reader gives. -/
theorem Step.Yields.run {x : Step α} {a : α} {t : ParseState} (h : x.Yields a t) :
    x.run = .ok (a, t) := by
  induction h with
  | done => rfl
  | @call _ _ rule s t _ next b _ _ _ ihrule ihnext =>
    have hrule : rule.reader.run s = .ok (b, t) := (rule.run_reader s).trans ihrule
    show (rule.reader.run s >>= fun r => (next r.1 r.2).run) = _
    rw [hrule]
    exact ihnext

/-- What a rule is derived to fail with is what its reader stops with. -/
theorem Step.Fails.run {x : Step α} {failure : Failure} (h : x.Fails failure) :
    x.run = .error failure := by
  induction h with
  | fail => rfl
  | @inside _ _ rule s next _ ih =>
    have hrule : rule.reader.run s = .error failure := (rule.run_reader s).trans ih
    show (rule.reader.run s >>= fun r => (next r.1 r.2).run) = _
    rw [hrule]
    rfl
  | @behind _ _ rule s t next b hyields _ ih =>
    have hrule : rule.reader.run s = .ok (b, t) := (rule.run_reader s).trans hyields.run
    show (rule.reader.run s >>= fun r => (next r.1 r.2).run) = _
    rw [hrule]
    exact ih

/-- **A reader gives a result exactly when there is a derivation of it.** -/
theorem Rule.run_eq_ok_iff (rule : Rule α) {a : α} :
    rule.reader.run s = .ok (a, t) ↔ (rule.step s).Yields a t := by
  rw [rule.run_reader s]
  refine ⟨fun hrun => ?_, fun h => h.run⟩
  rcases rule.exists_outcome s with ⟨b, u, h⟩ | ⟨failure, h⟩
  · obtain ⟨rfl, rfl⟩ := Prod.mk.inj (Except.ok.inj (hrun.symm.trans h.run))
    exact h
  · exact nomatch hrun.symm.trans h.run

/-- **A reader stops exactly when following its rule ends in that failure.** -/
theorem Rule.run_eq_error_iff (rule : Rule α) {failure : Failure} :
    rule.reader.run s = .error failure ↔ (rule.step s).Fails failure := by
  rw [rule.run_reader s]
  refine ⟨fun hrun => ?_, fun h => h.run⟩
  rcases rule.exists_outcome s with ⟨b, u, h⟩ | ⟨found, h⟩
  · exact nomatch hrun.symm.trans h.run
  · obtain rfl := Except.error.inj (hrun.symm.trans h.run)
    exact h

/-! ### Whole programs -/

/-- Reading whole declarations from `s` comes to `t`. -/
inductive ParseState.Units : ParseState → ParseState → Prop
  | refl {s : ParseState} : Units s s
  | next {s t u : ParseState} (hs : s.atEnd = false) (hread : (Rule.topLevel.step s).Yields () t)
      (hmore : Units t u) : Units s u

/-- Reading stops in `t`: at the end, or with a failure. -/
def ParseState.StopsAt (t : ParseState) : Option Failure → Prop
  | none => t.atEnd = true
  | some failure => t.atEnd = false ∧ (Rule.topLevel.step t).Fails failure

/-- What reading does when one declaration has been looked at. -/
theorem readUnitsWithin_succ_of_yields {bound : Nat} (hs : s.atEnd = false)
    (h : (Rule.topLevel.step s).Yields () t) :
    readUnitsWithin (bound + 1) s = readUnitsWithin bound t := by
  have hrun : Parse.topLevel.run s = .ok ((), t) := Rule.topLevel.run_eq_ok_iff.2 h
  rw [readUnitsWithin, if_neg (by rw [hs]; exact Bool.false_ne_true), hrun]

/-- Where there is nothing more to read, or something that cannot be read, no more declarations
come. -/
theorem readUnitsWithin_succ_of_stopsAt {bound : Nat} {failure : Option Failure}
    (h : s.StopsAt failure) : readUnitsWithin (bound + 1) s = (s.program, failure) := by
  cases failure with
  | none =>
    have hend : s.atEnd = true := h
    rw [readUnitsWithin, if_pos hend]
  | some failure =>
    have hrun : Parse.topLevel.run s = .error failure := Rule.topLevel.run_eq_error_iff.2 h.2
    rw [readUnitsWithin, if_neg (by rw [h.1]; exact Bool.false_ne_true), hrun]

/-- **Reading a program is reading whole declarations up to where it stops.** -/
theorem readUnitsWithin_eq_iff {bound : Nat} {program : Program} {failure : Option Failure} :
    s.rest.length < bound →
      (readUnitsWithin bound s = (program, failure)
        ↔ ∃ t, s.Units t ∧ t.StopsAt failure ∧ t.program = program) := by
  induction bound generalizing s with
  | zero => exact fun hbound => absurd hbound (Nat.not_lt_zero _)
  | succ bound ih =>
    intro hbound
    -- A declaration moves past a token, so the bound that is left is enough for the others.
    have hnext : ∀ {t}, (Rule.topLevel.step s).Yields () t → t.rest.length < bound := by
      intro t h
      have hmoved : t.rest.length + 1 ≤ s.rest.length := h.length
      omega
    have hstops : ∀ found : Option Failure, s.StopsAt found →
        readUnitsWithin (bound + 1) s = (program, failure) →
          ∃ t, s.Units t ∧ t.StopsAt failure ∧ t.program = program := by
      intro found hfound hread
      rw [readUnitsWithin_succ_of_stopsAt hfound] at hread
      obtain ⟨rfl, rfl⟩ := Prod.mk.inj hread
      exact ⟨s, .refl, hfound, rfl⟩
    constructor
    · intro hread
      cases hend : s.atEnd with
      | true => exact hstops none hend hread
      | false =>
        rcases Rule.topLevel.exists_outcome s with ⟨_, t, h⟩ | ⟨found, h⟩
        · rw [readUnitsWithin_succ_of_yields hend h, ih (hnext h)] at hread
          obtain ⟨u, hu, hstop⟩ := hread
          exact ⟨u, .next hend h hu, hstop⟩
        · exact hstops (some found) ⟨hend, h⟩ hread
    · rintro ⟨t, ht, hstop, rfl⟩
      cases ht with
      | refl => exact readUnitsWithin_succ_of_stopsAt hstop
      | next hend h hmore =>
        rw [readUnitsWithin_succ_of_yields hend h, ih (hnext h)]
        exact ⟨t, hmore, hstop, rfl⟩

/-- The state before the first token is read. -/
abbrev Source.start (source : Source) (tokens : List Token) : ParseState :=
  { rest := tokens, stop := source.byteSize }

/-- **Reading a source is reading declarations** up to a state in which reading stops. -/
theorem readUnits_eq_iff {source : Source} {tokens : List Token} {program : Program}
    {failure : Option Failure} :
    readUnits source tokens = (program, failure)
      ↔ ∃ t, (source.start tokens).Units t ∧ t.StopsAt failure ∧ t.program = program :=
  readUnitsWithin_eq_iff (Nat.lt_succ_self _)

/-- A source is parsed if its declarations reach the end of the tokens. -/
theorem parse_eq_ok_iff {source : Source} {tokens : List Token} {program : Program} :
    parse source tokens = .ok program
      ↔ ∃ t, (source.start tokens).Units t ∧ t.atEnd = true ∧ t.program = program := by
  have hread : readUnits source tokens = (program, none) ↔ _ := readUnits_eq_iff
  refine Iff.trans ?_ hread
  unfold parse
  split
  · next hread => simp [hread]
  · next hread => simp [hread]

/-- A source is refused because of the first declaration that cannot be read. -/
theorem parse_eq_error_iff {source : Source} {tokens : List Token} {failure : Failure} :
    parse source tokens = .error failure
      ↔ ∃ t, (source.start tokens).Units t ∧ t.StopsAt (some failure) := by
  have hread : ∀ program, readUnits source tokens = (program, some failure) ↔ _ :=
    fun _ => readUnits_eq_iff
  constructor
  · intro h
    unfold parse at h
    split at h
    · exact nomatch h
    · next program found hfound =>
      obtain rfl := Except.error.inj h
      obtain ⟨t, hunits, hstop, -⟩ := (hread program).1 hfound
      exact ⟨t, hunits, hstop⟩
  · rintro ⟨t, hunits, hstop⟩
    unfold parse
    rw [(hread t.program).2 ⟨t, hunits, hstop, rfl⟩]

/-- What every declaration keeps, any number of them keeps. -/
theorem ParseState.Units.keeps {p : ParseState → Prop} {s t : ParseState} (h : s.Units t)
    (hstep : ∀ s t, p s → (Rule.topLevel.step s).Yields () t → p t) (hs : p s) : p t := by
  induction h with
  | refl => exact hs
  | next _ hread _ ih => exact ih (hstep _ _ hs hread)

end PocketCompiler
