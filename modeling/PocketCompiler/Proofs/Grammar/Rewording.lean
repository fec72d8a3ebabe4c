import PocketCompiler.Proofs.Grammar.Scaling
import PocketCompiler.Proofs.Moved

/-!
# Tokens and states in other words

A `Rewording` puts tokens at other places and other identifiers in the place of identifiers.  Here
is what becomes of states, trees and rules, and that everything which reads no token does the same
in other words: looking up a name (`Rewording.find?_scopes`), joining operands
(`Rewording.join_moved`), and declaring locals and globals (`Rewording.run_declareLocals`,
`Rewording.run_declareGlobals`).  Calls hold the names of functions, and the assembly those of
globals and functions, so these keep their names.
-/

namespace PocketCompiler

open Parse (DeclaredName LoopHead)

variable {α β : Type}

/-! ### Rewordings -/

/-- Other places, other names, and another place where the source ends. -/
structure Rewording where
  place : Nat → Nat
  name : String → String
  injective : Function.Injective name
  stop : Nat

/-- The rewording leaves names as they are, so that messages stay the same. -/
def Rewording.Faithful (w : Rewording) : Prop := ∀ name, w.name name = name

namespace Rewording

variable (w : Rewording)

/-- The token in other words. -/
def token (token : Token) : Token :=
  { token with
    loc := w.place token.loc
    text := if token.kind = .identifier then w.name token.text else token.text }

/-- The scopes in other words. -/
def scopes (scopes : Scopes) : Scopes :=
  scopes.map (·.map fun binding => (w.name binding.1, binding.2))

/-- The local or parameter in other words. -/
def localVar (v : Variable) : Variable := { v with name := w.name v.name }

/-- The function in other words. -/
def function (f : Function) : Function :=
  { f with locals := f.locals.map w.localVar, body := f.body.moved w.place }

/-- The program in other words. -/
def program (program : Program) : Program := ⟨program.globals, program.functions.map w.function⟩

/-- The name that is being declared, in other words. -/
def declared (declared : DeclaredName) : DeclaredName :=
  { declared with name := w.name declared.name, loc := w.place declared.loc }

/-- The head of a loop at other places. -/
def loopHead (head : LoopHead) : LoopHead where
  init := head.init.map (Node.moved w.place)
  cond := head.cond.map (Node.moved w.place)
  step := head.step.map (Node.moved w.place)

/-- The state in other words. -/
def state (s : ParseState) : ParseState where
  rest := s.rest.map w.token
  stop := w.stop
  scopes := w.scopes s.scopes
  locals := s.locals.map w.localVar
  globals := s.globals
  functions := s.functions.map w.function
  literals := s.literals

/-- The rule in other words. -/
def rule : Rule α → Rule α
  | .more l lhs => .more l (lhs.moved w.place)
  | .subscripts node => .subscripts (node.moved w.place)
  | .arguments loc name args => .arguments (w.place loc) name (args.map (Node.moved w.place))
  | .names read => .names (read.map w.declared)
  | .dimensions read => .dimensions (read.map fun d => (d.1, w.place d.2))
  | .values read => .values (read.map (Node.moved w.place))
  | .declaration loc => .declaration (w.place loc)
  | .items read => .items (read.map (Node.moved w.place))
  | .block loc => .block (w.place loc)
  | rule => rule

/-- What a rule reads, in other words. -/
def result : Rule α → α → α
  | .expr | .level _ | .more _ _ | .unary | .postfixed | .subscripts _ | .primary
  | .arguments _ _ _ | .declaration _ | .block _ | .stmt => Node.moved w.place
  | .values _ | .initializers _ | .items _ => List.map (Node.moved w.place)
  | .names _ => List.map w.declared
  | .dimensions _ => List.map fun d => (d.1, w.place d.2)
  | .exprUnless _ => Option.map (Node.moved w.place)
  | .loopHead => w.loopHead
  | .stars _ | .type | .parameters _ | .parameterList | .function | .global | .topLevel => id

/-! ### The current token -/

@[simp] theorem kind_token (token : Token) : (w.token token).kind = token.kind := rfl

@[simp] theorem loc_token (token : Token) : (w.token token).loc = w.place token.loc := rfl

/-- A keyword or punctuator is the same in other words. -/
@[simp] theorem reads_token (token : Token) (text : String) :
    (w.token token).reads text = token.reads text := by
  obtain ⟨kind, loc, name⟩ := token
  cases kind <;> rfl

variable {w} {s t : ParseState}

@[simp] theorem current?_state : (w.state s).current? = s.current?.map w.token := by
  simp [ParseState.current?, state]

@[simp] theorem sees_state (text : String) : (w.state s).sees text = s.sees text := by
  simp only [ParseState.sees, current?_state, Option.any_map, reads_token]

/-- Operators are punctuators, so they are the same in other words. -/
@[simp] theorem lookup_state (table : List (String × β)) :
    (w.state s).lookup table = s.lookup table := by
  unfold ParseState.lookup
  rw [current?_state]
  cases s.current? with
  | none => rfl
  | some token =>
    obtain ⟨kind, loc, text⟩ := token
    cases kind <;> rfl

@[simp] theorem advance_state : (w.state s).advance = w.state s.advance := by
  simp [ParseState.advance, state]

@[simp] theorem atEnd_state : (w.state s).atEnd = s.atEnd := by
  unfold ParseState.atEnd
  rw [current?_state]
  cases s.current? <;> rfl

@[simp] theorem sign?_state : (w.state s).sign? = s.sign? := by
  simp only [ParseState.sign?, sees_state]

@[simp] theorem join?_state (l : Level) : l.join? (w.state s) = l.join? s := by
  cases l <;> simp only [Level.join?, sees_state, lookup_state]

/-! ### Tables -/

@[simp] theorem addLocal_state (v : Variable) :
    (w.state s).addLocal (w.localVar v) = w.state (s.addLocal v) := by
  have hscopes : (w.scopes s.scopes).bind (w.name v.name) (.localVar s.locals.length)
      = w.scopes (s.scopes.bind v.name (.localVar s.locals.length)) := by
    cases s.scopes <;> rfl
  simp [ParseState.addLocal, state, localVar, hscopes]

/-- A global whose name is not changed may be added before or after. -/
theorem addGlobal_state {v : Variable} (hname : w.name v.name = v.name) :
    (w.state s).addGlobal v = w.state (s.addGlobal v) := by
  have hscopes : (w.scopes s.scopes).bind v.name (.globalVar s.globals.length)
      = w.scopes (s.scopes.bind v.name (.globalVar s.globals.length)) := by
    cases s.scopes with
    | nil => rfl
    | cons scope outer => simp [scopes, Scopes.bind, hname]
  simp [ParseState.addGlobal, state, hscopes]

@[simp] theorem leaveScope_state : (w.state s).leaveScope = w.state s.leaveScope := by
  simp [ParseState.leaveScope, state, scopes, Scopes.leave]

/-- The locals and the body of a function are put in other words when it is added. -/
theorem addFunction_state (name : String) (params : List (Nat × Ty)) (result : Ty) (body : Node) :
    (w.state s).addFunction name params result (body.moved w.place)
      = w.state (s.addFunction name params result body) := by
  simp [ParseState.addFunction, state, function]

/-- A name is found by its other name, since no two names become one. -/
theorem lookup_map (scope : Scope) (name : String) :
    (scope.map fun binding => (w.name binding.1, binding.2)).lookup (w.name name)
      = scope.lookup name := by
  induction scope with
  | nil => rfl
  | cons binding scope ih =>
    have hsame : (w.name name == w.name binding.1) = (name == binding.1) := by
      by_cases h : name = binding.1
      · simp [h]
      · simp [h, w.injective.ne h]
    rw [List.map_cons, List.lookup_cons, List.lookup_cons, hsame, ih]

/-- **A name means the same under its other name.** -/
theorem find?_scopes (scopes : Scopes) (name : String) :
    (w.scopes scopes).find? (w.name name) = scopes.find? name := by
  simp only [Rewording.scopes, Scopes.find?, List.findSome?_map, Function.comp_def, lookup_map]

theorem entry_map {γ : Type} (f : α → γ) (table : List α) (index : Nat) :
    entry (table.map f) index = (entry table index).map f := by
  unfold entry
  rw [List.getElem?_map, List.length_map]
  cases table[index]? <;> rfl

/-- Renaming locals leaves their types. -/
theorem sameTypes_state : s.symbols.SameTypes (w.state s).symbols := by
  intro ref
  cases ref with
  | localVar index =>
    show (entry (s.locals.map w.localVar) index).map Variable.ty
      = (entry s.locals index).map Variable.ty
    rw [entry_map]
    cases entry s.locals index <;> rfl
  | globalVar index => rfl

/-- Typing and joining operands can be done before or after they are moved. -/
theorem typed_moved {combine : Node → Node → Nat → Except Failure Node}
    (hcombine : ∀ lhs rhs loc, combine (lhs.moved w.place) (rhs.moved w.place) (w.place loc)
      = moveResult w.place (Node.moved w.place) (combine lhs rhs loc)) (lhs rhs : Node)
    (loc : Nat) :
    Join.typed combine (w.state t).symbols (lhs.moved w.place) (rhs.moved w.place) (w.place loc)
      = moveResult w.place (Node.moved w.place) (Join.typed combine t.symbols lhs rhs loc) :=
  bind_moveResult (annotate_moved sameTypes_state lhs) fun lhs =>
    bind_moveResult (annotate_moved sameTypes_state rhs) fun rhs => hcombine lhs rhs loc

/-- Operators join operands wherever they are. -/
theorem join_moved {l : Level} {join : Join} (h : l.join? s = some join) (lhs rhs : Node)
    (loc : Nat) :
    join (w.state t).symbols (lhs.moved w.place) (rhs.moved w.place) (w.place loc)
      = moveResult w.place (Node.moved w.place) (join t.symbols lhs rhs loc) := by
  rcases Level.join?_cases h with ⟨text, combine, hmem, rfl⟩ | rfl | rfl
  · obtain ⟨op, -, rfl | rfl⟩ := Level.not_isAdditive_of_mem_table hmem
    · rfl
    · rfl
  · exact typed_moved Node.sum_moved lhs rhs loc
  · exact typed_moved Node.difference_moved lhs rhs loc

/-! ### Declarations -/

/-- A size that is refused is complained about at the place that it is moved to. -/
theorem run_arrayTypes (elem : Ty) (dimensions : List (Int64 × Nat)) :
    (Parse.arrayTypes elem (dimensions.map fun d => (d.1, w.place d.2))).run (w.state s)
      = moveResult w.place (Prod.map id w.state) ((Parse.arrayTypes elem dimensions).run s) := by
  induction dimensions generalizing s with
  | nil => rfl
  | cons first inner ih =>
    obtain ⟨len, loc⟩ := first
    rw [List.map_cons, Parse.arrayTypes, Parse.arrayTypes, StateT.run_bind, StateT.run_bind]
    refine bind_moveResult ih fun r => ?_
    show (Parse.arrayType r.1 len (w.place loc)).run (w.state r.2)
      = moveResult w.place _ ((Parse.arrayType r.1 len loc).run r.2)
    unfold Parse.arrayType
    dsimp only
    split
    · cases r.1.arrayOf len.toInt <;> rfl
    · rfl

/-- Assigning initial values takes the places from names and values, and both are moved. -/
theorem initializations_moved (index : Nat) (names : List DeclaredName) (values : List Node) :
    Parse.initializations index (names.map w.declared) (values.map (Node.moved w.place))
      = (Parse.initializations index names values).map (Node.moved w.place) := by
  induction names generalizing index values with
  | nil => rfl
  | cons declared names ih =>
    cases values with
    | nil => rfl
    | cons value values =>
      simp only [List.map_cons, Parse.initializations, ih, List.cons.injEq, and_true]
      simp [Parse.initialized, Node.moved, Mark.moved, Rewording.declared]

/-- Locals may be declared before or after they get their other names. -/
theorem foldl_addLocal_state (ty : Ty) (names : List DeclaredName) :
    ((names.map w.declared).map (DeclaredName.toLocal ty)).foldl ParseState.addLocal (w.state s)
      = w.state ((names.map (DeclaredName.toLocal ty)).foldl ParseState.addLocal s) := by
  induction names generalizing s with
  | nil => rfl
  | cons declared names ih =>
    simp only [List.map_cons, List.foldl_cons]
    rw [← ih, ← addLocal_state]
    rfl

/-- Locals may be declared under other names. -/
theorem run_declareLocals (ty : Ty) (names : List DeclaredName) (values : List Node) :
    (Parse.declareLocals ty (names.map w.declared) (values.map (Node.moved w.place))).run
        (w.state s)
      = moveResult w.place (Prod.map (List.map (Node.moved w.place)) w.state)
          ((Parse.declareLocals ty names values).run s) := by
  have hlength : (w.state s).locals.length = s.locals.length := List.length_map _
  rw [Parse.run_declareLocals, Parse.run_declareLocals, initializations_moved, foldl_addLocal_state,
    hlength]
  rfl

/-- A name that is not changed is declared, or reserved, in both tables. -/
theorem run_checkSymbol (name : String) (loc : Nat) :
    (Parse.checkSymbol name (w.place loc)).run (w.state s)
      = moveResult w.place (Prod.map id w.state) ((Parse.checkSymbol name loc).run s) := by
  have hdeclared : Parse.isDeclared (w.state s) name = Parse.isDeclared s name := by
    simp [Parse.isDeclared, state, List.any_map, Function.comp_def, function]
  unfold Parse.checkSymbol
  split
  · rfl
  · rw [Parse.run_bind Parse.run_get, Parse.run_bind Parse.run_get, hdeclared]
    cases Parse.isDeclared s name <;> rfl

/-- A name that is not changed is that of the same function in both tables. -/
theorem run_checkFunction (name : String) (loc : Nat) :
    (Parse.checkFunction name (w.place loc)).run (w.state s)
      = moveResult w.place (Prod.map id w.state) ((Parse.checkFunction name loc).run s) := by
  have hfunctions :
      (w.state s).functions.any (·.name == name) = s.functions.any (·.name == name) := by
    simp [state, List.any_map, Function.comp_def, function]
  unfold Parse.checkFunction
  rw [Parse.run_bind Parse.run_get, Parse.run_bind Parse.run_get, hfunctions]
  cases s.functions.any (·.name == name) with
  | true => rfl
  | false => exact run_checkSymbol name loc

/-- Globals keep their names. -/
theorem run_declareGlobals (ty : Ty) (names : List DeclaredName)
    (hnames : ∀ d ∈ names, w.name d.name = d.name) (values : List Node) :
    (Parse.declareGlobals ty (names.map w.declared) (values.map (Node.moved w.place))).run
        (w.state s)
      = moveResult w.place (Prod.map id w.state)
          ((Parse.declareGlobals ty names values).run s) := by
  induction names generalizing s values with
  | nil => rfl
  | cons d names ih =>
    obtain ⟨hfirst, hmore⟩ := List.forall_mem_cons.1 hnames
    -- Whatever the first global holds, the others are declared in the same way.
    have hadd : ∀ contents (s : ParseState),
        (Parse.declareGlobals ty (names.map w.declared) (values.tail.map (Node.moved w.place))).run
            ((w.state s).addGlobal ⟨d.name, d.ty ty, contents⟩)
          = moveResult w.place (Prod.map id w.state)
              ((Parse.declareGlobals ty names values.tail).run
                (s.addGlobal ⟨d.name, d.ty ty, contents⟩)) := by
      intro contents s
      rw [addGlobal_state hfirst]
      exact ih hmore values.tail
    have hdeclared : w.declared d = ⟨d.name, w.place d.loc, d.stars⟩ := by
      rw [declared, hfirst]
    rw [List.map_cons, hdeclared, Parse.declareGlobals, Parse.declareGlobals, StateT.run_bind,
      StateT.run_bind]
    refine bind_moveResult (run_checkSymbol d.name d.loc) fun r => ?_
    -- The first global has the first value, if there are values.
    cases values with
    | nil => exact hadd none r.2
    | cons value values =>
      rw [List.map_cons]
      dsimp only
      rw [Parse.run_bind Parse.run_get, Parse.run_bind Parse.run_get]
      show StateT.run (liftM (contentsFor r.2.globals (value.moved w.place) (d.ty ty)) >>= _) _ = _
      rw [contentsFor_moved]
      cases contentsFor r.2.globals value (d.ty ty) with
      | error failure => rfl
      | ok contents => exact hadd (some contents) r.2

/-! ### Code -/

/-- The code of a function has neither places nor names of locals. -/
theorem functionFrom_function (globals : List Variable) (labels : Nat) (f : Function)
    (frame : Frame) :
    Lower.functionFrom globals labels (w.function f) frame
      = Lower.functionFrom globals labels f frame := by
  have hroutine : Lower.routineOf globals (w.function f) frame
      = Lower.routineOf globals f frame := rfl
  have harguments : Lower.argumentsInto (w.function f) frame = Lower.argumentsInto f frame := rfl
  have hbody : (w.function f).body = f.body.moved w.place := rfl
  rw [Lower.functionFrom, hroutine, harguments, hbody, Lower.stmtFrom_moved]
  rfl

theorem functionsFrom_map (globals : List Variable) (labels : Nat) (fs : List (Function × Frame)) :
    Lower.functionsFrom globals labels (fs.map (Prod.map w.function id))
      = Lower.functionsFrom globals labels fs := by
  induction fs generalizing labels with
  | nil => rfl
  | cons first fs ih =>
    obtain ⟨f, frame⟩ := first
    rw [List.map_cons, Prod.map, Lower.functionsFrom, Lower.functionsFrom]
    simp only [id, functionFrom_function, ih]

/-- The frame of a function depends on the types of its locals alone. -/
theorem frame_function (f : Function) : (w.function f).frame = f.frame := by
  simp [Function.frame, function, localVar, Function.comp_def]

/-- **The assembly does not depend on places and on the names of locals.** -/
theorem lower_program (program : Program) : (w.program program).lower = program.lower := by
  have hframes : (w.program program).frames = program.frames := by
    simp only [Program.frames, Rewording.program, List.mapM_map, Function.comp_def, frame_function]
  rw [Program.lower_eq, Program.lower_eq, hframes]
  simp only [Rewording.program, List.zip_map_left, functionsFrom_map]

end Rewording

end PocketCompiler
