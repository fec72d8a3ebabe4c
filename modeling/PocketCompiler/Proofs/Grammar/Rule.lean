import PocketCompiler.Grammar.Unit
import PocketCompiler.Proofs.Grammar.Run
import PocketCompiler.Proofs.Grammar.State

/-!
# The grammar as rules that call one another

A reader is a computation, and a proof about it has to follow the computation through every loop.
Here the same grammar stands as data.  A `Rule` is a nonterminal of the grammar, or a loop of one
with what the loop has gathered so far.  `Rule.step` is what a rule does up to the first rule that
it needs, and `Step.call` says which rule that is, where it starts, and how the rule that called it
goes on with what it reads.

A property of the whole grammar is then proved rule by rule: see `Step.Meets` and `Step.Yields` in
`Proofs/Grammar/Derivation.lean`.  That the rules do what the readers do is `Rule.run_reader` in
`Proofs/Grammar/Readers.lean`.
-/

namespace PocketCompiler

open Parse (DeclaredName LoopHead applied swapped)

/-! ### Operators with two operands -/

/-- The levels of the operators with two operands, from the one that binds least. -/
inductive Level where
  | equality
  | relational
  | sum
  | product
deriving DecidableEq, Repr

/-- How an operator at byte `loc` joins two operands, by the variables there are. -/
abbrev Join := Symbols → Node → Node → Nat → Except Failure Node

/-- Operands that are joined as they are. -/
def Join.plain (combine : Node → Node → Nat → Node) : Join := fun _ lhs rhs loc =>
  .ok (combine lhs rhs loc)

/-- Operands that get their types before they are joined. -/
def Join.typed (combine : Node → Node → Nat → Except Failure Node) : Join :=
  fun symbols lhs rhs loc => do
    let lhs ← annotate symbols lhs
    let rhs ← annotate symbols rhs
    combine lhs rhs loc

namespace Level

/-- The operators of a level whose operands are joined as they are. -/
def table : Level → List (String × (Node → Node → Nat → Node))
  | .equality => [("==", applied .eq), ("!=", applied .ne)]
  | .relational =>
    [("<", applied .lt), ("<=", applied .le), (">", swapped .lt), (">=", swapped .le)]
  | .sum => []
  | .product => [("*", applied .mul), ("/", applied .div)]

/-- How the current token joins operands, if it is an operator of the level. -/
def join? (level : Level) (s : ParseState) : Option Join :=
  match level with
  | .sum =>
    if s.sees "+" then some (.typed Node.sum)
    else if s.sees "-" then some (.typed Node.difference)
    else none
  | level => (s.lookup level.table).map .plain

end Level

/-- The sign that the current token is, if it is one. -/
def ParseState.sign? (s : ParseState) : Option Sign :=
  if s.sees "+" then some .plus
  else if s.sees "-" then some .minus
  else if s.sees "&" then some .address
  else if s.sees "*" then some .pointee
  else none

/-! ### Rules -/

/-- The rules of the grammar, with the type of what they read. -/
inductive Rule : Type → Type where
  | expr : Rule Node
  /-- Operands with the operators of a level between them. -/
  | level (l : Level) : Rule Node
  /-- What comes behind the first operand `lhs`. -/
  | more (l : Level) (lhs : Node) : Rule Node
  | unary : Rule Node
  | postfixed : Rule Node
  /-- The subscripts behind `node`. -/
  | subscripts (node : Node) : Rule Node
  | primary : Rule Node
  /-- The arguments of a call behind those that have been read, of which there is at least one. -/
  | arguments (loc : Nat) (name : String) (args : List Node) : Rule Node
  | stars (count : Nat) : Rule Nat
  | names (read : List DeclaredName) : Rule (List DeclaredName)
  | dimensions (read : List (Int64 × Nat)) : Rule (List (Int64 × Nat))
  | type : Rule Ty
  /-- Expressions with commas between them, of which there is at least one more. -/
  | values (read : List Node) : Rule (List Node)
  | initializers (count : Nat) : Rule (List Node)
  | declaration (loc : Nat) : Rule Node
  /-- The items of a block behind those that have been read, up to its closing brace. -/
  | items (read : List Node) : Rule (List Node)
  | block (loc : Nat) : Rule Node
  | exprUnless (text : String) : Rule (Option Node)
  | loopHead : Rule LoopHead
  | stmt : Rule Node
  /-- The parameters of a function behind those that have been read, of which there is at least one
  more. -/
  | parameters (read : List (Nat × Ty)) : Rule (List (Nat × Ty))
  | parameterList : Rule (List (Nat × Ty))
  | function : Rule Unit
  | global : Rule Unit
  | topLevel : Rule Unit

/-- What a rule does up to the first rule that it calls. -/
inductive Step (α : Type) : Type 1 where
  | done (a : α) (t : ParseState)
  | fail (failure : Failure)
  | call {β : Type} (rule : Rule β) (s : ParseState) (next : β → ParseState → Step α)

namespace Step

variable {α β : Type}

/-- Goes on with the result of something that reads no token. -/
def ofResult (r : Except Failure β) (next : β → Step α) : Step α :=
  match r with
  | .ok b => next b
  | .error failure => .fail failure

/-- Goes on with the result of a reader that reads no token. -/
def ofRun (r : Except Failure (β × ParseState)) (next : β → ParseState → Step α) : Step α :=
  match r with
  | .ok (b, t) => next b t
  | .error failure => .fail failure

/-- Moves past the punctuator or keyword `text`, which has to come next. -/
def expect (text : String) (s : ParseState) (next : ParseState → Step α) : Step α :=
  if s.sees text then next s.advance else .fail (s.unexpected (.lexeme text))

/-- Moves past an identifier, which has to come next. -/
def identifier (s : ParseState) (next : String → Nat → ParseState → Step α) : Step α :=
  match s.current? with
  | some ⟨.identifier, loc, name⟩ => next name loc s.advance
  | _ => .fail (s.unexpected .identifier)

/-- Moves past a number, which has to come next. -/
def number (s : ParseState) (next : Int64 → Nat → ParseState → Step α) : Step α :=
  match s.current? with
  | some ⟨.number (some value), loc, _⟩ => next value loc s.advance
  | some ⟨.number none, loc, _⟩ => .fail (.complaint loc .numberWithoutValue)
  | _ => .fail (s.unexpected .number)

/-- Moves past a string literal, which has to come next. -/
def literal (s : ParseState) (next : List UInt8 → Ty → ParseState → Step α) : Step α :=
  match s.current? with
  | some ⟨.string (some bytes) (some ty), _, _⟩ => next bytes ty s.advance
  | _ => .fail (s.unexpected .stringLiteral)

end Step

/-- The rule for the operands of a level. -/
def Level.operand : Level → Rule Node
  | .equality => .level .relational
  | .relational => .level .sum
  | .sum => .level .product
  | .product => .unary

/-- Adds a function with the locals there are, and forgets them. -/
def ParseState.addFunction (s : ParseState) (name : String) (params : List (Nat × Ty)) (result : Ty)
    (body : Node) : ParseState :=
  let ty := .func result (params.map (·.2))
  let read : Function := { name, ty, params := params.map (·.1), locals := s.locals, body }
  { s with locals := [], functions := s.functions ++ [read] }

/-- A call behind its opening parenthesis. -/
def Step.callOf (name : String) (loc : Nat) (s : ParseState) : Step Node :=
  if name ∈ Symbol.reserved then .fail (.complaint loc (.reservedName name))
  else if s.sees ")" then .done (.call ⟨loc, none⟩ name []) s.advance
  else .call (.arguments loc name []) s .done

/-- The use of a name. -/
def Step.useOf (name : String) (loc : Nat) (s : ParseState) : Step Node :=
  match s.scopes.find? name with
  | some ref => .done (.var ⟨loc, none⟩ ref) s
  | none => .fail (.complaint loc (.undefinedVariable name))

/-- A statement that is an expression, or empty. -/
def Step.exprStatement (s : ParseState) : Step Node :=
  if s.sees ";" then .done (.block ⟨s.loc, none⟩ []) s.advance
  else .call .expr s fun value t => .expect ";" t fun u => .done (.exprStmt ⟨s.loc, none⟩ value) u

/-- What a rule does, up to the first rule that it calls. -/
def Rule.step {α : Type} : Rule α → ParseState → Step α
  | .expr, s => .call (.level .equality) s fun node t =>
    if t.sees "=" then
      .call .expr t.advance fun value u => .done (.assign ⟨t.loc, none⟩ node value) u
    else .done node t
  | .level l, s => .call l.operand s fun node t => .call (.more l node) t .done
  | .more l lhs, s =>
    match l.join? s with
    | none => .done lhs s
    | some join => .call l.operand s.advance fun rhs t =>
      .ofResult (join t.symbols lhs rhs s.loc) fun node => .call (.more l node) t .done
  | .unary, s =>
    match s.sign? with
    | none => .call .postfixed s .done
    | some sign => .call .unary s.advance fun node t => .done (sign.apply s.loc node) t
  | .postfixed, s => .call .primary s fun node t => .call (.subscripts node) t .done
  | .subscripts node, s =>
    if s.sees "[" then
      .call .expr s.advance fun index t => .expect "]" t fun u =>
        .ofResult (Join.typed Node.sum u.symbols node index s.loc) fun place =>
          .call (.subscripts (.deref ⟨s.loc, none⟩ place)) u .done
    else .done node s
  | .primary, s =>
    if s.sees "(" then .call .expr s.advance fun node t => .expect ")" t fun u => .done node u
    else
      match s.current?.map Token.kind with
      | some .identifier => .identifier s fun name loc t =>
        if t.sees "(" then .callOf name loc t.advance else .useOf name loc t
      | some (.string _ _) => .literal s fun bytes ty t =>
        .done (.var ⟨s.loc, none⟩ (.globalVar t.globals.length)) (t.addLiteral bytes ty)
      | some (.number _) => .number s fun value loc t => .done (.num ⟨loc, none⟩ value) t
      | _ => .fail (s.unexpected .expression)
  | .arguments loc name args, s =>
    if args.length < maxArguments then
      .call .expr s fun argument t =>
        if t.sees ")" then .done (.call ⟨loc, none⟩ name (args ++ [argument])) t.advance
        else .expect "," t fun u => .call (.arguments loc name (args ++ [argument])) u .done
    else .fail (.complaint s.loc .tooManyArguments)
  | .stars count, s =>
    if s.sees "*" then .call (.stars (count + 1)) s.advance .done else .done count s
  | .names read, s => .call (.stars 0) s fun stars t => .identifier t fun name loc u =>
    if u.sees "," then .call (.names (read ++ [⟨name, loc, stars⟩])) u.advance .done
    else .done (read ++ [⟨name, loc, stars⟩]) u
  | .dimensions read, s =>
    if s.sees "[" then
      .number s.advance fun len loc t => .expect "]" t fun u =>
        .call (.dimensions (read ++ [(len, loc)])) u .done
    else .done read s
  | .type, s => .call (.dimensions []) s fun dimensions t => .call (.stars 0) t fun depth u =>
    if u.sees "int" then
      .ofRun ((Parse.arrayTypes (Ty.int.pointers depth) dimensions).run u.advance) .done
    else if u.sees "char" then
      .ofRun ((Parse.arrayTypes (Ty.char.pointers depth) dimensions).run u.advance) .done
    else .fail (u.unexpected .type)
  | .values read, s => .call .expr s fun value t =>
    if t.sees "," then .call (.values (read ++ [value])) t.advance .done
    else .done (read ++ [value]) t
  | .initializers count, s =>
    if s.sees "=" then
      .call (.values []) s.advance fun values t =>
        if values.length = count then .expect ";" t fun u => .done values u
        else .fail (.complaint s.advance.loc (.initializerCount count values.length))
    else .expect ";" s fun t => .done [] t
  | .declaration loc, s => .call (.names []) s fun names t => .call .type t fun ty u =>
    .call (.initializers names.length) u fun values v =>
      .ofRun ((Parse.declareLocals ty names values).run v) fun body w =>
        .done (.block ⟨loc, none⟩ body) w
  | .items read, s =>
    if s.sees "\x7d" then .done read s.advance
    else if s.sees "var" then
      .call (.declaration s.loc) s.advance fun node t =>
        .ofResult (annotate t.symbols node) fun typed => .call (.items (read ++ [typed])) t .done
    else
      .call .stmt s fun node t =>
        .ofResult (annotate t.symbols node) fun typed => .call (.items (read ++ [typed])) t .done
  | .block loc, s => .call (.items []) s.enterScope fun body t =>
    .done (.block ⟨loc, none⟩ body) t.leaveScope
  | .exprUnless text, s =>
    if s.sees text then .done none s else .call .expr s fun node t => .done (some node) t
  | .loopHead, s =>
    if s.sees "\x7b" then .done {} s
    else .call (.exprUnless ";") s fun first t =>
      if t.sees ";" then
        .call (.exprUnless ";") t.advance fun cond u => .expect ";" u fun v =>
          .call (.exprUnless "\x7b") v fun step w => .done { init := first, cond, step } w
      else .done { cond := first } t
  | .stmt, s =>
    if s.sees "return" then
      .call .expr s.advance fun value t => .expect ";" t fun u => .done (.ret ⟨s.loc, none⟩ value) u
    else if s.sees "if" then
      .call .expr s.advance fun cond t => .call .stmt t fun onTrue u =>
        if u.sees "else" then
          .call .stmt u.advance fun onFalse v =>
            .done (.ifElse ⟨s.loc, none⟩ cond onTrue (some onFalse)) v
        else .done (.ifElse ⟨s.loc, none⟩ cond onTrue none) u
    else if s.sees "for" then
      .call .loopHead s.advance fun head t => .call .stmt t fun body u =>
        .done (.loop ⟨s.loc, none⟩ head.init head.cond head.step body) u
    else if s.sees "\x7b" then .call (.block s.loc) s.advance .done
    else .exprStatement s
  | .parameters read, s =>
    if read.length < maxArguments then
      .identifier s fun name _ t => .call .type t fun ty u =>
        let added := u.addLocal { name, ty := ty.decay }
        let params := read ++ [(u.locals.length, ty.decay)]
        if added.sees ")" then .done params added.advance
        else .expect "," added fun v => .call (.parameters params) v .done
    else .fail (.complaint s.loc .tooManyParameters)
  | .parameterList, s =>
    if s.sees ")" then .done [] s.advance else .call (.parameters []) s .done
  | .function, s => .identifier s fun name loc t =>
    .ofRun ((Parse.checkFunction name loc).run t) fun _ u =>
      .expect "(" { u with locals := [] }.enterScope fun v => .call .parameterList v fun params w =>
        .call .type w fun result x => .expect "\x7b" x fun y => .call (.block x.loc) y fun body z =>
          if (Parse.frameBytes? z.locals).any (· ≤ maxObjectSize) then
            .done () (z.leaveScope.addFunction name params result body)
          else .fail (.complaint loc (.frameTooLarge name))
  | .global, s => .call (.names []) s fun names t => .call .type t fun ty u =>
    .call (.initializers names.length) u fun values v =>
      .ofRun ((Parse.declareGlobals ty names values).run v) fun _ w => .done () w
  | .topLevel, s =>
    if s.sees "func" then .call .function s.advance .done
    else if s.sees "var" then .call .global s.advance .done
    else .fail (s.unexpected .topLevel)

end PocketCompiler
