import PocketCompiler.Compile
import PocketCompiler.Proofs.Grammar.Readers
import PocketCompiler.Proofs.Grammar.Unit
import PocketCompiler.Proofs.Printing

/-!
# Parsing undoes printing

The words that `Proofs/Printing.lean` writes down are read back as the tree that they were written
from, up to places and types.  What stands behind an expression decides where it ends, so every
statement about an expression says what may follow it: `ParseState.Stops binding` is the state in
front of a word that does not bind as much as `binding`.

Operators of one level are read by a loop, from left to right, while the tree has the last operator
on top.  So what is shown of an operand at the left end of a chain is not that it is read, but that
the loop goes on from it (`Node.ReadUpTo`).
-/

namespace PocketCompiler

variable {s t u : ParseState} {names : List String}

/-! ### States and words -/

/-- The words are the next ones in `s`, and `t` is behind them. -/
inductive ParseState.Passes : ParseState → List Lexeme → ParseState → Prop
  | nil {s : ParseState} : Passes s [] s
  | cons {s t : ParseState} {word : Lexeme} {words : List Lexeme} {token : Token}
      (htoken : s.current? = some token) (hword : word.Spells token)
      (hmore : Passes s.advance words t) : Passes s (word :: words) t

namespace ParseState

theorem passes_nil : s.Passes [] t ↔ t = s :=
  ⟨fun h => by cases h; rfl, fun h => h ▸ .nil⟩

/-- The first word is the next token, and the others are passed behind it. -/
theorem passes_cons {word : Lexeme} {words : List Lexeme} :
    s.Passes (word :: words) t
      ↔ (∃ loc, s.current? = some ⟨word.kind, loc, word.text⟩) ∧ s.advance.Passes words t := by
  constructor
  · intro h
    cases h with
    | @cons _ _ _ _ token htoken hword hmore =>
      obtain ⟨kind, loc, text⟩ := token
      obtain ⟨rfl, rfl⟩ := hword
      exact ⟨⟨loc, htoken⟩, hmore⟩
  · rintro ⟨⟨loc, htoken⟩, hmore⟩
    exact .cons htoken ⟨rfl, rfl⟩ hmore

/-- Words are passed in two parts. -/
theorem passes_append {words more : List Lexeme} :
    s.Passes (words ++ more) u ↔ ∃ t, s.Passes words t ∧ t.Passes more u := by
  induction words generalizing s with
  | nil =>
    rw [List.nil_append]
    exact ⟨fun h => ⟨s, .nil, h⟩, fun ⟨t, ht, h⟩ => passes_nil.1 ht ▸ h⟩
  | cons word words ih =>
    rw [List.cons_append, passes_cons, ih]
    constructor
    · rintro ⟨hword, t, ht, hmore⟩
      exact ⟨t, passes_cons.2 ⟨hword, ht⟩, hmore⟩
    · rintro ⟨t, ht, hmore⟩
      obtain ⟨hword, ht⟩ := passes_cons.1 ht
      exact ⟨hword, t, ht, hmore⟩

/-- Nothing but the position changes. -/
theorem Passes.eq {words : List Lexeme} (h : s.Passes words t) : t = { s with rest := t.rest } := by
  induction h with
  | nil => rfl
  | cons _ _ _ ih => exact ih

/-- Passing words declares nothing. -/
theorem Passes.symbols {words : List Lexeme} (h : s.Passes words t) : t.symbols = s.symbols := by
  rw [h.eq]
  rfl

/-- What is done with the tables does not matter to the words. -/
theorem Passes.change {f : ParseState → ParseState} (hrest : ∀ s, (f s).rest = s.rest)
    (hadvance : ∀ s : ParseState, (f s).advance = f s.advance) {words : List Lexeme}
    (h : s.Passes words t) : (f s).Passes words (f t) := by
  induction h with
  | nil => exact .nil
  | @cons s t word words token htoken hword _ ih =>
    have hcurrent : (f s).current? = some token := by
      rw [current?, hrest]
      exact htoken
    refine .cons hcurrent hword ?_
    rw [hadvance]
    exact ih

/-- What is seen is read off the next token. -/
theorem sees_eq {token : Token} (h : s.current? = some token) (text : String) :
    s.sees text = token.reads text := by
  rw [sees, h]
  rfl

/-- A punctuator that is the current token is seen, and no other. -/
theorem sees_punctuator {loc : Nat} {text : String} (h : s.current? = some ⟨.punctuator, loc, text⟩)
    (other : String) : s.sees other = (text == other) :=
  sees_eq h other

theorem sees_keyword {loc : Nat} {text : String} (h : s.current? = some ⟨.keyword, loc, text⟩)
    (other : String) : s.sees other = (text == other) :=
  sees_eq h other

/-- No name is taken for a keyword or a punctuator. -/
theorem sees_identifier {loc : Nat} {text : String} (h : s.current? = some ⟨.identifier, loc, text⟩)
    (other : String) : s.sees other = false :=
  sees_eq h other

theorem sees_number {value : Option Int64} {loc : Nat} {text : String}
    (h : s.current? = some ⟨.number value, loc, text⟩) (other : String) : s.sees other = false :=
  sees_eq h other

end ParseState

namespace Step

variable {α β : Type} {a : α}

/-- A text that is there is passed. -/
theorem yields_expect {text : String} {next : ParseState → Step α} (h : s.sees text = true)
    (hnext : (next s.advance).Yields a t) : (expect text s next).Yields a t := by
  rw [expect, if_pos h]
  exact hnext

theorem yields_identifier {name : String} {loc : Nat} {next : String → Nat → ParseState → Step α}
    (h : s.current? = some ⟨.identifier, loc, name⟩) (hnext : (next name loc s.advance).Yields a t) :
    (identifier s next).Yields a t := by
  rw [identifier, h]
  exact hnext

/-- What following `y` comes to, following `x` comes to. -/
structure EndsAs (x y : Step α) : Prop where
  yields : ∀ {a t}, y.Yields a t → x.Yields a t
  fails : ∀ {failure}, y.Fails failure → x.Fails failure

namespace EndsAs

variable {y : Step α}

/-- A step ends as itself. -/
theorem refl (x : Step α) : x.EndsAs x := ⟨id, id⟩

/-- A step behind a text that is there ends as the step does. -/
theorem expect {text : String} {next : ParseState → Step α} (h : s.sees text = true)
    (hnext : (next s.advance).EndsAs y) : (expect text s next).EndsAs y := by
  rw [Step.expect, if_pos h]
  exact hnext

theorem identifier {name : String} {loc : Nat} {next : String → Nat → ParseState → Step α}
    (h : s.current? = some ⟨.identifier, loc, name⟩) (hnext : (next name loc s.advance).EndsAs y) :
    (identifier s next).EndsAs y := by
  rw [Step.identifier, h]
  exact hnext

/-- A reader that leaves the state alone can be left out. -/
theorem ofRun {r : Except Failure (β × ParseState)} {next : β → ParseState → Step α} {b : β}
    (h : r = .ok (b, s)) (hnext : (next b s).EndsAs y) : (ofRun r next).EndsAs y := by
  rw [h]
  exact hnext

/-- What a call yields can be put into the step behind it. -/
theorem call {rule : Rule β} {next : β → ParseState → Step α} {b : β}
    (h : (rule.step s).Yields b t) (hnext : (next b t).EndsAs y) :
    (Step.call rule s next).EndsAs y :=
  ⟨fun hy => .call h (hnext.yields hy), fun hy => .behind h (hnext.fails hy)⟩

/-- A call that nothing comes behind ends as the rule does. -/
theorem inside {rule : Rule α} (h : (rule.step s).EndsAs y) :
    (Step.call rule s .done).EndsAs y :=
  ⟨fun hy => .call (h.yields hy) .done, fun hy => .inside (h.fails hy)⟩

end EndsAs

end Step

/-! ### What follows an expression -/

/-- The operators that bind as `binding`. -/
def operators : (binding : Nat) → List String
  | 0 => ["="]
  | 1 => ["==", "!="]
  | 2 => ["<", "<="]
  | 3 => ["+", "-"]
  | 4 => ["*", "/"]
  | _ => []

/-- The punctuators that end an expression on the left of which something binds as `binding`: those
that close it, and the operators that bind less. -/
def followers : (binding : Nat) → List String
  | 0 => [")", ",", ";", "\x7b"]
  | binding + 1 => operators binding ++ followers binding

/-- What follows ends an expression on the left of which something binds as `binding`. -/
def ParseState.Stops (binding : Nat) (s : ParseState) : Prop :=
  ∃ loc text, s.current? = some ⟨.punctuator, loc, text⟩ ∧ text ∈ followers binding

namespace ParseState.Stops

/-- Where more operators would be wanted than are there, fewer would be, too. -/
theorem mono {binding : Nat} (h : s.Stops binding) : s.Stops (binding + 1) := by
  obtain ⟨loc, text, hcurrent, hmem⟩ := h
  exact ⟨loc, text, hcurrent, List.mem_append_right _ hmem⟩

theorem le {binding more : Nat} (hle : binding ≤ more) (h : s.Stops binding) : s.Stops more := by
  induction hle with
  | refl => exact h
  | step _ ih => exact ih.mono

/-- An operator that does not bind as tightly is not there. -/
theorem not_sees {binding : Nat} (h : s.Stops binding) {other : String}
    (hother : other ∉ followers binding) : s.sees other = false := by
  obtain ⟨loc, text, hcurrent, hmem⟩ := h
  rw [sees_punctuator hcurrent]
  refine beq_eq_false_iff_ne.2 fun htext => hother ?_
  rw [← htext]
  exact hmem

/-- The operators of a level are none of those that end its operands. -/
theorem join?_eq_none {l : Level} (h : s.Stops l.binding) : l.join? s = none := by
  have hplus : ∀ text, text ∈ ["+", "-"] → text ∉ followers 3 := by decide
  have hlookup : ∀ {table : List (String × (Node → Node → Nat → Node))},
      (∀ text ∈ followers l.binding, (table.lookup text).isNone = true) → s.lookup table = none := by
    intro table htable
    obtain ⟨loc, text, hcurrent, hmem⟩ := h
    rw [lookup, hcurrent]
    exact Option.isNone_iff_eq_none.1 (htable text hmem)
  -- Each level has its own operators, and the token is one of those that come behind all of them.
  cases l with
  | sum =>
    simp only [Level.join?, h.not_sees (hplus "+" (by decide)), h.not_sees (hplus "-" (by decide)),
      Bool.false_eq_true, if_false]
  | equality =>
    have htable : ∀ text ∈ followers 1, (Level.equality.table.lookup text).isNone = true := by decide
    simp only [Level.join?, hlookup htable, Option.map_none]
  | relational =>
    have htable : ∀ text ∈ followers 2, (Level.relational.table.lookup text).isNone = true := by
      decide
    simp only [Level.join?, hlookup htable, Option.map_none]
  | product =>
    have htable : ∀ text ∈ followers 4, (Level.product.table.lookup text).isNone = true := by decide
    simp only [Level.join?, hlookup htable, Option.map_none]

end ParseState.Stops

/-- Reading an expression, where something on its left binds as `binding`. -/
def Rule.operandOf : (binding : Nat) → Rule Node
  | 0 => .expr
  | 1 => .level .equality
  | 2 => .level .relational
  | 3 => .level .sum
  | 4 => .level .product
  | _ => .unary

/-- The operands of the level below are those of this level. -/
theorem Rule.operandOf_binding (l : Level) : Rule.operandOf l.binding = .level l := by
  cases l <;> rfl

/-- The operands of a level bind one step more tightly than the level. -/
theorem Level.operand_eq (l : Level) : l.operand = Rule.operandOf (l.binding + 1) := by
  cases l <;> rfl

/-- A chain without operators is its operand. -/
theorem Step.Yields.level {l : Level} {node a : Node} (h : (l.operand.step s).Yields node t)
    (hmore : ((Rule.more l node).step t).Yields a u) : ((Rule.level l).step s).Yields a u :=
  .call h (.call hmore .done)

/-- Where no operator of the level follows, the operands that have been read are all of them. -/
theorem Step.Yields.more_done {l : Level} (node : Node) (h : t.Stops l.binding) :
    ((Rule.more l node).step t).Yields node t := by
  rw [Rule.step_more_of_none node h.join?_eq_none]
  exact .done

/-- What is read where something binds more is read where it binds less, if it ends there too. -/
theorem Step.Yields.loosen {binding tight : Nat} {node : Node} (hle : binding ≤ tight)
    (htight : tight ≤ 5) (h : ((Rule.operandOf tight).step s).Yields node t)
    (ht : t.Stops binding) : ((Rule.operandOf binding).step s).Yields node t := by
  induction hle with
  | refl => exact h
  | @step tight hle ih =>
    refine ih (by omega) ?_
    have hstop : t.Stops tight := ht.le hle
    -- One step loosens by one level: its loop finds no operator and leaves the operand as it is.
    match tight, htight with
    | 0, _ =>
      refine .call h ?_
      have hassign : t.sees "=" = false := hstop.not_sees (by decide)
      rw [hassign]
      exact .done
    | 1, _ => exact Step.Yields.level (l := .equality) h (.more_done node hstop)
    | 2, _ => exact Step.Yields.level (l := .relational) h (.more_done node hstop)
    | 3, _ => exact Step.Yields.level (l := .sum) h (.more_done node hstop)
    | 4, _ => exact Step.Yields.level (l := .product) h (.more_done node hstop)

/-! ### Expressions that are words -/

/-- An expression that gets the type of words. -/
def Node.IsInt (symbols : Symbols) (node : Node) : Prop :=
  ∃ typed, annotate symbols node = .ok typed ∧ typed.ty = some .int

section IsInt

variable {symbols : Symbols}

/-- An expression that is typed as a number is one in larger tables, too. -/
theorem Node.isInt_of_ty {node : Node} (h : node.ty = some .int) : node.IsInt symbols :=
  ⟨node, annotate_of_ty h, h⟩

/-- Typing such an expression never fails. -/
theorem Node.IsInt.ends_annotate {node : Node} (h : node.IsInt symbols) :
    Ends (annotate symbols node) (Node.IsInt symbols) fun _ => False := by
  obtain ⟨typed, htyped, hty⟩ := h
  rw [htyped]
  exact isInt_of_ty hty

theorem Node.isInt_num (loc : Nat) (value : Int64) : (Node.num ⟨loc, none⟩ value).IsInt symbols :=
  ⟨_, by rw [annotate.eq_def]; rfl, rfl⟩

theorem Node.isInt_var (loc : Nat) {ref : VarRef} {found : Variable}
    (hget : symbols.get ref = .ok found) (hty : found.ty = .int) :
    (Node.var ⟨loc, none⟩ ref).IsInt symbols := by
  refine ⟨.var ⟨loc, some found.ty⟩ ref, ?_, congrArg some hty⟩
  rw [annotate.eq_def]
  simp only [Node.ty, Node.mark, Option.isSome_none, Bool.false_eq_true, if_false, hget]
  rfl

/-- The opposite of a number is a number. -/
theorem Node.IsInt.neg (loc : Nat) {operand : Node} (h : operand.IsInt symbols) :
    (Node.neg ⟨loc, none⟩ operand).IsInt symbols := by
  obtain ⟨typed, htyped, hty⟩ := h
  refine ⟨.neg ⟨loc, some .int⟩ typed, ?_, rfl⟩
  rw [annotate.eq_def]
  exact bind_eq_ok_iff.2 ⟨typed, htyped, bind_eq_ok_iff.2 ⟨.int, valueTy_of_ty hty, rfl⟩⟩

/-- Numbers can be joined by every operator, and give a number. -/
theorem Node.IsInt.binary (loc : Nat) (op : BinaryOp) {lhs rhs : Node} (hlhs : lhs.IsInt symbols)
    (hrhs : rhs.IsInt symbols) : (Node.binary ⟨loc, none⟩ op lhs rhs).IsInt symbols := by
  obtain ⟨lhs', hlhs, hty⟩ := hlhs
  obtain ⟨rhs', hrhs, -⟩ := hrhs
  refine ⟨.binary ⟨loc, some (op.resultTy .int)⟩ op lhs' rhs', ?_, ?_⟩
  · rw [annotate.eq_def]
    exact bind_eq_ok_iff.2 ⟨lhs', hlhs, bind_eq_ok_iff.2 ⟨rhs', hrhs,
      bind_eq_ok_iff.2 ⟨_, binaryTy_of_ty hty, rfl⟩⟩⟩
  · simp only [Node.ty, Node.mark, BinaryOp.resultTy, ite_self]

/-- A number can be assigned to a variable that holds numbers. -/
theorem Node.IsInt.assign (loc : Nat) {mark : Mark} {ref : VarRef} {value : Node}
    (htarget : (Node.var mark ref).IsInt symbols) (hvalue : value.IsInt symbols) :
    (Node.assign ⟨loc, none⟩ (.var mark ref) value).IsInt symbols := by
  obtain ⟨target', htarget, hty⟩ := htarget
  obtain ⟨value', hvalue, -⟩ := hvalue
  -- Typing leaves a variable a variable, so it has an address.
  have haddress : target'.hasAddress = true := by
    have herase := erase_of_annotate htarget
    cases target' with
    | var mark ref => rfl
    | _ => exact nomatch herase
  have hassign : assignTy target' = .ok .int := by
    rw [assignTy, valueTy_of_ty hty, haddress]
    rfl
  refine ⟨.assign ⟨loc, some .int⟩ target' value', ?_, rfl⟩
  rw [annotate.eq_def]
  exact bind_eq_ok_iff.2 ⟨target', htarget, bind_eq_ok_iff.2 ⟨value', hvalue,
    bind_eq_ok_iff.2 ⟨.int, hassign, rfl⟩⟩⟩

/-- What a call gives is a number, whatever its arguments are. -/
theorem Node.isInt_call (loc : Nat) (name : String) {args : List Node}
    (hargs : ∀ arg ∈ args, arg.IsInt symbols) : (Node.call ⟨loc, none⟩ name args).IsInt symbols := by
  obtain ⟨args', hargs', -⟩ :=
    (ends_annotateAll args fun arg harg => (hargs arg harg).ends_annotate).exists_ok
  refine ⟨.call ⟨loc, some .int⟩ name args', ?_, rfl⟩
  rw [annotate.eq_def]
  exact bind_eq_ok_iff.2 ⟨args', hargs', rfl⟩

/-- A number does not point to anything, so adding to it scales nothing. -/
theorem Node.elementSize?_of_int {node : Node} (h : node.ty = some .int) :
    node.elementSize? = none := by
  rw [Node.elementSize?, h]
  rfl

/-- An operator joins words as they are.  A sum or difference types them first. -/
theorem BinaryOp.exists_join (op : BinaryOp) (symbols : Symbols) {loc : Nat}
    (h : s.current? = some ⟨.punctuator, loc, op.text⟩) :
    ∃ join, op.level.join? s = some join ∧ ∀ {lhs rhs : Node} (loc : Nat), lhs.IsInt symbols →
      rhs.IsInt symbols → ∃ node, join symbols lhs rhs loc = .ok node
        ∧ node.erase = .binary .blank op lhs.erase rhs.erase ∧ node.IsInt symbols := by
  have hplain : ∀ {lhs rhs : Node} (loc : Nat), lhs.IsInt symbols → rhs.IsInt symbols →
      ∃ node, Join.plain (Parse.applied op) symbols lhs rhs loc = .ok node
        ∧ node.erase = .binary .blank op lhs.erase rhs.erase ∧ node.IsInt symbols :=
    fun loc hlhs hrhs => ⟨_, rfl, rfl, hlhs.binary loc op hrhs⟩
  -- Integers are not scaled, so a sum or difference of them adds nothing but types.
  have htyped : ∀ {combine : Node → Node → Nat → Except Failure Node},
      (∀ {lhs rhs : Node} (loc : Nat), lhs.elementSize? = none → rhs.elementSize? = none →
        combine lhs rhs loc = .ok (.binary ⟨loc, none⟩ op lhs rhs)) →
      ∀ {lhs rhs : Node} (loc : Nat), lhs.IsInt symbols → rhs.IsInt symbols →
        ∃ node, Join.typed combine symbols lhs rhs loc = .ok node
          ∧ node.erase = .binary .blank op lhs.erase rhs.erase ∧ node.IsInt symbols := by
    intro combine hcombine lhs rhs loc ⟨lhs', hlhs, hlty⟩ ⟨rhs', hrhs, hrty⟩
    refine ⟨.binary ⟨loc, none⟩ op lhs' rhs', ?_, ?_, ?_⟩
    · rw [Join.typed, hlhs, hrhs]
      exact hcombine loc (Node.elementSize?_of_int hlty) (Node.elementSize?_of_int hrty)
    · rw [Node.erase, erase_of_annotate hlhs, erase_of_annotate hrhs]
    · exact (Node.isInt_of_ty hlty).binary loc op (Node.isInt_of_ty hrty)
  have hlookup : ∀ {table : List (String × (Node → Node → Nat → Node))},
      table.lookup op.text = some (Parse.applied op) → s.lookup table = some (Parse.applied op) := by
    intro table htable
    rw [ParseState.lookup, h]
    exact htable
  -- A sum or difference is found by its sign, and the other operators in a table.
  cases op with
  | add =>
    refine ⟨.typed Node.sum, ?_, htyped fun loc hl hr => by rw [Node.sum, hl, hr]⟩
    rw [level, Level.join?, ParseState.sees_punctuator h]
    rfl
  | sub =>
    refine ⟨.typed Node.difference, ?_, htyped fun loc hl hr => by rw [Node.difference, hl, hr]⟩
    rw [level, Level.join?, ParseState.sees_punctuator h, ParseState.sees_punctuator h]
    rfl
  | mul => exact ⟨_, congrArg (Option.map Join.plain) (hlookup rfl), hplain⟩
  | div => exact ⟨_, congrArg (Option.map Join.plain) (hlookup rfl), hplain⟩
  | eq => exact ⟨_, congrArg (Option.map Join.plain) (hlookup rfl), hplain⟩
  | ne => exact ⟨_, congrArg (Option.map Join.plain) (hlookup rfl), hplain⟩
  | lt => exact ⟨_, congrArg (Option.map Join.plain) (hlookup rfl), hplain⟩
  | le => exact ⟨_, congrArg (Option.map Join.plain) (hlookup rfl), hplain⟩

end IsInt

/-! ### Reading expressions back -/

/-- The variable that a local of a printed function is. -/
def wordLocal (name : String) : Variable := { name, ty := .int }

/-- The locals are those called `names`, and each of these names means the last local that has it. -/
structure ParseState.Declares (names : List String) (s : ParseState) : Prop where
  locals : s.locals = names.map wordLocal
  find : ∀ {index : Nat} {name : String}, names[index]? = some name →
    name ∉ names.drop (index + 1) → s.scopes.find? name = some (.localVar index)

theorem ParseState.Declares.advance (h : s.Declares names) : s.advance.Declares names :=
  ⟨h.locals, h.find⟩

/-- Words are passed without declaring anything or leaving a scope. -/
theorem ParseState.Passes.declares {words : List Lexeme} (h : s.Passes words t)
    (hs : s.Declares names) : t.Declares names := by
  rw [h.eq]
  exact ⟨hs.locals, hs.find⟩

/-- A word that an expression can start with. -/
def Lexeme.Opens : Lexeme → Prop
  | .identifier _ | .number _ => True
  | .punctuator text => text = "-" ∨ text = "("
  | .keyword _ => False

/-- The words of an expression start with one that an expression can start with. -/
theorem Node.IsFormula.exists_opens {expr : Node} (h : expr.IsFormula names) (binding : Nat) :
    ∃ word words, expr.words names binding = word :: words ∧ word.Opens := by
  have hparens : ∀ {needed : Bool} {words : List Lexeme},
      (∃ word more, words = word :: more ∧ word.Opens) →
        ∃ word more, parenthesized needed words = word :: more ∧ word.Opens := by
    intro needed words hwords
    cases needed with
    | true => exact ⟨_, _, rfl, .inr rfl⟩
    | false => exact hwords
  -- An operator with two operands starts as its left operand does, or with a parenthesis.
  induction h generalizing binding with
  | num _ => exact ⟨_, _, rfl, trivial⟩
  | var _ _ => exact ⟨_, _, rfl, trivial⟩
  | neg _ _ => exact ⟨_, _, rfl, .inl rfl⟩
  | @binary _ op _ _ _ _ ihl _ =>
    obtain ⟨word, more, hwords, hopens⟩ := ihl op.level.binding
    exact hparens ⟨word, more ++ _, by rw [hwords, List.cons_append], hopens⟩
  | assign _ _ iht _ =>
    obtain ⟨word, more, hwords, hopens⟩ := iht 1
    exact hparens ⟨word, more ++ _, by rw [hwords, List.cons_append], hopens⟩
  | call _ _ _ _ _ => exact ⟨_, _, rfl, trivial⟩

/-- What an expression starts with is nothing that something else starts or ends with. -/
theorem Node.IsFormula.not_sees {expr : Node} (h : expr.IsFormula names) {binding : Nat}
    (hpasses : s.Passes (expr.words names binding) t) {text : String} (hminus : "-" ≠ text)
    (hparen : "(" ≠ text) : s.sees text = false := by
  obtain ⟨word, words, hwords, hopens⟩ := h.exists_opens binding
  rw [hwords] at hpasses
  obtain ⟨⟨loc, hcurrent⟩, -⟩ := ParseState.passes_cons.1 hpasses
  -- Besides names and numbers an expression starts with a minus or a parenthesis.
  cases word with
  | identifier name => exact ParseState.sees_identifier hcurrent text
  | number value => exact ParseState.sees_number hcurrent text
  | keyword text => exact hopens.elim
  | punctuator found =>
    rw [ParseState.sees_punctuator hcurrent]
    rcases hopens with rfl | rfl
    · exact beq_eq_false_iff_ne.2 hminus
    · exact beq_eq_false_iff_ne.2 hparen

/-- The rule reads the expression back. -/
def Node.ReadBy (expr : Node) (rule : Rule Node) (s t : ParseState) : Prop :=
  ∃ node, (rule.step s).Yields node t ∧ node.erase = expr.erase ∧ node.IsInt s.symbols

/-- The expression is read back as the left end of a chain, and the loop of the chain goes on. -/
def Node.ReadUpTo (expr : Node) (l : Level) (s t : ParseState) : Prop :=
  ∃ node, node.erase = expr.erase ∧ node.IsInt s.symbols
    ∧ ∀ {a : Node} {u : ParseState}, ((Rule.more l node).step t).Yields a u →
      ((Rule.level l).step s).Yields a u

/-- The expression is read back from its words. -/
structure Node.ReadsBack (names : List String) (expr : Node) : Prop where
  whole : ∀ {binding : Nat} {s t : ParseState}, binding ≤ 5 → s.Declares names →
    s.Passes (expr.words names binding) t → t.Stops binding →
      expr.ReadBy (Rule.operandOf binding) s t
  upTo : ∀ {l : Level} {s t : ParseState}, s.Declares names →
    s.Passes (expr.words names l.binding) t → t.Stops (l.binding + 1) → expr.ReadUpTo l s t

/-- An operand of a level is read as the first of the operands. -/
theorem Node.ReadBy.upTo {expr : Node} {l : Level}
    (h : expr.ReadBy (Rule.operandOf (l.binding + 1)) s t) : expr.ReadUpTo l s t := by
  obtain ⟨node, hread, herase, hint⟩ := h
  rw [← Level.operand_eq] at hread
  exact ⟨node, herase, hint, fun hmore => hread.level hmore⟩

/-- If no operator of the level follows, what has been read up to there is the whole expression. -/
theorem Node.ReadUpTo.whole {expr : Node} {l : Level} (h : expr.ReadUpTo l s t)
    (ht : t.Stops l.binding) : expr.ReadBy (Rule.operandOf l.binding) s t := by
  obtain ⟨node, herase, hint, hread⟩ := h
  rw [Rule.operandOf_binding]
  exact ⟨node, hread (.more_done node ht), herase, hint⟩

/-- **A tightly bound expression is read where a loosely bound one is wanted**, if no operator
follows that would bind it otherwise. The levels in between are passed one by one. -/
theorem Node.ReadBy.loosen {expr : Node} {binding tight : Nat}
    (h : expr.ReadBy (Rule.operandOf tight) s t) (hle : binding ≤ tight) (htight : tight ≤ 5)
    (ht : t.Stops binding) : expr.ReadBy (Rule.operandOf binding) s t := by
  obtain ⟨node, hread, herase, hint⟩ := h
  exact ⟨node, hread.loosen hle htight ht, herase, hint⟩

/-- A primary expression is read by every rule, if no sign is in front of it. -/
theorem Node.ReadBy.of_primary {expr : Node} {binding : Nat} (h : expr.ReadBy .primary s t)
    (hsign : s.sign? = none) (hbinding : binding ≤ 5) (ht : t.Stops binding) :
    expr.ReadBy (Rule.operandOf binding) s t := by
  obtain ⟨node, hread, herase, hint⟩ := h
  -- Neither a subscript behind it nor a sign in front of it is there.
  have hsubscripts : ((Rule.subscripts node).step t).Yields node t := by
    rw [Rule.step_subscripts_of_not_sees node ((ht.le hbinding).not_sees (by decide))]
    exact .done
  have hpostfixed : (Rule.postfixed.step s).Yields node t := .call hread (.call hsubscripts .done)
  have hunary : (Rule.unary.step s).Yields node t := by
    rw [Rule.step_unary_of_none hsign]
    exact .call hpostfixed .done
  have hread5 : expr.ReadBy (Rule.operandOf 5) s t := ⟨node, hunary, herase, hint⟩
  exact hread5.loosen hbinding (Nat.le_refl 5) ht

/-- Parentheses around an expression leave no trace. -/
theorem Node.readBy_parenthesized {expr : Node} {words : List Lexeme} {binding : Nat}
    (hinner : ∀ {s t : ParseState}, s.Declares names → s.Passes words t → t.Stops 0 →
      expr.ReadBy .expr s t)
    (hs : s.Declares names) (hpasses : s.Passes (parenthesized true words) t)
    (hbinding : binding ≤ 5) (ht : t.Stops binding) :
    expr.ReadBy (Rule.operandOf binding) s t := by
  obtain ⟨⟨loc, hopen⟩, hpasses⟩ := ParseState.passes_cons.1 hpasses
  obtain ⟨u, hwords, hlast⟩ := ParseState.passes_append.1 hpasses
  obtain ⟨⟨loc', hclose⟩, hend⟩ := ParseState.passes_cons.1 hlast
  obtain rfl := ParseState.passes_nil.1 hend
  obtain ⟨node, hread, herase, hint⟩ := hinner hs.advance hwords ⟨loc', ")", hclose, by decide⟩
  -- In parentheses the expression is primary, whatever is on top of it.
  have hprimary : expr.ReadBy .primary s u.advance := by
    refine ⟨node, ?_, herase, hint⟩
    rw [Rule.step, ParseState.sees_punctuator hopen, if_pos (by decide)]
    refine .call hread ?_
    exact Step.yields_expect (ParseState.sees_punctuator hclose _) .done
  have hsign : s.sign? = none := by
    refine ParseState.sign?_eq_none fun text htext => ?_
    rw [ParseState.sees_punctuator hopen]
    revert text
    decide
  exact hprimary.of_primary hsign hbinding ht

/-- An expression without an operator on top is read back, if it is read as a primary one. -/
theorem Node.readsBack_of_primary {expr : Node} {words : List Lexeme}
    (hwords : ∀ binding, expr.words names binding = words)
    (hread : ∀ {s t : ParseState}, s.Declares names → s.Passes words t → t.Stops 5 →
      s.sign? = none ∧ expr.ReadBy .primary s t) : expr.ReadsBack names := by
  have hwhole : ∀ {binding : Nat} {s t : ParseState}, binding ≤ 5 → s.Declares names →
      s.Passes words t → t.Stops binding → expr.ReadBy (Rule.operandOf binding) s t := by
    intro binding s t hbinding hs hpasses ht
    obtain ⟨hsign, hprimary⟩ := hread hs hpasses (ht.le hbinding)
    exact hprimary.of_primary hsign hbinding ht
  constructor
  · intro binding s t hbinding hs hpasses ht
    rw [hwords] at hpasses
    exact hwhole hbinding hs hpasses ht
  · intro l s t hs hpasses ht
    rw [hwords] at hpasses
    have hbinding : l.binding + 1 ≤ 5 := by cases l <;> decide
    exact (hwhole hbinding hs hpasses ht).upTo

/-- An expression with an operator on top is read back, if it is without parentheses. -/
theorem Node.readsBack_of_operator {expr : Node} {words : List Lexeme} {own : Nat} (hown : own ≤ 4)
    (hwords : ∀ binding, expr.words names binding = parenthesized (own < binding) words)
    (hread : ∀ {s t : ParseState}, s.Declares names → s.Passes words t → t.Stops own →
      expr.ReadBy (Rule.operandOf own) s t)
    (hupTo : ∀ {l : Level} {s t : ParseState}, l.binding = own → s.Declares names →
      s.Passes words t → t.Stops (own + 1) → expr.ReadUpTo l s t) : expr.ReadsBack names := by
  have hwhole : ∀ {binding : Nat} {s t : ParseState}, binding ≤ 5 → s.Declares names →
      s.Passes (expr.words names binding) t → t.Stops binding →
        expr.ReadBy (Rule.operandOf binding) s t := by
    intro binding s t hbinding hs hpasses ht
    rw [hwords] at hpasses
    -- Where more binds around it the expression stands in parentheses.
    by_cases hlt : own < binding
    · rw [decide_eq_true hlt] at hpasses
      refine readBy_parenthesized (fun hs hpasses ht => ?_) hs hpasses hbinding ht
      have hzero : 0 ≤ own := Nat.zero_le own
      exact (hread hs hpasses (ht.le hzero)).loosen hzero (by omega) ht
    · rw [decide_eq_false hlt] at hpasses
      have hle : binding ≤ own := Nat.le_of_not_lt hlt
      exact (hread hs hpasses (ht.le hle)).loosen hle (by omega) ht
  refine ⟨hwhole, fun {l s t} hs hpasses ht => ?_⟩
  have hbinding : l.binding + 1 ≤ 5 := by cases l <;> decide
  by_cases heq : l.binding = own
  · rw [hwords, heq, decide_eq_false (Nat.lt_irrefl own)] at hpasses
    exact hupTo heq hs hpasses (heq ▸ ht)
  · -- The loop of another level sees the whole expression as its first operand.
    have hsame : expr.words names l.binding = expr.words names (l.binding + 1) := by
      rw [hwords, hwords]
      have hiff : own < l.binding ↔ own < l.binding + 1 := by omega
      simp only [hiff]
    rw [hsame] at hpasses
    exact (hwhole hbinding hs hpasses ht).upTo

/-- A number is one word, and it is read back as itself. -/
theorem Node.readsBack_num {mark : Mark} {value : Int64} :
    (Node.num mark value).ReadsBack names := by
  refine readsBack_of_primary (fun _ => rfl) fun {s t} _ hpasses _ => ?_
  obtain ⟨⟨loc, hcurrent⟩, hend⟩ := ParseState.passes_cons.1 hpasses
  obtain rfl := ParseState.passes_nil.1 hend
  refine ⟨ParseState.sign?_eq_none fun text _ => ParseState.sees_number hcurrent text,
    .num ⟨loc, none⟩ value, ?_, rfl, Node.isInt_num loc value⟩
  rw [Rule.step, ParseState.sees_number hcurrent, if_neg Bool.false_ne_true, Step.number, hcurrent]
  exact .done

/-- A name is read back as the newest local of that name, so the local has to be that one. -/
theorem Node.readsBack_var {mark : Mark} {index : Nat} {name : String}
    (hname : names[index]? = some name) (hnewest : name ∉ names.drop (index + 1)) :
    (Node.var mark (.localVar index)).ReadsBack names := by
  have hget : names.getD index "" = name := by rw [List.getD_eq_getElem?_getD, hname]; rfl
  refine readsBack_of_primary (fun _ => rfl) fun {s t} hs hpasses ht => ?_
  rw [hget] at hpasses
  obtain ⟨⟨loc, hcurrent⟩, hend⟩ := ParseState.passes_cons.1 hpasses
  obtain rfl := ParseState.passes_nil.1 hend
  have hlocal : s.symbols.get (.localVar index) = .ok (wordLocal name) := by
    refine entry_eq_ok_iff.2 ?_
    show s.locals[index]? = _
    rw [hs.locals, List.getElem?_map, hname]
    rfl
  refine ⟨ParseState.sign?_eq_none fun text _ => ParseState.sees_identifier hcurrent text,
    .var ⟨loc, none⟩ (.localVar index), ?_, rfl, Node.isInt_var loc hlocal rfl⟩
  -- No parenthesis follows, so the name is looked up.
  have hcall : s.advance.sees "(" = false := ht.not_sees (by decide)
  have hfind : s.advance.scopes.find? name = some (.localVar index) := hs.find hname hnewest
  have hcurrent : s.current? = some ⟨.identifier, loc, name⟩ := hcurrent
  rw [Rule.step, ParseState.sees_identifier hcurrent, if_neg Bool.false_ne_true, hcurrent]
  refine Step.yields_identifier hcurrent ?_
  rw [hcall, if_neg Bool.false_ne_true, Step.useOf, hfind]
  exact .done

/-- What a sign stands in front of is in parentheses if it binds less tightly. -/
theorem Node.ReadsBack.neg {mark : Mark} {operand : Node} (h : operand.ReadsBack names) :
    (Node.neg mark operand).ReadsBack names := by
  have hread : ∀ {binding : Nat} {s t : ParseState}, binding ≤ 5 → s.Declares names →
      s.Passes (.punctuator "-" :: operand.words names 5) t → t.Stops binding →
        (Node.neg mark operand).ReadBy (Rule.operandOf binding) s t := by
    intro binding s t hbinding hs hpasses ht
    obtain ⟨⟨loc, hcurrent⟩, hpasses⟩ := ParseState.passes_cons.1 hpasses
    obtain ⟨node, hnode, herase, hint⟩ :=
      h.whole (Nat.le_refl 5) hs.advance hpasses (ht.le hbinding)
    have hsign : s.sign? = some .minus := by
      rw [ParseState.sign?, ParseState.sees_punctuator hcurrent, ParseState.sees_punctuator hcurrent]
      rfl
    -- As an operand of the tightest level; the looser ones follow.
    have hneg : (Node.neg mark operand).ReadBy (Rule.operandOf 5) s t := by
      refine ⟨.neg ⟨s.loc, none⟩ node, ?_, ?_, hint.neg s.loc⟩
      · show ((Rule.unary).step s).Yields _ _
        rw [Rule.step, hsign]
        exact .call hnode .done
      · rw [Node.erase, Node.erase, herase]
    exact hneg.loosen hbinding (Nat.le_refl 5) ht
  refine ⟨hread, fun {l s t} hs hpasses ht => ?_⟩
  have hbinding : l.binding + 1 ≤ 5 := by cases l <;> decide
  exact (hread hbinding hs hpasses ht).upTo

/-- An operator is found among those of its level. -/
theorem BinaryOp.text_mem_operators (op : BinaryOp) : op.text ∈ operators op.level.binding := by
  cases op <;> decide

/-- The left operand is read as far as the operator, and the loop goes on with the right one. -/
theorem Node.readUpTo_binary {mark : Mark} {op : BinaryOp} {lhs rhs : Node}
    (hlhs : lhs.ReadsBack names) (hrhs : rhs.ReadsBack names) (hs : s.Declares names)
    (hpasses : s.Passes (lhs.words names op.level.binding
      ++ .punctuator op.text :: rhs.words names (op.level.binding + 1)) t)
    (ht : t.Stops (op.level.binding + 1)) :
    (Node.binary mark op lhs rhs).ReadUpTo op.level s t := by
  obtain ⟨u, hleft, hright⟩ := ParseState.passes_append.1 hpasses
  obtain ⟨⟨loc, hcurrent⟩, hright⟩ := ParseState.passes_cons.1 hright
  -- The operator is nothing that the left operand could go on with.
  have hu : u.Stops (op.level.binding + 1) :=
    ⟨loc, op.text, hcurrent, List.mem_append_left _ op.text_mem_operators⟩
  obtain ⟨left, hlerase, hlint, hlread⟩ := hlhs.upTo hs hleft hu
  have hbinding : op.level.binding + 1 ≤ 5 := by cases op <;> decide
  obtain ⟨right, hrread, hrerase, hrint⟩ :=
    hrhs.whole hbinding (hleft.declares hs).advance hright ht
  have hsymbols : t.symbols = s.symbols := hright.symbols.trans hleft.symbols
  obtain ⟨join, hjoin, hresult⟩ := op.exists_join s.symbols hcurrent
  have hrint : right.IsInt s.symbols := by
    have hsame : u.advance.symbols = s.symbols := hleft.symbols
    rwa [hsame] at hrint
  obtain ⟨node, hnode, herase, hint⟩ := hresult u.loc hlint hrint
  refine ⟨node, ?_, hint, fun hmore => hlread ?_⟩
  · rw [herase, Node.erase, hlerase, hrerase]
  · rw [Rule.step, hjoin]
    rw [← Level.operand_eq] at hrread
    refine .call hrread ?_
    rw [hsymbols, hnode]
    exact .call hmore .done

/-- The left operand binds at least as tightly as the operator, and the right one more tightly, so
operators of one level join their operands from the left. -/
theorem Node.ReadsBack.binary {mark : Mark} {op : BinaryOp} {lhs rhs : Node}
    (hlhs : lhs.ReadsBack names) (hrhs : rhs.ReadsBack names) :
    (Node.binary mark op lhs rhs).ReadsBack names := by
  have hown : op.level.binding ≤ 4 := by cases op <;> decide
  refine readsBack_of_operator hown (fun _ => rfl) ?_ ?_
  -- Alone, and as the left operand of an operator that binds as much.
  · intro s t hs hpasses ht
    exact (readUpTo_binary hlhs hrhs hs hpasses ht.mono).whole ht
  · intro l s t hl hs hpasses ht
    have hlevel : l = op.level := by
      revert hl
      cases l <;> cases op <;> decide
    subst hlevel
    exact readUpTo_binary hlhs hrhs hs hpasses ht

/-- The target binds more tightly than an equals sign, and the value may be an assignment again. -/
theorem Node.ReadsBack.assign {mark mark' : Mark} {ref : VarRef} {value : Node}
    (htarget : (Node.var mark' ref).ReadsBack names) (hvalue : value.ReadsBack names) :
    (Node.assign mark (.var mark' ref) value).ReadsBack names := by
  refine readsBack_of_operator (Nat.zero_le 4) (fun _ => rfl) ?_ ?_
  · intro s t hs hpasses ht
    obtain ⟨u, hleft, hright⟩ := ParseState.passes_append.1 hpasses
    obtain ⟨⟨loc, hcurrent⟩, hright⟩ := ParseState.passes_cons.1 hright
    have hu : u.Stops 1 := ⟨loc, "=", hcurrent, by decide⟩
    obtain ⟨target, htread, hterase, htint⟩ := htarget.whole (by decide) hs hleft hu
    obtain ⟨node, hvread, hverase, hvint⟩ :=
      hvalue.whole (by decide) (hleft.declares hs).advance hright ht
    have hsame : u.advance.symbols = s.symbols := hleft.symbols
    rw [hsame] at hvint
    -- What is read from the name of a variable is that variable.
    obtain ⟨found, rfl⟩ : ∃ found, target = .var found ref := by
      cases target with
      | var found ref' =>
        obtain ⟨-, rfl⟩ := Node.var.inj hterase
        exact ⟨found, rfl⟩
      | _ => exact nomatch hterase
    refine ⟨.assign ⟨u.loc, none⟩ (.var found ref) node, ?_, ?_, htint.assign u.loc hvint⟩
    · refine .call htread ?_
      rw [ParseState.sees_punctuator hcurrent]
      exact .call hvread .done
    · rw [Node.erase, Node.erase, hverase]
      rfl
  · intro l s t hl
    exact absurd hl (by cases l <;> decide)

/-- The arguments behind those that have been read. -/
theorem Node.exists_arguments {args : List Node} {argument : Node} {loc : Nat} {name : String}
    (hargument : argument.ReadsBack names) (hargs : ∀ arg ∈ args, arg.ReadsBack names) :
    ∀ {read : List Node} {s t : ParseState}, s.Declares names →
      (∀ node ∈ read, node.IsInt s.symbols) → read.length + args.length + 1 ≤ maxArguments →
      s.Passes (argument.words names 0 ++ (furtherWords names args ++ [.punctuator ")"])) t →
      ∃ nodes, ((Rule.arguments loc name read).step s).Yields (.call ⟨loc, none⟩ name nodes) t
        ∧ eraseAll nodes = eraseAll (read ++ argument :: args)
        ∧ ∀ node ∈ nodes, node.IsInt s.symbols := by
  -- The induction is on the arguments behind this one, whatever has been read before it.
  induction args generalizing argument with
  | nil =>
    intro read s t hs hread hlength hpasses
    -- The last argument has the closing parenthesis behind it.
    obtain ⟨u, hwords, hlast⟩ := ParseState.passes_append.1 hpasses
    obtain ⟨⟨loc', hclose⟩, hend⟩ := ParseState.passes_cons.1 hlast
    obtain rfl := ParseState.passes_nil.1 hend
    obtain ⟨node, hnode, herase, hint⟩ :=
      hargument.whole (by decide) hs hwords ⟨loc', ")", hclose, by decide⟩
    refine ⟨read ++ [node], ?_, ?_, ?_⟩
    · have hroom : read.length < maxArguments := hlength
      rw [Rule.step, if_pos hroom]
      refine .call hnode ?_
      rw [ParseState.sees_punctuator hclose]
      exact .done
    · rw [eraseAll_append, eraseAll_append, eraseAll, eraseAll, eraseAll, herase]
      rfl
    · exact List.forall_mem_append.2 ⟨hread, List.forall_mem_singleton.2 hint⟩
  | cons next args ih =>
    intro read s t hs hread hlength hpasses
    obtain ⟨u, hwords, hlast⟩ := ParseState.passes_append.1 hpasses
    -- Any other argument has a comma behind it, and one more has been read then.
    rw [furtherWords, List.cons_append, List.append_assoc] at hlast
    obtain ⟨⟨loc', hcomma⟩, hmore⟩ := ParseState.passes_cons.1 hlast
    obtain ⟨node, hnode, herase, hint⟩ :=
      hargument.whole (by decide) hs hwords ⟨loc', ",", hcomma, by decide⟩
    have hsame : u.advance.symbols = s.symbols := hwords.symbols
    have hread' : ∀ n ∈ read ++ [node], n.IsInt u.advance.symbols := by
      rw [hsame]
      exact List.forall_mem_append.2 ⟨hread, List.forall_mem_singleton.2 hint⟩
    have hlength' : (read ++ [node]).length + args.length + 1 ≤ maxArguments := by
      rw [List.length_append, List.length_singleton]
      rw [List.length_cons] at hlength
      omega
    obtain ⟨nodes, hnodes, heraseAll, hints⟩ := ih (hargs next List.mem_cons_self)
      (fun arg harg => hargs arg (List.mem_cons_of_mem _ harg)) (hwords.declares hs).advance
      hread' hlength' hmore
    refine ⟨nodes, ?_, ?_, ?_⟩
    · have hroom : read.length < maxArguments := by omega
      rw [Rule.step, if_pos hroom]
      refine .call hnode ?_
      rw [ParseState.sees_punctuator hcomma, if_neg (by decide)]
      exact Step.yields_expect (ParseState.sees_punctuator hcomma _) (.call hnodes .done)
    · rw [heraseAll]
      simp only [eraseAll_append, eraseAll, herase, List.append_assoc, List.cons_append,
        List.nil_append]
    · rwa [hsame] at hints

/-- Between the commas of a call every expression is read back. -/
theorem Node.readsBack_call {mark : Mark} {name : String} {args : List Node}
    (hreserved : name ∉ Symbol.reserved) (hlength : args.length ≤ maxArguments)
    (hformulas : ∀ arg ∈ args, arg.IsFormula names) (hargs : ∀ arg ∈ args, arg.ReadsBack names) :
    (Node.call mark name args).ReadsBack names := by
  refine readsBack_of_primary (fun _ => rfl) fun {s t} hs hpasses _ => ?_
  obtain ⟨⟨loc, hcurrent⟩, hpasses⟩ := ParseState.passes_cons.1 hpasses
  obtain ⟨⟨loc', hopen⟩, hpasses⟩ := ParseState.passes_cons.1 hpasses
  refine ⟨ParseState.sign?_eq_none fun text _ => ParseState.sees_identifier hcurrent text, ?_⟩
  -- A name with a parenthesis behind it is a call.
  have hstep : Rule.primary.step s = Step.callOf name loc s.advance.advance := by
    rw [Rule.step, ParseState.sees_identifier hcurrent, if_neg Bool.false_ne_true, Step.identifier,
      hcurrent]
    show (if s.advance.sees "(" = true then _ else _) = _
    rw [ParseState.sees_punctuator hopen]
    rfl
  unfold Node.ReadBy
  rw [hstep, Step.callOf, if_neg hreserved]
  -- The token behind the parenthesis says whether there are arguments at all.
  cases args with
  | nil =>
    obtain ⟨⟨loc'', hclose⟩, hend⟩ := ParseState.passes_cons.1 hpasses
    obtain rfl := ParseState.passes_nil.1 hend
    refine ⟨.call ⟨loc, none⟩ name [], ?_, rfl,
      Node.isInt_call loc name fun arg harg => absurd harg List.not_mem_nil⟩
    rw [ParseState.sees_punctuator hclose]
    exact .done
  | cons argument args =>
    have hpasses' : s.advance.advance.Passes (argument.words names 0
        ++ (furtherWords names args ++ [.punctuator ")"])) t := by
      rw [← List.append_assoc]
      exact hpasses
    obtain ⟨u, hwords, -⟩ := ParseState.passes_append.1 hpasses'
    have hclose : s.advance.advance.sees ")" = false :=
      (hformulas argument List.mem_cons_self).not_sees hwords (by decide) (by decide)
    obtain ⟨nodes, hnodes, herase, hints⟩ := exists_arguments (hargs argument List.mem_cons_self)
      (fun arg harg => hargs arg (List.mem_cons_of_mem _ harg)) hs.advance.advance
      (fun node hnode => absurd hnode List.not_mem_nil) (by simpa using hlength) hpasses'
    refine ⟨.call ⟨loc, none⟩ name nodes, ?_, ?_, Node.isInt_call loc name hints⟩
    · rw [hclose]
      exact .call hnodes .done
    · rw [Node.erase, Node.erase, herase]
      rfl

/-- **An expression is read back from its words.** -/
theorem Node.IsFormula.readsBack {expr : Node} (h : expr.IsFormula names) :
    expr.ReadsBack names := by
  induction h with
  | num _ => exact readsBack_num
  | var hname hnewest => exact readsBack_var hname hnewest
  | neg _ ih => exact ih.neg
  | binary _ _ ihl ihr => exact ihl.binary ihr
  | assign _ _ iht ihv => exact iht.assign ihv
  | call _ hreserved hlength hargs ih => exact readsBack_call hreserved hlength hargs ih

/-! ### Reading statements back -/

/-- The current token is the punctuator `text`. -/
def ParseState.At (text : String) (s : ParseState) : Prop :=
  ∃ loc, s.current? = some ⟨.punctuator, loc, text⟩

/-- No other keyword or punctuator is seen there. -/
theorem ParseState.At.sees {text : String} (h : s.At text) (other : String) :
    s.sees other = (text == other) :=
  sees_punctuator h.choose_spec other

/-- In front of such a text no operator follows. -/
theorem ParseState.At.stops {text : String} (h : s.At text) (hmem : text ∈ followers 0) :
    s.Stops 0 :=
  ⟨h.choose, text, h.choose_spec, hmem⟩

/-- An expression is read back in front of a text that does not continue it. -/
theorem Node.IsFormula.exists_expr {expr : Node} (h : expr.IsFormula names)
    (hs : s.Declares names) (hpasses : s.Passes (expr.words names 0) t) (ht : t.Stops 0) :
    ∃ node, (Rule.expr.step s).Yields node t ∧ node.erase = expr.erase ∧ node.IsInt s.symbols :=
  h.readsBack.whole (Nat.zero_le 5) hs hpasses ht

/-- An expression that may be missing is read back. -/
theorem exists_exprUnless {text : String} (htext : text ∈ [";", "\x7b"]) {expr : Option Node}
    (h : ∀ node ∈ expr, node.IsFormula names) (hs : s.Declares names)
    (hpasses : s.Passes (Node.wordsSome names expr) t) (ht : t.At text) :
    ∃ found, ((Rule.exprUnless text).step s).Yields found t
      ∧ Node.eraseSome found = Node.eraseSome expr ∧ ∀ node ∈ found, node.IsInt s.symbols := by
  -- Whether there is an expression shows at the text that it would have to stand in front of.
  cases expr with
  | none =>
    obtain rfl := ParseState.passes_nil.1 hpasses
    refine ⟨none, ?_, rfl, fun node hnode => nomatch hnode⟩
    rw [Rule.step, ht.sees, beq_self_eq_true, if_pos rfl]
    exact .done
  | some expr =>
    have hformula := h expr rfl
    have hends : ∀ text ∈ [";", "\x7b"], text ∈ followers 0 ∧ "-" ≠ text ∧ "(" ≠ text := by decide
    obtain ⟨hmem, hminus, hparen⟩ := hends text htext
    obtain ⟨node, hnode, herase, hint⟩ := hformula.exists_expr hs hpasses (ht.stops hmem)
    have hsees : s.sees text = false := hformula.not_sees hpasses hminus hparen
    refine ⟨some node, ?_, ?_, fun n hn => ?_⟩
    · rw [Rule.step, hsees, if_neg Bool.false_ne_true]
      exact .call hnode .done
    · rw [Node.eraseSome, Node.eraseSome, herase]
    · obtain rfl := Option.some.inj hn
      exact hint

/-- The expressions at the head of a loop. -/
structure Parse.LoopHead.Over (p : Node → Prop) (head : Parse.LoopHead) : Prop where
  init : ∀ node ∈ head.init, p node
  cond : ∀ node ∈ head.cond, p node
  step : ∀ node ∈ head.step, p node

/-- The head of a loop with semicolons. -/
theorem exists_loopHead_clauses {init cond step : Option Node}
    (hinit : ∀ node ∈ init, node.IsFormula names) (hcond : ∀ node ∈ cond, node.IsFormula names)
    (hstep : ∀ node ∈ step, node.IsFormula names) (hs : s.Declares names)
    (hpasses : s.Passes (Node.wordsSome names init ++ .punctuator ";"
      :: (Node.wordsSome names cond ++ .punctuator ";" :: Node.wordsSome names step)) t)
    (ht : t.At "\x7b") :
    ∃ head, (Rule.loopHead.step s).Yields head t ∧ Node.eraseSome head.init = Node.eraseSome init
      ∧ Node.eraseSome head.cond = Node.eraseSome cond
      ∧ Node.eraseSome head.step = Node.eraseSome step
      ∧ head.Over (Node.IsInt s.symbols) := by
  -- The first two parts end in front of a semicolon, and the last one in front of the brace.
  obtain ⟨u, hfirst, hrest⟩ := ParseState.passes_append.1 hpasses
  obtain ⟨hu, hrest⟩ := ParseState.passes_cons.1 hrest
  obtain ⟨v, hsecond, hrest⟩ := ParseState.passes_append.1 hrest
  obtain ⟨hv, hthird⟩ := ParseState.passes_cons.1 hrest
  have hus : u.advance.Declares names := (hfirst.declares hs).advance
  have hvs : v.advance.Declares names := (hsecond.declares hus).advance
  have husame : u.advance.symbols = s.symbols := hfirst.symbols
  have hvsame : v.advance.symbols = s.symbols := hsecond.symbols.trans husame
  obtain ⟨init', hireads, hierase, hiint⟩ := exists_exprUnless (by decide) hinit hs hfirst hu
  obtain ⟨cond', hcreads, hcerase, hcint⟩ := exists_exprUnless (by decide) hcond hus hsecond hv
  obtain ⟨step', hsreads, hserase, hsint⟩ := exists_exprUnless (by decide) hstep hvs hthird ht
  rw [husame] at hcint
  rw [hvsame] at hsint
  -- No clause starts like the block of the body, so this is not a loop without a head.
  have hopen : s.sees "\x7b" = false := by
    cases init with
    | none =>
      obtain rfl := ParseState.passes_nil.1 hfirst
      exact ParseState.At.sees hu _
    | some init => exact (hinit init rfl).not_sees hfirst (by decide) (by decide)
  refine ⟨{ init := init', cond := cond', step := step' }, ?_, hierase, hcerase, hserase,
    ⟨hiint, hcint, hsint⟩⟩
  rw [Rule.step, hopen, if_neg Bool.false_ne_true]
  refine .call hireads ?_
  rw [ParseState.At.sees hu, if_pos (by decide)]
  refine .call hcreads ?_
  exact Step.yields_expect (ParseState.At.sees hv _) (.call hsreads .done)

/-- The three forms of a head are read back in front of the brace of the body. -/
theorem exists_loopHead {init cond step : Option Node}
    (hinit : ∀ node ∈ init, node.IsFormula names) (hcond : ∀ node ∈ cond, node.IsFormula names)
    (hstep : ∀ node ∈ step, node.IsFormula names) (hs : s.Declares names)
    (hpasses : s.Passes (Node.headWords names init cond step) t) (ht : t.At "\x7b") :
    ∃ head, (Rule.loopHead.step s).Yields head t ∧ Node.eraseSome head.init = Node.eraseSome init
      ∧ Node.eraseSome head.cond = Node.eraseSome cond
      ∧ Node.eraseSome head.step = Node.eraseSome step
      ∧ head.Over (Node.IsInt s.symbols) := by
  unfold Node.headWords at hpasses
  split at hpasses
  · -- Without semicolons there is at most a condition.
    have hnone : ∀ node ∈ (none : Option Node), node.IsInt s.symbols := fun node hnode => nomatch hnode
    cases cond with
    | none =>
      obtain rfl := ParseState.passes_nil.1 hpasses
      refine ⟨{}, ?_, rfl, rfl, rfl, ⟨hnone, hnone, hnone⟩⟩
      rw [Rule.step, ht.sees, if_pos (by decide)]
      exact .done
    | some cond =>
      have hformula := hcond cond rfl
      obtain ⟨node, hnode, herase, hint⟩ :=
        hformula.exists_expr hs hpasses (ht.stops (by decide))
      have hopen : s.sees "\x7b" = false := hformula.not_sees hpasses (by decide) (by decide)
      have hsemi : s.sees ";" = false := hformula.not_sees hpasses (by decide) (by decide)
      -- The condition is read where an initialization would be, and no semicolon follows.
      refine ⟨{ cond := some node }, ?_, rfl, ?_, rfl, ⟨hnone, fun n hn => ?_, hnone⟩⟩
      · rw [Rule.step, hopen, if_neg Bool.false_ne_true]
        refine .call (b := some node) (t := t) ?_ ?_
        · rw [Rule.step, hsemi, if_neg Bool.false_ne_true]
          exact .call hnode .done
        · rw [ht.sees, if_neg (by decide)]
          exact .done
      · rw [Node.eraseSome, Node.eraseSome, herase]
      · obtain rfl := Option.some.inj hn
        exact hint
  · exact exists_loopHead_clauses hinit hcond hstep hs hpasses ht

/-- The statement is read back. -/
def Node.StmtReadsBack (names : List String) (stmt : Node) : Prop :=
  ∀ {s t : ParseState}, s.Declares names → s.Passes (stmt.stmtWords names) t →
    -- A block is complete, whatever follows; a conditional may lack its other branch.
    (stmt.isBlock = false → t.sees "else" = false) →
      ∃ node, (Rule.stmt.step s).Yields node t ∧ node.erase = stmt.erase
        ∧ node.Over (Node.IsInt s.symbols)

/-- What a statement starts with neither ends a block nor starts a declaration or another branch. -/
theorem Node.IsScript.not_sees {stmt : Node} (h : stmt.IsScript names)
    (hpasses : s.Passes (stmt.stmtWords names) t) {text : String}
    (htext : text ∈ ["\x7d", "var", "else"]) : s.sees text = false := by
  have hfirst : ∀ {word : Lexeme} {words : List Lexeme}, s.Passes (word :: words) t →
      (word.kind = .punctuator ∨ word.kind = .keyword) → word.text ≠ text →
        s.sees text = false := by
    intro word words hpasses hkind hne
    obtain ⟨⟨loc, hcurrent⟩, -⟩ := ParseState.passes_cons.1 hpasses
    rw [ParseState.sees_eq hcurrent]
    rcases hkind with hkind | hkind
    · simpa [Token.reads, hkind] using hne
    · simpa [Token.reads, hkind] using hne
  have hothers : ∀ text ∈ ["\x7d", "var", "else"], ∀ first ∈ ["-", "(", "return", "\x7b", "if", "for"],
      first ≠ text := by decide
  have hother := hothers text htext
  -- An expression may start with a name as well, and none of the three is one.
  cases h with
  | exprStmt hexpr =>
    obtain ⟨u, hwords, -⟩ := ParseState.passes_append.1 hpasses
    exact hexpr.not_sees hwords (hother "-" (by decide)) (hother "(" (by decide))
  | ret _ => exact hfirst hpasses (.inr rfl) (hother "return" (by decide))
  | block _ => exact hfirst hpasses (.inl rfl) (hother "\x7b" (by decide))
  | ifElse _ _ _ _ _ => exact hfirst hpasses (.inr rfl) (hother "if" (by decide))
  | loop _ _ _ _ _ => exact hfirst hpasses (.inr rfl) (hother "for" (by decide))

/-- A statement gets its types. -/
theorem Node.Over.exists_typed {stmt : Node} {symbols : Symbols}
    (h : stmt.Over (Node.IsInt symbols)) :
    ∃ typed, annotate symbols stmt = .ok typed ∧ typed.erase = stmt.erase
      ∧ typed.Over (Node.IsInt symbols) := by
  obtain ⟨typed, htyped, hover⟩ := (h.ends_annotate fun _ hn => hn.ends_annotate).exists_ok
  exact ⟨typed, htyped, erase_of_annotate htyped, hover⟩

/-- The statements of a block are read back. -/
theorem Node.exists_items {body : List Node} (hscripts : ∀ node ∈ body, node.IsScript names)
    (hbody : ∀ node ∈ body, node.StmtReadsBack names) :
    ∀ (read : List Node) {s t : ParseState}, s.Declares names →
      s.Passes (bodyWords names body ++ [.punctuator "\x7d"]) t →
        ∃ nodes, ((Rule.items read).step s).Yields (read ++ nodes) t
          ∧ eraseAll nodes = eraseAll body ∧ ∀ node ∈ nodes, node.Over (Node.IsInt s.symbols) := by
  -- The induction is on the statements that are left, whatever has been read before them.
  induction body with
  | nil =>
    intro read s t _ hpasses
    obtain ⟨hclose, hend⟩ := ParseState.passes_cons.1 hpasses
    obtain rfl := ParseState.passes_nil.1 hend
    refine ⟨[], ?_, rfl, fun node hnode => absurd hnode List.not_mem_nil⟩
    rw [Rule.step, ParseState.At.sees hclose, if_pos (by decide), List.append_nil]
    exact .done
  | cons stmt body ih =>
    intro read s t hs hpasses
    rw [bodyWords, List.append_assoc] at hpasses
    obtain ⟨u, hfirst, hrest⟩ := ParseState.passes_append.1 hpasses
    have hscript := hscripts stmt List.mem_cons_self
    -- Another statement or the brace follows, and neither is an `else`.
    have helse : u.sees "else" = false := by
      cases body with
      | nil =>
        obtain ⟨hclose, -⟩ := ParseState.passes_cons.1 hrest
        exact ParseState.At.sees hclose _
      | cons next body =>
        rw [bodyWords, List.append_assoc] at hrest
        obtain ⟨v, hnext, -⟩ := ParseState.passes_append.1 hrest
        exact (hscripts next (by simp)).not_sees hnext (by decide)
    obtain ⟨node, hnode, herase, hover⟩ :=
      hbody stmt List.mem_cons_self hs hfirst fun _ => helse
    have hsame : u.symbols = s.symbols := hfirst.symbols
    obtain ⟨typed, htyped, hterase, htover⟩ := hover.exists_typed
    obtain ⟨nodes, hnodes, hnerase, hnover⟩ := ih
      (fun n hn => hscripts n (List.mem_cons_of_mem _ hn))
      (fun n hn => hbody n (List.mem_cons_of_mem _ hn)) (read ++ [typed])
      (hfirst.declares hs) hrest
    rw [hsame] at hnover
    -- The item is neither the brace nor a declaration, so it is read as a statement and typed.
    refine ⟨typed :: nodes, ?_, ?_, List.forall_mem_cons.2 ⟨htover, hnover⟩⟩
    · have hclose : s.sees "\x7d" = false := hscript.not_sees hfirst (by decide)
      have hvar : s.sees "var" = false := hscript.not_sees hfirst (by decide)
      rw [Rule.step, hclose, if_neg Bool.false_ne_true, hvar, if_neg Bool.false_ne_true]
      refine .call hnode ?_
      rw [hsame, htyped]
      rw [List.append_assoc] at hnodes
      exact .call hnodes .done
    · rw [eraseAll, eraseAll, hterase, herase, hnerase]

/-- In a new scope the same names refer to the same locals. -/
theorem ParseState.Declares.enterScope (h : s.Declares names) : s.enterScope.Declares names :=
  ⟨h.locals, h.find⟩

/-- A block is read back. -/
theorem Node.stmtReadsBack_block {mark : Mark} {body : List Node}
    (hscripts : ∀ node ∈ body, node.IsScript names)
    (hbody : ∀ node ∈ body, node.StmtReadsBack names) :
    (Node.block mark body).StmtReadsBack names := by
  intro s t hs hpasses _
  obtain ⟨⟨loc, hopen⟩, hpasses⟩ := ParseState.passes_cons.1 hpasses
  have hinner : s.advance.enterScope.Passes (bodyWords names body ++ [.punctuator "\x7d"])
      t.enterScope := hpasses.change (f := ParseState.enterScope) (fun _ => rfl) fun _ => rfl
  obtain ⟨nodes, hnodes, herase, hover⟩ :=
    exists_items hscripts hbody [] hs.advance.enterScope hinner
  -- The scope of the block is closed again, so the state is the one behind the brace.
  refine ⟨.block ⟨s.loc, none⟩ nodes, ?_, ?_, .block hover⟩
  · have hblock : ((Rule.block s.loc).step s.advance).Yields (.block ⟨s.loc, none⟩ nodes) t :=
      .call hnodes .done
    simp only [Rule.step, ParseState.sees_punctuator hopen]
    exact .call hblock .done
  · rw [Node.erase, Node.erase, herase]

theorem Node.stmtReadsBack_exprStmt {mark : Mark} {expr : Node} (hexpr : expr.IsFormula names) :
    (Node.exprStmt mark expr).StmtReadsBack names := by
  intro s t hs hpasses _
  obtain ⟨u, hwords, hlast⟩ := ParseState.passes_append.1 hpasses
  obtain ⟨hsemi, hend⟩ := ParseState.passes_cons.1 hlast
  obtain rfl := ParseState.passes_nil.1 hend
  have hu : u.At ";" := hsemi
  obtain ⟨node, hnode, herase, hint⟩ := hexpr.exists_expr hs hwords (hu.stops (by decide))
  have hsees : ∀ {text : String}, "-" ≠ text → "(" ≠ text → s.sees text = false :=
    hexpr.not_sees hwords
  refine ⟨.exprStmt ⟨s.loc, none⟩ node, ?_, ?_, .exprStmt hint⟩
  -- No other kind of statement starts like an expression.
  · have hnot : ∀ text ∈ ["return", "if", "for", "\x7b", ";"], s.sees text = false := by
      intro text htext
      have hne : ∀ text ∈ ["return", "if", "for", "\x7b", ";"], "-" ≠ text ∧ "(" ≠ text := by decide
      exact hsees (hne text htext).1 (hne text htext).2
    rw [Rule.step, hnot "return" (by decide), hnot "if" (by decide), hnot "for" (by decide),
      hnot "\x7b" (by decide)]
    show (Step.exprStatement s).Yields _ _
    rw [Step.exprStatement, hnot ";" (by decide)]
    refine .call hnode ?_
    exact Step.yields_expect (hu.sees _) .done
  · rw [Node.erase, Node.erase, herase]

theorem Node.stmtReadsBack_ret {mark : Mark} {value : Node} (hvalue : value.IsFormula names) :
    (Node.ret mark value).StmtReadsBack names := by
  intro s t hs hpasses _
  obtain ⟨⟨loc, hcurrent⟩, hpasses⟩ := ParseState.passes_cons.1 hpasses
  obtain ⟨u, hwords, hlast⟩ := ParseState.passes_append.1 hpasses
  obtain ⟨hsemi, hend⟩ := ParseState.passes_cons.1 hlast
  obtain rfl := ParseState.passes_nil.1 hend
  have hu : u.At ";" := hsemi
  obtain ⟨node, hnode, herase, hint⟩ := hvalue.exists_expr hs.advance hwords (hu.stops (by decide))
  refine ⟨.ret ⟨s.loc, none⟩ node, ?_, ?_, .ret hint⟩
  · rw [Rule.step, ParseState.sees_keyword hcurrent, if_pos (by decide)]
    refine .call hnode ?_
    exact Step.yields_expect (hu.sees _) .done
  · rw [Node.erase, Node.erase, herase]

/-- A block starts with its brace. -/
theorem ParseState.at_of_isBlock {stmt : Node} (h : stmt.isBlock = true) {words : List Lexeme}
    (hpasses : s.Passes (stmt.stmtWords names ++ words) t) : s.At "\x7b" := by
  cases stmt with
  | block mark body => exact (ParseState.passes_cons.1 hpasses).1
  | _ => exact nomatch h

/-- The branches are blocks, so an `else` belongs to the conditional that it was printed for. -/
theorem Node.stmtReadsBack_ifElse {mark : Mark} {cond onTrue : Node} {onFalse : Option Node}
    (hcond : cond.IsFormula names) (hblock : onTrue.isBlock = true)
    (hblocks : ∀ node ∈ onFalse, node.isBlock = true) (htrue : onTrue.StmtReadsBack names)
    (hfalse : ∀ node ∈ onFalse, node.StmtReadsBack names) :
    (Node.ifElse mark cond onTrue onFalse).StmtReadsBack names := by
  intro s t hs hpasses helse
  -- The words are `if`, the condition, the first branch, and then the other one.
  obtain ⟨⟨loc, hcurrent⟩, hpasses⟩ := ParseState.passes_cons.1 hpasses
  obtain ⟨u, hwords, hbranches⟩ := ParseState.passes_append.1 hpasses
  have hu : u.At "\x7b" := ParseState.at_of_isBlock hblock hbranches
  obtain ⟨v, hfirst, hsecond⟩ := ParseState.passes_append.1 hbranches
  have hus : u.Declares names := hwords.declares hs.advance
  have husame : u.symbols = s.symbols := hwords.symbols
  have hvsame : v.symbols = s.symbols := hfirst.symbols.trans husame
  obtain ⟨node, hnode, hnerase, hnint⟩ := hcond.exists_expr hs.advance hwords (hu.stops (by decide))
  obtain ⟨branch, hbranch, hberase, hbover⟩ :=
    htrue hus hfirst fun h => absurd (h.symm.trans hblock) Bool.false_ne_true
  rw [husame] at hbover
  -- Condition and first branch are read before it is known whether an `else` follows.
  have hif : ∀ {result : Node}, (if v.sees "else" = true then
        Step.call .stmt v.advance fun onFalse w =>
          .done (.ifElse ⟨s.loc, none⟩ node branch (some onFalse)) w
      else .done (.ifElse ⟨s.loc, none⟩ node branch none) v : Step Node).Yields result t →
      (Rule.stmt.step s).Yields result t := by
    intro result hresult
    simp only [Rule.step, ParseState.sees_keyword hcurrent]
    exact .call hnode (.call hbranch hresult)
  cases onFalse with
  -- Without another branch no `else` follows, which is asked of what comes behind.
  | none =>
    obtain rfl := ParseState.passes_nil.1 hsecond
    refine ⟨.ifElse ⟨s.loc, none⟩ node branch none, hif ?_, ?_,
      .ifElse hnint hbover fun n hn => absurd hn (Option.not_mem_none n)⟩
    · rw [helse rfl]
      exact .done
    · rw [Node.erase, Node.erase, hnerase, hberase]
  | some onFalse =>
    obtain ⟨⟨loc', helse⟩, hsecond⟩ := ParseState.passes_cons.1 hsecond
    have hvs : v.advance.Declares names := (hfirst.declares hus).advance
    obtain ⟨other, hother, hoerase, hoover⟩ := hfalse onFalse rfl hvs hsecond fun h =>
      absurd (h.symm.trans (hblocks onFalse rfl)) Bool.false_ne_true
    have hosame : v.advance.symbols = s.symbols := hvsame
    rw [hosame] at hoover
    refine ⟨.ifElse ⟨s.loc, none⟩ node branch (some other), hif ?_, ?_,
      .ifElse hnint hbover fun n hn => ?_⟩
    · rw [ParseState.sees_keyword helse, if_pos (by decide)]
      exact .call hother .done
    · rw [Node.erase, Node.erase, hnerase, hberase, Node.eraseSome, Node.eraseSome, hoerase]
    · obtain rfl := Option.some.inj hn
      exact hoover

/-- The body is a block, so its brace ends the head. -/
theorem Node.stmtReadsBack_loop {mark : Mark} {init cond step : Option Node} {body : Node}
    (hinit : ∀ node ∈ init, node.IsFormula names) (hcond : ∀ node ∈ cond, node.IsFormula names)
    (hstep : ∀ node ∈ step, node.IsFormula names) (hblock : body.isBlock = true)
    (hbody : body.StmtReadsBack names) : (Node.loop mark init cond step body).StmtReadsBack names := by
  intro s t hs hpasses _
  obtain ⟨⟨loc, hcurrent⟩, hpasses⟩ := ParseState.passes_cons.1 hpasses
  obtain ⟨u, hwords, hlast⟩ := ParseState.passes_append.1 hpasses
  -- The head ends in front of the brace of the body.
  have hu : u.At "\x7b" := by
    rw [← List.append_nil (body.stmtWords names)] at hlast
    exact ParseState.at_of_isBlock hblock hlast
  obtain ⟨head, hhead, hierase, hcerase, hserase, hover⟩ :=
    exists_loopHead hinit hcond hstep hs.advance hwords hu
  obtain ⟨node, hnode, herase, hnover⟩ := hbody (hwords.declares hs.advance) hlast fun h =>
    absurd (h.symm.trans hblock) Bool.false_ne_true
  have hsame : u.symbols = s.symbols := hwords.symbols
  rw [hsame] at hnover
  refine ⟨.loop ⟨s.loc, none⟩ head.init head.cond head.step node, ?_, ?_,
    .loop hover.init hover.cond hover.step hnover⟩
  · simp only [Rule.step, ParseState.sees_keyword hcurrent]
    exact .call hhead (.call hnode .done)
  · rw [Node.erase, Node.erase, hierase, hcerase, hserase, herase]

/-- **A statement is read back from its words.** -/
theorem Node.IsScript.readsBack {stmt : Node} (h : stmt.IsScript names) :
    stmt.StmtReadsBack names := by
  induction h with
  | exprStmt hexpr => exact stmtReadsBack_exprStmt hexpr
  | ret hvalue => exact stmtReadsBack_ret hvalue
  | block hbody ih => exact stmtReadsBack_block hbody ih
  | ifElse hcond _ _ hblock hblocks iht ihf =>
    exact stmtReadsBack_ifElse hcond hblock hblocks iht ihf
  | loop hinit hcond hstep _ hblock ih => exact stmtReadsBack_loop hinit hcond hstep hblock ih

/-! ### Reading functions back -/

/-- The type of a declared local is read. -/
theorem ParseState.yields_type_int {loc : Nat} (h : s.current? = some ⟨.keyword, loc, "int"⟩) :
    (Rule.type.step s).Yields .int s.advance := by
  have hdimensions : ((Rule.dimensions []).step s).Yields [] s := by
    rw [Rule.step, sees_keyword h, if_neg (by decide)]
    exact .done
  have hstars : ((Rule.stars 0).step s).Yields 0 s := by
    rw [Rule.step, sees_keyword h, if_neg (by decide)]
    exact .done
  refine .call hdimensions (.call hstars ?_)
  rw [sees_keyword h, if_pos (by decide)]
  exact .done

/-- Declares a local that holds a word. -/
def ParseState.addWord (s : ParseState) (name : String) : ParseState := s.addLocal (wordLocal name)

/-- A declaration is read as an empty block, and declares its name. -/
theorem ParseState.yields_declaration {name : String} (loc : Nat)
    (hpasses : s.Passes [.identifier name, .keyword "int", .punctuator ";"] t) :
    ((Rule.declaration loc).step s).Yields (.block ⟨loc, none⟩ []) (t.addWord name) := by
  obtain ⟨⟨loc', hname⟩, hpasses⟩ := passes_cons.1 hpasses
  obtain ⟨⟨loc'', hint⟩, hpasses⟩ := passes_cons.1 hpasses
  obtain ⟨hsemi, hend⟩ := passes_cons.1 hpasses
  obtain rfl := passes_nil.1 hend
  -- A name without stars and without a comma behind it, and no initial value.
  have hstars : ((Rule.stars 0).step s).Yields 0 s := by
    rw [Rule.step, sees_identifier hname, if_neg Bool.false_ne_true]
    exact .done
  have hnames : ((Rule.names []).step s).Yields [⟨name, loc', 0⟩] s.advance := by
    refine .call hstars (Step.yields_identifier hname ?_)
    rw [sees_keyword hint, if_neg (by decide)]
    exact .done
  have hinitializers : ((Rule.initializers 1).step s.advance.advance).Yields []
      s.advance.advance.advance := by
    rw [Rule.step, ParseState.At.sees hsemi, if_neg (by decide)]
    exact Step.yields_expect (ParseState.At.sees hsemi _) .done
  exact .call hnames (.call (yields_type_int hint) (.call hinitializers .done))

/-- The declarations at the start of a block are read, and the loop of the block goes on. -/
theorem exists_declarations (names : List String) : ∀ (read : List Node) {s t : ParseState},
    s.Passes (names.flatMap declarationWords) t →
      ∃ blocks, Node.eraseAll blocks = List.replicate names.length (.block .blank [])
        ∧ ∀ {nodes : List Node} {u : ParseState},
          ((Rule.items (read ++ blocks)).step (names.foldl ParseState.addWord t)).Yields nodes u →
            ((Rule.items read).step s).Yields nodes u := by
  induction names with
  | nil =>
    intro read s t hpasses
    obtain rfl := ParseState.passes_nil.1 hpasses
    exact ⟨[], rfl, fun h => by rwa [List.append_nil] at h⟩
  | cons name names ih =>
    intro read s t hpasses
    rw [List.flatMap_cons] at hpasses
    obtain ⟨u, hfirst, hrest⟩ := ParseState.passes_append.1 hpasses
    obtain ⟨⟨loc, hvar⟩, hfirst⟩ := ParseState.passes_cons.1 hfirst
    have hrest' : (u.addWord name).Passes (names.flatMap declarationWords) (t.addWord name) :=
      hrest.change (f := fun s => s.addWord name) (fun _ => rfl) fun _ => rfl
    obtain ⟨blocks, hblocks, hmore⟩ := ih (read ++ [.block ⟨s.loc, none⟩ []]) hrest'
    refine ⟨.block ⟨s.loc, none⟩ [] :: blocks, ?_, fun h => ?_⟩
    · rw [Node.eraseAll, hblocks]
      rfl
    -- A declaration without initial values leaves an empty block, which typing does not change.
    · have htyped : annotate (u.addWord name).symbols (.block ⟨s.loc, none⟩ [])
          = .ok (.block ⟨s.loc, none⟩ []) := by
        rw [annotate.eq_def]
        rfl
      rw [Rule.step, ParseState.sees_keyword hvar, if_neg (by decide),
        ParseState.sees_keyword hvar, if_pos (by decide)]
      refine .call (ParseState.yields_declaration s.loc hfirst) ?_
      rw [htyped]
      rw [List.append_cons] at h
      exact .call (hmore h) .done

/-- The locals are declared in the order of their names. -/
theorem ParseState.foldl_addWord_locals (names : List String) (s : ParseState) :
    (names.foldl addWord s).locals = s.locals ++ names.map wordLocal := by
  induction names generalizing s with
  | nil => rw [List.foldl_nil, List.map_nil, List.append_nil]
  | cons name names ih =>
    rw [List.foldl_cons, ih, List.map_cons, addWord, addLocal, List.append_assoc]
    rfl

/-- Declaring other names does not change what a name refers to. -/
theorem ParseState.foldl_addWord_find?_of_notMem {name : String} {names : List String}
    (h : name ∉ names) {s : ParseState} {scope : Scope} {outer : Scopes}
    (hs : s.scopes = scope :: outer) :
    (names.foldl addWord s).scopes.find? name = s.scopes.find? name := by
  -- Each declaration binds another name in the innermost scope.
  induction names generalizing s scope with
  | nil => rfl
  | cons declared names ih =>
    have hne : name ≠ declared := fun heq => h (heq ▸ List.mem_cons_self)
    have hbind : (s.addWord declared).scopes
        = ((declared, .localVar s.locals.length) :: scope) :: outer := by
      rw [addWord, addLocal, hs]
      rfl
    have hfind : (s.addWord declared).scopes.find? name = s.scopes.find? name := by
      show (s.scopes.bind declared _).find? name = _
      rw [hs, Scopes.find?_bind, if_neg hne]
    rw [List.foldl_cons, ih (fun hmem => h (List.mem_cons_of_mem _ hmem)) hbind, hfind]

/-- A name refers to the newest local that was declared with it. -/
theorem ParseState.foldl_addWord_find? {name : String} {names : List String} {index : Nat}
    (hname : names[index]? = some name) (hnewest : name ∉ names.drop (index + 1)) {s : ParseState}
    {scope : Scope} {outer : Scopes} (hs : s.scopes = scope :: outer) :
    (names.foldl addWord s).scopes.find? name = some (.localVar (s.locals.length + index)) := by
  -- The name is declared at `index` for the last time, so later ones do not hide it.
  induction names generalizing s scope index with
  | nil => exact nomatch hname
  | cons declared names ih =>
    have hbind : (s.addWord declared).scopes
        = ((declared, .localVar s.locals.length) :: scope) :: outer := by
      rw [addWord, addLocal, hs]
      rfl
    rw [List.foldl_cons]
    cases index with
    | zero =>
      obtain rfl := Option.some.inj hname
      have hnot : declared ∉ names := hnewest
      rw [foldl_addWord_find?_of_notMem hnot hbind]
      show (s.scopes.bind declared _).find? declared = _
      rw [hs, Scopes.find?_bind, if_pos rfl]
      rfl
    | succ index =>
      have hlength : (s.addWord declared).locals.length = s.locals.length + 1 := by
        rw [addWord, addLocal, List.length_append, List.length_singleton]
      rw [ih hname hnewest hbind, hlength, Nat.add_assoc, Nat.add_comm 1 index]

/-- Behind the declarations the names mean the locals. -/
theorem ParseState.declares_foldl_addWord {names : List String} {s : ParseState} {scope : Scope}
    {outer : Scopes} (hs : s.scopes = scope :: outer) (hlocals : s.locals = []) :
    (names.foldl addWord s).Declares names where
  locals := by rw [foldl_addWord_locals, hlocals, List.nil_append]
  find hname hnewest := by
    rw [foldl_addWord_find? hname hnewest hs, hlocals, List.length_nil, Nat.zero_add]

theorem ParseState.foldl_addWord_rest (names : List String) (s : ParseState) :
    (names.foldl addWord s).rest = s.rest := by
  induction names generalizing s with
  | nil => rfl
  | cons name names ih => rw [List.foldl_cons, ih]; rfl

theorem ParseState.foldl_addWord_advance (names : List String) (s : ParseState) :
    (names.foldl addWord s).advance = names.foldl addWord s.advance := by
  induction names generalizing s with
  | nil => rfl
  | cons name names ih => rw [List.foldl_cons, ih]; rfl

/-- The declarations of a block are forgotten behind it, except for the locals themselves. -/
theorem ParseState.leaveScope_foldl_addWord (names : List String) (s : ParseState) :
    (names.foldl addWord s).leaveScope
      = { s.leaveScope with locals := s.locals ++ names.map wordLocal } := by
  induction names generalizing s with
  | nil => rw [List.foldl_nil, List.map_nil, List.append_nil]; rfl
  | cons name names ih =>
    have hscopes : (s.addWord name).scopes.leave = s.scopes.leave := Scopes.tail_bind _ _ _
    have hlocals : (s.addWord name).locals = s.locals ++ [wordLocal name] := rfl
    rw [List.foldl_cons, ih, leaveScope, hscopes, hlocals, List.append_assoc]
    rfl

/-- The body of a function is read back behind the declarations of its locals. -/
theorem exists_block {body : List Node} (hbody : ∀ stmt ∈ body, stmt.IsScript names) (loc : Nat)
    (hlocals : s.locals = []) (hpasses : s.Passes (names.flatMap declarationWords
      ++ (Node.bodyWords names body ++ [.punctuator "\x7d"])) t) :
    ∃ nodes u, ((Rule.block loc).step s).Yields (.block ⟨loc, none⟩ nodes) u
      ∧ Node.eraseAll nodes
        = List.replicate names.length (.block .blank []) ++ Node.eraseAll body
      ∧ u = { t with locals := names.map wordLocal } := by
  have hinner := hpasses.change (f := ParseState.enterScope) (fun _ => rfl) fun _ => rfl
  obtain ⟨v, hdeclarations, hrest⟩ := ParseState.passes_append.1 hinner
  have hv : v.scopes = [] :: s.scopes ∧ v.locals = [] := by
    rw [hdeclarations.eq]
    exact ⟨rfl, hlocals⟩
  have ht : t.locals = [] := by rw [hpasses.eq]; exact hlocals
  -- The statements are read where all locals have been declared.
  have hdeclares : (names.foldl ParseState.addWord v).Declares names :=
    ParseState.declares_foldl_addWord hv.1 hv.2
  have hstatements := hrest.change (f := fun s => names.foldl ParseState.addWord s)
    (ParseState.foldl_addWord_rest names) (ParseState.foldl_addWord_advance names)
  obtain ⟨blocks, hblocks, hmore⟩ := exists_declarations names [] hdeclarations
  obtain ⟨nodes, hnodes, herase, -⟩ := Node.exists_items hbody
    (fun stmt hstmt => (hbody stmt hstmt).readsBack) ([] ++ blocks) hdeclares hstatements
  refine ⟨blocks ++ nodes, _, .call (hmore hnodes) .done, ?_, ?_⟩
  · rw [Node.eraseAll_append, hblocks, herase]
  · rw [ParseState.leaveScope_foldl_addWord]
    show ParseState.mk _ _ _ (t.locals ++ _) _ _ _ = _
    rw [ht]
    rfl

/-- The sizes of the locals can be added as long as the total is a size that code can address. -/
theorem addSize?_foldlM_words (names : List String) {total : Int} (htotal : 0 ≤ total)
    (h : total + 8 * names.length ≤ maxObjectSize) :
    (names.map wordLocal).foldlM (fun total v => Parse.addSize? total v.ty.size) total
      = some (total + 8 * names.length) := by
  induction names generalizing total with
  | nil => simp
  | cons name names ih =>
    rw [List.length_cons] at h
    push_cast at h
    -- A sum that is not greater than an object may be does not overflow.
    have hfits : Word.Fits (total + 8) := by
      simp only [Word.Fits, Word.least, Word.greatest, maxObjectSize] at h ⊢
      omega
    have hadd : Parse.addSize? total (wordLocal name).ty.size = some (total + 8) := by
      rw [Parse.addSize?]
      exact if_pos hfits
    rw [List.map_cons, List.foldlM_cons, hadd]
    refine (ih (by omega) (by omega)).trans ?_
    rw [List.length_cons]
    push_cast
    congr 1
    omega

/-- The frame of a function with so many locals passes the check, or it does not. -/
theorem frameBytes?_words (names : List String) :
    (Parse.frameBytes? (names.map wordLocal)).any (· ≤ maxObjectSize) = true
      ↔ 8 * (names.length : Int) ≤ maxObjectSize := by
  have hsizes : (names.map wordLocal).map (·.ty.size) = names.map fun _ => 8 := by
    rw [List.map_map]
    rfl
  constructor
  -- If the sum passes, it is the sum of the sizes.
  · intro h
    have hsum := Parse.sum_le_of_frameBytes h
    rw [hsizes, List.map_const', List.sum_replicate] at hsum
    simpa [Int.mul_comm] using hsum
  -- If there is room, no partial sum overflows.
  · intro h
    rw [Parse.frameBytes?, addSize?_foldlM_words names (Int.le_refl 0) (by omega)]
    simpa using h

/-- The first function may have any name that is not reserved. -/
theorem Parse.run_checkFunction_of_empty {name : String} (hreserved : name ∉ Symbol.reserved)
    (loc : Nat) (hglobals : s.globals = []) (hfunctions : s.functions = []) :
    (Parse.checkFunction name loc).run s = .ok ((), s) := by
  unfold Parse.checkFunction
  rw [Parse.run_bind Parse.run_get, hfunctions]
  show (Parse.checkSymbol name loc).run s = _
  unfold Parse.checkSymbol Parse.isDeclared
  rw [if_neg hreserved, Parse.run_bind Parse.run_get, hglobals, hfunctions]
  rfl

/-- The state in which the parameters of a function are read: there are no locals, and the
parameters have a scope of their own. -/
def ParseState.fresh (s : ParseState) : ParseState := { s with locals := [] }.enterScope

/-- **A function is read up to the check of its frame**, which decides whether it is read back. -/
theorem exists_frameCheck {name : String} (hreserved : name ∉ Symbol.reserved) {body : List Node}
    (hbody : ∀ stmt ∈ body, stmt.IsScript names) (hglobals : s.globals = [])
    (hfunctions : s.functions = []) (hpasses : s.Passes (functionWords name names body) t) :
    ∃ (loc : Nat) (f : Function), f.name = name ∧ f.locals = names.map wordLocal ∧ f.body.erase
        = .block .blank (List.replicate names.length (.block .blank []) ++ Node.eraseAll body)
      ∧ (Rule.topLevel.step s).EndsAs
        (if (Parse.frameBytes? (names.map wordLocal)).any (· ≤ maxObjectSize) then
          .done () { t with locals := [], functions := [f] }
        else .fail (.complaint loc (.frameTooLarge name))) := by
  -- The words in front of the block: `func`, the name, parentheses, `int` and a brace.
  obtain ⟨⟨loc, hfunc⟩, hpasses⟩ := ParseState.passes_cons.1 hpasses
  obtain ⟨⟨loc', hname⟩, hpasses⟩ := ParseState.passes_cons.1 hpasses
  obtain ⟨hopen, hpasses⟩ := ParseState.passes_cons.1 hpasses
  obtain ⟨hclose, hpasses⟩ := ParseState.passes_cons.1 hpasses
  obtain ⟨⟨loc'', hint⟩, hpasses⟩ := ParseState.passes_cons.1 hpasses
  obtain ⟨hbrace, hpasses⟩ := ParseState.passes_cons.1 hpasses
  have ht : t.functions = [] := by rw [hpasses.eq]; exact hfunctions
  -- The locals are forgotten, and a scope is opened for the parameters.
  have hinner := hpasses.change (f := ParseState.fresh) (fun _ => rfl) fun _ => rfl
  have hcheck := Parse.run_checkFunction_of_empty (s := s.advance.advance) hreserved loc' hglobals
    hfunctions
  have hparen : s.advance.advance.fresh.sees "(" = true := ParseState.At.sees hopen _
  have hparameters : (Rule.parameterList.step s.advance.advance.advance.fresh).Yields []
      s.advance.advance.advance.advance.fresh := by
    have hat : s.advance.advance.advance.fresh.At ")" := hclose
    rw [Rule.step, hat.sees, if_pos (by decide)]
    exact .done
  have hbrace : s.advance.advance.advance.advance.advance.fresh.sees "\x7b" = true :=
    ParseState.At.sees hbrace _
  obtain ⟨nodes, u, hblock, herase, rfl⟩ :=
    exists_block hbody s.advance.advance.advance.advance.advance.fresh.loc rfl hinner
  refine ⟨loc', ⟨name, .func .int [], [], names.map wordLocal,
    .block ⟨s.advance.advance.advance.advance.advance.fresh.loc, none⟩ nodes⟩, rfl, rfl, ?_, ?_⟩
  · rw [Node.erase, herase]
  · have hname : s.advance.current? = some ⟨.identifier, loc', name⟩ := hname
    rw [Rule.step, ParseState.sees_keyword hfunc, if_pos (by decide)]
    refine .inside ?_
    rw [Rule.step]
    refine .identifier hname (.ofRun hcheck (.expect hparen ?_))
    refine .call hparameters (.call (ParseState.yields_type_int hint) ?_)
    refine .expect hbrace (.call hblock ?_)
    -- Nothing but the check is left.
    show Step.EndsAs (if _ then .done () ((ParseState.addFunction
      { t with locals := names.map wordLocal } name [] .int _)) else _) _
    rw [ParseState.addFunction, ht]
    exact .refl _

/-- A function is read back. -/
theorem exists_function {name : String} (hreserved : name ∉ Symbol.reserved) {body : List Node}
    (hbody : ∀ stmt ∈ body, stmt.IsScript names)
    (hroom : 8 * (names.length : Int) ≤ maxObjectSize) (hglobals : s.globals = [])
    (hfunctions : s.functions = []) (hpasses : s.Passes (functionWords name names body) t) :
    ∃ f, (Rule.topLevel.step s).Yields () { t with locals := [], functions := [f] }
      ∧ f.name = name ∧ f.locals = names.map wordLocal ∧ f.body.erase
        = .block .blank (List.replicate names.length (.block .blank []) ++ Node.eraseAll body) := by
  obtain ⟨loc, f, hname, hlocals, herase, hends⟩ :=
    exists_frameCheck hreserved hbody hglobals hfunctions hpasses
  rw [if_pos ((frameBytes?_words names).2 hroom)] at hends
  exact ⟨f, hends.yields .done, hname, hlocals, herase⟩

/-- The tokens that words are cut into are passed. -/
theorem ParseState.passes_of_spells {words : List Lexeme} {tokens rest : List Token}
    (h : List.Forall₂ Lexeme.Spells words tokens) (hs : s.rest = tokens ++ rest) :
    s.Passes words { s with rest } := by
  induction h generalizing s with
  | nil =>
    rw [List.nil_append] at hs
    exact passes_nil.2 (by rw [← hs])
  | @cons word token words tokens hword _ ih =>
    have hcurrent : s.current? = some token := by
      rw [current?, hs]
      rfl
    refine .cons hcurrent hword (ih ?_)
    rw [advance, hs]
    rfl

/-- The words of a printed function are cut apart, and passed up to the end of the source. -/
theorem Source.exists_passes {source : Source} {name : String} {names : List String}
    {body : List Node} (hname : isIdentifier name = true)
    (hnames : ∀ name ∈ names, isIdentifier name = true) (hbody : ∀ stmt ∈ body, stmt.IsScript names)
    (htext : source.text = spelled (functionWords name names body)) :
    ∃ tokens, source.tokenize = .ok tokens
      ∧ (source.start tokens).Passes (functionWords name names body)
        { source.start tokens with rest := [Token.atEnd source] } := by
  obtain ⟨tokens, htokens, hspells⟩ :=
    source.tokenize_spelled (allKnown_functionWords hnames hname hbody) htext
  exact ⟨_, htokens, ParseState.passes_of_spells hspells rfl⟩

/-- A function stands in front of the end. -/
theorem ParseState.atEnd_eq_false_of_passes
    (h : s.Passes (functionWords name names body) t) : s.atEnd = false := by
  obtain ⟨⟨loc, hcurrent⟩, -⟩ := passes_cons.1 h
  have hfunc : s.sees "func" = true := sees_keyword hcurrent "func"
  exact atEnd_eq_false_of_sees hfunc

/-- **Parsing undoes printing.**  A function that declares some locals and has some statements
behind the declarations is printed, cut into tokens and parsed.  What comes out is the function:
behind the empty blocks of the declarations its body has these statements, up to places and types.

A function with more locals than a frame has room for is refused, so there must not be more. -/
theorem Source.program_of_printed {source : Source} {name : String} {names : List String}
    {body : List Node} (hname : isIdentifier name = true) (hreserved : name ∉ Symbol.reserved)
    (hnames : ∀ name ∈ names, isIdentifier name = true)
    (hroom : 8 * (names.length : Int) ≤ maxObjectSize)
    (hbody : ∀ stmt ∈ body, stmt.IsScript names)
    (htext : source.text = spelled (functionWords name names body)) :
    ∃ f, source.program = .ok ⟨[], [f]⟩ ∧ f.name = name
      ∧ f.locals = names.map (fun name => { name, ty := .int })
      ∧ f.body.erase = .block .blank
        (List.replicate names.length (.block .blank []) ++ body.map Node.erase) := by
  obtain ⟨tokens, htokens, hpasses⟩ := exists_passes hname hnames hbody htext
  obtain ⟨f, hread, hfname, hlocals, herase⟩ :=
    exists_function hreserved hbody hroom rfl rfl hpasses
  rw [Node.eraseAll_eq_map] at herase
  have hstarts := ParseState.atEnd_eq_false_of_passes hpasses
  -- The function is read, and behind it the source ends.
  refine ⟨f, ?_, hfname, hlocals, herase⟩
  exact bind_eq_ok_iff.2 ⟨_, htokens, parse_eq_ok_iff.2 ⟨_, .next hstarts hread .refl, rfl, rfl⟩⟩

/-- **A function with more locals than a frame has room for is refused**, whatever its statements
are. -/
theorem Source.program_of_too_many_locals (file : String) {name : String} {names : List String}
    {body : List Node} (hname : isIdentifier name = true) (hreserved : name ∉ Symbol.reserved)
    (hnames : ∀ name ∈ names, isIdentifier name = true)
    (hroom : maxObjectSize < 8 * (names.length : Int))
    (hbody : ∀ stmt ∈ body, stmt.IsScript names) :
    ∃ loc, (Source.mk file (spelled (functionWords name names body))).program
      = .error (.complaint loc (.frameTooLarge name)) := by
  -- The text is long, so it is not written out in the goals.
  generalize hsource : Source.mk file (spelled (functionWords name names body)) = source
  have htext : source.text = spelled (functionWords name names body) := by rw [← hsource]
  obtain ⟨tokens, htokens, hpasses⟩ := exists_passes hname hnames hbody htext
  obtain ⟨loc, f, -, -, -, hends⟩ := exists_frameCheck hreserved hbody rfl rfl hpasses
  rw [if_neg fun h => Int.not_le.2 hroom ((frameBytes?_words names).1 h)] at hends
  refine ⟨loc, ?_⟩
  rw [Source.program, htokens]
  exact parse_eq_error_iff.2 ⟨_, .refl, ParseState.atEnd_eq_false_of_passes hpasses,
    hends.fails .fail⟩

/-- **Not every printed function is read back.**  These are the fewest locals, of 8 bytes each,
that a frame has no room for, and a statement that has nothing wrong with it. -/
theorem Source.program_of_printed_crowded :
    let names := List.replicate 268435456 "x"
    let stmt : Node := .ret .blank (.var .blank (.localVar 268435455))
    let source := Source.mk "crowded" (spelled (functionWords "f" names [stmt]))
    isIdentifier "f" = true ∧ "f" ∉ Symbol.reserved ∧ (∀ name ∈ names, isIdentifier name = true)
      ∧ stmt.IsScript names
      ∧ (∃ loc, source.program = .error (.complaint loc (.frameTooLarge "f")))
      ∧ ¬∃ f, source.program = .ok ⟨[], [f]⟩ ∧ f.body.erase = .block .blank
        (List.replicate names.length (.block .blank []) ++ [stmt].map Node.erase) := by
  intro names stmt source
  have hlength : names.length = 268435456 := List.length_replicate
  have hnames : ∀ name ∈ names, isIdentifier name = true := by
    intro name hname
    rw [List.eq_of_mem_replicate hname]
    decide
  -- The variable is the last of the locals, so no later one has its name.
  have hstmt : stmt.IsScript names := by
    have hlast : names[268435455]? = some "x" := by
      rw [List.getElem?_replicate, if_pos (by decide)]
    have hnewest : "x" ∉ names.drop 268435456 := by
      rw [List.drop_eq_nil_of_le hlength.le]
      exact List.not_mem_nil
    exact .ret (.var hlast hnewest)
  have hroom : maxObjectSize < 8 * (names.length : Int) := by
    rw [hlength]
    decide
  have hf : isIdentifier "f" = true ∧ "f" ∉ Symbol.reserved := by decide
  obtain ⟨loc, hrefused⟩ := Source.program_of_too_many_locals "crowded" hf.1 hf.2 hnames hroom
    (List.forall_mem_singleton.2 hstmt)
  refine ⟨hf.1, hf.2, hnames, hstmt, ⟨loc, hrefused⟩, ?_⟩
  rintro ⟨f, hread, -⟩
  rw [hrefused] at hread
  cases hread

/-- A loop with a conditional in it, and expressions in which parentheses are needed. -/
def Node.nested : Node :=
  let x : Node := .var .blank (.localVar 0)
  let y : Node := .var .blank (.localVar 1)
  let num (value : Int64) : Node := .num .blank value
  .loop .blank (some (.assign .blank x (num 0))) (some (.binary .blank .lt x (num 3)))
    (some (.assign .blank x (.binary .blank .sub x (.binary .blank .sub y (num 1)))))
    (.block .blank [.ifElse .blank (.binary .blank .eq x (.assign .blank y (num 2)))
      (.block .blank [.ret .blank (.neg .blank (.binary .blank .div x y))])
      (some (.block .blank [.exprStmt .blank
        (.call .blank "f" [x, .binary .blank .mul (num 1) (num 2)])]))])

example : spelled (Node.nested.stmtWords ["x", "y"])
    = "for x = 0 ; x < 3 ; x = x - ( y - 1 ) \x7b if x == ( y = 2 ) \x7b return - ( x / y ) ; \x7d "
      ++ "else \x7b f ( x , 1 * 2 ) ; \x7d \x7d" := by
  decide +kernel

/-- The locals are `x` and `y`, and the statement is the loop. -/
theorem Source.program_of_printed_nested :
    ∃ f, (Source.mk "nested" (spelled (functionWords "main" ["x", "y"] [.nested]))).program
        = .ok ⟨[], [f]⟩ ∧ f.name = "main"
      ∧ f.locals = ["x", "y"].map (fun name => { name, ty := .int })
      ∧ f.body.erase = .block .blank (List.replicate 2 (.block .blank []) ++ [Node.nested.erase]) := by
  have hx : ∀ mark, (Node.var mark (.localVar 0)).IsFormula ["x", "y"] := fun _ =>
    .var rfl (by decide)
  have hy : ∀ mark, (Node.var mark (.localVar 1)).IsFormula ["x", "y"] := fun _ =>
    .var rfl (by decide)
  -- The loop, its head and its body, from the inside out.
  have hif : Node.IsScript ["x", "y"] (.ifElse .blank
      (.binary .blank .eq (.var .blank (.localVar 0))
        (.assign .blank (.var .blank (.localVar 1)) (.num .blank 2)))
      (.block .blank [.ret .blank (.neg .blank
        (.binary .blank .div (.var .blank (.localVar 0)) (.var .blank (.localVar 1))))])
      (some (.block .blank [.exprStmt .blank (.call .blank "f" [.var .blank (.localVar 0),
        .binary .blank .mul (.num .blank 1) (.num .blank 2)])]))) := by
    refine .ifElse (.binary (hx _) (.assign (hy _) (.num (by decide)))) ?_ ?_ rfl ?_
    · refine .block fun node hnode => ?_
      rw [List.mem_singleton.1 hnode]
      exact .ret (.neg (.binary (hx _) (hy _)))
    · intro node hnode
      obtain rfl := Option.some.inj hnode
      refine .block fun node hnode => ?_
      rw [List.mem_singleton.1 hnode]
      refine .exprStmt (.call (by decide) (by decide) (by decide) ?_)
      exact List.forall_mem_cons.2 ⟨hx _, List.forall_mem_singleton.2
        (.binary (.num (by decide)) (.num (by decide)))⟩
    · intro node hnode
      obtain rfl := Option.some.inj hnode
      rfl
  have hnested : Node.nested.IsScript ["x", "y"] := by
    refine .loop ?_ ?_ ?_ (.block fun node hnode => ?_) rfl
    · intro node hnode
      obtain rfl := Option.some.inj hnode
      exact .assign (hx _) (.num (by decide))
    · intro node hnode
      obtain rfl := Option.some.inj hnode
      exact .binary (hx _) (.num (by decide))
    · intro node hnode
      obtain rfl := Option.some.inj hnode
      exact .assign (hx _) (.binary (hx _) (.binary (hy _) (.num (by decide))))
    · rw [List.mem_singleton.1 hnode]
      exact hif
  exact Source.program_of_printed (by decide) (by decide) (by decide) (by decide)
    (List.forall_mem_singleton.2 hnested) rfl

end PocketCompiler
