import PocketCompiler.Proofs.Grammar.Rule
import PocketCompiler.Proofs.Token.Spelling
import PocketCompiler.Proofs.Typing

/-!
# Printing trees

`Node.words` writes an expression down, with parentheses only where the operator around it binds
more than its own, and `Node.stmtWords` writes down a statement.  `Node.IsFormula` and
`Node.IsScript` say which trees can be written down: those over numbers, locals, negation, the
operators with two operands, assignments to locals and calls, and the statements over these whose
branches and loop bodies are blocks.

What is printed says nothing about places and types, so trees are compared without them:
`Node.erase`.  Typing does not change a tree otherwise (`erase_of_annotate`).
-/

namespace PocketCompiler

/-! ### Trees without places and types -/

/-- The mark of a node that stands nowhere and has no type. -/
abbrev Mark.blank : Mark := ⟨0, none⟩

mutual

/-- A tree without its places and types. -/
def Node.erase : Node → Node
  | .num _ value => .num .blank value
  | .var _ ref => .var .blank ref
  | .neg _ operand => .neg .blank operand.erase
  | .addr _ operand => .addr .blank operand.erase
  | .deref _ operand => .deref .blank operand.erase
  | .binary _ op lhs rhs => .binary .blank op lhs.erase rhs.erase
  | .assign _ target value => .assign .blank target.erase value.erase
  | .call _ name args => .call .blank name (Node.eraseAll args)
  | .exprStmt _ expr => .exprStmt .blank expr.erase
  | .ret _ value => .ret .blank value.erase
  | .block _ body => .block .blank (Node.eraseAll body)
  | .ifElse _ cond onTrue onFalse =>
    .ifElse .blank cond.erase onTrue.erase (Node.eraseSome onFalse)
  | .loop _ init cond step body =>
    .loop .blank (Node.eraseSome init) (Node.eraseSome cond) (Node.eraseSome step) body.erase

/-- The trees of a list without their places and types. -/
def Node.eraseAll : List Node → List Node
  | [] => []
  | node :: nodes => node.erase :: Node.eraseAll nodes

/-- A tree, if there is one, without its places and types. -/
def Node.eraseSome : Option Node → Option Node
  | none => none
  | some node => some node.erase

end

theorem Node.eraseAll_eq_map (nodes : List Node) : eraseAll nodes = nodes.map erase := by
  induction nodes with
  | nil => rfl
  | cons node nodes ih => rw [eraseAll, ih, List.map_cons]

theorem Node.eraseAll_append (nodes more : List Node) :
    eraseAll (nodes ++ more) = eraseAll nodes ++ eraseAll more := by
  simp only [eraseAll_eq_map, List.map_append]

mutual

/-- Forgetting types first does not matter, since they are forgotten anyway. -/
theorem Node.erase_untyped : ∀ node : Node, node.untyped.erase = node.erase
  | .num _ _ | .var _ _ => by simp only [untyped, erase]
  | .neg _ operand | .addr _ operand | .deref _ operand => by
    simp only [untyped, erase, erase_untyped operand]
  | .binary _ _ lhs rhs => by simp only [untyped, erase, erase_untyped lhs, erase_untyped rhs]
  | .assign _ target value => by
    simp only [untyped, erase, erase_untyped target, erase_untyped value]
  | .call _ _ args => by simp only [untyped, erase, eraseAll_untypedAll args]
  | .exprStmt _ expr => by simp only [untyped, erase, erase_untyped expr]
  | .ret _ value => by simp only [untyped, erase, erase_untyped value]
  | .block _ body => by simp only [untyped, erase, eraseAll_untypedAll body]
  | .ifElse _ cond onTrue onFalse => by
    simp only [untyped, erase, erase_untyped cond, erase_untyped onTrue,
      eraseSome_untypedSome onFalse]
  | .loop _ init cond step body => by
    simp only [untyped, erase, eraseSome_untypedSome init, eraseSome_untypedSome cond,
      eraseSome_untypedSome step, erase_untyped body]

theorem Node.eraseAll_untypedAll : ∀ nodes : List Node,
    eraseAll (untypedAll nodes) = eraseAll nodes
  | [] => rfl
  | node :: nodes => by simp only [untypedAll, eraseAll, erase_untyped node, eraseAll_untypedAll nodes]

theorem Node.eraseSome_untypedSome : ∀ node : Option Node,
    eraseSome (untypedSome node) = eraseSome node
  | none => rfl
  | some node => by simp only [untypedSome, eraseSome, erase_untyped node]

end

/-- Typing a tree does not change what is left of it without its types. -/
theorem erase_of_annotate {symbols : Symbols} {node typed : Node}
    (h : annotate symbols node = .ok typed) : typed.erase = node.erase := by
  have huntyped := (ends_untyped_annotate symbols node).of_eq_ok h
  rw [← Node.erase_untyped, huntyped, Node.erase_untyped]

/-! ### Expressions -/

/-- The level of an operator with two operands. -/
def BinaryOp.level : BinaryOp → Level
  | .eq | .ne => .equality
  | .lt | .le => .relational
  | .add | .sub => .sum
  | .mul | .div => .product

/-- How an operator is written. -/
def BinaryOp.text : BinaryOp → String
  | .add => "+"
  | .sub => "-"
  | .mul => "*"
  | .div => "/"
  | .eq => "=="
  | .ne => "!="
  | .lt => "<"
  | .le => "<="

/-- How much the operators of a level bind.  An assignment binds as 0, and a sign as 5. -/
def Level.binding : Level → Nat
  | .equality => 1
  | .relational => 2
  | .sum => 3
  | .product => 4

/-- Words with parentheses around them, if there have to be any. -/
def parenthesized (needed : Bool) (words : List Lexeme) : List Lexeme :=
  if needed then .punctuator "(" :: (words ++ [.punctuator ")"]) else words

mutual

/-- The words of an expression, where what stands around it binds as `binding`.  The locals are
called `names`. -/
def Node.words (names : List String) (binding : Nat) : Node → List Lexeme
  | .num _ value => [.number value]
  | .var _ (.localVar index) => [.identifier (names.getD index "")]
  | .neg _ operand => .punctuator "-" :: operand.words names 5
  | .binary _ op lhs rhs =>
    -- Operators of one level are applied from left to right.
    parenthesized (op.level.binding < binding)
      (lhs.words names op.level.binding
        ++ .punctuator op.text :: rhs.words names (op.level.binding + 1))
  | .assign _ target value =>
    parenthesized (0 < binding) (target.words names 1 ++ .punctuator "=" :: value.words names 0)
  | .call _ name args =>
    .identifier name :: .punctuator "(" :: (Node.argumentWords names args ++ [.punctuator ")"])
  | _ => []

/-- The words of the arguments of a call. -/
def Node.argumentWords (names : List String) : List Node → List Lexeme
  | [] => []
  | argument :: more => argument.words names 0 ++ Node.furtherWords names more

/-- The words of the arguments behind the first one. -/
def Node.furtherWords (names : List String) : List Node → List Lexeme
  | [] => []
  | argument :: more => .punctuator "," :: (argument.words names 0 ++ Node.furtherWords names more)

end

/-- Expressions over numbers, locals that are called `names`, negation, operators with two operands,
assignments to locals and calls.  A local whose name a later one has too cannot be named. -/
inductive Node.IsFormula (names : List String) : Node → Prop
  | num {mark value} (hvalue : 0 ≤ value.toInt) : IsFormula names (.num mark value)
  | var {mark index name} (hname : names[index]? = some name)
      (hnewest : name ∉ names.drop (index + 1)) : IsFormula names (.var mark (.localVar index))
  | neg {mark operand} (hoperand : IsFormula names operand) : IsFormula names (.neg mark operand)
  | binary {mark op lhs rhs} (hlhs : IsFormula names lhs) (hrhs : IsFormula names rhs) :
    IsFormula names (.binary mark op lhs rhs)
  | assign {mark mark' ref value} (htarget : IsFormula names (.var mark' ref))
      (hvalue : IsFormula names value) : IsFormula names (.assign mark (.var mark' ref) value)
  | call {mark name args} (hname : isIdentifier name = true) (hreserved : name ∉ Symbol.reserved)
      (hlength : args.length ≤ maxArguments) (hargs : ∀ arg ∈ args, IsFormula names arg) :
    IsFormula names (.call mark name args)

/-! ### Statements -/

/-- The words of an expression, if there is one. -/
def Node.wordsSome (names : List String) : Option Node → List Lexeme
  | none => []
  | some node => node.words names 0

/-- The words between `for` and the body of a loop.  Without an initialization and a step there are
no semicolons. -/
def Node.headWords (names : List String) : (init cond step : Option Node) → List Lexeme
  | none, cond, none => Node.wordsSome names cond
  | init, cond, step =>
    Node.wordsSome names init ++ .punctuator ";" :: (Node.wordsSome names cond
      ++ .punctuator ";" :: Node.wordsSome names step)

mutual

/-- The words of a statement. -/
def Node.stmtWords (names : List String) : Node → List Lexeme
  | .exprStmt _ expr => expr.words names 0 ++ [.punctuator ";"]
  | .ret _ value => .keyword "return" :: (value.words names 0 ++ [.punctuator ";"])
  | .block _ body => .punctuator "\x7b" :: (Node.bodyWords names body ++ [.punctuator "\x7d"])
  | .ifElse _ cond onTrue onFalse =>
    .keyword "if" :: (cond.words names 0 ++ (onTrue.stmtWords names ++ Node.elseWords names onFalse))
  | .loop _ init cond step body =>
    .keyword "for" :: (Node.headWords names init cond step ++ body.stmtWords names)
  | _ => []

/-- The words of some statements. -/
def Node.bodyWords (names : List String) : List Node → List Lexeme
  | [] => []
  | node :: nodes => node.stmtWords names ++ Node.bodyWords names nodes

/-- The words of the other branch, if there is one. -/
def Node.elseWords (names : List String) : Option Node → List Lexeme
  | none => []
  | some node => .keyword "else" :: node.stmtWords names

end

/-- Whether a statement is a block. -/
def Node.isBlock : Node → Bool
  | .block _ _ => true
  | _ => false

/-- Statements over formulas.  Branches and the bodies of loops are blocks. -/
inductive Node.IsScript (names : List String) : Node → Prop
  | exprStmt {mark expr} (hexpr : expr.IsFormula names) : IsScript names (.exprStmt mark expr)
  | ret {mark value} (hvalue : value.IsFormula names) : IsScript names (.ret mark value)
  | block {mark body} (hbody : ∀ node ∈ body, IsScript names node) :
    IsScript names (.block mark body)
  | ifElse {mark cond onTrue onFalse} (hcond : cond.IsFormula names)
      (htrue : IsScript names onTrue) (hfalse : ∀ node ∈ onFalse, IsScript names node)
      (hblock : onTrue.isBlock = true) (hblocks : ∀ node ∈ onFalse, node.isBlock = true) :
    IsScript names (.ifElse mark cond onTrue onFalse)
  | loop {mark init cond step body} (hinit : ∀ node ∈ init, node.IsFormula names)
      (hcond : ∀ node ∈ cond, node.IsFormula names) (hstep : ∀ node ∈ step, node.IsFormula names)
      (hbody : IsScript names body) (hblock : body.isBlock = true) :
    IsScript names (.loop mark init cond step body)

/-! ### Functions -/

/-- The words of the declaration of a local. -/
def declarationWords (name : String) : List Lexeme :=
  [.keyword "var", .identifier name, .keyword "int", .punctuator ";"]

/-- The words of a function that declares locals and has these statements behind the
declarations. -/
def functionWords (name : String) (names : List String) (body : List Node) : List Lexeme :=
  [.keyword "func", .identifier name, .punctuator "(", .punctuator ")", .keyword "int",
    .punctuator "\x7b"] ++ (names.flatMap declarationWords ++ (Node.bodyWords names body
      ++ [.punctuator "\x7d"]))

/-! ### The words are known to the lexer -/

/-- Words that the lexer knows. -/
def AllKnown (words : List Lexeme) : Prop := ∀ word ∈ words, word.IsKnown

@[simp] theorem allKnown_nil : AllKnown [] := fun _ h => absurd h List.not_mem_nil

@[simp] theorem allKnown_cons {word : Lexeme} {words : List Lexeme} :
    AllKnown (word :: words) ↔ word.IsKnown ∧ AllKnown words := List.forall_mem_cons

@[simp] theorem allKnown_append {words more : List Lexeme} :
    AllKnown (words ++ more) ↔ AllKnown words ∧ AllKnown more := List.forall_mem_append

/-- Parentheses are known. -/
theorem allKnown_parenthesized {needed : Bool} {words : List Lexeme} (h : AllKnown words) :
    AllKnown (parenthesized needed words) := by
  unfold parenthesized
  split
  · exact allKnown_cons.2 ⟨by decide, allKnown_append.2 ⟨h, allKnown_cons.2 ⟨by decide, allKnown_nil⟩⟩⟩
  · exact h

section Known

variable {names : List String} (hnames : ∀ name ∈ names, isIdentifier name = true)

include hnames

/-- The words of an expression are numbers, names and operators that the lexer knows. -/
theorem Node.IsFormula.allKnown {node : Node} (h : node.IsFormula names) (binding : Nat) :
    AllKnown (node.words names binding) := by
  induction h generalizing binding with
  | num hvalue => exact allKnown_cons.2 ⟨hvalue, allKnown_nil⟩
  | @var mark index name hname hnewest =>
    have hget : names.getD index "" = name := by rw [List.getD_eq_getElem?_getD, hname]; rfl
    rw [words, hget]
    exact allKnown_cons.2 ⟨hnames name (List.mem_of_getElem? hname), allKnown_nil⟩
  | neg _ ih => exact allKnown_cons.2 ⟨by decide, ih 5⟩
  | @binary mark op lhs rhs _ _ ihl ihr =>
    have hop : isPunctuator op.text = true := by cases op <;> decide
    exact allKnown_parenthesized (allKnown_append.2 ⟨ihl _, allKnown_cons.2 ⟨hop, ihr _⟩⟩)
  | assign _ _ iht ihv =>
    exact allKnown_parenthesized (allKnown_append.2 ⟨iht _, allKnown_cons.2 ⟨by decide, ihv _⟩⟩)
  | @call mark name args hname _ _ _ ih =>
    -- The arguments behind the first, each with a comma in front.
    have hfurther : ∀ more : List Node, (∀ arg ∈ more, arg ∈ args) →
        AllKnown (Node.furtherWords names more) := by
      intro more
      induction more with
      | nil => exact fun _ => allKnown_nil
      | cons argument more ihmore =>
        intro hmem
        exact allKnown_cons.2 ⟨by decide, allKnown_append.2
          ⟨ih argument (hmem argument List.mem_cons_self) 0,
            ihmore fun arg harg => hmem arg (List.mem_cons_of_mem _ harg)⟩⟩
    have hargs : AllKnown (Node.argumentWords names args) := by
      cases args with
      | nil => exact allKnown_nil
      | cons argument more =>
        exact allKnown_append.2 ⟨ih argument List.mem_cons_self 0,
          hfurther more fun arg harg => List.mem_cons_of_mem _ harg⟩
    exact allKnown_cons.2 ⟨hname, allKnown_cons.2 ⟨by decide, allKnown_append.2
      ⟨hargs, allKnown_cons.2 ⟨by decide, allKnown_nil⟩⟩⟩⟩

theorem allKnown_wordsSome {node : Option Node} (h : ∀ n ∈ node, n.IsFormula names) :
    AllKnown (Node.wordsSome names node) := by
  cases node with
  | none => exact allKnown_nil
  | some node => exact (h node rfl).allKnown hnames 0

omit hnames in
theorem allKnown_bodyWords {nodes : List Node} (h : ∀ n ∈ nodes, AllKnown (n.stmtWords names)) :
    AllKnown (Node.bodyWords names nodes) := by
  induction nodes with
  | nil => exact allKnown_nil
  | cons node nodes ih =>
    exact allKnown_append.2 ⟨h node List.mem_cons_self,
      ih fun n hn => h n (List.mem_cons_of_mem _ hn)⟩

/-- The words of the head of a loop are those of its parts, and semicolons. -/
theorem allKnown_headWords {init cond step : Option Node} (hinit : ∀ n ∈ init, n.IsFormula names)
    (hcond : ∀ n ∈ cond, n.IsFormula names) (hstep : ∀ n ∈ step, n.IsFormula names) :
    AllKnown (Node.headWords names init cond step) := by
  unfold Node.headWords
  split
  · exact allKnown_wordsSome hnames hcond
  · exact allKnown_append.2 ⟨allKnown_wordsSome hnames hinit, allKnown_cons.2 ⟨by decide,
      allKnown_append.2 ⟨allKnown_wordsSome hnames hcond, allKnown_cons.2 ⟨by decide,
        allKnown_wordsSome hnames hstep⟩⟩⟩⟩

/-- The words of a statement are keywords, punctuators and those of its expressions. -/
theorem Node.IsScript.allKnown {node : Node} (h : node.IsScript names) :
    AllKnown (node.stmtWords names) := by
  induction h with
  | exprStmt hexpr =>
    exact allKnown_append.2 ⟨hexpr.allKnown hnames 0, allKnown_cons.2 ⟨by decide, allKnown_nil⟩⟩
  | ret hvalue =>
    exact allKnown_cons.2 ⟨by decide,
      allKnown_append.2 ⟨hvalue.allKnown hnames 0, allKnown_cons.2 ⟨by decide, allKnown_nil⟩⟩⟩
  | block _ ih =>
    exact allKnown_cons.2 ⟨by decide,
      allKnown_append.2 ⟨allKnown_bodyWords ih, allKnown_cons.2 ⟨by decide, allKnown_nil⟩⟩⟩
  | @ifElse mark cond onTrue onFalse hcond _ _ _ _ iht ihf =>
    refine allKnown_cons.2 ⟨by decide, allKnown_append.2 ⟨hcond.allKnown hnames 0,
      allKnown_append.2 ⟨iht, ?_⟩⟩⟩
    cases onFalse with
    | none => exact allKnown_nil
    | some node => exact allKnown_cons.2 ⟨by decide, ihf node rfl⟩
  | loop hinit hcond hstep _ _ ih =>
    exact allKnown_cons.2 ⟨by decide,
      allKnown_append.2 ⟨allKnown_headWords hnames hinit hcond hstep, ih⟩⟩

/-- The words of a function are known if its name is an identifier. -/
theorem allKnown_functionWords {name : String} (hname : isIdentifier name = true)
    {body : List Node} (hbody : ∀ node ∈ body, node.IsScript names) :
    AllKnown (functionWords name names body) := by
  have hdeclarations : AllKnown (names.flatMap declarationWords) := by
    intro word hword
    obtain ⟨declared, hdeclared, hword⟩ := List.mem_flatMap.1 hword
    have hall : AllKnown (declarationWords declared) := by
      simp only [declarationWords, allKnown_cons, allKnown_nil, and_true]
      exact ⟨by decide, hnames declared hdeclared, by decide, by decide⟩
    exact hall word hword
  simp only [functionWords, allKnown_append, allKnown_cons, allKnown_nil, and_true]
  exact ⟨⟨by decide, hname, by decide, by decide, by decide, by decide⟩, hdeclarations,
    allKnown_bodyWords fun n hn => (hbody n hn).allKnown hnames, by decide⟩

end Known

end PocketCompiler
