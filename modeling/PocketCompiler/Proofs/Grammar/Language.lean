import PocketCompiler.Token

/-!
# The language of programs

The grammar as data: `grammar` has one production for each nonterminal, and a `Form` is the right
side of one.  `Derives g form word` says that the production rules `g` derive `word` from `form`.
Nothing here mentions a reader, so that the readers can be compared with it.

The grammar has a parameter, the form of what a loop repeats.  `wholeGrammar` lets a loop repeat any
statement, and `bracedGrammar` only a block.

The grammar is ambiguous: an `else` may belong to either of two conditionals, and what follows the
condition of a conditional may continue the condition or start the next statement.
-/

namespace PocketCompiler

/-! ### Words -/

/-- What the grammar sees of a token. -/
inductive Terminal where
  /-- This very punctuator or keyword. -/
  | lexeme (text : String)
  | identifier
  | number
  | string
  /-- The end of the source, which is no part of a program. -/
  | eof
deriving DecidableEq, Repr

/-- What the grammar sees of a token. -/
def Token.terminal (token : Token) : Terminal :=
  match token.kind with
  | .punctuator | .keyword => .lexeme token.text
  | .identifier => .identifier
  | .number _ => .number
  | .string _ _ => .string
  | .eof => .eof

/-- A token reads as a text if the grammar sees that text. -/
theorem Token.reads_iff {token : Token} {text : String} :
    token.reads text = true ↔ token.terminal = .lexeme text := by
  obtain ⟨kind, loc, found⟩ := token
  cases kind <;> simp [Token.reads, Token.terminal]

/-! ### Forms -/

/-- The nonterminals of the grammar. -/
inductive Nonterminal where
  | program
  | function
  | params
  | param
  | globalVar
  | compoundStmt
  | declaration
  | declNames
  | declName
  | type
  | baseType
  | stmt
  | exprStmt
  | expr
  | assign
  | equality
  | relational
  | add
  | mul
  | unary
  | postfixed
  | primary
  | args
deriving DecidableEq, Repr

/-- The right sides of productions. -/
inductive Form where
  | terminal (t : Terminal)
  | rule (n : Nonterminal)
  | empty
  | seq (first second : Form)
  | either (first second : Form)
  /-- Any number of times. -/
  | many (inner : Form)
deriving DecidableEq, Repr

namespace Form

instance : Append Form := ⟨Form.seq⟩

instance : OrOp Form := ⟨Form.either⟩

/-- A punctuator or keyword. -/
def text (t : String) : Form := .terminal (.lexeme t)

/-- Once or not at all. -/
def optional (inner : Form) : Form := inner ||| .empty

/-- Once, and once more behind every comma that follows. -/
def separated (inner : Form) : Form := inner ++ many (text "," ++ inner)

/-- The initial values of a declaration and its closing semicolon. -/
def initializers : Form := optional (text "=" ++ separated (rule .expr)) ++ text ";"

/-- The clauses of a loop. -/
def clauses : Form :=
  optional (rule .expr) ++ text ";" ++ optional (rule .expr) ++ text ";" ++ optional (rule .expr)

/-- A block. -/
def block : Form := text "\x7b" ++ rule .compoundStmt

end Form

/-! ### Productions -/

open Form in
/-- The productions, for loops that repeat `body`. -/
def grammar (body : Form) : Nonterminal → Form
  | .program => many (rule .function ||| rule .globalVar)
  | .function => text "func" ++ terminal .identifier ++ text "(" ++ rule .params ++ text ")"
      ++ rule .type ++ text "\x7b" ++ rule .compoundStmt
  | .params => optional (separated (rule .param))
  | .param => terminal .identifier ++ rule .type
  | .globalVar => text "var" ++ rule .declNames ++ rule .type ++ initializers
  | .compoundStmt => many (rule .declaration ||| rule .stmt) ++ text "\x7d"
  | .declaration => text "var" ++ rule .declNames ++ rule .type ++ initializers
  | .declNames => separated (rule .declName)
  | .declName => many (text "*") ++ terminal .identifier
  | .type => text "[" ++ terminal .number ++ text "]" ++ rule .type
      ||| many (text "*") ++ rule .baseType
  | .baseType => text "int" ||| text "char"
  | .stmt => text "return" ++ rule .expr ++ text ";"
      ||| text "if" ++ rule .expr ++ rule .stmt ++ optional (text "else" ++ rule .stmt)
      ||| text "for" ++ optional clauses ++ body
      ||| text "for" ++ rule .expr ++ body
      ||| block
      ||| rule .exprStmt
  | .exprStmt => optional (rule .expr) ++ text ";"
  | .expr => rule .assign
  | .assign => rule .equality ++ optional (text "=" ++ rule .assign)
  | .equality => rule .relational ++ many ((text "==" ||| text "!=") ++ rule .relational)
  | .relational => rule .add
      ++ many ((text "<" ||| text "<=" ||| text ">" ||| text ">=") ++ rule .add)
  | .add => rule .mul ++ many ((text "+" ||| text "-") ++ rule .mul)
  | .mul => rule .unary ++ many ((text "*" ||| text "/") ++ rule .unary)
  | .unary => (text "+" ||| text "-" ||| text "&" ||| text "*") ++ rule .unary
      ||| rule .postfixed
  | .postfixed => rule .primary ++ many (text "[" ++ rule .expr ++ text "]")
  | .primary => text "(" ++ rule .expr ++ text ")"
      ||| terminal .identifier ++ optional (text "(" ++ rule .args ++ text ")")
      ||| terminal .string
      ||| terminal .number
  | .args => optional (separated (rule .assign))

/-- The grammar in which a loop repeats any statement. -/
def wholeGrammar : Nonterminal → Form := grammar (.rule .stmt)

/-- The grammar in which a loop repeats a block. -/
def bracedGrammar : Nonterminal → Form := grammar .block

/-! ### Derivations -/

/-- The productions `g` derive the word from the form. -/
inductive Derives (g : Nonterminal → Form) : Form → List Terminal → Prop
  | terminal (t : Terminal) : Derives g (.terminal t) [t]
  | rule {n : Nonterminal} {w : List Terminal} (h : Derives g (g n) w) : Derives g (.rule n) w
  | empty : Derives g .empty []
  | seq {f h : Form} {u v : List Terminal} (hf : Derives g f u) (hh : Derives g h v) :
    Derives g (.seq f h) (u ++ v)
  | left {f h : Form} {w : List Terminal} (hf : Derives g f w) : Derives g (.either f h) w
  | right {f h : Form} {w : List Terminal} (hh : Derives g h w) : Derives g (.either f h) w
  | nil {f : Form} : Derives g (.many f) []
  | cons {f : Form} {u v : List Terminal} (hf : Derives g f u) (hmore : Derives g (.many f) v) :
    Derives g (.many f) (u ++ v)

namespace Derives

variable {g : Nonterminal → Form} {f h : Form} {n : Nonterminal} {t : Terminal}
  {u v w : List Terminal}

@[simp] theorem terminal_iff : Derives g (.terminal t) w ↔ w = [t] :=
  ⟨fun h => by cases h; rfl, fun h => h ▸ .terminal t⟩

theorem text (t : String) : Derives g (.text t) [.lexeme t] := .terminal _

@[simp] theorem text_iff {t : String} : Derives g (.text t) w ↔ w = [.lexeme t] :=
  terminal_iff

theorem of_eq (hu : Derives g f u) (huv : u = v) : Derives g f v := huv ▸ hu

/-- A nonterminal stands for its production. -/
theorem rule_iff : Derives g (.rule n) w ↔ Derives g (g n) w :=
  ⟨fun h => by cases h; assumption, .rule⟩

@[simp] theorem empty_iff : Derives g .empty w ↔ w = [] :=
  ⟨fun h => by cases h; rfl, fun h => h ▸ .empty⟩

@[simp] theorem append_iff :
    Derives g (f ++ h) w ↔ ∃ u v, w = u ++ v ∧ Derives g f u ∧ Derives g h v := by
  constructor
  · rintro (_ | _ | _ | ⟨hf, hh⟩)
    exact ⟨_, _, rfl, hf, hh⟩
  · rintro ⟨u, v, rfl, hf, hh⟩
    exact .seq hf hh

@[simp] theorem or_iff : Derives g (f ||| h) w ↔ Derives g f w ∨ Derives g h w := by
  constructor
  · rintro (_ | _ | _ | _ | hf | hh)
    · exact .inl hf
    · exact .inr hh
  · rintro (hf | hh)
    · exact .left hf
    · exact .right hh

theorem append (hf : Derives g f u) (hh : Derives g h v) : Derives g (f ++ h) (u ++ v) := .seq hf hh

/-- How a sequence is bracketed does not matter. -/
theorem assoc_iff {k : Form} : Derives g (f ++ h ++ k) w ↔ Derives g (f ++ (h ++ k)) w := by
  simp only [append_iff]
  constructor
  · rintro ⟨_, v, rfl, ⟨t, u, rfl, hf, hh⟩, hk⟩
    exact ⟨t, u ++ v, List.append_assoc t u v, hf, u, v, rfl, hh, hk⟩
  · rintro ⟨t, _, rfl, hf, u, v, rfl, hh, hk⟩
    exact ⟨t ++ u, v, (List.append_assoc t u v).symm, ⟨t, u, rfl, hf, hh⟩, hk⟩

/-- Nothing behind a form adds nothing to its words. -/
theorem append_empty_iff : Derives g (f ++ .empty) w ↔ Derives g f w := by
  simp

/-- A word of a form behind a terminal starts with that terminal. -/
theorem terminal_append_iff : Derives g (.terminal t ++ f) w ↔ ∃ v, w = t :: v ∧ Derives g f v := by
  rw [append_iff]
  constructor
  · rintro ⟨u, v, rfl, hu, hv⟩
    rw [terminal_iff.1 hu]
    exact ⟨v, rfl, hv⟩
  · rintro ⟨v, rfl, hv⟩
    exact ⟨[t], v, rfl, .terminal t, hv⟩

/-- A word of a form behind a text starts with that text. -/
theorem text_append_iff {t : String} :
    Derives g (.text t ++ f) w ↔ ∃ v, w = .lexeme t :: v ∧ Derives g f v :=
  terminal_append_iff

theorem optional_iff : Derives g (.optional f) w ↔ Derives g f w ∨ w = [] := by
  rw [Form.optional, or_iff, empty_iff]

/-- A repetition is a list of words. -/
theorem many_iff : Derives g (.many f) w ↔ ∃ ws : List (List Terminal), (∀ u ∈ ws, Derives g f u)
    ∧ w = ws.flatten := by
  constructor
  · intro h
    generalize hform : Form.many f = form at h
    induction h with
    | nil => exact ⟨[], by simp, rfl⟩
    | @cons _ u v hf _ _ ih =>
      obtain rfl := Form.many.inj hform
      obtain ⟨ws, hws, rfl⟩ := ih rfl
      exact ⟨u :: ws, List.forall_mem_cons.2 ⟨hf, hws⟩, rfl⟩
    | _ => exact nomatch hform
  · rintro ⟨ws, hws, rfl⟩
    induction ws with
    | nil => exact .nil
    | cons u ws ih =>
      obtain ⟨hu, hws⟩ := List.forall_mem_cons.1 hws
      exact .cons hu (ih hws)

/-- Induction over a repetition. -/
theorem many_induction {motive : List Terminal → Prop} (nil : motive [])
    (cons : ∀ u v, Derives g f u → Derives g (.many f) v → motive v → motive (u ++ v))
    (h : Derives g (.many f) w) : motive w := by
  obtain ⟨ws, hws, rfl⟩ := many_iff.1 h
  clear h
  induction ws with
  | nil => exact nil
  | cons u ws ih =>
    obtain ⟨hu, hws⟩ := List.forall_mem_cons.1 hws
    exact cons u _ hu (many_iff.2 ⟨ws, hws, rfl⟩) (ih hws)

/-- Induction over what has commas between it. -/
theorem separated_induction {motive : List Terminal → Prop} (one : ∀ u, Derives g f u → motive u)
    (more : ∀ u v, Derives g f u → Derives g (.separated f) v → motive v →
      motive (u ++ .lexeme "," :: v))
    (h : Derives g (.separated f) w) : motive w := by
  obtain ⟨u, v, rfl, hu, hv⟩ := append_iff.1 h
  clear h
  refine many_induction (motive := fun v => ∀ u, Derives g f u → motive (u ++ v)) ?_ ?_ hv u hu
  · intro u hu
    rw [List.append_nil]
    exact one u hu
  · intro x v hx hv ih u hu
    obtain ⟨x, rfl, hinner⟩ := text_append_iff.1 hx
    exact more u (x ++ v) hu (hinner.append hv) (ih x hinner)

end Derives

end PocketCompiler
