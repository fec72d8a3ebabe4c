import Mathlib.Tactic.IntervalCases
import PocketCompiler.Proofs.Compile
import PocketCompiler.Proofs.Grammar.Globals
import PocketCompiler.Proofs.Symbols

/-!
# The data of a program is the memory that its globals start with

The lines of data behind the label of a global stand for bytes, which depend on the addresses that
the assembler gives to labels (`Listing.image`).  They are the bytes that the global starts with
(`Program.Named.image_lower`), and what these are is said by its declaration: `Listing.Represents`
goes by the type of a global and by its initial value, and `Listing.IsImageOf` says it of all the
globals of a source.  `Source.data_image` is the result.

Three places have to fit together for this.  A literal is cut to the length of its array when it is
read, what is missing is filled up when the data is written, and string literals become globals
between those that have names.
-/

namespace PocketCompiler

open Parse (DeclaredName)

/-! ### Bytes of a word -/

/-- The `count` low bytes of a word in two's complement, the lowest first. -/
def wordBytes (value : Int64) (count : Nat) : List UInt8 :=
  (List.range count).map fun i => UInt8.ofInt (value.toInt / 256 ^ i)

theorem length_wordBytes (value : Int64) (count : Nat) :
    (wordBytes value count).length = count := by
  rw [wordBytes, List.length_map, List.length_range]

/-- A word and its value without a sign differ by a whole turn at most. -/
theorem toInt_eq_toNat_toUInt64 (value : Int64) :
    value.toInt = value.toUInt64.toNat ∨ value.toInt = value.toUInt64.toNat - 2 ^ 64 := by
  have hcond : value.toInt = if 2 * value.toUInt64.toNat < 2 ^ 64 then (value.toUInt64.toNat : Int)
      else (value.toUInt64.toNat : Int) - (2 ^ 64 : Nat) :=
    BitVec.toInt_eq_toNat_cond value.toBitVec
  split at hcond
  · exact .inl hcond
  · exact .inr hcond

/-- A byte of a word is the quotient of its value, also if that is negative. -/
theorem toUInt8_shiftRight (value : Int64) {i : Nat} (hi : i < 8) :
    (value.toUInt64 >>> UInt64.ofNat (8 * i)).toUInt8 = UInt8.ofInt (value.toInt / 256 ^ i) := by
  apply UInt8.toNat_inj.1
  have hshift : (UInt64.ofNat (8 * i)).toNat % 64 = 8 * i := by
    rw [UInt64.toNat_ofNat']
    omega
  rw [UInt64.toNat_toUInt8, UInt64.toNat_shiftRight, hshift, Nat.shiftRight_eq_div_pow, UInt8.ofInt,
    UInt8.toNat_ofNat']
  -- With and without its sign a word differs by 2 ^ 64, which no byte of it shows.
  have hword := toInt_eq_toNat_toUInt64 value
  generalize value.toInt = n at *
  generalize value.toUInt64.toNat = m at *
  interval_cases i <;> norm_num <;> omega

/-- The bytes that are written for a word are its bytes in two's complement. -/
theorem littleEndian_eq_wordBytes (value : Int64) {count : Nat} (hcount : count ≤ 8) :
    littleEndian value count = wordBytes value count := by
  refine List.map_congr_left fun i hi => toUInt8_shiftRight value ?_
  exact (List.mem_range.1 hi).trans_le hcount

/-! ### Bytes of lines -/

/-- Whether a line stands for bytes of data. -/
def Line.isData : Line → Bool
  | .directive (.byte _) | .directive (.zero _) | .directive (.address _) => true
  | _ => false

/-- The bytes that a line of data stands for, by the addresses of labels. -/
def Line.bytes (address : String → Int64) : Line → List UInt8
  | .directive (.byte value) => [value]
  | .directive (.zero count) => List.replicate count.toNat 0
  | .directive (.address name) => wordBytes (address name) 8
  | _ => []

/-- The lines of data behind the label called `name`. -/
def Code.dataOf (code : Code) (name : String) : Code :=
  ((code.dropWhile (· != .label (.symbol name))).drop 1).takeWhile Line.isData

/-- The bytes behind the label called `name`, by the addresses of labels. -/
def Listing.image (listing : Listing) (address : String → Int64) (name : String) : List UInt8 :=
  (listing.lines.dataOf name).flatMap (Line.bytes address)

/-- The data behind a label ends where the next line that is no data starts. -/
theorem Code.dataOf_eq {before lines after : Code} {name : String}
    (hbefore : .label (.symbol name) ∉ before) (hlines : ∀ line ∈ lines, line.isData = true)
    (hafter : ∀ line ∈ after.head?, line.isData = false) :
    Code.dataOf (before ++ .label (.symbol name) :: (lines ++ after)) name = lines := by
  have hskip : ∀ line ∈ before, (line != .label (.symbol name)) = true :=
    fun line hline => bne_iff_ne.2 fun heq => hbefore (heq ▸ hline)
  have hend : after.takeWhile Line.isData = [] := by
    cases after with
    | nil => rfl
    | cons line after =>
      exact List.takeWhile_cons_of_neg (by rw [hafter line rfl]; exact Bool.false_ne_true)
  rw [Code.dataOf, List.dropWhile_append_of_pos hskip, List.dropWhile_cons_of_neg (by simp),
    List.drop_one, List.tail_cons, List.takeWhile_append_of_pos hlines, hend, List.append_nil]

/-! ### Bytes of globals -/

/-- The bytes that a global starts with, by the addresses of labels. -/
def Variable.image (address : String → Int64) (g : Variable) : List UInt8 :=
  match g.contents with
  | none => List.replicate g.ty.size.toNat 0
  | some (.bytes bytes) => bytes ++ List.replicate (g.ty.size - bytes.length).toNat 0
  | some (.address label) => wordBytes (address label) 8

section

variable {address : String → Int64} {g : Variable}

/-- A global without an initial value starts with zeros. -/
theorem Variable.image_of_none (h : g.contents = none) :
    g.image address = List.replicate g.ty.size.toNat 0 := by
  rw [image, h]

/-- Behind its bytes a global is filled with zeros. -/
theorem Variable.image_of_bytes {bytes : List UInt8} (h : g.contents = some (.bytes bytes)) :
    g.image address = bytes ++ List.replicate (g.ty.size - bytes.length).toNat 0 := by
  rw [image, h]

/-- The address of a literal takes the eight bytes of a word. -/
theorem Variable.image_of_address {label : String} (h : g.contents = some (.address label)) :
    g.image address = wordBytes (address label) 8 := by
  rw [image, h]

end

namespace Lower

variable {g : Variable} {lines : Code}

/-- The padding is as many zeros as there are bytes left. -/
theorem flatMap_bytes_padding {ty : Ty} {count : Nat} (h : padding ty count = .ok lines)
    (address : String → Int64) : lines.flatMap (Line.bytes address)
      = List.replicate (ty.size - count).toNat 0 := by
  obtain ⟨missing, hmissing, h⟩ := bind_eq_ok_iff.1 h
  obtain ⟨-, rfl⟩ := Word.checked_eq_ok_iff.1 hmissing
  split at h
  · obtain rfl := Except.ok.inj h
    exact List.flatMap_singleton _ _
  · next hnone =>
    obtain rfl := Except.ok.inj h
    rw [Int.toNat_of_nonpos (not_lt.1 hnone)]
    rfl

theorem isData_of_mem_padding {ty : Ty} {count : Nat} (h : padding ty count = .ok lines) :
    ∀ line ∈ lines, line.isData = true := by
  obtain ⟨missing, hmissing, h⟩ := bind_eq_ok_iff.1 h
  split at h
  · obtain rfl := Except.ok.inj h
    exact List.forall_mem_singleton.2 rfl
  · obtain rfl := Except.ok.inj h
    exact List.forall_mem_nil _

/-- The contents of a global are lines of data that stand for its bytes. -/
theorem image_contents (h : contents g = .ok lines) :
    (∀ line ∈ lines, line.isData = true)
      ∧ ∀ address, lines.flatMap (Line.bytes address) = g.image address := by
  unfold contents at h
  split at h
  · next bytes hbytes =>
    obtain ⟨zeros, hzeros, h⟩ := bind_eq_ok_iff.1 h
    obtain rfl := Except.ok.inj h
    refine ⟨List.forall_mem_append.2 ⟨?_, isData_of_mem_padding hzeros⟩, fun address => ?_⟩
    · exact List.forall_mem_map.2 fun _ _ => rfl
    rw [Variable.image_of_bytes hbytes, List.flatMap_append, flatMap_bytes_padding hzeros,
      List.flatMap_map]
    exact congrArg (· ++ _) (List.flatMap_singleton' bytes)
  · next label hlabel =>
    obtain rfl := Except.ok.inj h
    refine ⟨List.forall_mem_singleton.2 rfl, fun address => ?_⟩
    rw [Variable.image_of_address hlabel]
    exact List.flatMap_singleton _ _
  · next hnone =>
    obtain rfl := Except.ok.inj h
    refine ⟨List.forall_mem_singleton.2 rfl, fun address => ?_⟩
    rw [Variable.image_of_none hnone]
    exact List.flatMap_singleton _ _

/-- Every datum starts with a line that is not data. -/
theorem exists_parts_of_datum (h : datum g = .ok lines) :
    ∃ inner, lines = [.directive .dataSection, .directive (.visible g.name),
        .label (.symbol g.name)] ++ inner ∧ (∀ line ∈ inner, line.isData = true)
      ∧ ∀ address, inner.flatMap (Line.bytes address) = g.image address := by
  obtain ⟨inner, hinner, h⟩ := bind_eq_ok_iff.1 h
  exact ⟨inner, (Except.ok.inj h).symm, image_contents hinner⟩

end Lower

section

variable {α β : Type} {R : α → β → Prop} {xs : List α} {ys : List β}

theorem exists_right_of_forall₂ (h : List.Forall₂ R xs ys) {x : α} (hx : x ∈ xs) :
    ∃ y ∈ ys, R x y := by
  induction h with
  | nil => exact absurd hx List.not_mem_nil
  | cons hfirst _ ih =>
    rcases List.mem_cons.1 hx with rfl | hx
    · exact ⟨_, List.mem_cons_self, hfirst⟩
    · obtain ⟨y, hy, hR⟩ := ih hx
      exact ⟨y, List.mem_cons_of_mem _ hy, hR⟩

theorem exists_left_of_forall₂ (h : List.Forall₂ R xs ys) {y : β} (hy : y ∈ ys) :
    ∃ x ∈ xs, R x y :=
  exists_right_of_forall₂ h.flip hy

end

/-- Lines that do not start with data. -/
def Code.StartsApart (code : Code) : Prop := ∃ line rest, code = line :: rest ∧ line.isData = false

/-- Lines that do not start with data do not continue the data in front of them. -/
theorem Code.isData_head?_flatten {codes : List Code} (h : ∀ code ∈ codes, code.StartsApart) :
    ∀ line ∈ codes.flatten.head?, line.isData = false := by
  cases codes with
  | nil => exact nofun
  | cons code codes =>
    obtain ⟨line, rest, rfl, hline⟩ := h code List.mem_cons_self
    rintro found ⟨⟩
    exact hline

/-- The lines of a program are its data and its routines, all of which start with a line that is not
data. -/
theorem Program.exists_pieces_of_lower {program : Program} {listing : Listing}
    (h : program.lower = .ok listing) : ∃ data routines : List Code,
      listing.lines = .directive .intelSyntax :: (data ++ routines).flatten
        ∧ (∀ g ∈ program.globals, ∃ lines ∈ data, Lower.datum g = .ok lines)
        ∧ ∀ code ∈ data ++ routines, code.StartsApart := by
  obtain ⟨routines, hcode, hroutines⟩ := exists_routines_of_lower h
  rw [program.lower_eq] at h
  obtain ⟨frames, -, h⟩ := bind_eq_ok_iff.1 h
  obtain ⟨data, hdata, h⟩ := bind_eq_ok_iff.1 h
  obtain ⟨⟨code, last⟩, -, h⟩ := bind_eq_ok_iff.1 h
  obtain rfl := Except.ok.inj h
  have hdata := forall₂_of_mapM_eq_ok hdata
  refine ⟨data, routines, ?_, fun g hg => exists_right_of_forall₂ hdata hg, fun code hmem => ?_⟩
  · rw [List.flatten_append, ← hcode]
    rfl
  rcases List.mem_append.1 hmem with hmem | hmem
  · obtain ⟨g, -, hg⟩ := exists_left_of_forall₂ hdata hmem
    obtain ⟨inner, rfl, -⟩ := Lower.exists_parts_of_datum hg
    exact ⟨_, _, rfl, rfl⟩
  · obtain ⟨f, -, frame, -, hroutine⟩ := exists_left_of_forall₂ hroutines hmem
    obtain ⟨labels, last, arguments, body, -, -, rfl⟩ := hroutine.exists_parts
    exact ⟨_, _, rfl, rfl⟩

/-- **Behind the label of a global are the bytes that it starts with.** -/
theorem Program.Named.image_lower {program : Program} (hnamed : program.Named) {listing : Listing}
    (h : program.lower = .ok listing) {g : Variable} (hg : g ∈ program.globals)
    (address : String → Int64) : listing.image address g.name = g.image address := by
  obtain ⟨bodies, last, hbodies, -, hperm⟩ := Program.exists_bodies_of_lower h
  have hnodup : listing.lines.labels.Nodup := hperm.nodup_iff.2 (hnamed.nodup_labels hbodies)
  obtain ⟨data, routines, hlines, hdata, hpieces⟩ := Program.exists_pieces_of_lower h
  obtain ⟨lines, hmem, hdatum⟩ := hdata g hg
  obtain ⟨front, back, rfl⟩ := List.append_of_mem hmem
  obtain ⟨inner, rfl, hinner, himage⟩ := Lower.exists_parts_of_datum hdatum
  have hsplit : listing.lines = (.directive .intelSyntax :: front.flatten
      ++ [.directive .dataSection, .directive (.visible g.name)])
        ++ .label (.symbol g.name) :: (inner ++ (back ++ routines).flatten) := by
    rw [hlines]
    simp
  -- Labels are distinct, so the label of the global is not found any earlier.
  have hbefore : .label (.symbol g.name) ∉ (Line.directive .intelSyntax :: front.flatten
      ++ [.directive .dataSection, .directive (.visible g.name)]) := by
    rw [hsplit, Code.labels_append] at hnodup
    intro hfound
    exact (List.nodup_append.1 hnodup).2.2 _ (Code.mem_labels_iff.2 hfound) _
      (Code.mem_labels_iff.2 List.mem_cons_self) rfl
  -- Whatever comes next starts with a line that is not data, where the bytes of the global end.
  have hafter := Code.isData_head?_flatten fun code (hcode : code ∈ back ++ routines) =>
    hpieces code (by simp only [List.mem_append, List.mem_cons] at hcode ⊢; tauto)
  rw [Listing.image, hsplit, Code.dataOf_eq hbefore hinner hafter, himage]

/-! ### Tokens of a source -/

/-- The bytes that stand between the quotes of a string literal, with its escapes decoded. -/
def Token.decoded (token : Token) : List UInt8 := unescape token.text.toList.tail.dropLast

/-- The token is a string literal: it holds these bytes and a zero byte, and is an array of them. -/
def Token.IsLiteral (token : Token) : Prop :=
  token.kind = .string (some (token.decoded ++ [0]))
    (some (.array .char (token.decoded ++ [0]).length))

/-- A literal token of a source holds its decoded bytes and the zero byte that ends them. -/
theorem Source.isLiteral_of_tokenize {source : Source} {tokens : List Token}
    (h : source.tokenize = .ok tokens) {token : Token} (htoken : token ∈ tokens)
    {bytes : Option (List UInt8)} {ty : Option Ty} (hkind : token.kind = .string bytes ty) :
    token.IsLiteral := by
  obtain ⟨front, rfl, hshapes⟩ := exists_lexemes_of_tokenize h
  rcases List.mem_append.1 htoken with htoken | htoken
  · obtain ⟨shape, hshape⟩ := hshapes token htoken
    have hlexeme := hshape.kind
    rw [hkind] at hlexeme
    cases shape with
    | literal => exact hkind.trans (PieceKind.lexeme.inj hlexeme)
    | word =>
      have hword := PieceKind.lexeme.inj hlexeme
      unfold wordKind at hword
      split at hword <;> exact nomatch hword
    | _ => exact nomatch hlexeme
  · rw [List.mem_singleton.1 htoken] at hkind
    exact nomatch hkind

/-- A type that is written out has no negative size. -/
theorem PlainText.size_nonneg {text : List Token} {ty : Ty} (h : PlainText text ty) :
    0 ≤ ty.size := by
  cases h with
  | int _ => decide
  | char _ => decide
  | ptr _ _ => exact Int.le_of_lt (by decide : (0 : Int) < 8)

/-- A type of a source has a size that is not negative, since numbers are not. -/
theorem TypeText.size_nonneg {text : List Token} {ty : Ty} (h : TypeText text ty)
    (htokens : ∀ token ∈ text, token.Honest) : 0 ≤ ty.size := by
  induction h with
  | plain h => exact h.size_nonneg
  | @array first last len loc digits text elem _ _ _ ih =>
    have helem := ih fun token htoken => htokens token (by simp [htoken])
    have hlen : 0 ≤ len.toInt := htokens ⟨.number (some len), loc, digits⟩ (by simp)
    exact Int.mul_nonneg helem hlen

namespace Source.GlobalDeclaration

variable {source : Source} (declaration : source.GlobalDeclaration)

/-- A declaration is spelled by some of the tokens of the source. -/
theorem exists_subset : ∃ whole, whole ⊆ declaration.tokens
    ∧ GlobalsText whole declaration.names declaration.ty (declaration.inits.map (·.1)) := by
  obtain ⟨before, whole, after, htokens, hwhole⟩ := declaration.exists_text
  refine ⟨whole, fun token htoken => ?_, hwhole⟩
  rw [htokens]
  simp [htoken]

/-- The literals among its initial values are literals of the source. -/
theorem isLiteral {text : List Token} {node : Node} (h : (text, node) ∈ declaration.inits)
    {token : Token} (htext : LiteralText text token) : token.IsLiteral := by
  obtain ⟨bytes, ty, hkind⟩ := htext.exists_kind
  obtain ⟨whole, hwhole, hglobals⟩ := declaration.exists_subset
  have hmem : token ∈ whole := hglobals.subset text (List.mem_map_of_mem h) htext.mem
  exact isLiteral_of_tokenize declaration.tokenized (hwhole hmem) hkind

/-- No declared global has a negative size. -/
theorem size_nonneg (d : DeclaredName) : 0 ≤ (d.ty declaration.ty).size := by
  obtain ⟨whole, hwhole, hglobals⟩ := declaration.exists_subset
  obtain ⟨part, hpart, hty⟩ := hglobals.exists_type
  have htokens := (ends_tokenize source).of_eq_ok declaration.tokenized
  have hhonest : ∀ token ∈ part, token.Honest := fun token htoken =>
    (htokens token (hwhole (hpart htoken))).faithful.honest
  rw [DeclaredName.ty]
  cases d.stars with
  | zero => exact hty.size_nonneg hhonest
  | succ depth => exact Int.le_of_lt (by decide : (0 : Int) < 8)

end Source.GlobalDeclaration

/-! ### Images of globals -/

section Images

variable {globals : List Variable} {g : Variable} {init : Option (List Token × Node)}
  {token : Token}

/-- An integer or a pointer has at most the bytes of a word. -/
theorem Ty.size_le_word {ty : Ty} (h : (ty.isInteger || ty.isPointer) = true) :
    0 ≤ ty.size ∧ ty.size.toNat ≤ 8 := by
  cases ty with
  | char => decide
  | int => decide
  | ptr base => exact ⟨Int.le_of_lt (by decide : (0 : Int) < 8), Nat.le_refl 8⟩
  | _ => exact nomatch h

/-- A string literal with zero bytes behind it fills up what has room for its bytes. -/
theorem take_append_replicate {bytes : List UInt8} {count : Nat} (h : bytes.length ≤ count) :
    (bytes ++ [0]).take count ++ List.replicate (count - ((bytes ++ [0]).take count).length) 0
      = bytes ++ List.replicate (count - bytes.length) 0 := by
  rcases Nat.eq_or_lt_of_le h with rfl | hlt
  · simp
  · have hall : (bytes ++ [0]).take count = bytes ++ [0] :=
      List.take_of_length_le (by simpa using Nat.succ_le_of_lt hlt)
    have hcount : count - bytes.length = count - (bytes.length + 1) + 1 := by omega
    rw [hall, hcount, List.replicate_succ]
    simp

/-- The global of a string literal holds its bytes and a zero byte, and nothing else. -/
theorem Variable.Quotes.holds (h : g.Quotes token) (hkind : token.IsLiteral) :
    Symbol.isLiteral g.name = true ∧ g.ty.size = (token.decoded ++ [0]).length
      ∧ ∀ address, g.image address = token.decoded ++ [0] := by
  obtain ⟨number, bytes, ty, hfound, rfl⟩ := h
  obtain ⟨hbytes, hty⟩ := TokenKind.string.inj (hfound.symm.trans hkind)
  obtain rfl := Option.some.inj hbytes
  obtain rfl := Option.some.inj hty
  refine ⟨Symbol.isLiteral_ofLiteral number, Int.one_mul _, fun address => ?_⟩
  simp [Variable.image, Ty.size]

/-- A global has as many bytes as its type. -/
theorem Variable.Initialised.length_image (h : g.Initialised globals init) (hsize : 0 ≤ g.ty.size)
    (address : String → Int64) : ((g.image address).length : Int) = g.ty.size := by
  -- Contents that are bytes are no more than the global has, and the rest is filled up.
  have hfilled : ∀ bytes, g.contents = some (.bytes bytes) → bytes.length ≤ g.ty.size →
      ((g.image address).length : Int) = g.ty.size := by
    intro bytes hbytes hle
    rw [Variable.image_of_bytes hbytes, List.length_append, List.length_replicate]
    omega
  cases h with
  | zero h =>
    rw [Variable.image_of_none h, List.length_replicate, Int.toNat_of_nonneg hsize]
  | folded _ _ _ h =>
    refine hfilled _ h ?_
    rw [length_littleEndian, Int.toNat_of_nonneg hsize]
  | @copied _ _ _ bytes _ len _ _ hty _ h =>
    refine hfilled _ h ?_
    rw [hty, Ty.size, Ty.size, Int.one_mul] at hsize ⊢
    have htake : (bytes.take len.toNat).length ≤ len.toNat := List.length_take_le _ _
    omega
  | pointed _ _ hty _ h =>
    rw [Variable.image_of_address h, length_wordBytes, hty]
    rfl

end Images

/-- What the data of a declared global says, by its type and by its initial value. -/
structure Listing.Represents (listing : Listing) (globals : List Variable) (g : Variable)
    (init : Option (List Token × Node)) : Prop where
  /-- Without an initial value all bytes are zero. -/
  zero : init = none → ∀ address,
    listing.image address g.name = List.replicate g.ty.size.toNat 0
  /-- An integer or a pointer starts with the low bytes of the value of a constant. -/
  constant : ∀ text node, init = some (text, node) → (∀ token, ¬ LiteralText text token) →
    (g.ty.isInteger || g.ty.isPointer) = true ∧ ∃ value, fold node = .ok value ∧ ∀ address,
      listing.image address g.name = wordBytes value g.ty.size.toNat
  /-- An array of bytes starts with a string literal, and zero bytes behind it.  A pointer to bytes
  starts with the address of a global without a name, and that starts with a string literal. -/
  literal : ∀ text node token, init = some (text, node) → LiteralText text token →
    (∃ len : Int, g.ty = .array .char len ∧ token.decoded.length ≤ len ∧ ∀ address,
      listing.image address g.name
        = token.decoded ++ List.replicate (len.toNat - token.decoded.length) 0)
    ∨ g.ty = .ptr .char ∧ ∃ anonymous ∈ globals, Symbol.isLiteral anonymous.name = true
      ∧ (∀ address, listing.image address g.name = wordBytes (address anonymous.name) 8)
      ∧ ∀ address, listing.image address anonymous.name = token.decoded ++ [0]

/-- What a global holds by its initial value is what its data says. -/
theorem Variable.Initialised.represents {listing : Listing} {globals : List Variable} {g : Variable}
    {init : Option (List Token × Node)} (h : g.Initialised globals init)
    (hg : ∀ address, listing.image address g.name = g.image address)
    (hglobals : ∀ other ∈ globals, ∀ address,
      listing.image address other.name = other.image address)
    (hliteral : ∀ part ∈ init, ∀ token, LiteralText part.1 token → token.IsLiteral) :
    listing.Represents globals g init := by
  cases h with
  | zero h =>
    refine ⟨fun _ address => ?_, nofun, nofun⟩
    rw [hg, Variable.image_of_none h]
  | @folded text node value htext hty hfold h =>
    refine ⟨nofun, ?_, ?_⟩
    · rintro _ _ ⟨⟩ -
      refine ⟨hty, value, hfold, fun address => ?_⟩
      obtain ⟨hnonneg, hle⟩ := Ty.size_le_word hty
      rw [hg, Variable.image_of_bytes h, littleEndian_eq_wordBytes value hle, length_wordBytes,
        Int.toNat_of_nonneg hnonneg, Int.sub_self]
      exact List.append_nil _
    · rintro _ _ token ⟨⟩ hfound
      exact absurd hfound (htext token)
  | @copied text node token bytes ty len htext hkind hty hfits h =>
    refine ⟨nofun, ?_, ?_⟩
    · rintro _ _ ⟨⟩ hnone
      exact absurd htext (hnone token)
    · rintro _ _ found ⟨⟩ hfound
      obtain rfl := htext.unique hfound
      obtain ⟨hbytes, -⟩ := TokenKind.string.inj (hkind.symm.trans (hliteral _ rfl _ htext))
      obtain rfl := Option.some.inj hbytes
      rw [List.length_append, List.length_singleton, Int.natCast_add] at hfits
      have hroom : (token.decoded.length : Int) ≤ len := by omega
      refine .inl ⟨len, hty, hroom, fun address => ?_⟩
      -- The zero byte of the literal is dropped, or is the first of those that fill up the array.
      have hrest : ∀ count : Nat, (g.ty.size - count).toNat = len.toNat - count := by
        intro count
        rw [hty, Ty.size, Ty.size]
        omega
      rw [hg, Variable.image_of_bytes h, hrest, take_append_replicate (by omega)]
  | @pointed text node token bytes ty number htext hkind hty hmem h =>
    refine ⟨nofun, ?_, ?_⟩
    · rintro _ _ ⟨⟩ hnone
      exact absurd htext (hnone token)
    · rintro _ _ found ⟨⟩ hfound
      obtain rfl := htext.unique hfound
      refine .inr ⟨hty, _, hmem, Symbol.isLiteral_ofLiteral number, fun address => ?_,
        fun address => ?_⟩
      · rw [hg, Variable.image_of_address h]
      · rw [hglobals _ hmem]
        have hquotes : Variable.Quotes _ token := ⟨number, bytes, ty, hkind, rfl⟩
        exact (hquotes.holds (hliteral _ rfl _ htext)).2.2 address

/-! ### Sources -/

/-- The `i`-th name of the declaration is that of the global `g`, and the data of `g` is what the
`i`-th initial value says. -/
structure Source.GlobalDeclaration.Fills {source : Source} (declaration : source.GlobalDeclaration)
    (listing : Listing) (globals : List Variable) (i : Nat) (g : Variable) : Prop where
  named : ∃ d, declaration.names[i]? = some d ∧ g.name = d.name ∧ g.ty = d.ty declaration.ty
  represents : listing.Represents globals g declaration.inits[i]?

/-- The data of the assembly is the memory that the globals of the source start with. -/
structure Listing.IsImageOf (listing : Listing) (source : Source) (tokens : List Token)
    (program : Program) : Prop where
  /-- The lines behind the label of a global stand for as many bytes as it has. -/
  size : ∀ g ∈ program.globals, ∀ address, ((listing.image address g.name).length : Int) = g.ty.size
  /-- A global is that of a string literal, or of a declaration. -/
  origin : ∀ g ∈ program.globals,
    (∃ token ∈ tokens, token.IsLiteral ∧ Symbol.isLiteral g.name = true
      ∧ ∀ address, listing.image address g.name = token.decoded ++ [0])
    ∨ ∃ (declaration : source.GlobalDeclaration) (i : Nat),
      declaration.Fills listing program.globals i g
  /-- Every name of a declaration has its global. -/
  declared : ∀ (declaration : source.GlobalDeclaration) (i : Nat), i < declaration.names.length →
    ∃ g ∈ program.globals, declaration.Fills listing program.globals i g
  /-- Declarations are stretches of the source. -/
  written : ∀ declaration : source.GlobalDeclaration, ∃ before text after,
    tokens = before ++ text ++ after
      ∧ GlobalsText text declaration.names declaration.ty (declaration.inits.map (·.1))

theorem Source.GlobalDeclaration.Has.fills {source : Source}
    {declaration : source.GlobalDeclaration} {listing : Listing} {globals : List Variable}
    {i : Nat} {g : Variable} (h : declaration.Has globals i g) (hg : g ∈ globals)
    (himage : ∀ other ∈ globals, ∀ address,
      listing.image address other.name = other.image address) :
    declaration.Fills listing globals i g :=
  ⟨h.named, h.initialised.represents (himage g hg) himage fun _ hpart _ htext =>
    declaration.isLiteral (List.mem_of_getElem? hpart) htext⟩

/-- Each global is explained by the source, so its data is what the source says. -/
theorem Source.isImageOf {source : Source} {program : Program} (h : source.program = .ok program)
    {tokens : List Token} (htokens : source.tokenize = .ok tokens) {listing : Listing}
    (hlower : program.lower = .ok listing) : listing.IsImageOf source tokens program := by
  have himage : ∀ g ∈ program.globals, ∀ address, listing.image address g.name = g.image address :=
    fun g hg => (named_program h).image_lower hlower hg
  -- A global stands for a token of a string literal or for a name of a declaration.
  have hexplains : ∀ g ∈ program.globals, source.Explains tokens program.globals g := by
    obtain ⟨found, hfound, hparse⟩ := bind_eq_ok_iff.1 h
    obtain rfl := Except.ok.inj (hfound.symm.trans htokens)
    obtain ⟨t, hunits, -, rfl⟩ := parse_eq_ok_iff.1 hparse
    exact explains_units htokens hunits
  have hquotes : ∀ g : Variable, ∀ token ∈ tokens, g.Quotes token → token.IsLiteral := by
    rintro g token htoken ⟨number, bytes, ty, hkind, -⟩
    exact isLiteral_of_tokenize htokens htoken hkind
  refine ⟨fun g hg address => ?_, fun g hg => ?_, fun declaration i hi => ?_, fun declaration => ?_⟩
  · rw [himage g hg]
    rcases hexplains g hg with ⟨token, htoken, hquote⟩ | ⟨declaration, i, ⟨d, -, -, hty⟩, hinit⟩
    · obtain ⟨-, hsize, hbytes⟩ := hquote.holds (hquotes g token htoken hquote)
      rw [hsize, hbytes]
    · exact hinit.length_image (hty ▸ declaration.size_nonneg d) address
  · rcases hexplains g hg with ⟨token, htoken, hquote⟩ | ⟨declaration, i, hhas⟩
    · have hliteral := hquotes g token htoken hquote
      obtain ⟨hname, -, hbytes⟩ := hquote.holds hliteral
      exact .inl ⟨token, htoken, hliteral, hname, fun address =>
        (himage g hg address).trans (hbytes address)⟩
    · exact .inr ⟨declaration, i, hhas.fills hg himage⟩
  · obtain ⟨g, hg, hhas⟩ := declaration.exists_has h hi
    exact ⟨g, hg, hhas.fills hg himage⟩
  · obtain rfl := Except.ok.inj (htokens.symm.trans declaration.tokenized)
    exact declaration.exists_text

/-- **The data section is the exact memory image of the globals.**  The data of an accepted source
is the memory that its globals start with, and a string literal is refused as too long for an array
exactly when its bytes, without the zero byte behind them, are more than the array has. -/
theorem Source.data_image (source : Source) :
    (∀ program, source.program = .ok program → ∃ tokens listing, source.tokenize = .ok tokens
      ∧ source.compile = .ok listing ∧ listing.IsImageOf source tokens program)
    ∧ (∀ (declaration : source.GlobalDeclaration) (i : Nat) (d : DeclaredName) (w : ParseState)
      (text : List Token) (node : Node) (token : Token) (len : Int), declaration.ComesTo i d w →
      declaration.inits[i]? = some (text, node) → LiteralText text token →
      d.ty declaration.ty = .array .char len →
        (len < token.decoded.length →
          source.program = .error (.complaint token.loc .initializerTooLong))
        ∧ (token.decoded.length ≤ len → ∃ v, declaration.declaring (i + 1) = .ok ((), v)))
    ∧ Complaint.message .initializerTooLong = "initializer-string is too long" := by
  refine ⟨fun program h => ?_, ?_, rfl⟩
  · obtain ⟨listing, hlower⟩ := ((ends_program source).of_eq_ok h).exists_lower
    obtain ⟨tokens, htokens, -⟩ := bind_eq_ok_iff.1 h
    have hcompile : source.compile = .ok listing := bind_eq_ok_iff.2 ⟨_, h, by rw [hlower]; rfl⟩
    exact ⟨tokens, listing, htokens, hcompile, isImageOf h htokens hlower⟩
  · intro declaration i d w text node token len hcomes hinit htext hty
    have hliteral := declaration.isLiteral (List.mem_of_getElem? hinit) htext
    have hdeclaring := hcomes.declaring_literal hinit htext hliteral hty
    rw [List.length_append, List.length_singleton, Int.natCast_add] at hdeclaring
    constructor
    · intro hlong
      rw [if_pos (by omega)] at hdeclaring
      exact declaration.program_eq_error hdeclaring
    · intro hfits
      rw [if_neg (by omega)] at hdeclaring
      exact ⟨_, hdeclaring⟩

/-- Globals of every kind, with two literals that fill their arrays to different extents. -/
def Source.initialised : Source :=
  ⟨"initialised", "var a, *b int; var c char = 300; var s [5]char = \"ab\"; var t [2]char = \"xy\";"
    ++ " var p *char = \"hi\"; var q, r int = 1, 0 - 2;"⟩

/-- A literal with one byte more than its array has. -/
def Source.crammed : Source := ⟨"crammed", "var s [2]char = \"abc\";"⟩

/-- The literal of the array that is too small. -/
abbrev Token.abc : Token :=
  ⟨.string (some [97, 98, 99, 0]) (some (.array .char 4)), 16, "\"abc\""⟩

/-- The state in which the literal is read. -/
abbrev ParseState.beforeAbc : ParseState :=
  Source.crammed.start [.abc, ⟨.punctuator, 21, ";"⟩, ⟨.eof, 22, ""⟩]

/-- The literal is read as a reference to its own global. -/
theorem ParseState.yields_abc :
    (Rule.expr.step beforeAbc).Yields (.var ⟨16, none⟩ (.globalVar 0))
      (beforeAbc.advance.addLiteral [97, 98, 99, 0] (.array .char 4)) := by
  have hprimary : (Rule.primary.step beforeAbc).Yields (.var ⟨16, none⟩ (.globalVar 0))
    (beforeAbc.advance.addLiteral [97, 98, 99, 0] (.array .char 4)) := .done
  have hunary : (Rule.unary.step beforeAbc).Yields _ _ :=
    .call (.call hprimary (.call .done .done)) .done
  have hproduct : ((Rule.level .product).step beforeAbc).Yields _ _ :=
    .call hunary (.call .done .done)
  have hsum : ((Rule.level .sum).step beforeAbc).Yields _ _ := .call hproduct (.call .done .done)
  have hrelational : ((Rule.level .relational).step beforeAbc).Yields _ _ :=
    .call hsum (.call .done .done)
  have hequality : ((Rule.level .equality).step beforeAbc).Yields _ _ :=
    .call hrelational (.call .done .done)
  exact .call hequality .done

/-- The declaration of the array that is too small. -/
def Source.crammedDeclaration : Source.crammed.GlobalDeclaration where
  tokens := [⟨.keyword, 0, "var"⟩, ⟨.identifier, 4, "s"⟩, ⟨.punctuator, 6, "["⟩,
    ⟨.number (some 2), 7, "2"⟩, ⟨.punctuator, 8, "]"⟩, ⟨.keyword, 9, "char"⟩,
    ⟨.punctuator, 14, "="⟩, .abc, ⟨.punctuator, 21, ";"⟩, ⟨.eof, 22, ""⟩]
  start := _
  names := [⟨"s", 4, 0⟩]
  ty := .array .char 2
  inits := [([.abc], .var ⟨16, none⟩ (.globalVar 0))]
  behind := _
  tokenized := by decide +kernel
  reached := .refl
  read := .valued rfl (.call .done .done) (.call (.call .done .done) (.call .done .done)) rfl
    (.last ParseState.yields_abc rfl) rfl rfl

theorem Source.data_image_initialised :
    (∃ program tokens listing, Source.initialised.program = .ok program
      ∧ Source.initialised.tokenize = .ok tokens ∧ Source.initialised.compile = .ok listing
      ∧ ["a", "b", "c", "s", "t", "p", "q", "r"].map (listing.image fun _ => 4096)
        = [[0, 0, 0, 0, 0, 0, 0, 0], [0, 0, 0, 0, 0, 0, 0, 0], [44], [97, 98, 0, 0, 0], [120, 121],
          [0, 16, 0, 0, 0, 0, 0, 0], [1, 0, 0, 0, 0, 0, 0, 0],
          [254, 255, 255, 255, 255, 255, 255, 255]]
      ∧ listing.IsImageOf Source.initialised tokens program)
    ∧ Source.crammed.program = .error (.complaint 16 .initializerTooLong) := by
  constructor
  -- The images are computed here; whose they are is said by the theorem.
  · have hbytes : (Source.initialised.compile.toOption.map fun listing =>
        ["a", "b", "c", "s", "t", "p", "q", "r"].map (listing.image fun _ => 4096))
        = some [[0, 0, 0, 0, 0, 0, 0, 0], [0, 0, 0, 0, 0, 0, 0, 0], [44], [97, 98, 0, 0, 0],
          [120, 121], [0, 16, 0, 0, 0, 0, 0, 0], [1, 0, 0, 0, 0, 0, 0, 0],
          [254, 255, 255, 255, 255, 255, 255, 255]] := by decide +kernel
    obtain ⟨listing, hfound, hbytes⟩ := Option.map_eq_some_iff.1 hbytes
    have hlisting := eq_ok_of_toOption_eq_some hfound
    obtain ⟨program, hprogram, -⟩ := bind_eq_ok_iff.1 hlisting
    obtain ⟨tokens, found, htokens, hcompile, himage⟩ :=
      (Source.data_image Source.initialised).1 program hprogram
    obtain rfl := Except.ok.inj (hlisting.symm.trans hcompile)
    exact ⟨program, tokens, listing, hprogram, htokens, hlisting, hbytes, himage⟩
  · have hcomes : Source.crammedDeclaration.ComesTo 0 ⟨"s", 4, 0⟩
        Source.crammedDeclaration.behind := ⟨rfl, rfl, by decide, by decide⟩
    have hlong : (2 : Int) < Token.abc.decoded.length := by decide
    exact ((Source.data_image Source.crammed).2.1 _ 0 _ _ [.abc] _ .abc 2 hcomes rfl (.alone rfl)
      rfl).1 hlong

end PocketCompiler
