import Mathlib.Algebra.Group.End
import Mathlib.Data.Fintype.Sum
import PocketCompiler.Proofs.Appending
import PocketCompiler.Proofs.Grammar.Mentions

/-!
# Names of locals

`Source.renamed r` has other identifiers in the place of its identifiers.  The new text is cut where
the old one was cut (`Decomposition.renamed`), so it has the same tokens, but for their places and
names (`Source.tokenize_renamed`).

A renaming is only known on the identifiers of a source.  If it is injective there, it is part of a
permutation of all names (`exists_perm_of_injOn`), and the parser may be followed in the words of
that permutation.  Names that the assembly mentions have to stay.  Those that remain are names of
locals and parameters, and `Source.compile_renamed` says that the assembly does not depend on them.
-/

namespace PocketCompiler

/-! ### Renamed sources -/

/-- The characters of a piece, with those of another name in the place of an identifier. -/
def Piece.renamed (r : String → String) (piece : Piece) : List Char :=
  if piece.kind = .lexeme .identifier then (r (String.ofList piece.text)).toList else piece.text

/-- The source with other names in the place of its identifiers. -/
def Source.renamed (r : String → String) (source : Source) : Source :=
  match source.pieces with
  | .ok pieces => { source with text := String.ofList (pieces.flatMap (Piece.renamed r)) }
  | .error _ => source

/-- The token with another name, if it is an identifier. -/
def Token.renamed (r : String → String) (token : Token) : Token :=
  { token with text := if token.kind = .identifier then r token.text else token.text }

/-- The chunk with another name, if it is an identifier. -/
def Chunk.renamed (r : String → String) (chunk : Chunk) : Chunk :=
  { chunk with text := Piece.renamed r ⟨chunk.shape.kind chunk.text, 0, chunk.text⟩ }

/-- The chunk is an identifier. -/
def Chunk.IsIdentifier (chunk : Chunk) : Prop :=
  chunk.shape.kind chunk.text = .lexeme .identifier

section Lexer

variable {r : String → String} {text rest rest' piece : List Char} {chunk : Chunk}
  {chunks : List Chunk} {shape : Shape}

theorem Chunk.IsIdentifier.shape_eq (h : chunk.IsIdentifier) : chunk.shape = .word := by
  obtain ⟨shape, text⟩ := chunk
  cases shape with
  | word => rfl
  | _ => exact nomatch h

theorem Chunk.IsIdentifier.text_renamed (h : chunk.IsIdentifier) :
    (chunk.renamed r).text = (r (String.ofList chunk.text)).toList :=
  if_pos h

theorem Chunk.renamed_of_not_isIdentifier (h : ¬ chunk.IsIdentifier) : chunk.renamed r = chunk := by
  have htext : (chunk.renamed r).text = chunk.text := if_neg h
  obtain ⟨shape, text⟩ := chunk
  exact congrArg (Chunk.mk shape) htext

/-- The pieces that the lexer finds are renamed like the chunks. -/
theorem flatMap_placed (r : String → String) (loc : Nat) (chunks : List Chunk) :
    (placed loc chunks).flatMap (Piece.renamed r)
      = (chunks.map (Chunk.renamed r)).flatMap Chunk.text := by
  induction chunks generalizing loc with
  | nil => rfl
  | cons chunk chunks ih =>
    rw [placed, List.flatMap_cons, ih, List.map_cons, List.flatMap_cons]
    rfl

theorem Chunk.renamed_id (chunk : Chunk) : chunk.renamed id = chunk := by
  by_cases h : chunk.IsIdentifier
  · have htext : (chunk.renamed id).text = chunk.text :=
      h.text_renamed.trans String.toList_ofList
    obtain ⟨shape, text⟩ := chunk
    exact congrArg (Chunk.mk shape) htext
  · exact renamed_of_not_isIdentifier h

/-- A decomposition leaves nothing out. -/
theorem Decomposition.flatMap_text (h : Decomposition text chunks) :
    chunks.flatMap Chunk.text = text := by
  induction h with
  | nil => rfl
  | cons _ _ ih => rw [List.flatMap_cons, ih]

/-- A name that is a word and no keyword is cut out as an identifier. -/
theorem isIdentifier_word {name : String} (h : isIdentifier name = true) :
    Shape.word.Fits name.toList ∧ wordKind name.toList = .identifier := by
  simp only [isIdentifier, isWord, Bool.and_eq_true, Bool.not_eq_true'] at h
  obtain ⟨hword, hkeyword⟩ := h
  constructor
  · split at hword
    · cases hword
    · next c cs htext =>
      simp only [Bool.and_eq_true, List.all_eq_true] at hword
      exact ⟨c, cs, htext, hword⟩
  · rw [wordKind, String.ofList_toList, if_neg]
    simpa using hkeyword

/-! ### The same cuts -/

/-- The texts start with the same character, or both as words do. -/
def StartAlike (cs ds : List Char) : Prop :=
  ds.head? = cs.head?
    ∨ (∃ c ∈ cs.head?, isWordStart c = true) ∧ ∃ d ∈ ds.head?, isWordStart d = true

/-- A piece ends before a word, whichever word it is. -/
theorem Shape.EndsBefore.of_startAlike (h : shape.EndsBefore piece rest)
    (hstart : StartAlike rest rest') : shape.EndsBefore piece rest' := by
  rcases hstart with hsame | ⟨⟨c, hc, hword⟩, d, hd, hword'⟩
  · exact h.congr hsame
  · have hhead : rest'.head? = some d := hd
    have hne : ∀ e, isWordStart e = false → rest'.head? ≠ some e := by
      rintro e he heq
      rw [Option.some.inj (hhead.symm.trans heq), he] at hword'
      exact absurd hword' Bool.false_ne_true
    -- Line comments and words do not end before a word, and no word starts with a digit or `=`.
    cases shape with
    | blank | literal => trivial
    | comment =>
      intro hline
      obtain rfl := h hline c hc
      exact absurd hword (by decide)
    | number =>
      intro e he
      obtain rfl := Option.some.inj (hhead.symm.trans he)
      exact isDigit_of_isWordStart hword'
    | word =>
      have hpart : isWordPart c = false := h c hc
      rw [isWordPart, hword] at hpart
      exact absurd hpart.symm Bool.false_ne_true
    | punctuator =>
      exact ⟨fun _ => hne '=' (by decide), fun _ => ⟨hne '/' (by decide), hne '*' (by decide)⟩⟩

/-- A word ends where another word in its place ends. -/
theorem Chunk.found_renamed (h : chunk.shape.Found chunk.text rest)
    (hname : chunk.IsIdentifier → isIdentifier (r (String.ofList chunk.text)) = true)
    (hstart : StartAlike rest rest') :
    (chunk.renamed r).shape.Found (chunk.renamed r).text rest' := by
  by_cases hchunk : chunk.IsIdentifier
  · have hword := hchunk.shape_eq
    have hends : chunk.shape.EndsBefore chunk.text rest' := h.ends.of_startAlike hstart
    rw [hword] at hends
    show chunk.shape.Found _ _
    rw [hchunk.text_renamed, hword]
    exact ⟨(isIdentifier_word (hname hchunk)).1, hends⟩
  · rw [renamed_of_not_isIdentifier hchunk]
    exact ⟨h.fits, h.ends.of_startAlike hstart⟩

theorem Chunk.startAlike_renamed (h : chunk.shape.Fits chunk.text)
    (hname : chunk.IsIdentifier → isIdentifier (r (String.ofList chunk.text)) = true)
    (rest rest' : List Char) :
    StartAlike (chunk.text ++ rest) ((chunk.renamed r).text ++ rest') := by
  by_cases hchunk : chunk.IsIdentifier
  · rw [hchunk.text_renamed]
    rw [hchunk.shape_eq] at h
    obtain ⟨c, cs, hcs, hc, -⟩ := h
    obtain ⟨d, ds, hds, hd, -⟩ := (isIdentifier_word (hname hchunk)).1
    rw [hds, hcs]
    exact .inr ⟨⟨c, rfl, hc⟩, d, rfl, hd⟩
  · rw [renamed_of_not_isIdentifier hchunk]
    obtain ⟨c, cs, hcs⟩ := List.exists_cons_of_ne_nil h.ne_nil
    rw [hcs]
    exact .inl rfl

/-- **The renamed text is cut where the text was cut.** -/
theorem Decomposition.renamed (h : Decomposition text chunks)
    (hnames : ∀ chunk ∈ chunks, chunk.IsIdentifier →
      isIdentifier (r (String.ofList chunk.text)) = true) :
    Decomposition ((chunks.map (Chunk.renamed r)).flatMap Chunk.text) (chunks.map (Chunk.renamed r))
      ∧ StartAlike text ((chunks.map (Chunk.renamed r)).flatMap Chunk.text) := by
  induction h with
  | nil => exact ⟨.nil, .inl rfl⟩
  | @cons shape piece rest chunks hpiece _ ih =>
    obtain ⟨hname, hmore⟩ := List.forall_mem_cons.1 hnames
    obtain ⟨hrest, hstart⟩ := ih hmore
    rw [List.map_cons, List.flatMap_cons]
    refine ⟨.cons (Chunk.found_renamed hpiece hname hstart) hrest, ?_⟩
    exact Chunk.startAlike_renamed hpiece.fits hname _ _

/-! ### The same tokens -/

/-- A chunk that is renamed gives a token that is renamed. -/
theorem Chunk.content_renamed (loc loc' : Nat)
    (hname : chunk.IsIdentifier → isIdentifier (r (String.ofList chunk.text)) = true) :
    (Piece.token? ⟨(chunk.renamed r).shape.kind (chunk.renamed r).text, loc,
        (chunk.renamed r).text⟩).map Token.content
      = (Piece.token? ⟨chunk.shape.kind chunk.text, loc', chunk.text⟩).map
          fun token => (token.renamed r).content := by
  by_cases hchunk : chunk.IsIdentifier
  · have hkind : (chunk.renamed r).shape.kind (chunk.renamed r).text = .lexeme .identifier := by
      show chunk.shape.kind _ = _
      rw [hchunk.text_renamed, hchunk.shape_eq, Shape.kind, (isIdentifier_word (hname hchunk)).2]
    have hkind' : chunk.shape.kind chunk.text = .lexeme .identifier := hchunk
    rw [hkind, hkind', hchunk.text_renamed]
    simp [Piece.token?, Token.content, Token.renamed]
  · rw [renamed_of_not_isIdentifier hchunk]
    have hkind : chunk.shape.kind chunk.text ≠ .lexeme .identifier := hchunk
    cases hfound : chunk.shape.kind chunk.text with
    | blank | comment => rfl
    | lexeme kind =>
      have hother : kind ≠ .identifier := fun heq => hkind (heq ▸ hfound)
      simp [Piece.token?, Token.content, Token.renamed, hother]

theorem content_lexemes_renamed (loc loc' : Nat)
    (hnames : ∀ chunk ∈ chunks, chunk.IsIdentifier →
      isIdentifier (r (String.ofList chunk.text)) = true) :
    (lexemes loc (chunks.map (Chunk.renamed r))).map Token.content
      = (lexemes loc' chunks).map fun token => (token.renamed r).content := by
  induction chunks generalizing loc loc' with
  | nil => rfl
  | cons chunk chunks ih =>
    obtain ⟨hname, hmore⟩ := List.forall_mem_cons.1 hnames
    rw [List.map_cons, lexemes_cons, lexemes_cons, List.map_append, List.map_append,
      ← Option.toList_map, ← Option.toList_map, Chunk.content_renamed loc loc' hname, ih _ _ hmore]

/-- The identifiers that the text is cut into are those of its tokens. -/
theorem Chunk.IsIdentifier.mem_identifiers (h : chunk.IsIdentifier) (hmem : chunk ∈ chunks)
    (loc : Nat) : String.ofList chunk.text ∈ identifiers (lexemes loc chunks) := by
  have hplaced : ∃ found, ⟨.lexeme .identifier, found, chunk.text⟩ ∈ placed loc chunks := by
    induction chunks generalizing loc with
    | nil => exact absurd hmem List.not_mem_nil
    | cons first chunks ih =>
      rw [placed]
      rcases List.mem_cons.1 hmem with rfl | hmem
      · have hkind : chunk.shape.kind chunk.text = .lexeme .identifier := h
        exact ⟨loc, hkind ▸ List.mem_cons_self⟩
      · obtain ⟨found, hfound⟩ := ih hmem (loc + byteLength first.text)
        exact ⟨found, List.mem_cons_of_mem _ hfound⟩
  obtain ⟨found, hfound⟩ := hplaced
  have htoken : ⟨.identifier, found, String.ofList chunk.text⟩ ∈ lexemes loc chunks :=
    List.mem_filterMap.2 ⟨_, hfound, rfl⟩
  exact PocketCompiler.mem_identifiers.2 ⟨_, htoken, rfl, rfl⟩

end Lexer

section Tokens

variable {source : Source} {tokens : List Token} {r : String → String}

/-- **The renamed source has the tokens of the source, renamed**, at other places. -/
theorem Source.tokenize_renamed (htokens : source.tokenize = .ok tokens)
    (hnames : ∀ name ∈ identifiers tokens, isIdentifier (r name) = true) :
    ∃ tokens', (source.renamed r).tokenize = .ok tokens'
      ∧ tokens'.map Token.content = tokens.map fun token => (token.renamed r).content := by
  obtain ⟨chunks, hchunks, rfl⟩ := exists_decomposition_of_tokenize htokens
  -- The lexer finds blanks one at a time, so its pieces are those of the divided decomposition.
  have hpieces := hchunks.piecesFrom_divided 0
  have hdivided := hchunks.divided
  rw [← lexemes_divided] at hnames ⊢
  generalize divided chunks = chunks at hpieces hdivided hnames
  have htext : (source.renamed r).text.toList
      = (chunks.map (Chunk.renamed r)).flatMap Chunk.text := by
    rw [renamed, pieces, hpieces, ← flatMap_placed r 0]
    exact String.toList_ofList
  have hchunkNames : ∀ chunk ∈ chunks, chunk.IsIdentifier →
      isIdentifier (r (String.ofList chunk.text)) = true := by
    intro chunk hchunk hidentifier
    refine hnames _ ?_
    obtain ⟨token, htoken, hname⟩ := mem_identifiers.1 (hidentifier.mem_identifiers hchunk 0)
    exact mem_identifiers.2 ⟨token, List.mem_append_left _ htoken, hname⟩
  have hrenamed := (hdivided.renamed hchunkNames).1
  rw [← htext] at hrenamed
  refine ⟨_, hrenamed.tokenize, ?_⟩
  rw [List.map_append, List.map_append, content_lexemes_renamed 0 0 hchunkNames]
  rfl

/-- A renaming that renames nothing leaves the source as it is. -/
theorem Source.renamed_id (source : Source) : source.renamed id = source := by
  unfold renamed
  split
  · next found hpieces =>
    obtain ⟨chunks, hchunks⟩ := Decomposition.exists_of_piecesFrom _ (Nat.le_refl _) hpieces
    rw [pieces, hchunks.piecesFrom_divided 0] at hpieces
    obtain rfl := Except.ok.inj hpieces
    rw [flatMap_placed, List.map_congr_left fun chunk _ => chunk.renamed_id, List.map_id',
      hchunks.divided.flatMap_text, String.ofList_toList]
  · rfl

end Tokens

/-! ### Renamings and permutations -/

/-- **An injective renaming is part of a permutation**, which leaves alone what is neither renamed
nor a new name. -/
theorem exists_perm_of_injOn {α : Type} [DecidableEq α] {r : α → α} {s : Finset α}
    (hr : Set.InjOn r s) :
    ∃ π : Equiv.Perm α, (∀ a ∈ s, π a = r a) ∧ ∀ a, a ∉ s ∪ s.image r → π a = a := by
  have hinto : Set.MapsTo (fun a : ↥(s ∪ s.image r) => r a) {a | a.1 ∈ s} ↑(s ∪ s.image r) :=
    fun a ha => Finset.mem_union_right _ (Finset.mem_image_of_mem r ha)
  have hinj : Set.InjOn (fun a : ↥(s ∪ s.image r) => r a) {a | a.1 ∈ s} :=
    fun a ha b hb hab => Subtype.ext (hr ha hb hab)
  obtain ⟨g, hg⟩ := hinto.exists_equiv_extend_of_card_eq (Fintype.card_coe _) hinj
  refine ⟨Equiv.Perm.ofSubtype g, fun a ha => ?_, fun a ha => ?_⟩
  · have hmem : a ∈ s ∪ s.image r := Finset.mem_union_left _ ha
    exact (Equiv.Perm.ofSubtype_apply_of_mem g hmem).trans (hg ⟨a, hmem⟩ ha)
  · exact Equiv.Perm.ofSubtype_apply_of_not_mem g ha

section Programs

variable {source : Source} {tokens : List Token} {program : Program} {listing : Listing}
  {r : String → String}

/-- The renaming on all names: labels of string literals are no identifiers, so they stay. -/
theorem exists_perm_of_identifiers
    (hnames : ∀ name ∈ identifiers tokens, isIdentifier name = true ∧ isIdentifier (r name) = true)
    (hr : Set.InjOn r {name | name ∈ identifiers tokens}) :
    ∃ π : Equiv.Perm String, (∀ name ∈ identifiers tokens, π name = r name)
      ∧ ∀ number, π (Symbol.ofLiteral number) = Symbol.ofLiteral number := by
  have hfinite : Set.InjOn r ↑(identifiers tokens).toFinset := by
    rwa [List.coe_toFinset]
  obtain ⟨π, hextends, hrest⟩ := exists_perm_of_injOn hfinite
  refine ⟨π, fun name hname => hextends name (List.mem_toFinset.2 hname), fun number => ?_⟩
  refine hrest _ fun hmem => ?_
  have hlabel := isIdentifier_ofLiteral number
  rcases Finset.mem_union.1 hmem with hold | hnew
  · rw [(hnames _ (List.mem_toFinset.1 hold)).1] at hlabel
    exact nomatch hlabel
  · obtain ⟨name, hname, heq⟩ := Finset.mem_image.1 hnew
    rw [← heq, (hnames name (List.mem_toFinset.1 hname)).2] at hlabel
    exact nomatch hlabel

/-- The renamed tokens are the tokens in other words. -/
theorem exists_rewording {tokens' : List Token} (hsorted : tokens.Pairwise (·.loc < ·.loc))
    (hcontent : tokens'.map Token.content = tokens.map fun token => (token.renamed r).content)
    {π : Equiv.Perm String} (hπ : ∀ name ∈ identifiers tokens, π name = r name) (stop : Nat) :
    ∃ w : Rewording, w.name = π ∧ w.stop = stop ∧ tokens' = tokens.map w.token := by
  have hrenamed : ∀ token ∈ tokens, token.renamed r = token.renamed π := by
    intro token htoken
    by_cases hkind : token.kind = .identifier
    · have hname := hπ token.text (mem_identifiers.2 ⟨token, htoken, hkind, rfl⟩)
      simp only [Token.renamed, if_pos hkind, hname]
    · simp only [Token.renamed, if_neg hkind]
  have hcontent' : tokens'.map Token.content
      = (tokens.map (Token.renamed π)).map Token.content := by
    rw [hcontent, List.map_map]
    exact List.map_congr_left fun token htoken => congrArg Token.content (hrenamed token htoken)
  have hsorted' : (tokens.map (Token.renamed π)).Pairwise (·.loc < ·.loc) :=
    List.pairwise_map.2 hsorted
  obtain ⟨place, hplace⟩ := exists_place hsorted' hcontent'
  refine ⟨⟨place, π, π.injective, stop⟩, rfl, rfl, ?_⟩
  rw [hplace, List.map_map]
  rfl

theorem Source.isIdentifier_of_mem (htokens : source.tokenize = .ok tokens) :
    ∀ name ∈ identifiers tokens, isIdentifier name = true := by
  intro name hname
  obtain ⟨token, htoken, hkind, rfl⟩ := mem_identifiers.1 hname
  exact isIdentifier_of_tokenize htokens token htoken hkind

/-- Other words fit, if they leave the identifiers that the program mentions. -/
theorem Rewording.fits_of_mentioned {w : Rewording} (htokens : source.tokenize = .ok tokens)
    (hparse : parse source tokens = .ok program)
    (h : ∀ name ∈ identifiers tokens, name ∈ program.mentioned → w.name name = name) :
    w.Fits (source.start tokens) := by
  refine ⟨Source.exists_eof htokens, fun name hcalled => ?_⟩
  exact h name (calledNames_subset_identifiers tokens hcalled)
    (Source.calledNames_subset htokens hparse hcalled)

/-- **Names of locals do not reach the assembly.**  Give the identifiers of a source other names, no
two of them the same and none a keyword, and leave the names of globals, of functions and of what is
called.  Then the renamed source compiles, and to the same assembly. -/
theorem Source.compile_renamed (htokens : source.tokenize = .ok tokens)
    (hprogram : source.program = .ok program) (hcompile : source.compile = .ok listing)
    (hinjective : Set.InjOn r {name | name ∈ identifiers tokens})
    (hidentifiers : ∀ name ∈ identifiers tokens, isIdentifier (r name) = true)
    (hfixed : ∀ name ∈ identifiers tokens, name ∈ program.mentioned → r name = name) :
    (∃ tokens', (source.renamed r).tokenize = .ok tokens'
        ∧ tokens'.map Token.content = tokens.map fun token => (token.renamed r).content)
      ∧ (source.renamed r).compile = .ok listing := by
  have hparse : parse source tokens = .ok program := by
    rwa [Source.program, htokens] at hprogram
  obtain ⟨tokens', htokens', hcontent⟩ := tokenize_renamed htokens hidentifiers
  refine ⟨⟨tokens', htokens', hcontent⟩, ?_⟩
  obtain ⟨π, hextends, hliteral⟩ := exists_perm_of_identifiers
    (fun name hname => ⟨isIdentifier_of_mem htokens name hname, hidentifiers name hname⟩) hinjective
  obtain ⟨w, hname, hstop, rfl⟩ := exists_rewording (pairwise_tokenize htokens) hcontent hextends
    (source.renamed r).byteSize
  have hkeeps : ∀ name ∈ identifiers tokens, name ∈ program.mentioned → w.name name = name := by
    intro name hoccurs hmentioned
    rw [hname, hextends name hoccurs, hfixed name hoccurs hmentioned]
  have hfits := Rewording.fits_of_mentioned htokens hparse hkeeps
  have hglobals : ∀ v ∈ program.globals, w.name v.name = v.name := by
    -- A global has its name from the source, or is a literal with a label that is no identifier.
    intro v hv
    rcases mem_identifiers_of_parse hparse v hv with hoccurs | ⟨number, hlabel⟩
    · have hdeclared : v.name ∈ program.names := List.mem_append_left _ (List.mem_map_of_mem hv)
      exact hkeeps v.name hoccurs (List.mem_append_left _ hdeclared)
    · rw [hlabel, hname, hliteral]
  have hparse' := parse_reworded hstop.symm hfits hglobals hparse
  rw [compile_of_parse htokens' hparse', Rewording.lower_program, ← compile_of_parse htokens hparse,
    hcompile]

end Programs

/-- A parameter, a local, and a local of an inner block that has the name of the parameter.  The
name stands in a literal and in a comment, too. -/
def Source.shadowing : Source :=
  ⟨"shadowing", "var sum int; func f(n int) int \x7b var m int=n; \x7b var n int=1; sum=m+n; \x7d "
    ++ "return put(\"n\", m); \x7d // n"⟩

/-- The parameter and the locals get the names of registers. -/
def registerNames (name : String) : String :=
  if name = "n" then "rax" else if name = "m" then "rsp" else name

theorem Source.compile_renamed_registers :
    (Source.shadowing.renamed registerNames).text
        = "var sum int; func f(rax int) int \x7b var rsp int=rax; \x7b var rax int=1; sum=rsp+rax; "
          ++ "\x7d return put(\"n\", rsp); \x7d // n"
      ∧ ∃ listing, Source.shadowing.compile = .ok listing
        ∧ (Source.shadowing.renamed registerNames).compile = .ok listing := by
  have hread : (Source.shadowing.tokenize.toOption.map fun tokens =>
      (identifiers tokens, (parse Source.shadowing tokens).toOption.map fun program =>
        (program.mentioned, program.lower.toOption.isSome)))
      = some (["sum", "f", "n", "m", "n", "n", "sum", "m", "n", "put", "m"],
        some (["sum", ".L..0", "f", "put"], true)) := by decide +kernel
  obtain ⟨tokens, htokens, hread⟩ := Option.map_eq_some_iff.1 hread
  obtain ⟨hnames, hread⟩ := Prod.mk.inj hread
  obtain ⟨program, hparse, hread⟩ := Option.map_eq_some_iff.1 hread
  obtain ⟨hmentioned, hlowers⟩ := Prod.mk.inj hread
  obtain ⟨listing, hlower⟩ := Option.isSome_iff_exists.1 hlowers
  have htokens := eq_ok_of_toOption_eq_some htokens
  have hparse := eq_ok_of_toOption_eq_some hparse
  have hprogram : Source.shadowing.program = .ok program := by
    rw [Source.program, htokens]
    exact hparse
  have hok : Source.shadowing.compile = .ok listing := by
    rw [Source.compile_of_parse htokens hparse, eq_ok_of_toOption_eq_some hlower]
    rfl
  refine ⟨by decide +kernel, listing, hok, ?_⟩
  -- The new names are distinct, they are identifiers, and those that are mentioned stay.
  refine (Source.compile_renamed htokens hprogram hok ?_ ?_ ?_).2
  · rw [hnames]
    have hdistinct : ∀ a ∈ ["sum", "f", "n", "m", "n", "n", "sum", "m", "n", "put", "m"],
        ∀ b ∈ ["sum", "f", "n", "m", "n", "n", "sum", "m", "n", "put", "m"],
          registerNames a = registerNames b → a = b := by decide
    exact fun a ha b hb hab => hdistinct a ha b hb hab
  · rw [hnames]
    decide
  · rw [hnames, hmentioned]
    decide

end PocketCompiler
