import PocketCompiler.Proofs.Grammar.Closing
import PocketCompiler.Proofs.Layout
import PocketCompiler.Proofs.Lower.Weakening
import PocketCompiler.Proofs.Symbols

/-!
# Appending declarations

A source to which a line is appended goes through the compiler as it did before, up to where the
line starts.

* `Decomposition.append`: a newline is no part of the lexeme before it, so the lexer cuts there.
* `Source.starts_of_append`: declarations close themselves, so the parser goes on behind the last
  one as if nothing had been read but the tables.
* `Source.compile_append`: the assembly gets more data behind its data and more code behind its
  code.
-/

namespace PocketCompiler

/-! ### The lexer cuts at a newline -/

variable {text more : List Char} {chunks chunks' : List Chunk}

namespace Shape

variable {shape : Shape} {piece rest : List Char}

/-- Only the next character can make a piece longer. -/
theorem EndsBefore.congr {other : List Char} (h : shape.EndsBefore piece rest)
    (hhead : other.head? = rest.head?) : shape.EndsBefore piece other := by
  cases shape with
  | blank | literal => trivial
  | comment | number | word | punctuator => simpa only [EndsBefore, hhead] using h

/-- A piece is found also if a newline is the first that comes behind the text. -/
theorem Found.append_newline (h : shape.Found piece rest) (more : List Char) :
    shape.Found piece (rest ++ '\n' :: more) := by
  refine ⟨h.fits, ?_⟩
  cases rest with
  | cons c rest => exact h.ends.congr rfl
  | nil =>
    by_cases hshape : shape = .comment
    · subst hshape
      intro _ c hc
      exact (Option.some.inj hc).symm
    · refine endsBefore_of_isBlank hshape fun c hc => ?_
      obtain rfl : '\n' = c := Option.some.inj hc
      rfl

end Shape

/-- **A decomposition of a text goes on with one of what comes behind a newline.** -/
theorem Decomposition.append (h : Decomposition text chunks)
    (hmore : Decomposition ('\n' :: more) chunks') :
    Decomposition (text ++ '\n' :: more) (chunks ++ chunks') := by
  induction h with
  | nil => exact hmore
  | @cons shape piece rest chunks hpiece _ ih =>
    rw [List.append_assoc, List.cons_append]
    exact .cons (hpiece.append_newline more) ih

/-- If the lexer accepts the whole, it accepts what comes behind the newline. -/
theorem Decomposition.exists_of_append (h : Decomposition text chunks)
    (hsingle : ∀ chunk ∈ chunks, chunk.shape = .blank → chunk.text.length = 1) {loc : Nat}
    {pieces : List Piece}
    (hall : PocketCompiler.piecesFrom 0 loc (text ++ '\n' :: more) = .ok pieces) :
    ∃ behind, Decomposition ('\n' :: more) behind := by
  induction h generalizing loc pieces with
  | nil => exact exists_of_piecesFrom _ (Nat.le_refl _) hall
  | @cons shape piece rest chunks hpiece _ ih =>
    obtain ⟨hfirst, hlater⟩ := List.forall_mem_cons.1 hsingle
    obtain ⟨c, cs, rfl⟩ := List.exists_cons_of_ne_nil hpiece.fits.ne_nil
    have hscan := (hpiece.append_newline more).scan fun hblank => by simpa using hfirst hblank
    rw [List.append_assoc, piecesFrom_append hscan] at hall
    obtain ⟨rest, hrest, -⟩ := bind_eq_ok_iff.1 hall
    exact ih hlater hrest

theorem exists_lexemes_append (loc : Nat) (chunks chunks' : List Chunk) :
    ∃ behind, lexemes loc (chunks ++ chunks') = lexemes loc chunks ++ lexemes behind chunks' := by
  induction chunks generalizing loc with
  | nil => exact ⟨loc, rfl⟩
  | cons chunk chunks ih =>
    obtain ⟨behind, heq⟩ := ih (loc + byteLength chunk.text)
    refine ⟨behind, ?_⟩
    rw [List.cons_append, lexemes_cons, lexemes_cons, heq, List.append_assoc]

/-- **The tokens of a source stay when a line is appended**, but for its end. -/
theorem Source.tokenize_append {source longer : Source} {more : String} {front tokens : List Token}
    (htext : longer.text = source.text ++ "\n" ++ more)
    (htokens : source.tokenize = .ok (front ++ [Token.atEnd source]))
    (hlonger : longer.tokenize = .ok tokens) : ∃ behind, tokens = front ++ behind := by
  have hlist : longer.text.toList = source.text.toList ++ '\n' :: more.toList := by
    rw [htext, String.toList_append, String.toList_append, List.append_assoc]
    rfl
  obtain ⟨chunks, hchunks, hfront⟩ := exists_decomposition_of_tokenize htokens
  obtain rfl : front = lexemes 0 chunks := List.append_cancel_right hfront
  obtain ⟨pieces, hpieces, -⟩ := bind_eq_ok_iff.1 hlonger
  rw [Source.pieces, hlist] at hpieces
  obtain ⟨behind, hbehind⟩ :=
    hchunks.divided.exists_of_append (fun _ => Decomposition.length_of_mem_divided) hpieces
  have hall := hchunks.append hbehind
  rw [← hlist] at hall
  obtain ⟨loc, hlexemes⟩ := exists_lexemes_append 0 chunks behind
  refine ⟨lexemes loc behind ++ [Token.atEnd longer], ?_⟩
  rw [Except.ok.inj (hlonger.symm.trans hall.tokenize), hlexemes, List.append_assoc]

/-! ### The parser goes on behind the last declaration -/

/-- A rewording that leaves everything where it is. -/
theorem Rewording.program_move_id (stop : Nat) (program : Program) :
    (move id stop).program program = program := by
  have hfunction : (move id stop).function = id := by
    funext f
    have hlocals : f.locals.map (move id stop).localVar = f.locals := List.map_id _
    rw [Rewording.function, hlocals]
    show ({ f with body := f.body.moved id } : Function) = f
    rw [Node.moved_id]
  rw [Rewording.program, hfunction, List.map_id]

/-- Tokens that say where the source ends make up the same program in every source. -/
theorem parse_of_mem_eof {source other : Source} {tokens : List Token} {program : Program}
    (hend : ∃ token ∈ tokens, token.kind = .eof) (h : parse source tokens = .ok program) :
    parse other tokens = .ok program := by
  let w := Rewording.move id other.byteSize
  have htokens : tokens.map w.token = tokens := by
    rw [show w.token = id from funext (Rewording.token_move id other.byteSize), List.map_id]
  have hother : parse other (tokens.map w.token) = .ok (w.program program) := by
    rw [parse_moved hend, h]
    rfl
  rwa [htokens, Rewording.program_move_id] at hother

/-- **Declarations stay when a line is appended**, with all that they declare. -/
theorem Source.starts_of_append {source longer : Source} {more : String}
    {program program' : Program} (htext : longer.text = source.text ++ "\n" ++ more)
    (h : source.program = .ok program) (h' : longer.program = .ok program') :
    program.Starts program' := by
  obtain ⟨tokens, htokens, hparse⟩ := bind_eq_ok_iff.1 h
  obtain ⟨tokens', htokens', hparse'⟩ := bind_eq_ok_iff.1 h'
  obtain ⟨front, rfl, hshapes⟩ := exists_lexemes_of_tokenize htokens
  obtain ⟨behind, rfl⟩ := tokenize_append htext htokens htokens'
  -- The declarations of the source alone, but read from the state in which the longer one starts.
  have halone : parse longer (front ++ [Token.atEnd source]) = .ok program :=
    parse_of_mem_eof (exists_eof htokens) hparse
  obtain ⟨t, hunits, ht, rfl⟩ := parse_eq_ok_iff.1 halone
  obtain ⟨u, hunits', hu, rfl⟩ := parse_eq_ok_iff.1 hparse'
  obtain ⟨w, hw, hmore⟩ := hunits.exists_front
  obtain ⟨w', hw', hword, -⟩ := hunits.exists_word
  obtain rfl : w = w' := List.append_cancel_right (hw.symm.trans hw')
  obtain rfl := ParseState.eq_lexemes_of_atEnd hshapes ht hw hword
  have hbefore := ((hmore behind).of_atEnd hunits' hu).before
  exact ⟨hbefore.globals, hbefore.functions⟩

/-! ### The assembly -/

theorem Code.text_append (first second : Code) :
    Code.text (first ++ second) = Code.text first ++ Code.text second := by
  simp [Code.text]

/-- The first line of the assembly, then the data, then the code. -/
theorem Listing.text_eq (listing : Listing) :
    listing.text
      = ".intel_syntax noprefix\n" ++ Code.text listing.data ++ Code.text listing.code := by
  have hheader : Code.text [.directive .intelSyntax] = ".intel_syntax noprefix\n" := by
    decide +kernel
  have hlines : listing.lines = [.directive .intelSyntax] ++ listing.data ++ listing.code := rfl
  rw [Listing.text, hlines, Code.text_append, Code.text_append, hheader]

/-- **Appended declarations change nothing before them.**  If a source and the source with a line
appended both compile, then the globals and functions of the first are those that the second starts
with, and the second assembly is the first one with more data behind its data and more code behind
its code. -/
theorem Source.compile_append {source longer : Source} {more : String} {listing listing' : Listing}
    (htext : longer.text = source.text ++ "\n" ++ more) (h : source.compile = .ok listing)
    (h' : longer.compile = .ok listing') :
    ∃ program program' data code, source.program = .ok program ∧ longer.program = .ok program'
      ∧ program.globals <+: program'.globals ∧ program.functions <+: program'.functions
      ∧ listing'.data = listing.data ++ data ∧ listing'.code = listing.code ++ code
      ∧ listing.text
        = ".intel_syntax noprefix\n" ++ Code.text listing.data ++ Code.text listing.code
      ∧ listing'.text = ".intel_syntax noprefix\n" ++ Code.text listing.data ++ Code.text data
        ++ Code.text listing.code ++ Code.text code := by
  obtain ⟨program, hprogram, hlower⟩ := bind_eq_ok_iff.1 h
  obtain ⟨program', hprogram', hlower'⟩ := bind_eq_ok_iff.1 h'
  have hstarts := starts_of_append htext hprogram hprogram'
  obtain ⟨⟨data, hdata⟩, ⟨code, hcode⟩⟩ :=
    hstarts.lower (eq_ok_of_orFault hlower) (eq_ok_of_orFault hlower')
  refine ⟨program, program', data, code, hprogram, hprogram', hstarts.globals, hstarts.functions,
    hdata.symm, hcode.symm, listing.text_eq, ?_⟩
  rw [listing'.text_eq, ← hdata, ← hcode, Code.text_append, Code.text_append]
  simp only [String.append_assoc]

/-- A global, a literal and a conditional, and a comment that only a newline ends. -/
def Source.opening : Source :=
  ⟨"opening", "var x int = 1; func f(p *char) int \x7b if p return x; return f(\"a\"); \x7d // end"⟩

/-- The same with another global, another literal and another conditional. -/
def Source.continued : Source :=
  ⟨"continued", Source.opening.text ++ "\n"
    ++ "var y *char = \"b\"; func g() int \x7b if y return f(y); return x; \x7d"⟩

theorem Source.compile_append_continued :
    ∃ listing listing' data code, Source.opening.compile = .ok listing
      ∧ Source.continued.compile = .ok listing'
      ∧ listing.lines.labels.map Label.text
        = ["x", ".L..0", "f", ".L.else.1", ".L.end.1", ".L.return.f"]
      ∧ listing'.lines.labels.map Label.text
        = ["x", ".L..0", ".L..1", "y", "f", ".L.else.1", ".L.end.1", ".L.return.f", "g",
          ".L.else.2", ".L.end.2", ".L.return.g"]
      ∧ listing'.data = listing.data ++ data ∧ listing'.code = listing.code ++ code := by
  have hlabels : (Source.opening.compile.toOption.map (·.lines.labels.map Label.text))
      = some ["x", ".L..0", "f", ".L.else.1", ".L.end.1", ".L.return.f"] := by decide +kernel
  have hlabels' : (Source.continued.compile.toOption.map (·.lines.labels.map Label.text))
      = some ["x", ".L..0", ".L..1", "y", "f", ".L.else.1", ".L.end.1", ".L.return.f", "g",
        ".L.else.2", ".L.end.2", ".L.return.g"] := by decide +kernel
  obtain ⟨listing, hlisting, hlabels⟩ := Option.map_eq_some_iff.1 hlabels
  obtain ⟨listing', hlisting', hlabels'⟩ := Option.map_eq_some_iff.1 hlabels'
  have hok := eq_ok_of_toOption_eq_some hlisting
  have hok' := eq_ok_of_toOption_eq_some hlisting'
  obtain ⟨-, -, data, code, -, -, -, -, hdata, hcode, -⟩ := Source.compile_append rfl hok hok'
  exact ⟨listing, listing', data, code, hok, hok', hlabels, hlabels', hdata, hcode⟩

end PocketCompiler
