import PocketCompiler.CommandLine.Run
import PocketCompiler.Proofs.Compile
import PocketCompiler.Proofs.Layout

/-!
# The final newline

A newline behind a text ends every lexeme that the end of the text would have ended, and no other.

* `scan_append_newline`: the scanner finds what it finds without the newline, and has the same
  complaints.  What the text leaves open, be it a comment, a literal or an escape, stays open.
* `Source.tokenize_newlined`: the tokens are the same but for the place of the last one, which
  stands for the end.
* `Source.compile_terminated`: so a source compiles to the same assembly with the newline, or has
  the same complaint.
-/

namespace PocketCompiler

variable {c : Char} {cs : List Char}

/-! ### The first piece -/

theorem commentEnd?_append_newline (cs : List Char) :
    commentEnd? (cs ++ ['\n']) = commentEnd? cs := by
  fun_induction commentEnd? cs with
  | case1 => rfl
  | case2 cs => rfl
  | case3 c cs hfirst ih =>
    rw [List.cons_append, commentEnd?.eq_3, ih]
    -- A last star makes no closing pair with the newline.
    rintro rest rfl hrest
    cases cs with
    | nil => exact absurd (List.cons.inj hrest).1 (by decide)
    | cons d cs =>
      obtain ⟨rfl, -⟩ := List.cons.inj hrest
      exact hfirst cs rfl rfl

/-- An open literal is not closed by the newline, nor by what a dangling backslash makes of it. -/
theorem literalBody?_append_newline (cs : List Char) :
    literalBody? (cs ++ ['\n']) = literalBody? cs := by
  fun_induction literalBody? cs with
  | case1 => rfl
  | case2 cs => rfl
  | case3 cs => rfl
  -- A backslash at the end escapes the newline, and then there is nothing to close the literal.
  | case4 => rfl
  | case5 c cs ih =>
    rw [List.cons_append, List.cons_append, literalBody?.eq_5, ih]
  | case6 c cs hquote hnewline hdangling hescape ih =>
    have hbackslash : c ≠ '\\' := by
      rintro rfl
      cases cs with
      | nil => exact hdangling rfl rfl
      | cons d cs => exact hescape d cs rfl rfl
    rw [List.cons_append, literalBody?.eq_6 _ _ hquote hnewline (fun h => absurd h hbackslash)
      (fun _ _ h => absurd h hbackslash), ih]

theorem scan_append_newline (c : Char) (cs : List Char) : scan c (cs ++ ['\n']) = scan c cs := by
  have htake : ∀ p, (cs ++ ['\n']).take (runLength p cs) = cs.take (runLength p cs) :=
    fun p => List.take_append_of_le_length (runLength_le p cs)
  have hslash : ((cs ++ ['\n']).head? == some '/') = (cs.head? == some '/') := by
    cases cs <;> rfl
  have hstar : ((cs ++ ['\n']).head? == some '*') = (cs.head? == some '*') := by
    cases cs <;> rfl
  have hcomment : commentEnd? (cs ++ ['\n']).tail = commentEnd? cs.tail := by
    cases cs with
    | nil => rfl
    | cons d cs => exact commentEnd?_append_newline cs
  have hpair : (cs ++ ['\n']).head?.any (isPair c) = cs.head?.any (isPair c) := by
    cases cs <;> rfl
  have hrest := runLength_append_cons (p := inLine) (d := '\n') rfl cs []
  have hdigits := runLength_append_cons (p := isDigit) (d := '\n') rfl cs []
  have hparts := runLength_append_cons (p := isWordPart) (d := '\n') rfl cs []
  simp only [scan, hslash, hstar, hcomment, hpair, literalBody?_append_newline, hrest, hdigits,
    hparts, htake]

/-! ### All pieces -/

/-- **The newline is one more blank**, and a text that cannot be cut into pieces has the same
complaint with it. -/
theorem piecesFrom_append_newline {skip : Nat} (loc : Nat) (h : skip ≤ cs.length) :
    piecesFrom skip loc (cs ++ ['\n'])
      = (piecesFrom skip loc cs).map (· ++ [⟨.blank, loc + byteLength cs, ['\n']⟩]) := by
  induction cs generalizing skip loc with
  | nil =>
    obtain rfl := Nat.le_zero.1 h
    rfl
  | cons c cs ih =>
    have hsize : loc + byteLength (c :: cs) = loc + c.utf8Size + byteLength cs :=
      (Nat.add_assoc _ _ _).symm
    cases skip with
    | succ skip =>
      -- Inside a piece nothing is scanned, and by `h` the piece does not reach the newline.
      rw [List.cons_append, piecesFrom, piecesFrom, hsize]
      exact ih _ (Nat.le_of_succ_le_succ h)
    | zero =>
      rw [List.cons_append, piecesFrom, piecesFrom, scan_append_newline, hsize]
      cases hscan : scan c cs with
      | error cause => rfl
      | ok found =>
        obtain ⟨kind, length⟩ := found
        have hlength := length_le_of_scan hscan
        dsimp only
        rw [ih _ hlength, List.take_append_of_le_length hlength]
        cases piecesFrom length (loc + c.utf8Size) cs <;> rfl

/-! ### The whole source -/

namespace Source

/-- The source with a newline behind it. -/
def newlined (source : Source) : Source := { source with text := source.text.push '\n' }

/-- Where a place of the source is in one that is the same up to its end: at the same byte, unless
it is the end itself. -/
def placeIn (source other : Source) (loc : Nat) : Nat :=
  if loc = source.byteSize then other.byteSize else loc

variable {source other : Source}

theorem placeIn_of_lt {loc : Nat} (h : loc < source.byteSize) : source.placeIn other loc = loc :=
  if_neg (Nat.ne_of_lt h)

theorem placeIn_byteSize : source.placeIn other source.byteSize = other.byteSize := if_pos rfl

theorem placeIn_self : source.placeIn source = id := by
  funext loc
  unfold placeIn
  split
  · next h => exact h.symm
  · rfl

theorem pieces_newlined (source : Source) :
    source.newlined.pieces
      = source.pieces.map (· ++ [⟨.blank, source.byteSize, ['\n']⟩]) := by
  rw [pieces, newlined, String.toList_push, piecesFrom_append_newline _ (Nat.zero_le _),
    Nat.zero_add, byteLength_toList]
  rfl

/-- A complaint of the lexer is about a place in front of the end. -/
theorem lt_byteSize_of_tokenize {loc : Nat} {cause : Complaint}
    (h : source.tokenize = .error (.complaint loc cause)) : loc < source.byteSize := by
  obtain ⟨loc, c, cs, cause, hreaches, -, hfailure⟩ := (ends_tokenize source).of_eq_error h
  obtain ⟨rfl, rfl⟩ := Failure.complaint.inj hfailure
  obtain ⟨before, htext, rfl⟩ := hreaches.leftAt
  rw [byteSize, ← byteLength_toList, ← htext, byteLength_append, byteLength]
  have hpos := c.utf8Size_pos
  omega

/-- In the other source the tokens are where they are, but for the one for the end. -/
theorem map_placeIn {front : List Token}
    (h : source.tokenize = .ok (front ++ [Token.atEnd source])) :
    (front ++ [Token.atEnd source]).map
        (fun token => { token with loc := source.placeIn other token.loc })
      = front ++ [Token.atEnd other] := by
  have hplaces := (List.pairwise_append.1 (pairwise_tokenize h)).2.2
  have hfront : front.map (fun token => { token with loc := source.placeIn other token.loc })
      = front := by
    refine (List.map_congr_left fun token htoken => ?_).trans (List.map_id _)
    rw [placeIn_of_lt (hplaces token htoken _ List.mem_cons_self)]
    rfl
  rw [List.map_append, hfront, List.map_singleton, Token.atEnd, Token.atEnd, placeIn_byteSize]

/-- **The newline adds no token**, and moves only the one for the end. -/
theorem tokenize_newlined (source : Source) :
    source.newlined.tokenize = moveResult (source.placeIn source.newlined)
      (List.map fun token => { token with loc := source.placeIn source.newlined token.loc })
      source.tokenize := by
  have hpieces := source.pieces_newlined
  cases hsource : source.pieces with
  | error failure =>
    have htokens : source.tokenize = .error failure := by
      rw [tokenize, hsource]
      rfl
    have hnewlined : source.newlined.tokenize = .error failure := by
      rw [tokenize, hpieces, hsource]
      rfl
    rw [htokens, hnewlined, moveResult_error]
    -- What the lexer complains of stands in front of the end, so its place stays.
    cases failure with
    | complaint loc cause => rw [Failure.moved, placeIn_of_lt (lt_byteSize_of_tokenize htokens)]
    | fault cause => rfl
  | ok pieces =>
    have htokens : source.tokenize
        = .ok (pieces.filterMap Piece.token? ++ [Token.atEnd source]) := by
      rw [tokenize, hsource]
      rfl
    have hnewlined : source.newlined.tokenize
        = .ok (pieces.filterMap Piece.token? ++ [Token.atEnd source.newlined]) := by
      have hblank : (pieces ++ [(⟨.blank, source.byteSize, ['\n']⟩ : Piece)]).filterMap
          Piece.token? = pieces.filterMap Piece.token? := by
        rw [List.filterMap_append]
        exact List.append_nil _
      rw [tokenize, hpieces, hsource, ← hblank]
      rfl
    rw [htokens, hnewlined, moveResult_ok, map_placeIn htokens]

/-- **A newline at the end of a source makes no difference** to its assembly, nor to what is wrong
with it.  Only what is missing at the end is missing behind the newline. -/
theorem compile_newlined (source : Source) :
    source.newlined.compile
      = moveResult (source.placeIn source.newlined) id source.compile := by
  have hnewlined := source.tokenize_newlined
  cases htokens : source.tokenize with
  | error failure =>
    rw [htokens] at hnewlined
    rw [compile, compile, program, program, htokens, hnewlined]
    rfl
  | ok tokens =>
    rw [htokens] at hnewlined
    exact compile_of_moved htokens hnewlined

/-- The source with a newline at its end. -/
def terminated (source : Source) : Source :=
  { source with text := CommandLine.withNewline source.text }

/-- **The final newline makes no difference**, whether it is there or has to be added. -/
theorem compile_terminated (source : Source) :
    source.terminated.compile
      = moveResult (source.placeIn source.terminated) id source.compile := by
  unfold terminated CommandLine.withNewline
  split
  · rw [show ({ source with text := source.text } : Source) = source from rfl, placeIn_self]
    cases source.compile with
    | ok listing => rfl
    | error failure => cases failure <;> rfl
  · exact source.compile_newlined

theorem compile_and_terminated (source : Source) :
    (∃ listing, source.compile = .ok listing ∧ source.terminated.compile = .ok listing)
      ∨ ∃ loc cause, source.compile = .error (.complaint loc cause)
        ∧ source.terminated.compile
          = .error (.complaint (source.placeIn source.terminated loc) cause) := by
  rw [compile_terminated]
  cases hcompile : source.compile with
  | ok listing => exact .inl ⟨listing, rfl, rfl⟩
  | error failure =>
    cases failure with
    | complaint loc cause => exact .inr ⟨loc, cause, rfl, rfl⟩
    | fault cause => exact ((ends_compile source).of_eq_error hcompile).elim

end Source

end PocketCompiler
