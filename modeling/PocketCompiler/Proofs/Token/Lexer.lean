import PocketCompiler.Token.Lexer
import PocketCompiler.Proofs.Ends

/-!
# The lexer stays between characters

Places are byte offsets, and a place is of use only if it falls between two characters of the text:
`Source.IsBoundary`.  `Source.Reaches source loc rest` follows the lexer through a source: it has
come to the place `loc`, and `rest` is what is left (`Source.LeftAt`).

`ends_tokenize`: the text of every token is the stretch of the source at its place, numbers are not
negative, and a literal has no more bytes than the source; and if the lexer stops, it stops with a
complaint about a boundary.
-/

namespace PocketCompiler

/-! ### Boundaries -/

/-- A byte offset that falls between two characters, or at an end of the text. -/
def Source.IsBoundary (source : Source) (loc : Nat) : Prop :=
  ∃ before after, before ++ after = source.text.toList ∧ byteLength before = loc

/-- A text is cut where its first part ends. -/
theorem cutAt_append_left (before after : List Char) :
    cutAt (byteLength before) (before ++ after) = (before, after) := by
  induction before with
  | nil =>
    cases after with
    | nil => rfl
    | cons c cs =>
      have hc : ¬ c.utf8Size ≤ 0 := Nat.not_le.2 c.utf8Size_pos
      rw [byteLength, List.nil_append, cutAt, if_neg hc]
  | cons c cs ih =>
    have hc : c.utf8Size ≤ c.utf8Size + byteLength cs := Nat.le_add_right _ _
    rw [byteLength, List.cons_append, cutAt, if_pos hc, Nat.add_sub_cancel_left, ih]

/-- The stretch between two boundaries is there. -/
theorem slice?_append (before middle after : List Char) :
    slice? (byteLength before) (byteLength middle) (before ++ (middle ++ after)) = some middle := by
  unfold slice?
  simp only [cutAt_append_left, and_self, if_true]

/-! ### What is left at a place -/

/-- From byte `loc` on, the text is `rest`. -/
def Source.LeftAt (source : Source) (loc : Nat) (rest : List Char) : Prop :=
  ∃ before, before ++ rest = source.text.toList ∧ byteLength before = loc

namespace Source.LeftAt

variable {source : Source} {loc : Nat} {c : Char} {cs middle rest : List Char}

theorem start (source : Source) : source.LeftAt 0 source.text.toList := ⟨[], rfl, rfl⟩

/-- Behind some characters the place is greater by their bytes. -/
theorem append (h : source.LeftAt loc (middle ++ rest)) :
    source.LeftAt (loc + byteLength middle) rest := by
  obtain ⟨before, htext, rfl⟩ := h
  exact ⟨before ++ middle, by rw [List.append_assoc, htext], byteLength_append _ _⟩

/-- Behind so many characters the place is greater by their bytes. -/
theorem drop (h : source.LeftAt loc rest) (count : Nat) :
    source.LeftAt (loc + byteLength (rest.take count)) (rest.drop count) := by
  rw [← List.take_append_drop count rest] at h
  exact h.append

/-- A stretch of what is left is there. -/
theorem slice? (h : source.LeftAt loc (middle ++ rest)) :
    PocketCompiler.slice? loc (byteLength middle) source.text.toList = some middle := by
  obtain ⟨before, htext, rfl⟩ := h
  rw [← htext]
  exact slice?_append before middle rest

/-- The text of a piece is the slice at its place. -/
theorem slice_piece (h : source.LeftAt loc (c :: cs)) (length : Nat) :
    PocketCompiler.slice? loc (byteLength (c :: cs.take length)) source.text.toList
      = some (c :: cs.take length) := by
  have hpiece : source.LeftAt loc ((c :: cs.take length) ++ cs.drop length) := by
    rwa [List.cons_append, List.take_append_drop]
  exact hpiece.slice?

end Source.LeftAt

/-! ### The places that the lexer comes to -/

/-- The lexer comes to `loc` with `rest` left. -/
inductive Source.Reaches (source : Source) : Nat → List Char → Prop where
  | start : source.Reaches 0 source.text.toList
  | next {loc length : Nat} {c : Char} {cs : List Char} {kind : PieceKind} :
    source.Reaches loc (c :: cs) → scan c cs = .ok (kind, length) →
      source.Reaches (loc + byteLength (c :: cs.take length)) (cs.drop length)

/-- What the lexer has passed and what is left are the whole text. -/
theorem Source.Reaches.leftAt {source : Source} {loc : Nat} {rest : List Char}
    (h : source.Reaches loc rest) : source.LeftAt loc rest := by
  induction h with
  | start => exact .start source
  | @next loc length c cs kind _ _ ih => exact ih.drop (length + 1)

/-- A piece that the lexer cuts off at a place that it comes to. -/
structure Piece.FoundIn (piece : Piece) (source : Source) (c : Char) (cs : List Char)
    (length : Nat) : Prop where
  reaches : source.Reaches piece.loc (c :: cs)
  scan : scan c cs = .ok (piece.kind, length)
  text : piece.text = c :: cs.take length

/-- The text of a piece is the stretch of the source at its place. -/
theorem Piece.FoundIn.slice {piece : Piece} {source : Source} {c : Char} {cs : List Char}
    {length : Nat} (h : piece.FoundIn source c cs length) :
    slice? piece.loc (byteLength piece.text) source.text.toList = some piece.text := by
  rw [h.text]
  exact h.reaches.leftAt.slice_piece length

/-- A complaint about a place that the lexer comes to. -/
def Failure.FoundIn (source : Source) (failure : Failure) : Prop :=
  ∃ loc c cs cause, source.Reaches loc (c :: cs) ∧ scan c cs = .error cause
    ∧ failure = .complaint loc cause

/-- Pieces are cut off at the places that the lexer comes to, and so are complaints made. -/
theorem ends_piecesFrom {source : Source} (size : Nat) : ∀ (loc : Nat) (rest : List Char),
    rest.length ≤ size → source.Reaches loc rest →
      Ends (piecesFrom 0 loc rest)
        (fun pieces => ∀ piece ∈ pieces, ∃ c cs length, piece.FoundIn source c cs length)
        (Failure.FoundIn source) := by
  induction size with
  | zero =>
    intro loc rest hsize _
    obtain rfl := List.eq_nil_of_length_eq_zero (Nat.le_zero.1 hsize)
    exact fun piece hpiece => absurd hpiece List.not_mem_nil
  | succ size ih =>
    intro loc rest hsize hreaches
    cases rest with
    | nil => exact fun piece hpiece => absurd hpiece List.not_mem_nil
    | cons c cs =>
      rw [piecesFrom]
      split
      · next cause hscan => exact ⟨loc, c, cs, cause, hreaches, hscan, rfl⟩
      · next kind length hscan =>
        -- The induction is on a bound for what is left, since a piece takes any number of characters.
        have hsize : (cs.drop length).length ≤ size := by
          rw [List.length_cons] at hsize
          rw [List.length_drop]
          omega
        have hnext := ih _ _ hsize (hreaches.next hscan)
        rw [byteLength, ← Nat.add_assoc] at hnext
        rw [piecesFrom_eq_drop]
        refine hnext.bind fun pieces hpieces piece hpiece => ?_
        rcases List.mem_cons.1 hpiece with rfl | hpiece
        · exact ⟨c, cs, length, hreaches, hscan, rfl⟩
        · exact hpieces piece hpiece

/-! ### What lexemes carry -/

theorem length_escapedBytes_le (c : Char) : (escapedBytes c).length ≤ c.utf8Size := by
  have hone : 1 ≤ c.utf8Size := c.utf8Size_pos
  unfold escapedBytes
  split
  case h_9 => exact Nat.le_of_eq (String.length_utf8EncodeChar _)
  all_goals exact hone

theorem byteLength_drop_le (count : Nat) (cs : List Char) :
    byteLength (cs.drop count) ≤ byteLength cs := by
  have hsplit := byteLength_append (cs.take count) (cs.drop count)
  rw [List.take_append_drop] at hsplit
  omega

/-- Decoding does not make a text longer. -/
theorem length_unescapeFrom_le (skip : Nat) (cs : List Char) :
    (unescapeFrom skip cs).length ≤ byteLength (cs.drop skip) := by
  fun_induction unescapeFrom skip cs with
  | case1 => exact Nat.zero_le _
  | case2 skip c cs ih => exact ih
  | case3 => exact Nat.zero_le _
  | case4 d cs hoctal ih =>
    simp only [hoctal]
    have hd := length_escapedBytes_le d
    rw [List.drop_one, List.tail_cons] at ih
    rw [List.length_append, List.drop_zero, byteLength, byteLength]
    omega
  | case5 cs d digits hoctal ih =>
    simp only [hoctal]
    have hdrop := byteLength_drop_le (digits.length + 1) cs
    have hslash : ('\\').utf8Size = 1 := by decide
    rw [List.length_cons, List.drop_zero, byteLength, hslash]
    omega
  | case6 c cs _ ih =>
    rw [List.drop_zero] at ih
    rw [List.length_append, String.length_utf8EncodeChar, List.drop_zero, byteLength]
    omega

/-- The body of a literal ends at a quote. -/
theorem exists_of_literalBody? {cs body : List Char} (h : literalBody? cs = some body) :
    ∃ rest, cs = body ++ '"' :: rest := by
  fun_induction literalBody? cs generalizing body with
  | case1 => exact nomatch h
  | case2 cs =>
    obtain rfl := Option.some.inj h
    exact ⟨cs, rfl⟩
  | case3 => exact nomatch h
  | case4 => exact nomatch h
  | case5 c cs ih =>
    obtain ⟨inner, hinner, rfl⟩ := Option.map_eq_some_iff.1 h
    obtain ⟨rest, rfl⟩ := ih hinner
    exact ⟨rest, rfl⟩
  | case6 c cs _ _ _ _ ih =>
    obtain ⟨inner, hinner, rfl⟩ := Option.map_eq_some_iff.1 h
    obtain ⟨rest, rfl⟩ := ih hinner
    exact ⟨rest, rfl⟩

/-- A token that carries what the lexer gives it: a number is not negative, and the type of a
literal has room for its bytes. -/
def Token.Honest (token : Token) : Prop :=
  match token.kind with
  | .number (some value) => 0 ≤ value.toInt
  | .string (some bytes) (some ty) => ty = .array .char bytes.length
  | _ => True

/-- The bytes that a token stands for, if it is a literal. -/
def Token.literalBytes (token : Token) : List UInt8 :=
  match token.kind with
  | .string (some bytes) _ => bytes
  | _ => []

/-- What the lexer puts into a lexeme: an honest token, with no more bytes in a literal than its
text has. -/
structure Token.Faithful (token : Token) : Prop where
  honest : token.Honest
  bytes_le : token.literalBytes.length ≤ token.length

theorem faithful_number {digits : List Char} {kind : TokenKind} (loc : Nat) (text : String)
    (h : numberKind digits = .ok kind) : Token.Faithful ⟨kind, loc, text⟩ := by
  simp only [numberKind] at h
  split at h
  · next hle =>
    obtain rfl := Except.ok.inj h
    refine ⟨?_, Nat.zero_le _⟩
    have hlt : decimal digits < 2 ^ 63 := by
      simp only [Word.greatest] at hle
      omega
    show 0 ≤ (Int64.ofNat (decimal digits)).toInt
    rw [Int64.toInt_ofNat_of_lt hlt]
    exact Int.natCast_nonneg _
  · exact nomatch h

theorem faithful_word (word : List Char) (loc : Nat) (text : String) :
    Token.Faithful ⟨wordKind word, loc, text⟩ := by
  unfold wordKind
  split
  · exact ⟨trivial, Nat.zero_le _⟩
  · exact ⟨trivial, Nat.zero_le _⟩

theorem faithful_literal {cs body : List Char} (loc : Nat) (h : literalBody? cs = some body) :
    Token.Faithful ⟨literalKind body, loc, String.ofList ('"' :: cs.take (body.length + 1))⟩ := by
  obtain ⟨rest, rfl⟩ := exists_of_literalBody? h
  have htake : (body ++ '"' :: rest).take (body.length + 1) = body ++ ['"'] := by
    rw [List.take_append, List.take_of_length_le (Nat.le_succ _), Nat.add_sub_cancel_left]
    rfl
  refine ⟨rfl, ?_⟩
  show (unescape body ++ [0]).length ≤ (String.ofList _).utf8ByteSize
  have hbody : (unescape body).length ≤ byteLength body := length_unescapeFrom_le 0 body
  rw [htake, ← byteLength_toList, String.toList_ofList, byteLength, byteLength_append,
    List.length_append, List.length_singleton]
  have hquote : byteLength ['"'] = 1 := by decide
  omega

theorem faithful_scan {c : Char} {cs : List Char} {kind : TokenKind} {length : Nat} (loc : Nat)
    (h : scan c cs = .ok (.lexeme kind, length)) :
    Token.Faithful ⟨kind, loc, String.ofList (c :: cs.take length)⟩ := by
  have hpunctuator : ∀ text, Token.Faithful ⟨.punctuator, loc, text⟩ :=
    fun _ => ⟨trivial, Nat.zero_le _⟩
  -- The cases of `scan` in their order: blanks and comments give no lexeme, then come numbers,
  -- literals, words and punctuators.
  unfold scan at h
  split at h
  · exact nomatch h
  split at h
  · exact nomatch h
  split at h
  · split at h
    · exact nomatch h
    · exact nomatch h
  split at h
  · obtain ⟨found, hfound, hpair⟩ := bind_eq_ok_iff.1 h
    obtain ⟨hkind, rfl⟩ := Prod.mk.inj (Except.ok.inj hpair)
    obtain rfl := PieceKind.lexeme.inj hkind
    exact faithful_number loc _ hfound
  split at h
  · next hquote =>
    obtain rfl := eq_of_beq hquote
    split at h
    · next body hbody =>
      obtain ⟨hkind, rfl⟩ := Prod.mk.inj (Except.ok.inj h)
      obtain rfl := PieceKind.lexeme.inj hkind
      exact faithful_literal loc hbody
    · exact nomatch h
  split at h
  · obtain ⟨hkind, rfl⟩ := Prod.mk.inj (Except.ok.inj h)
    obtain rfl := PieceKind.lexeme.inj hkind
    exact faithful_word _ loc _
  split at h
  · obtain ⟨hkind, rfl⟩ := Prod.mk.inj (Except.ok.inj h)
    obtain rfl := PieceKind.lexeme.inj hkind
    exact hpunctuator _
  split at h
  · obtain ⟨hkind, rfl⟩ := Prod.mk.inj (Except.ok.inj h)
    obtain rfl := PieceKind.lexeme.inj hkind
    exact hpunctuator _
  · exact nomatch h

/-! ### Tokens -/

/-- A token of a source: its text is the stretch of the source at its place. -/
structure Token.Of (source : Source) (token : Token) : Prop where
  slice : slice? token.loc token.length source.text.toList = some token.text.toList
  faithful : token.Faithful

theorem Piece.FoundIn.token {piece : Piece} {source : Source} {c : Char} {cs : List Char}
    {length : Nat} (h : piece.FoundIn source c cs length) {token : Token}
    (htoken : piece.token? = some token) : token.Of source := by
  unfold Piece.token? at htoken
  split at htoken
  · next kind hkind =>
    obtain rfl := Option.some.inj htoken
    have hscan := h.scan
    rw [hkind] at hscan
    constructor
    · show slice? piece.loc (String.ofList piece.text).utf8ByteSize _ = _
      rw [← byteLength_toList, String.toList_ofList]
      exact h.slice
    · rw [h.text]
      exact faithful_scan piece.loc hscan
  · exact nomatch htoken

theorem Token.of_atEnd (source : Source) : (Token.atEnd source).Of source where
  slice := by
    have hslice := slice?_append source.text.toList [] []
    rw [List.append_nil, List.append_nil, byteLength_toList] at hslice
    exact hslice
  faithful := ⟨trivial, Nat.zero_le _⟩

/-- **The tokens of a source are stretches of it that carry what they stand for**, and a complaint
of the lexer is about a place that the lexer comes to. -/
theorem ends_tokenize (source : Source) :
    Ends source.tokenize (fun tokens => ∀ token ∈ tokens, token.Of source)
      (Failure.FoundIn source) := by
  unfold Source.tokenize
  refine (ends_piecesFrom _ 0 source.text.toList (Nat.le_refl _) .start).bind fun pieces hpieces => ?_
  intro token htoken
  rcases List.mem_append.1 htoken with htoken | htoken
  · obtain ⟨piece, hpiece, hpiece'⟩ := List.mem_filterMap.1 htoken
    obtain ⟨c, cs, length, hfound⟩ := hpieces piece hpiece
    exact hfound.token hpiece'
  · rw [List.mem_singleton.1 htoken]
    exact Token.of_atEnd source

/-! ### Places -/

/-- Pieces come in the order of their places, all of which are in the text. -/
theorem pairwise_piecesFrom {skip loc : Nat} {cs : List Char} {pieces : List Piece}
    (h : piecesFrom skip loc cs = .ok pieces) :
    pieces.Pairwise (·.loc < ·.loc)
      ∧ ∀ piece ∈ pieces, loc ≤ piece.loc ∧ piece.loc < loc + byteLength cs := by
  induction cs generalizing skip loc pieces with
  | nil =>
    have hnil : piecesFrom skip loc [] = .ok [] := by cases skip <;> rfl
    obtain rfl := Except.ok.inj (hnil.symm.trans h)
    exact ⟨.nil, fun piece hpiece => absurd hpiece List.not_mem_nil⟩
  | cons c cs ih =>
    have hsize := Char.utf8Size_pos c
    have hbytes : byteLength (c :: cs) = c.utf8Size + byteLength cs := rfl
    -- Characters that a piece has taken are skipped, and at any other a piece starts.
    cases skip with
    | succ skip =>
      obtain ⟨hsorted, hplaces⟩ := ih h
      refine ⟨hsorted, fun piece hpiece => ?_⟩
      have hplace := hplaces piece hpiece
      omega
    | zero =>
      rw [piecesFrom] at h
      split at h
      -- If the scan fails there are no pieces; else one starts here, in front of the others.
      · cases h
      · obtain ⟨rest, hrest, h⟩ := bind_eq_ok_iff.1 h
        obtain rfl := Except.ok.inj h
        obtain ⟨hsorted, hplaces⟩ := ih hrest
        refine ⟨.cons (fun piece hpiece => ?_) hsorted, List.forall_mem_cons.2 ⟨?_, ?_⟩⟩
        · have hplace := hplaces piece hpiece
          show loc < piece.loc
          omega
        · show loc ≤ loc ∧ loc < loc + byteLength (c :: cs)
          omega
        · intro piece hpiece
          have hplace := hplaces piece hpiece
          omega

/-- **The tokens of a source come in the order of their places**, no two at the same. -/
theorem Source.pairwise_tokenize {source : Source} {tokens : List Token}
    (h : source.tokenize = .ok tokens) : tokens.Pairwise (·.loc < ·.loc) := by
  obtain ⟨pieces, hpieces, h⟩ := bind_eq_ok_iff.1 h
  obtain rfl := Except.ok.inj h
  obtain ⟨hsorted, hplaces⟩ := pairwise_piecesFrom hpieces
  have hloc : ∀ {piece : Piece} {token : Token}, piece.token? = some token →
      token.loc = piece.loc := by
    intro piece token htoken
    unfold Piece.token? at htoken
    split at htoken
    · obtain rfl := Option.some.inj htoken
      rfl
    · exact nomatch htoken
  refine List.pairwise_append.2 ⟨?_, List.pairwise_singleton _ _, fun token htoken last hlast => ?_⟩
  · refine List.pairwise_filterMap.2 (hsorted.imp fun hlt token htoken token' htoken' => ?_)
    rw [hloc htoken, hloc htoken']
    exact hlt
  · obtain ⟨piece, hpiece, htoken⟩ := List.mem_filterMap.1 htoken
    have hplace := (hplaces piece hpiece).2
    rw [List.mem_singleton.1 hlast, hloc htoken]
    rw [Nat.zero_add, byteLength_toList] at hplace
    exact hplace

end PocketCompiler
