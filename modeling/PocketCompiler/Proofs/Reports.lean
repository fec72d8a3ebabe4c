import Mathlib.Order.Bounds.Basic
import PocketCompiler.Proofs.Token.Lexer

/-!
# Reports point at the character at their place

`Source.reportAt` cuts the text at the place, and takes the line and the column from both parts of
the cut.  Two other accounts of a report are compared with it.

`Source.reportByOffsets?` computes it as a program does that has nothing but byte offsets: it walks
down from the place to a boundary, looks for the newlines around it, and slices the text between
the offsets it has found.  It fails where a slice would cut a character or end before it starts.

`Report.Points` says what a report shows in terms of the lines of the text, which are what stands
between its newlines: the number and the text of the line, and which character of the excerpt
stands above the caret.

`Source.reportAt_points`: the computation by offsets never fails and gives the report of
`Source.reportAt`, which shows the line of the greatest boundary that is not behind the place and
points at the character there, or at the end of the line if there is none.
-/

namespace PocketCompiler

/-! ### Boundaries below a place -/

namespace Source

variable {source : Source} {loc : Nat}

/-- A place is a boundary if a cut there has all its bytes. -/
theorem isBoundary_iff :
    source.IsBoundary loc ↔ byteLength (cutAt loc source.text.toList).1 = loc := by
  constructor
  · rintro ⟨before, after, htext, rfl⟩
    rw [← htext, cutAt_append_left]
  · exact fun h => ⟨_, _, cutAt_append loc _, h⟩

instance : Decidable (source.IsBoundary loc) := decidable_of_iff _ isBoundary_iff.symm

/-- The greatest boundary that is not behind a place, which is looked for one byte after the
other. -/
def boundaryBelow? (source : Source) : Nat → Option Nat
  | 0 => if source.IsBoundary 0 then some 0 else none
  | loc + 1 => if source.IsBoundary (loc + 1) then some (loc + 1) else source.boundaryBelow? loc

/-- The start of a source is a boundary. -/
theorem isBoundary_zero : source.IsBoundary 0 := ⟨[], _, rfl, rfl⟩

/-- The search comes to the greatest boundary. -/
theorem boundaryBelow?_eq_some {q : Nat} (h : IsGreatest {q | q ≤ loc ∧ source.IsBoundary q} q) :
    source.boundaryBelow? loc = some q := by
  induction loc with
  | zero => rw [boundaryBelow?, if_pos isBoundary_zero, Nat.le_zero.1 h.1.1]
  | succ loc ih =>
    rw [boundaryBelow?]
    split
    · next hloc => rw [Nat.le_antisymm h.1.1 (h.2 ⟨Nat.le_refl _, hloc⟩)]
    · next hloc =>
      have hne : q ≠ loc + 1 := fun heq => hloc (heq ▸ h.1.2)
      have hle : q ≤ loc := Nat.le_of_lt_succ (Nat.lt_of_le_of_ne h.1.1 hne)
      exact ih ⟨⟨hle, h.1.2⟩, fun p hp => h.2 ⟨Nat.le_succ_of_le hp.1, hp.2⟩⟩

end Source

/-- Of two cuts of a text, the later one is behind the character at the earlier one. -/
theorem byteLength_add_le {before before' after' cs : List Char} {c : Char}
    (h : before ++ c :: cs = before' ++ after') (hlt : byteLength before < byteLength before') :
    byteLength before + c.utf8Size ≤ byteLength before' := by
  rcases List.append_eq_append_iff.1 h with ⟨middle, rfl, hmiddle⟩ | ⟨middle, rfl, -⟩
  · cases middle with
    | nil => exact absurd hlt (by simp)
    | cons d ds =>
      obtain ⟨rfl, -⟩ := List.cons.inj hmiddle
      rw [byteLength_append, byteLength]
      omega
  · rw [byteLength_append] at hlt
    omega

/-- A text is cut at the greatest boundary that is not behind the place. -/
theorem Source.isGreatest_cutAt (source : Source) (loc : Nat) :
    IsGreatest {q | q ≤ min loc source.byteSize ∧ source.IsBoundary q}
      (byteLength (cutAt loc source.text.toList).1) := by
  have hcut := cutAt_append loc source.text.toList
  have hle := byteLength_cutAt_le loc source.text.toList
  have hsize : byteLength source.text.toList = source.byteSize := byteLength_toList _
  constructor
  · refine ⟨le_min hle ?_, _, _, hcut, rfl⟩
    rw [← hsize, ← congrArg byteLength hcut, byteLength_append]
    exact Nat.le_add_right _ _
  · rintro q ⟨hq, before, after, htext, rfl⟩
    -- A boundary beyond the cut is beyond the next character too, and that one does not fit.
    by_contra hlt
    cases hrest : (cutAt loc source.text.toList).2 with
    | nil =>
      rw [hrest, List.append_nil] at hcut
      rw [hcut, hsize] at hlt
      exact hlt (hq.trans (min_le_right _ _))
    | cons c cs =>
      rw [hrest] at hcut
      have hnext := byteLength_add_le (hcut.trans htext.symm) (Nat.lt_of_not_le hlt)
      have hbeyond := lt_byteLength_cutAt_add loc source.text.toList c cs hrest
      have hbelow := hq.trans (min_le_left _ _)
      omega

/-! ### Lines -/

/-- The lines of a source: what stands between its newlines, so one more than there are of them. -/
def Source.lines (source : Source) : List (List Char) := source.text.toList.splitOn '\n'

/-- The byte at which a line starts, the first one being the line `0`. -/
def Source.lineStart (source : Source) (index : Nat) : Nat :=
  byteLength ((source.lines.take index).flatMap (· ++ ['\n']))

/-- A text is some lines with their newlines, and the start of another one. -/
theorem exists_lines (text : List Char) : ∃ (full : List (List Char)) (column : List Char),
    text = full.flatMap (· ++ ['\n']) ++ column
      ∧ (∀ line ∈ full, '\n' ∉ line) ∧ '\n' ∉ column := by
  induction text with
  | nil => exact ⟨[], [], rfl, by simp, List.not_mem_nil⟩
  | cons c cs ih =>
    obtain ⟨full, column, rfl, hfull, hcolumn⟩ := ih
    by_cases hc : c = '\n'
    · subst hc
      exact ⟨[] :: full, column, rfl, List.forall_mem_cons.2 ⟨List.not_mem_nil, hfull⟩, hcolumn⟩
    cases full with
    | nil => exact ⟨[], c :: column, rfl, hfull, by simp [Ne.symm hc, hcolumn]⟩
    | cons line full =>
      obtain ⟨hline, hfull⟩ := List.forall_mem_cons.1 hfull
      exact ⟨(c :: line) :: full, column, rfl,
        List.forall_mem_cons.2 ⟨by simp [Ne.symm hc, hline], hfull⟩, hcolumn⟩

/-- Text with newlines behind its full lines is split into these and what is behind them. -/
theorem splitOn_flatMap_append {full : List (List Char)} (hfull : ∀ line ∈ full, '\n' ∉ line)
    (text : List Char) :
    (full.flatMap (· ++ ['\n']) ++ text).splitOn '\n' = full ++ text.splitOn '\n' := by
  induction full with
  | nil => rfl
  | cons line full ih =>
    obtain ⟨hline, hfull⟩ := List.forall_mem_cons.1 hfull
    rw [List.flatMap_cons, List.append_assoc, List.append_assoc, List.singleton_append,
      List.splitOn_append_cons_self, List.splitOn_eq_singleton hline, ih hfull]
    rfl

/-- There is a newline in each full line. -/
theorem count_flatMap_append {full : List (List Char)} (hfull : ∀ line ∈ full, '\n' ∉ line) :
    (full.flatMap (· ++ ['\n'])).count '\n' = full.length := by
  induction full with
  | nil => rfl
  | cons line full ih =>
    obtain ⟨hline, hfull⟩ := List.forall_mem_cons.1 hfull
    rw [List.flatMap_cons, List.count_append, List.count_append, List.count_eq_zero.2 hline,
      ih hfull, List.length_cons]
    simp [Nat.add_comm]

/-- Every character but a newline goes on with a line. -/
theorem inLine_iff {c : Char} : inLine c = true ↔ c ≠ '\n' := bne_iff_ne

theorem forall_inLine {line : List Char} (h : '\n' ∉ line) : ∀ c ∈ line, inLine c = true :=
  fun _ hc => inLine_iff.2 fun heq => h (heq ▸ hc)

/-- The end of a text, back to its last newline. -/
theorem takeWhile_reverse_flatMap (full : List (List Char)) {column : List Char}
    (hcolumn : '\n' ∉ column) :
    ((full.flatMap (· ++ ['\n']) ++ column).reverse.takeWhile inLine).reverse = column := by
  have hreverse : ∀ c ∈ column.reverse, inLine c = true := fun _ hc =>
    forall_inLine hcolumn _ (List.mem_reverse.1 hc)
  rw [List.reverse_append, List.takeWhile_append_of_pos hreverse]
  have hfull : (full.flatMap (· ++ ['\n'])).reverse.takeWhile inLine = [] := by
    rcases List.eq_nil_or_concat full with rfl | ⟨init, last, rfl⟩
    · rfl
    · simp [List.flatMap_append, inLine]
  rw [hfull, List.append_nil, List.reverse_reverse]

/-- The first line of a text ends at a newline or with the text. -/
theorem exists_dropWhile_inLine (text : List Char) :
    text.dropWhile inLine = [] ∨ ∃ more, text.dropWhile inLine = '\n' :: more := by
  cases hrest : text.dropWhile inLine with
  | nil => exact .inl rfl
  | cons c more =>
    have hhead := List.head?_dropWhile_not inLine text
    rw [hrest] at hhead
    have hc : c = '\n' := by simpa [inLine] using hhead
    exact .inr ⟨more, by rw [hc]⟩

/-! ### The computation by offsets -/

/-- The byte at which the first newline of a text stands. -/
def firstNewline? : List Char → Option Nat
  | [] => none
  | c :: cs => if inLine c then (firstNewline? cs).map (c.utf8Size + ·) else some 0

/-- The byte at which the last newline of a text stands. -/
def lastNewline? : List Char → Option Nat
  | [] => none
  | c :: cs =>
    match lastNewline? cs with
    | some offset => some (c.utf8Size + offset)
    | none => if inLine c then none else some 0

/-- What the excerpt of a report has in front of the line. -/
def Source.heading (source : Source) (number : Nat) : String :=
  source.name ++ ":" ++ toString number ++ ": "

/-- A caret behind some spaces. -/
def caretBehind (spaces : Nat) : String := String.ofList (List.replicate spaces ' ') ++ "^"

/-- A report by byte offsets: the boundary below the place, the newlines around it, and the
stretches of the text between these.  There is none if a stretch does not fall between characters,
or ends before it starts. -/
def Source.reportByOffsets? (source : Source) (loc : Nat) (message : String) : Option Report := do
  let text := source.text.toList
  let q ← source.boundaryBelow? (min loc source.byteSize)
  let before ← slice? 0 q text
  let after ← slice? q (source.byteSize - q) text
  let start := ((lastNewline? before).map (· + 1)).getD 0
  let finish := ((firstNewline? after).map (q + ·)).getD source.byteSize
  if start ≤ q then
    let above ← slice? 0 start text
    let line ← slice? start (finish - start) text
    let column ← slice? start (q - start) text
    let heading := source.heading (above.count '\n' + 1)
    some
      { excerpt := heading ++ String.ofList line
        marker := caretBehind (heading.length + column.length)
        message }
  else none

/-- The first line of a text ends at its first newline, or with the text. -/
theorem getD_firstNewline? (text : List Char) :
    (firstNewline? text).getD (byteLength text) = byteLength (text.takeWhile inLine) := by
  induction text with
  | nil => rfl
  | cons c cs ih =>
    rw [firstNewline?]
    split
    · next hc =>
      rw [List.takeWhile_cons_of_pos hc, byteLength, byteLength, ← ih]
      cases firstNewline? cs <;> rfl
    · next hc =>
      rw [List.takeWhile_cons_of_neg hc]
      rfl

/-- A text without newlines has no last one. -/
theorem lastNewline?_eq_none {column : List Char} (h : '\n' ∉ column) :
    lastNewline? column = none := by
  induction column with
  | nil => rfl
  | cons c cs ih =>
    have hc := forall_inLine h c (List.mem_cons_self ..)
    rw [lastNewline?, ih fun hmem => h (List.mem_cons_of_mem _ hmem)]
    exact if_pos hc

/-- The last newline is the one in front of the column. -/
theorem lastNewline?_append (before : List Char) {column : List Char} (h : '\n' ∉ column) :
    lastNewline? (before ++ '\n' :: column) = some (byteLength before) := by
  induction before with
  | nil => simp [lastNewline?, lastNewline?_eq_none h, inLine, byteLength]
  | cons c cs ih => rw [List.cons_append, lastNewline?, ih]; rfl

/-- A line starts behind the last newline in front of it, or with the text. -/
theorem lineStart_lastNewline? (full : List (List Char)) {column : List Char}
    (hcolumn : '\n' ∉ column) :
    ((lastNewline? (full.flatMap (· ++ ['\n']) ++ column)).map (· + 1)).getD 0
      = byteLength (full.flatMap (· ++ ['\n'])) := by
  rcases List.eq_nil_or_concat full with rfl | ⟨init, last, rfl⟩
  · rw [List.flatMap_nil, List.nil_append, lastNewline?_eq_none hcolumn]
    rfl
  · rw [List.concat_eq_append, List.flatMap_append, List.flatMap_singleton, ← List.append_assoc,
      List.append_assoc _ ['\n'], List.singleton_append, lastNewline?_append _ hcolumn,
      byteLength_append _ ['\n']]
    rfl

/-! ### The line of a place -/

/-- A source around a place: the full lines before its line, the parts of its line on either side,
and what is behind its line. -/
structure Source.Around (source : Source) (loc : Nat) (full : List (List Char))
    (column rest tail : List Char) : Prop where
  cut : cutAt loc source.text.toList = (full.flatMap (· ++ ['\n']) ++ column, rest ++ tail)
  full : ∀ line ∈ full, '\n' ∉ line
  column : '\n' ∉ column
  rest : '\n' ∉ rest
  tail : tail = [] ∨ ∃ more, tail = '\n' :: more

/-- Every place of a source is in a line. -/
theorem Source.exists_around (source : Source) (loc : Nat) :
    ∃ full column rest tail, source.Around loc full column rest tail := by
  obtain ⟨full, column, hbefore, hfull, hcolumn⟩ := exists_lines (cutAt loc source.text.toList).1
  refine ⟨full, column, (cutAt loc source.text.toList).2.takeWhile inLine,
    (cutAt loc source.text.toList).2.dropWhile inLine, ?_, hfull, hcolumn, fun hmem => ?_,
    exists_dropWhile_inLine _⟩
  · rw [← hbefore, List.takeWhile_append_dropWhile]
  · exact inLine_iff.1 (List.all_eq_true.1 List.all_takeWhile _ hmem) rfl

namespace Source.Around

variable {source : Source} {loc : Nat} {full : List (List Char)} {column rest tail : List Char}

section

variable (h : source.Around loc full column rest tail)
include h

/-- The text is the full lines, the line, and what is behind it. -/
theorem text_eq : source.text.toList
    = full.flatMap (· ++ ['\n']) ++ (column ++ (rest ++ tail)) := by
  rw [← cutAt_append loc source.text.toList, h.cut, List.append_assoc]

/-- The line comes right behind the full ones. -/
theorem exists_lines_eq : ∃ more, source.lines = full ++ (column ++ rest) :: more := by
  have hline : '\n' ∉ column ++ rest := fun hmem =>
    (List.mem_append.1 hmem).elim h.column h.rest
  rw [Source.lines, h.text_eq, splitOn_flatMap_append h.full, ← List.append_assoc]
  rcases h.tail with rfl | ⟨more, rfl⟩
  · exact ⟨[], by rw [List.append_nil, List.splitOn_eq_singleton hline]⟩
  · refine ⟨more.splitOn '\n', ?_⟩
    rw [List.splitOn_append_cons_self, List.splitOn_eq_singleton hline, List.singleton_append]

theorem lines_getElem? : source.lines[full.length]? = some (column ++ rest) := by
  obtain ⟨more, hlines⟩ := h.exists_lines_eq
  rw [hlines, List.getElem?_append_right (Nat.le_refl _), Nat.sub_self]
  rfl

/-- The line starts behind the full ones and their newlines. -/
theorem lineStart_eq : source.lineStart full.length = byteLength (full.flatMap (· ++ ['\n'])) := by
  obtain ⟨more, hlines⟩ := h.exists_lines_eq
  rw [lineStart, hlines, List.take_left]

/-- The line goes on to its newline or to the end of the source. -/
theorem takeWhile_eq : (rest ++ tail).takeWhile inLine = rest := by
  rw [List.takeWhile_append_of_pos (forall_inLine h.rest)]
  rcases h.tail with rfl | ⟨more, rfl⟩
  · exact List.append_nil _
  · exact List.append_nil _

/-- There are as many newlines in front of the place as full lines. -/
theorem count_eq :
    (full.flatMap (· ++ ['\n']) ++ column).count '\n' = full.length := by
  rw [List.count_append, count_flatMap_append h.full, List.count_eq_zero.2 h.column, Nat.add_zero]

/-- **The report shows the line** with its number, and a caret under its column. -/
theorem reportAt_eq (message : String) : source.reportAt loc message =
    { excerpt := source.heading (full.length + 1) ++ String.ofList (column ++ rest)
      marker := caretBehind ((source.heading (full.length + 1)).length + column.length)
      message } := by
  rw [reportAt, h.cut]
  simp only [h.count_eq, takeWhile_reverse_flatMap full h.column, h.takeWhile_eq]
  rfl

/-- The slice up to the place does not fail. -/
theorem slice_before :
    slice? 0 (byteLength (full.flatMap (· ++ ['\n']) ++ column)) source.text.toList
      = some (full.flatMap (· ++ ['\n']) ++ column) := by
  rw [h.text_eq, ← List.append_assoc]
  exact slice?_append [] _ (rest ++ tail)

theorem byteSize_eq : source.byteSize
    = byteLength (full.flatMap (· ++ ['\n']) ++ column) + byteLength (rest ++ tail) := by
  rw [Source.byteSize, ← byteLength_toList, h.text_eq, ← List.append_assoc, byteLength_append]

/-- The slice from the place on does not fail. -/
theorem slice_after :
    slice? (byteLength (full.flatMap (· ++ ['\n']) ++ column))
        (source.byteSize - byteLength (full.flatMap (· ++ ['\n']) ++ column)) source.text.toList
      = some (rest ++ tail) := by
  rw [h.byteSize_eq, Nat.add_sub_cancel_left, h.text_eq, ← List.append_assoc]
  have hslice := slice?_append (full.flatMap (· ++ ['\n']) ++ column) (rest ++ tail) []
  rwa [List.append_nil] at hslice

/-- **The computation by offsets gives the report.** -/
theorem reportByOffsets?_eq (message : String) :
    source.reportByOffsets? loc message = some (source.reportAt loc message) := by
  -- The place is the start of the character that holds the offset.
  have hbelow : source.boundaryBelow? (min loc source.byteSize)
      = some (byteLength (full.flatMap (· ++ ['\n']) ++ column)) := by
    have hgreatest := source.isGreatest_cutAt loc
    rw [h.cut] at hgreatest
    exact boundaryBelow?_eq_some hgreatest
  -- The line starts behind the newline before the place, and ends at the next one.
  have hstart := lineStart_lastNewline? full h.column
  have hfinish : ((firstNewline? (rest ++ tail)).map
      (byteLength (full.flatMap (· ++ ['\n']) ++ column) + ·)).getD source.byteSize
        = byteLength (full.flatMap (· ++ ['\n']) ++ column) + byteLength rest := by
    have hfirst := getD_firstNewline? (rest ++ tail)
    rw [h.takeWhile_eq] at hfirst
    rw [h.byteSize_eq, ← hfirst]
    cases firstNewline? (rest ++ tail) <;> rfl
  -- The slices start and end between characters, so they are what stands there.
  have habove : slice? 0 (byteLength (full.flatMap (· ++ ['\n']))) source.text.toList
      = some (full.flatMap (· ++ ['\n'])) := by
    rw [h.text_eq]
    exact slice?_append [] _ _
  have hline : slice? (byteLength (full.flatMap (· ++ ['\n']))) (byteLength (column ++ rest))
      source.text.toList = some (column ++ rest) := by
    rw [h.text_eq, ← List.append_assoc column]
    exact slice?_append _ _ _
  have hcolumn : slice? (byteLength (full.flatMap (· ++ ['\n']))) (byteLength column)
      source.text.toList = some column := by
    rw [h.text_eq]
    exact slice?_append _ _ _
  have hwidth : byteLength (full.flatMap (· ++ ['\n']) ++ column) + byteLength rest
      - byteLength (full.flatMap (· ++ ['\n'])) = byteLength (column ++ rest) := by
    rw [byteLength_append, byteLength_append]
    omega
  have hdepth : byteLength (full.flatMap (· ++ ['\n']) ++ column)
      - byteLength (full.flatMap (· ++ ['\n'])) = byteLength column := by
    rw [byteLength_append]
    omega
  have hordered : byteLength (full.flatMap (· ++ ['\n']))
      ≤ byteLength (full.flatMap (· ++ ['\n']) ++ column) := by
    rw [byteLength_append]
    exact Nat.le_add_right _ _
  simp only [reportByOffsets?, hbelow, h.slice_before, h.slice_after, hstart, hfinish, habove,
    hwidth, hline, hdepth, hcolumn, Option.bind_eq_bind, Option.bind_some, if_pos hordered,
    count_flatMap_append h.full, h.reportAt_eq message]

end

end Source.Around

/-! ### What a report points at -/

/-- A report of `message` points at the byte `q` of a source: it shows the line that holds the byte,
with its number, and the caret stands under the character there, or behind the line. -/
structure Report.Points (report : Report) (source : Source) (q : Nat) (message : String)
    (number column : Nat) (line : List Char) : Prop where
  /-- The number counts the newlines before the byte. -/
  counts : number = (source.slice 0 q).toList.count '\n' + 1
  isLine : source.lines[number - 1]? = some line
  excerpt : report.excerpt = source.heading number ++ String.ofList line
  /-- The line has as many characters before the byte as the caret is behind its start. -/
  offset : source.lineStart (number - 1) + byteLength (line.take column) = q
  column_le : column ≤ line.length
  marker : report.marker = caretBehind ((source.heading number).length + column)
  /-- Above the caret is the character that the text has there, if that is part of the line. -/
  above : report.excerpt.toList[(source.heading number).length + column]?
    = (source.slice q (source.byteSize - q)).toList.head?.filter inLine
  /-- The caret is behind the line if the byte is a newline, or the end. -/
  behind : (source.heading number).length + column = report.excerpt.length
    ↔ ∀ c ∈ (source.slice q (source.byteSize - q)).toList.head?, c = '\n'
  message : report.message = message

namespace Source.Around

variable {source : Source} {loc : Nat} {full : List (List Char)} {column rest tail : List Char}

/-- The character at the place is that of the line, if the line is not at its end. -/
theorem head?_eq (h : source.Around loc full column rest tail) :
    (rest ++ tail).head?.filter inLine = rest.head? := by
  cases rest with
  | nil =>
    rcases h.tail with rfl | ⟨more, rfl⟩
    · rfl
    · rfl
  | cons c rest => exact if_pos (forall_inLine h.rest c (List.mem_cons_self ..))

/-- Nothing of the line is behind a newline. -/
theorem eq_nil_iff (h : source.Around loc full column rest tail) :
    rest = [] ↔ ∀ c ∈ (rest ++ tail).head?, c = '\n' := by
  cases rest with
  | nil =>
    rcases h.tail with rfl | ⟨more, rfl⟩
    · simp
    · simp
  | cons c rest =>
    have hc : c ≠ '\n' := inLine_iff.1 (forall_inLine h.rest c (List.mem_cons_self ..))
    simp [hc]

/-- The report points at the boundary below the place. -/
theorem points (h : source.Around loc full column rest tail) (message : String) :
    (source.reportAt loc message).Points source
      (byteLength (full.flatMap (· ++ ['\n']) ++ column)) message (full.length + 1) column.length
      (column ++ rest) := by
  have hbefore : (source.slice 0 (byteLength (full.flatMap (· ++ ['\n']) ++ column))).toList
      = full.flatMap (· ++ ['\n']) ++ column := by
    rw [slice, h.slice_before, Option.getD_some, String.toList_ofList]
  have hafter : (source.slice (byteLength (full.flatMap (· ++ ['\n']) ++ column))
      (source.byteSize - byteLength (full.flatMap (· ++ ['\n']) ++ column))).toList
      = rest ++ tail := by
    rw [slice, h.slice_after, Option.getD_some, String.toList_ofList]
  refine ⟨by rw [hbefore, h.count_eq], h.lines_getElem?, by rw [h.reportAt_eq], ?_, ?_,
    by rw [h.reportAt_eq], ?_, ?_, rfl⟩
  · rw [Nat.add_sub_cancel, h.lineStart_eq, List.take_left, byteLength_append]
  · rw [List.length_append]
    exact Nat.le_add_right _ _
  · rw [hafter, h.head?_eq, h.reportAt_eq, String.toList_append, String.toList_ofList,
      ← String.length_toList, List.getElem?_append_right (Nat.le_add_right _ _),
      Nat.add_sub_cancel_left, List.getElem?_append_right (Nat.le_refl _), Nat.sub_self,
      List.head?_eq_getElem?]
  · rw [hafter, ← h.eq_nil_iff, h.reportAt_eq, String.length_append, String.length_ofList,
      List.length_append, ← Nat.add_assoc, Nat.left_eq_add, List.length_eq_zero_iff]

end Source.Around

/-- **Reports point at the character at their place.**  The computation by byte offsets never slices
a text inside a character, and gives the report.  The report shows the line of the greatest
boundary that is neither behind the place nor behind the end of the text, and the caret stands
under the character there, or behind the line if there is a newline or nothing. -/
theorem Source.reportAt_points (source : Source) (loc : Nat) (message : String) :
    source.reportByOffsets? loc message = some (source.reportAt loc message)
      ∧ ∃ q number column line,
        IsGreatest {q | q ≤ min loc source.byteSize ∧ source.IsBoundary q} q
          ∧ (source.reportAt loc message).Points source q message number column line := by
  obtain ⟨full, column, rest, tail, h⟩ := source.exists_around loc
  have hgreatest := source.isGreatest_cutAt loc
  rw [h.cut] at hgreatest
  exact ⟨h.reportByOffsets?_eq message, _, _, _, _, hgreatest, h.points message⟩

end PocketCompiler
