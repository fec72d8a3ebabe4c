/-!
# Sources and reports

A source is a text with the name it is shown under.  Places in it are byte offsets into its UTF-8
form.  A report shows the line that holds a place, a caret under the character there, and a
message.

Every offset is a place: one beyond the end counts as the end, and one inside a character counts
as the start of that character (`cutAt`), so `Source.reportAt` is total.
-/

namespace PocketCompiler

/-! ### Texts measured in bytes -/

/-- The number of bytes of a text in UTF-8. -/
def byteLength : List Char → Nat
  | [] => 0
  | c :: cs => c.utf8Size + byteLength cs

theorem byteLength_append (a b : List Char) :
    byteLength (a ++ b) = byteLength a + byteLength b := by
  induction a with
  | nil => simp [byteLength]
  | cons c cs ih => simp [byteLength, ih, Nat.add_assoc]

/-- The bytes of a string are the bytes of its characters. -/
theorem byteLength_toList (s : String) : byteLength s.toList = s.utf8ByteSize := by
  suffices h : ∀ cs : List Char, byteLength cs = (String.ofList cs).utf8ByteSize by
    rw [h, String.ofList_toList]
  intro cs
  induction cs with
  | nil => simp [byteLength]
  | cons c cs ih =>
    have first : (String.ofList [c]).utf8ByteSize = c.utf8Size := by
      rw [← String.singleton_eq_ofList]
      exact String.utf8ByteSize_singleton
    have split : String.ofList (c :: cs) = String.ofList [c] ++ String.ofList cs := by
      rw [← String.ofList_append]
      rfl
    rw [byteLength, ih, split, String.utf8ByteSize_append, first]

/-- Cuts a text at a byte offset: the longest start of it that has at most `offset` bytes, and
the rest. -/
def cutAt (offset : Nat) : List Char → List Char × List Char
  | [] => ([], [])
  | c :: cs =>
    if c.utf8Size ≤ offset then
      let (before, after) := cutAt (offset - c.utf8Size) cs
      (c :: before, after)
    else ([], c :: cs)

/-- Nothing is lost in a cut. -/
theorem cutAt_append (offset : Nat) (text : List Char) :
    (cutAt offset text).1 ++ (cutAt offset text).2 = text := by
  induction text generalizing offset with
  | nil => rfl
  | cons c cs ih =>
    unfold cutAt
    split
    · simp [ih]
    · rfl

/-- The first part of a cut has at most `offset` bytes. -/
theorem byteLength_cutAt_le (offset : Nat) (text : List Char) :
    byteLength (cutAt offset text).1 ≤ offset := by
  induction text generalizing offset with
  | nil => simp [cutAt, byteLength]
  | cons c cs ih =>
    unfold cutAt
    split
    · have := ih (offset - c.utf8Size)
      simp only [byteLength]
      omega
    · simp [byteLength]

/-- The first part of a cut is as long as it can be: the next character would end beyond the
offset. -/
theorem lt_byteLength_cutAt_add (offset : Nat) (text : List Char) (c : Char) (cs : List Char)
    (h : (cutAt offset text).2 = c :: cs) :
    offset < byteLength (cutAt offset text).1 + c.utf8Size := by
  induction text generalizing offset with
  | nil => simp [cutAt] at h
  | cons d ds ih =>
    unfold cutAt at h ⊢
    split at h
    · rename_i fits
      have := ih (offset - d.utf8Size) h
      simp only [fits, if_true, byteLength]
      omega
    · rename_i fits
      obtain ⟨rfl, rfl⟩ := List.cons.inj h
      simp only [fits, if_false, byteLength]
      omega

/-- The `length` bytes of a text from byte `start` on, if both ends fall between characters. -/
def slice? (start length : Nat) (text : List Char) : Option (List Char) :=
  let (before, after) := cutAt start text
  let (middle, _) := cutAt length after
  if byteLength before = start ∧ byteLength middle = length then some middle else none

/-! ### Sources -/

/-- A text and the name it is shown under. -/
structure Source where
  name : String
  text : String
deriving DecidableEq, Repr

/-- The number of bytes of a source, which is the place where it ends. -/
def Source.byteSize (source : Source) : Nat := source.text.utf8ByteSize

/-- The text of a stretch of the source, empty if the stretch does not fall between
characters. -/
def Source.slice (source : Source) (start length : Nat) : String :=
  String.ofList ((slice? start length source.text.toList).getD [])

/-! ### Reports -/

/-- A message about a place: the line, the line that points at the place, and the message. -/
structure Report where
  excerpt : String
  marker : String
  message : String
deriving DecidableEq, Repr

/-- The text of a report, without a final newline. -/
def Report.render (report : Report) : String :=
  report.excerpt ++ "\n" ++ report.marker ++ " " ++ report.message

/-- Whether a character is part of its line. -/
def inLine (c : Char) : Bool := c != '\n'

/-- The report of `message` at byte `loc`.  The line is shown behind the name of the source and
the number of the line, and the caret stands under the character at the place. -/
def Source.reportAt (source : Source) (loc : Nat) (message : String) : Report :=
  let (before, after) := cutAt loc source.text.toList
  -- The part of the line that stands before the place.
  let column := (before.reverse.takeWhile inLine).reverse
  let heading := source.name ++ ":" ++ toString (before.count '\n' + 1) ++ ": "
  { excerpt := heading ++ String.ofList (column ++ after.takeWhile inLine)
    marker := String.ofList (List.replicate (heading.length + column.length) ' ') ++ "^"
    message }

end PocketCompiler
