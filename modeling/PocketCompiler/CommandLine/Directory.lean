import PocketCompiler.CommandLine.FileSystem

/-!
# A directory of files

What a run can read and write: the plain files of one directory, which has no directories in it.
A path leads from that directory; it names the directory itself, one of its files, or nothing.
-/

namespace PocketCompiler.CommandLine

/-- The files of a directory by their names, each name once. -/
abbrev Directory := List (String × Bytes)

/-- Where a path leads. -/
inductive Target where
  /-- To the directory itself. -/
  | directory
  /-- To the file called `name`; `slash` if the path ends in a slash. -/
  | file (name : String) (slash : Bool)
  /-- To something inside `name`, which would have to be a directory. -/
  | inside (name : String)
  /-- Out of the directory, where there is nothing. -/
  | outside
deriving DecidableEq, Repr

/-- Where a path leads.  Steps that stay in the directory do not count. -/
def target (path : String) : Target :=
  let parts := (path.toList.splitOn '/').filter (· ≠ [])
  match parts.dropWhile (· == ['.']) with
  | [] => .directory
  | name :: more =>
    if path.toList.head? == some '/' then .outside
    else if more.isEmpty then .file (String.ofList name) (path.toList.getLast? == some '/')
    else .inside (String.ofList name)

namespace Directory

/-- Puts a file into the directory, in the place of one of the same name if there is one. -/
def put (name : String) (bytes : Bytes) : Directory → Directory
  | [] => [(name, bytes)]
  | (other, held) :: files =>
    if other = name then (name, bytes) :: files else (other, held) :: put name bytes files

/-- Why there is nothing inside `name`. -/
def insideCause (files : Directory) (name : String) : FileCause :=
  if (files.lookup name).isSome then .notDirectory else .notFound

/-- The bytes of a file. -/
def read (files : Directory) (path : String) : Except FileCause Bytes :=
  match target path with
  | .directory => .error .isDirectory
  | .outside => .error .notFound
  | .inside name => .error (files.insideCause name)
  | .file name slash =>
    match files.lookup name with
    | none => .error .notFound
    | some bytes => if slash then .error .notDirectory else .ok bytes

/-- The directory after a file has been written.  A path that ends in a slash asks for a
directory, whether there is a file of that name or not. -/
def write (files : Directory) (path : String) (bytes : Bytes) : Except FileCause Directory :=
  match target path with
  | .directory => .error .isDirectory
  | .outside => .error .notFound
  | .inside name => .error (files.insideCause name)
  | .file name slash => if slash then .error .isDirectory else .ok (files.put name bytes)

/-- The files of `after` that `before` does not hold, or holds with other bytes. -/
def changes (before after : Directory) : Directory :=
  after.filter fun (name, bytes) => before.lookup name ≠ some bytes

/-- A file that has been put into a directory is found there, and every other file as before. -/
theorem lookup_put (files : Directory) (name wanted : String) (bytes : Bytes) :
    (files.put name bytes).lookup wanted
      = if wanted = name then some bytes else files.lookup wanted := by
  induction files with
  | nil =>
    by_cases h : wanted = name
    · simp [put, h]
    · simp [put, List.lookup_cons, h, beq_eq_false_iff_ne.2 h]
  | cons file files ih =>
    obtain ⟨other, held⟩ := file
    unfold put
    by_cases h : wanted = other
    · subst h
      by_cases same : wanted = name <;> simp [same]
    · by_cases same : other = name
      · subst same
        simp [List.lookup_cons, h, beq_eq_false_iff_ne.2 h]
      · simp [same, List.lookup_cons, beq_eq_false_iff_ne.2 h, ih]

/-- The name of the file that a path leads to.  A path that ends in a slash leads to none. -/
def fileName? (path : String) : Option String :=
  match target path with
  | .file name false => some name
  | _ => none

/-- A file that is written is put into the directory. -/
theorem eq_put_of_write {files after : Directory} {path : String} {bytes : Bytes}
    (h : files.write path bytes = .ok after) :
    ∃ name, fileName? path = some name ∧ after = files.put name bytes := by
  unfold write at h
  unfold fileName?
  split at h
  · cases h
  · cases h
  · cases h
  · next name slash htarget =>
    cases slash with
    | true => cases h
    | false =>
      rw [htarget]
      exact ⟨name, rfl, (Except.ok.inj h).symm⟩

instance : FileSystem Directory where
  Place := String
  contents files name := files.lookup name
  place? _ path := fileName? path
  read := read
  write := write
  contents_of_write := by
    intro files after path bytes h
    obtain ⟨name, hname, rfl⟩ := eq_put_of_write h
    refine ⟨name, hname, ?_, fun other hother => ?_⟩
    · rw [lookup_put, if_pos rfl]
    · rw [lookup_put, if_neg hother]

end PocketCompiler.CommandLine.Directory
