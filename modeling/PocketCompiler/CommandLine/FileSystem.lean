/-!
# File systems

What a run needs to know of the files around it.  A path leads to a place where a file is or could
be, if it leads anywhere, and several paths may lead to the same place.  All else that a system has,
such as directories and rights, shows in nothing but what can be read and written.
-/

namespace PocketCompiler.CommandLine

/-- Why a file cannot be read or written. -/
inductive FileCause where
  | notFound
  | notDirectory
  | isDirectory
  /-- The bytes of the file are no text. -/
  | notText
  /-- Anything else, in the words of the system. -/
  | other (text : String)
deriving DecidableEq, Repr

/-- The text of a cause. -/
def FileCause.message : FileCause → String
  | .notFound => "No such file or directory (os error 2)"
  | .notDirectory => "Not a directory (os error 20)"
  | .isDirectory => "Is a directory (os error 21)"
  | .notText => "stream did not contain valid UTF-8"
  | .other text => text

/-- A file that could not be read or written. -/
inductive FileFailure where
  | cannotOpen (path : String) (cause : FileCause)
  | cannotWrite (path : String) (cause : FileCause)
deriving DecidableEq, Repr

/-- The text of a failure. -/
def FileFailure.message : FileFailure → String
  | .cannotOpen path cause => "cannot open " ++ path ++ ": " ++ cause.message
  | .cannotWrite path cause => "cannot write " ++ path ++ ": " ++ cause.message

/-- The bytes of a file. -/
abbrev Bytes := List UInt8

/-- Files with paths that lead to them.  A state of type `σ` is all that there is at one time. -/
class FileSystem (σ : Type) where
  /-- Where a file is, or could be. -/
  Place : Type
  /-- The bytes of the file at a place, if there is one. -/
  contents : σ → Place → Option Bytes
  /-- The place that a path leads to. -/
  place? : σ → String → Option Place
  /-- The bytes of the file that a path leads to. -/
  read : σ → String → Except FileCause Bytes
  /-- The files after one of them has been written.  If it cannot be written, they stay as they
  are. -/
  write : σ → String → Bytes → Except FileCause σ
  /-- What is written is all that the file holds then, and all other files are as before. -/
  contents_of_write {files after : σ} {path : String} {bytes : Bytes} :
    write files path bytes = .ok after → ∃ place, place? files path = some place
      ∧ contents after place = some bytes
      ∧ ∀ other, other ≠ place → contents after other = contents files other

end PocketCompiler.CommandLine
