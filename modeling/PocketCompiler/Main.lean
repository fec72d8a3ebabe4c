import PocketCompiler.CommandLine.Run

/-!
# The program

Reads the real standard input and the real files, and lets `CommandLine` decide what to do with
them.
-/

namespace PocketCompiler.CommandLine

/-- The cause behind an error of the system. -/
def causeOf : IO.Error → FileCause
  | .noFileOrDirectory .. => .notFound
  | .inappropriateType _ 20 _ => .notDirectory
  | .inappropriateType .. => .isDirectory
  | error => .other (toString error)

/-- Runs an action, and gives the cause if it fails. -/
def attempt (action : IO α) : IO (Except FileCause α) := do
  match ← action.toBaseIO with
  | .ok a => return .ok a
  | .error error => return .error (causeOf error)

/-- All bytes that are left in a stream. -/
partial def readAll (stream : IO.FS.Stream) (before : ByteArray) : IO ByteArray := do
  let more ← stream.read 65536
  if more.isEmpty then
    return before
  else
    readAll stream (before ++ more)

/-- The bytes of an input. -/
def readInput (input : String) : IO (Except FileCause Bytes) := do
  if input = "-" then
    attempt (do return (← readAll (← IO.getStdin) ByteArray.empty).data.toList)
  else
    attempt (do return (← IO.FS.readBinFile input).data.toList)

/-- Puts the assembly where the job wants it. -/
def deliverTo (output : Option String) (text : String) : IO Ending := do
  match output with
  | none => return .success text
  | some path =>
    match ← attempt (IO.FS.writeFile path text) with
    | .ok () => return .success ""
    | .error cause => return .failure (FileFailure.cannotWrite path cause).message

/-- Does what the arguments ask for. -/
def perform (arguments : List String) : IO Ending := do
  match request arguments with
  | .error cause => return .misuse cause
  | .ok .showVersion => return .success versionText
  | .ok .showHelp => return .success helpText
  | .ok (.compile job) =>
    match assemble job.input (← readInput job.input) with
    | .error message => return .failure message
    | .ok text => deliverTo job.output text

end PocketCompiler.CommandLine

/-- Runs the program on the arguments of the command line. -/
def main (arguments : List String) : IO UInt32 := do
  let ending ← PocketCompiler.CommandLine.perform arguments
  (← IO.getStdout).putStr ending.output
  (← IO.getStderr).putStr ending.errors
  return UInt32.ofNat ending.status
