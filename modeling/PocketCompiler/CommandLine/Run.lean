import PocketCompiler.CommandLine.Arguments
import PocketCompiler.CommandLine.Directory
import PocketCompiler.Compile

/-!
# A run of the program

What a run does, as a function of its arguments, its standard input and the files around it.
A run that fails changes no file and writes nothing to standard output.
-/

namespace PocketCompiler.CommandLine

/-- The text that `--version` shows. -/
def versionText : String := "rchigo 0.1.0\n"

/-- The text that `--help` shows. -/
def helpText : String :=
  "Usage: rchigo [-o FILE] INPUT\n\n"
    ++ "Compiles INPUT, or standard input if INPUT is -, to x86-64 assembly.\n\n"
    ++ "  -o, --output FILE  write the assembly to FILE instead of standard output\n"
    ++ "  -h, --help         show this text\n"
    ++ "  -V, --version      show the version\n"

/-- The text of a misuse. -/
def Misuse.message : Misuse → String
  | .unknownOption argument => "error: unexpected argument " ++ argument
  | .missingInput => "error: no input is given"
  | .secondInput argument => "error: unexpected argument " ++ argument
  | .missingOutput => "error: a file has to follow --output"
  | .secondOutput _ => "error: --output is given twice"
  | .emptyName => "error: the name of a file is empty"

/-! ### Sources -/

/-- A text that ends in a newline: the text itself, or with a newline added. -/
def withNewline (text : String) : String :=
  if text.toList.getLast? = some '\n' then text else text.push '\n'

/-- The text that some bytes are in UTF-8, if they are one. -/
def textOf? (bytes : Bytes) : Option String := String.fromUTF8? ⟨bytes.toArray⟩

/-- The bytes of a text in UTF-8. -/
def bytesOf (text : String) : Bytes := text.toUTF8.data.toList

/-- The source called `name` with these bytes. -/
def sourceOf (name : String) (bytes : Bytes) : Except FileFailure Source :=
  match textOf? bytes with
  | some text => .ok { name, text := withNewline text }
  | none => .error (.cannotOpen name .notText)

/-- The assembly of the source called `name`, if its bytes could be read, or the message that
tells why there is none. -/
def assemble (name : String) (bytes : Except FileCause Bytes) : Except String String :=
  match bytes with
  | .error cause => .error (FileFailure.cannotOpen name cause).message
  | .ok bytes =>
    match sourceOf name bytes with
    | .error failure => .error failure.message
    | .ok source =>
      match source.compile with
      | .ok listing => .ok listing.text
      | .error failure => .error (source.explain failure)

/-! ### Runs -/

/-- How a run ends. -/
inductive Ending where
  /-- Well, with this text on standard output. -/
  | success (output : String)
  /-- With a message on standard error. -/
  | failure (message : String)
  /-- The arguments ask for nothing that can be done. -/
  | misuse (cause : Misuse)
deriving DecidableEq, Repr

namespace Ending

/-- The exit status. -/
def status : Ending → Nat
  | .success _ => 0
  | .failure _ => 1
  | .misuse _ => 2

/-- What is written to standard output. -/
def output : Ending → String
  | .success output => output
  | _ => ""

/-- What is written to standard error. -/
def errors : Ending → String
  | .success _ => ""
  | .failure message => message ++ "\n"
  | .misuse cause => cause.message ++ "\n"

end Ending

/-- A run: how it ends, and the files then. -/
structure Outcome (σ : Type) where
  ending : Ending
  files : σ
deriving DecidableEq

variable {σ : Type} [FileSystem σ]

/-- The bytes of an input: standard input if it is a lone dash, else the file that it leads to. -/
def inputBytes (stdin : Bytes) (files : σ) (input : String) : Except FileCause Bytes :=
  if input = "-" then .ok stdin else FileSystem.read files input

/-- What becomes of the assembly. -/
def deliver (files : σ) (output : Option String) (text : String) : Outcome σ :=
  match output with
  | none => ⟨.success text, files⟩
  | some path =>
    match FileSystem.write files path (bytesOf text) with
    | .ok files => ⟨.success "", files⟩
    | .error cause => ⟨.failure (FileFailure.cannotWrite path cause).message, files⟩

/-- Compiles one input. -/
def Job.run (job : Job) (stdin : Bytes) (files : σ) : Outcome σ :=
  match assemble job.input (inputBytes stdin files job.input) with
  | .error message => ⟨.failure message, files⟩
  | .ok text => deliver files job.output text

/-- Runs the program. -/
def run (arguments : List String) (stdin : Bytes) (files : σ) : Outcome σ :=
  match request arguments with
  | .error cause => ⟨.misuse cause, files⟩
  | .ok .showVersion => ⟨.success versionText, files⟩
  | .ok .showHelp => ⟨.success helpText, files⟩
  | .ok (.compile job) => job.run stdin files

end PocketCompiler.CommandLine
