/-!
# Arguments

```
[-o FILE] INPUT
```

The arguments are read from left to right.  Options may stand in front of the input or behind it;
behind `--` there are none.  A lone `-` is not an option.
-/

namespace PocketCompiler.CommandLine

/-- What to compile, and where to put the assembly: on standard output, unless a file is given. -/
structure Job where
  input : String
  output : Option String := none
deriving DecidableEq, Repr

/-- What the arguments ask for. -/
inductive Request where
  | compile (job : Job)
  | showVersion
  | showHelp
deriving DecidableEq, Repr

/-- Why arguments ask for nothing. -/
inductive Misuse where
  | unknownOption (argument : String)
  | missingInput
  | secondInput (argument : String)
  | missingOutput
  | secondOutput (argument : String)
  /-- The name of a file is empty. -/
  | emptyName
deriving DecidableEq, Repr

/-- What an argument that starts with a dash means. -/
inductive Flag where
  /-- The output, named in the same argument. -/
  | outputIs (name : String)
  /-- The output, named in the next argument. -/
  | outputFollows
  | version
  | help
  /-- No option stands behind this one. -/
  | stop
  | unknown
deriving DecidableEq, Repr

/-- The name behind an optional equals sign. -/
def attached : List Char → String
  | '=' :: name => String.ofList name
  | name => String.ofList name

/-- The name behind `--output=`, if the characters start so. -/
def longOutput? (argument : List Char) : Option String :=
  ("--output=".toList.isPrefixOf? argument).map String.ofList

/-- What an argument that starts with a dash, and is not a lone dash, means. -/
def meaning (argument : String) : Flag :=
  match argument.toList with
  | ['-', '-'] => .stop
  | '-' :: '-' :: _ =>
    if argument = "--output" then .outputFollows
    else if argument = "--version" then .version
    else if argument = "--help" then .help
    else
      match longOutput? argument.toList with
      | some name => .outputIs name
      | none => .unknown
  | ['-', 'o'] => .outputFollows
  | '-' :: 'o' :: name => .outputIs (attached name)
  | '-' :: 'V' :: _ => .version
  | '-' :: 'h' :: _ => .help
  | _ => .unknown

/-- Whether an argument is an option, and not a name. -/
def isOption (argument : String) : Bool :=
  match argument.toList with
  | '-' :: _ :: _ => true
  | _ => false

/-- What the arguments so far have said. -/
structure Seen where
  input : Option String := none
  output : Option String := none
deriving DecidableEq, Repr

/-- Takes an argument as the input. -/
def Seen.withInput (seen : Seen) (name : String) : Except Misuse Seen :=
  if name = "" then .error .emptyName
  else if seen.input.isSome then .error (.secondInput name)
  else .ok { seen with input := some name }

/-- Takes a name as the output. -/
def Seen.withOutput (seen : Seen) (name : String) : Except Misuse Seen :=
  if name = "" then .error .emptyName
  else if seen.output.isSome then .error (.secondOutput name)
  else .ok { seen with output := some name }

/-- What has been asked for at the end of the arguments. -/
def Seen.request (seen : Seen) : Except Misuse Request :=
  match seen.input with
  | some input => .ok (.compile { input, output := seen.output })
  | none => .error .missingInput

/-- Reads arguments of which none is an option. -/
def readNames (seen : Seen) : List String → Except Misuse Request
  | [] => seen.request
  | name :: more => do
    let seen ← seen.withInput name
    readNames seen more

/-- Reads arguments of which some may be options. -/
def readArguments (seen : Seen) : List String → Except Misuse Request
  | [] => seen.request
  | argument :: more =>
    if isOption argument then
      match meaning argument with
      | .outputIs name => do
        let seen ← seen.withOutput name
        readArguments seen more
      | .outputFollows =>
        match more with
        | [] => .error .missingOutput
        | name :: more =>
          -- An option is never taken for the name of a file.
          if isOption name then .error .missingOutput
          else do
            let seen ← seen.withOutput name
            readArguments seen more
      | .version => .ok .showVersion
      | .help => .ok .showHelp
      | .stop => readNames seen more
      | .unknown => .error (.unknownOption argument)
    else do
      let seen ← seen.withInput argument
      readArguments seen more

/-- What the arguments ask for. -/
def request (arguments : List String) : Except Misuse Request := readArguments {} arguments

end PocketCompiler.CommandLine
