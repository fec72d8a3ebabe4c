import PocketCompiler.Fault
import PocketCompiler.Source

/-!
# Complaints and failures

A *complaint* is a mistake in the program being compiled.  Its cause is a value of `Complaint`,
and the one function `Complaint.message` holds all the wording.  A *failure* is what stops the
compiler: a complaint about a place, or a fault.
-/

namespace PocketCompiler

/-- What the grammar wanted to see next. -/
inductive Expected where
  /-- This very punctuator or keyword. -/
  | lexeme (text : String)
  /-- The start of a top-level declaration. -/
  | topLevel
  | identifier
  | number
  | type
  | stringLiteral
  | expression
deriving DecidableEq, Repr

/-- How an expectation is worded. -/
def Expected.phrase : Expected → String
  | .lexeme text => "\"" ++ text ++ "\""
  | .topLevel => "\"func\" or \"var\""
  | .identifier => "an identifier"
  | .number => "a number"
  | .type => "a type"
  | .stringLiteral => "a string literal"
  | .expression => "an expression"

/-- The mistakes a program can hold. -/
inductive Complaint where
  /-- A block comment that is never closed. -/
  | unclosedComment
  /-- A string literal that its line does not close. -/
  | unclosedString
  /-- A number that is no signed 64-bit word. -/
  | numberTooLarge
  /-- A character that starts no lexeme. -/
  | strayCharacter (c : Char)
  /-- The grammar wanted `wanted` where `got` stands. -/
  | unexpected (wanted : Expected) (got : String)
  /-- A number lexeme that does not say which number it is. -/
  | numberWithoutValue
  | tooManyParameters
  | tooManyArguments
  /-- No declaration of the name is in scope. -/
  | undefinedVariable (name : String)
  /-- The assembler reads the name as a register or an operator. -/
  | reservedName (name : String)
  /-- There is a function of that name already. -/
  | functionRedefined (name : String)
  /-- There is a global or a function of that name already. -/
  | redefined (name : String)
  /-- The thing assigned to, or whose address is taken, has no address or is an array. -/
  | notAssignable
  /-- The thing dereferenced is neither a pointer nor an array. -/
  | notDereferenceable
  /-- A sum or difference of pointers that means nothing. -/
  | invalidOperands
  /-- Something without a value stands where a value is needed. -/
  | noValue
  /-- The array has more bytes than code can address. -/
  | arrayTooLarge
  /-- The locals of the function have more bytes than code can address. -/
  | frameTooLarge (name : String)
  /-- A declaration of `names` names has `values` initial values. -/
  | initializerCount (names values : Nat)
  /-- The initial value of a global is not known before the program runs. -/
  | notConstant
  /-- A constant is divided by zero. -/
  | constantDivisionByZero
  /-- A global of this type cannot start with this value. -/
  | invalidInitializer
  /-- A string literal does not fit into the array that it initializes. -/
  | initializerTooLong
deriving DecidableEq, Repr

/-- The text of a complaint. -/
def Complaint.message : Complaint → String
  | .unclosedComment => "unclosed block comment"
  | .unclosedString => "unclosed string literal"
  | .numberTooLarge => "invalid number: number too large to fit in target type"
  | .strayCharacter c => "invalid token: '" ++ c.toString ++ "'"
  | .unexpected wanted got => "expected " ++ wanted.phrase ++ ", but got \"" ++ got ++ "\""
  | .numberWithoutValue => "internal error: numeric token missing value"
  | .tooManyParameters => "too many parameters"
  | .tooManyArguments => "too many arguments"
  | .undefinedVariable name => "undefined variable \"" ++ name ++ "\""
  | .reservedName name => "\"" ++ name ++ "\" is reserved by the assembler"
  | .functionRedefined name => "redefinition of function \"" ++ name ++ "\""
  | .redefined name => "redefinition of \"" ++ name ++ "\""
  | .notAssignable => "not an lvalue"
  | .notDereferenceable => "invalid pointer dereference"
  | .invalidOperands => "invalid operands"
  | .noValue => "expected an expression"
  | .arrayTooLarge => "array too large"
  | .frameTooLarge name => "stack frame of \"" ++ name ++ "\" is too large"
  | .initializerCount names values =>
    "assignment mismatch: " ++ toString names ++ " variables but " ++ toString values ++ " values"
  | .notConstant => "initializer element is not constant"
  | .constantDivisionByZero => "division by zero in constant expression"
  | .invalidInitializer => "invalid initializer"
  | .initializerTooLong => "initializer-string is too long"

/-- What stops the compiler: a complaint about the place at byte `loc`, or a fault. -/
inductive Failure where
  | complaint (loc : Nat) (cause : Complaint)
  | fault (cause : Fault)
deriving DecidableEq, Repr

/-- The bare message of a failure, without the place. -/
def Failure.message : Failure → String
  | .complaint _ cause => cause.message
  | .fault cause => cause.message

/-- Reads a fault as a failure. -/
def orFault (result : Except Fault α) : Except Failure α :=
  match result with
  | .ok a => .ok a
  | .error cause => .error (.fault cause)

end PocketCompiler
