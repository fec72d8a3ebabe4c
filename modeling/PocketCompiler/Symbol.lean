/-!
# Symbols of the assembly

Globals and functions become labels under the names that the program gives them.  A name that the
assembler reads as something else cannot be one of them.  A string literal becomes a global
without a name of its own: its label starts with characters that no name can start with.
-/

namespace PocketCompiler.Symbol

/-- The names that the assembler reads as registers or operators. -/
def reserved : List String :=
  ["rax", "rbx", "rcx", "rdx", "rsi", "rdi", "rbp", "rsp", "r8", "r9", "r10", "r11", "r12", "r13",
   "r14", "r15", "eax", "ebx", "ecx", "edx", "esi", "edi", "ebp", "esp", "r8d", "r9d", "r10d",
   "r11d", "r12d", "r13d", "r14d", "r15d", "ax", "bx", "cx", "dx", "si", "di", "bp", "sp", "r8w",
   "r9w", "r10w", "r11w", "r12w", "r13w", "r14w", "r15w", "al", "bl", "cl", "dl", "sil", "dil",
   "bpl", "spl", "ah", "bh", "ch", "dh", "r8b", "r9b", "r10b", "r11b", "r12b", "r13b", "r14b",
   "r15b", "rip", "eip", "cs", "ds", "es", "fs", "gs", "ss", "byte", "word", "dword", "qword",
   "ptr", "offset", "flat", "and", "or", "xor", "not", "mod", "shl", "shr"]

/-- The characters that the label of a string literal starts with. -/
def literalStart : List Char := ['.', 'L', '.', '.']

/-- The label of the string literal with this number. -/
def ofLiteral (number : Nat) : String := String.ofList literalStart ++ toString number

/-- Whether a label is that of a string literal. -/
def isLiteral (label : String) : Bool := literalStart.isPrefixOf label.toList

end PocketCompiler.Symbol
