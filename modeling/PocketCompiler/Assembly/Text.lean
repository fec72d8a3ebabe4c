import PocketCompiler.Assembly

/-!
# Assembly as text

One line of text for each line of assembly.  Labels start at the margin and end in a colon, and
all else is indented by four spaces.
-/

namespace PocketCompiler

/-- The name of a register. -/
def Reg.text : Reg → String
  | .rax => "rax"
  | .rdi => "rdi"
  | .rsi => "rsi"
  | .rdx => "rdx"
  | .rcx => "rcx"
  | .r8 => "r8"
  | .r9 => "r9"
  | .rbp => "rbp"
  | .rsp => "rsp"

/-- The name of the low byte of a register. -/
def Reg.lowText : Reg → String
  | .rax => "al"
  | .rdi => "dil"
  | .rsi => "sil"
  | .rdx => "dl"
  | .rcx => "cl"
  | .r8 => "r8b"
  | .r9 => "r9b"
  | .rbp => "bpl"
  | .rsp => "spl"

/-- The letters of a condition. -/
def Condition.text : Condition → String
  | .equal => "e"
  | .notEqual => "ne"
  | .less => "l"
  | .lessOrEqual => "le"

/-- A label as it is written, without its colon. -/
def Label.text : Label → String
  | .symbol name => name
  | .returnOf function => ".L.return." ++ function
  | .elseOf number => ".L.else." ++ toString number
  | .beginOf number => ".L.begin." ++ toString number
  | .endOf number => ".L.end." ++ toString number

/-- An integer in decimal. -/
def decimalText : Int → String
  | .ofNat n => toString n
  | .negSucc n => "-" ++ toString (n + 1)

/-- An integer in decimal, with its sign even if it is not negative. -/
def signedText : Int → String
  | .ofNat n => "+" ++ toString n
  | .negSucc n => "-" ++ toString (n + 1)

/-- The place `offset` bytes from the base of the frame. -/
def frameText (offset : Int) : String := "[rbp" ++ signedText offset ++ "]"

/-- The name of an operation with two operands, and these. -/
def twoOperands (name dst src : String) : String := name ++ " " ++ dst ++ ", " ++ src

/-- An instruction as it is written. -/
def Instr.text : Instr → String
  | .move dst src => twoOperands "mov" dst.text src.text
  | .moveConst dst value => twoOperands "mov" dst.text (decimalText value.toInt)
  | .frameAddress dst offset => twoOperands "lea" dst.text (frameText offset)
  | .globalAddress dst name => twoOperands "lea" dst.text ("[rip+" ++ name ++ "]")
  | .load dst src => twoOperands "mov" dst.text ("[" ++ src.text ++ "]")
  | .loadByte dst src => twoOperands "movsx" dst.text ("byte ptr [" ++ src.text ++ "]")
  | .store dst src => twoOperands "mov" ("[" ++ dst.text ++ "]") src.text
  | .storeByte dst src => twoOperands "mov" ("[" ++ dst.text ++ "]") src.lowText
  | .storeFrame offset src => twoOperands "mov" (frameText offset) src.text
  | .storeFrameByte offset src => twoOperands "mov" (frameText offset) src.lowText
  | .negate dst => "neg " ++ dst.text
  | .add dst src => twoOperands "add" dst.text src.text
  | .sub dst src => twoOperands "sub" dst.text src.text
  | .multiply dst src => twoOperands "imul" dst.text src.text
  | .addConst dst value => twoOperands "add" dst.text (decimalText value)
  | .subConst dst value => twoOperands "sub" dst.text (decimalText value)
  | .signExtend => "cqo"
  | .divide src => "idiv " ++ src.text
  | .compare lhs rhs => twoOperands "cmp" lhs.text rhs.text
  | .compareConst lhs value => twoOperands "cmp" lhs.text (decimalText value)
  | .setIf condition dst => "set" ++ condition.text ++ " " ++ dst.lowText
  | .zeroExtendByte dst src => twoOperands "movzb" dst.text src.lowText
  | .signExtendByte dst src => twoOperands "movsx" dst.text src.lowText
  | .push src => "push " ++ src.text
  | .pop dst => "pop " ++ dst.text
  | .jump target => "jmp " ++ target.text
  | .jumpIfEqual target => "je " ++ target.text
  | .call name => "call " ++ name
  | .ret => "ret"

/-- A directive as it is written. -/
def Directive.text : Directive → String
  | .intelSyntax => ".intel_syntax noprefix"
  | .dataSection => ".data"
  | .codeSection => ".text"
  | .visible name => ".globl " ++ name
  | .byte value => ".byte " ++ toString value.toNat
  | .zero count => ".zero " ++ decimalText count
  | .address name => ".quad " ++ name

/-- What stands in front of a directive or instruction. -/
def margin : String := "    "

/-- A line as it is written, without its newline.  The choice of syntax, which is about the whole
program, stands at the margin. -/
def Line.text : Line → String
  | .label place => place.text ++ ":"
  | .directive .intelSyntax => Directive.intelSyntax.text
  | .directive order => margin ++ order.text
  | .instr step => margin ++ step.text

/-- The text of some lines; every line ends in a newline. -/
def Code.text (code : Code) : String :=
  String.join (code.map fun line => line.text ++ "\n")

end PocketCompiler
