/-
Conversions and built-in functions on the data stack. Arguments are converted
where a conversion is known: between integers and numbers, rounding to even. The
functions on strings leave their result on the data stack and use the scratch
variables; characters count from one for the caller and from zero for the
instructions.
-/
import ThreeAddress.Builder.Basic

namespace ThreeAddress.Builder

/-- The opcode that converts the top of the data stack between two types. -/
def conversion? : DataType → DataType → Option Opcode
  | .int, .float => some .int2floats
  | .float, .int => some .float2r2eints
  | _, _ => none

/-- The code that converts the top of the data stack, if that is needed and known. -/
def conversionCode (type target : DataType) : List Instruction :=
  (conversion? type target).toList.map fun opcode => op opcode []

/-- Converts the top of the data stack; gives the slot of the conversion, if there is one. -/
def convert (b : Builder) (type target : DataType) : Option Slot × Builder :=
  match conversion? type target with
  | none => (none, b)
  | some opcode =>
    let (slot, b) := b.emit (op opcode [])
    (some slot, b)

/-- Converts the operand of a unary operation. -/
def convertUnary (b : Builder) (operand target : DataType) : Builder :=
  b.emitAll (conversionCode operand target)

/-- Converts both operands of a binary operation. The second one is on top; it is put aside while
the first one is converted. -/
def convertBinary (b : Builder) (first second target : DataType) (aside : Variable) : Builder :=
  b.emitAll <|
    (if first = target then []
      else op .pops [.var aside] :: conversionCode first target ++ [op .pushs [.var aside]]) ++
    conversionCode second target

/-- A scratch variable as an operand. -/
def scratch (index : Nat) : Operand :=
  .var (Variable.scratch index)

/-- The code for the length of a string. -/
def lengthCode (type : DataType) : List Instruction :=
  conversionCode type .string ++
  [op .pops [scratch 1],
   op .strlen [scratch 1, scratch 1],
   op .pushs [scratch 1]]

/-- Replaces the string on the data stack by its length. -/
def length (b : Builder) (type : DataType) : Builder :=
  b.emitAll (lengthCode type)

/-- Replaces the code on the data stack by the character that has it. -/
def chr (b : Builder) (type : DataType) : Builder :=
  b.emitAll (conversionCode type .int ++ [op .int2chars []])

/-- The code for the code of a character. The string is below the index on the data stack; an
index outside the string gives zero. -/
def ascCode (stringType indexType : DataType) (zero last : String) : List Instruction :=
  let string := scratch 1
  let index := scratch 2
  let result := scratch 3
  conversionCode indexType .int ++
  [op .pushs [number (-1)],
   op .adds [],
   op .pops [index]] ++
  conversionCode stringType .string ++
  [op .pops [string],
   op .strlen [result, string],
   op .lt [result, index, result],
   op .jumpifeq [.label zero, result, truth false],
   op .gt [result, index, number (-1)],
   op .jumpifeq [.label zero, result, truth false],
   op .stri2int [result, string, index],
   op .pushs [result],
   op .jump [.label last],
   op .label [.label zero],
   op .pushs [number 0],
   op .label [.label last]]

/-- Replaces a string and an index on the data stack by the code of that character. -/
def asc (b : Builder) (stringType indexType : DataType) : Builder :=
  let (zero, b) := b.freshLabel "asc_zero"
  let (last, b) := b.freshLabel "asc_end"
  b.emitAll (ascCode stringType indexType zero last)

/-- The labels inside the code for a substring. -/
structure SubstringLabels where
  goOn : String
  loop : String
  leave : String
  empty : String
  last : String
deriving DecidableEq, Repr

/-- The code for a substring. The string, the index of its first character and its length are on
the data stack, the length on top. A negative length, or one that reaches too far, takes the rest
of the string; an index outside the string gives the empty string. -/
def substringCode (stringType startType lengthType : DataType) (labels : SubstringLabels) :
    List Instruction :=
  let string := scratch 1
  let index := scratch 2
  let stop := scratch 3
  let limit := scratch 4
  let character := scratch 5
  conversionCode lengthType .int ++
  [op .pops [stop]] ++
  conversionCode startType .int ++
  [op .pops [index]] ++
  conversionCode stringType .string ++
  [op .pops [string],
   -- a start before the string, or an empty string
   op .lt [limit, index, number 1],
   op .jumpifeq [.label labels.empty, limit, truth true],
   op .strlen [limit, string],
   op .jumpifeq [.label labels.empty, limit, number 0],
   -- `limit` becomes the number of characters from the start on
   op .sub [index, index, number 1],
   op .sub [limit, limit, index],
   op .pushs [stop],
   op .pushs [number 0],
   op .lts [],
   op .pushs [stop],
   op .pushs [limit],
   op .gts [],
   op .ors [],
   op .pushs [truth false],
   op .jumpifeqs [.label labels.goOn],
   op .move [stop, limit],
   op .label [.label labels.goOn],
   -- `stop` becomes the index behind the last character
   op .add [stop, stop, index],
   op .gt [limit, index, stop],
   op .jumpifeq [.label labels.empty, limit, truth true],
   op .move [limit, literal ""],
   op .label [.label labels.loop],
   op .jumpifeq [.label labels.leave, index, stop],
   op .pushs [stop],
   op .getchar [character, string, index],
   op .concat [stop, limit, character],
   op .move [limit, stop],
   op .pops [stop],
   op .add [index, index, number 1],
   op .jump [.label labels.loop],
   op .label [.label labels.leave],
   op .pushs [limit],
   op .jump [.label labels.last],
   op .label [.label labels.empty],
   op .pushs [literal ""],
   op .label [.label labels.last]]

/-- Replaces a string, an index and a length on the data stack by that substring. -/
def substring (b : Builder) (stringType startType lengthType : DataType) : Builder :=
  let (goOn, b) := b.freshLabel "substr_continue"
  let (loop, b) := b.freshLabel "substr_loop"
  let (leave, b) := b.freshLabel "substr_break"
  let (empty, b) := b.freshLabel "substr_empty"
  let (last, b) := b.freshLabel "substr_end"
  b.emitAll (substringCode stringType startType lengthType { goOn, loop, leave, empty, last })

end ThreeAddress.Builder
