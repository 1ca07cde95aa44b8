/-
The instruction set. Every opcode has a mnemonic, a fixed number of operands and
a role in the flow of control. The tables here are what the other modules know
about single instructions: which operand is a destination, what ends a basic
block, and what changes the meaning of the local and the temporary frame.
-/
import ThreeAddress.Text.Blank

namespace ThreeAddress

/-- What an opcode does to the flow of control, or that it merely stores a value. -/
inductive Role where
  /-- Stores input, an operand or the top of the data stack in operand 0. -/
  | write
  /-- Always goes to the label in operand 0. -/
  | directJump
  /-- Goes to the label in operand 0 if a condition holds. -/
  | conditionalJump
  /-- Everything else. -/
  | other
deriving DecidableEq, Repr

/-- The opcodes, named by their mnemonics. -/
inductive Opcode where
  -- frames and calls
  | createframe | pushframe | popframe | defvar | call | ret
  -- moves and the data stack
  | move | pushs | pops | clears
  -- arithmetic
  | add | sub | mul | div | adds | subs | muls | divs
  -- comparisons and truth values
  | lt | gt | eq | lts | gts | eqs | and | or | not | ands | ors | nots
  -- conversions
  | int2float | float2int | float2r2eint | float2r2oint | int2char | stri2int | int2floats
  | float2ints | float2r2eints | float2r2oints | int2chars | stri2ints
  -- input and output
  | read | write
  -- strings and types
  | concat | strlen | getchar | setchar | type
  -- control flow
  | label | jump | jumpifeq | jumpifneq | jumpifeqs | jumpifneqs
  -- debugging
  | brk | dprint
deriving DecidableEq, Repr

namespace Opcode

/-- All opcodes, in the order of their declaration. -/
def all : List Opcode :=
  [.createframe, .pushframe, .popframe, .defvar, .call, .ret, .move, .pushs, .pops, .clears,
   .add, .sub, .mul, .div, .adds, .subs, .muls, .divs, .lt, .gt, .eq, .lts, .gts, .eqs, .and,
   .or, .not, .ands, .ors, .nots, .int2float, .float2int, .float2r2eint, .float2r2oint,
   .int2char, .stri2int, .int2floats, .float2ints, .float2r2eints, .float2r2oints, .int2chars,
   .stri2ints, .read, .write, .concat, .strlen, .getchar, .setchar, .type, .label, .jump,
   .jumpifeq, .jumpifneq, .jumpifeqs, .jumpifneqs, .brk, .dprint]

/-- The name of an opcode in a listing. -/
def mnemonic : Opcode → String
  | .createframe => "CREATEFRAME"
  | .pushframe => "PUSHFRAME"
  | .popframe => "POPFRAME"
  | .defvar => "DEFVAR"
  | .call => "CALL"
  | .ret => "RETURN"
  | .move => "MOVE"
  | .pushs => "PUSHS"
  | .pops => "POPS"
  | .clears => "CLEARS"
  | .add => "ADD"
  | .sub => "SUB"
  | .mul => "MUL"
  | .div => "DIV"
  | .adds => "ADDS"
  | .subs => "SUBS"
  | .muls => "MULS"
  | .divs => "DIVS"
  | .lt => "LT"
  | .gt => "GT"
  | .eq => "EQ"
  | .lts => "LTS"
  | .gts => "GTS"
  | .eqs => "EQS"
  | .and => "AND"
  | .or => "OR"
  | .not => "NOT"
  | .ands => "ANDS"
  | .ors => "ORS"
  | .nots => "NOTS"
  | .int2float => "INT2FLOAT"
  | .float2int => "FLOAT2INT"
  | .float2r2eint => "FLOAT2R2EINT"
  | .float2r2oint => "FLOAT2R2OINT"
  | .int2char => "INT2CHAR"
  | .stri2int => "STRI2INT"
  | .int2floats => "INT2FLOATS"
  | .float2ints => "FLOAT2INTS"
  | .float2r2eints => "FLOAT2R2EINTS"
  | .float2r2oints => "FLOAT2R2OINTS"
  | .int2chars => "INT2CHARS"
  | .stri2ints => "STRI2INTS"
  | .read => "READ"
  | .write => "WRITE"
  | .concat => "CONCAT"
  | .strlen => "STRLEN"
  | .getchar => "GETCHAR"
  | .setchar => "SETCHAR"
  | .type => "TYPE"
  | .label => "LABEL"
  | .jump => "JUMP"
  | .jumpifeq => "JUMPIFEQ"
  | .jumpifneq => "JUMPIFNEQ"
  | .jumpifeqs => "JUMPIFEQS"
  | .jumpifneqs => "JUMPIFNEQS"
  | .brk => "BREAK"
  | .dprint => "DPRINT"

/-- How many operands an opcode takes. -/
def arity : Opcode → Nat
  | .createframe | .pushframe | .popframe | .ret | .clears | .adds | .subs | .muls | .divs | .lts
  | .gts | .eqs | .ands | .ors | .nots | .int2floats | .float2ints | .float2r2eints
  | .float2r2oints | .int2chars | .stri2ints | .brk => 0
  | .defvar | .call | .pushs | .pops | .write | .label | .jump | .jumpifeqs | .jumpifneqs
  | .dprint => 1
  | .move | .not | .int2float | .float2int | .float2r2eint | .float2r2oint | .int2char | .read
  | .strlen | .type => 2
  | .add | .sub | .mul | .div | .lt | .gt | .eq | .and | .or | .stri2int | .concat | .getchar
  | .setchar | .jumpifeq | .jumpifneq => 3

/-- The role of an opcode. -/
def role : Opcode → Role
  | .read | .move | .pops => .write
  | .jump | .call => .directJump
  | .jumpifeq | .jumpifneq | .jumpifeqs | .jumpifneqs => .conditionalJump
  | _ => .other

/-- Whether operand 0 names a label to go to. -/
def isJump (op : Opcode) : Bool :=
  op.role = .directJump ∨ op.role = .conditionalJump

/-- Whether operand 0 is a destination: the instruction gives it a value or declares it. -/
def definesTarget : Opcode → Bool
  | .read | .move | .pops | .defvar => true
  | .add | .sub | .mul | .div => true
  | .lt | .gt | .eq | .and | .or | .not => true
  | .int2float | .float2int | .float2r2eint | .float2r2oint | .int2char | .stri2int => true
  | .concat | .strlen | .getchar | .setchar | .type => true
  | _ => false

/-- Whether an instruction with this opcode ends a basic block. -/
def isTerminator (op : Opcode) : Bool :=
  op.isJump || op = .ret

/-- Whether the local or the temporary frame may be a different one afterwards. -/
def affectsFrames : Opcode → Bool
  | .createframe | .pushframe | .popframe | .call | .ret => true
  | _ => false

/-- The opcode with a given mnemonic; the case of letters does not matter. -/
def ofMnemonic? (name : List Char) : Option Opcode :=
  all.find? fun op => Text.sameLetters op.mnemonic.toList name

end Opcode

end ThreeAddress
