/-
Operands. An operand is a variable, a constant, a label or the name of a data
type. A variable is determined by its frame and its name. Constants compare by
type and value, and numbers compare as IEEE 754 says, so an operand that holds a
NaN does not even equal itself; `Operand.same` is that comparison, and it is not
structural equality.
-/
import ThreeAddress.Number.Reading
import ThreeAddress.Number.SixDigits

namespace ThreeAddress

open Number (Binary64)

/-- Where a variable lives: in the global frame, in the local frame on top of the frame stack,
or in the temporary frame. -/
inductive Frame where
  | gf | lf | tf
deriving DecidableEq, Repr

/-- The name of a frame in a listing. -/
def Frame.code : Frame → String
  | .gf => "GF"
  | .lf => "LF"
  | .tf => "TF"

/-- A variable: a name in a frame. -/
structure Variable where
  frame : Frame
  name : String
deriving DecidableEq, Repr

namespace Variable

/-- The text of a variable: its frame, an at sign, its name. -/
def identifier (v : Variable) : String :=
  v.frame.code ++ "@" ++ v.name

/-- How many scratch variables the temporary frame has for generated code. -/
def scratchCount : Nat := 5

/-- The scratch variable with a given number, counting from one. -/
def scratch (number : Nat) : Variable :=
  ⟨.tf, "%temp" ++ toString number⟩

/-- The number of a scratch variable, if the variable is one. -/
def scratchNumber? (v : Variable) : Option Nat :=
  (List.range scratchCount).findSome? fun index =>
    if v = scratch (index + 1) then some (index + 1) else none

end Variable

/-- The data types. -/
inductive DataType where
  | int | float | string | bool
deriving DecidableEq, Repr

/-- The name of a data type in a listing. -/
def DataType.keyword : DataType → String
  | .int => "int"
  | .float => "float"
  | .string => "string"
  | .bool => "bool"

/-- The data type with a given name. -/
def DataType.ofKeyword? (word : String) : Option DataType :=
  [DataType.int, .float, .string, .bool].find? fun type => type.keyword = word

/-- A typed literal. -/
inductive Constant where
  | int (value : Int32)
  | float (value : Binary64)
  | bool (value : Bool)
  | string (value : String)
deriving DecidableEq, Repr

namespace Constant

/-- The type of a literal. -/
def dataType : Constant → DataType
  | .int _ => .int
  | .float _ => .float
  | .bool _ => .bool
  | .string _ => .string

/-- Whether a literal is the number zero. -/
def isZero : Constant → Bool
  | .int value => value == 0
  | .float value => value.isZero
  | _ => false

/-- Whether a literal is the string without characters. -/
def isEmptyString : Constant → Bool
  | .string value => value == ""
  | _ => false

/-- Whether two literals have the same type and equal values. -/
def same : Constant → Constant → Bool
  | .int a, .int b => a == b
  | .float a, .float b => a.same b
  | .bool a, .bool b => a == b
  | .string a, .string b => a == b
  | _, _ => false

/-- The text of a literal. -/
def render : Constant → String
  | .int value => "int@" ++ String.ofList (Text.integerText value.toInt)
  | .float value => "float@" ++ String.ofList value.text
  | .bool value => "bool@" ++ (if value then "true" else "false")
  | .string value => "string@" ++ String.ofList (Text.escape value.toList)

end Constant

/-- The value of a variable that was declared with a type and not yet given a value. -/
def DataType.implicitValue : DataType → Constant
  | .int => .int 0
  | .float => .float .zero
  | .string => .string ""
  | .bool => .bool false

/-- An operand of an instruction. -/
inductive Operand where
  | var (v : Variable)
  | const (c : Constant)
  | label (name : String)
  | type (t : DataType)
deriving DecidableEq, Repr

namespace Operand

/-- The variable that an operand is. -/
def var? : Operand → Option Variable
  | .var v => some v
  | _ => none

/-- The literal that an operand is. -/
def const? : Operand → Option Constant
  | .const c => some c
  | _ => none

/-- The label that an operand is. -/
def label? : Operand → Option String
  | .label name => some name
  | _ => none

/-- Whether two operands are of one kind and equal. -/
def same : Operand → Operand → Bool
  | .var a, .var b => a = b
  | .const a, .const b => a.same b
  | .label a, .label b => a == b
  | .type a, .type b => a = b
  | _, _ => false

/-- The text of an operand. -/
def render : Operand → String
  | .var v => v.identifier
  | .const c => c.render
  | .label name => name
  | .type t => t.keyword

end Operand

end ThreeAddress
