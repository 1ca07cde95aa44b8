/-
What can be wrong with a listing. A fault is found on one line; lines count from
one.
-/
import ThreeAddress.Opcode

namespace ThreeAddress.Listing

/-- What is wrong with a line. -/
inductive Fault where
  | missingHeader
  | unknownOpcode (word : String)
  | arity (opcode : Opcode) (found : Nat)
  | invalidOperand (word : String)
  | invalidEscape (word : String)
  | unknownNote (word : String)
deriving DecidableEq, Repr

/-- The text that is shown for a fault. -/
def Fault.message : Fault → String
  | .missingHeader => "expected the '.IFJcode17' header"
  | .unknownOpcode word => "unknown instruction '" ++ word ++ "'"
  | .arity opcode found =>
    opcode.mnemonic ++ " takes " ++ toString opcode.arity ++ " operand(s), found " ++
      toString found
  | .invalidOperand word => "invalid operand '" ++ word ++ "'"
  | .invalidEscape word => "invalid escape sequence in '" ++ word ++ "'"
  | .unknownNote word => "unknown annotation '" ++ word ++ "'"

/-- A fault together with the line it was found on. -/
structure Error where
  fault : Fault
  line : Nat
deriving DecidableEq, Repr

/-- The text that is shown for an error. -/
def Error.message (e : Error) : String :=
  "line " ++ toString e.line ++ ": " ++ e.fault.message

end ThreeAddress.Listing
