/-
What can be wrong with a program or a rule that was produced by code. Each cause
says what was found and where; the wording is in `Inconsistency.message` alone.
Positions count instructions from zero.
-/
import ThreeAddress.Opcode

namespace ThreeAddress

/-- A cause for refusing a program, a peephole rule or a step of building code. -/
inductive Inconsistency where
  | unresolvedLabel (label : String) (opcode : Opcode) (position : Nat)
  | patternArity (opcode : Opcode) (operands arity : Nat)
  | unboundAlias (opcode : Opcode) (name : String)
  | missingExpressionStart (opcode : Opcode) (position : Nat)
  | unterminatedFunction (label : String)
  | functionStartNotLabel (opcode : Opcode) (position : Nat)
  | unbalanced (construct : String)
deriving DecidableEq, Repr

/-- The text that is shown for a cause. -/
def Inconsistency.message : Inconsistency → String
  | .unresolvedLabel label opcode position =>
    opcode.mnemonic ++ " at instruction " ++ toString position ++ " jumps to undefined label '" ++
      label ++ "'"
  | .patternArity opcode operands arity =>
    "pattern template " ++ opcode.mnemonic ++ " is given " ++ toString operands ++
      " operand(s), but takes " ++ toString arity
  | .unboundAlias opcode name =>
    "pattern template " ++ opcode.mnemonic ++ " uses alias '" ++ name ++ "' before it is bound"
  | .missingExpressionStart opcode position =>
    opcode.mnemonic ++ " at instruction " ++ toString position ++
      " ends an expression that was never started"
  | .unterminatedFunction label => "function '" ++ label ++ "' has no end marker"
  | .functionStartNotLabel opcode position =>
    opcode.mnemonic ++ " at instruction " ++ toString position ++
      " is marked as a function start, but is not a label"
  | .unbalanced construct => construct ++ " was closed without being opened"

end ThreeAddress
