/-
What a pass over a program leaves behind. A pass that succeeds gives the edited
program, the usage that goes with it and how much it changed; a pass that finds
the program inconsistent stops with the cause and the program as far as it was
edited.
-/
import ThreeAddress.Inconsistency
import ThreeAddress.Usage.Survey

namespace ThreeAddress

/-- A program after a pass. -/
structure Edit where
  code : List Instruction
  usage : Usage
  /-- How many changes the pass made. -/
  changes : Nat
deriving DecidableEq, Repr

/-- Where and why a pass stopped. -/
structure Halt where
  cause : Inconsistency
  /-- The program as the pass left it. -/
  code : List Instruction
deriving DecidableEq, Repr

/-- Surveys a program at the start of a pass. -/
def Halt.surveying (code : List Instruction) : Except Halt (Usage × List Instruction) :=
  match Usage.survey code with
  | .ok result => .ok result
  | .error cause => .error ⟨cause, Survey.interrupted code⟩

/-- Turns a refusal of a program into a halt that leaves the program as it is. -/
def Halt.leaving {α : Type} (code : List Instruction) :
    Except Inconsistency α → Except Halt α
  | .ok result => .ok result
  | .error cause => .error ⟨cause, code⟩

end ThreeAddress
