/-
How often variables, functions and labels are used. The counts are kept by three
tables that follow a program as instructions are added to it and removed from
it: an entry is there exactly while something is counted for it. A slot that
only declares a variable, or only stores into it by `MOVE` or by closing an
expression, is not counted, so a variable without occurrences is one whose
stores can go.
-/
import ThreeAddress.Instruction
import ThreeAddress.Table

namespace ThreeAddress

/-- What is counted for a variable. -/
structure VariableUse where
  /-- The operands that mention the variable, uncounted stores apart. -/
  occurrences : Nat := 0
  /-- The occurrences that read the variable. -/
  reads : Nat := 0
  effects : Effects := {}
deriving DecidableEq, Repr

/-- What is counted for a function. -/
structure FunctionUse where
  calls : Nat := 0
  /-- The labels that are marked as the function's start. -/
  definitions : Nat := 0
  effects : Effects := {}
deriving DecidableEq, Repr

/-- What is counted for a label. -/
structure LabelUse where
  references : Nat := 0
  definitions : Nat := 0
deriving DecidableEq, Repr

/-- The variables that an instruction is counted for, each with whether it is read there. -/
def Instruction.mentions (i : Instruction) : List (Variable × Bool) :=
  if i.opcode = .defvar ∨ (i.opcode = .pops ∧ i.markers.expressionEnd) then []
  else
    (if i.opcode = .move then [] else i.target?.toList.map fun v => (v, false)) ++
      i.reads.map fun v => (v, true)

/-- The use of a variable after one more or one fewer occurrence, as `step` says. -/
def VariableUse.adjust (step : Nat → Nat) (isRead : Bool) (use : Option VariableUse) :
    Option VariableUse :=
  let use := use.getD {}
  let occurrences := step use.occurrences
  if occurrences = 0 then none
  else some { use with occurrences, reads := if isRead then step use.reads else use.reads }

/-- The use of a function after `calls` and `definitions` changed its counts. -/
def FunctionUse.adjust (calls definitions : Nat → Nat) (use : Option FunctionUse) :
    Option FunctionUse :=
  let use := use.getD {}
  let use := { use with calls := calls use.calls, definitions := definitions use.definitions }
  if use.calls = 0 ∧ use.definitions = 0 then none else some use

/-- The use of a label after `references` and `definitions` changed its counts. -/
def LabelUse.adjust (references definitions : Nat → Nat) (use : Option LabelUse) :
    Option LabelUse :=
  let use := use.getD {}
  let use : LabelUse :=
    { references := references use.references, definitions := definitions use.definitions }
  if use.references = 0 ∧ use.definitions = 0 then none else some use

/-- The use of everything that a program names. -/
structure Usage where
  vars : Table Variable VariableUse := {}
  functions : Table String FunctionUse := {}
  labels : Table String LabelUse := {}
deriving DecidableEq, Repr

namespace Usage

/-- Changes a table at a key, if there is one. -/
def alterAt {α : Type} (table : Table String α) (key : Option String)
    (change : Option α → Option α) : Table String α :=
  match key with
  | some key => table.alter key change
  | none => table

/-- The function that an instruction starts. -/
def startedFunction? (i : Instruction) : Option String :=
  if i.markers.functionStart then i.definedLabel? else none

/-- The function that an instruction calls. -/
def calledFunction? (i : Instruction) : Option String :=
  if i.opcode = .call then i.jumpTarget? else none

/-- Moves the counts for one instruction, each by `step`. -/
def count (step : Nat → Nat) (u : Usage) (i : Instruction) : Usage where
  vars := i.mentions.foldl (fun table mention =>
    table.alter mention.1 (VariableUse.adjust step mention.2)) u.vars
  functions :=
    alterAt (alterAt u.functions (startedFunction? i) (FunctionUse.adjust id step))
      (calledFunction? i) (FunctionUse.adjust step id)
  labels :=
    alterAt (alterAt u.labels i.definedLabel? (LabelUse.adjust id step))
      i.jumpTarget? (LabelUse.adjust step id)

/-- The usage after an instruction was added to the program. -/
def add (u : Usage) (i : Instruction) : Usage :=
  u.count (· + 1) i

/-- The usage after an instruction was removed from the program. Counts stop at zero. -/
def remove (u : Usage) (i : Instruction) : Usage :=
  u.count (· - 1) i

/-- The occurrences of a variable. -/
def occurrences (u : Usage) (v : Variable) : Nat :=
  ((u.vars.get? v).map VariableUse.occurrences).getD 0

/-- The reads of a variable. -/
def reads (u : Usage) (v : Variable) : Nat :=
  ((u.vars.get? v).map VariableUse.reads).getD 0

/-- The effects noted for a variable. -/
def variableEffects (u : Usage) (v : Variable) : Effects :=
  ((u.vars.get? v).map VariableUse.effects).getD {}

/-- The calls of a function. -/
def calls (u : Usage) (label : String) : Nat :=
  ((u.functions.get? label).map FunctionUse.calls).getD 0

/-- The references to a label. -/
def references (u : Usage) (label : String) : Nat :=
  ((u.labels.get? label).map LabelUse.references).getD 0

/-- Whether a label is defined. -/
def isDefined (u : Usage) (label : String) : Bool :=
  (u.labels.get? label).any fun use => 0 < use.definitions

end Usage

end ThreeAddress
