/-
Single instructions. Besides opcode and operands an instruction carries boundary
markers (where functions and expression evaluations start and end) and, if it
starts an expression, the effects that evaluating the expression has. Markers
and effects are small sets, kept as one truth value per member.
-/
import ThreeAddress.Opcode
import ThreeAddress.Operand

namespace ThreeAddress

/-- The boundaries that an instruction marks. -/
structure Markers where
  functionStart : Bool := false
  functionEnd : Bool := false
  expressionStart : Bool := false
  expressionEnd : Bool := false
deriving DecidableEq, Repr

namespace Markers

/-- The markers of either set. -/
def union (a b : Markers) : Markers where
  functionStart := a.functionStart || b.functionStart
  functionEnd := a.functionEnd || b.functionEnd
  expressionStart := a.expressionStart || b.expressionStart
  expressionEnd := a.expressionEnd || b.expressionEnd

/-- The markers that open something. -/
def starts (m : Markers) : Markers :=
  { functionStart := m.functionStart, expressionStart := m.expressionStart }

/-- The markers that close something. -/
def ends (m : Markers) : Markers :=
  { functionEnd := m.functionEnd, expressionEnd := m.expressionEnd }

/-- Whether a marker is there that opens something. -/
def hasStart (m : Markers) : Bool :=
  m.functionStart || m.expressionStart

/-- Whether a marker is there that closes something. -/
def hasEnd (m : Markers) : Bool :=
  m.functionEnd || m.expressionEnd

/-- Whether no marker is there. -/
def isEmpty (m : Markers) : Bool :=
  !m.hasStart && !m.hasEnd

end Markers

/-- The effects of an instruction, an expression or a function beyond its result. -/
structure Effects where
  /-- Depends on what is read at run time. -/
  input : Bool := false
  /-- Stores into a global variable. -/
  globals : Bool := false
  /-- Writes output. -/
  output : Bool := false
deriving DecidableEq, Repr

namespace Effects

/-- No effect. -/
def none : Effects := {}

/-- Every effect. -/
def all : Effects := ⟨true, true, true⟩

/-- The effects of either set. -/
def union (a b : Effects) : Effects :=
  ⟨a.input || b.input, a.globals || b.globals, a.output || b.output⟩

/-- Whether every effect of `b` is one of `a`. -/
def contains (a b : Effects) : Bool :=
  a.union b = a

/-- Whether there is no effect. -/
def isPure (e : Effects) : Bool :=
  e = none

end Effects

/-- An instruction. -/
structure Instruction where
  opcode : Opcode
  operands : List Operand
  markers : Markers := {}
  effects : Effects := {}
deriving DecidableEq, Repr

namespace Instruction

/-- Whether the number of operands is the one that the opcode takes. -/
def WellFormed (i : Instruction) : Prop :=
  i.operands.length = i.opcode.arity

/-- The unmarked instruction with the given opcode and operands, if their number is right. -/
def make? (opcode : Opcode) (operands : List Operand) : Option Instruction :=
  if operands.length = opcode.arity then some { opcode, operands } else none

/-- The variable that the instruction gives a value to or declares. -/
def target? (i : Instruction) : Option Variable :=
  if i.opcode.definesTarget then i.operands.head?.bind Operand.var? else none

/-- The label that the instruction jumps to or calls. -/
def jumpTarget? (i : Instruction) : Option String :=
  if i.opcode.isJump then i.operands.head?.bind Operand.label? else none

/-- The label that the instruction defines. -/
def definedLabel? (i : Instruction) : Option String :=
  if i.opcode = .label then i.operands.head?.bind Operand.label? else none

/-- Whether the operand at an index is the destination. -/
def isDestination (i : Instruction) (index : Nat) : Bool :=
  index = 0 ∧ i.opcode.definesTarget

/-- The operands that are not a destination. -/
def sources (i : Instruction) : List Operand :=
  if i.opcode.definesTarget then i.operands.tail else i.operands

/-- The variables that the instruction reads, once for each operand. -/
def reads (i : Instruction) : List Variable :=
  i.sources.filterMap Operand.var?

/-- The variables among the operands, once for each operand. -/
def vars (i : Instruction) : List Variable :=
  i.operands.filterMap Operand.var?

/-- Replaces each operand that is not a destination. -/
def mapSources (f : Operand → Operand) (i : Instruction) : Instruction :=
  { i with
    operands :=
      if i.opcode.definesTarget then
        match i.operands with
        | [] => []
        | target :: rest => target :: rest.map f
      else i.operands.map f }

/-- The effects that the instruction has by itself. -/
def ownEffects (i : Instruction) : Effects where
  input := i.opcode = .read
  globals := i.target?.any fun v => v.frame = .gf
  output := i.opcode = .write

/-- Replaces the operand at an index; the result also has the operand that was there. -/
def replaceOperand? (i : Instruction) (index : Nat) (operand : Operand) :
    Option (Operand × Instruction) :=
  i.operands[index]?.map fun old => (old, { i with operands := i.operands.set index operand })

/-- The text of an instruction, without its markers. -/
def render (i : Instruction) : String :=
  i.operands.foldl (fun text operand => text ++ " " ++ operand.render) i.opcode.mnemonic

end Instruction

end ThreeAddress
