/-
Constants inside a basic block. Going through a block, each operand that is read
and bound to a constant is replaced by the constant; then the destination is
forgotten, or bound anew if the instruction moves a constant into it. A block
can also be summed up without its values, by the variables it assigns and by
whether it exchanges frames or calls.
-/
import ThreeAddress.Constants.Known
import ThreeAddress.Usage

namespace ThreeAddress.Constants

/-- The constant in place of a variable bound to one; other operands stay. -/
def substitute (known : Known) (operand : Operand) : Operand :=
  match operand.var?.bind known.value? with
  | some c => .const c
  | none => operand

/-- How many operands of an instruction are replaced. -/
def substitutionCount (known : Known) (i : Instruction) : Nat :=
  (i.reads.filter fun v => (known.value? v).isSome).length

/-- The constant that an instruction moves into its destination. -/
def movedConstant? (i : Instruction) : Option Constant :=
  if i.opcode = .move then i.operands[1]?.bind Operand.const? else none

/-- What is known after an instruction whose operands were replaced. -/
def knownAfter (known : Known) (i : Instruction) : Known :=
  let known :=
    match i.target? with
    | none => known
    | some v =>
      match movedConstant? i with
      | none => known.forget v
      | some c => (known.forget v).bind v c
  known.forgetFrames i.opcode.affectsFrames (i.opcode = .call)

/-- Progress through a block. -/
structure Progress where
  known : Known
  usage : Usage
  substitutions : Nat := 0
deriving DecidableEq, Repr

/-- Replaces operands of one instruction. The counts follow if anything is replaced. -/
def scanOne (p : Progress) (i : Instruction) : Instruction × Progress :=
  let count := substitutionCount p.known i
  let replaced := i.mapSources (substitute p.known)
  (replaced,
    { known := knownAfter p.known replaced
      usage := if count = 0 then p.usage else (p.usage.remove i).add replaced
      substitutions := p.substitutions + count })

/-- Replaces operands through a run of instructions. -/
def scan : List Instruction → Progress → List Instruction × Progress
  | [], p => ([], p)
  | i :: rest, p =>
    let (replaced, p) := scanOne p i
    let (others, p) := scan rest p
    (replaced :: others, p)

/-- What a block does to what is known, whatever the values. -/
structure Summary where
  assigned : List Variable := []
  changesFrames : Bool := false
  calls : Bool := false
deriving DecidableEq, Repr

/-- The summary of a block. -/
def Summary.ofBlock (block : List Instruction) : Summary where
  assigned := block.filterMap Instruction.target?
  changesFrames := block.any fun i => i.opcode.affectsFrames
  calls := block.any fun i => i.opcode = .call

/-- What is still known after a block with this summary. -/
def Summary.apply (summary : Summary) (known : Known) : Known :=
  (summary.assigned.foldl Known.forget known).forgetFrames summary.changesFrames summary.calls

end ThreeAddress.Constants
