/-
The propagation of constants through a stored program. The blocks of the
control-flow graph are found in the store by walking on from their first slot.
Each slot of a block is looked at in turn: the operands that are read and bound
to a constant are replaced where the instruction stands, one after the other, and
nothing is inserted or removed.
-/
import ThreeAddress.Constants.Walk
import ThreeAddress.StoreEdit

namespace ThreeAddress.Constants

/-- The operands of an instruction that are to be replaced, each by its index, and the constants
that replace them. -/
def replacements (known : Known) (i : Instruction) : List (Nat × Constant) :=
  i.operands.zipIdx.filterMap fun (operand, index) =>
    if i.isDestination index then none
    else (operand.var?.bind known.value?).map (index, ·)

/-- Puts a constant in the place of the operand at an index. -/
def putConstant (i : Instruction) (replacement : Nat × Constant) : Instruction :=
  match i.replaceOperand? replacement.1 (.const replacement.2) with
  | some (_, replaced) => replaced
  | none => i

/-- Replaces operands of the instruction in a slot. The counts follow if anything is replaced. -/
def scanSlot (state : Store × Progress) (slot : Slot) : Store × Progress :=
  let (s, p) := state
  match s.get? slot with
  | none => (s, p)
  | some i =>
    let found := replacements p.known i
    let replaced := found.foldl putConstant i
    (s.modify slot fun i => found.foldl putConstant i,
      { known := knownAfter p.known replaced
        usage := if found.isEmpty then p.usage else (p.usage.remove i).add replaced
        substitutions := p.substitutions + found.length })

/-- Replaces operands in a block of a stored program. -/
def replaceSlots (s : Store) (block : Block) (p : Progress) : Store × Progress :=
  (block.slots s).foldl scanSlot (s, p)

/-- Prepares the walk through a stored program. -/
def Plan.ofStore (s : Store) (flow : Flow) : Plan :=
  reading (fun block => (block.slots s).filterMap s.get?) flow

/-- Replaces operands by constants throughout a stored program whose control-flow graph is given;
the changes are the operands replaced. -/
def propagateOver (s : Store) (flow : Flow) (usage : Usage) : StoreEdit :=
  let plan := Plan.ofStore s flow
  let tour := (Tour.start plan s usage).run plan replaceSlots (Walk.bound plan)
  { store := tour.code, usage := tour.usage, changes := tour.substitutions }

end ThreeAddress.Constants
