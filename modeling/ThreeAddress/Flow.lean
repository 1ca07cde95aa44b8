/-
The control-flow graph. One pass through a program cuts it into basic blocks before
every label and after every jump, call and return, so that a block is entered at
its first instruction and left at its last one only. The edges are the transfers
that the last instruction of a block may make; a call leads both into the function
and on to the next block. A label that is defined twice stands for its last
definition.

A block keeps the slots of its first and its last instruction. Slots are those of a
store; in a program that is a list, positions stand for them.
-/
import ThreeAddress.Graph.Components
import ThreeAddress.Inconsistency
import ThreeAddress.Store
import ThreeAddress.Table

namespace ThreeAddress

/-- A basic block. -/
structure Block where
  /-- The slot of the first instruction. -/
  first : Nat
  /-- The slot of the last instruction. -/
  last : Nat
  /-- How many instructions there are. -/
  size : Nat
  /-- The successors that are reached only if a conditional jump is taken. -/
  conditional : List Nat := []
  /-- Whether a call leads to the block. -/
  called : Bool := false
deriving DecidableEq, Repr

/-- The instructions of a block, if its slots are positions. -/
def Block.instructions (b : Block) (code : List Instruction) : List Instruction :=
  (code.drop b.first).take b.size

/-- The slots of a block in a store: as many as it has instructions, from the first one on. -/
def Block.slots (b : Block) (s : Store) : List Slot :=
  ((s.entriesFrom b.first).take b.size).map Prod.fst

/-- A control-flow graph. -/
structure Flow where
  graph : Graph Block := {}
  /-- The block that each label stands for. -/
  labels : Table String Nat := {}
deriving Repr

namespace Flow

/-- A block while the program is gone through. -/
structure Pending where
  first : Slot
  last : Slot
  size : Nat
  /-- Where the last instruction stands in the program. -/
  lastPosition : Nat
deriving DecidableEq, Repr

/-- A program cut into blocks, as far as it was gone through. -/
structure Cut where
  /-- The blocks, the last one first. -/
  blocks : List Pending := []
  /-- The number of the block that defines each label. -/
  labels : Table String Nat := {}
  /-- Whether the last block goes on. -/
  isOpen : Bool := false
deriving Repr

/-- Puts a slot at the end of the last block, or into a new one. -/
def Cut.place (cut : Cut) (position : Nat) (slot : Slot) (startsBlock : Bool) : Cut :=
  match cut.blocks, startsBlock with
  | block :: others, false =>
    { cut with
      blocks :=
        { block with last := slot, size := block.size + 1, lastPosition := position } :: others }
  | blocks, _ =>
    { cut with
      blocks := { first := slot, last := slot, size := 1, lastPosition := position } :: blocks
      isOpen := true }

/-- Goes on with the instruction at a position. -/
def Cut.add (cut : Cut) (position : Nat) (slot : Slot) (i : Instruction) : Cut :=
  let placed := cut.place position slot (!cut.isOpen || i.opcode = .label)
  let named :=
    match i.definedLabel? with
    | some label =>
      { placed with labels := placed.labels.put label (placed.blocks.length - 1) }
    | none => placed
  if i.opcode.isTerminator then { named with isOpen := false } else named

/-- Goes on with all instructions that follow, the first of which is at the given position. -/
def Cut.addAll : Nat → List (Slot × Instruction) → Cut → Cut
  | _, [], cut => cut
  | position, (slot, i) :: rest, cut => addAll (position + 1) rest (cut.add position slot i)

/-- The block that an instruction at a position jumps to, if it jumps. -/
def resolve (labels : Table String Nat) (position : Nat) (i : Instruction) :
    Except Inconsistency (Option Nat) :=
  match i.jumpTarget? with
  | none => .ok none
  | some label =>
    match labels.get? label with
    | some target => .ok (some target)
    | none => .error (.unresolvedLabel label i.opcode position)

/-- Adds the edge to the next block, if there is one. -/
def fallThrough (count id : Nat) (graph : Graph Block) : Graph Block :=
  if id + 1 < count then graph.connect id (id + 1) else graph

/-- Adds the edges of a block whose last instruction is given. -/
def connectBlock (count id : Nat) (i : Instruction) (target : Option Nat) (graph : Graph Block) :
    Graph Block :=
  match i.opcode.role, target with
  | .directJump, some target =>
    let graph := graph.connect id target
    if i.opcode = .call then
      fallThrough count id (graph.modify target fun block => { block with called := true })
    else graph
  | .conditionalJump, some target =>
    let graph := fallThrough count id (graph.connect id target)
    if id + 1 < count ∧ target = id + 1 then graph
    else
      graph.modify id fun block =>
        { block with conditional := insertAscending target block.conditional }
  | _, _ => if i.opcode = .ret then graph else fallThrough count id graph

/-- Adds the edges of blocks, the first of which has the given number. -/
def connectPending (get? : Slot → Option Instruction) (count : Nat) (labels : Table String Nat) :
    Nat → List Pending → Graph Block → Except Inconsistency (Graph Block)
  | _, [], graph => .ok graph
  | id, block :: rest, graph => do
    match get? block.last with
    | none => connectPending get? count labels (id + 1) rest graph
    | some i =>
      let target ← resolve labels block.lastPosition i
      connectPending get? count labels (id + 1) rest (connectBlock count id i target graph)

/-- The block that was gone through, without edges. -/
def Pending.toBlock (block : Pending) : Block where
  first := block.first
  last := block.last
  size := block.size

/-- Builds the control-flow graph of the entries of a program, in which `get?` looks up
instructions. Every jump has to lead to a defined label. -/
def assemble (get? : Slot → Option Instruction) (entries : List (Slot × Instruction)) :
    Except Inconsistency Flow := do
  let cut := Cut.addAll 0 entries {}
  let blocks := cut.blocks.reverse
  let isolated := blocks.foldl (fun graph block => (graph.add block.toBlock).2) {}
  let graph ← connectPending get? blocks.length cut.labels 0 blocks isolated
  return { graph, labels := cut.labels }

/-- The control-flow graph of a stored program. -/
def ofStore (s : Store) : Except Inconsistency Flow :=
  assemble s.get? s.entries

/-- The instructions of a program with their positions. -/
def numbered (code : List Instruction) : List (Slot × Instruction) :=
  code.zipIdx.map Prod.swap

/-- The control-flow graph of a program, with positions for slots. -/
def build (code : List Instruction) : Except Inconsistency Flow :=
  assemble (fun position => code[position]?) (numbered code)

/-- How many blocks there are. -/
def size (flow : Flow) : Nat :=
  flow.graph.size

/-- A block. -/
def block? (flow : Flow) (id : Nat) : Option Block :=
  flow.graph.get? id

/-- Whether an edge is taken only if a conditional jump is taken. -/
def isConditional (flow : Flow) (source target : Nat) : Bool :=
  (flow.block? source).any fun block => block.conditional.contains target

end Flow

end ThreeAddress
