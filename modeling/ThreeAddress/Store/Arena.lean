/-
The arena of an instruction store. Instructions are held in numbered slots and
linked into a list in both directions, so that adding and removing one changes
no more than the slots next to it. An emptied slot is put on the free list, and
the slot that was emptied last is used first; without free slots a new one is
made. Every link has to lead to an instruction. An operation that meets a link
that does not, or a count or a free list that cannot be right, ends in a fault.
-/
import ThreeAddress.Instruction

namespace ThreeAddress

/-- The name of an instruction in a store. -/
abbrev Slot := Nat

namespace Store

/-- An instruction and the slots before and after it. -/
structure Node where
  instruction : Instruction
  prev : Option Slot
  next : Option Slot
deriving DecidableEq, Repr

/-- What an operation can find wrong with an arena. -/
inductive Fault where
  /-- A link leads to a slot that holds no instruction. -/
  | unlinked (slot : Slot)
  /-- The free list holds a slot that was never made. -/
  | outOfRange (slot : Slot)
  /-- An instruction is there although none are counted. -/
  | miscounted
deriving DecidableEq, Repr

/-- Linked instructions in slots. -/
structure Arena where
  nodes : Array (Option Node) := #[]
  /-- The empty slots, last emptied first. -/
  free : List Slot := []
  first : Option Slot := none
  last : Option Slot := none
  /-- How many instructions there are. -/
  size : Nat := 0
deriving DecidableEq, Repr

namespace Arena

/-! ### Looking at an arena -/

/-- What a slot holds. -/
def node? (a : Arena) (slot : Slot) : Option Node :=
  a.nodes[slot]?.join

/-- The instruction in a slot. -/
def get? (a : Arena) (slot : Slot) : Option Instruction :=
  (a.node? slot).map Node.instruction

/-- The slot that follows a slot. -/
def next? (a : Arena) (slot : Slot) : Option Slot :=
  (a.node? slot).bind Node.next

/-- The slot that precedes a slot. -/
def prev? (a : Arena) (slot : Slot) : Option Slot :=
  (a.node? slot).bind Node.prev

/-- At most `bound` instructions with their slots, along the links from a slot on. -/
def walk (a : Arena) : (bound : Nat) → Option Slot → List (Slot × Instruction)
  | bound + 1, some slot =>
    match a.node? slot with
    | some node => (slot, node.instruction) :: a.walk bound node.next
    | none => []
  | _, _ => []

/-- The instructions with their slots, along the links from a slot on. There are no more
instructions than slots. -/
def entriesFrom (a : Arena) (start : Option Slot) : List (Slot × Instruction) :=
  a.walk a.nodes.size start

/-! ### Changing an arena -/

/-- Fills or empties a slot that was made before. -/
def put (a : Arena) (slot : Slot) (node : Option Node) : Arena :=
  { a with nodes := a.nodes.setIfInBounds slot node }

/-- Changes what is in a slot. -/
def update (a : Arena) (slot : Slot) (change : Node → Node) : Except Fault Arena :=
  match a.node? slot with
  | some node => .ok (a.put slot (some (change node)))
  | none => .error (.unlinked slot)

/-- Makes `next` follow the slot `prev`, or come first if there is no such slot. -/
def linkNext (a : Arena) (prev next : Option Slot) : Except Fault Arena :=
  match prev with
  | some slot => a.update slot fun node => { node with next }
  | none => .ok { a with first := next }

/-- Makes `prev` precede the slot `next`, or come last if there is no such slot. -/
def linkPrev (a : Arena) (next prev : Option Slot) : Except Fault Arena :=
  match next with
  | some slot => a.update slot fun node => { node with prev }
  | none => .ok { a with last := prev }

/-- Puts a node into an empty slot. Nothing leads to it yet. -/
def allocate (a : Arena) (node : Node) : Except Fault (Slot × Arena) :=
  match a.free with
  | slot :: free =>
    if slot < a.nodes.size then
      .ok (slot, { a.put slot (some node) with free, size := a.size + 1 })
    else .error (.outOfRange slot)
  | [] => .ok (a.nodes.size, { a with nodes := a.nodes.push (some node), size := a.size + 1 })

/-- Adds an instruction between two neighbours; either of them may be missing. -/
def insertBetween (a : Arena) (instruction : Instruction) (prev next : Option Slot) :
    Except Fault (Slot × Arena) := do
  let (slot, a) ← a.allocate { instruction, prev, next }
  let a ← a.linkPrev next (some slot)
  let a ← a.linkNext prev (some slot)
  return (slot, a)

/-- Adds an instruction at the end. -/
def append (a : Arena) (i : Instruction) : Except Fault (Slot × Arena) :=
  a.insertBetween i a.last none

/-- Adds an instruction directly before the one in a slot, if there is one. -/
def insertBefore (a : Arena) (i : Instruction) (anchor : Slot) :
    Except Fault (Option Slot × Arena) :=
  match a.node? anchor with
  | some node => do
    let (slot, a) ← a.insertBetween i node.prev (some anchor)
    return (some slot, a)
  | none => .ok (none, a)

/-- Removes the instruction in a slot, if there is one; gives the instruction and the slot that
followed it. -/
def take (a : Arena) (slot : Slot) : Except Fault (Option (Instruction × Option Slot) × Arena) :=
  match a.node? slot with
  | some { instruction, prev, next } => do
    let a ← (a.put slot none).linkNext prev next
    let a ← a.linkPrev next prev
    match a.size with
    | 0 => .error .miscounted
    | size + 1 => return (some (instruction, next), { a with free := slot :: a.free, size })
  | none => .ok (none, a)

/-- Removes the instruction in a slot, if there is one; gives the slot that followed it. -/
def remove (a : Arena) (slot : Slot) : Except Fault (Option Slot × Arena) := do
  let (taken, a) ← a.take slot
  return (taken.bind Prod.snd, a)

/-- Changes the instruction in a slot, if there is one. -/
def modify (a : Arena) (slot : Slot) (change : Instruction → Instruction) : Arena :=
  let changeNode (node : Node) := { node with instruction := change node.instruction }
  { a with nodes := a.nodes.modify slot (Option.map changeNode) }

end Arena

end Store

end ThreeAddress
