/-
The instruction store of code under construction. A store is an arena whose
links are known to be right, so its operations cannot fault. A slot stays valid
while instructions are inserted and removed around it; after its instruction is
removed it may be used for another one. Asking with a slot that holds no
instruction is answered by `none` and changes nothing.
-/
import ThreeAddress.Listing.Writer
import ThreeAddress.Store.Order

namespace ThreeAddress

open Store (Arena Fault)

/-- Instructions in slots, linked in program order. -/
structure Store where
  arena : Arena := {}
  linked : arena.Linked := by exact Store.Arena.Linked.empty
deriving DecidableEq, Repr

namespace Store

/-! ### Looking at a store -/

/-- The instruction in a slot. -/
def get? (s : Store) (slot : Slot) : Option Instruction :=
  s.arena.get? slot

/-- Whether a slot holds an instruction. -/
def contains (s : Store) (slot : Slot) : Bool :=
  (s.get? slot).isSome

/-- The slots with their instructions, in program order. -/
def entries (s : Store) : List (Slot × Instruction) :=
  s.arena.entriesFrom s.arena.first

/-- The entries from a slot on; none if the slot is not used. -/
def entriesFrom (s : Store) (slot : Slot) : List (Slot × Instruction) :=
  s.arena.entriesFrom (some slot)

/-- The slots in program order. -/
def order (s : Store) : List Slot :=
  s.entries.map Prod.fst

/-- The slots from a slot on, in program order; none if it is not used. -/
def since (s : Store) (slot : Slot) : List Slot :=
  (s.entriesFrom slot).map Prod.fst

/-- The instructions in program order. -/
def code (s : Store) : List Instruction :=
  s.entries.map Prod.snd

/-- How many instructions there are. -/
def size (s : Store) : Nat :=
  s.arena.size

/-- The slot of the first instruction. -/
def first? (s : Store) : Option Slot :=
  s.arena.first

/-- The slot of the last instruction. -/
def last? (s : Store) : Option Slot :=
  s.arena.last

/-- The slot that follows a slot. -/
def next? (s : Store) (slot : Slot) : Option Slot :=
  s.arena.next? slot

/-- The slot that precedes a slot. -/
def prev? (s : Store) (slot : Slot) : Option Slot :=
  s.arena.prev? slot

/-- How many instructions stand before a slot; all of them if the slot is not used. -/
def position (s : Store) (slot : Slot) : Nat :=
  (s.entries.takeWhile fun entry => entry.1 ≠ slot).length

/-- The listing of the stored program. -/
def text (s : Store) : String :=
  Listing.plain s.code

/-! ### Changing a store -/

/-- What an operation on the arena of a store gives. -/
def ofSafe {α : Type} (result : Except Fault (α × Arena)) (safe : Arena.Safe result) : α × Store :=
  match result with
  | .ok (value, arena) =>
    (value, { arena, linked := by obtain ⟨_, _, same, linked⟩ := safe; cases same; exact linked })
  | .error _ => False.elim (by obtain ⟨_, _, same, _⟩ := safe; cases same)

/-- Adds an instruction at the end. -/
def append (s : Store) (i : Instruction) : Slot × Store :=
  ofSafe (s.arena.append i) (s.linked.append i)

/-- The store in which a program was put, instruction by instruction. -/
def ofCode (code : List Instruction) : Store :=
  code.foldl (fun s i => (s.append i).2) {}

/-- Adds an instruction directly before a slot. -/
def insertBefore? (s : Store) (i : Instruction) (anchor : Slot) : Option (Slot × Store) :=
  match ofSafe (s.arena.insertBefore i anchor) (s.linked.insertBefore i anchor) with
  | (some slot, s) => some (slot, s)
  | (none, _) => none

/-- Removes the instruction in a slot; gives the instruction and the slot that followed. -/
def take? (s : Store) (slot : Slot) : Option (Instruction × Option Slot × Store) :=
  match ofSafe (s.arena.take slot) (s.linked.take slot) with
  | (some (i, next), s) => some (i, next, s)
  | (none, _) => none

/-- Removes the instruction in a slot, if there is one; gives the slot that followed. -/
def remove (s : Store) (slot : Slot) : Option Slot × Store :=
  ofSafe (s.arena.remove slot) (s.linked.remove slot)

/-- Changes the instruction in a slot. -/
def modify (s : Store) (slot : Slot) (change : Instruction → Instruction) : Store where
  arena := s.arena.modify slot change
  linked := s.linked.modify slot change

end Store

end ThreeAddress
