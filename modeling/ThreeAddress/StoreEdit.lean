/-
What a pass over a stored program leaves behind. Slots are filled and emptied one
by one, and the usage follows each of these edits; slots that a pass does not
touch keep their instructions and their order. A pass that finds the program
inconsistent stops with the cause and the store as far as it was edited.
-/
import ThreeAddress.Edit
import ThreeAddress.Store

namespace ThreeAddress

/-- A stored program after some part of a pass. -/
structure StoreEdit where
  store : Store
  usage : Usage
  /-- How many changes were made. -/
  changes : Nat
deriving DecidableEq, Repr

/-- Where and why a pass over a stored program stopped. -/
structure StoreHalt where
  cause : Inconsistency
  /-- The store as the pass left it. -/
  store : Store
deriving DecidableEq, Repr

/-- The halt, with the program read off the store. -/
def StoreHalt.toHalt (halt : StoreHalt) : Halt where
  cause := halt.cause
  code := halt.store.code

/-- What a pass over a stored program gives, read off the store. -/
def StoreHalt.read {α β : Type} (view : α → β) : Except StoreHalt α → Except Halt β
  | .ok result => .ok (view result)
  | .error halt => .error halt.toHalt

/-- Turns a refusal of a stored program into a halt that leaves the store as it is. -/
def StoreHalt.leaving {α : Type} (s : Store) : Except Inconsistency α → Except StoreHalt α
  | .ok result => .ok result
  | .error cause => .error ⟨cause, s⟩

namespace StoreEdit

/-- The edit, with the program read off the store. -/
def toEdit (edit : StoreEdit) : Edit where
  code := edit.store.code
  usage := edit.usage
  changes := edit.changes

/-- Adds an instruction directly before a slot, and to the usage. -/
def insertBefore (anchor : Slot) (edit : StoreEdit) (i : Instruction) : StoreEdit :=
  { edit with
    usage := edit.usage.add i
    store :=
      match edit.store.insertBefore? i anchor with
      | some (_, s) => s
      | none => edit.store }

/-- Empties slots, with their instructions removed from the usage; gives the slot that followed the
last one that was emptied. -/
def takeAll (edit : StoreEdit) : List Slot → Option Slot → Option Slot × StoreEdit
  | [], next => (next, edit)
  | slot :: rest, next =>
    match edit.store.take? slot with
    | some (i, after, s) =>
      { edit with store := s, usage := edit.usage.remove i }.takeAll rest after
    | none => edit.takeAll rest next

/-- Empties the slots along the links from one up to and with another, in at most `turns` turns;
gives the slot that followed. -/
def takeRange (last : Slot) : (turns : Nat) → Option Slot → StoreEdit → Option Slot × StoreEdit
  | turns + 1, some slot, edit =>
    match edit.store.take? slot with
    | some (i, next, s) =>
      let edit := { edit with store := s, usage := edit.usage.remove i }
      if slot = last then (next, edit) else takeRange last turns next edit
    | none => (none, edit)
  | _, _, edit => (none, edit)

end StoreEdit

end ThreeAddress
