/-
The survey of a stored program. The slots are gone through in order. The start of
an expression is remembered by its slot; the effects that were stored there are
forgotten when it is scanned, and those of the expression are added in the end.
-/
import ThreeAddress.StoreEdit

namespace ThreeAddress

namespace Survey

/-- Scans the instruction in a slot. -/
def scanSlot (position : Nat) (slot : Slot) (state : Store × Survey) :
    Except StoreHalt (Store × Survey) := do
  let (s, found) := state
  match s.get? slot with
  | none => return (s, found)
  | some i =>
    let found ← StoreHalt.leaving s (found.scanOne position i slot)
    return (s.modify slot clear, found)

/-- Scans slots, the first of which is at the given position. -/
def scanSlots : Nat → List Slot → Store × Survey → Except StoreHalt (Store × Survey)
  | _, [], state => .ok state
  | position, slot :: rest, state => do
    let state ← scanSlot position slot state
    scanSlots (position + 1) rest state

/-- Adds effects to those stored in a slot. -/
def addEffects (s : Store) (slot : Slot) (effects : Effects) : Store :=
  s.modify slot fun i => { i with effects := i.effects.union effects }

/-- Stores the effects of every expression in the slot where it starts. -/
def storeEffects (found : Survey) (functions : Table String FunctionUse) (s : Store) : Store :=
  let s := found.bracketEffects.foldl (fun s entry => addEffects s entry.1 entry.2) s
  found.bracketCalls.foldl
    (fun s entry => addEffects s entry.1 (calleeEffects functions entry.2)) s

end Survey

/-- Surveys a stored program: its usage, and the store with the effects of its expressions. -/
def Usage.surveyOver (s : Store) : Except StoreHalt (Usage × Store) := do
  let (s, found) ← Survey.scanSlots 0 s.order (s, {})
  let functions := found.closedFunctions
  return ({ found.usage with functions }, found.storeEffects functions s)

end ThreeAddress
