/-
Removal of dead code from a stored program. A pass stands at a slot. What it
removes it empties slot by slot, a function from its start to its end and an
expression from its start to the slot where the pass stands, and it goes on at the
slot that followed. When the start of an expression is removed alone, the
instruction in the next slot becomes the start.
-/
import ThreeAddress.Unused.Functions
import ThreeAddress.Unused.Variables
import ThreeAddress.Usage.Cursor

namespace ThreeAddress.Unused

/-! ### Functions -/

/-- The first slot from the given one on that holds the end of a function. -/
def functionEnd? (s : Store) (start : Slot) : Option Slot :=
  ((s.entriesFrom start).find? fun entry => entry.2.markers.functionEnd).map Prod.fst

/-- Removes the function that starts at a slot; gives the slot that followed it. -/
def removeFunction (label : String) (start : Slot) (edit : StoreEdit) :
    Except StoreHalt (Option Slot × StoreEdit) :=
  match functionEnd? edit.store start with
  | some last => .ok (StoreEdit.takeRange last edit.store.size (some start) edit)
  | none => .error ⟨.unterminatedFunction label, edit.store⟩

/-- Sweeps on from a slot to the end of the program, in at most `turns` turns. -/
def sweepSlots : (turns : Nat) → Option Slot → StoreEdit → Except StoreHalt StoreEdit
  | turns + 1, some slot, edit =>
    match (edit.store.get? slot).bind (uncalled? edit.usage) with
    | none => sweepSlots turns (edit.store.next? slot) edit
    | some label => do
      let (next, edit) ← removeFunction label slot edit
      sweepSlots turns next { edit with changes := edit.changes + 1 }
  | _, _, edit => .ok edit

/-- One sweep. Every turn leaves an instruction behind, so there are no more turns than
instructions. -/
def sweepOver (s : Store) (usage : Usage) : Except StoreHalt StoreEdit :=
  sweepSlots s.size s.first? { store := s, usage, changes := 0 }

/-- Sweeps until one drops nothing. -/
def sweepFunctionsOver : Nat → StoreEdit → Except StoreHalt StoreEdit
  | 0, edit => .ok edit
  | sweeps + 1, edit => do
    let next ← sweepOver edit.store edit.usage
    if next.changes = 0 then return edit
    else sweepFunctionsOver sweeps { next with changes := edit.changes + next.changes }

/-- Removes every function that is never called; the changes are the functions removed. -/
def removeFunctionsOver (s : Store) : Except StoreHalt StoreEdit := do
  let (usage, surveyed) ← Usage.surveyOver s
  sweepFunctionsOver (surveyed.size + 1) { store := surveyed, usage, changes := 0 }

/-! ### Variables -/

/-- The variables that receive the value of an expression with effects and are not used, as
`keptVariables`; `start` is the slot of the start that is open. -/
def keptOver (usage : Usage) (s : Store) :
    List (Slot × Instruction) → Option Slot → Except Inconsistency (List Variable)
  | [], _ => .ok []
  | (slot, i) :: rest, start => do
    let start := if i.markers.expressionStart then some slot else start
    if closesExpression i then
      match start with
      | none => .error (.missingExpressionStart i.opcode (s.position slot))
      | some start =>
        let pure := (s.get? start).all fun first => first.effects.isPure
        let kept := i.operands.head?.bind Operand.var? |>.filter fun v =>
          !pure && usage.occurrences v = 0
        let others ← keptOver usage s rest none
        return kept.toList ++ others
    else keptOver usage s rest start

/-- The first slot, going back from the given one, where an expression starts, and the effects that
are stored there. -/
def startBefore? (s : Store) : (turns : Nat) → Option Slot → Option (Slot × Effects)
  | turns + 1, some slot =>
    match (s.get? slot).filter fun i => i.markers.expressionStart with
    | some i => some (slot, i.effects)
    | none => startBefore? s turns (s.prev? slot)
  | _, _ => none

/-- Removes the instruction in a slot; gives the slot that followed. If an expression started at the
instruction, it starts at the next one instead. -/
def removeSlot (slot : Slot) (edit : StoreEdit) : Option Slot × StoreEdit :=
  match edit.store.take? slot with
  | none => (none, edit)
  | some (i, next, s) =>
    let s :=
      match next with
      | some next => s.modify next fun j => takeOver j (handedOn i)
      | none => s
    (next, { store := s, usage := edit.usage.remove i, changes := edit.changes + 1 })

/-- How many instructions there are from one slot up to and with another. -/
def distance (s : Store) (start last : Slot) : Nat :=
  ((s.since start).findIdx? (· = last)).elim 0 (· + 1)

/-- Deals with the store of an expression's value in a slot: the evaluation goes, or it stays. Gives
the slot that followed. -/
def closeSlot (slot : Slot) (i : Instruction) (edit : StoreEdit) :
    Except StoreHalt (Option Slot × StoreEdit) :=
  if (i.operands.head?.bind Operand.var?).any (isUnused edit.usage) then
    match startBefore? edit.store edit.store.size (some slot) with
    | none =>
      .error ⟨.missingExpressionStart .pops (edit.store.position slot), edit.store⟩
    | some (start, effects) =>
      if effects.isPure then
        .ok (StoreEdit.takeRange slot edit.store.size (some start)
          { edit with changes := edit.changes + distance edit.store start slot })
      else .ok (edit.store.next? slot, edit)
  else .ok (edit.store.next? slot, edit)

/-- Goes on from a slot to the end of the program, in at most `turns` turns. -/
def pruneSlots (kept : List Variable) :
    (turns : Nat) → Option Slot → StoreEdit → Except StoreHalt StoreEdit
  | turns + 1, some slot, edit =>
    match edit.store.get? slot with
    | none => .ok edit
    | some i =>
      if closesExpression i then do
        let (next, edit) ← closeSlot slot i edit
        pruneSlots kept turns next edit
      else if isDead edit.usage kept i then
        let (next, edit) := removeSlot slot edit
        pruneSlots kept turns next edit
      else pruneSlots kept turns (edit.store.next? slot) edit
  | _, _, edit => .ok edit

/-- One pass over a stored program, from a fresh survey. -/
def pruneOver (s : Store) : Except StoreHalt StoreEdit := do
  let (usage, surveyed) ← Usage.surveyOver s
  let kept ← StoreHalt.leaving surveyed (keptOver usage surveyed surveyed.entries none)
  pruneSlots kept surveyed.size surveyed.first? { store := surveyed, usage, changes := 0 }

/-- Passes until one removes nothing. -/
def pruneAllOver : Nat → StoreEdit → Except StoreHalt StoreEdit
  | 0, edit => .ok edit
  | passes + 1, edit => do
    let next ← pruneOver edit.store
    if next.changes = 0 then return { next with changes := edit.changes }
    else pruneAllOver passes { next with changes := edit.changes + next.changes }

/-- Removes unused variables; the changes are the instructions removed. -/
def removeVariablesOver (s : Store) : Except StoreHalt StoreEdit :=
  pruneAllOver (s.size + 1) { store := s, usage := {}, changes := 0 }

end ThreeAddress.Unused
