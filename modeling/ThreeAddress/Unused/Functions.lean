/-
Removal of functions that are never called. A function is the code from its
marked start to the next marked end. A sweep goes through the program once and
drops each function whose count of calls is zero at that moment; since that may
have dropped the last call of another one, sweeps are repeated until one drops
nothing.
-/
import ThreeAddress.Edit

namespace ThreeAddress.Unused

/-- The function that starts at an instruction and is never called. -/
def uncalled? (usage : Usage) (i : Instruction) : Option String :=
  (Usage.startedFunction? i).filter fun label => usage.calls label = 0

/-- Sweeps over the rest of a program. While `dropping` is set, instructions belong to a function
that is dropped; `done` holds what is kept, last first. -/
def sweepFrom : Bool → List Instruction → Usage → List Instruction → Nat → Except Halt Edit
  | _, [], usage, done, changes => .ok { code := done.reverse, usage, changes }
  | true, i :: rest, usage, done, changes =>
    sweepFrom (!i.markers.functionEnd) rest (usage.remove i) done changes
  | false, i :: rest, usage, done, changes =>
    match uncalled? usage i with
    | none => sweepFrom false rest usage (i :: done) changes
    | some label =>
      if (i :: rest).any fun i => i.markers.functionEnd then
        sweepFrom (!i.markers.functionEnd) rest (usage.remove i) done (changes + 1)
      else .error ⟨.unterminatedFunction label, done.reverse ++ i :: rest⟩

/-- Sweeps until one drops nothing. Every other sweep makes the program shorter, so as many sweeps
as there are instructions, and one more, are enough. -/
def sweepFunctions : Nat → Edit → Except Halt Edit
  | 0, edit => .ok edit
  | sweeps + 1, edit => do
    let next ← sweepFrom false edit.code edit.usage [] 0
    if next.changes = 0 then return edit
    else sweepFunctions sweeps { next with changes := edit.changes + next.changes }

/-- Removes every function that is never called; the changes are the functions removed. -/
def removeFunctions (code : List Instruction) : Except Halt Edit := do
  let (usage, surveyed) ← Halt.surveying code
  sweepFunctions (surveyed.length + 1) { code := surveyed, usage, changes := 0 }

end ThreeAddress.Unused
