/-
The passes of the optimiser over a stored program. Each pass edits the slots of
the store in place and starts from a fresh survey of it.
-/
import ThreeAddress.Constants.Cursor
import ThreeAddress.Optimiser
import ThreeAddress.Peephole.Cursor
import ThreeAddress.Unused.Cursor

namespace ThreeAddress.Optimiser

/-- Removes unused functions and then unused variables. -/
def removeDeadCodeOver (s : Store) : Except StoreHalt StoreEdit := do
  let functions ← Unused.removeFunctionsOver s
  let trimmed ← Unused.removeVariablesOver functions.store
  return { trimmed with changes := functions.changes + trimmed.changes }

/-- Runs the standard peephole rules; there is no result if a replacement has an instruction with
the wrong number of operands. -/
def runPeepholeOver (limit : Nat) (s : Store) :
    Option (Except StoreHalt (StoreEdit × List Event)) :=
  match Usage.surveyOver s with
  | .error halt => some (.error halt)
  | .ok (usage, surveyed) => do
    let (edit, settled) ← Peephole.runOver Peephole.standard limit surveyed usage
    return .ok (edit, if settled then [] else [.peepholeUnsettled limit])

/-- Propagates constants. -/
def propagateConstantsOver (s : Store) : Except StoreHalt StoreEdit := do
  let (usage, surveyed) ← Usage.surveyOver s
  let flow ← StoreHalt.leaving surveyed (Flow.ofStore surveyed)
  return Constants.propagateOver surveyed flow usage

/-- Runs one pass over a stored program; the events are those to be reported for it. -/
def runPassOver (peepholeLimit : Nat) (pass : Pass) (s : Store) :
    Option (Except StoreHalt (StoreEdit × List Event)) :=
  match pass with
  | .deadCode => some ((removeDeadCodeOver s).map fun edit => (edit, []))
  | .peephole => runPeepholeOver peepholeLimit s
  | .constantPropagation => some ((propagateConstantsOver s).map fun edit => (edit, []))

end ThreeAddress.Optimiser
