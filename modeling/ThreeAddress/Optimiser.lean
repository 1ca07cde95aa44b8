/-
The optimiser. A pass removes unused functions and variables, or runs the
peephole rules, or propagates constants; each starts from a fresh survey of the
program. The configured passes are repeated until one round changes nothing or a
limit is reached. What happened on the way is reported as events.
-/
import ThreeAddress.Constants.Walk
import ThreeAddress.Peephole.Pass
import ThreeAddress.Peephole.Standard
import ThreeAddress.Unused.Functions
import ThreeAddress.Unused.Variables

namespace ThreeAddress

/-- The passes. -/
inductive Pass where
  | deadCode
  | peephole
  | constantPropagation
deriving DecidableEq, Repr

/-- The name of a pass on the command line. -/
def Pass.name : Pass → String
  | .deadCode => "dead-code"
  | .peephole => "peephole"
  | .constantPropagation => "constant-propagation"

/-- The pass with a given name. -/
def Pass.ofName? (name : String) : Option Pass :=
  [Pass.deadCode, .peephole, .constantPropagation].find? fun pass => pass.name = name

/-- Something worth reporting. -/
inductive Event where
  /-- A round over all passes ended with this many changes. -/
  | round (number changes : Nat)
  /-- The rounds ended at their limit. -/
  | unsettled (limit : Nat)
  /-- The peephole passes of a round ended at their limit. -/
  | peepholeUnsettled (limit : Nat)
deriving DecidableEq, Repr

namespace Optimiser

/-- What the optimiser is asked to do. -/
structure Config where
  /-- The passes of one round. -/
  passes : List Pass := [.deadCode, .peephole, .constantPropagation, .deadCode]
  /-- How many peephole passes a round may have. -/
  peepholeLimit : Nat := 64
  /-- How many rounds there may be. -/
  iterationLimit : Nat := 16
deriving DecidableEq, Repr

/-- Removes unused functions and then unused variables. -/
def removeDeadCode (code : List Instruction) : Except Halt Edit := do
  let functions ← Unused.removeFunctions code
  let trimmed ← Unused.removeVariables functions.code
  return { trimmed with changes := functions.changes + trimmed.changes }

/-- Runs one pass; the events are those to be reported for it. -/
def runPass (peepholeLimit : Nat) (pass : Pass) (code : List Instruction) :
    Except Halt (Edit × List Event) :=
  match pass with
  | .deadCode => (removeDeadCode code).map fun edit => (edit, [])
  | .peephole => do
    let (usage, surveyed) ← Halt.surveying code
    match Peephole.run Peephole.standard peepholeLimit surveyed usage with
    | (edit, true) => return (edit, [])
    | (edit, false) => return (edit, [.peepholeUnsettled peepholeLimit])
  | .constantPropagation => do
    let (usage, surveyed) ← Halt.surveying code
    let flow ← Halt.leaving surveyed (Flow.build surveyed)
    return (Constants.propagate surveyed flow usage, [])

/-- Where the optimiser stands, or how it ended. -/
structure Run where
  code : List Instruction
  /-- The usage after the last pass. -/
  usage : Usage := {}
  /-- The events so far, in order. -/
  events : List Event := []
  /-- Why the optimiser stopped, if a pass found the program inconsistent. -/
  failure : Option Inconsistency := none
deriving DecidableEq, Repr

/-- Runs passes one after the other; gives the changes they made together. -/
def runPasses (peepholeLimit : Nat) : List Pass → Run → Nat → Run × Nat
  | [], run, changes => (run, changes)
  | pass :: rest, run, changes =>
    match runPass peepholeLimit pass run.code with
    | .error halt => ({ run with code := halt.code, failure := some halt.cause }, changes)
    | .ok (edit, events) =>
      runPasses peepholeLimit rest
        { run with code := edit.code, usage := edit.usage, events := run.events ++ events }
        (changes + edit.changes)

/-- Runs rounds, the first of which has the given number, until one changes nothing. -/
def rounds (config : Config) : Nat → Nat → Run → Run
  | 0, _, run => { run with events := run.events ++ [.unsettled config.iterationLimit] }
  | left + 1, number, run =>
    let (run, changes) := runPasses config.peepholeLimit config.passes run 0
    if run.failure.isSome then run
    else
      let run := { run with events := run.events ++ [.round number changes] }
      if changes = 0 then run else rounds config left (number + 1) run

/-- Optimises a program. -/
def optimise (config : Config) (code : List Instruction) : Run :=
  rounds config config.iterationLimit 1 { code }

end Optimiser

end ThreeAddress
