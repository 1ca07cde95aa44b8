/-
The survey of a whole program. One scan counts every use, notes which effects
stand inside which function and which expression, and notes the calls made
there. Effects then spread from callees to callers until nothing changes, and
each instruction that starts an expression receives the effects of evaluating
it: those of the instructions up to the expression's end, and those of the
functions called on the way.
-/
import ThreeAddress.Inconsistency
import ThreeAddress.Usage

namespace ThreeAddress

/-- What the scan has found so far. -/
structure Survey where
  usage : Usage := {}
  /-- The function whose body is being scanned. -/
  function : Option String := none
  /-- The place of the instruction that started the open expression. -/
  bracket : Option Nat := none
  /-- Caller and callee of every call inside a function, in program order. -/
  calls : List (String × String) := []
  /-- The callees inside expressions, with the place where the expression started. -/
  bracketCalls : List (Nat × String) := []
  /-- The effects inside expressions, with the place where the expression started. -/
  bracketEffects : List (Nat × Effects) := []
deriving DecidableEq, Repr

namespace Survey

/-- The function whose body an instruction stands in. A marked function start has to define a
label. -/
def enterFunction (s : Survey) (position : Nat) (i : Instruction) :
    Except Inconsistency (Option String) :=
  if i.markers.functionStart then
    match i.definedLabel? with
    | some label => .ok (some label)
    | none => .error (.functionStartNotLabel i.opcode position)
  else .ok s.function

/-- Counts an instruction and notes what it does to the variable and the function around it. -/
def countUses (u : Usage) (function : Option String) (i : Instruction) : Usage :=
  let u := u.add i
  { u with
    vars :=
      match i.opcode, i.target? with
      | .read, some v =>
        u.vars.alter v fun use =>
          let use := use.getD {}
          some { use with effects := use.effects.union { input := true } }
      | _, _ => u.vars
    functions :=
      match function with
      | some label =>
        u.functions.alter label fun use =>
          let use := use.getD {}
          some { use with effects := use.effects.union i.ownEffects }
      | none => u.functions }

/-- Scans the instruction at a position. Its place is the position, or the slot in a store. -/
def scanOne (s : Survey) (position : Nat) (i : Instruction) (place : Nat := position) :
    Except Inconsistency Survey := do
  let function ← s.enterFunction position i
  let bracket := if i.markers.expressionStart then some place else s.bracket
  let callee := Usage.calledFunction? i
  return {
    usage := countUses s.usage function i
    function := if i.markers.functionEnd then none else function
    bracket := if i.markers.expressionEnd then none else bracket
    calls :=
      match function, callee with
      | some caller, some callee => s.calls ++ [(caller, callee)]
      | _, _ => s.calls
    bracketCalls :=
      match bracket, callee with
      | some start, some callee => s.bracketCalls ++ [(start, callee)]
      | _, _ => s.bracketCalls
    bracketEffects :=
      match bracket with
      | some start =>
        if i.markers.expressionEnd || i.ownEffects.isPure then s.bracketEffects
        else s.bracketEffects ++ [(start, i.ownEffects)]
      | none => s.bracketEffects }

/-- Scans instructions, the first of which stands at the given position. -/
def scan : Nat → List Instruction → Survey → Except Inconsistency Survey
  | _, [], s => .ok s
  | position, i :: rest, s => do
    let s ← s.scanOne position i
    scan (position + 1) rest s

/-- The effects of calling a function. A function without an entry may do anything. -/
def calleeEffects (functions : Table String FunctionUse) (callee : String) : Effects :=
  match functions.get? callee with
  | some use => use.effects
  | none => .all

/-- Gives each caller the effects of its callees, one call after the other; the flag says whether
this was new to some caller. -/
def spreadOnce : List (String × String) → Table String FunctionUse →
    Table String FunctionUse × Bool
  | [], functions => (functions, false)
  | (caller, callee) :: rest, functions =>
    let inherited := calleeEffects functions callee
    let use := (functions.get? caller).getD {}
    if use.effects.contains inherited then spreadOnce rest functions
    else
      let functions :=
        functions.put caller { use with effects := use.effects.union inherited }
      ((spreadOnce rest functions).1, true)

/-- Spreads effects to callers until nothing changes. -/
def spread (calls : List (String × String)) :
    Nat → Table String FunctionUse → Table String FunctionUse
  | 0, functions => functions
  | rounds + 1, functions =>
    match spreadOnce calls functions with
    | (functions, true) => spread calls rounds functions
    | (functions, false) => functions

/-- The functions with the effects of everything they call. A round that changes something adds
one of three effects to some function, which bounds the number of rounds. -/
def closedFunctions (s : Survey) : Table String FunctionUse :=
  spread s.calls (3 * s.usage.functions.size + 1) s.usage.functions

/-- The effects of the expression that starts at a place. -/
def bracketTotal (s : Survey) (functions : Table String FunctionUse) (start : Nat) : Effects :=
  let own := s.bracketEffects.foldl (fun total entry =>
    if entry.1 = start then total.union entry.2 else total) Effects.none
  s.bracketCalls.foldl (fun total entry =>
    if entry.1 = start then total.union (calleeEffects functions entry.2) else total) own

/-- Stores the effects of every expression on the instruction that starts it. -/
def markEffects (s : Survey) (functions : Table String FunctionUse) (code : List Instruction) :
    List Instruction :=
  code.mapIdx fun position i =>
    if i.markers.expressionStart then { i with effects := s.bracketTotal functions position }
    else i

/-- Whether the scan goes on behind an instruction. -/
def accepts (i : Instruction) : Bool :=
  !i.markers.functionStart || i.definedLabel?.isSome

/-- Forgets the effects of the expression that starts at an instruction. -/
def clear (i : Instruction) : Instruction :=
  if i.markers.expressionStart then { i with effects := .none } else i

/-- The program that a scan leaves when it fails. Expressions that start before the cause have lost
the effects that were stored for them. -/
def interrupted (code : List Instruction) : List Instruction :=
  (code.takeWhile accepts).map clear ++ code.dropWhile accepts

end Survey

/-- Surveys a program: its usage, and the program with the effects of its expressions. -/
def Usage.survey (code : List Instruction) : Except Inconsistency (Usage × List Instruction) := do
  let found ← Survey.scan 0 code {}
  let functions := found.closedFunctions
  return ({ found.usage with functions }, found.markEffects functions code)

end ThreeAddress
