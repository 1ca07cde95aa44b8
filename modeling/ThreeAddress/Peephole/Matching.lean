/-
Applying one peephole rule at one place. A rule applies where its templates meet
the instructions there one by one, and where the boundary markers can be carried
over: only the first instruction may open something, only the last may close
something, and if there are markers at all the replacement must not be empty.
The first instruction of the replacement takes the opening markers and the
effects of the span, the last one takes the closing markers.
-/
import ThreeAddress.Peephole.Rule
import ThreeAddress.Table
import ThreeAddress.Usage

namespace ThreeAddress.Peephole

/-- The operands that names stand for. -/
abbrev Bindings := Table String Operand

/-- Whether an operand is as required. -/
def Requirement.admits (operand : Operand) (bindings : Bindings) : Requirement → Bool
  | .anyVariable => operand.var?.isSome
  | .anyLabel => operand.label?.isSome
  | .literal type => operand.const?.any fun c => c.dataType = type
  | .zero => operand.const?.any Constant.isZero
  | .isTrue => operand.const? = some (.bool true)
  | .isFalse => operand.const? = some (.bool false)
  | .emptyString => operand.const?.any Constant.isEmptyString
  | .scratch => operand.var?.any fun v => v.scratchNumber?.isSome
  | .distinctFrom name => !(bindings.get? name).any fun bound => bound.same operand

/-- Whether a variable or a label is used as often as required. -/
def Quantity.admitsUse (usage : Usage) (quantity : Quantity) : Operand → Bool
  | .var v => quantity.admits (usage.occurrences v)
  | .label name => quantity.admits (usage.references name)
  | _ => false

/-- Matches a place with an operand; a new name is bound to it. -/
def matchPlace? (usage : Usage) (place : Place) (operand : Operand) (bindings : Bindings) :
    Option Bindings :=
  match place with
  | .any => some bindings
  | .named name requirement quantity =>
    match bindings.get? name with
    | some bound => if bound.same operand then some bindings else none
    | none =>
      if requirement.all (Requirement.admits operand bindings) &&
          quantity.all (fun quantity => quantity.admitsUse usage operand) then
        some (bindings.put name operand)
      else none

/-- Matches places with operands, in order; every place needs an operand. -/
def matchPlaces? (usage : Usage) : List Place → List Operand → Bindings → Option Bindings
  | [], _, bindings => some bindings
  | _ :: _, [], _ => none
  | place :: places, operand :: operands, bindings => do
    let bindings ← matchPlace? usage place operand bindings
    matchPlaces? usage places operands bindings

/-- Matches templates with the instructions in front; every template needs an instruction. -/
def matchPattern? (usage : Usage) : List Template → List Instruction → Bindings → Option Bindings
  | [], _, bindings => some bindings
  | _ :: _, [], _ => none
  | template :: templates, i :: rest, bindings =>
    if i.opcode = template.opcode then do
      let bindings ← matchPlaces? usage template.places i.operands bindings
      matchPattern? usage templates rest bindings
    else none

/-- Whether, behind its first instruction, a span opens nothing, and before its last one it
closes nothing. -/
def edgesOnly : List Instruction → Bool
  | [] => true
  | [_] => true
  | i :: next :: rest => !i.markers.hasEnd && !next.markers.hasStart && edgesOnly (next :: rest)

/-- Whether the markers of a span can be carried over to the replacement. -/
def keepsBoundaries (rule : Rule) (span : List Instruction) : Bool :=
  edgesOnly span &&
    !(span.any (fun i => !i.markers.isEmpty) && rule.replacement.isEmpty)

/-- The instructions that the rule applies to. -/
def Rule.span (rule : Rule) (code : List Instruction) : List Instruction :=
  code.take rule.pattern.length

/-- The bindings under which a rule matches the instructions in front. -/
def Rule.match? (rule : Rule) (usage : Usage) (code : List Instruction) : Option Bindings :=
  if rule.pattern.isEmpty then none
  else
    match matchPattern? usage rule.pattern code {} with
    | none => none
    | some bindings => if keepsBoundaries rule (rule.span code) then some bindings else none

/-- The instruction for a substitute. -/
def Substitute.instantiate? (bindings : Bindings) (substitute : Substitute) :
    Option Instruction :=
  Instruction.make? substitute.opcode (substitute.aliases.filterMap bindings.get?)

/-- Adds markers to the last instruction. -/
def markLast (ends : Markers) : List Instruction → List Instruction
  | [] => []
  | [i] => [{ i with markers := i.markers.union ends }]
  | i :: rest => i :: markLast ends rest

/-- Adds markers and effects to the first instruction. -/
def markFirst (starts : Markers) (effects : Effects) : List Instruction → List Instruction
  | [] => []
  | i :: rest => { i with markers := i.markers.union starts, effects } :: rest

/-- Carries the boundary markers of a span over to its replacement. -/
def carryBoundaries (span replacement : List Instruction) : List Instruction :=
  match span.head?, span.getLast? with
  | some first, some last =>
    markLast last.markers.ends (markFirst first.markers.starts first.effects replacement)
  | _, _ => replacement

/-- What a rule puts in the place of its span, if it applies to the instructions in front. -/
def Rule.fire? (rule : Rule) (usage : Usage) (code : List Instruction) :
    Option (List Instruction) := do
  let bindings ← rule.match? usage code
  let replacement ← rule.replacement.mapM (Substitute.instantiate? bindings)
  return carryBoundaries (rule.span code) replacement

end ThreeAddress.Peephole
