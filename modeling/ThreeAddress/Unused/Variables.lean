/-
Removal of variables that are never used. A variable outside the temporary frame
without occurrences is only declared and stored into; the declarations and the
stores go. If the store closes the evaluation of an expression, the whole
evaluation goes, unless it has effects; then it stays, and so does the
declaration of its variable. When the instruction that starts an expression
goes, the next instruction takes over as its start.
-/
import ThreeAddress.Edit

namespace ThreeAddress.Unused

/-- Whether a variable can be given up. -/
def isUnused (usage : Usage) (v : Variable) : Bool :=
  v.frame ≠ .tf ∧ usage.occurrences v = 0

/-- Whether an instruction stores the value of an expression. -/
def closesExpression (i : Instruction) : Bool :=
  i.opcode = .pops ∧ i.markers.expressionEnd

/-- The variables that receive the value of an expression with effects and are not used. Every
store of an expression's value needs a start of that expression before it; `start` holds the
effects of the start that is open, and positions count from the given one. -/
def keptVariables (usage : Usage) :
    Nat → List Instruction → Option Effects → Except Inconsistency (List Variable)
  | _, [], _ => .ok []
  | position, i :: rest, start => do
    let start := if i.markers.expressionStart then some i.effects else start
    if closesExpression i then
      match start with
      | none => .error (.missingExpressionStart i.opcode position)
      | some effects =>
        let kept := i.operands.head?.bind Operand.var? |>.filter fun v =>
          !effects.isPure && usage.occurrences v = 0
        let others ← keptVariables usage (position + 1) rest none
        return kept.toList ++ others
    else keptVariables usage (position + 1) rest start

/-- Whether an instruction is given up because it mentions an unused variable. -/
def isDead (usage : Usage) (kept : List Variable) (i : Instruction) : Bool :=
  i.vars.any fun v => isUnused usage v && !(i.opcode = .defvar && kept.contains v)

/-- How many instructions there are up to the first that starts an expression, that one included,
and its effects. -/
def expressionStart? : List Instruction → Option (Nat × Effects)
  | [] => none
  | i :: rest =>
    if i.markers.expressionStart then some (1, i.effects)
    else (expressionStart? rest).map fun (count, effects) => (count + 1, effects)

/-- Makes an instruction the start of an expression with the given effects. -/
def takeOver (i : Instruction) : Option Effects → Instruction
  | none => i
  | some effects =>
    { i with
      markers := { i.markers with expressionStart := true }
      effects := i.effects.union effects }

/-- The effects that the next instruction takes over when an instruction goes. -/
def handedOn (i : Instruction) : Option Effects :=
  if i.markers.expressionStart && !i.markers.expressionEnd then some i.effects else none

/-- Goes through the rest of a program. `handed` is what the next instruction takes over, `done`
holds what is kept, last first, and `removed` counts what is not. -/
def pruneFrom (kept : List Variable) :
    List Instruction → Option Effects → Usage → List Instruction → Nat → Except Halt Edit
  | [], _, usage, done, removed => .ok { code := done.reverse, usage, changes := removed }
  | i :: rest, handed, usage, done, removed =>
    let i := takeOver i handed
    if closesExpression i then
      if (i.operands.head?.bind Operand.var?).any (isUnused usage) then
        match expressionStart? (i :: done) with
        | none =>
          .error ⟨.missingExpressionStart .pops done.length, done.reverse ++ i :: rest⟩
        | some (count, effects) =>
          if effects.isPure then
            let span := ((i :: done).take count).reverse
            pruneFrom kept rest none (span.foldl Usage.remove usage) ((i :: done).drop count)
              (removed + count)
          else pruneFrom kept rest none usage (i :: done) removed
      else pruneFrom kept rest none usage (i :: done) removed
    else if isDead usage kept i then
      pruneFrom kept rest (handedOn i) (usage.remove i) done (removed + 1)
    else pruneFrom kept rest none usage (i :: done) removed

/-- One pass over a program, from a fresh survey; the changes are the instructions removed. -/
def prune (code : List Instruction) : Except Halt Edit := do
  let (usage, surveyed) ← Halt.surveying code
  let kept ← Halt.leaving surveyed (keptVariables usage 0 surveyed none)
  pruneFrom kept surveyed none usage [] 0

/-- Passes until one removes nothing. Every other pass makes the program shorter, so as many
passes as there are instructions, and one more, are enough. -/
def pruneAll : Nat → Edit → Except Halt Edit
  | 0, edit => .ok edit
  | passes + 1, edit => do
    let next ← prune edit.code
    if next.changes = 0 then return { next with changes := edit.changes }
    else pruneAll passes { next with changes := edit.changes + next.changes }

/-- Removes unused variables; the changes are the instructions removed. -/
def removeVariables (code : List Instruction) : Except Halt Edit :=
  pruneAll (code.length + 1) { code, usage := {}, changes := 0 }

end ThreeAddress.Unused
