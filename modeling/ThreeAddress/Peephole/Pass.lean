/-
Running peephole rules over a program. A pass goes through the program once from
the front. Where a rule applies, the first such rule replaces its span and the
pass goes on behind it, so replaced instructions are not looked at again; where
none applies, the instruction stays. Passes are repeated until one changes
nothing or a limit is reached.
-/
import ThreeAddress.Edit
import ThreeAddress.Peephole.Matching

namespace ThreeAddress.Peephole

/-- The first rule that applies to the instructions in front, with the length of its span and
what it puts there. -/
def firstApplicable? (rules : List Rule) (usage : Usage) (code : List Instruction) :
    Option (Nat × List Instruction) :=
  rules.findSome? fun rule =>
    (rule.fire? usage code).map fun replacement => (rule.pattern.length, replacement)

/-- The usage after a span was replaced: the replacement is added before the span is removed. -/
def replaceUsage (usage : Usage) (span replacement : List Instruction) : Usage :=
  span.foldl Usage.remove (replacement.foldl Usage.add usage)

/-- Goes through the rest of a program. The first `skip` instructions belong to a span that was
replaced already; `done` holds what the pass has put out, last first. -/
def passFrom (rules : List Rule) :
    Nat → List Instruction → Usage → List Instruction → Nat → Edit
  | _, [], usage, done, changes => { code := done.reverse, usage, changes }
  | skip + 1, _ :: rest, usage, done, changes => passFrom rules skip rest usage done changes
  | 0, i :: rest, usage, done, changes =>
    match firstApplicable? rules usage (i :: rest) with
    | none => passFrom rules 0 rest usage (i :: done) changes
    | some (length, replacement) =>
      passFrom rules (length - 1) rest
        (replaceUsage usage ((i :: rest).take length) replacement)
        (replacement.reverse ++ done) (changes + 1)

/-- One pass over a program. -/
def pass (rules : List Rule) (code : List Instruction) (usage : Usage) : Edit :=
  passFrom rules 0 code usage [] 0

/-- Passes over a program until one changes nothing, at most as many as the limit says; the flag
says whether that was reached. -/
def settle (rules : List Rule) : Nat → Edit → Edit × Bool
  | 0, edit => (edit, false)
  | limit + 1, edit =>
    let next := pass rules edit.code edit.usage
    if next.changes = 0 then (edit, true)
    else settle rules limit { next with changes := edit.changes + next.changes }

/-- Repeated passes over a program. -/
def run (rules : List Rule) (limit : Nat) (code : List Instruction) (usage : Usage) :
    Edit × Bool :=
  settle rules limit { code, usage, changes := 0 }

end ThreeAddress.Peephole
