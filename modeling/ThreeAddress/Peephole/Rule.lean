/-
Peephole rules. A rule has a pattern, a sequence of templates for consecutive
instructions, and a replacement. A template may name the operands it meets; a
name stands for one operand throughout the rule, the first use binds it, and the
replacement is made of bound operands only. `Rule.make` accepts a rule exactly
if all its templates have room for their operands and all names are bound before
they are needed.
-/
import ThreeAddress.Inconsistency
import ThreeAddress.Operand

namespace ThreeAddress.Peephole

/-- How often a variable or a label may be used. -/
inductive Quantity where
  | exactly (n : Nat)
  | atLeast (n : Nat)
deriving DecidableEq, Repr

/-- Whether a count is as required. -/
def Quantity.admits : Quantity → Nat → Bool
  | .exactly n, count => count == n
  | .atLeast n, count => n ≤ count

/-- What an operand has to be. -/
inductive Requirement where
  | anyVariable
  | anyLabel
  | literal (type : DataType)
  | zero
  | isTrue
  | isFalse
  | emptyString
  /-- One of the scratch variables. -/
  | scratch
  /-- Not equal to the operand bound to a name. -/
  | distinctFrom (name : String)
deriving DecidableEq, Repr

/-- One operand position of a template. -/
inductive Place where
  | any
  | named (name : String) (requirement : Option Requirement) (quantity : Option Quantity)
deriving DecidableEq, Repr

/-- An instruction to look for. Operands beyond the given places are not looked at. -/
structure Template where
  opcode : Opcode
  places : List Place
deriving DecidableEq, Repr

/-- An instruction to put in place of those found; its operands are given by name. -/
structure Substitute where
  opcode : Opcode
  aliases : List String
deriving DecidableEq, Repr

/-- A peephole rule. -/
structure Rule where
  name : String
  pattern : List Template
  replacement : List Substitute
deriving DecidableEq, Repr

namespace Rule

/-- Checks the places of a template against the names bound before; gives the names bound
after. -/
def bindPlaces (opcode : Opcode) : List Place → List String → Except Inconsistency (List String)
  | [], bound => .ok bound
  | .any :: rest, bound => bindPlaces opcode rest bound
  | .named name (some (.distinctFrom other)) _ :: rest, bound =>
    if bound.contains other then bindPlaces opcode rest (name :: bound)
    else .error (.unboundAlias opcode other)
  | .named name _ _ :: rest, bound => bindPlaces opcode rest (name :: bound)

/-- Checks templates against the names bound before; gives the names bound after. -/
def bindPattern : List Template → List String → Except Inconsistency (List String)
  | [], bound => .ok bound
  | template :: rest, bound =>
    if template.opcode.arity < template.places.length then
      .error (.patternArity template.opcode template.places.length template.opcode.arity)
    else do
      let bound ← bindPlaces template.opcode template.places bound
      bindPattern rest bound

/-- Checks that substitutes have all their operands and use bound names only. -/
def checkReplacement (bound : List String) : List Substitute → Except Inconsistency Unit
  | [] => .ok ()
  | substitute :: rest =>
    if substitute.aliases.length ≠ substitute.opcode.arity then
      .error (.patternArity substitute.opcode substitute.aliases.length substitute.opcode.arity)
    else
      match substitute.aliases.find? fun name => !bound.contains name with
      | some name => .error (.unboundAlias substitute.opcode name)
      | none => checkReplacement bound rest

/-- The rule with the given parts, if they fit together. -/
def make (name : String) (pattern : List Template) (replacement : List Substitute) :
    Except Inconsistency Rule := do
  let bound ← bindPattern pattern []
  checkReplacement bound replacement
  return { name, pattern, replacement }

end Rule

end ThreeAddress.Peephole
