/-
A peephole pass over a stored program. The pass stands at a slot. Each rule is
tried along the links from there; where one applies, its replacement is inserted
directly before the first slot of the span, the slots of the span are emptied one
by one, and the pass goes on at the slot that followed the last of them; where
none applies, it goes on at the next slot. There is no result if a replacement
has an instruction with the wrong number of operands.
-/
import ThreeAddress.Peephole.Matching
import ThreeAddress.StoreEdit

namespace ThreeAddress.Peephole

/-- Where a rule applies in a stored program, and the operands that its names stand for. -/
structure Site where
  span : List Slot
  bindings : Bindings
deriving DecidableEq, Repr

/-- Matches templates with the instructions along the links; every template needs an instruction. -/
def matchSlots? (usage : Usage) (s : Store) :
    List Template → Option Slot → Bindings → Option Site
  | [], _, bindings => some { span := [], bindings }
  | template :: templates, cursor, bindings => do
    let slot ← cursor
    let i ← s.get? slot
    if i.opcode = template.opcode then
      let bindings ← matchPlaces? usage template.places i.operands bindings
      let site ← matchSlots? usage s templates (s.next? slot) bindings
      return { site with span := slot :: site.span }
    else none

/-- The instructions in some slots. -/
def Site.instructions (site : Site) (s : Store) : List Instruction :=
  site.span.filterMap s.get?

/-- The site at which a rule applies, if it applies at a slot. -/
def Rule.site? (rule : Rule) (usage : Usage) (s : Store) (slot : Slot) : Option Site := do
  let site ← matchSlots? usage s rule.pattern (some slot) {}
  if site.span.isEmpty || !keepsBoundaries rule (site.instructions s) then none else some site

/-- Replaces a site by what a rule puts there; gives the slot that followed it. -/
def Rule.replace? (rule : Rule) (site : Site) (edit : StoreEdit) :
    Option (Option Slot × StoreEdit) := do
  let first ← site.span.head?
  let replacement ← rule.replacement.mapM (Substitute.instantiate? site.bindings)
  let carried := carryBoundaries (site.instructions edit.store) replacement
  return (carried.foldl (StoreEdit.insertBefore first) edit).takeAll site.span none

/-- The first rule that applies at a slot, with its site. -/
def firstSite? (rules : List Rule) (usage : Usage) (s : Store) (slot : Slot) :
    Option (Rule × Site) :=
  rules.findSome? fun rule => (rule.site? usage s slot).map (rule, ·)

/-- Goes on from a slot to the end of the program, in at most `turns` turns. -/
def passOverFrom (rules : List Rule) : (turns : Nat) → Option Slot → StoreEdit → Option StoreEdit
  | _, none, edit => some edit
  | 0, some _, _ => none
  | turns + 1, some slot, edit =>
    match firstSite? rules edit.usage edit.store slot with
    | none => passOverFrom rules turns (edit.store.next? slot) edit
    | some (rule, site) => do
      let (next, edit) ← rule.replace? site edit
      passOverFrom rules turns next { edit with changes := edit.changes + 1 }

/-- One pass over a stored program. Every turn leaves one of its instructions behind, so there are
no more turns than instructions. -/
def passOver (rules : List Rule) (s : Store) (usage : Usage) : Option StoreEdit :=
  passOverFrom rules s.size s.first? { store := s, usage, changes := 0 }

/-- Passes over a stored program until one changes nothing, at most as many as the limit says; the
flag says whether that was reached. -/
def settleOver (rules : List Rule) : Nat → StoreEdit → Option (StoreEdit × Bool)
  | 0, edit => some (edit, false)
  | limit + 1, edit => do
    let next ← passOver rules edit.store edit.usage
    if next.changes = 0 then return (edit, true)
    else settleOver rules limit { next with changes := edit.changes + next.changes }

/-- Repeated passes over a stored program. -/
def runOver (rules : List Rule) (limit : Nat) (s : Store) (usage : Usage) :
    Option (StoreEdit × Bool) :=
  settleOver rules limit { store := s, usage, changes := 0 }

end ThreeAddress.Peephole
