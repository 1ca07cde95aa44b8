/-
The standard peephole rules keep what a program does, except the rule for empty
frames, which depends on what frames are. Each rule replaces two neighbouring
instructions, and for each of them the replacement is a window that nothing
outside can tell from the original: a jump to the next instruction goes where
control goes anyway, a value that is pushed and popped at once is moved, and a
move is dropped whose variable the next one overwrites.

The counts matter for one rule only. A label may go together with the jump to it
if nothing else refers to it, and the counts are what says so; they stay true
from one rewrite to the next.
-/
import ThreeAddress.Peephole.Standard
import ThreeAddress.Proofs.Rewriting
import ThreeAddress.Proofs.Window

namespace ThreeAddress

open Relation

/-! ### Places of labels -/

/-- Labels that are defined outside a window are at corresponding places. -/
theorem rel_placeOf? {before replacement after : List Instruction} {first second : Instruction}
    {label : String} {Inside : Nat → Nat → Prop}
    (original : ∀ i ∈ [first, second], i.definedLabel? ≠ some label)
    (replaced : ∀ i ∈ replacement, i.definedLabel? ≠ some label) :
    Option.Rel (fun place other =>
        Across before.length replacement.length place other ∨ Inside place other)
      (placeOf? (before ++ ([first, second] ++ after)) label)
      (placeOf? (before ++ (replacement ++ after)) label) := by
  rw [placeOf?_append, placeOf?_append, placeOf?_append, placeOf?_append,
    placeOf?_eq_none original, placeOf?_eq_none replaced, Option.none_or, Option.none_or]
  cases ahead : placeOf? before label with
  | some place =>
    obtain ⟨bound, -⟩ := List.findIdx?_eq_some_iff_getElem.mp ahead
    exact Option.Rel.some (Or.inl (Or.inl ⟨Nat.le_of_lt bound, rfl⟩))
  | none =>
    cases placeOf? after label with
    | none => exact Option.Rel.none
    | some place =>
      have length : [first, second].length = 2 := rfl
      exact Option.Rel.some (Or.inl (Or.inr ⟨by dsimp only; omega, by dsimp only; omega⟩))

theorem definedLabel?_of_ne {i : Instruction} (other : i.opcode ≠ .label) :
    i.definedLabel? = none :=
  if_neg other

/-- Replacing instructions defines no label twice if it defines none that was not defined there. -/
theorem distinctLabels_replaced {before span replacement after : List Instruction}
    (distinct : DistinctLabels (before ++ (span ++ after)))
    (fewer : (replacement.filterMap Instruction.definedLabel?).Sublist
      (span.filterMap Instruction.definedLabel?)) :
    DistinctLabels (before ++ (replacement ++ after)) := by
  unfold DistinctLabels at distinct ⊢
  rw [List.filterMap_append, List.filterMap_append] at distinct ⊢
  exact distinct.sublist ((fewer.append_right _).append_left _)

namespace Machine

variable {Value World : Type} {machine : Machine Value World}

/-- A silent instruction, with where control goes behind it. -/
theorem next?_of_silent {code : List Instruction} {position place : Nat} {i : Instruction}
    (found : code[position]? = some i) (silent : i.opcode.isSilent)
    {memory after : Memory Value World} {course : Course} {calls returns : List Nat}
    (moves : machine.move? i memory = some (course, after))
    (follows : course.follow? code position calls = some (place, returns)) :
    machine.next? code ⟨position, calls, memory⟩ = some ([], ⟨place, returns, after⟩) := by
  have executed : machine.execute? i memory = some (course, after) := by
    rw [execute?, if_pos silent, moves]
  rw [next?_of_execute? found executed follows, observe, if_pos silent]

theorem next?_of_move? {code : List Instruction} {position : Nat} {i : Instruction}
    (found : code[position]? = some i) (silent : i.opcode.isSilent)
    {memory after : Memory Value World} (moves : machine.move? i memory = some (.next, after))
    (calls : List Nat) :
    machine.next? code ⟨position, calls, memory⟩ = some ([], ⟨position + 1, calls, after⟩) :=
  next?_of_silent found silent moves rfl

theorem next?_of_jump {code : List Instruction} {position place : Nat} {i : Instruction}
    {label : String} (found : code[position]? = some i) (jump : i.opcode = .jump)
    (target : i.jumpTarget? = some label) (leads : placeOf? code label = some place)
    (memory : Memory Value World) (calls : List Nat) :
    machine.next? code ⟨position, calls, memory⟩ = some ([], ⟨place, calls, memory⟩) := by
  have moves : machine.move? i memory = some (.goto label, memory) := by
    simp only [move?, jump, target, Option.map_some]
  refine next?_of_silent found (by rw [jump]; rfl) moves ?_
  rw [Course.follow?, leads, Option.map_some]

end Machine

namespace Peephole

/-! ### What the rules match -/

section Matching

variable {usage : Usage} {bindings found : Bindings}

theorem matchPattern?_cons {template : Template} {templates : List Template} {i : Instruction}
    {rest : List Instruction}
    (matched : matchPattern? usage (template :: templates) (i :: rest) bindings = some found) :
    i.opcode = template.opcode ∧
      ∃ bound, matchPlaces? usage template.places i.operands bindings = some bound ∧
        matchPattern? usage templates rest bound = some found := by
  unfold matchPattern? at matched
  split at matched
  · next opcode => exact ⟨opcode, Option.bind_eq_some_iff.mp matched⟩
  · exact absurd matched (by simp)

theorem matchPlaces?_cons {place : Place} {places : List Place} {operands : List Operand}
    (matched : matchPlaces? usage (place :: places) operands bindings = some found) :
    ∃ operand rest bound, operands = operand :: rest ∧
      matchPlace? usage place operand bindings = some bound ∧
      matchPlaces? usage places rest bound = some found := by
  cases operands with
  | nil => exact absurd matched (by simp [matchPlaces?])
  | cons operand rest =>
    obtain ⟨bound, here, later⟩ := Option.bind_eq_some_iff.mp matched
    exact ⟨operand, rest, bound, rfl, here, later⟩

/-- A new name is bound to an operand that is as required. -/
theorem matchPlace?_new {name : String} {requirement : Option Requirement}
    {quantity : Option Quantity} {operand : Operand} (new : bindings.get? name = none)
    (matched : matchPlace? usage (.named name requirement quantity) operand bindings =
      some found) :
    requirement.all (Requirement.admits operand bindings) ∧
      quantity.all (fun quantity => quantity.admitsUse usage operand) ∧
      found = bindings.put name operand := by
  simp only [matchPlace?, new] at matched
  split at matched
  · next admitted =>
    rw [Bool.and_eq_true] at admitted
    exact ⟨admitted.1, admitted.2, (Option.some_inj.mp matched).symm⟩
  · exact absurd matched (by simp)

/-- A name that is bound meets the same operand again. -/
theorem matchPlace?_bound {name : String} {requirement : Option Requirement}
    {quantity : Option Quantity} {bound operand : Operand} (known : bindings.get? name = some bound)
    (matched : matchPlace? usage (.named name requirement quantity) operand bindings =
      some found) : bound.same operand ∧ found = bindings := by
  simp only [matchPlace?, known] at matched
  split at matched
  · next same => exact ⟨same, (Option.some_inj.mp matched).symm⟩
  · exact absurd matched (by simp)

theorem get?_put_self (bindings : Bindings) (name : String) (operand : Operand) :
    (bindings.put name operand).get? name = some operand :=
  Table.get?_alter_self _ _ _

theorem eq_of_var_same {v : Variable} {operand : Operand} (same : (Operand.var v).same operand) :
    operand = .var v := by
  cases operand with
  | var w => rw [of_decide_eq_true same]
  | const c => exact absurd same (by simp [Operand.same])
  | label name => exact absurd same (by simp [Operand.same])
  | type t => exact absurd same (by simp [Operand.same])

theorem eq_of_label_same {label : String} {operand : Operand}
    (same : (Operand.label label).same operand) : operand = .label label := by
  cases operand with
  | var v => exact absurd same (by simp [Operand.same])
  | const c => exact absurd same (by simp [Operand.same])
  | label name => rw [eq_of_beq same]
  | type t => exact absurd same (by simp [Operand.same])

theorem exists_var {operand : Operand} (isVar : operand.var?.isSome) : ∃ v, operand = .var v := by
  cases operand with
  | var v => exact ⟨v, rfl⟩
  | const c => exact absurd isVar (by simp [Operand.var?])
  | label name => exact absurd isVar (by simp [Operand.var?])
  | type t => exact absurd isVar (by simp [Operand.var?])

theorem exists_label {operand : Operand} (isLabel : operand.label?.isSome) :
    ∃ label, operand = .label label := by
  cases operand with
  | var v => exact absurd isLabel (by simp [Operand.label?])
  | const c => exact absurd isLabel (by simp [Operand.label?])
  | label name => exact ⟨name, rfl⟩
  | type t => exact absurd isLabel (by simp [Operand.label?])

/-- A single substitute gives a single instruction, whatever the markers are. -/
theorem exists_single {substitute : Substitute} {instances : List Instruction}
    (made : [substitute].mapM (Substitute.instantiate? bindings) = some instances)
    (first second : Instruction) :
    ∃ i, carryBoundaries [first, second] instances = [i] ∧ i.opcode = substitute.opcode ∧
      i.operands = substitute.aliases.filterMap bindings.get? := by
  rw [List.mapM_cons] at made
  obtain ⟨made, instantiated, rest⟩ := Option.bind_eq_some_iff.mp made
  rw [List.mapM_nil] at rest
  obtain rfl := Option.some_inj.mp rest
  unfold Substitute.instantiate? Instruction.make? at instantiated
  split at instantiated
  · obtain rfl := Option.some_inj.mp instantiated
    exact ⟨_, rfl, rfl, rfl⟩
  · exact absurd instantiated (by simp)

/-- A jump to the next instruction, with the number of references that a rule asks for. -/
theorem exists_jump_of_match {quantity : Quantity} {first second : Instruction}
    {after : List Instruction}
    (matched : matchPattern? usage
      [⟨.jump, [.named "l" (some .anyLabel) (some quantity)]⟩, ⟨.label, [.named "l" none none]⟩]
      (first :: second :: after) {} = some found) :
    ∃ label, first.opcode = .jump ∧ first.jumpTarget? = some label ∧ second.opcode = .label ∧
      second.definedLabel? = some label ∧ quantity.admits (usage.references label) ∧
      found.get? "l" = some (.label label) := by
  obtain ⟨jump, bound, firstPlaces, matched⟩ := matchPattern?_cons matched
  obtain ⟨label, secondBound, secondPlaces, matched⟩ := matchPattern?_cons matched
  obtain ⟨target, _, _, targets, named, ended⟩ := matchPlaces?_cons firstPlaces
  obtain ⟨admitted, counted, rfl⟩ := matchPlace?_new rfl named
  obtain ⟨name, rfl⟩ := exists_label admitted
  obtain rfl := Option.some_inj.mp ended
  obtain ⟨defined, _, _, defines, again, ended⟩ := matchPlaces?_cons secondPlaces
  obtain ⟨same, rfl⟩ := matchPlace?_bound (get?_put_self _ _ _) again
  obtain rfl := eq_of_label_same same
  obtain rfl := Option.some_inj.mp ended
  obtain rfl := Option.some_inj.mp matched
  refine ⟨name, jump, ?_, label, ?_, counted, get?_put_self _ _ _⟩
  · rw [Instruction.jumpTarget?, jump, targets]
    rfl
  · rw [Instruction.definedLabel?, label, defines]
    rfl

/-- A push and a pop. -/
theorem exists_push_of_match {first second : Instruction} {after : List Instruction}
    (matched : matchPattern? usage pushPop.pattern (first :: second :: after) {} = some found) :
    ∃ source v rest others, first.opcode = .pushs ∧ first.operands = source :: rest ∧
      second.opcode = .pops ∧ second.operands = .var v :: others ∧
      found.get? "a" = some source ∧ found.get? "b" = some (.var v) := by
  obtain ⟨push, bound, firstPlaces, matched⟩ := matchPattern?_cons matched
  obtain ⟨pop, secondBound, secondPlaces, matched⟩ := matchPattern?_cons matched
  obtain ⟨source, rest, _, pushed, named, ended⟩ := matchPlaces?_cons firstPlaces
  obtain ⟨-, -, rfl⟩ := matchPlace?_new rfl named
  obtain rfl := Option.some_inj.mp ended
  obtain ⟨target, others, _, popped, named, ended⟩ := matchPlaces?_cons secondPlaces
  have new : (Table.put ({} : Bindings) "a" source).get? "b" = none :=
    Table.get?_alter_of_ne _ (by decide) _
  obtain ⟨admitted, -, rfl⟩ := matchPlace?_new new named
  obtain ⟨v, rfl⟩ := exists_var admitted
  obtain rfl := Option.some_inj.mp ended
  obtain rfl := Option.some_inj.mp matched
  refine ⟨source, v, rest, others, push, pushed, pop, popped, ?_, get?_put_self _ _ _⟩
  exact (Table.get?_alter_of_ne _ (by decide) _).trans (get?_put_self _ _ _)

/-- Two moves into one variable, which the second does not read. -/
theorem exists_moves_of_match {first second : Instruction} {after : List Instruction}
    (matched : matchPattern? usage overwrittenMove.pattern (first :: second :: after) {} =
      some found) :
    ∃ v lost kept rest others, first.opcode = .move ∧ first.operands = .var v :: lost :: rest ∧
      second.opcode = .move ∧ second.operands = .var v :: kept :: others ∧ kept ≠ .var v ∧
      found.get? "a" = some (.var v) ∧ found.get? "c" = some kept := by
  obtain ⟨move, bound, firstPlaces, matched⟩ := matchPattern?_cons matched
  obtain ⟨again, secondBound, secondPlaces, matched⟩ := matchPattern?_cons matched
  obtain ⟨target, _, _, moved, named, places⟩ := matchPlaces?_cons firstPlaces
  obtain ⟨admitted, -, rfl⟩ := matchPlace?_new rfl named
  obtain ⟨v, rfl⟩ := exists_var admitted
  obtain ⟨lost, rest, _, rfl, any, ended⟩ := matchPlaces?_cons places
  obtain rfl := Option.some_inj.mp any
  obtain rfl := Option.some_inj.mp ended
  obtain ⟨target, _, _, overwritten, named, places⟩ := matchPlaces?_cons secondPlaces
  obtain ⟨same, rfl⟩ := matchPlace?_bound (get?_put_self _ _ _) named
  obtain rfl := eq_of_var_same same
  obtain ⟨kept, others, _, rfl, named, ended⟩ := matchPlaces?_cons places
  have new : (Table.put ({} : Bindings) "a" (.var v)).get? "c" = none :=
    Table.get?_alter_of_ne _ (by decide) _
  obtain ⟨admitted, -, rfl⟩ := matchPlace?_new new named
  obtain rfl := Option.some_inj.mp ended
  obtain rfl := Option.some_inj.mp matched
  have known : (Table.put ({} : Bindings) "a" (.var v)).get? "a" = some (.var v) :=
    get?_put_self _ _ _
  have different : kept ≠ .var v := by
    rintro rfl
    simp [Requirement.admits, known, Operand.same] at admitted
  refine ⟨v, lost, kept, rest, others, move, moved, again, overwritten, different, ?_,
    get?_put_self _ _ _⟩
  exact (Table.get?_alter_of_ne _ (by decide) _).trans known

end Matching

/-! ### Each rule -/

variable {Value World : Type} {machine : Machine Value World}

/-- What a rule has to do wherever it applies, given the labels and the counts of the program: the
program does the same afterwards, and no label is defined that was not. -/
def Rule.Sound (machine : Machine Value World) (rule : Rule) : Prop :=
  ∀ (before span after replacement : List Instruction) (usage : Usage),
    DistinctLabels (before ++ (span ++ after)) → usage.Counts (before ++ (span ++ after)) →
    span.length = rule.pattern.length → rule.fire? usage (span ++ after) = some replacement →
      machine.Agree (before ++ (span ++ after)) (before ++ (replacement ++ after)) ∧
        (replacement.filterMap Instruction.definedLabel?).Sublist
          (span.filterMap Instruction.definedLabel?)

/-- A rule for two instructions is sound if it is where they stand. -/
theorem Rule.Sound.of_pair {rule : Rule} (two : rule.pattern.length = 2)
    (sound : ∀ {before after : List Instruction} {first second : Instruction} {usage : Usage}
      {bindings : Bindings} {instances : List Instruction},
      DistinctLabels (before ++ ([first, second] ++ after)) →
      usage.Counts (before ++ ([first, second] ++ after)) →
      matchPattern? usage rule.pattern (first :: second :: after) {} = some bindings →
      rule.replacement.mapM (Substitute.instantiate? bindings) = some instances →
        machine.Agree (before ++ ([first, second] ++ after))
            (before ++ (carryBoundaries [first, second] instances ++ after)) ∧
          ((carryBoundaries [first, second] instances).filterMap
            Instruction.definedLabel?).Sublist
            ([first, second].filterMap Instruction.definedLabel?)) :
    rule.Sound machine := by
  intro before span after replacement usage distinct counts length fires
  obtain ⟨first, second, rfl⟩ := List.length_eq_two.mp (length.trans two)
  obtain ⟨-, bindings, instances, matched, -, made, rfl⟩ := Rule.exists_match_of_fire? fires
  have span : rule.span ([first, second] ++ after) = [first, second] := by
    rw [Rule.span, two]
    rfl
  rw [span]
  exact sound distinct counts matched made

section Windows

variable {before after : List Instruction} {first second : Instruction}

theorem getElem?_first : (before ++ ([first, second] ++ after))[before.length]? = some first := by
  simp

theorem getElem?_second :
    (before ++ ([first, second] ++ after))[before.length + 1]? = some second := by
  simp

theorem placeOf?_second {label : String}
    (distinct : DistinctLabels (before ++ ([first, second] ++ after)))
    (defines : second.definedLabel? = some label) :
    placeOf? (before ++ ([first, second] ++ after)) label = some (before.length + 1) := by
  have pieces : before ++ ([first, second] ++ after) = (before ++ [first]) ++ second :: after := by
    simp
  rw [pieces] at distinct ⊢
  rw [placeOf?_of_distinct distinct defines, List.length_append]
  rfl

/-- A jump to the next instruction goes through. -/
theorem jump_through {label : String}
    (distinct : DistinctLabels (before ++ ([first, second] ++ after)))
    (jump : first.opcode = .jump) (target : first.jumpTarget? = some label)
    (defines : second.definedLabel? = some label) (calls : List Nat)
    (memory : Memory Value World) :
    machine.next? (before ++ ([first, second] ++ after)) ⟨before.length, calls, memory⟩ =
      some ([], ⟨before.length + 1, calls, memory⟩) :=
  Machine.next?_of_jump getElem?_first jump target (placeOf?_second distinct defines) memory calls

theorem label_through (labelled : second.opcode = .label) (calls : List Nat)
    (memory : Memory Value World) :
    machine.next? (before ++ ([first, second] ++ after)) ⟨before.length + 1, calls, memory⟩ =
      some ([], ⟨before.length + 2, calls, memory⟩) := by
  refine Machine.next?_of_move? getElem?_second (by rw [labelled]; rfl) ?_ calls
  simp only [Machine.move?, labelled]

/-- If nothing but the first of two instructions refers to a label, no instruction outside does. -/
theorem not_jumpTarget?_of_sole {usage : Usage} {label : String}
    (counts : usage.Counts (before ++ ([first, second] ++ after)))
    (target : first.jumpTarget? = some label) (sole : usage.references label = 1) :
    ∀ i ∈ before ++ after, i.jumpTarget? ≠ some label := by
  rw [counts.references, Usage.referencesIn, List.countP_append, List.cons_append,
    List.countP_cons_of_pos (by simpa using target), List.cons_append, List.nil_append,
    List.countP_cons] at sole
  have outside : (before ++ after).countP (fun i => i.jumpTarget? = some label) = 0 := by
    rw [List.countP_append]
    omega
  intro i member
  simpa using List.countP_eq_zero.mp outside i member

/-- Two instructions that move values, and one that does the same as both. -/
theorem agree_of_moves {i : Instruction} {half whole : Memory Value World → Memory Value World}
    (silent : ∀ j ∈ [first, second, i], j.opcode.isSilent ∧ j.opcode ≠ .label)
    (halfway : ∀ memory, machine.move? first memory = some (.next, half memory))
    (through : ∀ memory, machine.move? second (half memory) = some (.next, whole memory))
    (replaces : ∀ memory, machine.move? i memory = some (.next, whole memory)) :
    machine.Agree (before ++ ([first, second] ++ after)) (before ++ ([i] ++ after)) ∧
      ([i].filterMap Instruction.definedLabel?).Sublist
        ([first, second].filterMap Instruction.definedLabel?) := by
  simp only [List.forall_mem_cons, List.not_mem_nil, false_implies, implies_true, and_true]
    at silent
  obtain ⟨⟨quietFirst, noLabel⟩, ⟨quietSecond, neither⟩, quiet, unlabelled⟩ := silent
  have window : machine.Window before first second [i] after half whole :=
    { enter := fun calls memory =>
        Machine.next?_of_move? getElem?_first quietFirst (halfway memory) calls
      leave := fun calls memory =>
        Machine.next?_of_move? getElem?_second quietSecond (through memory) calls
      replaced := Or.inr ⟨rfl, fun calls memory =>
        Machine.next?_of_move? (by simp) quiet (replaces memory) calls⟩
      labels := fun _ _ label _ => rel_placeOf?
        (by simp [definedLabel?_of_ne noLabel, definedLabel?_of_ne neither])
        (by simp [definedLabel?_of_ne unlabelled]) }
  refine ⟨window.agree, ?_⟩
  rw [List.filterMap_cons_none (definedLabel?_of_ne unlabelled)]
  exact List.nil_sublist _

end Windows

theorem sound_soleJumpToNext : soleJumpToNext.Sound machine := by
  refine Rule.Sound.of_pair rfl ?_
  intro before after first second usage bindings instances distinct counts matched made
  obtain ⟨label, jump, target, labelled, defines, sole, -⟩ := exists_jump_of_match matched
  obtain rfl := Option.some_inj.mp made
  have unreferenced := not_jumpTarget?_of_sole counts target (eq_of_beq sole)
  have window : machine.Window before first second [] after id id :=
    { enter := jump_through distinct jump target defines
      leave := label_through labelled
      replaced := Or.inl ⟨rfl, fun _ => rfl⟩
      labels := by
        intro i member other jumps
        refine rel_placeOf? ?_ (by simp)
        rw [List.forall_mem_cons, List.forall_mem_singleton]
        refine ⟨by simp [definedLabel?_of_ne, jump], ?_⟩
        rw [defines]
        -- the label that goes is the one that nothing outside jumps to
        intro same
        obtain rfl := Option.some_inj.mp same
        exact unreferenced i member jumps }
  exact ⟨window.agree, List.nil_sublist _⟩

theorem sound_jumpToNext : jumpToNext.Sound machine := by
  refine Rule.Sound.of_pair rfl ?_
  intro before after first second usage bindings instances distinct counts matched made
  obtain ⟨label, jump, target, labelled, defines, -, bound⟩ := exists_jump_of_match matched
  obtain ⟨i, single, opcode, operands⟩ := exists_single made first second
  rw [single]
  have redefines : i.definedLabel? = some label := by
    rw [Instruction.definedLabel?, opcode, operands]
    simp [bound, Operand.label?]
  have none : first.definedLabel? = none := definedLabel?_of_ne (by rw [jump]; decide)
  have fewer : ([i].filterMap Instruction.definedLabel?).Sublist
      ([first, second].filterMap Instruction.definedLabel?) := by
    simp [redefines, none, defines]
  have window : machine.Window before first second [i] after id id :=
    { enter := jump_through distinct jump target defines
      leave := label_through labelled
      replaced := by
        refine Or.inr ⟨rfl, fun calls memory => ?_⟩
        refine Machine.next?_of_move? (i := i) (by simp) (by rw [opcode]; rfl) ?_ calls
        simp only [Machine.move?, opcode]
        rfl
      labels := by
        intro j member other jumps
        by_cases same : other = label
        -- whoever jumps to the label comes between the two, where nothing has happened yet
        · have lands : placeOf? (before ++ ([i] ++ after)) label = some before.length :=
            placeOf?_of_distinct (distinctLabels_replaced distinct fewer) redefines
          rw [same, placeOf?_second distinct defines, lands]
          exact Option.Rel.some (Or.inr ⟨rfl, rfl, fun _ => rfl⟩)
        · refine rel_placeOf? ?_ ?_
          · simp [none, defines, Ne.symm same]
          · simp [redefines, Ne.symm same] }
  exact ⟨window.agree, fewer⟩

theorem sound_pushPop : pushPop.Sound machine := by
  refine Rule.Sound.of_pair rfl ?_
  intro before after first second usage bindings instances distinct counts matched made
  obtain ⟨source, v, rest, others, push, pushed, pop, popped, boundSource, boundTarget⟩ :=
    exists_push_of_match matched
  obtain ⟨i, single, move, moved⟩ := exists_single made first second
  rw [single]
  have operands : i.operands = [.var v, source] := by
    rw [moved]
    simp [boundSource, boundTarget]
  refine agree_of_moves ?_
    (fun memory => by simp only [Machine.move?, push, pushed]; rfl)
    (fun memory => by simp only [Machine.move?, pop, popped]; rfl)
    (fun memory => by simp only [Machine.move?, move, operands])
  simp [push, pop, move, Opcode.isSilent]

theorem value_update_of_ne {memory : Memory Value World} {v : Variable} {operand : Operand}
    (different : operand ≠ .var v) (value : Value) :
    machine.value { memory with store := Function.update memory.store v value } operand =
      machine.value memory operand := by
  cases operand with
  | var w =>
    have other : w ≠ v := by
      rintro rfl
      exact different rfl
    exact Function.update_of_ne other _ _
  | const c => rfl
  | label name => rfl
  | type t => rfl

theorem sound_overwrittenMove : overwrittenMove.Sound machine := by
  refine Rule.Sound.of_pair rfl ?_
  intro before after first second usage bindings instances distinct counts matched made
  obtain ⟨v, lost, kept, rest, others, move, moved, again, overwrites, different, boundTarget,
    boundKept⟩ := exists_moves_of_match matched
  obtain ⟨i, single, opcode, operands⟩ := exists_single made first second
  rw [single]
  have stays : i.operands = [.var v, kept] := by
    rw [operands]
    simp [boundTarget, boundKept]
  refine agree_of_moves ?_
    (fun memory => by simp only [Machine.move?, move, moved]; rfl)
    (fun memory => by
      simp only [Machine.move?, again, overwrites, value_update_of_ne different,
        Function.update_idem]
      rfl)
    (fun memory => by simp only [Machine.move?, opcode, stays])
  simp [move, again, opcode, Opcode.isSilent]

/-! ### Passes -/

/-- A rewrite with sound rules keeps what a program does, and its labels distinct. -/
theorem agree_rewrite {rules : List Rule} (sound : ∀ rule ∈ rules, rule.Sound machine)
    {program next : List Instruction × Usage} (distinct : DistinctLabels program.1)
    (counts : program.2.Counts program.1) (rewrite : Rewrite rules program next) :
    machine.Agree program.1 next.1 ∧ DistinctLabels next.1 := by
  cases rewrite with
  | @apply rule before span after replacement usage member length fires =>
    obtain ⟨agree, fewer⟩ :=
      sound rule member before span after replacement usage distinct counts length fires
    exact ⟨agree, distinctLabels_replaced distinct fewer⟩

theorem agree_rewrites {rules : List Rule} (sound : ∀ rule ∈ rules, rule.Sound machine)
    {program next : List Instruction × Usage} (distinct : DistinctLabels program.1)
    (counts : program.2.Counts program.1) (run : ReflTransGen (Rewrite rules) program next) :
    machine.Agree program.1 next.1 ∧ DistinctLabels next.1 ∧ next.2.Counts next.1 := by
  induction run with
  | refl => exact ⟨Machine.Agree.refl _, distinct, counts⟩
  | tail _ rewrite inductionHypothesis =>
    obtain ⟨agree, distinct, counts⟩ := inductionHypothesis
    obtain ⟨next, stays⟩ := agree_rewrite sound distinct counts rewrite
    exact ⟨agree.trans next, stays, counts_rewrite counts rewrite⟩

/-- A pass with the standard rules, except the one for empty frames, leaves a program that performs
the same observable steps on every machine, from every memory, and stops alike: whatever the two
perform is the beginning of one sequence. -/
theorem pass_keeps_behaviour (machine : Machine Value World) {code : List Instruction}
    {usage : Usage} (distinct : DistinctLabels code) (counts : usage.Counts code) :
    machine.Agree code
        (pass [soleJumpToNext, jumpToNext, pushPop, overwrittenMove] code usage).code ∧
      ∀ memory here there, machine.Performs code memory here →
        machine.Performs
          (pass [soleJumpToNext, jumpToNext, pushPop, overwrittenMove] code usage).code
          memory there → here <+: there ∨ there <+: here := by
  have sound : ∀ rule ∈ [soleJumpToNext, jumpToNext, pushPop, overwrittenMove],
      rule.Sound machine := by
    simp only [List.forall_mem_cons, List.not_mem_nil, false_implies, implies_true, and_true]
    exact ⟨sound_soleJumpToNext, sound_jumpToNext, sound_pushPop, sound_overwrittenMove⟩
  have agree := (agree_rewrites sound distinct counts (rewrites_pass _ code usage)).1
  exact ⟨agree, fun _ _ _ one two => agree.comparable one two⟩

/-- A machine on integers that writes values and takes every conditional jump until it has written
three times. -/
def threeTimes : Machine Int (List Int) where
  literal
    | .const (.int value) => value.toInt
    | _ => 0
  perform
    | .write, [.var v], memory => some { memory with world := memory.store v :: memory.world }
    | _, _, memory => some memory
  branches _ _ memory := memory.world.length < 3

/-- A loop in which each of the rules applies once. -/
def loopOfFour : List Instruction :=
  [{ opcode := .pushs, operands := [.const (.int 1)] },
   { opcode := .pops, operands := [.var ⟨.lf, "x"⟩] },
   { opcode := .move, operands := [.var ⟨.lf, "y"⟩, .const (.int 2)] },
   { opcode := .move, operands := [.var ⟨.lf, "y"⟩, .var ⟨.lf, "x"⟩] },
   { opcode := .jump, operands := [.label "again"] },
   { opcode := .label, operands := [.label "again"] },
   { opcode := .write, operands := [.var ⟨.lf, "y"⟩] },
   { opcode := .jumpifeqs, operands := [.label "again"] },
   { opcode := .jump, operands := [.label "end"] },
   { opcode := .label, operands := [.label "end"] }]

/-- Half of the loop goes, and the machine cannot tell. -/
theorem pass_keeps_behaviour_four :
    DistinctLabels loopOfFour ∧ ∃ usage marked, Usage.survey loopOfFour = .ok (usage, marked) ∧
      usage.Counts loopOfFour ∧
      (pass [soleJumpToNext, jumpToNext, pushPop, overwrittenMove] loopOfFour usage).code.map
        Instruction.opcode = [.move, .move, .label, .write, .jumpifeqs] ∧
      threeTimes.Agree loopOfFour
        (pass [soleJumpToNext, jumpToNext, pushPop, overwrittenMove] loopOfFour usage).code ∧
      ∀ memory here there, threeTimes.Performs loopOfFour memory here →
        threeTimes.Performs
          (pass [soleJumpToNext, jumpToNext, pushPop, overwrittenMove] loopOfFour usage).code
          memory there → here <+: there ∨ there <+: here :=
  ⟨by decide, _, _, rfl, (Usage.counts_survey rfl).1, rfl,
    pass_keeps_behaviour threeTimes (by decide) (Usage.counts_survey rfl).1⟩

end Peephole

end ThreeAddress
