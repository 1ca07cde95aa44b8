/-
A machine with exact integers, and how generated code runs on it. Arithmetic,
comparisons and the operations on strings mean what their names say, on the
operands or on the top of the data stack; what they cannot be applied to stops the
machine, as does a character outside its string. Everything else is left open, so
that what is shown here holds whatever other instructions do.

Code that only moves on, its line, is run at once. Code that neither calls nor
returns runs inside a larger program as it runs alone, if no label of it is
defined earlier. Scratch variables are told from the others by their numbers, so
memory is described by what they hold and by a memory that is otherwise the same.
-/
import Mathlib.Tactic.IntervalCases
import ThreeAddress.Builder.Strings
import ThreeAddress.Proofs.Machine

namespace ThreeAddress

open Builder (scratch)

/-! ### Values -/

/-- The values of a machine whose integers have no bounds. -/
inductive Datum where
  | int (value : Int)
  | float (value : Number.Binary64)
  | bool (value : Bool)
  | string (text : String)
deriving DecidableEq

/-- The value that a literal stands for. -/
@[simp] def Constant.datum : Constant → Datum
  | .int value => .int value.toInt
  | .float value => .float value
  | .bool value => .bool value
  | .string text => .string text

/-- Whether two values of one type are equal. -/
@[simp] def Datum.same? : Datum → Datum → Option Bool
  | .int a, .int b => some (a = b)
  | .float a, .float b => some (a.same b)
  | .bool a, .bool b => some (a = b)
  | .string a, .string b => some (a = b)
  | _, _ => none

namespace Opcode

/-- Whether an opcode stores in operand 0 what it makes of the other operands. -/
def combinesOperands : Opcode → Bool
  | .add | .sub | .lt | .gt | .strlen | .concat | .getchar => true
  | _ => false

/-- Whether an opcode replaces the two values on top of the data stack by what it makes of them. -/
def combinesTop : Opcode → Bool
  | .lts | .gts | .ors => true
  | _ => false

/-- What an operation makes of values, if they have the right types. Characters count from zero. -/
@[simp] def result? : Opcode → List Datum → Option Datum
  | .add, [.int a, .int b] => some (.int (a + b))
  | .sub, [.int a, .int b] => some (.int (a - b))
  | .lt, [.int a, .int b] | .lts, [.int a, .int b] => some (.bool (a < b))
  | .gt, [.int a, .int b] | .gts, [.int a, .int b] => some (.bool (b < a))
  | .ors, [.bool a, .bool b] => some (.bool (a || b))
  | .strlen, [.string text] => some (.int text.length)
  | .concat, [.string a, .string b] => some (.string (a ++ b))
  | .getchar, [.string text, .int index] =>
    if 0 ≤ index then
      text.toList[index.toNat]?.map fun c => .string (String.singleton c)
    else none
  | _, _ => none

end Opcode

namespace Machine

variable {World : Type}

/-- The machine with exact integers that leaves to another one what is not told here. -/
def exact (others : Machine Datum World) : Machine Datum World :=
  let literal : Operand → Datum
    | .const c => c.datum
    | operand => others.literal operand
  let value := ({ others with literal } : Machine Datum World).value
  { literal
    perform := fun opcode operands memory =>
      if opcode.combinesOperands then
        match operands with
        | .var target :: sources =>
          (opcode.result? (sources.map (value memory))).map fun result =>
            { memory with store := Function.update memory.store target result }
        | _ => none
      else if opcode.combinesTop then
        match memory.stack with
        | second :: first :: rest =>
          (opcode.result? [first, second]).map fun result =>
            { memory with stack := result :: rest }
        | _ => none
      else
        match opcode, operands, memory.stack with
        | .jumpifeq, [_, first, second], _ =>
          ((value memory first).same? (value memory second)).map fun _ => memory
        | .jumpifeqs, _, second :: first :: rest =>
          (first.same? second).map fun _ => { memory with stack := rest }
        | .jumpifeq, _, _ | .jumpifeqs, _, _ => none
        | _, _, _ => others.perform opcode operands memory
    branches := fun opcode operands memory =>
      match opcode, operands, memory.stack with
      | .jumpifeq, [_, first, second], _ =>
        (value memory first).same? (value memory second) = some true
      | .jumpifeqs, _, second :: first :: _ => first.same? second = some true
      | _, _, _ => others.branches opcode operands memory }

/-! ### Lines of code -/

variable {Value : Type} {machine : Machine Value World} {code : List Instruction}

variable (machine) in
/-- What instructions do one after the other, if none of them leads elsewhere. -/
@[simp] def line? : List Instruction → Memory Value World → Option (Memory Value World)
  | [], memory => some memory
  | i :: rest, memory =>
    match machine.execute? i memory with
    | some (.next, after) => line? rest after
    | _ => none

variable (machine) in
/-- Whether one state follows another one in the course of a program. -/
def Reaches (code : List Instruction) (now later : MachineState Value World) : Prop :=
  ∃ events, machine.Run code now events later

theorem Reaches.trans {now later final : MachineState Value World}
    (first : machine.Reaches code now later) (second : machine.Reaches code later final) :
    machine.Reaches code now final := by
  obtain ⟨here, first⟩ := first
  obtain ⟨there, second⟩ := second
  exact ⟨here ++ there, first.append second⟩

/-- A jump that is taken. -/
theorem reaches_jump {k target : Nat} {calls : List Nat} {i : Instruction} {label : String}
    {memory after : Memory Value World} (here : code[k]? = some i)
    (jumps : machine.execute? i memory = some (.goto label, after))
    (there : placeOf? code label = some target) :
    machine.Reaches code ⟨k, calls, memory⟩ ⟨target, calls, after⟩ := by
  have followed : (Course.goto label).follow? code k calls = some (target, calls) := by
    rw [Course.follow?, there, Option.map_some]
  exact ⟨_, Run.single (next?_of_execute? here jumps followed)⟩

/-- A line is run to its end. -/
theorem reaches_line (k length : Nat) {calls : List Nat} {memory final : Memory Value World}
    (fits : k + length ≤ code.length)
    (ran : machine.line? ((code.drop k).take length) memory = some final) :
    machine.Reaches code ⟨k, calls, memory⟩ ⟨k + length, calls, final⟩ := by
  induction length generalizing k memory with
  | zero =>
    cases ran
    exact ⟨[], Run.stay _⟩
  | succ length inductionHypothesis =>
    have inside : k < code.length := by omega
    rw [List.drop_eq_getElem_cons inside, List.take_succ_cons, line?] at ran
    split at ran
    · next after executed =>
      have followed : Course.next.follow? code k calls = some (k + 1, calls) := rfl
      have first := Run.single
        (next?_of_execute? (List.getElem?_eq_getElem inside) executed followed)
      have later := inductionHypothesis (k + 1) (by omega) ran
      rw [Nat.add_assoc, Nat.add_comm 1] at later
      exact Reaches.trans ⟨_, first⟩ later
    · cases ran

/-! ### Code inside a larger program -/

/-- A label is where it is defined, if no label is defined twice. -/
theorem placeOf?_of_getElem? (distinct : DistinctLabels code) {k : Nat} {i : Instruction}
    {label : String} (here : code[k]? = some i) (defines : i.definedLabel? = some label) :
    placeOf? code label = some k := by
  obtain ⟨inside, rfl⟩ := List.getElem?_eq_some_iff.mp here
  have split : code.take k ++ code[k] :: code.drop (k + 1) = code := by
    rw [← List.drop_eq_getElem_cons inside, List.take_append_drop]
  have place := placeOf?_of_distinct (split.symm ▸ distinct) defines
  rwa [split, List.length_take, Nat.min_eq_left (Nat.le_of_lt inside)] at place

/-- Whether code neither calls nor returns. -/
def Level (code : List Instruction) : Prop :=
  ∀ i ∈ code, i.opcode ≠ .call ∧ i.opcode ≠ .ret

/-- Whether no label of some code is defined in the code before it. -/
def Apart (before code : List Instruction) : Prop :=
  ∀ label ∈ code.filterMap Instruction.definedLabel?,
    label ∉ before.filterMap Instruction.definedLabel?

variable {before after : List Instruction}

theorem placeOf?_embed (apart : Apart before code) {label : String} {target : Nat}
    (there : placeOf? code label = some target) :
    placeOf? (before ++ code ++ after) label = some (before.length + target) := by
  have absent : placeOf? before label = none := by
    refine placeOf?_eq_none fun i member defined => ?_
    obtain ⟨inside, found, -⟩ := List.findIdx?_eq_some_iff_getElem.mp there
    exact apart label (List.mem_filterMap.mpr ⟨_, List.getElem_mem inside, of_decide_eq_true found⟩)
      (List.mem_filterMap.mpr ⟨i, member, defined⟩)
  rw [List.append_assoc, placeOf?_append, placeOf?_append, absent, there, Nat.add_comm]
  rfl

/-- An instruction that neither calls nor returns goes on to the next one or to a label. -/
theorem course_of_execute? {i : Instruction} (level : i.opcode ≠ .call ∧ i.opcode ≠ .ret)
    {memory later : Memory Value World} {course : Course}
    (executed : machine.execute? i memory = some (course, later)) :
    course = .next ∨ ∃ label, course = .goto label := by
  rw [execute?] at executed
  split at executed
  · unfold move? at executed
    split at executed
    · exact .inl (Prod.mk.inj (Option.some.inj executed)).1.symm
    · exact .inl (Prod.mk.inj (Option.some.inj executed)).1.symm
    · exact .inl (Prod.mk.inj (Option.some.inj executed)).1.symm
    · obtain ⟨label, -, same⟩ := Option.map_eq_some_iff.mp executed
      exact .inr ⟨label, (Prod.mk.inj same).1.symm⟩
    · exact .inl (Prod.mk.inj (Option.some.inj executed)).1.symm
    · cases executed
  · obtain ⟨performed, -, executed⟩ := Option.bind_eq_some_iff.mp executed
    obtain ⟨found, chosen, same⟩ := Option.map_eq_some_iff.mp executed
    cases same
    unfold course? at chosen
    split at chosen
    · next call => exact absurd call level.1
    · next ret => exact absurd ret level.2
    · split at chosen
      · obtain ⟨label, -, same⟩ := Option.map_eq_some_iff.mp chosen
        exact .inr ⟨label, same.symm⟩
      · exact .inl (Option.some.inj chosen).symm

theorem follow?_embed (apart : Apart before code) {i : Instruction}
    (level : i.opcode ≠ .call ∧ i.opcode ≠ .ret)
    {memory later : Memory Value World} {course : Course}
    (executed : machine.execute? i memory = some (course, later)) {k : Nat} {calls : List Nat}
    {target : Nat × List Nat} (followed : course.follow? code k calls = some target) :
    course.follow? (before ++ code ++ after) (before.length + k) calls =
      some (before.length + target.1, target.2) := by
  obtain rfl | ⟨label, rfl⟩ := course_of_execute? level executed
  · cases followed
    rfl
  · obtain ⟨place, there, rfl⟩ := Option.map_eq_some_iff.mp followed
    rw [Course.follow?, placeOf?_embed apart there, Option.map_some]

theorem next?_embed (level : Level code) (apart : Apart before code)
    {now later : MachineState Value World} {events : List (Observation Value World)}
    (next : machine.next? code now = some (events, later)) :
    machine.next? (before ++ code ++ after) { now with position := before.length + now.position } =
      some (events, { later with position := before.length + later.position }) := by
  obtain ⟨i, here, next⟩ := Option.bind_eq_some_iff.mp next
  obtain ⟨⟨course, memory⟩, executed, next⟩ := Option.bind_eq_some_iff.mp next
  obtain ⟨⟨position, calls⟩, followed, same⟩ := Option.map_eq_some_iff.mp next
  cases same
  have inside : now.position < code.length := (List.getElem?_eq_some_iff.mp here).1
  have there : (before ++ code ++ after)[before.length + now.position]? = some i := by
    rw [List.append_assoc, List.getElem?_append_right (Nat.le_add_right _ _),
      Nat.add_sub_cancel_left, List.getElem?_append_left inside, here]
  exact next?_of_execute? there executed
    (follow?_embed apart (level i (List.mem_of_getElem? here)) executed followed)

/-- Level code does the same inside a larger program. -/
theorem Reaches.embed (level : Level code) (apart : Apart before code)
    {now later : MachineState Value World} (reaches : machine.Reaches code now later) :
    machine.Reaches (before ++ code ++ after)
      { now with position := before.length + now.position }
      { later with position := before.length + later.position } := by
  obtain ⟨events, run⟩ := reaches
  refine ⟨events, ?_⟩
  induction run with
  | stay now => exact Run.stay _
  | step next _ inductionHypothesis =>
    exact Run.step (next?_embed level apart next) inductionHypothesis

end Machine

/-! ### Scratch variables -/

namespace Variable

theorem scratchNumber?_scratch {k : Nat} (numbered : 1 ≤ k ∧ k ≤ scratchCount) :
    (Variable.scratch k).scratchNumber? = some k := by
  obtain ⟨low, high⟩ := numbered
  rw [scratchCount] at high
  interval_cases k <;> decide

theorem eq_scratch {v : Variable} {k : Nat} (numbered : v.scratchNumber? = some k) :
    v = Variable.scratch k ∧ 1 ≤ k ∧ k ≤ scratchCount := by
  obtain ⟨index, inside, found⟩ := List.exists_of_findSome?_eq_some numbered
  rw [List.mem_range] at inside
  split at found
  · next same =>
    cases found
    exact ⟨same, by omega, by omega⟩
  · cases found

end Variable

/-- The values of the scratch variables. -/
structure Pad where
  first : Datum
  second : Datum
  third : Datum
  fourth : Datum
  fifth : Datum

namespace Pad

/-- The value of the scratch variable with a given number. -/
@[simp] def get (pad : Pad) : Nat → Datum
  | 1 => pad.first
  | 2 => pad.second
  | 3 => pad.third
  | 4 => pad.fourth
  | _ => pad.fifth

/-- Gives the scratch variable with a given number another value. -/
@[simp] def set (pad : Pad) (number : Nat) (value : Datum) : Pad :=
  match number with
  | 1 => { pad with first := value }
  | 2 => { pad with second := value }
  | 3 => { pad with third := value }
  | 4 => { pad with fourth := value }
  | _ => { pad with fifth := value }

theorem get_set (pad : Pad) {j k : Nat} (value : Datum)
    (numbered : 1 ≤ j ∧ j ≤ Variable.scratchCount) (other : 1 ≤ k ∧ k ≤ Variable.scratchCount) :
    (pad.set k value).get j = if j = k then value else pad.get j := by
  rw [Variable.scratchCount] at numbered other
  obtain ⟨low, high⟩ := numbered
  obtain ⟨low', high'⟩ := other
  interval_cases j <;> interval_cases k <;> rfl

end Pad

namespace Memory

variable {World : Type} {memory : Memory Datum World} {pad : Pad} {stack : List Datum} {k : Nat}

/-- Memory with other values in the scratch variables and on the data stack. -/
def noted (memory : Memory Datum World) (pad : Pad) (stack : List Datum) : Memory Datum World :=
  { memory with
    store := fun v => (v.scratchNumber?.map pad.get).getD (memory.store v)
    stack }

theorem store_noted_scratch (numbered : 1 ≤ k ∧ k ≤ Variable.scratchCount) :
    (memory.noted pad stack).store (Variable.scratch k) = pad.get k := by
  simp only [noted, Variable.scratchNumber?_scratch numbered, Option.map_some, Option.getD_some]

theorem store_noted_other {v : Variable} (other : v.scratchNumber? = none) :
    (memory.noted pad stack).store v = memory.store v := by
  simp only [noted, other, Option.map_none, Option.getD_none]

theorem update_noted (numbered : 1 ≤ k ∧ k ≤ Variable.scratchCount) (value : Datum) :
    Function.update (memory.noted pad stack).store (Variable.scratch k) value =
      (memory.noted (pad.set k value) stack).store := by
  funext v
  by_cases same : v = Variable.scratch k
  · rw [same, Function.update_self, store_noted_scratch numbered,
      Pad.get_set pad value numbered numbered, if_pos rfl]
  · rw [Function.update_of_ne same]
    cases number : v.scratchNumber? with
    | none => rw [store_noted_other number, store_noted_other number]
    | some j =>
      obtain ⟨rfl, other⟩ := Variable.eq_scratch number
      rw [store_noted_scratch other, store_noted_scratch other,
        Pad.get_set pad value other numbered, if_neg fun equal => same (congrArg _ equal)]

/-- What is in the scratch variables may be noted. -/
theorem exists_noted (memory : Memory Datum World) (stack : List Datum) :
    ∃ pad : Pad, { memory with stack } = memory.noted pad stack := by
  refine ⟨⟨memory.store (.scratch 1), memory.store (.scratch 2), memory.store (.scratch 3),
    memory.store (.scratch 4), memory.store (.scratch 5)⟩, ?_⟩
  rw [noted]
  congr 1
  funext v
  cases number : v.scratchNumber? with
  | none => rfl
  | some k =>
    obtain ⟨rfl, low, high⟩ := Variable.eq_scratch number
    rw [Variable.scratchCount] at high
    interval_cases k <;> rfl

end Memory

namespace Machine

variable {World : Type} {others : Machine Datum World} {memory : Memory Datum World} {pad : Pad}
  {stack : List Datum} {k : Nat} {markers : Markers} {effects : Effects}

@[simp] theorem value_scratch (numbered : 1 ≤ k ∧ k ≤ Variable.scratchCount) :
    others.value (memory.noted pad stack) (scratch k) = pad.get k :=
  Memory.store_noted_scratch numbered

@[simp] theorem value_exact_const (c : Constant) :
    (exact others).value memory (.const c) = c.datum := rfl

@[simp] theorem execute?_pops (numbered : 1 ≤ k ∧ k ≤ Variable.scratchCount) (top : Datum) :
    others.execute? ⟨.pops, [scratch k], markers, effects⟩ (memory.noted pad (top :: stack)) =
      some (.next, memory.noted (pad.set k top) stack) := by
  have same := @Memory.update_noted World memory pad (top :: stack) k numbered top
  show some (Course.next, _) = _
  rw [same]
  rfl

@[simp] theorem execute?_pushs (operand : Operand) :
    others.execute? ⟨.pushs, [operand], markers, effects⟩ (memory.noted pad stack) =
      some (.next, memory.noted pad (others.value (memory.noted pad stack) operand :: stack)) := rfl

@[simp] theorem execute?_move (numbered : 1 ≤ k ∧ k ≤ Variable.scratchCount) (operand : Operand) :
    others.execute? ⟨.move, [scratch k, operand], markers, effects⟩ (memory.noted pad stack) =
      some (.next,
        memory.noted (pad.set k (others.value (memory.noted pad stack) operand)) stack) := by
  show some (Course.next, _) = _
  rw [Memory.update_noted numbered]
  rfl

@[simp] theorem execute?_label (label : Operand) :
    others.execute? ⟨.label, [label], markers, effects⟩ memory = some (.next, memory) := rfl

@[simp] theorem execute?_jump (label : String) :
    others.execute? ⟨.jump, [.label label], markers, effects⟩ memory =
      some (.goto label, memory) := rfl

/-- An operation on values has no say in where control goes. -/
theorem execute?_of_combines {i : Instruction}
    (combines : i.opcode.combinesOperands ∨ i.opcode.combinesTop) :
    others.execute? i memory =
      (others.perform i.opcode i.operands memory).map fun after => (.next, after) := by
  obtain ⟨opcode, operands, markers, effects⟩ := i
  have courses : others.course? ⟨opcode, operands, markers, effects⟩ memory = some .next := by
    cases opcode <;> first | rfl | simp [Opcode.combinesOperands, Opcode.combinesTop] at combines
  have loud : ¬opcode.isSilent := by
    cases opcode <;> simp_all [Opcode.combinesOperands, Opcode.combinesTop, Opcode.isSilent]
  rw [execute?, if_neg loud, courses]
  cases others.perform opcode operands memory <;> rfl

@[simp] theorem execute?_combinesOperands {opcode : Opcode} (combines : opcode.combinesOperands)
    (numbered : 1 ≤ k ∧ k ≤ Variable.scratchCount) (sources : List Operand) :
    (exact others).execute? ⟨opcode, scratch k :: sources, markers, effects⟩
        (memory.noted pad stack) =
      (opcode.result? (sources.map ((exact others).value (memory.noted pad stack)))).map
        fun result => (.next, memory.noted (pad.set k result) stack) := by
  have performed : (exact others).perform opcode (scratch k :: sources) (memory.noted pad stack) =
      (opcode.result? (sources.map ((exact others).value (memory.noted pad stack)))).map
        fun result => memory.noted (pad.set k result) stack := by
    show (if opcode.combinesOperands then _ else _) = _
    rw [if_pos combines]
    show Option.map _ _ = _
    simp only [Memory.update_noted numbered]
    rfl
  rw [execute?_of_combines (.inl combines), performed, Option.map_map]
  rfl

@[simp] theorem execute?_combinesTop {opcode : Opcode} (combines : opcode.combinesTop)
    (first second : Datum) :
    (exact others).execute? ⟨opcode, [], markers, effects⟩
        (memory.noted pad (second :: first :: stack)) =
      (opcode.result? [first, second]).map
        fun result => (.next, memory.noted pad (result :: stack)) := by
  have performed : (exact others).perform opcode [] (memory.noted pad (second :: first :: stack)) =
      (opcode.result? [first, second]).map fun result => memory.noted pad (result :: stack) := by
    cases opcode <;> first | rfl | cases combines
  rw [execute?_of_combines (.inr combines), performed, Option.map_map]
  rfl

@[simp] theorem execute?_jumpifeq (label : String) (first second : Operand) :
    (exact others).execute? ⟨.jumpifeq, [.label label, first, second], markers, effects⟩ memory =
      (((exact others).value memory first).same? ((exact others).value memory second)).map
        fun same => (if same then .goto label else .next, memory) := by
  have performed : (exact others).perform .jumpifeq [.label label, first, second] memory =
      (((exact others).value memory first).same? ((exact others).value memory second)).map
        fun _ => memory := rfl
  have branches : (exact others).branches .jumpifeq [.label label, first, second] memory =
      decide (((exact others).value memory first).same? ((exact others).value memory second) =
        some true) := rfl
  show Option.bind ((exact others).perform .jumpifeq _ _) _ = _
  rw [performed]
  simp only [course?, branches]
  cases ((exact others).value memory first).same? ((exact others).value memory second) with
  | none => rfl
  | some same => cases same <;> rfl

@[simp] theorem execute?_jumpifeqs (label : String) (first second : Datum) :
    (exact others).execute? ⟨.jumpifeqs, [.label label], markers, effects⟩
        (memory.noted pad (second :: first :: stack)) =
      (first.same? second).map
        fun same => (if same then .goto label else .next, memory.noted pad stack) := by
  have performed : (exact others).perform .jumpifeqs [.label label]
      (memory.noted pad (second :: first :: stack)) =
        (first.same? second).map fun _ => memory.noted pad stack := rfl
  have branches : (exact others).branches .jumpifeqs [.label label]
      (memory.noted pad (second :: first :: stack)) =
        decide (first.same? second = some true) := rfl
  show Option.bind ((exact others).perform .jumpifeqs _ _) _ = _
  rw [performed]
  simp only [course?, branches]
  cases first.same? second with
  | none => rfl
  | some same => cases same <;> rfl

end Machine

end ThreeAddress
