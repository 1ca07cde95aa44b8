/-
An abstract machine for programs, and when two programs do the same on it. The
machine has a place in the program, the places to return to, a data stack, a
value for every variable, and a world of which nothing is known, for input and
output. Moves, pushes, pops, jumps and labels mean what they say. Any other
instruction does whatever the machine wants it to do to memory, and it can be
observed; all that is asked is that it does not depend on its place in the
program.

Two programs agree if from any memory both perform the same observable steps, on
equal memories, and stop, if they stop, at the same instruction and with the
same memory. A simulation in each direction is enough for that, and neither has
to keep in step with the other.
-/
import ThreeAddress.Instruction
import Mathlib.Logic.Function.Basic

namespace ThreeAddress

/-- Whether instructions with an opcode only move values or control, as their names say. -/
def Opcode.isSilent : Opcode → Bool
  | .pushs | .pops | .move | .jump | .label => true
  | _ => false

/-- What a machine holds besides its place in the program. -/
structure Memory (Value World : Type) where
  store : Variable → Value
  stack : List Value
  world : World

/-- A machine: what operands that are no variables stand for, what the instructions that are not
silent do, and when a conditional jump is taken. The machine stops where `perform` gives no
memory. -/
structure Machine (Value World : Type) where
  literal : Operand → Value
  perform : Opcode → List Operand → Memory Value World → Option (Memory Value World)
  branches : Opcode → List Operand → Memory Value World → Bool

/-- A state of a machine that runs a program. -/
structure MachineState (Value World : Type) where
  position : Nat
  calls : List Nat
  memory : Memory Value World

/-- A step that can be observed: an instruction and the memory that it starts from. -/
structure Observation (Value World : Type) where
  opcode : Opcode
  operands : List Operand
  memory : Memory Value World

/-- Where control goes behind an instruction. -/
inductive Course where
  | next
  | goto (label : String)
  | call (label : String)
  | back

/-- The place where a label is defined. -/
def placeOf? (code : List Instruction) (label : String) : Option Nat :=
  code.findIdx? fun i => i.definedLabel? = some label

theorem placeOf?_append (code rest : List Instruction) (label : String) :
    placeOf? (code ++ rest) label =
      (placeOf? code label).or ((placeOf? rest label).map (· + code.length)) :=
  List.findIdx?_append

theorem placeOf?_eq_none {code : List Instruction} {label : String}
    (absent : ∀ i ∈ code, i.definedLabel? ≠ some label) : placeOf? code label = none :=
  List.findIdx?_eq_none_iff.mpr fun i member => decide_eq_false (absent i member)

/-- Whether no label is defined twice. -/
def DistinctLabels (code : List Instruction) : Prop :=
  (code.filterMap Instruction.definedLabel?).Nodup

instance (code : List Instruction) : Decidable (DistinctLabels code) :=
  inferInstanceAs (Decidable (code.filterMap Instruction.definedLabel?).Nodup)

/-- A label is at its definition if no other instruction defines it. -/
theorem placeOf?_of_distinct {before after : List Instruction} {i : Instruction} {label : String}
    (distinct : DistinctLabels (before ++ i :: after)) (defines : i.definedLabel? = some label) :
    placeOf? (before ++ i :: after) label = some before.length := by
  have ahead : placeOf? before label = none := by
    refine placeOf?_eq_none fun j member same => ?_
    rw [DistinctLabels, List.filterMap_append, List.nodup_append] at distinct
    refine distinct.2.2 label (List.mem_filterMap.mpr ⟨j, member, same⟩) label ?_ rfl
    exact List.mem_filterMap.mpr ⟨i, List.mem_cons_self, defines⟩
  rw [placeOf?_append, ahead, Option.none_or, placeOf?, List.findIdx?_cons,
    if_pos (decide_eq_true defines)]
  simp

/-- The place where control goes from a place, and the places to return to from there. -/
def Course.follow? (code : List Instruction) (position : Nat) (calls : List Nat) :
    Course → Option (Nat × List Nat)
  | .next => some (position + 1, calls)
  | .goto label => (placeOf? code label).map fun target => (target, calls)
  | .call label => (placeOf? code label).map fun target => (target, (position + 1) :: calls)
  | .back =>
    match calls with
    | [] => none
    | target :: rest => some (target, rest)

namespace Machine

variable {Value World : Type} (machine : Machine Value World)

/-- The value of an operand. -/
def value (memory : Memory Value World) : Operand → Value
  | .var v => memory.store v
  | operand => machine.literal operand

/-- What a silent instruction does. -/
def move? (i : Instruction) (memory : Memory Value World) :
    Option (Course × Memory Value World) :=
  match i.opcode, i.operands, memory.stack with
  | .pushs, source :: _, stack =>
    some (.next, { memory with stack := machine.value memory source :: stack })
  | .pops, .var v :: _, top :: rest =>
    some (.next, { memory with store := Function.update memory.store v top, stack := rest })
  | .move, .var v :: source :: _, _ =>
    some (.next,
      { memory with store := Function.update memory.store v (machine.value memory source) })
  | .jump, _, _ => i.jumpTarget?.map fun label => (.goto label, memory)
  | .label, _, _ => some (.next, memory)
  | _, _, _ => none

/-- Where control goes behind an instruction that is not silent. -/
def course? (i : Instruction) (memory : Memory Value World) : Option Course :=
  match i.opcode with
  | .call => i.jumpTarget?.map .call
  | .ret => some .back
  | opcode =>
    if opcode.role = .conditionalJump ∧ machine.branches opcode i.operands memory then
      i.jumpTarget?.map .goto
    else some .next

/-- What an instruction does. -/
def execute? (i : Instruction) (memory : Memory Value World) :
    Option (Course × Memory Value World) :=
  if i.opcode.isSilent then machine.move? i memory
  else
    (machine.perform i.opcode i.operands memory).bind fun after =>
      (machine.course? i memory).map fun course => (course, after)

/-- What can be observed of an instruction. -/
def observe (i : Instruction) (memory : Memory Value World) : List (Observation Value World) :=
  if i.opcode.isSilent then [] else [⟨i.opcode, i.operands, memory⟩]

/-- One step of a program, with what can be observed of it. -/
def next? (code : List Instruction) (now : MachineState Value World) :
    Option (List (Observation Value World) × MachineState Value World) :=
  code[now.position]?.bind fun i =>
    (machine.execute? i now.memory).bind fun (course, memory) =>
      (course.follow? code now.position now.calls).map fun (position, calls) =>
        (observe i now.memory, ⟨position, calls, memory⟩)

/-- The runs of a program, with all that can be observed of them. -/
inductive Run (code : List Instruction) :
    MachineState Value World → List (Observation Value World) → MachineState Value World → Prop
  | stay (now : MachineState Value World) : Run code now [] now
  | step {now later final : MachineState Value World} {here events : List (Observation Value World)}
    (next : machine.next? code now = some (here, later)) (rest : Run code later events final) :
    Run code now (here ++ events) final

/-- Whether a program performs some observable steps, from the given memory. -/
def Performs (code : List Instruction) (memory : Memory Value World)
    (events : List (Observation Value World)) : Prop :=
  ∃ final, machine.Run code ⟨0, [], memory⟩ events final

/-- Whether a program performs some observable steps, from the given memory, and then stops, with
the memory and at the instruction given; behind the program there is none. -/
def Stops (code : List Instruction) (memory : Memory Value World)
    (events : List (Observation Value World)) (last : Memory Value World)
    (stuck : Option Instruction) : Prop :=
  ∃ final, machine.Run code ⟨0, [], memory⟩ events final ∧ machine.next? code final = none ∧
    final.memory = last ∧ code[final.position]? = stuck

/-- Whether two programs perform the same observable steps, from every memory, and stop alike. -/
structure Agree (code other : List Instruction) : Prop where
  performs : ∀ memory events,
    machine.Performs code memory events ↔ machine.Performs other memory events
  stops : ∀ memory events last stuck,
    machine.Stops code memory events last stuck ↔ machine.Stops other memory events last stuck

variable {machine} {code other : List Instruction}

theorem Agree.refl (code : List Instruction) : machine.Agree code code :=
  ⟨fun _ _ => Iff.rfl, fun _ _ _ _ => Iff.rfl⟩

theorem Agree.trans {third : List Instruction} (first : machine.Agree code other)
    (second : machine.Agree other third) : machine.Agree code third where
  performs memory events := (first.performs memory events).trans (second.performs memory events)
  stops memory events last stuck :=
    (first.stops memory events last stuck).trans (second.stops memory events last stuck)

/-! ### Runs -/

/-- A step, by what its instruction does and where it leads. -/
theorem next?_of_execute? {k : Nat} {calls : List Nat} {i : Instruction} {course : Course}
    {memory after : Memory Value World} {target : Nat × List Nat} (here : code[k]? = some i)
    (executed : machine.execute? i memory = some (course, after))
    (followed : course.follow? code k calls = some target) :
    machine.next? code ⟨k, calls, memory⟩ =
      some (observe i memory, ⟨target.1, target.2, after⟩) := by
  rw [next?, here, Option.bind_some, executed, Option.bind_some]
  simp only [followed, Option.map_some]

theorem Run.single {now later : MachineState Value World} {events : List (Observation Value World)}
    (next : machine.next? code now = some (events, later)) : machine.Run code now events later := by
  rw [← List.append_nil events]
  exact Run.step next (Run.stay later)

theorem Run.append {now later final : MachineState Value World}
    {here events : List (Observation Value World)}
    (first : machine.Run code now here later) (second : machine.Run code later events final) :
    machine.Run code now (here ++ events) final := by
  induction first with
  | stay now => exact second
  | step next _ inductionHypothesis =>
    rw [List.append_assoc]
    exact Run.step next (inductionHypothesis second)

/-- A program has one course: of two runs from the same state one goes on where the other ends, so
what they perform is the beginning of one sequence. -/
theorem Run.comparable {now first second : MachineState Value World}
    {firstEvents secondEvents : List (Observation Value World)}
    (one : machine.Run code now firstEvents first)
    (two : machine.Run code now secondEvents second) :
    firstEvents <+: secondEvents ∨ secondEvents <+: firstEvents := by
  induction one generalizing secondEvents with
  | stay now => exact Or.inl List.nil_prefix
  | @step now later final here events next rest inductionHypothesis =>
    cases two with
    | stay => exact Or.inr List.nil_prefix
    | step other others =>
      obtain ⟨rfl, rfl⟩ := Prod.mk.inj (Option.some_inj.mp (next.symm.trans other))
      rw [List.prefix_append_right_inj, List.prefix_append_right_inj]
      exact inductionHypothesis others

/-- What two programs that agree perform from the same memory is the beginning of one sequence. -/
theorem Agree.comparable (agree : machine.Agree code other) {memory : Memory Value World}
    {here there : List (Observation Value World)} (one : machine.Performs code memory here)
    (two : machine.Performs other memory there) : here <+: there ∨ there <+: here := by
  obtain ⟨_, firstRun⟩ := one
  obtain ⟨_, secondRun⟩ := (agree.performs memory there).mpr two
  exact firstRun.comparable secondRun

/-! ### Simulations -/

/-- Whether one program follows another one: steps and stops are matched from related states. -/
structure Simulation (code other : List Instruction)
    (Related : MachineState Value World → MachineState Value World → Prop) : Prop where
  step : ∀ now there events later, Related now there →
    machine.next? code now = some (events, later) →
      ∃ final, machine.Run other there events final ∧ Related later final
  stop : ∀ now there, Related now there → machine.next? code now = none →
    ∃ final, machine.Run other there [] final ∧ machine.next? other final = none ∧
      final.memory = now.memory ∧ other[final.position]? = code[now.position]?

namespace Simulation

variable {Related : MachineState Value World → MachineState Value World → Prop}

theorem run (simulation : machine.Simulation code other Related)
    {now there later : MachineState Value World} {events : List (Observation Value World)}
    (related : Related now there) (run : machine.Run code now events later) :
    ∃ final, machine.Run other there events final ∧ Related later final := by
  induction run generalizing there with
  | stay now => exact ⟨there, Run.stay there, related⟩
  | step next _ inductionHypothesis =>
    obtain ⟨between, first, related⟩ := simulation.step _ _ _ _ related next
    obtain ⟨final, second, related⟩ := inductionHypothesis related
    exact ⟨final, first.append second, related⟩

theorem performs (simulation : machine.Simulation code other Related)
    {memory : Memory Value World} {events : List (Observation Value World)}
    (start : Related ⟨0, [], memory⟩ ⟨0, [], memory⟩)
    (performs : machine.Performs code memory events) :
    machine.Performs other memory events := by
  obtain ⟨final, run⟩ := performs
  obtain ⟨there, follows, -⟩ := simulation.run start run
  exact ⟨there, follows⟩

theorem stops (simulation : machine.Simulation code other Related)
    {memory last : Memory Value World} {events : List (Observation Value World)}
    {stuck : Option Instruction} (start : Related ⟨0, [], memory⟩ ⟨0, [], memory⟩)
    (stops : machine.Stops code memory events last stuck) :
    machine.Stops other memory events last stuck := by
  obtain ⟨final, run, ended, rfl, rfl⟩ := stops
  obtain ⟨there, follows, related⟩ := simulation.run start run
  obtain ⟨end_, silent, stopped, same, at_⟩ := simulation.stop _ _ related ended
  refine ⟨end_, ?_, stopped, same, at_⟩
  rw [← List.append_nil events]
  exact follows.append silent

end Simulation

/-- Programs that follow one another agree. -/
theorem Agree.of_simulations {Related : MachineState Value World → MachineState Value World → Prop}
    (forth : machine.Simulation code other Related)
    (back : machine.Simulation other code fun there now => Related now there)
    (start : ∀ memory, Related ⟨0, [], memory⟩ ⟨0, [], memory⟩) : machine.Agree code other where
  performs memory _ := ⟨forth.performs (start memory), back.performs (start memory)⟩
  stops memory _ _ _ := ⟨forth.stops (start memory), back.stops (start memory)⟩

end Machine

end ThreeAddress
