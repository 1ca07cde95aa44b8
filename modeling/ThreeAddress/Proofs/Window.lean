/-
Replacing two neighbouring instructions by at most one. The programs before and
after the replacement agree if the two instructions and their replacement do the
same to memory, control comes through both, nothing can be observed on the way,
and whoever jumps from outside finds its label in both programs.

Places in the two programs correspond except inside the window. While the first
program stands between the two instructions, the second one waits in front of
the replacement; the first memory is then half way through, and that is the only
time when the memories may differ.
-/
import ThreeAddress.Proofs.Machine
import Mathlib.Data.List.Forall2

namespace ThreeAddress

/-! ### Results that are both there or both missing -/

section Rel

variable {α β γ δ : Type} {Holds : α → β → Prop} {Then : γ → δ → Prop} {one : Option α}
  {two : Option β}

theorem rel_map {f : α → γ} {g : β → δ} (rel : Option.Rel Holds one two)
    (both : ∀ a b, Holds a b → Then (f a) (g b)) : Option.Rel Then (one.map f) (two.map g) := by
  cases rel with
  | some holds => exact Option.Rel.some (both _ _ holds)
  | none => exact Option.Rel.none

theorem rel_flip (rel : Option.Rel Holds one two) :
    Option.Rel (fun b a => Holds a b) two one := by
  cases rel with
  | some holds => exact Option.Rel.some holds
  | none => exact Option.Rel.none

theorem exists_of_rel {a : α} (rel : Option.Rel Holds one two) (found : one = some a) :
    ∃ b, two = some b ∧ Holds a b := by
  cases rel with
  | some holds =>
    obtain rfl := Option.some_inj.mp found
    exact ⟨_, rfl, holds⟩
  | none => exact absurd found (by simp)

theorem eq_none_of_rel (rel : Option.Rel Holds one two) (missing : one = none) : two = none := by
  cases rel with
  | some holds => exact absurd missing (by simp)
  | none => rfl

end Rel

/-! ### Windows -/

/-- Whether two places correspond, if two instructions at the place `front` are replaced by as many
as `grown` says. -/
def Across (front grown place other : Nat) : Prop :=
  (place ≤ front ∧ other = place) ∨ (front + 2 ≤ place ∧ other + 2 = place + grown)

/-- A label that control goes to. -/
def Course.label? : Course → Option String
  | .goto label | .call label => some label
  | .next | .back => none

namespace Machine

variable {Value World : Type} {machine : Machine Value World}

/-- Control goes to labels only that the instruction jumps to. -/
theorem jumpTarget?_of_execute? {i : Instruction} {memory after : Memory Value World}
    {course : Course} (executes : machine.execute? i memory = some (course, after))
    {label : String} (goes : course.label? = some label) : i.jumpTarget? = some label := by
  unfold execute? at executes
  split at executes
  · unfold move? at executes
    split at executes
    · obtain ⟨rfl, -⟩ := Prod.mk.inj (Option.some_inj.mp executes)
      exact absurd goes (by simp [Course.label?])
    · obtain ⟨rfl, -⟩ := Prod.mk.inj (Option.some_inj.mp executes)
      exact absurd goes (by simp [Course.label?])
    · obtain ⟨rfl, -⟩ := Prod.mk.inj (Option.some_inj.mp executes)
      exact absurd goes (by simp [Course.label?])
    · obtain ⟨target, jumps, same⟩ := Option.map_eq_some_iff.mp executes
      obtain ⟨rfl, -⟩ := Prod.mk.inj same
      exact jumps.trans goes
    · obtain ⟨rfl, -⟩ := Prod.mk.inj (Option.some_inj.mp executes)
      exact absurd goes (by simp [Course.label?])
    · exact absurd executes (by simp)
  · obtain ⟨_, -, followed⟩ := Option.bind_eq_some_iff.mp executes
    obtain ⟨taken, courses, same⟩ := Option.map_eq_some_iff.mp followed
    obtain ⟨rfl, -⟩ := Prod.mk.inj same
    unfold course? at courses
    split at courses
    · obtain ⟨target, jumps, rfl⟩ := Option.map_eq_some_iff.mp courses
      exact jumps.trans goes
    · obtain rfl := Option.some_inj.mp courses
      exact absurd goes (by simp [Course.label?])
    · split at courses
      · obtain ⟨target, jumps, rfl⟩ := Option.map_eq_some_iff.mp courses
        exact jumps.trans goes
      · obtain rfl := Option.some_inj.mp courses
        exact absurd goes (by simp [Course.label?])

/-- Two instructions in a program and what replaces them: `half` is what the first of the two does
to memory, `whole` is what both do, and also what the replacement does. -/
structure Window (machine : Machine Value World) (before : List Instruction)
    (first second : Instruction) (replacement after : List Instruction)
    (half whole : Memory Value World → Memory Value World) : Prop where
  enter : ∀ calls memory,
    machine.next? (before ++ ([first, second] ++ after)) ⟨before.length, calls, memory⟩ =
      some ([], ⟨before.length + 1, calls, half memory⟩)
  leave : ∀ calls memory,
    machine.next? (before ++ ([first, second] ++ after))
        ⟨before.length + 1, calls, half memory⟩ =
      some ([], ⟨before.length + 2, calls, whole memory⟩)
  replaced : (replacement = [] ∧ ∀ memory, whole memory = memory) ∨
    (replacement.length = 1 ∧ ∀ calls memory,
      machine.next? (before ++ (replacement ++ after)) ⟨before.length, calls, memory⟩ =
        some ([], ⟨before.length + 1, calls, whole memory⟩))
  /-- Labels that are jumped to from outside are at corresponding places, or at the second
  instruction, if the first does nothing to memory, and at its replacement. -/
  labels : ∀ i ∈ before ++ after, ∀ label, i.jumpTarget? = some label →
    Option.Rel
      (fun place other => Across before.length replacement.length place other ∨
        (place = before.length + 1 ∧ other = before.length ∧ ∀ memory, half memory = memory))
      (placeOf? (before ++ ([first, second] ++ after)) label)
      (placeOf? (before ++ (replacement ++ after)) label)

/-- States that correspond. -/
structure Corresponds (front grown : Nat) (half : Memory Value World → Memory Value World)
    (now there : MachineState Value World) : Prop where
  calls : List.Forall₂ (Across front grown) now.calls there.calls
  place : (Across front grown now.position there.position ∧ now.memory = there.memory) ∨
    (now.position = front + 1 ∧ there.position = front ∧ now.memory = half there.memory)

/-- Between the two instructions no place corresponds. -/
theorem Corresponds.inside {front grown : Nat} {half : Memory Value World → Memory Value World}
    {now there : MachineState Value World} (corresponds : Corresponds front grown half now there)
    (inside : now.position = front + 1) :
    there.position = front ∧ now.memory = half there.memory := by
  rcases corresponds.place with ⟨across, -⟩ | ⟨-, waits, halfway⟩
  · unfold Across at across
    omega
  · exact ⟨waits, halfway⟩

theorem getElem?_behind {α : Type} (before middle after : List α) (index : Nat) :
    (before ++ (middle ++ after))[before.length + middle.length + index]? = after[index]? := by
  rw [← List.append_assoc, ← List.length_append, List.getElem?_append_right (Nat.le_add_right _ _),
    Nat.add_sub_cancel_left]

/-- At corresponding places outside the window stands the same instruction. -/
theorem getElem?_across {before replacement : List Instruction} (first second : Instruction)
    (after : List Instruction) {place other : Nat}
    (across : Across before.length replacement.length place other)
    (outside : place ≠ before.length) :
    (before ++ (replacement ++ after))[other]? =
        (before ++ ([first, second] ++ after))[place]? ∧
      ∀ i, (before ++ ([first, second] ++ after))[place]? = some i → i ∈ before ++ after := by
  rcases across with ⟨ahead, rfl⟩ | ⟨behind, shifted⟩
  · have inside : other < before.length := Nat.lt_of_le_of_ne ahead outside
    rw [List.getElem?_append_left inside, List.getElem?_append_left inside]
    exact ⟨rfl, fun i found => List.mem_append_left _ (List.mem_of_getElem? found)⟩
  · obtain ⟨index, rfl⟩ := Nat.exists_eq_add_of_le behind
    obtain rfl : other = before.length + replacement.length + index := by omega
    have original := getElem?_behind before [first, second] after index
    rw [List.length_cons, List.length_cons, List.length_nil] at original
    rw [getElem?_behind, original]
    exact ⟨rfl, fun i found => List.mem_append_right _ (List.mem_of_getElem? found)⟩

namespace Window

variable {before replacement after : List Instruction} {first second : Instruction}
  {half whole : Memory Value World → Memory Value World} {now there : MachineState Value World}

/-- From corresponding places outside the window control goes the same way. -/
theorem follow? (window : machine.Window before first second replacement after half whole)
    {place other : Nat} (across : Across before.length replacement.length place other)
    (outside : place ≠ before.length) {calls returns : List Nat}
    (same : List.Forall₂ (Across before.length replacement.length) calls returns)
    {i : Instruction} (member : i ∈ before ++ after) {course : Course}
    (goes : ∀ label, course.label? = some label → i.jumpTarget? = some label) :
    Option.Rel
      (fun one two => (Across before.length replacement.length one.1 two.1 ∨
          (one.1 = before.length + 1 ∧ two.1 = before.length ∧ ∀ memory, half memory = memory)) ∧
        List.Forall₂ (Across before.length replacement.length) one.2 two.2)
      (course.follow? (before ++ ([first, second] ++ after)) place calls)
      (course.follow? (before ++ (replacement ++ after)) other returns) := by
  -- a call stands in front of the window or behind it, so it never returns into the middle
  have next : Across before.length replacement.length (place + 1) (other + 1) := by
    unfold Across at across ⊢
    omega
  cases course with
  | next => exact Option.Rel.some ⟨Or.inl next, same⟩
  | goto label =>
    exact rel_map (window.labels i member label (goes label rfl)) fun _ _ lands => ⟨lands, same⟩
  | call label =>
    exact rel_map (window.labels i member label (goes label rfl)) fun _ _ lands =>
      ⟨lands, List.Forall₂.cons next same⟩
  | back =>
    cases same with
    | nil => exact Option.Rel.none
    | cons top rest => exact Option.Rel.some ⟨Or.inl top, rest⟩

/-- Outside the window both programs do the same. -/
theorem next? (window : machine.Window before first second replacement after half whole)
    (corresponds : Corresponds before.length replacement.length half now there)
    (outside : now.position ≠ before.length) (beyond : now.position ≠ before.length + 1) :
    there.memory = now.memory ∧
      (before ++ (replacement ++ after))[there.position]? =
        (before ++ ([first, second] ++ after))[now.position]? ∧
      Option.Rel
        (fun one two => one.1 = two.1 ∧
          Corresponds before.length replacement.length half one.2 two.2)
        (machine.next? (before ++ ([first, second] ++ after)) now)
        (machine.next? (before ++ (replacement ++ after)) there) := by
  rcases corresponds.place with ⟨across, same⟩ | ⟨inside, -⟩
  swap
  · exact absurd inside beyond
  obtain ⟨instruction, member⟩ := getElem?_across first second after across outside
  refine ⟨same.symm, instruction, ?_⟩
  unfold Machine.next?
  rw [instruction, ← same]
  cases found : (before ++ ([first, second] ++ after))[now.position]? with
  | none => exact Option.Rel.none
  | some i =>
    rw [Option.bind_some, Option.bind_some]
    cases executes : machine.execute? i now.memory with
    | none => exact Option.Rel.none
    | some result =>
      obtain ⟨course, memory⟩ := result
      rw [Option.bind_some, Option.bind_some]
      have follows := window.follow? across outside corresponds.calls (member i found)
        fun label => jumpTarget?_of_execute? executes
      refine rel_map follows fun one two lands => ⟨rfl, lands.2, ?_⟩
      rcases lands.1 with place | ⟨middle, front, unchanged⟩
      · exact Or.inl ⟨place, rfl⟩
      · exact Or.inr ⟨middle, front, (unchanged memory).symm⟩

/-- From inside the window the first program comes out behind it; the second one does so with the
replacement, or is behind it already. -/
theorem through (window : machine.Window before first second replacement after half whole)
    (calls : List.Forall₂ (Across before.length replacement.length) now.calls there.calls)
    (inside : now.position = before.length + 1) (waits : there.position = before.length)
    (halfway : now.memory = half there.memory) :
    ∃ later, machine.next? (before ++ ([first, second] ++ after)) now = some ([], later) ∧
      later.position = before.length + 2 ∧
      (Corresponds before.length replacement.length half later there ∨
        ∃ final, machine.next? (before ++ (replacement ++ after)) there = some ([], final) ∧
          Corresponds before.length replacement.length half later final) := by
  obtain ⟨position, returns, memory⟩ := now
  obtain ⟨place, others, other⟩ := there
  dsimp only at inside waits halfway calls
  subst inside waits halfway
  refine ⟨_, window.leave returns other, rfl, ?_⟩
  rcases window.replaced with ⟨rfl, unchanged⟩ | ⟨single, replaces⟩
  · exact Or.inl ⟨calls, Or.inl ⟨Or.inr ⟨Nat.le_refl _, rfl⟩, unchanged other⟩⟩
  · refine Or.inr ⟨_, replaces others other, calls, Or.inl ⟨Or.inr ⟨Nat.le_refl _, ?_⟩, rfl⟩⟩
    dsimp only
    omega

/-- A state in front of the window leads into it. -/
theorem entered (window : machine.Window before first second replacement after half whole)
    (corresponds : Corresponds before.length replacement.length half now there)
    (front : now.position = before.length) :
    ∃ later, machine.next? (before ++ ([first, second] ++ after)) now = some ([], later) ∧
      later.position = before.length + 1 ∧ there.position = before.length ∧
      later.memory = half there.memory ∧
      Corresponds before.length replacement.length half later there := by
  obtain ⟨position, returns, memory⟩ := now
  obtain ⟨place, others, other⟩ := there
  obtain ⟨calls, place⟩ := corresponds
  dsimp only at front calls place
  subst front
  rcases place with ⟨across, rfl⟩ | ⟨inside, -⟩
  · obtain rfl : place = before.length := by
      unfold Across at across
      omega
    exact ⟨_, window.enter returns memory, rfl, rfl, rfl, calls, Or.inr ⟨rfl, rfl, rfl⟩⟩
  · omega

/-- The second program follows the first. -/
theorem forth (window : machine.Window before first second replacement after half whole) :
    machine.Simulation (before ++ ([first, second] ++ after)) (before ++ (replacement ++ after))
      (Corresponds before.length replacement.length half) where
  step now there events later corresponds next := by
    by_cases front : now.position = before.length
    · obtain ⟨entered, enters, -, -, -, corresponds⟩ := window.entered corresponds front
      obtain ⟨rfl, rfl⟩ := Prod.mk.inj (Option.some_inj.mp (next.symm.trans enters))
      exact ⟨there, Run.stay there, corresponds⟩
    by_cases inside : now.position = before.length + 1
    · obtain ⟨waits, halfway⟩ := corresponds.inside inside
      obtain ⟨left, leaves, -, follows⟩ :=
        window.through corresponds.calls inside waits halfway
      obtain ⟨rfl, rfl⟩ := Prod.mk.inj (Option.some_inj.mp (next.symm.trans leaves))
      rcases follows with corresponds | ⟨final, replaces, corresponds⟩
      · exact ⟨there, Run.stay there, corresponds⟩
      · exact ⟨final, Run.single replaces, corresponds⟩
    · obtain ⟨-, -, steps⟩ := window.next? corresponds front inside
      obtain ⟨⟨_, final⟩, goes, rfl, corresponds⟩ := exists_of_rel steps next
      exact ⟨final, Run.single goes, corresponds⟩
  stop now there corresponds ended := by
    by_cases front : now.position = before.length
    · obtain ⟨entered, enters, -⟩ := window.entered corresponds front
      exact absurd (ended.symm.trans enters) (by simp)
    by_cases inside : now.position = before.length + 1
    · obtain ⟨waits, halfway⟩ := corresponds.inside inside
      obtain ⟨left, leaves, -⟩ := window.through corresponds.calls inside waits halfway
      exact absurd (ended.symm.trans leaves) (by simp)
    · obtain ⟨memory, instruction, steps⟩ := window.next? corresponds front inside
      exact ⟨there, Run.stay there, eq_none_of_rel steps ended, memory, instruction⟩

/-- Wherever the first program stands, it can be taken out of the window. -/
theorem exists_outside (window : machine.Window before first second replacement after half whole)
    (corresponds : Corresponds before.length replacement.length half now there) :
    ∃ later, machine.Run (before ++ ([first, second] ++ after)) now [] later ∧
      later.position ≠ before.length ∧ later.position ≠ before.length + 1 ∧
      (Corresponds before.length replacement.length half later there ∨
        ∃ final, machine.next? (before ++ (replacement ++ after)) there = some ([], final) ∧
          Corresponds before.length replacement.length half later final) := by
  by_cases front : now.position = before.length
  · obtain ⟨entered, enters, inside, waits, halfway, corresponds⟩ :=
      window.entered corresponds front
    obtain ⟨left, leaves, behind, follows⟩ :=
      window.through corresponds.calls inside waits halfway
    exact ⟨left, Run.step enters (Run.single leaves), by omega, by omega, follows⟩
  by_cases inside : now.position = before.length + 1
  · obtain ⟨waits, halfway⟩ := corresponds.inside inside
    obtain ⟨left, leaves, behind, follows⟩ :=
      window.through corresponds.calls inside waits halfway
    exact ⟨left, Run.single leaves, by omega, by omega, follows⟩
  · exact ⟨now, Run.stay now, front, inside, Or.inl corresponds⟩

/-- The first program follows the second. -/
theorem back (window : machine.Window before first second replacement after half whole) :
    machine.Simulation (before ++ (replacement ++ after)) (before ++ ([first, second] ++ after))
      (fun there now => Corresponds before.length replacement.length half now there) where
  step there now events later corresponds next := by
    -- behind an empty replacement the step is made outside, so the window has to be left first
    obtain ⟨outside, silent, front, inside, corresponds | ⟨final, replaces, corresponds⟩⟩ :=
      window.exists_outside corresponds
    · obtain ⟨-, -, steps⟩ := window.next? corresponds front inside
      obtain ⟨⟨_, final⟩, goes, rfl, corresponds⟩ := exists_of_rel (rel_flip steps) next
      exact ⟨final, silent.append (Run.single goes), corresponds⟩
    · obtain ⟨rfl, rfl⟩ := Prod.mk.inj (Option.some_inj.mp (next.symm.trans replaces))
      exact ⟨outside, silent, corresponds⟩
  stop there now corresponds ended := by
    obtain ⟨outside, silent, front, inside, corresponds | ⟨final, replaces, -⟩⟩ :=
      window.exists_outside corresponds
    · obtain ⟨memory, instruction, steps⟩ := window.next? corresponds front inside
      exact ⟨outside, silent, eq_none_of_rel (rel_flip steps) ended, memory.symm,
        instruction.symm⟩
    · exact absurd (ended.symm.trans replaces) (by simp)

theorem agree (window : machine.Window before first second replacement after half whole) :
    machine.Agree (before ++ ([first, second] ++ after)) (before ++ (replacement ++ after)) :=
  Agree.of_simulations window.forth window.back fun _ =>
    ⟨List.Forall₂.nil, Or.inl ⟨Or.inl ⟨Nat.zero_le _, rfl⟩, rfl⟩⟩

end Window

end Machine

end ThreeAddress
