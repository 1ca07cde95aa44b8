/-
Peephole passes and the propagation of constants create no inconsistency. A
program is coherent if it can be surveyed, if its control-flow graph can be
built, if each stored value of an expression has a start of its own, and if
behind each marked start of a function there is a marked end. On a coherent
program both passes succeed and leave a coherent program.

Two of the conditions are about the order of markers. Each can be checked by
going through the program with one truth value, and the step over a replacement
leads to where the steps over the span lead: the markers are carried over, and
a stored value that becomes a move only asks for less. Labels are lost by one
rule alone, and that one makes sure that nothing else refers to its label.
-/
import ThreeAddress.Proofs.Changes
import ThreeAddress.Proofs.Consistency

namespace ThreeAddress

open Relation
open Unused (closesExpression)

/-! ### Coherent programs -/

/-- Whether each marked start of a function has a marked end at it or behind it. -/
def Terminated (code : List Instruction) : Prop :=
  ∀ first, At (·.markers.functionStart) code first →
    ∃ last < code.length, first ≤ last ∧ At (·.markers.functionEnd) code last

instance (code : List Instruction) : Decidable (Terminated code) :=
  decidable_of_iff (∀ first < code.length, At (·.markers.functionStart) code first →
      ∃ last < code.length, first ≤ last ∧ At (·.markers.functionEnd) code last)
    ⟨fun all first starts => all first starts.lt_length starts, fun all first _ => all first⟩

/-- Whether peephole passes and the propagation of constants can work on a program. -/
structure Coherent (code : List Instruction) : Prop where
  surveyed : (Usage.survey code).isOk
  built : (Flow.build code).isOk
  opened : Opened code
  terminated : Terminated code

instance (code : List Instruction) : Decidable (Coherent code) :=
  decidable_of_iff
    ((Usage.survey code).isOk ∧ (Flow.build code).isOk ∧ Opened code ∧ Terminated code)
    ⟨fun ⟨surveyed, built, opened, terminated⟩ => ⟨surveyed, built, opened, terminated⟩,
      fun ⟨surveyed, built, opened, terminated⟩ => ⟨surveyed, built, opened, terminated⟩⟩

/-! ### Ends of functions -/

theorem exists_at_functionEnd {code : List Instruction} :
    (∃ last < code.length, At (·.markers.functionEnd) code last) ↔
      code.any fun i => i.markers.functionEnd := by
  rw [List.any_eq_true]
  constructor
  · rintro ⟨last, -, found⟩
    obtain ⟨i, there, ends⟩ := at_iff.mp found
    exact ⟨i, List.mem_of_getElem? there, ends⟩
  · rintro ⟨i, member, ends⟩
    obtain ⟨last, there⟩ := List.mem_iff_getElem?.mp member
    have found : At (·.markers.functionEnd) code last := at_iff.mpr ⟨i, there, ends⟩
    exact ⟨last, found.lt_length, found⟩

theorem terminated_cons {i : Instruction} {rest : List Instruction} :
    Terminated (i :: rest) ↔
      (i.markers.functionStart → (i :: rest).any fun i => i.markers.functionEnd) ∧
        Terminated rest := by
  constructor
  · intro terminated
    refine ⟨fun starts => exists_at_functionEnd.mp ?_, fun first starts => ?_⟩
    · obtain ⟨last, inside, -, ends⟩ := terminated 0 starts
      exact ⟨last, inside, ends⟩
    · obtain ⟨last, inside, behind, ends⟩ := terminated (first + 1) starts
      obtain ⟨last, rfl⟩ : ∃ before, last = before + 1 := ⟨last - 1, by omega⟩
      exact ⟨last, Nat.lt_of_succ_lt_succ inside, Nat.le_of_succ_le_succ behind, ends⟩
  · rintro ⟨head, tail⟩ first starts
    cases first with
    | zero =>
      obtain ⟨last, inside, ends⟩ := exists_at_functionEnd.mpr (head starts)
      exact ⟨last, inside, Nat.zero_le _, ends⟩
    | succ first =>
      obtain ⟨last, inside, behind, ends⟩ := tail first starts
      exact ⟨last + 1, Nat.succ_lt_succ inside, Nat.succ_le_succ behind, ends⟩

/-- What stands behind some instructions can be replaced if no end is lost. -/
theorem Terminated.replace {before code other : List Instruction}
    (terminated : Terminated (before ++ code))
    (ends : (code.any fun i => i.markers.functionEnd) = other.any fun i => i.markers.functionEnd)
    (replaced : Terminated code → Terminated other) : Terminated (before ++ other) := by
  induction before with
  | nil => exact replaced terminated
  | cons i rest inductionHypothesis =>
    rw [List.cons_append, terminated_cons] at terminated ⊢
    refine ⟨fun starts => ?_, inductionHypothesis terminated.2⟩
    have ended := terminated.1 starts
    rw [List.any_cons, List.any_append] at ended ⊢
    rwa [← ends]

/-! ### Starts of expressions -/

/-- Whether each store of the value of an expression finds a start that no other such store has
used up, going through a program with or without such a start at hand. -/
def OpenedFrom : Bool → List Instruction → Prop
  | _, [] => True
  | opened, i :: rest =>
    (closesExpression i → opened || i.markers.expressionStart) ∧
      OpenedFrom ((opened || i.markers.expressionStart) && !closesExpression i) rest

theorem openedFrom_iff {opened : Bool} {code : List Instruction} :
    OpenedFrom opened code ↔ ∀ last, At closesExpression code last →
      (opened ∧ ∀ k < last, ¬ At closesExpression code k) ∨
      ∃ first ≤ last, At (·.markers.expressionStart) code first ∧
        ∀ k < last, first ≤ k → ¬ At closesExpression code k := by
  induction code generalizing opened with
  | nil => exact ⟨fun _ last stores => absurd stores.lt_length (by simp), fun _ => trivial⟩
  | cons i rest inductionHypothesis =>
    rw [OpenedFrom, inductionHypothesis]
    constructor
    · rintro ⟨head, tail⟩ last stores
      cases last with
      | zero =>
        have none : ∀ k < 0, ¬ At closesExpression (i :: rest) k :=
          fun k less => absurd less (Nat.not_lt_zero k)
        rcases (Bool.or_eq_true _ _).mp (head stores) with before | starts
        · exact Or.inl ⟨before, none⟩
        · exact Or.inr ⟨0, Nat.le_refl 0, starts, fun k less _ => none k less⟩
      | succ last =>
        rcases tail last stores with ⟨atHand, none⟩ | ⟨first, before, starts, none⟩
        · obtain ⟨atHand, plain⟩ :
              (opened || i.markers.expressionStart) ∧ ¬ closesExpression i := by
            simpa using atHand
          have none : ∀ k < last + 1, ¬ At closesExpression (i :: rest) k
            | 0, _ => plain
            | k + 1, less => none k (Nat.lt_of_succ_lt_succ less)
          rcases (Bool.or_eq_true _ _).mp atHand with before | starts
          · exact Or.inl ⟨before, none⟩
          · exact Or.inr ⟨0, Nat.zero_le _, starts, fun k less _ => none k less⟩
        · refine Or.inr ⟨first + 1, Nat.succ_le_succ before, starts, fun k less le => ?_⟩
          obtain ⟨k, rfl⟩ : ∃ earlier, k = earlier + 1 := ⟨k - 1, by omega⟩
          exact none k (Nat.lt_of_succ_lt_succ less) (Nat.le_of_succ_le_succ le)
    · intro all
      refine ⟨fun closes => ?_, fun last stores => ?_⟩
      · rcases all 0 closes with ⟨before, -⟩ | ⟨first, zero, starts, -⟩
        · rw [before, Bool.true_or]
        · obtain rfl := Nat.le_zero.mp zero
          rw [show i.markers.expressionStart = true from starts, Bool.or_true]
      · have hand : (opened ∨ i.markers.expressionStart) →
            (∀ k < last + 1, ¬ At closesExpression (i :: rest) k) →
            ((opened || i.markers.expressionStart) && !closesExpression i) ∧
              ∀ k < last, ¬ At closesExpression rest k := by
          intro started none
          have plain : ¬ closesExpression i := none 0 (Nat.succ_pos _)
          exact ⟨by simpa [plain] using started, fun k less => none (k + 1) (Nat.succ_lt_succ less)⟩
        rcases all (last + 1) stores with ⟨before, none⟩ | ⟨first, before, starts, none⟩
        · exact Or.inl (hand (Or.inl before) none)
        · cases first with
          | zero => exact Or.inl (hand (Or.inr starts) fun k less => none k less (Nat.zero_le k))
          | succ first =>
            exact Or.inr ⟨first, Nat.le_of_succ_le_succ before, starts, fun k less le =>
              none (k + 1) (Nat.succ_lt_succ less) (Nat.succ_le_succ le)⟩

theorem opened_iff {code : List Instruction} : Opened code ↔ OpenedFrom false code := by
  simp [openedFrom_iff, Opened]

/-- A start at hand does no harm. -/
theorem OpenedFrom.mono {opened other : Bool} {code : List Instruction}
    (holds : OpenedFrom opened code) (more : opened → other) : OpenedFrom other code := by
  induction code generalizing opened other with
  | nil => trivial
  | cons i rest inductionHypothesis =>
    refine ⟨fun closes => ?_, inductionHypothesis holds.2 ?_⟩
    · have starts := holds.1 closes
      cases opened <;> simp_all
    · cases opened <;> simp_all

theorem OpenedFrom.replace {opened : Bool} {before code other : List Instruction}
    (holds : OpenedFrom opened (before ++ code))
    (replaced : ∀ opened, OpenedFrom opened code → OpenedFrom opened other) :
    OpenedFrom opened (before ++ other) := by
  induction before generalizing opened with
  | nil => exact replaced opened holds
  | cons i rest inductionHypothesis => exact ⟨holds.1, inductionHypothesis holds.2⟩

/-! ### Jumps -/

/-- A span can be replaced if the replacement does not jump and each label that it does not define
again is one that nothing else refers to. -/
theorem Flow.Resolved.replace {before span after replacement : List Instruction}
    (resolved : Flow.Resolved (before ++ (span ++ after)))
    (silent : ∀ i ∈ replacement, i.jumpTarget? = none)
    (labels : ∀ j ∈ span, ∀ label, j.definedLabel? = some label →
      (∃ k ∈ replacement, k.definedLabel? = some label) ∨
        ∀ i ∈ before ++ after, i.jumpTarget? ≠ some label) :
    Flow.Resolved (before ++ (replacement ++ after)) := by
  intro i member label leads
  have outside : i ∈ before ++ after := by
    simp only [List.mem_append] at member ⊢
    rcases member with old | new | old
    · exact Or.inl old
    · exact absurd leads (by simp [silent i new])
    · exact Or.inr old
  have inside : i ∈ before ++ (span ++ after) := by
    simp only [List.mem_append] at outside ⊢
    exact outside.imp_right Or.inr
  obtain ⟨j, found, defines⟩ := resolved i inside label leads
  simp only [List.mem_append] at found ⊢
  rcases found with old | gone | old
  · exact ⟨j, Or.inl old, defines⟩
  · rcases labels j gone label defines with ⟨k, new, again⟩ | unreferenced
    · exact ⟨k, Or.inr (Or.inl new), again⟩
    · exact absurd leads (unreferenced i outside)
  · exact ⟨j, Or.inr (Or.inr old), defines⟩

/-! ### Instructions that play the same part -/

/-- Whether two instructions are the same as far as markers and labels go. -/
structure SamePart (i j : Instruction) : Prop where
  opcode : j.opcode = i.opcode
  markers : j.markers = i.markers
  jumps : j.jumpTarget? = i.jumpTarget?
  defines : j.definedLabel? = i.definedLabel?

theorem samePart_of_remarked {i j : Instruction} (same : Unused.Remarked i j) : SamePart i j where
  opcode := same.opcode.symm
  markers := same.markers.symm
  jumps := by rw [Instruction.jumpTarget?, Instruction.jumpTarget?, same.opcode, same.operands]
  defines := by
    rw [Instruction.definedLabel?, Instruction.definedLabel?, same.opcode, same.operands]

theorem samePart_mapSources (known : Constants.Known) (i : Instruction) :
    SamePart i (i.mapSources (Constants.substitute known)) where
  opcode := rfl
  markers := rfl
  jumps := by
    unfold Instruction.jumpTarget?
    rw [Constants.firstLabel_mapSources]
    rfl
  defines := by
    unfold Instruction.definedLabel?
    rw [Constants.firstLabel_mapSources]
    rfl

theorem at_of_samePart {code other : List Instruction} (same : List.Forall₂ SamePart code other)
    {test : Instruction → Bool} (respects : ∀ i j, SamePart i j → test j = test i) (k : Nat) :
    At test other k ↔ At test code k := by
  induction same generalizing k with
  | nil => exact Iff.rfl
  | cons head tail inductionHypothesis =>
    cases k with
    | zero =>
      rw [at_of_getElem? List.getElem?_cons_zero, at_of_getElem? List.getElem?_cons_zero,
        respects _ _ head]
    | succ k => exact inductionHypothesis k

theorem Coherent.samePart {code other : List Instruction} (coherent : Coherent code)
    (same : List.Forall₂ SamePart code other) : Coherent other where
  surveyed := by
    have surveyed := isOk_survey.mp coherent.surveyed
    rw [isOk_survey]
    intro k starts
    rw [at_of_samePart same fun i j part => by rw [part.markers]] at starts
    rw [at_of_samePart same fun i j part => by rw [part.defines]]
    exact surveyed k starts
  built := by
    have resolved := Flow.isOk_build.mp coherent.built
    rw [Flow.isOk_build]
    intro j member label leads
    obtain ⟨site, there⟩ := List.mem_iff_getElem?.mp member
    have jumps : At (·.jumpTarget? = some label) code site :=
      (at_of_samePart same (fun i j part => by rw [part.jumps]) site).mp
        (at_iff.mpr ⟨j, there, by simpa using leads⟩)
    obtain ⟨i, here, leads⟩ := at_iff.mp jumps
    obtain ⟨k, found, defines⟩ :=
      resolved i (List.mem_of_getElem? here) label (by simpa using leads)
    obtain ⟨target, here⟩ := List.mem_iff_getElem?.mp found
    have defined : At (·.definedLabel? = some label) other target :=
      (at_of_samePart same (fun i j part => by rw [part.defines]) target).mpr
        (at_iff.mpr ⟨k, here, by simpa using defines⟩)
    obtain ⟨l, there, defines⟩ := at_iff.mp defined
    exact ⟨l, List.mem_of_getElem? there, by simpa using defines⟩
  opened := by
    intro last stores
    have closes : ∀ k, At closesExpression other k ↔ At closesExpression code k :=
      at_of_samePart same fun i j part => by
        rw [closesExpression, closesExpression, part.opcode, part.markers]
    obtain ⟨first, before, starts, none⟩ := coherent.opened last ((closes last).mp stores)
    refine ⟨first, before, ?_, fun k less le found => none k less le ((closes k).mp found)⟩
    exact (at_of_samePart same (fun i j part => by rw [part.markers]) first).mpr starts
  terminated := by
    intro first starts
    rw [at_of_samePart same fun i j part => by rw [part.markers]] at starts
    obtain ⟨last, inside, behind, ends⟩ := coherent.terminated first starts
    refine ⟨last, by rw [← same.length_eq]; exact inside, behind, ?_⟩
    exact (at_of_samePart same (fun i j part => by rw [part.markers]) last).mpr ends

/-! ### Replacements -/

theorem Markers.eq_of_isEmpty {markers : Markers} (empty : markers.isEmpty) : markers = {} := by
  obtain ⟨functionStart, functionEnd, expressionStart, expressionEnd⟩ := markers
  simp_all [isEmpty, hasStart, hasEnd]

namespace Peephole

section Merged

variable {first second : Instruction} {opcode : Opcode} {operands : List Operand}

/-- What takes the place of two instructions opens what the first opens. -/
theorem functionStart_merged : (merged first second opcode operands).markers.functionStart =
    first.markers.functionStart := by
  simp [merged, Markers.union, Markers.starts, Markers.ends]

theorem functionEnd_merged : (merged first second opcode operands).markers.functionEnd =
    second.markers.functionEnd := by
  simp [merged, Markers.union, Markers.starts, Markers.ends]

theorem expressionStart_merged : (merged first second opcode operands).markers.expressionStart =
    first.markers.expressionStart := by
  simp [merged, Markers.union, Markers.starts, Markers.ends]

/-- Two instructions are merged into a label or a move. -/
theorem Merges.opcode_cases (merges : Merges first second opcode operands) :
    (opcode = .label ∨ opcode = .move) ∧ first.opcode ≠ .label := by
  cases merges with
  | jump jumps leads defines => exact ⟨Or.inl rfl, by rw [jumps]; decide⟩
  | store pushes pushed pops popped => exact ⟨Or.inr rfl, by rw [pushes]; decide⟩
  | overwrite moves again overwritten => exact ⟨Or.inr rfl, by rw [moves]; decide⟩

/-- The label of two instructions that are merged is defined again. -/
theorem Merges.definedLabel? (merges : Merges first second opcode operands) {label : String}
    (defines : first.definedLabel? = some label ∨ second.definedLabel? = some label) :
    (merged first second opcode operands).definedLabel? = some label := by
  have second : second.definedLabel? = some label := defines.resolve_left fun first =>
    merges.opcode_cases.2 (Flow.opcode_of_definedLabel? first)
  cases merges with
  | jump jumps leads named =>
    obtain rfl := Option.some_inj.mp (named.symm.trans second)
    rfl
  | store pushes pushed pops popped =>
    exact absurd (Flow.opcode_of_definedLabel? second) (by rw [pops]; decide)
  | overwrite moves again overwritten =>
    exact absurd (Flow.opcode_of_definedLabel? second) (by rw [again]; decide)

end Merged

variable {usage : Usage} {before span after replacement : List Instruction}

/-- A replacement needs no start of an expression that the span does not need, and leaves the starts
that the span leaves. -/
theorem Replaces.openedFrom (replaces : Replaces usage span replacement) {opened : Bool}
    (holds : OpenedFrom opened (span ++ after)) : OpenedFrom opened (replacement ++ after) := by
  cases replaces with
  | frame creates pushes pops unmarked =>
    simp only [List.forall_mem_cons] at unmarked
    obtain ⟨one, two, three, -⟩ := unmarked
    simpa [OpenedFrom, closesExpression, creates, pushes, pops, Markers.eq_of_isEmpty one,
      Markers.eq_of_isEmpty two, Markers.eq_of_isEmpty three] using holds
  | jump jumps leads defines sole unmarked =>
    simp only [List.forall_mem_cons] at unmarked
    obtain ⟨one, two, -⟩ := unmarked
    simpa [OpenedFrom, closesExpression, jumps, Flow.opcode_of_definedLabel? defines,
      Markers.eq_of_isEmpty one, Markers.eq_of_isEmpty two] using holds
  | @pair first second opcode operands merges unclosed unopened =>
    obtain ⟨-, -, rest⟩ := holds
    have unstored : closesExpression first = false := by
      simp_all [closesExpression, Markers.hasEnd]
    have plain : second.markers.expressionStart = false := by
      simp_all [Markers.hasStart]
    have quiet : closesExpression (merged first second opcode operands) = false := by
      rcases merges.opcode_cases.1 with rfl | rfl <;> rfl
    rw [unstored, plain] at rest
    refine ⟨fun closes => absurd closes (by simp [quiet]), rest.mono ?_⟩
    rw [quiet, expressionStart_merged]
    simpa using fun started _ => started

/-- A replacement ends functions where the span ends them. -/
theorem Replaces.any_functionEnd (replaces : Replaces usage span replacement) :
    (span.any fun i => i.markers.functionEnd) =
      replacement.any fun i => i.markers.functionEnd := by
  cases replaces with
  | frame creates pushes pops unmarked =>
    simp only [List.forall_mem_cons] at unmarked
    simp [Markers.eq_of_isEmpty unmarked.1, Markers.eq_of_isEmpty unmarked.2.1,
      Markers.eq_of_isEmpty unmarked.2.2.1]
  | jump jumps leads defines sole unmarked =>
    simp only [List.forall_mem_cons] at unmarked
    simp [Markers.eq_of_isEmpty unmarked.1, Markers.eq_of_isEmpty unmarked.2.1]
  | pair merges unclosed unopened =>
    simp_all [functionEnd_merged, Markers.hasEnd]

theorem Replaces.terminated (replaces : Replaces usage span replacement)
    (terminated : Terminated (span ++ after)) : Terminated (replacement ++ after) := by
  have ends := replaces.any_functionEnd
  cases replaces with
  | frame creates pushes pops unmarked =>
    exact (terminated_cons.mp (terminated_cons.mp (terminated_cons.mp terminated).2).2).2
  | jump jumps leads defines sole unmarked =>
    exact (terminated_cons.mp (terminated_cons.mp terminated).2).2
  | @pair first second opcode operands merges unclosed unopened =>
    obtain ⟨head, tail⟩ := terminated_cons.mp terminated
    refine terminated_cons.mpr ⟨fun starts => ?_, (terminated_cons.mp tail).2⟩
    rw [functionStart_merged] at starts
    have ended : ([first, second] ++ after).any fun i => i.markers.functionEnd := head starts
    rwa [List.any_append, ends, ← List.any_append] at ended

/-- A replacement opens no function: only a label does, and no span starts with one. -/
theorem Replaces.not_functionStart (replaces : Replaces usage span replacement)
    (labelled : ∀ i ∈ span, i.markers.functionStart → i.definedLabel?.isSome) :
    ∀ i ∈ replacement, ¬ i.markers.functionStart := by
  cases replaces with
  | frame creates pushes pops unmarked => exact fun _ member => absurd member List.not_mem_nil
  | jump jumps leads defines sole unmarked => exact fun _ member => absurd member List.not_mem_nil
  | @pair first second opcode operands merges unclosed unopened =>
    intro i member starts
    rw [List.mem_singleton.mp member, functionStart_merged] at starts
    obtain ⟨label, defines⟩ :=
      Option.isSome_iff_exists.mp (labelled first List.mem_cons_self starts)
    exact merges.opcode_cases.2 (Flow.opcode_of_definedLabel? defines)

theorem Replaces.resolved (replaces : Replaces usage span replacement)
    (counts : usage.Counts (before ++ (span ++ after)))
    (resolved : Flow.Resolved (before ++ (span ++ after))) :
    Flow.Resolved (before ++ (replacement ++ after)) := by
  cases replaces with
  | frame creates pushes pops unmarked =>
    refine resolved.replace (fun _ member => absurd member List.not_mem_nil) ?_
    intro j member label defines
    have opcode := Flow.opcode_of_definedLabel? defines
    simp only [List.mem_cons, List.not_mem_nil, or_false] at member
    rcases member with rfl | rfl | rfl <;> simp_all
  | jump jumps leads named sole unmarked =>
    refine resolved.replace (fun _ member => absurd member List.not_mem_nil) ?_
    intro j member label defines
    simp only [List.mem_cons, List.not_mem_nil, or_false] at member
    rcases member with rfl | rfl
    · exact absurd (Flow.opcode_of_definedLabel? defines) (by rw [jumps]; decide)
    · obtain rfl := Option.some_inj.mp (named.symm.trans defines)
      exact Or.inr (not_jumpTarget?_of_sole counts leads sole)
  | @pair first second opcode operands merges unclosed unopened =>
    refine resolved.replace ?_ fun j member label defines => Or.inl ⟨_, List.mem_singleton_self _,
      merges.definedLabel? ?_⟩
    · intro i member
      rw [List.mem_singleton.mp member]
      rcases merges.opcode_cases.1 with rfl | rfl <;> rfl
    · simp only [List.mem_cons, List.not_mem_nil, or_false] at member
      rcases member with rfl | rfl
      · exact Or.inl defines
      · exact Or.inr defines

/-- A rewrite leaves a coherent program. -/
theorem Replaces.coherent (replaces : Replaces usage span replacement)
    (counts : usage.Counts (before ++ (span ++ after)))
    (coherent : Coherent (before ++ (span ++ after))) :
    Coherent (before ++ (replacement ++ after)) where
  surveyed := by
    have labelled := isOk_survey_iff.mp coherent.surveyed
    rw [isOk_survey_iff]
    intro i member starts
    simp only [List.mem_append] at labelled member
    rcases member with old | new | old
    · exact labelled i (Or.inl old) starts
    · exact absurd starts (replaces.not_functionStart
        (fun j inside => labelled j (Or.inr (Or.inl inside))) i new)
    · exact labelled i (Or.inr (Or.inr old)) starts
  built := Flow.isOk_build.mpr (replaces.resolved counts (Flow.isOk_build.mp coherent.built))
  opened := opened_iff.mpr
    ((opened_iff.mp coherent.opened).replace fun _ holds => replaces.openedFrom holds)
  terminated := coherent.terminated.replace
    (by rw [List.any_append, replaces.any_functionEnd, ← List.any_append]) replaces.terminated

end Peephole

/-! ### Passes -/

/-- Every change leaves a coherent program, deletions aside. -/
theorem Change.coherent {pass : Pass} {code next : List Instruction}
    (change : Change pass code next) (keeps : pass ≠ .deadCode) (coherent : Coherent code) :
    Coherent next := by
  cases change with
  | survey same => exact coherent.samePart (same.imp fun _ _ => samePart_of_remarked)
  | delete thinned => exact absurd rfl keeps
  | rewrite counts replaces => exact replaces.coherent counts coherent
  | substitute known before i after =>
    have refl : ∀ code : List Instruction, List.Forall₂ SamePart code code :=
      fun code => List.forall₂_same.mpr fun i _ => ⟨rfl, rfl, rfl, rfl⟩
    exact coherent.samePart
      (List.rel_append (refl before) (List.Forall₂.cons (samePart_mapSources known i) (refl after)))

namespace Optimiser

theorem coherent_of_changes {pass : Pass} {code next : List Instruction}
    (changes : ReflTransGen (Change pass) code next) (keeps : pass ≠ .deadCode)
    (coherent : Coherent code) :
    Coherent next := by
  induction changes with
  | refl => exact coherent
  | tail _ change inductionHypothesis => exact change.coherent keeps inductionHypothesis

/-- A pass that only rewrites or substitutes succeeds on a coherent program. -/
theorem exists_runPass {pass : Pass} {code : List Instruction} (coherent : Coherent code)
    (keeps : pass ≠ .deadCode) (limit : Nat) :
    ∃ edit events, runPass limit pass code = .ok (edit, events) := by
  obtain ⟨⟨usage, surveyed⟩, survey⟩ := exists_ok_of_isOk coherent.surveyed
  cases pass with
  | deadCode => exact absurd rfl keeps
  | peephole =>
    exact ⟨_, _, runPass_iff.mpr (.peephole survey (Prod.mk.eta).symm)⟩
  | constantPropagation =>
    have again := coherent.samePart
      ((Unused.remarked_survey survey).imp fun _ _ => samePart_of_remarked)
    obtain ⟨flow, built⟩ := exists_ok_of_isOk again.built
    exact ⟨_, _, runPass_iff.mpr (.constantPropagation survey built)⟩

/-- On a coherent program peephole passes, whatever their limit, and the propagation of constants
succeed and leave a coherent program. -/
theorem rewriting_leaves_coherent {code : List Instruction} (coherent : Coherent code)
    {pass : Pass} (keeps : pass = .peephole ∨ pass = .constantPropagation) (limit : Nat) :
    ∃ edit events, runPass limit pass code = .ok (edit, events) ∧ Coherent edit.code := by
  have other : pass ≠ .deadCode := by rcases keeps with rfl | rfl <;> decide
  obtain ⟨edit, events, ran⟩ := exists_runPass coherent other limit
  have changes := changes_after limit pass code
  rw [after, ran] at changes
  exact ⟨edit, events, ran, coherent_of_changes changes other coherent⟩

/-- A function with a frame that it does not use, a stored constant that is pushed and popped, and a
jump to the next instruction. -/
def untidy : List Instruction :=
  [{ opcode := .jump, operands := [.label "main"] },
   { opcode := .label, operands := [.label "f"], markers := { functionStart := true } },
   { opcode := .createframe, operands := [] },
   { opcode := .pushframe, operands := [] },
   { opcode := .popframe, operands := [] },
   { opcode := .ret, operands := [], markers := { functionEnd := true } },
   { opcode := .label, operands := [.label "main"] },
   { opcode := .move, operands := [.var ⟨.gf, "n"⟩, .const (.int 1)] },
   { opcode := .pushs, operands := [.var ⟨.gf, "n"⟩], markers := { expressionStart := true } },
   { opcode := .pops, operands := [.var ⟨.lf, "x"⟩], markers := { expressionEnd := true } },
   { opcode := .jump, operands := [.label "end"] },
   { opcode := .label, operands := [.label "end"] },
   { opcode := .call, operands := [.label "f"] }]

/-- Both passes find something to change in it. -/
theorem rewriting_leaves_coherent_untidy : Coherent untidy ∧
    ∀ pass, pass = .peephole ∨ pass = .constantPropagation →
      ∃ edit events, runPass 2 pass untidy = .ok (edit, events) ∧ 0 < edit.changes ∧
        Coherent edit.code := by
  have coherent : Coherent untidy := by decide +kernel
  refine ⟨coherent, fun pass keeps => ?_⟩
  obtain ⟨edit, events, ran, left⟩ := rewriting_leaves_coherent coherent keeps 2
  refine ⟨edit, events, ran, ?_, left⟩
  have changed : (runPass 2 pass untidy).toOption.any fun result => 0 < result.1.changes := by
    rcases keeps with rfl | rfl <;> decide +kernel
  rw [ran] at changed
  simpa [Except.toOption] using changed

end Optimiser

end ThreeAddress
