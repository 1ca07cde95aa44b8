/-
The removal of unused variables goes on until there is nothing left to remove.
Passes follow each other without a bound of their own; each that removes
something makes the program shorter, so the bound of `removeVariables` is never
what ends them. The last pass removes nothing, and what it says about every
instruction that it keeps is what the result is like: an idle variable is still
mentioned only where an expression with effects stores its value and where such
a variable is declared. Another removal starts with the same pass, so it removes
nothing either.
-/
import ThreeAddress.Proofs.CallEffects
import ThreeAddress.Proofs.Settling

namespace ThreeAddress

/-- A destination is the first operand. -/
theorem Instruction.getElem?_of_target? {i : Instruction} {v : Variable}
    (target : i.target? = some v) : i.operands[0]? = some (.var v) := by
  unfold target? at target
  split at target
  · obtain ⟨operand, first, isVar⟩ := Option.bind_eq_some_iff.mp target
    rw [← List.head?_eq_getElem?, first]
    cases operand with
    | var w =>
      obtain rfl := Option.some_inj.mp isVar
      rfl
    | const _ | label _ | type _ => exact absurd isVar (by simp [Operand.var?])
  · exact absurd target (by simp)

namespace Unused

open Relation

/-! ### Passes without a bound -/

/-- What passes come to that go on until one fails or removes nothing, however many that takes;
`total` is what was removed before. -/
inductive Concludes : List Instruction → Nat → Except Halt Edit → Prop
  | failed {code : List Instruction} {total : Nat} {halt : Halt}
    (pruned : prune code = .error halt) : Concludes code total (.error halt)
  | settled {code : List Instruction} {total : Nat} {edit : Edit} (pruned : prune code = .ok edit)
    (unchanged : edit.changes = 0) : Concludes code total (.ok { edit with changes := total })
  | again {code : List Instruction} {total : Nat} {edit : Edit} {outcome : Except Halt Edit}
    (pruned : prune code = .ok edit) (changed : edit.changes ≠ 0)
    (rest : Concludes edit.code (total + edit.changes) outcome) : Concludes code total outcome

section Concludes

variable {code : List Instruction} {total : Nat} {edit : Edit} {outcome other : Except Halt Edit}

/-- A program determines what its next pass does, so two accounts take the same turns. -/
theorem Concludes.unique (first : Concludes code total outcome)
    (second : Concludes code total other) : outcome = other := by
  induction first with
  | failed pruned => cases second <;> grind
  | settled pruned unchanged => cases second <;> grind
  | again pruned changed rest inductionHypothesis => cases second <;> grind

/-- More passes than there are instructions are enough. -/
theorem concludes_pruneAll {passes : Nat} (enough : edit.code.length < passes) :
    Concludes edit.code edit.changes (pruneAll passes edit) := by
  induction passes generalizing edit with
  | zero => exact absurd enough (Nat.not_lt_zero _)
  | succ passes inductionHypothesis =>
    unfold pruneAll
    cases pruned : prune edit.code with
    | error halt => exact .failed pruned
    | ok next =>
      have shorter := length_prune pruned
      show Concludes _ _ (if next.changes = 0 then _ else _)
      split
      · next unchanged => exact .settled pruned unchanged
      · next changed =>
        refine .again pruned changed ?_
        exact @inductionHypothesis { next with changes := edit.changes + next.changes }
          (show next.code.length < passes by omega)

/-- The bound on the passes is never what ends them. -/
theorem concludes_iff : Concludes code 0 outcome ↔ removeVariables code = outcome := by
  have ends : Concludes code 0 (removeVariables code) :=
    @concludes_pruneAll { code, usage := {}, changes := 0 } _ (Nat.lt_succ_self _)
  constructor
  · exact fun concludes => ends.unique concludes
  · rintro rfl
    exact ends

/-- Passes that succeed end with one that removes nothing. -/
theorem Concludes.exists_last (concludes : Concludes code total (.ok edit)) :
    ∃ last next, prune last = .ok next ∧ next.changes = 0 ∧
      edit = { next with changes := edit.changes } := by
  generalize same : Except.ok edit = outcome at concludes
  induction concludes with
  | failed pruned => cases same
  | settled pruned unchanged =>
    obtain rfl := Except.ok.inj same
    exact ⟨_, _, pruned, unchanged, rfl⟩
  | again pruned changed rest inductionHypothesis => exact inductionHypothesis same

theorem Concludes.length (concludes : Concludes code total (.ok edit)) :
    edit.changes + edit.code.length = total + code.length := by
  generalize same : Except.ok edit = outcome at concludes
  induction concludes with
  | failed pruned => cases same
  | settled pruned unchanged =>
    have whole := length_prune pruned
    obtain rfl := Except.ok.inj same
    dsimp only
    omega
  | again pruned changed rest inductionHypothesis =>
    have whole := length_prune pruned
    have later := inductionHypothesis same
    omega

end Concludes

/-! ### Single instructions that go -/

/-- Whether a deletion takes one instruction that declares an idle variable or moves something into
it. -/
structure Deletion.Lone (deletion : Deletion) (current : List Instruction) : Prop where
  alone : deletion.inner = []
  opcode : deletion.last.opcode = .defvar ∨ deletion.last.opcode = .move
  idle : ∃ v, deletion.last.operands[0]? = some (.var v) ∧ Idle current v

section Deletions

variable {code current next final : List Instruction} {log earlier later : List Deletion}
  {deletion : Deletion}

/-- Whatever goes without ending an expression declares an idle variable or moves something into
it: everything else that mentions a variable has an occurrence of it. -/
theorem Deletes.lone (deletes : Deletes current deletion next)
    (wellFormed : deletion.last.WellFormed) (plain : ¬ closesExpression deletion.last) :
    deletion.Lone current := by
  cases deletes with
  | expression closes receives idle start pure => exact absurd closes plain
  | @alone before after i v _ mentions idle =>
    have absent : i.occurrencesOf v = 0 :=
      Usage.occurrencesIn_eq_zero_iff.mp idle.unused i (by simp)
    refine ⟨rfl, ?_, v, ?_, idle⟩
    · by_contra other
      rw [not_or] at other
      rw [closesExpression, decide_eq_true_eq] at plain
      have occurs : 0 < i.occurrencesOf v :=
        Instruction.occurs_of_mem_vars other.1 plain other.2 mentions
      omega
    · rcases Instruction.mem_vars_iff.mp mentions with target | reads
      · exact Instruction.getElem?_of_target? target
      · have occurs : 0 < i.occurrencesOf v := Instruction.occurs_of_mem_reads wellFormed reads
        omega

/-- Each deletion of a log takes place in the program that the earlier ones have left. -/
theorem Erases.exists_deletes (erases : Erases code (earlier ++ deletion :: later) final) :
    ∃ current next, Erases code earlier current ∧ Deletes current deletion next ∧
      Erases next later final := by
  generalize same : earlier ++ deletion :: later = log at erases
  induction erases generalizing later with
  | start => exact absurd same (by simp)
  | survey before remarked inductionHypothesis =>
    obtain ⟨current, next, erases, deletes, rest⟩ := inductionHypothesis same
    exact ⟨current, next, erases, deletes, rest.survey remarked⟩
  | @delete log last current next before deletes inductionHypothesis =>
    rcases List.eq_nil_or_concat later with rfl | ⟨shorter, final, rfl⟩
    · obtain ⟨rfl, one⟩ := List.append_inj' same rfl
      obtain rfl := List.singleton_inj.mp one
      exact ⟨current, next, before, deletes, .start⟩
    · rw [List.concat_eq_append, ← List.cons_append, ← List.append_assoc] at same
      obtain ⟨rfl, one⟩ := List.append_inj' same rfl
      obtain rfl := List.singleton_inj.mp one
      obtain ⟨start, behind, erases, first, rest⟩ := inductionHypothesis rfl
      refine ⟨start, behind, erases, first, ?_⟩
      rw [List.concat_eq_append]
      exact rest.delete deletes

/-- Each deletion of a log took an expression, or an instruction on its own for a reason that held
at that moment. -/
theorem Erases.exists_reason (wellFormed : ∀ i ∈ code, i.WellFormed)
    (erases : Erases code (earlier ++ deletion :: later) final) :
    ∃ current next, Erases code earlier current ∧ Deletes current deletion next ∧
      Erases next later final ∧ (closesExpression deletion.last ∨ deletion.Lone current) := by
  obtain ⟨current, next, before, deletes, behind⟩ := erases.exists_deletes
  refine ⟨current, next, before, deletes, behind, ?_⟩
  by_cases closes : closesExpression deletion.last
  · exact Or.inl closes
  · refine Or.inr (deletes.lone (wellFormed_erases erases wellFormed _ ?_) closes)
    simp [Deletion.instructions]

end Deletions

/-! ### What the last pass keeps -/

/-- Why a pass keeps an instruction: `done` is what stands ahead of it, last first. -/
structure Survives (kept : List Variable) (usage : Usage) (done : List Instruction)
    (i : Instruction) : Prop where
  closing : closesExpression i → (receiver? i).any (isUnused usage) →
    ∃ count effects, expressionStart? (i :: done) = some (count, effects) ∧ ¬ effects.isPure
  plain : ¬ closesExpression i → ¬ isDead usage kept i

/-- A step that removes nothing keeps the next instruction as it is. -/
theorem PruneStep.survives {kept : List Variable} {now later : Pruning}
    (step : PruneStep kept now later) (fresh : now.handed = none)
    (unchanged : later.removed ≤ now.removed) :
    ∃ i rest, now.rest = i :: rest ∧ Survives kept now.usage now.done i ∧
      later = { now with rest, done := i :: now.done } := by
  cases step with
  | keep next plain alive =>
    rw [fresh] at plain alive
    refine ⟨_, _, next, ⟨fun closes => absurd closes plain, fun _ => alive⟩, ?_⟩
    rw [fresh]
    rfl
  | keepExpression next closes needed =>
    rw [fresh] at closes needed
    refine ⟨_, _, next, ⟨fun _ => needed, fun plain => absurd closes plain⟩, ?_⟩
    rw [fresh]
    rfl
  | drop next plain dead => exact absurd unchanged (by simp)
  | dropExpression next closes unused start pure =>
    obtain ⟨newer, first, older, -, length, -⟩ := exists_split_of_expressionStart? start
    dsimp only at unchanged
    omega

theorem survives_of_run {kept : List Variable} {now later : Pruning}
    (run : ReflTransGen (PruneStep kept) now later) (fresh : now.handed = none)
    (unchanged : later.removed ≤ now.removed) (ended : later.rest = [])
    {before after : List Instruction} {i : Instruction} (split : now.rest = before ++ i :: after) :
    Survives kept now.usage (before.reverse ++ now.done) i := by
  induction run using ReflTransGen.head_induction_on generalizing before with
  | refl => rw [ended] at split; exact absurd split (by simp)
  | @head now next step rest inductionHypothesis =>
    have fewer := Pruning.removed_le_run rest
    obtain ⟨first, behind, here, survives, rfl⟩ := step.survives fresh (fewer.trans unchanged)
    cases before with
    | nil =>
      obtain ⟨rfl, -⟩ := List.cons.inj (here.symm.trans split)
      exact survives
    | cons head before =>
      obtain ⟨rfl, tail⟩ := List.cons.inj (here.symm.trans split)
      have further := inductionHypothesis fresh unchanged tail
      rwa [List.reverse_cons, List.append_assoc]

/-- A pass that removes nothing keeps every instruction of the surveyed program. -/
theorem survives_of_prune {code : List Instruction} {edit : Edit} (pruned : prune code = .ok edit)
    (unchanged : edit.changes = 0) :
    ∃ usage kept, Usage.survey code = .ok (usage, edit.code) ∧
      keptVariables usage 0 edit.code none = .ok kept ∧
      ∀ before i after, edit.code = before ++ i :: after →
        Survives kept usage before.reverse i := by
  obtain ⟨usage, surveyed, kept, final, survey, keeping, ended, rfl, run⟩ :=
    exists_run_of_prune pruned
  have same := text_of_run run (Nat.le_of_eq unchanged)
  rw [Pruning.text, Pruning.text, ended, handOver, List.append_nil, handOver_none] at same
  obtain rfl : final.done.reverse = surveyed := same
  refine ⟨usage, kept, survey, keeping, fun before i after split => ?_⟩
  have survives := survives_of_run run rfl (Nat.le_of_eq unchanged) ended split
  rwa [List.append_nil] at survives

/-! ### What is left -/

/-- Whether an instruction with others ahead of it stores the value of an expression with effects
into a variable: the nearest start ahead of it has effects on record. -/
structure StoresEffectful (before : List Instruction) (i : Instruction) (v : Variable) : Prop where
  stores : Stores i v
  inside : ¬ i.markers.expressionStart
  start : ∃ earlier start inner, before = earlier ++ start :: inner ∧
    start.markers.expressionStart ∧ ¬ start.effects.isPure ∧
    ∀ j ∈ inner, ¬ j.markers.expressionStart

section Left

variable {code surveyed before after : List Instruction} {usage : Usage} {i : Instruction}
  {v : Variable}

/-- An expression that consists of its store has no effects on record. -/
theorem isPure_of_single (survey : Usage.survey code = .ok (usage, surveyed))
    (split : surveyed = before ++ i :: after) (closes : closesExpression i)
    (marked : i.markers.expressionStart) : i.effects.isPure := by
  have here : surveyed[before.length]? = some i := by rw [split]; simp
  obtain ⟨j, there, effects⟩ := has_effects_survey (Usage.survey_surveyed survey)
    ((at_of_getElem? here).mpr marked)
  obtain rfl := Option.some_inj.mp (here.symm.trans there)
  rw [closesExpression, decide_eq_true_eq] at closes
  have none : i.effects = Effects.none := by
    refine Effects.eq_none_of_has fun effect has => ?_
    obtain ⟨position, j, found, within, brings⟩ := (effects effect).mp has
    -- the instruction ends the expression, so no other one belongs to it
    obtain rfl : before.length = position := by
      by_contra different
      have later := Nat.lt_of_le_of_ne within.ordered different
      exact within.unclosed before.length later (Nat.le_refl _) ((at_of_getElem? here).mpr closes.2)
    obtain rfl := Option.some_inj.mp (here.symm.trans found)
    rcases brings with ⟨open_, -⟩ | ⟨callee, called, -⟩
    · exact open_ closes.2
    · rw [Usage.calledFunction?, closes.1] at called
      exact absurd called (by simp)
  rw [Effects.isPure, none]
  rfl

theorem storesEffectful_of_start (survey : Usage.survey code = .ok (usage, surveyed))
    (split : surveyed = before ++ i :: after) (stores : Stores i v) {count : Nat}
    {effects : Effects} (found : expressionStart? (i :: before.reverse) = some (count, effects))
    (effectful : ¬ effects.isPure) : StoresEffectful before i v := by
  unfold expressionStart? at found
  split at found
  · next marked =>
    obtain ⟨-, rfl⟩ := Prod.mk.inj (Option.some_inj.mp found)
    exact absurd (isPure_of_single survey split stores.1 marked) effectful
  · next unmarked =>
    obtain ⟨⟨less, known⟩, ahead, same⟩ := Option.map_eq_some_iff.mp found
    obtain ⟨-, rfl⟩ := Prod.mk.inj same
    obtain ⟨newer, start, older, reversed, -, marked, rfl, plain⟩ :=
      exists_split_of_expressionStart? ahead
    refine ⟨stores, unmarked, older.reverse, start, newer.reverse, ?_, marked, effectful,
      fun j member => plain j (List.mem_reverse.mp member)⟩
    rw [← List.reverse_reverse before, reversed, List.reverse_append, List.reverse_cons,
      List.append_assoc, List.singleton_append]

/-- Whether every instruction of a program that mentions an idle variable stores the value of an
expression with effects in it, or declares it and such a store is there. -/
def Exhausted (code : List Instruction) : Prop :=
  ∀ before i after v, code = before ++ i :: after → v ∈ i.vars → Idle code v →
    StoresEffectful before i v ∨
      (Declares i v ∧ ∃ ahead store behind, code = ahead ++ store :: behind ∧
        StoresEffectful ahead store v)

/-- A pass that removes nothing leaves nothing to remove. -/
theorem exhausted_of_prune {edit : Edit} (pruned : prune code = .ok edit)
    (unchanged : edit.changes = 0) (wellFormed : ∀ i ∈ edit.code, i.WellFormed) :
    Exhausted edit.code := by
  obtain ⟨usage, kept, survey, keeping, survives⟩ := survives_of_prune pruned unchanged
  intro before i after v split mentions idle
  have unused : isUnused usage v := by
    rw [isUnused, decide_eq_true_eq]
    exact ⟨idle.lasting, ((Usage.counts_survey survey).2.occurrences v).trans idle.unused⟩
  have survives := survives before i after split
  have regular : i.WellFormed := wellFormed i (by rw [split]; simp)
  have receives (single : i.opcode.arity = 1) : receiver? i = some v := by
    rw [vars_eq_receiver? regular single, Option.mem_toList] at mentions
    exact mentions
  by_cases closes : closesExpression i
  · have pops := closes
    rw [closesExpression, decide_eq_true_eq] at pops
    have stores : Stores i v := ⟨closes, receives (by rw [pops.1]; rfl)⟩
    obtain ⟨count, effects, start, effectful⟩ := survives.closing closes (by
      rw [stores.2]
      exact unused)
    exact Or.inl (storesEffectful_of_start survey split stores start effectful)
  · have declared : i.opcode = .defvar ∧ v ∈ kept := by
      by_contra other
      refine survives.plain closes (List.any_eq_true.mpr ⟨v, mentions, ?_⟩)
      rw [unused]
      simpa [or_iff_not_imp_left] using other
    obtain ⟨ahead, store, behind, there, stores, count, effects, start, effectful⟩ :=
      @exists_start_of_mem_kept _ _ [] _ _ _ _ keeping declared.2
        fun effects none => absurd none (by simp)
    rw [List.append_nil] at start
    exact Or.inr ⟨⟨declared.1, receives (by rw [declared.1]; rfl)⟩, ahead, store, behind, there,
      storesEffectful_of_start survey there stores start effectful⟩

end Left

/-- A pass that removes nothing does the same on what it leaves. -/
theorem prune_again {code : List Instruction} {edit : Edit} (pruned : prune code = .ok edit)
    (unchanged : edit.changes = 0) : prune edit.code = .ok edit := by
  obtain ⟨usage, survey⟩ := surveyed_of_prune pruned unchanged
  exact ok_of_surveyFirst (remarked_survey survey) pruned

/-- What holds of a removal that succeeds. The changes are the instructions that are gone; each of
them went with the end of an expression, or on its own because it declared a variable, or moved
something into a variable, that was idle at that moment. Nothing is left to remove, and another
removal removes nothing. -/
structure Exhaustive (code : List Instruction) (edit : Edit) : Prop where
  changes : edit.changes + edit.code.length = code.length
  deletions : ∃ log, Erases code log edit.code ∧
    edit.changes = (log.flatMap Deletion.instructions).length ∧
    ∀ earlier deletion later, log = earlier ++ deletion :: later →
      ∃ current next, Erases code earlier current ∧ Deletes current deletion next ∧
        Erases next later edit.code ∧ (closesExpression deletion.last ∨ deletion.Lone current)
  exhausted : Exhausted edit.code
  again : removeVariables edit.code = .ok { edit with changes := 0 }

/-- The removal of unused variables ends, with what the passes come to without a bound, and where it
succeeds it is exhaustive. -/
theorem removal_is_exhaustive {code : List Instruction} (wellFormed : ∀ i ∈ code, i.WellFormed) :
    (∀ outcome, Concludes code 0 outcome ↔ removeVariables code = outcome) ∧
      ∀ edit, removeVariables code = .ok edit → Exhaustive code edit := by
  refine ⟨fun outcome => concludes_iff, fun edit removed => ?_⟩
  have concludes := concludes_iff.mpr removed
  obtain ⟨log, erases, -⟩ := exists_log_of_removeVariables removed
  obtain ⟨last, next, pruned, unchanged, same⟩ := concludes.exists_last
  have length := concludes.length
  rw [Nat.zero_add] at length
  have left : edit.code = next.code := by rw [same]
  refine ⟨length, ⟨log, erases, ?_, fun earlier deletion later split => ?_⟩, ?_, ?_⟩
  · have all := (statements_erases erases).length_eq
    rw [List.length_map, List.length_map, List.length_append] at all
    omega
  · subst split
    exact erases.exists_reason wellFormed
  · rw [left]
    refine exhausted_of_prune pruned unchanged fun i member => ?_
    exact wellFormed_erases erases wellFormed i (List.mem_append_right _ (left ▸ member))
  · rw [← concludes_iff, left, same]
    exact .settled (prune_again pruned unchanged) unchanged

/-- A variable that only a store into another unused variable reads, an expression without effects
and one that writes. -/
def usedByUnused : List Instruction :=
  [{ opcode := .defvar, operands := [.var ⟨.gf, "a"⟩] },
   { opcode := .defvar, operands := [.var ⟨.gf, "b"⟩] },
   { opcode := .defvar, operands := [.var ⟨.lf, "x"⟩] },
   { opcode := .move, operands := [.var ⟨.gf, "b"⟩, .const (.int 1)] },
   { opcode := .move, operands := [.var ⟨.gf, "a"⟩, .var ⟨.gf, "b"⟩] },
   { opcode := .pushs, operands := [.const (.int 2)], markers := { expressionStart := true } },
   { opcode := .pops, operands := [.var ⟨.gf, "a"⟩], markers := { expressionEnd := true } },
   { opcode := .write, operands := [.const (.int 3)], markers := { expressionStart := true } },
   { opcode := .pops, operands := [.var ⟨.lf, "x"⟩], markers := { expressionEnd := true } }]

/-- The second variable goes in a second pass. The idle variable that is left is declared and
receives the value of the expression that writes. -/
theorem removal_is_exhaustive_usedByUnused :
    (∀ i ∈ usedByUnused, i.WellFormed) ∧
      ∃ edit, removeVariables usedByUnused = .ok edit ∧ edit.changes = 6 ∧
        edit.code.map Instruction.statement =
          [(.defvar, [.var ⟨.lf, "x"⟩]), (.write, [.const (.int 3)]), (.pops, [.var ⟨.lf, "x"⟩])] ∧
        Usage.occurrencesIn edit.code ⟨.lf, "x"⟩ = 0 ∧
        Concludes usedByUnused 0 (.ok edit) ∧ Exhaustive usedByUnused edit := by
  have wellFormed : ∀ i ∈ usedByUnused, i.WellFormed := by
    unfold Instruction.WellFormed
    decide
  obtain ⟨ends, exhaustive⟩ := removal_is_exhaustive wellFormed
  exact ⟨wellFormed, _, rfl, rfl, rfl, rfl, (ends _).mpr rfl, exhaustive _ rfl⟩

end Unused

end ThreeAddress
