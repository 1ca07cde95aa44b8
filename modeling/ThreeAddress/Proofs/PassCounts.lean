/-
Every pass leaves the counts of the program that it leaves. Each pass edits the
program in its own way and tells the counts about every edit: a peephole pass
replaces spans, the propagation of constants replaces operands, the removal of
functions drops runs of instructions, and the removal of variables hands the
start of an expression on to the next instruction. For each of them the counts
are followed through one step and then through the whole run.
-/
import ThreeAddress.Optimiser
import ThreeAddress.Proofs.ConstantRoutes
import ThreeAddress.Proofs.Pruning
import ThreeAddress.Proofs.Rewriting

namespace ThreeAddress

/-! ### Counting from scratch -/

namespace Usage

/-- The usage of a program whose instructions are counted one after the other. -/
def recount (code : List Instruction) : Usage :=
  code.foldl add {}

theorem counts_recount (code : List Instruction) : (recount code).Counts code := by
  have start : ({} : Usage).Counts [] := ⟨fun _ => rfl, fun _ => rfl, fun _ => rfl⟩
  have counts := start.addAll code
  rwa [List.append_nil] at counts

theorem Counts.sameCounts {u other : Usage} {code : List Instruction} (counts : u.Counts code)
    (others : other.Counts code) : u.SameCounts other where
  vars v := (counts.vars v).trans (others.vars v).symm
  functions label := (counts.functions label).trans (others.functions label).symm
  labels label := (counts.labels label).trans (others.labels label).symm

end Usage

/-! ### Propagation of constants -/

namespace Constants

/-- Where no operand is bound to a constant, nothing is replaced. -/
theorem mapSources_of_substitutionCount_eq_zero {known : Known} {i : Instruction}
    (none : substitutionCount known i = 0) : i.mapSources (substitute known) = i := by
  have unbound : ∀ v ∈ i.reads, known.value? v = Option.none := by
    intro v member
    have dropped := List.filter_eq_nil_iff.mp (List.length_eq_zero_iff.mp none) v member
    simpa using dropped
  have fixed : i.sources.map (substitute known) = i.sources := by
    refine (List.map_congr_left fun operand member => ?_).trans (List.map_id _)
    cases operand with
    | var v =>
      have bound := unbound v (List.mem_filterMap.mpr ⟨_, member, rfl⟩)
      simp [substitute, Operand.var?, bound]
    | const _ | label _ | type _ => rfl
  unfold Instruction.sources at fixed
  unfold Instruction.mapSources
  split
  · next defines =>
    rw [if_pos defines] at fixed
    split
    · next empty => rw [← empty]
    · next target rest operands =>
      rw [operands, List.tail_cons] at fixed
      rw [fixed, ← operands]
  · next plain =>
    rw [if_neg plain] at fixed
    rw [fixed]

theorem counts_scanOne {p : Progress} {i : Instruction} {others : List Instruction}
    (counts : p.usage.Counts (i :: others)) :
    (scanOne p i).2.usage.Counts ((scanOne p i).1 :: others) := by
  unfold scanOne
  dsimp only
  split
  · next none => rwa [mapSources_of_substitutionCount_eq_zero none]
  · exact counts.remove.add _

/-- Going through a run of instructions keeps the counts those of the run and the others. -/
theorem counts_scan {block others : List Instruction} {p : Progress}
    (counts : p.usage.Counts (block ++ others)) :
    (scan block p).2.usage.Counts ((scan block p).1 ++ others) := by
  induction block generalizing p others with
  | nil => exact counts
  | cons i rest inductionHypothesis =>
    have first := counts_scanOne counts
    have later := inductionHypothesis (first.perm List.perm_middle.symm)
    exact later.perm List.perm_middle

theorem counts_enter {plan : Plan} {walk : Walk} (counts : walk.usage.Counts walk.code) (id : Nat)
    (known : Known) (conditional : Bool) :
    (walk.enter plan id known conditional).usage.Counts
      (walk.enter plan id known conditional).code := by
  have usage : (walk.enter plan id known conditional).usage =
      (scanned plan walk id known).2.usage := by
    rw [enter_eq]
  obtain ⟨before, after, old, new⟩ := exists_enter_split plan walk id known conditional
  rw [usage, new]
  rw [old] at counts
  refine (counts_scan ?_).perm (List.perm_append_comm_assoc _ _ _)
  exact counts.perm (List.perm_append_comm_assoc _ _ _)

theorem counts_walk {plan : Plan} (steps : Nat) {walk : Walk}
    (counts : walk.usage.Counts walk.code) :
    (walk.run plan steps).usage.Counts (walk.run plan steps).code :=
  Walk.run_induction_enter (motive := fun code usage _ => usage.Counts code)
    (fun _ id known conditional counts => counts_enter counts id known conditional) counts steps

theorem counts_propagate {code : List Instruction} {usage : Usage} (counts : usage.Counts code)
    (flow : Flow) : (propagate code flow usage).usage.Counts (propagate code flow usage).code :=
  counts_walk _ counts

end Constants

/-! ### Removal of functions and variables -/

namespace Unused

theorem counts_sweepFrom {dropping : Bool} {rest : List Instruction} {usage : Usage}
    {done : List Instruction} {changes : Nat} {edit : Edit} (counts : usage.Counts (done ++ rest))
    (swept : sweepFrom dropping rest usage done changes = .ok edit) :
    edit.usage.Counts edit.code := by
  induction rest generalizing dropping usage done changes with
  | nil =>
    obtain rfl := Except.ok.inj swept
    rw [List.append_nil] at counts
    exact counts.perm (List.reverse_perm done).symm
  | cons i rest inductionHypothesis =>
    have moved := counts.perm List.perm_middle
    cases dropping with
    | true => exact inductionHypothesis moved.remove swept
    | false =>
      unfold sweepFrom at swept
      split at swept
      · exact inductionHypothesis moved swept
      · split at swept
        · exact inductionHypothesis moved.remove swept
        · exact absurd swept (by simp)

theorem counts_sweepFunctions (sweeps : Nat) {edit result : Edit}
    (counts : edit.usage.Counts edit.code) (swept : sweepFunctions sweeps edit = .ok result) :
    result.usage.Counts result.code := by
  induction sweeps generalizing edit with
  | zero =>
    obtain rfl := Except.ok.inj swept
    exact counts
  | succ sweeps inductionHypothesis =>
    obtain ⟨next, one, rest⟩ := exists_ok_of_bind swept
    have after : next.usage.Counts next.code := counts_sweepFrom (by exact counts) one
    split at rest
    · obtain rfl := Except.ok.inj rest
      exact counts
    · exact inductionHypothesis (by exact after) rest

/-- What the removal of functions leaves has the counts that it leaves. -/
theorem counts_removeFunctions {code : List Instruction} {edit : Edit}
    (removed : removeFunctions code = .ok edit) : edit.usage.Counts edit.code := by
  obtain ⟨found, surveyed, swept⟩ := exists_ok_of_bind removed
  exact counts_sweepFunctions _ (Usage.counts_survey (Halt.ok_of_surveying surveyed)).2 swept

theorem counts_prune {code : List Instruction} {edit : Edit} (pruned : prune code = .ok edit) :
    edit.usage.Counts edit.code := by
  obtain ⟨usage, surveyed, kept, final, survey, -, ended, rfl, run⟩ := exists_run_of_prune pruned
  have start : Pruning.Counted ⟨surveyed, none, usage, [], 0⟩ := (Usage.counts_survey survey).2
  have counted : final.usage.Counts (final.done ++ final.rest) := start.run run
  rw [ended, List.append_nil] at counted
  exact counted.perm (List.reverse_perm _).symm

/-- The last pass is one that the counts come from. -/
theorem counts_pruneAll {passes : Nat} {edit result : Edit} (enough : edit.code.length < passes)
    (pruned : pruneAll passes edit = .ok result) : result.usage.Counts result.code := by
  induction passes generalizing edit with
  | zero => exact absurd enough (Nat.not_lt_zero _)
  | succ passes inductionHypothesis =>
    obtain ⟨next, one, rest⟩ := exists_ok_of_bind pruned
    have counts := counts_prune one
    split at rest
    · obtain rfl := Except.ok.inj rest
      exact counts
    · have shorter := length_prune one
      exact inductionHypothesis (by dsimp only; omega) rest

theorem counts_removeVariables {code : List Instruction} {edit : Edit}
    (removed : removeVariables code = .ok edit) : edit.usage.Counts edit.code :=
  counts_pruneAll (Nat.lt_succ_self _) removed

end Unused

/-! ### All passes -/

namespace Optimiser

/-- What a pass that succeeds has done. -/
inductive PassRun (limit : Nat) (code : List Instruction) : Pass → Edit → List Event → Prop
  | deadCode {functions trimmed : Edit} (swept : Unused.removeFunctions code = .ok functions)
    (pruned : Unused.removeVariables functions.code = .ok trimmed) :
    PassRun limit code .deadCode
      { trimmed with changes := functions.changes + trimmed.changes } []
  | peephole {usage : Usage} {surveyed : List Instruction} {edit : Edit} {settled : Bool}
    (survey : Usage.survey code = .ok (usage, surveyed))
    (result : Peephole.run Peephole.standard limit surveyed usage = (edit, settled)) :
    PassRun limit code .peephole edit (if settled then [] else [.peepholeUnsettled limit])
  | constantPropagation {usage : Usage} {surveyed : List Instruction} {flow : Flow}
    (survey : Usage.survey code = .ok (usage, surveyed)) (built : Flow.build surveyed = .ok flow) :
    PassRun limit code .constantPropagation (Constants.propagate surveyed flow usage) []

theorem runPass_iff {limit : Nat} {pass : Pass} {code : List Instruction} {edit : Edit}
    {events : List Event} :
    runPass limit pass code = .ok (edit, events) ↔ PassRun limit code pass edit events := by
  constructor
  · intro ran
    cases pass with
    | deadCode =>
      obtain ⟨result, removed, done⟩ : ∃ result, removeDeadCode code = .ok result ∧
          (result, []) = (edit, events) := by
        unfold runPass at ran
        cases removed : removeDeadCode code with
        | error halt => rw [removed] at ran; exact absurd ran (by simp [Except.map])
        | ok result => rw [removed] at ran; exact ⟨result, rfl, Except.ok.inj ran⟩
      obtain ⟨functions, swept, rest⟩ := exists_ok_of_bind removed
      obtain ⟨trimmed, pruned, result⟩ := exists_ok_of_bind rest
      obtain rfl := Except.ok.inj result
      obtain ⟨rfl, rfl⟩ := Prod.mk.inj done
      exact .deadCode swept pruned
    | peephole =>
      obtain ⟨⟨usage, surveyed⟩, survey, rest⟩ := exists_ok_of_bind ran
      dsimp only at rest
      split at rest <;> next result =>
        obtain ⟨rfl, rfl⟩ := Prod.mk.inj (Except.ok.inj rest)
        exact .peephole (Halt.ok_of_surveying survey) result
    | constantPropagation =>
      obtain ⟨⟨usage, surveyed⟩, survey, rest⟩ := exists_ok_of_bind ran
      obtain ⟨flow, built, done⟩ := exists_ok_of_bind rest
      obtain ⟨rfl, rfl⟩ := Prod.mk.inj (Except.ok.inj done)
      exact .constantPropagation (Halt.ok_of_surveying survey) (Halt.ok_of_leaving built)
  · rintro (⟨swept, pruned⟩ | ⟨survey, result⟩ | ⟨survey, built⟩)
    · unfold runPass removeDeadCode
      rw [swept]
      dsimp only [bind, Except.bind]
      rw [pruned]
      rfl
    · unfold runPass
      rw [Halt.surveying_of_ok survey]
      dsimp only [bind, Except.bind]
      rw [result]
      split <;> next same => obtain ⟨rfl, rfl⟩ := Prod.mk.inj same; rfl
    · unfold runPass
      rw [Halt.surveying_of_ok survey]
      dsimp only [bind, Except.bind]
      rw [built]
      rfl

theorem counts_runPass {limit : Nat} {pass : Pass} {code : List Instruction} {edit : Edit}
    {events : List Event} (ran : runPass limit pass code = .ok (edit, events)) :
    edit.usage.Counts edit.code := by
  cases runPass_iff.mp ran with
  | deadCode swept pruned =>
    have counts := Unused.counts_removeVariables pruned
    exact counts
  | peephole survey result =>
    have counts := Peephole.counts_run Peephole.standard limit (Usage.counts_survey survey).2
    rwa [result] at counts
  | constantPropagation survey built =>
    exact Constants.counts_propagate (Usage.counts_survey survey).2 _

/-- Behind every pass that succeeds, and behind every single peephole pass, whatever its rules, that
starts from the counts of its program, the counts are those of the program: slot by slot, and as
counting it from scratch gives them. So are they behind each half of the removal of dead code. -/
theorem passes_keep_counts :
    (∀ limit pass code edit events, runPass limit pass code = .ok (edit, events) →
      edit.usage.Counts edit.code ∧ edit.usage.SameCounts (Usage.recount edit.code)) ∧
    (∀ code edit, Unused.removeFunctions code = .ok edit ∨ Unused.removeVariables code = .ok edit →
      edit.usage.Counts edit.code ∧ edit.usage.SameCounts (Usage.recount edit.code)) ∧
    ∀ rules code usage edit, usage.Counts code → Peephole.pass rules code usage = edit →
      edit.usage.Counts edit.code ∧ edit.usage.SameCounts (Usage.recount edit.code) := by
  refine ⟨fun limit pass code edit events ran => ?_, fun code edit removed => ?_,
    fun rules code usage edit counts passed => ?_⟩
  · have after := counts_runPass ran
    exact ⟨after, after.sameCounts (Usage.counts_recount _)⟩
  · have after : edit.usage.Counts edit.code := by
      rcases removed with functions | vars
      · exact Unused.counts_removeFunctions functions
      · exact Unused.counts_removeVariables vars
    exact ⟨after, after.sameCounts (Usage.counts_recount _)⟩
  · have after := Peephole.counts_pass counts rules
    rw [passed] at after
    exact ⟨after, after.sameCounts (Usage.counts_recount _)⟩

/-- A function that nothing calls, and a constant that is pushed and popped on its way out. -/
def detour : List Instruction :=
  [{ opcode := .label, operands := [.label "f"], markers := { functionStart := true } },
   { opcode := .ret, operands := [], markers := { functionEnd := true } },
   { opcode := .move, operands := [.var ⟨.gf, "n"⟩, .const (.int 1)] },
   { opcode := .pushs, operands := [.var ⟨.gf, "n"⟩] },
   { opcode := .pops, operands := [.var ⟨.gf, "m"⟩] },
   { opcode := .write, operands := [.var ⟨.gf, "m"⟩] }]

/-- A rule of its own: everything that is written is shown to the debugger too. -/
def shown : Peephole.Rule :=
  ⟨"show", [⟨.write, [.named "a" none none]⟩], [⟨.write, ["a"]⟩, ⟨.dprint, ["a"]⟩]⟩

/-- Each pass changes this program and leaves its counts. -/
theorem passes_keep_counts_detour :
    (∀ pass, ∃ edit events, runPass 1 pass detour = .ok (edit, events) ∧ 0 < edit.changes ∧
      edit.usage.Counts edit.code ∧ edit.usage.SameCounts (Usage.recount edit.code)) ∧
    (∃ edit, Unused.removeFunctions detour = .ok edit ∧ 0 < edit.changes ∧
      edit.usage.Counts edit.code ∧ edit.usage.SameCounts (Usage.recount edit.code)) ∧
    ∃ edit, Peephole.pass [shown] detour (Usage.recount detour) = edit ∧ 0 < edit.changes ∧
      edit.usage.Counts edit.code ∧ edit.usage.SameCounts (Usage.recount edit.code) := by
  refine ⟨fun pass => ?_,
    ⟨_, rfl, by decide, passes_keep_counts.2.1 detour _ (Or.inl rfl)⟩,
    _, rfl, by decide, passes_keep_counts.2.2 [shown] detour _ _ (Usage.counts_recount _) rfl⟩
  cases pass with
  | deadCode => exact ⟨_, _, rfl, by decide, passes_keep_counts.1 1 .deadCode detour _ _ rfl⟩
  | peephole => exact ⟨_, _, rfl, by decide, passes_keep_counts.1 1 .peephole detour _ _ rfl⟩
  | constantPropagation =>
    exact ⟨_, _, rfl, by decide, passes_keep_counts.1 1 .constantPropagation detour _ _ rfl⟩

end Optimiser

end ThreeAddress
