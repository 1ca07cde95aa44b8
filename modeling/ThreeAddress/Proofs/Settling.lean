/-
A settled program is a normal form of all passes at once. A pass that reports no
change leaves the program as its survey made it: the same instructions, with the
effects of their expressions on record. What a survey finds does not depend on
what was on record before it, so all passes of a round without changes meet one
and the same surveyed program, and so does every pass that is run on the result.
-/
import ThreeAddress.Proofs.Deletions
import ThreeAddress.Proofs.PassCounts

namespace ThreeAddress

open Relation
open Unused (Remarked)

/-! ### A survey does not look at what is on record -/

namespace Survey

theorem scanOne_remarked (s : Survey) (position : Nat) {i j : Instruction} (same : Remarked i j) :
    s.scanOne position i = s.scanOne position j := by
  obtain ⟨opcode, operands, markers, effects⟩ := i
  obtain ⟨rfl, rfl, rfl, -⟩ := same
  rfl

theorem scan_remarked {code other : List Instruction} (same : List.Forall₂ Remarked code other)
    (position : Nat) (s : Survey) : scan position code s = scan position other s := by
  induction same generalizing position s with
  | nil => rfl
  | cons head tail inductionHypothesis =>
    rw [scan, scan, scanOne_remarked s position head]
    exact congrArg (Except.bind _) (funext fun next => inductionHypothesis (position + 1) next)

theorem markEffects_remarked (s : Survey) (functions : Table String FunctionUse)
    {code other : List Instruction} (same : List.Forall₂ Remarked code other) :
    s.markEffects functions code = s.markEffects functions other := by
  have lengths := same.length_eq
  refine List.ext_getElem (by simpa [markEffects] using lengths) fun position left right => ?_
  simp only [markEffects, List.length_mapIdx] at left right
  have here : Remarked code[position] other[position] := same.get left right
  simp only [markEffects, List.getElem_mapIdx]
  generalize code[position] = i at here
  generalize other[position] = j at here
  obtain ⟨opcode, operands, markers, effects⟩ := i
  obtain ⟨rfl, rfl, rfl, unmarked⟩ := here
  dsimp only at unmarked ⊢
  split
  · rfl
  · next plain => rw [unmarked plain]

end Survey

/-- Programs that differ in the effects on record only have one survey. -/
theorem Usage.survey_remarked {code other : List Instruction}
    (same : List.Forall₂ Remarked code other) : survey code = survey other := by
  unfold survey
  rw [Survey.scan_remarked same]
  refine congrArg (Except.bind _) (funext fun found => ?_)
  dsimp only
  rw [found.markEffects_remarked found.closedFunctions same]

/-- Surveying a surveyed program changes nothing. -/
theorem Usage.survey_surveyed {code surveyed : List Instruction} {usage : Usage}
    (survey : Usage.survey code = .ok (usage, surveyed)) :
    Usage.survey surveyed = .ok (usage, surveyed) :=
  (survey_remarked (Unused.remarked_survey survey)).symm.trans survey

/-- What starts with a survey does the same on programs with one survey. -/
theorem ok_of_surveyFirst {α : Type} {code other : List Instruction}
    {rest : Usage × List Instruction → Except Halt α} {result : α}
    (same : List.Forall₂ Remarked code other)
    (ran : (Halt.surveying code >>= rest) = .ok result) :
    (Halt.surveying other >>= rest) = .ok result := by
  obtain ⟨found, surveyed, rests⟩ := exists_ok_of_bind ran
  have again := (Usage.survey_remarked same).symm.trans (Halt.ok_of_surveying surveyed)
  rw [Halt.surveying_of_ok again]
  exact rests

/-! ### A pass without changes leaves the surveyed program -/

namespace Unused

theorem le_changes_sweepFunctions {sweeps : Nat} {edit result : Edit}
    (swept : sweepFunctions sweeps edit = .ok result) : edit.changes ≤ result.changes := by
  induction sweeps generalizing edit with
  | zero =>
    obtain rfl := Except.ok.inj swept
    exact Nat.le_refl _
  | succ sweeps inductionHypothesis =>
    obtain ⟨next, -, rest⟩ := exists_ok_of_bind swept
    split at rest
    · obtain rfl := Except.ok.inj rest
      exact Nat.le_refl _
    · exact Nat.le_trans (Nat.le_add_right _ _) (inductionHypothesis rest)

theorem eq_of_sweepFunctions {sweeps : Nat} {edit result : Edit}
    (swept : sweepFunctions sweeps edit = .ok result) (unchanged : result.changes = edit.changes) :
    result = edit := by
  cases sweeps with
  | zero => exact (Except.ok.inj swept).symm
  | succ sweeps =>
    obtain ⟨next, -, rest⟩ := exists_ok_of_bind swept
    split at rest
    · exact (Except.ok.inj rest).symm
    · have more := le_changes_sweepFunctions rest
      dsimp only at more
      omega

theorem surveyed_of_removeFunctions {code : List Instruction} {edit : Edit}
    (removed : removeFunctions code = .ok edit) (unchanged : edit.changes = 0) :
    ∃ usage, Usage.survey code = .ok (usage, edit.code) := by
  obtain ⟨⟨usage, surveyed⟩, survey, swept⟩ := exists_ok_of_bind removed
  rw [eq_of_sweepFunctions swept unchanged]
  exact ⟨usage, Halt.ok_of_surveying survey⟩

/-- Steps that remove nothing leave the program as it is. -/
theorem text_of_run {kept : List Variable} {now later : Pruning}
    (run : ReflTransGen (PruneStep kept) now later) (unchanged : later.removed ≤ now.removed) :
    later.text = now.text := by
  induction run using ReflTransGen.head_induction_on with
  | refl => rfl
  | @head now next step rest inductionHypothesis =>
    have fewer := Pruning.removed_le_run rest
    have before := inductionHypothesis (unchanged.trans step.removed_le)
    cases step with
    | keep here plain alive => exact before.trans (text_keep here)
    | keepExpression here closes needed => exact before.trans (text_keep here)
    | drop here plain dead =>
      dsimp only at fewer
      omega
    | dropExpression here closes unused start pure =>
      obtain ⟨newer, first, older, -, length, -⟩ := exists_split_of_expressionStart? start
      dsimp only at fewer
      omega

theorem surveyed_of_prune {code : List Instruction} {edit : Edit} (pruned : prune code = .ok edit)
    (unchanged : edit.changes = 0) : ∃ usage, Usage.survey code = .ok (usage, edit.code) := by
  obtain ⟨usage, surveyed, kept, final, survey, -, ended, rfl, run⟩ := exists_run_of_prune pruned
  have same := text_of_run run (Nat.le_of_eq unchanged)
  rw [Pruning.text, Pruning.text, ended, handOver, List.append_nil, handOver_none] at same
  exact ⟨usage, survey.trans (by rw [same]; rfl)⟩

theorem le_changes_pruneAll {passes : Nat} {edit result : Edit}
    (pruned : pruneAll passes edit = .ok result) : edit.changes ≤ result.changes := by
  induction passes generalizing edit with
  | zero =>
    obtain rfl := Except.ok.inj pruned
    exact Nat.le_refl _
  | succ passes inductionHypothesis =>
    obtain ⟨next, -, rest⟩ := exists_ok_of_bind pruned
    split at rest
    · obtain rfl := Except.ok.inj rest
      exact Nat.le_refl _
    · exact Nat.le_trans (Nat.le_add_right _ _) (inductionHypothesis rest)

theorem surveyed_of_removeVariables {code : List Instruction} {edit : Edit}
    (removed : removeVariables code = .ok edit) (unchanged : edit.changes = 0) :
    ∃ usage, Usage.survey code = .ok (usage, edit.code) := by
  obtain ⟨next, one, rest⟩ := exists_ok_of_bind removed
  split at rest
  · next none =>
    obtain rfl := Except.ok.inj rest
    obtain ⟨usage, survey⟩ := surveyed_of_prune one none
    exact ⟨usage, survey⟩
  · have more := le_changes_pruneAll rest
    dsimp only at more
    omega

end Unused

namespace Peephole

theorem le_changes_passFrom (rules : List Rule) (skip : Nat) (rest : List Instruction)
    (usage : Usage) (done : List Instruction) (changes : Nat) :
    changes ≤ (passFrom rules skip rest usage done changes).changes := by
  induction rest generalizing skip usage done changes with
  | nil => rw [passFrom]
  | cons i rest inductionHypothesis =>
    cases skip with
    | succ skip => exact inductionHypothesis skip usage done changes
    | zero =>
      unfold passFrom
      split
      · exact inductionHypothesis 0 usage (i :: done) changes
      · exact Nat.le_of_succ_le (inductionHypothesis _ _ _ (changes + 1))

/-- A pass that replaces nothing has met no place where a rule applies. -/
theorem firstApplicable?_of_passFrom {rules : List Rule} {rest : List Instruction} {usage : Usage}
    {done : List Instruction} {changes : Nat}
    (unchanged : (passFrom rules 0 rest usage done changes).changes = changes) :
    ∀ before i behind, rest = before ++ i :: behind →
      firstApplicable? rules usage (i :: behind) = none := by
  induction rest generalizing done with
  | nil => exact fun before i behind split => absurd split (by simp)
  | cons first rest inductionHypothesis =>
    unfold passFrom at unchanged
    split at unchanged
    · next inapplicable =>
      intro before i behind split
      cases before with
      | nil =>
        rw [List.nil_append] at split
        rwa [← split]
      | cons other before =>
        exact inductionHypothesis unchanged before i behind (List.cons.inj split).2
    · next length replacement found =>
      have more := le_changes_passFrom rules (length - 1) rest
        (replaceUsage usage ((first :: rest).take length) replacement) (replacement.reverse ++ done)
        (changes + 1)
      omega

theorem le_changes_settle (rules : List Rule) (limit : Nat) (edit : Edit) :
    edit.changes ≤ (settle rules limit edit).1.changes := by
  induction limit generalizing edit with
  | zero => exact Nat.le_refl _
  | succ limit inductionHypothesis =>
    unfold settle
    dsimp only
    split
    · exact Nat.le_refl _
    · refine Nat.le_trans ?_ (inductionHypothesis _)
      exact Nat.le_add_right _ _

/-- Passes that change nothing leave the program and its counts. -/
theorem eq_of_settle (rules : List Rule) (limit : Nat) (edit : Edit)
    (unchanged : (settle rules limit edit).1.changes = edit.changes) :
    (settle rules limit edit).1 = edit := by
  cases limit with
  | zero => rfl
  | succ limit =>
    unfold settle at unchanged ⊢
    dsimp only at unchanged ⊢
    split
    · rfl
    · next changed =>
      rw [if_neg changed] at unchanged
      have more := le_changes_settle rules limit
        { pass rules edit.code edit.usage with
          changes := edit.changes + (pass rules edit.code edit.usage).changes }
      dsimp only at more
      omega

end Peephole

namespace Constants

theorem substitutions_scan (block : List Instruction) (p : Progress) :
    p.substitutions ≤ (scan block p).2.substitutions ∧
      ((scan block p).2.substitutions = p.substitutions → (scan block p).1 = block) := by
  induction block generalizing p with
  | nil => exact ⟨Nat.le_refl _, fun _ => rfl⟩
  | cons i rest inductionHypothesis =>
    obtain ⟨more, same⟩ := inductionHypothesis (scanOne p i).2
    have first : (scanOne p i).2.substitutions =
        p.substitutions + substitutionCount p.known i := rfl
    rw [first] at more
    refine ⟨Nat.le_trans (Nat.le_add_right _ _) more, fun unchanged => ?_⟩
    have later : (scan rest (scanOne p i).2).2.substitutions = p.substitutions := unchanged
    have none : substitutionCount p.known i = 0 := by omega
    have head : (scanOne p i).1 = i := mapSources_of_substitutionCount_eq_zero none
    have tail := same (by omega)
    show (scanOne p i).1 :: (scan rest (scanOne p i).2).1 = i :: rest
    rw [head, tail]

theorem substitutions_enter {plan : Plan} {walk : Walk} (id : Nat) (known : Known)
    (conditional : Bool) :
    (walk.enter plan id known conditional).substitutions =
      walk.substitutions + (scanned plan walk id known).2.substitutions := by
  rw [enter_eq]

theorem code_enter_of_unchanged {plan : Plan} {walk : Walk} {id : Nat} {known : Known}
    {conditional : Bool}
    (unchanged : (walk.enter plan id known conditional).substitutions = walk.substitutions) :
    (walk.enter plan id known conditional).code = walk.code := by
  rw [substitutions_enter] at unchanged
  have same : (scanned plan walk id known).1 = plan.flow.instructions walk.code id :=
    (substitutions_scan _ _).2 (by show (scanned plan walk id known).2.substitutions = 0; omega)
  obtain ⟨before, after, old, new⟩ := exists_enter_split plan walk id known conditional
  rw [new, same, ← old]

/-- A walk lowers nothing, and leaves the program if it replaces nothing. -/
theorem substitutions_run {plan : Plan} (steps : Nat) (walk : Walk) :
    walk.substitutions ≤ (walk.run plan steps).substitutions ∧
      ((walk.run plan steps).substitutions = walk.substitutions →
        (walk.run plan steps).code = walk.code) := by
  refine Walk.run_induction_enter (motive := fun code _ count =>
    walk.substitutions ≤ count ∧ (count = walk.substitutions → code = walk.code))
    (fun now id known conditional holds => ?_) ⟨Nat.le_refl _, fun _ => rfl⟩ steps
  obtain ⟨before, same⟩ := holds
  have more := @substitutions_enter plan now id known conditional
  refine ⟨by omega, fun unchanged => ?_⟩
  rw [code_enter_of_unchanged (by omega), same (by omega)]

theorem code_propagate_of_unchanged {code : List Instruction} {flow : Flow} {usage : Usage}
    (unchanged : (propagate code flow usage).changes = 0) :
    (propagate code flow usage).code = code :=
  (substitutions_run _ (Walk.start (Plan.make code flow) code usage)).2 unchanged

end Constants

namespace Optimiser

/-- A pass that reports no change leaves the program as its survey made it. -/
theorem surveyed_of_runPass {limit : Nat} {pass : Pass} {code : List Instruction} {edit : Edit}
    {events : List Event} (ran : runPass limit pass code = .ok (edit, events))
    (unchanged : edit.changes = 0) : ∃ usage, Usage.survey code = .ok (usage, edit.code) := by
  cases runPass_iff.mp ran with
  | deadCode swept pruned =>
    dsimp only at unchanged ⊢
    obtain ⟨usage, first⟩ := Unused.surveyed_of_removeFunctions swept (by omega)
    obtain ⟨again, second⟩ := Unused.surveyed_of_removeVariables pruned (by omega)
    -- the second survey finds what the first one has put on record
    rw [Usage.survey_surveyed first] at second
    obtain ⟨-, same⟩ := Prod.mk.inj (Except.ok.inj second)
    exact ⟨usage, first.trans (by rw [same])⟩
  | @peephole usage surveyed _ settled survey result =>
    have same := Peephole.eq_of_settle Peephole.standard limit
      { code := surveyed, usage, changes := 0 } (by rw [← Peephole.run, result, unchanged])
    rw [← Peephole.run, result] at same
    dsimp only at same
    exact ⟨usage, by rw [same, survey]⟩
  | constantPropagation survey built =>
    rw [Constants.code_propagate_of_unchanged unchanged]
    exact ⟨_, survey⟩

/-- A pass does the same on programs that differ in the effects on record only. -/
theorem runPass_remarked {limit : Nat} {pass : Pass} {code other : List Instruction}
    {edit : Edit} {events : List Event} (same : List.Forall₂ Remarked code other)
    (ran : runPass limit pass code = .ok (edit, events)) :
    runPass limit pass other = .ok (edit, events) := by
  rw [runPass_iff] at ran ⊢
  cases ran with
  | deadCode swept pruned => exact .deadCode (ok_of_surveyFirst same swept) pruned
  | peephole survey result =>
    exact .peephole ((Usage.survey_remarked same).symm.trans survey) result
  | constantPropagation survey built =>
    exact .constantPropagation ((Usage.survey_remarked same).symm.trans survey) built

/-! ### Rounds without changes -/

/-- Whether a pass on its own succeeds on a program, reports no change and leaves it as it is. -/
def Leaves (limit : Nat) (pass : Pass) (code : List Instruction) : Prop :=
  ∃ edit events, runPass limit pass code = .ok (edit, events) ∧ edit.changes = 0 ∧ edit.code = code

/-- Whether the optimiser ended because a round reported no change. -/
structure Run.Settled (run : Run) : Prop where
  finished : run.failure = none
  last : ∃ number, run.events.getLast? = some (.round number 0)

theorem le_changes_runPasses (limit : Nat) (passes : List Pass) (run : Run) (changes : Nat) :
    changes ≤ (runPasses limit passes run changes).2 := by
  induction passes generalizing run changes with
  | nil => exact Nat.le_refl _
  | cons pass rest inductionHypothesis =>
    unfold runPasses
    split
    · exact Nat.le_refl _
    · exact Nat.le_trans (Nat.le_add_right _ _) (inductionHypothesis _ _)

/-- Passes that together report no change each report none on the program that they started from,
and they leave it as its survey makes it. -/
theorem unchanged_of_runPasses {limit : Nat} {passes : List Pass} {run final : Run} {changes : Nat}
    (ran : runPasses limit passes run changes = (final, changes)) (fine : final.failure = none) :
    (passes = [] → final.code = run.code) ∧ ∀ pass ∈ passes,
      (∃ usage, Usage.survey run.code = .ok (usage, final.code)) ∧
      ∃ edit events, runPass limit pass run.code = .ok (edit, events) ∧ edit.changes = 0 := by
  induction passes generalizing run with
  | nil =>
    obtain ⟨rfl, -⟩ := Prod.mk.inj ran
    exact ⟨fun _ => rfl, by simp⟩
  | cons pass rest inductionHypothesis =>
    unfold runPasses at ran
    split at ran
    · obtain ⟨rfl, -⟩ := Prod.mk.inj ran
      exact absurd fine (by simp)
    · next edit events done =>
      have more := le_changes_runPasses limit rest
        { run with code := edit.code, usage := edit.usage, events := run.events ++ events }
        (changes + edit.changes)
      rw [ran] at more
      have none : edit.changes = 0 := by
        dsimp only at more
        omega
      rw [none] at ran
      obtain ⟨usage, survey⟩ := surveyed_of_runPass done none
      obtain ⟨empty, others⟩ := inductionHypothesis ran
      have code : final.code = edit.code := by
        cases rest with
        | nil => exact empty rfl
        | cons next rest =>
          obtain ⟨⟨again, surveyed⟩, -⟩ := others next List.mem_cons_self
          rw [Usage.survey_surveyed survey] at surveyed
          exact (Prod.mk.inj (Except.ok.inj surveyed)).2.symm
      refine ⟨fun absurdity => absurd absurdity (by simp), fun other member => ⟨?_, ?_⟩⟩
      · exact ⟨usage, by rw [code, survey]⟩
      · rcases List.mem_cons.mp member with rfl | later
        · exact ⟨edit, events, done, none⟩
        · obtain ⟨-, result, log, reran, same⟩ := others other later
          have back := Unused.remarked_symm (Unused.remarked_survey survey)
          exact ⟨result, log, runPass_remarked back reran, same⟩

/-- Passes that leave a program leave it one after the other. -/
theorem runPasses_of_leaves {limit : Nat} {passes : List Pass} (run : Run) (changes : Nat)
    (leaves : ∀ pass ∈ passes, Leaves limit pass run.code) :
    (runPasses limit passes run changes).1.code = run.code ∧
      (runPasses limit passes run changes).1.failure = run.failure ∧
      (runPasses limit passes run changes).2 = changes := by
  induction passes generalizing run with
  | nil => exact ⟨rfl, rfl, rfl⟩
  | cons pass rest inductionHypothesis =>
    obtain ⟨⟨edit, events, ran, none, code⟩, others⟩ := List.forall_mem_cons.mp leaves
    unfold runPasses
    rw [ran]
    dsimp only
    rw [none, Nat.add_zero]
    rw [← code] at others
    have later := @inductionHypothesis { run with
      code := edit.code, usage := edit.usage, events := run.events ++ events } others
    rw [← code]
    exact later

/-- The optimiser settles at once on a program that every pass leaves. -/
theorem optimise_of_leaves {config : Config} {code : List Instruction}
    (positive : 0 < config.iterationLimit)
    (leaves : ∀ pass ∈ config.passes, Leaves config.peepholeLimit pass code) :
    (optimise config code).Settled ∧ (optimise config code).code = code := by
  obtain ⟨left, limit⟩ : ∃ left, config.iterationLimit = left + 1 :=
    ⟨config.iterationLimit - 1, by omega⟩
  obtain ⟨same, fine, none⟩ := runPasses_of_leaves { code } 0 leaves
  have round : optimise config code =
      { (runPasses config.peepholeLimit config.passes { code } 0).1 with
        events := (runPasses config.peepholeLimit config.passes { code } 0).1.events ++
          [.round 1 0] } := by
    rw [optimise, limit, rounds]
    dsimp only
    rw [fine, none]
    rfl
  rw [round]
  exact ⟨⟨fine, 1, List.getLast?_concat⟩, same⟩

/-- Rounds that settle end with one in which the passes together report no change. -/
theorem exists_last_round {config : Config} {left number : Nat} {run : Run}
    (settled : (rounds config left number run).Settled) :
    0 < left ∧ ∃ before final, runPasses config.peepholeLimit config.passes before 0 = (final, 0) ∧
      final.failure = none ∧ final.code = (rounds config left number run).code := by
  induction left generalizing number run with
  | zero =>
    obtain ⟨-, round, last⟩ := settled
    rw [rounds, List.getLast?_concat] at last
    exact absurd last (by simp)
  | succ left inductionHypothesis =>
    refine ⟨Nat.succ_pos _, ?_⟩
    cases ran : runPasses config.peepholeLimit config.passes run 0 with
    | mk final changes =>
      rw [rounds, ran] at settled ⊢
      dsimp only at settled ⊢
      split at settled
      · next failed =>
        rw [settled.finished] at failed
        exact absurd failed (by simp)
      · next fine =>
        rw [if_neg fine]
        split at settled
        · next none =>
          subst none
          exact ⟨run, final, ran, by simpa using fine, rfl⟩
        · next changed =>
          rw [if_neg changed]
          exact (inductionHypothesis settled).2

/-- If the rounds ended because one of them reported no change, then each pass on its own reports no
change on the result and leaves it as it is, and so does the optimiser with all its passes. -/
theorem settled_program_is_normal {config : Config} {code : List Instruction}
    (settled : (optimise config code).Settled) :
    (∀ pass ∈ config.passes, Leaves config.peepholeLimit pass (optimise config code).code) ∧
      (optimise config (optimise config code).code).Settled ∧
      (optimise config (optimise config code).code).code = (optimise config code).code := by
  obtain ⟨positive, before, final, ran, fine, same⟩ := exists_last_round settled
  obtain ⟨-, unchanged⟩ := unchanged_of_runPasses ran fine
  change final.code = (optimise config code).code at same
  have leaves : ∀ pass ∈ config.passes,
      Leaves config.peepholeLimit pass (optimise config code).code := by
    intro pass member
    obtain ⟨⟨usage, survey⟩, edit, events, reran, none⟩ := unchanged pass member
    have again := runPass_remarked (Unused.remarked_survey survey) reran
    rw [same] at again
    obtain ⟨found, surveyed⟩ := surveyed_of_runPass again none
    rw [← same, Usage.survey_surveyed survey] at surveyed
    obtain ⟨-, code⟩ := Prod.mk.inj (Except.ok.inj surveyed)
    exact ⟨edit, events, again, none, code.symm.trans same⟩
  exact ⟨leaves, optimise_of_leaves positive leaves⟩

/-- A frame that is empty once its constant has gone to where it is written, and a call whose value
is not used but which writes. -/
def framedConstant : List Instruction :=
  [{ opcode := .createframe, operands := [] },
   { opcode := .move, operands := [.var ⟨.gf, "a"⟩, .const (.int 5)] },
   { opcode := .pushframe, operands := [] },
   { opcode := .popframe, operands := [] },
   { opcode := .write, operands := [.var ⟨.gf, "a"⟩] },
   { opcode := .call, operands := [.label "f"], markers := { expressionStart := true } },
   { opcode := .pops, operands := [.var ⟨.gf, "c"⟩], markers := { expressionEnd := true } },
   { opcode := .ret, operands := [] },
   { opcode := .label, operands := [.label "f"], markers := { functionStart := true } },
   { opcode := .write, operands := [.const (.int 1)] },
   { opcode := .ret, operands := [], markers := { functionEnd := true } }]

/-- The third round settles it, and then every pass leaves it. -/
theorem settled_program_is_normal_framed :
    (optimise {} framedConstant).events = [.round 1 2, .round 2 1, .round 3 0] ∧
      (optimise {} framedConstant).Settled ∧
      (∀ pass ∈ ({} : Config).passes, Leaves 64 pass (optimise {} framedConstant).code) ∧
      (optimise {} (optimise {} framedConstant).code).Settled ∧
      (optimise {} (optimise {} framedConstant).code).code = (optimise {} framedConstant).code := by
  have settled : (optimise {} framedConstant).Settled := ⟨rfl, 3, rfl⟩
  exact ⟨rfl, settled, settled_program_is_normal settled⟩

end Optimiser

end ThreeAddress
