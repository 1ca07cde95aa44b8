/-
What passes do to a program, change by change. A survey notes the effects of
expressions anew; the removal of dead code deletes; a peephole pass puts a
shorter replacement in the place of a span; the propagation of constants
replaces variables that an instruction reads. `Change` lists these, and every
pass is a run of them, also one that stops half way, and so is the whole
optimiser. Whatever each change preserves, the optimiser preserves.

The first such thing: apart from moves, no instruction is reordered, duplicated
or invented.
-/
import ThreeAddress.Proofs.Deletions
import ThreeAddress.Proofs.JumpTargets
import ThreeAddress.Proofs.PassCounts
import ThreeAddress.Proofs.Replacements

namespace ThreeAddress

open Relation

/-! ### Deletions -/

/-- The program that is left, whether a pass succeeds or stops. -/
def leftBy : Except Halt Edit → List Instruction
  | .ok edit => edit.code
  | .error halt => halt.code

/-- Whether what is left of a program are some of its instructions in their order, markers and
effects aside. -/
def Thinned (code next : List Instruction) : Prop :=
  (next.map Instruction.statement).Sublist (code.map Instruction.statement)

namespace Thinned

variable {code next last : List Instruction}

theorem refl (code : List Instruction) : Thinned code code :=
  List.Sublist.refl _

theorem trans (first : Thinned code next) (second : Thinned next last) : Thinned code last :=
  List.Sublist.trans second first

theorem of_sublist (fewer : next.Sublist code) : Thinned code next :=
  fewer.map _

theorem of_alike (alike : List.Forall₂ Usage.CountedAlike code next) : Thinned code next := by
  rw [Thinned, Usage.map_eq_of_alike Unused.statement_alike alike]

end Thinned

namespace Unused

/-- A sweep, finished or not, deletes. -/
theorem thinned_sweepFrom (dropping : Bool) (rest : List Instruction) (usage : Usage)
    (done : List Instruction) (changes : Nat) :
    Thinned (done.reverse ++ rest) (leftBy (sweepFrom dropping rest usage done changes)) := by
  induction rest generalizing dropping usage done changes with
  | nil =>
    rw [List.append_nil]
    exact Thinned.refl _
  | cons i rest inductionHypothesis =>
    have dropped : Thinned (done.reverse ++ i :: rest) (done.reverse ++ rest) :=
      Thinned.of_sublist ((List.sublist_cons_self i rest).append_left _)
    cases dropping with
    | true => exact dropped.trans (inductionHypothesis _ _ _ _)
    | false =>
      unfold sweepFrom
      split
      · have kept := inductionHypothesis false usage (i :: done) changes
        rwa [List.reverse_cons, List.append_assoc, List.singleton_append] at kept
      · split
        · exact dropped.trans (inductionHypothesis _ _ _ _)
        · exact Thinned.refl _

theorem thinned_sweepFunctions (sweeps : Nat) (edit : Edit) :
    Thinned edit.code (leftBy (sweepFunctions sweeps edit)) := by
  induction sweeps generalizing edit with
  | zero => exact Thinned.refl _
  | succ sweeps inductionHypothesis =>
    have one := thinned_sweepFrom false edit.code edit.usage [] 0
    unfold sweepFunctions
    cases swept : sweepFrom false edit.code edit.usage [] 0 with
    | error halt =>
      rw [swept] at one
      exact one
    | ok next =>
      rw [swept] at one
      dsimp only [bind, Except.bind]
      split
      · exact Thinned.refl _
      · exact Thinned.trans one (inductionHypothesis _)

theorem thinned_interrupted (code : List Instruction) :
    Thinned code (Survey.interrupted code) :=
  Thinned.of_alike ((remarked_interrupted code).imp fun _ _ => Remarked.alike)

theorem thinned_removeFunctions (code : List Instruction) :
    Thinned code (leftBy (removeFunctions code)) := by
  unfold removeFunctions
  cases survey : Usage.survey code with
  | error cause =>
    rw [Halt.surveying_of_error survey]
    exact thinned_interrupted code
  | ok found =>
    obtain ⟨usage, surveyed⟩ := found
    rw [Halt.surveying_of_ok survey]
    exact (Thinned.of_alike (Usage.alike_survey survey)).trans (thinned_sweepFunctions _ _)

/-- A pass over a program, finished or not, deletes. -/
theorem thinned_pruneFrom (kept : List Variable) (rest : List Instruction)
    (handed : Option Effects) (usage : Usage) (done : List Instruction) (removed : Nat) :
    Thinned (done.reverse ++ rest) (leftBy (pruneFrom kept rest handed usage done removed)) := by
  induction rest generalizing handed usage done removed with
  | nil =>
    rw [List.append_nil]
    exact Thinned.refl _
  | cons i rest inductionHypothesis =>
    have taken : Thinned (done.reverse ++ i :: rest) (done.reverse ++ takeOver i handed :: rest) :=
      Thinned.of_alike (List.rel_append (List.forall₂_same.mpr fun i _ => Usage.CountedAlike.refl i)
        (List.Forall₂.cons (alike_takeOver i handed)
          (List.forall₂_same.mpr fun i _ => Usage.CountedAlike.refl i)))
    unfold pruneFrom
    dsimp only
    refine taken.trans ?_
    generalize takeOver i handed = j
    have stays : ∀ usage removed, Thinned (done.reverse ++ j :: rest)
        (leftBy (pruneFrom kept rest none usage (j :: done) removed)) := by
      intro usage removed
      have later := inductionHypothesis none usage (j :: done) removed
      rwa [List.reverse_cons, List.append_assoc, List.singleton_append] at later
    split
    · split
      · split
        · exact Thinned.refl _
        · next count effects start =>
          split
          · -- the expression is the newest part of what was kept
            have fewer : Thinned (done.reverse ++ j :: rest)
                (((j :: done).drop count).reverse ++ rest) := by
              have older := (List.reverse_sublist.mpr (List.drop_sublist count (j :: done)))
              rw [List.reverse_cons] at older
              have behind := Thinned.of_sublist (older.append_right rest)
              rwa [List.append_assoc, List.singleton_append] at behind
            exact fewer.trans (inductionHypothesis _ _ _ _)
          · exact stays _ _
      · exact stays _ _
    · split
      · have fewer : Thinned (done.reverse ++ j :: rest) (done.reverse ++ rest) :=
          Thinned.of_sublist ((List.sublist_cons_self j rest).append_left _)
        exact fewer.trans (inductionHypothesis _ _ _ _)
      · exact stays _ _

theorem thinned_prune (code : List Instruction) : Thinned code (leftBy (prune code)) := by
  unfold prune
  cases survey : Usage.survey code with
  | error cause =>
    rw [Halt.surveying_of_error survey]
    exact thinned_interrupted code
  | ok found =>
    obtain ⟨usage, surveyed⟩ := found
    have same := Thinned.of_alike (Usage.alike_survey survey)
    rw [Halt.surveying_of_ok survey]
    dsimp only [bind, Except.bind]
    cases keptVariables usage 0 surveyed none with
    | error cause => exact same
    | ok kept => exact same.trans (thinned_pruneFrom kept surveyed none usage [] 0)

theorem thinned_pruneAll (passes : Nat) (edit : Edit) :
    Thinned edit.code (leftBy (pruneAll passes edit)) := by
  induction passes generalizing edit with
  | zero => exact Thinned.refl _
  | succ passes inductionHypothesis =>
    have one := thinned_prune edit.code
    unfold pruneAll
    cases pruned : prune edit.code with
    | error halt =>
      rw [pruned] at one
      exact one
    | ok next =>
      rw [pruned] at one
      dsimp only [bind, Except.bind]
      split
      · exact one
      · exact Thinned.trans one (inductionHypothesis _)

end Unused

/-! ### Changes -/

/-- What a pass does to a program, one change at a time. -/
inductive Change : Pass → List Instruction → List Instruction → Prop
  /-- A survey notes the effects of expressions. -/
  | survey {pass : Pass} {code next : List Instruction}
    (same : List.Forall₂ Unused.Remarked code next) : Change pass code next
  /-- Instructions are deleted. -/
  | delete {code next : List Instruction} (thinned : Thinned code next) :
    Change .deadCode code next
  /-- A standard rule applies to a span of a program whose counts are known. -/
  | rewrite {usage : Usage} {before span after replacement : List Instruction}
    (counts : usage.Counts (before ++ (span ++ after)))
    (replaces : Peephole.Replaces usage span replacement) :
    Change .peephole (before ++ (span ++ after)) (before ++ (replacement ++ after))
  /-- Variables that an instruction reads are replaced by constants. -/
  | substitute (known : Constants.Known) (before : List Instruction) (i : Instruction)
    (after : List Instruction) :
    Change .constantPropagation (before ++ i :: after)
      (before ++ i.mapSources (Constants.substitute known) :: after)

/-- Rewriting by the standard rules is a run of changes. -/
theorem Peephole.changes_rewrites {program next : List Instruction × Usage}
    (counts : program.2.Counts program.1)
    (run : ReflTransGen (Rewrite standard) program next) :
    ReflTransGen (Change .peephole) program.1 next.1 := by
  induction run with
  | refl => exact ReflTransGen.refl
  | tail before rewrite inductionHypothesis =>
    refine inductionHypothesis.tail ?_
    have counted := counts_rewrites counts before
    cases rewrite with
    | apply member length fires =>
      exact Change.rewrite counted (replaces_of_fire? member length fires)

namespace Constants

theorem label?_substitute (known : Known) (operand : Operand) :
    (substitute known operand).label? = operand.label? := by
  cases operand with
  | var v => cases bound : known.value? v <;> simp [substitute, Operand.var?, bound, Operand.label?]
  | const _ | label _ | type _ => rfl

/-- A label that is the first operand stays there, and no other comes to stand there. -/
theorem firstLabel_mapSources (known : Known) (i : Instruction) :
    (i.mapSources (substitute known)).operands.head?.bind Operand.label? =
      i.operands.head?.bind Operand.label? := by
  rw [List.head?_eq_getElem?, List.head?_eq_getElem?, operands_mapSources]
  cases i.operands[0]? with
  | none => rfl
  | some operand =>
    rw [Option.map_some, Option.bind_some, Option.bind_some]
    split
    · rfl
    · exact label?_substitute known operand

theorem changes_scan (before block after : List Instruction) (p : Progress) :
    ReflTransGen (Change .constantPropagation) (before ++ (block ++ after))
      (before ++ ((scan block p).1 ++ after)) := by
  induction block generalizing before p with
  | nil => exact ReflTransGen.refl
  | cons i rest inductionHypothesis =>
    refine ReflTransGen.head (Change.substitute p.known before i (rest ++ after)) ?_
    have later := inductionHypothesis (before ++ [i.mapSources (substitute p.known)])
      (scanOne p i).2
    rwa [List.append_assoc, List.append_assoc] at later

theorem changes_enter (plan : Plan) (walk : Walk) (id : Nat) (known : Known)
    (conditional : Bool) : ReflTransGen (Change .constantPropagation) walk.code
      (walk.enter plan id known conditional).code := by
  obtain ⟨before, after, old, new⟩ := exists_enter_split plan walk id known conditional
  have changed := changes_scan before (plan.flow.instructions walk.code id) after
    { known := (plan.blocked id).foldl Known.block known, usage := walk.usage }
  rwa [← old, ← scanned, ← new] at changed

theorem changes_walk (plan : Plan) (steps : Nat) (walk : Walk) :
    ReflTransGen (Change .constantPropagation) walk.code (walk.run plan steps).code :=
  Walk.run_induction_enter
    (motive := fun code _ _ => ReflTransGen (Change .constantPropagation) walk.code code)
    (fun now id known conditional before =>
      before.trans (changes_enter plan now id known conditional))
    ReflTransGen.refl steps

end Constants

namespace Optimiser

theorem thinned_removeDeadCode (code : List Instruction) :
    Thinned code (leftBy (removeDeadCode code)) := by
  have functions := Unused.thinned_removeFunctions code
  unfold removeDeadCode
  cases removed : Unused.removeFunctions code with
  | error halt =>
    rw [removed] at functions
    exact functions
  | ok edit =>
    rw [removed] at functions
    have vars : Thinned edit.code (leftBy (Unused.removeVariables edit.code)) :=
      Unused.thinned_pruneAll (edit.code.length + 1)
        { code := edit.code, usage := {}, changes := 0 }
    dsimp only [bind, Except.bind]
    cases trimmed : Unused.removeVariables edit.code with
    | error halt =>
      rw [trimmed] at vars
      exact functions.trans vars
    | ok last =>
      rw [trimmed] at vars
      exact functions.trans vars

/-- The program that a pass leaves, whether it succeeds or stops. -/
def after (limit : Nat) (pass : Pass) (code : List Instruction) : List Instruction :=
  leftBy ((runPass limit pass code).map Prod.fst)

/-- Every pass is a run of changes. -/
theorem changes_after (limit : Nat) (pass : Pass) (code : List Instruction) :
    ReflTransGen (Change pass) code (after limit pass code) := by
  cases pass with
  | deadCode =>
    have left : after limit .deadCode code = leftBy (removeDeadCode code) := by
      unfold after runPass
      cases removeDeadCode code <;> rfl
    rw [left]
    exact ReflTransGen.single (Change.delete (thinned_removeDeadCode code))
  | peephole =>
    unfold after runPass
    cases survey : Usage.survey code with
    | error cause =>
      rw [Halt.surveying_of_error survey]
      exact ReflTransGen.single (Change.survey (Unused.remarked_interrupted code))
    | ok found =>
      obtain ⟨usage, surveyed⟩ := found
      refine ReflTransGen.head (Change.survey (Unused.remarked_survey survey)) ?_
      have rewrites := Peephole.changes_rewrites (Usage.counts_survey survey).2
        (Peephole.rewrites_run Peephole.standard limit surveyed usage)
      rw [Halt.surveying_of_ok survey]
      dsimp only [bind, Except.bind]
      cases ran : Peephole.run Peephole.standard limit surveyed usage with
      | mk edit settled =>
        rw [ran] at rewrites
        cases settled <;> exact rewrites
  | constantPropagation =>
    unfold after runPass
    cases survey : Usage.survey code with
    | error cause =>
      rw [Halt.surveying_of_error survey]
      exact ReflTransGen.single (Change.survey (Unused.remarked_interrupted code))
    | ok found =>
      obtain ⟨usage, surveyed⟩ := found
      refine ReflTransGen.head (Change.survey (Unused.remarked_survey survey)) ?_
      rw [Halt.surveying_of_ok survey]
      dsimp only [bind, Except.bind]
      cases Flow.build surveyed with
      | error cause => exact ReflTransGen.refl
      | ok flow => exact Constants.changes_walk (.make surveyed flow) _ (.start _ surveyed usage)

/-- Whether a run of changes, of whatever passes, leads from one program to another. -/
def Changes : List Instruction → List Instruction → Prop :=
  ReflTransGen fun code next => ∃ pass, Change pass code next

theorem changes_runPasses (limit : Nat) (passes : List Pass) (run : Run) (changes : Nat) :
    Changes run.code (runPasses limit passes run changes).1.code := by
  induction passes generalizing run changes with
  | nil => exact ReflTransGen.refl
  | cons pass rest inductionHypothesis =>
    have one : Changes run.code (after limit pass run.code) :=
      (changes_after limit pass run.code).lift id fun _ _ change => ⟨pass, change⟩
    unfold runPasses
    unfold after at one
    cases ran : runPass limit pass run.code with
    | error halt =>
      rw [ran] at one
      exact one
    | ok result =>
      obtain ⟨edit, events⟩ := result
      rw [ran] at one
      exact ReflTransGen.trans one (inductionHypothesis
        { run with code := edit.code, usage := edit.usage, events := run.events ++ events } _)

/-- The optimiser makes a run of changes, whether it succeeds or stops. -/
theorem changes_optimise (config : Config) (code : List Instruction) :
    Changes code (optimise config code).code := by
  suffices ∀ left number run, Changes run.code (rounds config left number run).code from
    this config.iterationLimit 1 { code }
  intro left
  induction left with
  | zero => exact fun _ _ => ReflTransGen.refl
  | succ left inductionHypothesis =>
    intro number run
    have round := changes_runPasses config.peepholeLimit config.passes run 0
    unfold rounds
    dsimp only
    generalize runPasses config.peepholeLimit config.passes run 0 = result at round ⊢
    split
    · exact round
    · split
      · exact round
      · exact ReflTransGen.trans round (inductionHypothesis (number + 1)
          { result.1 with events := result.1.events ++ [.round number result.2] })

end Optimiser

/-! ### Order -/

namespace Instruction

/-- What describes an instruction that is no move: its opcode, the label that is its first operand,
and the variable that it gives a value to. -/
def description? (i : Instruction) : Option (Opcode × Option String × Option Variable) :=
  if i.opcode = .move then none
  else some (i.opcode, i.operands.head?.bind Operand.label?, i.target?)

theorem description?_mapSources (known : Constants.Known) (i : Instruction) :
    (i.mapSources (Constants.substitute known)).description? = i.description? := by
  unfold description?
  rw [Constants.firstLabel_mapSources, Constants.target?_mapSources]
  rfl

end Instruction

/-- What describes the instructions of a program, in order. -/
def descriptions (code : List Instruction) : List (Opcode × Option String × Option Variable) :=
  code.filterMap Instruction.description?

theorem descriptions_append (code rest : List Instruction) :
    descriptions (code ++ rest) = descriptions code ++ descriptions rest :=
  List.filterMap_append

theorem Thinned.descriptions_sublist {code next : List Instruction} (thinned : Thinned code next) :
    (descriptions next).Sublist (descriptions code) := by
  -- a description is read off the statement
  have stated (code : List Instruction) : descriptions code =
      (code.map Instruction.statement).filterMap fun statement =>
        ({ opcode := statement.1, operands := statement.2 } : Instruction).description? := by
    rw [List.filterMap_map]
    rfl
  rw [stated, stated]
  exact thinned.filterMap _

theorem Thinned.length_le {code next : List Instruction} (thinned : Thinned code next) :
    next.length ≤ code.length := by
  simpa using List.Sublist.length_le thinned

/-- What replaces a span describes no more than the span, and is no longer. -/
theorem Peephole.Replaces.descriptions_sublist {usage : Usage}
    {span replacement : List Instruction} (replaces : Replaces usage span replacement) :
    (descriptions replacement).Sublist (descriptions span) ∧
      replacement.length ≤ span.length := by
  cases replaces with
  | frame creates pushes pops unmarked => exact ⟨List.nil_sublist _, Nat.zero_le _⟩
  | jump jumps leads defines sole unmarked => exact ⟨List.nil_sublist _, Nat.zero_le _⟩
  | @pair first second opcode operands merges unclosed unopened =>
    refine ⟨?_, Nat.le_succ 1⟩
    cases merges with
    | @jump label jumps leads defines =>
      have opcode := Flow.opcode_of_definedLabel? defines
      rw [Instruction.definedLabel?, if_pos opcode] at defines
      have same : (merged first second .label [.label label]).description? =
          second.description? := by
        simp [Instruction.description?, Instruction.target?, merged, opcode, defines,
          Operand.label?, Opcode.definesTarget]
      rw [descriptions, descriptions, List.filterMap_cons, List.filterMap_nil, same,
        ← List.filterMap_nil, ← List.filterMap_cons]
      exact (List.sublist_cons_self first [second]).filterMap _
    | store pushes pushed pops popped => exact List.nil_sublist _
    | overwrite moves again overwritten => exact List.nil_sublist _

theorem Change.descriptions_sublist {pass : Pass} {code next : List Instruction}
    (change : Change pass code next) :
    (descriptions next).Sublist (descriptions code) ∧ next.length ≤ code.length := by
  cases change with
  | survey same =>
    have thinned := Thinned.of_alike (Unused.alike_of_remarked same)
    exact ⟨thinned.descriptions_sublist, thinned.length_le⟩
  | delete thinned => exact ⟨thinned.descriptions_sublist, thinned.length_le⟩
  | rewrite counts replaces =>
    obtain ⟨fewer, shorter⟩ := replaces.descriptions_sublist
    simp only [descriptions_append, List.length_append]
    exact ⟨(fewer.append_right _).append_left _, by omega⟩
  | substitute known before i after =>
    have same : descriptions (before ++ i.mapSources (Constants.substitute known) :: after) =
        descriptions (before ++ i :: after) := by
      simp only [descriptions, List.filterMap_append, List.filterMap_cons,
        Instruction.description?_mapSources]
    exact ⟨by rw [same], by simp⟩

/-- Apart from moves, the optimiser reorders, duplicates and invents no instruction, whether it
succeeds or stops: what describes the instructions of the program it leaves is part of what
described them before, in the same order, and the program is not longer. -/
theorem optimise_keeps_order (config : Optimiser.Config) (code : List Instruction) :
    (descriptions (Optimiser.optimise config code).code).Sublist (descriptions code) ∧
      (Optimiser.optimise config code).code.length ≤ code.length := by
  suffices kept : ∀ next, Optimiser.Changes code next →
      (descriptions next).Sublist (descriptions code) ∧ next.length ≤ code.length from
    kept _ (Optimiser.changes_optimise config code)
  intro next changes
  induction changes with
  | refl => exact ⟨List.Sublist.refl _, Nat.le_refl _⟩
  | tail _ change inductionHypothesis =>
    obtain ⟨pass, change⟩ := change
    obtain ⟨fewer, shorter⟩ := change.descriptions_sublist
    exact ⟨fewer.trans inductionHypothesis.1, shorter.trans inductionHypothesis.2⟩

end ThreeAddress
