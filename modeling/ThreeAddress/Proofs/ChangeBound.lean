/-
How many changes the passes can report. The measure is the number of
instructions of a program together with the number of its operands that are
variables. No pass raises it, and each pass lowers it by at least as much as it
reports: what is removed takes its instructions along, a peephole rule leaves
fewer instructions and no more variables than it found, and a constant that
takes the place of a variable leaves one variable operand fewer. So the changes
of all rounds together are bounded by the measure of the program at the start,
and with as many rounds as that, and one more, the last one changes nothing.
-/
import ThreeAddress.Proofs.PeepholeSoundness
import ThreeAddress.Proofs.Settling

namespace ThreeAddress

open Relation

/-! ### The measure -/

/-- The sum of the weights of the instructions of a program. -/
def weigh (weight : Instruction → Nat) (code : List Instruction) : Nat :=
  (code.map weight).sum

/-- How many operands of a program are variables. -/
def variableSlots (code : List Instruction) : Nat :=
  weigh (fun i => i.vars.length) code

/-- What an instruction adds to the measure: itself, and its operands that are variables. -/
def Instruction.bulk (i : Instruction) : Nat :=
  i.vars.length + 1

theorem Instruction.bulk_pos (i : Instruction) : 0 < i.bulk :=
  Nat.succ_pos _

section Weigh

variable (weight : Instruction → Nat)

@[simp] theorem weigh_nil : weigh weight [] = 0 := rfl

@[simp] theorem weigh_cons (i : Instruction) (code : List Instruction) :
    weigh weight (i :: code) = weight i + weigh weight code := by
  rw [weigh, List.map_cons, List.sum_cons, weigh]

@[simp] theorem weigh_append (code rest : List Instruction) :
    weigh weight (code ++ rest) = weigh weight code + weigh weight rest := by
  rw [weigh, List.map_append, List.sum_append, weigh, weigh]

theorem weigh_perm {code other : List Instruction} (perm : code.Perm other) :
    weigh weight code = weigh weight other :=
  (perm.map weight).sum_eq

theorem weigh_alike {weight : Instruction → Nat} {code other : List Instruction}
    (counted : ∀ i j, Usage.CountedAlike i j → weight i = weight j)
    (alike : List.Forall₂ Usage.CountedAlike code other) :
    weigh weight code = weigh weight other := by
  rw [weigh, weigh, Usage.map_eq_of_alike counted alike]

end Weigh

theorem weigh_one (code : List Instruction) : weigh (fun _ => 1) code = code.length := by
  simp [weigh]

theorem weigh_bulk (code : List Instruction) :
    weigh Instruction.bulk code = code.length + variableSlots code := by
  induction code with
  | nil => rfl
  | cons i rest inductionHypothesis =>
    rw [weigh_cons, inductionHypothesis, List.length_cons, variableSlots, variableSlots, weigh_cons,
      Instruction.bulk]
    omega

theorem length_le_weigh_bulk (code : List Instruction) :
    code.length ≤ weigh Instruction.bulk code := by
  rw [weigh_bulk]
  exact Nat.le_add_right _ _

theorem bulk_alike (i j : Instruction) (alike : Usage.CountedAlike i j) : i.bulk = j.bulk := by
  rw [Instruction.bulk, Instruction.bulk, Instruction.vars, Instruction.vars, alike.operands]

theorem weigh_bulk_survey {code surveyed : List Instruction} {usage : Usage}
    (survey : Usage.survey code = .ok (usage, surveyed)) :
    weigh Instruction.bulk surveyed = weigh Instruction.bulk code :=
  (weigh_alike bulk_alike (Usage.alike_survey survey)).symm

/-! ### Removal of functions and variables -/

namespace Unused

/-- Each function that a sweep drops has at least one instruction. -/
theorem weigh_sweepFrom {weight : Instruction → Nat} (heavy : ∀ i, 0 < weight i) {dropping : Bool}
    {rest done : List Instruction} {usage : Usage} {changes : Nat} {edit : Edit}
    (swept : sweepFrom dropping rest usage done changes = .ok edit) :
    edit.changes + weigh weight edit.code ≤ changes + weigh weight (done ++ rest) := by
  induction rest generalizing dropping usage done changes with
  | nil =>
    obtain rfl := Except.ok.inj swept
    rw [List.append_nil, weigh_perm _ (List.reverse_perm done)]
  | cons i rest inductionHypothesis =>
    have positive := heavy i
    rw [weigh_append, weigh_cons]
    cases dropping with
    | true =>
      have later := inductionHypothesis swept
      rw [weigh_append] at later
      omega
    | false =>
      unfold sweepFrom at swept
      split at swept
      · have later := inductionHypothesis swept
        rw [weigh_append, weigh_cons] at later
        omega
      · split at swept
        · have later := inductionHypothesis swept
          rw [weigh_append] at later
          omega
        · exact absurd swept (by simp)

theorem bulk_sweepFunctions {sweeps : Nat} {edit result : Edit}
    (swept : sweepFunctions sweeps edit = .ok result) :
    result.changes + weigh Instruction.bulk result.code ≤
      edit.changes + weigh Instruction.bulk edit.code := by
  induction sweeps generalizing edit with
  | zero =>
    obtain rfl := Except.ok.inj swept
    exact Nat.le_refl _
  | succ sweeps inductionHypothesis =>
    obtain ⟨next, one, rest⟩ := exists_ok_of_bind swept
    split at rest
    · obtain rfl := Except.ok.inj rest
      exact Nat.le_refl _
    · have first := weigh_sweepFrom Instruction.bulk_pos one
      have later := inductionHypothesis rest
      rw [List.nil_append] at first
      dsimp only at later
      omega

theorem bulk_removeFunctions {code : List Instruction} {edit : Edit}
    (removed : removeFunctions code = .ok edit) :
    edit.changes + weigh Instruction.bulk edit.code ≤ weigh Instruction.bulk code := by
  obtain ⟨⟨usage, surveyed⟩, survey, swept⟩ := exists_ok_of_bind removed
  have bound := bulk_sweepFunctions swept
  dsimp only at bound
  rwa [Nat.zero_add, weigh_bulk_survey (Halt.ok_of_surveying survey)] at bound

/-- The measure of what a pass has kept and has still to see, with what it has removed. -/
def Pruning.bulk (now : Pruning) : Nat :=
  now.removed + weigh Instruction.bulk (now.done ++ now.rest)

theorem PruneStep.bulk_le {kept : List Variable} {now later : Pruning}
    (step : PruneStep kept now later) : later.bulk ≤ now.bulk := by
  have taken : ∀ (i : Instruction) (handed : Option Effects), (takeOver i handed).bulk = i.bulk :=
    fun i handed => (bulk_alike _ _ (alike_takeOver i handed)).symm
  unfold Pruning.bulk
  cases step with
  | keep next plain alive =>
    simp only [next, weigh_append, weigh_cons, taken]
    omega
  | keepExpression next closes needed =>
    simp only [next, weigh_append, weigh_cons, taken]
    omega
  | drop next plain dead =>
    simp only [next, weigh_append, weigh_cons, Instruction.bulk]
    omega
  | @dropExpression i now rest count effects next closes unused start pure =>
    obtain ⟨newer, first, older, split, length, -⟩ := exists_split_of_expressionStart? start
    have size := length_le_weigh_bulk ((takeOver i now.handed :: now.done).take count)
    have bound : count ≤ (takeOver i now.handed :: now.done).length := by
      rw [split, length, List.length_append, List.length_cons]
      omega
    rw [List.length_take_of_le bound] at size
    have pieces := weigh_append Instruction.bulk ((takeOver i now.handed :: now.done).take count)
      ((takeOver i now.handed :: now.done).drop count)
    rw [List.take_append_drop, weigh_cons, taken] at pieces
    simp only [next, weigh_append, weigh_cons]
    omega

theorem Pruning.bulk_run {kept : List Variable} {now later : Pruning}
    (run : ReflTransGen (PruneStep kept) now later) : later.bulk ≤ now.bulk := by
  induction run with
  | refl => exact Nat.le_refl _
  | tail _ step inductionHypothesis => exact step.bulk_le.trans inductionHypothesis

theorem bulk_prune {code : List Instruction} {edit : Edit} (pruned : prune code = .ok edit) :
    edit.changes + weigh Instruction.bulk edit.code ≤ weigh Instruction.bulk code := by
  obtain ⟨usage, surveyed, kept, final, survey, -, ended, rfl, run⟩ := exists_run_of_prune pruned
  have bound := Pruning.bulk_run run
  rw [Pruning.bulk, Pruning.bulk, ended, List.append_nil, List.nil_append, Nat.zero_add,
    weigh_bulk_survey survey] at bound
  rwa [weigh_perm _ (List.reverse_perm final.done)]

theorem bulk_pruneAll {passes : Nat} {edit result : Edit}
    (pruned : pruneAll passes edit = .ok result) :
    result.changes + weigh Instruction.bulk result.code ≤
      edit.changes + weigh Instruction.bulk edit.code := by
  induction passes generalizing edit with
  | zero =>
    obtain rfl := Except.ok.inj pruned
    exact Nat.le_refl _
  | succ passes inductionHypothesis =>
    obtain ⟨next, one, rest⟩ := exists_ok_of_bind pruned
    have first := bulk_prune one
    split at rest
    · obtain rfl := Except.ok.inj rest
      dsimp only
      omega
    · have later := inductionHypothesis rest
      dsimp only at later
      omega

theorem bulk_removeVariables {code : List Instruction} {edit : Edit}
    (removed : removeVariables code = .ok edit) :
    edit.changes + weigh Instruction.bulk edit.code ≤ weigh Instruction.bulk code := by
  have bound := bulk_pruneAll removed
  rwa [Nat.zero_add] at bound

end Unused

/-! ### Peephole rules -/

namespace Peephole

/-- Whether a rule always leaves less weight than it finds. -/
def Rule.Shrinks (weight : Instruction → Nat) (rule : Rule) : Prop :=
  ∀ usage code replacement, rule.fire? usage code = some replacement →
    weigh weight replacement < weigh weight (rule.span code)

theorem weigh_passFrom {weight : Instruction → Nat} {rules : List Rule}
    (shrinking : ∀ rule ∈ rules, rule.Shrinks weight) (skip : Nat) (rest : List Instruction)
    (usage : Usage) (done : List Instruction) (changes : Nat) :
    (passFrom rules skip rest usage done changes).changes +
        weigh weight (passFrom rules skip rest usage done changes).code ≤
      changes + weigh weight (done ++ rest.drop skip) := by
  induction rest generalizing skip usage done changes with
  | nil =>
    rw [passFrom, List.drop_nil, List.append_nil, weigh_perm _ (List.reverse_perm done)]
  | cons i rest inductionHypothesis =>
    cases skip with
    | succ skip => exact inductionHypothesis skip usage done changes
    | zero =>
      unfold passFrom
      split
      · have later := inductionHypothesis 0 usage (i :: done) changes
        simp only [weigh_append, weigh_cons, List.drop_zero] at later ⊢
        omega
      · next length replacement found =>
        obtain ⟨rule, member, fired⟩ := List.exists_of_findSome?_eq_some found
        obtain ⟨result, fires, same⟩ := Option.map_eq_some_iff.mp fired
        obtain ⟨rfl, rfl⟩ := Prod.mk.inj same
        have lighter := shrinking rule member usage (i :: rest) result fires
        have later := inductionHypothesis (rule.pattern.length - 1)
          (replaceUsage usage ((i :: rest).take rule.pattern.length) result)
          (result.reverse ++ done) (changes + 1)
        have nonempty := List.length_pos_iff.mpr (Rule.exists_match_of_fire? fires).1
        have behind : (i :: rest).drop rule.pattern.length =
            rest.drop (rule.pattern.length - 1) := by
          obtain ⟨shorter, length⟩ : ∃ shorter, rule.pattern.length = shorter + 1 :=
            ⟨rule.pattern.length - 1, by omega⟩
          rw [length, List.drop_succ_cons, Nat.add_sub_cancel]
        have pieces := weigh_append weight (rule.span (i :: rest))
          ((i :: rest).drop rule.pattern.length)
        rw [Rule.span, List.take_append_drop, behind, ← Rule.span] at pieces
        rw [weigh_append, weigh_append, weigh_perm _ (List.reverse_perm result)] at later
        rw [List.drop_zero, weigh_append]
        omega

theorem weigh_pass {weight : Instruction → Nat} {rules : List Rule}
    (shrinking : ∀ rule ∈ rules, rule.Shrinks weight) (code : List Instruction) (usage : Usage) :
    (pass rules code usage).changes + weigh weight (pass rules code usage).code ≤
      weigh weight code := by
  have bound := weigh_passFrom shrinking 0 code usage [] 0
  rwa [Nat.zero_add, List.nil_append, List.drop_zero] at bound

theorem weigh_settle {weight : Instruction → Nat} {rules : List Rule}
    (shrinking : ∀ rule ∈ rules, rule.Shrinks weight) (limit : Nat) (edit : Edit) :
    (settle rules limit edit).1.changes + weigh weight (settle rules limit edit).1.code ≤
      edit.changes + weigh weight edit.code := by
  induction limit generalizing edit with
  | zero => exact Nat.le_refl _
  | succ limit inductionHypothesis =>
    have first := weigh_pass shrinking edit.code edit.usage
    unfold settle
    dsimp only
    split
    · exact Nat.le_refl _
    · refine Nat.le_trans (inductionHypothesis _) ?_
      dsimp only
      omega

/-- Rules that shrink settle within as many passes as there is weight, and one more. -/
theorem exists_settle {weight : Instruction → Nat} {rules : List Rule}
    (shrinking : ∀ rule ∈ rules, rule.Shrinks weight) {limit : Nat} (edit : Edit)
    (enough : weigh weight edit.code < limit) :
    ∃ result, settle rules limit edit = (result, true) ∧
      (pass rules result.code result.usage).changes = 0 := by
  induction limit generalizing edit with
  | zero => exact absurd enough (Nat.not_lt_zero _)
  | succ limit inductionHypothesis =>
    have first := weigh_pass shrinking edit.code edit.usage
    unfold settle
    dsimp only
    split
    · next none => exact ⟨edit, rfl, none⟩
    · exact inductionHypothesis _ (by dsimp only; omega)

/-! ### The standard rules -/

theorem exists_pair {code : List Instruction} (long : 2 ≤ code.length) :
    ∃ first second after, code = first :: second :: after :=
  match code, long with
  | first :: second :: after, _ => ⟨first, second, after, rfl⟩

/-- Where the pattern of a standard rule matches, the rule has all operands that it needs for its
replacement, which is shorter and mentions no more variables. -/
theorem exists_instances {rule : Rule} (member : rule ∈ standard) {usage : Usage}
    {code : List Instruction} {bindings : Bindings}
    (matched : matchPattern? usage rule.pattern code {} = some bindings) :
    ∃ instances, rule.replacement.mapM (Substitute.instantiate? bindings) = some instances ∧
      instances.length < (rule.span code).length ∧
      variableSlots instances ≤ variableSlots (rule.span code) := by
  have long := length_le_of_matchPattern? matched
  have span : (rule.span code).length = rule.pattern.length := List.length_take_of_le long
  rw [span]
  simp only [standard, List.mem_cons, List.not_mem_nil, or_false] at member
  rcases member with rfl | rfl | rfl | rfl | rfl
  · exact ⟨[], rfl, by decide, Nat.zero_le _⟩
  · exact ⟨[], rfl, by decide, Nat.zero_le _⟩
  · obtain ⟨first, second, after, rfl⟩ := exists_pair long
    obtain ⟨label, -, -, -, -, -, known⟩ := exists_jump_of_match matched
    refine ⟨[{ opcode := .label, operands := [.label label] }], ?_, Nat.one_lt_two, Nat.zero_le _⟩
    simp [jumpToNext, Substitute.instantiate?, Instruction.make?, known, Opcode.arity]
  · obtain ⟨first, second, after, rfl⟩ := exists_pair long
    obtain ⟨source, v, rest, others, -, pushed, -, popped, a, b⟩ := exists_push_of_match matched
    refine ⟨[{ opcode := .move, operands := [.var v, source] }], ?_, Nat.one_lt_two, ?_⟩
    · simp [pushPop, Substitute.instantiate?, Instruction.make?, a, b, Opcode.arity]
    · have pair : pushPop.span (first :: second :: after) = [first, second] := rfl
      rw [pair]
      simp only [variableSlots, weigh_cons, weigh_nil, Instruction.vars, pushed, popped,
        List.filterMap_cons, List.filterMap_nil]
      cases source.var? <;> simp [Operand.var?] <;> omega
  · obtain ⟨first, second, after, rfl⟩ := exists_pair long
    obtain ⟨v, lost, kept, rest, others, -, -, -, overwritten, -, a, c⟩ :=
      exists_moves_of_match matched
    refine ⟨[{ opcode := .move, operands := [.var v, kept] }], ?_, Nat.one_lt_two, ?_⟩
    · simp [overwrittenMove, Substitute.instantiate?, Instruction.make?, a, c, Opcode.arity]
    · have pair : overwrittenMove.span (first :: second :: after) = [first, second] := rfl
      rw [pair]
      simp only [variableSlots, weigh_cons, weigh_nil, Instruction.vars, overwritten,
        List.filterMap_cons, List.filterMap_nil]
      cases kept.var? <;> simp [Operand.var?] <;> omega

/-- A standard rule fires wherever it matches. -/
theorem match?_of_fire? {rule : Rule} (member : rule ∈ standard) {usage : Usage}
    {code : List Instruction} (still : rule.fire? usage code = none) :
    rule.match? usage code = none := by
  by_contra applies
  obtain ⟨bindings, matched⟩ := Option.ne_none_iff_exists'.mp applies
  obtain ⟨-, pattern, -⟩ := matchPattern?_of_match? matched
  obtain ⟨instances, made, -⟩ := exists_instances member pattern
  rw [Rule.fire?, matched, Option.bind_eq_bind, Option.bind_some, made] at still
  exact absurd still (by simp)

/-- A standard rule leaves fewer instructions and no more variables than it finds. -/
theorem fire?_lighter {rule : Rule} (member : rule ∈ standard) {usage : Usage}
    {code replacement : List Instruction} (fires : rule.fire? usage code = some replacement) :
    replacement.length < (rule.span code).length ∧
      variableSlots replacement ≤ variableSlots (rule.span code) := by
  obtain ⟨-, bindings, instances, matched, -, made, rfl⟩ := Rule.exists_match_of_fire? fires
  obtain ⟨others, again, shorter, fewer⟩ := exists_instances member matched
  obtain rfl := Option.some_inj.mp (made.symm.trans again)
  have operands : (carryBoundaries (rule.span code) instances).map Instruction.operands =
      instances.map Instruction.operands := map_carryBoundaries (fun _ _ _ => rfl) _ _
  have length := congrArg List.length operands
  rw [List.length_map, List.length_map] at length
  have slots : variableSlots (carryBoundaries (rule.span code) instances) =
      variableSlots instances := by
    have sums := congrArg (fun operands : List (List Operand) =>
      (operands.map fun list => (list.filterMap Operand.var?).length).sum) operands
    rwa [List.map_map, List.map_map] at sums
  rw [length, slots]
  exact ⟨shorter, fewer⟩

theorem shrinks_length {rule : Rule} (member : rule ∈ standard) : rule.Shrinks fun _ => 1 := by
  intro usage code replacement fires
  rw [weigh_one, weigh_one]
  exact (fire?_lighter member fires).1

theorem shrinks_bulk {rule : Rule} (member : rule ∈ standard) : rule.Shrinks Instruction.bulk := by
  intro usage code replacement fires
  have lighter := fire?_lighter member fires
  rw [weigh_bulk, weigh_bulk]
  omega

/-- Where a pass with the standard rules changes nothing, none of them matches. -/
theorem match?_of_unchanged {code : List Instruction} {usage : Usage}
    (unchanged : (pass standard code usage).changes = 0) {before rest : List Instruction}
    (split : code = before ++ rest) {rule : Rule} (member : rule ∈ standard) :
    rule.match? usage rest = none := by
  refine match?_of_fire? member ?_
  cases rest with
  | nil =>
    simp only [standard, List.mem_cons, List.not_mem_nil, or_false] at member
    rcases member with rfl | rfl | rfl | rfl | rfl <;> rfl
  | cons i behind =>
    have inapplicable := firstApplicable?_of_passFrom unchanged before i behind split
    have here := List.findSome?_eq_none_iff.mp inapplicable rule member
    exact Option.map_eq_none_iff.mp here

end Peephole

/-! ### Propagation of constants -/

namespace Constants

theorem length_vars (i : Instruction) :
    i.vars.length = i.target?.toList.length + i.reads.length := by
  unfold Instruction.vars Instruction.target? Instruction.reads Instruction.sources
  split
  · cases i.operands with
    | nil => rfl
    | cons operand rest =>
      rw [List.filterMap_cons, List.head?_cons, Option.bind_some, List.tail_cons]
      cases operand.var? with
      | none => simp
      | some v => simp [Nat.add_comm]
  · simp

/-- Each replaced operand was a variable and is none afterwards. -/
theorem length_substituted (known : Known) (operands : List Operand) :
    ((operands.map (substitute known)).filterMap Operand.var?).length +
        ((operands.filterMap Operand.var?).filter fun v => (known.value? v).isSome).length =
      (operands.filterMap Operand.var?).length := by
  induction operands with
  | nil => rfl
  | cons operand rest inductionHypothesis =>
    rw [List.map_cons, List.filterMap_cons, List.filterMap_cons]
    cases operand with
    | var v =>
      cases bound : known.value? v with
      | none =>
        simp only [substitute, Operand.var?, Option.bind_some, bound, List.filter_cons,
          Option.isSome_none, List.length_cons, Bool.false_eq_true, if_false]
        omega
      | some c =>
        simp only [substitute, Operand.var?, Option.bind_some, bound, List.filter_cons,
          Option.isSome_some, List.length_cons, if_true]
        omega
    | const c => exact inductionHypothesis
    | label name => exact inductionHypothesis
    | type t => exact inductionHypothesis

theorem bulk_substituted (known : Known) (i : Instruction) :
    substitutionCount known i + (i.mapSources (substitute known)).bulk = i.bulk := by
  have reads := length_substituted known i.sources
  rw [← sources_mapSources] at reads
  rw [Instruction.bulk, Instruction.bulk, length_vars, length_vars, target?_mapSources]
  unfold substitutionCount Instruction.reads
  omega

theorem bulk_scan (block : List Instruction) (p : Progress) :
    (scan block p).2.substitutions + weigh Instruction.bulk (scan block p).1 =
      p.substitutions + weigh Instruction.bulk block := by
  induction block generalizing p with
  | nil => rfl
  | cons i rest inductionHypothesis =>
    have later := inductionHypothesis (scanOne p i).2
    have first := bulk_substituted p.known i
    have counted : (scanOne p i).2.substitutions = p.substitutions + substitutionCount p.known i :=
      rfl
    show (scan rest (scanOne p i).2).2.substitutions + weigh Instruction.bulk
        ((i.mapSources (substitute p.known)) :: (scan rest (scanOne p i).2).1) =
      p.substitutions + weigh Instruction.bulk (i :: rest)
    rw [weigh_cons, weigh_cons]
    omega

theorem bulk_enter {plan : Plan} {walk : Walk} (id : Nat) (known : Known) (conditional : Bool) :
    (walk.enter plan id known conditional).substitutions +
        weigh Instruction.bulk (walk.enter plan id known conditional).code =
      walk.substitutions + weigh Instruction.bulk walk.code := by
  have scans := bulk_scan (plan.flow.instructions walk.code id)
    { known := (plan.blocked id).foldl Known.block known, usage := walk.usage }
  rw [← scanned, Nat.zero_add] at scans
  obtain ⟨before, after, old, new⟩ := exists_enter_split plan walk id known conditional
  have pieces := congrArg (weigh Instruction.bulk) old
  rw [weigh_append, weigh_append] at pieces
  rw [substitutions_enter, new, weigh_append, weigh_append]
  omega

theorem bulk_run {plan : Plan} (steps : Nat) (walk : Walk) :
    (walk.run plan steps).substitutions + weigh Instruction.bulk (walk.run plan steps).code =
      walk.substitutions + weigh Instruction.bulk walk.code :=
  Walk.run_induction_enter (motive := fun code _ count =>
    count + weigh Instruction.bulk code = walk.substitutions + weigh Instruction.bulk walk.code)
    (fun _ id known conditional before => (bulk_enter id known conditional).trans before) rfl steps

end Constants

/-! ### All passes -/

/-- The changes of a round. -/
def Event.changes : Event → Nat
  | .round _ changes => changes
  | .unsettled _ => 0
  | .peepholeUnsettled _ => 0

namespace Optimiser

/-- A pass lowers the measure by at least as much as it reports. -/
theorem bulk_runPass {limit : Nat} {pass : Pass} {code : List Instruction} {edit : Edit}
    {events : List Event} (ran : runPass limit pass code = .ok (edit, events)) :
    edit.changes + weigh Instruction.bulk edit.code ≤ weigh Instruction.bulk code := by
  cases runPass_iff.mp ran with
  | deadCode swept pruned =>
    have first := Unused.bulk_removeFunctions swept
    have second := Unused.bulk_removeVariables pruned
    dsimp only
    omega
  | @peephole usage surveyed _ settled survey result =>
    have bound := Peephole.weigh_settle (fun _ member => Peephole.shrinks_bulk member) limit
      { code := surveyed, usage, changes := 0 }
    rwa [← Peephole.run, result, weigh_bulk_survey survey, Nat.zero_add] at bound
  | @constantPropagation usage surveyed flow survey built =>
    refine Nat.le_of_eq ((Constants.bulk_run _ (Constants.Walk.start _ surveyed usage)).trans ?_)
    rw [← weigh_bulk_survey survey]
    exact Nat.zero_add _

theorem bulk_runPasses (limit : Nat) (passes : List Pass) (run : Run) (changes : Nat) :
    (runPasses limit passes run changes).2 ≤ changes + weigh Instruction.bulk run.code ∧
      ((runPasses limit passes run changes).1.failure = none →
        (runPasses limit passes run changes).2 +
            weigh Instruction.bulk (runPasses limit passes run changes).1.code ≤
          changes + weigh Instruction.bulk run.code) := by
  induction passes generalizing run changes with
  | nil => exact ⟨Nat.le_add_right _ _, fun _ => Nat.le_refl _⟩
  | cons pass rest inductionHypothesis =>
    unfold runPasses
    split
    · exact ⟨Nat.le_add_right _ _, fun fine => absurd fine (by simp)⟩
    · next edit events ran =>
      have first := bulk_runPass ran
      obtain ⟨bound, later⟩ := inductionHypothesis
        { run with code := edit.code, usage := edit.usage, events := run.events ++ events }
        (changes + edit.changes)
      dsimp only at bound later
      exact ⟨by omega, fun fine => (later fine).trans (by omega)⟩

/-- The changes that the passes of the rounds that are left report, up to the pass that fails if one
does; the first of the rounds has the given number. -/
def reported (config : Config) : Nat → Nat → Run → Nat
  | 0, _, _ => 0
  | left + 1, number, run =>
    let (run, changes) := runPasses config.peepholeLimit config.passes run 0
    if run.failure.isSome ∨ changes = 0 then changes
    else
      changes + reported config left (number + 1)
        { run with events := run.events ++ [.round number changes] }

theorem reported_le (config : Config) (left number : Nat) (run : Run) :
    reported config left number run ≤ weigh Instruction.bulk run.code := by
  induction left generalizing number run with
  | zero => exact Nat.zero_le _
  | succ left inductionHypothesis =>
    obtain ⟨bound, later⟩ := bulk_runPasses config.peepholeLimit config.passes run 0
    unfold reported
    dsimp only
    rw [Nat.zero_add] at bound later
    split
    · exact bound
    · next goesOn =>
      rw [not_or, Option.not_isSome_iff_eq_none] at goesOn
      have rest := inductionHypothesis (number + 1)
        { (runPasses config.peepholeLimit config.passes run 0).1 with
          events := (runPasses config.peepholeLimit config.passes run 0).1.events ++
            [.round number (runPasses config.peepholeLimit config.passes run 0).2] }
      have here := later goesOn.1
      dsimp only at rest
      omega

/-- The changes that the events of a run give for its rounds. -/
def announced (events : List Event) : Nat :=
  (events.map Event.changes).sum

theorem announced_append (events more : List Event) :
    announced (events ++ more) = announced events + announced more := by
  rw [announced, List.map_append, List.sum_append, announced, announced]

/-- The events of single passes give no changes. -/
theorem announced_runPass {limit : Nat} {pass : Pass} {code : List Instruction} {edit : Edit}
    {events : List Event} (ran : runPass limit pass code = .ok (edit, events)) :
    announced events = 0 := by
  cases runPass_iff.mp ran with
  | deadCode => rfl
  | @peephole _ _ _ settled => cases settled <;> rfl
  | constantPropagation => rfl

theorem announced_runPasses (limit : Nat) (passes : List Pass) (run : Run) (changes : Nat) :
    announced (runPasses limit passes run changes).1.events = announced run.events := by
  induction passes generalizing run changes with
  | nil => rfl
  | cons pass rest inductionHypothesis =>
    unfold runPasses
    split
    · rfl
    · next edit events ran =>
      rw [inductionHypothesis, announced_append, announced_runPass ran, Nat.add_zero]

/-- Of a run that does not fail, the events give everything that the passes report. -/
theorem announced_rounds {config : Config} {left number : Nat} {run : Run}
    (fine : (rounds config left number run).failure = none) :
    announced (rounds config left number run).events =
      announced run.events + reported config left number run := by
  induction left generalizing number run with
  | zero =>
    rw [rounds, announced_append]
    rfl
  | succ left inductionHypothesis =>
    have before := announced_runPasses config.peepholeLimit config.passes run 0
    unfold rounds at fine ⊢
    unfold reported
    dsimp only at fine ⊢
    split at fine
    · next failed =>
      rw [fine] at failed
      exact absurd failed (by simp)
    · next goesOn =>
      rw [if_neg goesOn]
      split at fine
      · next none =>
        rw [if_pos none, if_pos (Or.inr none), announced_append, before, none]
        rfl
      · next changed =>
        rw [if_neg changed, if_neg (by simp [goesOn, changed]), inductionHypothesis fine,
          announced_append, before]
        exact Nat.add_assoc _ _ _

/-- Rounds settle if there are more of them than the measure of the program says. -/
theorem settled_of_enough {config : Config} {left number : Nat} {run : Run}
    (enough : weigh Instruction.bulk run.code < left)
    (fine : (rounds config left number run).failure = none) :
    (rounds config left number run).Settled := by
  induction left generalizing number run with
  | zero => exact absurd enough (Nat.not_lt_zero _)
  | succ left inductionHypothesis =>
    have measure := (bulk_runPasses config.peepholeLimit config.passes run 0).2
    unfold rounds at fine ⊢
    dsimp only at fine ⊢
    split at fine
    · next failed =>
      rw [fine] at failed
      exact absurd failed (by simp)
    · next goesOn =>
      rw [if_neg goesOn]
      split at fine
      · next none =>
        rw [if_pos none]
        refine ⟨fine, number, ?_⟩
        rw [none]
        exact List.getLast?_concat
      · next changed =>
        rw [if_neg changed]
        refine inductionHypothesis ?_ fine
        rw [Option.not_isSome_iff_eq_none] at goesOn
        have less := measure goesOn
        dsimp only
        omega

/-- All passes of a run together report at most as many changes as the program has instructions and
variable operands, and if the run does not fail, these are the changes that its events give. So with
more rounds than that the last round of a run that does not fail changes nothing; and with more
peephole passes than instructions the last one finds no place where a standard rule matches. -/
theorem changes_bounded (config : Config) (code : List Instruction) :
    reported config config.iterationLimit 1 { code } ≤ code.length + variableSlots code ∧
      ((optimise config code).failure = none →
        announced (optimise config code).events =
          reported config config.iterationLimit 1 { code }) ∧
      (code.length + variableSlots code < config.iterationLimit →
        (optimise config code).failure = none → (optimise config code).Settled) ∧
      ∀ limit usage, code.length < limit →
        ∃ edit, Peephole.run Peephole.standard limit code usage = (edit, true) ∧
          (Peephole.pass Peephole.standard edit.code edit.usage).changes = 0 ∧
          ∀ before rest, edit.code = before ++ rest → ∀ rule ∈ Peephole.standard,
            rule.match? edit.usage rest = none := by
  rw [← weigh_bulk]
  refine ⟨reported_le config _ 1 { code }, fun fine => ?_, fun enough fine => ?_,
    fun limit usage enough => ?_⟩
  · exact (announced_rounds fine).trans (Nat.zero_add _)
  · exact settled_of_enough enough fine
  · rw [← weigh_one] at enough
    obtain ⟨edit, settled, unchanged⟩ :=
      Peephole.exists_settle (fun _ member => Peephole.shrinks_length member) ⟨code, usage, 0⟩
        enough
    exact ⟨edit, settled, unchanged, fun before rest split rule member =>
      Peephole.match?_of_unchanged unchanged split member⟩

/-- A program of eleven instructions with three variable operands, of which a run changes three
things, so that its sixteen rounds are enough. Without its constant it has a frame that is empty. -/
theorem changes_bounded_framed :
    framedConstant.length + variableSlots framedConstant = 14 ∧
      announced (optimise {} framedConstant).events = 3 ∧
      3 = reported {} 16 1 { code := framedConstant } ∧
      (optimise {} framedConstant).Settled ∧
      ∃ edit, Peephole.run Peephole.standard 11 (framedConstant.eraseIdx 1) {} = (edit, true) ∧
        edit.changes = 1 ∧
        ∀ before rest, edit.code = before ++ rest → ∀ rule ∈ Peephole.standard,
          rule.match? edit.usage rest = none := by
  obtain ⟨-, announces, settles, -⟩ := changes_bounded {} framedConstant
  obtain ⟨-, -, -, peephole⟩ := changes_bounded {} (framedConstant.eraseIdx 1)
  obtain ⟨edit, settled, -, normal⟩ := peephole 11 {} (by decide)
  refine ⟨rfl, rfl, announces rfl, settles (by decide) rfl, edit, settled, ?_, normal⟩
  exact congrArg (·.1.changes) settled.symm

end Optimiser

end ThreeAddress
