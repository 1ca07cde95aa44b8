/-
A peephole pass as a run of rewrites. A rewrite puts the replacement of one rule
in the place of a span that the rule applies to, and changes the counts along
with it; where rules do not apply, a pass changes nothing. Whatever a single
rewrite preserves, a pass preserves, and the counts of the program are the first
such thing.
-/
import ThreeAddress.Peephole.Pass
import ThreeAddress.Proofs.Counting

namespace ThreeAddress.Peephole

open Relation
open scoped List

/-! ### What it takes for a rule to apply -/

theorem length_le_of_matchPattern? {usage : Usage} {templates : List Template}
    {code : List Instruction} {bindings found : Bindings}
    (matched : matchPattern? usage templates code bindings = some found) :
    templates.length ≤ code.length := by
  induction templates generalizing code bindings with
  | nil => exact Nat.zero_le _
  | cons template rest inductionHypothesis =>
    cases code with
    | nil => exact absurd matched (by simp [matchPattern?])
    | cons i code =>
      unfold matchPattern? at matched
      split at matched
      · obtain ⟨bound, -, later⟩ := Option.bind_eq_some_iff.mp matched
        exact Nat.succ_le_succ (inductionHypothesis later)
      · exact absurd matched (by simp)

/-- A rule that matches has a pattern that the instructions in front match and room for the
markers. -/
theorem matchPattern?_of_match? {rule : Rule} {usage : Usage} {code : List Instruction}
    {bindings : Bindings} (matched : rule.match? usage code = some bindings) :
    rule.pattern ≠ [] ∧ matchPattern? usage rule.pattern code {} = some bindings ∧
      keepsBoundaries rule (rule.span code) := by
  unfold Rule.match? at matched
  split at matched
  · exact absurd matched (by simp)
  · next nonempty =>
    split at matched
    · exact absurd matched (by simp)
    · next found pattern =>
      split at matched
      · next keeps =>
        obtain rfl := Option.some_inj.mp matched
        exact ⟨by simpa using nonempty, pattern, keeps⟩
      · exact absurd matched (by simp)

/-- A rule that applies matches, and puts there what its substitutes stand for. -/
theorem Rule.exists_match_of_fire? {rule : Rule} {usage : Usage}
    {code replacement : List Instruction} (fires : rule.fire? usage code = some replacement) :
    rule.pattern ≠ [] ∧ ∃ bindings instances,
      matchPattern? usage rule.pattern code {} = some bindings ∧
      keepsBoundaries rule (rule.span code) ∧
      rule.replacement.mapM (Substitute.instantiate? bindings) = some instances ∧
      replacement = carryBoundaries (rule.span code) instances := by
  obtain ⟨bindings, applies, made⟩ := Option.bind_eq_some_iff.mp fires
  obtain ⟨instances, substituted, carried⟩ := Option.bind_eq_some_iff.mp made
  obtain ⟨nonempty, matched, keeps⟩ := matchPattern?_of_match? applies
  exact ⟨nonempty, bindings, instances, matched, keeps, substituted,
    (Option.some_inj.mp carried).symm⟩

/-- Carrying boundaries over changes nothing but markers and effects. -/
theorem map_carryBoundaries {α : Type} {view : Instruction → α}
    (same : ∀ i markers effects, view { i with markers, effects } = view i)
    (span replacement : List Instruction) :
    (carryBoundaries span replacement).map view = replacement.map view := by
  have last (ends : Markers) (code : List Instruction) :
      (markLast ends code).map view = code.map view := by
    fun_induction markLast ends code with
    | case1 => rfl
    | case2 i => exact congrArg (List.cons · []) (same i _ i.effects)
    | case3 i rest _ inductionHypothesis => rw [List.map_cons, inductionHypothesis, List.map_cons]
  have first (starts : Markers) (effects : Effects) (code : List Instruction) :
      (markFirst starts effects code).map view = code.map view := by
    cases code with
    | nil => rfl
    | cons i rest => exact congrArg (List.cons · (rest.map view)) (same i _ effects)
  unfold carryBoundaries
  split
  · rw [last, first]
  · rfl

/-! ### Rewrites -/

/-- One rewrite of a program together with its counts. -/
inductive Rewrite (rules : List Rule) :
    List Instruction × Usage → List Instruction × Usage → Prop
  /-- A rule applies to a span and what comes behind it, and replaces the span. -/
  | apply {rule : Rule} {before span after replacement : List Instruction} {usage : Usage}
    (member : rule ∈ rules) (length : span.length = rule.pattern.length)
    (fires : rule.fire? usage (span ++ after) = some replacement) :
    Rewrite rules (before ++ (span ++ after), usage)
      (before ++ (replacement ++ after), replaceUsage usage span replacement)

/-- The place where some rule applies can be rewritten. -/
theorem rewrite_of_firstApplicable? {rules : List Rule} {usage : Usage}
    {code replacement : List Instruction} {length : Nat}
    (found : firstApplicable? rules usage code = some (length, replacement))
    (before : List Instruction) :
    0 < length ∧ Rewrite rules (before ++ code, usage)
      (before ++ (replacement ++ code.drop length),
        replaceUsage usage (code.take length) replacement) := by
  obtain ⟨rule, member, fired⟩ := List.exists_of_findSome?_eq_some found
  obtain ⟨result, fires, same⟩ := Option.map_eq_some_iff.mp fired
  obtain ⟨rfl, rfl⟩ := Prod.mk.inj same
  obtain ⟨nonempty, bindings, -, matched, -⟩ := Rule.exists_match_of_fire? fires
  have enough := length_le_of_matchPattern? matched
  refine ⟨List.length_pos_iff.mpr nonempty, ?_⟩
  have split := List.take_append_drop rule.pattern.length code
  nth_rewrite 1 [← split]
  rw [← split] at fires
  exact Rewrite.apply member (List.length_take_of_le enough) fires

/-- Going through the rest of a program is a run of rewrites. -/
theorem rewrites_passFrom (rules : List Rule) (skip : Nat) (rest : List Instruction)
    (usage : Usage) (done : List Instruction) (changes : Nat) :
    ReflTransGen (Rewrite rules) (done.reverse ++ rest.drop skip, usage)
      ((passFrom rules skip rest usage done changes).code,
        (passFrom rules skip rest usage done changes).usage) := by
  induction rest generalizing skip usage done changes with
  | nil =>
    rw [List.drop_nil, List.append_nil, passFrom]
  | cons i rest inductionHypothesis =>
    cases skip with
    | succ skip => exact inductionHypothesis skip usage done changes
    | zero =>
      unfold passFrom
      split
      · have later := inductionHypothesis 0 usage (i :: done) changes
        rwa [List.reverse_cons, List.append_assoc] at later
      · next length replacement found =>
        obtain ⟨positive, rewrite⟩ := rewrite_of_firstApplicable? found done.reverse
        refine ReflTransGen.head rewrite ?_
        have later := inductionHypothesis (length - 1)
          (replaceUsage usage ((i :: rest).take length) replacement) (replacement.reverse ++ done)
          (changes + 1)
        obtain ⟨shorter, rfl⟩ : ∃ shorter, length = shorter + 1 := ⟨length - 1, by omega⟩
        rwa [List.reverse_append, List.reverse_reverse, List.append_assoc] at later

/-- A pass is a run of rewrites. -/
theorem rewrites_pass (rules : List Rule) (code : List Instruction) (usage : Usage) :
    ReflTransGen (Rewrite rules) (code, usage)
      ((pass rules code usage).code, (pass rules code usage).usage) :=
  rewrites_passFrom rules 0 code usage [] 0

theorem rewrites_settle (rules : List Rule) (limit : Nat) (edit : Edit) :
    ReflTransGen (Rewrite rules) (edit.code, edit.usage)
      ((settle rules limit edit).1.code, (settle rules limit edit).1.usage) := by
  induction limit generalizing edit with
  | zero => exact ReflTransGen.refl
  | succ limit inductionHypothesis =>
    unfold settle
    dsimp only
    split
    · exact ReflTransGen.refl
    · exact (rewrites_pass rules edit.code edit.usage).trans
        (inductionHypothesis { pass rules edit.code edit.usage with
          changes := edit.changes + (pass rules edit.code edit.usage).changes })

/-- Repeated passes are a run of rewrites. -/
theorem rewrites_run (rules : List Rule) (limit : Nat) (code : List Instruction) (usage : Usage) :
    ReflTransGen (Rewrite rules) (code, usage)
      ((run rules limit code usage).1.code, (run rules limit code usage).1.usage) :=
  rewrites_settle rules limit { code, usage, changes := 0 }

/-! ### Counts -/

/-- A rewrite keeps the counts those of the program. -/
theorem counts_rewrite {rules : List Rule} {program next : List Instruction × Usage}
    (counts : program.2.Counts program.1) (rewrite : Rewrite rules program next) :
    next.2.Counts next.1 := by
  cases rewrite with
  | @apply rule before span after replacement usage member length fires =>
    have added := counts.addAll replacement
    have moved : replacement ++ (before ++ (span ++ after)) ~
        span ++ (before ++ (replacement ++ after)) := by
      calc replacement ++ (before ++ (span ++ after))
          ~ replacement ++ (span ++ (before ++ after)) :=
            (List.perm_append_comm_assoc before span after).append_left replacement
        _ ~ span ++ (replacement ++ (before ++ after)) :=
            List.perm_append_comm_assoc replacement span (before ++ after)
        _ ~ span ++ (before ++ (replacement ++ after)) :=
            (List.perm_append_comm_assoc replacement before after).append_left span
    exact Usage.Counts.removeAll span (added.perm moved)

/-- A run of rewrites keeps the counts those of the program. -/
theorem counts_rewrites {rules : List Rule} {program next : List Instruction × Usage}
    (counts : program.2.Counts program.1) (run : ReflTransGen (Rewrite rules) program next) :
    next.2.Counts next.1 := by
  induction run with
  | refl => exact counts
  | tail _ rewrite inductionHypothesis => exact counts_rewrite inductionHypothesis rewrite

theorem counts_pass {code : List Instruction} {usage : Usage} (counts : usage.Counts code)
    (rules : List Rule) : (pass rules code usage).usage.Counts (pass rules code usage).code :=
  counts_rewrites counts (rewrites_pass rules code usage)

theorem counts_run (rules : List Rule) (limit : Nat) {code : List Instruction} {usage : Usage}
    (counts : usage.Counts code) :
    (run rules limit code usage).1.usage.Counts (run rules limit code usage).1.code :=
  counts_rewrites counts (rewrites_run rules limit code usage)

end ThreeAddress.Peephole
