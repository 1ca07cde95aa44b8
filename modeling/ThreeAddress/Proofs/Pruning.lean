/-
What one pass over a program can do when it removes unused variables. Each
instruction in turn is kept, or dropped, or closes an expression that is kept or
dropped as a whole; `PruneStep` lists the four possibilities with everything
that decides between them, and a pass is a run of such steps. What a pass
preserves is proved step by step from there: the counts stay those of the
program, and no instruction is lost without being counted as removed.
-/
import ThreeAddress.Proofs.Counting
import ThreeAddress.Unused.Variables

namespace ThreeAddress

theorem Halt.ok_of_leaving {α : Type} {code : List Instruction}
    {outcome : Except Inconsistency α} {result : α}
    (succeeded : Halt.leaving code outcome = .ok result) : outcome = .ok result := by
  cases outcome with
  | error cause => exact absurd succeeded (by simp [Halt.leaving])
  | ok found => exact congrArg Except.ok (Except.ok.inj succeeded)

theorem Halt.ok_of_surveying {code : List Instruction} {found : Usage × List Instruction}
    (succeeded : Halt.surveying code = .ok found) : Usage.survey code = .ok found := by
  unfold Halt.surveying at succeeded
  cases survey : Usage.survey code with
  | error cause =>
    rw [survey] at succeeded
    exact absurd succeeded (by simp)
  | ok result =>
    rw [survey] at succeeded
    exact congrArg Except.ok (Except.ok.inj succeeded)

theorem Halt.surveying_of_ok {code : List Instruction} {found : Usage × List Instruction}
    (survey : Usage.survey code = .ok found) : Halt.surveying code = .ok found := by
  rw [Halt.surveying, survey]

theorem Halt.surveying_of_error {code : List Instruction} {cause : Inconsistency}
    (survey : Usage.survey code = .error cause) :
    Halt.surveying code = .error ⟨cause, Survey.interrupted code⟩ := by
  rw [Halt.surveying, survey]

namespace Unused

open Relation

/-- Where a pass stands: what is left, what the next instruction takes over, the counts, what is
kept, last first, and how many instructions were removed. -/
structure Pruning where
  rest : List Instruction
  handed : Option Effects
  usage : Usage
  done : List Instruction
  removed : Nat

/-- The variable that receives the value of an expression. -/
def receiver? (i : Instruction) : Option Variable :=
  i.operands.head?.bind Operand.var?

/-- One step of a pass. -/
inductive PruneStep (kept : List Variable) : Pruning → Pruning → Prop
  /-- The instruction closes no expression and mentions no unused variable. -/
  | keep {i : Instruction} {now : Pruning} {rest : List Instruction} (next : now.rest = i :: rest)
    (plain : ¬ closesExpression (takeOver i now.handed))
    (alive : ¬ isDead now.usage kept (takeOver i now.handed)) :
    PruneStep kept now
      { now with rest, handed := none, done := takeOver i now.handed :: now.done }
  /-- The instruction closes no expression and mentions an unused variable. -/
  | drop {i : Instruction} {now : Pruning} {rest : List Instruction} (next : now.rest = i :: rest)
    (plain : ¬ closesExpression (takeOver i now.handed))
    (dead : isDead now.usage kept (takeOver i now.handed)) :
    PruneStep kept now
      { now with
        rest
        handed := handedOn (takeOver i now.handed)
        usage := now.usage.remove (takeOver i now.handed)
        removed := now.removed + 1 }
  /-- The instruction closes an expression whose value is used or which has effects. -/
  | keepExpression {i : Instruction} {now : Pruning} {rest : List Instruction}
    (next : now.rest = i :: rest) (closes : closesExpression (takeOver i now.handed))
    (needed : (receiver? (takeOver i now.handed)).any (isUnused now.usage) →
      ∃ count effects,
        expressionStart? (takeOver i now.handed :: now.done) = some (count, effects) ∧
          ¬ effects.isPure) :
    PruneStep kept now
      { now with rest, handed := none, done := takeOver i now.handed :: now.done }
  /-- The instruction closes an expression whose value is not used and which has no effects. -/
  | dropExpression {i : Instruction} {now : Pruning} {rest : List Instruction} {count : Nat}
    {effects : Effects} (next : now.rest = i :: rest)
    (closes : closesExpression (takeOver i now.handed))
    (unused : (receiver? (takeOver i now.handed)).any (isUnused now.usage))
    (start : expressionStart? (takeOver i now.handed :: now.done) = some (count, effects))
    (pure : effects.isPure) :
    PruneStep kept now
      { rest
        handed := none
        usage :=
          ((takeOver i now.handed :: now.done).take count).reverse.foldl Usage.remove now.usage
        done := (takeOver i now.handed :: now.done).drop count
        removed := now.removed + count }

/-- A pass that succeeds is a run of steps to the end of the program. -/
theorem exists_run_of_pruneFrom {kept : List Variable} {rest : List Instruction}
    {handed : Option Effects} {usage : Usage} {done : List Instruction} {removed : Nat}
    {edit : Edit} (pruned : pruneFrom kept rest handed usage done removed = .ok edit) :
    ∃ final : Pruning, final.rest = [] ∧
      edit = { code := final.done.reverse, usage := final.usage, changes := final.removed } ∧
      ReflTransGen (PruneStep kept) ⟨rest, handed, usage, done, removed⟩ final := by
  induction rest generalizing handed usage done removed with
  | nil =>
    unfold pruneFrom at pruned
    exact ⟨_, rfl, (Except.ok.inj pruned).symm, ReflTransGen.refl⟩
  | cons i rest inductionHypothesis =>
    unfold pruneFrom at pruned
    dsimp only at pruned
    split at pruned
    · next closes =>
      split at pruned
      · next unused =>
        cases start : expressionStart? (takeOver i handed :: done) with
        | none => rw [start] at pruned; exact absurd pruned (by simp)
        | some found =>
          obtain ⟨count, effects⟩ := found
          rw [start] at pruned
          dsimp only at pruned
          split at pruned
          · next pure =>
            obtain ⟨final, ended, result, run⟩ := inductionHypothesis pruned
            exact ⟨final, ended, result, run.head
              (PruneStep.dropExpression rfl closes unused start pure)⟩
          · next impure =>
            obtain ⟨final, ended, result, run⟩ := inductionHypothesis pruned
            exact ⟨final, ended, result, run.head
              (PruneStep.keepExpression rfl closes fun _ => ⟨count, effects, start, impure⟩)⟩
      · next used =>
        obtain ⟨final, ended, result, run⟩ := inductionHypothesis pruned
        exact ⟨final, ended, result, run.head
          (PruneStep.keepExpression rfl closes fun unused => absurd unused used)⟩
    · next plain =>
      split at pruned
      · next dead =>
        obtain ⟨final, ended, result, run⟩ := inductionHypothesis pruned
        exact ⟨final, ended, result, run.head (PruneStep.drop rfl plain dead)⟩
      · next alive =>
        obtain ⟨final, ended, result, run⟩ := inductionHypothesis pruned
        exact ⟨final, ended, result, run.head (PruneStep.keep rfl plain alive)⟩

/-! ### Counts and lengths -/

theorem alike_takeOver (i : Instruction) (handed : Option Effects) :
    Usage.CountedAlike i (takeOver i handed) := by
  cases handed <;> exact ⟨rfl, rfl, rfl, rfl⟩

theorem counts_takeOver {usage : Usage} {done rest : List Instruction} {i : Instruction}
    (handed : Option Effects) (counts : usage.Counts (done ++ i :: rest)) :
    usage.Counts (takeOver i handed :: (done ++ rest)) := by
  refine (counts.perm List.perm_middle).of_alike (List.Forall₂.cons (alike_takeOver i handed) ?_)
  exact List.forall₂_same.mpr fun i _ => Usage.CountedAlike.refl i

theorem expressionStart?_append {newer older : List Instruction} {first : Instruction}
    (plain : ∀ i ∈ newer, ¬ i.markers.expressionStart) (starts : first.markers.expressionStart) :
    expressionStart? (newer ++ first :: older) = some (newer.length + 1, first.effects) := by
  induction newer with
  | nil => rw [List.nil_append, expressionStart?, if_pos starts]; rfl
  | cons i newer inductionHypothesis =>
    obtain ⟨unmarked, plain⟩ := List.forall_mem_cons.mp plain
    rw [List.cons_append, expressionStart?, if_neg unmarked, inductionHypothesis plain]
    rfl

theorem expressionStart?_eq_none_iff {code : List Instruction} :
    expressionStart? code = none ↔ ∀ i ∈ code, ¬ i.markers.expressionStart := by
  induction code with
  | nil => simp [expressionStart?]
  | cons i rest inductionHypothesis =>
    rw [expressionStart?, List.forall_mem_cons, ← inductionHypothesis]
    by_cases marked : i.markers.expressionStart
    · rw [if_pos marked]
      exact iff_of_false (by simp) fun unmarked => unmarked.1 marked
    · rw [if_neg marked, Option.map_eq_none_iff]
      exact (and_iff_right marked).symm

/-- The start of an expression is the nearest instruction marked so. -/
theorem exists_split_of_expressionStart? {code : List Instruction} {count : Nat}
    {effects : Effects} (found : expressionStart? code = some (count, effects)) :
    ∃ newer start older, code = newer ++ start :: older ∧ count = newer.length + 1 ∧
      start.markers.expressionStart ∧ start.effects = effects ∧
      ∀ i ∈ newer, ¬ i.markers.expressionStart := by
  induction code generalizing count with
  | nil => exact absurd found (by simp [expressionStart?])
  | cons i rest inductionHypothesis =>
    unfold expressionStart? at found
    split at found
    · next marked =>
      obtain ⟨rfl, rfl⟩ := Prod.mk.inj (Option.some_inj.mp found)
      exact ⟨[], i, rest, rfl, rfl, marked, rfl, by simp⟩
    · next unmarked =>
      obtain ⟨⟨before, known⟩, later, same⟩ := Option.map_eq_some_iff.mp found
      obtain ⟨rfl, rfl⟩ := Prod.mk.inj same
      obtain ⟨newer, start, older, split, length, marked, known, plain⟩ :=
        inductionHypothesis later
      refine ⟨i :: newer, start, older, by rw [split]; rfl, by rw [length]; rfl, marked, known, ?_⟩
      exact List.forall_mem_cons.mpr ⟨unmarked, plain⟩

/-- The counts of a pass are those of what is kept and what is left. -/
def Pruning.Counted (now : Pruning) : Prop :=
  now.usage.Counts (now.done ++ now.rest)

theorem Pruning.Counted.step {kept : List Variable} {now later : Pruning} (counted : now.Counted)
    (step : PruneStep kept now later) : later.Counted := by
  unfold Counted at counted ⊢
  cases step with
  | keep next plain alive =>
    rw [next] at counted
    exact counts_takeOver _ counted
  | drop next plain dead =>
    rw [next] at counted
    exact (counts_takeOver _ counted).remove
  | keepExpression next closes needed =>
    rw [next] at counted
    exact counts_takeOver _ counted
  | @dropExpression i now rest count effects next closes unused start pure =>
    rw [next] at counted
    have whole := counts_takeOver now.handed counted
    rw [← List.cons_append, ← List.take_append_drop count (takeOver i now.handed :: now.done),
      List.append_assoc] at whole
    exact Usage.Counts.removeAll _ (whole.perm ((List.reverse_perm _).symm.append_right _))

theorem Pruning.Counted.run {kept : List Variable} {now later : Pruning} (counted : now.Counted)
    (run : ReflTransGen (PruneStep kept) now later) : later.Counted := by
  induction run with
  | refl => exact counted
  | tail _ step inductionHypothesis => exact inductionHypothesis.step step

/-- Each step is about the next instruction. -/
theorem PruneStep.exists_next {kept : List Variable} {now later : Pruning}
    (step : PruneStep kept now later) : ∃ i, now.rest = i :: later.rest := by
  cases step with
  | keep next plain alive => exact ⟨_, next⟩
  | drop next plain dead => exact ⟨_, next⟩
  | keepExpression next closes needed => exact ⟨_, next⟩
  | dropExpression next closes unused start pure => exact ⟨_, next⟩

/-- What a step keeps was kept before or is the next instruction, as it counts. -/
theorem PruneStep.exists_alike {kept : List Variable} {now later : Pruning} {i : Instruction}
    {rest : List Instruction} (step : PruneStep kept now later) (next : now.rest = i :: rest) :
    ∀ j ∈ later.done, j ∈ now.done ∨ Usage.CountedAlike i j := by
  have pushed : ∀ j ∈ takeOver i now.handed :: now.done, j ∈ now.done ∨ Usage.CountedAlike i j := by
    intro j member
    rcases List.mem_cons.mp member with rfl | old
    · exact Or.inr (alike_takeOver i now.handed)
    · exact Or.inl old
  cases step with
  | keep here plain alive =>
    obtain ⟨rfl, rfl⟩ := List.cons.inj (next.symm.trans here)
    exact pushed
  | drop here plain dead => exact fun j member => Or.inl member
  | keepExpression here closes needed =>
    obtain ⟨rfl, rfl⟩ := List.cons.inj (next.symm.trans here)
    exact pushed
  | dropExpression here closes unused start pure =>
    obtain ⟨rfl, rfl⟩ := List.cons.inj (next.symm.trans here)
    exact fun j member => pushed j (List.mem_of_mem_drop member)

theorem PruneStep.removed_le {kept : List Variable} {now later : Pruning}
    (step : PruneStep kept now later) : now.removed ≤ later.removed := by
  cases step with
  | keep next plain alive => exact Nat.le_refl _
  | drop next plain dead => exact Nat.le_succ _
  | keepExpression next closes needed => exact Nat.le_refl _
  | dropExpression next closes unused start pure => exact Nat.le_add_right _ _

theorem Pruning.removed_le_run {kept : List Variable} {now later : Pruning}
    (run : ReflTransGen (PruneStep kept) now later) : now.removed ≤ later.removed := by
  induction run with
  | refl => exact Nat.le_refl _
  | tail _ step inductionHypothesis => exact inductionHypothesis.trans step.removed_le

/-- How many instructions a pass has seen, kept or removed, or has still to see. -/
def Pruning.total (now : Pruning) : Nat :=
  now.done.length + now.rest.length + now.removed

theorem PruneStep.total_eq {kept : List Variable} {now later : Pruning}
    (step : PruneStep kept now later) : later.total = now.total := by
  cases step with
  | keep next plain alive => simp only [Pruning.total, next, List.length_cons]; omega
  | drop next plain dead => simp only [Pruning.total, next, List.length_cons]; omega
  | keepExpression next closes needed => simp only [Pruning.total, next, List.length_cons]; omega
  | @dropExpression i now rest count effects next closes unused start pure =>
    obtain ⟨newer, first, older, split, length, -⟩ := exists_split_of_expressionStart? start
    have whole := congrArg List.length split
    rw [List.length_cons, List.length_append, List.length_cons] at whole
    simp only [Pruning.total, next, List.length_drop, List.length_cons]
    omega

theorem Pruning.total_run {kept : List Variable} {now later : Pruning}
    (run : ReflTransGen (PruneStep kept) now later) : later.total = now.total := by
  induction run with
  | refl => rfl
  | tail _ step inductionHypothesis => exact step.total_eq.trans inductionHypothesis

/-! ### A whole pass -/

/-- A pass that succeeds surveys the program, finds the variables to keep, and runs through the
surveyed program. -/
theorem exists_run_of_prune {code : List Instruction} {edit : Edit}
    (pruned : prune code = .ok edit) :
    ∃ usage surveyed kept final, Usage.survey code = .ok (usage, surveyed) ∧
      keptVariables usage 0 surveyed none = .ok kept ∧ final.rest = [] ∧
      edit = { code := final.done.reverse, usage := final.usage, changes := final.removed } ∧
      ReflTransGen (PruneStep kept) ⟨surveyed, none, usage, [], 0⟩ final := by
  obtain ⟨⟨usage, surveyed⟩, survey, rest⟩ := exists_ok_of_bind pruned
  obtain ⟨kept, keeping, rest⟩ := exists_ok_of_bind rest
  obtain ⟨final, ended, result, run⟩ := exists_run_of_pruneFrom rest
  exact ⟨usage, surveyed, kept, final, Halt.ok_of_surveying survey, Halt.ok_of_leaving keeping,
    ended, result, run⟩

/-- A pass shortens the program by the number of changes that it reports. -/
theorem length_prune {code : List Instruction} {edit : Edit} (pruned : prune code = .ok edit) :
    edit.code.length + edit.changes = code.length := by
  obtain ⟨usage, surveyed, kept, final, survey, -, ended, rfl, run⟩ := exists_run_of_prune pruned
  have total := Pruning.total_run run
  have length := (Usage.alike_survey survey).length_eq
  simp only [Pruning.total, ended, List.length_nil, List.length_reverse] at total ⊢
  omega

/-- The programs that passes lead to. -/
def PrunesTo (code next : List Instruction) : Prop :=
  ∃ edit, prune code = .ok edit ∧ edit.code = next

/-- Passes go on until one changes nothing, which the number of passes allows for. -/
theorem exists_last_pass {passes : Nat} {edit result : Edit}
    (finished : pruneAll passes edit = .ok result) (enough : edit.code.length < passes) :
    ∃ last next, ReflTransGen PrunesTo edit.code last ∧ prune last = .ok next ∧
      next.changes = 0 ∧ result.code = next.code := by
  induction passes generalizing edit with
  | zero => exact absurd enough (Nat.not_lt_zero _)
  | succ passes inductionHypothesis =>
    obtain ⟨next, pruned, finished⟩ := exists_ok_of_bind finished
    split at finished
    · next unchanged =>
      obtain rfl := Except.ok.inj finished
      exact ⟨edit.code, next, ReflTransGen.refl, pruned, unchanged, rfl⟩
    · next changed =>
      have shorter := length_prune pruned
      obtain ⟨last, final, run, rest⟩ := inductionHypothesis finished (by dsimp only; omega)
      exact ⟨last, final, run.head ⟨next, pruned, rfl⟩, rest⟩

end Unused

end ThreeAddress
