/-
The removal of unused variables keeps the declarations that are still needed.
Which declarations stay is decided before a pass, from the counts at that
moment, while the pass itself lowers the counts. A variable whose last use goes
in the middle of a pass is safe all the same if its declaration stands outside
every expression and, should an expression store into it, ahead of its uses:
when the declaration is reached, nothing that counts for the variable has gone
yet.

`Standing` says where the declaration is at each moment of a pass. The order of
declaration and uses matters: a declaration that comes last can be lost while a
store into the variable stays.
-/
import ThreeAddress.Proofs.Expressions

namespace ThreeAddress.Unused

open Relation

/-! ### Variables that are given up -/

/-- Whether the instructions of a program are well formed and its expressions are bracketed. -/
structure Regular (code : List Instruction) : Prop where
  wellFormed : ∀ i ∈ code, i.WellFormed
  bracketed : Bracketed code

instance (code : List Instruction) : Decidable (Regular code) :=
  decidable_of_iff ((∀ i ∈ code, i.operands.length = i.opcode.arity) ∧ Bracketed code)
    ⟨fun ⟨wellFormed, bracketed⟩ => ⟨wellFormed, bracketed⟩,
      fun regular => ⟨regular.wellFormed, regular.bracketed⟩⟩

/-- A whole pass over a program, from its counts. -/
structure Pass (code : List Instruction) (usage : Usage) (kept : List Variable) (final : Pruning) :
    Prop extends Regular code where
  counts : usage.Counts code
  keeping : keptVariables usage 0 code none = .ok kept
  run : ReflTransGen (PruneStep kept) ⟨code, none, usage, [], 0⟩ final
  ended : final.rest = []

namespace Pass

variable {code : List Instruction} {usage : Usage} {kept : List Variable} {final : Pruning}
  {v : Variable}

theorem start (pass : Pass code usage kept final) : Passing code [] ⟨code, none, usage, [], 0⟩ where
  whole := rfl
  tracking := ⟨rfl, fun handed => absurd handed (by simp), by intro before i after; simp⟩
  counted := pass.counts
  alike := by simp

/-- At a store, the expression that it closes is the one that the variables to keep were found
with. -/
theorem belongs (pass : Pass code usage kept final) {seen : List Instruction} {now : Pruning}
    (passing : Passing code seen now) {i : Instruction} {rest : List Instruction}
    (next : now.rest = i :: rest) (closes : closesExpression i) :
    ∃ effects, opening (openAfter seen) i = some effects ∧
      ∀ v, receiver? i = some v → ¬ effects.isPure → usage.occurrences v = 0 → v ∈ kept := by
  have split : code = seen ++ i :: rest := by rw [← next, passing.whole]
  have whole : Bracketed ([] ++ code) := pass.bracketed
  exact mem_kept_of_stores whole pass.keeping split closes

/-- A variable that is not used and not kept at the beginning of a pass is not mentioned behind
it. -/
theorem not_mentioned (pass : Pass code usage kept final) (lasting : v.frame ≠ .tf)
    (unused : Usage.occurrencesIn code v = 0) (given : v ∉ kept) :
    ∀ j ∈ final.done, v ∉ j.vars := by
  have step : ∀ seen now later i, Passing code seen now → (∀ j ∈ now.done, v ∉ j.vars) →
      now.rest = i :: later.rest → PruneStep kept now later → ∀ j ∈ later.done, v ∉ j.vars := by
    intro seen now later i passing clear next step
    have unusedNow : isUnused now.usage v := by
      have zero : ∀ j ∈ now.done ++ now.rest, j.occurrencesOf v = 0 :=
        passing.forall_mem (fun i j alike zero => (alike.occurrencesOf v).symm.trans zero)
          (Usage.occurrencesIn_eq_zero_iff.mp unused)
      have none := (passing.counted.occurrences v).trans (Usage.occurrencesIn_eq_zero_iff.mpr zero)
      simp [isUnused, lasting, none]
    cases step with
    | keep here plain alive =>
      refine List.forall_mem_cons.mpr ⟨fun mentioned => alive ?_, clear⟩
      exact List.any_eq_true.mpr ⟨v, mentioned, by simp [unusedNow, given]⟩
    | drop here plain dead => exact clear
    | keepExpression here closes needed =>
      obtain ⟨rfl, -⟩ := List.cons.inj (next.symm.trans here)
      refine List.forall_mem_cons.mpr ⟨fun mentioned => given ?_, clear⟩
      have alike := alike_takeOver i now.handed
      have receives : receiver? (takeOver i now.handed) = some v := by
        rw [Instruction.vars, ← alike.operands] at mentioned
        have pops : i.opcode = .pops := by
          rw [closesExpression_of_alike alike, closesExpression, decide_eq_true_eq] at closes
          exact closes.1
        rw [receiver?_of_alike alike, ← Option.mem_toList,
          ← vars_eq_receiver? (pass.wellFormed i (passing.mem next)) (by rw [pops]; rfl)]
        exact mentioned
      obtain ⟨count, effects, start, impure⟩ := needed (by rw [receives]; exact unusedNow)
      rw [closesExpression_of_alike alike] at closes
      obtain ⟨known, opened, keeps⟩ := pass.belongs passing next closes
      obtain ⟨again, found⟩ :=
        passing.tracking.expressionStart (passing.placed pass.bracketed next) opened
      obtain ⟨-, rfl⟩ := Prod.mk.inj (Option.some_inj.mp (start.symm.trans found))
      rw [receiver?_of_alike alike] at receives
      exact keeps v receives impure ((pass.counts.occurrences v).trans unused)
    | dropExpression here closes unused start pure =>
      obtain ⟨newer, first, older, -, length, -⟩ := exists_split_of_expressionStart? start
      intro j member
      rw [length, List.drop_succ_cons] at member
      exact clear j (List.mem_of_mem_drop member)
  obtain ⟨-, -, clear⟩ := pass.start.run pass.bracketed (by simp) step pass.run
  exact clear

end Pass

/-! ### Where the declaration is -/

/-- Whether the declaration that stands behind a piece of a program is safe: outside of every
expression and, if an expression stores into the variable, ahead of everything that counts as a
use. -/
structure Shelters (code before : List Instruction) (d : Instruction) (v : Variable) : Prop where
  declares : Declares d v
  outside : ¬ d.markers.expressionStart
  closed : openAfter before = none
  ahead : (∃ i ∈ code, Stores i v) → ∀ j ∈ before, j.occurrencesOf v = 0

/-- Whether a program has a safe declaration of a variable. -/
def Sheltered (code : List Instruction) (v : Variable) : Prop :=
  ∃ before d after, code = before ++ d :: after ∧ Shelters code before d v

/-- Whether nothing in a program uses a variable or stores the value of an expression in it. -/
def Settled (code : List Instruction) (v : Variable) : Prop :=
  ∀ i ∈ code, i.occurrencesOf v = 0 ∧ ¬ Stores i v

theorem settled_alike {i j : Instruction} {v : Variable} (alike : Usage.CountedAlike i j)
    (settled : i.occurrencesOf v = 0 ∧ ¬ Stores i v) : j.occurrencesOf v = 0 ∧ ¬ Stores j v :=
  ⟨(alike.occurrencesOf v).symm.trans settled.1, fun stores =>
    settled.2 ((stores_of_alike alike).mp stores)⟩

/-- Where a declaration is during a pass: still ahead, or kept, or removed after the last use. -/
inductive Standing (code after : List Instruction) (d : Instruction) (v : Variable)
    (now : Pruning) : Prop
  | ahead (middle : List Instruction) (left : now.rest = middle ++ d :: after)
    (clear : (∃ i ∈ code, Stores i v) → ∀ j ∈ now.done ++ middle, j.occurrencesOf v = 0)
  | kept (recent old : List Instruction) (split : now.done = recent ++ d :: old)
    (closed : openAfter old.reverse = none)
    (clear : (∃ i ∈ code, Stores i v) → ∀ j ∈ old, j.occurrencesOf v = 0)
  | gone (removed : 0 < now.removed) (settled : Settled (now.done ++ now.rest) v)

namespace Pass

variable {code : List Instruction} {usage : Usage} {kept : List Variable} {final : Pruning}
  {v : Variable} {seen before after : List Instruction} {now later : Pruning}
  {i d : Instruction}

/-- A declaration that is dropped is not needed: no expression stores into the variable, and
nothing uses it any more. -/
theorem settled_of_dropped (shelters : Shelters code before d v)
    (split : code = before ++ d :: after)
    (needed : Usage.occurrencesIn code v = 0 → v ∈ kept) (passing : Passing code seen now)
    (left : now.rest = d :: after) (unused : now.usage.occurrences v = 0) (given : v ∉ kept) :
    Settled (now.done ++ after) v := by
  have zero : Usage.occurrencesIn (now.done ++ d :: after) v = 0 := by
    rw [← left, ← passing.counted.occurrences v, unused]
  rw [Usage.occurrencesIn_append] at zero
  have unstored : ¬ ∃ i ∈ code, Stores i v := by
    intro stored
    refine given (needed ?_)
    rw [split, Usage.occurrencesIn_append,
      Usage.occurrencesIn_eq_zero_iff.mpr (shelters.ahead stored)]
    omega
  have stays : ∀ j ∈ now.done ++ now.rest, ¬ Stores j v :=
    passing.forall_mem (fun i j alike unstored => unstored ∘ (stores_of_alike alike).mp)
      fun i inside stores => unstored ⟨i, inside, stores⟩
  rw [left] at stays
  refine fun j member => ⟨?_, stays j ?_⟩
  · refine Usage.occurrencesIn_eq_zero_iff.mp ?_ j member
    rw [Usage.occurrencesIn_cons] at zero
    rw [Usage.occurrencesIn_append]
    omega
  · rcases List.mem_append.mp member with old | rest
    · exact List.mem_append_left _ old
    · exact List.mem_append_right _ (List.mem_cons_of_mem _ rest)

/-- Passing the declaration itself. -/
theorem standing_at (pass : Pass code usage kept final) (shelters : Shelters code before d v)
    (split : code = before ++ d :: after)
    (needed : Usage.occurrencesIn code v = 0 → v ∈ kept) (passing : Passing code seen now)
    (left : now.rest = d :: after)
    (clear : (∃ i ∈ code, Stores i v) → ∀ j ∈ now.done, j.occurrencesOf v = 0)
    (step : PruneStep kept now later) : Standing code after d v later := by
  have same : seen = before := by
    have whole := passing.whole
    rw [left, split] at whole
    exact List.append_cancel_right whole
  have closed := shelters.closed
  rw [← same, ← passing.tracking.opened, Option.or_eq_none_iff] at closed
  have taken : takeOver d now.handed = d := by rw [closed.2]; rfl
  have plain : ¬ closesExpression d := by
    simp [closesExpression, shelters.declares.1]
  cases step with
  | keep here plain alive =>
    obtain ⟨rfl, rfl⟩ := List.cons.inj (left.symm.trans here)
    exact Standing.kept [] now.done (by rw [taken]; rfl) closed.1 clear
  | drop here plain dead =>
    obtain ⟨rfl, rfl⟩ := List.cons.inj (left.symm.trans here)
    have vars : d.vars = [v] := by
      rw [vars_eq_receiver? (pass.wellFormed d (passing.mem left))
        (by rw [shelters.declares.1]; rfl), shelters.declares.2]
      rfl
    rw [taken, isDead, vars, List.any_cons, List.any_nil, Bool.or_false, Bool.and_eq_true] at dead
    obtain ⟨unused, given⟩ := dead
    rw [isUnused, decide_eq_true_eq] at unused
    have settled := settled_of_dropped shelters split needed passing left unused.2
      (by simpa [shelters.declares.1] using given)
    exact Standing.gone (Nat.succ_pos _) settled
  | keepExpression here closes needed =>
    obtain ⟨rfl, rfl⟩ := List.cons.inj (left.symm.trans here)
    rw [taken] at closes
    exact absurd closes plain
  | dropExpression here closes unused start pure =>
    obtain ⟨rfl, rfl⟩ := List.cons.inj (left.symm.trans here)
    rw [taken] at closes
    exact absurd closes plain

/-- A kept declaration stays: no expression that is removed reaches back to it. -/
theorem standing_kept (pass : Pass code usage kept final) (shelters : Shelters code before d v)
    (passing : Passing code seen now) (next : now.rest = i :: later.rest)
    {recent old : List Instruction} (split : now.done = recent ++ d :: old)
    (closed : openAfter old.reverse = none)
    (clear : (∃ i ∈ code, Stores i v) → ∀ j ∈ old, j.occurrencesOf v = 0)
    (step : PruneStep kept now later) : Standing code after d v later := by
  cases step with
  | keep here plain alive =>
    exact Standing.kept (takeOver _ now.handed :: recent) old (by rw [split]; rfl) closed clear
  | drop here plain dead => exact Standing.kept recent old split closed clear
  | keepExpression here closes needed =>
    exact Standing.kept (takeOver _ now.handed :: recent) old (by rw [split]; rfl) closed clear
  | @dropExpression _ _ _ count _ here closes unused start pure =>
    obtain ⟨rfl, -⟩ := List.cons.inj (next.symm.trans here)
    rw [closesExpression_of_alike (alike_takeOver i now.handed)] at closes
    obtain ⟨effects, opened, -⟩ := pass.belongs passing next closes
    have behind : openAfter (d :: old).reverse = none := by
      rw [List.reverse_cons, openAfter_append_one, closed, openNext, opening,
        if_neg shelters.outside, ite_self]
    have reach := passing.tracking.count_le (passing.placed pass.bracketed next) opened split
      behind start
    refine Standing.kept ((takeOver i now.handed :: recent).drop count) old ?_ closed clear
    rw [← List.drop_append_of_le_length reach, List.cons_append, ← split]

theorem standing_step (pass : Pass code usage kept final) (shelters : Shelters code before d v)
    (split : code = before ++ d :: after)
    (needed : Usage.occurrencesIn code v = 0 → v ∈ kept) (passing : Passing code seen now)
    (standing : Standing code after d v now) (next : now.rest = i :: later.rest)
    (step : PruneStep kept now later) : Standing code after d v later := by
  have origin := step.exists_alike next
  cases standing with
  | ahead middle left clear =>
    cases middle with
    | nil =>
      rw [List.append_nil] at clear
      exact pass.standing_at shelters split needed passing left clear step
    | cons first middle =>
      obtain ⟨rfl, rest⟩ := List.cons.inj (next.symm.trans left)
      refine Standing.ahead middle rest fun stored j member => ?_
      have zero := clear stored
      rcases List.mem_append.mp member with done | behind
      · rcases origin j done with old | alike
        · exact zero j (List.mem_append_left _ old)
        · rw [← alike.occurrencesOf v]
          exact zero i (List.mem_append_right _ List.mem_cons_self)
      · exact zero j (List.mem_append_right _ (List.mem_cons_of_mem _ behind))
  | kept recent old kept closed clear =>
    exact pass.standing_kept shelters passing next kept closed clear step
  | gone removed settled =>
    refine Standing.gone (Nat.lt_of_lt_of_le removed step.removed_le) fun j member => ?_
    rw [next] at settled
    rcases List.mem_append.mp member with done | behind
    · rcases origin j done with old | alike
      · exact settled j (List.mem_append_left _ old)
      · exact settled_alike alike (settled i (List.mem_append_right _ List.mem_cons_self))
    · exact settled j (List.mem_append_right _ (List.mem_cons_of_mem _ behind))

/-- Behind a pass the variable has a safe declaration again, or it is not mentioned, or something
was removed and the variable is settled. -/
theorem sheltered (pass : Pass code usage kept final) (lasting : v.frame ≠ .tf)
    (sheltered : Sheltered code v) :
    Sheltered final.done.reverse v ∨ (∀ j ∈ final.done, v ∉ j.vars) ∨
      (0 < final.removed ∧ Settled final.done v) := by
  by_cases given : Usage.occurrencesIn code v = 0 ∧ v ∉ kept
  · exact Or.inr (Or.inl (pass.not_mentioned lasting given.1 given.2))
  · have needed : Usage.occurrencesIn code v = 0 → v ∈ kept := fun unused =>
      Classical.not_not.mp fun notKept => given ⟨unused, notKept⟩
    obtain ⟨before, d, after, split, shelters⟩ := sheltered
    have start : Standing code after d v ⟨code, none, usage, [], 0⟩ :=
      Standing.ahead before split shelters.ahead
    obtain ⟨seen, passing, standing⟩ := pass.start.run pass.bracketed start
      (fun _ _ _ _ passing standing next step =>
        pass.standing_step shelters split needed passing standing next step) pass.run
    cases standing with
    | ahead middle left clear =>
      rw [pass.ended] at left
      exact absurd left (by simp)
    | kept recent old found closed clear =>
      refine Or.inl ⟨old.reverse, d, recent.reverse, by rw [found]; simp, shelters.declares,
        shelters.outside, closed, fun stored j member => ?_⟩
      refine clear ?_ j (List.mem_reverse.mp member)
      obtain ⟨i, inside, stores⟩ := stored
      obtain ⟨origin, there, alike⟩ := passing.alike i (List.mem_reverse.mp inside)
      exact ⟨origin, there, (stores_of_alike alike).mp stores⟩
    | gone removed settled =>
      rw [pass.ended, List.append_nil] at settled
      exact Or.inr (Or.inr ⟨removed, settled⟩)

/-- Behind a pass over a program where a variable is settled, it is not mentioned. -/
theorem settled (pass : Pass code usage kept final) (lasting : v.frame ≠ .tf)
    (settled : Settled code v) : ∀ j ∈ final.done, v ∉ j.vars := by
  refine pass.not_mentioned lasting
    (Usage.occurrencesIn_eq_zero_iff.mpr fun i member => (settled i member).1) fun member => ?_
  obtain ⟨i, inside, stores⟩ := exists_stores_of_mem_kept pass.keeping member
  exact (settled i inside).2 stores

end Pass

theorem sheltered_remarked {code other : List Instruction} {v : Variable}
    (same : List.Forall₂ Remarked code other) (sheltered : Sheltered code v) :
    Sheltered other v := by
  obtain ⟨before, d, after, rfl, shelters⟩ := sheltered
  obtain ⟨front, e, back, rfl, fronts, found⟩ := exists_split_of_remarked (remarked_symm same)
  refine ⟨front, e, back, rfl, ⟨?_, ?_⟩, ?_, openAfter_eq_none (remarked_symm fronts)
    shelters.closed, fun stored j member => ?_⟩
  · rw [found.opcode]
    exact shelters.declares.1
  · rw [← receiver?_of_alike found.alike]
    exact shelters.declares.2
  · rw [found.markers]
    exact shelters.outside
  · obtain ⟨i, inside, stores⟩ := stored
    obtain ⟨origin, there, alike⟩ := exists_remarked_of_mem same inside
    obtain ⟨source, ahead, counted⟩ := exists_remarked_of_mem (remarked_symm fronts) member
    rw [← counted.alike.occurrencesOf v]
    exact shelters.ahead ⟨origin, there, (stores_of_alike alike.alike).mp stores⟩ source ahead

theorem settled_remarked {code other : List Instruction} {v : Variable}
    (same : List.Forall₂ Remarked code other) (settled : Settled code v) : Settled other v := by
  intro j member
  obtain ⟨i, inside, found⟩ := exists_remarked_of_mem same member
  exact settled_alike found.alike (settled i inside)

theorem regular_remarked {code other : List Instruction}
    (same : List.Forall₂ Remarked code other) (regular : Regular code) : Regular other where
  wellFormed := by
    intro j member
    obtain ⟨i, inside, found⟩ := exists_remarked_of_mem same member
    rw [Instruction.WellFormed, ← found.opcode, ← found.operands]
    exact regular.wellFormed i inside
  bracketed := bracketed_remarked same regular.bracketed

/-! ### From pass to pass -/

theorem exists_pass_of_prune {code : List Instruction} {edit : Edit} (regular : Regular code)
    (pruned : prune code = .ok edit) :
    ∃ surveyed usage kept final, List.Forall₂ Remarked code surveyed ∧
      Pass surveyed usage kept final ∧ edit.code = final.done.reverse ∧
      edit.changes = final.removed := by
  obtain ⟨usage, surveyed, kept, final, survey, keeping, ended, rfl, run⟩ :=
    exists_run_of_prune pruned
  have same := remarked_survey survey
  exact ⟨surveyed, usage, kept, final, same,
    ⟨regular_remarked same regular, (Usage.counts_survey survey).2, keeping, run, ended⟩, rfl, rfl⟩

theorem Pass.regular {code : List Instruction} {usage : Usage} {kept : List Variable}
    {final : Pruning} (pass : Pass code usage kept final) : Regular final.done.reverse := by
  obtain ⟨seen, passing, -⟩ := @Passing.run _ _ (fun _ _ => True) _ _ pass.start pass.bracketed
    trivial (fun _ _ _ _ _ _ _ _ => trivial) pass.run
  refine ⟨fun j member => ?_, passing.tracking.bracketed⟩
  obtain ⟨i, inside, alike⟩ := passing.alike j (List.mem_reverse.mp member)
  rw [Instruction.WellFormed, ← alike.opcode, ← alike.operands]
  exact pass.wellFormed i inside

theorem regular_prune {code : List Instruction} {edit : Edit} (regular : Regular code)
    (pruned : prune code = .ok edit) : Regular edit.code := by
  obtain ⟨surveyed, usage, kept, final, -, pass, result, -⟩ := exists_pass_of_prune regular pruned
  rw [result]
  exact pass.regular

/-- What is not mentioned is not used. -/
theorem settled_of_not_mentioned {code : List Instruction} {v : Variable}
    (absent : ∀ i ∈ code, v ∉ i.vars) : Settled code v := by
  refine fun i member => ⟨?_, fun stores => absent i member ?_⟩
  · refine List.countP_eq_zero.mpr fun slot counted => ?_
    have mentioned := i.mem_vars_of_mem_countedSlots counted
    rw [decide_eq_true_eq]
    rintro rfl
    exact absent i member mentioned
  · obtain ⟨operand, first, isVar⟩ := Option.bind_eq_some_iff.mp stores.2
    exact List.mem_filterMap.mpr ⟨operand, List.mem_of_head? first, isVar⟩

/-- One pass: a variable that has a safe declaration or is settled has a safe declaration behind
it or is not mentioned, or the pass has removed something and the variable is settled. -/
theorem prune_safe {code : List Instruction} {edit : Edit} {v : Variable} (regular : Regular code)
    (lasting : v.frame ≠ .tf) (safe : Sheltered code v ∨ Settled code v)
    (pruned : prune code = .ok edit) :
    Sheltered edit.code v ∨ (∀ j ∈ edit.code, v ∉ j.vars) ∨
      (0 < edit.changes ∧ Settled edit.code v) := by
  obtain ⟨surveyed, usage, kept, final, same, pass, result, changes⟩ :=
    exists_pass_of_prune regular pruned
  simp only [result, changes, Settled, List.mem_reverse]
  rcases safe with sheltered | settled
  · exact pass.sheltered lasting (sheltered_remarked same sheltered)
  · exact Or.inr (Or.inl (pass.settled lasting (settled_remarked same settled)))

/-- Passes preserve that a variable has a safe declaration or is settled. -/
theorem safe_run {code last : List Instruction} {v : Variable} (regular : Regular code)
    (lasting : v.frame ≠ .tf) (safe : Sheltered code v ∨ Settled code v)
    (run : ReflTransGen PrunesTo code last) :
    Regular last ∧ (Sheltered last v ∨ Settled last v) := by
  induction run with
  | refl => exact ⟨regular, safe⟩
  | tail _ pass inductionHypothesis =>
    obtain ⟨edit, pruned, rfl⟩ := pass
    refine ⟨regular_prune inductionHypothesis.1 pruned, ?_⟩
    rcases prune_safe inductionHypothesis.1 lasting inductionHypothesis.2 pruned with
      sheltered | absent | ⟨-, settled⟩
    · exact Or.inl sheltered
    · exact Or.inr (settled_of_not_mentioned absent)
    · exact Or.inr settled

/-- The removal of unused variables keeps a declaration of every variable that is still mentioned
and had a safe declaration: one outside of every expression and, if an expression stores into the
variable, ahead of everything that counts as a use of it. -/
theorem mentioned_stays_declared {code : List Instruction} {edit : Edit} {v : Variable}
    (regular : Regular code) (lasting : v.frame ≠ .tf) (sheltered : Sheltered code v)
    (removed : removeVariables code = .ok edit) (mentioned : ∃ i ∈ edit.code, v ∈ i.vars) :
    ∃ d ∈ edit.code, Declares d v := by
  obtain ⟨last, next, run, pruned, unchanged, result⟩ :=
    exists_last_pass removed (Nat.lt_succ_self _)
  have safe := safe_run regular lasting (Or.inl sheltered) run
  rcases prune_safe safe.1 lasting safe.2 pruned with safe | absent | ⟨changed, -⟩
  · obtain ⟨before, d, after, split, shelters⟩ := safe
    rw [result, split]
    exact ⟨d, List.mem_append_right _ List.mem_cons_self, shelters.declares⟩
  · obtain ⟨i, member, inside⟩ := mentioned
    rw [result] at member
    exact absurd inside (absent i member)
  · exact absurd unchanged (Nat.ne_of_gt changed)

/-- The declaration of `LF@x`. -/
def declarationOfX : Instruction :=
  { opcode := .defvar, operands := [.var ⟨.lf, "x"⟩] }

/-- Stores into `LF@x` behind an expression that writes; before that, `LF@x` is used once, for a
variable that nothing uses. -/
def usedOnceThenStored : List Instruction :=
  [{ opcode := .defvar, operands := [.var ⟨.lf, "a"⟩] },
   { opcode := .move, operands := [.var ⟨.lf, "a"⟩, .var ⟨.lf, "x"⟩] },
   { opcode := .write, operands := [.const (.int 1)], markers := { expressionStart := true } },
   { opcode := .pops, operands := [.var ⟨.lf, "x"⟩], markers := { expressionEnd := true } }]

/-- With the declaration ahead of the use, the use goes and the declaration stays. -/
theorem declaration_kept_ahead_of_use :
    ∃ edit, removeVariables (declarationOfX :: usedOnceThenStored) = .ok edit ∧
      edit.code.map Instruction.opcode = [.defvar, .write, .pops] ∧
      ∃ d ∈ edit.code, Declares d ⟨.lf, "x"⟩ := by
  have regular : Regular (declarationOfX :: usedOnceThenStored) := by decide
  have sheltered : Sheltered (declarationOfX :: usedOnceThenStored) ⟨.lf, "x"⟩ :=
    ⟨[], declarationOfX, usedOnceThenStored, rfl, ⟨rfl, rfl⟩, by decide, rfl, by simp⟩
  exact ⟨_, rfl, rfl, mentioned_stays_declared regular (by decide) sheltered rfl (by decide)⟩

/-- With the declaration behind the use, both go, although the store stays: the variable counted
as used when the declarations to keep were chosen. -/
theorem declaration_lost_behind_use :
    Regular (usedOnceThenStored ++ [declarationOfX]) ∧
      (∀ i ∈ usedOnceThenStored ++ [declarationOfX], ∀ v ∈ i.vars,
        ∃ d ∈ usedOnceThenStored ++ [declarationOfX], Declares d v) ∧
      ∃ edit, removeVariables (usedOnceThenStored ++ [declarationOfX]) = .ok edit ∧
        (∃ i ∈ edit.code, ⟨.lf, "x"⟩ ∈ i.vars) ∧ ¬ ∃ d ∈ edit.code, Declares d ⟨.lf, "x"⟩ :=
  ⟨by decide, by decide, _, rfl, by decide, by decide⟩

end ThreeAddress.Unused
