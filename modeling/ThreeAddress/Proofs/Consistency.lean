/-
Dead-code removal keeps programs consistent. A program is consistent if it can
be surveyed, if its control-flow graph can be built, if each stored value of an
expression has a start of its own, and if each marked start of a function has an
end of its own. A removal may destroy this: a function that is not called may
contain a label that is jumped to, a store that goes may be the marked end of a
function, and so on. If the parts that go are well placed, none of this happens:
the removal succeeds, and what is left is consistent again.

Functions go one by one, but only what is left of the program when all of them
are gone matters: it is what is not deserted. From then on `Prunable` is the
invariant, up to a pass that removes nothing. Nothing that is sure to go is left
then, so every jump that is left is one that leads to a label that stays.
-/
import ThreeAddress.Proofs.Exhaustion
import ThreeAddress.Proofs.JumpTargets
import ThreeAddress.Proofs.Leftovers
import ThreeAddress.Proofs.PassCounts
import ThreeAddress.Proofs.UnusedFunctions

namespace ThreeAddress

/-! ### Consistent programs -/

/-- Whether passes can work on a program. -/
structure Consistent (code : List Instruction) : Prop where
  surveyed : (Usage.survey code).isOk
  built : (Flow.build code).isOk
  opened : Opened code
  ended : Ended code

instance (code : List Instruction) : Decidable (Consistent code) :=
  decidable_of_iff ((Usage.survey code).isOk ∧ (Flow.build code).isOk ∧ Opened code ∧ Ended code)
    ⟨fun ⟨surveyed, built, opened, ended⟩ => ⟨surveyed, built, opened, ended⟩,
      fun ⟨surveyed, built, opened, ended⟩ => ⟨surveyed, built, opened, ended⟩⟩

/-! ### Functions -/

/-- Whether functions that go are gone from a program, and those that go of the rest are the
others. -/
structure Cleared (whole rest : List Instruction) (former : Nat → Nat) : Prop extends
    Excerpt whole rest former Nowhere where
  ended : Ended rest
  went : ∀ k, Gone former k → Deserted whole k
  others : Deserted rest = Deserted whole ∘ former

theorem Cleared.trans {whole middle rest : List Instruction} {former later : Nat → Nat}
    (first : Cleared whole middle former) (second : Cleared middle rest later) :
    Cleared whole rest (former ∘ later) where
  toExcerpt := first.toExcerpt.trans second.toExcerpt
  ended := second.ended
  went k gone := by
    by_cases early : Gone former k
    · exact first.went k early
    · obtain ⟨l, rfl⟩ := Excerpt.exists_former early
      have late := second.went l fun place same => gone place (congrArg former same)
      rwa [first.others] at late
  others := by
    rw [second.others, first.others]
    rfl

/-- A function that is not called can go, and others go from the rest of the program as before. -/
theorem cleared_of_uncalled {whole rest : List Instruction} {former : Nat → Nat} {start stop : Nat}
    {label : String} (excerpt : Excerpt whole rest former Nowhere) (ended : Ended whole)
    (function : IsFunction whole start stop) (named : At (·.definedLabel? = some label) whole start)
    (uncalled : ∀ site, ¬ At (Usage.calledFunction? · = some label) whole site)
    (gone : ∀ k, Gone former k ↔ start ≤ k ∧ k ≤ stop) : Cleared whole rest former := by
  -- functions do not overlap, so any other one is outside of what is gone
  have entire : ∀ first last, IsFunction whole first last → ∀ k, first ≤ k → k ≤ last →
      Gone former k → ∀ j, first ≤ j → j ≤ last → Gone former j := by
    intro first last other k lower upper absent j above below
    obtain ⟨front, back⟩ := (gone k).mp absent
    obtain rfl := other.eq_first ended function lower upper front back
    obtain rfl := other.eq_last function
    exact (gone j).mpr ⟨above, below⟩
  have ends : ∀ first last, IsFunction whole first last → Gone former last → Gone former first :=
    fun first last other absent =>
      entire first last other last other.ordered le_rfl absent first le_rfl other.ordered
  have went : ∀ k, Gone former k → Deserted whole k := fun k absent =>
    closedUnderCalls_deserted _ _ label function named (fun site calls =>
      absurd calls (uncalled site)) k ((gone k).mp absent).1 ((gone k).mp absent).2
  exact ⟨excerpt, excerpt.ended_rest ends ended, went,
    deserted_comp excerpt ends ended (fun first last other absent =>
      entire first last other first le_rfl other.ordered absent) went⟩

namespace Unused

open Relation

theorem isFunction_region (before after : List Instruction) (r : Region) :
    IsFunction (before ++ ((Part.region r).code ++ after)) before.length
      (before.length + r.body.length) := by
  obtain ⟨inner, last, whole, closes, inside⟩ := r.ends
  have length : inner.length = r.body.length := by simpa using (congrArg List.length whole).symm
  have marked := (Usage.startedFunction?_eq_some.mp r.starts).1
  refine ⟨(at_append_right 0).mpr marked, Nat.le_add_right _ _, ?_, fun k less le found => ?_⟩
  · rw [at_append_right, Part.code, whole, ← length]
    simp [At, closes]
  · obtain ⟨further, rfl⟩ := Nat.exists_eq_add_of_le le
    rw [at_append_right, Part.code, whole, List.append_assoc] at found
    obtain ⟨i, there, ends⟩ := at_iff.mp found
    rw [List.getElem?_append_left (by omega)] at there
    exact inside i (List.mem_of_getElem? there) ends

theorem exists_cleared_of_drop {parts left : List Part} (drop : Drop parts left)
    (ended : Ended (assemble parts)) :
    ∃ former, Cleared (assemble parts) (assemble left) former := by
  obtain @⟨before, after, r, uncalled⟩ := drop
  rw [assemble_append, assemble_cons] at uncalled ended ⊢
  rw [assemble_append]
  have named : At (·.definedLabel? = some r.label)
      (assemble before ++ ((Part.region r).code ++ assemble after)) (assemble before).length :=
    (at_append_right 0).mpr (decide_eq_true (Usage.startedFunction?_eq_some.mp r.starts).2)
  refine ⟨_, cleared_of_uncalled (excerpt_stretch _ _ (List.cons_ne_nil r.start r.body)) ended
    (isFunction_region (assemble before) (assemble after) r) named (fun site calls => ?_)
    fun k => ?_⟩
  · obtain ⟨i, there, called⟩ := at_iff.mp calls
    have counted : 0 < Usage.callsIn _ r.label :=
      List.countP_pos_iff.mpr ⟨i, List.mem_of_getElem? there, called⟩
    exact absurd uncalled counted.ne'
  · rw [gone_shifted_iff, Part.code, List.length_cons]
    omega

theorem exists_cleared_of_drops {parts left : List Part} (drops : ReflTransGen Drop parts left)
    (ended : Ended (assemble parts)) :
    ∃ former, Cleared (assemble parts) (assemble left) former := by
  induction drops with
  | refl =>
    exact ⟨id, Excerpt.refl _, ended, fun k gone => absurd rfl (gone k), rfl⟩
  | tail _ drop inductionHypothesis =>
    obtain ⟨former, cleared⟩ := inductionHypothesis
    obtain ⟨later, further⟩ := exists_cleared_of_drop drop cleared.ended
    exact ⟨former ∘ later, cleared.trans further⟩

/-- If all functions of a program are called, none goes. -/
theorem not_deserted_of_called {parts : List Part}
    (called : ∀ part ∈ parts, part.isCalled (assemble parts)) (k : Nat) :
    ¬ Deserted (assemble parts) k := by
  refine fun deserted => deserted Nowhere fun first last label function named goes _ _ _ => ?_
  obtain ⟨i, there, marked⟩ := at_iff.mp function.starts
  rw [at_of_getElem? there, decide_eq_true_eq] at named
  obtain ⟨r, present, rfl⟩ := exists_region_of_started (List.mem_of_getElem? there)
    (Usage.startedFunction?_eq_some.mpr ⟨marked, named⟩)
  obtain ⟨j, member, calls⟩ := List.countP_pos_iff.mp (of_decide_eq_true (called _ present))
  obtain ⟨site, here⟩ := List.mem_iff_getElem?.mp member
  exact goes site (at_iff.mpr ⟨j, here, calls⟩)

/-- The removal of functions takes exactly those that go. -/
theorem exists_removeFunctions {code : List Instruction} (surveyed : (Usage.survey code).isOk)
    (ended : Ended code) : ∃ edit former, removeFunctions code = .ok edit ∧
      Excerpt code edit.code former Nowhere ∧ ∀ k, Gone former k ↔ Deserted code k := by
  obtain ⟨⟨usage, marked⟩, survey⟩ := exists_ok_of_isOk surveyed
  obtain ⟨parts, rfl⟩ := exists_parts ended (isOk_survey_iff.mp surveyed)
  obtain ⟨left, edit, final, removed, swept, called, follows⟩ :=
    exists_swept_of_removeFunctions survey
  obtain ⟨former, cleared⟩ := exists_cleared_of_drops swept.drops ended
  rw [swept.code] at follows
  refine ⟨_, former ∘ id, removed, cleared.toExcerpt.trans (excerpt_of_remarked follows),
    fun k => ⟨cleared.went k, fun deserted place same => ?_⟩⟩
  have others := cleared.others
  subst same
  exact not_deserted_of_called called place (by rw [others]; exact deserted)

end Unused

/-- When functions are gone, unused variables can go. -/
theorem Consistent.exists_prunable {code : List Instruction} (consistent : Consistent code)
    (placed : WellPlaced code) : ∃ edit, Unused.removeFunctions code = .ok edit ∧
      Prunable edit.code fun v => ¬ Retained code (Deserted code) v := by
  obtain ⟨edit, former, removed, excerpt, gone⟩ :=
    Unused.exists_removeFunctions consistent.surveyed consistent.ended
  have removal : Removal (Deserted code) code edit.code former Nowhere := by
    refine ⟨excerpt, ⟨fun first last function absent => ?_,
      fun first last expression absent stays => ?_⟩, consistent.opened, consistent.ended,
      fun first last _ stays absent => ?_, fun first last _ _ k _ _ absent stays => ?_⟩
    · rw [gone] at absent ⊢
      exact absent.function consistent.ended function function.ordered le_rfl first le_rfl
        function.ordered
    · rw [gone] at absent stays
      exact absurd (placed.starts first last expression absent) stays
    · exact absurd ((gone last).mp absent) stays
    · exact absurd ((gone k).mp absent) stays
  refine ⟨edit, removed, removal.prunable (isOk_survey.mp consistent.surveyed) placed.toSecure
    (fun v kept => not_not.mp kept) (fun k _ absent => ?_)
    (funext fun k => eq_false fun left => ?_)⟩
  · exact closedUnderRemoval_goes.functions k ((gone k).mp absent)
  · exact Excerpt.not_gone_former k ((gone _).mpr left)

/-! ### Unused variables -/

theorem Effects.isPure_of_union {a b : Effects} (pure : (a.union b).isPure) :
    a.isPure ∧ b.isPure := by
  rw [eq_none_of_isPure pure (contains_union_left a b),
    eq_none_of_isPure pure (contains_union_right a b)]
  exact ⟨rfl, rfl⟩

namespace Unused

theorem Idle.spent {code : List Instruction} {v : Variable} (idle : Idle code v)
    (gone : Nat → Prop) : Spent code gone v := by
  refine ⟨idle.lasting, fun k occurs => ?_⟩
  obtain ⟨i, there, counted⟩ := at_iff.mp occurs
  rw [Usage.occurrencesIn_eq_zero_iff.mp idle.unused i (List.mem_of_getElem? there)] at counted
  exact absurd counted (by simp)

/-- Only stores and declarations mention a variable without counting it. -/
theorem isLoose_of_idle {i : Instruction} {v : Variable} (plain : ¬ closesExpression i)
    (mentions : v ∈ i.vars) (unused : i.occurrencesOf v = 0) : i.isLoose := by
  by_contra firm
  rw [Instruction.isLoose, decide_eq_true_eq, not_or] at firm
  rw [closesExpression, decide_eq_true_eq] at plain
  have occurs := Instruction.occurs_of_mem_vars firm.2 plain firm.1 mentions
  omega

/-- Whatever takes over effects has them on record. -/
theorem isPure_of_handOver {before after : List Instruction} {handed : Option Effects} {k : Nat}
    (pure : At (·.effects.isPure) (before ++ handOver handed after) k) :
    At (·.effects.isPure) (before ++ after) k ∧
      (k = before.length → ∀ effects, handed = some effects → effects.isPure) := by
  rcases Nat.lt_or_ge k before.length with early | late
  · rw [at_append early] at pure ⊢
    exact ⟨pure, fun same => absurd same early.ne⟩
  · obtain ⟨further, rfl⟩ := Nat.exists_eq_add_of_le late
    rw [at_append_right] at pure ⊢
    cases after with
    | nil => exact absurd pure.lt_length (Nat.not_lt_zero _)
    | cons i rest =>
      cases further with
      | succ further => exact ⟨pure, fun same => by omega⟩
      | zero =>
        have union : (takeOver i handed).effects.isPure := pure
        cases handed with
        | none => exact ⟨union, fun _ _ impossible => by simp at impossible⟩
        | some effects =>
          obtain ⟨own, other⟩ := Effects.isPure_of_union union
          exact ⟨own, fun _ _ same => Option.some_inj.mp same ▸ other⟩

/-- An instruction goes on its own. -/
theorem underway_alone {before after : List Instruction} {i : Instruction} {v : Variable}
    {freed : Variable → Prop} (underway : Underway (before ++ i :: after) freed)
    (plain : ¬ closesExpression i) (mentions : v ∈ i.vars) (idle : Idle (before ++ i :: after) v)
    (declared : i.opcode = .defvar → freed v) :
    Underway (before ++ handOver (handedOn i) after) freed := by
  have here : (before ++ i :: after)[before.length]? = some i := by simp
  have gone : ∀ k, Gone (shifted before.length [i].length) k ↔ k = before.length := by
    intro k
    rw [gone_shifted_iff, List.length_singleton]
    omega
  have loose := isLoose_of_idle plain mentions
    (Usage.occurrencesIn_eq_zero_iff.mp idle.unused i (by simp))
  have fades : Fades (before ++ i :: after) Nowhere
      (Goes (before ++ i :: after) Nowhere freed) freed before.length := by
    refine ⟨not_false, v, (at_of_getElem? here).mpr (decide_eq_true ⟨loose, mentions⟩),
      idle.spent _, fun defines => declared ?_⟩
    rwa [at_of_getElem? here, decide_eq_true_eq] at defines
  have handed : (handedOn i).isSome ↔ i.markers.expressionStart ∧ ¬ i.markers.expressionEnd := by
    simp [handedOn]
  have excerpt := @excerpt_handOver before [i] after (handedOn i) (by simp) fun taken =>
    (at_of_getElem? here).mpr (handed.mp taken).1
  have removal := underway.removal_of_fades fades (mt (at_of_getElem? here).mp plain) excerpt gone
    fun starts goesOn further => by
      rw [at_of_getElem? here] at starts goesOn
      refine ⟨before.length, ⟨rfl, handed.mpr ⟨starts, goesOn⟩, ?_⟩, if_neg (Nat.lt_irrefl _)⟩
      rintro rfl
      exact absurd further (by simp)
  refine underway.of_removal removal (fun k _ absent => ?_) (fun k pure => ?_)
    fun k start taken vacated pure => ?_
  · obtain rfl := (gone k).mp absent
    exact closedUnderRemoval_goes.alone _ fades
  · exact (@at_shifted _ before [i] after k).mp (isPure_of_handOver pure).1
  · obtain ⟨rfl, some, -⟩ := taken
    obtain rfl := (gone start).mp (vacated.2 start le_rfl vacated.1)
    refine (at_of_getElem? here).mpr ((isPure_of_handOver pure).2 rfl i.effects ?_)
    simpa [handedOn] using handed.mp some

/-- The start that a pass finds is that of the expression. -/
theorem exists_isExpression_of_start {done after : List Instruction} {store : Instruction}
    {count : Nat} {effects : Effects} (closes : closesExpression store)
    (start : expressionStart? (store :: done) = some (count, effects)) :
    ∃ first, first + count = done.length + 1 ∧
      IsExpression (done.reverse ++ store :: after) first done.length ∧
      (At (·.effects.isPure) (done.reverse ++ store :: after) first ↔ effects.isPure) := by
  obtain ⟨newer, head, older, split, rfl, marked, rfl, plain⟩ :=
    exists_split_of_expressionStart? start
  have lengths := congrArg List.length split
  rw [List.length_cons, List.length_append, List.length_cons] at lengths
  have pieces : done.reverse ++ store :: after =
      older.reverse ++ head :: (newer.reverse ++ after) := by
    rw [List.append_cons, ← List.reverse_cons, split]
    simp
  have behind : ∀ test k, At test (done.reverse ++ store :: after) (older.length + k) ↔
      At test (head :: (newer.reverse ++ after)) k := by
    intro test k
    rw [pieces, ← List.length_reverse, at_append_right]
  have last : At closesExpression (done.reverse ++ store :: after) done.length := by
    rw [← List.length_reverse]
    exact (at_append_right 0).mpr closes
  refine ⟨older.length, by omega, ⟨(behind _ 0).mpr marked, by omega, last,
    fun k le more found => ?_⟩, behind _ 0⟩
  obtain ⟨further, rfl⟩ := Nat.exists_eq_add_of_lt more
  rw [Nat.add_assoc, behind] at found
  obtain ⟨j, there, starts⟩ := at_iff.mp found
  rw [List.getElem?_cons_succ, List.getElem?_append_left (by rw [List.length_reverse]; omega)]
    at there
  exact plain j (List.mem_reverse.mp (List.mem_of_getElem? there)) starts

/-- An expression goes as a whole. -/
theorem underway_expression {now : Pruning} {i : Instruction} {rest : List Instruction}
    {count : Nat} {effects : Effects} {v : Variable} {freed : Variable → Prop}
    (underway : Underway now.text freed) (next : now.rest = i :: rest)
    (closes : closesExpression (takeOver i now.handed))
    (receives : receiver? (takeOver i now.handed) = some v) (idle : Idle now.text v)
    (start : expressionStart? (takeOver i now.handed :: now.done) = some (count, effects))
    (pure : effects.isPure) :
    Underway (((takeOver i now.handed :: now.done).drop count).reverse ++ rest) freed := by
  have text : now.text = now.done.reverse ++ takeOver i now.handed :: rest := by
    rw [Pruning.text, next]
    rfl
  obtain ⟨first, place, expression, recorded⟩ :=
    @exists_isExpression_of_start _ rest _ _ _ closes start
  rw [← text] at expression recorded
  have lapses : Lapses now.text Nowhere (Goes now.text Nowhere freed) first now.done.length := by
    refine ⟨expression, not_false, ⟨v, ?_, idle.spent _⟩, fun acts =>
      underway.honest _ _ expression (recorded.mpr pure) (acts.mono fun _ none => none.elim)⟩
    rw [text, ← List.length_reverse]
    exact (at_append_right 0).mpr (decide_eq_true receives)
  obtain ⟨size, rfl, length, pieces⟩ := Pruning.exists_pieces next start
  rw [List.drop_succ_cons]
  have excerpt := @excerpt_stretch (now.done.drop size).reverse rest
    ((now.done.take size).reverse ++ [takeOver i now.handed]) (by simp)
  rw [List.append_assoc, List.singleton_append, ← pieces] at excerpt
  have gone : ∀ k, Gone (shifted (now.done.drop size).reverse.length
      ((now.done.take size).reverse ++ [takeOver i now.handed]).length) k ↔
      first ≤ k ∧ k ≤ now.done.length := by
    intro k
    rw [gone_shifted_iff, List.length_reverse, List.length_drop, List.length_append,
      List.length_reverse, length, List.length_singleton]
    omega
  have removal := underway.removal_of_lapses lapses excerpt gone
  refine underway.of_removal removal (fun k _ absent => ?_) (fun k pure => ?_)
    fun k start impossible => impossible.elim
  · exact closedUnderRemoval_goes.expressions _ _ lapses k ((gone k).mp absent).1
      ((gone k).mp absent).2
  · rw [pieces, ← List.singleton_append, ← List.append_assoc _ [_] rest]
    exact (at_shifted k).mp pure

/-- A step of a pass. -/
theorem underway_of_step {kept : List Variable} {freed : Variable → Prop} {now later : Pruning}
    (counted : now.Counted) (keeps : ∀ v, ¬ freed v → v ∈ kept) (underway : Underway now.text freed)
    (step : PruneStep kept now later) : Underway later.text freed := by
  cases step with
  | keep next plain alive =>
    rw [text_keep next]
    exact underway
  | keepExpression next closes needed =>
    rw [text_keep next]
    exact underway
  | @drop i now rest next plain dead =>
    obtain ⟨v, mentions, reason⟩ := List.any_eq_true.mp dead
    rw [Bool.and_eq_true] at reason
    have idle := idle_of_isUnused counted reason.1
    unfold Pruning.text at underway idle ⊢
    rw [next] at underway idle
    refine underway_alone underway plain mentions idle fun defines => ?_
    by_contra retained
    have member := keeps v retained
    exact absurd reason.2 (by simp [defines, member])
  | dropExpression next closes unused start pure =>
    obtain ⟨v, receives, unused⟩ := (Option.any_eq_true _ _).mp unused
    rw [Pruning.text, handOver_none]
    exact underway_expression underway next closes receives (idle_of_isUnused counted unused) start
      pure

/-- A pass finds the start of every expression whose value is stored. -/
theorem exists_start_of_opened {done rest : List Instruction} {store : Instruction}
    (opened : Opened (done.reverse ++ store :: rest)) (closes : closesExpression store) :
    ∃ count effects, expressionStart? (store :: done) = some (count, effects) := by
  cases start : expressionStart? (store :: done) with
  | some found => exact ⟨found.1, found.2, rfl⟩
  | none =>
    obtain ⟨first, le, marked, -⟩ := opened done.reverse.length
      (at_iff.mpr ⟨store, by simp, closes⟩)
    obtain ⟨j, there, starts⟩ := at_iff.mp marked
    rw [List.append_cons, List.getElem?_append_left (by simpa using Nat.lt_succ_of_le le)] at there
    refine absurd starts (expressionStart?_eq_none_iff.mp start j ?_)
    simpa [or_comm] using List.mem_of_getElem? there

/-- A pass over a program that can be pruned succeeds. -/
theorem exists_pruneFrom {kept : List Variable} {freed : Variable → Prop} (now : Pruning)
    (counted : now.Counted) (keeps : ∀ v, ¬ freed v → v ∈ kept)
    (underway : Underway now.text freed) :
    ∃ edit, pruneFrom kept now.rest now.handed now.usage now.done now.removed = .ok edit ∧
      Prunable edit.code freed := by
  obtain ⟨rest, handed, usage, done, removed⟩ := now
  dsimp only
  induction rest generalizing handed usage done removed with
  | nil =>
    refine ⟨_, rfl, ?_⟩
    rw [Pruning.text, handOver, List.append_nil] at underway
    exact underway.toPrunable
  | cons i rest inductionHypothesis =>
    have goOn : ∀ {later}, PruneStep kept ⟨i :: rest, handed, usage, done, removed⟩ later →
        later.rest = rest → ∃ edit, pruneFrom kept rest later.handed later.usage later.done
          later.removed = .ok edit ∧ Prunable edit.code freed := by
      rintro ⟨_, handed, usage, done, removed⟩ step rfl
      exact inductionHypothesis _ _ _ _ (counted.step step)
        (underway_of_step counted keeps underway step)
    unfold pruneFrom
    dsimp only
    split
    · next closes =>
      obtain ⟨count, effects, start⟩ := exists_start_of_opened underway.opened closes
      rw [start]
      dsimp only
      split
      · next unused =>
        split
        · next pure => exact goOn (PruneStep.dropExpression rfl closes unused start pure) rfl
        · next impure =>
          exact goOn (PruneStep.keepExpression rfl closes fun _ =>
            ⟨count, effects, start, impure⟩) rfl
      · next used =>
        exact goOn (PruneStep.keepExpression rfl closes fun unused => absurd unused used) rfl
    · next plain =>
      split
      · next dead => exact goOn (PruneStep.drop rfl plain dead) rfl
      · next alive => exact goOn (PruneStep.keep rfl plain alive) rfl

/-! ### The variables to keep -/

/-- The variables to keep are found. In the course of the search `start` holds something if an
expression is open behind what was seen. -/
theorem exists_keptVariables {usage : Usage} {position : Nat} {seen rest : List Instruction}
    {start : Option Effects} (opened : Opened (seen ++ rest))
    (known : ∀ first < seen.length, At (·.markers.expressionStart) (seen ++ rest) first →
      (∀ k < seen.length, first ≤ k → ¬ At closesExpression (seen ++ rest) k) → start.isSome) :
    ∃ kept, keptVariables usage position rest start = .ok kept := by
  induction rest generalizing position seen start with
  | nil => exact ⟨[], rfl⟩
  | cons i rest inductionHypothesis =>
    have here : (seen ++ i :: rest)[seen.length]? = some i := by simp
    -- an expression that is open behind `i` starts at `i` or was open before
    have begun : ∀ first ≤ seen.length, At (·.markers.expressionStart) (seen ++ i :: rest) first →
        (∀ k < seen.length, first ≤ k → ¬ At closesExpression (seen ++ i :: rest) k) →
        (if i.markers.expressionStart then some i.effects else start).isSome := by
      intro first le marked alone
      split
      · rfl
      · next unmarked =>
        rcases Nat.lt_or_eq_of_le le with before | rfl
        · exact known first before marked alone
        · exact absurd ((at_of_getElem? here).mp marked) unmarked
    unfold keptVariables
    dsimp only
    rw [List.append_cons] at opened begun
    split
    · next closes =>
      have stores : At closesExpression (seen ++ [i] ++ rest) seen.length :=
        at_iff.mpr ⟨i, by rwa [← List.append_cons], closes⟩
      obtain ⟨first, le, marked, alone⟩ := opened seen.length stores
      obtain ⟨effects, opening⟩ := Option.isSome_iff_exists.mp (begun first le marked alone)
      obtain ⟨others, found⟩ : ∃ kept, keptVariables usage (position + 1) rest none = .ok kept := by
        refine inductionHypothesis opened fun first less _ alone => ?_
        rw [List.length_append, List.length_singleton] at less alone
        exact absurd stores (alone _ (Nat.lt_succ_self _) (Nat.le_of_lt_succ less))
      rw [opening]
      dsimp only
      rw [found]
      exact ⟨_, rfl⟩
    · refine inductionHypothesis opened fun first less marked alone => ?_
      rw [List.length_append, List.length_singleton] at less alone
      exact begun first (Nat.le_of_lt_succ less) marked fun k before =>
        alone k (Nat.lt_succ_of_lt before)

/-- A variable that is not used is kept if an expression with effects on record is stored into it.
In the course of the search `start` holds what is on record, if the expression is open. -/
theorem mem_kept_of_isExpression {usage : Usage} {position : Nat} {seen rest : List Instruction}
    {start : Option Effects} {kept : List Variable} {v : Variable} {first last : Nat}
    (found : keptVariables usage position rest start = .ok kept)
    (opened : Opened (seen ++ rest)) (expression : IsExpression (seen ++ rest) first last)
    (behind : seen.length ≤ last)
    (known : first < seen.length → ∃ i, (seen ++ rest)[first]? = some i ∧ start = some i.effects)
    (impure : ¬ At (·.effects.isPure) (seen ++ rest) first)
    (receives : At (receiver? · = some v) (seen ++ rest) last) (unused : usage.occurrences v = 0) :
    v ∈ kept := by
  induction rest generalizing position seen start kept with
  | nil =>
    have inside := expression.inside.2
    rw [List.append_nil] at inside
    omega
  | cons i rest inductionHypothesis =>
    have here : (seen ++ i :: rest)[seen.length]? = some i := by simp
    -- behind `i` the expression is open with what is on record for its start
    have opens : first ≤ seen.length →
        ∃ j, (seen ++ i :: rest)[first]? = some j ∧ opening start i = some j.effects := by
      intro le
      rcases Nat.lt_or_eq_of_le le with before | rfl
      · obtain ⟨j, there, same⟩ := known before
        have unmarked := mt (at_of_getElem? here).mpr (expression.nearest _ behind before)
        exact ⟨j, there, by rw [opening, if_neg unmarked, same]⟩
      · exact ⟨i, here, by rw [opening, if_pos ((at_of_getElem? here).mp expression.starts)]⟩
    have goOn : ∀ {start kept}, keptVariables usage (position + 1) rest start = .ok kept →
        seen.length < last →
        (first ≤ seen.length → ∃ j, (seen ++ i :: rest)[first]? = some j ∧ start = some j.effects) →
        v ∈ kept := by
      intro start kept later further known
      rw [List.append_cons] at opened expression impure receives known
      refine inductionHypothesis later opened expression ?_ (fun less => known ?_) impure receives
      · rw [List.length_append, List.length_singleton]
        exact further
      · rw [List.length_append, List.length_singleton] at less
        exact Nat.le_of_lt_succ less
    rcases keptVariables_cons found with ⟨plain, later⟩ | ⟨closes, effects, others, is, later, rfl⟩
    · refine goOn later (Nat.lt_of_le_of_ne behind ?_) opens
      rintro rfl
      exact plain ((at_of_getElem? here).mp expression.stores)
    · rcases Nat.lt_or_eq_of_le behind with further | rfl
      · refine List.mem_append_right _ (goOn later further fun le => ?_)
        exact absurd ((at_of_getElem? here).mpr closes) (expression.alone opened _ further le)
      · obtain ⟨j, there, same⟩ := opens expression.ordered
        obtain rfl := Option.some_inj.mp (is.symm.trans same)
        rw [at_of_getElem? there] at impure
        rw [at_of_getElem? here, decide_eq_true_eq] at receives
        refine List.mem_append_left _ ?_
        rw [Option.mem_toList, Option.filter_eq_some_iff]
        exact ⟨receives, by simp [impure, unused]⟩

/-! ### Passes -/

theorem occurrences_eq_zero_of_at {code : List Instruction} {usage : Usage} {v : Variable}
    (counts : usage.Counts code)
    (unused : ∀ k, ¬ At (fun i => 0 < i.occurrencesOf v) code k) : usage.occurrences v = 0 := by
  rw [counts.occurrences, Usage.occurrencesIn_eq_zero_iff]
  intro i member
  obtain ⟨k, there⟩ := List.mem_iff_getElem?.mp member
  exact Nat.eq_zero_of_not_pos fun occurs =>
    unused k (at_iff.mpr ⟨i, there, decide_eq_true occurs⟩)

/-- Variables that are retained are kept in every pass. -/
theorem mem_kept_of_retained {code : List Instruction} {usage : Usage} {kept : List Variable}
    {v : Variable} (retained : Retained code Nowhere v)
    (survey : Usage.survey code = .ok (usage, code)) (opened : Opened code) (ended : Ended code)
    (keeping : keptVariables usage 0 code none = .ok kept) : v ∈ kept := by
  obtain ⟨lasting, unused, first, last, expression, -, receives, stays⟩ := retained
  have impure : ¬ At (·.effects.isPure) code first := by
    intro pure
    have quiet := (isPure_iff_of_survey survey ended expression).mp pure
    have lapses : Lapses code Nowhere (Goes code Nowhere fun _ => True) first last :=
      ⟨expression, not_false, ⟨v, receives, lasting, fun k occurs => (unused k occurs).elim⟩,
        fun acts => quiet (acts.mono fun _ none => none.elim)⟩
    exact stays (closedUnderRemoval_goes.expressions _ _ lapses _ expression.ordered le_rfl)
  have absent := occurrences_eq_zero_of_at (Usage.counts_survey survey).2 unused
  exact @mem_kept_of_isExpression usage 0 [] code none kept v first last keeping opened expression
    (Nat.zero_le _) (fun less => absurd less (Nat.not_lt_zero _)) impure receives absent

/-- One pass. -/
theorem exists_prune {code : List Instruction} {freed : Variable → Prop}
    (prunable : Prunable code freed) :
    ∃ edit, prune code = .ok edit ∧ Prunable edit.code freed := by
  obtain ⟨⟨usage, surveyed⟩, survey⟩ := exists_ok_of_isOk (isOk_survey.mpr prunable.labelled)
  have again := Usage.survey_surveyed survey
  have left := prunable.remarked (remarked_survey survey)
  have underway : Underway surveyed freed := ⟨left, fun first last expression pure =>
    (isPure_iff_of_survey again left.ended expression).mp pure⟩
  obtain ⟨kept, keeping⟩ : ∃ kept, keptVariables usage 0 surveyed none = .ok kept :=
    @exists_keptVariables usage 0 [] surveyed none left.opened fun first less =>
      absurd less (Nat.not_lt_zero _)
  have start : Pruning.text ⟨surveyed, none, usage, [], 0⟩ = surveyed := handOver_none surveyed
  unfold prune
  rw [Halt.surveying_of_ok survey]
  dsimp only [bind, Except.bind]
  rw [keeping]
  exact exists_pruneFrom ⟨surveyed, none, usage, [], 0⟩ (Usage.counts_survey survey).2
    (fun v retained =>
      mem_kept_of_retained (left.retained v retained) again left.opened left.ended keeping)
    (start.symm ▸ underway)

theorem exists_pruneAll (passes : Nat) {edit : Edit} {freed : Variable → Prop}
    (prunable : Prunable edit.code freed) :
    ∃ result, pruneAll passes edit = .ok result ∧ Prunable result.code freed := by
  induction passes generalizing edit with
  | zero => exact ⟨edit, rfl, prunable⟩
  | succ passes inductionHypothesis =>
    obtain ⟨next, pruned, left⟩ := exists_prune prunable
    unfold pruneAll
    rw [pruned]
    dsimp only [bind, Except.bind]
    split
    · exact ⟨_, rfl, left⟩
    · exact inductionHypothesis left

/-- A pass that removes nothing leaves nothing that is sure to go. -/
theorem not_goes_of_prune {code : List Instruction} {edit : Edit} (pruned : prune code = .ok edit)
    (unchanged : edit.changes = 0) (ended : Ended edit.code) (k : Nat) :
    ¬ Goes edit.code Nowhere (fun _ => False) k := by
  obtain ⟨usage, kept, survey, -, survives⟩ := survives_of_prune pruned unchanged
  have again := Usage.survey_surveyed survey
  have split : ∀ {k i}, edit.code[k]? = some i →
      ∃ after, edit.code = edit.code.take k ++ i :: after := by
    intro k i there
    obtain ⟨inside, rfl⟩ := List.getElem?_eq_some_iff.mp there
    exact ⟨edit.code.drop (k + 1), by rw [List.getElem_cons_drop, List.take_append_drop]⟩
  have unused : ∀ {v}, Spent edit.code Nowhere v → isUnused usage v := fun spent =>
    decide_eq_true ⟨spent.lasting,
      occurrences_eq_zero_of_at (Usage.counts_survey survey).2 spent.unused⟩
  refine fun goes => goes Nowhere ⟨fun _ none => none, fun k fades => ?_,
    fun first last lapses _ _ _ => ?_⟩
  · obtain ⟨-, v, mentions, spent, declared⟩ := fades
    obtain ⟨i, there, found⟩ := at_iff.mp mentions
    rw [decide_eq_true_eq] at found
    obtain ⟨after, whole⟩ := split there
    have moves : i.opcode = .move := by
      have loose := found.1
      rw [Instruction.isLoose, decide_eq_true_eq] at loose
      refine loose.resolve_right fun defines => ?_
      exact declared ((at_of_getElem? there).mpr (decide_eq_true defines))
    refine (survives _ i after whole).plain (by simp [closesExpression, moves]) ?_
    exact List.any_eq_true.mpr ⟨v, found.2, by simp [unused spent, moves]⟩
  · obtain ⟨expression, -, ⟨v, receives, spent⟩, quiet⟩ := lapses
    obtain ⟨i, there, closes⟩ := at_iff.mp expression.stores
    rw [at_of_getElem? there, decide_eq_true_eq] at receives
    obtain ⟨after, whole⟩ := split there
    obtain ⟨count, effects, start, impure⟩ := (survives _ i after whole).closing closes
      (by rw [receives]; exact unused spent)
    obtain ⟨other, -, same, recorded⟩ := @exists_isExpression_of_start _ after _ _ _ closes start
    rw [List.reverse_reverse, ← whole, List.length_reverse,
      List.length_take_of_le expression.inside.2.le] at same
    rw [List.reverse_reverse, ← whole] at recorded
    obtain rfl := expression.eq_first same
    exact impure (recorded.mp ((isPure_iff_of_survey again ended expression).mpr quiet))

end Unused

/-! ### Dead code -/

/-- If nothing that is sure to go is left, a program that can be pruned is consistent. -/
theorem Prunable.consistent {code : List Instruction} {freed : Variable → Prop}
    (prunable : Prunable code freed)
    (settled : ∀ k, ¬ Goes code Nowhere (fun _ => False) k) : Consistent code where
  surveyed := isOk_survey.mpr prunable.labelled
  built := by
    rw [Flow.isOk_build]
    intro i member label leads
    obtain ⟨site, there⟩ := List.mem_iff_getElem?.mp member
    obtain ⟨target, defined, -⟩ := prunable.secure.jumps site label
      (at_iff.mpr ⟨i, there, by simpa using leads⟩) (settled site)
    obtain ⟨j, found, defines⟩ := at_iff.mp defined
    exact ⟨j, List.mem_of_getElem? found, by simpa using defines⟩
  opened := prunable.opened
  ended := prunable.ended

namespace Optimiser

/-- If the parts of a consistent program that go are well placed, then the removal of dead code
succeeds and leaves a consistent program. -/
theorem dead_code_leaves_consistent {code : List Instruction} (limit : Nat)
    (consistent : Consistent code) (placed : WellPlaced code) :
    ∃ edit, runPass limit .deadCode code = .ok (edit, []) ∧ Consistent edit.code := by
  obtain ⟨functions, swept, prunable⟩ := consistent.exists_prunable placed
  obtain ⟨trimmed, pruned, left⟩ :=
    @Unused.exists_pruneAll (functions.code.length + 1) ⟨functions.code, {}, 0⟩ _ prunable
  have concludes := @Unused.concludes_pruneAll ⟨functions.code, {}, 0⟩ _ (Nat.lt_succ_self _)
  rw [pruned] at concludes
  obtain ⟨last, next, settled, unchanged, same⟩ := concludes.exists_last
  have code : trimmed.code = next.code := by rw [same]
  refine ⟨_, runPass_iff.mpr (.deadCode swept pruned), left.consistent ?_⟩
  rw [code] at left ⊢
  exact Unused.not_goes_of_prune settled unchanged left.ended

/-- A function that is not called, one that is called only for a value that is not used, and a store
into a variable that is not used. There are jumps into the function that is called and into an
expression that writes; both stay. -/
def threeDead : List Instruction :=
  [{ opcode := .jump, operands := [.label "main"] },
   { opcode := .label, operands := [.label "f"], markers := { functionStart := true } },
   { opcode := .label, operands := [.label "loop"] },
   { opcode := .jump, operands := [.label "loop"], markers := { functionEnd := true } },
   { opcode := .label, operands := [.label "g"], markers := { functionStart := true } },
   { opcode := .move, operands := [.var ⟨.lf, "w"⟩, .const (.int 1)] },
   { opcode := .ret, operands := [], markers := { functionEnd := true } },
   { opcode := .label, operands := [.label "main"] },
   { opcode := .jumpifeqs, operands := [.label "g"] },
   { opcode := .call, operands := [.label "g"], markers := { expressionStart := true } },
   { opcode := .pops, operands := [.var ⟨.lf, "x"⟩], markers := { expressionEnd := true } },
   { opcode := .write, operands := [.const (.int 2)], markers := { expressionStart := true } },
   { opcode := .label, operands := [.label "again"] },
   { opcode := .pops, operands := [.var ⟨.lf, "y"⟩], markers := { expressionEnd := true } },
   { opcode := .jumpifeqs, operands := [.label "again"] }]

section ThreeDead

variable {first last k : Nat}

theorem functions_threeDead (function : IsFunction threeDead first last) :
    (first = 1 ∧ last = 3) ∨ (first = 4 ∧ last = 6) := by
  have all : ∀ first < 15, ∀ last < 15, IsFunction threeDead first last →
      (first = 1 ∧ last = 3) ∨ (first = 4 ∧ last = 6) := by decide
  exact all first function.inside.1 last function.inside.2 function

theorem expressions_threeDead (expression : IsExpression threeDead first last) :
    (first = 9 ∧ last = 10) ∨ (first = 11 ∧ last = 13) := by
  have all : ∀ first < 15, ∀ last < 15, IsExpression threeDead first last →
      (first = 9 ∧ last = 10) ∨ (first = 11 ∧ last = 13) := by decide
  exact all first expression.inside.1 last expression.inside.2 expression

theorem deserted_threeDead : Deserted threeDead k ↔ 1 ≤ k ∧ k ≤ 3 := by
  constructor
  · refine fun deserted => deserted (fun k => 1 ≤ k ∧ k ≤ 3)
      fun first last label function named called k lower upper => ?_
    rcases functions_threeDead function with ⟨rfl, rfl⟩ | ⟨rfl, rfl⟩
    · exact ⟨lower, upper⟩
    · obtain rfl : "g" = label := Option.some_inj.mp (of_decide_eq_true named)
      exact absurd (called 9 (by decide)).2 (by decide)
  · rintro ⟨lower, upper⟩
    have uncalled : ∀ site < 15, ¬ At (Usage.calledFunction? · = some "f") threeDead site := by
      decide
    exact closedUnderCalls_deserted 1 3 "f" (by decide) (by decide)
      (fun site calls => absurd calls (uncalled site calls.lt_length)) k lower upper

theorem fades_threeDead {swept gone : Nat → Prop} {freed : Variable → Prop}
    (fades : Fades threeDead swept gone freed k) : k = 5 := by
  have loose : ∀ k < 15, At (·.isLoose) threeDead k → k = 5 := by decide
  obtain ⟨v, mentions, -⟩ := fades.unread
  obtain ⟨i, there, found⟩ := at_iff.mp mentions
  exact loose k mentions.lt_length (at_iff.mpr ⟨i, there, (of_decide_eq_true found).1⟩)

theorem goes_threeDead {freed : Variable → Prop}
    (goes : Goes threeDead (Deserted threeDead) freed k) :
    (1 ≤ k ∧ k ≤ 3) ∨ k = 5 ∨ k = 9 ∨ k = 10 := by
  refine goes (fun k => (1 ≤ k ∧ k ≤ 3) ∨ k = 5 ∨ k = 9 ∨ k = 10)
    ⟨fun k went => Or.inl (deserted_threeDead.mp went), fun k fades => ?_,
      fun first last lapses k lower upper => ?_⟩
  · exact Or.inr (Or.inl (fades_threeDead fades))
  · rcases expressions_threeDead lapses.expression with ⟨rfl, rfl⟩ | ⟨rfl, rfl⟩
    · omega
    · -- what is written stays
      exact absurd ⟨11, le_rfl, by decide, by decide, fun j less above => by omega,
        Or.inl (by decide)⟩ lapses.quiet

theorem wellPlaced_threeDead : WellPlaced threeDead where
  jumps site label leads stays := by
    have targets : ∀ site < 15, (threeDead[site]?.bind Instruction.jumpTarget?).isSome →
        ∃ target < 15, threeDead[target]?.bind Instruction.definedLabel? =
          threeDead[site]?.bind Instruction.jumpTarget? ∧
          (site = 3 ∨ target = 4 ∨ target = 7 ∨ target = 12) := by decide
    have inside := leads.lt_length
    rw [at_eq_some_iff] at leads
    obtain ⟨target, -, defined, apart⟩ := targets site inside (by rw [leads]; rfl)
    refine ⟨target, at_eq_some_iff.mpr (defined.trans leads), fun goes => ?_⟩
    have inner : site ≠ 3 := by
      rintro rfl
      exact stays (closedUnderRemoval_goes.functions 3 (deserted_threeDead.mpr (by decide)))
    have bound := goes_threeDead goes
    omega
  ends first last function left := by
    rcases functions_threeDead function with ⟨rfl, rfl⟩ | ⟨rfl, rfl⟩
    · exact absurd (deserted_threeDead.mpr (by decide)) left
    · refine ⟨fun fades => absurd (fades_threeDead fades) (by decide),
        fun start store lapses lower => ?_⟩
      rcases expressions_threeDead lapses.expression with ⟨rfl, rfl⟩ | ⟨rfl, rfl⟩ <;> omega
  marks first last expression k upper lower fades := by
    obtain rfl := fades_threeDead fades
    rcases expressions_threeDead expression with ⟨rfl, rfl⟩ | ⟨rfl, rfl⟩ <;> omega
  starts first last expression deserted := by
    rw [deserted_threeDead] at deserted
    rcases expressions_threeDead expression with ⟨rfl, rfl⟩ | ⟨rfl, rfl⟩ <;> omega

end ThreeDead

theorem dead_code_leaves_consistent_three :
    Consistent threeDead ∧ WellPlaced threeDead ∧
      ∃ edit, runPass 64 .deadCode threeDead = .ok (edit, []) ∧
        edit.code.map Instruction.opcode =
          [.jump, .label, .ret, .label, .jumpifeqs, .write, .label, .pops, .jumpifeqs] ∧
        Consistent edit.code := by
  have consistent : Consistent threeDead := by decide +kernel
  obtain ⟨edit, ran, left⟩ := dead_code_leaves_consistent 64 consistent wellPlaced_threeDead
  refine ⟨consistent, wellPlaced_threeDead, edit, ran, ?_, left⟩
  have result : (runPass 64 .deadCode threeDead).toOption = some (edit, []) := by rw [ran]; rfl
  have codes := congrArg (Option.map fun result => result.1.code.map Instruction.opcode) result
  exact (Option.some_inj.mp codes).symm

/-- Programs in which something goes that is needed. -/
def misplaced : List (List Instruction) :=
  [ -- a jump into a function that is not called
   [{ opcode := .jump, operands := [.label "f"] },
    { opcode := .label, operands := [.label "f"], markers := { functionStart := true } },
    { opcode := .ret, operands := [], markers := { functionEnd := true } }],
   -- a jump into an expression whose value is not used
   [{ opcode := .pushs, operands := [.const (.int 1)], markers := { expressionStart := true } },
    { opcode := .label, operands := [.label "l"] },
    { opcode := .pops, operands := [.var ⟨.lf, "x"⟩], markers := { expressionEnd := true } },
    { opcode := .jump, operands := [.label "l"] }],
   -- a store that goes is the end of a function
   [{ opcode := .call, operands := [.label "f"] },
    { opcode := .label, operands := [.label "f"], markers := { functionStart := true } },
    { opcode := .move, operands := [.var ⟨.lf, "w"⟩, .const (.int 1)],
      markers := { functionEnd := true } }],
   -- an expression that goes has the end of a function in it
   [{ opcode := .call, operands := [.label "f"] },
    { opcode := .label, operands := [.label "f"], markers := { functionStart := true } },
    { opcode := .pushs, operands := [.const (.int 1)],
      markers := { functionEnd := true, expressionStart := true } },
    { opcode := .pops, operands := [.var ⟨.lf, "x"⟩], markers := { expressionEnd := true } }],
   -- a function that goes has the start of an expression in it
   [{ opcode := .label, operands := [.label "f"], markers := { functionStart := true } },
    { opcode := .pushs, operands := [.const (.int 1)], markers := { expressionStart := true } },
    { opcode := .ret, operands := [], markers := { functionEnd := true } },
    { opcode := .pops, operands := [.var ⟨.lf, "x"⟩], markers := { expressionEnd := true } }],
   -- a store that goes is the start of an expression, and cannot hand it on
   [{ opcode := .move, operands := [.var ⟨.lf, "w"⟩, .const (.int 1)],
      markers := { expressionStart := true, expressionEnd := true } },
    { opcode := .pops, operands := [.var ⟨.lf, "x"⟩], markers := { expressionEnd := true } }]]

/-- They are consistent, but the removal of dead code fails or leaves a program that is not. -/
theorem dead_code_leaves_inconsistent :
    misplaced.all fun code => Consistent code ∧
      ¬ (runPass 64 .deadCode code).toOption.any fun result => Consistent result.1.code := by
  decide +kernel

end Optimiser

end ThreeAddress
