/-
Expressions during a pass that removes unused variables. An expression runs from
the instruction that is marked as its start to the `POPS` that stores its value,
and `openAfter` says which expression is open behind a piece of a program. The
variables to keep are found from that, before the pass; the pass itself looks
back from a `POPS` for the nearest start among what it has kept. `Tracking` says
that the two see the same expressions, although starts are removed and handed on
in between, and `Passing` carries it through a whole pass together with the
counts.
-/
import ThreeAddress.Proofs.Pruning

namespace ThreeAddress.Unused

open Relation

/-! ### Open expressions -/

/-- The effects of the expression that an instruction belongs to, given those of the expression
that is open before it. -/
def opening (opened : Option Effects) (i : Instruction) : Option Effects :=
  if i.markers.expressionStart then some i.effects else opened

/-- The effects of the expression that is open behind an instruction. -/
def openNext (opened : Option Effects) (i : Instruction) : Option Effects :=
  if i.markers.expressionEnd then none else opening opened i

/-- The effects of the expression that is open behind a piece of a program, if one is. -/
def openAfter (code : List Instruction) : Option Effects :=
  code.foldl openNext none

theorem openAfter_append_one (code : List Instruction) (i : Instruction) :
    openAfter (code ++ [i]) = openNext (openAfter code) i := by
  rw [openAfter, List.foldl_append]
  rfl

/-- Whether something holds of every instruction of a program and the expression that is open
before it. -/
def Throughout (Holds : Option Effects → Instruction → Prop) (code : List Instruction) : Prop :=
  ∀ before i after, code = before ++ i :: after → Holds (openAfter before) i

theorem throughout_append_one {Holds : Option Effects → Instruction → Prop}
    {code : List Instruction} {i : Instruction} (throughout : Throughout Holds code)
    (here : Holds (openAfter code) i) : Throughout Holds (code ++ [i]) := by
  intro before j after split
  rcases List.eq_nil_or_concat after with rfl | ⟨shorter, last, rfl⟩
  · obtain ⟨rfl, same⟩ := List.append_inj split (by simpa using congrArg List.length split)
    obtain rfl := (List.cons.inj same).1
    exact here
  · rw [List.concat_eq_append, ← List.cons_append, ← List.append_assoc] at split
    obtain ⟨rfl, -⟩ := List.append_inj' split rfl
    exact throughout before j shorter rfl

theorem throughout_of_append {Holds : Option Effects → Instruction → Prop}
    {code rest : List Instruction} (throughout : Throughout Holds (code ++ rest)) :
    Throughout Holds code := by
  intro before i after split
  refine throughout before i (after ++ rest) ?_
  rw [split, List.append_assoc, List.cons_append]

theorem throughout_iff {Holds : Option Effects → Instruction → Prop} {code : List Instruction} :
    Throughout Holds code ↔
      ∀ n : Fin code.length, Holds (openAfter (code.take n)) (code.get n) := by
  constructor
  · intro throughout n
    refine throughout (code.take n) (code.get n) (code.drop (n + 1)) ?_
    rw [List.get_eq_getElem, List.getElem_cons_drop, List.take_append_drop]
  · rintro each before i after rfl
    have here := each ⟨before.length, by simp⟩
    simpa using here

instance {Holds : Option Effects → Instruction → Prop} [∀ opened i, Decidable (Holds opened i)]
    (code : List Instruction) : Decidable (Throughout Holds code) :=
  decidable_of_iff _ throughout_iff.symm

/-- What the markers of an instruction keep to: an expression starts where none is open and ends
with a `POPS`, and only its start has effects. -/
structure Placed (opened : Option Effects) (i : Instruction) : Prop where
  start : i.markers.expressionStart → opened = none
  finish : i.markers.expressionEnd → i.opcode = .pops
  effects : ¬ i.markers.expressionStart → i.effects = Effects.none

/-- Whether every instruction of a program keeps to that. -/
def Bracketed (code : List Instruction) : Prop :=
  ∀ before i after, code = before ++ i :: after → Placed (openAfter before) i

instance (opened : Option Effects) (i : Instruction) : Decidable (Placed opened i) :=
  decidable_of_iff
    ((i.markers.expressionStart → opened = none) ∧ (i.markers.expressionEnd → i.opcode = .pops) ∧
      (¬ i.markers.expressionStart → i.effects = Effects.none))
    ⟨fun ⟨start, finish, effects⟩ => ⟨start, finish, effects⟩,
      fun placed => ⟨placed.start, placed.finish, placed.effects⟩⟩

instance (code : List Instruction) : Decidable (Bracketed code) :=
  inferInstanceAs (Decidable (Throughout Placed code))

theorem closesExpression_iff {opened : Option Effects} {i : Instruction}
    (placed : Placed opened i) : closesExpression i ↔ i.markers.expressionEnd := by
  unfold closesExpression
  rw [decide_eq_true_eq]
  exact ⟨fun closes => closes.2, fun finish => ⟨placed.finish finish, finish⟩⟩

/-- The start that is nearest to the end of a piece is the one that is open behind it. -/
theorem expressionStart?_of_open {done : List Instruction} {effects : Effects}
    (opened : openAfter done.reverse = some effects) :
    ∃ count, expressionStart? done = some (count, effects) := by
  induction done with
  | nil => exact absurd opened (by simp [openAfter])
  | cons i older inductionHypothesis =>
    rw [List.reverse_cons, openAfter_append_one, openNext] at opened
    split at opened
    · exact absurd opened (by simp)
    · unfold opening at opened
      unfold expressionStart?
      split at opened
      · next marked => rw [if_pos marked, Option.some_inj.mp opened]; exact ⟨1, rfl⟩
      · next unmarked =>
        obtain ⟨count, found⟩ := inductionHypothesis opened
        rw [if_neg unmarked, found]
        exact ⟨count + 1, rfl⟩

/-- Behind a place where no expression is open, one is open only if it started behind that place. -/
theorem exists_start_of_open {old recent : List Instruction}
    (closed : openAfter old.reverse = none)
    (opened : (openAfter (recent ++ old).reverse).isSome) :
    ∃ i ∈ recent, i.markers.expressionStart := by
  induction recent with
  | nil => rw [List.nil_append, closed] at opened; exact absurd opened (by simp)
  | cons i rest inductionHypothesis =>
    rw [List.cons_append, List.reverse_cons, openAfter_append_one, openNext] at opened
    by_cases marked : i.markers.expressionStart
    · exact ⟨i, List.mem_cons_self, marked⟩
    · rw [opening, if_neg marked] at opened
      split at opened
      · exact absurd opened (by simp)
      · obtain ⟨start, member, marked⟩ := inductionHypothesis opened
        exact ⟨start, List.mem_cons_of_mem _ member, marked⟩

/-- The nearest start is not behind another one. -/
theorem expressionStart?_le {recent old : List Instruction} {count : Nat} {effects : Effects}
    (found : expressionStart? (recent ++ old) = some (count, effects))
    (start : ∃ i ∈ recent, i.markers.expressionStart) : count ≤ recent.length := by
  induction recent generalizing count with
  | nil => obtain ⟨i, member, -⟩ := start; exact absurd member (by simp)
  | cons i rest inductionHypothesis =>
    rw [List.cons_append, expressionStart?] at found
    split at found
    · obtain ⟨rfl, -⟩ := Prod.mk.inj (Option.some_inj.mp found)
      exact Nat.le_add_left 1 rest.length
    · next unmarked =>
      obtain ⟨⟨before, known⟩, later, same⟩ := Option.map_eq_some_iff.mp found
      obtain ⟨rfl, rfl⟩ := Prod.mk.inj same
      obtain ⟨j, member, marked⟩ := start
      rcases List.mem_cons.mp member with rfl | member
      · exact absurd marked unmarked
      · exact Nat.succ_le_succ (inductionHypothesis later ⟨j, member, marked⟩)

/-! ### The variables to keep -/

/-- Whether an instruction declares a variable. -/
def Declares (i : Instruction) (v : Variable) : Prop :=
  i.opcode = .defvar ∧ receiver? i = some v
deriving Decidable

/-- Whether an instruction stores the value of an expression in a variable. -/
def Stores (i : Instruction) (v : Variable) : Prop :=
  closesExpression i ∧ receiver? i = some v

/-- How the variables to keep are found, one instruction at a time. -/
theorem keptVariables_cons {usage : Usage} {position : Nat} {i : Instruction}
    {rest : List Instruction} {opened : Option Effects} {kept : List Variable}
    (found : keptVariables usage position (i :: rest) opened = .ok kept) :
    (¬ closesExpression i ∧ keptVariables usage (position + 1) rest (opening opened i) = .ok kept) ∨
    (closesExpression i ∧ ∃ effects others, opening opened i = some effects ∧
      keptVariables usage (position + 1) rest none = .ok others ∧
      kept = ((receiver? i).filter fun v =>
        !effects.isPure && usage.occurrences v = 0).toList ++ others) := by
  unfold keptVariables at found
  by_cases closes : closesExpression i
  · refine Or.inr ⟨closes, ?_⟩
    rw [if_pos closes] at found
    unfold opening
    cases opens : (if i.markers.expressionStart then some i.effects else opened) with
    | none => rw [opens] at found; exact absurd found (by simp)
    | some effects =>
      rw [opens] at found
      obtain ⟨others, later, result⟩ := exists_ok_of_bind found
      exact ⟨effects, others, rfl, later, (Except.ok.inj result).symm⟩
  · rw [if_neg closes] at found
    exact Or.inl ⟨closes, found⟩

/-- Only variables that an expression with effects stores into are kept: the start that is nearest
to the store has effects. `seen` is what stands ahead, last first. -/
theorem exists_start_of_mem_kept {usage : Usage} {position : Nat} {seen rest : List Instruction}
    {opened : Option Effects} {kept : List Variable} {v : Variable}
    (found : keptVariables usage position rest opened = .ok kept) (member : v ∈ kept)
    (nearest : ∀ effects, opened = some effects →
      ∃ count, expressionStart? seen = some (count, effects)) :
    ∃ before i after, rest = before ++ i :: after ∧ Stores i v ∧
      ∃ count effects, expressionStart? (i :: (before.reverse ++ seen)) = some (count, effects) ∧
        ¬ effects.isPure := by
  induction rest generalizing position seen opened kept with
  | nil =>
    obtain rfl := Except.ok.inj found
    exact absurd member (by simp)
  | cons i rest inductionHypothesis =>
    have here : ∀ effects, opening opened i = some effects →
        ∃ count, expressionStart? (i :: seen) = some (count, effects) := by
      intro effects opens
      unfold opening at opens
      unfold expressionStart?
      split at opens
      · next marked =>
        obtain rfl := Option.some_inj.mp opens
        exact ⟨1, if_pos marked⟩
      · next unmarked =>
        obtain ⟨count, before⟩ := nearest effects opens
        exact ⟨count + 1, by rw [if_neg unmarked, before]; rfl⟩
    have further : ∀ {opened kept}, keptVariables usage (position + 1) rest opened = .ok kept →
        v ∈ kept →
        (∀ effects, opened = some effects →
          ∃ count, expressionStart? (i :: seen) = some (count, effects)) →
        ∃ before store after, i :: rest = before ++ store :: after ∧ Stores store v ∧
          ∃ count effects, expressionStart? (store :: (before.reverse ++ seen)) =
            some (count, effects) ∧ ¬ effects.isPure := by
      intro opened kept later inside nearest
      obtain ⟨before, store, after, rfl, stores, start⟩ := inductionHypothesis later inside nearest
      refine ⟨i :: before, store, after, rfl, stores, ?_⟩
      rwa [List.reverse_cons, List.append_assoc, List.singleton_append]
    rcases keptVariables_cons found with ⟨-, later⟩ | ⟨closes, effects, others, opens, later, rfl⟩
    · exact further later member here
    · rcases List.mem_append.mp member with chosen | there
      · rw [Option.mem_toList, Option.filter_eq_some_iff] at chosen
        obtain ⟨receives, reason⟩ := chosen
        obtain ⟨count, start⟩ := here effects opens
        refine ⟨[], i, rest, rfl, ⟨closes, receives⟩, count, effects, start, ?_⟩
        rw [Bool.and_eq_true, Bool.not_eq_true'] at reason
        simpa using reason.1
      · exact further later there fun effects none => absurd none (by simp)

theorem exists_stores_of_mem_kept {usage : Usage} {position : Nat} {rest : List Instruction}
    {kept : List Variable} {v : Variable}
    (found : keptVariables usage position rest none = .ok kept) (member : v ∈ kept) :
    ∃ i ∈ rest, Stores i v := by
  obtain ⟨before, i, after, rfl, stores, -⟩ := @exists_start_of_mem_kept usage position [] rest
    none kept v found member fun effects none => absurd none (by simp)
  exact ⟨i, by simp, stores⟩

/-- Every store of an expression's value belongs to an expression, and if that has effects and the
variable is not used, the variable is kept. -/
theorem mem_kept_of_stores {usage : Usage} {position : Nat} {seen rest : List Instruction}
    {kept : List Variable} (bracketed : Bracketed (seen ++ rest))
    (found : keptVariables usage position rest (openAfter seen) = .ok kept)
    {before after : List Instruction} {i : Instruction} (split : rest = before ++ i :: after)
    (closes : closesExpression i) :
    ∃ effects, opening (openAfter (seen ++ before)) i = some effects ∧
      ∀ v, receiver? i = some v → ¬ effects.isPure → usage.occurrences v = 0 → v ∈ kept := by
  induction rest generalizing position seen kept before with
  | nil => exact absurd split (by simp)
  | cons first rest inductionHypothesis =>
    have placed := bracketed seen first rest rfl
    cases before with
    | nil =>
      obtain ⟨rfl, rfl⟩ := List.cons.inj split
      rw [List.append_nil]
      rcases keptVariables_cons found with ⟨open_, -⟩ | ⟨-, effects, others, opened, -, rfl⟩
      · exact absurd closes open_
      · refine ⟨effects, opened, fun v receives impure unused => ?_⟩
        refine List.mem_append_left _ ?_
        rw [Option.mem_toList, Option.filter_eq_some_iff]
        exact ⟨receives, by simp [impure, unused]⟩
    | cons head before =>
      obtain ⟨rfl, tail⟩ := List.cons.inj split
      have next : Bracketed ((seen ++ [first]) ++ rest) := by
        rwa [List.append_assoc, List.singleton_append]
      rw [← List.singleton_append, ← List.append_assoc]
      rcases keptVariables_cons found with ⟨goesOn, later⟩ | ⟨ends, effects, others, -, later, rfl⟩
      · rw [closesExpression_iff placed] at goesOn
        have same : openAfter (seen ++ [first]) = opening (openAfter seen) first := by
          rw [openAfter_append_one, openNext, if_neg goesOn]
        rw [← same] at later
        exact inductionHypothesis next later tail
      · rw [closesExpression_iff placed] at ends
        have none : openAfter (seen ++ [first]) = none := by
          rw [openAfter_append_one, openNext, if_pos ends]
        rw [← none] at later
        obtain ⟨effects, opened, keeps⟩ := inductionHypothesis next later tail
        exact ⟨effects, opened, fun v receives impure unused =>
          List.mem_append_right _ (keeps v receives impure unused)⟩

/-! ### What a pass keeps of the expressions -/

/-- What holds after a pass has seen the beginning of a program: the expression that is open there
is open behind what is kept too, or its start was removed and is handed on. -/
structure Tracking (seen : List Instruction) (now : Pruning) : Prop where
  opened : (openAfter now.done.reverse).or now.handed = openAfter seen
  handed : now.handed.isSome → openAfter now.done.reverse = none
  bracketed : Bracketed now.done.reverse

namespace Tracking

variable {seen : List Instruction} {now later : Pruning} {i : Instruction}

theorem opened_of_not_handed (tracking : Tracking seen now) (handed : now.handed = none) :
    openAfter now.done.reverse = openAfter seen := by
  rw [← tracking.opened, handed, Option.or_none]

/-- Taking over makes the next instruction belong to the same expression behind what is kept, and
leaves it well placed there. -/
theorem takeOver (tracking : Tracking seen now) (placed : Placed (openAfter seen) i) :
    opening (openAfter now.done.reverse) (takeOver i now.handed) = opening (openAfter seen) i ∧
      Placed (openAfter now.done.reverse) (takeOver i now.handed) := by
  cases handed : now.handed with
  | none =>
    rw [tracking.opened_of_not_handed handed]
    exact ⟨rfl, placed⟩
  | some effects =>
    have closed := tracking.handed (by rw [handed]; rfl)
    have opened := tracking.opened
    rw [closed, handed, Option.none_or] at opened
    have inside : ¬ i.markers.expressionStart := fun marked =>
      absurd (opened.trans (placed.start marked)) (by simp)
    have taken : i.effects.union effects = effects := by
      rw [placed.effects inside]
      rfl
    constructor
    · rw [opening, opening, if_neg inside, ← opened]
      simp only [Unused.takeOver, if_true, taken]
    · exact ⟨fun _ => closed, placed.finish, fun unmarked => absurd rfl unmarked⟩

/-- Keeping the next instruction. -/
theorem keep (tracking : Tracking seen now) (placed : Placed (openAfter seen) i)
    (rest : List Instruction) :
    Tracking (seen ++ [i])
      { now with rest, handed := none, done := Unused.takeOver i now.handed :: now.done } where
  opened := by
    have same := (tracking.takeOver placed).1
    rw [List.reverse_cons, openAfter_append_one, openAfter_append_one, openNext, openNext, same,
      Option.or_none]
    cases now.handed <;> rfl
  handed := fun handed => absurd handed (by simp)
  bracketed := by
    rw [List.reverse_cons]
    exact throughout_append_one tracking.bracketed (tracking.takeOver placed).2

theorem step {kept : List Variable} {rest : List Instruction} (tracking : Tracking seen now)
    (next : now.rest = i :: rest) (placed : Placed (openAfter seen) i)
    (step : PruneStep kept now later) : later.rest = rest ∧ Tracking (seen ++ [i]) later := by
  have taken := tracking.takeOver placed
  cases step with
  | keep here plain alive =>
    obtain ⟨rfl, rfl⟩ := List.cons.inj (next.symm.trans here)
    exact ⟨rfl, tracking.keep placed _⟩
  | keepExpression here closes needed =>
    obtain ⟨rfl, rfl⟩ := List.cons.inj (next.symm.trans here)
    exact ⟨rfl, tracking.keep placed _⟩
  | drop here plain dead =>
    obtain ⟨rfl, rfl⟩ := List.cons.inj (next.symm.trans here)
    rw [closesExpression_iff taken.2] at plain
    refine ⟨rfl, ?_, fun handed => ?_, tracking.bracketed⟩
    · have inside : ¬ i.markers.expressionEnd := by
        cases taker : now.handed <;> simpa [taker, Unused.takeOver] using plain
      rw [openAfter_append_one, openNext, if_neg inside, ← taken.1, opening, handedOn]
      by_cases marked : (Unused.takeOver i now.handed).markers.expressionStart
      · rw [taken.2.start marked]
        simp [marked, plain]
      · simp [marked]
    · simp only [handedOn] at handed
      split at handed
      · next marked => exact taken.2.start (by simp_all)
      · exact absurd handed (by simp)
  | dropExpression here closes unused start pure =>
    obtain ⟨rfl, rfl⟩ := List.cons.inj (next.symm.trans here)
    have ends : i.markers.expressionEnd := by
      rw [closesExpression_iff taken.2] at closes
      cases taker : now.handed <;> simpa [taker, Unused.takeOver] using closes
    obtain ⟨newer, first, older, split, length, marked, -⟩ := exists_split_of_expressionStart? start
    have whole := (tracking.keep placed []).bracketed
    dsimp only at whole
    rw [split, List.reverse_append, List.reverse_cons, List.append_assoc,
      List.singleton_append] at whole
    have closed := (whole _ first _ rfl).start marked
    refine ⟨rfl, ?_⟩
    rw [split, length, List.drop_length_add_append, List.drop_one, List.tail_cons]
    refine ⟨?_, fun handed => absurd handed (by simp), throughout_of_append whole⟩
    rw [closed, openAfter_append_one, openNext, if_pos ends, Option.or_none]

/-- The expression that a store closes starts where the pass looks for it. -/
theorem expressionStart (tracking : Tracking seen now) (placed : Placed (openAfter seen) i)
    {effects : Effects} (belongs : opening (openAfter seen) i = some effects) :
    ∃ count,
      expressionStart? (Unused.takeOver i now.handed :: now.done) = some (count, effects) := by
  rw [← (tracking.takeOver placed).1, opening] at belongs
  rw [expressionStart?]
  split at belongs
  · next marked =>
    rw [if_pos marked, Option.some_inj.mp belongs]
    exact ⟨1, rfl⟩
  · next unmarked =>
    obtain ⟨count, found⟩ := expressionStart?_of_open belongs
    rw [if_neg unmarked, found]
    exact ⟨count + 1, rfl⟩

/-- What was kept where no expression was open is not part of an expression that is removed. -/
theorem count_le (tracking : Tracking seen now) (placed : Placed (openAfter seen) i)
    {effects : Effects} (belongs : opening (openAfter seen) i = some effects)
    {recent old : List Instruction} (split : now.done = recent ++ old)
    (closed : openAfter old.reverse = none) {count : Nat} {found : Effects}
    (start : expressionStart? (Unused.takeOver i now.handed :: now.done) = some (count, found)) :
    count ≤ (Unused.takeOver i now.handed :: recent).length := by
  rw [← (tracking.takeOver placed).1, opening] at belongs
  rw [split, ← List.cons_append] at start
  refine expressionStart?_le start ?_
  split at belongs
  · next marked => exact ⟨_, List.mem_cons_self, marked⟩
  · rw [split] at belongs
    obtain ⟨j, member, marked⟩ := exists_start_of_open closed (by rw [belongs]; rfl)
    exact ⟨j, List.mem_cons_of_mem _ member, marked⟩

end Tracking

/-- A moment of a pass over a program: what it has seen and what is left make up the program, and
what it has kept comes from there. -/
structure Passing (code seen : List Instruction) (now : Pruning) : Prop where
  whole : seen ++ now.rest = code
  tracking : Tracking seen now
  counted : now.Counted
  alike : ∀ j ∈ now.done, ∃ i ∈ code, Usage.CountedAlike i j

namespace Passing

variable {code seen : List Instruction} {now later : Pruning} {i : Instruction}
  {kept : List Variable}

theorem placed {rest : List Instruction} (passing : Passing code seen now)
    (bracketed : Bracketed code) (next : now.rest = i :: rest) : Placed (openAfter seen) i :=
  bracketed seen i rest (by rw [← next, passing.whole])

theorem mem {rest : List Instruction} (passing : Passing code seen now)
    (next : now.rest = i :: rest) : i ∈ code := by
  rw [← passing.whole, next]
  exact List.mem_append_right _ List.mem_cons_self

/-- Whatever holds of the program's instructions and depends on what is counted only, holds of what
is kept and what is left. -/
theorem forall_mem {Holds : Instruction → Prop} (passing : Passing code seen now)
    (counted : ∀ i j, Usage.CountedAlike i j → Holds i → Holds j) (all : ∀ i ∈ code, Holds i) :
    ∀ j ∈ now.done ++ now.rest, Holds j := by
  intro j member
  rcases List.mem_append.mp member with kept | left
  · obtain ⟨i, inside, alike⟩ := passing.alike j kept
    exact counted i j alike (all i inside)
  · refine all j ?_
    rw [← passing.whole]
    exact List.mem_append_right _ left

theorem step (passing : Passing code seen now) (bracketed : Bracketed code)
    (next : now.rest = i :: later.rest) (step : PruneStep kept now later) :
    Passing code (seen ++ [i]) later where
  whole := by
    rw [List.append_assoc, List.singleton_append, ← next]
    exact passing.whole
  tracking := (passing.tracking.step next (passing.placed bracketed next) step).2
  counted := passing.counted.step step
  alike := by
    intro j member
    rcases step.exists_alike next j member with old | alike
    · exact passing.alike j old
    · exact ⟨i, passing.mem next, alike⟩

/-- What holds at the beginning of a pass and is preserved by its steps holds at its end. -/
theorem run {Holds : List Instruction → Pruning → Prop} {first final : Pruning}
    (passing : Passing code [] first) (bracketed : Bracketed code) (start : Holds [] first)
    (step : ∀ seen now later i, Passing code seen now → Holds seen now →
      now.rest = i :: later.rest → PruneStep kept now later → Holds (seen ++ [i]) later)
    (run : ReflTransGen (PruneStep kept) first final) :
    ∃ seen, Passing code seen final ∧ Holds seen final := by
  induction run with
  | refl => exact ⟨[], passing, start⟩
  | tail _ last inductionHypothesis =>
    obtain ⟨seen, there, holds⟩ := inductionHypothesis
    obtain ⟨i, next⟩ := last.exists_next
    exact ⟨seen ++ [i], there.step bracketed next last, step _ _ _ i there holds next last⟩

end Passing

/-- Instructions that agree in everything that is counted receive into the same variable and close
the same expressions. -/
theorem receiver?_of_alike {i j : Instruction} (alike : Usage.CountedAlike i j) :
    receiver? j = receiver? i := by
  rw [receiver?, receiver?, alike.operands]

theorem closesExpression_of_alike {i j : Instruction} (alike : Usage.CountedAlike i j) :
    closesExpression j = closesExpression i := by
  rw [closesExpression, closesExpression, alike.opcode, alike.expressionEnd]

theorem stores_of_alike {i j : Instruction} {v : Variable} (alike : Usage.CountedAlike i j) :
    Stores j v ↔ Stores i v := by
  rw [Stores, Stores, receiver?_of_alike alike, closesExpression_of_alike alike]

/-- An instruction with one operand mentions what it receives into. -/
theorem vars_eq_receiver? {i : Instruction} (wellFormed : i.WellFormed)
    (single : i.opcode.arity = 1) : i.vars = (receiver? i).toList := by
  obtain ⟨operand, only⟩ := List.length_eq_one_iff.mp (wellFormed.trans single)
  rw [Instruction.vars, receiver?, only, List.head?_cons, Option.bind_some, List.filterMap_cons]
  cases operand.var? <;> rfl

/-! ### What a survey changes -/

/-- Whether two instructions differ at most in the effects of an expression that they start. -/
structure Remarked (i j : Instruction) : Prop where
  opcode : i.opcode = j.opcode
  operands : i.operands = j.operands
  markers : i.markers = j.markers
  effects : ¬ i.markers.expressionStart → i.effects = j.effects

namespace Remarked

variable {i j : Instruction}

theorem symm (same : Remarked i j) : Remarked j i :=
  ⟨same.opcode.symm, same.operands.symm, same.markers.symm, fun unmarked =>
    (same.effects (by rwa [same.markers])).symm⟩

theorem alike (same : Remarked i j) : Usage.CountedAlike i j :=
  ⟨same.opcode, same.operands, by rw [same.markers], by rw [same.markers]⟩

end Remarked

theorem remarked_survey {code surveyed : List Instruction} {usage : Usage}
    (survey : Usage.survey code = .ok (usage, surveyed)) :
    List.Forall₂ Remarked code surveyed := by
  obtain ⟨found, -, -, rfl⟩ := Usage.exists_markEffects_of_survey survey
  refine List.forall₂_iff_get.mpr ⟨by simp [Survey.markEffects], fun index bound other => ?_⟩
  simp only [Survey.markEffects, List.get_eq_getElem, List.getElem_mapIdx]
  split
  · next marked => exact ⟨rfl, rfl, rfl, fun unmarked => absurd marked unmarked⟩
  · exact ⟨rfl, rfl, rfl, fun _ => rfl⟩

/-- A survey that fails has changed nothing but effects of expressions. -/
theorem remarked_interrupted (code : List Instruction) :
    List.Forall₂ Remarked code (Survey.interrupted code) := by
  have same : ∀ code : List Instruction, List.Forall₂ Remarked code code :=
    fun code => List.forall₂_same.mpr fun i _ => ⟨rfl, rfl, rfl, fun _ => rfl⟩
  induction code with
  | nil => exact List.Forall₂.nil
  | cons i rest inductionHypothesis =>
    unfold Survey.interrupted at inductionHypothesis ⊢
    rw [List.takeWhile_cons, List.dropWhile_cons]
    split
    · refine List.Forall₂.cons ?_ inductionHypothesis
      rw [Survey.clear]
      split
      · next marked => exact ⟨rfl, rfl, rfl, fun unmarked => absurd marked unmarked⟩
      · exact ⟨rfl, rfl, rfl, fun _ => rfl⟩
    · exact same _

theorem exists_split_of_remarked {code before after : List Instruction} {j : Instruction}
    (same : List.Forall₂ Remarked code (before ++ j :: after)) :
    ∃ front i back, code = front ++ i :: back ∧ List.Forall₂ Remarked front before ∧
      Remarked i j := by
  induction before generalizing code with
  | nil =>
    cases same with
    | @cons i _ back _ head tail => exact ⟨[], i, back, rfl, List.Forall₂.nil, head⟩
  | cons first before inductionHypothesis =>
    cases same with
    | @cons other _ rest _ head tail =>
      obtain ⟨front, i, back, rfl, fronts, found⟩ := inductionHypothesis tail
      exact ⟨other :: front, i, back, rfl, List.Forall₂.cons head fronts, found⟩

theorem isSome_openAfter {code other : List Instruction}
    (same : List.Forall₂ Remarked code other) :
    (openAfter code).isSome = (openAfter other).isSome := by
  suffices opened : ∀ first second : Option Effects, first.isSome = second.isSome →
      (code.foldl openNext first).isSome = (other.foldl openNext second).isSome from
    opened none none rfl
  induction same with
  | nil => exact fun _ _ equal => equal
  | cons head tail inductionHypothesis =>
    refine fun first second equal => inductionHypothesis _ _ ?_
    rw [openNext, openNext, head.markers]
    split
    · rfl
    · rw [opening, opening, head.markers]
      split
      · rfl
      · exact equal

theorem openAfter_eq_none {code other : List Instruction}
    (same : List.Forall₂ Remarked code other) (closed : openAfter code = none) :
    openAfter other = none := by
  rw [← Option.isNone_iff_eq_none, ← Option.not_isSome, Bool.not_eq_true', ← isSome_openAfter same,
    closed]
  rfl

theorem bracketed_remarked {code other : List Instruction}
    (same : List.Forall₂ Remarked code other) (bracketed : Bracketed code) : Bracketed other := by
  rintro before j after rfl
  obtain ⟨front, i, back, rfl, fronts, found⟩ := exists_split_of_remarked same
  have placed := bracketed front i back rfl
  refine ⟨fun marked => openAfter_eq_none fronts (placed.start ?_), fun finish => ?_,
    fun unmarked => ?_⟩
  · rwa [found.markers]
  · rw [← found.opcode]
    exact placed.finish (by rwa [found.markers])
  · have plain : ¬ i.markers.expressionStart := by rwa [found.markers]
    rw [← found.effects plain]
    exact placed.effects plain

theorem remarked_symm {code other : List Instruction} (same : List.Forall₂ Remarked code other) :
    List.Forall₂ Remarked other code :=
  (same.imp fun _ _ => Remarked.symm).flip

theorem exists_remarked_of_mem {code other : List Instruction}
    (same : List.Forall₂ Remarked code other) {j : Instruction} (member : j ∈ other) :
    ∃ i ∈ code, Remarked i j := by
  obtain ⟨before, after, rfl⟩ := List.append_of_mem member
  obtain ⟨front, i, back, rfl, -, found⟩ := exists_split_of_remarked same
  exact ⟨i, List.mem_append_right _ List.mem_cons_self, found⟩

end ThreeAddress.Unused
