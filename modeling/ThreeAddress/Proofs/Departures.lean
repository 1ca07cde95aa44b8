/-
What the removal of dead code takes out of a program, read off the program
before any of it is gone. First the functions go that are only called from
functions that go. Of the rest, a variable outside the temporary frame is spent
once all its occurrences are gone; then the stores into it and its declarations
go one by one, and an expression that is stored into it goes as a whole, once
its effects are gone too. What goes is the least set of positions that is closed
under this.

Two readings are needed. Which declarations go depends on the order of the
program, so `freed` says whose declarations count as going: none of them for
what is sure to go, and for what may go all but those of variables that are
retained for an expression that cannot go.

`WellPlaced` says when nothing goes that is needed by what stays.
-/
import ThreeAddress.Proofs.CallEffects

namespace ThreeAddress

open Unused (closesExpression receiver?)

/-! ### Functions -/

section Deserted

variable (code : List Instruction)

/-- Whether a set of positions contains every function that is called from the set only. -/
def ClosedUnderCalls (gone : Nat → Prop) : Prop :=
  ∀ first last label, IsFunction code first last → At (·.definedLabel? = some label) code first →
    (∀ site, At (Usage.calledFunction? · = some label) code site → gone site) →
    ∀ k, first ≤ k → k ≤ last → gone k

/-- Whether a position belongs to a function that goes because it is not called, apart from calls
that go. -/
def Deserted (position : Nat) : Prop :=
  ∀ gone, ClosedUnderCalls code gone → gone position

end Deserted

/-! ### Variables and expressions -/

section Goes

variable (code : List Instruction) (swept gone : Nat → Prop) (freed : Variable → Prop)

/-- Whether a variable outside the temporary frame occurs only in what is gone. -/
structure Spent (v : Variable) : Prop where
  lasting : v.frame ≠ .tf
  unused : ∀ k, At (fun i => 0 < i.occurrencesOf v) code k → gone k

/-- Whether an instruction that stays belongs to a function whose start stays. -/
def BelongsTo (label : String) (position : Nat) : Prop :=
  ∃ first last, IsFunction code first last ∧ At (·.definedLabel? = some label) code first ∧
    ¬ gone first ∧ first ≤ position ∧ position ≤ last ∧ ¬ gone position

/-- Whether a call of a function has effects that stay. -/
inductive Stirs : String → Prop
  | own {label : String} {k : Nat} (belongs : BelongsTo code gone label k)
    (effects : At (fun i => !i.ownEffects.isPure) code k) : Stirs label
  | call {label callee : String} {k : Nat} (belongs : BelongsTo code gone label k)
    (calls : At (Usage.calledFunction? · = some callee) code k) (stirs : Stirs callee) :
    Stirs label

/-- Whether the evaluation of an expression has effects that stay. As in a survey, the instruction
that ends it counts only if it calls something, and nothing counts behind an end. -/
def Acts (first last : Nat) : Prop :=
  ∃ k, first ≤ k ∧ k ≤ last ∧ ¬ gone k ∧
    (∀ j < k, first ≤ j → ¬ swept j → ¬ At (·.markers.expressionEnd) code j) ∧
    (At (fun i => !i.markers.expressionEnd && !i.ownEffects.isPure) code k ∨
      ∃ callee, At (Usage.calledFunction? · = some callee) code k ∧ Stirs code gone callee)

/-- Whether an expression goes as a whole: its value is stored into a spent variable, and it has no
effects that stay. -/
structure Lapses (first last : Nat) : Prop where
  expression : IsExpression code first last
  left : ¬ swept last
  unread : ∃ v, At (receiver? · = some v) code last ∧ Spent code gone v
  quiet : ¬ Acts code swept gone first last

/-- Whether an instruction goes on its own: it stores into a spent variable or declares one. -/
structure Fades (position : Nat) : Prop where
  left : ¬ swept position
  unread : ∃ v, At (fun i => i.isLoose ∧ v ∈ i.vars) code position ∧ Spent code gone v ∧
    (At (·.opcode = .defvar) code position → freed v)

/-- Whether a set of positions contains everything that goes once the set is gone. -/
structure ClosedUnderRemoval : Prop where
  functions : ∀ k, swept k → gone k
  alone : ∀ k, Fades code swept gone freed k → gone k
  expressions : ∀ first last, Lapses code swept gone first last →
    ∀ k, first ≤ k → k ≤ last → gone k

end Goes

/-- Whether the instruction at a position goes. -/
def Goes (code : List Instruction) (swept : Nat → Prop) (freed : Variable → Prop)
    (position : Nat) : Prop :=
  ∀ gone, ClosedUnderRemoval code swept gone freed → gone position

section Placed

variable (code : List Instruction) (swept : Nat → Prop) (freed : Variable → Prop)

/-- Whether the declarations of a variable stay though it is not used: an expression that cannot go
is stored into it. -/
structure Retained (v : Variable) : Prop where
  lasting : v.frame ≠ .tf
  unused : ∀ k, At (fun i => 0 < i.occurrencesOf v) code k → swept k
  stored : ∃ first last, IsExpression code first last ∧ ¬ swept last ∧
    At (receiver? · = some v) code last ∧ ¬ Goes code swept (fun _ => True) last

/-- Whether nothing goes that is needed by what stays. -/
structure Secure : Prop where
  /-- A jump that is not sure to go leads to a label that stays. -/
  jumps : ∀ site label, At (·.jumpTarget? = some label) code site →
    ¬ Goes code swept (fun _ => False) site →
    ∃ target, At (·.definedLabel? = some label) code target ∧ ¬ Goes code swept freed target
  /-- The end of a function does not go on its own, and with an expression only if the start goes
  with it. -/
  ends : ∀ first last, IsFunction code first last → ¬ swept last →
    ¬ Fades code swept (Goes code swept freed) freed last ∧
      ∀ start store, Lapses code swept (Goes code swept freed) start store →
        start ≤ last → last ≤ store → start ≤ first
  /-- What goes on its own from an expression can hand its start on. -/
  marks : ∀ first last, IsExpression code first last → ∀ k ≤ last, first ≤ k →
    Fades code swept (Goes code swept freed) freed k → ¬ At (·.markers.expressionEnd) code k

end Placed

/-- Whether the parts of a program that go can go. -/
structure WellPlaced (code : List Instruction) : Prop
    extends Secure code (Deserted code) fun v => ¬ Retained code (Deserted code) v where
  /-- The start of an expression goes with a function only if the store goes with one too. -/
  starts : ∀ first last, IsExpression code first last → Deserted code first → Deserted code last

/-! ### Closed sets -/

section Monotone

variable {code : List Instruction} {swept gone more : Nat → Prop} {freed given : Variable → Prop}
  {v : Variable} {label : String} {first last k : Nat}

theorem Spent.mono (fewer : ∀ k, gone k → more k) (spent : Spent code gone v) :
    Spent code more v where
  lasting := spent.lasting
  unused k occurs := fewer k (spent.unused k occurs)

theorem BelongsTo.mono (fewer : ∀ k, gone k → more k) (belongs : BelongsTo code more label k) :
    BelongsTo code gone label k := by
  obtain ⟨first, last, function, named, stands, lower, upper, stays⟩ := belongs
  exact ⟨first, last, function, named, fun went => stands (fewer _ went), lower, upper,
    fun went => stays (fewer _ went)⟩

theorem Stirs.mono (fewer : ∀ k, gone k → more k) (stirs : Stirs code more label) :
    Stirs code gone label := by
  induction stirs with
  | own belongs effects => exact .own (belongs.mono fewer) effects
  | call belongs calls _ inductionHypothesis =>
    exact .call (belongs.mono fewer) calls inductionHypothesis

theorem Acts.mono (fewer : ∀ k, gone k → more k) (acts : Acts code swept more first last) :
    Acts code swept gone first last := by
  obtain ⟨k, lower, upper, stays, unended, effects⟩ := acts
  refine ⟨k, lower, upper, fun went => stays (fewer _ went), unended, effects.imp_right ?_⟩
  rintro ⟨callee, calls, stirs⟩
  exact ⟨callee, calls, stirs.mono fewer⟩

theorem Lapses.mono (fewer : ∀ k, gone k → more k) (lapses : Lapses code swept gone first last) :
    Lapses code swept more first last where
  expression := lapses.expression
  left := lapses.left
  unread := by
    obtain ⟨v, receives, spent⟩ := lapses.unread
    exact ⟨v, receives, spent.mono fewer⟩
  quiet acts := lapses.quiet (acts.mono fewer)

theorem Fades.mono (fewer : ∀ k, gone k → more k) (freely : ∀ v, freed v → given v)
    (fades : Fades code swept gone freed k) : Fades code swept more given k where
  left := fades.left
  unread := by
    obtain ⟨v, mentions, spent, declared⟩ := fades.unread
    exact ⟨v, mentions, spent.mono fewer, fun defines => freely v (declared defines)⟩

/-- What goes is a closed set. -/
theorem closedUnderRemoval_goes :
    ClosedUnderRemoval code swept (Goes code swept freed) freed where
  functions k went _ closed := closed.functions k went
  alone k fades gone closed :=
    closed.alone k (fades.mono (fun _ goes => goes gone closed) fun _ free => free)
  expressions first last lapses k lower upper gone closed :=
    closed.expressions first last (lapses.mono fun _ goes => goes gone closed) k lower upper

theorem Goes.mono (freely : ∀ v, freed v → given v) (goes : Goes code swept freed k) :
    Goes code swept given k := by
  refine fun gone closed => goes gone ⟨closed.functions, fun k fades => ?_, closed.expressions⟩
  exact closed.alone k (fades.mono (fun _ went => went) freely)

theorem closedUnderCalls_deserted : ClosedUnderCalls code (Deserted code) :=
  fun first last label function named called k lower upper gone closed =>
    closed first last label function named (fun site calls => called site calls gone closed) k
      lower upper

/-- Functions do not overlap. -/
theorem IsFunction.eq_first (ended : Ended code) {start stop : Nat}
    (function : IsFunction code first last) (other : IsFunction code start stop)
    (lower : first ≤ k) (upper : k ≤ last) (above : start ≤ k) (below : k ≤ stop) :
    first = start := by
  have alone : ∀ {first last start : Nat}, IsFunction code first last → first < start →
      start ≤ last → ¬ At (·.markers.functionStart) code start := by
    intro first last start function behind inside
    obtain ⟨ending, same, alone⟩ := exists_isFunction ended function.starts
    obtain rfl := function.eq_last same
    exact alone start inside behind
  rcases Nat.lt_trichotomy first start with less | same | more
  · exact absurd other.starts (alone function less (above.trans upper))
  · exact same
  · exact absurd function.starts (alone other more (lower.trans below))

/-- A function goes as a whole. -/
theorem Deserted.function (ended : Ended code) (function : IsFunction code first last)
    (lower : first ≤ k) (upper : k ≤ last) (deserted : Deserted code k) :
    ∀ j, first ≤ j → j ≤ last → Deserted code j := by
  -- what lies outside of the function, or in it if all of it goes, is a closed set
  refine (deserted (fun k => Deserted code k ∧ (first ≤ k → k ≤ last →
    ∀ j, first ≤ j → j ≤ last → Deserted code j)) ?_).2 lower upper
  intro start stop label other named called k above below
  have whole := closedUnderCalls_deserted start stop label other named
    fun site calls => (called site calls).1
  refine ⟨whole k above below, fun lower upper => ?_⟩
  obtain rfl := function.eq_first ended other lower upper above below
  obtain rfl := function.eq_last other
  exact whole

end Monotone

/-! ### Effects on record -/

theorem Effects.exists_has_iff {effects : Effects} :
    (∃ effect, effects.has effect) ↔ !effects.isPure := by
  rw [Bool.not_eq_true', ← Bool.not_eq_true]
  constructor
  · rintro ⟨effect, has⟩
    exact Effects.not_isPure_of_has has
  · intro impure
    by_contra none
    rw [not_exists] at none
    exact impure (decide_eq_true (Effects.eq_none_of_has none))

section Surveyed

variable {code : List Instruction} {usage : Usage} {label : String} {first last k : Nat}

/-- Where functions end before the next one starts, the bodies that a survey sees are functions. -/
theorem inFunction_iff (ended : Ended code) :
    InFunction label code k ↔ BelongsTo code Nowhere label k := by
  constructor
  · rintro ⟨first, reaches, defined⟩
    obtain ⟨last, function, -⟩ := exists_isFunction ended reaches.opened
    refine ⟨first, last, function, at_eq_some_iff.mpr defined, not_false, reaches.ordered, ?_,
      not_false⟩
    by_contra behind
    exact reaches.unclosed last (Nat.lt_of_not_le behind) function.ordered function.ends
  · rintro ⟨first, last, function, named, -, lower, upper, -⟩
    obtain ⟨ending, same, alone⟩ := exists_isFunction ended function.starts
    obtain rfl := function.eq_last same
    exact ⟨first, ⟨function.starts, lower, fun j le => alone j (le.trans upper),
      fun j less => function.nearest j (less.trans_le upper)⟩, at_eq_some_iff.mp named⟩

/-- A call has effects if the function causes one. -/
theorem exists_causes_iff (ended : Ended code) :
    (∃ effect, Causes code effect label) ↔ Stirs code Nowhere label := by
  constructor
  · rintro ⟨effect, source, path, k, i, there, inside, own⟩
    induction path using Relation.ReflTransGen.head_induction_on with
    | refl =>
      exact .own ((inFunction_iff ended).mp inside)
        (at_iff.mpr ⟨i, there, Effects.exists_has_iff.mp ⟨effect, own⟩⟩)
    | head call _ inductionHypothesis =>
      obtain ⟨site, j, here, around, called⟩ := call
      exact .call ((inFunction_iff ended).mp around) (at_iff.mpr ⟨j, here, decide_eq_true called⟩)
        inductionHypothesis
  · intro stirs
    induction stirs with
    | own belongs effects =>
      obtain ⟨i, there, impure⟩ := at_iff.mp effects
      obtain ⟨effect, has⟩ := Effects.exists_has_iff.mpr impure
      exact ⟨effect, _, .refl, _, i, there, (inFunction_iff ended).mpr belongs, has⟩
    | call belongs calls _ inductionHypothesis =>
      obtain ⟨effect, source, path, own⟩ := inductionHypothesis
      obtain ⟨i, there, called⟩ := at_iff.mp calls
      exact ⟨effect, source, path.head
        ⟨_, i, there, (inFunction_iff ended).mpr belongs, of_decide_eq_true called⟩, own⟩

/-- A survey puts effects on record for exactly the expressions that have effects. -/
theorem isPure_iff_of_survey (survey : Usage.survey code = .ok (usage, code)) (ended : Ended code)
    (expression : IsExpression code first last) : At (·.effects.isPure) code first ↔
      ¬ Acts code Nowhere Nowhere first last := by
  obtain ⟨start, here, found⟩ := has_effects_survey survey expression.starts
  rw [at_of_getElem? here, ← not_iff_not, not_not, Bool.not_eq_true, ← Bool.not_eq_true',
    ← Effects.exists_has_iff]
  simp only [found]
  constructor
  · rintro ⟨effect, k, i, there, inside, brings⟩
    have upper : k ≤ last := by
      by_contra behind
      obtain ⟨store, stored, closes⟩ := at_iff.mp expression.stores
      rw [closesExpression, decide_eq_true_eq] at closes
      exact inside.unclosed last (Nat.lt_of_not_le behind) expression.ordered
        (at_iff.mpr ⟨store, stored, closes.2⟩)
    refine ⟨k, inside.ordered, upper, not_false, fun j less above _ =>
      inside.unclosed j less above, brings.imp ?_ ?_⟩
    · rintro ⟨goesOn, has⟩
      have impure := Effects.exists_has_iff.mp ⟨effect, has⟩
      exact at_iff.mpr ⟨i, there, by simpa [goesOn] using impure⟩
    · rintro ⟨callee, called, causes⟩
      exact ⟨callee, at_iff.mpr ⟨i, there, decide_eq_true called⟩,
        (exists_causes_iff ended).mp ⟨effect, causes⟩⟩
  · rintro ⟨k, lower, upper, -, unended, effects⟩
    have inside : InExpression first code k := ⟨expression.starts, lower,
      fun j le => expression.nearest j (le.trans upper),
      fun j less above => unended j less above not_false⟩
    rcases effects with own | ⟨callee, calls, stirs⟩
    · obtain ⟨i, there, brings⟩ := at_iff.mp own
      rw [Bool.and_eq_true] at brings
      obtain ⟨effect, has⟩ := Effects.exists_has_iff.mpr brings.2
      exact ⟨effect, k, i, there, inside, Or.inl ⟨by simpa using brings.1, has⟩⟩
    · obtain ⟨i, there, called⟩ := at_iff.mp calls
      obtain ⟨effect, causes⟩ := (exists_causes_iff ended).mpr stirs
      exact ⟨effect, k, i, there, inside, Or.inr ⟨callee, of_decide_eq_true called, causes⟩⟩

end Surveyed

end ThreeAddress
