/-
What goes of what is left of a program. When some of what goes is gone, what
goes of the rest is what went of it before: the closed sets of a program and of
an excerpt of it correspond to each other, position by position, because what is
left of functions and expressions are functions and expressions. So nothing that
was read off the program at the beginning has to be found out again in the
middle of a removal, and what is well placed stays so.

`Removal` is what an excerpt has to satisfy for that. The two removals that take
place one by one satisfy it in a program that can be pruned: a store or a
declaration that goes on its own, and an expression that goes as a whole.
-/
import ThreeAddress.Proofs.Departures

namespace ThreeAddress

open Unused (receiver?)

/-! ### Removals -/

namespace Kin

variable {i j : Instruction}

theorem vars (kin : Kin i j) : i.vars = j.vars := by
  rw [Instruction.vars, Instruction.vars, kin.operands]

theorem ownEffects (kin : Kin i j) : i.ownEffects = j.ownEffects := by
  simp only [Instruction.ownEffects, Instruction.target?, kin.opcode, kin.operands]

theorem receiver? (kin : Kin i j) : receiver? i = receiver? j := by
  rw [Unused.receiver?, Unused.receiver?, kin.operands]

end Kin

section DesertedRest

variable {whole rest : List Instruction} {former : Nat → Nat} {handed : Nat → Prop}

/-- If functions that go are gone as a whole, then the functions that go of the rest are those that
go of the whole program. -/
theorem deserted_comp (excerpt : Excerpt whole rest former handed)
    (ends : ∀ first last, IsFunction whole first last → Gone former last → Gone former first)
    (ended : Ended whole)
    (entire : ∀ first last, IsFunction whole first last → Gone former first →
      ∀ k, first ≤ k → k ≤ last → Gone former k)
    (went : ∀ k, Gone former k → Deserted whole k) :
    Deserted rest = Deserted whole ∘ former := by
  refine funext fun k => propext ⟨fun deserted gone closed => ?_, fun deserted other closed => ?_⟩
  · refine deserted (gone ∘ former)
      fun first last label function named called k lower upper => ?_
    refine closed _ _ label (excerpt.isFunction ends ended function)
      ((excerpt.definedLabel? label first).mp named) (fun site calls => ?_) _
      (excerpt.former_le_former.mpr lower) (excerpt.former_le_former.mpr upper)
    by_cases absent : Gone former site
    · exact went site absent gone closed
    · obtain ⟨place, rfl⟩ := Excerpt.exists_former absent
      exact called place ((excerpt.calledFunction? label place).mpr calls)
  · refine deserted (fun k => ∀ l, former l = k → other l) ?_ k rfl
    rintro first last label function named called k lower upper l rfl
    by_cases absent : Gone former first
    · exact absurd rfl (entire first last function absent _ lower upper l)
    · obtain ⟨start, rfl⟩ := Excerpt.exists_former absent
      obtain ⟨stop, rfl, left⟩ := excerpt.exists_isFunction_rest ends function
      exact closed start stop label left ((excerpt.definedLabel? label start).mpr named)
        (fun site calls => called _ ((excerpt.calledFunction? label site).mp calls) site rfl) l
        (excerpt.former_le_former.mp lower) (excerpt.former_le_former.mp upper)

end DesertedRest

/-- Whether what is left of a program is left in order: besides what separates its parts, an
expression whose store is gone is gone, and if the store is left, then nothing is gone that ended
the expression early, but with functions. -/
structure Removal (swept : Nat → Prop) (whole rest : List Instruction) (former : Nat → Nat)
    (handed : Nat → Prop) : Prop extends Excerpt whole rest former handed where
  separate : Separate whole former handed
  opened : Opened whole
  ended : Ended whole
  entire : ∀ first last, IsExpression whole first last → ¬ swept last → Gone former last →
    ∀ k, first ≤ k → k ≤ last → Gone former k
  unended : ∀ first last, IsExpression whole first last → ¬ Gone former last →
    ∀ k, first ≤ k → k ≤ last → Gone former k → ¬ swept k →
      ¬ At (·.markers.expressionEnd) whole k

namespace Removal

variable {swept gone : Nat → Prop} {freed : Variable → Prop} {whole rest : List Instruction}
  {former : Nat → Nat} {handed : Nat → Prop} {v : Variable} {label : String}
  {first earlier last k : Nat} (removal : Removal swept whole rest former handed)
  (covers : ∀ k < whole.length, Gone former k → gone k)

include covers in
theorem exists_left (inside : k < whole.length) (stays : ¬ gone k) : ∃ l, former l = k :=
  Excerpt.exists_former fun went => stays (covers k inside went)

include removal

theorem occurs (v : Variable) (k : Nat) : At (fun i => 0 < i.occurrencesOf v) rest k ↔
    At (fun i => 0 < i.occurrencesOf v) whole (former k) :=
  removal.same _ (fun _ _ kin => by rw [kin.occurrencesOf]) k

include covers in
theorem spent_iff : Spent rest (gone ∘ former) v ↔ Spent whole gone v := by
  constructor
  · refine fun spent => ⟨spent.lasting, fun k found => ?_⟩
    by_contra stays
    obtain ⟨l, rfl⟩ := exists_left covers found.lt_length stays
    exact stays (spent.unused l ((removal.occurs v l).mpr found))
  · exact fun spent => ⟨spent.lasting, fun k found =>
      spent.unused _ ((removal.occurs v k).mp found)⟩

theorem belongsTo_whole (belongs : BelongsTo rest (gone ∘ former) label k) :
    BelongsTo whole gone label (former k) := by
  obtain ⟨first, last, function, named, stands, lower, upper, stays⟩ := belongs
  exact ⟨former first, former last, removal.isFunction removal.separate.ends removal.ended function,
    (removal.definedLabel? label first).mp named, stands, removal.former_le_former.mpr lower,
    removal.former_le_former.mpr upper, stays⟩

include covers in
theorem exists_belongsTo_rest (belongs : BelongsTo whole gone label k) :
    ∃ l, former l = k ∧ BelongsTo rest (gone ∘ former) label l := by
  obtain ⟨first, last, function, named, stands, lower, upper, stays⟩ := belongs
  obtain ⟨start, rfl⟩ := exists_left covers function.inside.1 stands
  obtain ⟨l, rfl⟩ := exists_left covers (upper.trans_lt function.inside.2) stays
  obtain ⟨stop, rfl, left⟩ := removal.exists_isFunction_rest removal.separate.ends function
  exact ⟨l, rfl, start, stop, left, (removal.definedLabel? label start).mpr named, stands,
    removal.former_le_former.mp lower, removal.former_le_former.mp upper, stays⟩

theorem effectful (k : Nat) : At (fun i => !i.ownEffects.isPure) rest k ↔
    At (fun i => !i.ownEffects.isPure) whole (former k) :=
  removal.same _ (fun _ _ kin => by rw [kin.ownEffects]) k

theorem stirs_whole (stirs : Stirs rest (gone ∘ former) label) : Stirs whole gone label := by
  induction stirs with
  | own belongs effects =>
    exact .own (removal.belongsTo_whole belongs) ((removal.effectful _).mp effects)
  | call belongs calls _ inductionHypothesis =>
    exact .call (removal.belongsTo_whole belongs) ((removal.calledFunction? _ _).mp calls)
      inductionHypothesis

include covers in
theorem stirs_rest (stirs : Stirs whole gone label) : Stirs rest (gone ∘ former) label := by
  induction stirs with
  | own belongs effects =>
    obtain ⟨l, rfl, left⟩ := removal.exists_belongsTo_rest covers belongs
    exact .own left ((removal.effectful _).mpr effects)
  | call belongs calls _ inductionHypothesis =>
    obtain ⟨l, rfl, left⟩ := removal.exists_belongsTo_rest covers belongs
    exact .call left ((removal.calledFunction? _ _).mpr calls) inductionHypothesis

theorem effectfulInside (k : Nat) :
    At (fun i => !i.markers.expressionEnd && !i.ownEffects.isPure) rest k ↔
      At (fun i => !i.markers.expressionEnd && !i.ownEffects.isPure) whole (former k) :=
  removal.same _ (fun _ _ kin => by rw [kin.expressionEnd, kin.ownEffects]) k

/-- The effects of what is left of an expression were effects of the expression. -/
theorem acts_whole (expression : IsExpression whole earlier (former last))
    (reaches : ∀ k, first ≤ k ↔ earlier ≤ former k)
    (acts : Acts rest (swept ∘ former) (gone ∘ former) first last) :
    Acts whole swept gone earlier (former last) := by
  obtain ⟨k, lower, upper, stays, unended, effects⟩ := acts
  refine ⟨former k, (reaches k).mp lower, removal.former_le_former.mpr upper, stays,
    fun j before above standing => ?_, ?_⟩
  · have inside : j ≤ former last := before.le.trans (removal.former_le_former.mpr upper)
    by_cases went : Gone former j
    · exact removal.unended _ _ expression (Excerpt.not_gone_former last) j above inside went
        standing
    · obtain ⟨l, rfl⟩ := Excerpt.exists_former went
      rw [← removal.expressionEnd]
      exact unended l (removal.former_lt_former.mp before) ((reaches l).mpr above) standing
  · refine effects.imp (removal.effectfulInside k).mp ?_
    rintro ⟨callee, calls, stirs⟩
    exact ⟨callee, (removal.calledFunction? _ _).mp calls, removal.stirs_whole stirs⟩

include covers in
/-- The effects of an expression that stay are effects of what is left of it. -/
theorem acts_rest (expression : IsExpression whole earlier (former last))
    (reaches : ∀ k, first ≤ k ↔ earlier ≤ former k)
    (acts : Acts whole swept gone earlier (former last)) :
    Acts rest (swept ∘ former) (gone ∘ former) first last := by
  obtain ⟨k, lower, upper, stays, unended, effects⟩ := acts
  obtain ⟨l, rfl⟩ := exists_left covers (upper.trans_lt expression.inside.2) stays
  refine ⟨l, (reaches l).mpr lower, removal.former_le_former.mp upper, stays,
    fun j before above standing => ?_, ?_⟩
  · rw [removal.expressionEnd]
    exact unended _ (removal.former_lt_former.mpr before) ((reaches j).mp above) standing
  · refine effects.imp (removal.effectfulInside l).mpr ?_
    rintro ⟨callee, calls, stirs⟩
    exact ⟨callee, (removal.calledFunction? _ _).mpr calls, removal.stirs_rest covers stirs⟩

theorem receives (v : Variable) (k : Nat) : At (receiver? · = some v) rest k ↔
    At (receiver? · = some v) whole (former k) :=
  removal.same _ (fun _ _ kin => by rw [kin.receiver?]) k

include covers in
theorem exists_lapses_whole (lapses : Lapses rest (swept ∘ former) (gone ∘ former) first last) :
    ∃ earlier, (∀ k, first ≤ k ↔ earlier ≤ former k) ∧
      Lapses whole swept gone earlier (former last) := by
  obtain ⟨earlier, expression, reaches, -⟩ :=
    removal.exists_isExpression removal.separate removal.opened lapses.expression
  obtain ⟨v, receives, spent⟩ := lapses.unread
  refine ⟨earlier, reaches, expression, lapses.left, ⟨v, (removal.receives v last).mp receives,
    (removal.spent_iff covers).mp spent⟩, fun acts => lapses.quiet ?_⟩
  exact removal.acts_rest covers expression reaches acts

include covers in
theorem exists_lapses_rest (lapses : Lapses whole swept gone earlier (former last)) :
    ∃ first, (∀ k, first ≤ k ↔ earlier ≤ former k) ∧
      Lapses rest (swept ∘ former) (gone ∘ former) first last := by
  obtain ⟨first, expression, reaches⟩ :=
    removal.exists_isExpression_rest removal.separate removal.opened lapses.expression
  obtain ⟨v, receives, spent⟩ := lapses.unread
  refine ⟨first, reaches, expression, lapses.left, ⟨v, (removal.receives v last).mpr receives,
    (removal.spent_iff covers).mpr spent⟩, fun acts => lapses.quiet ?_⟩
  exact removal.acts_whole lapses.expression reaches acts

include covers in
theorem fades_iff : Fades rest (swept ∘ former) (gone ∘ former) freed k ↔
    Fades whole swept gone freed (former k) := by
  have mentions : ∀ v, At (fun i => i.isLoose ∧ v ∈ i.vars) rest k ↔
      At (fun i => i.isLoose ∧ v ∈ i.vars) whole (former k) := fun v =>
    removal.same _ (fun _ _ kin => by rw [kin.isLoose, kin.vars]) k
  have defines : At (·.opcode = .defvar) rest k ↔ At (·.opcode = .defvar) whole (former k) :=
    removal.same _ (fun _ _ kin => by rw [kin.opcode]) k
  constructor
  · rintro ⟨left, v, mentioned, spent, declared⟩
    exact ⟨left, v, (mentions v).mp mentioned, (removal.spent_iff covers).mp spent,
      fun declares => declared (defines.mpr declares)⟩
  · rintro ⟨left, v, mentioned, spent, declared⟩
    exact ⟨left, v, (mentions v).mpr mentioned, (removal.spent_iff covers).mpr spent,
      fun declares => declared (defines.mp declares)⟩

include covers in
/-- What is left of a closed set that contains all that is gone is closed. -/
theorem closed_rest (closed : ClosedUnderRemoval whole swept gone freed) :
    ClosedUnderRemoval rest (swept ∘ former) (gone ∘ former) freed where
  functions k := closed.functions (former k)
  alone k fades := closed.alone _ ((removal.fades_iff covers).mp fades)
  expressions first last lapses k lower upper := by
    obtain ⟨earlier, reaches, whole⟩ := removal.exists_lapses_whole covers lapses
    exact closed.expressions _ _ whole _ ((reaches k).mp lower)
      (removal.former_le_former.mpr upper)

/-- Together with what is gone, a closed set of what is left is closed. -/
theorem closed_whole {other : Nat → Prop}
    (closed : ClosedUnderRemoval rest (swept ∘ former) other freed) :
    ClosedUnderRemoval whole swept (fun k => ∀ l, former l = k → other l) freed := by
  have covers : ∀ k < whole.length, Gone former k → ∀ l, former l = k → other l :=
    fun k _ went l same => absurd same (went l)
  have left : (fun k => ∀ l, former l = k → other l) ∘ former = other := by
    refine funext fun k => propext ⟨fun all => all k rfl, fun inside l same => ?_⟩
    rwa [removal.increasing.injective same]
  refine ⟨?_, ?_, ?_⟩
  · rintro k went l rfl
    exact closed.functions l went
  · rintro k fades l rfl
    rw [← removal.fades_iff covers, left] at fades
    exact closed.alone l fades
  · rintro first last lapses k lower upper l rfl
    by_cases went : Gone former last
    · exact absurd rfl
        (removal.entire first last lapses.expression lapses.left went _ lower upper l)
    · obtain ⟨stop, rfl⟩ := Excerpt.exists_former went
      obtain ⟨start, reaches, lapsing⟩ := removal.exists_lapses_rest covers lapses
      rw [left] at lapsing
      exact closed.expressions start stop lapsing l ((reaches l).mpr lower)
        (removal.former_le_former.mp upper)

theorem goes_rest (goes : Goes whole swept freed (former k)) :
    Goes rest (swept ∘ former) freed k :=
  fun _ closed => goes _ (removal.closed_whole closed) k rfl

/-- If only what goes is gone, then what goes of the rest is what goes of the whole program. -/
theorem goes_comp (went : ∀ k < whole.length, Gone former k → Goes whole swept freed k) :
    Goes rest (swept ∘ former) freed = Goes whole swept freed ∘ former := by
  refine funext fun k => propext ⟨fun goes gone closed => ?_, removal.goes_rest⟩
  exact goes _ (removal.closed_rest (fun k inside left => went k inside left gone closed) closed)

/-- What is secure stays secure when something goes. -/
theorem secure (went : ∀ k < whole.length, Gone former k → Goes whole swept freed k)
    (secure : Secure whole swept freed) : Secure rest (swept ∘ former) freed where
  jumps site label leads stays := by
    obtain ⟨target, defined, standing⟩ := secure.jumps (former site) label
      ((removal.jumpTarget? label site).mp leads) fun goes => stays (removal.goes_rest goes)
    obtain ⟨place, rfl⟩ := exists_left went defined.lt_length standing
    refine ⟨place, (removal.definedLabel? label place).mpr defined, ?_⟩
    rwa [removal.goes_comp went]
  ends first last function left := by
    rw [removal.goes_comp went]
    obtain ⟨firm, escorted⟩ := secure.ends _ _
      (removal.isFunction removal.separate.ends removal.ended function) left
    refine ⟨fun fades => firm ((removal.fades_iff went).mp fades),
      fun start store lapses lower upper => ?_⟩
    obtain ⟨earlier, reaches, lapsing⟩ := removal.exists_lapses_whole went lapses
    exact (reaches first).mpr (escorted _ _ lapsing ((reaches last).mp lower)
      (removal.former_le_former.mpr upper))
  marks first last expression k upper lower fades := by
    rw [removal.goes_comp went, removal.fades_iff went] at fades
    obtain ⟨earlier, before, reaches, -⟩ :=
      removal.exists_isExpression removal.separate removal.opened expression
    rw [removal.expressionEnd]
    exact secure.marks _ _ before _ (removal.former_le_former.mpr upper) ((reaches k).mp lower)
      fades

theorem retained
    (went : ∀ k < whole.length, Gone former k → Goes whole swept (fun _ => True) k)
    (retained : Retained whole swept v) : Retained rest (swept ∘ former) v where
  lasting := retained.lasting
  unused k found := retained.unused _ ((removal.occurs v k).mp found)
  stored := by
    obtain ⟨first, last, expression, left, receives, stays⟩ := retained.stored
    obtain ⟨store, rfl⟩ := exists_left went expression.inside.2 stays
    obtain ⟨start, found, -⟩ :=
      removal.exists_isExpression_rest removal.separate removal.opened expression
    refine ⟨start, store, found, left, (removal.receives v store).mpr receives, ?_⟩
    rwa [removal.goes_comp went]

end Removal

/-! ### Programs that can be pruned -/

/-- What the removal of unused variables relies on, if functions are gone already. -/
structure Prunable (code : List Instruction) (freed : Variable → Prop) : Prop where
  opened : Opened code
  ended : Ended code
  labelled : ∀ k, At (·.markers.functionStart) code k → At (·.definedLabel?.isSome) code k
  secure : Secure code Nowhere freed
  retained : ∀ v, ¬ freed v → Retained code Nowhere v

/-- Whatever goes, what is left can be pruned. -/
theorem Removal.prunable {swept : Nat → Prop} {whole rest : List Instruction} {former : Nat → Nat}
    {handed : Nat → Prop} {freed : Variable → Prop}
    (removal : Removal swept whole rest former handed)
    (labelled : ∀ k, At (·.markers.functionStart) whole k → At (·.definedLabel?.isSome) whole k)
    (secure : Secure whole swept freed) (retained : ∀ v, ¬ freed v → Retained whole swept v)
    (went : ∀ k < whole.length, Gone former k → Goes whole swept freed k)
    (left : swept ∘ former = Nowhere) : Prunable rest freed where
  opened := removal.opened_rest removal.separate removal.opened
  ended := removal.ended_rest removal.separate.ends removal.ended
  labelled k found := by
    rw [removal.same (·.definedLabel?.isSome) (fun _ _ kin => by rw [kin.definedLabel?])]
    exact labelled _ ((removal.functionStart k).mp found)
  secure := left ▸ removal.secure went secure
  retained v kept := by
    have given : ∀ k < whole.length, Gone former k → Goes whole swept (fun _ => True) k :=
      fun k inside gone => (went k inside gone).mono fun _ _ => trivial
    exact left ▸ removal.retained given (retained v kept)

/-- A survey only puts effects on record. -/
theorem Prunable.remarked {code other : List Instruction} {freed : Variable → Prop}
    (prunable : Prunable code freed) (same : List.Forall₂ Unused.Remarked code other) :
    Prunable other freed := by
  have never : ∀ k, ¬ Gone id k := fun k gone => gone k rfl
  have removal : Removal Nowhere code other id Nowhere :=
    ⟨excerpt_of_remarked same, ⟨fun _ _ _ gone => absurd gone (never _),
      fun _ _ _ gone => absurd gone (never _)⟩, prunable.opened, prunable.ended,
      fun _ _ _ _ gone => absurd gone (never _), fun _ _ _ _ k _ _ gone => absurd gone (never k)⟩
  exact removal.prunable prunable.labelled prunable.secure prunable.retained
    (fun k _ gone => absurd gone (never k)) rfl

/-- Whether effects are on record for every expression that has some. -/
def Honest (code : List Instruction) : Prop :=
  ∀ first last, IsExpression code first last → At (·.effects.isPure) code first →
    ¬ Acts code Nowhere Nowhere first last

/-- What is on record stays with what is left, if what is handed on is recorded with it. -/
theorem Removal.honest {whole rest : List Instruction} {former : Nat → Nat} {handed : Nat → Prop}
    (removal : Removal Nowhere whole rest former handed)
    (recorded : ∀ k, At (·.effects.isPure) rest k → At (·.effects.isPure) whole (former k))
    (taken : ∀ k start, handed k → Vacated former start (former k) →
      At (·.effects.isPure) rest k → At (·.effects.isPure) whole start)
    (honest : Honest whole) : Honest rest := by
  intro first last expression pure acts
  obtain ⟨earlier, before, reaches, origin⟩ :=
    removal.exists_isExpression removal.separate removal.opened expression
  refine honest _ _ before ?_ (removal.acts_whole before reaches acts)
  rcases origin with rfl | ⟨handedOn, vacated⟩
  · exact recorded first pure
  · exact taken first earlier handedOn vacated pure

/-- What holds at each moment of a pass. -/
structure Underway (code : List Instruction) (freed : Variable → Prop) : Prop extends
    Prunable code freed where
  honest : Honest code

/-- Whatever goes, a pass can go on with what is left. -/
theorem Underway.of_removal {whole rest : List Instruction} {former : Nat → Nat}
    {handed : Nat → Prop} {freed : Variable → Prop} (underway : Underway whole freed)
    (removal : Removal Nowhere whole rest former handed)
    (went : ∀ k < whole.length, Gone former k → Goes whole Nowhere freed k)
    (recorded : ∀ k, At (·.effects.isPure) rest k → At (·.effects.isPure) whole (former k))
    (taken : ∀ k start, handed k → Vacated former start (former k) →
      At (·.effects.isPure) rest k → At (·.effects.isPure) whole start) :
    Underway rest freed where
  toPrunable := removal.prunable underway.labelled underway.secure underway.retained went rfl
  honest := removal.honest recorded taken underway.honest

/-! ### One removal -/

section OneRemoval

variable {whole rest : List Instruction} {former : Nat → Nat} {handed : Nat → Prop}
  {freed : Variable → Prop}

/-- What fades can go, if it can hand on the start of an expression. -/
theorem Prunable.removal_of_fades {place : Nat} (prunable : Prunable whole freed)
    (fades : Fades whole Nowhere (Goes whole Nowhere freed) freed place)
    (plain : ¬ At Unused.closesExpression whole place)
    (excerpt : Excerpt whole rest former handed) (gone : ∀ k, Gone former k ↔ k = place)
    (handsOn : At (·.markers.expressionStart) whole place →
      ¬ At (·.markers.expressionEnd) whole place → place + 1 < whole.length →
      ∃ k, handed k ∧ former k = place + 1) : Removal Nowhere whole rest former handed where
  toExcerpt := excerpt
  opened := prunable.opened
  ended := prunable.ended
  separate := by
    refine ⟨fun first last function absent => ?_, fun first last expression absent stays => ?_⟩
    · obtain rfl := (gone last).mp absent
      exact absurd fades (prunable.secure.ends _ _ function not_false).1
    · obtain rfl := (gone first).mp absent
      have behind : first + 1 ≤ last := Nat.lt_of_le_of_ne expression.ordered fun same =>
        stays ((gone last).mpr same.symm)
      obtain ⟨k, taken, next⟩ := handsOn expression.starts
        (prunable.secure.marks _ _ expression first expression.ordered le_rfl fades)
        (behind.trans_lt expression.inside.2)
      refine ⟨k, taken, by omega, fun j lower upper => (gone j).mpr ?_⟩
      omega
  entire first last expression _ absent := by
    obtain rfl := (gone last).mp absent
    exact absurd expression.stores plain
  unended first last expression _ k lower upper absent _ := by
    obtain rfl := (gone k).mp absent
    exact prunable.secure.marks _ _ expression k upper lower fades

/-- An expression that lapses can go. -/
theorem Prunable.removal_of_lapses {start stop : Nat} (prunable : Prunable whole freed)
    (lapses : Lapses whole Nowhere (Goes whole Nowhere freed) start stop)
    (excerpt : Excerpt whole rest former Nowhere)
    (gone : ∀ k, Gone former k ↔ start ≤ k ∧ k ≤ stop) :
    Removal Nowhere whole rest former Nowhere := by
  -- another expression is not touched, because it has no other store in it
  have apart : ∀ first last, IsExpression whole first last → ¬ Gone former last →
      ∀ k, first ≤ k → k ≤ last → ¬ Gone former k := by
    intro first last expression stays k lower upper absent
    rw [gone] at absent stays
    exact expression.alone prunable.opened stop (by omega) (by omega) lapses.expression.stores
  refine ⟨excerpt, ⟨fun first last function absent => ?_, fun first last expression absent stays =>
    absurd absent (apart first last expression stays first le_rfl expression.ordered)⟩,
    prunable.opened, prunable.ended, fun first last expression _ absent k lower upper => ?_,
    fun first last expression stays k lower upper absent _ =>
      absurd absent (apart first last expression stays k lower upper)⟩
  · rw [gone] at absent ⊢
    have order := function.ordered
    exact ⟨(prunable.secure.ends _ _ function not_false).2 _ _ lapses absent.1 absent.2, by omega⟩
  · rw [gone] at absent ⊢
    obtain rfl : last = stop := by
      by_contra other
      exact lapses.expression.alone prunable.opened last (by omega) absent.1 expression.stores
    obtain rfl := expression.eq_first lapses.expression
    exact ⟨lower, upper⟩

end OneRemoval

end ThreeAddress
