/-
The parts of a program that go at once: a function from its marked start to the
first marked end, an expression from the nearest start to the instruction that
stores its value, and single stores and declarations.

What is left of a program is an excerpt of it: `former` says where each
instruction stood before. An instruction that is left is what it was, but where
the start of an expression went on its own, the next instruction has become the
start. If nothing is left of a function without its start or of an expression
without a start, then functions and expressions of what is left are what is left
of functions and expressions.
-/
import ThreeAddress.Proofs.Deletions
import Mathlib.Data.Nat.Find
import Mathlib.Order.Monotone.Basic

namespace ThreeAddress

/-! ### Places -/

/-- Whether the instruction at a position satisfies a test. -/
def At (test : Instruction → Bool) (code : List Instruction) (position : Nat) : Prop :=
  code[position]?.any test

section At

variable {test : Instruction → Bool} {code : List Instruction} {position : Nat}

instance : Decidable (At test code position) :=
  inferInstanceAs (Decidable (code[position]?.any test = true))

theorem at_iff : At test code position ↔ ∃ i, code[position]? = some i ∧ test i :=
  Option.any_eq_true _ _

theorem at_of_getElem? {i : Instruction} (here : code[position]? = some i) :
    At test code position ↔ test i := by
  rw [At, here, Option.any_some]

theorem at_eq_some_iff {α : Type} [DecidableEq α] {read : Instruction → Option α} {found : α} :
    At (read · = some found) code position ↔ code[position]?.bind read = some found := by
  simp [at_iff, Option.bind_eq_some_iff]

theorem At.lt_length (found : At test code position) : position < code.length := by
  obtain ⟨i, there, -⟩ := at_iff.mp found
  exact (List.getElem?_eq_some_iff.mp there).1

end At

/-- Whether an instruction can go on its own. -/
def Instruction.isLoose (i : Instruction) : Bool :=
  i.opcode = .move ∨ i.opcode = .defvar

open Unused (closesExpression)

section Parts

variable (code : List Instruction)

/-- Whether a function reaches from one position to another. -/
structure IsFunction (first last : Nat) : Prop where
  starts : At (·.markers.functionStart) code first
  ordered : first ≤ last
  ends : At (·.markers.functionEnd) code last
  nearest : ∀ k < last, first ≤ k → ¬ At (·.markers.functionEnd) code k

/-- Whether an expression, the value of which is stored, reaches from one position to another. -/
structure IsExpression (first last : Nat) : Prop where
  starts : At (·.markers.expressionStart) code first
  ordered : first ≤ last
  stores : At closesExpression code last
  nearest : ∀ k ≤ last, first < k → ¬ At (·.markers.expressionStart) code k

/-- Whether each store of the value of an expression has a start at it or before it, with no other
such store in between. -/
def Opened : Prop :=
  ∀ last, At closesExpression code last → ∃ first ≤ last,
    At (·.markers.expressionStart) code first ∧
    ∀ k < last, first ≤ k → ¬ At closesExpression code k

/-- Whether each marked start of a function has an end at it or behind it, with no other start in
between. -/
def Ended : Prop :=
  ∀ first, At (·.markers.functionStart) code first → ∃ last < code.length, first ≤ last ∧
    At (·.markers.functionEnd) code last ∧
    ∀ k ≤ last, first < k → ¬ At (·.markers.functionStart) code k

end Parts

section Decidable

variable {code : List Instruction} {first last : Nat}

instance : Decidable (IsFunction code first last) :=
  decidable_of_iff
    (At (·.markers.functionStart) code first ∧ first ≤ last ∧
      At (·.markers.functionEnd) code last ∧
      ∀ k < last, first ≤ k → ¬ At (·.markers.functionEnd) code k)
    ⟨fun ⟨starts, ordered, ends, nearest⟩ => ⟨starts, ordered, ends, nearest⟩,
      fun ⟨starts, ordered, ends, nearest⟩ => ⟨starts, ordered, ends, nearest⟩⟩

instance : Decidable (IsExpression code first last) :=
  decidable_of_iff
    (At (·.markers.expressionStart) code first ∧ first ≤ last ∧ At closesExpression code last ∧
      ∀ k ≤ last, first < k → ¬ At (·.markers.expressionStart) code k)
    ⟨fun ⟨starts, ordered, stores, nearest⟩ => ⟨starts, ordered, stores, nearest⟩,
      fun ⟨starts, ordered, stores, nearest⟩ => ⟨starts, ordered, stores, nearest⟩⟩

instance : Decidable (Opened code) :=
  decidable_of_iff (∀ last < code.length, At closesExpression code last →
      ∃ first ≤ last, At (·.markers.expressionStart) code first ∧
        ∀ k < last, first ≤ k → ¬ At closesExpression code k)
    ⟨fun all last stores => all last stores.lt_length stores, fun all last _ => all last⟩

instance : Decidable (Ended code) :=
  decidable_of_iff (∀ first < code.length, At (·.markers.functionStart) code first →
      ∃ last < code.length, first ≤ last ∧ At (·.markers.functionEnd) code last ∧
        ∀ k ≤ last, first < k → ¬ At (·.markers.functionStart) code k)
    ⟨fun all first starts => all first starts.lt_length starts, fun all first _ => all first⟩

theorem IsFunction.inside (function : IsFunction code first last) :
    first < code.length ∧ last < code.length :=
  ⟨function.starts.lt_length, function.ends.lt_length⟩

theorem IsExpression.inside (expression : IsExpression code first last) :
    first < code.length ∧ last < code.length :=
  ⟨expression.starts.lt_length, expression.stores.lt_length⟩

end Decidable

section Existence

variable {code : List Instruction} {first last : Nat}

/-- A stored value belongs to an expression, in which no other value is stored. -/
theorem exists_isExpression (opened : Opened code) (stores : At closesExpression code last) :
    ∃ first, IsExpression code first last ∧
      ∀ k < last, first ≤ k → ¬ At closesExpression code k := by
  obtain ⟨early, before, marked, alone⟩ := opened last stores
  have later := Nat.le_findGreatest before marked
  refine ⟨Nat.findGreatest (At (·.markers.expressionStart) code) last,
    ⟨Nat.findGreatest_spec before marked, Nat.findGreatest_le _, stores, fun k le less =>
      Nat.findGreatest_is_greatest less le⟩, fun k less le => alone k less (later.trans le)⟩

theorem IsExpression.alone (opened : Opened code) (expression : IsExpression code first last) :
    ∀ k < last, first ≤ k → ¬ At closesExpression code k := by
  obtain ⟨other, same, alone⟩ := exists_isExpression opened expression.stores
  have later : other ≤ first := by
    by_contra behind
    exact expression.nearest other same.ordered (Nat.lt_of_not_le behind) same.starts
  exact fun k less le => alone k less (later.trans le)

/-- A marked start belongs to a function, in which no other function starts. -/
theorem exists_isFunction (ended : Ended code) (starts : At (·.markers.functionStart) code first) :
    ∃ last, IsFunction code first last ∧
      ∀ k ≤ last, first < k → ¬ At (·.markers.functionStart) code k := by
  obtain ⟨late, -, behind, marked, alone⟩ := ended first starts
  have some : ∃ k, first ≤ k ∧ At (·.markers.functionEnd) code k := ⟨late, behind, marked⟩
  obtain ⟨ordered, ends⟩ := Nat.find_spec some
  refine ⟨Nat.find some, ⟨starts, ordered, ends, fun k less le found =>
    Nat.find_min some less ⟨le, found⟩⟩, fun k le => alone k (le.trans ?_)⟩
  exact Nat.find_min' some ⟨behind, marked⟩

theorem IsExpression.eq_first {other : Nat} (expression : IsExpression code first last)
    (same : IsExpression code other last) : first = other := by
  rcases Nat.lt_trichotomy first other with less | equal | more
  · exact absurd same.starts (expression.nearest other same.ordered less)
  · exact equal
  · exact absurd expression.starts (same.nearest first expression.ordered more)

theorem IsFunction.eq_last {other : Nat} (function : IsFunction code first last)
    (same : IsFunction code first other) : last = other := by
  rcases Nat.lt_trichotomy last other with less | equal | more
  · exact absurd function.ends (same.nearest last less function.ordered)
  · exact equal
  · exact absurd same.ends (function.nearest other more same.ordered)

end Existence

/-! ### Excerpts -/

/-- Whether two instructions differ at most in their effects and in whether they start an
expression. -/
structure Kin (i j : Instruction) : Prop extends Usage.CountedAlike i j where
  functionEnd : i.markers.functionEnd = j.markers.functionEnd

namespace Kin

variable {i j : Instruction}

theorem closesExpression (kin : Kin i j) : closesExpression i = closesExpression j := by
  rw [Unused.closesExpression, Unused.closesExpression, kin.opcode, kin.expressionEnd]

theorem isLoose (kin : Kin i j) : i.isLoose = j.isLoose := by
  rw [Instruction.isLoose, Instruction.isLoose, kin.opcode]

end Kin

/-- Whether nothing that is left stood at a position. -/
def Gone (former : Nat → Nat) (position : Nat) : Prop :=
  ∀ k, former k ≠ position

/-- The set without any position. -/
abbrev Nowhere : Nat → Prop := fun _ => False

/-- Whether nothing is left from one position up to another, which is behind it. -/
def Vacated (former : Nat → Nat) (first last : Nat) : Prop :=
  first < last ∧ ∀ k, first ≤ k → k < last → Gone former k

/-- Whether a program is what is left of another one. `former` says where its instructions stood.
Where `handed` holds, an instruction has become the start of an expression, and nothing is left from
an earlier start up to it. -/
structure Excerpt (whole rest : List Instruction) (former : Nat → Nat) (handed : Nat → Prop) :
    Prop where
  increasing : StrictMono former
  same : ∀ test : Instruction → Bool, (∀ i j, Kin i j → test i = test j) →
    ∀ k, At test rest k ↔ At test whole (former k)
  starts : ∀ k, At (·.markers.expressionStart) rest k ↔
    At (·.markers.expressionStart) whole (former k) ∨ handed k
  source : ∀ k, handed k →
    ∃ start, At (·.markers.expressionStart) whole start ∧ Vacated former start (former k)

/-- Whether the end of a function is gone only with its start, and the start of an expression only
with its store or after it was handed on. -/
structure Separate (whole : List Instruction) (former : Nat → Nat) (handed : Nat → Prop) :
    Prop where
  ends : ∀ first last, IsFunction whole first last → Gone former last → Gone former first
  starts : ∀ first last, IsExpression whole first last → Gone former first →
    ¬ Gone former last → ∃ k, handed k ∧ Vacated former first (former k)

namespace Excerpt

variable {whole rest : List Instruction} {former : Nat → Nat} {handed : Nat → Prop}
  (excerpt : Excerpt whole rest former handed) (separate : Separate whole former handed)
  (ends : ∀ first last, IsFunction whole first last → Gone former last → Gone former first)
  (opened : Opened whole) (ended : Ended whole)

theorem exists_former {k : Nat} (stays : ¬ Gone former k) : ∃ l, former l = k := by
  simpa [Gone] using stays

theorem not_gone_former (k : Nat) : ¬ Gone former (former k) := fun gone => gone k rfl

include excerpt

theorem former_le_former {k l : Nat} : former k ≤ former l ↔ k ≤ l :=
  excerpt.increasing.le_iff_le

theorem former_lt_former {k l : Nat} : former k < former l ↔ k < l :=
  excerpt.increasing.lt_iff_lt

theorem functionStart (k : Nat) : At (·.markers.functionStart) rest k ↔
    At (·.markers.functionStart) whole (former k) :=
  excerpt.same _ (fun _ _ kin => kin.functionStart) k

theorem functionEnd (k : Nat) : At (·.markers.functionEnd) rest k ↔
    At (·.markers.functionEnd) whole (former k) :=
  excerpt.same _ (fun _ _ kin => kin.functionEnd) k

theorem expressionEnd (k : Nat) : At (·.markers.expressionEnd) rest k ↔
    At (·.markers.expressionEnd) whole (former k) :=
  excerpt.same _ (fun _ _ kin => kin.expressionEnd) k

theorem stores (k : Nat) : At closesExpression rest k ↔ At closesExpression whole (former k) :=
  excerpt.same _ (fun _ _ kin => kin.closesExpression) k

theorem definedLabel? (label : String) (k : Nat) : At (·.definedLabel? = some label) rest k ↔
    At (·.definedLabel? = some label) whole (former k) :=
  excerpt.same _ (fun _ _ kin => by rw [kin.definedLabel?]) k

theorem jumpTarget? (label : String) (k : Nat) : At (·.jumpTarget? = some label) rest k ↔
    At (·.jumpTarget? = some label) whole (former k) :=
  excerpt.same _ (fun _ _ kin => by rw [kin.jumpTarget?]) k

theorem calledFunction? (label : String) (k : Nat) :
    At (Usage.calledFunction? · = some label) rest k ↔
      At (Usage.calledFunction? · = some label) whole (former k) :=
  excerpt.same _ (fun _ _ kin => by rw [kin.calledFunction?]) k

include ends in
/-- What is left of a function is a function. -/
theorem exists_isFunction_rest {first last : Nat}
    (function : IsFunction whole (former first) last) :
    ∃ place, former place = last ∧ IsFunction rest first place := by
  have stays : ¬ Gone former last := fun gone =>
    not_gone_former first (ends _ _ function gone)
  obtain ⟨place, rfl⟩ := exists_former stays
  refine ⟨place, rfl, (excerpt.functionStart first).mpr function.starts,
    excerpt.former_le_former.mp function.ordered, (excerpt.functionEnd place).mpr function.ends,
    fun k less le found => ?_⟩
  exact function.nearest _ (excerpt.former_lt_former.mpr less) (excerpt.former_le_former.mpr le)
    ((excerpt.functionEnd k).mp found)

include ends ended in
/-- A function of what is left was a function before. -/
theorem isFunction {first last : Nat} (function : IsFunction rest first last) :
    IsFunction whole (former first) (former last) := by
  obtain ⟨other, before, -⟩ :=
    exists_isFunction ended ((excerpt.functionStart first).mp function.starts)
  obtain ⟨place, rfl, same⟩ := excerpt.exists_isFunction_rest ends before
  obtain rfl := function.eq_last same
  exact before

include separate opened in
/-- What is left of the expression of a stored value: its start is still there, or it was handed
on. -/
theorem exists_rest {last : Nat} (stores : At closesExpression rest last) :
    ∃ first earlier, IsExpression rest first last ∧ IsExpression whole earlier (former last) ∧
      (∀ k, first ≤ k ↔ earlier ≤ former k) ∧
      (earlier = former first ∨ (handed first ∧ Vacated former earlier (former first))) := by
  obtain ⟨earlier, before, -⟩ :=
    ThreeAddress.exists_isExpression opened ((excerpt.stores last).mp stores)
  -- a start behind the one that is left would be one of the expression, or handed on by one
  have nearest : ∀ first, earlier ≤ former first → ∀ k ≤ last, first < k →
      ¬ At (·.markers.expressionStart) rest k := by
    intro first lower k le more found
    rcases (excerpt.starts k).mp found with old | taken
    · exact before.nearest _ (excerpt.former_le_former.mpr le)
        (lower.trans_lt (excerpt.former_lt_former.mpr more)) old
    · obtain ⟨start, marked, less, vacated⟩ := excerpt.source k taken
      have behind : former first < start := by
        by_contra ahead
        exact not_gone_former first
          (vacated _ (Nat.le_of_not_lt ahead) (excerpt.former_lt_former.mpr more))
      exact before.nearest start (less.le.trans (excerpt.former_le_former.mpr le))
        (lower.trans_lt behind) marked
  by_cases gone : Gone former earlier
  · obtain ⟨first, taken, less, vacated⟩ :=
      separate.starts _ _ before gone (not_gone_former last)
    have reaches : ∀ k, first ≤ k ↔ earlier ≤ former k := by
      intro k
      constructor
      · exact fun le => less.le.trans (excerpt.former_le_former.mpr le)
      · intro le
        by_contra ahead
        exact not_gone_former k
          (vacated _ le (excerpt.former_lt_former.mpr (Nat.lt_of_not_le ahead)))
    exact ⟨first, earlier, ⟨(excerpt.starts _).mpr (Or.inr taken),
      (reaches last).mpr before.ordered, stores, nearest first less.le⟩, before, reaches,
      Or.inr ⟨taken, less, vacated⟩⟩
  · obtain ⟨first, rfl⟩ := exists_former gone
    exact ⟨first, _, ⟨(excerpt.starts _).mpr (Or.inl before.starts),
      excerpt.former_le_former.mp before.ordered, stores, nearest first le_rfl⟩, before,
      fun k => excerpt.former_le_former.symm, Or.inl rfl⟩

include separate opened in
/-- An expression of what is left is what is left of an expression. -/
theorem exists_isExpression {first last : Nat} (expression : IsExpression rest first last) :
    ∃ earlier, IsExpression whole earlier (former last) ∧
      (∀ k, first ≤ k ↔ earlier ≤ former k) ∧
      (earlier = former first ∨ (handed first ∧ Vacated former earlier (former first))) := by
  obtain ⟨other, earlier, same, found⟩ := excerpt.exists_rest separate opened expression.stores
  obtain rfl := expression.eq_first same
  exact ⟨earlier, found⟩

include separate opened in
/-- An expression whose store is left is left, apart from what is gone of it. -/
theorem exists_isExpression_rest {earlier last : Nat}
    (expression : IsExpression whole earlier (former last)) :
    ∃ first, IsExpression rest first last ∧ ∀ k, first ≤ k ↔ earlier ≤ former k := by
  obtain ⟨first, other, found, same, reaches, -⟩ :=
    excerpt.exists_rest separate opened ((excerpt.stores last).mpr expression.stores)
  obtain rfl := expression.eq_first same
  exact ⟨first, found, reaches⟩

include separate opened in
theorem opened_rest : Opened rest := by
  intro last stores
  obtain ⟨first, earlier, left, before, reaches, -⟩ := excerpt.exists_rest separate opened stores
  refine ⟨first, left.ordered, left.starts, fun k less le found => ?_⟩
  exact before.alone opened _ (excerpt.former_lt_former.mpr less) ((reaches k).mp le)
    ((excerpt.stores k).mp found)

include ends ended in
theorem ended_rest : Ended rest := by
  intro first starts
  obtain ⟨last, before, alone⟩ := exists_isFunction ended ((excerpt.functionStart first).mp starts)
  obtain ⟨place, rfl, function⟩ := excerpt.exists_isFunction_rest ends before
  refine ⟨place, function.ends.lt_length, function.ordered, function.ends,
    fun k le more found => ?_⟩
  exact alone _ (excerpt.former_le_former.mpr le) (excerpt.former_lt_former.mpr more)
    ((excerpt.functionStart k).mp found)

end Excerpt

theorem Excerpt.refl (code : List Instruction) : Excerpt code code id Nowhere where
  increasing := strictMono_id
  same _ _ _ := Iff.rfl
  starts _ := (or_iff_left not_false).symm
  source _ impossible := impossible.elim

/-- An excerpt of an excerpt, if nothing was handed on. -/
theorem Excerpt.trans {whole middle rest : List Instruction} {former later : Nat → Nat}
    (first : Excerpt whole middle former Nowhere)
    (second : Excerpt middle rest later Nowhere) :
    Excerpt whole rest (former ∘ later) Nowhere where
  increasing := first.increasing.comp second.increasing
  same test unaware k := (second.same test unaware k).trans (first.same test unaware _)
  starts k := by
    have earlier := first.starts (later k)
    have behind := second.starts k
    rw [or_false] at earlier behind ⊢
    exact behind.trans earlier
  source k impossible := impossible.elim

/-! ### Stretches of a list -/

theorem at_congr {related : Instruction → Instruction → Prop} {test : Instruction → Bool}
    {code other : List Instruction} (alike : List.Forall₂ related code other)
    (same : ∀ i j, related i j → test i = test j) (k : Nat) :
    At test code k ↔ At test other k := by
  induction alike generalizing k with
  | nil => rfl
  | cons head tail inductionHypothesis =>
    cases k with
    | zero => rw [At, At, List.getElem?_cons_zero, List.getElem?_cons_zero, Option.any_some,
        Option.any_some, same _ _ head]
    | succ k => exact inductionHypothesis k

theorem at_append_right {test : Instruction → Bool} {before after : List Instruction} (k : Nat) :
    At test (before ++ after) (before.length + k) ↔ At test after k := by
  rw [At, At, List.getElem?_append_right (Nat.le_add_right _ _), Nat.add_sub_cancel_left]

/-- A survey takes nothing away. -/
theorem excerpt_of_remarked {code other : List Instruction}
    (same : List.Forall₂ Unused.Remarked code other) : Excerpt code other id Nowhere where
  increasing := strictMono_id
  same test unaware k :=
    (at_congr same (fun _ _ found =>
      unaware _ _ ⟨found.alike, congrArg Markers.functionEnd found.markers⟩) k).symm
  starts k := by
    rw [or_false]
    exact (at_congr same (fun _ _ found => congrArg Markers.expressionStart found.markers) k).symm
  source k impossible := impossible.elim

/-- Where an instruction stood before a stretch of a program went. -/
def shifted (start size position : Nat) : Nat :=
  if position < start then position else position + size

section Shifted

variable {start size : Nat}

theorem strictMono_shifted : StrictMono (shifted start size) := by
  intro k l less
  unfold shifted
  split <;> split <;> omega

theorem gone_shifted_iff {k : Nat} :
    Gone (shifted start size) k ↔ start ≤ k ∧ k < start + size := by
  constructor
  · intro gone
    by_contra stays
    rcases Nat.lt_or_ge k start with before | behind
    · exact gone k (if_pos before)
    · refine gone (k - size) ?_
      rw [shifted, if_neg (by omega)]
      omega
  · rintro ⟨lower, upper⟩ l same
    unfold shifted at same
    split at same <;> omega

end Shifted

theorem at_shifted {test : Instruction → Bool} {before stretch after : List Instruction} (k : Nat) :
    At test (before ++ after) k ↔
      At test (before ++ (stretch ++ after)) (shifted before.length stretch.length k) := by
  unfold At shifted
  split
  · next early => rw [List.getElem?_append_left early, List.getElem?_append_left early]
  · next late =>
    rw [List.getElem?_append_right (by omega), List.getElem?_append_right (by omega),
      List.getElem?_append_right (by omega)]
    congr! 3
    omega

theorem kin_handOver (handed : Option Effects) (code : List Instruction) :
    List.Forall₂ Kin (Unused.handOver handed code) code := by
  have kin : ∀ i, Kin (Unused.takeOver i handed) i := by
    intro i
    cases handed <;> exact ⟨⟨rfl, rfl, rfl, rfl⟩, rfl⟩
  have same : ∀ code : List Instruction, List.Forall₂ Kin code code := fun code =>
    List.forall₂_same.mpr fun i _ => ⟨Usage.CountedAlike.refl i, rfl⟩
  cases code with
  | nil => exact List.Forall₂.nil
  | cons i rest => exact List.Forall₂.cons (kin i) (same rest)

/-- A stretch goes, and the instruction behind it takes over what is handed on. -/
theorem excerpt_handOver {before stretch after : List Instruction} {handed : Option Effects}
    (nonempty : stretch ≠ []) (source : handed.isSome →
      At (·.markers.expressionStart) (before ++ (stretch ++ after)) before.length) :
    Excerpt (before ++ (stretch ++ after)) (before ++ Unused.handOver handed after)
      (shifted before.length stretch.length)
      fun k => k = before.length ∧ handed.isSome ∧ after ≠ [] where
  increasing := strictMono_shifted
  same test unaware k := by
    have kin : List.Forall₂ Kin (before ++ Unused.handOver handed after) (before ++ after) :=
      List.rel_append (List.forall₂_same.mpr fun i _ => ⟨Usage.CountedAlike.refl i, rfl⟩)
        (kin_handOver handed after)
    exact (at_congr kin unaware k).trans (at_shifted k)
  starts k := by
    rw [← at_shifted]
    unfold At
    rcases Nat.lt_trichotomy k before.length with early | rfl | late
    · rw [List.getElem?_append_left early, List.getElem?_append_left early]
      simp [early.ne]
    · rw [List.getElem?_append_right le_rfl, List.getElem?_append_right le_rfl, Nat.sub_self]
      cases after with
      | nil => simp [Unused.handOver]
      | cons i rest => simp [Unused.handOver, or_comm]
    · rw [List.getElem?_append_right late.le, List.getElem?_append_right late.le]
      obtain ⟨further, eq⟩ := Nat.exists_eq_add_of_lt late
      rw [show k - before.length = further + 1 by omega]
      cases after with
      | nil => simp [Unused.handOver]
      | cons i rest => simp [Unused.handOver, late.ne']
  source k taken := by
    obtain ⟨rfl, handedOn, -⟩ := taken
    have size := List.length_pos_of_ne_nil nonempty
    have behind : shifted before.length stretch.length before.length =
        before.length + stretch.length := if_neg (Nat.lt_irrefl _)
    refine ⟨before.length, source handedOn, by omega, fun j lower upper => ?_⟩
    exact gone_shifted_iff.mpr ⟨lower, by omega⟩

theorem excerpt_stretch (before after : List Instruction) {stretch : List Instruction}
    (nonempty : stretch ≠ []) :
    Excerpt (before ++ (stretch ++ after)) (before ++ after)
      (shifted before.length stretch.length) Nowhere := by
  have excerpt := @excerpt_handOver before stretch after none nonempty (by simp)
  simpa [Unused.handOver_none] using excerpt

end ThreeAddress
