/-
The removal of unused functions takes enough and not too much. A program in
which each marked start of a function defines a label and has its end before the
next start is a list of parts: whole functions, and single instructions outside
of them. A sweep drops functions one by one, each at a moment at which what is
left of the program has no call of it, and the counts say so because they are
kept up to date on the way. Whatever the order, two things follow by induction
on the drops. Nothing goes that is called from outside, or from a function that
is called from outside, and so on: the first function of such a chain to go
would still be called. And when a sweep drops nothing, every function that is
left has a call that is left, so what is left are the parts of the program that
are still called.

A survey only notes effects, which a sweep does not look at. So sweeps are
followed on the program as it is given, and `Remarked` carries the result over.
-/
import ThreeAddress.Proofs.ChangeBound
import ThreeAddress.Proofs.Units
import Mathlib.Data.List.Flatten

namespace ThreeAddress

/-! ### Programs that can be surveyed -/

namespace Survey

theorem isOk_scan {position : Nat} {code : List Instruction} {s : Survey} :
    (scan position code s).isOk ↔
      ∀ i ∈ code, i.markers.functionStart → i.definedLabel?.isSome := by
  induction code generalizing position s with
  | nil => simp [scan, Except.isOk, Except.toBool]
  | cons i rest inductionHypothesis =>
    rw [List.forall_mem_cons, scan, scanOne, enterFunction]
    split
    · next marked =>
      cases label : i.definedLabel? with
      | none => simp [marked, bind, Except.bind, Except.isOk, Except.toBool]
      | some name => simpa [bind, Except.bind, pure, Except.pure] using inductionHypothesis
    · next unmarked =>
      simpa [unmarked, bind, Except.bind, pure, Except.pure] using inductionHypothesis

end Survey

/-- A program can be surveyed if and only if the marked starts of functions define labels. -/
theorem isOk_survey_iff {code : List Instruction} : (Usage.survey code).isOk ↔
    ∀ i ∈ code, i.markers.functionStart → i.definedLabel?.isSome := by
  have scanned : (Usage.survey code).isOk = (Survey.scan 0 code {}).isOk := by
    unfold Usage.survey
    cases Survey.scan 0 code {} <;> rfl
  rw [scanned, Survey.isOk_scan]

theorem isOk_survey {code : List Instruction} : (Usage.survey code).isOk ↔
    ∀ k, At (·.markers.functionStart) code k → At (·.definedLabel?.isSome) code k := by
  rw [isOk_survey_iff]
  constructor
  · intro labelled k found
    obtain ⟨i, there, marked⟩ := at_iff.mp found
    exact at_iff.mpr ⟨i, there, labelled i (List.mem_of_getElem? there) marked⟩
  · intro labelled i member marked
    obtain ⟨k, there⟩ := List.mem_iff_getElem?.mp member
    exact (at_of_getElem? there).mp (labelled k ((at_of_getElem? there).mpr marked))

theorem Usage.startedFunction?_eq_some {i : Instruction} {label : String} :
    startedFunction? i = some label ↔ i.markers.functionStart ∧ i.definedLabel? = some label := by
  rw [startedFunction?, Option.ite_none_right_eq_some]

namespace Unused

open Relation

/-! ### Sweeps without a bound -/

/-- What sweeps come to that go on until one fails or drops nothing, however many that takes. -/
inductive Subsides : Edit → Except Halt Edit → Prop
  | failed {edit : Edit} {halt : Halt}
    (swept : sweepFrom false edit.code edit.usage [] 0 = .error halt) :
    Subsides edit (.error halt)
  | settled {edit next : Edit} (swept : sweepFrom false edit.code edit.usage [] 0 = .ok next)
    (unchanged : next.changes = 0) : Subsides edit (.ok edit)
  | again {edit next : Edit} {outcome : Except Halt Edit}
    (swept : sweepFrom false edit.code edit.usage [] 0 = .ok next) (changed : next.changes ≠ 0)
    (rest : Subsides { next with changes := edit.changes + next.changes } outcome) :
    Subsides edit outcome

/-- More sweeps than there are instructions are enough, since each function has one. -/
theorem subsides_sweepFunctions {sweeps : Nat} {edit : Edit}
    (enough : edit.code.length < sweeps) : Subsides edit (sweepFunctions sweeps edit) := by
  induction sweeps generalizing edit with
  | zero => exact absurd enough (Nat.not_lt_zero _)
  | succ sweeps inductionHypothesis =>
    unfold sweepFunctions
    cases swept : sweepFrom false edit.code edit.usage [] 0 with
    | error halt => exact .failed swept
    | ok next =>
      have shorter := weigh_sweepFrom (fun _ => Nat.one_pos) swept
      rw [weigh_one, weigh_one, List.nil_append, Nat.zero_add] at shorter
      show Subsides _ (if next.changes = 0 then _ else _)
      split
      · next unchanged => exact .settled swept unchanged
      · next changed =>
        refine .again swept changed (inductionHypothesis ?_)
        show next.code.length < sweeps
        omega

/-! ### A sweep does not look at effects -/

theorem remove_remarked (usage : Usage) {i j : Instruction} (same : Remarked i j) :
    usage.remove i = usage.remove j := by
  obtain ⟨opcode, operands, markers, effects⟩ := i
  obtain ⟨rfl, rfl, rfl, -⟩ := same
  rfl

theorem any_remarked {code other : List Instruction} (same : List.Forall₂ Remarked code other) :
    (code.any fun i => i.markers.functionEnd) = other.any fun i => i.markers.functionEnd := by
  induction same with
  | nil => rfl
  | cons head _ inductionHypothesis =>
    rw [List.any_cons, List.any_cons, head.markers, inductionHypothesis]

theorem sweepFrom_remarked {dropping : Bool} {rest other done others : List Instruction}
    {usage : Usage} {changes : Nat} {edit : Edit} (same : List.Forall₂ Remarked rest other)
    (kept : List.Forall₂ Remarked done others)
    (swept : sweepFrom dropping rest usage done changes = .ok edit) :
    ∃ code, List.Forall₂ Remarked edit.code code ∧
      sweepFrom dropping other usage others changes = .ok { edit with code } := by
  induction same generalizing dropping usage done others changes with
  | nil =>
    obtain rfl := Except.ok.inj swept
    exact ⟨others.reverse, List.rel_reverse kept, rfl⟩
  | @cons i j rest other head tail inductionHypothesis =>
    cases dropping with
    | true =>
      unfold sweepFrom at swept ⊢
      rw [head.markers, remove_remarked usage head] at swept
      exact inductionHypothesis kept swept
    | false =>
      unfold sweepFrom at swept ⊢
      rw [uncalled?, head.alike.startedFunction?, ← uncalled?, head.markers,
        remove_remarked usage head, any_remarked (List.Forall₂.cons head tail)] at swept
      split at swept
      · exact inductionHypothesis (List.Forall₂.cons head kept) swept
      · split at swept
        · next ends =>
          rw [if_pos ends]
          exact inductionHypothesis kept swept
        · exact absurd swept (by simp)

theorem sweepFunctions_remarked (sweeps : Nat) {edit result : Edit} {code : List Instruction}
    (same : List.Forall₂ Remarked edit.code code)
    (swept : sweepFunctions sweeps edit = .ok result) :
    ∃ left, List.Forall₂ Remarked result.code left ∧
      sweepFunctions sweeps { edit with code } = .ok { result with code := left } := by
  induction sweeps generalizing edit code with
  | zero =>
    obtain rfl := Except.ok.inj swept
    exact ⟨code, same, rfl⟩
  | succ sweeps inductionHypothesis =>
    obtain ⟨next, one, rest⟩ := exists_ok_of_bind swept
    obtain ⟨after, follows, other⟩ := sweepFrom_remarked same List.Forall₂.nil one
    unfold sweepFunctions
    rw [other]
    dsimp only [bind, Except.bind]
    split at rest
    · next unchanged =>
      obtain rfl := Except.ok.inj rest
      exact ⟨code, same, if_pos unchanged⟩
    · next changed =>
      rw [if_neg changed]
      exact @inductionHypothesis { next with changes := edit.changes + next.changes } after follows
        rest

/-! ### Functions and what is outside of them -/

/-- A whole function: from its marked start, which defines its label, to the first marked end, with
no other start in between. -/
structure Region where
  label : String
  start : Instruction
  body : List Instruction
  starts : Usage.startedFunction? start = some label
  alone : ∀ i ∈ body, ¬ i.markers.functionStart
  ends : ∃ inner last, start :: body = inner ++ [last] ∧ last.markers.functionEnd ∧
    ∀ i ∈ inner, ¬ i.markers.functionEnd

/-- A function, or an instruction outside of all functions. -/
inductive Part where
  | region (region : Region)
  | outside (i : Instruction) (unmarked : ¬ i.markers.functionStart)

namespace Part

def code : Part → List Instruction
  | region r => r.start :: r.body
  | outside i _ => [i]

def label? : Part → Option String
  | region r => some r.label
  | outside _ _ => none

/-- Whether a part is no function, or one that is called in a program. -/
def isCalled (code : List Instruction) (part : Part) : Bool :=
  part.label?.all fun label => 0 < Usage.callsIn code label

theorem length_code_pos (part : Part) : 0 < part.code.length := by
  cases part <;> exact Nat.succ_pos _

end Part

/-- The program that parts make up. -/
def assemble (parts : List Part) : List Instruction :=
  parts.flatMap Part.code

section Assemble

variable {parts before after : List Part} {part : Part} {r : Region} {label : String}

theorem assemble_append : assemble (before ++ after) = assemble before ++ assemble after :=
  List.flatMap_append

theorem assemble_cons : assemble (part :: after) = part.code ++ assemble after :=
  List.flatMap_cons

theorem reverse_assemble_concat : (assemble (before ++ [part])).reverse =
    part.code.reverse ++ (assemble before).reverse := by
  rw [assemble_append, List.reverse_append, assemble, List.flatMap_singleton]

theorem length_le_assemble : parts.length ≤ (assemble parts).length := by
  induction parts with
  | nil => exact Nat.le_refl _
  | cons part parts inductionHypothesis =>
    rw [assemble_cons, List.length_append, List.length_cons]
    have nonempty := part.length_code_pos
    omega

/-- A call in a part is a call in the program. -/
theorem callsIn_pos_of_mem (member : part ∈ parts) (calls : 0 < Usage.callsIn part.code label) :
    0 < Usage.callsIn (assemble parts) label := by
  obtain ⟨i, inside, called⟩ := List.countP_pos_iff.mp calls
  exact List.countP_pos_iff.mpr ⟨i, List.mem_flatMap.mpr ⟨part, member, inside⟩, called⟩

/-- A function starts only where a part does. -/
theorem exists_region_of_started {i : Instruction} (member : i ∈ assemble parts)
    (started : Usage.startedFunction? i = some label) :
    ∃ r, .region r ∈ parts ∧ r.label = label := by
  have marked := (Usage.startedFunction?_eq_some.mp started).1
  obtain ⟨part, found, inside⟩ := List.mem_flatMap.mp member
  cases part with
  | region r =>
    obtain rfl | behind := List.mem_cons.mp inside
    · exact ⟨r, found, Option.some_inj.mp (r.starts.symm.trans started)⟩
    · exact absurd marked (r.alone i behind)
  | outside j unmarked =>
    obtain rfl := List.mem_singleton.mp inside
    exact absurd marked unmarked

end Assemble

/-! ### A program is made of parts -/

theorem ended_of_append {before after : List Instruction} (ended : Ended (before ++ after)) :
    Ended after := by
  intro first starts
  obtain ⟨last, bound, ordered, ends, alone⟩ := ended _ ((at_append_right first).mpr starts)
  obtain ⟨further, rfl⟩ := Nat.exists_eq_add_of_le (Nat.le_of_add_right_le ordered)
  rw [List.length_append] at bound
  refine ⟨further, by omega, by omega, (at_append_right further).mp ends,
    fun k le less started => ?_⟩
  exact alone _ (by omega) (by omega) ((at_append_right k).mpr started)

theorem exists_first_end {code : List Instruction} (ends : ∃ i ∈ code, i.markers.functionEnd) :
    ∃ inner last after, code = inner ++ last :: after ∧ last.markers.functionEnd ∧
      ∀ j ∈ inner, ¬ j.markers.functionEnd := by
  obtain ⟨last, found⟩ : ∃ last, code.find? (·.markers.functionEnd) = some last :=
    Option.isSome_iff_exists.mp (List.find?_isSome.mpr ends)
  obtain ⟨closes, inner, after, split, inside⟩ := List.find?_eq_some_iff_append.mp found
  exact ⟨inner, last, after, split, closes, fun j member => by simpa using inside j member⟩

/-- A function whose end comes before the next start is a region, and the program goes on behind
it. -/
theorem exists_region {i : Instruction} {rest : List Instruction} {label : String}
    (ended : Ended (i :: rest)) (started : Usage.startedFunction? i = some label)
    (marked : i.markers.functionStart) :
    ∃ r after, i :: rest = (Part.region r).code ++ after := by
  obtain ⟨finish, -, -, ends, alone⟩ := ended 0 ((at_of_getElem? rfl).mpr marked)
  obtain ⟨closing, there, closes⟩ := at_iff.mp ends
  obtain ⟨inner, last, after, split, finishes, inside⟩ :=
    exists_first_end ⟨closing, List.mem_of_getElem? there, closes⟩
  have whole : i :: rest.take inner.length = inner ++ [last] := by
    rw [← List.take_succ_cons, split, List.append_cons]
    exact List.take_left' (by simp)
  -- the end that is promised need not be the first one, but it is not before it
  have reaches : inner.length ≤ finish := by
    by_contra less
    rw [split, List.getElem?_append_left (by omega)] at there
    exact inside closing (List.mem_of_getElem? there) closes
  refine ⟨⟨label, i, rest.take inner.length, started, fun j member marked => ?_, inner, last, whole,
    finishes, inside⟩, after, ?_⟩
  · obtain ⟨k, here⟩ := List.mem_iff_getElem?.mp member
    rw [List.getElem?_take] at here
    split at here
    · exact alone (k + 1) (by omega) (by omega) (at_iff.mpr ⟨j, here, marked⟩)
    · exact absurd here (by simp)
  · rw [Part.code, whole, List.append_assoc]
    exact split

/-- Every program in which functions are closed and labelled is made of parts. -/
theorem exists_parts {code : List Instruction} (ended : Ended code)
    (labelled : ∀ i ∈ code, i.markers.functionStart → i.definedLabel?.isSome) :
    ∃ parts, assemble parts = code := by
  induction length : code.length using Nat.strong_induction_on generalizing code with
  | _ bound inductionHypothesis =>
    cases code with
    | nil => exact ⟨[], rfl⟩
    | cons i rest =>
      obtain ⟨part, after, split⟩ : ∃ part after, i :: rest = Part.code part ++ after := by
        by_cases marked : i.markers.functionStart
        · obtain ⟨label, named⟩ := Option.isSome_iff_exists.mp
            (labelled i List.mem_cons_self marked)
          have started : Usage.startedFunction? i = some label := by
            rw [Usage.startedFunction?, if_pos marked, named]
          obtain ⟨r, after, split⟩ := exists_region ended started marked
          exact ⟨.region r, after, split⟩
        · exact ⟨.outside i marked, rest, rfl⟩
      have nonempty := part.length_code_pos
      rw [split] at ended labelled length ⊢
      rw [List.length_append] at length
      obtain ⟨parts, rfl⟩ := inductionHypothesis after.length (by omega) (ended_of_append ended)
        (fun j member => labelled j (List.mem_append_right _ member)) rfl
      exact ⟨part :: parts, assemble_cons⟩

/-! ### A sweep drops functions one by one -/

/-- One function goes, of which the program has no call. -/
inductive Drop : List Part → List Part → Prop
  | drop {before after : List Part} {r : Region}
    (uncalled : Usage.callsIn (assemble (before ++ .region r :: after)) r.label = 0) :
    Drop (before ++ .region r :: after) (before ++ after)

theorem Drop.sublist {parts left : List Part} (drop : Drop parts left) : left.Sublist parts := by
  obtain ⟨-⟩ := drop
  exact (List.sublist_cons_self _ _).append_left _

theorem sublist_of_drops {parts left : List Part} (drops : ReflTransGen Drop parts left) :
    left.Sublist parts := by
  induction drops with
  | refl => exact List.Sublist.refl _
  | tail _ drop inductionHypothesis => exact drop.sublist.trans inductionHypothesis

theorem sweepFrom_kept {code : List Instruction} {usage : Usage}
    (called : ∀ i ∈ code, uncalled? usage i = none) (after done : List Instruction)
    (changes : Nat) :
    sweepFrom false (code ++ after) usage done changes =
      sweepFrom false after usage (code.reverse ++ done) changes := by
  induction code generalizing done with
  | nil => rfl
  | cons i code inductionHypothesis =>
    obtain ⟨first, called⟩ := List.forall_mem_cons.mp called
    rw [List.cons_append, sweepFrom, first]
    dsimp only
    rw [inductionHypothesis called, List.reverse_cons, List.append_assoc, List.singleton_append]

theorem uncalled?_of_unmarked {i : Instruction} (unmarked : ¬ i.markers.functionStart)
    (usage : Usage) : uncalled? usage i = none := by
  rw [uncalled?, Usage.startedFunction?, if_neg unmarked, Option.filter_none]

/-- Within a function that it drops, a sweep goes on to the first marked end. -/
theorem sweepFrom_dropping {inner : List Instruction} {last : Instruction}
    (inside : ∀ i ∈ inner, ¬ i.markers.functionEnd) (closes : last.markers.functionEnd)
    (after : List Instruction) (usage : Usage) (done : List Instruction) (changes : Nat) :
    sweepFrom true (inner ++ last :: after) usage done changes =
      sweepFrom false after ((inner ++ [last]).foldl Usage.remove usage) done changes := by
  induction inner generalizing usage with
  | nil =>
    show sweepFrom (!last.markers.functionEnd) _ _ _ _ = _
    rw [closes]
    rfl
  | cons i inner inductionHypothesis =>
    obtain ⟨unfinished, inside⟩ := List.forall_mem_cons.mp inside
    show sweepFrom (!i.markers.functionEnd) _ _ _ _ = _
    rw [Bool.eq_false_iff.mpr unfinished]
    exact inductionHypothesis inside (usage.remove i)

/-- A sweep drops or keeps a function as a whole. -/
theorem sweepFrom_region (r : Region) (after : List Instruction) (usage : Usage)
    (done : List Instruction) (changes : Nat) :
    sweepFrom false ((Part.region r).code ++ after) usage done changes =
      if usage.calls r.label = 0 then
        sweepFrom false after ((Part.region r).code.foldl Usage.remove usage) done (changes + 1)
      else sweepFrom false after usage ((Part.region r).code.reverse ++ done) changes := by
  have first : uncalled? usage r.start =
      if usage.calls r.label = 0 then some r.label else none := by
    rw [uncalled?, r.starts, Option.filter_some]
    simp only [decide_eq_true_eq]
  split
  · next never =>
    obtain ⟨inner, last, whole, closes, inside⟩ := r.ends
    have ends : ((r.start :: r.body) ++ after).any fun i => i.markers.functionEnd := by
      rw [whole]
      simp [closes]
    rw [if_pos never] at first
    -- from here on the sweep does what it does within a function that it drops
    have enters : sweepFrom false ((r.start :: r.body) ++ after) usage done changes =
        sweepFrom true ((r.start :: r.body) ++ after) usage done (changes + 1) := by
      rw [List.cons_append] at ends ⊢
      unfold sweepFrom
      rw [first]
      exact if_pos ends
    rw [Part.code, enters, whole, List.append_assoc]
    exact sweepFrom_dropping inside closes after usage done (changes + 1)
  · next called =>
    rw [if_neg called] at first
    exact sweepFrom_kept (List.forall_mem_cons.mpr
      ⟨first, fun i member => uncalled?_of_unmarked (r.alone i member) usage⟩) after done changes

/-- What sweeps make of parts: some are left, the others were dropped one by one and counted. -/
structure Swept (parts : List Part) (changes : Nat) (left : List Part) (edit : Edit) : Prop where
  code : edit.code = assemble left
  counts : edit.usage.Counts edit.code
  drops : ReflTransGen Drop parts left
  changes : edit.changes + left.length = changes + parts.length

/-- One sweep. If it drops nothing, then every function that it passes is called. -/
theorem exists_swept_of_sweepFrom (rest before : List Part) {usage : Usage} (changes : Nat)
    (counts : usage.Counts (assemble (before ++ rest))) :
    ∃ left edit,
      sweepFrom false (assemble rest) usage (assemble before).reverse changes = .ok edit ∧
      Swept (before ++ rest) changes left edit ∧
      (edit.changes = changes → ∀ part ∈ rest, part.isCalled (assemble (before ++ rest))) := by
  induction rest generalizing before usage changes with
  | nil =>
    rw [List.append_nil] at counts ⊢
    refine ⟨before, _, rfl, ⟨List.reverse_reverse _, ?_, .refl, rfl⟩, by simp⟩
    rwa [List.reverse_reverse]
  | cons part rest inductionHypothesis =>
    have keeps := @inductionHypothesis (before ++ [part]) usage changes
    rw [List.append_assoc, List.singleton_append, reverse_assemble_concat] at keeps
    obtain ⟨left, edit, kept, swept, quiet⟩ := keeps counts
    cases part with
    | outside i unmarked =>
      have called : ∀ j ∈ [i], uncalled? usage j = none :=
        List.forall_mem_singleton.mpr (uncalled?_of_unmarked unmarked usage)
      refine ⟨left, edit, ?_, swept, fun same => List.forall_mem_cons.mpr ⟨rfl, quiet same⟩⟩
      exact (sweepFrom_kept called (assemble rest) _ changes).trans kept
    | region r =>
      rw [assemble_cons, sweepFrom_region]
      by_cases never : usage.calls r.label = 0
      · rw [if_pos never]
        have drop : Drop (before ++ .region r :: rest) (before ++ rest) :=
          .drop (by rw [← counts.calls, never])
        rw [assemble_append, assemble_cons] at counts
        have removed := Usage.Counts.removeAll _ (counts.perm (List.perm_append_comm_assoc _ _ _))
        rw [← assemble_append] at removed
        obtain ⟨left, edit, gone, swept, -⟩ := inductionHypothesis before (changes + 1) removed
        -- the count grew, and later drops only add to it, so this was no sweep that drops nothing
        have fewer := (sublist_of_drops swept.drops).length_le
        have total := swept.changes
        refine ⟨left, edit, gone, ⟨swept.code, swept.counts, swept.drops.head drop, ?_⟩,
          fun same => ?_⟩
        · rw [total, List.length_append, List.length_append, List.length_cons]
          omega
        · omega
      · rw [if_neg never]
        refine ⟨left, edit, kept, swept, fun same => List.forall_mem_cons.mpr ⟨?_, quiet same⟩⟩
        rw [counts.calls] at never
        exact decide_eq_true (Nat.pos_of_ne_zero never)

/-- Sweeps until one drops nothing, after which every function that is left is called. -/
theorem exists_swept_of_sweepFunctions (sweeps : Nat) {parts : List Part} {usage : Usage}
    (changes : Nat) (counts : usage.Counts (assemble parts)) (enough : parts.length < sweeps) :
    ∃ left edit, sweepFunctions sweeps { code := assemble parts, usage, changes } = .ok edit ∧
      Swept parts changes left edit ∧ ∀ part ∈ left, part.isCalled (assemble left) := by
  induction sweeps generalizing parts usage changes with
  | zero => exact absurd enough (Nat.not_lt_zero _)
  | succ sweeps inductionHypothesis =>
    obtain ⟨left, next, one, swept, quiet⟩ := exists_swept_of_sweepFrom parts [] 0 counts
    rw [List.nil_append] at swept quiet
    unfold sweepFunctions
    rw [show sweepFrom false (assemble parts) usage [] 0 = .ok next from one]
    dsimp only [bind, Except.bind]
    split
    · next unchanged =>
      exact ⟨parts, _, rfl, ⟨rfl, counts, .refl, rfl⟩, quiet unchanged⟩
    · next changed =>
      have total := swept.changes
      have after := swept.counts
      rw [swept.code] at after
      obtain ⟨final, edit, more, later, called⟩ :=
        inductionHypothesis (changes + next.changes) after (by omega)
      rw [← swept.code] at more
      refine ⟨final, edit, more, ⟨later.code, later.counts, swept.drops.trans later.drops, ?_⟩,
        called⟩
      rw [later.changes]
      omega

/-! ### What goes and what stays -/

section Drops

variable {parts next left : List Part} {labels : String → Prop} {label : String}

/-- If all that is left is called, then what went is what is not called in what is left: it had no
call when it went, and calls only go. -/
theorem eq_filter_of_drops (drops : ReflTransGen Drop parts left)
    (called : ∀ part ∈ left, part.isCalled (assemble left)) :
    left = parts.filter (Part.isCalled (assemble left)) := by
  induction drops using ReflTransGen.head_induction_on with
  | refl => exact (List.filter_eq_self.mpr called).symm
  | head drop rest inductionHypothesis =>
    have fewer := ((sublist_of_drops rest).trans drop.sublist).flatMap Part.code
    obtain @⟨before, after, r, uncalled⟩ := drop
    have gone : Usage.callsIn (assemble left) r.label = 0 :=
      Nat.eq_zero_of_le_zero (uncalled ▸ fewer.countP_le)
    refine inductionHypothesis.trans ?_
    rw [List.filter_append, List.filter_append, List.filter_cons_of_neg]
    simp [Part.isCalled, Part.label?, gone]

/-- Whether each function of a set is called from outside, or from a function of the set. -/
def Supported (labels : String → Prop) (parts : List Part) : Prop :=
  ∀ label, labels label → ∃ part ∈ parts,
    (∀ own, part.label? = some own → labels own) ∧ 0 < Usage.callsIn part.code label

theorem Supported.callsIn_pos (supported : Supported labels parts) (chosen : labels label) :
    0 < Usage.callsIn (assemble parts) label := by
  obtain ⟨part, member, -, calls⟩ := supported label chosen
  exact callsIn_pos_of_mem member calls

/-- A function that goes is not called, so it is none of the set, and no call goes that the set
needs. -/
theorem Supported.drop (supported : Supported labels parts) (drop : Drop parts next) :
    Supported labels next := by
  obtain ⟨uncalled⟩ := drop
  intro label chosen
  obtain ⟨part, member, own, calls⟩ := supported label chosen
  obtain front | rfl | back := by simpa using member
  · exact ⟨part, List.mem_append_left _ front, own, calls⟩
  · exact absurd uncalled (supported.callsIn_pos (own _ rfl)).ne'
  · exact ⟨part, List.mem_append_right _ back, own, calls⟩

theorem Supported.drops (supported : Supported labels parts)
    (drops : ReflTransGen Drop parts left) : Supported labels left := by
  induction drops with
  | refl => exact supported
  | tail _ drop inductionHypothesis => exact inductionHypothesis.drop drop

end Drops

/-- Whether a function is called from outside of all functions, or from a function that is reached
in this way. -/
inductive Reached (parts : List Part) : String → Prop
  | fromOutside {part : Part} {label : String} (member : part ∈ parts)
    (outside : part.label? = none) (calls : 0 < Usage.callsIn part.code label) : Reached parts label
  | fromFunction {part : Part} {caller label : String} (member : part ∈ parts)
    (own : part.label? = some caller) (reached : Reached parts caller)
    (calls : 0 < Usage.callsIn part.code label) : Reached parts label

theorem supported_reached (parts : List Part) : Supported (Reached parts) parts := by
  intro label reached
  cases reached with
  | @fromOutside part _ member outside calls =>
    exact ⟨part, member, fun own named => absurd (outside.symm.trans named) (by simp), calls⟩
  | @fromFunction part caller _ member own reached calls =>
    refine ⟨part, member, fun other named => ?_, calls⟩
    obtain rfl := Option.some_inj.mp (own.symm.trans named)
    exact reached

/-- What the removal of functions leaves of a program: -/
structure Trimmed (parts : List Part) (edit : Edit) : Prop where
  /-- all that is outside of functions, and the functions that are called in what is left, as they
  are, up to the effects that a survey notes; -/
  code : List.Forall₂ Remarked (assemble (parts.filter (Part.isCalled edit.code))) edit.code
  /-- the functions that went are counted; -/
  changes : edit.changes = parts.countP fun part => !part.isCalled edit.code
  /-- the functions that are left have a call that is left; -/
  called : ∀ i ∈ edit.code, ∀ label, Usage.startedFunction? i = some label →
    ∃ j ∈ edit.code, Usage.calledFunction? j = some label
  /-- no function went that was reached from outside. -/
  reached : ∀ r, .region r ∈ parts → Reached parts r.label → (Part.region r).isCalled edit.code

theorem isCalled_remarked {code other : List Instruction}
    (same : List.Forall₂ Remarked code other) : Part.isCalled code = Part.isCalled other := by
  funext part
  have calls : Usage.callsIn code = Usage.callsIn other := funext <|
    Usage.countP_eq_of_alike (fun _ _ alike => alike.calledFunction?)
      (same.imp fun _ _ => Remarked.alike)
  rw [Part.isCalled, calls, Part.isCalled]

theorem trimmed_of_swept {parts left : List Part} {edit : Edit} {code : List Instruction}
    (swept : Swept parts 0 left edit) (called : ∀ part ∈ left, part.isCalled (assemble left))
    (same : List.Forall₂ Remarked edit.code code) : Trimmed parts { edit with code } := by
  have filtered := eq_filter_of_drops swept.drops called
  rw [swept.code] at same
  have counted := isCalled_remarked same
  rw [counted] at filtered
  have total := swept.changes
  have pieces := parts.length_eq_countP_add_countP (Part.isCalled code)
  refine ⟨?_, ?_, fun i member label started => ?_, fun r member reached => ?_⟩
  · rwa [← filtered]
  · rw [List.countP_eq_length_filter, ← filtered] at pieces
    simp only [Bool.not_eq_true, Bool.decide_eq_false] at pieces
    show edit.changes = parts.countP fun part => !part.isCalled code
    omega
  · obtain ⟨j, found, remarked⟩ := exists_remarked_of_mem same member
    rw [← remarked.alike.startedFunction?] at started
    obtain ⟨r, present, rfl⟩ := exists_region_of_started found started
    have calls := called _ present
    rw [counted] at calls
    simpa using List.countP_pos_iff.mp (of_decide_eq_true calls)
  · rw [← counted]
    exact decide_eq_true (((supported_reached parts).drops swept.drops).callsIn_pos reached)

/-- The removal of functions from a program that is made of parts drops some of them, up to a sweep
that finds all that is left called. -/
theorem exists_swept_of_removeFunctions {parts : List Part} {usage : Usage}
    {surveyed : List Instruction} (survey : Usage.survey (assemble parts) = .ok (usage, surveyed)) :
    ∃ left edit code, removeFunctions (assemble parts) = .ok { edit with code } ∧
      Swept parts 0 left edit ∧ (∀ part ∈ left, part.isCalled (assemble left)) ∧
      List.Forall₂ Remarked edit.code code := by
  have same := remarked_survey survey
  have enough : parts.length < surveyed.length + 1 := by
    rw [← same.length_eq]
    exact Nat.lt_succ_of_le length_le_assemble
  obtain ⟨left, edit, ends, swept, called⟩ :=
    exists_swept_of_sweepFunctions (surveyed.length + 1) 0 (Usage.counts_survey survey).1 enough
  obtain ⟨final, follows, removed⟩ := sweepFunctions_remarked _ same ends
  refine ⟨left, edit, final, ?_, swept, called, follows⟩
  unfold removeFunctions
  rw [Halt.surveying_of_ok survey]
  exact removed

/-- Where each function is labelled and ends before the next one starts, the removal of functions
succeeds: sweeps subside on their own, and what they leave of the program, however it is seen as
made of parts, is what is still called. -/
theorem uncalled_functions_go {code : List Instruction} (ended : Ended code)
    (labelled : ∀ i ∈ code, i.markers.functionStart → i.definedLabel?.isSome) :
    (∃ parts, assemble parts = code) ∧ ∃ usage surveyed edit,
      Usage.survey code = .ok (usage, surveyed) ∧
      Subsides { code := surveyed, usage, changes := 0 } (.ok edit) ∧
      removeFunctions code = .ok edit ∧ ∀ parts, assemble parts = code → Trimmed parts edit := by
  obtain ⟨⟨usage, surveyed⟩, survey⟩ := exists_ok_of_isOk (isOk_survey_iff.mpr labelled)
  have removes : removeFunctions code =
      sweepFunctions (surveyed.length + 1) { code := surveyed, usage, changes := 0 } := by
    unfold removeFunctions
    rw [Halt.surveying_of_ok survey]
    rfl
  have succeeds : ∀ parts, assemble parts = code → ∃ edit,
      removeFunctions code = .ok edit ∧ Trimmed parts edit := by
    rintro parts rfl
    obtain ⟨left, edit, final, removed, swept, called, follows⟩ :=
      exists_swept_of_removeFunctions survey
    exact ⟨_, removed, trimmed_of_swept swept called follows⟩
  obtain ⟨parts, made⟩ := exists_parts ended labelled
  obtain ⟨edit, removed, -⟩ := succeeds parts made
  refine ⟨⟨parts, made⟩, usage, surveyed, edit, survey, ?_, removed, fun others makes => ?_⟩
  · rw [← removed, removes]
    exact subsides_sweepFunctions (Nat.lt_succ_self _)
  · obtain ⟨other, again, trimmed⟩ := succeeds others makes
    rwa [Except.ok.inj (removed.symm.trans again)]

/-- A function that calls others in turn and returns. -/
def calling (label : String) (callees : List String) : Region where
  label
  start := { opcode := .label, operands := [.label label], markers := { functionStart := true } }
  body := callees.map (fun callee => { opcode := .call, operands := [.label callee] }) ++
    [{ opcode := .ret, operands := [], markers := { functionEnd := true } }]
  starts := rfl
  alone i member := by
    obtain ⟨callee, -, rfl⟩ | rfl := by simpa using member
    · exact Bool.false_ne_true
    · exact Bool.false_ne_true
  ends := ⟨_ :: callees.map _, _, rfl, rfl, by simp⟩

/-- The first function is called by the second only, which is not called. The third is called from
outside and calls the fourth. The fifth is called by itself only. -/
def freedInTurn : List Part :=
  [.region (calling "helper" []), .region (calling "unused" ["helper"]),
   .outside { opcode := .call, operands := [.label "f"] } (by simp),
   .region (calling "f" ["g"]), .region (calling "g" []), .region (calling "alone" ["alone"])]

/-- The second function goes in the first sweep and the first in the second. -/
theorem uncalled_functions_go_freedInTurn :
    Ended (assemble freedInTurn) ∧
      (∀ i ∈ assemble freedInTurn, i.markers.functionStart → i.definedLabel?.isSome) ∧
      Reached freedInTurn "g" ∧
      ∃ edit, removeFunctions (assemble freedInTurn) = .ok edit ∧ edit.changes = 2 ∧
        edit.code = assemble (freedInTurn.drop 2) ∧ Trimmed freedInTurn edit := by
  have ended : Ended (assemble freedInTurn) := by decide +kernel
  have labelled : ∀ i ∈ assemble freedInTurn,
      i.markers.functionStart → i.definedLabel?.isSome := by decide +kernel
  obtain ⟨-, usage, surveyed, edit, -, -, removed, trimmed⟩ := uncalled_functions_go ended labelled
  have outcome : (removeFunctions (assemble freedInTurn)).toOption.map
      (fun edit => (edit.changes, edit.code)) = some (2, assemble (freedInTurn.drop 2)) := by
    decide +kernel
  rw [removed] at outcome
  obtain ⟨changes, left⟩ := Prod.mk.inj (Option.some_inj.mp outcome)
  have outside : Reached freedInTurn "f" :=
    .fromOutside (List.mem_of_getElem? (show freedInTurn[2]? = _ from rfl)) rfl (by decide)
  exact ⟨ended, labelled,
    .fromFunction (List.mem_of_getElem? (show freedInTurn[3]? = _ from rfl)) rfl outside
      (by decide),
    edit, removed, changes, left, trimmed _ rfl⟩

end Unused

end ThreeAddress
