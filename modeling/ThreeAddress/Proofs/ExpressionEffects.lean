/-
The effects of an expression stay on record while unused variables are removed.
A survey notes them on the instruction that starts the expression: whatever an
instruction of the expression does is among them, except what the instruction
does that ends it. A pass then removes instructions one by one and hands the
start on, with its effects, when it goes. If each end of an expression has a
start of its own, then what a pass has kept of an open expression does nothing
that is not on record, and an expression that is removed because its record is
empty did nothing.
-/
import ThreeAddress.Proofs.Expressions
import Mathlib.Data.List.Induction

namespace ThreeAddress

/-! ### Sets of effects -/

namespace Effects

variable {a b c : Effects}

theorem contains_iff : a.contains b ↔
    (b.input → a.input) ∧ (b.globals → a.globals) ∧ (b.output → a.output) := by
  obtain ⟨aInput, aGlobals, aOutput⟩ := a
  obtain ⟨bInput, bGlobals, bOutput⟩ := b
  simp only [contains, union, decide_eq_true_eq, mk.injEq, Bool.or_eq_left_iff_imp]

theorem contains_refl (a : Effects) : a.contains a :=
  contains_iff.mpr ⟨id, id, id⟩

theorem contains_none (a : Effects) : a.contains none := by
  rw [contains_iff]
  simp [none]

theorem contains_trans (first : a.contains b) (second : b.contains c) : a.contains c := by
  rw [contains_iff] at first second ⊢
  exact ⟨first.1 ∘ second.1, first.2.1 ∘ second.2.1, first.2.2 ∘ second.2.2⟩

theorem contains_union_left (a b : Effects) : (a.union b).contains a := by
  rw [contains_iff]
  simp +contextual [union]

theorem contains_union_right (a b : Effects) : (a.union b).contains b := by
  rw [contains_iff]
  simp +contextual [union]

/-- Without any effect there is none among them. -/
theorem eq_none_of_isPure (pure : a.isPure) (contains : a.contains b) : b = none := by
  rw [isPure, decide_eq_true_eq] at pure
  subst pure
  rw [contains_iff] at contains
  obtain ⟨bInput, bGlobals, bOutput⟩ := b
  simpa [none] using contains

/-- Effects that are collected from entries are those of the entries and what was there before. -/
theorem contains_foldl {α : Type} (counts : α → Prop) [DecidablePred counts]
    (effects : α → Effects) (entries : List α) (total : Effects) :
    (entries.foldl (fun total entry => if counts entry then total.union (effects entry) else total)
        total).contains total ∧
      ∀ entry ∈ entries, counts entry →
        (entries.foldl (fun total entry =>
          if counts entry then total.union (effects entry) else total) total).contains
          (effects entry) := by
  induction entries generalizing total with
  | nil => exact ⟨contains_refl _, by simp⟩
  | cons entry rest inductionHypothesis =>
    rw [List.foldl_cons]
    obtain ⟨before, others⟩ :=
      inductionHypothesis (if counts entry then total.union (effects entry) else total)
    refine ⟨contains_trans before ?_, List.forall_mem_cons.mpr ⟨fun counted => ?_, others⟩⟩
    · split
      · exact contains_union_left _ _
      · exact contains_refl _
    · rw [if_pos counted] at before ⊢
      exact contains_trans before (contains_union_right _ _)

end Effects

/-! ### What a survey puts on record -/

namespace Survey

theorem contains_bracketTotal {s : Survey} (functions : Table String FunctionUse)
    {entry : Nat × Effects} (noted : entry ∈ s.bracketEffects) :
    (s.bracketTotal functions entry.1).contains entry.2 := by
  refine Effects.contains_trans (Effects.contains_foldl _ _ _ _).1 ?_
  exact (Effects.contains_foldl (fun other : Nat × Effects => other.1 = entry.1) Prod.snd
    s.bracketEffects Effects.none).2 entry noted rfl

/-- The position where the expression started that an instruction belongs to. -/
def startOf (s : Survey) (position : Nat) (i : Instruction) : Option Nat :=
  if i.markers.expressionStart then some position else s.bracket

/-- What the scan of an instruction notes about expressions. -/
theorem scanOne_brackets {s next : Survey} {position : Nat} {i : Instruction}
    (scanned : s.scanOne position i = .ok next) :
    next.bracket = (if i.markers.expressionEnd then none else s.startOf position i) ∧
      (∀ entry ∈ s.bracketEffects, entry ∈ next.bracketEffects) ∧
      ∀ start, s.startOf position i = some start → ¬ i.markers.expressionEnd →
        ¬ i.ownEffects.isPure → (start, i.ownEffects) ∈ next.bracketEffects := by
  obtain ⟨function, -, result⟩ := exists_ok_of_bind scanned
  obtain rfl := Except.ok.inj result
  refine ⟨rfl, fun entry noted => ?_, fun start begun inside effective => ?_⟩
  · dsimp only
    split
    · split
      · exact noted
      · exact List.mem_append_left _ noted
    · exact noted
  · unfold startOf at begun
    dsimp only
    rw [begun]
    dsimp only
    rw [if_neg (by rw [Bool.or_eq_true]; exact not_or.mpr ⟨inside, effective⟩)]
    exact List.mem_append_right _ (List.mem_singleton_self _)

/-- What is noted stays noted. -/
theorem mem_bracketEffects_of_scan {position : Nat} {code : List Instruction} {s final : Survey}
    (scanned : scan position code s = .ok final) :
    ∀ entry ∈ s.bracketEffects, entry ∈ final.bracketEffects := by
  induction code generalizing position s with
  | nil =>
    obtain rfl := Except.ok.inj scanned
    exact fun entry noted => noted
  | cons i rest inductionHypothesis =>
    obtain ⟨next, one, others⟩ := exists_ok_of_bind scanned
    exact fun entry noted =>
      inductionHypothesis others entry ((scanOne_brackets one).2.1 entry noted)

end Survey

namespace Unused

open Relation

/-- Whether what an instruction does is on record for the expression that it belongs to, unless it
ends the expression. -/
def Noted (opened : Option Effects) (i : Instruction) : Prop :=
  ∀ effects, opening opened i = some effects → ¬ i.markers.expressionEnd →
    effects.contains i.ownEffects

/-- The rest of a program, when its scan has come so far; `total` are the effects that are stored
in the end. -/
theorem noted_of_scan {total : Nat → Effects} {position : Nat} {code : List Instruction}
    {s final : Survey} (scanned : Survey.scan position code s = .ok final)
    (totals : ∀ entry ∈ final.bracketEffects, (total entry.1).contains entry.2)
    {done : List Instruction} (noted : Throughout Noted done)
    (opened : openAfter done = s.bracket.map total) :
    Throughout Noted (done ++ code.mapIdx fun index i =>
      if i.markers.expressionStart then { i with effects := total (position + index) } else i) := by
  induction code generalizing position s done with
  | nil =>
    rw [List.mapIdx_nil, List.append_nil]
    exact noted
  | cons i rest inductionHypothesis =>
    obtain ⟨next, one, others⟩ := exists_ok_of_bind scanned
    obtain ⟨bracket, -, entered⟩ := Survey.scanOne_brackets one
    rw [List.mapIdx_cons, List.append_cons, Nat.add_zero]
    generalize marked : (if i.markers.expressionStart then { i with effects := total position }
      else i) = j
    have markers : j.markers = i.markers := by rw [← marked]; split <;> rfl
    have own : j.ownEffects = i.ownEffects := by rw [← marked]; split <;> rfl
    have belongs : opening (openAfter done) j = (s.startOf position i).map total := by
      rw [opening, markers, opened, Survey.startOf, ← marked]
      split <;> rfl
    have here : Noted (openAfter done) j := by
      intro effects found inside
      rw [belongs] at found
      rw [markers] at inside
      obtain ⟨start, begun, rfl⟩ := Option.map_eq_some_iff.mp found
      rw [own]
      by_cases idle : i.ownEffects.isPure
      · rw [show i.ownEffects = .none from of_decide_eq_true idle]
        exact Effects.contains_none _
      · exact totals _
          (Survey.mem_bracketEffects_of_scan others _ (entered start begun inside idle))
    have behind : openAfter (done ++ [j]) = next.bracket.map total := by
      rw [openAfter_append_one, openNext, belongs, markers, bracket]
      split <;> rfl
    have later := inductionHypothesis others (throughout_append_one noted here) behind
    simpa only [Nat.add_assoc, Nat.add_comm 1] using later

/-- In a surveyed program everything is on record. -/
theorem noted_survey {code surveyed : List Instruction} {usage : Usage}
    (survey : Usage.survey code = .ok (usage, surveyed)) : Throughout Noted surveyed := by
  obtain ⟨found, scanned, -, rfl⟩ := Usage.exists_markEffects_of_survey survey
  have start : Throughout Noted [] := by
    intro before i after split
    exact absurd split (by simp)
  have noted := noted_of_scan scanned
    (fun entry member => Survey.contains_bracketTotal found.closedFunctions member) start rfl
  simpa only [List.nil_append, Nat.zero_add, Survey.markEffects] using noted

/-! ### Ends that have a start of their own -/

/-- Whether an expression is there to end where an instruction ends one. -/
def Closable (opened : Option Effects) (i : Instruction) : Prop :=
  i.markers.expressionEnd → (opening opened i).isSome

instance (opened : Option Effects) (i : Instruction) : Decidable (Closable opened i) :=
  inferInstanceAs (Decidable (i.markers.expressionEnd → (opening opened i).isSome))

/-- Whether each end of an expression has a start at it or before it, with no other end in
between. -/
def Delimited (code : List Instruction) : Prop :=
  ∀ before i after, code = before ++ i :: after → i.markers.expressionEnd →
    i.markers.expressionStart ∨
      ∃ earlier start between, before = earlier ++ start :: between ∧
        start.markers.expressionStart ∧ ∀ j ∈ start :: between, ¬ j.markers.expressionEnd

/-- An expression is open exactly behind a start that no end follows. -/
theorem isSome_openAfter_iff (code : List Instruction) :
    (openAfter code).isSome ↔
      ∃ earlier start between, code = earlier ++ start :: between ∧
        start.markers.expressionStart ∧ ∀ j ∈ start :: between, ¬ j.markers.expressionEnd := by
  induction code using List.reverseRecOn with
  | nil => simp [openAfter]
  | append_singleton code i inductionHypothesis =>
    rw [openAfter_append_one, openNext]
    split
    · next ends =>
      refine iff_of_false (by simp) ?_
      rintro ⟨earlier, start, between, split, -, inside⟩
      have last : i ∈ start :: between := by
        have tails := congrArg List.getLast? split
        rw [List.getLast?_concat, List.getLast?_append_cons] at tails
        exact List.mem_of_getLast? tails.symm
      exact inside i last ends
    · next goesOn =>
      rw [opening]
      split
      · next marked =>
        exact iff_of_true rfl ⟨code, i, [], rfl, marked, by simpa using goesOn⟩
      · next unmarked =>
        rw [inductionHypothesis]
        constructor
        · rintro ⟨earlier, start, between, rfl, marked, inside⟩
          refine ⟨earlier, start, between ++ [i], by simp, marked, ?_⟩
          rw [← List.cons_append, List.forall_mem_append]
          exact ⟨inside, by simpa using goesOn⟩
        · rintro ⟨earlier, start, between, split, marked, inside⟩
          rcases List.eq_nil_or_concat between with rfl | ⟨shorter, last, rfl⟩
          · obtain ⟨-, same⟩ := List.append_inj' split rfl
            obtain rfl := (List.cons.inj same).1
            exact absurd marked unmarked
          · rw [List.concat_eq_append, ← List.cons_append, ← List.append_assoc] at split
            obtain ⟨rfl, -⟩ := List.append_inj' split rfl
            refine ⟨earlier, start, shorter, rfl, marked, fun j member => inside j ?_⟩
            rw [List.concat_eq_append, ← List.cons_append]
            exact List.mem_append_left _ member

theorem delimited_iff {code : List Instruction} : Delimited code ↔ Throughout Closable code := by
  unfold Delimited Throughout Closable opening
  refine forall_congr' fun before => forall_congr' fun i => forall_congr' fun after =>
    imp_congr_right fun _ => imp_congr_right fun _ => ?_
  rw [← isSome_openAfter_iff]
  by_cases marked : i.markers.expressionStart <;> simp [marked]

instance (code : List Instruction) : Decidable (Delimited code) :=
  decidable_of_iff _ delimited_iff.symm

theorem closable_remarked {code other : List Instruction}
    (same : List.Forall₂ Remarked code other) (closable : Throughout Closable code) :
    Throughout Closable other := by
  rintro before j after rfl ends
  obtain ⟨front, i, back, rfl, fronts, found⟩ := exists_split_of_remarked same
  have there := closable front i back rfl (by rwa [found.markers])
  rw [opening, found.markers] at there
  rw [opening]
  split
  · rfl
  · next unmarked =>
    rw [if_neg unmarked, isSome_openAfter fronts] at there
    exact there

/-! ### What a pass keeps of an expression -/

/-- A start that no end follows is the start of the expression that is open. -/
theorem openAfter_of_expressionStart? {done : List Instruction} {count : Nat} {effects : Effects}
    (start : expressionStart? done = some (count, effects))
    (inside : ∀ j ∈ done.take count, ¬ j.markers.expressionEnd) :
    openAfter done.reverse = some effects := by
  induction done generalizing count with
  | nil => exact absurd start (by simp [expressionStart?])
  | cons i older inductionHypothesis =>
    rw [List.reverse_cons, openAfter_append_one, openNext, opening]
    unfold expressionStart? at start
    split at start
    · next marked =>
      obtain ⟨rfl, rfl⟩ := Prod.mk.inj (Option.some_inj.mp start)
      rw [if_neg (inside i (by simp)), if_pos marked]
    · next unmarked =>
      obtain ⟨⟨before, known⟩, later, same⟩ := Option.map_eq_some_iff.mp start
      obtain ⟨rfl, rfl⟩ := Prod.mk.inj same
      rw [List.take_succ_cons, List.forall_mem_cons] at inside
      rw [if_neg inside.1, if_neg unmarked]
      exact inductionHypothesis later inside.2

/-- Whether what a pass has kept since the nearest start belongs to one expression, the given
effects of which are on record there. -/
structure Continued (effects : Effects) (done : List Instruction) (count : Nat) (known : Effects) :
    Prop where
  start : expressionStart? done = some (count, known)
  recorded : known.contains effects
  inside : ∀ j ∈ done.take count, ¬ j.markers.expressionEnd ∧ effects.contains j.ownEffects

/-- What a pass has of an open expression: its effects are handed on, or its start is kept. -/
inductive Held (effects : Effects) (now : Pruning) : Prop
  | handed (taken : Effects) (pending : now.handed = some taken) (recorded : taken.contains effects)
  | kept (count : Nat) (known : Effects) (settled : now.handed = none)
    (continued : Continued effects now.done count known)

/-- A moment of a pass over a program: what is open behind what it has seen is held, and the ends
that it has kept have starts. -/
structure Following (code seen : List Instruction) (now : Pruning) : Prop where
  whole : seen ++ now.rest = code
  held : ∀ effects, openAfter seen = some effects → Held effects now
  closable : Throughout Closable now.done.reverse

section TakeOver

variable (i : Instruction) (handed : Option Effects)

@[simp] theorem expressionEnd_takeOver :
    (takeOver i handed).markers.expressionEnd = i.markers.expressionEnd := by
  cases handed <;> rfl

@[simp] theorem ownEffects_takeOver : (takeOver i handed).ownEffects = i.ownEffects := by
  cases handed <;> rfl

@[simp] theorem expressionStart_takeOver :
    (takeOver i handed).markers.expressionStart =
      (handed.isSome || i.markers.expressionStart) := by
  cases handed <;> rfl

end TakeOver

namespace Following

variable {code seen rest : List Instruction} {now later : Pruning} {i : Instruction}
  {kept : List Variable} {effects : Effects}

/-- The next instruction starts the expression that it belongs to, with all its effects, or goes on
with what is kept. -/
theorem starts_or_continues (following : Following code seen now)
    (belongs : opening (openAfter seen) i = some effects) :
    ((takeOver i now.handed).markers.expressionStart ∧
      (takeOver i now.handed).effects.contains effects) ∨
    (¬ i.markers.expressionStart ∧ now.handed = none ∧
      ∃ count known, Continued effects now.done count known) := by
  unfold opening at belongs
  split at belongs
  · next marked =>
    obtain rfl := Option.some_inj.mp belongs
    refine Or.inl ⟨by simp [marked], ?_⟩
    cases now.handed with
    | none => exact Effects.contains_refl _
    | some taken => exact Effects.contains_union_left _ _
  · next unmarked =>
    cases following.held effects belongs with
    | handed taken pending recorded =>
      rw [pending]
      exact Or.inl ⟨rfl, Effects.contains_trans (Effects.contains_union_right _ _) recorded⟩
    | kept count known settled continued =>
      exact Or.inr ⟨unmarked, settled, count, known, continued⟩

/-- Keeping the next instruction. -/
theorem keep (following : Following code seen now) (noted : Noted (openAfter seen) i)
    (closable : Closable (openAfter seen) i) (next : now.rest = i :: rest) :
    Following code (seen ++ [i])
      { now with rest, handed := none, done := takeOver i now.handed :: now.done } where
  whole := by
    rw [List.append_assoc, List.singleton_append, ← next]
    exact following.whole
  held := by
    intro effects opened
    rw [openAfter_append_one, openNext] at opened
    split at opened
    · exact absurd opened (by simp)
    · next inside =>
      have own := noted effects opened inside
      rcases following.starts_or_continues opened with
        ⟨marked, recorded⟩ | ⟨unmarked, settled, count, known, continued⟩
      · refine Held.kept 1 _ rfl ⟨by rw [expressionStart?, if_pos marked], recorded, ?_⟩
        rw [List.take_one, List.head?_cons, Option.toList_some, List.forall_mem_singleton,
          expressionEnd_takeOver, ownEffects_takeOver]
        exact ⟨inside, own⟩
      · rw [settled]
        refine Held.kept (count + 1) known rfl ⟨?_, continued.recorded, ?_⟩
        · rw [takeOver, expressionStart?, if_neg unmarked, continued.start]
          rfl
        · rw [takeOver, List.take_succ_cons, List.forall_mem_cons]
          exact ⟨⟨inside, own⟩, continued.inside⟩
  closable := by
    rw [List.reverse_cons]
    refine throughout_append_one following.closable fun ends => ?_
    rw [expressionEnd_takeOver] at ends
    obtain ⟨effects, opened⟩ := Option.isSome_iff_exists.mp (closable ends)
    rw [opening]
    rcases following.starts_or_continues opened with
      ⟨marked, -⟩ | ⟨unmarked, settled, count, known, continued⟩
    · rw [if_pos marked]
      rfl
    · rw [settled, takeOver, if_neg unmarked, openAfter_of_expressionStart? continued.start
        fun j member => (continued.inside j member).1]
      rfl

theorem step (following : Following code seen now) (noted : Throughout Noted code)
    (closable : Throughout Closable code) (next : now.rest = i :: later.rest)
    (step : PruneStep kept now later) : Following code (seen ++ [i]) later := by
  have split : code = seen ++ i :: later.rest := by rw [← next, following.whole]
  have notedHere := noted seen i later.rest split
  have closableHere := closable seen i later.rest split
  have whole : seen ++ [i] ++ later.rest = code := by
    rw [List.append_assoc, List.singleton_append, split]
  cases step with
  | keep here plain alive =>
    obtain ⟨rfl, -⟩ := List.cons.inj (next.symm.trans here)
    exact following.keep notedHere closableHere next
  | keepExpression here closes needed =>
    obtain ⟨rfl, -⟩ := List.cons.inj (next.symm.trans here)
    exact following.keep notedHere closableHere next
  | drop here plain dead =>
    obtain ⟨rfl, -⟩ := List.cons.inj (next.symm.trans here)
    refine ⟨whole, fun effects opened => ?_, following.closable⟩
    rw [openAfter_append_one, openNext] at opened
    split at opened
    · exact absurd opened (by simp)
    · next inside =>
      rcases following.starts_or_continues opened with
        ⟨marked, recorded⟩ | ⟨unmarked, settled, count, known, continued⟩
      · refine Held.handed _ ?_ recorded
        simp only [handedOn, marked, expressionEnd_takeOver, inside, Bool.not_false, Bool.and_self,
          if_true]
      · refine Held.kept count known ?_ continued
        simp only [settled, takeOver, handedOn, unmarked, Bool.false_and, Bool.false_eq_true,
          if_false]
  | dropExpression here closes unused start pure =>
    obtain ⟨rfl, -⟩ := List.cons.inj (next.symm.trans here)
    have ends : i.markers.expressionEnd := by
      rw [closesExpression, decide_eq_true_eq, expressionEnd_takeOver] at closes
      exact closes.2
    refine ⟨whole, fun effects opened => ?_, ?_⟩
    · rw [openAfter_append_one, openNext, if_pos ends] at opened
      exact absurd opened (by simp)
    · obtain ⟨newer, first, older, pieces, length, -⟩ := exists_split_of_expressionStart? start
      have whole := following.closable
      rw [← List.take_append_drop newer.length now.done, List.reverse_append] at whole
      dsimp only
      rw [length, List.drop_succ_cons]
      exact throughout_of_append whole

/-- What an expression did that is removed: nothing. -/
theorem quiet (following : Following code seen now) (closable : Throughout Closable code)
    (next : now.rest = i :: rest) (closes : closesExpression (takeOver i now.handed)) {count : Nat}
    (start : expressionStart? (takeOver i now.handed :: now.done) = some (count + 1, effects))
    (pure : effects.isPure) : ∀ j ∈ now.done.take count, j.ownEffects = Effects.none := by
  have ends : i.markers.expressionEnd := by
    rw [closesExpression, decide_eq_true_eq, expressionEnd_takeOver] at closes
    exact closes.2
  have here := closable seen i rest (by rw [← next, following.whole]) ends
  obtain ⟨known, opened⟩ := Option.isSome_iff_exists.mp here
  rcases following.starts_or_continues opened with
    ⟨marked, -⟩ | ⟨unmarked, settled, before, known, continued⟩
  · rw [expressionStart?, if_pos marked] at start
    obtain ⟨single, -⟩ := Prod.mk.inj (Option.some_inj.mp start)
    obtain rfl : count = 0 := by omega
    simp
  · rw [settled, takeOver, expressionStart?, if_neg unmarked, continued.start] at start
    obtain ⟨length, rfl⟩ := Prod.mk.inj (Option.some_inj.mp start)
    obtain rfl : before = count := by omega
    intro j member
    have covered := Effects.contains_trans continued.recorded (continued.inside j member).2
    exact Effects.eq_none_of_isPure pure covered

end Following

end Unused

end ThreeAddress
