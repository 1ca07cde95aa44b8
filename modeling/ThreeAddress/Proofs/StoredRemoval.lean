/-
Removing dead code from a stored program is removing it from the list of its
instructions. A pass over a store stands at a slot, and what lies behind it in the
store is what the pass over the list has put out, last first; what lies ahead is
what the list pass has still to see. A function or an expression that goes is
emptied slot by slot, from its start to its end; both are found along the links,
and they are the part of the list that goes. The start of an expression that is
handed on stands in the next slot already when the pass gets there.
-/
import ThreeAddress.Proofs.StoredSurvey
import ThreeAddress.Proofs.UnusedFunctions
import ThreeAddress.Unused.Cursor

namespace ThreeAddress

/-- Emptying the slots along the links up to a slot leaves what stood before and behind them, and
gives the slot behind them. -/
theorem StoreEdit.entries_takeRange {last : Slot} {i : Instruction}
    {before inner after : List (Slot × Instruction)} {turns : Nat} {edit : StoreEdit}
    (split : edit.store.entries = before ++ (inner ++ (last, i) :: after))
    (enough : inner.length < turns) :
    ∃ result, takeRange last turns ((inner ++ [(last, i)]).head?.map Prod.fst) edit =
        (after.head?.map Prod.fst, result) ∧
      result.store.entries = before ++ after ∧
      result.usage = ((inner ++ [(last, i)]).map Prod.snd).foldl Usage.remove edit.usage ∧
      result.changes = edit.changes := by
  induction inner generalizing turns edit with
  | nil =>
    obtain ⟨turns, rfl⟩ :=
      Nat.exists_eq_add_one_of_ne_zero (Nat.ne_of_gt enough)
    obtain ⟨t, taken, -, entries⟩ := (Store.used_of_split split).take
    refine ⟨{ edit with store := t, usage := edit.usage.remove i }, ?_, entries, rfl, rfl⟩
    show takeRange last (turns + 1) (some last) edit = _
    rw [takeRange, taken]
    exact if_pos rfl
  | cons entry inner inductionHypothesis =>
    obtain ⟨turns, rfl⟩ :=
      Nat.exists_eq_add_one_of_ne_zero (Nat.ne_of_gt (Nat.zero_lt_of_lt enough))
    have other : entry.1 ≠ last := by
      refine fun same => Store.outside_of_split split ?_
      rw [same]
      exact List.mem_map_of_mem (show (last, i) ∈ before ++ (inner ++ (last, i) :: after) by simp)
    obtain ⟨t, taken, -, entries⟩ := (Store.used_of_split split).take
    obtain ⟨result, rest, left, usage, changes⟩ :=
      @inductionHypothesis turns { edit with store := t, usage := edit.usage.remove entry.2 }
        entries (Nat.lt_of_succ_lt_succ enough)
    refine ⟨result, ?_, left, usage, changes⟩
    show takeRange last (turns + 1) (some entry.1) edit = _
    rw [takeRange, taken]
    dsimp only
    rw [if_neg other, ← rest]
    cases inner <;> rfl

namespace Unused

/-! ### Functions -/

section Sweeps

variable {edit : StoreEdit} {slot : Slot} {i : Instruction}
  {before rest : List (Slot × Instruction)}

theorem removeFunction_of_unended (label : String)
    (split : edit.store.entries = before ++ (slot, i) :: rest)
    (unended : ((slot, i) :: rest).find? (·.2.markers.functionEnd) = none) :
    removeFunction label slot edit = .error ⟨.unterminatedFunction label, edit.store⟩ := by
  rw [removeFunction, functionEnd?, (Store.used_of_split split).since, unended]
  rfl

/-- A function is removed up to its first marked end. -/
theorem exists_removeFunction (label : String) {inner after : List (Slot × Instruction)}
    {last : Slot × Instruction} (split : edit.store.entries = before ++ (slot, i) :: rest)
    (ended : ((slot, i) :: rest).find? (·.2.markers.functionEnd) = some last)
    (divided : (slot, i) :: rest = inner ++ last :: after) :
    ∃ removed, removeFunction label slot edit = .ok (after.head?.map Prod.fst, removed) ∧
      removed.store.entries = before ++ after ∧
      removed.usage = ((inner ++ [last]).map Prod.snd).foldl Usage.remove edit.usage ∧
      removed.changes = edit.changes := by
  have size := edit.store.acts_as_list.size
  rw [split, divided] at size
  simp only [List.length_append, List.length_cons] at size
  obtain ⟨removed, taken, left, counted⟩ :=
    @StoreEdit.entries_takeRange last.1 last.2 before inner after edit.store.size edit
      (by rw [split, divided]) (by omega)
  have first : (inner ++ [last]).head?.map Prod.fst = some slot := by
    have same := congrArg (fun entries => entries.head?.map Prod.fst) divided
    rw [List.head?_cons, Option.map_some] at same
    rw [same]
    cases inner <;> rfl
  rw [first] at taken
  refine ⟨removed, ?_, left, counted⟩
  rw [removeFunction, functionEnd?, (Store.used_of_split split).since, ended]
  exact congrArg Except.ok taken

/-- A sweep goes on from a slot as it goes on in the list of instructions. -/
theorem read_sweepSlots {turns : Nat} (split : edit.store.entries = before ++ rest)
    (enough : rest.length ≤ turns) :
    StoreHalt.read StoreEdit.toEdit (sweepSlots turns (rest.head?.map Prod.fst) edit) =
      sweepFrom false (rest.map Prod.snd) edit.usage (before.map Prod.snd).reverse
        edit.changes := by
  induction turns generalizing edit before rest with
  | zero =>
    obtain rfl := List.length_eq_zero_iff.mp (Nat.le_zero.mp enough)
    simp [sweepSlots, StoreHalt.read, StoreEdit.toEdit, sweepFrom, Store.code, split]
  | succ turns inductionHypothesis =>
    obtain _ | ⟨⟨slot, i⟩, rest⟩ := rest
    · simp [sweepSlots, StoreHalt.read, StoreEdit.toEdit, sweepFrom, Store.code, split]
    have used := Store.used_of_split split
    have code : i :: rest.map Prod.snd = ((slot, i) :: rest).map Prod.snd := rfl
    rw [List.length_cons] at enough
    rw [List.head?_cons, Option.map_some, sweepSlots, used.get, Option.bind_some, List.map_cons,
      sweepFrom]
    cases uncalled : uncalled? edit.usage i with
    | none =>
      have later := @inductionHypothesis edit (before ++ [(slot, i)]) rest (by simpa using split)
        (by omega)
      rw [List.map_append, List.reverse_append] at later
      dsimp only
      rw [used.next, later]
      rfl
    | some label =>
      dsimp only
      cases found : ((slot, i) :: rest).find? (·.2.markers.functionEnd) with
      | none =>
        have unended : ¬ (i :: rest.map Prod.snd).any fun i => i.markers.functionEnd := by
          rw [code, List.any_map, List.any_eq_true]
          rintro ⟨entry, member, ends⟩
          exact List.find?_eq_none.mp found entry member ends
        rw [if_neg unended, removeFunction_of_unended label split found]
        simp [StoreHalt.read, StoreHalt.toHalt, Store.code, split, bind, Except.bind]
      | some last =>
        obtain ⟨closes, inner, after, divided, inside⟩ := List.find?_eq_some_iff_append.mp found
        have ends : (i :: rest.map Prod.snd).any fun i => i.markers.functionEnd := by
          rw [code, List.any_map, List.any_eq_true]
          exact ⟨last, List.mem_of_find?_eq_some found, closes⟩
        obtain ⟨removed, done, left, usage, changes⟩ :=
          exists_removeFunction label split found divided
        have shorter := congrArg List.length divided
        simp only [List.length_cons, List.length_append] at shorter
        have later := @inductionHypothesis { removed with changes := removed.changes + 1 } before
          after left (by omega)
        rw [if_pos ends, done]
        refine later.trans ?_
        show _ = sweepFrom true (i :: rest.map Prod.snd) edit.usage _ _
        rw [code, divided, List.map_append, List.map_cons, sweepFrom_dropping (fun j member => ?_)
          closes, usage, changes, List.map_append]
        · rfl
        · obtain ⟨entry, listed, rfl⟩ := List.mem_map.mp member
          simpa using inside entry listed

end Sweeps

theorem read_sweepOver (s : Store) (usage : Usage) :
    StoreHalt.read StoreEdit.toEdit (sweepOver s usage) = sweepFrom false s.code usage [] 0 := by
  have list := s.acts_as_list
  have swept := @read_sweepSlots { store := s, usage, changes := 0 } [] s.entries s.size rfl
    (Nat.le_of_eq list.size.symm)
  rwa [← list.first] at swept

theorem read_sweepFunctionsOver (sweeps : Nat) (edit : StoreEdit) :
    StoreHalt.read StoreEdit.toEdit (sweepFunctionsOver sweeps edit) =
      sweepFunctions sweeps edit.toEdit := by
  induction sweeps generalizing edit with
  | zero => rfl
  | succ sweeps inductionHypothesis =>
    rw [sweepFunctionsOver, sweepFunctions]
    have one : StoreHalt.read StoreEdit.toEdit (sweepOver edit.store edit.usage) =
        sweepFrom false edit.toEdit.code edit.toEdit.usage [] 0 := read_sweepOver _ _
    rw [← one]
    refine StoreHalt.read_bind fun next _ => ?_
    have same : next.toEdit.changes = next.changes := rfl
    rw [same]
    by_cases settled : next.changes = 0
    · rw [if_pos settled, if_pos settled]
      rfl
    · rw [if_neg settled, if_neg settled]
      exact inductionHypothesis _

/-- Removing functions from a stored program is removing them from the list of its instructions. -/
theorem read_removeFunctionsOver (s : Store) :
    StoreHalt.read StoreEdit.toEdit (removeFunctionsOver s) = removeFunctions s.code := by
  rw [removeFunctionsOver, removeFunctions, ← (Usage.surveyOver_eq s).1]
  refine StoreHalt.read_bind fun result _ => ?_
  obtain ⟨usage, surveyed⟩ := result
  dsimp only
  rw [read_sweepFunctionsOver, surveyed.size_eq_length]
  rfl

/-! ### Variables -/

/-- The variables to be kept are found in the slots as they are found in the list. -/
theorem keptOver_eq (usage : Usage) {s : Store} (rest : List (Slot × Instruction))
    {before : List (Slot × Instruction)} (split : s.entries = before ++ rest)
    {start : Option Slot} {opened : Option Effects}
    (same : start.map (fun slot => (s.get? slot).map Instruction.effects) = opened.map some) :
    keptOver usage s rest start = keptVariables usage before.length (rest.map Prod.snd) opened := by
  induction rest generalizing before start opened with
  | nil => rfl
  | cons entry rest inductionHypothesis =>
    obtain ⟨slot, i⟩ := entry
    have used := Store.used_of_split split
    have later := fun {start opened} => @inductionHypothesis (before ++ [(slot, i)])
      (by simpa using split) start opened
    rw [List.length_append, List.length_singleton] at later
    rw [keptOver, List.map_cons, keptVariables, used.position]
    have begun : (if i.markers.expressionStart then some slot else start).map
        (fun slot => (s.get? slot).map Instruction.effects) =
          (if i.markers.expressionStart then some i.effects else opened).map some := by
      split
      · rw [Option.map_some, used.get]
        rfl
      · exact same
    generalize (if i.markers.expressionStart then some slot else start) = start,
      (if i.markers.expressionStart then some i.effects else opened) = opened at begun
    split
    · cases start with
      | none =>
        obtain rfl : opened = none := by simpa using begun.symm
        rfl
      | some first =>
        obtain ⟨effects, rfl, held⟩ : ∃ effects, opened = some effects ∧
            (s.get? first).map Instruction.effects = some effects := by
          cases opened with
          | none => exact absurd begun (by simp)
          | some effects => exact ⟨effects, rfl, Option.some_inj.mp begun⟩
        obtain ⟨j, stored, rfl⟩ := Option.map_eq_some_iff.mp held
        have others := @later none none rfl
        dsimp only
        rw [stored, others]
        rfl
    · exact later begun

section Prunes

/-- Going back along the links is going through the entries from the last one on. -/
theorem startBefore?_eq {s : Store} {back after : List (Slot × Instruction)} {turns : Nat}
    (split : s.entries = back.reverse ++ after) (enough : back.length ≤ turns) :
    startBefore? s turns (back.head?.map Prod.fst) =
      (back.find? (·.2.markers.expressionStart)).map fun entry => (entry.1, entry.2.effects) := by
  induction back generalizing turns after with
  | nil => cases turns <;> rfl
  | cons entry back inductionHypothesis =>
    obtain ⟨turns, rfl⟩ :=
      Nat.exists_eq_add_one_of_ne_zero (Nat.ne_of_gt (Nat.zero_lt_of_lt enough))
    obtain ⟨slot, i⟩ := entry
    rw [List.reverse_cons, List.append_assoc, List.singleton_append] at split
    have used := Store.used_of_split split
    rw [List.head?_cons, Option.map_some, startBefore?, used.get, List.find?_cons]
    by_cases starts : i.markers.expressionStart
    · rw [Option.filter_some, if_pos starts, starts]
      rfl
    · rw [Option.filter_some, if_neg starts, Bool.eq_false_iff.mpr starts, used.prev,
        List.getLast?_reverse]
      exact inductionHypothesis split (Nat.le_of_succ_le_succ enough)

variable {kept : List Variable}

/-- What is handed on is in the store already. -/
theorem pruneFrom_handOver (rest : List Instruction) (handed : Option Effects) (usage : Usage)
    (done : List Instruction) (removed : Nat) :
    pruneFrom kept rest handed usage done removed =
      pruneFrom kept (handOver handed rest) none usage done removed := by
  cases rest <;> rfl

/-- Removing one instruction hands its expression on to the next slot. -/
theorem exists_removeSlot {edit : StoreEdit} {slot : Slot} {i : Instruction}
    {before rest : List (Slot × Instruction)}
    (split : edit.store.entries = before ++ (slot, i) :: rest) :
    ∃ later s, removeSlot slot edit =
        (later.head?.map Prod.fst, ⟨s, edit.usage.remove i, edit.changes + 1⟩) ∧
      s.entries = before ++ later ∧ later.length = rest.length ∧
      later.map Prod.snd = handOver (handedOn i) (rest.map Prod.snd) := by
  obtain ⟨t, taken, -, entries⟩ := (Store.used_of_split split).take
  cases rest with
  | nil =>
    refine ⟨[], t, ?_, entries, rfl, rfl⟩
    rw [removeSlot, taken]
    rfl
  | cons entry rest =>
    refine ⟨(entry.1, takeOver entry.2 (handedOn i)) :: rest, _, ?_,
      (Store.used_of_split entries).modify fun j => takeOver j (handedOn i), rfl, rfl⟩
    rw [removeSlot, taken]
    rfl

/-- Where an expression goes, it goes from its start up to the slot of the store. -/
theorem exists_takeExpression {edit : StoreEdit} {slot : Slot} {i : Instruction}
    {before rest newer older : List (Slot × Instruction)} {first : Slot × Instruction}
    (split : edit.store.entries = before ++ (slot, i) :: rest)
    (divided : (slot, i) :: before.reverse = newer ++ first :: older) :
    distance edit.store first.1 slot = newer.length + 1 ∧
    ∀ changes, ∃ removed, StoreEdit.takeRange slot edit.store.size (some first.1)
        { edit with changes } = (rest.head?.map Prod.fst, removed) ∧
      removed.store.entries = older.reverse ++ rest ∧
      removed.usage =
        ((newer ++ [first]).map Prod.snd).reverse.foldl Usage.remove edit.usage ∧
      removed.changes = changes := by
  -- the expression in program order ends in the slot of the store
  have span : before ++ [(slot, i)] = older.reverse ++ (first :: newer.reverse) := by
    have reversed := congrArg List.reverse divided
    rw [List.reverse_cons, List.reverse_reverse, List.reverse_append, List.reverse_cons,
      List.append_assoc] at reversed
    exact reversed
  obtain ⟨inner, ends, front⟩ : ∃ inner, first :: newer.reverse = inner ++ [(slot, i)] ∧
      before = older.reverse ++ inner := by
    obtain ⟨inner, last, shape⟩ :=
      (List.eq_nil_or_concat' (first :: newer.reverse)).resolve_left (List.cons_ne_nil _ _)
    rw [shape, ← List.append_assoc] at span
    obtain ⟨front, last⟩ := List.append_inj' span rfl
    exact ⟨inner, by rw [shape, ← last], front⟩
  have entries : edit.store.entries = older.reverse ++ (inner ++ (slot, i) :: rest) := by
    rw [split, front, List.append_assoc]
  have length := congrArg List.length ends
  rw [List.length_cons, List.length_reverse, List.length_append, List.length_singleton] at length
  have walk : first :: (newer.reverse ++ rest) = inner ++ (slot, i) :: rest := by
    rw [← List.cons_append, ends, List.append_assoc, List.singleton_append]
  refine ⟨?_, fun changes => ?_⟩
  · have since := (@Store.used_of_split edit.store first.1 older.reverse
      (newer.reverse ++ rest) first.2 (by rw [entries, ← walk])).since
    have outside : (inner.map Prod.fst).findIdx? (· = slot) = none := by
      rw [List.findIdx?_eq_none_iff]
      rintro other member
      refine decide_eq_false fun same => ?_
      rw [← List.append_assoc] at entries
      refine Store.outside_of_split entries ?_
      rw [← same, List.append_assoc, List.map_append, List.map_append]
      exact List.mem_append_right _ (List.mem_append_left _ member)
    rw [distance, Store.since, since, walk, List.map_append, List.map_cons, List.findIdx?_append,
      outside, List.findIdx?_cons]
    simp
    omega
  · have size := edit.store.acts_as_list.size
    rw [entries, List.length_append, List.length_append, List.length_cons] at size
    obtain ⟨removed, taken, left, usage, same⟩ :=
      @StoreEdit.entries_takeRange slot i older.reverse inner rest edit.store.size
        { edit with changes } entries (by omega)
    rw [← ends] at taken usage
    refine ⟨removed, taken, left, ?_, same⟩
    rw [usage, ← List.map_reverse, List.reverse_append]
    rfl

/-- The start of an expression is found going back from a slot where it is found in the list. -/
theorem startBefore?_cases {s : Store} {slot : Slot} {i : Instruction}
    {before rest : List (Slot × Instruction)} (split : s.entries = before ++ (slot, i) :: rest) :
    (startBefore? s s.size (some slot) = none ∧
      expressionStart? (i :: (before.map Prod.snd).reverse) = none) ∨
    ∃ newer first older, (slot, i) :: before.reverse = newer ++ first :: older ∧
      startBefore? s s.size (some slot) = some (first.1, first.2.effects) ∧
      expressionStart? (i :: (before.map Prod.snd).reverse) =
        some (newer.length + 1, first.2.effects) := by
  have size := s.acts_as_list.size
  rw [split, List.length_append, List.length_cons] at size
  have starts := @startBefore?_eq s ((slot, i) :: before.reverse) rest s.size
    (by rw [split]; simp) (by simp; omega)
  rw [List.head?_cons, Option.map_some] at starts
  have code : i :: (before.map Prod.snd).reverse = ((slot, i) :: before.reverse).map Prod.snd := by
    rw [List.map_cons, List.map_reverse]
  rw [starts, code]
  cases found : ((slot, i) :: before.reverse).find? (·.2.markers.expressionStart) with
  | none =>
    refine Or.inl ⟨rfl, expressionStart?_eq_none_iff.mpr fun j member => ?_⟩
    obtain ⟨entry, listed, rfl⟩ := List.mem_map.mp member
    exact List.find?_eq_none.mp found entry listed
  | some first =>
    obtain ⟨marked, newer, older, divided, plain⟩ := List.find?_eq_some_iff_append.mp found
    refine Or.inr ⟨newer, first, older, divided, rfl, ?_⟩
    rw [divided, List.map_append, List.map_cons, expressionStart?_append (fun j member => ?_) marked,
      List.length_map]
    obtain ⟨entry, listed, rfl⟩ := List.mem_map.mp member
    simpa using plain entry listed

/-- A pass deals with the store of a value as in the list, if it goes on as in the list. -/
theorem read_closeSlot {turns : Nat} {edit : StoreEdit} {slot : Slot} {i : Instruction}
    {before rest : List (Slot × Instruction)}
    (split : edit.store.entries = before ++ (slot, i) :: rest) (closes : closesExpression i)
    (goesOn : ∀ {edit : StoreEdit} {before}, edit.store.entries = before ++ rest →
      StoreHalt.read StoreEdit.toEdit (pruneSlots kept turns (rest.head?.map Prod.fst) edit) =
        pruneFrom kept (rest.map Prod.snd) none edit.usage (before.map Prod.snd).reverse
          edit.changes) :
    StoreHalt.read StoreEdit.toEdit
        (closeSlot slot i edit >>= fun later => pruneSlots kept turns later.1 later.2) =
      pruneFrom kept (i :: rest.map Prod.snd) none edit.usage (before.map Prod.snd).reverse
        edit.changes := by
  have used := Store.used_of_split split
  have stays := @goesOn edit (before ++ [(slot, i)]) (by simpa using split)
  rw [← used.next, List.map_append, List.reverse_append] at stays
  rw [closeSlot, pruneFrom]
  dsimp only
  rw [show takeOver i none = i from rfl, if_pos closes]
  by_cases unused : (i.operands.head?.bind Operand.var?).any (isUnused edit.usage)
  · rw [if_pos unused, if_pos unused]
    obtain ⟨none, absent⟩ | ⟨newer, first, older, divided, starts, found⟩ :=
      startBefore?_cases split
    · rw [none, absent]
      simp [StoreHalt.read, StoreHalt.toHalt, Store.code, split, bind, Except.bind, used.position]
    · rw [starts, found]
      dsimp only
      by_cases pure : first.2.effects.isPure
      · obtain ⟨counted, taken⟩ := exists_takeExpression split divided
        obtain ⟨removed, done, left, usage, changes⟩ := taken (edit.changes + (newer.length + 1))
        rw [if_pos pure, if_pos pure, counted, done]
        refine (goesOn left).trans ?_
        have span : i :: (before.map Prod.snd).reverse =
            (newer ++ [first]).map Prod.snd ++ older.map Prod.snd := by
          rw [← List.map_reverse, ← List.map_append, List.append_assoc, List.singleton_append,
            ← divided, List.map_cons]
        have length : newer.length + 1 = ((newer ++ [first]).map Prod.snd).length := by simp
        rw [usage, changes, span, length, List.take_left, List.drop_left, List.map_reverse,
          List.reverse_reverse]
      · rw [if_neg pure, if_neg pure]
        exact stays
  · rw [if_neg unused, if_neg unused]
    exact stays

/-- A pass goes on from a slot as it goes on in the list of instructions. -/
theorem read_pruneSlots {turns : Nat} {edit : StoreEdit} {before rest : List (Slot × Instruction)}
    (split : edit.store.entries = before ++ rest) (enough : rest.length ≤ turns) :
    StoreHalt.read StoreEdit.toEdit (pruneSlots kept turns (rest.head?.map Prod.fst) edit) =
      pruneFrom kept (rest.map Prod.snd) none edit.usage (before.map Prod.snd).reverse
        edit.changes := by
  induction turns generalizing edit before rest with
  | zero =>
    obtain rfl := List.length_eq_zero_iff.mp (Nat.le_zero.mp enough)
    simp [pruneSlots, StoreHalt.read, StoreEdit.toEdit, pruneFrom, Store.code, split]
  | succ turns inductionHypothesis =>
    obtain _ | ⟨⟨slot, i⟩, rest⟩ := rest
    · simp [pruneSlots, StoreHalt.read, StoreEdit.toEdit, pruneFrom, Store.code, split]
    have used := Store.used_of_split split
    rw [List.length_cons] at enough
    have goesOn : ∀ {edit : StoreEdit} {before}, edit.store.entries = before ++ rest →
        StoreHalt.read StoreEdit.toEdit (pruneSlots kept turns (rest.head?.map Prod.fst) edit) =
          pruneFrom kept (rest.map Prod.snd) none edit.usage (before.map Prod.snd).reverse
            edit.changes := fun left => inductionHypothesis left (by omega)
    rw [List.head?_cons, Option.map_some, pruneSlots, used.get, List.map_cons]
    dsimp only
    by_cases closes : closesExpression i
    · rw [if_pos closes]
      exact read_closeSlot split closes goesOn
    rw [if_neg closes, pruneFrom]
    dsimp only
    rw [show takeOver i none = i from rfl, if_neg closes]
    by_cases dead : isDead edit.usage kept i
    · obtain ⟨later, s, removed, entries, length, instructions⟩ := exists_removeSlot split
      have next := @inductionHypothesis ⟨s, edit.usage.remove i, edit.changes + 1⟩ before later
        entries (by omega)
      rw [instructions] at next
      rw [if_pos dead, if_pos dead, removed, pruneFrom_handOver]
      exact next
    · have stays := @goesOn edit (before ++ [(slot, i)]) (by simpa using split)
      rw [← used.next, List.map_append, List.reverse_append] at stays
      rw [if_neg dead, if_neg dead]
      exact stays

end Prunes

theorem read_leaving {α : Type} (s : Store) (outcome : Except Inconsistency α) :
    StoreHalt.read id (StoreHalt.leaving s outcome) = Halt.leaving s.code outcome := by
  cases outcome <;> rfl

theorem read_pruneOver (s : Store) :
    StoreHalt.read StoreEdit.toEdit (pruneOver s) = prune s.code := by
  rw [pruneOver, prune, ← (Usage.surveyOver_eq s).1]
  refine StoreHalt.read_bind fun result _ => ?_
  obtain ⟨usage, surveyed⟩ := result
  have list := surveyed.acts_as_list
  have keeping := keptOver_eq usage surveyed.entries (List.nil_append _).symm
    (show (none : Option Slot).map _ = (none : Option Effects).map some from rfl)
  dsimp only
  rw [keeping, ← read_leaving]
  refine StoreHalt.read_bind fun kept _ => ?_
  have pruned := @read_pruneSlots kept surveyed.size { store := surveyed, usage, changes := 0 } []
    surveyed.entries rfl (Nat.le_of_eq list.size.symm)
  rwa [← list.first] at pruned

theorem read_pruneAllOver (passes : Nat) (edit : StoreEdit) :
    StoreHalt.read StoreEdit.toEdit (pruneAllOver passes edit) = pruneAll passes edit.toEdit := by
  induction passes generalizing edit with
  | zero => rfl
  | succ passes inductionHypothesis =>
    rw [pruneAllOver, pruneAll, show edit.toEdit.code = edit.store.code from rfl, ← read_pruneOver]
    refine StoreHalt.read_bind fun next _ => ?_
    have same : next.toEdit.changes = next.changes := rfl
    rw [same]
    by_cases settled : next.changes = 0
    · rw [if_pos settled, if_pos settled]
      rfl
    · rw [if_neg settled, if_neg settled]
      exact inductionHypothesis _

/-- Removing unused variables from a stored program is removing them from the list of its
instructions. -/
theorem read_removeVariablesOver (s : Store) :
    StoreHalt.read StoreEdit.toEdit (removeVariablesOver s) = removeVariables s.code := by
  rw [removeVariablesOver, read_pruneAllOver, s.size_eq_length]
  rfl

end Unused

end ThreeAddress
