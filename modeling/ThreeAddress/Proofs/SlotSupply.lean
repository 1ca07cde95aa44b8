/-
The slots that a store hands out. An instruction gets the slot that was emptied
last, or a new one if none is empty, wherever it is put. So the slots of the
instructions to come are known beforehand, and every addition takes the first of
them. The order in which instructions were added can therefore be told from the
store that they were added to.
-/
import ThreeAddress.Proofs.Construction

namespace ThreeAddress

namespace Store

namespace Arena

variable {a b : Arena} {slot : Slot}

/-- The slot of the instruction that is added after `k` others. -/
def upcoming (a : Arena) (k : Nat) : Slot :=
  a.free[k]?.getD (a.nodes.size + (k - a.free.length))

theorem upcoming_allocate {node : Node} (allocated : a.allocate node = .ok (slot, b)) :
    slot = a.upcoming 0 ∧ ∀ k, b.upcoming k = a.upcoming (k + 1) := by
  rw [allocate] at allocated
  split at allocated
  · next first rest listed =>
    split at allocated
    · cases allocated
      refine ⟨by simp [upcoming, listed], fun k => ?_⟩
      simp [upcoming, listed]
    · cases allocated
  · next listed =>
    cases allocated
    refine ⟨by simp [upcoming, listed], fun k => ?_⟩
    simp only [upcoming, listed, List.getElem?_nil, Option.getD_none, List.length_nil,
      Array.size_push]
    exact Nat.add_right_comm _ _ _

/-- Links have no part in which slots are empty. -/
theorem upcoming_congr (free : b.free = a.free) (made : b.nodes.size = a.nodes.size) :
    b.upcoming = a.upcoming := by
  funext k
  rw [upcoming, upcoming, free, made]

theorem upcoming_update {change : Node → Node} (updated : a.update slot change = .ok b) :
    b.upcoming = a.upcoming := by
  rw [update] at updated
  split at updated
  · cases updated
    exact upcoming_congr rfl (size_nodes_put _ _ _)
  · cases updated

theorem upcoming_linkNext {prev next : Option Slot} (linked : a.linkNext prev next = .ok b) :
    b.upcoming = a.upcoming := by
  cases prev with
  | none =>
    cases linked
    rfl
  | some slot => exact upcoming_update linked

theorem upcoming_linkPrev {next prev : Option Slot} (linked : a.linkPrev next prev = .ok b) :
    b.upcoming = a.upcoming := by
  cases next with
  | none =>
    cases linked
    rfl
  | some slot => exact upcoming_update linked

theorem upcoming_insertBetween {i : Instruction} {prev next : Option Slot}
    (inserted : a.insertBetween i prev next = .ok (slot, b)) :
    slot = a.upcoming 0 ∧ ∀ k, b.upcoming k = a.upcoming (k + 1) := by
  rw [insertBetween] at inserted
  cases allocated : a.allocate ⟨i, prev, next⟩ with
  | error => rw [allocated] at inserted; cases inserted
  | ok first =>
    obtain ⟨taken, made⟩ := upcoming_allocate allocated
    cases behind : first.2.linkPrev next (some first.1) with
    | error => simp [allocated, behind, bind, Except.bind] at inserted
    | ok second =>
      cases ahead : second.linkNext prev (some first.1) with
      | error => simp [allocated, behind, ahead, bind, Except.bind] at inserted
      | ok third =>
        simp only [allocated, behind, ahead, bind, Except.bind, pure, Except.pure] at inserted
        cases inserted
        rw [upcoming_linkNext ahead, upcoming_linkPrev behind]
        exact ⟨taken, made⟩

end Arena

variable {s t : Store} {before after : List (Slot × Instruction)} {i : Instruction} {slot : Slot}

/-- The slot of the instruction that is added after `k` others. -/
def upcoming (s : Store) (k : Nat) : Slot :=
  s.arena.upcoming k

/-- Whether a store is another one with one instruction more, which took the first slot to come. -/
structure Gains (s : Store) (before : List (Slot × Instruction)) (i : Instruction)
    (after : List (Slot × Instruction)) (t : Store) : Prop where
  split : s.entries = before ++ after
  entries : t.entries = before ++ (s.upcoming 0, i) :: after
  upcoming : ∀ k, t.upcoming k = s.upcoming (k + 1)

theorem gains_append (s : Store) (i : Instruction) :
    (s.append i).1 = s.upcoming 0 ∧ s.Gains s.entries i [] (s.append i).2 := by
  obtain ⟨slot, b, appended, -, -⟩ := s.ordered_order.append i
  obtain ⟨linked, result⟩ := ofSafe_of_ok (s.linked.append i) appended
  obtain ⟨taken, supply⟩ := Arena.upcoming_insertBetween appended
  have entries := (s.entries_append i).2
  rw [append, result] at entries ⊢
  exact ⟨taken, (List.append_nil _).symm, taken ▸ entries, supply⟩

theorem gains_insertBefore (split : s.entries = before ++ (slot, i) :: after) (j : Instruction) :
    ∃ t, s.insertBefore? j slot = some (s.upcoming 0, t) ∧
      s.Gains before j ((slot, i) :: after) t := by
  obtain ⟨new, t, inserted, -, entries⟩ := used_insertBefore split j
  obtain ⟨first, b, between, -, -⟩ := (ordered_split split).insertBefore j
  obtain ⟨linked, result⟩ := ofSafe_of_ok (s.linked.insertBefore j slot) between
  obtain ⟨rfl, rfl⟩ : first = new ∧ ⟨b, linked⟩ = t := by
    rw [insertBefore?, result, Option.some.injEq, Prod.mk.injEq] at inserted
    exact inserted
  have supplied : first = s.upcoming 0 ∧ ∀ k, b.upcoming k = s.upcoming (k + 1) := by
    rw [Arena.insertBefore] at between
    split at between
    · next node held =>
      cases placed : s.arena.insertBetween j node.prev (some slot) with
      | error => simp [placed, bind, Except.bind] at between
      | ok pair =>
        simp only [placed, bind, Except.bind, pure, Except.pure] at between
        cases between
        exact Arena.upcoming_insertBetween placed
    · cases between
  obtain ⟨rfl, supply⟩ := supplied
  exact ⟨_, inserted, split, entries, supply⟩

/-- The slot to come is none of those in use. -/
theorem upcoming_not_mem (s : Store) : s.upcoming 0 ∉ s.order := by
  let i : Instruction := { opcode := .popframe, operands := [] }
  exact (s.gains_append i).1 ▸ (s.entries_append i).1

/-- Whether a store is another one with code behind it, which took the first slots to come. -/
structure Appended (s : Store) (code : List Instruction) (t : Store) : Prop where
  entries : t.entries = s.entries ++ code.zipIdx.map fun entry => (s.upcoming entry.2, entry.1)
  upcoming : ∀ k, t.upcoming k = s.upcoming (code.length + k)

theorem Appended.nil (s : Store) : s.Appended [] s where
  entries := (List.append_nil _).symm
  upcoming k := by rw [List.length_nil, Nat.zero_add]

theorem Gains.order (gains : s.Gains before i after t) :
    s.order = before.map Prod.fst ++ after.map Prod.fst ∧
      t.order = before.map Prod.fst ++ s.upcoming 0 :: after.map Prod.fst := by
  rw [Store.order, Store.order, gains.split, gains.entries, List.map_append, List.map_append]
  exact ⟨rfl, rfl⟩

theorem Gains.subset (gains : s.Gains before i after t) : s.entries ⊆ t.entries := by
  rw [gains.split, gains.entries]
  exact ((List.sublist_cons_self _ _).append_left before).subset

theorem Gains.size (gains : s.Gains before i after t) : t.size = s.size + 1 := by
  rw [t.acts_as_list.size, s.acts_as_list.size, gains.entries, gains.split, List.length_append,
    List.length_append, List.length_cons, Nat.add_assoc]

theorem Appended.order {code : List Instruction} (appended : s.Appended code t) :
    t.order = s.order ++ (List.range code.length).map s.upcoming := by
  rw [Store.order, appended.entries, List.map_append, List.map_map, List.range_eq_range',
    ← List.zipIdx_map_snd, List.map_map]
  rfl

theorem Appended.size {code : List Instruction} (appended : s.Appended code t) :
    t.size = s.size + code.length := by
  rw [t.acts_as_list.size, s.acts_as_list.size, appended.entries, List.length_append,
    List.length_map, List.length_zipIdx]

theorem Appended.trans {code others : List Instruction} {u : Store} (first : s.Appended code t)
    (second : t.Appended others u) : s.Appended (code ++ others) u where
  entries := by
    have later : (others.zipIdx.map fun entry => (t.upcoming entry.2, entry.1)) =
        (others.zipIdx code.length).map fun entry => (s.upcoming entry.2, entry.1) := by
      rw [@List.zipIdx_eq_map_add _ others code.length, List.map_map]
      simp only [first.upcoming]
      rfl
    rw [second.entries, first.entries, later, List.zipIdx_append, List.map_append,
      List.append_assoc, Nat.zero_add]
  upcoming k := by
    rw [second.upcoming, first.upcoming, List.length_append, Nat.add_assoc]

theorem Gains.appended (gains : s.Gains s.entries i [] t) : s.Appended [i] t where
  entries := gains.entries
  upcoming k := by rw [gains.upcoming, List.length_singleton, Nat.add_comm]

end Store

namespace Builder

/-- Appended code takes the first slots to come. -/
theorem appended_write (store : Store) (pending : Markers) (code : List Instruction) :
    store.Appended (marked pending code) (write store pending code).1 := by
  induction code generalizing store pending with
  | nil => exact .nil store
  | cons i rest inductionHypothesis =>
    have later := inductionHypothesis
      (store.append { i with markers := i.markers.union pending }).2 {}
    rw [marked_none] at later
    exact (store.gains_append _).2.appended.trans later

end Builder

end ThreeAddress
