/-
The arena of the instruction store after any history of operations. A history
may use any slots: used ones, slots whose instruction was removed, slots that
hold another instruction by now, slots that were never made. None of its
operations faults, and at its end the links, the count and the free list all
tell the same: following the links from the first slot visits every occupied
slot once and stops at the last, the links back are the inverse of the links
forward, and the free list holds the empty slots.
-/
import ThreeAddress.Store
import Mathlib.Data.List.Nodup

namespace ThreeAddress.Store

/-- An operation that changes an arena. -/
inductive Action where
  | append (i : Instruction)
  | insertBefore (i : Instruction) (anchor : Slot)
  | remove (slot : Slot)
  | take (slot : Slot)
  | modify (slot : Slot) (change : Instruction → Instruction)

namespace Arena

variable {a : Arena}

/-- The arena after an operation. -/
def apply (a : Arena) : Action → Except Fault Arena
  | .append i => (a.append i).map Prod.snd
  | .insertBefore i anchor => (a.insertBefore i anchor).map Prod.snd
  | .remove slot => (a.remove slot).map Prod.snd
  | .take slot => (a.take slot).map Prod.snd
  | .modify slot change => .ok (a.modify slot change)

/-- The arena after a history of operations. -/
def run (a : Arena) (actions : List Action) : Except Fault Arena :=
  actions.foldlM apply a

/-! ### Histories keep the links -/

theorem linked_of_safe {α : Type} {result : Except Fault (α × Arena)} (safe : Safe result) :
    ∃ b, result.map Prod.snd = .ok b ∧ b.Linked := by
  obtain ⟨value, b, rfl, linked⟩ := safe
  exact ⟨b, rfl, linked⟩

theorem Linked.apply (linked : a.Linked) (action : Action) :
    ∃ b, a.apply action = .ok b ∧ b.Linked := by
  cases action with
  | append i => exact linked_of_safe (linked.append i)
  | insertBefore i anchor => exact linked_of_safe (linked.insertBefore i anchor)
  | remove slot => exact linked_of_safe (linked.remove slot)
  | take slot => exact linked_of_safe (linked.take slot)
  | modify slot change => exact ⟨_, rfl, linked.modify slot change⟩

theorem Linked.run (linked : a.Linked) (actions : List Action) :
    ∃ b, a.run actions = .ok b ∧ b.Linked := by
  induction actions generalizing a with
  | nil => exact ⟨a, rfl, linked⟩
  | cons action rest inductionHypothesis =>
    obtain ⟨b, applied, linked⟩ := linked.apply action
    obtain ⟨c, ran, linked⟩ := inductionHypothesis linked
    refine ⟨c, ?_, linked⟩
    rw [Arena.run, List.foldlM_cons, applied]
    exact ran

/-! ### What the links of an ordered arena tell -/

/-- Following the links forward from `start` visits exactly the given slots and then ends. -/
def Visits (a : Arena) : (start : Option Slot) → List Slot → Prop
  | none, [] => True
  | some slot, head :: rest => slot = head ∧ (a.node? slot).isSome ∧ a.Visits (a.next? slot) rest
  | _, _ => False

/-- The slots that hold an instruction. -/
def occupied (a : Arena) : List Slot :=
  (List.range a.nodes.size).filter fun slot => (a.node? slot).isSome

theorem mem_occupied {slot : Slot} : slot ∈ a.occupied ↔ (a.node? slot).isSome := by
  rw [occupied, List.mem_filter, List.mem_range]
  refine ⟨And.right, fun held => ⟨?_, held⟩⟩
  obtain ⟨node, held⟩ := Option.isSome_iff_exists.mp held
  exact lt_of_node? held

theorem Chain.visits {prev : Option Slot} {slots : List Slot} (chain : a.Chain prev slots none) :
    a.Visits slots.head? slots := by
  induction slots generalizing prev with
  | nil => trivial
  | cons slot rest inductionHypothesis =>
    obtain ⟨⟨i, held⟩, chained⟩ := chain
    refine ⟨rfl, by rw [held]; rfl, ?_⟩
    rw [next?, held]
    simpa using inductionHypothesis chained

namespace Ordered

variable {order before after : List Slot} {slot other : Slot}

theorem next?_eq (ordered : a.Ordered (before ++ slot :: after)) : a.next? slot = after.head? := by
  obtain ⟨i, held⟩ := ordered.chain.node?
  rw [next?, held]
  exact Option.or_none

theorem prev?_eq (ordered : a.Ordered (before ++ slot :: after)) :
    a.prev? slot = before.getLast? := by
  obtain ⟨i, held⟩ := ordered.chain.node?
  rw [prev?, held]
  exact Option.or_none

theorem mem_iff_occupied (ordered : a.Ordered order) : slot ∈ order ↔ slot ∈ a.occupied := by
  rw [ordered.mem_iff, mem_occupied, get?, Option.isSome_map]

theorem exists_split (ordered : a.Ordered order) (held : (a.node? slot).isSome) :
    ∃ before after, order = before ++ slot :: after := by
  rw [← mem_occupied, ← ordered.mem_iff_occupied] at held
  exact List.append_of_mem held

theorem prev?_of_next? (ordered : a.Ordered order) (follows : a.next? slot = some other) :
    a.prev? other = some slot := by
  have held : (a.node? slot).isSome := by
    rw [next?, Option.bind_eq_some_iff] at follows
    obtain ⟨node, held, -⟩ := follows
    rw [held]
    rfl
  obtain ⟨before, after, rfl⟩ := ordered.exists_split held
  rw [ordered.next?_eq, List.head?_eq_some_iff] at follows
  obtain ⟨rest, rfl⟩ := follows
  rw [List.append_cons] at ordered
  rw [ordered.prev?_eq, List.getLast?_concat]

theorem next?_of_prev? (ordered : a.Ordered order) (precedes : a.prev? other = some slot) :
    a.next? slot = some other := by
  have held : (a.node? other).isSome := by
    rw [prev?, Option.bind_eq_some_iff] at precedes
    obtain ⟨node, held, -⟩ := precedes
    rw [held]
    rfl
  obtain ⟨before, after, rfl⟩ := ordered.exists_split held
  rw [ordered.prev?_eq, List.getLast?_eq_some_iff] at precedes
  obtain ⟨rest, rfl⟩ := precedes
  rw [← List.append_cons] at ordered
  rw [ordered.next?_eq, List.head?_cons]

theorem length_eq (ordered : a.Ordered order) : order.length = a.occupied.length := by
  have distinct : a.occupied.Nodup := List.nodup_range.filter _
  exact ((List.perm_ext_iff_of_nodup ordered.distinct distinct).mpr fun slot =>
    ordered.mem_iff_occupied).length_eq

end Ordered

/-- Links, count and free list tell the same. -/
structure Intact (a : Arena) (slots : List Slot) : Prop where
  visits : a.Visits a.first slots
  once : slots.Nodup
  occupied : ∀ slot, slot ∈ slots ↔ slot ∈ a.occupied
  ends : slots.getLast? = a.last
  inverse : ∀ slot other, a.next? slot = some other ↔ a.prev? other = some slot
  counted : a.size = a.occupied.length
  freeOnce : a.free.Nodup
  freeEmpty : ∀ slot, slot ∈ a.free ↔ slot < a.nodes.size ∧ slot ∉ a.occupied

theorem Ordered.intact {order : List Slot} (ordered : a.Ordered order) : a.Intact order where
  visits := ordered.first ▸ ordered.chain.visits
  once := ordered.distinct
  occupied _ := ordered.mem_iff_occupied
  ends := ordered.last.symm
  inverse _ _ := ⟨ordered.prev?_of_next?, ordered.next?_of_prev?⟩
  counted := ordered.size.trans ordered.length_eq
  freeOnce := ordered.vacancies.distinct
  freeEmpty slot := by
    rw [ordered.vacancies.exact, mem_occupied, Option.not_isSome_iff_eq_none, get?,
      Option.map_eq_none_iff]

/-- Every history of operations on the empty arena ends without a fault, and at its end following
the links visits every occupied slot once. -/
theorem history_intact (actions : List Action) :
    ∃ a slots, ({} : Arena).run actions = .ok a ∧ a.Intact slots := by
  obtain ⟨a, ran, order, ordered⟩ := Linked.empty.run actions
  exact ⟨a, order, ran, ordered.intact⟩

end Arena

end ThreeAddress.Store
