/-
What the operations on a graph come to. Seen from outside, a graph is a payload
for some of the slots and a set of edges; `outline` is that view, in which an edge
is there once and an empty slot is nothing but a slot without a payload. Every
operation on a graph that can be built does to the outline what its name says and
nothing else, whatever numbers it is given. A new node goes to the lowest empty
slot, and behind all slots if none is empty; where it goes no edge was left
behind.
-/
import ThreeAddress.Proofs.GraphShape
import Mathlib.Data.Set.Insert
import Mathlib.Logic.Function.Basic
import Mathlib.Order.Bounds.Basic

namespace ThreeAddress

/-- A graph without regard to how it is stored: payloads by slot, and edges from source to
target. -/
@[ext] structure Outline (α : Type) where
  payload : Nat → Option α
  edges : Set (Nat × Nat)

namespace Outline

variable {α : Type}

/-- One more node, without edges. -/
def add (o : Outline α) (slot : Nat) (data : α) : Outline α :=
  { o with payload := Function.update o.payload slot (some data) }

/-- One node less, and none of the edges that touched it. -/
def remove (o : Outline α) (id : Nat) : Outline α where
  payload := Function.update o.payload id none
  edges := {edge ∈ o.edges | edge.1 ≠ id ∧ edge.2 ≠ id}

/-- One more edge, unless it was there. -/
def connect (o : Outline α) (source target : Nat) : Outline α :=
  { o with edges := insert (source, target) o.edges }

/-- Another payload for a node; a slot without one stays so. -/
def modify (o : Outline α) (id : Nat) (edit : α → α) : Outline α :=
  { o with payload := Function.update o.payload id ((o.payload id).map edit) }

/-- Every edge the other way. -/
def transpose (o : Outline α) : Outline α :=
  { o with edges := {edge | edge.swap ∈ o.edges} }

end Outline

namespace Graph

variable {α : Type} {g : Graph α}

/-- The outline of a graph. -/
def outline (g : Graph α) : Outline α where
  payload := g.get?
  edges := {edge | edge.2 ∈ g.successors edge.1}

/-! ### Operations on outlines -/

theorem outline_add (consistent : g.Consistent) (data : α) :
    (g.add data).2.outline = g.outline.add (g.add data).1 data := by
  refine Outline.ext (funext fun id => ?_) (Set.ext fun edge => ?_)
  · show ((g.add data).2.node? id).map Node.data = Function.update g.get? _ (some data) id
    rw [node?_add consistent, Function.update_apply, get?]
    split <;> rfl
  · show edge.2 ∈ (g.add data).2.successors edge.1 ↔ edge.2 ∈ g.successors edge.1
    rw [successors_add consistent]

theorem outline_remove {rest : Graph α} {id : Nat} {data : α} (consistent : g.Consistent)
    (removed : g.remove? id = some (data, rest)) : rest.outline = g.outline.remove id := by
  refine Outline.ext (funext fun other => ?_) (Set.ext fun edge => ?_)
  · show (rest.node? other).map Node.data = Function.update g.get? id none other
    rw [node?_remove consistent removed, Function.update_apply, get?]
    split
    · rfl
    · rw [Option.map_map]
      rfl
  · show edge.2 ∈ rest.successors edge.1 ↔
      edge.2 ∈ g.successors edge.1 ∧ edge.1 ≠ id ∧ edge.2 ≠ id
    rw [successors_remove consistent removed]
    by_cases leaves : edge.1 = id <;> simp [leaves]

theorem outline_connect {source target : Nat} (sourceLive : g.contains source)
    (targetLive : g.contains target) :
    (g.connect source target).outline = g.outline.connect source target := by
  refine Outline.ext (funext fun id => get?_connect g source target id) (Set.ext fun edge => ?_)
  show edge.2 ∈ (g.connect source target).successors edge.1 ↔
    edge = (source, target) ∨ edge.2 ∈ g.successors edge.1
  rw [mem_successors_connect sourceLive targetLive, Prod.ext_iff, or_comm]

theorem outline_modify (g : Graph α) (id : Nat) (edit : α → α) :
    (g.modify id edit).outline = g.outline.modify id edit := by
  refine Outline.ext (funext fun other => ?_) (Set.ext fun edge => ?_)
  · show (g.modify id edit).get? other = Function.update g.get? id ((g.get? id).map edit) other
    rw [get?_modify, Function.update_apply]
    split
    · next same => rw [same]
    · rfl
  · show edge.2 ∈ (g.modify id edit).successors edge.1 ↔ edge.2 ∈ g.successors edge.1
    rw [successors_modify]

theorem outline_transpose (consistent : g.Consistent) :
    g.transpose.outline = g.outline.transpose := by
  refine Outline.ext (funext fun id => ?_) (Set.ext fun edge => ?_)
  · show ((g.transpose.node? id).map Node.data) = (g.node? id).map Node.data
    rw [node?_transpose, Option.map_map]
    rfl
  · show edge.2 ∈ g.transpose.successors edge.1 ↔ edge.1 ∈ g.successors edge.2
    rw [successors_transpose, consistent.mirrored]

/-! ### Empty slots -/

theorem mem_free_iff (consistent : g.Consistent) {slot : Nat} :
    slot ∈ g.free ↔ g.nodes[slot]? = some none := by
  rw [consistent.freeExact, contains, node?]
  constructor
  · rintro ⟨inside, empty⟩
    rw [Array.getElem?_eq_getElem inside] at empty ⊢
    exact congrArg some (Option.not_isSome_iff_eq_none.mp empty)
  · intro empty
    obtain ⟨inside, -⟩ := Array.getElem?_eq_some_iff.mp empty
    exact ⟨inside, by simp [empty]⟩

/-- What adding a node promises: where it goes and what it finds there. -/
structure Adds (g : Graph α) (data : α) (slot : Nat) (next : Graph α) : Prop where
  lowest : g.free ≠ [] → IsLeast {empty | empty ∈ g.free} slot ∧ next.nodes.size = g.nodes.size
  last : g.free = [] → slot = g.nodes.size ∧ next.nodes.size = g.nodes.size + 1
  isolated : next.node? slot = some { data, incoming := [], outgoing := [] }
  outline : next.outline = g.outline.add slot data

theorem Consistent.adds (consistent : g.Consistent) (data : α) :
    g.Adds data (g.add data).1 (g.add data).2 where
  lowest some := by
    obtain ⟨slot, rest, free⟩ := List.exists_cons_of_ne_nil some
    have ascending := consistent.freeAscending
    rw [free, List.pairwise_cons] at ascending
    simp only [Graph.add, free]
    refine ⟨⟨List.mem_cons_self, fun other member => ?_⟩, Array.size_setIfInBounds⟩
    rcases List.mem_cons.mp member with rfl | later
    · exact Nat.le_refl _
    · exact Nat.le_of_lt (ascending.1 other later)
  last none := by
    simp only [Graph.add, none]
    exact ⟨trivial, Array.size_push _⟩
  isolated := by rw [node?_add consistent, if_pos rfl]
  outline := outline_add consistent data

/-! ### Every graph that can be built -/

/-- What is promised of a graph: its two records of the edges and of the empty slots agree, and each
operation does what its name says. -/
structure WellKept (g : Graph α) : Prop where
  mirrored : ∀ source target, target ∈ g.successors source ↔ source ∈ g.predecessors target
  joined : ∀ source target, target ∈ g.successors source → g.contains source ∧ g.contains target
  free : ∀ slot, slot ∈ g.free ↔ g.nodes[slot]? = some none
  freeOnce : g.free.Nodup
  add : ∀ data, g.Adds data (g.add data).1 (g.add data).2
  remove : ∀ id data, g.get? id = some data → ∃ rest, g.remove? id = some (data, rest) ∧
    rest.nodes.size = g.nodes.size ∧ rest.outline = g.outline.remove id
  removeAbsent : ∀ id, g.get? id = none → g.remove? id = none
  connect : ∀ source target, g.contains source → g.contains target →
    (g.connect source target).outline = g.outline.connect source target
  connectAbsent : ∀ source target, ¬ (g.contains source ∧ g.contains target) →
    g.connect source target = g
  modify : ∀ id edit, (g.modify id edit).outline = g.outline.modify id edit
  transpose : g.transpose.outline = g.outline.transpose

theorem Consistent.wellKept (consistent : g.Consistent) : g.WellKept where
  mirrored := consistent.mirrored
  joined _ _ edge := ⟨consistent.source_contained edge, consistent.target_contained edge⟩
  free _ := mem_free_iff consistent
  freeOnce := consistent.freeAscending.imp Nat.ne_of_lt
  add := consistent.adds
  remove id data held := by
    obtain ⟨node, found, rfl⟩ := Option.map_eq_some_iff.mp held
    obtain ⟨rest, removed⟩ : ∃ rest, g.remove? id = some (node.data, rest) := by
      rw [remove?, found]
      exact ⟨_, rfl⟩
    exact ⟨rest, removed, (slots_remove removed).1, outline_remove consistent removed⟩
  removeAbsent id absent := by
    rw [remove?, Option.map_eq_none_iff.mp absent]
    rfl
  connect _ _ := outline_connect
  connectAbsent _ _ := connect_of_not_contains
  modify := outline_modify g
  transpose := outline_transpose consistent

/-- After any sequence of operations with any numbers the two records of a graph agree, and the next
operation changes its outline as its name says. -/
theorem changes_keep_graph (changes : List (Change α)) : (build changes).WellKept :=
  (consistent_build changes).wellKept

end Graph

end ThreeAddress
