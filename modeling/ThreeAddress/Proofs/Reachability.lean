/-
Ways and cycles of a graph, and the work that a search has before it. A way is a
chain of edges; one of at least one edge that comes back to where it began is a
cycle. A search that visits every node once, looks at every edge of a visited node
and then leaves it has as many turns before it as the nodes not visited have edges,
and one more for each of them.
-/
import ThreeAddress.Proofs.GraphShape
import Mathlib.Algebra.BigOperators.Group.Finset.Basic
import Mathlib.Algebra.GroupWithZero.Nat
import Mathlib.Algebra.Order.BigOperators.Group.List
import Mathlib.Logic.Relation

namespace ThreeAddress.Graph

open Relation

variable {α : Type} {g : Graph α}

/-- Whether a node can be reached by following `next`, possibly without a step. -/
def Follows (next : Nat → List Nat) : Nat → Nat → Prop :=
  ReflTransGen fun source target => target ∈ next source

/-- Whether a node can be reached along edges, possibly without a step. -/
def Reaches (g : Graph α) : Nat → Nat → Prop :=
  Follows g.successors

/-- Whether a node lies on a cycle: a way of at least one edge leads back to it. -/
def OnCycle (g : Graph α) (id : Nat) : Prop :=
  TransGen (fun source target => target ∈ g.successors source) id id

theorem follows_predecessors_iff (consistent : g.Consistent) (source target : Nat) :
    Follows g.predecessors target source ↔ g.Reaches source target := by
  have swapped : (fun target source => source ∈ g.predecessors target) =
      Function.swap fun source target => target ∈ g.successors source := by
    funext target source
    exact propext (consistent.mirrored source target).symm
  unfold Reaches Follows
  rw [swapped]
  exact reflTransGen_swap

theorem Reaches.refl (id : Nat) : g.Reaches id id :=
  ReflTransGen.refl

theorem Reaches.trans {first second third : Nat} (way : g.Reaches first second)
    (further : g.Reaches second third) : g.Reaches first third :=
  ReflTransGen.trans way further

theorem Reaches.edge {source target : Nat} (edge : target ∈ g.successors source) :
    g.Reaches source target :=
  ReflTransGen.single edge

/-- What one edge cannot leave, no way can. -/
theorem Reaches.stays {inside : Nat → Prop}
    (closed : ∀ id, inside id → ∀ next ∈ g.successors id, inside next) {source target : Nat}
    (way : g.Reaches source target) (starts : inside source) : inside target := by
  induction way with
  | refl => exact starts
  | tail _ edge inductionHypothesis => exact closed _ inductionHypothesis _ edge

theorem Reaches.contains_source (consistent : g.Consistent) {source target : Nat}
    (way : g.Reaches source target) (live : g.contains target) : g.contains source := by
  rcases ReflTransGen.cases_head way with same | ⟨next, edge, -⟩
  · exact same ▸ live
  · exact consistent.source_contained edge

/-- A node lies on a cycle if it reaches another node and is reached back from it. -/
theorem onCycle_of_mutual {id other : Nat} (different : id ≠ other) (forth : g.Reaches id other)
    (back : g.Reaches other id) : g.OnCycle id := by
  rcases ReflTransGen.cases_head forth with same | ⟨next, edge, way⟩
  · exact absurd same different
  · exact TransGen.head' edge (way.trans back)

/-- A node lies on a cycle if it is reached back from one of its successors. -/
theorem onCycle_iff (g : Graph α) (id : Nat) :
    g.OnCycle id ↔ ∃ next ∈ g.successors id, g.Reaches next id :=
  TransGen.head'_iff

theorem OnCycle.contains (consistent : g.Consistent) {id : Nat} (cycle : g.OnCycle id) :
    g.contains id := by
  obtain ⟨next, edge, -⟩ := (onCycle_iff g id).mp cycle
  exact consistent.source_contained edge

/-! ### What a search has before it -/

theorem edgeCount_eq (g : Graph α) :
    g.edgeCount = (g.ids.map fun id => (g.successors id).length).sum := by
  rw [edgeCount, List.length_flatMap]

/-- How often the nodes not seen are left and their edges looked at. -/
def ahead (g : Graph α) (seen : Finset Nat) : Nat :=
  ∑ id ∈ g.ids.toFinset \ seen, ((g.successors id).length + 1)

/-- Seeing a node takes its share. -/
theorem ahead_insert {id : Nat} {seen : Finset Nat} (live : g.contains id) (fresh : id ∉ seen) :
    g.ahead (insert id seen) + ((g.successors id).length + 1) = g.ahead seen := by
  have member : id ∈ g.ids.toFinset \ seen := by
    rw [Finset.mem_sdiff, List.mem_toFinset, mem_ids]
    exact ⟨live, fresh⟩
  rw [ahead, Finset.sdiff_insert, ahead, Nat.add_comm]
  exact Finset.add_sum_erase _ (fun id => (g.successors id).length + 1) member

theorem ahead_empty (g : Graph α) : g.ahead ∅ = g.edgeCount + g.size := by
  rw [ahead, Finset.sdiff_empty, List.sum_toFinset _ g.nodup_ids, List.sum_map_add, ← edgeCount_eq]
  simp [size]

/-- Nothing is left once all nodes were seen. -/
theorem ahead_of_covered {seen : Finset Nat} (covered : ∀ id, g.contains id → id ∈ seen) :
    g.ahead seen = 0 := by
  have nothing : g.ids.toFinset \ seen = ∅ := by
    refine Finset.sdiff_eq_empty_iff_subset.mpr fun id member => ?_
    rw [List.mem_toFinset, mem_ids] at member
    exact covered id member
  rw [ahead, nothing, Finset.sum_empty]

end ThreeAddress.Graph
