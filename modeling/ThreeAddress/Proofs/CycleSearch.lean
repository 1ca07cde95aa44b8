/-
The search for a way back to a node is exact. It starts with the successors of the
node and answers as soon as the node itself is pending, so the node is never
marked, and whatever was marked is not the node. An edge from a marked node leads
to a marked or to a pending one; a way from a marked node to the node therefore
leaves the marked nodes through a pending one. Dropping a marked node from the
pending ones loses no way back, and neither does expanding an unmarked one.
-/
import ThreeAddress.Graph.Search
import ThreeAddress.Proofs.Reachability

namespace ThreeAddress.Graph

open Relation

variable {α : Type} {g : Graph α} {id current : Nat} {marks : Array Bool} {pending : List Nat}

/-- What holds all through a search for a way to `id`. -/
structure Seeking (g : Graph α) (id : Nat) (marks : Array Bool) (pending : List Nat) : Prop where
  slots : marks.size = g.nodes.size
  inside : ∀ node ∈ pending, node < marks.size
  unmarked : marks[id]? ≠ some true
  waiting : ∀ node, marks[node]? = some true → ∀ other ∈ g.successors node,
    marks[other]? = some true ∨ other ∈ pending

/-- A way from a marked node passes a pending one. -/
theorem Seeking.exists_pending (now : Seeking g id marks pending) {node : Nat}
    (marked : marks[node]? = some true) (way : g.Reaches node id) :
    ∃ start ∈ pending, g.Reaches start id := by
  induction way using ReflTransGen.head_induction_on with
  | refl => exact absurd marked now.unmarked
  | head edge rest inductionHypothesis =>
    rcases now.waiting _ marked _ edge with marked | waits
    · exact inductionHypothesis marked
    · exact ⟨_, waits, rest⟩

/-- A pending node that is marked is dropped. -/
theorem Seeking.drop (now : Seeking g id marks (current :: pending))
    (marked : marks[current]? = some true) : Seeking g id marks pending where
  slots := now.slots
  inside node member := now.inside node (List.mem_cons_of_mem _ member)
  unmarked := now.unmarked
  waiting node nodeMarked other edge := by
    rcases now.waiting node nodeMarked other edge with old | waits
    · exact Or.inl old
    · rcases List.mem_cons.mp waits with rfl | later
      · exact Or.inl marked
      · exact Or.inr later

/-- Another pending node is marked, and its successors are pending from then on. -/
theorem Seeking.mark (consistent : g.Consistent) (now : Seeking g id marks (current :: pending))
    (different : current ≠ id) (inside : current < marks.size) :
    Seeking g id (marks.set current true) ((g.successors current).reverse ++ pending) where
  slots := by rw [Array.size_set, now.slots]
  inside node member := by
    rw [Array.size_set]
    rcases List.mem_append.mp member with successor | later
    · rw [now.slots]
      exact lt_size_of_contains (consistent.target_contained (List.mem_reverse.mp successor))
    · exact now.inside node (List.mem_cons_of_mem _ later)
  unmarked := by
    rw [Array.getElem?_set_ne inside different]
    exact now.unmarked
  waiting node nodeMarked other edge := by
    rw [List.mem_append, List.mem_reverse]
    by_cases same : node = current
    · exact Or.inr (Or.inl (same ▸ edge))
    · rw [Array.getElem?_set_ne inside (Ne.symm same)] at nodeMarked
      rcases now.waiting node nodeMarked other edge with old | waits
      · left
        rw [Array.getElem?_set]
        split
        · rfl
        · exact old
      · rcases List.mem_cons.mp waits with rfl | later
        · exact Or.inl (Array.getElem?_set_self inside)
        · exact Or.inr (Or.inr later)

/-- The search ends with an answer, and the answer is whether a pending node leads to `id`. -/
theorem exists_comesTo? (consistent : g.Consistent) (now : Seeking g id marks pending) :
    ∃ answer, g.comesTo? id marks pending = some answer ∧
      (answer = true ↔ ∃ start ∈ pending, g.Reaches start id) := by
  fun_induction comesTo? g id marks pending with
  | case1 marks => exact ⟨false, rfl, by simp⟩
  | case2 marks pending =>
    exact ⟨true, rfl, iff_of_true rfl ⟨id, List.mem_cons_self, ReflTransGen.refl⟩⟩
  | case3 marks current pending different inside unmarked inductionHypothesis =>
    obtain ⟨answer, ended, correct⟩ := inductionHypothesis (now.mark consistent different inside)
    refine ⟨answer, ended, correct.trans ⟨?_, ?_⟩⟩
    · rintro ⟨start, member, way⟩
      rcases List.mem_append.mp member with successor | later
      · exact ⟨current, List.mem_cons_self, ReflTransGen.head (List.mem_reverse.mp successor) way⟩
      · exact ⟨start, List.mem_cons_of_mem _ later, way⟩
    · rintro ⟨start, member, way⟩
      rcases List.mem_cons.mp member with rfl | later
      · -- the node is not `id`, so the way begins with an edge
        rcases ReflTransGen.cases_head way with same | ⟨next, edge, rest⟩
        · exact absurd same different
        · exact ⟨next, List.mem_append_left _ (List.mem_reverse.mpr edge), rest⟩
      · exact ⟨start, List.mem_append_right _ later, way⟩
  | case4 marks current pending different inside marked inductionHypothesis =>
    have marked : marks[current]? = some true := by
      rw [Array.getElem?_eq_getElem inside, Bool.eq_true_of_not_eq_false marked]
    have next := now.drop marked
    obtain ⟨answer, ended, correct⟩ := inductionHypothesis next
    refine ⟨answer, ended, correct.trans ⟨?_, ?_⟩⟩
    · rintro ⟨start, member, way⟩
      exact ⟨start, List.mem_cons_of_mem _ member, way⟩
    · rintro ⟨start, member, way⟩
      rcases List.mem_cons.mp member with rfl | later
      · exact next.exists_pending marked way
      · exact ⟨start, later, way⟩
  | case5 marks current pending different outside =>
    exact absurd (now.inside current List.mem_cons_self) outside

theorem exists_isCyclic? (consistent : g.Consistent) (id : Nat) :
    ∃ answer, g.isCyclic? id = some answer ∧ (answer = true ↔ g.OnCycle id) := by
  have start : Seeking g id (Array.replicate g.nodes.size false) (g.successors id).reverse := by
    refine ⟨Array.size_replicate, fun node member => ?_, ?_, fun node marked => ?_⟩
    · rw [Array.size_replicate]
      exact lt_size_of_contains (consistent.target_contained (List.mem_reverse.mp member))
    · simp [Array.getElem?_replicate]
    · simp [Array.getElem?_replicate] at marked
  obtain ⟨answer, ended, correct⟩ := exists_comesTo? consistent start
  simp only [List.mem_reverse] at correct
  exact ⟨answer, ended, correct.trans (onCycle_iff g id).symm⟩

/-- In every graph that can be built, and for every number, the search for a way back ends without
leaving its marks, and says whether the node lies on a cycle. -/
theorem cycle_search_decides (changes : List (Change α)) (id : Nat) :
    ∃ answer, (build changes).isCyclic? id = some answer ∧
      (answer = true ↔ (build changes).OnCycle id) :=
  exists_isCyclic? (consistent_build changes) id

end ThreeAddress.Graph
