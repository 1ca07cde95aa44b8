/-
Searching a graph for a cycle. A node lies on a cycle if a search from its
successors comes back to it. The search keeps the nodes still to look at and
marks those it has expanded. It ends as soon as it comes back, so it never marks
the node it started from, and a node may be pending more than once.
-/
import ThreeAddress.Graph

namespace ThreeAddress.Graph

variable {α : Type}

/-- Marking a slot leaves fewer unmarked ones. -/
theorem count_unmarked_lt {marks : Array Bool} {id : Nat} (inside : id < marks.size)
    (unmarked : marks[id] = false) : (marks.set id true).count false < marks.count false := by
  have positive : 0 < marks.count false :=
    Array.count_pos_iff.mpr (unmarked ▸ Array.getElem_mem inside)
  rw [Array.count_set, unmarked]
  exact Nat.sub_lt positive Nat.one_pos

/-- Whether a search from the pending nodes comes to `id`. What became pending last is looked at
first. There is no answer if a pending node has no place among the marks. -/
def comesTo? (g : Graph α) (id : Nat) (marks : Array Bool) : List Nat → Option Bool
  | [] => some false
  | current :: pending =>
    if current = id then some true
    else if inside : current < marks.size then
      if unmarked : marks[current] = false then
        comesTo? g id (marks.set current true) ((g.successors current).reverse ++ pending)
      else comesTo? g id marks pending
    else none
termination_by pending => (marks.count false, pending.length)
decreasing_by
  · exact Prod.Lex.left _ _ (count_unmarked_lt inside unmarked)
  · exact Prod.Lex.right _ (Nat.lt_succ_self _)

/-- Whether a node can reach itself along at least one edge. -/
def isCyclic? (g : Graph α) (id : Nat) : Option Bool :=
  g.comesTo? id (Array.replicate g.nodes.size false) (g.successors id).reverse

end ThreeAddress.Graph
