/-
The shape of every graph that can be built. Two things about a graph are kept
twice: an edge stands in the list of its source and in the list of its target,
and a slot is empty both by holding no node and by standing in the free list.
`Consistent` says that the two records agree, and it is preserved by every
operation. All that the searches need is derived from it: edges join nodes that
exist, and following edges backwards is following them forwards in reverse.
-/
import ThreeAddress.Graph
import Mathlib.Data.List.Nodup
import Mathlib.Logic.Relation

namespace ThreeAddress

/-! ### Ascending lists -/

@[simp] theorem mem_insertAscending {n m : Nat} {list : List Nat} :
    m ∈ insertAscending n list ↔ m = n ∨ m ∈ list := by
  induction list with
  | nil => simp [insertAscending]
  | cons head rest inductionHypothesis =>
    unfold insertAscending
    split
    · exact List.mem_cons
    · split
      · next same => simp [same]
      · rw [List.mem_cons, inductionHypothesis, List.mem_cons]
        exact or_left_comm

/-- Inserting keeps a list ascending. -/
theorem pairwise_insertAscending (n : Nat) {list : List Nat}
    (ascending : list.Pairwise (· < ·)) : (insertAscending n list).Pairwise (· < ·) := by
  induction list with
  | nil => exact List.pairwise_singleton _ _
  | cons head rest inductionHypothesis =>
    obtain ⟨above, restAscending⟩ := List.pairwise_cons.mp ascending
    unfold insertAscending
    split
    · next below =>
      refine List.pairwise_cons.mpr ⟨fun m member => ?_, ascending⟩
      rcases List.mem_cons.mp member with rfl | later
      · exact below
      · exact Nat.lt_trans below (above m later)
    · split
      · exact ascending
      · refine List.pairwise_cons.mpr ⟨fun m member => ?_, inductionHypothesis restAscending⟩
        rcases mem_insertAscending.mp member with rfl | old
        · omega
        · exact above m old

/-- A node without the edges from and to a given slot. -/
def Node.without {α : Type} (id : Nat) (node : Node α) : Node α :=
  { node with
    incoming := node.incoming.filter (· ≠ id)
    outgoing := node.outgoing.filter (· ≠ id) }

namespace Graph

variable {α : Type}

/-! ### What the operations do to single nodes -/

theorem node?_modifyNode (g : Graph α) (id other : Nat) (change : Node α → Node α) :
    (g.modifyNode id change).node? other =
      if other = id then (g.node? other).map change else g.node? other := by
  simp only [node?, modifyNode, Array.getElem?_modify]
  by_cases same : id = other
  · subst same
    rw [if_pos rfl, if_pos rfl]
    cases g.nodes[id]? with
    | none => rfl
    | some slot => rfl
  · rw [if_neg same, if_neg (Ne.symm same)]

theorem size_modifyNode (g : Graph α) (id : Nat) (change : Node α → Node α) :
    (g.modifyNode id change).nodes.size = g.nodes.size := by
  simp [modifyNode]

theorem contains_modifyNode (g : Graph α) (id other : Nat) (change : Node α → Node α) :
    (g.modifyNode id change).contains other = g.contains other := by
  unfold contains
  rw [node?_modifyNode]
  split
  · exact Option.isSome_map
  · rfl

theorem lt_size_of_contains {g : Graph α} {id : Nat} (live : g.contains id) :
    id < g.nodes.size := by
  unfold contains node? at live
  by_contra beyond
  rw [Array.getElem?_eq_none (Nat.le_of_not_lt beyond)] at live
  exact absurd live (by simp)

theorem successors_of_not_contains {g : Graph α} {id : Nat} (empty : ¬ g.contains id) :
    g.successors id = [] := by
  unfold contains at empty
  rw [Bool.not_eq_true, Option.isSome_eq_false_iff, Option.isNone_iff_eq_none] at empty
  rw [successors, empty]
  rfl

theorem predecessors_of_not_contains {g : Graph α} {id : Nat} (empty : ¬ g.contains id) :
    g.predecessors id = [] := by
  unfold contains at empty
  rw [Bool.not_eq_true, Option.isSome_eq_false_iff, Option.isNone_iff_eq_none] at empty
  rw [predecessors, empty]
  rfl

@[simp] theorem mem_ids {g : Graph α} {id : Nat} : id ∈ g.ids ↔ g.contains id := by
  rw [ids, List.mem_filter, List.mem_range]
  exact ⟨And.right, fun live => ⟨lt_size_of_contains live, live⟩⟩

theorem pairwise_ids (g : Graph α) : g.ids.Pairwise (· < ·) :=
  List.Pairwise.filter _ List.pairwise_lt_range

theorem nodup_ids (g : Graph α) : g.ids.Nodup :=
  List.Nodup.filter _ List.nodup_range

/-! ### Consistency -/

/-- The two records of the edges agree, and so do the two records of the empty slots. -/
structure Consistent (g : Graph α) : Prop where
  mirrored : ∀ source target, target ∈ g.successors source ↔ source ∈ g.predecessors target
  outgoingAscending : ∀ id, (g.successors id).Pairwise (· < ·)
  incomingAscending : ∀ id, (g.predecessors id).Pairwise (· < ·)
  freeExact : ∀ id, id ∈ g.free ↔ id < g.nodes.size ∧ ¬ g.contains id
  freeAscending : g.free.Pairwise (· < ·)

namespace Consistent

variable {g : Graph α}

theorem source_contained (_ : g.Consistent) {source target : Nat}
    (edge : target ∈ g.successors source) : g.contains source := by
  by_contra empty
  rw [successors_of_not_contains empty] at edge
  exact List.not_mem_nil edge

theorem target_contained (consistent : g.Consistent) {source target : Nat}
    (edge : target ∈ g.successors source) : g.contains target := by
  by_contra empty
  rw [consistent.mirrored, predecessors_of_not_contains empty] at edge
  exact List.not_mem_nil edge

/-- A graph without nodes. -/
theorem empty : ({} : Graph α).Consistent where
  mirrored _ _ := by simp [successors, predecessors, node?]
  outgoingAscending _ := by simp [successors, node?]
  incomingAscending _ := by simp [predecessors, node?]
  freeExact _ := by simp
  freeAscending := List.Pairwise.nil

end Consistent

/-! ### Edges and payloads -/

theorem successors_eq {g h : Graph α} {id : Nat}
    (same : (g.node? id).map Node.outgoing = (h.node? id).map Node.outgoing) :
    g.successors id = h.successors id := by
  rw [successors, same, successors]

theorem predecessors_eq {g h : Graph α} {id : Nat}
    (same : (g.node? id).map Node.incoming = (h.node? id).map Node.incoming) :
    g.predecessors id = h.predecessors id := by
  rw [predecessors, same, predecessors]

theorem successors_modifyNode (g : Graph α) (id other : Nat) (change : Node α → Node α) :
    (g.modifyNode id change).successors other =
      if other = id then ((g.node? id).map fun node => (change node).outgoing).getD []
      else g.successors other := by
  rw [successors, node?_modifyNode]
  split
  · next same => rw [same, Option.map_map]; rfl
  · rfl

theorem predecessors_modifyNode (g : Graph α) (id other : Nat) (change : Node α → Node α) :
    (g.modifyNode id change).predecessors other =
      if other = id then ((g.node? id).map fun node => (change node).incoming).getD []
      else g.predecessors other := by
  rw [predecessors, node?_modifyNode]
  split
  · next same => rw [same, Option.map_map]; rfl
  · rfl

@[simp] theorem successors_modify (g : Graph α) (id other : Nat) (change : α → α) :
    (g.modify id change).successors other = g.successors other := by
  rw [modify, successors_modifyNode]
  split
  · next same => rw [same]; rfl
  · rfl

@[simp] theorem predecessors_modify (g : Graph α) (id other : Nat) (change : α → α) :
    (g.modify id change).predecessors other = g.predecessors other := by
  rw [modify, predecessors_modifyNode]
  split
  · next same => rw [same]; rfl
  · rfl

theorem contains_modify (g : Graph α) (id other : Nat) (change : α → α) :
    (g.modify id change).contains other = g.contains other :=
  contains_modifyNode g id other _

theorem get?_modify (g : Graph α) (id other : Nat) (change : α → α) :
    (g.modify id change).get? other =
      if other = id then (g.get? other).map change else g.get? other := by
  rw [get?, modify, node?_modifyNode]
  split
  · rw [Option.map_map, get?, Option.map_map]
    rfl
  · rfl

/-- Changing payloads does not touch the shape. -/
theorem Consistent.modify {g : Graph α} (consistent : g.Consistent) (id : Nat) (change : α → α) :
    (g.modify id change).Consistent where
  mirrored source target := by
    rw [successors_modify, predecessors_modify]
    exact consistent.mirrored source target
  outgoingAscending other := by
    rw [successors_modify]
    exact consistent.outgoingAscending other
  incomingAscending other := by
    rw [predecessors_modify]
    exact consistent.incomingAscending other
  freeExact other := by
    rw [Graph.modify, contains_modifyNode, size_modifyNode]
    exact consistent.freeExact other
  freeAscending := consistent.freeAscending

theorem connect_of_contains {g : Graph α} {source target : Nat} (sourceLive : g.contains source)
    (targetLive : g.contains target) :
    g.connect source target =
      (g.modifyNode source fun node =>
          { node with outgoing := insertAscending target node.outgoing }).modifyNode target
        fun node => { node with incoming := insertAscending source node.incoming } := by
  rw [connect, if_pos (by rw [sourceLive, targetLive]; rfl)]

theorem connect_of_not_contains {g : Graph α} {source target : Nat}
    (missing : ¬ (g.contains source ∧ g.contains target)) : g.connect source target = g := by
  rw [connect, if_neg (by rwa [Bool.and_eq_true])]

/-- Connecting two nodes changes the successors of the source alone. -/
theorem successors_connect {g : Graph α} {source target : Nat} (sourceLive : g.contains source)
    (targetLive : g.contains target) (id : Nat) :
    (g.connect source target).successors id =
      if id = source then insertAscending target (g.successors id) else g.successors id := by
  have mapped : ∀ g : Graph α, (g.modifyNode target fun node =>
      { node with incoming := insertAscending source node.incoming }).successors id =
        g.successors id := by
    intro g
    rw [successors_modifyNode]
    split
    · next same => rw [same]; rfl
    · rfl
  rw [connect_of_contains sourceLive targetLive, mapped, successors_modifyNode]
  split
  · next same =>
    obtain ⟨node, found⟩ := Option.isSome_iff_exists.mp sourceLive
    rw [same, successors, found]
    rfl
  · rfl

/-- Connecting two nodes changes the predecessors of the target alone. -/
theorem predecessors_connect {g : Graph α} {source target : Nat} (sourceLive : g.contains source)
    (targetLive : g.contains target) (id : Nat) :
    (g.connect source target).predecessors id =
      if id = target then insertAscending source (g.predecessors id) else g.predecessors id := by
  rw [connect_of_contains sourceLive targetLive, predecessors_modifyNode, node?_modifyNode]
  by_cases same : id = target
  · obtain ⟨node, found⟩ := Option.isSome_iff_exists.mp targetLive
    rw [if_pos same, if_pos same, same, predecessors, found]
    split <;> rfl
  · rw [if_neg same, if_neg same, predecessors_modifyNode]
    split
    · next atSource => rw [atSource]; rfl
    · rfl

theorem contains_connect (g : Graph α) (source target id : Nat) :
    (g.connect source target).contains id = g.contains id := by
  unfold connect
  split
  · rw [contains_modifyNode, contains_modifyNode]
  · rfl

theorem size_connect (g : Graph α) (source target : Nat) :
    (g.connect source target).nodes.size = g.nodes.size := by
  unfold connect
  split
  · rw [size_modifyNode, size_modifyNode]
  · rfl

theorem free_connect (g : Graph α) (source target : Nat) :
    (g.connect source target).free = g.free := by
  unfold connect
  split <;> rfl

theorem mem_successors_connect {g : Graph α} {source target : Nat} (sourceLive : g.contains source)
    (targetLive : g.contains target) {id next : Nat} :
    next ∈ (g.connect source target).successors id ↔
      next ∈ g.successors id ∨ (id = source ∧ next = target) := by
  rw [successors_connect sourceLive targetLive]
  split
  · next same => rw [mem_insertAscending, or_comm, and_iff_right same]
  · next other => simp [other]

theorem get?_modifyNode (g : Graph α) (id other : Nat) (change : Node α → Node α)
    (same : ∀ node, (change node).data = node.data) :
    (g.modifyNode id change).get? other = g.get? other := by
  rw [get?, get?, node?_modifyNode]
  split
  · rw [Option.map_map]
    exact Option.map_congr fun node _ => same node
  · rfl

theorem get?_connect (g : Graph α) (source target id : Nat) :
    (g.connect source target).get? id = g.get? id := by
  unfold connect
  split
  · rw [get?_modifyNode, get?_modifyNode]
    · exact fun _ => rfl
    · exact fun _ => rfl
  · rfl

theorem Consistent.connect {g : Graph α} (consistent : g.Consistent) (source target : Nat) :
    (g.connect source target).Consistent := by
  by_cases live : g.contains source ∧ g.contains target
  · obtain ⟨sourceLive, targetLive⟩ := live
    refine ⟨fun a b => ?_, fun id => ?_, fun id => ?_, fun id => ?_, ?_⟩
    · rw [successors_connect sourceLive targetLive, predecessors_connect sourceLive targetLive]
      by_cases atSource : a = source <;> by_cases atTarget : b = target <;>
        simp [atSource, atTarget, consistent.mirrored]
    · rw [successors_connect sourceLive targetLive]
      split
      · exact pairwise_insertAscending _ (consistent.outgoingAscending id)
      · exact consistent.outgoingAscending id
    · rw [predecessors_connect sourceLive targetLive]
      split
      · exact pairwise_insertAscending _ (consistent.incomingAscending id)
      · exact consistent.incomingAscending id
    · rw [free_connect, contains_connect, size_connect]
      exact consistent.freeExact id
    · rw [free_connect]
      exact consistent.freeAscending
  · rw [connect_of_not_contains live]
    exact consistent

/-! ### Adding, removing and reversing -/

/-- A new node takes an empty slot and has no edges; the other slots stay as they were. -/
theorem node?_add {g : Graph α} (consistent : g.Consistent) (data : α) (id : Nat) :
    (g.add data).2.node? id = if id = (g.add data).1 then some { data } else g.node? id := by
  unfold add
  cases freeList : g.free with
  | nil =>
    simp only [node?, Array.getElem?_push]
    split <;> rfl
  | cons slot rest =>
    have inside : slot < g.nodes.size :=
      ((consistent.freeExact slot).mp (by rw [freeList]; exact List.mem_cons_self)).1
    simp only [node?, Array.getElem?_setIfInBounds]
    by_cases same : slot = id
    · subst same
      simp [inside]
    · rw [if_neg same, if_neg (Ne.symm same)]

theorem not_contains_add_fst {g : Graph α} (consistent : g.Consistent) (data : α) :
    ¬ g.contains (g.add data).1 := by
  unfold add
  cases freeList : g.free with
  | nil => exact fun live => absurd (lt_size_of_contains live) (Nat.lt_irrefl _)
  | cons slot rest =>
    exact ((consistent.freeExact slot).mp (by rw [freeList]; exact List.mem_cons_self)).2

theorem contains_add {g : Graph α} (consistent : g.Consistent) (data : α) (id : Nat) :
    (g.add data).2.contains id ↔ id = (g.add data).1 ∨ g.contains id := by
  unfold contains
  rw [node?_add consistent]
  split
  · next same => simp [same]
  · next other => simp [other]

theorem successors_add {g : Graph α} (consistent : g.Consistent) (data : α) (id : Nat) :
    (g.add data).2.successors id = g.successors id := by
  by_cases same : id = (g.add data).1
  · rw [same, successors_of_not_contains (not_contains_add_fst consistent data), successors,
      node?_add consistent, if_pos rfl]
    rfl
  · exact successors_eq (by rw [node?_add consistent, if_neg same])

theorem predecessors_add {g : Graph α} (consistent : g.Consistent) (data : α) (id : Nat) :
    (g.add data).2.predecessors id = g.predecessors id := by
  by_cases same : id = (g.add data).1
  · rw [same, predecessors_of_not_contains (not_contains_add_fst consistent data), predecessors,
      node?_add consistent, if_pos rfl]
    rfl
  · exact predecessors_eq (by rw [node?_add consistent, if_neg same])

theorem Consistent.add {g : Graph α} (consistent : g.Consistent) (data : α) :
    (g.add data).2.Consistent where
  mirrored source target := by
    rw [successors_add consistent, predecessors_add consistent]
    exact consistent.mirrored source target
  outgoingAscending id := by
    rw [successors_add consistent]
    exact consistent.outgoingAscending id
  incomingAscending id := by
    rw [predecessors_add consistent]
    exact consistent.incomingAscending id
  freeExact id := by
    rw [contains_add consistent]
    have old := consistent.freeExact id
    unfold Graph.add
    cases freeList : g.free with
    | nil =>
      rw [freeList] at old
      simp only [List.not_mem_nil, false_iff, not_and, not_not, Array.size_push, not_or] at old ⊢
      intro below notLast
      exact old (by omega)
    | cons slot rest =>
      have ascending := consistent.freeAscending
      rw [freeList] at old ascending
      have above : ∀ other ∈ rest, slot < other := (List.pairwise_cons.mp ascending).1
      simp only [List.mem_cons, Array.size_setIfInBounds] at old ⊢
      constructor
      · intro member
        have bound := old.mp (Or.inr member)
        refine ⟨bound.1, fun live => live.elim (fun same => ?_) bound.2⟩
        exact absurd (above id member) (by omega)
      · rintro ⟨inside, unused⟩
        rw [not_or] at unused
        exact (old.mpr ⟨inside, unused.2⟩).resolve_left unused.1
  freeAscending := by
    have ascending := consistent.freeAscending
    unfold Graph.add
    cases freeList : g.free with
    | nil => exact List.Pairwise.nil
    | cons slot rest =>
      rw [freeList] at ascending
      exact (List.pairwise_cons.mp ascending).2

/-- Changing several nodes in the same way changes each of them once, if changing twice is
changing once. -/
theorem node?_foldl_modifyNode (change : Node α → Node α)
    (idempotent : ∀ node, change (change node) = change node) (targets : List Nat) (g : Graph α)
    (id : Nat) :
    (targets.foldl (fun g target => g.modifyNode target change) g).node? id =
      if id ∈ targets then (g.node? id).map change else g.node? id := by
  induction targets generalizing g with
  | nil => rfl
  | cons target rest inductionHypothesis =>
    rw [List.foldl_cons, inductionHypothesis, node?_modifyNode]
    by_cases later : id ∈ rest <;> by_cases same : id = target <;>
      simp [later, same, Function.comp_def, idempotent]

theorem size_foldl_modifyNode (change : Node α → Node α) (targets : List Nat) (g : Graph α) :
    (targets.foldl (fun g target => g.modifyNode target change) g).nodes.size = g.nodes.size := by
  induction targets generalizing g with
  | nil => rfl
  | cons target rest inductionHypothesis =>
    rw [List.foldl_cons, inductionHypothesis, size_modifyNode]

theorem free_foldl_modifyNode (change : Node α → Node α) (targets : List Nat) (g : Graph α) :
    (targets.foldl (fun g target => g.modifyNode target change) g).free = g.free := by
  induction targets generalizing g with
  | nil => rfl
  | cons target rest inductionHypothesis =>
    rw [List.foldl_cons, inductionHypothesis]
    rfl

/-- Removing a node empties its slot and takes it out of the lists of all other nodes. -/
theorem node?_remove {g rest : Graph α} (consistent : g.Consistent) {id : Nat} {data : α}
    (removed : g.remove? id = some (data, rest)) (other : Nat) :
    rest.node? other = if other = id then none else (g.node? other).map (Node.without id) := by
  obtain ⟨node, found, result⟩ := Option.map_eq_some_iff.mp removed
  have emptied : (⟨g.nodes.setIfInBounds id none, insertAscending id g.free⟩ : Graph α).node?
      other = if other = id then none else g.node? other := by
    simp only [node?, Array.getElem?_setIfInBounds]
    by_cases same : id = other
    · subst same
      rw [if_pos rfl, if_pos rfl]
      split <;> rfl
    · rw [if_neg same, if_neg (Ne.symm same)]
  rw [← (Prod.mk.inj result).2, node?_foldl_modifyNode _ (by simp),
    node?_foldl_modifyNode _ (by simp), emptied]
  by_cases same : other = id
  · simp [same]
  · rw [if_neg same]
    cases kept : g.node? other with
    | none => simp [same]
    | some neighbour =>
      -- a list that does not name the slot is not changed by filtering it out
      have outgoingKept : other ∉ node.incoming →
          neighbour.outgoing.filter (· ≠ id) = neighbour.outgoing := by
        intro noEdge
        refine List.filter_eq_self.mpr fun target member => ?_
        have edge := consistent.mirrored other target
        simp only [successors, predecessors, kept, Option.map_some, Option.getD_some] at edge
        refine decide_eq_true fun equal => noEdge ?_
        have back := edge.mp member
        rwa [equal, found] at back
      have incomingKept : other ∉ node.outgoing →
          neighbour.incoming.filter (· ≠ id) = neighbour.incoming := by
        intro noEdge
        refine List.filter_eq_self.mpr fun source member => ?_
        have edge := consistent.mirrored source other
        simp only [successors, predecessors, kept, Option.map_some, Option.getD_some] at edge
        refine decide_eq_true fun equal => noEdge ?_
        have forth := edge.mpr member
        rwa [equal, found] at forth
      rw [if_neg same]
      by_cases into : other ∈ node.outgoing <;> by_cases out : other ∈ node.incoming
      · rw [if_pos into, if_pos out]
        rfl
      · rw [if_pos into, if_neg out, Option.map_some, Option.map_some, Node.without,
          outgoingKept out]
      · rw [if_neg into, if_pos out, Option.map_some, Option.map_some, Node.without,
          incomingKept into]
      · rw [if_neg into, if_neg out, Option.map_some, Node.without, outgoingKept out,
          incomingKept into]

section Removing

variable {g rest : Graph α} {id : Nat} {data : α}

theorem contains_of_remove (removed : g.remove? id = some (data, rest)) : g.contains id := by
  obtain ⟨node, found, -⟩ := Option.map_eq_some_iff.mp removed
  exact Option.isSome_iff_exists.mpr ⟨node, found⟩

theorem successors_remove (consistent : g.Consistent) (removed : g.remove? id = some (data, rest))
    (other : Nat) :
    rest.successors other = if other = id then [] else (g.successors other).filter (· ≠ id) := by
  rw [successors, node?_remove consistent removed]
  split
  · rfl
  · rw [successors]
    cases g.node? other <;> rfl

theorem predecessors_remove (consistent : g.Consistent)
    (removed : g.remove? id = some (data, rest)) (other : Nat) :
    rest.predecessors other =
      if other = id then [] else (g.predecessors other).filter (· ≠ id) := by
  rw [predecessors, node?_remove consistent removed]
  split
  · rfl
  · rw [predecessors]
    cases g.node? other <;> rfl

theorem contains_remove (consistent : g.Consistent) (removed : g.remove? id = some (data, rest))
    (other : Nat) : rest.contains other ↔ other ≠ id ∧ g.contains other := by
  unfold contains
  rw [node?_remove consistent removed]
  split
  · next same => simp [same]
  · next different => simp [different]

theorem slots_remove (removed : g.remove? id = some (data, rest)) :
    rest.nodes.size = g.nodes.size ∧ rest.free = insertAscending id g.free := by
  obtain ⟨node, found, result⟩ := Option.map_eq_some_iff.mp removed
  rw [← (Prod.mk.inj result).2, size_foldl_modifyNode, size_foldl_modifyNode,
    free_foldl_modifyNode, free_foldl_modifyNode]
  exact ⟨Array.size_setIfInBounds, rfl⟩

theorem Consistent.remove (consistent : g.Consistent) (removed : g.remove? id = some (data, rest)) :
    rest.Consistent := by
  have live := contains_of_remove removed
  have outgoing := successors_remove consistent removed
  have incoming := predecessors_remove consistent removed
  obtain ⟨size, free⟩ := slots_remove removed
  refine ⟨fun source target => ?_, fun other => ?_, fun other => ?_, fun other => ?_, ?_⟩
  · rw [outgoing, incoming]
    by_cases fromId : source = id <;> by_cases toId : target = id <;>
      simp [fromId, toId, consistent.mirrored]
  · rw [outgoing]
    split
    · exact List.Pairwise.nil
    · exact (consistent.outgoingAscending other).filter _
  · rw [incoming]
    split
    · exact List.Pairwise.nil
    · exact (consistent.incomingAscending other).filter _
  · rw [size, free, mem_insertAscending, contains_remove consistent removed, consistent.freeExact]
    by_cases same : other = id
    · simp [same, lt_size_of_contains live]
    · simp [same]
  · rw [free]
    exact pairwise_insertAscending _ consistent.freeAscending

end Removing

theorem node?_transpose (g : Graph α) (id : Nat) :
    g.transpose.node? id = (g.node? id).map fun node =>
      { node with incoming := node.outgoing, outgoing := node.incoming } := by
  simp only [node?, transpose, Array.getElem?_map]
  cases g.nodes[id]? <;> rfl

theorem successors_transpose (g : Graph α) (id : Nat) :
    g.transpose.successors id = g.predecessors id := by
  rw [successors, node?_transpose, Option.map_map, predecessors]
  rfl

theorem predecessors_transpose (g : Graph α) (id : Nat) :
    g.transpose.predecessors id = g.successors id := by
  rw [predecessors, node?_transpose, Option.map_map, successors]
  rfl

theorem contains_transpose (g : Graph α) (id : Nat) :
    g.transpose.contains id = g.contains id := by
  rw [contains, node?_transpose, Option.isSome_map, contains]

theorem size_transpose (g : Graph α) : g.transpose.nodes.size = g.nodes.size :=
  Array.size_map

theorem Consistent.transpose {g : Graph α} (consistent : g.Consistent) :
    g.transpose.Consistent where
  mirrored source target := by
    rw [successors_transpose, predecessors_transpose]
    exact (consistent.mirrored target source).symm
  outgoingAscending id := by
    rw [successors_transpose]
    exact consistent.incomingAscending id
  incomingAscending id := by
    rw [predecessors_transpose]
    exact consistent.outgoingAscending id
  freeExact id := by
    rw [contains_transpose, size_transpose]
    exact consistent.freeExact id
  freeAscending := consistent.freeAscending

/-! ### Every graph that can be built -/

/-- An operation on a graph. -/
inductive Change (α : Type) where
  | add (data : α)
  | remove (id : Nat)
  | connect (source target : Nat)
  /-- Changes the payload of a node. -/
  | modify (id : Nat) (edit : α → α)
  | transpose

/-- Carries out an operation; removing a node that does not exist changes nothing. -/
def Change.apply (g : Graph α) : Change α → Graph α
  | .add data => (g.add data).2
  | .remove id => ((g.remove? id).map Prod.snd).getD g
  | .connect source target => g.connect source target
  | .modify id edit => g.modify id edit
  | .transpose => g.transpose

theorem Consistent.apply {g : Graph α} (consistent : g.Consistent) (change : Change α) :
    (change.apply g).Consistent := by
  cases change with
  | add data => exact consistent.add data
  | remove id =>
    rw [Change.apply]
    cases removed : g.remove? id with
    | none => exact consistent
    | some result => exact consistent.remove removed
  | connect source target => exact consistent.connect source target
  | modify id edit => exact consistent.modify id edit
  | transpose => exact consistent.transpose

/-- The graph that a sequence of operations builds from nothing. -/
def build (changes : List (Change α)) : Graph α :=
  changes.foldl Change.apply {}

/-- Every graph that can be built is consistent. -/
theorem consistent_build (changes : List (Change α)) : (build changes).Consistent := by
  suffices run : ∀ g : Graph α, g.Consistent → (changes.foldl Change.apply g).Consistent from
    run _ Consistent.empty
  induction changes with
  | nil => exact fun _ consistent => consistent
  | cons change rest inductionHypothesis =>
    exact fun g consistent => inductionHypothesis _ (consistent.apply change)

end Graph

end ThreeAddress
