/-
What reversing all edges of a graph changes and what it does not. Nodes, payloads
and empty slots stay, every edge is turned round, and so is every way. A cycle
turned round is a cycle, and two nodes that lead to each other still do. Which
components are listed depends on nothing else: a list of nodes is listed if it is
ascending and holds what leads to some node of a cycle and is led to by it. The
two listings may differ in order only, although the searches behind them number
the nodes differently.

Which slot a new node gets depends on the empty slots alone, so a graph and its
transpose hand out the same slots whatever happens to both of them later.
-/
import ThreeAddress.Proofs.Components
import ThreeAddress.Proofs.CycleSearch

namespace ThreeAddress.Graph

open Relation

variable {α : Type} {g h : Graph α}

/-! ### Nodes and edges -/

theorem transpose_transpose (g : Graph α) : g.transpose.transpose = g := by
  have twice : (Option.map fun node : Node α =>
        { node with incoming := node.outgoing, outgoing := node.incoming }) ∘
      (Option.map fun node : Node α =>
        { node with incoming := node.outgoing, outgoing := node.incoming }) = id := by
    funext slot
    cases slot <;> rfl
  rw [transpose, transpose, Array.map_map, twice, Array.map_id]

theorem ids_transpose (g : Graph α) : g.transpose.ids = g.ids := by
  rw [ids, size_transpose, funext (contains_transpose g), ids]

theorem get?_transpose (g : Graph α) (id : Nat) : g.transpose.get? id = g.get? id := by
  rw [get?, node?_transpose, Option.map_map, get?]
  rfl

theorem hasEdge_transpose (consistent : g.Consistent) (source target : Nat) :
    g.transpose.hasEdge source target = g.hasEdge target source := by
  rw [Bool.eq_iff_iff, hasEdge, hasEdge, List.contains_iff_mem, List.contains_iff_mem,
    successors_transpose, consistent.mirrored]

/-! ### Ways and cycles -/

theorem reaches_transpose (consistent : g.Consistent) (source target : Nat) :
    g.transpose.Reaches source target ↔ g.Reaches target source := by
  rw [Reaches, funext (successors_transpose g), follows_predecessors_iff consistent]

theorem onCycle_transpose (consistent : g.Consistent) (id : Nat) :
    g.transpose.OnCycle id ↔ g.OnCycle id := by
  have swapped : (fun source target => target ∈ g.transpose.successors source) =
      Function.swap fun source target => target ∈ g.successors source := by
    funext source target
    rw [successors_transpose]
    exact propext (consistent.mirrored target source).symm
  rw [OnCycle, swapped]
  exact transGen_swap

theorem isCyclic?_transpose (consistent : g.Consistent) (id : Nat) :
    g.transpose.isCyclic? id = g.isCyclic? id := by
  obtain ⟨answer, found, correct⟩ := exists_isCyclic? consistent id
  obtain ⟨other, otherFound, otherCorrect⟩ := exists_isCyclic? consistent.transpose id
  have same : other = answer := by
    rw [Bool.eq_iff_iff, otherCorrect, onCycle_transpose consistent, correct]
  rw [otherFound, found, same]

/-! ### Components -/

namespace ComponentListing

variable {components : List (List Nat)} {component : List Nat} {id : Nat}

/-- A node stands in one listed component only. -/
theorem eq_of_mem (listing : ComponentListing g components) {other : List Nat}
    (member : component ∈ components) (otherMember : other ∈ components) (idMember : id ∈ component)
    (idOther : id ∈ other) : component = other := by
  by_contra different
  have : Std.Symm (@List.Disjoint Nat) := ⟨fun _ _ => List.Disjoint.symm⟩
  have apart := listing.disjoint.forall member otherMember different
  exact apart idMember idOther

/-- A listed component holds what a node of it leads to and is led to by. -/
theorem mem_component_iff (consistent : g.Consistent) (listing : ComponentListing g components)
    (member : component ∈ components) (idMember : id ∈ component) (other : Nat) :
    other ∈ component ↔ g.Reaches id other ∧ g.Reaches other id := by
  have live := listing.live component member id idMember
  by_cases same : id = other
  · subst same
    exact iff_of_true idMember ⟨ReflTransGen.refl, ReflTransGen.refl⟩
  · constructor
    · intro otherMember
      exact (listing.together id other live (listing.live component member other otherMember)
        same).mp ⟨component, member, idMember, otherMember⟩
    · rintro ⟨forth, back⟩
      obtain ⟨shared, sharedMember, idShared, otherShared⟩ :=
        (listing.together id other live (back.contains_source consistent live) same).mpr
          ⟨forth, back⟩
      exact listing.eq_of_mem sharedMember member idShared idMember ▸ otherShared

/-- Which lists of nodes are listed, in terms of ways and cycles. -/
theorem mem_iff (consistent : g.Consistent) (listing : ComponentListing g components) :
    component ∈ components ↔ component.Pairwise (· < ·) ∧ ∃ id, g.OnCycle id ∧
      ∀ other, other ∈ component ↔ g.Reaches id other ∧ g.Reaches other id := by
  constructor
  · intro member
    obtain ⟨id, idMember⟩ := List.exists_mem_of_ne_nil component (listing.nonempty component member)
    exact ⟨listing.ascending component member, id,
      (listing.cyclic id).mp ⟨component, member, idMember⟩,
      listing.mem_component_iff consistent member idMember⟩
  · rintro ⟨ascending, id, cycle, whole⟩
    obtain ⟨listed, listedMember, idMember⟩ := (listing.cyclic id).mpr cycle
    have same : listed = component :=
      (listing.ascending listed listedMember).eq_of_mem_iff ascending fun other =>
        (listing.mem_component_iff consistent listedMember idMember other).trans (whole other).symm
    exact same ▸ listedMember

theorem nodup (listing : ComponentListing g components) : components.Nodup := by
  refine List.Pairwise.imp_of_mem (fun {first second} member _ apart same => ?_) listing.disjoint
  obtain ⟨id, idMember⟩ := List.exists_mem_of_ne_nil first (listing.nonempty first member)
  exact apart idMember (same ▸ idMember)

end ComponentListing

theorem components_transpose (consistent : g.Consistent) :
    g.transpose.components.Perm g.components := by
  have listing := (components?_eq consistent).2
  have turned := (components?_eq consistent.transpose).2
  refine (List.perm_ext_iff_of_nodup turned.nodup listing.nodup).mpr fun component => ?_
  rw [turned.mem_iff consistent.transpose, listing.mem_iff consistent]
  simp only [onCycle_transpose consistent, reaches_transpose consistent, and_comm]

/-! ### Slots for new nodes -/

/-- The slot that an operation hands out. -/
def Change.slot? (g : Graph α) : Change α → Option Nat
  | .add data => some (g.add data).1
  | .remove _ | .connect _ _ | .modify _ _ | .transpose => none

/-- The slots handed out by a sequence of operations, in order. -/
def slotsOf (g : Graph α) : List (Change α) → List Nat
  | [] => []
  | change :: later => (change.slot? g).toList ++ slotsOf (change.apply g) later

/-- Two graphs that have nodes in the same slots. -/
structure Alike (g h : Graph α) : Prop where
  size : g.nodes.size = h.nodes.size
  free : g.free = h.free
  live : ∀ id, g.contains id = h.contains id

/-- What removing a node does to the slots, whether the node exists or not. -/
theorem slots_apply_remove (consistent : g.Consistent) (id : Nat) :
    ((Change.remove id).apply g).nodes.size = g.nodes.size ∧
      ((Change.remove id).apply g).free =
        (if g.contains id then insertAscending id g.free else g.free) ∧
      ∀ other, ((Change.remove id).apply g).contains other ↔ other ≠ id ∧ g.contains other := by
  rw [Change.apply]
  cases removed : g.remove? id with
  | none =>
    have absent : ¬ g.contains id := by
      rw [contains, Option.map_eq_none_iff.mp removed]
      exact Bool.false_ne_true
    refine ⟨rfl, (if_neg absent).symm, fun other => ⟨fun live => ⟨?_, live⟩, And.right⟩⟩
    rintro rfl
    exact absent live
  | some result =>
    obtain ⟨size, free⟩ := slots_remove removed
    refine ⟨size, ?_, contains_remove consistent removed⟩
    rw [if_pos (contains_of_remove removed)]
    exact free

theorem alike_transpose (g : Graph α) : g.transpose.Alike g :=
  ⟨size_transpose g, rfl, contains_transpose g⟩

theorem Alike.add_fst (alike : g.Alike h) (data : α) : (g.add data).1 = (h.add data).1 := by
  rw [add, add, alike.free, alike.size]
  cases h.free <;> rfl

theorem Alike.slot? (alike : g.Alike h) (change : Change α) : change.slot? g = change.slot? h := by
  cases change with
  | add data => exact congrArg some (alike.add_fst data)
  | remove | connect | modify | transpose => rfl

/-- An operation carried out on both graphs leaves nodes in the same slots of both. -/
theorem Alike.apply (gConsistent : g.Consistent) (hConsistent : h.Consistent) (alike : g.Alike h)
    (change : Change α) : (change.apply g).Alike (change.apply h) := by
  cases change with
  | add data =>
    refine ⟨?_, ?_, fun id => ?_⟩
    · rw [Change.apply, Change.apply, add, add, alike.free]
      cases h.free <;> simp [alike.size]
    · rw [Change.apply, Change.apply, add, add, alike.free]
      cases h.free <;> rfl
    · rw [Bool.eq_iff_iff, Change.apply, Change.apply, contains_add gConsistent,
        contains_add hConsistent, alike.add_fst, alike.live]
  | remove id =>
    have slots := slots_apply_remove gConsistent id
    have otherSlots := slots_apply_remove hConsistent id
    refine ⟨?_, ?_, fun other => ?_⟩
    · rw [slots.1, otherSlots.1, alike.size]
    · rw [slots.2.1, otherSlots.2.1, alike.live, alike.free]
    · rw [Bool.eq_iff_iff, slots.2.2, otherSlots.2.2, alike.live]
  | connect source target =>
    refine ⟨?_, ?_, fun id => ?_⟩
    · rw [Change.apply, Change.apply, size_connect, size_connect, alike.size]
    · rw [Change.apply, Change.apply, free_connect, free_connect, alike.free]
    · rw [Change.apply, Change.apply, contains_connect, contains_connect, alike.live]
  | modify id edit =>
    refine ⟨?_, alike.free, fun other => ?_⟩
    · rw [Change.apply, Change.apply, modify, modify, size_modifyNode, size_modifyNode, alike.size]
    · rw [Change.apply, Change.apply, contains_modify, contains_modify, alike.live]
  | transpose =>
    refine ⟨?_, alike.free, fun id => ?_⟩
    · rw [Change.apply, Change.apply, size_transpose, size_transpose, alike.size]
    · rw [Change.apply, Change.apply, contains_transpose, contains_transpose, alike.live]

theorem Alike.slotsOf (gConsistent : g.Consistent) (hConsistent : h.Consistent) (alike : g.Alike h)
    (later : List (Change α)) : g.slotsOf later = h.slotsOf later := by
  induction later generalizing g h with
  | nil => rfl
  | cons change later inductionHypothesis =>
    rw [Graph.slotsOf, Graph.slotsOf, alike.slot? change,
      inductionHypothesis (gConsistent.apply change) (hConsistent.apply change)
        (alike.apply gConsistent hConsistent change)]

/-! ### The transpose of every graph that can be built -/

/-- What is promised of the transpose `turned` of a graph. -/
structure Transposed (g turned : Graph α) : Prop where
  nodes : turned.ids = g.ids
  payloads : ∀ id, turned.get? id = g.get? id
  free : turned.free = g.free
  edges : ∀ source target, turned.hasEdge source target = g.hasEdge target source
  twice : turned.transpose = g
  slots : ∀ later : List (Change α), turned.slotsOf later = g.slotsOf later
  cyclic : ∀ id, turned.isCyclic? id = g.isCyclic? id
  components : ∃ listed turnedListed, g.components? = some listed ∧
    turned.components? = some turnedListed ∧ turnedListed.Perm listed

/-- Reversing the edges of a graph that can be built keeps its nodes, empty slots, cycles and
components, and turns every edge round. -/
theorem transposing_keeps_cycles (changes : List (Change α)) :
    Transposed (build changes) (build changes).transpose := by
  have consistent := consistent_build changes
  exact {
    nodes := ids_transpose _
    payloads := get?_transpose _
    free := rfl
    edges := hasEdge_transpose consistent
    twice := transpose_transpose _
    slots := (alike_transpose _).slotsOf consistent.transpose consistent
    cyclic := isCyclic?_transpose consistent
    components := ⟨_, _, (components?_eq consistent).1, (components?_eq consistent.transpose).1,
      components_transpose consistent⟩ }

end ThreeAddress.Graph
