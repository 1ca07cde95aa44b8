/-
Graphs that differ in their payloads only. Changing what nodes hold changes no edge,
so it can be done before or after nodes and edgeCount_map are added, and searches do not
notice.
-/
import ThreeAddress.Graph.Components
import ThreeAddress.Proofs.GraphShape

namespace ThreeAddress

variable {α β : Type}

/-- Changes what a node holds. -/
def Node.map (f : α → β) (node : Node α) : Node β where
  data := f node.data
  incoming := node.incoming
  outgoing := node.outgoing

namespace Graph

/-- Changes what all nodes hold. -/
def map (f : α → β) (g : Graph α) : Graph β where
  nodes := g.nodes.map (Option.map (Node.map f))
  free := g.free

variable (f : α → β) (g : Graph α)

theorem size_map : (g.map f).nodes.size = g.nodes.size :=
  Array.size_map

theorem node?_map (id : Nat) : (g.map f).node? id = (g.node? id).map (Node.map f) := by
  rw [node?, map, Array.getElem?_map, node?]
  cases g.nodes[id]? <;> rfl

theorem get?_map (id : Nat) : (g.map f).get? id = (g.get? id).map f := by
  rw [get?, node?_map, get?, Option.map_map, Option.map_map]
  rfl

theorem contains_map (id : Nat) : (g.map f).contains id = g.contains id := by
  rw [contains, node?_map, Option.isSome_map, contains]

theorem successors_map (id : Nat) : (g.map f).successors id = g.successors id := by
  rw [successors, node?_map, Option.map_map]
  rfl

theorem predecessors_map (id : Nat) : (g.map f).predecessors id = g.predecessors id := by
  rw [predecessors, node?_map, Option.map_map]
  rfl

theorem ids_map : (g.map f).ids = g.ids := by
  rw [ids, size_map, funext (contains_map f g), ids]

theorem hasEdge_map (source target : Nat) :
    (g.map f).hasEdge source target = g.hasEdge source target := by
  rw [hasEdge, successors_map, hasEdge]

theorem map_id : g.map id = g := by
  have node : Option.map (Node.map (id : α → α)) = id := by
    funext slot
    cases slot <;> rfl
  rw [map, node, Array.map_id]

/-! ### Adding nodes and edgeCount_map -/

theorem map_empty : ({} : Graph α).map f = {} := by
  rw [map, Array.map_empty]

theorem map_modifyNode {change : Node α → Node α} {other : Node β → Node β}
    (same : ∀ node, (change node).map f = other (node.map f)) (id : Nat) :
    (g.modifyNode id change).map f = (g.map f).modifyNode id other := by
  have nodes : (g.nodes.modify id (Option.map change)).map (Option.map (Node.map f)) =
      (g.nodes.map (Option.map (Node.map f))).modify id (Option.map other) := by
    refine Array.ext_getElem? fun slot => ?_
    rw [Array.getElem?_map, Array.getElem?_modify, Array.getElem?_modify, Array.getElem?_map]
    split
    · rw [Option.map_map, Option.map_map]
      refine Option.map_congr fun node _ => ?_
      cases node with
      | none => rfl
      | some node => exact congrArg some (same node)
    · rfl
  rw [modifyNode, map, nodes]
  rfl

theorem map_modify {change : α → α} {other : β → β}
    (same : ∀ data, f (change data) = other (f data)) (id : Nat) :
    (g.modify id change).map f = (g.map f).modify id other := by
  refine map_modifyNode f g (fun node => ?_) id
  rw [Node.map, same]
  rfl

theorem map_connect (source target : Nat) :
    (g.connect source target).map f = (g.map f).connect source target := by
  have outgoing : (g.modifyNode source fun node =>
        { node with outgoing := insertAscending target node.outgoing }).map f =
      (g.map f).modifyNode source fun node =>
        { node with outgoing := insertAscending target node.outgoing } :=
    map_modifyNode f g (fun _ => rfl) source
  rw [connect, connect, contains_map, contains_map]
  split
  · rw [← outgoing]
    exact map_modifyNode f _ (fun _ => rfl) target
  · rfl

theorem map_add (data : α) : (g.add data).2.map f = ((g.map f).add (f data)).2 := by
  rw [add, add]
  cases free : g.free with
  | nil =>
    have same : (g.map f).free = [] := free
    rw [same, map, map, Array.map_push]
    rfl
  | cons slot rest =>
    have same : (g.map f).free = slot :: rest := free
    rw [same, map]
    dsimp only
    rw [Array.map_setIfInBounds]
    rfl

theorem map_foldl_add (payloads : List α) :
    (payloads.foldl (fun graph data => (graph.add data).2) g).map f =
      (payloads.map f).foldl (fun graph data => (graph.add data).2) (g.map f) := by
  induction payloads generalizing g with
  | nil => rfl
  | cons data rest inductionHypothesis =>
    rw [List.foldl_cons, inductionHypothesis, map_add, List.map_cons, List.foldl_cons]

/-! ### Components -/

theorem step?_map (s : Descent) : s.step? (g.map f) = s.step? g := by
  simp only [Descent.step?, Descent.look?, Descent.leave?, Descent.enter, Marks.close,
    successors_map, hasEdge_map]

theorem run_map (steps : Nat) (s : Descent) : s.run (g.map f) steps = s.run g steps := by
  induction steps generalizing s with
  | zero => rfl
  | succ steps inductionHypothesis =>
    rw [Descent.run, step?_map, Descent.run]
    exact Option.bind_congr fun next _ => inductionHypothesis next

theorem edgeCount_map : (g.map f).edgeCount = g.edgeCount := by
  rw [edgeCount, ids_map, funext (successors_map f g), edgeCount]

theorem components_map : (g.map f).components = g.components := by
  have start : Descent.start (g.map f) = Descent.start g := by
    rw [Descent.start, Descent.start, size_map, ids_map]
  have size : (g.map f).size = g.size := by rw [Graph.size, ids_map, Graph.size]
  rw [components, components?, start, edgeCount_map, size, run_map, components, components?]

end Graph

end ThreeAddress
