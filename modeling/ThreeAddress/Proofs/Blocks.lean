/-
What holds of every control-flow graph that is built from a program. Its edges
are listed at both ends, because it is made by the operations of graphs alone.
Its blocks keep the places they are given at first, side by side, so a position
of the program is in one block only, and block zero is there if any block is.
-/
import ThreeAddress.Proofs.Cutting

namespace ThreeAddress

/-! ### Places -/

/-- The place of a block: its ends and its size. -/
def Block.place (b : Block) : Nat × Nat × Nat :=
  (b.first, b.last, b.size)

theorem first_le_of_mem_placeBlocks {start : Nat} {blocks : List (List Instruction)} {b : Block}
    (member : b ∈ placeBlocks start blocks) : start ≤ b.first := by
  induction blocks generalizing start with
  | nil => exact absurd member (by simp [placeBlocks])
  | cons block rest inductionHypothesis =>
    rcases List.mem_cons.mp member with rfl | later
    · exact Nat.le_refl _
    · have behind := inductionHypothesis later
      omega

/-- Each block ends before the next ones start. -/
theorem pairwise_placeBlocks (start : Nat) (blocks : List (List Instruction)) :
    (placeBlocks start blocks).Pairwise fun a b => a.first + a.size ≤ b.first := by
  induction blocks generalizing start with
  | nil => exact List.Pairwise.nil
  | cons block rest inductionHypothesis =>
    refine List.Pairwise.cons (fun b member => ?_) (inductionHypothesis _)
    exact first_le_of_mem_placeBlocks member

/-- Adding payloads to a graph without free slots puts them behind the others. -/
theorem Graph.nodes_foldl_add {α : Type} (payloads : List α) {g : Graph α} (full : g.free = []) :
    (payloads.foldl (fun graph data => (graph.add data).2) g).nodes.toList =
      g.nodes.toList ++ payloads.map fun data => some { data := data } := by
  induction payloads generalizing g with
  | nil => exact (List.append_nil _).symm
  | cons data rest inductionHypothesis =>
    have pushed : (g.add data).2 = { g with nodes := g.nodes.push (some { data := data }) } := by
      rw [Graph.add, full]
    have later := @inductionHypothesis (g.add data).2 (by rw [pushed]; exact full)
    rw [List.foldl_cons, later, pushed, Array.toList_push, List.append_assoc]
    rfl

theorem Graph.Consistent.foldl_add {α : Type} (payloads : List α) {g : Graph α}
    (consistent : g.Consistent) :
    (payloads.foldl (fun graph data => (graph.add data).2) g).Consistent := by
  induction payloads generalizing g with
  | nil => exact consistent
  | cons data rest inductionHypothesis => exact inductionHypothesis (consistent.add data)

theorem Flow.node?_isolated (blocks : List (List Instruction)) (id : Nat) :
    (isolated blocks).node? id = (placeBlocks 0 blocks)[id]?.map fun b => { data := b } := by
  rw [Graph.node?, ← Array.getElem?_toList, isolated, Graph.nodes_foldl_add _ rfl, List.nil_append,
    List.getElem?_map]
  cases (placeBlocks 0 blocks)[id]? <;> rfl

/-! ### What building preserves -/

/-- What holds while the edges are added: the graph is consistent, and its blocks are where they
were placed. -/
structure Laid (places : List Block) (g : Graph Block) : Prop where
  consistent : g.Consistent
  place : ∀ id, (g.get? id).map Block.place = places[id]?.map Block.place

namespace Laid

variable {places : List Block} {g : Graph Block}

theorem connect (laid : Laid places g) (source target : Nat) :
    Laid places (g.connect source target) where
  consistent := laid.consistent.connect source target
  place id := by
    rw [Graph.get?_connect]
    exact laid.place id

theorem modify (laid : Laid places g) (id : Nat) (change : Block → Block)
    (same : ∀ b, (change b).place = b.place) : Laid places (g.modify id change) where
  consistent := laid.consistent.modify id change
  place other := by
    rw [← laid.place other, Graph.get?, Graph.get?, Graph.modify, Graph.node?_modifyNode]
    split
    · rw [Option.map_map, Option.map_map, Option.map_map]
      exact Option.map_congr fun node _ => same node.data
    · rfl

theorem fallThrough (laid : Laid places g) (count id : Nat) :
    Laid places (Flow.fallThrough count id g) := by
  unfold Flow.fallThrough
  split
  · exact laid.connect id (id + 1)
  · exact laid

theorem connectBlock (laid : Laid places g) (count id : Nat) (i : Instruction)
    (target : Option Nat) : Laid places (Flow.connectBlock count id i target g) := by
  unfold Flow.connectBlock
  split
  · next target _ =>
    dsimp only
    split
    · refine Laid.fallThrough (Laid.modify (laid.connect id target) target _ ?_) count id
      exact fun _ => rfl
    · exact laid.connect id target
  · next target _ =>
    dsimp only
    split
    · exact (laid.connect id target).fallThrough count id
    · refine Laid.modify ((laid.connect id target).fallThrough count id) id _ ?_
      exact fun _ => rfl
  · split
    · exact laid
    · exact laid.fallThrough count id

theorem connectBlocks (laid : Laid places g) {count id first : Nat} {labels : Table String Nat}
    {blocks : List (List Instruction)} {final : Graph Block}
    (connected : Flow.connectBlocks count labels id first blocks g = .ok final) :
    Laid places final := by
  induction blocks generalizing id first g with
  | nil =>
    obtain rfl := Except.ok.inj connected
    exact laid
  | cons block rest inductionHypothesis =>
    unfold Flow.connectBlocks at connected
    dsimp only at connected
    split at connected
    · exact inductionHypothesis laid connected
    · next i last =>
      cases resolved : Flow.resolve labels (first + block.length - 1) i with
      | error cause =>
        rw [resolved] at connected
        exact absurd connected (by simp [bind, Except.bind])
      | ok target =>
        rw [resolved] at connected
        exact inductionHypothesis (laid.connectBlock count id i target) connected

theorem isolated (blocks : List (List Instruction)) :
    Laid (placeBlocks 0 blocks) (Flow.isolated blocks) where
  consistent := Graph.Consistent.empty.foldl_add _
  place id := by
    rw [Graph.get?, Flow.node?_isolated]
    cases (placeBlocks 0 blocks)[id]? <;> rfl

end Laid

namespace Flow

variable {code : List Instruction} {flow : Flow}

/-- How a graph that was built came about. -/
theorem connected_of_build (built : build code = .ok flow) :
    flow.labels = blockLabels 0 (cutBlocks code) {} ∧
      connectBlocks (cutBlocks code).length flow.labels 0 0 (cutBlocks code)
        (isolated (cutBlocks code)) = .ok flow.graph := by
  rw [build_eq, buildBlocks] at built
  cases connected : connectBlocks (cutBlocks code).length (blockLabels 0 (cutBlocks code) {}) 0 0
      (cutBlocks code) (isolated (cutBlocks code)) with
  | error cause =>
    rw [connected] at built
    cases built
  | ok graph =>
    rw [connected] at built
    obtain rfl := Except.ok.inj built
    exact ⟨rfl, connected⟩

theorem laid_of_build (built : build code = .ok flow) :
    Laid (placeBlocks 0 (cutBlocks code)) flow.graph :=
  (Laid.isolated _).connectBlocks (connected_of_build built).2

/-- Whether a position belongs to a block. -/
def Covers (flow : Flow) (id position : Nat) : Prop :=
  ∃ b, flow.block? id = some b ∧ b.first ≤ position ∧ position < b.first + b.size

/-- A position belongs to one block only. -/
theorem covers_unique (built : build code = .ok flow) {first second position : Nat}
    (inFirst : flow.Covers first position) (inSecond : flow.Covers second position) :
    first = second := by
  have laid := laid_of_build built
  have placed : ∀ {id}, flow.Covers id position →
      ∃ place, (placeBlocks 0 (cutBlocks code))[id]? = some place ∧
        place.first ≤ position ∧ position < place.first + place.size := by
    rintro id ⟨b, found, lower, upper⟩
    have same := laid.place id
    rw [show flow.graph.get? id = some b from found, Option.map_some] at same
    obtain ⟨place, there, equal⟩ := Option.map_eq_some_iff.mp same.symm
    obtain ⟨sameFirst, sameRest⟩ := Prod.mk.inj equal
    obtain ⟨-, sameSize⟩ := Prod.mk.inj sameRest
    exact ⟨place, there, by omega, by omega⟩
  have apart := List.pairwise_iff_getElem.mp (pairwise_placeBlocks 0 (cutBlocks code))
  obtain ⟨a, atFirst, lowerA, upperA⟩ := placed inFirst
  obtain ⟨b, atSecond, lowerB, upperB⟩ := placed inSecond
  obtain ⟨boundA, rfl⟩ := List.getElem?_eq_some_iff.mp atFirst
  obtain ⟨boundB, rfl⟩ := List.getElem?_eq_some_iff.mp atSecond
  rcases Nat.lt_trichotomy first second with less | same | more
  · have gap := apart first second boundA boundB less
    omega
  · exact same
  · have gap := apart second first boundB boundA more
    omega

/-- The first block is block zero. -/
theorem eq_zero_of_head_ids (built : build code = .ok flow) {root : Nat} {rest : List Nat}
    (roots : flow.graph.ids = root :: rest) : root = 0 := by
  have laid := laid_of_build built
  have live : flow.graph.contains root := Graph.mem_ids.mp (by rw [roots]; exact List.mem_cons_self)
  have contained (id : Nat) :
      flow.graph.contains id = (placeBlocks 0 (cutBlocks code))[id]?.isSome := by
    have same := congrArg Option.isSome (laid.place id)
    rwa [Option.isSome_map, Option.isSome_map, Graph.get?, Option.isSome_map] at same
  have first : flow.graph.contains 0 := by
    obtain ⟨place, found⟩ := Option.isSome_iff_exists.mp ((contained root).symm.trans live)
    obtain ⟨bound, -⟩ := List.getElem?_eq_some_iff.mp found
    rw [contained, List.getElem?_eq_getElem (Nat.lt_of_le_of_lt (Nat.zero_le _) bound)]
    rfl
  obtain ⟨others, slots⟩ := Nat.exists_eq_succ_of_ne_zero
    (Nat.ne_of_gt (Graph.lt_size_of_contains first))
  rw [Graph.ids, slots, List.range_succ_eq_map, List.filter_cons_of_pos first] at roots
  exact (List.cons.inj roots).1.symm

end Flow

end ThreeAddress
