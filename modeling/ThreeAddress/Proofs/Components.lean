/-
The components of a graph are correct. Every step of the search keeps the stack cut
into layers and what was taken off it a list of whole components. The number of
steps is known beforehand: every node is looked at as a root and left once, and
every edge is looked at once. A search that has taken them all has nothing on its
stack, so every node lies in a component that was completed.
-/
import ThreeAddress.Proofs.Layers

namespace ThreeAddress.Graph

open Relation

variable {α : Type} {g : Graph α}

/-! ### One step -/

namespace Descent

open Marks

/-- What holds all through a search. -/
structure Searching (g : Graph α) (s : Descent) : Prop where
  tables : Tables g s.toMarks
  layers : Layers g s.toMarks s.work s.stack
  settled : Settled g s.toMarks
  roots : ∀ id ∈ s.roots, g.contains id
  covered : ∀ id, g.contains id → id ∈ s.roots ∨ s.Visited id

namespace Searching

variable {s : Descent} {id root next : Nat} {pending roots : List Nat}
  {work : List (Nat × List Nat)}

theorem covered_tail (now : Searching g s) (left : s.roots = root :: roots) {node : Nat}
    (live : g.contains node) : node ∈ roots ∨ node = root ∨ s.Visited node := by
  rcases now.covered node live with waits | visited
  · rw [left] at waits
    exact (List.mem_cons.mp waits).symm.imp_right Or.inl
  · exact Or.inr (Or.inr visited)

/-- A root that was visited before is dropped. -/
theorem skip (now : Searching g s) (left : s.roots = root :: roots) (visited : s.Visited root) :
    Searching g { s with roots } where
  tables := now.tables
  layers := now.layers
  settled := now.settled
  roots _ member := now.roots _ (left ▸ List.mem_cons_of_mem _ member)
  covered _ live := (now.covered_tail left live).imp_right fun either =>
    either.elim (fun same => same ▸ visited) fun old => old

/-- A root that was not visited is entered. -/
theorem enter_root (now : Searching g s) (home : s.work = []) (left : s.roots = root :: roots)
    (fresh : ¬ s.Visited root) : Searching g ({ s with roots }.enter g root) := by
  have live := now.roots root (left ▸ List.mem_cons_self)
  have inside : root < s.index.size := now.tables.indexSize ▸ lt_size_of_contains live
  have bare := now.layers
  rw [home] at bare
  refine ⟨now.tables.visit live fresh, ?_, now.settled.congr (done_visit inside fresh) rfl,
    fun id member => now.roots id (left ▸ List.mem_cons_of_mem _ member), fun id idLive => ?_⟩
  · show Layers g (s.visit root) ((root, g.successors root) :: s.work) ([] ++ root :: s.stack)
    rw [home]
    refine .cons (layer_visit now.tables live) (fun parent none => by cases none) ?_
    exact bare.keep (keeps_visit inside fresh) now.tables.visited fun _ none => by cases none
  · exact (now.covered_tail left idLive).imp_right (visited_visit inside id).mpr

/-- The layer of the node worked on last, with all that the stack says about it. -/
theorem exists_top (now : Searching g s) (top : s.work = (id, pending) :: work) :
    ∃ above below, s.stack = above ++ id :: below ∧ Layer g s.toMarks id pending above below ∧
      (∀ parent ∈ work.head?, id ∈ g.successors parent.1) ∧ Layers g s.toMarks work below ∧
      (id :: below).Pairwise (fun upper lower => s.rank lower < s.rank upper) ∧
      ∀ node ∈ above, s.rank id < s.rank node := by
  have layers := now.layers
  rw [top] at layers
  obtain ⟨above, below, stack, layer, child, rest⟩ := layers.exists_layer
  have descending := now.tables.descending
  rw [stack] at descending
  obtain ⟨-, deeper, apart⟩ := List.pairwise_append.mp descending
  exact ⟨above, below, stack, layer, child, rest, deeper, fun node member =>
    apart node member id List.mem_cons_self⟩

/-- A successor that was not visited is entered. -/
theorem enter_successor (consistent : g.Consistent) (now : Searching g s)
    (top : s.work = (id, next :: pending) :: work) (fresh : ¬ s.Visited next) :
    Searching g ({ s with work := (id, pending) :: work }.enter g next) := by
  obtain ⟨above, below, stack, layer, child, rest, deeper, -⟩ := now.exists_top top
  have edge := layer.edges next List.mem_cons_self
  have live := consistent.target_contained edge
  have slot := lt_size_of_contains live
  have inside : next < s.index.size := now.tables.indexSize ▸ slot
  have keeps := keeps_visit inside fresh
  have visited : ∀ node ∈ id :: below, s.Visited node := fun node member =>
    now.tables.visited node (stack ▸ List.mem_append_right _ member)
  have lows : ∀ node ∈ id :: below, (s.visit next).low node = s.low node := fun node member => by
    have different : node ≠ next := fun same => fresh (same ▸ visited node member)
    rw [low_visit (now.tables.lowlinkSize ▸ slot), if_neg different]
  have looked : Layer g (s.visit next) id pending above below := by
    refine (layer.keep keeps visited (lows id List.mem_cons_self)).drop
      ((visited_visit inside next).mpr (Or.inl rfl)) fun _ => ?_
    rw [lows id List.mem_cons_self, rank_visit inside, if_pos rfl]
    exact (layer.low_le deeper).trans (now.tables.below id (visited id List.mem_cons_self)).le
  refine ⟨now.tables.visit live fresh, ?_, now.settled.congr (done_visit inside fresh) rfl,
    now.roots, fun node nodeLive => ?_⟩
  · have new := layer_visit now.tables live
    rw [stack] at new
    show Layers g (s.visit next) ((next, g.successors next) :: (id, pending) :: work)
      ([] ++ next :: s.stack)
    rw [stack]
    refine .cons new (fun parent head => ?_) (.cons looked child (rest.keep keeps ?_ ?_))
    · obtain rfl := Option.some.inj head
      exact edge
    · exact fun node member => visited node (List.mem_cons_of_mem _ member)
    · exact fun entry member => lows _ (List.mem_cons_of_mem _ (rest.mem_stack entry member))
  · exact (now.covered node nodeLive).imp_right fun old =>
      (visited_visit inside node).mpr (Or.inr old)

/-- A successor whose component is complete changes nothing. -/
theorem pass (now : Searching g s) (top : s.work = (id, next :: pending) :: work)
    (done : s.Done next) : Searching g { s with work := (id, pending) :: work } := by
  obtain ⟨above, below, stack, layer, child, rest, -, -⟩ := now.exists_top top
  refine ⟨now.tables, ?_, now.settled, now.roots, now.covered⟩
  show Layers g s.toMarks ((id, pending) :: work) s.stack
  rw [stack]
  exact .cons (layer.drop done.1 fun stacked => absurd stacked done.2) child rest

/-- A successor on the stack may lower the lowlink. -/
theorem lower_top (now : Searching g s) (top : s.work = (id, next :: pending) :: work)
    (stacked : next ∈ s.stack) :
    Searching g
      { s with toMarks := s.lower id (s.rank next), work := (id, pending) :: work } := by
  obtain ⟨above, below, stack, layer, child, rest, deeper, higher⟩ := now.exists_top top
  have visited : ∀ node ∈ id :: below, s.Visited node := fun node member =>
    now.tables.visited node (stack ▸ List.mem_append_right _ member)
  have inside : id < s.lowlink.size := by
    rw [now.tables.lowlinkSize]
    exact lt_size_of_contains (now.tables.live id (visited id List.mem_cons_self))
  have keeps := keeps_lower s.toMarks id (s.rank next)
  have own : (s.lower id (s.rank next)).low id = min (s.low id) (s.rank next) := by
    rw [low_lower inside, if_pos rfl]
  have lowest : ∃ node ∈ id :: below, s.rank node = min (s.low id) (s.rank next) ∧
      g.Reaches id node := by
    by_cases least : s.low id ≤ s.rank next
    · rw [Nat.min_eq_left least]
      exact layer.lowest
    · have bound := layer.low_le deeper
      rw [stack] at stacked
      have under := (List.mem_append.mp stacked).resolve_left fun upper => by
        have := higher next upper
        omega
      rw [Nat.min_eq_right (by omega)]
      exact ⟨next, under, rfl, Reaches.edge (layer.edges next List.mem_cons_self)⟩
  refine ⟨now.tables.lower id _, ?_, now.settled.congr (fun _ => Iff.rfl) rfl, now.roots,
    now.covered⟩
  show Layers g (s.lower id (s.rank next)) ((id, pending) :: work) s.stack
  rw [stack]
  refine .cons ((layer.turn keeps (own ▸ lowest) (own ▸ Nat.min_le_left _ _)).drop
    (now.tables.visited next stacked) fun _ => own ▸ Nat.min_le_right _ _) child
    (rest.keep keeps (fun node member => visited node (List.mem_cons_of_mem _ member)) ?_)
  intro entry member
  have different : entry.1 ≠ id := fun same => by
    have less := List.rel_of_pairwise_cons deeper (rest.mem_stack entry member)
    rw [same] at less
    exact Nat.lt_irrefl _ less
  rw [low_lower inside, if_neg different]

/-- A node whose lowlink is its number takes its layer off the stack. -/
theorem close_top (now : Searching g s) (top : s.work = (id, []) :: work)
    (own : s.low id = s.rank id) : Searching g { s with toMarks := s.close g id, work } := by
  obtain ⟨above, below, stack, layer, child, rest, -, -⟩ := now.exists_top top
  have popped := stack_close now.tables stack
  refine ⟨now.tables.close stack, ?_, ?_, now.roots, now.covered⟩
  · show Layers g (s.close g id) work (popTo id s.stack).2
    rw [popped]
    refine rest.keep (keeps_close now.tables stack) (fun node member => ?_) fun _ _ => rfl
    exact now.tables.visited node (stack ▸ List.mem_append_right _ (List.mem_cons_of_mem _ member))
  · refine now.settled.add (layer.complete now.tables stack own)
      (List.mem_append_right _ List.mem_cons_self) (done_close now.tables stack) ?_
    show (s.close g id).found = _
    rw [Marks.close, popped]

/-- The lowlink of the node below is no reason to change it when a layer is taken off. -/
theorem low_parent_le {parent : Nat} {later : List Nat} (now : Searching g s)
    (top : s.work = (id, []) :: (parent, later) :: work) (own : s.low id = s.rank id) :
    s.low parent ≤ s.low id := by
  obtain ⟨above, below, stack, layer, child, rest, deeper, -⟩ := now.exists_top top
  obtain ⟨above', below', stack', layer', -, -⟩ := rest.exists_layer
  have order := (List.pairwise_cons.mp deeper).2
  rw [stack'] at order
  have bound := layer'.low_le (List.pairwise_append.mp order).2.1
  have less := List.rel_of_pairwise_cons deeper
    (stack' ▸ List.mem_append_right _ List.mem_cons_self : parent ∈ below)
  rw [own]
  exact bound.trans less.le

/-- A node whose lowlink lies below its number joins its layer to the one below. -/
theorem join {parent : Nat} {later : List Nat} (now : Searching g s)
    (top : s.work = (id, []) :: (parent, later) :: work) (under : s.low id ≠ s.rank id) :
    Searching g
      { s with toMarks := s.lower parent (s.low id), work := (parent, later) :: work } := by
  obtain ⟨above, below, stack, layer, child, rest, deeper, -⟩ := now.exists_top top
  -- the node with the lowlink leads to the node below
  obtain ⟨lowest, member, rank, way⟩ := layer.lowest
  have lowestBelow : lowest ∈ below :=
    (List.mem_cons.mp member).resolve_left fun same => under (same ▸ rank.symm)
  have back : g.Reaches id parent := way.trans (rest.reaches_top _ rfl lowest lowestBelow)
  have edge : id ∈ g.successors parent := child _ rfl
  obtain ⟨between, deep, split, parentLayer, parentChild, further⟩ := rest.exists_layer
  subst split
  have order := List.pairwise_append.mp (List.pairwise_cons.mp deeper).2
  have visited : ∀ node ∈ between ++ parent :: deep, s.Visited node := fun node inBelow =>
    now.tables.visited node (stack ▸ List.mem_append_right _ (List.mem_cons_of_mem _ inBelow))
  have parentMember : parent ∈ between ++ parent :: deep :=
    List.mem_append_right _ List.mem_cons_self
  have inside : parent < s.lowlink.size := by
    rw [now.tables.lowlinkSize]
    exact lt_size_of_contains (now.tables.live parent (visited parent parentMember))
  have low : (s.lower parent (s.low id)).low parent = min (s.low parent) (s.low id) := by
    rw [low_lower inside, if_pos rfl]
  have keeps := keeps_lower s.toMarks parent (s.low id)
  have joined : Layer g (s.lower parent (s.low id)) parent later (above ++ id :: between) deep := by
    refine layer.join parentLayer edge back keeps low ?_
    rw [low]
    by_cases least : s.low parent ≤ s.low id
    · rw [Nat.min_eq_left least]
      exact parentLayer.lowest
    · -- the node with the lowlink of the upper layer lies below the lower one
      have bound := parentLayer.low_le order.2.1
      have deepest := (List.mem_append.mp lowestBelow).resolve_left fun upper => by
        have := order.2.2 lowest upper parent List.mem_cons_self
        omega
      rw [Nat.min_eq_right (by omega)]
      exact ⟨lowest, deepest, rank, (Reaches.edge edge).trans way⟩
  refine ⟨now.tables.lower parent _, ?_, now.settled.congr (fun _ => Iff.rfl) rfl, now.roots,
    now.covered⟩
  have grouped : s.stack = (above ++ id :: between) ++ parent :: deep := by rw [stack]; simp
  show Layers g (s.lower parent (s.low id)) ((parent, later) :: work) s.stack
  rw [grouped]
  refine .cons joined parentChild (further.keep keeps (fun node inDeep => visited node ?_) ?_)
  · exact List.mem_append_right _ (List.mem_cons_of_mem _ inDeep)
  · intro entry inWork
    have different : entry.1 ≠ parent := fun same => by
      have less := List.rel_of_pairwise_cons order.2.1 (further.mem_stack entry inWork)
      rw [same] at less
      exact Nat.lt_irrefl _ less
    rw [low_lower inside, if_neg different]

end Searching

/-! ### All steps -/

/-- The nodes visited. -/
def seen (s : Descent) : Finset Nat :=
  (Finset.range s.index.size).filter fun id => (s.number? id).isSome

theorem mem_seen {s : Descent} {id : Nat} : id ∈ s.seen ↔ s.Visited id := by
  rw [seen, Finset.mem_filter, Finset.mem_range]
  refine and_iff_right_of_imp fun visited => ?_
  exact (Array.getElem?_eq_some_iff.mp (index_of_visited visited)).1

/-- How many steps a search has still to take. -/
def remaining (g : Graph α) (s : Descent) : Nat :=
  s.roots.length + (s.work.map fun entry => entry.2.length + 1).sum + g.ahead s.seen

theorem seen_enter {s : Descent} {id : Nat} (inside : id < s.index.size) :
    (s.enter g id).seen = insert id s.seen := by
  ext node
  rw [mem_seen, Finset.mem_insert, mem_seen]
  exact visited_visit inside node

/-- Entering a node takes its share of what is ahead, and puts it on the work. -/
theorem remaining_enter {s : Descent} {id : Nat} (live : g.contains id)
    (inside : id < s.index.size) (fresh : ¬ s.Visited id) :
    remaining g (s.enter g id) = remaining g s := by
  have share := ahead_insert live (mem_seen.not.mpr fresh)
  rw [remaining, seen_enter inside, remaining]
  show s.roots.length + (((id, g.successors id) :: s.work).map _).sum + _ = _
  rw [List.map_cons, List.sum_cons]
  dsimp only
  omega

namespace Searching

variable {s : Descent} {id next root : Nat} {pending roots : List Nat}
  {work : List (Nat × List Nat)}

/-- Every node has a place in the table of numbers. -/
theorem exists_index (now : Searching g s) (live : g.contains id) :
    ∃ number, s.index[id]? = some number :=
  ⟨_, Array.getElem?_eq_getElem (now.tables.indexSize ▸ lt_size_of_contains live)⟩

theorem step_root (now : Searching g s) (home : s.work = []) (left : s.roots = root :: roots) :
    ∃ t, s.step? g = some t ∧ Searching g t ∧ remaining g t + 1 = remaining g s := by
  have live := now.roots root (left ▸ List.mem_cons_self)
  have fewer : remaining g { s with roots } + 1 = remaining g s := by
    rw [remaining, remaining, left, List.length_cons]
    show roots.length + (s.work.map _).sum + g.ahead s.seen + 1 = _
    omega
  obtain ⟨number, read⟩ := now.exists_index live
  cases number with
  | some number =>
    refine ⟨{ s with roots }, ?_, now.skip left (visited_of_index read).1, fewer⟩
    simp only [step?, home, left, read]
    rfl
  | none =>
    have fresh := not_visited_of_index read
    refine ⟨{ s with roots }.enter g root, ?_, now.enter_root home left fresh, ?_⟩
    · simp only [step?, home, left, read]
      rfl
    · have same : remaining g ({ s with roots }.enter g root) = remaining g { s with roots } :=
        remaining_enter live (now.tables.indexSize ▸ lt_size_of_contains live) fresh
      rw [same, fewer]

theorem step_look (consistent : g.Consistent) (now : Searching g s)
    (top : s.work = (id, next :: pending) :: work) :
    ∃ t, s.step? g = some t ∧ Searching g t ∧ remaining g t + 1 = remaining g s := by
  obtain ⟨above, below, -, layer, -⟩ := now.exists_top top
  have live := consistent.target_contained (layer.edges next List.mem_cons_self)
  have fewer : remaining g { s with work := (id, pending) :: work } + 1 = remaining g s := by
    rw [remaining, remaining, top]
    show _ + (((id, pending) :: work).map _).sum + g.ahead s.seen + 1 = _
    simp only [List.map_cons, List.sum_cons, List.length_cons]
    omega
  have stepped : s.step? g = look? g { s with work := (id, pending) :: work } id next := by
    rw [step?, top]
  obtain ⟨number, read⟩ := now.exists_index live
  cases number with
  | none =>
    have fresh := not_visited_of_index read
    refine ⟨{ s with work := (id, pending) :: work }.enter g next, ?_,
      now.enter_successor consistent top fresh, ?_⟩
    · rw [stepped, look?, read]
      rfl
    · have same : remaining g ({ s with work := (id, pending) :: work }.enter g next) =
          remaining g { s with work := (id, pending) :: work } :=
        remaining_enter live (now.tables.indexSize ▸ lt_size_of_contains live) fresh
      rw [same, fewer]
  | some number =>
    obtain ⟨visited, rfl⟩ := visited_of_index read
    have mark : s.onStack[next]? = some (decide (next ∈ s.stack)) := by
      have slot : next < s.onStack.size := now.tables.onStackSize ▸ lt_size_of_contains live
      rw [Array.getElem?_eq_getElem slot, Option.some_inj, Bool.eq_iff_iff, decide_eq_true_iff,
        ← now.tables.marked, Array.getElem?_eq_getElem slot, Option.some_inj]
    by_cases stacked : next ∈ s.stack
    · refine ⟨_, ?_, now.lower_top top stacked, fewer⟩
      rw [stepped, look?, read]
      simp [mark, stacked]
    · refine ⟨_, ?_, now.pass top ⟨visited, stacked⟩, fewer⟩
      rw [stepped, look?, read]
      simp [mark, stacked]

theorem step_leave (now : Searching g s) (top : s.work = (id, []) :: work) :
    ∃ t, s.step? g = some t ∧ Searching g t ∧ remaining g t + 1 = remaining g s := by
  obtain ⟨above, below, stack, layer, child, rest, deeper, -⟩ := now.exists_top top
  have visited : s.Visited id :=
    now.tables.visited id (stack ▸ List.mem_append_right _ List.mem_cons_self)
  have slot := lt_size_of_contains (now.tables.live id visited)
  have low : s.lowlink[id]? = some (s.low id) := by
    rw [Marks.low, Array.getElem?_eq_getElem (now.tables.lowlinkSize ▸ slot)]
    rfl
  have fewer : s.roots.length + (work.map fun entry => entry.2.length + 1).sum +
      g.ahead s.seen + 1 = remaining g s := by
    rw [remaining, top]
    simp only [List.map_cons, List.sum_cons, List.length_nil]
    omega
  have stepped : s.step? g = if s.rank id = s.low id
      then some { ({ s with work }.hand (s.low id)) with
        toMarks := ({ s with work }.hand (s.low id)).close g id }
      else some ({ s with work }.hand (s.low id)) := by
    rw [step?, top]
    simp [leave?, low, index_of_visited visited]
  by_cases own : s.low id = s.rank id
  · have kept : { s with work }.hand (s.low id) = { s with work } := by
      rw [hand]
      rcases work with _ | ⟨⟨parent, later⟩, work⟩
      · rfl
      · show ({ s with toMarks := s.lower parent (s.low id), work := _ } : Descent) = _
        rw [lower_of_le (now.low_parent_le top own)]
    rw [if_pos own.symm, kept] at stepped
    exact ⟨_, stepped, now.close_top top own, fewer⟩
  · rw [if_neg (Ne.symm own)] at stepped
    cases work with
    | nil =>
      -- the lowest node of the stack has nothing below it to lead to
      cases rest
      obtain ⟨lowest, member, rank, -⟩ := layer.lowest
      exact absurd (List.mem_singleton.mp member ▸ rank).symm own
    | cons entry work => exact ⟨_, stepped, now.join top own, fewer⟩

/-- A search that is not finished has a next state, and one step less before it. -/
theorem exists_step (consistent : g.Consistent) (now : Searching g s)
    (going : s.finished = false) :
    ∃ t, s.step? g = some t ∧ Searching g t ∧ remaining g t + 1 = remaining g s := by
  rcases home : s.work with _ | ⟨⟨id, _ | ⟨next, pending⟩⟩, work⟩
  · rcases left : s.roots with _ | ⟨root, roots⟩
    · rw [finished, home, left] at going
      exact absurd going (by decide)
    · exact now.step_root home left
  · exact now.step_leave home
  · exact now.step_look consistent home

/-- Nothing is left to do exactly if no step is left. -/
theorem finished_iff (now : Searching g s) : s.finished ↔ remaining g s = 0 := by
  rw [finished, Bool.and_eq_true, List.isEmpty_iff, List.isEmpty_iff, remaining]
  constructor
  · rintro ⟨home, left⟩
    have covered : ∀ id, g.contains id → id ∈ s.seen := fun id live => by
      have either := now.covered id live
      rw [left] at either
      exact mem_seen.mpr (either.resolve_left List.not_mem_nil)
    rw [home, left, ahead_of_covered covered]
    rfl
  · intro spent
    refine ⟨?_, List.length_eq_zero_iff.mp (by omega)⟩
    rcases home : s.work with _ | ⟨entry, work⟩
    · rfl
    · rw [home, List.map_cons, List.sum_cons] at spent
      omega

/-- As many steps as are left finish the search. -/
theorem exists_run (consistent : g.Consistent) (now : Searching g s) :
    ∃ t, s.run g (remaining g s) = some t ∧ t.finished ∧ Searching g t := by
  induction left : remaining g s generalizing s with
  | zero => exact ⟨s, rfl, now.finished_iff.mpr left, now⟩
  | succ steps inductionHypothesis =>
    have going : s.finished = false := by
      rw [← Bool.not_eq_true, now.finished_iff, left]
      exact Nat.succ_ne_zero steps
    obtain ⟨next, stepped, still, less⟩ := now.exists_step consistent going
    obtain ⟨last, run, finished, searched⟩ := inductionHypothesis still (by omega)
    exact ⟨last, by rw [Descent.run, stepped]; exact run, finished, searched⟩

end Searching

theorem searching_start (g : Graph α) : Searching g (start g) := by
  have nothing : ∀ id, ¬ (start g).Visited id := fun id visited => by
    have read := index_of_visited visited
    rw [start, Array.getElem?_replicate] at read
    split at read <;> simp at read
  refine ⟨⟨Array.size_replicate, Array.size_replicate, Array.size_replicate,
    fun id visited => absurd visited (nothing id), fun id visited => absurd visited (nothing id),
    fun id => iff_of_false ?_ List.not_mem_nil, fun id member => absurd member List.not_mem_nil,
    List.Pairwise.nil⟩, .nil, ?_, fun id member => mem_ids.mp member,
    fun id live => Or.inl (mem_ids.mpr live)⟩
  · rw [start, Array.getElem?_replicate]
    split <;> simp
  · have done : ∀ id, ¬ (start g).Done id := fun id done => nothing id done.1
    refine ⟨fun id finished => absurd finished (done id), ?_, ?_, ?_, ?_, ?_,
      fun id finished => absurd finished (done id), List.Pairwise.nil⟩
    all_goals exact fun _ member => absurd member List.not_mem_nil

theorem remaining_start (g : Graph α) :
    remaining g (start g) = 2 * g.size + g.edgeCount := by
  have unseen : (start g).seen = ∅ := by
    refine Finset.eq_empty_of_forall_notMem fun id member => ?_
    have read := index_of_visited (mem_seen.mp member)
    rw [start, Array.getElem?_replicate] at read
    split at read <;> simp at read
  rw [remaining, unseen, ahead_empty]
  show g.size + 0 + _ = _
  omega

end Descent

/-! ### The listing of the components -/

/-- What the list of the components of a graph has to be. Components without a cycle are not
listed, and a component comes behind those that it leads to. -/
structure ComponentListing (g : Graph α) (components : List (List Nat)) : Prop where
  nonempty : ∀ component ∈ components, component ≠ []
  ascending : ∀ component ∈ components, component.Pairwise (· < ·)
  live : ∀ component ∈ components, ∀ id ∈ component, g.contains id
  disjoint : components.Pairwise List.Disjoint
  together : ∀ id other, g.contains id → g.contains other → id ≠ other →
    ((∃ component ∈ components, id ∈ component ∧ other ∈ component) ↔
      g.Reaches id other ∧ g.Reaches other id)
  cyclic : ∀ id, (∃ component ∈ components, id ∈ component) ↔ g.OnCycle id
  ordered : ∀ (i j : Nat) (first second : List Nat), components[i]? = some first →
    components[j]? = some second → i ≠ j →
      ∀ id ∈ first, ∀ other ∈ second, g.Reaches id other → j < i

/-- When a search is finished, all nodes are done. -/
theorem componentListing_of_finished (consistent : g.Consistent) {s : Descent}
    (now : Descent.Searching g s) (finished : s.finished) : ComponentListing g s.found := by
  rw [Descent.finished, Bool.and_eq_true, List.isEmpty_iff, List.isEmpty_iff] at finished
  have stack : s.stack = [] := by
    have layers := now.layers
    rw [finished.1] at layers
    generalize s.stack = stack at layers
    cases layers
    rfl
  have done : ∀ id, g.contains id → s.Done id := fun id live => by
    refine ⟨(now.covered id live).resolve_left ?_, ?_⟩
    · rw [finished.2]
      exact List.not_mem_nil
    · rw [stack]
      exact List.not_mem_nil
  have settled := now.settled
  refine ⟨settled.nonempty, settled.ascending, fun component member id idMember => ?_, ?_,
    fun id other idLive otherLive different => ?_, fun id => ?_,
    fun i j first second atI atJ different id member other otherMember way => ?_⟩
  · exact now.tables.live id (settled.done component member id idMember).1
  · exact settled.ordered.imp fun apart id member otherMember =>
      apart id member id otherMember (Reaches.refl id)
  · constructor
    · rintro ⟨component, member, idMember, otherMember⟩
      exact (settled.strong component member id idMember other).mp otherMember
    · rintro ⟨forth, back⟩
      obtain ⟨component, member, idMember⟩ :=
        settled.listed id (done id idLive) (onCycle_of_mutual different forth back)
      exact ⟨component, member, idMember,
        (settled.strong component member id idMember other).mpr ⟨forth, back⟩⟩
  · constructor
    · rintro ⟨component, member, idMember⟩
      exact settled.cyclic component member id idMember
    · intro cycle
      exact settled.listed id (done id (cycle.contains consistent)) cycle
  · by_contra notBefore
    obtain ⟨iBound, rfl⟩ := List.getElem?_eq_some_iff.mp atI
    obtain ⟨jBound, rfl⟩ := List.getElem?_eq_some_iff.mp atJ
    exact List.pairwise_iff_getElem.mp settled.ordered i j iBound jBound (by omega) id member other
      otherMember way

/-- The search for components ends within its tables, and what it lists are the components. -/
theorem components?_eq (consistent : g.Consistent) :
    g.components? = some g.components ∧ ComponentListing g g.components := by
  obtain ⟨last, run, finished, searched⟩ :=
    (Descent.searching_start g).exists_run consistent
  have found : g.components? = some last.found := by
    rw [Descent.remaining_start] at run
    rw [components?, run, Option.bind_some, if_pos finished]
  have same : g.components = last.found := by rw [components, found, Option.getD_some]
  rw [same]
  exact ⟨found, componentListing_of_finished consistent searched finished⟩

/-- In every graph that can be built, the search for components ends within its tables after one
step for every root, edge and node; the components are found each once and whole, and each behind
those that it leads to. -/
theorem components_listing (changes : List (Change α)) :
    (build changes).components? = some (build changes).components ∧
      ComponentListing (build changes) (build changes).components :=
  components?_eq (consistent_build changes)

end ThreeAddress.Graph
