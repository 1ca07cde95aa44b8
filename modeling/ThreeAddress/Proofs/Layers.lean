/-
The stack of the search for components. It is cut into layers, one for each node
being worked on: a layer ends with that node and holds, above it, the nodes visited
from it and left since. All nodes of a layer lead to each other, and no edge that
was looked at leads from a layer to a node of the stack with a number below the
lowlink of the layer.

Visiting a node puts a layer of its own on top. Leaving a node whose lowlink lies
below its number joins its layer to the one below, for the node with that lowlink
leads back up to every node being worked on. Leaving a node whose lowlink is its
number takes its layer off: its edges lead to the layer itself or to components
completed before, so the layer is a whole component.
-/
import ThreeAddress.Graph.Components
import ThreeAddress.Proofs.Reachability
import Mathlib.Data.List.Sort

namespace ThreeAddress.Graph

open Relation

variable {α : Type} {g : Graph α}

/-! ### Sorting -/

theorem sorted_eq_insertionSort (numbers : List Nat) :
    sorted numbers = numbers.insertionSort (· ≤ ·) := by
  have insert : ∀ (n : Nat) (list : List Nat),
      insertSorted n list = list.orderedInsert (· ≤ ·) n := by
    intro n list
    induction list with
    | nil => rfl
    | cons head rest inductionHypothesis =>
      rw [insertSorted, List.orderedInsert_cons, inductionHypothesis]
  rw [sorted, List.insertionSort, funext fun n => funext (insert n)]

theorem mem_sorted {id : Nat} {numbers : List Nat} : id ∈ sorted numbers ↔ id ∈ numbers := by
  rw [sorted_eq_insertionSort, List.mem_insertionSort]

theorem pairwise_sorted {numbers : List Nat} (distinct : numbers.Nodup) :
    (sorted numbers).Pairwise (· < ·) := by
  rw [sorted_eq_insertionSort]
  have different := ((List.perm_insertionSort (· ≤ ·) numbers).nodup_iff).mpr distinct
  exact (List.pairwise_insertionSort (· ≤ ·) numbers).imp₂
    (fun _ _ below apart => Nat.lt_of_le_of_ne below apart) different

namespace Marks

variable {m n : Marks} {id : Nat}

/-! ### Numbers and lowlinks -/

/-- The number given to a node. -/
def number? (m : Marks) (id : Nat) : Option Nat :=
  m.index[id]?.join

def Visited (m : Marks) (id : Nat) : Prop :=
  (m.number? id).isSome

/-- The number of a visited node. -/
def rank (m : Marks) (id : Nat) : Nat :=
  (m.number? id).getD 0

def low (m : Marks) (id : Nat) : Nat :=
  m.lowlink[id]?.getD 0

/-- A node is done once its component was taken off the stack. -/
def Done (m : Marks) (id : Nat) : Prop :=
  m.Visited id ∧ id ∉ m.stack

theorem number?_visit (inside : id < m.index.size) (other : Nat) :
    (m.visit id).number? other = if other = id then some m.nextIndex else m.number? other := by
  rw [number?, visit, Array.getElem?_setIfInBounds]
  by_cases same : id = other
  · rw [if_pos same, if_pos (same ▸ inside), if_pos same.symm]
    rfl
  · rw [if_neg same, if_neg (Ne.symm same), number?]

theorem visited_visit (inside : id < m.index.size) (other : Nat) :
    (m.visit id).Visited other ↔ other = id ∨ m.Visited other := by
  rw [Visited, number?_visit inside]
  by_cases same : other = id <;> simp [same, Visited]

theorem rank_visit (inside : id < m.index.size) (other : Nat) :
    (m.visit id).rank other = if other = id then m.nextIndex else m.rank other := by
  rw [rank, number?_visit inside, rank]
  split <;> rfl

theorem low_visit (inside : id < m.lowlink.size) (other : Nat) :
    (m.visit id).low other = if other = id then m.nextIndex else m.low other := by
  rw [low, visit, Array.getElem?_setIfInBounds]
  by_cases same : id = other
  · rw [if_pos same, if_pos (same ▸ inside), if_pos same.symm]
    rfl
  · rw [if_neg same, if_neg (Ne.symm same), low]

theorem low_lower (inside : id < m.lowlink.size) (number other : Nat) :
    (m.lower id number).low other = if other = id then min (m.low id) number else m.low other := by
  rw [low, lower, Array.getElem?_modify]
  by_cases same : id = other
  · subst same
    rw [if_pos rfl, if_pos rfl, low, Array.getElem?_eq_getElem inside]
    rfl
  · rw [if_neg same, if_neg (Ne.symm same), low]

/-- What a reading of the table of numbers says about a node. -/
theorem visited_of_index {number : Nat} (read : m.index[id]? = some (some number)) :
    m.Visited id ∧ m.rank id = number := by
  rw [Visited, rank, number?, read]
  exact ⟨rfl, rfl⟩

theorem not_visited_of_index (read : m.index[id]? = some none) : ¬ m.Visited id := by
  rw [Visited, number?, read]
  exact Bool.false_ne_true

theorem index_of_visited (visited : m.Visited id) : m.index[id]? = some (some (m.rank id)) := by
  rw [Visited, number?] at visited
  rw [rank, number?]
  rcases read : m.index[id]? with _ | _ | number
  · rw [read] at visited
    exact absurd visited Bool.false_ne_true
  · rw [read] at visited
    exact absurd visited Bool.false_ne_true
  · rfl

/-! ### The tables and the stack -/

/-- What the tables and the stack of a search have to do with each other. -/
structure Tables (g : Graph α) (m : Marks) : Prop where
  indexSize : m.index.size = g.nodes.size
  lowlinkSize : m.lowlink.size = g.nodes.size
  onStackSize : m.onStack.size = g.nodes.size
  live : ∀ id, m.Visited id → g.contains id
  below : ∀ id, m.Visited id → m.rank id < m.nextIndex
  marked : ∀ id, m.onStack[id]? = some true ↔ id ∈ m.stack
  visited : ∀ id ∈ m.stack, m.Visited id
  descending : m.stack.Pairwise fun upper lower => m.rank lower < m.rank upper

namespace Tables

theorem nodup (tables : Tables g m) : m.stack.Nodup := by
  refine tables.descending.imp fun {upper lower} less same => ?_
  rw [same] at less
  exact Nat.lt_irrefl _ less

theorem visit (tables : Tables g m) (live : g.contains id) (fresh : ¬ m.Visited id) :
    Tables g (m.visit id) := by
  have slot := lt_size_of_contains live
  have inside : id < m.index.size := tables.indexSize ▸ slot
  have different : ∀ other, m.Visited other → other ≠ id := fun other visited same =>
    fresh (same ▸ visited)
  have kept : ∀ other, m.Visited other → (m.visit id).rank other = m.rank other :=
    fun other visited => by rw [rank_visit inside, if_neg (different other visited)]
  have self : (m.visit id).rank id = m.nextIndex := by rw [rank_visit inside, if_pos rfl]
  refine ⟨?_, ?_, ?_, fun other visited => ?_, fun other visited => ?_, fun other => ?_,
    fun other member => ?_, ?_⟩
  · exact Array.size_setIfInBounds.trans tables.indexSize
  · exact Array.size_setIfInBounds.trans tables.lowlinkSize
  · exact Array.size_setIfInBounds.trans tables.onStackSize
  · rcases (visited_visit inside other).mp visited with rfl | old
    · exact live
    · exact tables.live other old
  · show _ < m.nextIndex + 1
    rcases (visited_visit inside other).mp visited with rfl | old
    · rw [self]
      exact Nat.lt_succ_self _
    · rw [kept other old]
      exact Nat.lt_succ_of_lt (tables.below other old)
  · show (m.onStack.setIfInBounds id true)[other]? = some true ↔ other ∈ id :: m.stack
    rw [Array.getElem?_setIfInBounds, List.mem_cons, ← tables.marked]
    by_cases same : id = other
    · rw [if_pos same, if_pos (tables.onStackSize ▸ same ▸ slot)]
      exact iff_of_true rfl (Or.inl same.symm)
    · rw [if_neg same, or_iff_right (Ne.symm same)]
  · refine (visited_visit inside other).mpr ?_
    rcases List.mem_cons.mp member with rfl | old
    · exact Or.inl rfl
    · exact Or.inr (tables.visited other old)
  · refine List.pairwise_cons.mpr ⟨fun other member => ?_, ?_⟩
    · rw [self, kept other (tables.visited other member)]
      exact tables.below other (tables.visited other member)
    · refine tables.descending.imp_of_mem fun {upper lower} upperMember lowerMember less => ?_
      rw [kept upper (tables.visited upper upperMember),
        kept lower (tables.visited lower lowerMember)]
      exact less

theorem lower (tables : Tables g m) (id number : Nat) : Tables g (m.lower id number) :=
  ⟨tables.indexSize, Array.size_modify.trans tables.lowlinkSize, tables.onStackSize, tables.live,
    tables.below, tables.marked, tables.visited, tables.descending⟩

end Tables

theorem popTo_append {above below : List Nat} (absent : id ∉ above) :
    popTo id (above ++ id :: below) = (above ++ [id], below) := by
  induction above with
  | nil => simp [popTo]
  | cons head rest inductionHypothesis =>
    have different : head ≠ id := fun same => absent (same ▸ List.mem_cons_self)
    rw [List.cons_append, popTo, if_neg different,
      inductionHypothesis fun member => absent (List.mem_cons_of_mem _ member)]
    rfl

theorem getElem?_unmark (component : List Nat) (marks : Array Bool) (id : Nat) :
    (component.foldl (fun marks member => marks.setIfInBounds member false) marks)[id]? =
      if id ∈ component then marks[id]?.map fun _ => false else marks[id]? := by
  induction component generalizing marks with
  | nil => rfl
  | cons head rest inductionHypothesis =>
    rw [List.foldl_cons, inductionHypothesis, Array.getElem?_setIfInBounds]
    by_cases same : head = id
    · subst same
      by_cases inside : head < marks.size <;> simp [inside]
    · simp [same, Ne.symm same]

theorem size_unmark (component : List Nat) (marks : Array Bool) :
    (component.foldl (fun marks member => marks.setIfInBounds member false) marks).size =
      marks.size := by
  induction component generalizing marks with
  | nil => rfl
  | cons head rest inductionHypothesis =>
    rw [List.foldl_cons, inductionHypothesis, Array.size_setIfInBounds]

theorem stack_close {above below : List Nat} (tables : Tables g m)
    (stack : m.stack = above ++ id :: below) :
    popTo id m.stack = (above ++ [id], below) := by
  have distinct := tables.nodup
  rw [stack, List.nodup_append] at distinct
  rw [stack, popTo_append fun member => distinct.2.2 id member id List.mem_cons_self rfl]

theorem Tables.close {above below : List Nat} (tables : Tables g m)
    (stack : m.stack = above ++ id :: below) : Tables g (m.close g id) := by
  have popped := stack_close tables stack
  have rest : (m.close g id).stack = below := by rw [Marks.close, popped]
  have suffix : below.Sublist m.stack := by
    rw [stack]
    exact (List.sublist_cons_self id below).trans (List.sublist_append_right above _)
  refine ⟨tables.indexSize, tables.lowlinkSize, ?_, tables.live, tables.below, fun other => ?_,
    fun other member => ?_, ?_⟩
  · exact (size_unmark _ _).trans tables.onStackSize
  · show (List.foldl _ m.onStack (popTo id m.stack).1)[other]? = some true ↔ _
    rw [getElem?_unmark, popped, rest]
    dsimp only
    split
    · next member =>
      have distinct := tables.nodup
      rw [stack, ← List.singleton_append, ← List.append_assoc, List.nodup_append] at distinct
      refine iff_of_false (by cases m.onStack[other]? <;> simp) fun later => ?_
      exact distinct.2.2 other member other later rfl
    · next absent =>
      rw [tables.marked, stack, ← List.singleton_append, ← List.append_assoc, List.mem_append,
        or_iff_right absent]
  · rw [rest] at member
    exact tables.visited other (suffix.subset member)
  · rw [rest]
    exact tables.descending.sublist suffix

/-! ### Layers of the stack -/

/-- What holds of the layer of a node being worked on. The nodes `above` it belong to its layer, the
nodes `below` it to the layers further down. -/
structure Layer (g : Graph α) (m : Marks) (id : Nat) (pending above below : List Nat) : Prop where
  edges : ∀ next ∈ pending, next ∈ g.successors id
  together : ∀ node ∈ above, g.Reaches id node ∧ g.Reaches node id
  lowest : ∃ node ∈ id :: below, m.rank node = m.low id ∧ g.Reaches id node
  looked : ∀ node ∈ id :: above, ∀ next ∈ g.successors node, node = id ∧ next ∈ pending ∨
    m.Visited next ∧ (next ∈ m.stack → m.low id ≤ m.rank next)

/-- The stack is cut into the layers of the nodes being worked on, each of them a successor of the
one below. -/
inductive Layers (g : Graph α) (m : Marks) : List (Nat × List Nat) → List Nat → Prop
  | nil : Layers g m [] []
  | cons {id : Nat} {pending above below : List Nat} {work : List (Nat × List Nat)}
      (layer : Layer g m id pending above below)
      (child : ∀ parent ∈ work.head?, id ∈ g.successors parent.1) (rest : Layers g m work below) :
      Layers g m ((id, pending) :: work) (above ++ id :: below)

/-- What a later state keeps of an earlier one: numbers stay, and what was visited does not come
back to the stack. -/
structure Keeps (m n : Marks) : Prop where
  visited : ∀ id, m.Visited id → n.Visited id
  stacked : ∀ id, m.Visited id → id ∈ n.stack → id ∈ m.stack
  rank : ∀ id, m.Visited id → n.rank id = m.rank id

variable {pending above below : List Nat} {work : List (Nat × List Nat)}

/-- A layer whose lowlink was lowered. -/
theorem Layer.turn (layer : Layer g m id pending above below) (keeps : Keeps m n)
    (lowest : ∃ node ∈ id :: below, n.rank node = n.low id ∧ g.Reaches id node)
    (lower : n.low id ≤ m.low id) : Layer g n id pending above below where
  edges := layer.edges
  together := layer.together
  lowest := lowest
  looked node member next edge := by
    refine (layer.looked node member next edge).imp_right ?_
    rintro ⟨visited, bound⟩
    refine ⟨keeps.visited next visited, fun stacked => ?_⟩
    rw [keeps.rank next visited]
    exact lower.trans (bound (keeps.stacked next visited stacked))

/-- A layer whose lowlink stays. -/
theorem Layer.keep (layer : Layer g m id pending above below) (keeps : Keeps m n)
    (visited : ∀ node ∈ id :: below, m.Visited node) (low : n.low id = m.low id) :
    Layer g n id pending above below := by
  refine layer.turn keeps ?_ low.le
  obtain ⟨node, member, rank, way⟩ := layer.lowest
  exact ⟨node, member, by rw [keeps.rank node (visited node member), rank, low], way⟩

/-- A layer after a successor was looked at. -/
theorem Layer.drop {next : Nat} (layer : Layer g m id (next :: pending) above below)
    (visited : m.Visited next) (bound : next ∈ m.stack → m.low id ≤ m.rank next) :
    Layer g m id pending above below where
  edges other member := layer.edges other (List.mem_cons_of_mem _ member)
  together := layer.together
  lowest := layer.lowest
  looked node member other edge := by
    rcases layer.looked node member other edge with ⟨same, waits⟩ | seen
    · rcases List.mem_cons.mp waits with rfl | later
      · exact Or.inr ⟨visited, bound⟩
      · exact Or.inl ⟨same, later⟩
    · exact Or.inr seen

/-- Two layers of which the upper one was looked through, and leads back to the lower one. -/
theorem Layer.join {parent : Nat} {later between under : List Nat}
    (upper : Layer g m id [] above (between ++ parent :: under))
    (lower : Layer g m parent later between under) (edge : id ∈ g.successors parent)
    (back : g.Reaches id parent) (keeps : Keeps m n)
    (low : n.low parent = min (m.low parent) (m.low id))
    (lowest : ∃ node ∈ parent :: under, n.rank node = n.low parent ∧ g.Reaches parent node) :
    Layer g n parent later (above ++ id :: between) under where
  edges := lower.edges
  together node member := by
    rcases List.mem_append.mp member with above | member
    · obtain ⟨down, up⟩ := upper.together node above
      exact ⟨(Reaches.edge edge).trans down, up.trans back⟩
    rcases List.mem_cons.mp member with rfl | between
    · exact ⟨Reaches.edge edge, back⟩
    · exact lower.together node between
  lowest := lowest
  looked node member next out := by
    have lowered : ∀ bound, n.low parent ≤ bound →
        m.Visited next ∧ (next ∈ m.stack → bound ≤ m.rank next) →
        n.Visited next ∧ (next ∈ n.stack → n.low parent ≤ n.rank next) := by
      rintro bound less ⟨visited, least⟩
      refine ⟨keeps.visited next visited, fun stacked => ?_⟩
      rw [keeps.rank next visited]
      exact less.trans (least (keeps.stacked next visited stacked))
    have ofLower : ∀ node ∈ parent :: between, next ∈ g.successors node →
        node = parent ∧ next ∈ later ∨
          n.Visited next ∧ (next ∈ n.stack → n.low parent ≤ n.rank next) := fun node inLower out =>
      (lower.looked node inLower next out).imp_right (lowered _ (low ▸ Nat.min_le_left _ _))
    have ofUpper : ∀ node ∈ id :: above, next ∈ g.successors node →
        n.Visited next ∧ (next ∈ n.stack → n.low parent ≤ n.rank next) := fun node inUpper out =>
      lowered _ (low ▸ Nat.min_le_right _ _) ((upper.looked node inUpper next out).resolve_left
        fun waits => List.not_mem_nil waits.2)
    rcases List.mem_cons.mp member with rfl | member
    · exact ofLower node List.mem_cons_self out
    rcases List.mem_append.mp member with above | member
    · exact Or.inr (ofUpper node (List.mem_cons_of_mem _ above) out)
    rcases List.mem_cons.mp member with rfl | between
    · exact Or.inr (ofUpper node List.mem_cons_self out)
    · exact ofLower node (List.mem_cons_of_mem _ between) out

theorem Layers.keep {stack : List Nat} (layers : Layers g m work stack) (keeps : Keeps m n)
    (visited : ∀ node ∈ stack, m.Visited node)
    (low : ∀ entry ∈ work, n.low entry.1 = m.low entry.1) : Layers g n work stack := by
  induction layers with
  | nil => exact .nil
  | cons layer child rest inductionHypothesis =>
    have inside : ∀ node ∈ _ :: _, m.Visited node := fun node member =>
      visited node (List.mem_append_right _ member)
    refine .cons (layer.keep keeps inside (low _ List.mem_cons_self)) child ?_
    exact inductionHypothesis (fun node member => inside node (List.mem_cons_of_mem _ member))
      fun entry member => low entry (List.mem_cons_of_mem _ member)

theorem Layers.mem_stack {stack : List Nat} (layers : Layers g m work stack) :
    ∀ entry ∈ work, entry.1 ∈ stack := by
  induction layers with
  | nil => intro entry member; exact absurd member List.not_mem_nil
  | cons layer child rest inductionHypothesis =>
    intro entry member
    refine List.mem_append_right _ ?_
    rcases List.mem_cons.mp member with rfl | later
    · exact List.mem_cons_self
    · exact List.mem_cons_of_mem _ (inductionHypothesis entry later)

/-- Every node of the stack leads to the node worked on last. -/
theorem Layers.reaches_top {stack : List Nat} (layers : Layers g m work stack) :
    ∀ top ∈ work.head?, ∀ node ∈ stack, g.Reaches node top.1 := by
  induction layers with
  | nil => intro top head; cases head
  | @cons id _ above below work layer child rest inductionHypothesis =>
    intro top head node member
    obtain rfl : _ = top := Option.some.inj head
    rcases List.mem_append.mp member with upper | lower
    · exact (layer.together node upper).2
    rcases List.mem_cons.mp lower with rfl | deeper
    · exact Reaches.refl _
    -- there is a layer below, and this one hangs on it
    cases rest with
    | nil => exact absurd deeper List.not_mem_nil
    | cons _ _ _ =>
      exact (inductionHypothesis _ rfl node deeper).trans (Reaches.edge (child _ rfl))

/-- The lowlink of a node is at most its number. -/
theorem Layer.low_le (layer : Layer g m id pending above below)
    (descending : (id :: below).Pairwise fun upper lower => m.rank lower < m.rank upper) :
    m.low id ≤ m.rank id := by
  obtain ⟨node, member, rank, -⟩ := layer.lowest
  rw [← rank]
  rcases List.mem_cons.mp member with rfl | deeper
  · exact Nat.le_refl _
  · exact (List.rel_of_pairwise_cons descending deeper).le

theorem Layers.exists_layer {stack : List Nat} (layers : Layers g m ((id, pending) :: work) stack) :
    ∃ above below, stack = above ++ id :: below ∧ Layer g m id pending above below ∧
      (∀ parent ∈ work.head?, id ∈ g.successors parent.1) ∧ Layers g m work below := by
  cases layers with
  | cons layer child rest => exact ⟨_, _, rfl, layer, child, rest⟩

/-! ### Completed components -/

/-- What holds of the nodes whose component is complete. -/
structure Settled (g : Graph α) (m : Marks) : Prop where
  closed : ∀ id, m.Done id → ∀ next ∈ g.successors id, m.Done next
  nonempty : ∀ component ∈ m.found, component ≠ []
  ascending : ∀ component ∈ m.found, component.Pairwise (· < ·)
  done : ∀ component ∈ m.found, ∀ id ∈ component, m.Done id
  strong : ∀ component ∈ m.found, ∀ id ∈ component, ∀ other,
    other ∈ component ↔ g.Reaches id other ∧ g.Reaches other id
  cyclic : ∀ component ∈ m.found, ∀ id ∈ component, g.OnCycle id
  listed : ∀ id, m.Done id → g.OnCycle id → ∃ component ∈ m.found, id ∈ component
  ordered : m.found.Pairwise fun earlier later =>
    ∀ id ∈ earlier, ∀ other ∈ later, ¬ g.Reaches id other

theorem Settled.congr (settled : Settled g m) (done : ∀ id, n.Done id ↔ m.Done id)
    (found : n.found = m.found) : Settled g n := by
  obtain ⟨closed, nonempty, ascending, finished, strong, cyclic, listed, ordered⟩ := settled
  refine ⟨?_, found ▸ nonempty, found ▸ ascending, ?_, found ▸ strong, found ▸ cyclic, ?_,
    found ▸ ordered⟩
  · simpa only [done] using closed
  · simpa only [done, found] using finished
  · simpa only [done, found] using listed

/-- A part of the stack that is a component and leads to nothing but completed components. -/
structure Complete (g : Graph α) (m : Marks) (component : List Nat) : Prop where
  distinct : component.Nodup
  fresh : ∀ id ∈ component, ¬ m.Done id
  closed : ∀ id ∈ component, ∀ next ∈ g.successors id, next ∈ component ∨ m.Done next
  together : ∀ id ∈ component, ∀ other ∈ component, g.Reaches id other

namespace Complete

variable {component : List Nat}

theorem mem_iff (complete : Complete g m component) (settled : Settled g m)
    (member : id ∈ component) (other : Nat) :
    other ∈ component ↔ g.Reaches id other ∧ g.Reaches other id := by
  constructor
  · intro otherMember
    exact ⟨complete.together id member other otherMember,
      complete.together other otherMember id member⟩
  · rintro ⟨forth, back⟩
    have closed : ∀ node, node ∈ component ∨ m.Done node → ∀ next ∈ g.successors node,
        next ∈ component ∨ m.Done next := by
      rintro node (inComponent | done) next edge
      · exact complete.closed node inComponent next edge
      · exact Or.inr (settled.closed node done next edge)
    refine (forth.stays closed (Or.inl member)).resolve_right fun done => ?_
    exact complete.fresh id member (back.stays settled.closed done)

/-- A component has a cycle if it has two nodes, or one with an edge to itself. -/
theorem cycle_iff (complete : Complete g m component) (settled : Settled g m)
    {last : Nat} (lastMember : last ∈ component) (member : id ∈ component) :
    (component.length > 1 || g.hasEdge last last) = true ↔ g.OnCycle id := by
  rw [Bool.or_eq_true, decide_eq_true_iff, hasEdge, List.contains_iff_mem]
  -- two different nodes of a component lie on a cycle
  have apart : ∀ other ∈ component, id ≠ other → g.OnCycle id := fun other otherMember different =>
    onCycle_of_mutual different (complete.together id member other otherMember)
      (complete.together other otherMember id member)
  constructor
  · rintro (long | loop)
    · by_contra noCycle
      have same : ∀ other ∈ component, other = id := fun other otherMember => by
        by_contra different
        exact noCycle (apart other otherMember (Ne.symm different))
      have distinct := complete.distinct
      rw [List.eq_replicate_of_mem same, List.nodup_replicate] at distinct
      omega
    · by_cases same : id = last
      · exact same ▸ TransGen.single loop
      · exact apart last lastMember same
  · intro cycle
    by_contra short
    push Not at short
    obtain ⟨few, noLoop⟩ := short
    obtain ⟨only, rfl⟩ : ∃ only, component = [only] :=
      List.length_eq_one_iff.mp (Nat.le_antisymm few (List.length_pos_of_mem member))
    obtain rfl := List.mem_singleton.mp member
    obtain rfl := List.mem_singleton.mp lastMember
    obtain ⟨next, edge, way⟩ := (onCycle_iff g last).mp cycle
    have same := (complete.mem_iff settled member next).mpr ⟨Reaches.edge edge, way⟩
    exact noLoop (List.mem_singleton.mp same ▸ edge)

end Complete

/-- Taking a component off the stack. -/
theorem Settled.add {component : List Nat} {last : Nat} (settled : Settled g m)
    (complete : Complete g m component) (lastMember : last ∈ component)
    (done : ∀ id, n.Done id ↔ m.Done id ∨ id ∈ component)
    (found : n.found = if component.length > 1 || g.hasEdge last last
      then m.found ++ [sorted component] else m.found) : Settled g n := by
  have closed : ∀ id, n.Done id → ∀ next ∈ g.successors id, n.Done next := by
    intro id idDone next edge
    rw [done] at idDone ⊢
    rcases idDone with old | new
    · exact Or.inl (settled.closed id old next edge)
    · exact (complete.closed id new next edge).symm
  have cycle : ∀ id ∈ component,
      ((component.length > 1 || g.hasEdge last last) = true ↔ g.OnCycle id) :=
    fun id member => complete.cycle_iff settled lastMember member
  by_cases kept : (component.length > 1 || g.hasEdge last last) = true
  · rw [if_pos kept] at found
    have each : ∀ holds : List Nat → Prop, (∀ listed ∈ m.found, holds listed) →
        holds (sorted component) → ∀ listed ∈ n.found, holds listed := by
      intro holds old new listed member
      rw [found] at member
      rcases List.mem_append.mp member with before | last
      · exact old listed before
      · exact List.mem_singleton.mp last ▸ new
    refine ⟨closed, each _ settled.nonempty (List.ne_nil_of_mem (mem_sorted.mpr lastMember)),
      each _ settled.ascending (pairwise_sorted complete.distinct), each _ ?_ ?_,
      each _ settled.strong fun id idMember other => ?_,
      each _ settled.cyclic fun id idMember => (cycle id (mem_sorted.mp idMember)).mp kept,
      fun id idDone onCycle => ?_, ?_⟩
    · exact fun listed member id idMember =>
        (done id).mpr (Or.inl (settled.done listed member id idMember))
    · exact fun id idMember => (done id).mpr (Or.inr (mem_sorted.mp idMember))
    · rw [mem_sorted]
      exact complete.mem_iff settled (mem_sorted.mp idMember) other
    · rw [found]
      rcases (done id).mp idDone with old | new
      · obtain ⟨listed, member, idMember⟩ := settled.listed id old onCycle
        exact ⟨listed, List.mem_append_left _ member, idMember⟩
      · exact ⟨_, List.mem_append_right _ List.mem_cons_self, mem_sorted.mpr new⟩
    · rw [found]
      refine List.pairwise_append.mpr ⟨settled.ordered, List.pairwise_singleton _ _,
        fun earlier member later laterMember id idMember other otherMember way => ?_⟩
      rw [List.mem_singleton.mp laterMember] at otherMember
      -- what is complete leads to nothing on the stack
      exact complete.fresh other (mem_sorted.mp otherMember)
        (way.stays settled.closed (settled.done earlier member id idMember))
  · rw [if_neg kept] at found
    refine ⟨closed, found ▸ settled.nonempty, found ▸ settled.ascending, ?_, found ▸ settled.strong,
      found ▸ settled.cyclic, fun id idDone onCycle => ?_, found ▸ settled.ordered⟩
    · rw [found]
      exact fun other member id idMember =>
        (done id).mpr (Or.inl (settled.done other member id idMember))
    · rw [found]
      rcases (done id).mp idDone with old | new
      · exact settled.listed id old onCycle
      · exact absurd ((cycle id new).mpr onCycle) kept

/-- The layer of a node that was looked through and whose lowlink is its number is a component. -/
theorem Layer.complete (layer : Layer g m id [] above below) (tables : Tables g m)
    (stack : m.stack = above ++ id :: below) (own : m.low id = m.rank id) :
    Complete g m (above ++ [id]) := by
  have grouped : m.stack = (above ++ [id]) ++ below := by rw [stack]; simp
  have descending := tables.descending
  rw [stack] at descending
  have deeper := (List.pairwise_append.mp descending).2.1
  have inLayer : ∀ node ∈ above ++ [id], node ∈ id :: above := fun node member => by
    simpa [or_comm] using member
  refine ⟨?_, fun node member done => done.2 ?_, fun node member next edge => ?_,
    fun node member other otherMember => ?_⟩
  · have distinct := tables.nodup
    rw [grouped] at distinct
    exact (List.nodup_append.mp distinct).1
  · rw [grouped]
    exact List.mem_append_left _ member
  · rcases layer.looked node (inLayer node member) next edge with ⟨-, waits⟩ | ⟨visited, bound⟩
    · exact absurd waits List.not_mem_nil
    by_cases stacked : next ∈ m.stack
    · have least := bound stacked
      rw [grouped] at stacked
      refine Or.inl ((List.mem_append.mp stacked).resolve_right fun under => ?_)
      have less := List.rel_of_pairwise_cons deeper under
      omega
    · exact Or.inr ⟨visited, stacked⟩
  · have hub : ∀ node ∈ above ++ [id], g.Reaches id node ∧ g.Reaches node id := by
      intro node member
      rcases List.mem_append.mp member with upper | last
      · exact layer.together node upper
      · rw [List.mem_singleton.mp last]
        exact ⟨Reaches.refl id, Reaches.refl id⟩
    exact (hub node member).2.trans (hub other otherMember).1

/-! ### What a visit and a lower lowlink change -/

theorem keeps_lower (m : Marks) (id number : Nat) : Keeps m (m.lower id number) :=
  ⟨fun _ visited => visited, fun _ _ stacked => stacked, fun _ _ => rfl⟩

theorem keeps_visit (inside : id < m.index.size) (fresh : ¬ m.Visited id) :
    Keeps m (m.visit id) := by
  have different : ∀ other, m.Visited other → other ≠ id := fun other visited same =>
    fresh (same ▸ visited)
  refine ⟨fun other visited => (visited_visit inside other).mpr (Or.inr visited),
    fun other visited stacked => ?_, fun other visited => ?_⟩
  · exact (List.mem_cons.mp stacked).resolve_left (different other visited)
  · rw [rank_visit inside, if_neg (different other visited)]

theorem done_visit (inside : id < m.index.size) (fresh : ¬ m.Visited id) (other : Nat) :
    (m.visit id).Done other ↔ m.Done other := by
  rw [Done, visited_visit inside, Done]
  show (other = id ∨ m.Visited other) ∧ other ∉ id :: m.stack ↔ _
  rw [List.mem_cons, not_or]
  constructor
  · rintro ⟨same | visited, different, absent⟩
    · exact absurd same different
    · exact ⟨visited, absent⟩
  · rintro ⟨visited, absent⟩
    exact ⟨Or.inr visited, fun same => fresh (same ▸ visited), absent⟩

/-- A lowlink that is low enough stays. -/
theorem lower_of_le {number : Nat} (low : m.low id ≤ number) : m.lower id number = m := by
  have same : m.lowlink.modify id (min · number) = m.lowlink := by
    refine Array.ext_getElem? fun slot => ?_
    rw [Array.getElem?_modify]
    by_cases here : id = slot
    · subst here
      rw [if_pos rfl]
      rw [Marks.low] at low
      cases read : m.lowlink[id]? with
      | none => rfl
      | some old =>
        rw [read] at low
        exact congrArg some (Nat.min_eq_left low)
    · rw [if_neg here]
  rw [lower, same]

theorem keeps_close (tables : Tables g m) (stack : m.stack = above ++ id :: below) :
    Keeps m (m.close g id) := by
  refine ⟨fun _ visited => visited, fun node _ stacked => ?_, fun _ _ => rfl⟩
  rw [Marks.close, stack_close tables stack] at stacked
  rw [stack]
  exact List.mem_append_right _ (List.mem_cons_of_mem _ stacked)

/-- What is taken off the stack is done. -/
theorem done_close (tables : Tables g m) (stack : m.stack = above ++ id :: below) (node : Nat) :
    (m.close g id).Done node ↔ m.Done node ∨ node ∈ above ++ [id] := by
  have grouped : m.stack = (above ++ [id]) ++ below := by rw [stack]; simp
  have rest : (m.close g id).stack = below := by rw [Marks.close, stack_close tables stack]
  have visited : (m.close g id).Visited node ↔ m.Visited node := Iff.rfl
  rw [Done, Done, rest, visited, grouped, List.mem_append]
  by_cases popped : node ∈ above ++ [id]
  · refine iff_of_true ⟨?_, fun under => ?_⟩ (Or.inr popped)
    · exact tables.visited node (grouped ▸ List.mem_append_left _ popped)
    · have distinct := tables.nodup
      rw [grouped, List.nodup_append] at distinct
      exact distinct.2.2 node popped node under rfl
  · rw [or_iff_right popped, or_iff_left popped]

/-- The layer of a node that was just visited. -/
theorem layer_visit (tables : Tables g m) (live : g.contains id) :
    Layer g (m.visit id) id (g.successors id) [] m.stack := by
  have slot := lt_size_of_contains live
  have own : (m.visit id).rank id = (m.visit id).low id := by
    rw [rank_visit (tables.indexSize ▸ slot), low_visit (tables.lowlinkSize ▸ slot), if_pos rfl,
      if_pos rfl]
  refine ⟨fun _ edge => edge, fun _ member => absurd member List.not_mem_nil,
    ⟨id, List.mem_cons_self, own, Reaches.refl id⟩, fun node member next edge => Or.inl ?_⟩
  obtain rfl := List.mem_singleton.mp member
  exact ⟨rfl, edge⟩

end Marks

end ThreeAddress.Graph
