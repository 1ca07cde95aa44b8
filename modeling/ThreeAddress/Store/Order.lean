/-
The order that the links of an arena make. `Ordered a order` says that the links
lead through the slots of `order`, forwards and backwards, and that the count
and the free list fit. The links of a list split where the list splits, so each
operation is seen as a cut: the stretch before the place keeps all its links but
the last one forward, the stretch behind it all but the first one backward. From
this follows that no operation on an ordered arena faults, and that the result
is ordered again.
-/
import ThreeAddress.Store.Arena

namespace ThreeAddress.Store.Arena

variable {a b c : Arena} {slot : Slot} {prev next : Option Slot} {slots : List Slot}

/-! ### Single slots -/

theorem node?_put (a : Arena) (slot other : Slot) (node : Option Node) :
    (a.put slot node).node? other =
      if slot = other ∧ slot < a.nodes.size then node else a.node? other := by
  simp only [node?, put, Array.getElem?_setIfInBounds]
  by_cases same : slot = other
  · subst same
    by_cases made : slot < a.nodes.size <;> simp [made]
  · simp [same]

theorem lt_of_node? {node : Node} (held : a.node? slot = some node) : slot < a.nodes.size := by
  rw [node?, Option.join_eq_some_iff] at held
  exact (Array.getElem?_eq_some_iff.mp held).1

theorem node?_put_self {node : Node} (held : a.node? slot = some node) (new : Option Node) :
    (a.put slot new).node? slot = new := by
  rw [node?_put, if_pos ⟨rfl, lt_of_node? held⟩]

theorem node?_put_other {other : Slot} (differs : other ≠ slot) (new : Option Node) :
    (a.put slot new).node? other = a.node? other := by
  rw [node?_put, if_neg fun same => differs same.1.symm]

@[simp] theorem size_nodes_put (a : Arena) (slot : Slot) (node : Option Node) :
    (a.put slot node).nodes.size = a.nodes.size := by
  simp [put]

theorem node?_modify (a : Arena) (slot other : Slot) (change : Instruction → Instruction) :
    (a.modify slot change).node? other =
      if other = slot then
        (a.node? other).map fun node => { node with instruction := change node.instruction }
      else a.node? other := by
  simp only [node?, modify, Array.getElem?_modify, eq_comm]
  by_cases same : slot = other
  · subst same
    rw [if_pos rfl, if_pos rfl]
    cases a.nodes[slot]? <;> rfl
  · rw [if_neg same, if_neg same]

theorem get?_modify (a : Arena) (slot other : Slot) (change : Instruction → Instruction) :
    (a.modify slot change).get? other =
      if other = slot then (a.get? other).map change else a.get? other := by
  rw [get?, get?, node?_modify]
  split
  · rw [Option.map_map, Option.map_map]
    rfl
  · rfl

theorem isSome_get?_modify (a : Arena) (slot other : Slot) (change : Instruction → Instruction) :
    ((a.modify slot change).get? other).isSome = (a.get? other).isSome := by
  rw [get?_modify]
  split
  · exact Option.isSome_map
  · rfl

/-- Two arenas that hold the same instructions in the same slots; only links may differ. -/
structure Relinked (a b : Arena) : Prop where
  held : ∀ slot, b.get? slot = a.get? slot
  made : b.nodes.size = a.nodes.size
  free : b.free = a.free
  size : b.size = a.size

theorem Relinked.trans (first : Relinked a b) (second : Relinked b c) : Relinked a c where
  held slot := (second.held slot).trans (first.held slot)
  made := second.made.trans first.made
  free := second.free.trans first.free
  size := second.size.trans first.size

/-- Replacing a node by one with the same instruction only changes links. -/
theorem relinked_put {node new : Node} (held : a.node? slot = some node)
    (same : new.instruction = node.instruction) : Relinked a (a.put slot (some new)) where
  held other := by
    rw [get?, get?, node?_put]
    split
    · next place => rw [← place.1, held, Option.map_some, Option.map_some, same]
    · rfl
  made := size_nodes_put _ _ _
  free := rfl
  size := rfl

/-! ### Stretches of linked slots -/

/-- The slots are linked in both directions, with `prev` before the first of them and `next`
behind the last. -/
def Chain (a : Arena) : (prev : Option Slot) → List Slot → (next : Option Slot) → Prop
  | _, [], _ => True
  | prev, slot :: rest, next =>
    (∃ i, a.node? slot = some ⟨i, prev, rest.head?.or next⟩) ∧ a.Chain (some slot) rest next

/-- The links of a list are those of its two parts. -/
theorem chain_append {before after : List Slot} :
    a.Chain prev (before ++ after) next ↔
      a.Chain prev before (after.head?.or next) ∧ a.Chain (before.getLast?.or prev) after next := by
  induction before generalizing prev with
  | nil => simp [Chain]
  | cons slot rest inductionHypothesis =>
    have seam : rest.getLast?.or (some slot) = (slot :: rest).getLast?.or prev := by
      rw [List.getLast?_cons]
      cases rest.getLast? <;> rfl
    rw [List.cons_append, Chain, Chain, inductionHypothesis, seam, List.head?_append,
      Option.or_assoc, and_assoc]

/-- Links are a matter of their own slots only. -/
theorem Chain.frame (chain : a.Chain prev slots next)
    (same : ∀ slot ∈ slots, b.node? slot = a.node? slot) : b.Chain prev slots next := by
  induction slots generalizing prev with
  | nil => trivial
  | cons slot rest inductionHypothesis =>
    obtain ⟨⟨i, held⟩, chained⟩ := chain
    exact ⟨⟨i, (same slot List.mem_cons_self).trans held⟩,
      inductionHypothesis chained fun slot member => same slot (List.mem_cons_of_mem _ member)⟩

/-- What a slot in the middle holds. -/
theorem Chain.node? {before after : List Slot}
    (chain : a.Chain prev (before ++ slot :: after) next) :
    ∃ i, a.node? slot = some ⟨i, before.getLast?.or prev, after.head?.or next⟩ :=
  (chain_append.mp chain).2.1

theorem Chain.isSome_get? (chain : a.Chain prev slots next) (member : slot ∈ slots) :
    (a.get? slot).isSome := by
  obtain ⟨before, after, rfl⟩ := List.append_of_mem member
  obtain ⟨i, held⟩ := chain.node?
  rw [get?, held]
  rfl

theorem Chain.modify (chain : a.Chain prev slots next) (slot : Slot)
    (change : Instruction → Instruction) : (a.modify slot change).Chain prev slots next := by
  induction slots generalizing prev with
  | nil => trivial
  | cons head rest inductionHypothesis =>
    obtain ⟨⟨i, held⟩, chained⟩ := chain
    refine ⟨?_, inductionHypothesis chained⟩
    rw [node?_modify, held]
    split
    · exact ⟨change i, rfl⟩
    · exact ⟨i, rfl⟩

/-! ### Moving the ends of a stretch -/

/-- The program starts with the given slots, and `next` is behind them. -/
structure Front (a : Arena) (slots : List Slot) (next : Option Slot) : Prop where
  first : a.first = slots.head?.or next
  chain : a.Chain none slots next

/-- The program ends with the given slots, and `prev` is before them. -/
structure Back (a : Arena) (prev : Option Slot) (slots : List Slot) : Prop where
  last : a.last = slots.getLast?.or prev
  chain : a.Chain prev slots none

theorem Front.frame (front : a.Front slots next) (first : b.first = a.first)
    (same : ∀ slot ∈ slots, b.node? slot = a.node? slot) : b.Front slots next :=
  ⟨first.trans front.first, front.chain.frame same⟩

theorem Back.frame (back : a.Back prev slots) (last : b.last = a.last)
    (same : ∀ slot ∈ slots, b.node? slot = a.node? slot) : b.Back prev slots :=
  ⟨last.trans back.last, back.chain.frame same⟩

/-- Linking behind the front part gives it another continuation and leaves the rest alone. -/
theorem Front.linkNext (front : a.Front slots next) (distinct : slots.Nodup)
    (new : Option Slot) :
    ∃ b, a.linkNext slots.getLast? new = .ok b ∧ b.Front slots new ∧ Relinked a b ∧
      b.last = a.last ∧ ∀ other ∉ slots, b.node? other = a.node? other := by
  obtain rfl | ⟨before, last, rfl⟩ := List.eq_nil_or_concat slots
  · exact ⟨{ a with first := new }, rfl, ⟨rfl, trivial⟩, ⟨fun _ => rfl, rfl, rfl, rfl⟩, rfl,
      fun _ _ => rfl⟩
  · rw [List.concat_eq_append] at front distinct ⊢
    obtain ⟨i, held⟩ := front.chain.node?
    obtain ⟨chained, -⟩ := chain_append.mp front.chain
    refine ⟨a.put last (some ⟨i, before.getLast?.or none, new⟩), ?_, ⟨?_, ?_⟩,
      relinked_put held rfl, rfl, fun other outside => node?_put_other (by simp_all) _⟩
    · simp [Arena.linkNext, update, held]
    · have := front.first
      cases before <;> simp_all [put]
    · refine chain_append.mpr
        ⟨chained.frame fun other member => node?_put_other ?_ _, ⟨i, ?_⟩, trivial⟩
      · rintro rfl
        exact (List.nodup_append.mp distinct).2.2 other member other List.mem_cons_self rfl
      · exact node?_put_self held _

/-- Linking before the back part gives it another predecessor and leaves the rest alone. -/
theorem Back.linkPrev (back : a.Back prev slots) (distinct : slots.Nodup) (new : Option Slot) :
    ∃ b, a.linkPrev slots.head? new = .ok b ∧ b.Back new slots ∧ Relinked a b ∧
      b.first = a.first ∧ ∀ other ∉ slots, b.node? other = a.node? other := by
  cases slots with
  | nil =>
    exact ⟨{ a with last := new }, rfl, ⟨rfl, trivial⟩, ⟨fun _ => rfl, rfl, rfl, rfl⟩, rfl,
      fun _ _ => rfl⟩
  | cons slot rest =>
    obtain ⟨⟨i, held⟩, chained⟩ := back.chain
    refine ⟨a.put slot (some ⟨i, new, rest.head?.or none⟩), ?_, ⟨?_, ⟨i, ?_⟩, ?_⟩,
      relinked_put held rfl, rfl, fun other outside => node?_put_other (by simp_all) _⟩
    · simp [Arena.linkPrev, update, held]
    · exact back.last.trans (by simp [List.getLast?_cons])
    · exact node?_put_self held _
    · refine chained.frame fun other member => node?_put_other ?_ _
      rintro rfl
      exact (List.nodup_cons.mp distinct).1 member

/-! ### Free slots -/

/-- The free list holds each empty slot once and nothing else. -/
structure Vacancies (a : Arena) : Prop where
  distinct : a.free.Nodup
  exact : ∀ slot, slot ∈ a.free ↔ slot < a.nodes.size ∧ a.get? slot = none

theorem Vacancies.relinked (vacancies : a.Vacancies) (same : Relinked a b) : b.Vacancies where
  distinct := same.free ▸ vacancies.distinct
  exact slot := by rw [same.free, same.made, same.held, vacancies.exact]

/-- A node gets a slot that was empty, and no other slot changes. -/
theorem Vacancies.allocate (vacancies : a.Vacancies) (node : Node) :
    ∃ slot b, a.allocate node = .ok (slot, b) ∧ a.node? slot = none ∧
      (∀ other, b.node? other = if other = slot then some node else a.node? other) ∧
      b.Vacancies ∧ b.first = a.first ∧ b.last = a.last ∧ b.size = a.size + 1 := by
  cases listed : a.free with
  | cons slot rest =>
    obtain ⟨made, empty⟩ := (vacancies.exact slot).mp (by simp [listed])
    have single := vacancies.distinct
    rw [listed, List.nodup_cons] at single
    let b : Arena := { a.put slot (some node) with free := rest, size := a.size + 1 }
    have held : ∀ other, b.node? other = if other = slot then some node else a.node? other := by
      intro other
      refine (node?_put a slot other (some node)).trans ?_
      simp [made, eq_comm]
    refine ⟨slot, b, ?_, by simpa [get?] using empty, held, ⟨single.2, fun other => ?_⟩,
      rfl, rfl, rfl⟩
    · simp [Arena.allocate, listed, made, b]
    · have listing := vacancies.exact other
      rw [listed] at listing
      rw [get?, held, show b.nodes.size = a.nodes.size from size_nodes_put _ _ _]
      by_cases same : other = slot
      · subst same
        simpa [b] using single.1
      · simpa [same, b, get?] using listing
  | nil =>
    let b : Arena := { a with nodes := a.nodes.push (some node), size := a.size + 1 }
    have beyond : a.node? a.nodes.size = none := by simp [node?]
    have held : ∀ other,
        b.node? other = if other = a.nodes.size then some node else a.node? other := by
      intro other
      by_cases same : other = a.nodes.size <;> simp [node?, b, Array.getElem?_push, same]
    refine ⟨a.nodes.size, b, ?_, beyond, held, ⟨by simp [b, listed], fun other => ?_⟩,
      rfl, rfl, rfl⟩
    · simp [Arena.allocate, listed, b]
    · have listing := vacancies.exact other
      rw [listed] at listing
      rw [get?, held]
      by_cases same : other = a.nodes.size
      · simp [same, b, listed]
      · have grown : other < b.nodes.size ↔ other < a.nodes.size := by
          rw [show b.nodes.size = a.nodes.size + 1 from Array.size_push _, Nat.lt_succ_iff_lt_or_eq]
          exact or_iff_left same
        rw [if_neg same, grown]
        simpa [b, listed, get?] using listing

/-! ### Ordered arenas -/

/-- The links lead through the slots of `order`, and the other records fit to that. -/
structure Ordered (a : Arena) (order : List Slot) : Prop where
  distinct : order.Nodup
  first : a.first = order.head?
  last : a.last = order.getLast?
  chain : a.Chain none order none
  covers : ∀ slot, (a.get? slot).isSome → slot ∈ order
  size : a.size = order.length
  vacancies : a.Vacancies

namespace Ordered

variable {order before after : List Slot}

theorem empty : ({} : Arena).Ordered [] where
  distinct := List.nodup_nil
  first := rfl
  last := rfl
  chain := trivial
  covers _ held := by simp [get?, Arena.node?] at held
  size := rfl
  vacancies := ⟨List.nodup_nil, fun slot => by simp⟩

theorem mem_iff (ordered : a.Ordered order) : slot ∈ order ↔ (a.get? slot).isSome :=
  ⟨ordered.chain.isSome_get?, ordered.covers slot⟩

theorem front (ordered : a.Ordered (before ++ after)) : a.Front before after.head? where
  first := ordered.first.trans List.head?_append
  chain := by simpa using (chain_append.mp ordered.chain).1

theorem back (ordered : a.Ordered (before ++ after)) : a.Back before.getLast? after where
  last := ordered.last.trans List.getLast?_append
  chain := by simpa using (chain_append.mp ordered.chain).2

/-- A front and a back part that are linked to each other make an order. -/
theorem join (front : a.Front before after.head?) (back : a.Back before.getLast? after)
    (distinct : (before ++ after).Nodup)
    (covers : ∀ slot, (a.get? slot).isSome → slot ∈ before ++ after)
    (size : a.size = (before ++ after).length) (vacancies : a.Vacancies) :
    a.Ordered (before ++ after) where
  distinct := distinct
  first := front.first.trans List.head?_append.symm
  last := back.last.trans List.getLast?_append.symm
  chain := chain_append.mpr ⟨by simpa using front.chain, by simpa using back.chain⟩
  covers := covers
  size := size
  vacancies := vacancies

/-- Adding an instruction between neighbours adds a slot there and keeps the others. -/
theorem insertBetween (ordered : a.Ordered (before ++ after)) (i : Instruction) :
    ∃ slot b, a.insertBetween i before.getLast? after.head? = .ok (slot, b) ∧
      b.Ordered (before ++ slot :: after) ∧
      ∀ other, b.get? other = if other = slot then some i else a.get? other := by
  obtain ⟨slot, b, allocated, empty, held, vacancies, first, last, size⟩ :=
    ordered.vacancies.allocate ⟨i, before.getLast?, after.head?⟩
  have fresh : slot ∉ before ++ after := by
    rw [ordered.mem_iff, get?, empty]
    simp
  have old : ∀ other ∈ before ++ after, b.node? other = a.node? other := fun other member => by
    rw [held, if_neg (ne_of_mem_of_not_mem member fresh)]
  have distinct := List.nodup_append.mp ordered.distinct
  have back : b.Back before.getLast? after :=
    ordered.back.frame last fun other member => old other (List.mem_append_right _ member)
  obtain ⟨c, linkedPrev, back, relinked, firstKept, behind⟩ :=
    back.linkPrev distinct.2.1 (some slot)
  have front : c.Front before after.head? :=
    ordered.front.frame (firstKept.trans first) fun other member => by
      rw [behind other fun also => distinct.2.2 other member other also rfl,
        old other (List.mem_append_left _ member)]
  obtain ⟨d, linkedNext, front, relinked', lastKept, ahead⟩ :=
    front.linkNext distinct.1 (some slot)
  have placed : d.node? slot = some ⟨i, before.getLast?, after.head?⟩ := by
    rw [ahead slot (by simp_all), behind slot (by simp_all), held, if_pos rfl]
  have got : ∀ other, d.get? other = if other = slot then some i else a.get? other := by
    intro other
    rw [(relinked.trans relinked').held, get?, held]
    split <;> rfl
  refine ⟨slot, d, ?_, join front ⟨?_, ⟨i, ?_⟩, ?_⟩ ?_ ?_ ?_ ?_, got⟩
  · simp [Arena.insertBetween, allocated, linkedPrev, linkedNext, bind, Except.bind, pure,
      Except.pure]
  · rw [lastKept, back.last]
    cases after <;> simp [List.getLast?_cons]
  · simpa using placed
  · exact back.chain.frame fun other member =>
      ahead other fun also => distinct.2.2 other also other member rfl
  · exact List.perm_middle.nodup_iff.mpr (List.nodup_cons.mpr ⟨fresh, ordered.distinct⟩)
  · intro other held
    rw [got] at held
    have := ordered.covers other
    grind
  · rw [relinked'.size, relinked.size, size, ordered.size]
    simp only [List.length_append, List.length_cons]
    omega
  · exact vacancies.relinked (relinked.trans relinked')

theorem append (ordered : a.Ordered order) (i : Instruction) :
    ∃ slot b, a.append i = .ok (slot, b) ∧ b.Ordered (order ++ [slot]) ∧
      ∀ other, b.get? other = if other = slot then some i else a.get? other := by
  rw [← List.append_nil order] at ordered
  rw [Arena.append, ordered.last, List.append_nil]
  exact ordered.insertBetween i

theorem insertBefore (ordered : a.Ordered (before ++ slot :: after)) (i : Instruction) :
    ∃ new b, a.insertBefore i slot = .ok (some new, b) ∧
      b.Ordered (before ++ new :: slot :: after) ∧
      ∀ other, b.get? other = if other = new then some i else a.get? other := by
  obtain ⟨new, b, inserted, ordered', got⟩ := ordered.insertBetween i
  obtain ⟨j, held⟩ := ordered.chain.node?
  refine ⟨new, b, ?_, ordered', got⟩
  rw [Option.or_none] at held
  rw [List.head?_cons] at inserted
  simp [Arena.insertBefore, held, inserted, bind, Except.bind, pure, Except.pure]

/-- Removing an instruction links its neighbours to each other. -/
theorem take (ordered : a.Ordered (before ++ slot :: after)) :
    ∃ i b, a.get? slot = some i ∧ a.take slot = .ok (some (i, after.head?), b) ∧
      b.Ordered (before ++ after) ∧
      ∀ other, b.get? other = if other = slot then none else a.get? other := by
  obtain ⟨i, held⟩ := ordered.chain.node?
  rw [Option.or_none, Option.or_none] at held
  obtain ⟨outside, distinct⟩ := List.nodup_cons.mp (List.perm_middle.nodup_iff.mp ordered.distinct)
  have apart := List.nodup_append.mp distinct
  have emptied : ∀ other ∈ before ++ after, (a.put slot none).node? other = a.node? other :=
    fun other member => node?_put_other (ne_of_mem_of_not_mem member outside) _
  have front : (a.put slot none).Front before (some slot) :=
    ordered.front.frame rfl fun other member => emptied other (List.mem_append_left _ member)
  obtain ⟨b, linkedNext, front, relinked, lastKept, ahead⟩ :=
    front.linkNext apart.1 after.head?
  have back : b.Back (some slot) after := by
    have cut : a.Ordered ((before ++ [slot]) ++ after) := by simpa using ordered
    have behind : a.Back (some slot) after := by simpa using cut.back
    refine behind.frame lastKept fun other member => ?_
    rw [ahead other fun also => apart.2.2 other also other member rfl,
      emptied other (List.mem_append_right _ member)]
  obtain ⟨c, linkedPrev, back, relinked', firstKept, behind⟩ :=
    back.linkPrev apart.2.1 before.getLast?
  have relinked := relinked.trans relinked'
  have got : ∀ other, c.get? other = if other = slot then none else a.get? other := fun other => by
    rw [relinked.held, get?, get?]
    split
    · next same => rw [same, node?_put_self held, Option.map_none]
    · next differs => rw [node?_put_other differs]
  have counted : c.size = (before ++ after).length + 1 := by
    rw [relinked.size, show (a.put slot none).size = a.size from rfl, ordered.size]
    simp only [List.length_append, List.length_cons]
    omega
  refine ⟨i, { c with free := slot :: c.free, size := (before ++ after).length },
    by simp [get?, held], ?_,
    join ?_ (back.frame rfl fun _ _ => rfl) distinct ?_ rfl ⟨?_, fun other => ?_⟩, got⟩
  · simp [Arena.take, held, linkedNext, linkedPrev, counted, bind, Except.bind, pure, Except.pure]
  · exact front.frame firstKept fun other member =>
      behind other fun also => apart.2.2 other member other also rfl
  · intro other (held : (c.get? other).isSome)
    rw [got] at held
    have := ordered.covers other
    grind
  · rw [relinked.free]
    refine List.nodup_cons.mpr ⟨fun listed => ?_, ordered.vacancies.distinct⟩
    have := ((ordered.vacancies.exact slot).mp listed).2
    simp [get?, held] at this
  · have listing := ordered.vacancies.exact other
    show other ∈ slot :: c.free ↔ other < c.nodes.size ∧ c.get? other = none
    rw [got, relinked.free, relinked.made, size_nodes_put]
    have := lt_of_node? held
    grind [put]

/-- Changing an instruction leaves the order alone. -/
theorem modify (ordered : a.Ordered order) (slot : Slot) (change : Instruction → Instruction) :
    (a.modify slot change).Ordered order where
  distinct := ordered.distinct
  first := ordered.first
  last := ordered.last
  chain := ordered.chain.modify slot change
  covers other held := ordered.covers other (by rwa [isSome_get?_modify] at held)
  size := ordered.size
  vacancies := by
    refine ⟨ordered.vacancies.distinct, fun other => ?_⟩
    rw [← Option.not_isSome_iff_eq_none, isSome_get?_modify, Option.not_isSome_iff_eq_none,
      show (a.modify slot change).nodes.size = a.nodes.size by simp [Arena.modify]]
    exact ordered.vacancies.exact other

end Ordered

theorem insertBefore_of_absent (absent : a.get? slot = none) (i : Instruction) :
    a.insertBefore i slot = .ok (none, a) := by
  rw [get?, Option.map_eq_none_iff] at absent
  rw [insertBefore, absent]

theorem take_of_absent (absent : a.get? slot = none) : a.take slot = .ok (none, a) := by
  rw [get?, Option.map_eq_none_iff] at absent
  rw [take, absent]

/-! ### Linked arenas -/

/-- The links make an order. -/
def Linked (a : Arena) : Prop :=
  ∃ order, a.Ordered order

/-- An operation ends without a fault and leaves a linked arena. -/
def Safe {α : Type} (result : Except Fault (α × Arena)) : Prop :=
  ∃ value b, result = .ok (value, b) ∧ b.Linked

namespace Linked

theorem empty : ({} : Arena).Linked :=
  ⟨[], .empty⟩

/-- A slot is empty, or it stands somewhere in the order. -/
theorem split (linked : a.Linked) (slot : Slot) :
    a.get? slot = none ∨ ∃ before after, a.Ordered (before ++ slot :: after) := by
  obtain ⟨order, ordered⟩ := linked
  cases held : a.get? slot with
  | none => exact .inl rfl
  | some i =>
    obtain ⟨before, after, rfl⟩ := List.append_of_mem (ordered.covers slot (by simp [held]))
    exact .inr ⟨before, after, ordered⟩

theorem append (linked : a.Linked) (i : Instruction) : Safe (a.append i) := by
  obtain ⟨order, ordered⟩ := linked
  obtain ⟨slot, b, appended, ordered, -⟩ := ordered.append i
  exact ⟨slot, b, appended, _, ordered⟩

theorem insertBefore (linked : a.Linked) (i : Instruction) (anchor : Slot) :
    Safe (a.insertBefore i anchor) := by
  obtain absent | ⟨before, after, ordered⟩ := linked.split anchor
  · exact ⟨none, a, insertBefore_of_absent absent i, linked⟩
  · obtain ⟨slot, b, inserted, ordered, -⟩ := ordered.insertBefore i
    exact ⟨some slot, b, inserted, _, ordered⟩

theorem take (linked : a.Linked) (slot : Slot) : Safe (a.take slot) := by
  obtain absent | ⟨before, after, ordered⟩ := linked.split slot
  · exact ⟨none, a, take_of_absent absent, linked⟩
  · obtain ⟨i, b, -, taken, ordered, -⟩ := ordered.take
    exact ⟨_, b, taken, _, ordered⟩

theorem remove (linked : a.Linked) (slot : Slot) : Safe (a.remove slot) := by
  obtain ⟨taken, b, removed, linked⟩ := linked.take slot
  exact ⟨taken.bind Prod.snd, b, by rw [Arena.remove, removed]; rfl, linked⟩

theorem modify (linked : a.Linked) (slot : Slot) (change : Instruction → Instruction) :
    (a.modify slot change).Linked := by
  obtain ⟨order, ordered⟩ := linked
  exact ⟨order, ordered.modify slot change⟩

end Linked

end ThreeAddress.Store.Arena
