/-
The instruction store as a list. `entries` reads a store as the list of its
slots with their instructions, in program order. Every question to the store is
answered by that list, and every change of the store is a change of the list at
one place: the pairs before and behind the place stay as they are, in the same
slots and in the same order. A slot that is not in the list is answered by
`none` and changes nothing.
-/
import ThreeAddress.Proofs.ArenaHistory
import Mathlib.Data.List.TakeWhile

namespace ThreeAddress.Store

variable {s t : Store} {slot : Slot}

/-! ### Reading the links as a list -/

namespace Arena

variable {a : Arena}

/-- A slot with its instruction. -/
def pair? (a : Arena) (slot : Slot) : Option (Slot × Instruction) :=
  (a.get? slot).map (slot, ·)

theorem Chain.walk {prev : Option Slot} {slots : List Slot} (chain : a.Chain prev slots none)
    {bound : Nat} (enough : slots.length ≤ bound) :
    a.walk bound slots.head? = slots.filterMap a.pair? := by
  induction slots generalizing prev bound with
  | nil => cases bound <;> rfl
  | cons slot rest inductionHypothesis =>
    obtain ⟨⟨i, held⟩, chained⟩ := chain
    cases bound with
    | zero => simp at enough
    | succ bound =>
      have reads : a.pair? slot = some (slot, i) := by simp [pair?, get?, held]
      rw [List.filterMap_cons_some reads, ← inductionHypothesis chained (by simpa using enough)]
      simp [Arena.walk, held]

theorem Ordered.length_le {order : List Slot} (ordered : a.Ordered order) :
    order.length ≤ a.nodes.size := by
  rw [ordered.length_eq, occupied]
  exact Nat.le_trans (List.length_filter_le _ _) (Nat.le_of_eq List.length_range)

/-- The bound of the walk is never what ends it. -/
theorem Ordered.entriesFrom {before after : List Slot} (ordered : a.Ordered (before ++ after)) :
    a.entriesFrom after.head? = after.filterMap a.pair? := by
  have enough := ordered.length_le
  rw [List.length_append] at enough
  exact ordered.back.chain.walk (by omega)

theorem modify_of_absent (absent : a.get? slot = none) (change : Instruction → Instruction) :
    a.modify slot change = a := by
  rw [get?, Option.map_eq_none_iff, node?] at absent
  have same : a.nodes.modify slot (Option.map fun node =>
      { node with instruction := change node.instruction }) = a.nodes := by
    refine Array.ext_getElem? fun other => ?_
    rw [Array.getElem?_modify]
    split
    · next same =>
      subst same
      cases held : a.nodes[slot]? with
      | none => rfl
      | some node =>
        rw [held] at absent
        rw [show node = none from absent]
        rfl
    · rfl
  exact congrArg (fun nodes => { a with nodes }) same

end Arena

theorem entries_eq_of_ordered {order : List Slot} (ordered : s.arena.Ordered order) :
    s.entries = order.filterMap s.arena.pair? := by
  rw [entries, ordered.first]
  exact Arena.Ordered.entriesFrom (show s.arena.Ordered ([] ++ order) from ordered)

theorem entries_eq_zip (s : Store) : s.entries = s.order.zip s.code := by
  rw [order, code, List.zip_map', List.map_id'']
  exact fun _ => rfl

/-- The arena of a store is ordered by the slots that are read from it. -/
theorem ordered_order (s : Store) : s.arena.Ordered s.order := by
  obtain ⟨order, ordered⟩ := s.linked
  have same : s.order = order := by
    rw [Store.order, entries_eq_of_ordered ordered, List.map_filterMap]
    refine (List.filterMap_congr fun slot member => ?_).trans List.filterMap_some
    obtain ⟨i, held⟩ := Option.isSome_iff_exists.mp (ordered.mem_iff.mp member)
    simp [Arena.pair?, held]
  rwa [same]

theorem mem_order_iff : slot ∈ s.order ↔ (s.get? slot).isSome :=
  s.ordered_order.mem_iff

theorem get?_of_mem {entry : Slot × Instruction} (member : entry ∈ s.entries) :
    s.get? entry.1 = some entry.2 := by
  rw [entries_eq_of_ordered s.ordered_order, List.mem_filterMap] at member
  obtain ⟨slot, -, read⟩ := member
  obtain ⟨i, held, rfl⟩ := Option.map_eq_some_iff.mp read
  exact held

theorem filterMap_pair? {list : List (Slot × Instruction)}
    (held : ∀ entry ∈ list, s.get? entry.1 = some entry.2) :
    (list.map Prod.fst).filterMap s.arena.pair? = list := by
  rw [List.filterMap_map]
  refine (List.filterMap_congr fun entry member => ?_).trans List.filterMap_some
  have got : s.arena.get? entry.1 = some entry.2 := held entry member
  simp [Arena.pair?, got]

/-- A store whose links lead through the slots of a list, and which holds the instructions of the
list there, is read as that list. -/
theorem entries_of_ordered {list : List (Slot × Instruction)}
    (ordered : s.arena.Ordered (list.map Prod.fst))
    (held : ∀ entry ∈ list, s.get? entry.1 = some entry.2) : s.entries = list :=
  (entries_eq_of_ordered ordered).trans (filterMap_pair? held)

theorem ofSafe_of_ok {α : Type} {result : Except Fault (α × Arena)} (safe : Arena.Safe result)
    {value : α} {b : Arena} (ok : result = .ok (value, b)) :
    ∃ linked, ofSafe result safe = (value, ⟨b, linked⟩) := by
  subst ok
  obtain ⟨_, _, same, linked⟩ := safe
  cases same
  exact ⟨linked, rfl⟩

/-! ### Slots that are used and slots that are not -/

/-- What the operations do at a slot whose entry stands between `before` and `after`. -/
structure Used (s : Store) (before : List (Slot × Instruction)) (slot : Slot) (i : Instruction)
    (after : List (Slot × Instruction)) : Prop where
  get : s.get? slot = some i
  contains : s.contains slot
  next : s.next? slot = after.head?.map Prod.fst
  prev : s.prev? slot = before.getLast?.map Prod.fst
  since : s.entriesFrom slot = (slot, i) :: after
  position : s.position slot = before.length
  insertBefore : ∀ j, ∃ new t, s.insertBefore? j slot = some (new, t) ∧ new ∉ s.order ∧
    t.entries = before ++ (new, j) :: (slot, i) :: after
  take : ∃ t, s.take? slot = some (i, after.head?.map Prod.fst, t) ∧
    s.remove slot = (after.head?.map Prod.fst, t) ∧ t.entries = before ++ after
  modify : ∀ change, (s.modify slot change).entries = before ++ (slot, change i) :: after

/-- What the operations do with a slot that holds no instruction. -/
structure Unused (s : Store) (slot : Slot) : Prop where
  get : s.get? slot = none
  contains : ¬ s.contains slot
  next : s.next? slot = none
  prev : s.prev? slot = none
  since : s.entriesFrom slot = []
  position : s.position slot = s.entries.length
  insertBefore : ∀ i, s.insertBefore? i slot = none ∧
    s.arena.insertBefore i slot = .ok (none, s.arena)
  take : s.take? slot = none ∧ s.arena.take slot = .ok (none, s.arena)
  remove : s.remove slot = (none, s)
  modify : ∀ change, s.modify slot change = s

variable {before after : List (Slot × Instruction)} {i : Instruction}

theorem ordered_split (split : s.entries = before ++ (slot, i) :: after) :
    s.arena.Ordered (before.map Prod.fst ++ slot :: after.map Prod.fst) := by
  have := s.ordered_order
  rwa [order, split, List.map_append, List.map_cons] at this

theorem outside_of_split (split : s.entries = before ++ (slot, i) :: after) :
    slot ∉ (before ++ after).map Prod.fst := by
  rw [List.map_append]
  exact (List.nodup_cons.mp (List.perm_middle.nodup_iff.mp (ordered_split split).distinct)).1

theorem mem_of_split (split : s.entries = before ++ (slot, i) :: after)
    {entry : Slot × Instruction} (member : entry ∈ before ++ after) : entry ∈ s.entries := by
  rw [split]
  exact List.perm_middle.mem_iff.mpr (List.mem_cons_of_mem _ member)

theorem fst_mem_order {entry : Slot × Instruction} (member : entry ∈ s.entries) :
    entry.1 ∈ s.order :=
  List.mem_map_of_mem member

/-- A store that got one more slot between two parts of another is read so. -/
theorem entries_added (split : s.entries = before ++ after) {new : Slot}
    (ordered : t.arena.Ordered (before.map Prod.fst ++ new :: after.map Prod.fst))
    (got : ∀ other, t.get? other = if other = new then some i else s.get? other) :
    new ∉ s.order ∧ t.entries = before ++ (new, i) :: after := by
  have fresh : new ∉ s.order := by
    have := (List.nodup_cons.mp (List.perm_middle.nodup_iff.mp ordered.distinct)).1
    rwa [order, split, List.map_append]
  refine ⟨fresh, entries_of_ordered (by simpa using ordered) fun entry member => ?_⟩
  obtain rfl | old := List.mem_cons.mp (List.perm_middle.mem_iff.mp member)
  · rw [got, if_pos rfl]
  · rw [← split] at old
    rw [got, if_neg (ne_of_mem_of_not_mem (fst_mem_order old) fresh), get?_of_mem old]

theorem used_insertBefore (split : s.entries = before ++ (slot, i) :: after) (j : Instruction) :
    ∃ new t, s.insertBefore? j slot = some (new, t) ∧ new ∉ s.order ∧
      t.entries = before ++ (new, j) :: (slot, i) :: after := by
  obtain ⟨new, b, inserted, ordered, got⟩ := (ordered_split split).insertBefore j
  obtain ⟨linked, result⟩ := ofSafe_of_ok (s.linked.insertBefore j slot) inserted
  refine ⟨new, ⟨b, linked⟩, by rw [insertBefore?, result], ?_⟩
  exact entries_added split ordered got

theorem used_take (split : s.entries = before ++ (slot, i) :: after) :
    ∃ t, s.take? slot = some (i, after.head?.map Prod.fst, t) ∧
      s.remove slot = (after.head?.map Prod.fst, t) ∧ t.entries = before ++ after := by
  obtain ⟨j, b, held, taken, ordered, got⟩ := (ordered_split split).take
  obtain rfl : i = j := by
    have member : (slot, i) ∈ s.entries := by simp [split]
    exact Option.some.inj ((get?_of_mem member).symm.trans held)
  rw [List.head?_map] at taken
  obtain ⟨linked, result⟩ := ofSafe_of_ok (s.linked.take slot) taken
  have removed : s.arena.remove slot = .ok (after.head?.map Prod.fst, b) := by
    rw [Arena.remove, taken]
    rfl
  obtain ⟨_, result'⟩ := ofSafe_of_ok (s.linked.remove slot) removed
  refine ⟨⟨b, linked⟩, by rw [take?, result], result', ?_⟩
  refine entries_of_ordered (by simpa using ordered) fun entry member => ?_
  have differs : entry.1 ≠ slot :=
    ne_of_mem_of_not_mem (List.mem_map_of_mem member) (outside_of_split split)
  rw [show get? _ entry.1 = b.get? entry.1 from rfl, got, if_neg differs]
  exact get?_of_mem (mem_of_split split member)

theorem used_modify (split : s.entries = before ++ (slot, i) :: after)
    (change : Instruction → Instruction) :
    (s.modify slot change).entries = before ++ (slot, change i) :: after := by
  have ordered := (ordered_split split).modify slot change
  refine entries_of_ordered (by simpa [modify] using ordered) fun entry member => ?_
  refine (Arena.get?_modify _ _ _ _).trans ?_
  obtain rfl | old := List.mem_cons.mp (List.perm_middle.mem_iff.mp member)
  · have held : s.arena.get? slot = some i :=
      get?_of_mem (show (slot, i) ∈ s.entries by simp [split])
    rw [if_pos rfl, held, Option.map_some]
  · rw [if_neg (ne_of_mem_of_not_mem (List.mem_map_of_mem old) (outside_of_split split))]
    exact get?_of_mem (mem_of_split split old)

theorem used_position (split : s.entries = before ++ (slot, i) :: after) :
    s.position slot = before.length := by
  have outside := outside_of_split split
  rw [position, split, List.takeWhile_append_of_pos, List.takeWhile_cons_of_neg, List.append_nil]
  · simp
  · intro entry member
    have : entry.1 ∈ (before ++ after).map Prod.fst :=
      List.mem_map_of_mem (List.mem_append_left _ member)
    simpa using ne_of_mem_of_not_mem this outside

theorem used_of_split (split : s.entries = before ++ (slot, i) :: after) :
    s.Used before slot i after := by
  have held : s.get? slot = some i := get?_of_mem (show (slot, i) ∈ s.entries by simp [split])
  have ordered := ordered_split split
  refine ⟨held, by rw [contains, held]; rfl, ?_, ?_, ?_, used_position split,
    used_insertBefore split, used_take split, used_modify split⟩
  · rw [next?, ordered.next?_eq, List.head?_map]
  · rw [prev?, ordered.prev?_eq, List.getLast?_map]
  · have read : (((slot, i) :: after).map Prod.fst).filterMap s.arena.pair? = (slot, i) :: after :=
      filterMap_pair? fun entry member =>
        get?_of_mem (by rw [split]; exact List.mem_append_right _ member)
    exact ordered.entriesFrom.trans read

theorem unused_of_not_mem (outside : slot ∉ s.order) : s.Unused slot := by
  have absent : s.arena.get? slot = none := by
    rwa [mem_order_iff, Option.not_isSome_iff_eq_none] at outside
  have empty : s.arena.node? slot = none := Option.map_eq_none_iff.mp absent
  have taken := Arena.take_of_absent absent
  have removed : s.arena.remove slot = .ok (none, s.arena) := by
    rw [Arena.remove, taken]
    rfl
  refine ⟨absent, by simp [contains, get?, absent], by simp [next?, Arena.next?, empty],
    by simp [prev?, Arena.prev?, empty], ?_, ?_, fun i => ?_, ?_, ?_, fun change => ?_⟩
  · rw [entriesFrom, Arena.entriesFrom]
    cases s.arena.nodes.size <;> simp [Arena.walk, empty]
  · rw [position, List.takeWhile_eq_self_iff.mpr]
    intro entry member
    simpa using ne_of_mem_of_not_mem (fst_mem_order member) outside
  · have inserted := Arena.insertBefore_of_absent absent i
    obtain ⟨_, result⟩ := ofSafe_of_ok (s.linked.insertBefore i slot) inserted
    exact ⟨by rw [insertBefore?, result], inserted⟩
  · obtain ⟨_, result⟩ := ofSafe_of_ok (s.linked.take slot) taken
    exact ⟨by rw [take?, result], taken⟩
  · obtain ⟨_, result⟩ := ofSafe_of_ok (s.linked.remove slot) removed
    exact result
  · have same := Arena.modify_of_absent absent change
    rw [modify]
    congr

/-- Changing the instruction in a slot changes the entry that has the slot, if there is one. -/
theorem entries_modify (s : Store) (slot : Slot) (change : Instruction → Instruction) :
    (s.modify slot change).entries =
      s.entries.map fun entry => if entry.1 = slot then (entry.1, change entry.2) else entry := by
  have stays : ∀ list : List (Slot × Instruction), slot ∉ list.map Prod.fst →
      (list.map fun entry => if entry.1 = slot then (entry.1, change entry.2) else entry) =
        list := by
    intro list outside
    refine (List.map_congr_left fun entry member => ?_).trans (List.map_id list)
    exact if_neg (ne_of_mem_of_not_mem (List.mem_map_of_mem member) outside)
  by_cases inside : slot ∈ s.order
  · obtain ⟨⟨_, i⟩, member, rfl⟩ := List.mem_map.mp inside
    obtain ⟨before, after, split⟩ := List.append_of_mem member
    have outside := outside_of_split split
    rw [List.map_append, List.mem_append, not_or] at outside
    rw [used_modify split, split, List.map_append, List.map_cons, stays _ outside.1,
      stays _ outside.2, if_pos rfl]
  · rw [(unused_of_not_mem inside).modify, stays _ inside]

theorem order_modify (s : Store) (slot : Slot) (change : Instruction → Instruction) :
    (s.modify slot change).order = s.order := by
  rw [order, entries_modify, List.map_map, order]
  refine List.map_congr_left fun entry _ => ?_
  rw [Function.comp_apply]
  split <;> rfl

/-! ### The store is a list -/

/-- The store answers and changes as the list of its entries does. -/
structure ActsAsList (s : Store) : Prop where
  distinct : s.order.Nodup
  first : s.first? = s.entries.head?.map Prod.fst
  last : s.last? = s.entries.getLast?.map Prod.fst
  size : s.size = s.entries.length
  append : ∀ i, (s.append i).1 ∉ s.order ∧
    (s.append i).2.entries = s.entries ++ [((s.append i).1, i)]
  used : ∀ before slot i after, s.entries = before ++ (slot, i) :: after →
    s.Used before slot i after
  unused : ∀ slot ∉ s.order, s.Unused slot

theorem entries_append (s : Store) (i : Instruction) :
    (s.append i).1 ∉ s.order ∧ (s.append i).2.entries = s.entries ++ [((s.append i).1, i)] := by
  obtain ⟨slot, b, appended, ordered, got⟩ := s.ordered_order.append i
  obtain ⟨linked, result⟩ := ofSafe_of_ok (s.linked.append i) appended
  rw [append, result]
  exact entries_added (List.append_nil _).symm ordered got

/-- Every store acts as the list of its entries. -/
theorem acts_as_list (s : Store) : s.ActsAsList where
  distinct := s.ordered_order.distinct
  first := by rw [first?, s.ordered_order.first, order, List.head?_map]
  last := by rw [last?, s.ordered_order.last, order, List.getLast?_map]
  size := by rw [size, s.ordered_order.size, order, List.length_map]
  append := s.entries_append
  used _ _ _ _ := used_of_split
  unused _ := unused_of_not_mem

theorem size_eq_length (s : Store) : s.size = s.code.length := by
  rw [s.acts_as_list.size, code, List.length_map]

theorem length_order (s : Store) : s.order.length = s.code.length := by
  rw [order, code, List.length_map, List.length_map]

end ThreeAddress.Store
