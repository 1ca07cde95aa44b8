/-
How the blocks of a control-flow graph lie in the program. Adding edges leaves
the blocks where they were placed, so what holds of the cut program holds of the
graph: the blocks, in the order of their numbers, are the program cut into
pieces, and there is a cut only before a label and behind a terminator.

In a store a block is found by walking on from the slot of its first
instruction. The graph of a stored program has the slots of the positions that the
graph of the program as a list has. So the walk gives the part of the order of
slots where the block stands, the slots that the pass noted are its ends, and the
slots of all blocks, one block after the other, are all slots.
-/
import ThreeAddress.Proofs.Blocks
import ThreeAddress.Proofs.JumpTargets
import ThreeAddress.Proofs.StoreEntries
import Mathlib.Data.List.Chain

namespace ThreeAddress

/-! ### Parts of lists -/

/-- The part of a list that stands where a block stands in the program. -/
def Block.slice {α : Type} (b : Block) (list : List α) : List α :=
  (list.drop b.first).take b.size

/-- Whether a part of a list agrees with the place of a block in the whole. -/
structure Block.Fits {α : Type} (b : Block) (part whole : List α) : Prop where
  size : part.length = b.size
  first : part.head? = whole[b.first]?
  last : part.getLast? = whole[b.last]?

theorem Block.slice_of_split {α : Type} {b : Block} {before part after : List α}
    (first : b.first = before.length) (size : b.size = part.length) :
    b.slice (before ++ (part ++ after)) = part := by
  rw [slice, first, size, List.drop_left, List.take_left]

theorem Block.fits_slice {α : Type} {b : Block} {list : List α} (nonempty : 0 < b.size)
    (last : b.last = b.first + b.size - 1) (inside : b.first + b.size ≤ list.length) :
    b.Fits (b.slice list) list := by
  have size : (b.slice list).length = b.size := by
    rw [slice, List.length_take, List.length_drop]
    omega
  refine ⟨size, ?_, ?_⟩
  · rw [slice, List.head?_take, if_neg (Nat.ne_of_gt nonempty), List.head?_drop]
  · rw [List.getLast?_eq_getElem?, size, slice, List.getElem?_take_of_lt (by omega),
      List.getElem?_drop, last]
    congr 1
    omega

/-- If a function gives something everywhere in a list, nothing of the list is left out. -/
theorem map_some_filterMap {α β : Type} {f : α → Option β} {list : List α}
    (total : ∀ a ∈ list, (f a).isSome) : (list.filterMap f).map some = list.map f := by
  induction list with
  | nil => rfl
  | cons a rest inductionHypothesis =>
    rw [List.forall_mem_cons] at total
    obtain ⟨value, found⟩ := Option.isSome_iff_exists.mp total.1
    rw [List.filterMap_cons_some found, List.map_cons, inductionHypothesis total.2, List.map_cons,
      found]

/-! ### Where blocks are placed -/

theorem getElem?_placeBlocks (start id : Nat) (blocks : List (List Instruction)) :
    (placeBlocks start blocks)[id]? = blocks[id]?.map fun block =>
      { first := start + (blocks.take id).flatten.length
        last := start + (blocks.take id).flatten.length + block.length - 1
        size := block.length } := by
  induction blocks generalizing start id with
  | nil => rfl
  | cons block rest inductionHypothesis =>
    cases id with
    | zero => rfl
    | succ id =>
      rw [placeBlocks, List.getElem?_cons_succ, inductionHypothesis, List.getElem?_cons_succ,
        List.take_succ_cons, List.flatten_cons, List.length_append, Nat.add_assoc]

/-- The parts of a list at the places of blocks, one after the other, are the list. -/
theorem flatMap_slice {α : Type} {start : Nat} {blocks : List (List Instruction)} {list : List α}
    (length : list.length = start + blocks.flatten.length) :
    (placeBlocks start blocks).flatMap (·.slice list) = list.drop start := by
  induction blocks generalizing start with
  | nil => exact (List.drop_eq_nil_of_le (Nat.le_of_eq length)).symm
  | cons block rest inductionHypothesis =>
    rw [List.flatten_cons, List.length_append, ← Nat.add_assoc] at length
    rw [placeBlocks, List.flatMap_cons, inductionHypothesis length, Block.slice, ← List.drop_drop,
      List.take_append_drop]

section Cut

variable {code block : List Instruction} {before after : List (List Instruction)}

/-- A program, seen around one of its blocks. -/
theorem eq_of_cut (cut : cutBlocks code = before ++ block :: after) :
    code = before.flatten ++ (block ++ after.flatten) := by
  rw [← flatten_cutBlocks code, cut, List.flatten_append, List.flatten_cons]

theorem getElem?_of_cut (cut : cutBlocks code = before ++ block :: after) (offset : Nat) :
    code[before.flatten.length + offset]? = (block ++ after.flatten)[offset]? := by
  rw [eq_of_cut cut, List.getElem?_append_right (Nat.le_add_right _ _), Nat.add_sub_cancel_left]

theorem straight_of_cut (cut : cutBlocks code = before ++ block :: after) : Straight block :=
  straight_of_mem_cutBlocks (by rw [cut]; exact List.mem_append_right _ List.mem_cons_self)

end Cut

/-- There is a cut only before a label and behind a terminator. -/
theorem isChain_cutBlocks (code : List Instruction) :
    (cutBlocks code).IsChain fun block next =>
      startsWithLabel next ∨ ∃ i, block.getLast? = some i ∧ i.opcode.isTerminator := by
  induction code with
  | nil => exact List.IsChain.nil
  | cons i rest inductionHypothesis =>
    unfold cutBlocks
    split
    · exact List.IsChain.singleton _
    · next block others cut =>
      rw [cut] at inductionHypothesis
      split
      · next divided =>
        refine List.IsChain.cons_cons ?_ inductionHypothesis
        rw [Bool.or_eq_true] at divided
        exact divided.symm.imp_right fun terminator => ⟨i, rfl, terminator⟩
      · -- the longer block ends as before
        have nonempty : block ≠ [] :=
          (straight_of_mem_cutBlocks (by rw [cut]; exact List.mem_cons_self)).nonempty
        obtain ⟨first, behind, rfl⟩ := List.exists_cons_of_ne_nil nonempty
        cases others with
        | nil => exact List.IsChain.singleton _
        | cons next others =>
          obtain ⟨between, later⟩ := List.isChain_cons_cons.mp inductionHypothesis
          refine List.IsChain.cons_cons ?_ later
          rwa [List.getLast?_cons_cons]

namespace Flow

variable {code : List Instruction} {flow : Flow} {id : Nat} {b : Block}

/-- The blocks in the order of their numbers. -/
def blocks (flow : Flow) : List Block :=
  flow.graph.ids.filterMap flow.block?

/-- A block is one of the pieces of the program, at its place. -/
theorem exists_split_of_block (built : build code = .ok flow) (found : flow.block? id = some b) :
    ∃ before block after, cutBlocks code = before ++ block :: after ∧ before.length = id ∧
      b.first = before.flatten.length ∧ b.size = block.length ∧
      b.last = b.first + b.size - 1 := by
  have same := (laid_of_build built).place id
  rw [show flow.graph.get? id = some b from found, getElem?_placeBlocks] at same
  obtain ⟨place, placed, equal⟩ := Option.map_eq_some_iff.mp same.symm
  obtain ⟨block, cut, rfl⟩ := Option.map_eq_some_iff.mp placed
  obtain ⟨first, ends⟩ := Prod.mk.inj equal
  obtain ⟨last, size⟩ := Prod.mk.inj ends
  obtain ⟨bound, here⟩ := List.getElem?_eq_some_iff.mp cut
  refine ⟨(cutBlocks code).take id, block, (cutBlocks code).drop (id + 1), ?_, ?_, ?_,
    size.symm, ?_⟩
  · rw [← here, ← List.drop_eq_getElem_cons bound, List.take_append_drop]
  · exact List.length_take_of_le (Nat.le_of_lt bound)
  · rw [← first, Nat.zero_add]
  · rw [← first, ← last, ← size]

theorem contains_iff_of_build (built : build code = .ok flow) :
    flow.graph.contains id ↔ id < (cutBlocks code).length := by
  have same := congrArg Option.isSome ((laid_of_build built).place id)
  rw [Option.isSome_map, Option.isSome_map, Graph.get?, Option.isSome_map, getElem?_placeBlocks,
    Option.isSome_map] at same
  rw [Graph.contains, same, isSome_getElem?]

theorem ids_of_build (built : build code = .ok flow) :
    flow.graph.ids = List.range (cutBlocks code).length := by
  have same : flow.graph.ids.Perm (List.range (cutBlocks code).length) := by
    refine (List.perm_ext_iff_of_nodup flow.graph.nodup_ids List.nodup_range).mpr fun id => ?_
    rw [Graph.mem_ids, contains_iff_of_build built, List.mem_range]
  refine same.eq_of_pairwise (fun a c _ _ less more => ?_) flow.graph.pairwise_ids
    List.pairwise_lt_range
  exact absurd (less.trans more) (Nat.lt_irrefl a)

theorem size_of_build (built : build code = .ok flow) : flow.size = (cutBlocks code).length := by
  rw [size, Graph.size, ids_of_build built, List.length_range]

theorem isSome_block?_of_build (built : build code = .ok flow) :
    (flow.block? id).isSome ↔ id < (cutBlocks code).length := by
  rw [← contains_iff_of_build built, block?, Graph.get?, Option.isSome_map, Graph.contains]

/-- The list of blocks has each block at its number. -/
theorem getElem?_blocks (built : build code = .ok flow) (id : Nat) :
    flow.blocks[id]? = flow.block? id := by
  have total : ∀ id ∈ List.range (cutBlocks code).length, (flow.block? id).isSome :=
    fun id inside => (isSome_block?_of_build built).mpr (List.mem_range.mp inside)
  have same : flow.blocks.map some = (List.range (cutBlocks code).length).map flow.block? := by
    rw [blocks, ids_of_build built, map_some_filterMap total]
  have here := congrArg (·[id]?) same
  rw [List.getElem?_map, List.getElem?_map] at here
  by_cases inside : id < (cutBlocks code).length
  · obtain ⟨b, found⟩ := Option.isSome_iff_exists.mp ((isSome_block?_of_build built).mpr inside)
    rw [List.getElem?_range inside, Option.map_some, found] at here
    rw [found]
    obtain ⟨c, listed, equal⟩ := Option.map_eq_some_iff.mp here
    rw [listed, equal]
  · have none : flow.block? id = none := by
      rwa [← isSome_block?_of_build built, Option.not_isSome_iff_eq_none] at inside
    have beyond : (List.range (cutBlocks code).length)[id]? = Option.none := by
      rwa [List.getElem?_eq_none_iff, List.length_range, ← Nat.not_lt]
    rw [beyond, Option.map_none] at here
    rw [none, Option.map_eq_none_iff.mp here]

/-- The parts of a list at the blocks, one after the other, are the list. -/
theorem flatMap_blocks {α : Type} (built : build code = .ok flow) {list : List α}
    (length : list.length = code.length) : flow.blocks.flatMap (·.slice list) = list := by
  have places : flow.blocks.map Block.place = (placeBlocks 0 (cutBlocks code)).map Block.place := by
    refine List.ext_getElem? fun id => ?_
    rw [List.getElem?_map, List.getElem?_map, getElem?_blocks built]
    exact (laid_of_build built).place id
  have slices : ∀ blocks : List Block, blocks.flatMap (·.slice list) =
      (blocks.map Block.place).flatMap fun place => (list.drop place.1).take place.2.2 := by
    intro blocks
    rw [List.flatMap_map]
    rfl
  rw [slices, places, ← slices, flatMap_slice, List.drop_zero]
  rw [flatten_cutBlocks, length, Nat.zero_add]

/-- A block is what its place in the program says. -/
theorem instructions_of_split {before after : List (List Instruction)} {block : List Instruction}
    (cut : cutBlocks code = before ++ block :: after) (first : b.first = before.flatten.length)
    (size : b.size = block.length) : b.instructions code = block := by
  rw [eq_of_cut cut]
  exact Block.slice_of_split first size

theorem straight_of_block (built : build code = .ok flow) (found : flow.block? id = some b) :
    Straight (b.instructions code) := by
  obtain ⟨before, block, after, cut, -, first, size, -⟩ := exists_split_of_block built found
  rw [instructions_of_split cut first size]
  exact straight_of_cut cut

/-- A block has its place inside the program. -/
theorem inside_of_block (built : build code = .ok flow) (found : flow.block? id = some b) :
    0 < b.size ∧ b.first + b.size ≤ code.length ∧ b.last = b.first + b.size - 1 := by
  obtain ⟨before, block, after, cut, -, first, size, last⟩ := exists_split_of_block built found
  refine ⟨?_, ?_, last⟩
  · rw [size]
    exact List.length_pos_of_ne_nil (straight_of_cut cut).nonempty
  · rw [eq_of_cut cut, List.length_append, List.length_append]
    omega

theorem fits_of_block {α : Type} (built : build code = .ok flow) (found : flow.block? id = some b)
    {list : List α} (length : list.length = code.length) : b.Fits (b.slice list) list := by
  obtain ⟨filled, inside, last⟩ := inside_of_block built found
  exact Block.fits_slice filled last (length ▸ inside)

/-- Behind the first block, a block starts with a label or behind a terminator. -/
theorem divided_of_block (built : build code = .ok flow) (found : flow.block? (id + 1) = some b) :
    startsWithLabel (b.instructions code) ∨
      0 < b.first ∧ ∃ i, code[b.first - 1]? = some i ∧ i.opcode.isTerminator := by
  obtain ⟨before, block, after, cut, number, first, size, -⟩ := exists_split_of_block built found
  rw [instructions_of_split cut first size]
  have more : before ≠ [] := fun none => absurd number (by simp [none])
  obtain ⟨others, previous, rfl⟩ := (List.eq_nil_or_concat' before).resolve_left more
  rw [List.append_assoc, List.singleton_append] at cut
  have divided := List.isChain_iff_forall_rel_of_append_cons_cons.mp (isChain_cutBlocks code) cut
  refine divided.imp_right ?_
  rintro ⟨i, last, terminator⟩
  have filled : 0 < previous.length := List.length_pos_of_mem (List.mem_of_getLast? last)
  rw [List.flatten_append, List.flatten_singleton, List.length_append] at first
  refine ⟨by omega, i, ?_, terminator⟩
  have behind : b.first - 1 = others.flatten.length + (previous.length - 1) := by omega
  rw [behind, getElem?_of_cut cut, List.getElem?_append_left (by omega),
    ← List.getLast?_eq_getElem?, last]

/-! ### Stored programs -/

/-- The graph of a stored program is that of the program, with the slots at the positions. -/
theorem ofStore_eq (s : Store) : ofStore s = (build s.code).map (move (slotAt s.entries)) := by
  rw [ofStore, assemble_eq fun entry => Store.get?_of_mem, build_eq]
  rfl

theorem exists_build_of_ofStore {s : Store} (built : ofStore s = .ok flow) :
    ∃ listed, build s.code = .ok listed ∧ flow = listed.move (slotAt s.entries) := by
  rw [ofStore_eq] at built
  cases listed : build s.code with
  | error cause =>
    rw [listed] at built
    cases built
  | ok plain =>
    rw [listed] at built
    exact ⟨plain, rfl, (Except.ok.inj built).symm⟩

theorem block?_move (f : Slot → Slot) (flow : Flow) (id : Nat) :
    (flow.move f).block? id = (flow.block? id).map (Block.move f) :=
  flow.graph.get?_map (Block.move f) id

theorem ids_move (f : Slot → Slot) (flow : Flow) : (flow.move f).graph.ids = flow.graph.ids :=
  flow.graph.ids_map (Block.move f)

theorem blocks_move (f : Slot → Slot) (flow : Flow) :
    (flow.move f).blocks = flow.blocks.map (Block.move f) := by
  rw [blocks, ids_move, funext (block?_move f flow), blocks, List.map_filterMap]

/-- The entries of a store around a position. -/
theorem split_of_lt {s : Store} {position : Nat} (inside : position < s.entries.length) :
    s.entries = s.entries.take position ++
      (s.entries[position].1, s.entries[position].2) :: s.entries.drop (position + 1) := by
  rw [← List.drop_eq_getElem_cons inside, List.take_append_drop]

theorem slotAt_of_lt {s : Store} {position : Nat} (inside : position < s.entries.length) :
    slotAt s.entries position = s.entries[position].1 := by
  rw [slotAt, List.getElem?_eq_getElem inside]
  rfl

/-- Walking on from the first slot of a block gives the part of the order where it stands. -/
theorem slots_move {s : Store} (inside : b.first < s.entries.length) :
    (b.move (slotAt s.entries)).slots s = b.slice s.order := by
  have since := (Store.used_of_split (split_of_lt inside)).since
  rw [← List.drop_eq_getElem_cons inside] at since
  have first : (b.move (slotAt s.entries)).first = s.entries[b.first].1 := slotAt_of_lt inside
  rw [Block.slots, first, since, Block.slice, Store.order, ← List.map_drop, ← List.map_take]
  rfl

theorem filterMap_slice (b : Block) (s : Store) :
    (b.slice s.order).filterMap s.get? = b.instructions s.code := by
  have read : ∀ entries : List (Slot × Instruction), (∀ entry ∈ entries, entry ∈ s.entries) →
      (entries.map Prod.fst).filterMap s.get? = entries.map Prod.snd := by
    intro entries members
    rw [List.filterMap_map, ← List.filterMap_eq_map]
    exact List.filterMap_congr fun entry member => Store.get?_of_mem (members entry member)
  rw [Block.slice, Block.instructions, Store.order, Store.code, ← List.map_drop, ← List.map_take,
    ← List.map_drop, ← List.map_take]
  exact read _ fun entry member => List.mem_of_mem_drop (List.mem_of_mem_take member)

/-- Whether the blocks of a graph are a stored program, cut where it has to be. -/
structure Partitions (flow : Flow) (s : Store) : Prop where
  numbers : flow.graph.ids = List.range flow.size
  /-- The list of blocks has each block at its number. -/
  listed : ∀ id, flow.blocks[id]? = flow.block? id
  /-- The slots of the blocks, one after the other, are those of the program. -/
  joined : flow.blocks.flatMap (·.slots s) = s.order
  /-- What a block says of its size and its ends is right. -/
  fits : ∀ b ∈ flow.blocks, (b.slots s).length = b.size ∧
    (b.slots s).head? = some b.first ∧ (b.slots s).getLast? = some b.last
  /-- A block is not empty, only its first instruction can be a label and only its last one can be
  a terminator. -/
  straight : ∀ b ∈ flow.blocks, Straight ((b.slots s).filterMap s.get?)
  /-- Behind the first block, a block starts with a label or directly behind a terminator. -/
  maximal : ∀ id b, flow.block? (id + 1) = some b →
    startsWithLabel ((b.slots s).filterMap s.get?) ∨
      ∃ slot i, s.prev? b.first = some slot ∧ s.get? slot = some i ∧ i.opcode.isTerminator

/-- The blocks of a control-flow graph partition the stored program that it is built from. -/
theorem blocks_partition_program {s : Store} (built : ofStore s = .ok flow) :
    flow.Partitions s := by
  obtain ⟨plain, listed, rfl⟩ := exists_build_of_ofStore built
  have length := s.length_order
  have entries : s.entries.length = s.code.length := by rw [Store.code, List.length_map]
  have slot : ∀ {position}, position < s.entries.length →
      s.order[position]? = some (slotAt s.entries position) := fun inside => by
    rw [Store.order, List.getElem?_map, List.getElem?_eq_getElem inside, slotAt_of_lt inside]
    rfl
  have found : ∀ {b}, b ∈ plain.blocks → ∃ id, plain.block? id = some b := fun member => by
    obtain ⟨id, -, found⟩ := List.mem_filterMap.mp member
    exact ⟨id, found⟩
  have slots : ∀ {b}, b ∈ plain.blocks → (b.move (slotAt s.entries)).slots s = b.slice s.order :=
    fun member => by
      obtain ⟨id, here⟩ := found member
      obtain ⟨filled, inside, -⟩ := inside_of_block listed here
      exact slots_move (by omega)
  refine ⟨?_, fun id => ?_, ?_, fun b member => ?_, fun b member => ?_, fun id b here => ?_⟩
  · rw [size, Graph.size, ids_move, ids_of_build listed, List.length_range]
  · rw [blocks_move, List.getElem?_map, getElem?_blocks listed, block?_move]
  · rw [blocks_move, List.flatMap_map]
    exact (List.flatMap_congr fun b member => slots member).trans (flatMap_blocks listed length)
  · rw [blocks_move] at member
    obtain ⟨b, plainly, rfl⟩ := List.mem_map.mp member
    obtain ⟨id, here⟩ := found plainly
    obtain ⟨filled, inside, last⟩ := inside_of_block listed here
    obtain ⟨sameSize, sameFirst, sameLast⟩ := fits_of_block listed here length
    rw [slots plainly, sameSize, sameFirst, sameLast, slot (by omega), slot (by omega)]
    exact ⟨rfl, rfl, rfl⟩
  · rw [blocks_move] at member
    obtain ⟨b, plainly, rfl⟩ := List.mem_map.mp member
    obtain ⟨id, here⟩ := found plainly
    rw [slots plainly, filterMap_slice]
    exact straight_of_block listed here
  · rw [block?_move] at here
    obtain ⟨b, plainly, rfl⟩ := Option.map_eq_some_iff.mp here
    obtain ⟨filled, inside, -⟩ := inside_of_block listed plainly
    have atFirst : b.first < s.entries.length := by omega
    rw [slots_move atFirst, filterMap_slice]
    refine (divided_of_block listed plainly).imp_right ?_
    rintro ⟨behind, i, previous, terminator⟩
    -- the instruction before the block stands in the slot before its first one
    rw [Store.code, List.getElem?_map] at previous
    obtain ⟨entry, atEntry, rfl⟩ := Option.map_eq_some_iff.mp previous
    have before := (Store.used_of_split (split_of_lt atFirst)).prev
    rw [List.getLast?_eq_getElem?, List.length_take_of_le (Nat.le_of_lt atFirst),
      List.getElem?_take_of_lt (by omega), atEntry] at before
    refine ⟨entry.1, entry.2, ?_, Store.get?_of_mem (List.mem_of_getElem? atEntry), terminator⟩
    show s.prev? (slotAt s.entries b.first) = _
    rw [slotAt_of_lt atFirst, before]
    rfl

/-- A call that is jumped over, behind which the called function stands. The slot of an instruction
that was removed holds the last one. -/
def guardedCall : Store :=
  let spaced := Store.ofCode
    [{ opcode := .createframe, operands := [] },
     { opcode := .label, operands := [.label "main"] },
     { opcode := .jumpifeqs, operands := [.label "skip"] },
     { opcode := .call, operands := [.label "f"] },
     { opcode := .label, operands := [.label "skip"] },
     { opcode := .ret, operands := [] },
     { opcode := .label, operands := [.label "f"] },
     { opcode := .write, operands := [.const (.int 1)] }]
  ((spaced.remove 0).2.append { opcode := .ret, operands := [] }).2

/-- The cuts of `guardedCall` are before labels, behind terminators and, twice, both. -/
theorem blocks_partition_program_guardedCall :
    ∃ flow, ofStore guardedCall = .ok flow ∧
      flow.blocks.map Block.place = [(1, 2, 2), (3, 3, 1), (4, 5, 2), (6, 0, 3)] ∧
      flow.Partitions guardedCall :=
  ⟨_, rfl, rfl, blocks_partition_program rfl⟩

end Flow

end ThreeAddress
