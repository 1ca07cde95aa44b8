/-
What the pass through a program cuts it into. Seen from behind, an instruction
stands alone if it is a terminator or a label follows it, and otherwise at the head
of the block that follows: `cutBlocks`. The pass goes the other way and keeps no
more of a block than its ends and its size, so the two are compared for every part
of the program that was gone through: the pending blocks are the ends and sizes of
the blocks of that part, and the last one is open unless a terminator closed it. One
more instruction does the same to both.

From the pending blocks the graph is built as from the blocks themselves, and all
that slots make of it is what the blocks say of their ends.
-/
import ThreeAddress.Flow
import ThreeAddress.Proofs.Payloads
import Mathlib.Data.List.Basic

namespace ThreeAddress

/-! ### Cutting from behind -/

/-- Whether a run of instructions starts with a label definition. -/
def startsWithLabel : List Instruction → Bool
  | [] => false
  | i :: _ => i.opcode = .label

/-- Cuts a program before every label and after every terminator. -/
def cutBlocks : List Instruction → List (List Instruction)
  | [] => []
  | i :: rest =>
    match cutBlocks rest with
    | [] => [[i]]
    | block :: others =>
      if i.opcode.isTerminator || startsWithLabel block then [i] :: block :: others
      else (i :: block) :: others

/-- Puts an entry before the blocks that follow it. -/
def prepend (entry : Slot × Instruction) :
    List (List (Slot × Instruction)) → List (List (Slot × Instruction))
  | [] => [[entry]]
  | part :: others =>
    if entry.2.opcode.isTerminator || startsWithLabel (part.map Prod.snd) then
      [entry] :: part :: others
    else (entry :: part) :: others

/-- The blocks of a program with the slots of its instructions. -/
def cutEntries (entries : List (Slot × Instruction)) : List (List (Slot × Instruction)) :=
  entries.foldr prepend []

theorem cutEntries_cons (entry : Slot × Instruction) (rest : List (Slot × Instruction)) :
    cutEntries (entry :: rest) = prepend entry (cutEntries rest) :=
  rfl

theorem map_cutEntries (entries : List (Slot × Instruction)) :
    (cutEntries entries).map (List.map Prod.snd) = cutBlocks (entries.map Prod.snd) := by
  induction entries with
  | nil => rfl
  | cons entry rest inductionHypothesis =>
    rw [List.map_cons, cutBlocks, ← inductionHypothesis, cutEntries_cons]
    cases cutEntries rest with
    | nil => rfl
    | cons part others =>
      rw [List.map_cons, prepend]
      dsimp only
      split <;> rfl

theorem flatten_prepend (entry : Slot × Instruction) (parts : List (List (Slot × Instruction))) :
    (prepend entry parts).flatten = entry :: parts.flatten := by
  cases parts with
  | nil => rfl
  | cons part others =>
    rw [prepend]
    split <;> rfl

theorem flatten_cutEntries (entries : List (Slot × Instruction)) :
    (cutEntries entries).flatten = entries := by
  induction entries with
  | nil => rfl
  | cons entry rest inductionHypothesis =>
    rw [cutEntries_cons, flatten_prepend, inductionHypothesis]

theorem ne_nil_of_mem_prepend {entry : Slot × Instruction} {part : List (Slot × Instruction)}
    {parts : List (List (Slot × Instruction))} (filled : ∀ part ∈ parts, part ≠ [])
    (member : part ∈ prepend entry parts) : part ≠ [] := by
  cases parts with
  | nil => exact List.mem_singleton.mp member ▸ List.cons_ne_nil _ _
  | cons first others =>
    rw [prepend] at member
    split at member
    · rcases List.mem_cons.mp member with rfl | old
      · exact List.cons_ne_nil _ _
      · exact filled part old
    · rcases List.mem_cons.mp member with rfl | old
      · exact List.cons_ne_nil _ _
      · exact filled part (List.mem_cons_of_mem _ old)

theorem ne_nil_of_mem_cutEntries {entries part : List (Slot × Instruction)}
    (member : part ∈ cutEntries entries) : part ≠ [] := by
  induction entries generalizing part with
  | nil => exact absurd member List.not_mem_nil
  | cons entry rest inductionHypothesis =>
    exact ne_nil_of_mem_prepend (fun _ => inductionHypothesis) member

/-! ### One more instruction at the end -/

/-- Puts an entry at the end of the last part. -/
def extendLast (entry : Slot × Instruction) :
    List (List (Slot × Instruction)) → List (List (Slot × Instruction))
  | [] => [[entry]]
  | [part] => [part ++ [entry]]
  | part :: others => part :: extendLast entry others

theorem extendLast_concat (entry : Slot × Instruction) (parts : List (List (Slot × Instruction)))
    (part : List (Slot × Instruction)) :
    extendLast entry (parts ++ [part]) = parts ++ [part ++ [entry]] := by
  induction parts with
  | nil => rfl
  | cons first others inductionHypothesis =>
    rw [List.cons_append, List.cons_append, ← inductionHypothesis]
    cases others <;> rfl

/-- Whether the last entry leaves its block open. -/
def leavesOpen (entries : List (Slot × Instruction)) : Bool :=
  entries.getLast?.any fun entry => !entry.2.opcode.isTerminator

/-- What follows a part that is not empty does not change how it starts. -/
theorem prepend_extendLast (first entry : Slot × Instruction)
    {parts : List (List (Slot × Instruction))} (some : parts ≠ [])
    (filled : ∀ part ∈ parts, part ≠ []) :
    prepend first (extendLast entry parts) = extendLast entry (prepend first parts) := by
  obtain ⟨part, others, rfl⟩ := List.exists_cons_of_ne_nil some
  obtain ⟨head, tail, rfl⟩ := List.exists_cons_of_ne_nil (filled part List.mem_cons_self)
  cases others with
  | nil =>
    simp only [extendLast, prepend, List.cons_append, List.map_cons, startsWithLabel]
    split <;> rfl
  | cons next others =>
    simp only [extendLast, prepend, List.map_cons, startsWithLabel]
    split <;> rfl

theorem prepend_concat (first entry : Slot × Instruction)
    {parts : List (List (Slot × Instruction))} (some : parts ≠ []) :
    prepend first (parts ++ [[entry]]) = prepend first parts ++ [[entry]] := by
  obtain ⟨part, others, rfl⟩ := List.exists_cons_of_ne_nil some
  rw [List.cons_append, prepend, prepend]
  split <;> rfl

/-- An entry goes into the last block, if that is open and the entry is no label. -/
theorem cutEntries_concat (entries : List (Slot × Instruction)) (entry : Slot × Instruction) :
    cutEntries (entries ++ [entry]) =
      if leavesOpen entries && entry.2.opcode ≠ .label then extendLast entry (cutEntries entries)
      else cutEntries entries ++ [[entry]] := by
  induction entries with
  | nil => rfl
  | cons first rest inductionHypothesis =>
    rw [List.cons_append, cutEntries_cons, inductionHypothesis, cutEntries_cons]
    cases rest with
    | nil =>
      by_cases ends : first.2.opcode.isTerminator <;> by_cases label : entry.2.opcode = .label <;>
        simp [cutEntries, prepend, leavesOpen, extendLast, startsWithLabel, ends, label]
    | cons second rest =>
      have same : leavesOpen (first :: second :: rest) = leavesOpen (second :: rest) := by
        rw [leavesOpen, List.getLast?_cons_cons, leavesOpen]
      have some : cutEntries (second :: rest) ≠ [] := fun none => by
        have flat := flatten_cutEntries (second :: rest)
        rw [none] at flat
        exact List.cons_ne_nil _ _ flat.symm
      rw [same]
      split
      · exact prepend_extendLast first entry some fun _ => ne_nil_of_mem_cutEntries
      · exact prepend_concat first entry some

/-! ### Pending blocks -/

namespace Flow

/-- What the pass keeps of a block that starts at a position. -/
def pendingOf (start : Nat) (part : List (Slot × Instruction)) : Pending where
  first := (part.head?.map Prod.fst).getD 0
  last := (part.getLast?.map Prod.fst).getD 0
  size := part.length
  lastPosition := start + part.length - 1

/-- What the pass keeps of blocks that follow each other. -/
def pendings : Nat → List (List (Slot × Instruction)) → List Pending
  | _, [] => []
  | start, part :: others => pendingOf start part :: pendings (start + part.length) others

theorem pendings_concat (start : Nat) (parts : List (List (Slot × Instruction)))
    (part : List (Slot × Instruction)) :
    pendings start (parts ++ [part]) =
      pendings start parts ++ [pendingOf (start + parts.flatten.length) part] := by
  induction parts generalizing start with
  | nil => rfl
  | cons first others inductionHypothesis =>
    rw [List.cons_append, pendings, inductionHypothesis, pendings, List.flatten_cons,
      List.length_append, Nat.add_assoc, List.cons_append]

theorem length_pendings (start : Nat) (parts : List (List (Slot × Instruction))) :
    (pendings start parts).length = parts.length := by
  induction parts generalizing start with
  | nil => rfl
  | cons part others inductionHypothesis =>
    rw [pendings, List.length_cons, inductionHypothesis, List.length_cons]

/-- A longer block keeps its first slot. -/
theorem pendingOf_concat (start : Nat) {part : List (Slot × Instruction)} (filled : part ≠ [])
    (entry : Slot × Instruction) :
    pendingOf start (part ++ [entry]) =
      { pendingOf start part with
        last := entry.1, size := part.length + 1, lastPosition := start + part.length } := by
  obtain ⟨head, tail, rfl⟩ := List.exists_cons_of_ne_nil filled
  rw [pendingOf, List.getLast?_concat, List.length_append]
  rfl

/-- The labels defined by blocks, the first of which has the given number. -/
def blockLabels : Nat → List (List Instruction) → Table String Nat → Table String Nat
  | _, [], labels => labels
  | id, block :: rest, labels =>
    blockLabels (id + 1) rest <|
      match block.head?.bind Instruction.definedLabel? with
      | some label => labels.put label id
      | none => labels

theorem blockLabels_concat (id : Nat) (blocks : List (List Instruction)) (block : List Instruction)
    (labels : Table String Nat) :
    blockLabels id (blocks ++ [block]) labels =
      match block.head?.bind Instruction.definedLabel? with
      | some label => (blockLabels id blocks labels).put label (id + blocks.length)
      | none => blockLabels id blocks labels := by
  induction blocks generalizing id labels with
  | nil => rfl
  | cons first others inductionHypothesis =>
    rw [List.cons_append, blockLabels, inductionHypothesis, blockLabels, List.length_cons,
      Nat.add_assoc, Nat.add_comm 1]

/-! ### The pass -/

theorem opcode_of_definedLabel? {i : Instruction} {label : String}
    (defined : i.definedLabel? = some label) : i.opcode = .label := by
  unfold Instruction.definedLabel? at defined
  split at defined
  · next opcode => exact opcode
  · exact absurd defined (by simp)

/-- What holds when a part of the program was gone through. -/
structure Cut.Covers (cut : Cut) (entries : List (Slot × Instruction)) : Prop where
  blocks : cut.blocks = (pendings 0 (cutEntries entries)).reverse
  labels : cut.labels = blockLabels 0 (cutBlocks (entries.map Prod.snd)) {}
  isOpen : cut.isOpen = leavesOpen entries

theorem leavesOpen_concat (entries : List (Slot × Instruction)) (entry : Slot × Instruction) :
    leavesOpen (entries ++ [entry]) = !entry.2.opcode.isTerminator := by
  rw [leavesOpen, List.getLast?_concat, Option.any_some]

/-- A program whose last block is open has a last block. -/
theorem exists_last_of_leavesOpen {entries : List (Slot × Instruction)}
    (goesOn : leavesOpen entries) :
    ∃ parts part, cutEntries entries = parts ++ [part] ∧ part ≠ [] ∧
      parts.flatten.length + part.length = entries.length := by
  have flat := flatten_cutEntries entries
  rcases List.eq_nil_or_concat' (cutEntries entries) with none | ⟨parts, part, cut⟩
  · rw [none] at flat
    rw [← flat] at goesOn
    exact absurd goesOn (by decide)
  · refine ⟨parts, part, cut, ne_nil_of_mem_cutEntries (by rw [cut]; simp), ?_⟩
    rw [← flat, cut, List.flatten_append, List.length_append, List.flatten_singleton]

/-- The labels after one more instruction: those of the blocks, with a label that it defines
standing for the last block. -/
theorem blockLabels_cut (entries : List (Slot × Instruction)) (slot : Slot) (i : Instruction) :
    blockLabels 0 (cutBlocks ((entries ++ [(slot, i)]).map Prod.snd)) {} =
      match i.definedLabel? with
      | some label =>
        (blockLabels 0 (cutBlocks (entries.map Prod.snd)) {}).put label (cutEntries entries).length
      | none => blockLabels 0 (cutBlocks (entries.map Prod.snd)) {} := by
  rw [← map_cutEntries, ← map_cutEntries, cutEntries_concat]
  split
  · next joins =>
    rw [Bool.and_eq_true, decide_eq_true_iff] at joins
    have undefined : i.definedLabel? = none := if_neg joins.2
    obtain ⟨parts, part, cut, filled, -⟩ := exists_last_of_leavesOpen joins.1
    obtain ⟨head, tail, rfl⟩ := List.exists_cons_of_ne_nil filled
    rw [undefined, cut, extendLast_concat, List.map_append, List.map_append, List.map_singleton,
      List.map_singleton, blockLabels_concat, blockLabels_concat]
    rfl
  · rw [List.map_append, List.map_singleton, blockLabels_concat, List.length_map, Nat.zero_add]
    rfl

theorem Cut.place_true (cut : Cut) (position : Nat) (slot : Slot) :
    cut.place position slot true =
      { cut with
        blocks := { first := slot, last := slot, size := 1, lastPosition := position } :: cut.blocks
        isOpen := true } := by
  unfold Cut.place
  split
  · next same => exact absurd same (by decide)
  · rfl

theorem Cut.place_false {cut : Cut} {block : Pending} {others : List Pending}
    (blocks : cut.blocks = block :: others) (position : Nat) (slot : Slot) :
    cut.place position slot false =
      { cut with
        blocks :=
          { block with last := slot, size := block.size + 1, lastPosition := position } ::
            others } := by
  unfold Cut.place
  rw [blocks]

section Step

variable {cut : Cut} {entries : List (Slot × Instruction)}

/-- An instruction is put where it stands when the longer part of the program is cut. -/
theorem Cut.Covers.place (covers : cut.Covers entries) (slot : Slot) (i : Instruction) :
    cut.place entries.length slot (!cut.isOpen || i.opcode = .label) =
      { blocks := (pendings 0 (cutEntries (entries ++ [(slot, i)]))).reverse
        labels := cut.labels
        isOpen := true } := by
  rw [covers.isOpen, cutEntries_concat]
  by_cases joins : leavesOpen entries = true ∧ i.opcode ≠ .label
  · obtain ⟨parts, part, split, filled, length⟩ := exists_last_of_leavesOpen joins.1
    have blocks := covers.blocks
    rw [split, pendings_concat, List.reverse_concat] at blocks
    have goesOn : cut.isOpen = true := covers.isOpen.trans joins.1
    have position : 0 + parts.flatten.length + part.length = entries.length := by omega
    simp only [joins.1, joins.2, ne_eq, not_false_eq_true, decide_true, Bool.and_self, if_true,
      Bool.not_true, decide_false, Bool.or_self]
    rw [split, extendLast_concat, pendings_concat, List.reverse_concat, pendingOf_concat _ filled,
      position, Cut.place_false blocks, goesOn]
    rfl
  · have starts : (!leavesOpen entries || decide (i.opcode = .label)) = true := by
      cases goesOn : leavesOpen entries <;> simp_all
    have apart : ¬ (leavesOpen entries && decide (i.opcode ≠ .label)) = true := by
      rwa [Bool.and_eq_true, decide_eq_true_iff]
    rw [starts, Cut.place_true, if_neg apart, pendings_concat, List.reverse_concat, covers.blocks,
      flatten_cutEntries]
    simp [pendingOf]

/-- One step of the pass. -/
theorem Cut.Covers.add (covers : cut.Covers entries) (slot : Slot) (i : Instruction) :
    (cut.add entries.length slot i).Covers (entries ++ [(slot, i)]) := by
  have labels := blockLabels_cut entries slot i
  rw [← covers.labels] at labels
  have number : i.definedLabel?.isSome →
      (pendings 0 (cutEntries (entries ++ [(slot, i)]))).reverse.length - 1 =
        (cutEntries entries).length := by
    intro defines
    obtain ⟨label, defined⟩ := Option.isSome_iff_exists.mp defines
    have starts : ¬ (leavesOpen entries && decide (i.opcode ≠ .label)) = true := by
      simp [opcode_of_definedLabel? defined]
    rw [List.length_reverse, length_pendings, cutEntries_concat, if_neg starts,
      List.length_append, List.length_singleton, Nat.add_sub_cancel]
  have added : cut.add entries.length slot i =
      { blocks := (pendings 0 (cutEntries (entries ++ [(slot, i)]))).reverse
        labels := blockLabels 0 (cutBlocks ((entries ++ [(slot, i)]).map Prod.snd)) {}
        isOpen := !i.opcode.isTerminator } := by
    rw [Cut.add, covers.place slot i, labels]
    dsimp only
    cases defined : i.definedLabel? with
    | none => cases i.opcode.isTerminator <;> rfl
    | some label =>
      rw [defined] at number
      dsimp only
      rw [number rfl]
      cases i.opcode.isTerminator <;> rfl
  rw [added]
  exact ⟨rfl, rfl, (leavesOpen_concat entries (slot, i)).symm⟩

end Step

/-- The whole pass. -/
theorem Cut.Covers.addAll {cut : Cut} {entries : List (Slot × Instruction)}
    (covers : cut.Covers entries) (rest : List (Slot × Instruction)) :
    (Cut.addAll entries.length rest cut).Covers (entries ++ rest) := by
  induction rest generalizing cut entries with
  | nil =>
    rw [List.append_nil]
    exact covers
  | cons entry rest inductionHypothesis =>
    have next := inductionHypothesis (covers.add entry.1 entry.2)
    rwa [List.append_assoc, List.length_append] at next

/-! ### Building from the blocks -/

/-- Adds the edges of blocks, the first of which has the given number and position. -/
def connectBlocks (count : Nat) (labels : Table String Nat) :
    Nat → Nat → List (List Instruction) → Graph Block → Except Inconsistency (Graph Block)
  | _, _, [], graph => .ok graph
  | id, first, block :: rest, graph => do
    let next := first + block.length
    match block.getLast? with
    | none => connectBlocks count labels (id + 1) next rest graph
    | some i =>
      let target ← resolve labels (next - 1) i
      connectBlocks count labels (id + 1) next rest (connectBlock count id i target graph)

/-- The pending blocks are connected as the blocks are, if the slots lead to the instructions. -/
theorem connectPending_pendings {get? : Slot → Option Instruction}
    {parts : List (List (Slot × Instruction))} (filled : ∀ part ∈ parts, part ≠ [])
    (reads : ∀ part ∈ parts, ∀ entry ∈ part, get? entry.1 = some entry.2) (count : Nat)
    (labels : Table String Nat) (id start : Nat) (graph : Graph Block) :
    connectPending get? count labels id (pendings start parts) graph =
      connectBlocks count labels id start (parts.map (List.map Prod.snd)) graph := by
  induction parts generalizing id start graph with
  | nil => rfl
  | cons part others inductionHypothesis =>
    rw [List.forall_mem_cons] at filled reads
    obtain ⟨before, entry, rfl⟩ := (List.eq_nil_or_concat' part).resolve_left filled.1
    have read : get? (pendingOf start (before ++ [entry])).last = some entry.2 := by
      rw [pendingOf, List.getLast?_concat]
      exact reads.1 entry (List.mem_append_right _ List.mem_cons_self)
    have last : ((before ++ [entry]).map Prod.snd).getLast? = some entry.2 := by
      rw [List.getLast?_map, List.getLast?_concat, Option.map_some]
    rw [pendings, connectPending, read, List.map_cons, connectBlocks, last, List.length_map]
    dsimp only
    exact bind_congr fun target => inductionHypothesis filled.2 reads.2 _ _ _

end Flow

/-- A block with other slots for its ends. -/
def Block.move (f : Slot → Slot) (b : Block) : Block :=
  { b with first := f b.first, last := f b.last }

/-- The blocks with their places, the first of which starts at the given position. -/
def placeBlocks : Nat → List (List Instruction) → List Block
  | _, [] => []
  | first, block :: rest =>
    { first, last := first + block.length - 1, size := block.length } ::
      placeBlocks (first + block.length) rest

namespace Flow

/-- The slot at a position; behind the end, the position itself. -/
def slotAt (entries : List (Slot × Instruction)) (position : Nat) : Slot :=
  (entries[position]?.map Prod.fst).getD position

/-- The pending blocks have the slots of the places where the blocks stand. -/
theorem toBlock_pendings {entries : List (Slot × Instruction)} {start : Nat}
    {parts : List (List (Slot × Instruction))} (filled : ∀ part ∈ parts, part ≠ [])
    (rest : entries.drop start = parts.flatten) :
    (pendings start parts).map Pending.toBlock =
      (placeBlocks start (parts.map (List.map Prod.snd))).map (Block.move (slotAt entries)) := by
  induction parts generalizing start with
  | nil => rfl
  | cons part others inductionHypothesis =>
    rw [List.forall_mem_cons] at filled
    rw [List.flatten_cons] at rest
    have behind : entries.drop (start + part.length) = others.flatten := by
      rw [← List.drop_drop, rest, List.drop_left]
    have length : 0 < part.length := List.length_pos_of_ne_nil filled.1
    have slot : ∀ offset, offset < part.length →
        (part[offset]?.map Prod.fst).getD 0 = slotAt entries (start + offset) := by
      intro offset inside
      rw [slotAt, ← List.getElem?_drop, rest, List.getElem?_append_left inside,
        List.getElem?_eq_getElem inside]
      rfl
    have first : (pendingOf start part).first = slotAt entries start := by
      rw [pendingOf, List.head?_eq_getElem?, slot 0 length, Nat.add_zero]
    have last : (pendingOf start part).last = slotAt entries (start + part.length - 1) := by
      rw [pendingOf, List.getLast?_eq_getElem?, slot _ (by omega), ← Nat.add_sub_assoc length]
    rw [pendings, List.map_cons, inductionHypothesis filled.2 behind, List.map_cons, placeBlocks,
      List.map_cons, List.length_map, Pending.toBlock, first, last]
    rfl

/-- The graph that has the blocks of a cut program and no edges. -/
def isolated (blocks : List (List Instruction)) : Graph Block :=
  (placeBlocks 0 blocks).foldl (fun graph block => (graph.add block).2) {}

/-- Moving the ends of the blocks leaves room for the same edges. -/
theorem map_fallThrough (f : Slot → Slot) (count id : Nat) (graph : Graph Block) :
    (fallThrough count id graph).map (Block.move f) =
      fallThrough count id (graph.map (Block.move f)) := by
  unfold fallThrough
  split
  · exact graph.map_connect (Block.move f) _ _
  · rfl

theorem map_connectBlock (f : Slot → Slot) (count id : Nat) (i : Instruction) (target : Option Nat)
    (graph : Graph Block) :
    (connectBlock count id i target graph).map (Block.move f) =
      connectBlock count id i target (graph.map (Block.move f)) := by
  unfold connectBlock
  split
  · dsimp only
    rw [← Graph.map_connect]
    split
    · rw [map_fallThrough]
      refine congrArg (fallThrough count id) (Graph.map_modify (Block.move f) _ ?_ _)
      exact fun _ => rfl
    · rfl
  · dsimp only
    rw [← Graph.map_connect, ← map_fallThrough]
    split
    · rfl
    · refine Graph.map_modify (Block.move f) _ ?_ _
      exact fun _ => rfl
  · split
    · rfl
    · exact map_fallThrough f count id graph

theorem map_connectBlocks (f : Slot → Slot) (count : Nat) (labels : Table String Nat)
    (id first : Nat) (blocks : List (List Instruction)) (graph : Graph Block) :
    (connectBlocks count labels id first blocks graph).map (Graph.map (Block.move f)) =
      connectBlocks count labels id first blocks (graph.map (Block.move f)) := by
  induction blocks generalizing id first graph with
  | nil => rfl
  | cons block rest inductionHypothesis =>
    rw [connectBlocks, connectBlocks]
    cases block.getLast? with
    | none => exact inductionHypothesis _ _ _
    | some i =>
      dsimp only
      cases resolve labels (first + block.length - 1) i with
      | error cause => rfl
      | ok target =>
        show Except.map _ (connectBlocks _ _ _ _ _ _) = connectBlocks _ _ _ _ _ _
        rw [inductionHypothesis, map_connectBlock]

/-- A control-flow graph with other slots for the ends of its blocks. -/
def move (f : Slot → Slot) (flow : Flow) : Flow :=
  { flow with graph := flow.graph.map (Block.move f) }

/-- The graph built from the blocks of a program, with positions for slots. -/
def buildBlocks (code : List Instruction) : Except Inconsistency Flow :=
  (connectBlocks (cutBlocks code).length (blockLabels 0 (cutBlocks code) {}) 0 0 (cutBlocks code)
    (isolated (cutBlocks code))).map fun graph =>
      { graph, labels := blockLabels 0 (cutBlocks code) {} }

/-- The pass through the entries of a program builds the graph of its blocks, with the slots of the
entries. -/
theorem assemble_eq {get? : Slot → Option Instruction} {entries : List (Slot × Instruction)}
    (reads : ∀ entry ∈ entries, get? entry.1 = some entry.2) :
    assemble get? entries =
      (buildBlocks (entries.map Prod.snd)).map (move (slotAt entries)) := by
  have covers : (Cut.addAll 0 entries {}).Covers entries := by
    have start : ({} : Cut).Covers [] := ⟨rfl, rfl, rfl⟩
    exact start.addAll entries
  have filled : ∀ part ∈ cutEntries entries, part ≠ [] := fun _ => ne_nil_of_mem_cutEntries
  have inParts : ∀ part ∈ cutEntries entries, ∀ entry ∈ part, get? entry.1 = some entry.2 := by
    intro part member entry inside
    refine reads entry ?_
    rw [← flatten_cutEntries entries]
    exact List.mem_flatten.mpr ⟨part, member, inside⟩
  have blocks : (Cut.addAll 0 entries {}).blocks.reverse = pendings 0 (cutEntries entries) := by
    rw [covers.blocks, List.reverse_reverse]
  have count : (pendings 0 (cutEntries entries)).length =
      (cutBlocks (entries.map Prod.snd)).length := by
    rw [length_pendings, ← map_cutEntries, List.length_map]
  have alone : (pendings 0 (cutEntries entries)).foldl
        (fun graph block => (graph.add block.toBlock).2) ({} : Graph Block) =
      (isolated (cutBlocks (entries.map Prod.snd))).map (Block.move (slotAt entries)) := by
    rw [isolated, Graph.map_foldl_add, ← map_cutEntries,
      ← toBlock_pendings filled (List.drop_zero.trans (flatten_cutEntries entries).symm),
      List.foldl_map, Graph.map_empty]
  rw [assemble, blocks, covers.labels, count, alone, connectPending_pendings filled inParts,
    map_cutEntries, ← map_connectBlocks, buildBlocks]
  cases connectBlocks _ _ _ _ _ _ <;> rfl

/-- The same for a program that is a list: the slots are its positions. -/
theorem build_eq (code : List Instruction) : build code = buildBlocks code := by
  have entry : ∀ position : Nat,
      (numbered code)[position]? = code[position]?.map (position, ·) := by
    intro position
    rw [numbered, List.getElem?_map, List.getElem?_zipIdx, Option.map_map, Nat.zero_add]
    rfl
  have reads : ∀ pair ∈ numbered code, code[pair.1]? = some pair.2 := by
    intro pair member
    obtain ⟨position, found⟩ := List.mem_iff_getElem?.mp member
    rw [entry] at found
    obtain ⟨i, read, rfl⟩ := Option.map_eq_some_iff.mp found
    exact read
  have instructions : (numbered code).map Prod.snd = code := by
    rw [numbered, List.map_map]
    exact List.zipIdx_map_fst 0 code
  have same : slotAt (numbered code) = id := by
    funext position
    rw [slotAt, entry, Option.map_map]
    cases code[position]? <;> rfl
  have still : Block.move id = id := rfl
  rw [build, assemble_eq reads, instructions, same]
  cases buildBlocks code with
  | error cause => rfl
  | ok flow =>
    show Except.ok (move id flow) = _
    rw [move, still, Graph.map_id]

end Flow

end ThreeAddress
