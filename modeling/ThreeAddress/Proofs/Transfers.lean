/-
The edges of a control-flow graph are the transfers of control that the program
can make. Labels stand at the starts of blocks and jumps at their ends, so the
table of labels has the block of the last definition of each label, and the last
instructions of the blocks decide on the edges. Adding the edges of one block does
not touch what was added for the others: `Wired` says what holds after the first
blocks, and it holds after all of them.

If a jump or call leads to a label that is not defined, building stops at the
first such instruction.
-/
import ThreeAddress.Proofs.Partition

namespace ThreeAddress

namespace Flow

/-! ### The edges of one block -/

/-- Whether a graph has exactly the given number of blocks. -/
def Full (count : Nat) (g : Graph Block) : Prop :=
  ∀ id, g.contains id ↔ id < count

/-- The successor of a block that is reached only if its last instruction jumps, given where that
one leads to. -/
def branch? (id : Nat) (i : Instruction) (target : Option Nat) : Option Nat :=
  if i.opcode.role = .conditionalJump then target.filter (· ≠ id + 1) else none

theorem branch?_eq_some_iff {id next : Nat} {i : Instruction} {target : Option Nat} :
    branch? id i target = some next ↔
      i.opcode.role = .conditionalJump ∧ target = some next ∧ next ≠ id + 1 := by
  unfold branch?
  split
  · next role => simp [role, Option.filter_eq_some_iff]
  · next role => simp [role]

section ConnectBlock

variable {count id : Nat} {i : Instruction} {target : Option Nat} {g : Graph Block}

theorem Full.connect (full : Full count g) (source target : Nat) :
    Full count (g.connect source target) := fun id => by
  rw [Graph.contains_connect]
  exact full id

theorem Full.modify (full : Full count g) (id : Nat) (change : Block → Block) :
    Full count (g.modify id change) := fun other => by
  rw [Graph.contains_modify]
  exact full other

theorem Full.fallThrough (full : Full count g) (id : Nat) :
    Full count (fallThrough count id g) := by
  unfold Flow.fallThrough
  split
  · exact full.connect id (id + 1)
  · exact full

theorem get?_fallThrough (count id other : Nat) (g : Graph Block) :
    (fallThrough count id g).get? other = g.get? other := by
  unfold fallThrough
  split
  · exact Graph.get?_connect g id (id + 1) other
  · rfl

theorem mem_successors_fallThrough (full : Full count g) {source next : Nat} :
    next ∈ (fallThrough count id g).successors source ↔
      next ∈ g.successors source ∨ (source = id ∧ next = id + 1 ∧ next < count) := by
  unfold fallThrough
  split
  · next inside =>
    rw [Graph.mem_successors_connect ((full id).mpr (by omega)) ((full (id + 1)).mpr inside)]
    refine or_congr_right (and_congr_right fun _ => ⟨?_, And.left⟩)
    rintro rfl
    exact ⟨rfl, inside⟩
  · next outside =>
    refine (or_iff_left ?_).symm
    rintro ⟨-, rfl, inside⟩
    exact outside inside

/-- What is added for a block, one case for each kind of last instruction. -/
theorem connectBlock_cases (count id : Nat) (g : Graph Block)
    (jumps : i.opcode.isJump ↔ target.isSome) :
    (∃ next, target = some next ∧ i.opcode = .jump ∧
      connectBlock count id i target g = g.connect id next) ∨
    (∃ next, target = some next ∧ i.opcode = .call ∧
      connectBlock count id i target g = fallThrough count id
        ((g.connect id next).modify next fun block => { block with called := true })) ∨
    (∃ next, target = some next ∧ i.opcode.role = .conditionalJump ∧
      connectBlock count id i target g =
        if id + 1 < count ∧ next = id + 1 then fallThrough count id (g.connect id next)
        else (fallThrough count id (g.connect id next)).modify id fun block =>
          { block with conditional := insertAscending next block.conditional }) ∨
    (target = none ∧ i.opcode = .ret ∧ connectBlock count id i target g = g) ∨
    (target = none ∧ ¬ i.opcode.isTerminator ∧
      connectBlock count id i target g = fallThrough count id g) := by
  unfold connectBlock
  cases target with
  | none =>
    have plain : ¬ i.opcode.isJump := by simp [jumps]
    by_cases returns : i.opcode = .ret
    · simp [returns]
    · simp [returns, plain, Opcode.isTerminator]
  | some next =>
    have jump : i.opcode.isJump := by simp [jumps]
    cases opcode : i.opcode <;> simp_all [Opcode.isJump, Opcode.role]

theorem Full.connectBlock (full : Full count g) (jumps : i.opcode.isJump ↔ target.isSome) :
    Full count (connectBlock count id i target g) := by
  obtain ⟨next, -, -, same⟩ | ⟨next, -, -, same⟩ | ⟨next, -, -, same⟩ | ⟨-, -, same⟩ |
    ⟨-, -, same⟩ := connectBlock_cases count id g jumps
  all_goals rw [same]
  · exact full.connect id next
  · exact ((full.connect id next).modify next _).fallThrough id
  · split
    · exact (full.connect id next).fallThrough id
    · exact ((full.connect id next).fallThrough id).modify id _
  · exact full
  · exact full.fallThrough id

/-- The edges of a block lead to where its last instruction may go. -/
theorem mem_successors_connectBlock (full : Full count g)
    (jumps : i.opcode.isJump ↔ target.isSome) (here : id < count)
    (there : ∀ next ∈ target, next < count) {source next : Nat} :
    next ∈ (connectBlock count id i target g).successors source ↔
      next ∈ g.successors source ∨ (source = id ∧ (target = some next ∨
        (next = id + 1 ∧ next < count ∧ i.opcode ≠ .jump ∧ i.opcode ≠ .ret))) := by
  have connected : ∀ {other}, target = some other →
      (next ∈ (g.connect id other).successors source ↔
        next ∈ g.successors source ∨ (source = id ∧ next = other)) := fun found =>
    Graph.mem_successors_connect ((full id).mpr here) ((full _).mpr (there _ found))
  obtain ⟨other, found, opcode, same⟩ | ⟨other, found, opcode, same⟩ |
    ⟨other, found, role, same⟩ | ⟨found, opcode, same⟩ | ⟨found, plain, same⟩ :=
    connectBlock_cases count id g jumps
  all_goals rw [same]
  · rw [connected found, found, opcode]
    simp [@eq_comm Nat other]
  · rw [mem_successors_fallThrough ((full.connect id other).modify other _),
      Graph.successors_modify, connected found, found, opcode]
    simp [@eq_comm Nat other, and_or_left, or_assoc]
  · have goesOn : i.opcode ≠ .jump ∧ i.opcode ≠ .ret := by
      constructor <;> intro opcode <;> rw [opcode] at role <;> cases role
    have edges : next ∈ (fallThrough count id (g.connect id other)).successors source ↔
        next ∈ g.successors source ∨ (source = id ∧ (target = some next ∨
          (next = id + 1 ∧ next < count ∧ i.opcode ≠ .jump ∧ i.opcode ≠ .ret))) := by
      rw [mem_successors_fallThrough (full.connect id other), connected found, found]
      simp [@eq_comm Nat other, and_or_left, or_assoc, goesOn]
    split
    · exact edges
    · rw [Graph.successors_modify]
      exact edges
  · simp [found, opcode]
  · have goesOn : i.opcode ≠ .jump ∧ i.opcode ≠ .ret := by
      constructor <;> intro opcode <;> rw [opcode] at plain <;> exact plain rfl
    rw [mem_successors_fallThrough full, found]
    simp [goesOn]

/-- The notes of the blocks when the edges of one of them are added. -/
theorem get?_connectBlock (jumps : i.opcode.isJump ↔ target.isSome)
    (there : ∀ next ∈ target, next < count) (other : Nat) :
    (connectBlock count id i target g).get? other = (g.get? other).map fun block =>
      { block with
        conditional :=
          if other = id then
            (branch? id i target).elim block.conditional (insertAscending · block.conditional)
          else block.conditional
        called := block.called || decide (i.opcode = .call ∧ target = some other) } := by
  obtain ⟨next, found, opcode, same⟩ | ⟨next, found, opcode, same⟩ |
    ⟨next, found, role, same⟩ | ⟨found, opcode, same⟩ | ⟨found, plain, same⟩ :=
    connectBlock_cases count id g jumps
  all_goals rw [same]
  · rw [Graph.get?_connect, branch?, opcode]
    simp [Opcode.role]
  · rw [get?_fallThrough, Graph.get?_modify, Graph.get?_connect, branch?, found, opcode]
    by_cases atTarget : other = next
    · simp [atTarget, Opcode.role]
    · simp [atTarget, Ne.symm atTarget, Opcode.role]
  · have uncalled : i.opcode ≠ .call := by
      intro opcode
      rw [opcode] at role
      cases role
    rw [branch?, if_pos role, found]
    split
    · next beside =>
      simp [get?_fallThrough, Graph.get?_connect, beside.2, uncalled, Option.filter_some]
    · next apart =>
      have taken : next ≠ id + 1 := fun beside => apart ⟨beside ▸ there next found, beside⟩
      rw [Graph.get?_modify, get?_fallThrough, Graph.get?_connect]
      by_cases atSource : other = id
      · simp [atSource, taken, uncalled, Option.filter_some]
      · simp [atSource, uncalled]
  · simp [branch?, found]
  · simp [branch?, found, get?_fallThrough]

end ConnectBlock

/-! ### The edges of all blocks -/

/-- The last instruction of a block of a cut program. -/
def exit? (blocks : List (List Instruction)) (id : Nat) : Option Instruction :=
  blocks[id]?.bind List.getLast?

/-- The block that an instruction jumps to or calls, if it does. -/
def destination? (labels : Table String Nat) (i : Instruction) : Option Nat :=
  i.jumpTarget?.bind labels.get?

/-- What holds after the edges of the first blocks are added. -/
structure Wired (count : Nat) (labels : Table String Nat) (done : List (List Instruction))
    (g : Graph Block) : Prop where
  full : Full count g
  edges : ∀ source next, next ∈ g.successors source ↔ ∃ i, exit? done source = some i ∧
    (destination? labels i = some next ∨
      (next = source + 1 ∧ next < count ∧ i.opcode ≠ .jump ∧ i.opcode ≠ .ret))
  conditional : ∀ id b, g.get? id = some b →
    b.conditional = ((exit? done id).bind fun i => branch? id i (destination? labels i)).toList
  called : ∀ id b, g.get? id = some b → (b.called ↔
    ∃ source i, exit? done source = some i ∧ i.opcode = .call ∧ destination? labels i = some id)

section Wired

variable {count : Nat} {labels : Table String Nat} {done : List (List Instruction)}
  {block : List Instruction} {i : Instruction} {g : Graph Block}

theorem exit?_concat (done : List (List Instruction)) (block : List Instruction) (id : Nat) :
    exit? (done ++ [block]) id = if id = done.length then block.getLast? else exit? done id := by
  unfold exit?
  split
  · next here => rw [here, List.getElem?_concat_length, Option.bind_some]
  · next elsewhere =>
    rw [List.getElem?_append]
    split
    · rfl
    · rw [List.getElem?_eq_none (by simp; omega), List.getElem?_eq_none (by omega)]

theorem exit?_length (done : List (List Instruction)) : exit? done done.length = none := by
  rw [exit?, List.getElem?_eq_none (Nat.le_refl _), Option.bind_none]

/-- Adding the edges of the next block. -/
theorem Wired.step (wired : Wired count labels done g) (last : block.getLast? = some i)
    (jumps : i.opcode.isJump ↔ (destination? labels i).isSome) (here : done.length < count)
    (there : ∀ next ∈ destination? labels i, next < count) :
    Wired count labels (done ++ [block])
      (connectBlock count done.length i (destination? labels i) g) where
  full := wired.full.connectBlock jumps
  edges source next := by
    rw [mem_successors_connectBlock wired.full jumps here there, wired.edges, exit?_concat]
    by_cases new : source = done.length
    · simp [new, last, exit?_length]
    · simp [new]
  conditional id b found := by
    rw [get?_connectBlock jumps there] at found
    obtain ⟨old, before, rfl⟩ := Option.map_eq_some_iff.mp found
    rw [exit?_concat]
    by_cases new : id = done.length
    · -- nothing was noted for the block before its turn
      subst new
      have none := wired.conditional _ old before
      rw [exit?_length] at none
      cases branch : branch? done.length i (destination? labels i) <;>
        simp [last, branch, none, insertAscending]
    · simpa [new] using wired.conditional id old before
  called id b found := by
    rw [get?_connectBlock jumps there] at found
    obtain ⟨old, before, rfl⟩ := Option.map_eq_some_iff.mp found
    rw [Bool.or_eq_true, decide_eq_true_iff, wired.called id old before]
    constructor
    · rintro (⟨source, j, atEnd, call⟩ | call)
      · have earlier : source ≠ done.length := by
          rintro rfl
          exact absurd atEnd (by simp [exit?_length])
        exact ⟨source, j, by rw [exit?_concat, if_neg earlier, atEnd], call⟩
      · exact ⟨done.length, i, by rw [exit?_concat, if_pos rfl, last], call⟩
    · rintro ⟨source, j, atEnd, call⟩
      rw [exit?_concat] at atEnd
      split at atEnd
      · obtain rfl := Option.some.inj (last.symm.trans atEnd)
        exact Or.inr call
      · exact Or.inl ⟨source, j, atEnd, call⟩

theorem Wired.isolated (labels : Table String Nat) (blocks : List (List Instruction)) :
    Wired blocks.length labels [] (isolated blocks) := by
  have node (id : Nat) := node?_isolated blocks id
  simp only [getElem?_placeBlocks, Option.map_map] at node
  have plain : ∀ id b, (Flow.isolated blocks).get? id = some b →
      b.conditional = [] ∧ b.called = false := fun id b found => by
    rw [Graph.get?, node, Option.map_map] at found
    obtain ⟨block, -, rfl⟩ := Option.map_eq_some_iff.mp found
    exact ⟨rfl, rfl⟩
  refine ⟨fun id => ?_, fun source next => ?_, fun id b found => ?_, fun id b found => ?_⟩
  · rw [Graph.contains, node, Option.isSome_map, isSome_getElem?]
  · rw [Graph.successors, node]
    cases blocks[source]? <;> simp [exit?]
  · rw [(plain id b found).1]
    rfl
  · simp [(plain id b found).2, exit?]

/-- What a jump is resolved to. -/
theorem resolve_cases (labels : Table String Nat) (position : Nat) (i : Instruction) :
    (resolve labels position i = .ok (destination? labels i) ∧
      (i.jumpTarget?.isSome ↔ (destination? labels i).isSome)) ∨
    ∃ label, i.jumpTarget? = some label ∧ labels.get? label = none ∧
      resolve labels position i = .error (.unresolvedLabel label i.opcode position) := by
  unfold resolve destination?
  cases target : i.jumpTarget? with
  | none => exact Or.inl ⟨rfl, Iff.rfl⟩
  | some label => cases found : labels.get? label <;> simp [found]

theorem isJump_of_jumpTarget? (target : i.jumpTarget?.isSome) : i.opcode.isJump := by
  unfold Instruction.jumpTarget? at target
  split at target
  · next jumps => exact jumps
  · cases target

/-- Adding the edges of all blocks that are left. -/
theorem Wired.connectBlocks {rest : List (List Instruction)} {first : Nat} {final : Graph Block}
    (wired : Wired count labels done g) (size : done.length + rest.length = count)
    (filled : ∀ block ∈ rest, block ≠ [])
    (labelled : ∀ block ∈ rest, ∀ i ∈ block, i.opcode.isJump → i.jumpTarget?.isSome)
    (there : ∀ label id, labels.get? label = some id → id < count)
    (connected : connectBlocks count labels done.length first rest g = .ok final) :
    Wired count labels (done ++ rest) final := by
  induction rest generalizing done first g with
  | nil =>
    obtain rfl := Except.ok.inj connected
    rwa [List.append_nil]
  | cons block rest inductionHypothesis =>
    rw [List.forall_mem_cons] at filled labelled
    rw [List.length_cons] at size
    unfold Flow.connectBlocks at connected
    dsimp only at connected
    split at connected
    · next empty => exact absurd (List.getLast?_eq_none_iff.mp empty) filled.1
    · next i last =>
      obtain ⟨resolved, known⟩ | ⟨label, -, -, resolved⟩ :=
        resolve_cases labels (first + block.length - 1) i
      all_goals rw [resolved] at connected
      · have jumps : i.opcode.isJump ↔ (destination? labels i).isSome := by
          rw [← known]
          exact ⟨labelled.1 i (List.mem_of_getLast? last), isJump_of_jumpTarget?⟩
        have inside : ∀ next ∈ destination? labels i, next < count := fun next found => by
          obtain ⟨label, -, target⟩ := Option.bind_eq_some_iff.mp found
          exact there label next target
        have stepped := wired.step last jumps (by omega) inside
        have later := inductionHypothesis stepped (by simp; omega) filled.2 labelled.2
          (by rw [List.length_append]; exact connected)
        rwa [List.append_assoc, List.singleton_append] at later
      · cases connected

end Wired

section Stopping

variable {count id first : Nat} {labels : Table String Nat} {block : List Instruction}
  {blocks : List (List Instruction)} {g : Graph Block} {cause : Inconsistency}

/-- Whether the last instruction of a block leads to no unknown label. -/
def Leaves (labels : Table String Nat) (block : List Instruction) : Prop :=
  ∀ i, block.getLast? = some i → ∀ label, i.jumpTarget? = some label → (labels.get? label).isSome

/-- Whether a cause is found at the first block whose last instruction leads to an unknown
label. -/
def StopsWith (labels : Table String Nat) (first : Nat) (blocks : List (List Instruction))
    (cause : Inconsistency) : Prop :=
  ∃ before block after i label, blocks = before ++ block :: after ∧ block.getLast? = some i ∧
    i.jumpTarget? = some label ∧ labels.get? label = none ∧
    (∀ other ∈ before, Leaves labels other) ∧
    cause = .unresolvedLabel label i.opcode (first + before.flatten.length + block.length - 1)

theorem StopsWith.cons (stops : StopsWith labels (first + block.length) blocks cause)
    (leaves : Leaves labels block) : StopsWith labels first (block :: blocks) cause := by
  obtain ⟨before, next, after, i, label, rfl, last, target, unknown, known, rfl⟩ := stops
  refine ⟨block :: before, next, after, i, label, rfl, last, target, unknown, ?_, ?_⟩
  · exact List.forall_mem_cons.mpr ⟨leaves, known⟩
  · rw [List.flatten_cons, List.length_append, Nat.add_assoc first]

theorem stopsWith_of_connectBlocks
    (failed : connectBlocks count labels id first blocks g = .error cause) :
    StopsWith labels first blocks cause := by
  induction blocks generalizing id first g with
  | nil => cases failed
  | cons block rest inductionHypothesis =>
    unfold connectBlocks at failed
    dsimp only at failed
    split at failed
    · next empty => exact (inductionHypothesis failed).cons (by simp [Leaves, empty])
    · next i last =>
      obtain ⟨resolved, known⟩ | ⟨label, target, unknown, resolved⟩ :=
        resolve_cases labels (first + block.length - 1) i
      all_goals rw [resolved] at failed
      · refine (inductionHypothesis failed).cons fun j same label target => ?_
        obtain rfl := Option.some.inj (last.symm.trans same)
        rw [destination?, target, Option.bind_some] at known
        exact known.mp rfl
      · obtain rfl := Except.error.inj failed
        exact ⟨[], block, rest, i, label, rfl, last, target, unknown, by simp, rfl⟩

end Stopping

/-! ### Labels -/

/-- Whether a position has the last definition of a label. -/
def LastDefined (code : List Instruction) (label : String) (position : Nat) : Prop :=
  code[position]?.bind Instruction.definedLabel? = some label ∧
    ∀ later, position < later → code[later]?.bind Instruction.definedLabel? ≠ some label

/-- Whether a label stands for a block: the last definition of the label is in it. -/
def StandsFor (flow : Flow) (code : List Instruction) (label : String) (id : Nat) : Prop :=
  ∃ position, LastDefined code label position ∧ flow.Covers id position

theorem LastDefined.unique {code : List Instruction} {label : String} {first second : Nat}
    (atFirst : LastDefined code label first) (atSecond : LastDefined code label second) :
    first = second := by
  rcases Nat.lt_trichotomy first second with less | same | more
  · exact absurd atSecond.1 (atFirst.2 second less)
  · exact same
  · exact absurd atFirst.1 (atSecond.2 first more)

/-- A label stands for the last block that starts with it. -/
theorem cases_of_get?_blockLabels {id c : Nat} {blocks : List (List Instruction)}
    {labels : Table String Nat} {label : String}
    (found : (blockLabels id blocks labels).get? label = some c) :
    (∃ before block after, blocks = before ++ block :: after ∧ c = id + before.length ∧
      block.head?.bind Instruction.definedLabel? = some label ∧
      ∀ other ∈ after, other.head?.bind Instruction.definedLabel? ≠ some label) ∨
    ((∀ other ∈ blocks, other.head?.bind Instruction.definedLabel? ≠ some label) ∧
      labels.get? label = some c) := by
  induction blocks generalizing id labels with
  | nil => exact Or.inr ⟨by simp, found⟩
  | cons block rest inductionHypothesis =>
    rcases inductionHypothesis found with
      ⟨before, later, after, rfl, number, defines, last⟩ | ⟨undefined, old⟩
    · refine Or.inl ⟨block :: before, later, after, rfl, ?_, defines, last⟩
      rw [List.length_cons]
      omega
    · by_cases here : block.head?.bind Instruction.definedLabel? = some label
      · rw [here] at old
        dsimp only at old
        rw [Table.put, Table.get?_alter_self, Option.some_inj] at old
        exact Or.inl ⟨[], block, rest, rfl, old.symm, here, undefined⟩
      · refine Or.inr ⟨List.forall_mem_cons.mpr ⟨here, undefined⟩, ?_⟩
        split at old
        · next name defined =>
          rwa [Table.put, Table.get?_alter_of_ne] at old
          rintro rfl
          exact here defined
        · exact old

section Build

variable {code : List Instruction} {flow : Flow} {i : Instruction} {label : String} {id : Nat}

/-- A definition behind the first instruction of a block is that of a later block. -/
theorem ne_definedLabel?_of_split {before after : List (List Instruction)}
    {block : List Instruction} (cut : cutBlocks code = before ++ block :: after)
    (last : ∀ other ∈ after, other.head?.bind Instruction.definedLabel? ≠ some label)
    {later : Nat} (behind : before.flatten.length < later) :
    code[later]?.bind Instruction.definedLabel? ≠ some label := by
  intro defines
  obtain ⟨j, there, defined⟩ := Option.bind_eq_some_iff.mp defines
  have straight : ∀ other ∈ block :: after, Straight other := fun other member =>
    straight_of_mem_cutBlocks (by rw [cut]; exact List.mem_append_right _ member)
  obtain ⟨first, tail, rfl⟩ :=
    List.exists_cons_of_ne_nil (straight block List.mem_cons_self).nonempty
  obtain ⟨offset, rfl⟩ := Nat.exists_eq_add_of_lt behind
  rw [Nat.add_assoc, getElem?_of_cut cut, List.cons_append, List.getElem?_cons_succ] at there
  rcases List.mem_append.mp (List.mem_of_getElem? there) with inside | beyond
  · exact (straight _ List.mem_cons_self).labels j inside (opcode_of_definedLabel? defined)
  · obtain ⟨other, member, inside⟩ := List.mem_flatten.mp beyond
    have head := (straight other (List.mem_cons_of_mem _ member)).head?_of_label inside
      (opcode_of_definedLabel? defined)
    exact last other member (by rw [head]; exact defined)

theorem covers_of_split (built : build code = .ok flow) {before after : List (List Instruction)}
    {block : List Instruction} (cut : cutBlocks code = before ++ block :: after) :
    flow.Covers before.length before.flatten.length := by
  have place := (laid_of_build built).place before.length
  rw [getElem?_placeBlocks, cut, List.getElem?_append_right (Nat.le_refl _), Nat.sub_self,
    List.getElem?_cons_zero, List.take_left] at place
  obtain ⟨b, found, same⟩ := Option.map_eq_some_iff.mp place
  obtain ⟨first, ends⟩ := Prod.mk.inj same
  obtain ⟨-, size⟩ := Prod.mk.inj ends
  dsimp only at first size
  have filled : 0 < block.length := List.length_pos_of_ne_nil (straight_of_cut cut).nonempty
  exact ⟨b, found, by omega, by omega⟩

/-- The table of labels says what the labels stand for. -/
theorem get?_labels_iff (built : build code = .ok flow) :
    flow.labels.get? label = some id ↔ flow.StandsFor code label id := by
  have sound : ∀ {id}, flow.labels.get? label = some id → flow.StandsFor code label id := by
    intro id found
    rw [(connected_of_build built).1] at found
    rcases cases_of_get?_blockLabels found with
      ⟨before, block, after, cut, number, defines, last⟩ | ⟨-, empty⟩
    · rw [Nat.zero_add] at number
      refine ⟨before.flatten.length, ⟨?_, fun later behind => ?_⟩,
        number ▸ covers_of_split built cut⟩
      · obtain ⟨j, head, defined⟩ := Option.bind_eq_some_iff.mp defines
        obtain ⟨tail, rfl⟩ := List.head?_eq_some_iff.mp head
        rw [← Nat.add_zero before.flatten.length, getElem?_of_cut cut]
        exact defined
      · exact ne_definedLabel?_of_split cut last behind
    · cases empty
  refine ⟨sound, ?_⟩
  rintro ⟨position, last, covers⟩
  obtain ⟨j, there, defined⟩ := Option.bind_eq_some_iff.mp last.1
  have known : (flow.labels.get? label).isSome := by
    rw [(connected_of_build built).1, isSome_labels]
    exact ⟨j, List.mem_of_getElem? there, defined⟩
  obtain ⟨other, found⟩ := Option.isSome_iff_exists.mp known
  obtain ⟨same, lastSame, coversSame⟩ := sound found
  obtain rfl := last.unique lastSame
  rw [found, covers_unique built coversSame covers]

/-! ### Transfers -/

/-- Whether an instruction jumps to a block or calls it. -/
def LeadsTo (flow : Flow) (code : List Instruction) (i : Instruction) (id : Nat) : Prop :=
  ∃ label, i.jumpTarget? = some label ∧ flow.StandsFor code label id

/-- Whether the edges of a graph, and what it notes of them, are the transfers of control that a
program can make. -/
structure Transfers (flow : Flow) (code : List Instruction) : Prop where
  /-- An edge is a jump, or the way on to the next block behind anything but a jump that is always
  taken and a return. -/
  edges : ∀ source next, next ∈ flow.graph.successors source ↔
    ∃ b i, flow.block? source = some b ∧ code[b.last]? = some i ∧ (flow.LeadsTo code i next ∨
      (next = source + 1 ∧ next < flow.size ∧ i.opcode ≠ .jump ∧ i.opcode ≠ .ret))
  within : ∀ id b, flow.block? id = some b →
    b.conditional ⊆ flow.graph.successors id ∧ b.conditional.length ≤ 1
  /-- The conditional successor is where a conditional jump leads to, unless that is the next
  block. -/
  conditional : ∀ id b target, flow.block? id = some b → (b.conditional = [target] ↔
    ∃ i, code[b.last]? = some i ∧ i.opcode.role = .conditionalJump ∧ flow.LeadsTo code i target ∧
      target ≠ id + 1)
  called : ∀ id b, flow.block? id = some b →
    (b.called ↔ ∃ i ∈ code, i.opcode = .call ∧ flow.LeadsTo code i id)

theorem destination?_eq_some_iff (built : build code = .ok flow) :
    destination? flow.labels i = some id ↔ flow.LeadsTo code i id := by
  rw [destination?, Option.bind_eq_some_iff]
  simp only [get?_labels_iff built, LeadsTo]

theorem exit?_of_block (built : build code = .ok flow) {b : Block}
    (found : flow.block? id = some b) : exit? (cutBlocks code) id = code[b.last]? := by
  obtain ⟨before, block, after, cut, number, first, size, -⟩ := exists_split_of_block built found
  have here : (cutBlocks code)[id]? = some block := by
    rw [cut, ← number, List.getElem?_append_right (Nat.le_refl _), Nat.sub_self,
      List.getElem?_cons_zero]
  rw [exit?, here, Option.bind_some, ← instructions_of_split cut first size]
  exact (fits_of_block built found rfl).last

theorem exit?_eq_some_iff (built : build code = .ok flow) :
    exit? (cutBlocks code) id = some i ↔
      ∃ b, flow.block? id = some b ∧ code[b.last]? = some i := by
  constructor
  · intro last
    obtain ⟨block, here, -⟩ := Option.bind_eq_some_iff.mp last
    have inside := (isSome_block?_of_build built).mpr (List.getElem?_eq_some_iff.mp here).1
    obtain ⟨b, found⟩ := Option.isSome_iff_exists.mp inside
    exact ⟨b, found, (exit?_of_block built found).symm.trans last⟩
  · rintro ⟨b, found, last⟩
    rw [exit?_of_block built found, last]

theorem wired_of_build (built : build code = .ok flow)
    (labelled : ∀ i ∈ code, i.opcode.isJump → i.jumpTarget?.isSome) :
    Wired (cutBlocks code).length flow.labels (cutBlocks code) flow.graph := by
  refine (Wired.isolated flow.labels (cutBlocks code)).connectBlocks ?_ ?_ ?_ ?_
    (connected_of_build built).2
  · rw [List.length_nil, Nat.zero_add]
  · exact fun block cut => (straight_of_mem_cutBlocks cut).nonempty
  · exact fun block cut i inside => labelled i (mem_of_mem_cutBlocks cut inside)
  · intro label id found
    obtain ⟨position, -, b, here, -⟩ := (get?_labels_iff built).mp found
    exact (isSome_block?_of_build built).mp (by rw [here]; rfl)

section WiredGraph

variable (built : build code = .ok flow)
  (wired : Wired (cutBlocks code).length flow.labels (cutBlocks code) flow.graph)
include built wired

theorem mem_successors_iff {source next : Nat} : next ∈ flow.graph.successors source ↔
    ∃ b i, flow.block? source = some b ∧ code[b.last]? = some i ∧ (flow.LeadsTo code i next ∨
      (next = source + 1 ∧ next < flow.size ∧ i.opcode ≠ .jump ∧ i.opcode ≠ .ret)) := by
  rw [wired.edges, ← size_of_build built]
  simp only [exit?_eq_some_iff built, destination?_eq_some_iff built]
  constructor
  · rintro ⟨i, ⟨b, found, last⟩, transfer⟩
    exact ⟨b, i, found, last, transfer⟩
  · rintro ⟨b, i, found, last, transfer⟩
    exact ⟨i, ⟨b, found, last⟩, transfer⟩

theorem conditional_eq_singleton_iff {b : Block} {target : Nat} (found : flow.block? id = some b) :
    b.conditional = [target] ↔ ∃ i, code[b.last]? = some i ∧ i.opcode.role = .conditionalJump ∧
      flow.LeadsTo code i target ∧ target ≠ id + 1 := by
  rw [wired.conditional id b found, exit?_of_block built found, Option.toList_eq_singleton_iff,
    Option.bind_eq_some_iff]
  simp only [branch?_eq_some_iff, destination?_eq_some_iff built]

theorem conditional_within {b : Block} (found : flow.block? id = some b) :
    b.conditional ⊆ flow.graph.successors id ∧ b.conditional.length ≤ 1 := by
  have one := wired.conditional id b found
  cases branch : (exit? (cutBlocks code) id).bind fun i =>
      branch? id i (destination? flow.labels i) with
  | none => simp [one, branch]
  | some target =>
    rw [branch, Option.toList_some] at one
    obtain ⟨i, last, -, leads, -⟩ := (conditional_eq_singleton_iff built wired found).mp one
    have edge := (mem_successors_iff built wired).mpr ⟨b, i, found, last, Or.inl leads⟩
    rw [one]
    exact ⟨List.cons_subset.mpr ⟨edge, List.nil_subset _⟩, Nat.le_refl _⟩

/-- Calls are last in their blocks, so a block is called from the end of a block. -/
theorem called_iff {b : Block} (found : flow.block? id = some b) :
    b.called ↔ ∃ i ∈ code, i.opcode = .call ∧ flow.LeadsTo code i id := by
  rw [wired.called id b found]
  simp only [destination?_eq_some_iff built]
  constructor
  · rintro ⟨source, i, last, call, leads⟩
    obtain ⟨block, here, atEnd⟩ := Option.bind_eq_some_iff.mp last
    exact ⟨i, mem_of_mem_cutBlocks (List.mem_of_getElem? here) (List.mem_of_getLast? atEnd),
      call, leads⟩
  · rintro ⟨i, member, call, label, target, stands⟩
    obtain ⟨block, cut, last⟩ := exists_block_of_jumpTarget? member target
    obtain ⟨source, here⟩ := List.getElem?_of_mem cut
    exact ⟨source, i, by rw [exit?, here, Option.bind_some, last], call, label, target, stands⟩

theorem transfers_of_wired : flow.Transfers code where
  edges _ _ := mem_successors_iff built wired
  within _ _ found := conditional_within built wired found
  conditional _ _ _ found := conditional_eq_singleton_iff built wired found
  called _ _ found := called_iff built wired found

end WiredGraph

/-! ### Labels that are not defined -/

/-- Whether the instruction at a position jumps to or calls a label that is not defined. -/
def Unresolved (code : List Instruction) (position : Nat) (i : Instruction) (label : String) :
    Prop :=
  code[position]? = some i ∧ i.jumpTarget? = some label ∧ ∀ j ∈ code, j.definedLabel? ≠ some label

/-- Whether a cause names the first jump or call to a label that is not defined. -/
def FirstUnresolved (code : List Instruction) (cause : Inconsistency) : Prop :=
  ∃ position i label, Unresolved code position i label ∧
    (∀ earlier < position, ∀ j other, ¬ Unresolved code earlier j other) ∧
    cause = .unresolvedLabel label i.opcode position

theorem FirstUnresolved.unique {first second : Inconsistency} (one : FirstUnresolved code first)
    (two : FirstUnresolved code second) : first = second := by
  obtain ⟨p, i, label, here, before, rfl⟩ := one
  obtain ⟨q, j, other, there, behind, rfl⟩ := two
  rcases Nat.lt_trichotomy p q with less | rfl | more
  · exact absurd here (behind p less i label)
  · obtain rfl := Option.some.inj (here.1.symm.trans there.1)
    obtain rfl := Option.some.inj (here.2.1.symm.trans there.2.1)
    rfl
  · exact absurd there (before q more j other)

theorem firstUnresolved_of_stopsWith {cause : Inconsistency}
    (stops : StopsWith (blockLabels 0 (cutBlocks code) {}) 0 (cutBlocks code) cause) :
    FirstUnresolved code cause := by
  obtain ⟨before, block, after, i, label, cut, last, target, unknown, known, rfl⟩ := stops
  obtain ⟨head, rfl⟩ := List.getLast?_eq_some_iff.mp last
  have split : code = before.flatten ++ head ++ i :: after.flatten := by
    rw [eq_of_cut cut, List.append_assoc, List.append_assoc, List.singleton_append]
  refine ⟨(before.flatten ++ head).length, i, label, ⟨?_, target, ?_⟩, ?_, ?_⟩
  · rw [split, List.getElem?_append_right (Nat.le_refl _), Nat.sub_self, List.getElem?_cons_zero]
  · intro j member defines
    have defined := isSome_labels.mpr ⟨j, member, defines⟩
    rw [unknown] at defined
    cases defined
  · -- an earlier jump is the last instruction of an earlier block
    rintro earlier less j other ⟨here, leads, undefined⟩
    rw [split, List.getElem?_append_left less] at here
    have terminator := isTerminator_of_jumpTarget? leads
    rcases List.mem_append.mp (List.mem_of_getElem? here) with inBefore | inHead
    · obtain ⟨ahead, member, inside⟩ := List.mem_flatten.mp inBefore
      have straight : Straight ahead :=
        straight_of_mem_cutBlocks (by rw [cut]; exact List.mem_append_left _ member)
      have atEnd := straight.getLast?_of_terminator inside terminator
      obtain ⟨k, there, defines⟩ := isSome_labels.mp (known ahead member j atEnd other leads)
      exact undefined k there defines
    · refine (straight_of_cut cut).terminators j ?_ terminator
      rwa [List.dropLast_concat]
  · rw [List.length_append, List.length_append, List.length_singleton, Nat.zero_add]
    congr 1

theorem firstUnresolved_of_build {cause : Inconsistency} (failed : build code = .error cause) :
    FirstUnresolved code cause := by
  rw [build_eq, buildBlocks] at failed
  cases connected : connectBlocks (cutBlocks code).length (blockLabels 0 (cutBlocks code) {}) 0 0
      (cutBlocks code) (isolated (cutBlocks code)) with
  | ok graph =>
    rw [connected] at failed
    cases failed
  | error found =>
    rw [connected] at failed
    obtain rfl := Except.error.inj failed
    exact firstUnresolved_of_stopsWith (stopsWith_of_connectBlocks connected)

theorem Unresolved.exists_error {position : Nat} (unresolved : Unresolved code position i label) :
    ∃ cause, build code = .error cause := by
  obtain ⟨here, target, undefined⟩ := unresolved
  cases built : build code with
  | error cause => exact ⟨cause, rfl⟩
  | ok flow =>
    obtain ⟨j, member, defines⟩ :=
      isOk_build.mp (by rw [built]; rfl) i (List.mem_of_getElem? here) label target
    exact absurd defines (undefined j member)

theorem build_eq_error_iff {cause : Inconsistency} :
    build code = .error cause ↔ FirstUnresolved code cause := by
  refine ⟨firstUnresolved_of_build, fun first => ?_⟩
  have ⟨_, _, _, unresolved, _⟩ := first
  obtain ⟨found, failed⟩ := unresolved.exists_error
  rw [failed, first.unique (firstUnresolved_of_build failed)]

/-- If operand 0 of every jump is a label, then building fails exactly if a jump or a call leads to
a label that is not defined, at the first such instruction, and the edges of a graph that is built
are the transfers that the program can make. -/
theorem edges_are_transfers
    (labelled : ∀ i ∈ code, i.opcode.isJump → (i.operands.head?.bind Operand.label?).isSome) :
    (∀ cause, build code = .error cause ↔ FirstUnresolved code cause) ∧
      ((∃ cause, build code = .error cause) ↔
        ∃ position i label, Unresolved code position i label) ∧
      ∀ flow, build code = .ok flow → flow.Transfers code := by
  refine ⟨fun _ => build_eq_error_iff, ⟨?_, ?_⟩,
    fun flow built => transfers_of_wired built (wired_of_build built ?_)⟩
  · rintro ⟨cause, failed⟩
    obtain ⟨position, i, label, unresolved, -⟩ := firstUnresolved_of_build failed
    exact ⟨position, i, label, unresolved⟩
  · rintro ⟨position, i, label, unresolved⟩
    exact unresolved.exists_error
  · intro i member jumps
    rw [Instruction.jumpTarget?, if_pos jumps]
    exact labelled i member jumps

/-- A loop that calls a function, with a label that is defined twice. -/
def callingLoop : List Instruction :=
  [{ opcode := .label, operands := [.label "again"] },
   { opcode := .jump, operands := [.label "loop"] },
   { opcode := .label, operands := [.label "loop"] },
   { opcode := .call, operands := [.label "again"] },
   { opcode := .jumpifneqs, operands := [.label "loop"] },
   { opcode := .jumpifeqs, operands := [.label "again"] },
   { opcode := .label, operands := [.label "again"] },
   { opcode := .ret, operands := [] }]

/-- Two calls of functions that are not there. -/
def strayCalls : List Instruction :=
  [{ opcode := .jump, operands := [.label "main"] },
   { opcode := .label, operands := [.label "main"] },
   { opcode := .call, operands := [.label "f"] },
   { opcode := .call, operands := [.label "g"] }]

/-- In `callingLoop` the second definition of the label counts, for the call and for the jump that
leads to the next block anyway. In `strayCalls` the first of the two calls is reported. -/
theorem edges_are_transfers_callingLoop :
    (∃ flow, build callingLoop = .ok flow ∧
      (List.range 5).map flow.graph.successors = [[1], [2, 4], [1, 3], [4], []] ∧
      flow.blocks.map (fun b => (b.conditional, b.called)) =
        [([], false), ([], false), ([1], false), ([], false), ([], true)] ∧
      flow.Transfers callingLoop) ∧
    FirstUnresolved strayCalls (.unresolvedLabel "f" .call 2) :=
  ⟨⟨_, rfl, rfl, rfl, (edges_are_transfers (by decide)).2.2 _ rfl⟩,
    ((edges_are_transfers (by decide)).1 _).mp rfl⟩

end Build

end Flow

end ThreeAddress
