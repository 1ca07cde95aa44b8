/-
When the control-flow graph of a program can be built. Blocks are cut so that a
label stands at the start of a block and a jump at its end; so the labels that
blocks start with are all labels of the program, the jumps that blocks end with
are all its jumps, and building succeeds exactly if every jump and every call
leads to a label that is defined.
-/
import ThreeAddress.Proofs.Counting
import ThreeAddress.Proofs.Cutting

namespace ThreeAddress

/-! ### The shape of blocks -/

/-- Whether a run of instructions is entered at its first one and left at its last one only. -/
structure Straight (block : List Instruction) : Prop where
  nonempty : block ≠ []
  labels : ∀ i ∈ block.tail, i.opcode ≠ .label
  terminators : ∀ i ∈ block.dropLast, ¬ i.opcode.isTerminator

theorem Straight.cons {i : Instruction} {block : List Instruction} (straight : Straight block)
    (goesOn : ¬ i.opcode.isTerminator) (unlabelled : ¬ startsWithLabel block) :
    Straight (i :: block) := by
  obtain ⟨first, rest, rfl⟩ := List.exists_cons_of_ne_nil straight.nonempty
  refine ⟨List.cons_ne_nil _ _, ?_, ?_⟩
  · rw [List.tail_cons, List.forall_mem_cons]
    exact ⟨by simpa [startsWithLabel] using unlabelled, straight.labels⟩
  · rw [List.dropLast_cons_cons, List.forall_mem_cons]
    exact ⟨goesOn, straight.terminators⟩

theorem straight_of_mem_cutBlocks {code block : List Instruction}
    (member : block ∈ cutBlocks code) : Straight block := by
  have single : ∀ i, Straight [i] := fun i => ⟨List.cons_ne_nil _ _, by simp, by simp⟩
  induction code generalizing block with
  | nil => exact absurd member (by simp [cutBlocks])
  | cons i rest inductionHypothesis =>
    unfold cutBlocks at member
    split at member
    · obtain rfl := List.mem_singleton.mp member
      exact single i
    · next first others cut =>
      rw [cut] at inductionHypothesis
      split at member
      · rcases List.mem_cons.mp member with rfl | old
        · exact single i
        · exact inductionHypothesis old
      · next joined =>
        rw [Bool.or_eq_true, not_or] at joined
        rcases List.mem_cons.mp member with rfl | old
        · exact (inductionHypothesis List.mem_cons_self).cons joined.1 joined.2
        · exact inductionHypothesis (List.mem_cons_of_mem _ old)

/-- The blocks are the program, cut into pieces. -/
theorem flatten_cutBlocks (code : List Instruction) : (cutBlocks code).flatten = code := by
  induction code with
  | nil => rfl
  | cons i rest inductionHypothesis =>
    unfold cutBlocks
    split
    · next cut =>
      rw [cut] at inductionHypothesis
      rw [← inductionHypothesis]
      rfl
    · next first others cut =>
      rw [cut] at inductionHypothesis
      split <;> rw [← inductionHypothesis] <;> rfl

theorem Straight.head?_of_label {block : List Instruction} {i : Instruction}
    (straight : Straight block) (member : i ∈ block) (label : i.opcode = .label) :
    block.head? = some i := by
  obtain ⟨first, rest, rfl⟩ := List.exists_cons_of_ne_nil straight.nonempty
  rcases List.mem_cons.mp member with rfl | behind
  · rfl
  · exact absurd label (straight.labels i behind)

theorem Straight.getLast?_of_terminator {block : List Instruction} {i : Instruction}
    (straight : Straight block) (member : i ∈ block) (terminator : i.opcode.isTerminator) :
    block.getLast? = some i := by
  rw [← List.dropLast_append_getLast straight.nonempty] at member
  rcases List.mem_append.mp member with before | last
  · exact absurd terminator (straight.terminators i before)
  · rw [List.getLast?_eq_some_getLast straight.nonempty, List.mem_singleton.mp last]

/-! ### Building -/

namespace Flow

theorem isSome_blockLabels {id : Nat} {blocks : List (List Instruction)} {labels : Table String Nat}
    {label : String} : ((blockLabels id blocks labels).get? label).isSome ↔
      (labels.get? label).isSome ∨
        ∃ block ∈ blocks, block.head?.bind Instruction.definedLabel? = some label := by
  induction blocks generalizing id labels with
  | nil => simp [blockLabels]
  | cons block rest inductionHypothesis =>
    unfold blockLabels
    simp only [inductionHypothesis, List.mem_cons, or_and_right, exists_or, exists_eq_left,
      ← or_assoc]
    refine or_congr_left ?_
    split
    · next name defined =>
      rw [defined, Table.put, Table.get?_alter, Option.some_inj]
      by_cases same : label = name
      · simp [same]
      · simp [same, Ne.symm same]
    · next undefined => simp [undefined]

/-- Edges can be added if the last instruction of no block leads to an unknown label. -/
theorem isOk_connectBlocks {count id first : Nat} {labels : Table String Nat}
    {blocks : List (List Instruction)} {graph : Graph Block} :
    (connectBlocks count labels id first blocks graph).isOk ↔
      ∀ block ∈ blocks, ∀ i, block.getLast? = some i → ∀ label, i.jumpTarget? = some label →
        (labels.get? label).isSome := by
  induction blocks generalizing id first graph with
  | nil => simp [connectBlocks, Except.isOk, Except.toBool]
  | cons block rest inductionHypothesis =>
    unfold connectBlocks
    rw [List.forall_mem_cons]
    dsimp only
    split
    · next empty => simp [empty, inductionHypothesis]
    · next i last =>
      unfold resolve
      cases target : i.jumpTarget? with
      | none => simpa [last, target, bind, Except.bind] using inductionHypothesis
      | some label =>
        cases found : labels.get? label with
        | none => simp [last, target, found, bind, Except.bind, Except.isOk, Except.toBool]
        | some block => simpa [last, target, found, bind, Except.bind] using inductionHypothesis

/-- Whether every jump and every call leads to a label that is defined. -/
def Resolved (code : List Instruction) : Prop :=
  ∀ i ∈ code, ∀ label, i.jumpTarget? = some label → ∃ j ∈ code, j.definedLabel? = some label

theorem isTerminator_of_jumpTarget? {i : Instruction} {label : String}
    (target : i.jumpTarget? = some label) : i.opcode.isTerminator := by
  unfold Instruction.jumpTarget? at target
  split at target
  · next jumps => rw [Opcode.isTerminator, jumps, Bool.true_or]
  · exact absurd target (by simp)

theorem mem_of_mem_cutBlocks {code block : List Instruction} {i : Instruction}
    (cut : block ∈ cutBlocks code) (member : i ∈ block) : i ∈ code := by
  rw [← flatten_cutBlocks code]
  exact List.mem_flatten.mpr ⟨block, cut, member⟩

/-- A jump or a call is the last instruction of its block. -/
theorem exists_block_of_jumpTarget? {code : List Instruction} {i : Instruction} {label : String}
    (member : i ∈ code) (target : i.jumpTarget? = some label) :
    ∃ block ∈ cutBlocks code, block.getLast? = some i := by
  obtain ⟨block, cut, inside⟩ := List.mem_flatten.mp (flatten_cutBlocks code ▸ member)
  exact ⟨block, cut, (straight_of_mem_cutBlocks cut).getLast?_of_terminator inside
    (isTerminator_of_jumpTarget? target)⟩

/-- The table of labels has every label that is defined. -/
theorem isSome_labels {code : List Instruction} {label : String} :
    ((blockLabels 0 (cutBlocks code) {}).get? label).isSome ↔
      ∃ j ∈ code, j.definedLabel? = some label := by
  rw [isSome_blockLabels, Table.get?_empty, Option.isSome_none, Bool.false_eq_true, false_or]
  constructor
  · rintro ⟨block, cut, defined⟩
    obtain ⟨j, head, defines⟩ := Option.bind_eq_some_iff.mp defined
    exact ⟨j, mem_of_mem_cutBlocks cut (List.mem_of_head? head), defines⟩
  · rintro ⟨j, member, defines⟩
    obtain ⟨block, cut, inside⟩ := List.mem_flatten.mp (flatten_cutBlocks code ▸ member)
    have head := (straight_of_mem_cutBlocks cut).head?_of_label inside
      (opcode_of_definedLabel? defines)
    exact ⟨block, cut, by rw [head]; exact defines⟩

/-- The graph can be built if and only if every jump and every call leads to a label that is
defined. -/
theorem isOk_build {code : List Instruction} : (build code).isOk ↔ Resolved code := by
  have built : (build code).isOk =
      (connectBlocks (cutBlocks code).length (blockLabels 0 (cutBlocks code) {}) 0 0
        (cutBlocks code) (isolated (cutBlocks code))).isOk := by
    rw [build_eq, buildBlocks]
    cases connectBlocks _ _ _ _ _ _ <;> rfl
  rw [built, isOk_connectBlocks]
  simp only [isSome_labels]
  constructor
  · intro known i member label target
    obtain ⟨block, cut, last⟩ := exists_block_of_jumpTarget? member target
    exact known block cut i last label target
  · intro resolved block cut i last
    exact resolved i (mem_of_mem_cutBlocks cut (List.mem_of_getLast? last))

end Flow

end ThreeAddress
