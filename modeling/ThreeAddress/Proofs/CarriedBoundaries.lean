/-
A peephole pass keeps the boundaries that are marked in a program. Read in
program order, each instruction first opens something and then closes something,
if it does; where an expression is opened, the instruction holds the effects of
that expression. A rule applies to a span only if nothing is opened behind its
first instruction and nothing closed before its last one, so the boundaries of a
span are what its first instruction opens and its last one closes. Of the
replacement, the first instruction opens the one and the last closes the other,
whether or not they are the same; and where there is no replacement, nothing was
marked.
-/
import ThreeAddress.Proofs.Replacements
import ThreeAddress.Proofs.StoredPass

namespace ThreeAddress

/-! ### The boundaries of a program -/

/-- A set of markers that open something, or of markers that close something. -/
structure Boundary where
  markers : Markers
  /-- The effects that are held where an expression starts. -/
  effects : Option Effects
deriving DecidableEq, Repr

namespace Markers

/-- What markers open, with the effects that are held there. -/
def openings (m : Markers) (effects : Effects) : List Boundary :=
  if m.hasStart then [⟨m.starts, if m.expressionStart then some effects else none⟩] else []

/-- What markers close. -/
def closings (m : Markers) : List Boundary :=
  if m.hasEnd then [⟨m.ends, none⟩] else []

variable {m other : Markers} {effects : Effects}

theorem openings_of_not (none : ¬ m.hasStart) : m.openings effects = [] :=
  if_neg none

theorem closings_of_not (none : ¬ m.hasEnd) : m.closings = [] :=
  if_neg none

@[simp] theorem openings_union_ends (m other : Markers) (effects : Effects) :
    (m.union other.ends).openings effects = m.openings effects := by
  simp [openings, union, ends, hasStart, starts]

@[simp] theorem closings_union_starts (m other : Markers) :
    (m.union other.starts).closings = m.closings := by
  simp [closings, union, starts, hasEnd, ends]

theorem openings_union_starts (none : ¬ m.hasStart) :
    (m.union other.starts).openings effects = other.openings effects := by
  simp_all [openings, union, starts, hasStart]

theorem closings_union_ends (none : ¬ m.hasEnd) :
    (m.union other.ends).closings = other.closings := by
  simp_all [closings, union, ends, hasEnd]

end Markers

/-- The boundaries at an instruction. -/
def Instruction.boundaries (i : Instruction) : List Boundary :=
  i.markers.openings i.effects ++ i.markers.closings

/-- The boundaries in a program, in program order. -/
def boundaries (code : List Instruction) : List Boundary :=
  code.flatMap Instruction.boundaries

@[simp] theorem boundaries_nil : boundaries [] = [] := rfl

@[simp] theorem boundaries_cons (i : Instruction) (rest : List Instruction) :
    boundaries (i :: rest) =
      i.markers.openings i.effects ++ (i.markers.closings ++ boundaries rest) := by
  rw [boundaries, List.flatMap_cons, Instruction.boundaries, List.append_assoc]
  rfl

theorem boundaries_of_unmarked {code : List Instruction}
    (unmarked : ∀ i ∈ code, i.markers.isEmpty) : boundaries code = [] := by
  refine List.flatMap_eq_nil_iff.mpr fun i member => ?_
  have empty := unmarked i member
  rw [Markers.isEmpty, Bool.and_eq_true, Bool.not_eq_true', Bool.not_eq_true'] at empty
  rw [Instruction.boundaries, Markers.openings_of_not (by simp [empty.1]),
    Markers.closings_of_not (by simp [empty.2])]
  rfl

/-- An expression starts at an instruction if and only if there is a boundary with its effects. -/
theorem mem_boundaries_iff {code : List Instruction} {effects : Effects} :
    (∃ boundary ∈ boundaries code, boundary.effects = some effects) ↔
      ∃ i ∈ code, i.markers.expressionStart ∧ i.effects = effects := by
  constructor
  · rintro ⟨boundary, member, held⟩
    obtain ⟨i, inside, here⟩ := List.mem_flatMap.mp member
    refine ⟨i, inside, ?_⟩
    rcases List.mem_append.mp here with opened | closed
    · unfold Markers.openings at opened
      split at opened
      · obtain rfl := List.mem_singleton.mp opened
        simpa using held
      · exact absurd opened List.not_mem_nil
    · unfold Markers.closings at closed
      split at closed
      · obtain rfl := List.mem_singleton.mp closed
        exact absurd held (by simp)
      · exact absurd closed List.not_mem_nil
  · rintro ⟨i, inside, starts, rfl⟩
    refine ⟨⟨i.markers.starts, some i.effects⟩, List.mem_flatMap.mpr ⟨i, inside, ?_⟩, rfl⟩
    refine List.mem_append_left _ ?_
    simp [Markers.openings, Markers.hasStart, starts]

namespace Peephole

/-! ### The boundaries of a span and of its replacement -/

/-- The boundaries of a span are those at its ends. -/
theorem boundaries_of_edgesOnly {first last : Instruction} {rest : List Instruction}
    (edges : edgesOnly (first :: rest)) (ends : (first :: rest).getLast? = some last) :
    boundaries (first :: rest) = first.markers.openings first.effects ++ last.markers.closings := by
  induction rest generalizing first with
  | nil =>
    obtain rfl : first = last := by simpa using ends
    rw [boundaries_cons, boundaries_nil, List.append_nil]
  | cons next rest inductionHypothesis =>
    rw [edgesOnly, Bool.and_eq_true, Bool.and_eq_true, Bool.not_eq_true',
      Bool.not_eq_true'] at edges
    obtain ⟨⟨unclosed, unopened⟩, later⟩ := edges
    rw [List.getLast?_cons_cons] at ends
    rw [boundaries_cons, inductionHypothesis later ends,
      @Markers.closings_of_not first.markers (by simp [unclosed]),
      @Markers.openings_of_not next.markers _ (by simp [unopened]), List.nil_append,
      List.nil_append]

/-- Behind its first instruction, a span opens nothing. -/
theorem not_hasStart_of_edgesOnly {first : Instruction} {rest : List Instruction}
    (edges : edgesOnly (first :: rest)) : ∀ i ∈ rest, ¬ i.markers.hasStart := by
  induction rest generalizing first with
  | nil => simp
  | cons next rest inductionHypothesis =>
    rw [edgesOnly, Bool.and_eq_true, Bool.and_eq_true, Bool.not_eq_true',
      Bool.not_eq_true'] at edges
    exact List.forall_mem_cons.mpr ⟨by simp [edges.1.2], inductionHypothesis edges.2⟩

theorem boundaries_markFirst {i : Instruction} (unmarked : ¬ i.markers.hasStart) (m : Markers)
    (effects : Effects) (rest : List Instruction) :
    boundaries (markFirst m.starts effects (i :: rest)) =
      m.openings effects ++ (i.markers.closings ++ boundaries rest) := by
  rw [markFirst, boundaries_cons, Markers.openings_union_starts unmarked,
    Markers.closings_union_starts]

theorem boundaries_markLast {m : Markers} {code : List Instruction} (nonempty : code ≠ [])
    (unmarked : ∀ i ∈ code, ¬ i.markers.hasEnd) :
    boundaries (markLast m.ends code) = boundaries code ++ m.closings := by
  generalize same : m.ends = ends
  fun_induction markLast ends code with
  | case1 => exact absurd rfl nonempty
  | case2 i =>
    have plain := unmarked i List.mem_cons_self
    subst same
    rw [boundaries_cons, boundaries_cons, Markers.openings_union_ends,
      Markers.closings_union_ends plain, Markers.closings_of_not plain]
    simp
  | case3 i rest more inductionHypothesis =>
    rw [boundaries_cons, boundaries_cons, inductionHypothesis more fun j member =>
      unmarked j (List.mem_cons_of_mem _ member)]
    simp

theorem edgesOnly_of_keepsBoundaries {rule : Rule} {span : List Instruction}
    (keeps : keepsBoundaries rule span) : edgesOnly span := by
  rw [keepsBoundaries, Bool.and_eq_true] at keeps
  exact keeps.1

/-- Where the boundaries of a span can be carried over, the replacement has them. -/
theorem boundaries_carryBoundaries {rule : Rule} {span : List Instruction} (nonempty : span ≠ [])
    (keeps : keepsBoundaries rule span) (bindings : Bindings) :
    boundaries (carryBoundaries span (rule.replacement.map (Substitute.written bindings))) =
      boundaries span := by
  obtain ⟨first, rest, rfl⟩ := List.exists_cons_of_ne_nil nonempty
  cases replacement : rule.replacement with
  | nil =>
    rw [List.map_nil, carryBoundaries_nil, boundaries_nil,
      boundaries_of_unmarked (isEmpty_of_keepsBoundaries keeps replacement)]
  | cons substitute others =>
    have edges := edgesOnly_of_keepsBoundaries keeps
    have ends := List.getLast?_eq_some_getLast (List.cons_ne_nil first rest)
    have plain : boundaries (others.map (Substitute.written bindings)) = [] :=
      boundaries_of_unmarked fun i member => by
        obtain ⟨other, -, rfl⟩ := List.mem_map.mp member
        rfl
    have marked := boundaries_markFirst (i := substitute.written bindings)
      (by simp [Substitute.written, Markers.hasStart]) first.markers first.effects
      (others.map (Substitute.written bindings))
    rw [plain, List.append_nil, Markers.closings_of_not
      (by simp [Substitute.written, Markers.hasEnd]), List.append_nil] at marked
    rw [boundaries_of_edgesOnly edges ends, ← marked, List.map_cons]
    simp only [carryBoundaries, List.head?_cons, ends]
    refine boundaries_markLast (by simp [markFirst]) fun i member => ?_
    rw [markFirst, List.mem_cons] at member
    rcases member with rfl | later
    · simp [Substitute.written, Markers.union, Markers.starts, Markers.hasEnd]
    · obtain ⟨other, -, rfl⟩ := List.mem_map.mp later
      simp [Substitute.written, Markers.hasEnd]

/-! ### Whole passes -/

section Passes

variable {rules : List Rule}

/-- A step is about a span with markers at its ends only, and keeps its boundaries. -/
theorem boundaries_step {code : List Instruction} {usage : Usage} {step : Step}
    (member : step ∈ greedy rules code usage) :
    edgesOnly step.before ∧ boundaries step.after = boundaries step.before := by
  cases step with
  | keep i => exact ⟨rfl, rfl⟩
  | replace rule bindings span =>
    obtain ⟨-, rest, now, rfl, matched⟩ := exists_match_of_mem_greedy member
    obtain ⟨nonempty, pattern, keeps⟩ := matchPattern?_of_match? matched
    have enough := length_le_of_matchPattern? pattern
    have positive := List.length_pos_iff.mpr nonempty
    have room : rule.span rest ≠ [] := by
      rw [← List.length_pos_iff, Rule.span, List.length_take]
      omega
    exact ⟨edgesOnly_of_keepsBoundaries keeps, boundaries_carryBoundaries room keeps bindings⟩

theorem boundaries_greedy (rules : List Rule) (code : List Instruction) (usage : Usage) :
    boundaries ((greedy rules code usage).flatMap Step.after) = boundaries code := by
  calc boundaries ((greedy rules code usage).flatMap Step.after)
      = (greedy rules code usage).flatMap fun step => boundaries step.after := List.flatMap_assoc
    _ = (greedy rules code usage).flatMap fun step => boundaries step.before := by
        rw [List.flatMap, List.flatMap,
          List.map_congr_left fun step member => (boundaries_step member).2]
    _ = boundaries ((greedy rules code usage).flatMap Step.before) := List.flatMap_assoc.symm
    _ = boundaries code := by rw [flatMap_before_greedy]

/-- With rules that were accepted, a pass over a stored program leaves the boundaries as they were:
the same markers are opened and closed in the same order, and where an expression starts the same
effects are held. In each single step, the effects that were held by a first instruction at which an
expression started are held by the instruction at which it starts now. -/
theorem boundaries_survive_pass (accepted : ∀ rule ∈ rules, rule.Accepted) (s : Store)
    (usage : Usage) :
    ∃ edit, passOver rules s usage = some edit ∧
      edit.store.code = (greedy rules s.code usage).flatMap Step.after ∧
      boundaries edit.store.code = boundaries s.code ∧
      ∀ step ∈ greedy rules s.code usage, ∀ first ∈ step.before.head?,
        first.markers.expressionStart →
          (∃ i ∈ step.after, i.markers.expressionStart) ∧
            ∀ i ∈ step.after, i.markers.expressionStart → i.effects = first.effects := by
  obtain ⟨edit, passed, same⟩ := toEdit_passOver accepted s usage
  have code : edit.store.code = (greedy rules s.code usage).flatMap Step.after :=
    congrArg Edit.code same
  refine ⟨edit, passed, code, by rw [code, boundaries_greedy], fun step member first here starts =>
    ?_⟩
  obtain ⟨edges, kept⟩ := boundaries_step member
  obtain ⟨rest, split⟩ := List.head?_eq_some_iff.mp here
  have before {effects : Effects} :
      (∃ i ∈ step.after, i.markers.expressionStart ∧ i.effects = effects) ↔
        ∃ i ∈ step.before, i.markers.expressionStart ∧ i.effects = effects := by
    rw [← mem_boundaries_iff, ← mem_boundaries_iff, kept]
  rw [split] at before edges
  constructor
  · obtain ⟨i, left, marked, -⟩ := before.mpr ⟨first, List.mem_cons_self, starts, rfl⟩
    exact ⟨i, left, marked⟩
  · intro i left marked
    obtain ⟨j, inside, opened, same⟩ := before.mp ⟨i, left, marked, rfl⟩
    obtain rfl | behind := List.mem_cons.mp inside
    · exact same.symm
    · exact absurd (by simp [Markers.hasStart, opened]) (not_hasStart_of_edgesOnly edges j behind)

/-- An expression that is pushed and popped, an instruction that opens one thing and closes another,
and a frame without use. -/
def bracketed : Store :=
  .ofCode
    [{ opcode := .pushs, operands := [.const (.int 1)], markers := { expressionStart := true },
       effects := { input := true } },
     { opcode := .pops, operands := [.var ⟨.gf, "x"⟩], markers := { expressionEnd := true } },
     { opcode := .write, operands := [.var ⟨.gf, "x"⟩],
       markers := { expressionStart := true, functionEnd := true }, effects := { output := true } },
     { opcode := .createframe, operands := [] },
     { opcode := .pushframe, operands := [] },
     { opcode := .popframe, operands := [] }]

/-- Two marked instructions become one, a marked one becomes two, and unmarked ones go. -/
theorem boundaries_survive_pass_bracketed :
    (∀ rule ∈ echoed :: standard, rule.Accepted) ∧
      ∃ edit, passOver (echoed :: standard) bracketed {} = some edit ∧
        edit.store.code.map Instruction.opcode = [.move, .write, .dprint] ∧
        boundaries edit.store.code = boundaries bracketed.code ∧
        boundaries bracketed.code =
          [⟨{ expressionStart := true }, some { input := true }⟩,
           ⟨{ expressionEnd := true }, none⟩,
           ⟨{ expressionStart := true }, some { output := true }⟩,
           ⟨{ functionEnd := true }, none⟩] := by
  obtain ⟨edit, passed, -, same, -⟩ := boundaries_survive_pass accepted_echoed bracketed {}
  have opcodes : (passOver (echoed :: standard) bracketed {}).map (fun edit =>
      edit.store.code.map Instruction.opcode) = some [.move, .write, .dprint] := by decide +kernel
  rw [passed, Option.map_some, Option.some_inj] at opcodes
  exact ⟨accepted_echoed, edit, passed, opcodes, same, by decide +kernel⟩

end Passes

end Peephole

end ThreeAddress
