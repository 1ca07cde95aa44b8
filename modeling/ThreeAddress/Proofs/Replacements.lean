/-
What the standard rules find and what they put in its place. Two of them only
delete, and only where nothing is marked; the other three merge two instructions
into one, which takes the opening markers and the effects of the first and the
closing markers of the second. `Replaces` lists the possibilities with
everything that is known where one applies, so that a fact about rewriting by
the standard rules is a case analysis over it, and a fact about a pass follows
by going along its rewrites.
-/
import ThreeAddress.Proofs.PeepholeSoundness

namespace ThreeAddress.Peephole

/-! ### One replacement -/

/-- The instruction with the given opcode and operands that takes the place of two others. -/
def merged (first second : Instruction) (opcode : Opcode) (operands : List Operand) :
    Instruction where
  opcode := opcode
  operands := operands
  markers := first.markers.starts.union second.markers.ends
  effects := first.effects

/-- Which two instructions are merged, and into what. -/
inductive Merges : Instruction → Instruction → Opcode → List Operand → Prop
  /-- A jump to the next instruction. -/
  | jump {first second : Instruction} {label : String} (jumps : first.opcode = .jump)
    (leads : first.jumpTarget? = some label) (defines : second.definedLabel? = some label) :
    Merges first second .label [.label label]
  /-- A value that is pushed and popped. -/
  | store {first second : Instruction} {source : Operand} {v : Variable}
    {rest others : List Operand} (pushes : first.opcode = .pushs)
    (pushed : first.operands = source :: rest) (pops : second.opcode = .pops)
    (popped : second.operands = .var v :: others) :
    Merges first second .move [.var v, source]
  /-- A move that the next one makes useless. -/
  | overwrite {first second : Instruction} {v : Variable} {kept : Operand} {others : List Operand}
    (moves : first.opcode = .move) (again : second.opcode = .move)
    (overwritten : second.operands = .var v :: kept :: others) :
    Merges first second .move [.var v, kept]

/-- What a standard rule finds at a place of a program with the given counts, and what it puts
there. -/
inductive Replaces (usage : Usage) : List Instruction → List Instruction → Prop
  /-- A frame without use is dropped. -/
  | frame {create push pop : Instruction} (creates : create.opcode = .createframe)
    (pushes : push.opcode = .pushframe) (pops : pop.opcode = .popframe)
    (unmarked : ∀ i ∈ [create, push, pop], i.markers.isEmpty) :
    Replaces usage [create, push, pop] []
  /-- A jump to the next instruction is dropped with its label, to which nothing else refers. -/
  | jump {first second : Instruction} {label : String} (jumps : first.opcode = .jump)
    (leads : first.jumpTarget? = some label) (defines : second.definedLabel? = some label)
    (sole : usage.references label = 1) (unmarked : ∀ i ∈ [first, second], i.markers.isEmpty) :
    Replaces usage [first, second] []
  /-- Two instructions are merged, of which the first closes nothing and the second opens
  nothing. -/
  | pair {first second : Instruction} {opcode : Opcode} {operands : List Operand}
    (merges : Merges first second opcode operands) (unclosed : ¬ first.markers.hasEnd)
    (unopened : ¬ second.markers.hasStart) :
    Replaces usage [first, second] [merged first second opcode operands]

theorem isEmpty_of_keepsBoundaries {rule : Rule} {span : List Instruction}
    (keeps : keepsBoundaries rule span) (deletes : rule.replacement = []) :
    ∀ i ∈ span, i.markers.isEmpty := by
  unfold keepsBoundaries at keeps
  simp only [deletes, List.isEmpty_nil, Bool.and_true, Bool.and_eq_true, Bool.not_eq_true',
    List.any_eq_false] at keeps
  intro i member
  simpa using keeps.2 i member

theorem carryBoundaries_nil (span : List Instruction) : carryBoundaries span [] = [] := by
  unfold carryBoundaries
  split <;> rfl

/-- The one instruction for a single substitute takes the markers of both ends. -/
theorem carryBoundaries_single {bindings : Bindings} {substitute : Substitute}
    {instances : List Instruction} {operands : List Operand}
    (bound : substitute.aliases.filterMap bindings.get? = operands)
    (made : [substitute].mapM (Substitute.instantiate? bindings) = some instances)
    (first second : Instruction) :
    carryBoundaries [first, second] instances =
      [merged first second substitute.opcode operands] := by
  rw [List.mapM_cons] at made
  obtain ⟨i, instantiated, rest⟩ := Option.bind_eq_some_iff.mp made
  rw [List.mapM_nil] at rest
  obtain rfl := Option.some_inj.mp rest
  unfold Substitute.instantiate? Instruction.make? at instantiated
  split at instantiated
  · obtain rfl := Option.some_inj.mp instantiated
    rw [bound]
    simp [carryBoundaries, markFirst, markLast, merged, Markers.union, Markers.starts, Markers.ends]
  · exact absurd instantiated (by simp)

/-- Wherever a standard rule fires, it replaces. -/
theorem replaces_of_fire? {rule : Rule} (member : rule ∈ standard) {usage : Usage}
    {span after replacement : List Instruction} (length : span.length = rule.pattern.length)
    (fires : rule.fire? usage (span ++ after) = some replacement) :
    Replaces usage span replacement := by
  obtain ⟨-, bindings, instances, matched, keeps, made, rfl⟩ := Rule.exists_match_of_fire? fires
  have whole : rule.span (span ++ after) = span := by
    rw [Rule.span, ← length, List.take_left]
  rw [whole] at keeps ⊢
  simp only [standard, List.mem_cons, List.not_mem_nil, or_false] at member
  rcases member with rfl | rfl | rfl | rfl | rfl
  · obtain ⟨create, push, pop, rfl⟩ := List.length_eq_three.mp length
    obtain ⟨creates, _, -, matched⟩ := matchPattern?_cons matched
    obtain ⟨pushes, _, -, matched⟩ := matchPattern?_cons matched
    obtain ⟨pops, -⟩ := matchPattern?_cons matched
    obtain rfl : [] = instances := Option.some_inj.mp made
    rw [carryBoundaries_nil]
    exact .frame creates pushes pops (isEmpty_of_keepsBoundaries keeps rfl)
  · obtain ⟨first, second, rfl⟩ := List.length_eq_two.mp length
    obtain ⟨label, jumps, leads, -, defines, sole, -⟩ := exists_jump_of_match matched
    obtain rfl : [] = instances := Option.some_inj.mp made
    rw [carryBoundaries_nil]
    exact .jump jumps leads defines (by simpa [Quantity.admits] using sole)
      (isEmpty_of_keepsBoundaries keeps rfl)
  all_goals
    obtain ⟨first, second, rfl⟩ := List.length_eq_two.mp length
    have edges : ¬ first.markers.hasEnd ∧ ¬ second.markers.hasStart := by
      simpa [keepsBoundaries, edgesOnly, jumpToNext, pushPop, overwrittenMove] using keeps
  · obtain ⟨label, jumps, leads, -, defines, -, known⟩ := exists_jump_of_match matched
    have bound : ["l"].filterMap bindings.get? = [.label label] := by simp [known]
    rw [carryBoundaries_single bound made]
    exact .pair (.jump jumps leads defines) edges.1 edges.2
  · obtain ⟨source, v, rest, others, pushes, pushed, pops, popped, a, b⟩ :=
      exists_push_of_match matched
    have bound : ["b", "a"].filterMap bindings.get? = [.var v, source] := by
      simp only [List.filterMap_cons, b, a, List.filterMap_nil]
    rw [carryBoundaries_single bound made]
    exact .pair (.store pushes pushed pops popped) edges.1 edges.2
  · obtain ⟨v, lost, kept, rest, others, moves, -, again, overwritten, -, a, c⟩ :=
      exists_moves_of_match matched
    have bound : ["a", "c"].filterMap bindings.get? = [.var v, kept] := by
      simp only [List.filterMap_cons, c, a, List.filterMap_nil]
    rw [carryBoundaries_single bound made]
    exact .pair (.overwrite moves again overwritten) edges.1 edges.2

end ThreeAddress.Peephole
