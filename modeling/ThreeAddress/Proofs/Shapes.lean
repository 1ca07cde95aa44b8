/-
The shape of instructions survives every pass. What the reader accepts has the
right number of operands, and each operand is of the kind that belongs at its
place; no change that a pass makes destroys this. What takes the place of a span
gets its operands from places of the same kind, and constants replace only
variables that are read, where they are admitted as well.

Nothing that passes look up is missing either: a rule that matches can be
instantiated, and the walk through the control-flow graph turns only to blocks
that are there.
-/
import ThreeAddress.Proofs.ChangeBound
import ThreeAddress.Proofs.Changes
import ThreeAddress.Proofs.ListingReread

namespace ThreeAddress

open Relation

/-! ### Regular instructions -/

namespace Instruction

/-- Whether an instruction has as many operands as its opcode takes, a label exactly where one is
defined, gone to or called, a data type exactly where one is read, and a variable where the opcode
needs a destination. -/
structure Regular (i : Instruction) : Prop where
  arity : i.operands.length = i.opcode.arity
  label : ∀ index, (∃ name, i.operands[index]? = some (.label name)) ↔ index = 0 ∧
    i.opcode ∈ [.label, .call, .jump, .jumpifeq, .jumpifneq, .jumpifeqs, .jumpifneqs]
  type : ∀ index, (∃ t, i.operands[index]? = some (.type t)) ↔ index = 1 ∧ i.opcode = .read
  target : i.opcode.definesTarget → ∃ v, i.operands[0]? = some (.var v)

end Instruction

theorem Purpose.admits_label {purpose : Purpose} {name : String} :
    purpose.admits (.label name) ↔ purpose = .label := by
  cases purpose <;> simp [admits]

theorem Purpose.admits_type {purpose : Purpose} {t : DataType} :
    purpose.admits (.type t) ↔ purpose = .type := by
  cases purpose <;> simp [admits]

theorem Purpose.eq_of_admits_var {purpose : Purpose} {v : Variable}
    (admitted : purpose.admits (.var v)) :
    purpose = .target ∨ purpose = .value := by
  cases purpose <;> simp_all [admits]

namespace Opcode

variable {opcode : Opcode} {index : Nat}

theorem purpose_eq_label_iff : opcode.purpose index = .label ↔ index = 0 ∧
    opcode ∈ [.label, .call, .jump, .jumpifeq, .jumpifneq, .jumpifeqs, .jumpifneqs] := by
  have labelled : (opcode.isJump ∨ opcode = .label) ↔
      opcode ∈ [.label, .call, .jump, .jumpifeq, .jumpifneq, .jumpifeqs, .jumpifneqs] := by
    cases opcode <;> decide
  rw [← labelled, purpose]
  grind

theorem purpose_eq_type_iff : opcode.purpose index = .type ↔ index = 1 ∧ opcode = .read := by
  rw [purpose]
  grind

theorem of_purpose_eq_target (target : opcode.purpose index = .target) :
    index = 0 ∧ opcode.definesTarget := by
  rw [purpose] at target
  grind

theorem purpose_of_target (defines : opcode.definesTarget) : opcode.purpose 0 = .target := by
  cases opcode <;> cases defines <;> rfl

theorem arity_pos_of_label
    (labelled : opcode ∈ [.label, .call, .jump, .jumpifeq, .jumpifneq, .jumpifeqs, .jumpifneqs]) :
    0 < opcode.arity := by
  simp only [List.mem_cons, List.not_mem_nil, or_false] at labelled
  rcases labelled with rfl | rfl | rfl | rfl | rfl | rfl | rfl <;> decide

theorem arity_pos_of_target (defines : opcode.definesTarget) : 0 < opcode.arity := by
  cases opcode <;> cases defines <;> decide

end Opcode

namespace Instruction

theorem Shaped.admits {i : Instruction} (shaped : i.Shaped) {index : Nat} {operand : Operand}
    (found : i.operands[index]? = some operand) : (i.opcode.purpose index).admits operand :=
  shaped.placed (operand, index) (List.mem_zipIdx_iff_getElem?.mpr found)

theorem Shaped.exists_operand {i : Instruction} (shaped : i.Shaped) {index : Nat}
    (inside : index < i.opcode.arity) : ∃ operand, i.operands[index]? = some operand ∧
      (i.opcode.purpose index).admits operand := by
  have bound : index < i.operands.length := by rw [shaped.wellFormed]; exact inside
  exact ⟨i.operands.get ⟨index, bound⟩, List.getElem?_eq_getElem bound,
    shaped.admits (List.getElem?_eq_getElem bound)⟩

theorem Shaped.regular {i : Instruction} (shaped : i.Shaped) : i.Regular where
  arity := shaped.wellFormed
  label index := by
    constructor
    · rintro ⟨name, found⟩
      have admitted := shaped.admits found
      rw [Purpose.admits_label, Opcode.purpose_eq_label_iff] at admitted
      exact admitted
    · rintro ⟨rfl, labelled⟩
      obtain ⟨operand, found, admitted⟩ :=
        shaped.exists_operand (Opcode.arity_pos_of_label labelled)
      rw [Opcode.purpose_eq_label_iff.mpr ⟨rfl, labelled⟩] at admitted
      cases operand <;> cases admitted
      exact ⟨_, found⟩
  type index := by
    constructor
    · rintro ⟨t, found⟩
      have admitted := shaped.admits found
      rw [Purpose.admits_type, Opcode.purpose_eq_type_iff] at admitted
      exact admitted
    · rintro ⟨rfl, reads⟩
      have second : 1 < i.opcode.arity := by rw [reads]; decide
      obtain ⟨operand, found, admitted⟩ := shaped.exists_operand second
      rw [Opcode.purpose_eq_type_iff.mpr ⟨rfl, reads⟩] at admitted
      cases operand <;> cases admitted
      exact ⟨_, found⟩
  target defines := by
    obtain ⟨operand, found, admitted⟩ := shaped.exists_operand (Opcode.arity_pos_of_target defines)
    rw [Opcode.purpose_of_target defines] at admitted
    cases operand <;> cases admitted
    exact ⟨_, found⟩

/-! ### Changes -/

theorem Shaped.of_statement {i j : Instruction} (same : i.statement = j.statement)
    (shaped : i.Shaped) : j.Shaped := by
  obtain ⟨opcode, operands⟩ := Prod.mk.inj same
  obtain ⟨wellFormed, placed, named⟩ := shaped
  rw [WellFormed, opcode, operands] at wellFormed
  rw [opcode, operands] at placed
  rw [operands] at named
  exact ⟨wellFormed, placed, named⟩

theorem length_mapSources (i : Instruction) (f : Operand → Operand) :
    (i.mapSources f).operands.length = i.operands.length := by
  unfold mapSources
  dsimp only
  split
  · cases i.operands <;> simp
  · rw [List.length_map]

/-- An operand stays, or it was a variable that is read and becomes a constant. -/
theorem operand_mapSources {known : Constants.Known} {i : Instruction} {index : Nat}
    {operand : Operand}
    (found : (i.mapSources (Constants.substitute known)).operands[index]? = some operand) :
    i.operands[index]? = some operand ∨
      ∃ v c, i.operands[index]? = some (.var v) ∧ operand = .const c ∧
        ¬ (index = 0 ∧ i.opcode.definesTarget) := by
  rw [Constants.operands_mapSources] at found
  obtain ⟨original, there, same⟩ := Option.map_eq_some_iff.mp found
  split at same
  · exact Or.inl (same ▸ there)
  · next read =>
    cases original with
    | var v =>
      cases bound : known.value? v with
      | none =>
        exact Or.inl (by simpa [← same, Constants.substitute, Operand.var?, bound] using there)
      | some c =>
        refine Or.inr ⟨v, c, there, ?_, read⟩
        simp [← same, Constants.substitute, Operand.var?, bound]
    | const _ | label _ | type _ => exact Or.inl (same ▸ there)

theorem Shaped.mapSources {i : Instruction} (shaped : i.Shaped) (known : Constants.Known) :
    (i.mapSources (Constants.substitute known)).Shaped where
  wellFormed := (length_mapSources i _).trans shaped.wellFormed
  placed := by
    rintro ⟨operand, index⟩ member
    rcases operand_mapSources (List.mem_zipIdx_iff_getElem?.mp member) with
      same | ⟨v, c, there, constant, read⟩
    · exact shaped.admits same
    · have value : i.opcode.purpose index = .value :=
        (Purpose.eq_of_admits_var (shaped.admits there)).resolve_left fun target =>
          read (Opcode.of_purpose_eq_target target)
      dsimp only at constant
      rw [constant]
      exact congrArg (Purpose.admits · (.const c)) value
  named := by
    intro operand member
    obtain ⟨index, found⟩ := List.mem_iff_getElem?.mp member
    rcases operand_mapSources found with same | ⟨v, c, -, rfl, -⟩
    · exact shaped.named operand (List.mem_of_getElem? same)
    · trivial

end Instruction

namespace Peephole

theorem shaped_move {first second : Instruction} {v : Variable} {source : Operand}
    (target : (Operand.var v).Named) (value : Purpose.value.admits source) (named : source.Named) :
    (merged first second .move [.var v, source]).Shaped := by
  refine ⟨rfl, ?_, ?_⟩
  · rintro ⟨operand, index⟩ member
    simp only [merged, List.zipIdx_cons, List.zipIdx_nil, List.mem_cons, List.not_mem_nil, or_false,
      Prod.mk.injEq] at member
    rcases member with ⟨rfl, rfl⟩ | ⟨rfl, rfl⟩
    · rfl
    · exact value
  · simpa [merged] using ⟨target, named⟩

/-- What takes the place of two shaped instructions is shaped: its operands come from places of the
same kind. -/
theorem Merges.shaped {first second : Instruction} {opcode : Opcode} {operands : List Operand}
    (merges : Merges first second opcode operands) (one : first.Shaped) (two : second.Shaped) :
    (merged first second opcode operands).Shaped := by
  cases merges with
  | @jump label jumps leads defines =>
    have named : (Operand.label label).Named := by
      rw [Instruction.definedLabel?, if_pos (Flow.opcode_of_definedLabel? defines)] at defines
      obtain ⟨operand, head, same⟩ := Option.bind_eq_some_iff.mp defines
      cases operand <;> cases same
      exact two.named _ (List.mem_of_head? head)
    refine ⟨rfl, ?_, by simpa [merged] using named⟩
    rintro ⟨operand, index⟩ member
    obtain ⟨rfl, rfl⟩ := Prod.mk.inj (List.mem_singleton.mp member)
    rfl
  | @store source v rest others pushes pushed pops popped =>
    have value : (first.opcode.purpose 0).admits source := one.admits (by rw [pushed]; rfl)
    rw [pushes] at value
    exact shaped_move (two.named _ (by rw [popped]; exact List.mem_cons_self)) value
      (one.named _ (by rw [pushed]; exact List.mem_cons_self))
  | @overwrite v kept others moves again overwritten =>
    have value : (second.opcode.purpose 1).admits kept := two.admits (by rw [overwritten]; rfl)
    rw [again] at value
    refine shaped_move (two.named _ ?_) value (two.named _ ?_) <;> simp [overwritten]

end Peephole

/-- Every change leaves shaped instructions. -/
theorem Change.shaped {pass : Pass} {code next : List Instruction} (change : Change pass code next)
    (shaped : ∀ i ∈ code, i.Shaped) : ∀ i ∈ next, i.Shaped := by
  have stated : ∀ {code next : List Instruction}, Thinned code next → (∀ i ∈ code, i.Shaped) →
      ∀ i ∈ next, i.Shaped := by
    intro code next thinned shaped i member
    obtain ⟨j, inside, same⟩ :=
      List.mem_map.mp (thinned.subset (List.mem_map_of_mem member))
    exact (shaped j inside).of_statement same
  cases change with
  | survey same => exact stated (Thinned.of_alike (Unused.alike_of_remarked same)) shaped
  | delete thinned => exact stated thinned shaped
  | rewrite counts replaces =>
    simp only [List.forall_mem_append] at shaped ⊢
    obtain ⟨before, span, after⟩ := shaped
    refine ⟨before, ?_, after⟩
    cases replaces with
    | frame creates pushes pops unmarked => exact fun _ member => absurd member List.not_mem_nil
    | jump jumps leads defines sole unmarked => exact fun _ member => absurd member List.not_mem_nil
    | pair merges unclosed unopened =>
      simp only [List.forall_mem_cons] at span ⊢
      exact ⟨merges.shaped span.1 span.2.1, fun _ member => absurd member List.not_mem_nil⟩
  | substitute known before i after =>
    simp only [List.forall_mem_append, List.forall_mem_cons] at shaped ⊢
    exact ⟨shaped.1, shaped.2.1.mapSources known, shaped.2.2⟩

namespace Optimiser

theorem shaped_after {code : List Instruction} (shaped : ∀ i ∈ code, i.Shaped) (limit : Nat)
    (pass : Pass) : ∀ i ∈ after limit pass code, i.Shaped := by
  suffices kept : ∀ next, ReflTransGen (Change pass) code next → ∀ i ∈ next, i.Shaped from
    kept _ (changes_after limit pass code)
  intro next changes
  induction changes with
  | refl => exact shaped
  | tail _ change inductionHypothesis => exact change.shaped inductionHypothesis

/-- A program and those that passes with the given limits leave of it one after the other. -/
def trail : List (Pass × Nat) → List Instruction → List (List Instruction)
  | [], code => [code]
  | (pass, limit) :: rest, code => code :: trail rest (after limit pass code)

theorem shaped_trail (steps : List (Pass × Nat)) {code : List Instruction}
    (shaped : ∀ i ∈ code, i.Shaped) : ∀ program ∈ trail steps code, ∀ i ∈ program, i.Shaped := by
  induction steps generalizing code with
  | nil => simpa [trail] using shaped
  | cons step rest inductionHypothesis =>
    exact List.forall_mem_cons.mpr
      ⟨shaped, inductionHypothesis (shaped_after shaped step.2 step.1)⟩

end Optimiser

/-! ### What passes look up -/

namespace Constants

/-- Whether a walk turns only to blocks that are there. -/
structure Walk.Inside (graph : Graph Block) (walk : Walk) : Prop where
  roots : ∀ id ∈ walk.roots, id ∈ graph.ids
  path : ∀ visit ∈ walk.path, visit.id ∈ graph.ids ∧ ∀ next ∈ visit.pending, next ∈ graph.ids

section Inside

variable {plan : Plan} {walk next : Walk}

theorem Walk.Inside.enter (inside : walk.Inside plan.flow.graph)
    (consistent : plan.flow.graph.Consistent) {id : Nat} (live : id ∈ plan.flow.graph.ids)
    (known : Known) (conditional : Bool) :
    (walk.enter plan id known conditional).Inside plan.flow.graph where
  roots := by
    rw [enter_eq]
    exact inside.roots
  path := by
    rw [path_enter]
    refine List.forall_mem_cons.mpr ⟨⟨live, fun next edge => ?_⟩, inside.path⟩
    exact Graph.mem_ids.mpr (consistent.target_contained edge)

theorem Walk.Inside.faces (inside : walk.Inside plan.flow.graph) {id : Nat} {known : Known}
    {conditional : Bool} {base : Walk} (faces : walk.Faces plan id known conditional base) :
    base.Inside plan.flow.graph ∧ id ∈ plan.flow.graph.ids := by
  obtain ⟨roots, path⟩ := inside
  cases faces with
  | root home left =>
    rw [left, List.forall_mem_cons] at roots
    exact ⟨⟨roots.2, path⟩, roots.1⟩
  | successor top left =>
    rw [top, List.forall_mem_cons] at path
    obtain ⟨⟨live, edges⟩, below⟩ := path
    rw [left, List.forall_mem_cons] at edges
    exact ⟨⟨roots, List.forall_mem_cons.mpr ⟨⟨live, edges.2⟩, below⟩⟩, edges.1⟩

theorem Walk.Inside.turn (inside : walk.Inside plan.flow.graph)
    (consistent : plan.flow.graph.Consistent) (turn : walk.Turn plan next) :
    next.Inside plan.flow.graph := by
  cases turn with
  | leave top done =>
    obtain ⟨roots, path⟩ := inside
    rw [top, List.forall_mem_cons] at path
    exact ⟨roots, path.2⟩
  | pass faces entered => exact (inside.faces faces).1
  | enter faces fresh =>
    obtain ⟨base, live⟩ := inside.faces faces
    exact base.enter consistent live _ _

theorem Walk.Inside.run (consistent : plan.flow.graph.Consistent) (steps : Nat)
    (inside : walk.Inside plan.flow.graph) : (walk.run plan steps).Inside plan.flow.graph :=
  Walk.run_induction (motive := Walk.Inside plan.flow.graph)
    (fun inside turn => inside.turn consistent turn) inside steps

end Inside

end Constants

namespace Optimiser

/-- Whether everything is there that passes look up when they work on a program: the operands of the
replacement where a rule matches, and the blocks that edges and the walk lead to. -/
structure Grounded (code : List Instruction) : Prop where
  rules : ∀ rule ∈ Peephole.standard, ∀ usage before rest, code = before ++ rest →
    (rule.match? usage rest).isSome → (rule.fire? usage rest).isSome
  edges : ∀ flow, Flow.build code = .ok flow → ∀ id other,
    other ∈ flow.graph.successors id ∨ other ∈ flow.graph.predecessors id → other ∈ flow.graph.ids
  walk : ∀ flow, Flow.build code = .ok flow → ∀ usage steps,
    ((Constants.Walk.start (.make code flow) code usage).run (.make code flow) steps).Inside
      flow.graph

theorem grounded (code : List Instruction) : Grounded code where
  rules rule member usage before rest _ matched := by
    by_contra still
    rw [Option.not_isSome_iff_eq_none] at still
    rw [Peephole.match?_of_fire? member still] at matched
    exact absurd matched (by simp)
  edges flow built id other edge := by
    have consistent := (Flow.laid_of_build built).consistent
    rw [Graph.mem_ids]
    rcases edge with out | into
    · exact consistent.target_contained out
    · exact consistent.source_contained ((consistent.mirrored _ _).mpr into)
  walk flow built usage steps := by
    have consistent : (Constants.Plan.make code flow).flow.graph.Consistent :=
      (Flow.laid_of_build built).consistent
    exact Constants.Walk.Inside.run consistent steps
      ⟨fun _ member => member, fun _ member => absurd member List.not_mem_nil⟩

/-- Instruction shapes survive every sequence of passes over a program that the reader accepts: all
instructions of all programs on the way are regular. And no pass, on whatever program, looks up
something that is not there. -/
theorem shapes_survive_passes {source : String} {code : List Instruction}
    (accepted : Listing.read source = .ok code) (steps : List (Pass × Nat)) :
    (∀ program ∈ trail steps code, ∀ i ∈ program, i.Regular) ∧
      ∀ program, Grounded program := by
  refine ⟨fun program member i inside => ?_, grounded⟩
  have shaped := fun i member => (Listing.shaped_of_read accepted i member).1
  exact (shaped_trail steps shaped program member i inside).regular

/-- A source text with a function that is not called, a value that is pushed and popped, and a
constant that can be propagated. -/
def countdown : String :=
  ".IFJcode17\nJUMP main\nLABEL f # @function-start\nRETURN # @function-end\nLABEL main\n" ++
    "READ GF@n int\nMOVE GF@c int@1\nPUSHS GF@c\nPOPS GF@m\nJUMPIFEQ main GF@m GF@n\n"

theorem shapes_survive_passes_countdown :
    ∃ code, Listing.read countdown = .ok code ∧
      (trail [(.deadCode, 0), (.peephole, 8), (.constantPropagation, 0)] code).map List.length =
        [9, 7, 5, 5] ∧
      (∀ program ∈ trail [(.deadCode, 0), (.peephole, 8), (.constantPropagation, 0)] code,
        ∀ i ∈ program, i.Regular) ∧
      ∀ program, Grounded program := by
  have lengths : (Listing.read countdown).toOption.map (fun code =>
      (trail [(.deadCode, 0), (.peephole, 8), (.constantPropagation, 0)] code).map List.length) =
        some [9, 7, 5, 5] := by decide +kernel
  cases accepted : Listing.read countdown with
  | error fault => rw [accepted] at lengths; cases lengths
  | ok code =>
    rw [accepted] at lengths
    exact ⟨code, rfl, Option.some_inj.mp lengths, shapes_survive_passes accepted _⟩

end Optimiser

end ThreeAddress
