/-
Propagating constants a second time changes nothing. The first run replaces
operands while it finds out what is known, so the second run reads other
instructions than the first one did. But a block is entered once, and what the
first run left of it is what the second run finds there. Where an operand was
replaced, a constant stands now, and where none was replaced, nothing is known
of the variable; so the second run replaces nothing, knows the same behind each
instruction, and follows the first run turn by turn.
-/
import ThreeAddress.Proofs.Settling

namespace ThreeAddress.Constants

/-! ### A block for the second time -/

theorem substitute_substitute (known : Known) (operand : Operand) :
    substitute known (substitute known operand) = substitute known operand := by
  cases operand with
  | var v => cases bound : known.value? v <;> simp [substitute, Operand.var?, bound]
  | const _ | label _ | type _ => rfl

/-- Where operands were replaced, none is left to replace. -/
theorem substitutionCount_mapSources (known : Known) (i : Instruction) :
    substitutionCount known (i.mapSources (substitute known)) = 0 := by
  rw [substitutionCount, List.length_eq_zero_iff, List.filter_eq_nil_iff]
  intro v member
  obtain ⟨operand, source, isVar⟩ := List.mem_filterMap.mp member
  rw [sources_mapSources] at source
  obtain ⟨original, -, rfl⟩ := List.mem_map.mp source
  have settled := substitute_substitute known original
  cases replaced : substitute known original with
  | var w =>
    rw [replaced] at isVar settled
    obtain rfl := Option.some_inj.mp isVar
    cases bound : known.value? w with
    | none => simp
    | some c => simp [substitute, Operand.var?, bound] at settled
  | const _ | label _ | type _ =>
    rw [replaced] at isVar
    exact absurd isVar (by simp [Operand.var?])

/-- Going through a block again, with the same known on entry, replaces nothing and leads to the
same known at the end. -/
theorem scan_again (block : List Instruction) (p : Progress) (usage : Usage) (count : Nat) :
    scan (scan block p).1 { known := p.known, usage, substitutions := count } =
      ((scan block p).1, { known := (scan block p).2.known, usage, substitutions := count }) := by
  induction block generalizing p with
  | nil => rfl
  | cons i rest inductionHypothesis =>
    have none := substitutionCount_mapSources p.known i
    have first : scanOne { known := p.known, usage, substitutions := count } (scanOne p i).1 =
        ((scanOne p i).1, { known := (scanOne p i).2.known, usage, substitutions := count }) := by
      unfold scanOne
      dsimp only
      rw [none, if_pos rfl, mapSources_of_substitutionCount_eq_zero none, Nat.add_zero]
    have later := inductionHypothesis (scanOne p i).2
    show scan ((scanOne p i).1 :: (scan rest (scanOne p i).2).1) _ = _
    rw [scan, first]
    dsimp only
    rw [later]
    rfl

/-! ### The plan for the second time -/

theorem ofBlock_refined {block other : List Instruction}
    (refined : List.Forall₂ Refined block other) :
    Summary.ofBlock other = Summary.ofBlock block := by
  induction refined with
  | nil => rfl
  | cons head tail inductionHypothesis =>
    obtain ⟨assigned, changesFrames, calls⟩ := Summary.mk.inj inductionHypothesis
    simp only [Summary.ofBlock, List.filterMap_cons, List.any_cons, head.target, head.opcode,
      assigned, changesFrames, calls]

/-- Replacing operands does not change what the walk knows before it starts. -/
theorem make_refined {code other : List Instruction} (refined : List.Forall₂ Refined code other)
    (flow : Flow) : Plan.make other flow = Plan.make code flow := by
  have blocks (b : Block) : Summary.ofBlock (b.instructions other) =
      Summary.ofBlock (b.instructions code) :=
    ofBlock_refined (List.forall₂_take _ (List.forall₂_drop _ refined))
  simp only [Plan.make, Plan.reading, blocks]

/-! ### The walk for the second time -/

/-- A walk over another program that has replaced nothing so far. -/
def Walk.over (walk : Walk) (code : List Instruction) (usage : Usage) : Walk :=
  { walk with code, usage, substitutions := 0 }

section Again

variable {plan : Plan} {original result : List Instruction} {usage : Usage} {walk next : Walk}
  {id : Nat} {known : Known} {conditional : Bool}

theorem Walk.Faces.over {base : Walk} (faces : walk.Faces plan id known conditional base) :
    (walk.over result usage).Faces plan id known conditional (base.over result usage) := by
  cases faces with
  | root home left => exact .root home left
  | successor top left => exact .successor top left

/-- Entering a block that was left as it is after the first time. -/
theorem enter_over (left : plan.flow.instructions result id = (scanned plan walk id known).1) :
    (walk.over result usage).enter plan id known conditional =
      (walk.enter plan id known conditional).over result usage := by
  have again : scanned plan (walk.over result usage) id known =
      ((scanned plan walk id known).1,
        { known := (scanned plan walk id known).2.known, usage }) := by
    rw [scanned, show (walk.over result usage).code = result from rfl, left]
    exact scan_again _ _ usage 0
  have unchanged : ((walk.over result usage).enter plan id known conditional).code = result := by
    refine code_enter_of_unchanged ?_
    rw [substitutions_enter, again]
    rfl
  rw [enter_eq, unchanged, again, enter_eq]
  rfl

/-- Where the first walk turns, the second one turns the same way, provided that what the first one
leaves of a block is what the second one finds there. -/
theorem Walk.Turn.over (turn : walk.Turn plan next)
    (left : ∀ id ∈ next.entered, id ∉ walk.entered →
      plan.flow.instructions result id = plan.flow.instructions next.code id) :
    (walk.over result usage).Turn plan (next.over result usage) := by
  cases turn with
  | leave top done => exact .leave top done
  | pass faces entered => exact .pass faces.over entered
  | @enter id known conditional base faces fresh =>
    have here : plan.flow.instructions result id = (scanned plan base id known).1 := by
      rw [left id (by rw [entered_enter]; exact List.mem_cons_self) fresh, instructions_enter]
    rw [← enter_over here]
    exact .enter faces.over fresh

/-- A block that was entered stays as it was left. -/
theorem instructions_run (built : Flow.build original = .ok plan.flow) (entered : id ∈ walk.entered)
    (steps : Nat) : plan.flow.instructions (walk.run plan steps).code id =
      plan.flow.instructions walk.code id := by
  refine (Walk.run_induction (motive := fun later => id ∈ later.entered ∧
    plan.flow.instructions later.code id = plan.flow.instructions walk.code id)
    (fun {now next} holds turn => ?_) ⟨entered, rfl⟩ steps).2
  obtain ⟨member, same⟩ := holds
  cases turn with
  | leave top done => exact ⟨member, same⟩
  | pass faces entered =>
    obtain ⟨code, -, -, blocks⟩ := faces.same
    rw [code, blocks]
    exact ⟨member, same⟩
  | @enter other known conditional base faces fresh =>
    obtain ⟨code, -, -, blocks⟩ := faces.same
    have different : id ≠ other := by
      rintro rfl
      exact fresh member
    rw [instructions_enter_of_ne built different, code]
    refine ⟨?_, same⟩
    rw [entered_enter]
    exact List.mem_cons_of_mem _ (blocks ▸ member)

/-- A walk over the result of a walk follows it to the end. -/
theorem run_over (built : Flow.build original = .ok plan.flow) (steps : Nat)
    (ends : (walk.run plan steps).code = result) :
    (walk.over result usage).run plan steps = (walk.run plan steps).over result usage := by
  induction steps generalizing walk with
  | zero => rfl
  | succ steps inductionHypothesis =>
    rw [Walk.run_step] at ends
    rw [Walk.run_step, Walk.run_step]
    cases step : walk.step? plan with
    | none =>
      have ended := Walk.step?_eq_none_iff.mp step
      have stops : (walk.over result usage).step? plan = none := Walk.step?_eq_none_iff.mpr ended
      rw [stops]
    | some next =>
      rw [step] at ends
      dsimp only at ends
      have turn : (walk.over result usage).Turn plan (next.over result usage) := by
        refine (Walk.turn_of_step? step).over fun id entered _ => ?_
        rw [← ends, instructions_run built entered]
      rw [Walk.step?_of_turn turn]
      exact inductionHypothesis ends

end Again

/-- Propagating constants through the result of a propagation, with the same graph and whatever
counts, replaces nothing and leaves program and counts as they are. -/
theorem second_propagation_changes_nothing {code : List Instruction} {flow : Flow}
    (built : Flow.build code = .ok flow) (usage later : Usage) :
    propagate (propagate code flow usage).code flow later =
      { code := (propagate code flow usage).code, usage := later, changes := 0 } := by
  have refined : List.Forall₂ Refined code (propagate code flow usage).code :=
    ((walking_start (Plan.make code flow) code usage).run (prepared_make built) _).refined
  have again := @run_over (Plan.make code flow) code (propagate code flow usage).code later
    (Walk.start (Plan.make code flow) code usage) built (Walk.bound (Plan.make code flow)) rfl
  rw [propagate, make_refined refined]
  exact congrArg (fun walk : Walk => Edit.mk walk.code walk.usage walk.substitutions) again

/-- A constant that goes from variable to variable, and from block to block. -/
def handedAlong : List Instruction :=
  [{ opcode := .move, operands := [.var ⟨.gf, "a"⟩, .const (.int 4)] },
   { opcode := .move, operands := [.var ⟨.lf, "b"⟩, .var ⟨.gf, "a"⟩] },
   { opcode := .jumpifeq, operands := [.label "end", .var ⟨.lf, "b"⟩, .var ⟨.gf, "c"⟩] },
   { opcode := .move, operands := [.var ⟨.gf, "c"⟩, .var ⟨.lf, "b"⟩] },
   { opcode := .call, operands := [.label "end"] },
   { opcode := .write, operands := [.var ⟨.gf, "c"⟩] },
   { opcode := .label, operands := [.label "end"] },
   { opcode := .write, operands := [.var ⟨.lf, "b"⟩] }]

/-- The first run makes new moves of constants and uses them, the second one finds nothing to do. -/
theorem second_propagation_changes_nothing_handedAlong :
    ∃ flow, Flow.build handedAlong = .ok flow ∧ (propagate handedAlong flow {}).changes = 3 ∧
      propagate (propagate handedAlong flow {}).code flow {} =
        { code := (propagate handedAlong flow {}).code, usage := {}, changes := 0 } := by
  obtain ⟨flow, built, changes⟩ : ∃ flow, Flow.build handedAlong = .ok flow ∧
      (propagate handedAlong flow {}).changes = 3 :=
    ⟨_, rfl, by decide +kernel⟩
  exact ⟨flow, built, changes, second_propagation_changes_nothing built {} {}⟩

end ThreeAddress.Constants
