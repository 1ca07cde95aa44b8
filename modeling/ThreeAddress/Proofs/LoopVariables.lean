/-
Variables that are assigned in a loop. On entry to a block of the loop they are
blocked, whatever was known before, and nothing that happens in a block lifts
that: binding and forgetting leave blocked variables alone, and so does the
exchange of frames. So no operand of the loop that reads such a variable is
replaced. Entering other blocks does not touch the blocks of the loop.
-/
import ThreeAddress.Proofs.Components
import ThreeAddress.Proofs.ConstantRoutes

namespace ThreeAddress.Constants

/-! ### Blocked variables -/

namespace Known

variable {known : Known} {v w : Variable}

theorem isBlocked_iff : known.isBlocked v ↔ known.notes.get? v = some .blocked :=
  decide_eq_true_iff

theorem value?_of_isBlocked (blocked : known.isBlocked v) : known.value? v = none := by
  rw [value?, isBlocked_iff.mp blocked]

theorem isBlocked_block (blocked : w = v ∨ known.isBlocked v) : (known.block w).isBlocked v := by
  rw [isBlocked_iff, block, Table.put]
  by_cases same : v = w
  · rw [same, Table.get?_alter_self]
  · rw [Table.get?_alter_of_ne _ same]
    exact isBlocked_iff.mp (blocked.resolve_left (Ne.symm same))

theorem isBlocked_foldl_block {vars : List Variable} (blocked : v ∈ vars ∨ known.isBlocked v) :
    (vars.foldl block known).isBlocked v := by
  induction vars generalizing known with
  | nil => exact blocked.resolve_left List.not_mem_nil
  | cons first rest inductionHypothesis =>
    refine inductionHypothesis ?_
    rcases blocked with member | before
    · rcases List.mem_cons.mp member with rfl | later
      · exact Or.inr (isBlocked_block (Or.inl rfl))
      · exact Or.inl later
    · exact Or.inr (isBlocked_block (Or.inr before))

theorem isBlocked_bind (blocked : known.isBlocked v) (w : Variable) (c : Constant) :
    (known.bind w c).isBlocked v := by
  unfold bind
  split
  · exact blocked
  · next free =>
    have other : v ≠ w := by
      rintro rfl
      exact free blocked
    rw [isBlocked_iff, Table.put, Table.get?_alter_of_ne _ other]
    exact isBlocked_iff.mp blocked

theorem isBlocked_forget (blocked : known.isBlocked v) (w : Variable) :
    (known.forget w).isBlocked v := by
  unfold forget
  split
  · exact blocked
  · next free =>
    have other : v ≠ w := by
      rintro rfl
      exact free blocked
    rw [isBlocked_iff, Table.erase, Table.get?_alter_of_ne _ other]
    exact isBlocked_iff.mp blocked

theorem isBlocked_forgetFrame (blocked : known.isBlocked v) (frame : Frame) :
    (known.forgetFrame frame).isBlocked v := by
  rw [isBlocked_iff] at blocked ⊢
  obtain ⟨⟨entries⟩⟩ := known
  simp only [forgetFrame, Table.filter, Table.get?] at blocked ⊢
  induction entries with
  | nil => exact blocked
  | cons entry rest inductionHypothesis =>
    obtain ⟨key, note⟩ := entry
    rw [Table.find?] at blocked
    split at blocked
    · next same =>
      obtain rfl := Option.some_inj.mp blocked
      rw [List.filter_cons_of_pos (by simp), Table.find?, if_pos same]
    · next other =>
      have later := inductionHypothesis blocked
      rw [List.filter_cons]
      split
      · rw [Table.find?, if_neg other]
        exact later
      · exact later

theorem isBlocked_forgetFrames (blocked : known.isBlocked v) (changesFrames calls : Bool) :
    (known.forgetFrames changesFrames calls).isBlocked v := by
  have inner : (if changesFrames then (known.forgetFrame .lf).forgetFrame .tf
      else known).isBlocked v := by
    split
    · exact isBlocked_forgetFrame (isBlocked_forgetFrame blocked _) _
    · exact blocked
  unfold forgetFrames
  dsimp only
  split
  · exact isBlocked_forgetFrame inner _
  · exact inner

end Known

/-- No instruction lifts the block of a variable. -/
theorem isBlocked_knownAfter {known : Known} {v : Variable} (blocked : known.isBlocked v)
    (i : Instruction) : (knownAfter known i).isBlocked v := by
  refine Known.isBlocked_forgetFrames ?_ _ _
  split
  · exact blocked
  · split
    · exact Known.isBlocked_forget blocked _
    · exact Known.isBlocked_bind (Known.isBlocked_forget blocked _) _ _

/-! ### Operands that stay -/

/-- Whether one instruction mentions a variable wherever another one does. -/
def Spares (v : Variable) (i j : Instruction) : Prop :=
  ∀ index : Nat, i.operands[index]? = some (.var v) → j.operands[index]? = some (.var v)

theorem spares_mapSources {known : Known} {v : Variable} (blocked : known.isBlocked v)
    (i : Instruction) : Spares v i (i.mapSources (substitute known)) := by
  intro index mentions
  rw [operands_mapSources, mentions, Option.map_some]
  split
  · rfl
  · simp [substitute, Operand.var?, Known.value?_of_isBlocked blocked]

/-- A variable that is blocked on entry to a run of instructions is not replaced there. -/
theorem spares_scan {v : Variable} {p : Progress} (blocked : p.known.isBlocked v)
    (block : List Instruction) : List.Forall₂ (Spares v) block (scan block p).1 := by
  induction block generalizing p with
  | nil => exact List.Forall₂.nil
  | cons i rest inductionHypothesis =>
    exact List.Forall₂.cons (spares_mapSources blocked i)
      (inductionHypothesis (isBlocked_knownAfter blocked _))

/-! ### The walk -/

section Walk

variable {code : List Instruction} {flow : Flow} {v : Variable}

/-- What is assigned in one block of a loop is blocked in all of them. -/
theorem mem_blocked {component : List Nat} (loop : component ∈ flow.graph.components)
    {assigning id : Nat} (around : assigning ∈ component) (inside : id ∈ component)
    {d : Instruction} (member : d ∈ flow.instructions code assigning)
    (assigns : d.target? = some v) : v ∈ (Plan.make code flow).blocked id := by
  have assigned : v ∈ ((Plan.make code flow).summary assigning).assigned := by
    rw [summary_make]
    exact List.mem_filterMap.mpr ⟨d, member, assigns⟩
  refine List.mem_flatMap.mpr ⟨_, List.mem_map.mpr ⟨component, loop, rfl⟩, ?_⟩
  dsimp only
  rw [if_pos (List.contains_iff_mem.mpr inside)]
  exact List.mem_flatMap.mpr ⟨assigning, around, assigned⟩

/-- What is blocked in a block stays in it all along the walk: the block itself is entered with the
variable blocked, and entering another block does not touch it. -/
theorem spares_run (plan : Plan) (built : Flow.build code = .ok plan.flow) {id : Nat}
    (blocked : v ∈ plan.blocked id) {walk : Walk}
    (start : List.Forall₂ (Spares v) (plan.flow.instructions code id)
      (plan.flow.instructions walk.code id)) (steps : Nat) :
    List.Forall₂ (Spares v) (plan.flow.instructions code id)
      (plan.flow.instructions (walk.run plan steps).code id) := by
  refine Walk.run_induction
    (motive := fun walk => List.Forall₂ (Spares v) (plan.flow.instructions code id)
      (plan.flow.instructions walk.code id))
    (fun {walk next} spares turn => ?_) start steps
  cases turn with
  | leave top done => exact spares
  | pass faces entered => rwa [faces.same.1]
  | @enter other known conditional base faces fresh =>
    rw [← faces.same.1] at spares
    by_cases same : id = other
    · subst same
      rw [instructions_enter]
      refine forall₂_trans spares ?_ fun _ _ _ first second index found =>
        second index (first index found)
      exact spares_scan (Known.isBlocked_foldl_block (Or.inl blocked)) _
    · rwa [instructions_enter_of_ne built same]

/-- What is blocked in a block is not replaced there. -/
theorem spares_propagate (built : Flow.build code = .ok flow) (usage : Usage) {id : Nat}
    (blocked : v ∈ (Plan.make code flow).blocked id) :
    List.Forall₂ (Spares v) (flow.instructions code id)
      (flow.instructions (propagate code flow usage).code id) :=
  spares_run (Plan.make code flow) built blocked
    (List.forall₂_same.mpr fun _ _ _ found => found) _

/-- Where a variable is assigned in some block of a loop, no operand that mentions it is replaced in
any block of the loop. -/
theorem loop_variables_stay (built : Flow.build code = .ok flow) (usage : Usage)
    {component : List Nat} (loop : component ∈ flow.graph.components) {assigning : Nat}
    (around : assigning ∈ component) {d : Instruction}
    (member : d ∈ flow.instructions code assigning) (assigns : d.target? = some v) :
    ∀ id ∈ component, List.Forall₂ (Spares v) (flow.instructions code id)
      (flow.instructions (propagate code flow usage).code id) :=
  fun _ inside => spares_propagate built usage (mem_blocked loop around inside member assigns)

/-- A loop that two taken jumps lead into. Its body reads a variable that is assigned in the loop
and one that is not. -/
def countingUp : List Instruction :=
  [{ opcode := .move, operands := [.var ⟨.gf, "i"⟩, .const (.int 1)] },
   { opcode := .move, operands := [.var ⟨.gf, "n"⟩, .const (.int 2)] },
   { opcode := .jumpifeqs, operands := [.label "head"] },
   { opcode := .ret, operands := [] },
   { opcode := .label, operands := [.label "head"] },
   { opcode := .jumpifeqs, operands := [.label "body"] },
   { opcode := .ret, operands := [] },
   { opcode := .label, operands := [.label "body"] },
   { opcode := .write, operands := [.var ⟨.gf, "n"⟩] },
   { opcode := .write, operands := [.var ⟨.gf, "i"⟩] },
   { opcode := .add, operands := [.var ⟨.gf, "i"⟩, .var ⟨.gf, "i"⟩, .const (.int 1)] },
   { opcode := .jump, operands := [.label "head"] }]

/-- Both variables are known ahead of the loop, but only the one that the loop does not assign is
replaced in it. -/
theorem loop_variables_stay_countingUp :
    ∃ flow, Flow.build countingUp = .ok flow ∧ flow.graph.components = [[2, 4]] ∧
      (propagate countingUp flow {}).code[8]? =
        some { opcode := .write, operands := [.const (.int 2)] } ∧
      ∀ id ∈ [2, 4], List.Forall₂ (Spares ⟨.gf, "i"⟩) (flow.instructions countingUp id)
        (flow.instructions (propagate countingUp flow {}).code id) := by
  obtain ⟨flow, built, components, replaced, adds⟩ :
      ∃ flow, Flow.build countingUp = .ok flow ∧ flow.graph.components = [[2, 4]] ∧
        (propagate countingUp flow {}).code[8]? =
          some { opcode := .write, operands := [.const (.int 2)] } ∧
        { opcode := .add, operands := [.var ⟨.gf, "i"⟩, .var ⟨.gf, "i"⟩, .const (.int 1)] } ∈
          flow.instructions countingUp 4 :=
    ⟨_, rfl, by decide +kernel, by decide +kernel, by decide⟩
  have loop : [2, 4] ∈ flow.graph.components := by rw [components]; exact List.mem_singleton_self _
  exact ⟨flow, built, components, replaced,
    loop_variables_stay built {} loop (by decide : 4 ∈ [2, 4]) adds rfl⟩

/-- The same of blocks that lead to each other: the loops that are found cover every cycle. -/
theorem cycle_variables_stay (built : Flow.build code = .ok flow) (usage : Usage)
    {assigning id : Nat} (cycle : flow.graph.OnCycle assigning)
    (forth : flow.graph.Reaches assigning id) (back : flow.graph.Reaches id assigning)
    {d : Instruction} (member : d ∈ flow.instructions code assigning)
    (assigns : d.target? = some v) :
    List.Forall₂ (Spares v) (flow.instructions code id)
      (flow.instructions (propagate code flow usage).code id) := by
  have consistent := (Flow.laid_of_build built).consistent
  have listing := (Graph.components?_eq consistent).2
  obtain ⟨component, loop, around, inside⟩ :
      ∃ component ∈ flow.graph.components, assigning ∈ component ∧ id ∈ component := by
    by_cases same : assigning = id
    · obtain ⟨component, loop, around⟩ := (listing.cyclic assigning).mpr cycle
      exact ⟨component, loop, around, same ▸ around⟩
    · have live := cycle.contains consistent
      exact (listing.together assigning id live (back.contains_source consistent live) same).mpr
        ⟨forth, back⟩
  exact spares_propagate built usage (mem_blocked loop around inside member assigns)

end Walk

end ThreeAddress.Constants
