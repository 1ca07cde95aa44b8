/-
The propagation of constants through a stored program is that through the list of
its instructions. Both are one walk over the control-flow graph; they differ in
what the blocks hold, slots or positions, and in how a block is replaced. In a
store the operands of each instruction are replaced one after the other in its
slot, which gives the instruction with all of them replaced, so going through the
slots of a block is going through its part of the list. Nothing is inserted or
removed, and therefore the slots of the blocks stay right to the end of the walk.
-/
import ThreeAddress.Constants.Cursor
import ThreeAddress.Proofs.Partition
import ThreeAddress.Proofs.Substitution

namespace ThreeAddress.Constants

open ThreeAddress.Flow (slotAt)

/-! ### The operands of one instruction -/

section Operands

variable {known : Known} {i : Instruction}

/-- What becomes of the operand at an index. -/
def exchanged (known : Known) (i : Instruction) (place : Operand × Nat) : Operand :=
  if i.isDestination place.2 then place.1 else substitute known place.1

/-- The replacement of the operand at an index, if it is replaced. -/
def replacement? (known : Known) (i : Instruction) (place : Operand × Nat) :
    Option (Nat × Constant) :=
  if i.isDestination place.2 then none
  else (place.1.var?.bind known.value?).map (place.2, ·)

theorem replacements_eq (known : Known) (i : Instruction) :
    replacements known i = i.operands.zipIdx.filterMap (replacement? known i) :=
  rfl

/-- Putting a constant in front of the operands that are still to be looked at. -/
theorem putConstant_eq {j : Instruction} {done rest : List Operand} {operand : Operand}
    (operands : j.operands = done ++ operand :: rest) (c : Constant) :
    putConstant j (done.length, c) = { j with operands := done ++ .const c :: rest } := by
  have there : j.operands[done.length]? = some operand := by
    rw [operands, List.getElem?_append_right (Nat.le_refl _), Nat.sub_self]
    rfl
  rw [putConstant, Instruction.replaceOperand?, there, operands,
    List.set_append_right _ _ (Nat.le_refl _), Nat.sub_self]
  rfl

/-- Going through the operands from an index on, each is exchanged in its place. -/
theorem foldl_putConstant_from {j : Instruction} {done rest : List Operand}
    (operands : j.operands = done ++ rest) :
    ((rest.zipIdx done.length).filterMap (replacement? known i)).foldl putConstant j =
      { j with operands := done ++ (rest.zipIdx done.length).map (exchanged known i) } := by
  induction rest generalizing j done with
  | nil =>
    rw [List.append_nil] at operands
    simp [← operands]
  | cons operand rest inductionHypothesis =>
    have behind : ∀ new : Operand, (done ++ [new]).length = done.length + 1 := fun new => by
      rw [List.length_append, List.length_singleton]
    rw [List.zipIdx_cons, List.map_cons]
    cases replaced : replacement? known i (operand, done.length) with
    | none =>
      have stays : exchanged known i (operand, done.length) = operand := by
        unfold replacement? at replaced
        unfold exchanged
        split at replaced
        · next destination => rw [if_pos destination]
        · next source =>
          rw [if_neg source, substitute, Option.map_eq_none_iff.mp replaced]
      have later := @inductionHypothesis j (done ++ [operand]) (by rw [operands]; simp)
      rw [behind operand] at later
      rw [List.filterMap_cons_none replaced, later, stays, List.append_assoc]
      rfl
    | some replacement =>
      obtain ⟨c, same, moved⟩ : ∃ c, replacement = (done.length, c) ∧
          exchanged known i (operand, done.length) = .const c := by
        unfold replacement? at replaced
        unfold exchanged
        split at replaced
        · exact absurd replaced (by simp)
        · next source =>
          obtain ⟨c, bound, rfl⟩ := Option.map_eq_some_iff.mp replaced
          exact ⟨c, rfl, by rw [if_neg source, substitute, bound]⟩
      subst same
      have later := @inductionHypothesis (putConstant j (done.length, c)) (done ++ [.const c])
        (by rw [putConstant_eq operands]; simp)
      rw [behind] at later
      rw [List.filterMap_cons_some replaced, List.foldl_cons, later, putConstant_eq operands, moved,
        List.append_assoc]
      rfl

theorem map_exchanged_zipIdx {operands : List Operand} {start : Nat}
    (sources : ∀ index, start ≤ index → ¬ i.isDestination index) :
    (operands.zipIdx start).map (exchanged known i) = operands.map (substitute known) := by
  induction operands generalizing start with
  | nil => rfl
  | cons operand rest inductionHypothesis =>
    rw [List.zipIdx_cons, List.map_cons, List.map_cons, exchanged,
      if_neg (sources start (Nat.le_refl _)),
      inductionHypothesis fun index later => sources index (Nat.le_of_succ_le later)]

theorem length_filterMap_zipIdx {operands : List Operand} {start : Nat}
    (sources : ∀ index, start ≤ index → ¬ i.isDestination index) :
    ((operands.zipIdx start).filterMap (replacement? known i)).length =
      ((operands.filterMap Operand.var?).filter fun v => (known.value? v).isSome).length := by
  induction operands generalizing start with
  | nil => rfl
  | cons operand rest inductionHypothesis =>
    have later := @inductionHypothesis (start + 1) fun index later =>
      sources index (Nat.le_of_succ_le later)
    have here : replacement? known i (operand, start) =
        (operand.var?.bind known.value?).map (start, ·) :=
      if_neg (sources start (Nat.le_refl _))
    rw [List.zipIdx_cons, List.filterMap_cons, here, List.filterMap_cons]
    cases operand.var? with
    | none => exact later
    | some v =>
      rw [Option.bind_some]
      cases bound : known.value? v with
      | none => simpa [bound] using later
      | some c => simpa [bound] using later

theorem not_isDestination_succ (i : Instruction) {index : Nat} (later : 1 ≤ index) :
    ¬ i.isDestination index := by
  rw [Instruction.isDestination, decide_eq_true_eq]
  omega

/-- Replacing the operands one after the other gives the instruction with constants in the place of
all variables that it reads and that are bound. -/
theorem foldl_putConstant (known : Known) (i : Instruction) :
    (replacements known i).foldl putConstant i = i.mapSources (substitute known) := by
  have replaced := @foldl_putConstant_from known i i [] i.operands rfl
  rw [List.length_nil, List.nil_append, ← replacements_eq] at replaced
  rw [replaced]
  unfold Instruction.mapSources
  congr 1
  cases defines : i.opcode.definesTarget with
  | false =>
    rw [if_neg Bool.false_ne_true]
    refine map_exchanged_zipIdx fun index _ => ?_
    simp [Instruction.isDestination, defines]
  | true =>
    rw [if_pos rfl]
    cases i.operands with
    | nil => rfl
    | cons target rest =>
      have destination : i.isDestination 0 := by simp [Instruction.isDestination, defines]
      rw [List.zipIdx_cons, List.map_cons, exchanged, if_pos destination,
        map_exchanged_zipIdx fun index => not_isDestination_succ i]

theorem length_replacements (known : Known) (i : Instruction) :
    (replacements known i).length = substitutionCount known i := by
  rw [replacements_eq, substitutionCount, Instruction.reads, Instruction.sources]
  cases defines : i.opcode.definesTarget with
  | false =>
    rw [if_neg Bool.false_ne_true]
    refine length_filterMap_zipIdx fun index _ => ?_
    simp [Instruction.isDestination, defines]
  | true =>
    rw [if_pos rfl]
    cases i.operands with
    | nil => rfl
    | cons target rest =>
      have destination : i.isDestination 0 := by simp [Instruction.isDestination, defines]
      have stays : replacement? known i (target, 0) = none := by
        rw [replacement?, if_pos destination]
      rw [List.zipIdx_cons, List.filterMap_cons_none stays]
      exact length_filterMap_zipIdx fun index => not_isDestination_succ i

end Operands

/-! ### The slots of one block -/

section Slots

variable {s : Store} {before after : List (Slot × Instruction)}

/-- The instruction in a slot is replaced in its slot, and nothing else is touched. -/
theorem entries_scanSlot {slot : Slot} {i : Instruction}
    (split : s.entries = before ++ (slot, i) :: after) (p : Progress) :
    ∃ t, scanSlot (s, p) slot = (t, (scanOne p i).2) ∧
      t.entries = before ++ (slot, (scanOne p i).1) :: after := by
  have used := Store.used_of_split split
  have usage : ∀ j, (if (replacements p.known i).isEmpty then p.usage
      else (p.usage.remove i).add j) =
        if substitutionCount p.known i = 0 then p.usage else (p.usage.remove i).add j :=
    fun j => if_congr (by rw [List.isEmpty_iff_length_eq_zero, length_replacements]) rfl rfl
  refine ⟨s.modify slot fun j => (replacements p.known i).foldl putConstant j, ?_, ?_⟩
  · simp only [scanSlot, used.get, foldl_putConstant, length_replacements, usage]
    rfl
  · rw [used.modify, foldl_putConstant]
    rfl

/-- Going through slots that follow each other is going through their instructions. -/
theorem entries_foldl_scanSlot (span : List (Slot × Instruction)) {p : Progress}
    (split : s.entries = before ++ (span ++ after)) :
    ∃ t, (span.map Prod.fst).foldl scanSlot (s, p) = (t, (scan (span.map Prod.snd) p).2) ∧
      t.entries =
        before ++ ((span.map Prod.fst).zip (scan (span.map Prod.snd) p).1 ++ after) := by
  induction span generalizing s before p with
  | nil => exact ⟨s, rfl, split⟩
  | cons entry span inductionHypothesis =>
    obtain ⟨next, scanned, entries⟩ := entries_scanSlot split p
    obtain ⟨t, others, later⟩ :=
      @inductionHypothesis next (before ++ [(entry.1, (scanOne p entry.2).1)])
        (scanOne p entry.2).2 (by rw [entries, List.append_assoc]; rfl)
    refine ⟨t, ?_, ?_⟩
    · rw [List.map_cons, List.foldl_cons, scanned, others]
      rfl
    · rw [later, List.append_assoc]
      rfl

end Slots

section Blocks

variable {s t : Store} {b : Block} {p : Progress}

theorem slotAt_of_order (same : s.order = t.order) : slotAt s.entries = slotAt t.entries := by
  have read : ∀ s : Store, slotAt s.entries = fun position => (s.order[position]?).getD position :=
    fun s => by
      funext position
      rw [slotAt, Store.order, List.getElem?_map]
  rw [read, read, same]

/-- In the slots of a block the same is done as in its place in the list, and no slot moves. -/
theorem replaceSlots_eq (filled : 0 < b.size) (inside : b.first + b.size ≤ s.code.length)
    (p : Progress) :
    ∃ t, replaceSlots s (b.move (slotAt s.entries)) p = (t, (replaceBlock s.code b p).2) ∧
      t.code = (replaceBlock s.code b p).1 ∧ t.order = s.order := by
  have length : s.code.length = s.entries.length := List.length_map _
  obtain ⟨t, replaced, entries⟩ := @entries_foldl_scanSlot s (s.entries.take b.first)
    ((s.entries.drop b.first).drop b.size) ((s.entries.drop b.first).take b.size) p
    (by rw [List.take_append_drop, List.take_append_drop])
  have block : ((s.entries.drop b.first).take b.size).map Prod.snd = b.instructions s.code := by
    rw [Block.instructions, Store.code, List.map_take, List.map_drop]
  have slots : (b.move (slotAt s.entries)).slots s =
      ((s.entries.drop b.first).take b.size).map Prod.fst := by
    rw [Flow.slots_move (by omega), Block.slice, Store.order, List.map_take, List.map_drop]
  have same : (scan (b.instructions s.code) p).1.length = b.size := by
    rw [← (refined_scan _ p).length_eq, ← block, List.length_map, List.length_take,
      List.length_drop]
    omega
  rw [block] at replaced entries
  have size : (((s.entries.drop b.first).take b.size).map Prod.fst).length =
      (scan (b.instructions s.code) p).1.length := by
    rw [same, List.length_map, List.length_take, List.length_drop]
    omega
  refine ⟨t, ?_, ?_, ?_⟩
  · rw [replaceSlots, slots, replaced]
    rfl
  · rw [Store.code, entries, List.map_append, List.map_append,
      List.map_snd_zip (Nat.le_of_eq size.symm), List.drop_drop, List.map_take, List.map_drop]
    exact (List.append_assoc _ _ _).symm
  · rw [Store.order, entries, List.map_append, List.map_append,
      List.map_fst_zip (Nat.le_of_eq size), ← List.map_append, ← List.map_append,
      List.take_append_drop, List.take_append_drop]
    rfl

end Blocks

/-! ### Walks over one graph with different slots -/

/-- The plan with other slots in the blocks. -/
def Plan.move (f : Slot → Slot) (plan : Plan) : Plan :=
  { plan with flow := plan.flow.move f }

theorem entryKnown_move (f : Slot → Slot) (plan : Plan) (path : List Visit) (id : Nat)
    (conditional : Bool) :
    entryKnown (plan.move f) path id conditional = entryKnown plan path id conditional := by
  have joins : (plan.move f).flow.graph.predecessors id = plan.flow.graph.predecessors id :=
    Graph.predecessors_map (Block.move f) plan.flow.graph id
  have called : ((plan.move f).flow.block? id).any Block.called =
      (plan.flow.block? id).any Block.called := by
    rw [show (plan.move f).flow.block? id = _ from Flow.block?_move f plan.flow id]
    cases plan.flow.block? id <;> rfl
  unfold entryKnown
  rw [joins, called]
  rfl

theorem isConditional_move (f : Slot → Slot) (flow : Flow) (source target : Nat) :
    (flow.move f).isConditional source target = flow.isConditional source target := by
  rw [Flow.isConditional, Flow.block?_move, Flow.isConditional]
  cases flow.block? source <;> rfl

/-- A plan depends on the slots of the blocks only through what is read there. -/
theorem reading_move {f : Slot → Slot} {flow : Flow} {read other : Block → List Instruction}
    (same : ∀ id b, flow.block? id = some b → read (b.move f) = other b) :
    Plan.reading read (flow.move f) = (Plan.reading other flow).move f := by
  have summaries : (Plan.reading read (flow.move f)).summaries =
      (Plan.reading other flow).summaries := by
    refine Array.ext_getElem? fun id => ?_
    have here := same id
    rw [Flow.block?, Graph.get?, Graph.node?] at here
    simp only [Plan.reading, Flow.move, Graph.map, Array.getElem?_map]
    cases found : flow.graph.nodes[id]? with
    | none => rfl
    | some slot =>
      cases slot with
      | none => rfl
      | some node =>
        rw [found] at here
        exact congrArg (fun code => some (Summary.ofBlock code)) (here node.data rfl)
  have loops : (Plan.reading read (flow.move f)).loops = (Plan.reading other flow).loops := by
    show ((flow.move f).graph.components.map fun component => (component, component.flatMap
        fun id => ((Plan.reading read (flow.move f)).summaries[id]?.getD {}).assigned)) = _
    rw [summaries, show (flow.move f).graph.components = _ from
      Graph.components_map (Block.move f) flow.graph]
    rfl
  rw [Plan.move, ← summaries, ← loops]
  rfl

/-- The plan for a stored program is that for the list of its instructions, with slots in the
place of positions. -/
theorem ofStore_move {s : Store} {listed : Flow} (built : Flow.build s.code = .ok listed) :
    Plan.ofStore s (listed.move (slotAt s.entries)) =
      (Plan.make s.code listed).move (slotAt s.entries) := by
  refine reading_move fun id b found => ?_
  obtain ⟨filled, inside, -⟩ := Flow.inside_of_block built found
  have length : s.code.length = s.entries.length := List.length_map _
  rw [Flow.slots_move (by omega), Flow.filterMap_slice]

/-- A walk, with the program seen in another form. -/
def Tour.view {σ τ : Type} (view : σ → τ) (tour : Tour σ) : Tour τ where
  code := view tour.code
  usage := tour.usage
  substitutions := tour.substitutions
  entered := tour.entered
  path := tour.path
  roots := tour.roots

/-- Whether the blocks of a plan are replaced alike in two forms of a program; `kept` is what the
replacements rely on in the first one. -/
def Mirrors {σ τ : Type} (plan : Plan) (f : Slot → Slot) (kept : σ → Prop) (view : σ → τ)
    (replace : Replacing σ) (other : Replacing τ) : Prop :=
  ∀ id b, plan.flow.block? id = some b → ∀ code p, kept code →
    kept (replace code (b.move f) p).1 ∧
      other (view code) b p =
        (view (replace code (b.move f) p).1, (replace code (b.move f) p).2)

section Mirrors

variable {σ τ : Type} {plan : Plan} {f : Slot → Slot} {kept : σ → Prop} {view : σ → τ}
  {replace : Replacing σ} {other : Replacing τ}

theorem enter_of_mirrors (mirrors : Mirrors plan f kept view replace other) {tour : Tour σ}
    (keeps : kept tour.code) (id : Nat) (known : Known) (conditional : Bool) :
    kept (tour.enter (plan.move f) replace id known conditional).code ∧
      (tour.view view).enter plan other id known conditional =
        (tour.enter (plan.move f) replace id known conditional).view view := by
  have block : (plan.move f).flow.block? id = (plan.flow.block? id).map (Block.move f) :=
    Flow.block?_move f plan.flow id
  have next : (plan.move f).flow.graph.successors id = plan.flow.graph.successors id :=
    Graph.successors_map (Block.move f) plan.flow.graph id
  unfold Tour.enter
  rw [block, next]
  cases found : plan.flow.block? id with
  | none => exact ⟨keeps, rfl⟩
  | some b =>
    obtain ⟨stays, same⟩ := mirrors id b found tour.code
      { known := (plan.blocked id).foldl Known.block known, usage := tour.usage } keeps
    refine ⟨stays, ?_⟩
    dsimp only [Tour.view, Option.map_some]
    rw [same]
    rfl

theorem step?_of_mirrors (mirrors : Mirrors plan f kept view replace other) {tour : Tour σ}
    (keeps : kept tour.code) :
    (∀ next, tour.step? (plan.move f) replace = some next → kept next.code) ∧
      (tour.view view).step? plan other =
        (tour.step? (plan.move f) replace).map (Tour.view view) := by
  obtain ⟨code, usage, substitutions, entered, path, roots⟩ := tour
  unfold Tour.step?
  cases path with
  | nil =>
    cases roots with
    | nil => exact ⟨fun next none => absurd none (by simp), rfl⟩
    | cons root roots =>
      dsimp only [Tour.view]
      by_cases seen : entered.contains root
      · rw [if_pos seen, if_pos seen]
        refine ⟨fun next same => ?_, rfl⟩
        obtain rfl := Option.some_inj.mp same
        exact keeps
      · rw [if_neg seen, if_neg seen]
        obtain ⟨stays, same⟩ := @enter_of_mirrors σ τ plan f kept view replace other mirrors
          ⟨code, usage, substitutions, entered, [], roots⟩ keeps root {} false
        refine ⟨fun next this => ?_, congrArg some same⟩
        obtain rfl := Option.some_inj.mp this
        exact stays
  | cons visit path =>
    obtain ⟨id, known, conditional, pending⟩ := visit
    cases pending with
    | nil =>
      refine ⟨fun next same => ?_, rfl⟩
      obtain rfl := Option.some_inj.mp same
      exact keeps
    | cons next pending =>
      dsimp only [Tour.view]
      by_cases seen : entered.contains next
      · rw [if_pos seen, if_pos seen]
        refine ⟨fun next same => ?_, rfl⟩
        obtain rfl := Option.some_inj.mp same
        exact keeps
      · rw [if_neg seen, if_neg seen, entryKnown_move,
          show (plan.move f).flow.isConditional id next = _ from isConditional_move f plan.flow _ _]
        obtain ⟨stays, same⟩ := @enter_of_mirrors σ τ plan f kept view replace other mirrors
          ⟨code, usage, substitutions, entered, ⟨id, known, conditional, pending⟩ :: path, roots⟩
          keeps next (entryKnown plan (⟨id, known, conditional, pending⟩ :: path) next
            (plan.flow.isConditional id next)) (plan.flow.isConditional id next)
        refine ⟨fun next this => ?_, congrArg some same⟩
        obtain rfl := Option.some_inj.mp this
        exact stays

/-- Two walks that start alike end alike. -/
theorem run_of_mirrors (mirrors : Mirrors plan f kept view replace other) (steps : Nat)
    {tour : Tour σ} (keeps : kept tour.code) :
    kept (tour.run (plan.move f) replace steps).code ∧
      (tour.view view).run plan other steps =
        (tour.run (plan.move f) replace steps).view view := by
  induction steps generalizing tour with
  | zero => exact ⟨keeps, rfl⟩
  | succ steps inductionHypothesis =>
    obtain ⟨stays, same⟩ := step?_of_mirrors mirrors keeps
    rw [Tour.run, Tour.run, same]
    cases stepped : tour.step? (plan.move f) replace with
    | none => exact ⟨keeps, rfl⟩
    | some next => exact inductionHypothesis (stays next stepped)

end Mirrors

/-! ### Whole walks -/

/-- The propagation of constants through a stored program is that through the list of its
instructions: it leaves the same instructions and counts, reports the same number of changes, and
keeps every instruction in its slot. -/
theorem toEdit_propagateOver {s : Store} {listed : Flow} (built : Flow.build s.code = .ok listed)
    (usage : Usage) :
    (propagateOver s (listed.move (slotAt s.entries)) usage).toEdit =
        propagate s.code listed usage ∧
      (propagateOver s (listed.move (slotAt s.entries)) usage).store.order = s.order := by
  have mirrors : Mirrors (Plan.make s.code listed) (slotAt s.entries)
      (fun t : Store => t.order = s.order) Store.code replaceSlots replaceBlock := by
    intro id b found t p same
    obtain ⟨filled, inside, -⟩ := Flow.inside_of_block built found
    have length : s.code.length = t.code.length := by
      have equal := congrArg List.length same
      rw [Store.order, Store.order, List.length_map, List.length_map] at equal
      rw [Store.code, Store.code, List.length_map, List.length_map, equal]
    obtain ⟨next, replaced, code, order⟩ := @replaceSlots_eq t b filled (length ▸ inside) p
    rw [slotAt_of_order same] at replaced
    rw [replaced]
    exact ⟨order.trans same, Prod.ext code.symm rfl⟩
  have bound : Walk.bound ((Plan.make s.code listed).move (slotAt s.entries)) =
      Walk.bound (Plan.make s.code listed) := by
    have size : (listed.move (slotAt s.entries)).size = listed.size :=
      congrArg List.length (Flow.ids_move _ listed)
    show 3 * (listed.move (slotAt s.entries)).size +
      (listed.graph.map (Block.move (slotAt s.entries))).edgeCount + 1 = _
    rw [size, Graph.edgeCount_map]
    rfl
  obtain ⟨order, same⟩ := @run_of_mirrors Store (List Instruction) _ _ _ _ _ _ mirrors
    (Walk.bound (Plan.make s.code listed))
    (Tour.start ((Plan.make s.code listed).move (slotAt s.entries)) s usage) rfl
  have start : (Tour.start ((Plan.make s.code listed).move (slotAt s.entries)) s usage).view
      Store.code = Walk.start (Plan.make s.code listed) s.code usage :=
    congrArg (fun roots => ({ code := s.code, usage, roots } : Walk)) (Flow.ids_move _ listed)
  rw [start] at same
  rw [propagateOver, ofStore_move built, bound]
  refine ⟨?_, order⟩
  rw [propagate, Walk.run, same]
  rfl

end ThreeAddress.Constants
