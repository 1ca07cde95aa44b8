/-
The propagation of constants replaces nothing but operands that are read, and
each constant that it puts in place of a variable comes from an instruction of
the result that moves it there. The instruction may have been made by the same
run: a move of a variable becomes a move of a constant and is then a source for
others. So the invariant of the walk is about the program as it is by now: what
is known at the end of each block on the way has a source in it, and so has
every operand that was replaced. Sources are not lost, because the move of a
constant is never changed.

The changes that are reported are the operands that differ, and since opcodes
and labels stay, the result has the control-flow graph that the program has.
-/
import ThreeAddress.Proofs.ChangeBound
import ThreeAddress.Proofs.Coherence
import ThreeAddress.Proofs.StoredPropagation

namespace ThreeAddress

/-! ### Programs with the same opcodes and labels -/

section SameParts

variable {code other : List Instruction}

theorem startsWithLabel_samePart (same : List.Forall₂ SamePart code other) :
    startsWithLabel other = startsWithLabel code := by
  cases same with
  | nil => rfl
  | cons head tail => rw [startsWithLabel, startsWithLabel, head.opcode]

theorem getLast?_samePart (same : List.Forall₂ SamePart code other) :
    Option.Rel SamePart code.getLast? other.getLast? := by
  have reversed := List.forall₂_reverse_iff.mpr same
  rw [List.getLast?_eq_head?_reverse, List.getLast?_eq_head?_reverse]
  generalize code.reverse = back, other.reverse = otherBack at reversed
  cases reversed with
  | nil => exact .none
  | cons head tail => exact .some head

theorem cutBlocks_samePart (same : List.Forall₂ SamePart code other) :
    List.Forall₂ (List.Forall₂ SamePart) (cutBlocks code) (cutBlocks other) := by
  induction same with
  | nil => exact List.Forall₂.nil
  | @cons _ _ rest restOther head tail inductionHypothesis =>
    unfold cutBlocks
    generalize cutBlocks rest = blocks, cutBlocks restOther = others at inductionHypothesis ⊢
    cases inductionHypothesis with
    | nil => exact List.Forall₂.cons (List.Forall₂.cons head List.Forall₂.nil) List.Forall₂.nil
    | cons block others =>
      dsimp only
      rw [head.opcode, startsWithLabel_samePart block]
      split
      · exact List.Forall₂.cons (List.Forall₂.cons head List.Forall₂.nil)
          (List.Forall₂.cons block others)
      · exact List.Forall₂.cons (List.Forall₂.cons head block) others

variable {blocks others : List (List Instruction)}

theorem placeBlocks_samePart (same : List.Forall₂ (List.Forall₂ SamePart) blocks others)
    (first : Nat) : placeBlocks first others = placeBlocks first blocks := by
  induction same generalizing first with
  | nil => rfl
  | cons block rest inductionHypothesis =>
    rw [placeBlocks, placeBlocks, ← block.length_eq, inductionHypothesis]

namespace Flow

theorem blockLabels_samePart (same : List.Forall₂ (List.Forall₂ SamePart) blocks others) (id : Nat)
    (labels : Table String Nat) : blockLabels id others labels = blockLabels id blocks labels := by
  induction same generalizing id labels with
  | nil => rfl
  | cons block rest inductionHypothesis =>
    rw [blockLabels, blockLabels, inductionHypothesis]
    cases block with
    | nil => rfl
    | cons head tail => rw [List.head?_cons, List.head?_cons, Option.bind_some, Option.bind_some,
        head.defines]

theorem connectBlocks_samePart (same : List.Forall₂ (List.Forall₂ SamePart) blocks others)
    (count : Nat) (labels : Table String Nat) (id first : Nat) (graph : Graph Block) :
    connectBlocks count labels id first others graph =
      connectBlocks count labels id first blocks graph := by
  induction same generalizing id first graph with
  | nil => rfl
  | @cons block other rest _ head tail inductionHypothesis =>
    have last := getLast?_samePart head
    unfold connectBlocks
    rw [← head.length_eq]
    generalize block.getLast? = exit, other.getLast? = otherExit at last
    cases last with
    | none => exact inductionHypothesis _ _ _
    | @some i j same =>
      have resolved : resolve labels (first + block.length - 1) j =
          resolve labels (first + block.length - 1) i := by
        rw [resolve, resolve, same.jumps, same.opcode]
      dsimp only
      rw [resolved]
      cases resolve labels (first + block.length - 1) i with
      | error cause => rfl
      | ok target =>
        have connected : connectBlock count id j target graph =
            connectBlock count id i target graph := by
          unfold connectBlock
          rw [same.opcode]
        show connectBlocks _ _ _ _ _ _ = connectBlocks _ _ _ _ _ _
        rw [connected, inductionHypothesis]

/-- The graph of a program depends on opcodes and labels only. -/
theorem build_samePart (same : List.Forall₂ SamePart code other) : build other = build code := by
  have cut := cutBlocks_samePart same
  rw [build_eq, build_eq, buildBlocks, buildBlocks, isolated, isolated, ← cut.length_eq,
    blockLabels_samePart cut, placeBlocks_samePart cut, connectBlocks_samePart cut]

end Flow

end SameParts

namespace Constants

/-! ### Sources of constants -/

/-- Whether each constant that is known is moved into its variable by an instruction of a
program. -/
def Sourced (code : List Instruction) (known : Known) : Prop :=
  ∀ v c, known.value? v = some c → ∃ m ∈ code, Moves v c m

/-- Whether an operand may stand in place of another: it is the same, or it is a constant that an
instruction of a program moves into the variable in place of which it stands. -/
inductive Exchange (code : List Instruction) : Operand → Operand → Prop
  | same (operand : Operand) : Exchange code operand operand
  | constant {v : Variable} {c : Constant} {m : Instruction} (member : m ∈ code)
    (moves : Moves v c m) : Exchange code (.var v) (.const c)

/-- Whether an instruction is what the propagation of constants may make of another: the operands
that are not a destination are exchanged, and everything else is the same. -/
structure Propagated (code : List Instruction) (i j : Instruction) : Prop where
  opcode : j.opcode = i.opcode
  markers : j.markers = i.markers
  effects : j.effects = i.effects
  operands : List.Forall₂ (Exchange code) i.operands j.operands
  destination : ∀ index, i.isDestination index → j.operands[index]? = i.operands[index]?

section Sources

variable {code other : List Instruction} {known : Known} {i j k : Instruction}

theorem exists_moves_of_refined (refined : List.Forall₂ Refined code other) {v : Variable}
    {c : Constant} (source : ∃ m ∈ code, Moves v c m) : ∃ m ∈ other, Moves v c m := by
  obtain ⟨m, member, moves⟩ := source
  obtain ⟨position, found⟩ := List.mem_iff_getElem?.mp member
  obtain ⟨image, there, same⟩ := refined_getElem? refined found
  exact ⟨image, List.mem_of_getElem? there, same.moves moves⟩

theorem Exchange.refined (refined : List.Forall₂ Refined code other) {a b : Operand}
    (exchange : Exchange code a b) : Exchange other a b := by
  cases exchange with
  | same => exact .same a
  | constant member moves =>
    obtain ⟨m, member, moves⟩ := exists_moves_of_refined refined ⟨_, member, moves⟩
    exact .constant member moves

theorem Exchange.trans {a b c : Operand} (first : Exchange code a b) (second : Exchange code b c) :
    Exchange code a c := by
  cases first with
  | same => exact second
  | constant member moves =>
    cases second
    exact .constant member moves

theorem Propagated.refl (i : Instruction) : Propagated code i i :=
  ⟨rfl, rfl, rfl, List.forall₂_same.mpr fun operand _ => .same operand, fun _ _ => rfl⟩

theorem Propagated.refined (refined : List.Forall₂ Refined code other)
    (propagated : Propagated code i j) : Propagated other i j :=
  { propagated with operands := propagated.operands.imp fun _ _ => Exchange.refined refined }

theorem Propagated.trans (first : Propagated code i j) (second : Propagated code j k) :
    Propagated code i k where
  opcode := second.opcode.trans first.opcode
  markers := second.markers.trans first.markers
  effects := second.effects.trans first.effects
  operands := forall₂_trans first.operands second.operands fun _ _ _ => Exchange.trans
  destination index isDestination := by
    have again : j.isDestination index := by
      rwa [Instruction.isDestination, first.opcode]
    rw [second.destination index again, first.destination index isDestination]

theorem exchange_substitute (sourced : Sourced code known) (operand : Operand) :
    Exchange code operand (substitute known operand) := by
  cases operand with
  | var v =>
    cases bound : known.value? v with
    | none =>
      rw [show substitute known (.var v) = .var v by simp [substitute, Operand.var?, bound]]
      exact .same _
    | some c =>
      rw [show substitute known (.var v) = .const c by simp [substitute, Operand.var?, bound]]
      obtain ⟨m, member, moves⟩ := sourced v c bound
      exact .constant member moves
  | const _ | label _ | type _ => exact .same _

theorem propagated_mapSources (sourced : Sourced code known) (i : Instruction) :
    Propagated code i (i.mapSources (substitute known)) where
  opcode := rfl
  markers := rfl
  effects := rfl
  operands := by
    have all (operands : List Operand) :
        List.Forall₂ (Exchange code) operands (operands.map (substitute known)) :=
      List.forall₂_map_right_iff.mpr
        (List.forall₂_same.mpr fun operand _ => exchange_substitute sourced operand)
    unfold Instruction.mapSources
    dsimp only
    split
    · cases i.operands with
      | nil => exact List.Forall₂.nil
      | cons target rest => exact List.Forall₂.cons (.same target) (all rest)
    · exact all i.operands
  destination index isDestination := by
    rw [operands_mapSources]
    cases i.operands[index]? with
    | none => rfl
    | some operand => rw [Option.map_some, if_pos (of_decide_eq_true isDestination)]

/-- What is known after an instruction of a program has a source in it if what is known before has
one. -/
theorem sourced_knownAfter (sourced : Sourced code known) (member : i ∈ code) :
    Sourced code (knownAfter known i) := by
  intro v c found
  rcases value?_of_knownAfter found with moves | ⟨-, before⟩
  · exact ⟨i, member, moves⟩
  · exact sourced v c before

/-- Going through a block whose result is a part of a program. -/
theorem propagated_scan {block : List Instruction} {p : Progress} (sourced : Sourced code p.known)
    (inside : ∀ i ∈ (scan block p).1, i ∈ code) :
    List.Forall₂ (Propagated code) block (scan block p).1 ∧
      Sourced code (scan block p).2.known := by
  induction block generalizing p with
  | nil => exact ⟨List.Forall₂.nil, sourced⟩
  | cons i rest inductionHypothesis =>
    obtain ⟨here, later⟩ := List.forall_mem_cons.mp inside
    obtain ⟨propagated, behind⟩ := inductionHypothesis (sourced_knownAfter sourced here) later
    exact ⟨List.Forall₂.cons (propagated_mapSources sourced i) propagated, behind⟩

theorem sourced_empty : Sourced code {} := by
  intro v c found
  exact absurd found (by rw [Known.value?_empty]; simp)

theorem sourced_inherited {plan : Plan} {path : List Visit}
    (sourced : ∀ visit ∈ path, Sourced code visit.known) : Sourced code (inherited plan path) := by
  induction path with
  | nil => exact sourced_empty
  | cons visit rest inductionHypothesis =>
    obtain ⟨here, below⟩ := List.forall_mem_cons.mp sourced
    unfold inherited
    split
    · intro v c found
      obtain ⟨-, -, found⟩ := Known.value?_of_forgetFrames found
      exact inductionHypothesis below v c (Known.value?_of_foldl_forget found).2
    · exact here

theorem sourced_entryKnown {plan : Plan} {visit : Visit} {rest : List Visit}
    (sourced : ∀ one ∈ visit :: rest, Sourced code one.known) (id : Nat) (conditional : Bool) :
    Sourced code (entryKnown plan (visit :: rest) id conditional) := by
  intro v c found
  obtain ⟨-, found⟩ := value?_of_entryKnown found
  split at found
  · exact sourced_inherited sourced v c found
  · exact sourced visit List.mem_cons_self v c found

end Sources

/-! ### The walk -/

/-- What holds all along a walk. -/
structure Traced (original : List Instruction) (walk : Walk) : Prop where
  known : ∀ visit ∈ walk.path, Sourced walk.code visit.known
  propagated : List.Forall₂ (Propagated walk.code) original walk.code

section Traced

variable {plan : Plan} {original : List Instruction} {walk next : Walk} {id : Nat} {known : Known}
  {conditional : Bool}

theorem mem_of_mem_instructions {flow : Flow} {code : List Instruction} {i : Instruction}
    (member : i ∈ flow.instructions code id) : i ∈ code := by
  unfold Flow.instructions at member
  cases found : flow.block? id with
  | none => rw [found] at member; exact absurd member List.not_mem_nil
  | some b =>
    rw [found] at member
    exact List.mem_of_mem_drop (List.mem_of_mem_take member)

theorem Traced.enter (traced : Traced original walk) (sourced : Sourced walk.code known) :
    Traced original (walk.enter plan id known conditional) := by
  have refined := @refined_enter plan walk id known conditional
  have entry : Sourced (walk.enter plan id known conditional).code
      ((plan.blocked id).foldl Known.block known) := fun v c found =>
    exists_moves_of_refined refined (sourced v c (Known.value?_of_foldl_block found))
  have part : ∀ i ∈ (scanned plan walk id known).1,
      i ∈ (walk.enter plan id known conditional).code := by
    intro i member
    rw [← @instructions_enter plan walk id known conditional] at member
    exact mem_of_mem_instructions member
  obtain ⟨propagated, behind⟩ :=
    @propagated_scan _ _ { known := _, usage := walk.usage } entry part
  constructor
  · rw [path_enter]
    refine List.forall_mem_cons.mpr ⟨behind, fun visit member v c found => ?_⟩
    exact exists_moves_of_refined refined (traced.known visit member v c found)
  · refine forall₂_trans (traced.propagated.imp fun _ _ => Propagated.refined refined) ?_
      fun _ _ _ => Propagated.trans
    exact forall₂_enter Propagated.refl propagated

/-- What is known on entry to the block that a walk faces has a source. -/
theorem Traced.faces {base : Walk} (traced : Traced original walk)
    (faces : walk.Faces plan id known conditional base) :
    Traced original base ∧ Sourced base.code known := by
  cases faces with
  | root home left => exact ⟨⟨traced.known, traced.propagated⟩, sourced_empty⟩
  | @successor visit path id pending top left =>
    have way : ∀ one ∈ { visit with pending } :: path, Sourced walk.code one.known := by
      have all := traced.known
      rw [top, List.forall_mem_cons] at all
      exact List.forall_mem_cons.mpr all
    exact ⟨⟨way, traced.propagated⟩, sourced_entryKnown way _ _⟩

theorem Traced.turn (traced : Traced original walk) (turn : walk.Turn plan next) :
    Traced original next := by
  cases turn with
  | leave top done =>
    refine ⟨fun visit member => traced.known visit ?_, traced.propagated⟩
    rw [top]
    exact List.mem_cons_of_mem _ member
  | pass faces entered => exact (traced.faces faces).1
  | enter faces fresh =>
    obtain ⟨before, sourced⟩ := traced.faces faces
    exact before.enter sourced

theorem propagated_propagate (code : List Instruction) (flow : Flow) (usage : Usage) :
    List.Forall₂ (Propagated (propagate code flow usage).code) code
      (propagate code flow usage).code := by
  have start : Traced code (Walk.start (Plan.make code flow) code usage) :=
    ⟨fun _ member => absurd member List.not_mem_nil,
      List.forall₂_same.mpr fun i _ => Propagated.refl i⟩
  exact (Walk.run_induction (motive := Traced code) Traced.turn start _).propagated

end Traced

/-! ### The operands that differ -/

/-- How many operands differ between two programs, operand by operand. -/
def changedOperands (code other : List Instruction) : Nat :=
  (List.zipWith (fun i j => (i.operands.zip j.operands).countP fun pair => pair.1 ≠ pair.2)
    code other).sum

section Changed

variable {code other program : List Instruction}

/-- An operand that differs was a variable and is none. -/
theorem length_vars_of_exchange {operands others : List Operand}
    (exchanged : List.Forall₂ (Exchange program) operands others) :
    (operands.filterMap Operand.var?).length =
      (operands.zip others).countP (fun pair => pair.1 ≠ pair.2) +
        (others.filterMap Operand.var?).length := by
  induction exchanged with
  | nil => rfl
  | @cons operand _ _ _ exchange tail inductionHypothesis =>
    rw [List.zip_cons_cons, List.countP_cons, List.filterMap_cons, List.filterMap_cons]
    cases exchange with
    | same => cases operand.var? <;> simp [inductionHypothesis, Nat.add_assoc]
    | constant member moves =>
      simp only [Operand.var?, List.length_cons, inductionHypothesis]
      rw [if_pos (by simp)]
      omega

theorem bulk_of_propagated (propagated : List.Forall₂ (Propagated program) code other) :
    weigh Instruction.bulk code = changedOperands code other + weigh Instruction.bulk other := by
  induction propagated with
  | nil => rfl
  | @cons i j _ _ head tail inductionHypothesis =>
    have first := length_vars_of_exchange head.operands
    rw [← Instruction.vars, ← Instruction.vars] at first
    rw [weigh_cons, weigh_cons, Instruction.bulk, Instruction.bulk, changedOperands,
      List.zipWith_cons_cons, List.sum_cons, ← changedOperands]
    omega

/-- The changes that are reported are the operands that differ. -/
theorem changes_propagate (code : List Instruction) (flow : Flow) (usage : Usage) :
    (propagate code flow usage).changes =
      changedOperands code (propagate code flow usage).code := by
  have differ := bulk_of_propagated (propagated_propagate code flow usage)
  have measured := @bulk_run (Plan.make code flow) (Walk.bound (Plan.make code flow))
    (Walk.start (Plan.make code flow) code usage)
  have start : (Walk.start (Plan.make code flow) code usage).substitutions +
      weigh Instruction.bulk (Walk.start (Plan.make code flow) code usage).code =
        weigh Instruction.bulk code := Nat.zero_add _
  rw [start, differ] at measured
  exact Nat.add_right_cancel measured

theorem Propagated.samePart {i j : Instruction} (propagated : Propagated program i j) :
    SamePart i j := by
  have label : j.operands.head?.bind Operand.label? = i.operands.head?.bind Operand.label? := by
    have exchanged := propagated.operands
    generalize i.operands = operands, j.operands = others at exchanged
    cases exchanged with
    | nil => rfl
    | cons exchange tail => cases exchange <;> rfl
  refine ⟨propagated.opcode, propagated.markers, ?_, ?_⟩
  · rw [Instruction.jumpTarget?, Instruction.jumpTarget?, label, propagated.opcode]
  · rw [Instruction.definedLabel?, Instruction.definedLabel?, label, propagated.opcode]

end Changed

/-- The propagation of constants through a stored program changes operands that are read, and
nothing else. Every instruction stays in its slot, and the slots stay in their order. Each constant
that is put in place of a variable is moved into that variable by an instruction of the result. The
changes that are reported are the operands that differ. The result has the control-flow graph of the
program, and it is what the propagation through the list of instructions gives. -/
theorem propagation_changes_reads_only {s : Store} {flow : Flow} (built : Flow.ofStore s = .ok flow)
    (usage : Usage) :
    (propagateOver s flow usage).store.order = s.order ∧
      List.Forall₂ (Propagated (propagateOver s flow usage).store.code) s.code
        (propagateOver s flow usage).store.code ∧
      (propagateOver s flow usage).changes =
        changedOperands s.code (propagateOver s flow usage).store.code ∧
      Flow.ofStore (propagateOver s flow usage).store = .ok flow ∧
      ∃ listed, Flow.build s.code = .ok listed ∧
        (propagateOver s flow usage).toEdit = propagate s.code listed usage := by
  obtain ⟨listed, plain, rfl⟩ := Flow.exists_build_of_ofStore built
  obtain ⟨same, order⟩ := toEdit_propagateOver plain usage
  have code := congrArg Edit.code same
  have changes := congrArg Edit.changes same
  dsimp only [StoreEdit.toEdit] at code changes
  have propagated := propagated_propagate s.code listed usage
  refine ⟨order, ?_, ?_, ?_, listed, plain, same⟩
  · rwa [code]
  · rw [changes, code, changes_propagate]
  · have again := Flow.build_samePart (propagated.imp fun _ _ => Propagated.samePart)
    rw [Flow.ofStore_eq, code, again, plain, slotAt_of_order order]
    rfl

/-- A constant that is written out of a variable to which another variable hands it. The last
instruction stands in a slot that was emptied before. -/
def relayed : Store :=
  let spaced := Store.ofCode
    [{ opcode := .brk, operands := [] },
     { opcode := .move, operands := [.var ⟨.gf, "a"⟩, .const (.int 4)] },
     { opcode := .jumpifeqs, operands := [.label "end"] },
     { opcode := .move, operands := [.var ⟨.gf, "b"⟩, .var ⟨.gf, "a"⟩] },
     { opcode := .write, operands := [.var ⟨.gf, "b"⟩], markers := { expressionStart := true },
       effects := { output := true } },
     { opcode := .label, operands := [.label "end"] }]
  ((spaced.remove 0).2.append { opcode := .write, operands := [.var ⟨.gf, "a"⟩] }).2

/-- The constant that is written comes from a move that the run itself has made. Two blocks lead to
the last one, so nothing is replaced there. -/
theorem propagation_changes_reads_only_relayed :
    ∃ flow, Flow.ofStore relayed = .ok flow ∧
      (propagateOver relayed flow {}).store.entries =
        [(1, { opcode := .move, operands := [.var ⟨.gf, "a"⟩, .const (.int 4)] }),
         (2, { opcode := .jumpifeqs, operands := [.label "end"] }),
         (3, { opcode := .move, operands := [.var ⟨.gf, "b"⟩, .const (.int 4)] }),
         (4, { opcode := .write, operands := [.const (.int 4)],
               markers := { expressionStart := true }, effects := { output := true } }),
         (5, { opcode := .label, operands := [.label "end"] }),
         (0, { opcode := .write, operands := [.var ⟨.gf, "a"⟩] })] ∧
      relayed.order = [1, 2, 3, 4, 5, 0] ∧
      List.Forall₂ (Propagated (propagateOver relayed flow {}).store.code) relayed.code
        (propagateOver relayed flow {}).store.code ∧
      changedOperands relayed.code (propagateOver relayed flow {}).store.code = 2 ∧
      (propagateOver relayed flow {}).changes = 2 ∧
      Flow.ofStore (propagateOver relayed flow {}).store = .ok flow ∧
      ∃ listed, Flow.build relayed.code = .ok listed ∧
        (propagateOver relayed flow {}).toEdit = propagate relayed.code listed {} := by
  obtain ⟨flow, built, result, counted⟩ :
      ∃ flow, Flow.ofStore relayed = .ok flow ∧
        (propagateOver relayed flow {}).store.entries =
          [(1, { opcode := .move, operands := [.var ⟨.gf, "a"⟩, .const (.int 4)] }),
           (2, { opcode := .jumpifeqs, operands := [.label "end"] }),
           (3, { opcode := .move, operands := [.var ⟨.gf, "b"⟩, .const (.int 4)] }),
           (4, { opcode := .write, operands := [.const (.int 4)],
                 markers := { expressionStart := true }, effects := { output := true } }),
           (5, { opcode := .label, operands := [.label "end"] }),
           (0, { opcode := .write, operands := [.var ⟨.gf, "a"⟩] })] ∧
        changedOperands relayed.code (propagateOver relayed flow {}).store.code = 2 :=
    ⟨_, rfl, by decide +kernel, by decide +kernel⟩
  obtain ⟨order, propagated, changes, same, list⟩ := propagation_changes_reads_only built {}
  refine ⟨flow, built, result, ?_, propagated, counted, changes.trans counted, same, list⟩
  rw [← order, Store.order, result]
  rfl

end Constants

end ThreeAddress
