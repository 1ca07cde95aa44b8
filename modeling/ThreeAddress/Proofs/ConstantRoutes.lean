/-
What a replaced operand says about every way to it. Along each route from block
zero to an operand that was replaced by a constant, the last instruction that
changes the variable moves that constant into it. There is one exception: a
block that several blocks lead to starts with nothing known, but a jump that is
taken from there, behind a jump that was taken to there, restores what was known
further up, so the constant may be that of another route. `StaleEdge` is the
second of the two jumps, and a program at the end has two such routes with
different constants.

The invariant of the walk says, for each block on the way to the current one and
for each route to that block, that what is known at its end is reliable. It is
proved once for entering a block, whatever is known on entry, and once for what
is known on entry.
-/
import ThreeAddress.Proofs.Blocks
import ThreeAddress.Proofs.Substitution
import ThreeAddress.Proofs.Turns

namespace ThreeAddress

/-! ### Routes -/

namespace Flow

/-- The instructions of a block. -/
def instructions (flow : Flow) (code : List Instruction) (id : Nat) : List Instruction :=
  ((flow.block? id).map fun b => b.instructions code).getD []

/-- The instructions of a block before a position. -/
def before (flow : Flow) (code : List Instruction) (id position : Nat) : List Instruction :=
  ((flow.block? id).map fun b => (code.drop b.first).take (position - b.first)).getD []

/-- The ways along edges from block zero: the blocks passed, and the block reached. -/
inductive Route (flow : Flow) : List Nat → Nat → Prop
  | start : Route flow [] 0
  | step {passed : List Nat} {id next : Nat} (route : Route flow passed id)
    (edge : next ∈ flow.graph.successors id) : Route flow (passed ++ [id]) next

/-- The instructions of the blocks passed. -/
def trace (flow : Flow) (code : List Instruction) (passed : List Nat) : List Instruction :=
  passed.flatMap (flow.instructions code)

/-- Whether several blocks or a call lead to a block. -/
def Merges (flow : Flow) (id : Nat) : Prop :=
  1 < (flow.graph.predecessors id).length ∨ (flow.block? id).any Block.called

/-- Whether a taken jump leaves a block that merges, was itself reached by a taken jump, and leads
to a block that does not merge. -/
structure StaleEdge (flow : Flow) (source target : Nat) : Prop where
  merges : flow.Merges source
  reached : ∃ earlier, flow.isConditional earlier source
  taken : flow.isConditional source target
  single : ¬ flow.Merges target

theorem trace_append_one (flow : Flow) (code : List Instruction) (passed : List Nat) (id : Nat) :
    flow.trace code (passed ++ [id]) = flow.trace code passed ++ flow.instructions code id := by
  rw [trace, List.flatMap_append, List.flatMap_singleton]
  rfl

/-- A block with one predecessor is reached through it only. -/
theorem Route.exists_of_single {flow : Flow} (consistent : flow.graph.Consistent)
    {passed : List Nat} {id next : Nat} (route : flow.Route passed next) (later : next ≠ 0)
    (single : ¬ flow.Merges next) (edge : next ∈ flow.graph.successors id) :
    ∃ earlier, passed = earlier ++ [id] ∧ flow.Route earlier id := by
  cases route with
  | start => exact absurd rfl later
  | @step earlier source _ route last =>
    have few : ¬ 1 < (flow.graph.predecessors next).length := fun many => single (Or.inl many)
    have one := (consistent.mirrored source next).mp last
    have other := (consistent.mirrored id next).mp edge
    obtain rfl : source = id := by
      cases incoming : flow.graph.predecessors next with
      | nil => rw [incoming] at one; exact absurd one (by simp)
      | cons first rest =>
        cases rest with
        | nil =>
          rw [incoming, List.mem_singleton] at one other
          exact one.trans other.symm
        | cons second rest => rw [incoming] at few; exact absurd few (by simp)
    exact ⟨earlier, rfl, route⟩

end Flow

namespace Constants

/-! ### Reliable constants -/

/-- Whether the last of these instructions that changes a variable moves a constant into it. -/
def LastMove (v : Variable) (c : Constant) (code : List Instruction) : Prop :=
  ∃ earlier move later, code = earlier ++ move :: later ∧ Moves v c move ∧ ∀ i ∈ later, Keeps v i

/-- Whether a route passes a stale edge and nothing changes a variable from the source of that edge
on; `tail` are the instructions of the block reached. -/
def Stale (flow : Flow) (code : List Instruction) (passed : List Nat) (id : Nat) (v : Variable)
    (tail : List Instruction) : Prop :=
  ∃ earlier source target later, passed ++ [id] = earlier ++ source :: target :: later ∧
    flow.StaleEdge source target ∧
    ∀ i ∈ flow.trace code (passed.drop earlier.length) ++ tail, Keeps v i

/-- What holds of a constant that is known for a variable behind a route. -/
def Reliable (flow : Flow) (code : List Instruction) (passed : List Nat) (id : Nat) (v : Variable)
    (c : Constant) (tail : List Instruction) : Prop :=
  LastMove v c (flow.trace code passed ++ tail) ∨ Stale flow code passed id v tail

section Reliable

variable {flow : Flow} {code other : List Instruction} {passed : List Nat} {id next : Nat}
  {v : Variable} {c : Constant} {tail : List Instruction}

theorem persistent_reliable (flow : Flow) (code : List Instruction) (passed : List Nat) (id : Nat) :
    Persistent (Reliable flow code passed id) where
  move {v c before i} moves :=
    Or.inl ⟨flow.trace code passed ++ before, i, [], by simp, moves, by simp⟩
  keep {v c before i} holds keeps := by
    rcases holds with ⟨earlier, move, later, split, moves, kept⟩ |
      ⟨earlier, source, target, later, split, edge, kept⟩
    · refine Or.inl ⟨earlier, move, later ++ [i], ?_, moves, fun j member => ?_⟩
      · rw [← List.append_assoc, split, List.append_assoc, List.cons_append]
      · rcases List.mem_append.mp member with old | new
        · exact kept j old
        · rw [List.mem_singleton.mp new]
          exact keeps
    · refine Or.inr ⟨earlier, source, target, later, split, edge, fun j member => ?_⟩
      rw [← List.append_assoc] at member
      rcases List.mem_append.mp member with old | new
      · exact kept j old
      · rw [List.mem_singleton.mp new]
        exact keeps

theorem Reliable.append (reliable : Reliable flow code passed id v c tail)
    {block : List Instruction} (keeps : ∀ i ∈ block, Keeps v i) :
    Reliable flow code passed id v c (tail ++ block) := by
  induction block generalizing tail with
  | nil => rwa [List.append_nil]
  | cons i rest inductionHypothesis =>
    have one := (persistent_reliable flow code passed id).keep reliable (keeps i List.mem_cons_self)
    have more := inductionHypothesis one fun j member => keeps j (List.mem_cons_of_mem _ member)
    rwa [List.append_assoc, List.singleton_append] at more

/-- Going along an edge. -/
theorem Reliable.step (next : Nat)
    (reliable : Reliable flow code passed id v c (flow.instructions code id)) :
    Reliable flow code (passed ++ [id]) next v c [] := by
  rcases reliable with last | ⟨earlier, source, target, later, split, edge, kept⟩
  · refine Or.inl ?_
    rwa [List.append_nil, Flow.trace_append_one]
  · have short : earlier.length ≤ passed.length := by
      have lengths := congrArg List.length split
      simp only [List.length_append, List.length_cons, List.length_nil] at lengths
      omega
    refine Or.inr ⟨earlier, source, target, later ++ [next], ?_, edge, ?_⟩
    · rw [split, List.append_assoc, List.cons_append, List.cons_append]
    · rw [List.drop_append_of_le_length short, Flow.trace_append_one, List.append_nil]
      exact kept

theorem refined_instructions (flow : Flow) (refined : List.Forall₂ Refined code other) (id : Nat) :
    List.Forall₂ Refined (flow.instructions code id) (flow.instructions other id) := by
  unfold Flow.instructions
  cases flow.block? id with
  | none => exact List.Forall₂.nil
  | some b => exact List.forall₂_take _ (List.forall₂_drop _ refined)

theorem refined_before (flow : Flow) (refined : List.Forall₂ Refined code other)
    (id position : Nat) :
    List.Forall₂ Refined (flow.before code id position) (flow.before other id position) := by
  unfold Flow.before
  cases flow.block? id with
  | none => exact List.Forall₂.nil
  | some b => exact List.forall₂_take _ (List.forall₂_drop _ refined)

theorem refined_trace (flow : Flow) (refined : List.Forall₂ Refined code other)
    (passed : List Nat) :
    List.Forall₂ Refined (flow.trace code passed) (flow.trace other passed) := by
  induction passed with
  | nil => exact List.Forall₂.nil
  | cons id rest inductionHypothesis =>
    exact List.rel_append (refined_instructions flow refined id) inductionHypothesis

theorem LastMove.refined (refined : List.Forall₂ Refined code other) (last : LastMove v c code) :
    LastMove v c other := by
  obtain ⟨earlier, move, later, rfl, moves, keeps⟩ := last
  induction earlier generalizing other with
  | nil =>
    cases refined with
    | @cons _ image _ rest head tail =>
      exact ⟨[], image, rest, rfl, head.moves moves, keeps_of_refined tail keeps⟩
  | cons first earlier inductionHypothesis =>
    cases refined with
    | @cons _ image _ rest head tail =>
      obtain ⟨front, found, back, rfl, more⟩ := inductionHypothesis tail
      exact ⟨image :: front, found, back, rfl, more⟩

/-- Replacing more operands keeps a constant reliable. -/
theorem Reliable.refined {shown : List Instruction}
    (reliable : Reliable flow code passed id v c tail) (refined : List.Forall₂ Refined code other)
    (tails : List.Forall₂ Refined tail shown) : Reliable flow other passed id v c shown := by
  rcases reliable with last | ⟨earlier, source, target, later, split, edge, kept⟩
  · exact Or.inl (last.refined (List.rel_append (refined_trace flow refined passed) tails))
  · refine Or.inr ⟨earlier, source, target, later, split, edge, ?_⟩
    exact keeps_of_refined (List.rel_append (refined_trace flow refined _) tails) kept

end Reliable

/-! ### What is known on entry -/

/-- What the nearest block on the way that was not entered by a taken jump left, less what the
blocks since then may have changed. -/
def inherited (plan : Plan) : List Visit → Known
  | [] => {}
  | visit :: rest =>
    if visit.conditional then (plan.summary visit.id).apply (inherited plan rest) else visit.known

theorem inherited_eq (plan : Plan) (path : List Visit) :
    (path.takeWhile Visit.conditional).foldr
        (fun visit known => (plan.summary visit.id).apply known)
        (((path.drop (path.takeWhile Visit.conditional).length).head?.map Visit.known).getD {}) =
      inherited plan path := by
  induction path with
  | nil => rfl
  | cons visit rest inductionHypothesis =>
    unfold inherited
    by_cases taken : visit.conditional
    · rw [if_pos taken, List.takeWhile_cons_of_pos taken, List.length_cons, List.drop_succ_cons,
        List.foldr_cons, inductionHypothesis]
    · rw [if_neg taken, List.takeWhile_cons_of_neg taken]
      rfl

/-- What is known on entry to a block that does not merge comes from the block before it, or it is
inherited. -/
theorem value?_of_entryKnown {plan : Plan} {visit : Visit} {rest : List Visit} {id : Nat}
    {conditional : Bool} {v : Variable} {c : Constant}
    (found : (entryKnown plan (visit :: rest) id conditional).value? v = some c) :
    ¬ plan.flow.Merges id ∧
      (if conditional then inherited plan (visit :: rest) else visit.known).value? v = some c := by
  unfold entryKnown at found
  dsimp only at found
  split at found
  · rw [Known.value?_empty] at found
    exact absurd found (by simp)
  · next single =>
    refine ⟨fun merges => single ?_, ?_⟩
    · rw [Bool.or_eq_true, decide_eq_true_eq]
      exact merges
    · cases conditional with
      | false => exact found
      | true =>
        rw [if_pos rfl] at found ⊢
        rwa [inherited_eq] at found

/-- Whether each block on a way follows the one below it, by a taken jump if it is marked so, and
the block at the bottom is marked as entered without one. -/
def Linked (flow : Flow) : List Visit → Prop
  | [] => True
  | [root] => root.conditional = false
  | visit :: below :: rest =>
    visit.id ∈ flow.graph.successors below.id ∧
      visit.conditional = flow.isConditional below.id visit.id ∧ visit.id ≠ 0 ∧
      Linked flow (below :: rest)

/-- Whether everything known at the end of a block is reliable behind every route to it. -/
def Visit.Reliable (flow : Flow) (code : List Instruction) (visit : Visit) : Prop :=
  ∀ passed, flow.Route passed visit.id → ∀ v c, visit.known.value? v = some c →
    Constants.Reliable flow code passed visit.id v c (flow.instructions code visit.id)

/-- What may also hold at the end of a block, of a constant that is inherited through it: the block
merges, was reached by a taken jump and leaves the variable alone. -/
structure Inherits (flow : Flow) (code : List Instruction) (id : Nat) (v : Variable) : Prop where
  merges : flow.Merges id
  reached : ∃ earlier, flow.isConditional earlier id
  keeps : ∀ i ∈ flow.instructions code id, Keeps v i

section Inherited

variable {plan : Plan} {original code : List Instruction} {passed : List Nat} {id next : Nat}
  {v : Variable} {c : Constant} {visit : Visit} {rest : List Visit}

/-- A taken jump to a block that does not merge makes a stale edge of what is inherited. -/
theorem reliable_of_taken {flow : Flow}
    (known : Reliable flow code passed id v c (flow.instructions code id) ∨
      Inherits flow code id v)
    (taken : flow.isConditional id next) (single : ¬ flow.Merges next) :
    Reliable flow code (passed ++ [id]) next v c [] := by
  rcases known with reliable | inherits
  · exact reliable.step next
  · refine Or.inr ⟨passed, id, next, [], by rw [List.append_assoc]; rfl,
      ⟨inherits.merges, inherits.reached, taken, single⟩, ?_⟩
    rw [List.drop_left, List.append_nil, Flow.trace, List.flatMap_singleton]
    exact inherits.keeps

theorem reliable_of_inherited (consistent : plan.flow.graph.Consistent)
    (summaries : ∀ id, plan.summary id = Summary.ofBlock (plan.flow.instructions original id))
    (refined : List.Forall₂ Refined original code) (linked : Linked plan.flow (visit :: rest))
    (reliable : ∀ one ∈ visit :: rest, one.Reliable plan.flow code)
    (found : (inherited plan (visit :: rest)).value? v = some c)
    (route : plan.flow.Route passed visit.id) :
    Reliable plan.flow code passed visit.id v c (plan.flow.instructions code visit.id) ∨
      Inherits plan.flow code visit.id v := by
  induction rest generalizing visit passed with
  | nil =>
    rw [inherited, if_neg (by rw [show visit.conditional = false from linked]; simp)] at found
    exact Or.inl (reliable visit List.mem_cons_self passed route v c found)
  | cons below rest inductionHypothesis =>
    obtain ⟨edge, mark, later, linkedBelow⟩ := linked
    by_cases conditional : visit.conditional
    · rw [inherited, if_pos conditional, summaries] at found
      obtain ⟨above, keeps⟩ := value?_of_apply found
      have kept := keeps_of_refined (refined_instructions plan.flow refined visit.id) keeps
      have taken := mark.symm.trans conditional
      by_cases merges : plan.flow.Merges visit.id
      · exact Or.inr ⟨merges, ⟨below.id, taken⟩, kept⟩
      · obtain ⟨earlier, rfl, routeBelow⟩ := route.exists_of_single consistent later merges edge
        have start := inductionHypothesis linkedBelow
          (fun one member => reliable one (List.mem_cons_of_mem _ member)) above routeBelow
        exact Or.inl ((reliable_of_taken start taken merges).append kept)
    · rw [inherited, if_neg conditional] at found
      exact Or.inl (reliable visit List.mem_cons_self passed route v c found)

/-- What is known on entry to the next block is reliable. -/
theorem reliable_of_entryKnown (consistent : plan.flow.graph.Consistent)
    (summaries : ∀ id, plan.summary id = Summary.ofBlock (plan.flow.instructions original id))
    (refined : List.Forall₂ Refined original code) (linked : Linked plan.flow (visit :: rest))
    (reliable : ∀ one ∈ visit :: rest, one.Reliable plan.flow code)
    (edge : next ∈ plan.flow.graph.successors visit.id) (later : next ≠ 0)
    (found : (entryKnown plan (visit :: rest) next
      (plan.flow.isConditional visit.id next)).value? v = some c)
    (route : plan.flow.Route passed next) : Reliable plan.flow code passed next v c [] := by
  obtain ⟨single, found⟩ := value?_of_entryKnown found
  obtain ⟨earlier, rfl, routeBelow⟩ := route.exists_of_single consistent later single edge
  split at found
  · next taken =>
    have known :=
      reliable_of_inherited consistent summaries refined linked reliable found routeBelow
    exact reliable_of_taken known taken single
  · exact (reliable visit List.mem_cons_self earlier routeBelow v c found).step next

end Inherited

/-! ### Entering a block -/

/-- A program with another run of instructions in place of the `size` ones from `first` on. -/
def splice (code : List Instruction) (first size : Nat) (block : List Instruction) :
    List Instruction :=
  code.take first ++ block ++ code.drop (first + size)

section Splice

variable {code block : List Instruction} {first size : Nat}

theorem getElem?_splice (same : ((code.drop first).take size).length = block.length)
    (position : Nat) :
    (splice code first size block)[position]? =
      if first ≤ position ∧ position < first + size then block[position - first]?
      else code[position]? := by
  simp only [List.length_take, List.length_drop] at same
  simp only [splice, List.getElem?_append, List.length_append, List.length_take,
    List.getElem?_take, List.getElem?_drop]
  grind

theorem take_drop_splice (same : ((code.drop first).take size).length = block.length) :
    ((splice code first size block).drop first).take size = block := by
  refine List.ext_getElem? fun index => ?_
  rw [List.getElem?_take, List.getElem?_drop, getElem?_splice same]
  simp only [List.length_take] at same
  grind

end Splice

section Enter

variable {plan : Plan} {walk : Walk} {id position : Nat} {known : Known} {conditional : Bool}

/-- The scan of a block that is entered. -/
def scanned (plan : Plan) (walk : Walk) (id : Nat) (known : Known) :
    List Instruction × Progress :=
  scan (plan.flow.instructions walk.code id)
    { known := (plan.blocked id).foldl Known.block known, usage := walk.usage }

/-- What entering a block does, apart from what it makes of the program. -/
theorem enter_eq : walk.enter plan id known conditional =
    { walk with
      code := (walk.enter plan id known conditional).code
      usage := (scanned plan walk id known).2.usage
      substitutions := walk.substitutions + (scanned plan walk id known).2.substitutions
      entered := id :: walk.entered
      path := ⟨id, (scanned plan walk id known).2.known, conditional,
        plan.flow.graph.successors id⟩ :: walk.path } := by
  unfold Walk.enter Tour.enter scanned Flow.instructions
  cases plan.flow.block? id <;> rfl

theorem path_enter : (walk.enter plan id known conditional).path =
    ⟨id, (scanned plan walk id known).2.known, conditional, plan.flow.graph.successors id⟩ ::
      walk.path := by
  rw [enter_eq]

theorem entered_enter : (walk.enter plan id known conditional).entered = id :: walk.entered := by
  rw [enter_eq]

theorem roots_enter : (walk.enter plan id known conditional).roots = walk.roots := by
  rw [enter_eq]

theorem code_enter {b : Block} (found : plan.flow.block? id = some b) :
    (walk.enter plan id known conditional).code =
      splice walk.code b.first b.size (scanned plan walk id known).1 := by
  unfold Walk.enter Tour.enter scanned Flow.instructions
  rw [found]
  rfl

theorem code_enter_of_none (missing : plan.flow.block? id = none) :
    (walk.enter plan id known conditional).code = walk.code := by
  unfold Walk.enter Tour.enter
  rw [missing]

theorem instructions_of_block {flow : Flow} {b : Block} (found : flow.block? id = some b)
    (code : List Instruction) : flow.instructions code id = (code.drop b.first).take b.size := by
  rw [Flow.instructions, found]
  rfl

theorem refined_scanned : List.Forall₂ Refined (plan.flow.instructions walk.code id)
    (scanned plan walk id known).1 :=
  refined_scan _ _

/-- Entering a block puts what the scan makes of its instructions in their place. -/
theorem exists_enter_split (plan : Plan) (walk : Walk) (id : Nat) (known : Known)
    (conditional : Bool) :
    ∃ before after, walk.code = before ++ (plan.flow.instructions walk.code id ++ after) ∧
      (walk.enter plan id known conditional).code =
        before ++ ((scanned plan walk id known).1 ++ after) := by
  cases found : plan.flow.block? id with
  | none =>
    refine ⟨walk.code, [], ?_, ?_⟩
    · rw [Flow.instructions, found, Option.map_none, Option.getD_none, List.nil_append,
        List.append_nil]
    · rw [code_enter_of_none found, scanned, Flow.instructions, found]
      exact (List.append_nil _).symm
  | some b =>
    refine ⟨walk.code.take b.first, walk.code.drop (b.first + b.size), ?_, ?_⟩
    · rw [instructions_of_block found, ← List.drop_drop, List.take_append_drop,
        List.take_append_drop]
    · rw [code_enter found, splice, List.append_assoc]

/-- What the scan of a block relates, entering the block relates throughout the program. -/
theorem forall₂_enter {Related : Instruction → Instruction → Prop} (refl : ∀ i, Related i i)
    (related : List.Forall₂ Related (plan.flow.instructions walk.code id)
      (scanned plan walk id known).1) :
    List.Forall₂ Related walk.code (walk.enter plan id known conditional).code := by
  obtain ⟨before, after, old, new⟩ := exists_enter_split plan walk id known conditional
  have same (list : List Instruction) : List.Forall₂ Related list list :=
    List.forall₂_same.mpr fun i _ => refl i
  have replaced : List.Forall₂ Related
      (before ++ (plan.flow.instructions walk.code id ++ after))
      (before ++ ((scanned plan walk id known).1 ++ after)) :=
    List.rel_append (same before) (List.rel_append related (same after))
  rwa [← old, ← new] at replaced

theorem refined_enter :
    List.Forall₂ Refined walk.code (walk.enter plan id known conditional).code :=
  forall₂_enter Refined.refl refined_scanned

theorem instructions_enter :
    plan.flow.instructions (walk.enter plan id known conditional).code id =
      (scanned plan walk id known).1 := by
  cases found : plan.flow.block? id with
  | none =>
    rw [scanned, Flow.instructions, Flow.instructions, found]
    rfl
  | some b =>
    rw [instructions_of_block found, code_enter found]
    refine take_drop_splice ?_
    rw [← instructions_of_block found]
    exact refined_scanned.length_eq

/-- Outside of the block that is entered nothing changes. -/
theorem getElem?_enter_of_not_covers (outside : ¬ plan.flow.Covers id position) :
    (walk.enter plan id known conditional).code[position]? = walk.code[position]? := by
  cases found : plan.flow.block? id with
  | none => rw [code_enter_of_none found]
  | some b =>
    have same := (@refined_scanned plan walk id known).length_eq
    rw [instructions_of_block found] at same
    rw [code_enter found, getElem?_splice same,
      if_neg fun inside => outside ⟨b, found, inside.1, inside.2⟩]

theorem getElem?_instructions {flow : Flow} {b : Block} (found : flow.block? id = some b)
    (lower : b.first ≤ position) (upper : position < b.first + b.size)
    (code : List Instruction) :
    (flow.instructions code id)[position - b.first]? = code[position]? := by
  rw [instructions_of_block found, List.getElem?_take, if_pos (by omega), List.getElem?_drop,
    Nat.add_sub_cancel' lower]

/-- Entering a block does not touch the others. -/
theorem instructions_enter_of_ne {original : List Instruction}
    (built : Flow.build original = .ok plan.flow) {other : Nat} (different : other ≠ id) :
    plan.flow.instructions (walk.enter plan id known conditional).code other =
      plan.flow.instructions walk.code other := by
  cases found : plan.flow.block? other with
  | none => rw [Flow.instructions, Flow.instructions, found]; rfl
  | some b =>
    rw [instructions_of_block found, instructions_of_block found]
    refine List.ext_getElem? fun index => ?_
    rw [List.getElem?_take, List.getElem?_take]
    split
    · next inside =>
      rw [List.getElem?_drop, List.getElem?_drop]
      refine getElem?_enter_of_not_covers fun covers => different ?_
      exact Flow.covers_unique built ⟨b, found, by omega, by omega⟩ covers
    · rfl

theorem before_eq_take {flow : Flow} {b : Block} (found : flow.block? id = some b)
    (upper : position < b.first + b.size) (code : List Instruction) :
    flow.before code id position = (flow.instructions code id).take (position - b.first) := by
  rw [instructions_of_block found, List.take_take, Nat.min_eq_left (by omega), Flow.before, found]
  rfl

end Enter

/-! ### The walk -/

/-- Whether a plan is the one for a program. -/
structure Prepared (plan : Plan) (original : List Instruction) : Prop where
  built : Flow.build original = .ok plan.flow
  summaries : ∀ id, plan.summary id = Summary.ofBlock (plan.flow.instructions original id)

/-- The plan for a program has the summary of every block. -/
theorem summary_make (code : List Instruction) (flow : Flow) (id : Nat) :
    (Plan.make code flow).summary id = Summary.ofBlock (flow.instructions code id) := by
  simp only [Plan.summary, Plan.make, Plan.reading, Array.getElem?_map, Flow.instructions,
    Flow.block?, Graph.get?, Graph.node?]
  cases flow.graph.nodes[id]? with
  | none => rfl
  | some slot => cases slot <;> rfl

theorem prepared_make {code : List Instruction} {flow : Flow} (built : Flow.build code = .ok flow) :
    Prepared (Plan.make code flow) code :=
  ⟨built, summary_make code flow⟩

/-- Whether every operand that was replaced so far is reliable behind every route to it. -/
def Justified (flow : Flow) (original code : List Instruction) : Prop :=
  ∀ position i j, original[position]? = some i → code[position]? = some j →
    ∀ (index : Nat) (v : Variable) (c : Constant), i.operands[index]? = some (.var v) →
      j.operands[index]? = some (.const c) →
      ∀ id, flow.Covers id position → ∀ passed, flow.Route passed id →
        Reliable flow code passed id v c (flow.before code id position)

/-- What holds all along a walk. -/
structure Walking (plan : Plan) (original : List Instruction) (walk : Walk) : Prop where
  refined : List.Forall₂ Refined original walk.code
  linked : Linked plan.flow walk.path
  pending : ∀ visit ∈ walk.path, ∀ next ∈ visit.pending,
    next ∈ plan.flow.graph.successors visit.id
  begun : 0 ∈ walk.entered ∨ (walk.path = [] ∧ walk.roots = plan.flow.graph.ids)
  reliable : ∀ visit ∈ walk.path, visit.Reliable plan.flow walk.code
  justified : Justified plan.flow original walk.code

section Walking

variable {plan : Plan} {original : List Instruction} {walk : Walk} {id : Nat} {known : Known}
  {conditional : Bool}

theorem Visit.Reliable.refined {flow : Flow} {code other : List Instruction} {visit : Visit}
    (reliable : visit.Reliable flow code) (refined : List.Forall₂ Refined code other) :
    visit.Reliable flow other :=
  fun passed route v c found =>
    (reliable passed route v c found).refined refined (refined_instructions flow refined visit.id)

/-- What is known at the end of a block that is entered is reliable if what is known on entry is. -/
theorem reliable_enter
    (entry : ∀ passed, plan.flow.Route passed id → ∀ v c, known.value? v = some c →
      Reliable plan.flow walk.code passed id v c [])
    (pending : List Nat) :
    Visit.Reliable plan.flow (walk.enter plan id known conditional).code
      ⟨id, (scanned plan walk id known).2.known, conditional, pending⟩ := by
  intro passed route v c found
  have persistent := persistent_reliable plan.flow walk.code passed id
  have behind := persistent.known_scan
    (fun v c found => entry passed route v c (Known.value?_of_foldl_block found)) v c found
  rw [instructions_enter]
  exact behind.refined refined_enter (refined_refl _)

/-- The operands that are replaced in a block that is entered are reliable if what is known on
entry is, and so are those that were replaced before. -/
theorem Justified.enter (prepared : Prepared plan original)
    (refined : List.Forall₂ Refined original walk.code)
    (justified : Justified plan.flow original walk.code)
    (entry : ∀ passed, plan.flow.Route passed id → ∀ v c, known.value? v = some c →
      Reliable plan.flow walk.code passed id v c []) :
    Justified plan.flow original (walk.enter plan id known conditional).code := by
  intro position i j old new index v c wasVariable isLiteral covering inside passed route
  obtain ⟨now, current, fromOriginal⟩ := refined_getElem? refined old
  rcases fromOriginal.operand index _ wasVariable with still | ⟨w, d, -, replaced⟩
  · -- the operand was still a variable, so it stands in the block that is entered
    have here : plan.flow.Covers id position := by
      by_contra outside
      rw [getElem?_enter_of_not_covers outside, current, Option.some_inj] at new
      rw [← new, still] at isLiteral
      exact absurd isLiteral (by simp)
    obtain rfl := Flow.covers_unique prepared.built here inside
    obtain ⟨b, found, lower, upper⟩ := here
    rw [before_eq_take found upper, instructions_enter]
    rw [← getElem?_instructions found lower upper, instructions_enter] at new
    rw [← getElem?_instructions found lower upper] at current
    have persistent := persistent_reliable plan.flow walk.code passed id
    have replaced := persistent.replaced_scan
      (fun v c found => entry passed route v c (Known.value?_of_foldl_block found)) current new
      still isLiteral
    exact replaced.refined refined_enter (refined_refl _)
  · -- the operand was a literal already, and literals stay
    obtain ⟨after, found, fromNow⟩ :=
      refined_getElem? (@refined_enter plan walk id known conditional) current
    obtain rfl := Option.some_inj.mp (new.symm.trans found)
    have same := (fromNow.const replaced).symm.trans isLiteral
    obtain rfl := Operand.const.inj (Option.some_inj.mp same)
    exact (justified position i now old current index v d wasVariable replaced covering inside
      passed route).refined refined_enter (refined_before _ refined_enter _ _)

theorem Walking.enter (walking : Walking plan original walk) (prepared : Prepared plan original)
    (entry : ∀ passed, plan.flow.Route passed id → ∀ v c, known.value? v = some c →
      Reliable plan.flow walk.code passed id v c [])
    (link : ∀ known, Linked plan.flow
      (⟨id, known, conditional, plan.flow.graph.successors id⟩ :: walk.path))
    (begun : 0 ∈ id :: walk.entered) :
    Walking plan original (walk.enter plan id known conditional) where
  refined := refined_trans walking.refined refined_enter
  linked := by
    rw [path_enter]
    exact link _
  pending := by
    rw [path_enter]
    exact List.forall_mem_cons.mpr ⟨fun _ member => member, walking.pending⟩
  begun := Or.inl begun
  reliable := by
    rw [path_enter]
    refine List.forall_mem_cons.mpr ⟨reliable_enter entry _, fun visit member => ?_⟩
    exact (walking.reliable visit member).refined refined_enter
  justified := walking.justified.enter prepared walking.refined entry

theorem Linked.below {flow : Flow} {visit : Visit} {path : List Visit}
    (linked : Linked flow (visit :: path)) : Linked flow path := by
  cases path with
  | nil => exact trivial
  | cons below rest => exact linked.2.2.2

theorem Linked.withPending {flow : Flow} {path : List Visit} {pending left : List Nat}
    (linked : Linked flow (⟨id, known, conditional, pending⟩ :: path)) :
    Linked flow (⟨id, known, conditional, left⟩ :: path) := by
  cases path with
  | nil => exact linked
  | cons below rest => exact linked

theorem Walking.withRoots (walking : Walking plan original walk) (begun : 0 ∈ walk.entered)
    (roots : List Nat) : Walking plan original { walk with roots } :=
  ⟨walking.refined, walking.linked, walking.pending, Or.inl begun, walking.reliable,
    walking.justified⟩

/-- Block zero is the first root. -/
theorem Walking.zero_of_root (walking : Walking plan original walk)
    (prepared : Prepared plan original) {roots : List Nat} (left : walk.roots = id :: roots) :
    0 ∈ id :: walk.entered := by
  rcases walking.begun with earlier | ⟨-, all⟩
  · exact List.mem_cons_of_mem _ earlier
  · rw [Flow.eq_zero_of_head_ids prepared.built (all.symm.trans left)]
    exact List.mem_cons_self

/-- On its way a walk has entered block zero. -/
theorem Walking.zero_of_path (walking : Walking plan original walk) {visit : Visit}
    {path : List Visit} (top : walk.path = visit :: path) : 0 ∈ walk.entered :=
  walking.begun.resolve_right fun start => by
    rw [top] at start
    exact absurd start.1 (by simp)

/-- Looking at a successor of the current block. -/
theorem Walking.ahead (walking : Walking plan original walk) {visit : Visit} {path : List Visit}
    {pending : List Nat} (top : walk.path = visit :: path) (left : visit.pending = id :: pending) :
    Walking plan original { walk with path := { visit with pending } :: path } := by
  have zero := walking.zero_of_path top
  obtain ⟨refined, linked, edges, -, reliable, justified⟩ := walking
  rw [top] at linked edges reliable
  rw [List.forall_mem_cons] at edges reliable
  refine ⟨refined, linked.withPending, List.forall_mem_cons.mpr ⟨fun next member => ?_, edges.2⟩,
    Or.inl zero, List.forall_mem_cons.mpr reliable, justified⟩
  refine edges.1 next ?_
  rw [left]
  exact List.mem_cons_of_mem _ member

theorem Walking.turn (walking : Walking plan original walk) (prepared : Prepared plan original)
    {next : Walk} (turn : walk.Turn plan next) : Walking plan original next := by
  cases turn with
  | leave top done =>
    have zero := walking.zero_of_path top
    obtain ⟨refined, linked, pending, -, reliable, justified⟩ := walking
    rw [top] at linked pending reliable
    rw [List.forall_mem_cons] at pending reliable
    exact ⟨refined, linked.below, pending.2, Or.inl zero, reliable.2, justified⟩
  | pass faces entered =>
    cases faces with
    | root home left =>
      refine walking.withRoots ?_ _
      rcases List.mem_cons.mp (walking.zero_of_root prepared left) with rfl | earlier
      · exact entered
      · exact earlier
    | successor top left => exact walking.ahead top left
  | @enter id known conditional base faces fresh =>
    cases faces with
    | @root _ roots home left =>
      have begun := walking.zero_of_root prepared left
      have entered : Walking plan original (walk.enter plan id {} false) := by
        refine walking.enter prepared (fun passed route v c found => ?_) (fun known => ?_) begun
        · rw [Known.value?_empty] at found
          exact absurd found (by simp)
        · rw [home]
          exact rfl
      exact entered.withRoots begun roots
    | @successor visit path _ pending top left =>
      have zero := walking.zero_of_path top
      have later : id ≠ 0 := by
        rintro rfl
        exact fresh zero
      have edge : id ∈ plan.flow.graph.successors visit.id :=
        walking.pending visit (by rw [top]; exact List.mem_cons_self) id
          (by rw [left]; exact List.mem_cons_self)
      have ahead := walking.ahead top left
      refine ahead.enter prepared (fun passed route v c found => ?_) (fun _ => ?_)
        (List.mem_cons_of_mem _ zero)
      · exact reliable_of_entryKnown (Flow.laid_of_build prepared.built).consistent
          prepared.summaries ahead.refined ahead.linked ahead.reliable edge later found route
      · exact ⟨edge, rfl, later, ahead.linked⟩

/-- What holds all along a walk holds at its end. -/
theorem Walking.run (walking : Walking plan original walk) (prepared : Prepared plan original)
    (steps : Nat) : Walking plan original (walk.run plan steps) :=
  Walk.run_induction (motive := Walking plan original)
    (fun walking turn => walking.turn prepared turn) walking steps

theorem walking_start (plan : Plan) (code : List Instruction) (usage : Usage) :
    Walking plan code (Walk.start plan code usage) where
  refined := refined_refl code
  linked := trivial
  pending := fun visit member => absurd member List.not_mem_nil
  begun := Or.inr ⟨rfl, rfl⟩
  reliable := fun visit member => absurd member List.not_mem_nil
  justified := by
    intro position i j old new index v c wasVariable isLiteral
    obtain rfl := Option.some_inj.mp (old.symm.trans new)
    rw [wasVariable] at isLiteral
    exact absurd isLiteral (by simp)

end Walking

/-- Where a variable is replaced by a constant, every route from block zero to that place moves the
constant into the variable and does not change the variable after that, unless the route passes a
stale edge and does not change the variable from the source of that edge on. -/
theorem last_change_moves_constant {code : List Instruction} {flow : Flow}
    (built : Flow.build code = .ok flow) (usage : Usage) {position index : Nat}
    {i j : Instruction} {v : Variable} {c : Constant} (old : code[position]? = some i)
    (wasVariable : i.operands[index]? = some (.var v))
    (new : (propagate code flow usage).code[position]? = some j)
    (isLiteral : j.operands[index]? = some (.const c)) {id : Nat}
    (inside : flow.Covers id position) {passed : List Nat} (route : flow.Route passed id) :
    LastMove v c (flow.trace (propagate code flow usage).code passed ++
        flow.before (propagate code flow usage).code id position) ∨
      Stale flow (propagate code flow usage).code passed id v
        (flow.before (propagate code flow usage).code id position) := by
  have prepared := prepared_make built
  have walked := (walking_start (Plan.make code flow) code usage).run prepared
    (Walk.bound (Plan.make code flow))
  exact walked.justified position i j old new index v c wasVariable isLiteral id inside passed route

/-- A variable that is read behind two jumps, each of which is taken. -/
def behindTwoJumps : List Instruction :=
  [{ opcode := .move, operands := [.var ⟨.gf, "x"⟩, .const (.int 1)] },
   { opcode := .jumpifeqs, operands := [.label "inner"] },
   { opcode := .ret, operands := [] },
   { opcode := .label, operands := [.label "inner"] },
   { opcode := .jumpifeqs, operands := [.label "out"] },
   { opcode := .ret, operands := [] },
   { opcode := .label, operands := [.label "out"] },
   { opcode := .write, operands := [.var ⟨.gf, "x"⟩] }]

theorem constant_behind_two_jumps :
    ∃ flow, Flow.build behindTwoJumps = .ok flow ∧ flow.Route [0, 2] 4 ∧
      (propagate behindTwoJumps flow {}).code[7]? =
        some { opcode := .write, operands := [.const (.int 1)] } ∧
      (LastMove ⟨.gf, "x"⟩ (.int 1) (flow.trace (propagate behindTwoJumps flow {}).code [0, 2] ++
          flow.before (propagate behindTwoJumps flow {}).code 4 7) ∨
        Stale flow (propagate behindTwoJumps flow {}).code [0, 2] 4 ⟨.gf, "x"⟩
          (flow.before (propagate behindTwoJumps flow {}).code 4 7)) := by
  obtain ⟨flow, built, first, second, block, replaced⟩ :
      ∃ flow, Flow.build behindTwoJumps = .ok flow ∧ 2 ∈ flow.graph.successors 0 ∧
        4 ∈ flow.graph.successors 2 ∧ flow.block? 4 = some { first := 6, last := 7, size := 2 } ∧
        (propagate behindTwoJumps flow {}).code[7]? =
          some { opcode := .write, operands := [.const (.int 1)] } :=
    ⟨_, rfl, by decide, by decide, by decide, by decide +kernel⟩
  have route : flow.Route [0, 2] 4 := (Flow.Route.start.step first).step second
  have read : ({ opcode := .write, operands := [.var ⟨.gf, "x"⟩] } : Instruction).operands[0]? =
      some (.var ⟨.gf, "x"⟩) := rfl
  exact ⟨flow, built, route, replaced, last_change_moves_constant built {} rfl read replaced rfl
    ⟨_, block, by decide, by decide⟩ route⟩

/-- A variable that is read behind a block to which two routes lead. -/
def behindMerge : List Instruction :=
  [{ opcode := .move, operands := [.var ⟨.gf, "x"⟩, .const (.int 1)] },
   { opcode := .jumpifeqs, operands := [.label "merge"] },
   { opcode := .move, operands := [.var ⟨.gf, "x"⟩, .const (.int 2)] },
   { opcode := .jumpifeqs, operands := [.label "merge"] },
   { opcode := .ret, operands := [] },
   { opcode := .label, operands := [.label "merge"] },
   { opcode := .jumpifeqs, operands := [.label "out"] },
   { opcode := .ret, operands := [] },
   { opcode := .label, operands := [.label "out"] },
   { opcode := .write, operands := [.var ⟨.gf, "x"⟩] }]

/-- The constant of one route replaces the variable on both. -/
theorem stale_constant_behind_merge :
    ∃ flow, Flow.build behindMerge = .ok flow ∧ flow.Route [0, 3] 5 ∧ flow.Covers 5 9 ∧
      (propagate behindMerge flow {}).code[9]? =
        some { opcode := .write, operands := [.const (.int 2)] } ∧
      ¬ LastMove ⟨.gf, "x"⟩ (.int 2) (flow.trace (propagate behindMerge flow {}).code [0, 3] ++
        flow.before (propagate behindMerge flow {}).code 5 9) := by
  obtain ⟨flow, built, first, second, block, replaced, unmoved⟩ :
      ∃ flow, Flow.build behindMerge = .ok flow ∧ 3 ∈ flow.graph.successors 0 ∧
        5 ∈ flow.graph.successors 3 ∧ flow.block? 5 = some { first := 8, last := 9, size := 2 } ∧
        (propagate behindMerge flow {}).code[9]? =
          some { opcode := .write, operands := [.const (.int 2)] } ∧
        ∀ i ∈ flow.trace (propagate behindMerge flow {}).code [0, 3] ++
          flow.before (propagate behindMerge flow {}).code 5 9, ¬ Moves ⟨.gf, "x"⟩ (.int 2) i :=
    ⟨_, rfl, by decide, by decide, by decide, by decide +kernel, by decide +kernel⟩
  refine ⟨flow, built, (Flow.Route.start.step first).step second, ⟨_, block, by decide, by decide⟩,
    replaced, ?_⟩
  rintro ⟨earlier, move, later, split, moves, -⟩
  refine unmoved move ?_ moves
  rw [split]
  exact List.mem_append_right _ List.mem_cons_self

end Constants

end ThreeAddress
