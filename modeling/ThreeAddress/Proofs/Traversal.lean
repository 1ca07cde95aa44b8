/-
The walk through a control-flow graph ends, enters every block once, and is at
every moment on a way of the graph. Its way is a stack: each block on it follows
the one below it, and the block at the bottom is the root that was taken last.

Two things carry this. What the walk has still to look at, with what the blocks not
entered will add to it, becomes less by one with every step, so the number of steps
is known beforehand. And an entered block leads only to blocks that were entered or
are pending on the way. When the way is empty, nothing is pending, and everything
that entered blocks reach has been entered. So whatever lower roots reach was
entered before the next root is taken, and the bottom of the way on which a block is
entered is the lowest block that reaches it. Block zero is the lowest of all, and
what it reaches is entered on a way that starts there.
-/
import ThreeAddress.Proofs.Reachability
import ThreeAddress.Proofs.ConstantRoutes
import Mathlib.Data.List.Chain

namespace ThreeAddress.Constants.Walk

open Relation

variable {plan : Plan} {walk next base : Walk} {id root : Nat} {known : Known} {conditional : Bool}

/-! ### Entering and facing a block -/

/-- The blocks on the way to the current one, which comes first. -/
def way (walk : Walk) : List Nat :=
  walk.path.map Visit.id

/-- Putting a block on top of a way does not change the bottom. -/
theorem getLast?_cons_of_getLast? {way : List Nat} (bottom : way.getLast? = some root) :
    (id :: way).getLast? = some root := by
  rw [List.getLast?_cons, bottom, Option.getD_some]

theorem way_enter : (walk.enter plan id known conditional).way = id :: walk.way := by
  rw [way, path_enter]
  rfl

namespace Faces

theorem way_eq (faces : Faces plan walk id known conditional base) : base.way = walk.way := by
  cases faces with
  | root home left => rfl
  | successor top left =>
    rw [way, way, top]
    rfl

theorem entered_eq (faces : Faces plan walk id known conditional base) :
    base.entered = walk.entered :=
  faces.same.2.2.2

theorem roots_suffix (faces : Faces plan walk id known conditional base) :
    base.roots <:+ walk.roots := by
  cases faces with
  | root home left =>
    rw [left]
    exact List.suffix_cons _ _
  | successor top left => exact List.suffix_rfl

end Faces

/-! ### What holds all along a walk -/

/-- Whether a root is the last one taken, and everything that lower blocks reach was entered. -/
structure LastRoot (plan : Plan) (walk : Walk) (root : Nat) : Prop where
  taken : root :: walk.roots <:+ plan.flow.graph.ids
  settled : ∀ earlier < root, plan.flow.graph.contains earlier →
    ∀ other, plan.flow.graph.Reaches earlier other → other ∈ walk.entered

/-- What holds all along a walk: the roots not taken are the last ones and every other block was
entered; what is pending follows the block it is pending for, and entered blocks lead only to what
was entered or is pending; and the way goes along edges, from the last root that was taken. -/
structure Touring (plan : Plan) (walk : Walk) : Prop where
  leftover : walk.roots <:+ plan.flow.graph.ids
  covered : ∀ id, plan.flow.graph.contains id → id ∈ walk.roots ∨ id ∈ walk.entered
  pending : ∀ visit ∈ walk.path, ∀ next ∈ visit.pending,
    next ∈ plan.flow.graph.successors visit.id
  explored : ∀ id ∈ walk.entered, ∀ next ∈ plan.flow.graph.successors id,
    next ∈ walk.entered ∨ ∃ visit ∈ walk.path, next ∈ visit.pending
  linked : walk.way.IsChain fun block below => block ∈ plan.flow.graph.successors below
  rooted : ∀ root, walk.way.getLast? = some root → LastRoot plan walk root

theorem touring_start (plan : Plan) (code : List Instruction) (usage : Usage) :
    Touring plan (start plan code usage) where
  leftover := List.suffix_rfl
  covered := fun _ live => Or.inl (Graph.mem_ids.mpr live)
  pending := fun _ member => absurd member List.not_mem_nil
  explored := fun _ member => absurd member List.not_mem_nil
  linked := List.IsChain.nil
  rooted := fun _ bottom => by simp [way, start, Tour.start] at bottom

namespace Touring

/-- Between two roots, everything that an entered block reaches was entered. -/
theorem entered_of_reaches (touring : Touring plan walk) (home : walk.path = [])
    {source target : Nat} (entered : source ∈ walk.entered)
    (reaches : plan.flow.graph.Reaches source target) : target ∈ walk.entered := by
  induction reaches with
  | refl => exact entered
  | tail _ edge inductionHypothesis =>
    rcases touring.explored _ inductionHypothesis _ edge with before | ⟨visit, onPath, -⟩
    · exact before
    · rw [home] at onPath
      exact absurd onPath List.not_mem_nil

/-- What is pending for the current block follows it. -/
theorem edge (touring : Touring plan walk) {visit : Visit} {path : List Visit} {pending : List Nat}
    (top : walk.path = visit :: path) (left : visit.pending = id :: pending) :
    id ∈ plan.flow.graph.successors visit.id := by
  refine touring.pending visit ?_ id ?_
  · rw [top]
    exact List.mem_cons_self
  · rw [left]
    exact List.mem_cons_self

section Faces

variable (touring : Touring plan walk) (faces : Faces plan walk id known conditional base)

include touring faces

/-- A walk faces blocks of the graph only. -/
theorem contains_of_faces (consistent : plan.flow.graph.Consistent) :
    plan.flow.graph.contains id := by
  cases faces with
  | root home left =>
    refine Graph.mem_ids.mp (touring.leftover.subset ?_)
    rw [left]
    exact List.mem_cons_self
  | successor top left => exact consistent.target_contained (touring.edge top left)

theorem covered_of_faces :
    ∀ other, plan.flow.graph.contains other → other ∈ base.roots ∨ other ∈ id :: walk.entered := by
  intro other live
  rcases touring.covered other live with waiting | before
  · cases faces with
    | root home left =>
      rw [left] at waiting
      rcases List.mem_cons.mp waiting with rfl | later
      · exact Or.inr List.mem_cons_self
      · exact Or.inl later
    | successor top left => exact Or.inl waiting
  · exact Or.inr (List.mem_cons_of_mem _ before)

theorem pending_of_faces :
    ∀ visit ∈ base.path, ∀ next ∈ visit.pending, next ∈ plan.flow.graph.successors visit.id := by
  cases faces with
  | root home left => exact touring.pending
  | successor top left =>
    have edges := touring.pending
    rw [top, List.forall_mem_cons] at edges
    refine List.forall_mem_cons.mpr ⟨fun next member => edges.1 next ?_, edges.2⟩
    rw [left]
    exact List.mem_cons_of_mem _ member

theorem explored_of_faces :
    ∀ other ∈ walk.entered, ∀ next ∈ plan.flow.graph.successors other,
      next ∈ id :: walk.entered ∨ ∃ visit ∈ base.path, next ∈ visit.pending := by
  intro other entered next edge
  rcases touring.explored other entered next edge with before | ⟨visit, onPath, listed⟩
  · exact Or.inl (List.mem_cons_of_mem _ before)
  · cases faces with
    | root home left => exact Or.inr ⟨visit, onPath, listed⟩
    | successor top left =>
      rw [top] at onPath
      rcases List.mem_cons.mp onPath with rfl | below
      · rw [left] at listed
        rcases List.mem_cons.mp listed with rfl | later
        · exact Or.inl List.mem_cons_self
        · exact Or.inr ⟨_, List.mem_cons_self, later⟩
      · exact Or.inr ⟨visit, List.mem_cons_of_mem _ below, listed⟩

/-- The block that a walk faces follows the current one. -/
theorem linked_of_faces :
    (id :: walk.way).IsChain fun block below => block ∈ plan.flow.graph.successors below := by
  have linked := touring.linked
  cases faces with
  | root home left =>
    rw [way, home]
    exact List.isChain_singleton id
  | successor top left =>
    have edge := touring.edge top left
    rw [way, top] at linked ⊢
    exact List.isChain_cons_cons.mpr ⟨edge, linked⟩

/-- Below the block that a walk faces is the last root taken, which is the block itself if it is a
root. Lower blocks are no longer among the roots, so they were entered. -/
theorem lastRoot_of_faces (bottom : (id :: walk.way).getLast? = some root) :
    LastRoot plan base root := by
  cases faces with
  | @root _ roots home left =>
    rw [way, home, List.map_nil, List.getLast?_singleton, Option.some_inj] at bottom
    subst bottom
    have taken : id :: roots <:+ plan.flow.graph.ids := left ▸ touring.leftover
    refine ⟨taken, fun earlier lower live other reaches => ?_⟩
    have ascending := plan.flow.graph.pairwise_ids.sublist taken.sublist
    have absent : earlier ∉ walk.roots := by
      rw [left, List.mem_cons]
      rintro (rfl | later)
      · exact absurd lower (Nat.lt_irrefl _)
      · exact absurd lower (Nat.lt_asymm (List.rel_of_pairwise_cons ascending later))
    exact touring.entered_of_reaches home ((touring.covered earlier live).resolve_left absent)
      reaches
  | successor top left =>
    have nonempty : walk.way ≠ [] := by
      rw [way, top]
      exact List.cons_ne_nil _ _
    rw [List.getLast?_cons_of_ne_nil nonempty] at bottom
    obtain ⟨taken, settled⟩ := touring.rooted root bottom
    exact ⟨taken, settled⟩

end Faces

theorem leave {visit : Visit} {path : List Visit} (touring : Touring plan walk)
    (top : walk.path = visit :: path) (done : visit.pending = []) :
    Touring plan { walk with path } := by
  obtain ⟨leftover, covered, pending, explored, linked, rooted⟩ := touring
  have stacked : walk.way = visit.id :: path.map Visit.id := by
    rw [way, top]
    rfl
  rw [top] at pending explored
  rw [stacked] at linked rooted
  refine ⟨leftover, covered, (List.forall_mem_cons.mp pending).2, fun id entered next edge => ?_,
    linked.tail, fun root bottom => ?_⟩
  · refine (explored id entered next edge).imp_right ?_
    rintro ⟨other, onPath, listed⟩
    rcases List.mem_cons.mp onPath with rfl | below
    · rw [done] at listed
      exact absurd listed List.not_mem_nil
    · exact ⟨other, below, listed⟩
  · obtain ⟨taken, settled⟩ := rooted root (getLast?_cons_of_getLast? bottom)
    exact ⟨taken, settled⟩

theorem pass (touring : Touring plan walk) (faces : Faces plan walk id known conditional base)
    (entered : id ∈ walk.entered) : Touring plan base := by
  have same : ∀ other, other ∈ id :: walk.entered ↔ other ∈ base.entered := by
    intro other
    rw [faces.entered_eq, List.mem_cons]
    exact or_iff_right_of_imp fun equal => equal ▸ entered
  refine ⟨faces.roots_suffix.trans touring.leftover, fun other live => ?_,
    touring.pending_of_faces faces, fun other member next edge => ?_, ?_, fun root bottom => ?_⟩
  · rw [← same]
    exact touring.covered_of_faces faces other live
  · rw [← same]
    exact touring.explored_of_faces faces other (faces.entered_eq ▸ member) next edge
  · rw [faces.way_eq]
    exact touring.linked
  · rw [faces.way_eq] at bottom
    exact touring.lastRoot_of_faces faces (getLast?_cons_of_getLast? bottom)

theorem enter (touring : Touring plan walk) (faces : Faces plan walk id known conditional base) :
    Touring plan (base.enter plan id known conditional) := by
  refine ⟨?_, fun other live => ?_, ?_, fun other member next edge => ?_, ?_, fun root bottom => ?_⟩
  · rw [roots_enter]
    exact faces.roots_suffix.trans touring.leftover
  · rw [roots_enter, entered_enter, faces.entered_eq]
    exact touring.covered_of_faces faces other live
  · rw [path_enter]
    exact List.forall_mem_cons.mpr ⟨fun _ member => member, touring.pending_of_faces faces⟩
  · rw [entered_enter, faces.entered_eq] at member ⊢
    rw [path_enter]
    rcases List.mem_cons.mp member with rfl | before
    · exact Or.inr ⟨_, List.mem_cons_self, edge⟩
    · refine (touring.explored_of_faces faces other before next edge).imp_right ?_
      rintro ⟨visit, onPath, listed⟩
      exact ⟨visit, List.mem_cons_of_mem _ onPath, listed⟩
  · rw [way_enter, faces.way_eq]
    exact touring.linked_of_faces faces
  · rw [way_enter, faces.way_eq] at bottom
    obtain ⟨taken, settled⟩ := touring.lastRoot_of_faces faces bottom
    refine ⟨?_, fun earlier lower live other reaches => ?_⟩
    · rwa [roots_enter]
    · rw [entered_enter]
      exact List.mem_cons_of_mem _ (settled earlier lower live other reaches)

theorem turn (touring : Touring plan walk) (turn : Turn plan walk next) : Touring plan next := by
  cases turn with
  | leave top done => exact touring.leave top done
  | pass faces entered => exact touring.pass faces entered
  | enter faces fresh => exact touring.enter faces

theorem run (touring : Touring plan walk) (steps : Nat) : Touring plan (walk.run plan steps) :=
  run_induction (motive := Touring plan) (fun touring turn => touring.turn turn) touring steps

end Touring

/-! ### The root of a way -/

/-- The bottom of a way along edges reaches its top. -/
theorem reaches_of_isChain {way : List Nat}
    (linked : (id :: way).IsChain fun block below => block ∈ plan.flow.graph.successors below)
    (bottom : (id :: way).getLast? = some root) : plan.flow.graph.Reaches root id := by
  induction way generalizing id with
  | nil =>
    obtain rfl := Option.some_inj.mp bottom
    exact ReflTransGen.refl
  | cons below rest inductionHypothesis =>
    obtain ⟨edge, further⟩ := List.isChain_cons_cons.mp linked
    rw [List.getLast?_cons_cons] at bottom
    exact (inductionHypothesis further bottom).tail edge

/-- The bottom of the way on which a block is entered is the lowest block that reaches it. -/
theorem Touring.bottom_iff (touring : Touring plan walk)
    (faces : Faces plan walk id known conditional base) (fresh : id ∉ walk.entered)
    (consistent : plan.flow.graph.Consistent) (root : Nat) :
    (id :: walk.way).getLast? = some root ↔
      plan.flow.graph.Reaches root id ∧
        ∀ earlier < root, ¬ plan.flow.graph.Reaches earlier id := by
  have live := touring.contains_of_faces faces consistent
  have lowest : ∀ root, (id :: walk.way).getLast? = some root →
      plan.flow.graph.Reaches root id ∧
        ∀ earlier < root, ¬ plan.flow.graph.Reaches earlier id := by
    intro root bottom
    refine ⟨reaches_of_isChain (touring.linked_of_faces faces) bottom,
      fun earlier lower reaches => fresh ?_⟩
    rw [← faces.entered_eq]
    exact (touring.lastRoot_of_faces faces bottom).settled earlier lower
      (reaches.contains_source consistent live) id reaches
  refine ⟨lowest root, fun ⟨reaches, first⟩ => ?_⟩
  have bottom := List.getLast?_cons (a := id) (l := walk.way)
  obtain ⟨otherReaches, otherFirst⟩ := lowest _ bottom
  rcases Nat.lt_trichotomy root (walk.way.getLast?.getD id) with less | same | more
  · exact absurd reaches (otherFirst root less)
  · rw [bottom, same]
  · exact absurd otherReaches (first _ more)

/-! ### How many steps are left -/

/-- How often a walk will look at a root or a successor, or leave a block, if it enters nothing. -/
def ahead (walk : Walk) : Nat :=
  walk.roots.length + (walk.path.map fun visit => visit.pending.length + 1).sum

/-- How many steps a walk has still to take. -/
def remaining (plan : Plan) (walk : Walk) : Nat :=
  walk.ahead + plan.flow.graph.ahead walk.entered.toFinset

theorem Faces.ahead_eq (faces : Faces plan walk id known conditional base) :
    base.ahead + 1 = walk.ahead := by
  cases faces with
  | root home left =>
    rw [ahead, ahead, left, List.length_cons]
    dsimp only
    omega
  | successor top left =>
    rw [ahead, ahead, top, List.map_cons, List.map_cons, left, List.sum_cons, List.sum_cons,
      List.length_cons]
    dsimp only
    omega

theorem ahead_enter : (walk.enter plan id known conditional).ahead =
    walk.ahead + ((plan.flow.graph.successors id).length + 1) := by
  rw [ahead, path_enter, roots_enter, List.map_cons, List.sum_cons, ahead]
  dsimp only
  omega

/-- Every step leaves one step less. -/
theorem remaining_turn (consistent : plan.flow.graph.Consistent) (touring : Touring plan walk)
    (turn : Turn plan walk next) : remaining plan next + 1 = remaining plan walk := by
  cases turn with
  | leave top done =>
    rw [remaining, remaining, ahead, ahead, top, List.map_cons, List.sum_cons, done,
      List.length_nil]
    dsimp only
    omega
  | pass faces entered =>
    have looked := faces.ahead_eq
    rw [remaining, remaining, faces.entered_eq]
    omega
  | enter faces fresh =>
    have looked := faces.ahead_eq
    have taken := Graph.ahead_insert (touring.contains_of_faces faces consistent)
      (List.mem_toFinset.not.mpr fresh)
    rw [remaining, remaining, ahead_enter, entered_enter, faces.entered_eq, List.toFinset_cons]
    omega

theorem step?_eq_none_iff_remaining (touring : Touring plan walk) :
    walk.step? plan = none ↔ remaining plan walk = 0 := by
  rw [step?_eq_none_iff, remaining, ahead]
  constructor
  · rintro ⟨home, finished⟩
    have nothing : plan.flow.graph.ahead walk.entered.toFinset = 0 := by
      refine Graph.ahead_of_covered fun id live => List.mem_toFinset.mpr ?_
      refine (touring.covered id live).resolve_left ?_
      rw [finished]
      exact List.not_mem_nil
    rw [home, finished, nothing]
    rfl
  · intro spent
    refine ⟨?_, List.length_eq_zero_iff.mp (by omega)⟩
    rcases home : walk.path with _ | ⟨visit, path⟩
    · rfl
    · rw [home, List.map_cons, List.sum_cons] at spent
      omega

theorem remaining_start (plan : Plan) (code : List Instruction) (usage : Usage) :
    remaining plan (start plan code usage) =
      2 * plan.flow.size + plan.flow.graph.edgeCount := by
  have total := plan.flow.graph.ahead_empty
  show plan.flow.size + 0 + plan.flow.graph.ahead ∅ = _
  rw [total]
  show _ + (_ + plan.flow.size) = _
  omega

/-! ### Step by step -/

theorem run_succ (plan : Plan) (walk : Walk) (n : Nat) :
    walk.run plan (n + 1) = ((walk.run plan n).step? plan).getD (walk.run plan n) := by
  induction n generalizing walk with
  | zero =>
    rw [run_step]
    cases stepped : walk.step? plan with
    | none =>
      show walk = ((walk.step? plan).getD walk)
      rw [stepped]
      rfl
    | some next =>
      show next = ((walk.step? plan).getD walk)
      rw [stepped]
      rfl
  | succ n inductionHypothesis =>
    rw [run_step, run_step]
    cases stepped : walk.step? plan with
    | none =>
      dsimp only
      rw [stepped]
      rfl
    | some next => exact inductionHypothesis next

theorem remaining_run (consistent : plan.flow.graph.Consistent) (touring : Touring plan walk)
    (n : Nat) : remaining plan (walk.run plan n) = remaining plan walk - n := by
  induction n with
  | zero => rfl
  | succ n inductionHypothesis =>
    have now := touring.run n
    rw [run_succ]
    cases stepped : (walk.run plan n).step? plan with
    | none =>
      have spent := (step?_eq_none_iff_remaining now).mp stepped
      rw [Option.getD_none]
      omega
    | some next =>
      have less := remaining_turn consistent now (turn_of_step? stepped)
      rw [Option.getD_some]
      omega

/-- Whether a walk enters a block in the step that follows the first `n` ones. -/
def EntersAt (plan : Plan) (walk : Walk) (id n : Nat) : Prop :=
  ∃ known conditional base, (walk.run plan n).Faces plan id known conditional base ∧
    walk.run plan (n + 1) = base.enter plan id known conditional

theorem entered_run_succ (plan : Plan) (walk : Walk) (n : Nat) :
    (walk.run plan (n + 1)).entered = (walk.run plan n).entered ∨
      ∃ id, EntersAt plan walk id n ∧ id ∉ (walk.run plan n).entered ∧
        (walk.run plan (n + 1)).entered = id :: (walk.run plan n).entered := by
  have succ := run_succ plan walk n
  cases stepped : (walk.run plan n).step? plan with
  | none =>
    rw [succ, stepped]
    exact Or.inl rfl
  | some next =>
    rw [stepped, Option.getD_some] at succ
    rw [succ]
    cases turn_of_step? stepped with
    | leave top done => exact Or.inl rfl
    | pass faces entered => exact Or.inl faces.entered_eq
    | @enter id known conditional base faces fresh =>
      exact Or.inr ⟨id, ⟨known, conditional, base, faces, succ⟩, fresh, by
        rw [entered_enter, faces.entered_eq]⟩

/-- A walk enters a block when it was not entered before, and only then. -/
theorem entersAt_iff {n : Nat} : EntersAt plan walk id n ↔
    id ∉ (walk.run plan n).entered ∧ id ∈ (walk.run plan (n + 1)).entered := by
  constructor
  · rintro ⟨known, conditional, base, faces, enters⟩
    refine ⟨fun before => ?_, by rw [enters, entered_enter]; exact List.mem_cons_self⟩
    -- passing by is the one thing a walk can do in front of an entered block
    have stays := run_succ plan walk n
    rw [step?_of_turn (.pass faces before), Option.getD_some, enters] at stays
    have longer := congrArg (fun walk => walk.entered.length) stays
    rw [entered_enter, List.length_cons] at longer
    omega
  · rintro ⟨before, after⟩
    rcases entered_run_succ plan walk n with same | ⟨other, enters, -, more⟩
    · exact absurd (same ▸ after) before
    · rw [more] at after
      rcases List.mem_cons.mp after with rfl | earlier
      · exact enters
      · exact absurd earlier before

/-- A block that was entered stays so. -/
theorem mem_entered_run {n m : Nat} (le : n ≤ m) (entered : id ∈ (walk.run plan n).entered) :
    id ∈ (walk.run plan m).entered := by
  induction m, le using Nat.le_induction with
  | base => exact entered
  | succ m _ inductionHypothesis =>
    rcases entered_run_succ plan walk m with same | ⟨other, -, -, more⟩
    · rwa [same]
    · rw [more]
      exact List.mem_cons_of_mem _ inductionHypothesis

/-- A block that was entered in some number of steps was entered in exactly one of them. -/
theorem existsUnique_entersAt {n : Nat} (fresh : id ∉ walk.entered)
    (entered : id ∈ (walk.run plan n).entered) : ∃! m, EntersAt plan walk id m := by
  have exists_step : ∃ m, EntersAt plan walk id m := by
    induction n with
    | zero => exact absurd entered fresh
    | succ n inductionHypothesis =>
      by_cases earlier : id ∈ (walk.run plan n).entered
      · exact inductionHypothesis earlier
      · exact ⟨n, entersAt_iff.mpr ⟨earlier, entered⟩⟩
  obtain ⟨m, enters⟩ := exists_step
  refine ⟨m, enters, fun other otherEnters => ?_⟩
  obtain ⟨before, after⟩ := entersAt_iff.mp enters
  obtain ⟨otherBefore, otherAfter⟩ := entersAt_iff.mp otherEnters
  rcases Nat.lt_trichotomy other m with less | same | more
  · exact absurd (mem_entered_run less otherAfter) before
  · exact same
  · exact absurd (mem_entered_run more after) otherBefore

/-! ### The whole walk -/

/-- What is promised of a walk from its start on. It takes two steps for each block and one for each
edge, which the bound on its steps admits. It looks at blocks of the graph only and enters each of
them once. At every moment its way goes along edges from the root that was taken last. A block is
entered on a way from the lowest block that reaches it, which is block zero for whatever block zero
reaches. -/
structure Traversal (plan : Plan) (start : Walk) : Prop where
  ends : ∀ n, (start.run plan n).step? plan = none ↔
    2 * plan.flow.size + plan.flow.graph.edgeCount ≤ n
  finished : (start.run plan (bound plan)).step? plan = none
  faced : ∀ n id known conditional base,
    (start.run plan n).Faces plan id known conditional base → plan.flow.graph.contains id
  once : ∀ id, plan.flow.graph.contains id → ∃! n, EntersAt plan start id n
  linked : ∀ n, (start.run plan n).way.IsChain fun block below =>
    block ∈ plan.flow.graph.successors below
  rooted : ∀ n root, (start.run plan n).way.getLast? = some root →
    root :: (start.run plan n).roots <:+ plan.flow.graph.ids
  lowest : ∀ n id, EntersAt plan start id n → ∀ root,
    (start.run plan (n + 1)).way.getLast? = some root ↔
      plan.flow.graph.Reaches root id ∧ ∀ earlier < root, ¬ plan.flow.graph.Reaches earlier id
  zero : ∀ n id, EntersAt plan start id n →
    (plan.flow.graph.Reaches 0 id ↔ (start.run plan (n + 1)).way.getLast? = some 0)

/-- The walk through the control-flow graph of a program ends, enters every block once, and keeps to
ways of the graph, whatever is known and replaced on the way. -/
theorem walk_enters_blocks_once {code : List Instruction}
    (built : Flow.build code = .ok plan.flow) (program : List Instruction) (usage : Usage) :
    Traversal plan (start plan program usage) := by
  have consistent := (Flow.laid_of_build built).consistent
  have touring := touring_start plan program usage
  have ends : ∀ n, ((start plan program usage).run plan n).step? plan = none ↔
      2 * plan.flow.size + plan.flow.graph.edgeCount ≤ n := by
    intro n
    rw [step?_eq_none_iff_remaining (touring.run n), remaining_run consistent touring,
      remaining_start, Nat.sub_eq_zero_iff_le]
  have lowest : ∀ n id, EntersAt plan (start plan program usage) id n → ∀ root,
      ((start plan program usage).run plan (n + 1)).way.getLast? = some root ↔
        plan.flow.graph.Reaches root id ∧
          ∀ earlier < root, ¬ plan.flow.graph.Reaches earlier id := by
    intro n id enters root
    have fresh := (entersAt_iff.mp enters).1
    obtain ⟨known, conditional, base, faces, after⟩ := enters
    rw [after, way_enter, faces.way_eq]
    exact (touring.run n).bottom_iff faces fresh consistent root
  refine ⟨ends, (ends _).mpr (by rw [bound]; omega),
    fun n _ _ _ _ faces => (touring.run n).contains_of_faces faces consistent, fun id live => ?_,
    fun n => (touring.run n).linked,
    fun n root bottom => ((touring.run n).rooted root bottom).taken, lowest, fun n id enters => ?_⟩
  · have noRoots := (step?_eq_none_iff.mp ((ends _).mpr (Nat.le_refl _))).2
    have covered := (touring.run (2 * plan.flow.size + plan.flow.graph.edgeCount)).covered id live
    rw [noRoots] at covered
    exact existsUnique_entersAt List.not_mem_nil (covered.resolve_left List.not_mem_nil)
  · rw [lowest n id enters 0]
    exact (and_iff_left fun earlier lower => absurd lower (Nat.not_lt_zero earlier)).symm

/-- A loop behind a jump past a block that nothing leads to. -/
def jumpsPast : List Instruction :=
  [{ opcode := .jumpifeq, operands := [.label "end", .var ⟨.gf, "a"⟩, .var ⟨.gf, "b"⟩] },
   { opcode := .jump, operands := [.label "loop"] },
   { opcode := .write, operands := [.var ⟨.gf, "a"⟩] },
   { opcode := .label, operands := [.label "loop"] },
   { opcode := .jumpifneq, operands := [.label "loop", .var ⟨.gf, "a"⟩, .var ⟨.gf, "b"⟩] },
   { opcode := .label, operands := [.label "end"] }]

/-- The last block follows the first one, and yet the walk comes to it through the loop. The block
that was jumped past is the only one on its way. -/
theorem walk_enters_blocks_once_jumpsPast :
    ∃ flow, Flow.build jumpsPast = .ok flow ∧
      ((start (Plan.make jumpsPast flow) jumpsPast {}).run (Plan.make jumpsPast flow) 5).way =
        [4, 3, 1, 0] ∧
      ((start (Plan.make jumpsPast flow) jumpsPast {}).run (Plan.make jumpsPast flow) 12).way =
        [2] ∧
      Traversal (Plan.make jumpsPast flow) (start (Plan.make jumpsPast flow) jumpsPast {}) := by
  obtain ⟨flow, built, through, aside⟩ : ∃ flow, Flow.build jumpsPast = .ok flow ∧
      ((start (Plan.make jumpsPast flow) jumpsPast {}).run (Plan.make jumpsPast flow) 5).way =
        [4, 3, 1, 0] ∧
      ((start (Plan.make jumpsPast flow) jumpsPast {}).run (Plan.make jumpsPast flow) 12).way =
        [2] :=
    ⟨_, rfl, by decide +kernel, by decide +kernel⟩
  exact ⟨flow, built, through, aside, walk_enters_blocks_once built jumpsPast {}⟩

end ThreeAddress.Constants.Walk
