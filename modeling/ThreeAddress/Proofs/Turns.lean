/-
What one step of the walk through a control-flow graph can do. The walk leaves
the current block when it has no more successors to look at; otherwise it faces
a block, the next root or the next successor of the current block, and passes by
if the block was entered before and enters it if not. Whatever each such turn
preserves holds at the end of the walk.
-/
import ThreeAddress.Constants.Walk

namespace ThreeAddress.Constants.Walk

variable {plan : Plan} {walk next : Walk}

/-- The block that a walk faces, what is known on entry to it and whether a taken jump leads to it;
last, the walk without the prospect of that block. -/
inductive Faces (plan : Plan) (walk : Walk) : Nat → Known → Bool → Walk → Prop
  | root {id : Nat} {roots : List Nat} (home : walk.path = []) (left : walk.roots = id :: roots) :
    Faces plan walk id {} false { walk with roots }
  | successor {visit : Visit} {path : List Visit} {id : Nat} {pending : List Nat}
    (top : walk.path = visit :: path) (left : visit.pending = id :: pending) :
    Faces plan walk id
      (entryKnown plan ({ visit with pending } :: path) id (plan.flow.isConditional visit.id id))
      (plan.flow.isConditional visit.id id) { walk with path := { visit with pending } :: path }

/-- Facing a block changes nothing else. -/
theorem Faces.same {id : Nat} {known : Known} {conditional : Bool} {base : Walk}
    (faces : Faces plan walk id known conditional base) :
    base.code = walk.code ∧ base.usage = walk.usage ∧ base.substitutions = walk.substitutions ∧
      base.entered = walk.entered := by
  cases faces <;> exact ⟨rfl, rfl, rfl, rfl⟩

/-- One step of a walk. -/
inductive Turn (plan : Plan) (walk : Walk) : Walk → Prop
  /-- The current block has no more successors to look at. -/
  | leave {visit : Visit} {path : List Visit} (top : walk.path = visit :: path)
    (done : visit.pending = []) : Turn plan walk { walk with path }
  /-- The block that the walk faces was entered before. -/
  | pass {id : Nat} {known : Known} {conditional : Bool} {base : Walk}
    (faces : Faces plan walk id known conditional base) (entered : id ∈ walk.entered) :
    Turn plan walk base
  /-- The block that the walk faces was not entered before. -/
  | enter {id : Nat} {known : Known} {conditional : Bool} {base : Walk}
    (faces : Faces plan walk id known conditional base) (fresh : id ∉ walk.entered) :
    Turn plan walk (base.enter plan id known conditional)

theorem turn_of_step? (step : walk.step? plan = some next) : Turn plan walk next := by
  unfold step? Tour.step? at step
  split at step
  · next home =>
    split at step
    · exact absurd step (by simp)
    · next id roots left =>
      have faces : Faces plan walk id {} false { walk with roots } := .root home left
      dsimp only at step
      split at step <;> obtain rfl := Option.some_inj.mp step
      · next entered => exact .pass faces (List.contains_iff_mem.mp entered)
      · next fresh => exact .enter faces fun member => fresh (List.contains_iff_mem.mpr member)
  · next path top =>
    obtain rfl := Option.some_inj.mp step
    exact .leave top rfl
  · next source known conditional id pending path top =>
    have faces : Faces plan walk id _ _ _ := .successor top rfl
    dsimp only at step
    split at step <;> obtain rfl := Option.some_inj.mp step
    · next entered => exact .pass faces (List.contains_iff_mem.mp entered)
    · next fresh => exact .enter faces fun member => fresh (List.contains_iff_mem.mpr member)

theorem step?_of_turn (turn : Turn plan walk next) : walk.step? plan = some next := by
  obtain ⟨code, usage, substitutions, enteredBlocks, path, roots⟩ := walk
  cases turn with
  | @leave visit path top done =>
    obtain ⟨source, known, conditional, pending⟩ := visit
    dsimp only at top done
    subst top done
    rfl
  | pass faces entered =>
    cases faces with
    | root home left =>
      dsimp only at home left
      subst home left
      exact if_pos (List.contains_iff_mem.mpr entered)
    | @successor visit path id pending top left =>
      obtain ⟨source, known, conditional, successors⟩ := visit
      dsimp only at top left
      subst top left
      exact if_pos (List.contains_iff_mem.mpr entered)
  | enter faces fresh =>
    have unseen : ∀ {id}, id ∉ enteredBlocks → ¬ enteredBlocks.contains id := fun absent seen =>
      absent (List.contains_iff_mem.mp seen)
    cases faces with
    | root home left =>
      dsimp only at home left
      subst home left
      exact if_neg (unseen fresh)
    | @successor visit path id pending top left =>
      obtain ⟨source, known, conditional, successors⟩ := visit
      dsimp only at top left
      subst top left
      exact if_neg (unseen fresh)

/-- A walk ends where it has no block on its way and no root left. -/
theorem step?_eq_none_iff : walk.step? plan = none ↔ walk.path = [] ∧ walk.roots = [] := by
  constructor
  · intro ended
    unfold step? Tour.step? at ended
    split at ended
    · next home =>
      split at ended
      · next finished => exact ⟨home, finished⟩
      · dsimp only at ended
        split at ended <;> exact absurd ended (by simp)
    · exact absurd ended (by simp)
    · dsimp only at ended
      split at ended <;> exact absurd ended (by simp)
  · rintro ⟨home, finished⟩
    unfold step? Tour.step?
    rw [home, finished]

theorem run_step (plan : Plan) (walk : Walk) (steps : Nat) :
    walk.run plan (steps + 1) =
      match walk.step? plan with
      | none => walk
      | some next => next.run plan steps := by
  unfold run step?
  rw [Tour.run]
  cases Tour.step? plan replaceBlock walk <;> rfl

/-- What every turn preserves holds at the end of a walk if it holds at its start. -/
theorem run_induction {motive : Walk → Prop}
    (step : ∀ {walk next}, motive walk → Turn plan walk next → motive next) (start : motive walk)
    (steps : Nat) : motive (walk.run plan steps) := by
  induction steps generalizing walk with
  | zero => exact start
  | succ steps inductionHypothesis =>
    rw [run_step]
    cases stepped : walk.step? plan with
    | none => exact start
    | some next => exact inductionHypothesis (step start (turn_of_step? stepped))

/-- The same of what is about the program, its counts and the replacements only: it is enough that
entering a block preserves it. -/
theorem run_induction_enter {motive : List Instruction → Usage → Nat → Prop}
    (enter : ∀ (walk : Walk) (id : Nat) (known : Known) (conditional : Bool),
      motive walk.code walk.usage walk.substitutions →
        motive (walk.enter plan id known conditional).code
          (walk.enter plan id known conditional).usage
          (walk.enter plan id known conditional).substitutions)
    (start : motive walk.code walk.usage walk.substitutions) (steps : Nat) :
    motive (walk.run plan steps).code (walk.run plan steps).usage
      (walk.run plan steps).substitutions := by
  refine run_induction (motive := fun walk => motive walk.code walk.usage walk.substitutions)
    (fun {walk next} holds turn => ?_) start steps
  cases turn with
  | leave top done => exact holds
  | pass faces entered =>
    obtain ⟨code, usage, substitutions, -⟩ := faces.same
    rwa [code, usage, substitutions]
  | enter faces fresh =>
    obtain ⟨code, usage, substitutions, -⟩ := faces.same
    refine enter _ _ _ _ ?_
    rwa [code, usage, substitutions]

end ThreeAddress.Constants.Walk
