/-
Every pass over a stored program does what the pass over the list of its
instructions does: it succeeds or stops for the same cause, leaves the same
instructions and counts, and reports the same changes and events. So whatever is
proved of a pass over a list holds of the store that the pass edits in place.
-/
import ThreeAddress.Optimiser.Cursor
import ThreeAddress.Proofs.StoredPass
import ThreeAddress.Proofs.StoredPropagation
import ThreeAddress.Proofs.StoredRemoval

namespace ThreeAddress

namespace Peephole

variable {rules : List Rule}

theorem toEdit_settleOver (accepted : ∀ rule ∈ rules, rule.Accepted) (limit : Nat)
    (edit : StoreEdit) :
    ∃ result settled, settleOver rules limit edit = some (result, settled) ∧
      settle rules limit edit.toEdit = (result.toEdit, settled) := by
  induction limit generalizing edit with
  | zero => exact ⟨edit, false, rfl, rfl⟩
  | succ limit inductionHypothesis =>
    obtain ⟨next, passed, greedily⟩ := toEdit_passOver accepted edit.store edit.usage
    have same : pass rules edit.toEdit.code edit.toEdit.usage = next.toEdit :=
      (pass_eq accepted _ _).trans greedily.symm
    rw [settleOver, passed, settle, same]
    by_cases quiet : next.changes = 0
    · refine ⟨edit, true, ?_, if_pos quiet⟩
      rw [Option.bind_eq_bind, Option.bind_some, if_pos quiet]
      rfl
    · obtain ⟨result, settled, stored, list⟩ :=
        inductionHypothesis { next with changes := edit.changes + next.changes }
      refine ⟨result, settled, ?_, (if_neg quiet).trans list⟩
      rw [Option.bind_eq_bind, Option.bind_some, if_neg quiet, stored]

end Peephole

namespace Optimiser

theorem read_removeDeadCodeOver (s : Store) :
    StoreHalt.read StoreEdit.toEdit (removeDeadCodeOver s) = removeDeadCode s.code := by
  rw [removeDeadCodeOver, removeDeadCode, ← Unused.read_removeFunctionsOver]
  refine StoreHalt.read_bind fun functions _ => ?_
  have trims := Unused.read_removeVariablesOver functions.store
  rw [show functions.toEdit.code = functions.store.code from rfl, ← trims]
  exact StoreHalt.read_bind fun trimmed _ => rfl

theorem read_propagateConstantsOver (limit : Nat) (s : Store) :
    StoreHalt.read (fun edit => (edit.toEdit, [])) (propagateConstantsOver s) =
      runPass limit .constantPropagation s.code := by
  rw [propagateConstantsOver, runPass, ← (Usage.surveyOver_eq s).1]
  refine StoreHalt.read_bind fun result _ => ?_
  obtain ⟨usage, surveyed⟩ := result
  dsimp only
  rw [Flow.ofStore_eq]
  cases built : Flow.build surveyed.code with
  | error cause => rfl
  | ok listed =>
    have same := (Constants.toEdit_propagateOver built usage).1
    exact congrArg (fun edit => Except.ok (edit, [])) same

theorem runPeepholeOver_eq (limit : Nat) (s : Store) :
    ∃ outcome, runPeepholeOver limit s = some outcome ∧
      StoreHalt.read (fun result => (result.1.toEdit, result.2)) outcome =
        runPass limit .peephole s.code := by
  have survey := (Usage.surveyOver_eq s).1
  rw [runPass, ← survey, runPeepholeOver]
  cases surveyed : Usage.surveyOver s with
  | error halt => exact ⟨.error halt, rfl, rfl⟩
  | ok found =>
    obtain ⟨usage, t⟩ := found
    obtain ⟨edit, settled, stored, list⟩ := Peephole.toEdit_settleOver Peephole.accepted_standard
      limit { store := t, usage, changes := 0 }
    have ran : Peephole.run Peephole.standard limit t.code usage = (edit.toEdit, settled) := list
    refine ⟨.ok (edit, if settled then [] else [.peepholeUnsettled limit]), ?_, ?_⟩
    · dsimp only
      rw [Peephole.runOver, stored]
      rfl
    · simp only [StoreHalt.read, Except.bind, bind, ran]
      cases settled <;> rfl

/-- A pass over a stored program is the pass over the list of its instructions. -/
theorem stored_pass_is_list_pass (limit : Nat) (pass : Pass) (s : Store) :
    ∃ outcome, runPassOver limit pass s = some outcome ∧
      StoreHalt.read (fun result => (result.1.toEdit, result.2)) outcome =
        runPass limit pass s.code := by
  cases pass with
  | deadCode =>
    refine ⟨_, rfl, ?_⟩
    rw [runPass, ← read_removeDeadCodeOver]
    cases removeDeadCodeOver s <;> rfl
  | peephole => exact runPeepholeOver_eq limit s
  | constantPropagation =>
    refine ⟨_, rfl, ?_⟩
    rw [← read_propagateConstantsOver]
    cases propagateConstantsOver s <;> rfl

end Optimiser

end ThreeAddress
