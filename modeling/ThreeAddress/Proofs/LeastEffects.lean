/-
The effects that a survey finds are the least ones that are closed under calls.
Spreading is meant as a loop that goes on until a round changes nothing. Every
round but the last one gives a function an effect that it did not have, so the
loop ends, and the bound on the rounds is never met before. Where it ends a
function has what its body does by itself and what the functions called there
have, and it has nothing that is not needed for that.
-/
import ThreeAddress.Proofs.CallEffects
import ThreeAddress.Proofs.Settling
import Mathlib.Order.Bounds.Basic

namespace ThreeAddress

open Relation

/-! ### Spreading without a bound -/

namespace Survey

variable {calls : List (String × String)} {functions final : Table String FunctionUse}

/-- Rounds of spreading, one after the other, up to the first one that changes nothing. -/
inductive Spreads (calls : List (String × String)) :
    Table String FunctionUse → Table String FunctionUse → Prop
  | stop {functions final : Table String FunctionUse}
    (quiet : spreadOnce calls functions = (final, false)) : Spreads calls functions final
  | again {functions next final : Table String FunctionUse}
    (changed : spreadOnce calls functions = (next, true)) (rest : Spreads calls next final) :
    Spreads calls functions final

/-- The loop has at most one result. -/
theorem Spreads.unique {other : Table String FunctionUse} (one : Spreads calls functions final)
    (two : Spreads calls functions other) : final = other := by
  induction one with
  | stop quiet =>
    cases two with
    | stop same => exact (Prod.mk.inj (quiet.symm.trans same)).1
    | again changed => exact absurd (quiet.symm.trans changed) (by simp)
  | again changed _ inductionHypothesis =>
    cases two with
    | stop quiet => exact absurd (changed.symm.trans quiet) (by simp)
    | again same rest =>
      obtain ⟨rfl, -⟩ := Prod.mk.inj (changed.symm.trans same)
      exact inductionHypothesis rest

/-- With enough rounds, the bound does not cut the loop short. -/
theorem spreads_spread {rounds : Nat} (known : Known calls functions)
    (enough : room functions < rounds) :
    Spreads calls functions (spread calls rounds functions) := by
  induction rounds generalizing functions with
  | zero => exact absurd enough (Nat.not_lt_zero _)
  | succ rounds inductionHypothesis =>
    unfold spread
    rcases spreadOnce_cases known fun call member => member with ⟨same, -⟩ | ⟨changed, steps⟩
    · rw [same]
      exact Spreads.stop same
    · have round : spreadOnce calls functions = ((spreadOnce calls functions).1, true) :=
        Prod.ext rfl changed
      have less := room_lt_of_steps steps
      rw [round]
      exact Spreads.again round
        (inductionHypothesis (known_of_steps known steps.to_reflTransGen) (by omega))

/-- The loop ends with the functions of the survey. -/
theorem spreads_iff_of_scan {code : List Instruction} {found : Survey}
    (scanned : scan 0 code {} = .ok found) :
    Spreads found.calls found.usage.functions final ↔ final = found.closedFunctions := by
  have ends : Spreads found.calls found.usage.functions found.closedFunctions :=
    spreads_spread (known_of_scan scanned) (Nat.lt_succ_of_le (room_le _))
  exact ⟨fun other => other.unique ends, fun same => same ▸ ends⟩

end Survey

/-! ### The least solution -/

/-- Whether the effects that functions are said to have are enough: those of the instructions of
each body are among them, and so are those of the functions that the body calls. -/
def Suffices (code : List Instruction) (solution : String → Effect → Prop) : Prop :=
  ∀ label effect, Within (InFunction label) code (fun i => i.ownEffects.has effect ∨
    ∃ callee, Usage.calledFunction? i = some callee ∧ solution callee effect) →
    solution label effect

/-- What a function causes is part of every solution. -/
theorem Suffices.of_causes {code : List Instruction} {solution : String → Effect → Prop}
    (enough : Suffices code solution) {label : String} {effect : Effect}
    (causes : Causes code effect label) : solution label effect := by
  obtain ⟨source, path, position, i, there, inside, own⟩ := causes
  induction path using ReflTransGen.head_induction_on with
  | refl => exact enough source effect ⟨position, i, there, inside, Or.inl own⟩
  | head call _ inductionHypothesis =>
    obtain ⟨site, j, here, around, called⟩ := call
    exact enough _ effect ⟨site, j, here, around, Or.inr ⟨_, called, inductionHypothesis⟩⟩

/-- What is to hold of a survey of a program, given the usage and the program that it leaves. -/
structure LeastEffects (code : List Instruction) (usage : Usage) (surveyed : List Instruction) :
    Prop where
  /-- Spreading ends, and it ends with the functions of the survey. -/
  ends : ∃ found, Survey.scan 0 code {} = .ok found ∧ ∀ functions,
    Survey.Spreads found.calls found.usage.functions functions ↔ functions = usage.functions
  /-- Exactly the functions with a marked start have an entry. -/
  entries : ∀ label, (usage.functions.get? label).isSome ↔
    ∃ i ∈ code, Usage.startedFunction? i = some label
  /-- A function has the effects that stand in its body and in the bodies of the functions that it
  calls, directly or through others. -/
  functions : ∀ label use, usage.functions.get? label = some use → ∀ effect,
    use.effects.has effect ↔ Causes code effect label
  least : IsLeast {solution | Suffices code solution}
    fun label effect => (Survey.effectsOf usage.functions label).has effect
  /-- An expression has the effects of its instructions, the one that ends it apart, and those of
  the functions that any of them calls. -/
  expressions : ∀ start, At (·.markers.expressionStart) code start →
    ∃ i, surveyed[start]? = some i ∧ ∀ effect, i.effects.has effect ↔
      Within (InExpression start) code fun j =>
        (¬ j.markers.expressionEnd ∧ j.ownEffects.has effect) ∨
          ∃ callee use, Usage.calledFunction? j = some callee ∧
            usage.functions.get? callee = some use ∧ use.effects.has effect
  /-- Another survey finds the same and stores the same. -/
  again : Usage.survey surveyed = .ok (usage, surveyed)

section Surveyed

variable {code surveyed : List Instruction} {usage : Usage}

theorem has_effects_iff_causes (survey : Usage.survey code = .ok (usage, surveyed))
    {label : String} {use : FunctionUse} (entry : usage.functions.get? label = some use)
    (effect : Effect) : use.effects.has effect ↔ Causes code effect label := by
  rw [← has_effectsOf_survey survey, Survey.effectsOf, entry]
  rfl

/-- The effects of the function that an instruction calls are in the entry of that function. -/
theorem causes_called_iff (survey : Usage.survey code = .ok (usage, surveyed)) {position : Nat}
    {i : Instruction} (there : code[position]? = some i) {effect : Effect} :
    (∃ callee, Usage.calledFunction? i = some callee ∧ Causes code effect callee) ↔
      ∃ callee use, Usage.calledFunction? i = some callee ∧
        usage.functions.get? callee = some use ∧ use.effects.has effect := by
  constructor
  · rintro ⟨callee, called, causes⟩
    obtain ⟨use, entry⟩ := Option.isSome_iff_exists.mp (isSome_of_called survey there called)
    exact ⟨callee, use, called, entry, (has_effects_iff_causes survey entry effect).mpr causes⟩
  · rintro ⟨callee, use, called, entry, has⟩
    exact ⟨callee, called, (has_effects_iff_causes survey entry effect).mp has⟩

theorem isLeast_effectsOf (survey : Usage.survey code = .ok (usage, surveyed)) :
    IsLeast {solution | Suffices code solution}
      fun label effect => (Survey.effectsOf usage.functions label).has effect := by
  constructor
  · rintro label effect ⟨position, i, there, inside, brings⟩
    refine (has_effectsOf_survey survey).mpr (causes_iff.mpr ⟨position, i, there, inside, ?_⟩)
    refine brings.imp_right ?_
    rintro ⟨callee, called, has⟩
    exact ⟨callee, called, (has_effectsOf_survey survey).mp has⟩
  · intro solution enough label effect has
    exact enough.of_causes ((has_effectsOf_survey survey).mp has)

/-- The survey of a program in which every called function has a marked start finds the least
effects, in a loop that ends, and finds them again. -/
theorem survey_finds_least_effects (survey : Usage.survey code = .ok (usage, surveyed))
    (marked : ∀ i ∈ code, ∀ callee, Usage.calledFunction? i = some callee →
      ∃ j ∈ code, Usage.startedFunction? j = some callee) : LeastEffects code usage surveyed := by
  refine ⟨?_, fun label => ?_, fun label use => has_effects_iff_causes survey,
    isLeast_effectsOf survey, fun start starts => ?_, Usage.survey_surveyed survey⟩
  · obtain ⟨found, scanned, rfl, -⟩ := Usage.exists_markEffects_of_survey survey
    exact ⟨found, scanned, fun functions => Survey.spreads_iff_of_scan scanned⟩
  · rw [(Usage.counts_survey survey).1.isSome_function_iff, Usage.callsIn, Usage.startsIn,
      List.countP_pos_iff, List.countP_pos_iff]
    simp only [decide_eq_true_eq]
    refine or_iff_right_of_imp ?_
    rintro ⟨i, member, called⟩
    exact marked i member label called
  · obtain ⟨i, there, effects⟩ := has_effects_survey survey starts
    refine ⟨i, there, fun effect => (effects effect).trans ?_⟩
    exact exists_congr fun position => exists_congr fun j => and_congr_right fun here =>
      and_congr_right fun _ => or_congr_right (causes_called_iff survey here)

/-- Two functions that call each other, one from an expression that ends in a global variable, and
an expression outside of functions that calls a third one. -/
def mutualCalls : List Instruction :=
  [{ opcode := .pushs, operands := [.const (.int 1)], markers := { expressionStart := true } },
   { opcode := .call, operands := [.label "h"] },
   { opcode := .pops, operands := [.var ⟨.gf, "x"⟩], markers := { expressionEnd := true } },
   { opcode := .call, operands := [.label "f"] },
   { opcode := .label, operands := [.label "f"], markers := { functionStart := true } },
   { opcode := .call, operands := [.label "g"], markers := { expressionStart := true } },
   { opcode := .pops, operands := [.var ⟨.gf, "x"⟩], markers := { expressionEnd := true } },
   { opcode := .ret, operands := [], markers := { functionEnd := true } },
   { opcode := .label, operands := [.label "g"], markers := { functionStart := true } },
   { opcode := .write, operands := [.const (.int 2)] },
   { opcode := .call, operands := [.label "f"] },
   { opcode := .ret, operands := [], markers := { functionEnd := true } },
   { opcode := .label, operands := [.label "h"], markers := { functionStart := true } },
   { opcode := .read, operands := [.var ⟨.lf, "y"⟩, .type .int] },
   { opcode := .ret, operands := [], markers := { functionEnd := true } }]

/-- Both functions of the cycle change a global variable and write. The expression outside only
reads input, although it ends in a global variable. -/
theorem survey_finds_least_effects_mutualCalls :
    ∃ usage surveyed, Usage.survey mutualCalls = .ok (usage, surveyed) ∧
      ["f", "g", "h"].map (Survey.effectsOf usage.functions) =
        [{ globals := true, output := true }, { globals := true, output := true },
          { input := true }] ∧
      surveyed[0]?.map Instruction.effects = some { input := true } ∧
      surveyed[5]?.map Instruction.effects = some { globals := true, output := true } ∧
      LeastEffects mutualCalls usage surveyed :=
  ⟨_, _, rfl, rfl, rfl, rfl, survey_finds_least_effects rfl (by decide)⟩

end Surveyed

end ThreeAddress
