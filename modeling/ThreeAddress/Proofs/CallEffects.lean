/-
Which effects a survey gives to functions and to expressions. A function has an
effect if some instruction of its body has it by itself, or an instruction of
the body of a function that it calls, directly or through others; spreading the
effects from callees to callers finds exactly these. The effects stored where an
expression starts are those that its instructions have by themselves, the one
that ends it apart, and those of the functions that they call.

A function that is called but has no marked start has a body nowhere, so it has
no effect. It has an entry all the same, since its calls are counted, and so the
rule that a function without an entry may do anything never applies to it: a
call of it adds nothing.
-/
import ThreeAddress.Proofs.Units
import Mathlib.Logic.Relation

namespace ThreeAddress

open Relation

/-! ### Single effects -/

/-- One of the effects that a set of effects may have. -/
inductive Effect where
  | input
  | globals
  | output
deriving DecidableEq, Repr

namespace Effects

/-- Whether an effect is in a set of effects. -/
def has (effects : Effects) : Effect → Bool
  | .input => effects.input
  | .globals => effects.globals
  | .output => effects.output

variable {a b : Effects} {effect : Effect}

@[simp] theorem has_empty : ({} : Effects).has effect = false := by
  cases effect <;> rfl

theorem has_none : none.has effect = false :=
  has_empty

theorem not_isPure_of_has (has : a.has effect) : ¬ a.isPure := by
  intro pure
  rw [show a = none from of_decide_eq_true pure, has_none] at has
  exact Bool.false_ne_true has

@[simp] theorem has_union : (a.union b).has effect = (a.has effect || b.has effect) := by
  cases effect <;> rfl

theorem contains_iff_has : a.contains b ↔ ∀ effect, b.has effect → a.has effect := by
  rw [contains_iff]
  constructor
  · rintro ⟨input, globals, output⟩ (_ | _ | _)
    · exact input
    · exact globals
    · exact output
  · exact fun all => ⟨all .input, all .globals, all .output⟩

theorem eq_none_of_has (empty : ∀ effect, ¬ a.has effect) : a = none := by
  obtain ⟨input, globals, output⟩ := a
  obtain rfl := Bool.eq_false_of_not_eq_true (empty .input)
  obtain rfl := Bool.eq_false_of_not_eq_true (empty .globals)
  obtain rfl := Bool.eq_false_of_not_eq_true (empty .output)
  rfl

/-- An effect of what is collected from entries is one of an entry or was there before. -/
theorem has_foldl {α : Type} (counts : α → Prop) [DecidablePred counts] (effects : α → Effects)
    (entries : List α) (total : Effects) :
    (entries.foldl (fun total entry => if counts entry then total.union (effects entry) else total)
        total).has effect ↔
      total.has effect ∨ ∃ entry ∈ entries, counts entry ∧ (effects entry).has effect := by
  induction entries generalizing total with
  | nil => simp
  | cons entry rest inductionHypothesis =>
    rw [List.foldl_cons, inductionHypothesis]
    by_cases counted : counts entry <;> simp [counted, or_assoc]

end Effects

/-! ### Regions of a program -/

/-- Whether a region, which starts where an instruction opens it, reaches a position: no other one
opens up to there, and it does not close before. -/
structure Reaches (opens closes : Instruction → Bool) (code : List Instruction)
    (start position : Nat) : Prop where
  opened : At opens code start
  ordered : start ≤ position
  alone : ∀ k ≤ position, start < k → ¬ At opens code k
  unclosed : ∀ k < position, start ≤ k → ¬ At closes code k

section Reaches

variable {opens closes : Instruction → Bool} {code other done rest : List Instruction}
  {start position : Nat} {i : Instruction}

instance : Decidable (Reaches opens closes code start position) :=
  decidable_of_iff
    (At opens code start ∧ start ≤ position ∧ (∀ k ≤ position, start < k → ¬ At opens code k) ∧
      ∀ k < position, start ≤ k → ¬ At closes code k)
    ⟨fun ⟨opened, ordered, alone, unclosed⟩ => ⟨opened, ordered, alone, unclosed⟩,
      fun ⟨opened, ordered, alone, unclosed⟩ => ⟨opened, ordered, alone, unclosed⟩⟩

/-- Only what opens a region up to a position matters, and what closes one before it. -/
theorem Reaches.congr (opening : ∀ k ≤ position, At opens code k ↔ At opens other k)
    (closing : ∀ k < position, At closes code k ↔ At closes other k)
    (reaches : Reaches opens closes code start position) :
    Reaches opens closes other start position where
  opened := (opening start reaches.ordered).mp reaches.opened
  ordered := reaches.ordered
  alone k bound := by
    rw [← opening k bound]
    exact reaches.alone k bound
  unclosed k bound := by
    rw [← closing k bound]
    exact reaches.unclosed k bound

theorem reaches_congr (opening : ∀ k ≤ position, At opens code k ↔ At opens other k)
    (closing : ∀ k < position, At closes code k ↔ At closes other k) :
    Reaches opens closes code start position ↔ Reaches opens closes other start position :=
  ⟨Reaches.congr opening closing,
    Reaches.congr (fun k bound => (opening k bound).symm) fun k bound => (closing k bound).symm⟩

theorem at_append {test : Instruction → Bool} (bound : position < done.length) :
    At test (done ++ rest) position ↔ At test done position := by
  rw [At, At, List.getElem?_append_left bound]

theorem at_last {test : Instruction → Bool} : At test (done ++ [i]) done.length ↔ test i := by
  rw [At, List.getElem?_concat_length, Option.any_some]

theorem not_at_length {test : Instruction → Bool} : ¬ At test code code.length := fun found =>
  Nat.lt_irrefl _ found.lt_length

theorem reaches_append (bound : position < done.length) :
    Reaches opens closes (done ++ rest) start position ↔
      Reaches opens closes done start position :=
  reaches_congr (fun _ le => at_append (Nat.lt_of_le_of_lt le bound))
    fun _ less => at_append (less.trans bound)

/-- The instruction at the end of a program belongs to the region that it opens, or else to the one
that was open before it. -/
theorem reaches_last : Reaches opens closes (done ++ [i]) start done.length ↔
    if opens i then start = done.length else Reaches opens closes done start done.length := by
  split
  · next marked =>
    constructor
    · intro reaches
      rcases Nat.lt_or_eq_of_le reaches.ordered with earlier | here
      · exact absurd (at_last.mpr marked) (reaches.alone _ le_rfl earlier)
      · exact here
    · rintro rfl
      exact ⟨at_last.mpr marked, le_rfl, fun k le gt => by omega, fun k lt ge => by omega⟩
  · next unmarked =>
    refine reaches_congr (fun k le => ?_) fun k less => at_append less
    rcases Nat.lt_or_eq_of_le le with before | rfl
    · exact at_append before
    · rw [at_last]
      exact iff_of_false unmarked not_at_length

/-- Behind an instruction that region is still open, unless the instruction closes it. -/
theorem reaches_behind : Reaches opens closes (done ++ [i]) start (done ++ [i]).length ↔
    ¬ closes i ∧ Reaches opens closes (done ++ [i]) start done.length := by
  have length : (done ++ [i]).length = done.length + 1 := List.length_append
  constructor
  · intro reaches
    have inside : start ≤ done.length := by
      have bound := reaches.opened.lt_length
      omega
    obtain ⟨opened, -, alone, unclosed⟩ := reaches
    refine ⟨?_, opened, inside, fun k le => alone k (by omega), fun k less => unclosed k (by omega)⟩
    rw [← @at_last done i closes]
    exact unclosed done.length (by omega) inside
  · rintro ⟨goesOn, opened, ordered, alone, unclosed⟩
    refine ⟨opened, by omega, fun k le gt => ?_, fun k less ge => ?_⟩
    · rcases Nat.lt_or_eq_of_le le with before | rfl
      · exact alone k (by omega) gt
      · exact not_at_length
    · rcases Nat.lt_or_eq_of_le (Nat.le_of_lt_succ (length ▸ less)) with before | rfl
      · exact unclosed k before ge
      · rw [at_last]
        exact goesOn

end Reaches

/-- Whether a position belongs to the expression that starts at another. -/
def InExpression (start : Nat) (code : List Instruction) (position : Nat) : Prop :=
  Reaches (·.markers.expressionStart) (·.markers.expressionEnd) code start position

instance (start : Nat) (code : List Instruction) (position : Nat) :
    Decidable (InExpression start code position) :=
  inferInstanceAs (Decidable (Reaches _ _ code start position))

/-- Whether a position belongs to the body of a function: it stands behind the marked start, and
neither the end nor another start is in between. -/
def InFunction (label : String) (code : List Instruction) (position : Nat) : Prop :=
  ∃ start, Reaches (·.markers.functionStart) (·.markers.functionEnd) code start position ∧
    code[start]?.bind Instruction.definedLabel? = some label

/-- Whether an instruction that satisfies a condition stands somewhere in a region. -/
def Within (region : List Instruction → Nat → Prop) (code : List Instruction)
    (condition : Instruction → Prop) : Prop :=
  ∃ position i, code[position]? = some i ∧ region code position ∧ condition i

section Regions

variable {done rest : List Instruction} {i : Instruction} {position start : Nat} {label : String}

theorem inExpression_append (bound : position < done.length) :
    InExpression start (done ++ rest) position ↔ InExpression start done position :=
  reaches_append bound

theorem inFunction_append (bound : position < done.length) :
    InFunction label (done ++ rest) position ↔ InFunction label done position := by
  refine exists_congr fun start => ?_
  rw [reaches_append bound]
  refine and_congr_right fun reaches => ?_
  rw [List.getElem?_append_left reaches.opened.lt_length]

/-- An instruction that starts a function belongs to it; any other one belongs to the function that
is open before it. -/
theorem inFunction_last : InFunction label (done ++ [i]) done.length ↔
    if i.markers.functionStart then i.definedLabel? = some label
    else InFunction label done done.length := by
  unfold InFunction
  simp only [reaches_last]
  split
  · simp
  · refine exists_congr fun start => and_congr_right fun reaches => ?_
    rw [List.getElem?_append_left reaches.opened.lt_length]

theorem inFunction_behind : InFunction label (done ++ [i]) (done ++ [i]).length ↔
    ¬ i.markers.functionEnd ∧ InFunction label (done ++ [i]) done.length := by
  unfold InFunction
  simp only [reaches_behind, and_assoc, exists_and_left]

/-- One more instruction in a program counts if it stands in the region itself. -/
theorem within_concat {region : List Instruction → Nat → Prop} {condition : Instruction → Prop}
    (stable : ∀ position < done.length, region (done ++ [i]) position ↔ region done position) :
    Within region (done ++ [i]) condition ↔
      Within region done condition ∨ (region (done ++ [i]) done.length ∧ condition i) := by
  constructor
  · rintro ⟨position, j, found, inside, holds⟩
    have bound := (List.getElem?_eq_some_iff.mp found).1
    rw [List.length_append, List.length_singleton] at bound
    rcases Nat.lt_or_eq_of_le (Nat.le_of_lt_succ bound) with earlier | rfl
    · rw [List.getElem?_append_left earlier] at found
      exact Or.inl ⟨position, j, found, (stable position earlier).mp inside, holds⟩
    · rw [List.getElem?_concat_length] at found
      obtain rfl := Option.some_inj.mp found
      exact Or.inr ⟨inside, holds⟩
  · rintro (⟨position, j, found, inside, holds⟩ | ⟨inside, holds⟩)
    · have earlier := (List.getElem?_eq_some_iff.mp found).1
      refine ⟨position, j, ?_, (stable position earlier).mpr inside, holds⟩
      rwa [List.getElem?_append_left earlier]
    · exact ⟨done.length, i, List.getElem?_concat_length, inside, holds⟩

end Regions

/-! ### What the scan notes -/

namespace Survey

/-- The effects that a function has according to a table. -/
def effectsOf (functions : Table String FunctionUse) (label : String) : Effects :=
  ((functions.get? label).map FunctionUse.effects).getD {}

theorem calleeEffects_eq {functions : Table String FunctionUse} {callee : String}
    (known : (functions.get? callee).isSome) :
    calleeEffects functions callee = effectsOf functions callee := by
  obtain ⟨use, found⟩ := Option.isSome_iff_exists.mp known
  rw [calleeEffects, effectsOf, found]
  rfl

/-- Counting changes no effects. -/
theorem effectsOf_add (u : Usage) (i : Instruction) (label : String) :
    effectsOf (u.add i).functions label = effectsOf u.functions label := by
  have adjusted : ∀ (calls definitions : Nat → Nat) (use : Option FunctionUse),
      (∀ n m, ¬ (calls n = 0 ∧ definitions m = 0)) →
      ((FunctionUse.adjust calls definitions use).map FunctionUse.effects).getD {} =
        (use.map FunctionUse.effects).getD {} := by
    intro calls definitions use counted
    rw [FunctionUse.adjust, if_neg (counted _ _)]
    cases use <;> rfl
  have altered : ∀ (table : Table String FunctionUse) (key : Option String)
      (calls definitions : Nat → Nat), (∀ n m, ¬ (calls n = 0 ∧ definitions m = 0)) →
      effectsOf (Usage.alterAt table key (FunctionUse.adjust calls definitions)) label =
        effectsOf table label := by
    intro table key calls definitions counted
    rw [effectsOf, Usage.get?_alterAt]
    split
    · exact adjusted _ _ _ counted
    · rfl
  rw [Usage.add, Usage.count]
  dsimp only
  rw [altered _ _ _ _ (by simp), altered _ _ _ _ (by simp)]

theorem has_effectsOf_countUses {u : Usage} {function : Option String} {i : Instruction}
    {label : String} {effect : Effect} :
    (effectsOf (countUses u function i).functions label).has effect ↔
      (effectsOf u.functions label).has effect ∨
        (function = some label ∧ i.ownEffects.has effect) := by
  unfold countUses
  cases function with
  | none => simp [effectsOf_add]
  | some name =>
    dsimp only
    rw [← effectsOf_add u i, effectsOf, effectsOf, Table.get?_alter]
    by_cases same : label = name
    · subst same
      cases (u.add i).functions.get? label <;> simp [Effects.has_union]
    · simp [same, Ne.symm same]

/-- Whether a scan has noted everything about the instructions so far. -/
structure Describes (s : Survey) (done : List Instruction) : Prop where
  bracket : ∀ start, s.bracket = some start ↔ InExpression start done done.length
  function : ∀ label, s.function = some label ↔ InFunction label done done.length
  calls : ∀ caller callee, (caller, callee) ∈ s.calls ↔
    Within (InFunction caller) done (Usage.calledFunction? · = some callee)
  bracketCalls : ∀ start callee, (start, callee) ∈ s.bracketCalls ↔
    Within (InExpression start) done (Usage.calledFunction? · = some callee)
  bracketEffects : ∀ start effects, (start, effects) ∈ s.bracketEffects ↔
    Within (InExpression start) done fun i =>
      ¬ i.markers.expressionEnd ∧ ¬ i.ownEffects.isPure ∧ effects = i.ownEffects
  effects : ∀ label effect, (effectsOf s.usage.functions label).has effect ↔
    Within (InFunction label) done fun i => i.ownEffects.has effect

theorem Describes.start : Describes {} [] := by
  have nowhere : ∀ opens closes start position, ¬ Reaches opens closes [] start position :=
    fun _ _ _ _ reaches => absurd reaches.opened.lt_length (Nat.not_lt_zero _)
  constructor <;> intros <;> simp [InExpression, InFunction, Within, effectsOf, nowhere]

theorem Describes.scanOne {s next : Survey} {done : List Instruction} {i : Instruction}
    (now : s.Describes done) (scanned : s.scanOne done.length i = .ok next) :
    next.Describes (done ++ [i]) := by
  obtain ⟨function, entered, result⟩ := exists_ok_of_bind scanned
  obtain rfl := Except.ok.inj result
  have inFunction : ∀ label, function = some label ↔
      InFunction label (done ++ [i]) done.length := by
    intro label
    rw [inFunction_last]
    unfold enterFunction at entered
    split at entered
    · next marked =>
      rw [if_pos marked]
      split at entered
      · next name defined =>
        obtain rfl := Except.ok.inj entered
        rw [defined]
      · exact absurd entered (by simp)
    · next unmarked =>
      rw [if_neg unmarked]
      obtain rfl := Except.ok.inj entered
      exact now.function label
  have inExpression : ∀ start, s.startOf done.length i = some start ↔
      InExpression start (done ++ [i]) done.length := by
    intro start
    rw [InExpression, reaches_last, startOf]
    split
    · rw [Option.some_inj, eq_comm]
    · exact now.bracket start
  constructor
  · intro start
    rw [InExpression, reaches_behind, ← InExpression, ← inExpression]
    dsimp only
    split <;> simp_all [startOf]
  · intro label
    rw [inFunction_behind, ← inFunction]
    dsimp only
    split <;> simp_all
  · intro caller callee
    rw [within_concat fun position bound => inFunction_append bound, ← now.calls, ← inFunction]
    dsimp only
    cases function <;> cases Usage.calledFunction? i <;> simp [eq_comm, or_comm]
  · intro start callee
    rw [within_concat fun position bound => inExpression_append bound, ← now.bracketCalls,
      ← inExpression]
    dsimp only [startOf]
    generalize (if i.markers.expressionStart then some done.length else s.bracket) = bracket
    cases bracket <;> cases Usage.calledFunction? i <;> simp [eq_comm, or_comm]
  · intro start effects
    rw [within_concat fun position bound => inExpression_append bound, ← now.bracketEffects,
      ← inExpression]
    dsimp only [startOf]
    generalize (if i.markers.expressionStart then some done.length else s.bracket) = bracket
    cases bracket <;> cases i.markers.expressionEnd <;> cases i.ownEffects.isPure <;>
      simp [eq_comm, or_comm]
  · intro label effect
    rw [within_concat fun position bound => inFunction_append bound, ← now.effects, ← inFunction]
    exact has_effectsOf_countUses

theorem Describes.scan {s final : Survey} {done code : List Instruction} (now : s.Describes done)
    (scanned : scan done.length code s = .ok final) : final.Describes (done ++ code) := by
  induction code generalizing s done with
  | nil =>
    obtain rfl := Except.ok.inj scanned
    rwa [List.append_nil]
  | cons i rest inductionHypothesis =>
    obtain ⟨next, one, others⟩ := exists_ok_of_bind scanned
    rw [List.append_cons]
    refine inductionHypothesis (now.scanOne one) ?_
    rwa [List.length_append, List.length_singleton]

/-! ### Spreading effects to callers -/

/-- How many effects are not in a set of effects. -/
def missing (effects : Effects) : Nat :=
  (!effects.input).toNat + (!effects.globals).toNat + (!effects.output).toNat

theorem missing_le (effects : Effects) : missing effects ≤ 3 := by
  obtain ⟨input, globals, output⟩ := effects
  revert input globals output
  decide

theorem missing_union_lt {a b : Effects} (new : ¬ a.contains b) :
    missing (a.union b) < missing a := by
  obtain ⟨aInput, aGlobals, aOutput⟩ := a
  obtain ⟨bInput, bGlobals, bOutput⟩ := b
  revert aInput aGlobals aOutput bInput bGlobals bOutput
  decide

/-- How many effects the functions of a table can still receive. -/
def room (functions : Table String FunctionUse) : Nat :=
  (functions.entries.map fun entry => missing entry.2.effects).sum

theorem room_le (functions : Table String FunctionUse) : room functions ≤ 3 * functions.size := by
  rw [room, Table.size]
  induction functions.entries with
  | nil => exact Nat.zero_le _
  | cons entry rest inductionHypothesis =>
    have few := missing_le entry.2.effects
    rw [List.map_cons, List.sum_cons, List.length_cons]
    omega

theorem sum_alterEntries {entries : List (String × FunctionUse)} {key : String}
    {old : FunctionUse} (found : Table.find? key entries = some old) (new : FunctionUse) :
    ((Table.alterEntries key (fun _ => some new) entries).map
        fun entry => missing entry.2.effects).sum + missing old.effects =
      (entries.map fun entry => missing entry.2.effects).sum + missing new.effects := by
  induction entries with
  | nil => exact absurd found (by simp [Table.find?])
  | cons entry rest inductionHypothesis =>
    unfold Table.find? at found
    unfold Table.alterEntries
    split at found
    · next same =>
      obtain rfl := Option.some_inj.mp found
      rw [if_pos same]
      simp only [List.map_cons, List.sum_cons]
      omega
    · next different =>
      have later := inductionHypothesis found
      rw [if_neg different]
      simp only [List.map_cons, List.sum_cons]
      omega

theorem effectsOf_put (functions : Table String FunctionUse) (key label : String)
    (use : FunctionUse) : effectsOf (functions.put key use) label =
      if label = key then use.effects else effectsOf functions label := by
  rw [effectsOf, Table.put, Table.get?_alter]
  split <;> rfl

/-- Whether callers and callees have entries. -/
def Known (calls : List (String × String)) (functions : Table String FunctionUse) : Prop :=
  ∀ call ∈ calls, (functions.get? call.1).isSome ∧ (functions.get? call.2).isSome

/-- One step of spreading: a caller receives the effects of a callee, not all of which it has. -/
inductive Inherits (calls : List (String × String)) :
    Table String FunctionUse → Table String FunctionUse → Prop
  | mk {functions : Table String FunctionUse} {caller callee : String} {use : FunctionUse}
    (call : (caller, callee) ∈ calls) (entry : functions.get? caller = some use)
    (new : ¬ use.effects.contains (effectsOf functions callee)) :
    Inherits calls functions
      (functions.put caller { use with effects := use.effects.union (effectsOf functions callee) })

namespace Inherits

variable {calls : List (String × String)} {now next : Table String FunctionUse}

theorem known (known : Known calls now) (inherits : Inherits calls now next) :
    Known calls next := by
  obtain ⟨-, -, -⟩ := inherits
  have stays : ∀ key use label, (now.get? label).isSome →
      ((now.put key use).get? label).isSome := by
    intro key use label present
    rw [Table.put, Table.get?_alter]
    split
    · rfl
    · exact present
  exact fun call member =>
    ⟨stays _ _ _ (known call member).1, stays _ _ _ (known call member).2⟩

theorem room_lt (inherits : Inherits calls now next) : room next < room now := by
  obtain @⟨caller, callee, use, -, entry, new⟩ := inherits
  have sums := sum_alterEntries entry
    { use with effects := use.effects.union (effectsOf now callee) }
  have less := missing_union_lt new
  unfold room
  dsimp only [Table.put, Table.alter] at sums ⊢
  omega

theorem has_iff (inherits : Inherits calls now next) :
    ∃ caller callee, (caller, callee) ∈ calls ∧ ∀ label effect,
      (effectsOf next label).has effect ↔ (effectsOf now label).has effect ∨
        (label = caller ∧ (effectsOf now callee).has effect) := by
  obtain @⟨caller, callee, use, call, entry, -⟩ := inherits
  refine ⟨caller, callee, call, fun label effect => ?_⟩
  rw [effectsOf_put]
  split
  · next same =>
    subst same
    have before : effectsOf now label = use.effects := by rw [effectsOf, entry]; rfl
    simp [before]
  · next different => simp [different]

end Inherits

/-- What a round does that goes through some of the calls: it gives nobody anything new, or it is
made of steps. -/
theorem spreadOnce_cases {all calls : List (String × String)}
    {functions : Table String FunctionUse} (known : Known all functions)
    (some : ∀ call ∈ calls, call ∈ all) :
    (spreadOnce calls functions = (functions, false) ∧ ∀ call ∈ calls,
      (effectsOf functions call.1).contains (effectsOf functions call.2)) ∨
    ((spreadOnce calls functions).2 = true ∧
      TransGen (Inherits all) functions (spreadOnce calls functions).1) := by
  induction calls generalizing functions with
  | nil => exact Or.inl ⟨rfl, by simp⟩
  | cons call rest inductionHypothesis =>
    obtain ⟨caller, callee⟩ := call
    rw [List.forall_mem_cons] at some
    obtain ⟨callerKnown, calleeKnown⟩ := known _ some.1
    obtain ⟨use, entry⟩ := Option.isSome_iff_exists.mp callerKnown
    have own : effectsOf functions caller = use.effects := by rw [effectsOf, entry]; rfl
    unfold spreadOnce
    dsimp only
    rw [calleeEffects_eq calleeKnown, entry, Option.getD_some]
    split
    · next inherited =>
      rcases inductionHypothesis known some.2 with ⟨same, others⟩ | changed
      · refine Or.inl ⟨same, List.forall_mem_cons.mpr ⟨?_, others⟩⟩
        rw [own]
        exact inherited
      · exact Or.inr changed
    · next new =>
      have step : Inherits all functions _ := Inherits.mk some.1 entry new
      refine Or.inr ⟨rfl, ?_⟩
      rcases inductionHypothesis (step.known known) some.2 with ⟨same, -⟩ | ⟨-, more⟩
      · rw [same]
        exact TransGen.single step
      · exact TransGen.head step more

theorem known_of_steps {calls : List (String × String)} {functions final : Table String FunctionUse}
    (known : Known calls functions) (steps : ReflTransGen (Inherits calls) functions final) :
    Known calls final := by
  induction steps with
  | refl => exact known
  | tail _ step inductionHypothesis => exact step.known inductionHypothesis

theorem room_lt_of_steps {calls : List (String × String)}
    {functions final : Table String FunctionUse}
    (steps : TransGen (Inherits calls) functions final) : room final < room functions := by
  induction steps with
  | single step => exact step.room_lt
  | tail _ step inductionHypothesis => exact step.room_lt.trans inductionHypothesis

/-- With enough rounds, spreading is made of steps and ends where every caller has the effects of
its callees. -/
theorem spread_closed {calls : List (String × String)} {functions : Table String FunctionUse}
    {rounds : Nat} (known : Known calls functions) (enough : room functions < rounds) :
    ReflTransGen (Inherits calls) functions (spread calls rounds functions) ∧
      ∀ call ∈ calls, (effectsOf (spread calls rounds functions) call.1).contains
        (effectsOf (spread calls rounds functions) call.2) := by
  induction rounds generalizing functions with
  | zero => exact absurd enough (Nat.not_lt_zero _)
  | succ rounds inductionHypothesis =>
    unfold spread
    rcases spreadOnce_cases known fun call member => member with ⟨same, closed⟩ | ⟨changed, steps⟩
    · rw [same]
      exact ⟨ReflTransGen.refl, closed⟩
    · have less := room_lt_of_steps steps
      have later := known_of_steps known steps.to_reflTransGen
      obtain ⟨more, closed⟩ := inductionHypothesis later (by omega)
      split
      · next result same =>
        rw [same] at steps more closed
        exact ⟨steps.to_reflTransGen.trans more, closed⟩
      · next result same =>
        rw [same] at changed
        exact absurd changed (by simp)

/-- An effect that spreading has given to a function comes from a function that it calls. -/
theorem exists_source {calls : List (String × String)} {functions final : Table String FunctionUse}
    (steps : ReflTransGen (Inherits calls) functions final) {label : String} {effect : Effect}
    (has : (effectsOf final label).has effect) :
    ∃ source, ReflTransGen (fun caller callee => (caller, callee) ∈ calls) label source ∧
      (effectsOf functions source).has effect := by
  induction steps generalizing label with
  | refl => exact ⟨label, ReflTransGen.refl, has⟩
  | tail _ step inductionHypothesis =>
    obtain ⟨caller, callee, call, gained⟩ := step.has_iff
    rcases (gained label effect).mp has with old | ⟨rfl, inherited⟩
    · exact inductionHypothesis old
    · obtain ⟨source, path, first⟩ := inductionHypothesis inherited
      exact ⟨source, path.head call, first⟩

theorem has_of_steps {calls : List (String × String)} {functions final : Table String FunctionUse}
    (steps : ReflTransGen (Inherits calls) functions final) {label : String} {effect : Effect}
    (has : (effectsOf functions label).has effect) : (effectsOf final label).has effect := by
  induction steps with
  | refl => exact has
  | tail _ step inductionHypothesis =>
    obtain ⟨caller, callee, -, gained⟩ := step.has_iff
    exact (gained label effect).mpr (Or.inl inductionHypothesis)

/-- Spreading gives each function the effects of the functions that it calls, directly or through
others, and no more. -/
theorem has_effectsOf_spread {calls : List (String × String)}
    {functions : Table String FunctionUse} {rounds : Nat} (known : Known calls functions)
    (enough : room functions < rounds) {label : String} {effect : Effect} :
    (effectsOf (spread calls rounds functions) label).has effect ↔
      ∃ source, ReflTransGen (fun caller callee => (caller, callee) ∈ calls) label source ∧
        (effectsOf functions source).has effect := by
  obtain ⟨steps, closed⟩ := spread_closed known enough
  constructor
  · exact exists_source steps
  · rintro ⟨source, path, has⟩
    induction path using ReflTransGen.head_induction_on with
    | refl => exact has_of_steps steps has
    | head call _ inductionHypothesis =>
      exact Effects.contains_iff_has.mp (closed _ call) effect inductionHypothesis

end Survey

/-! ### What functions and expressions do -/

section Causes

variable (code : List Instruction)

/-- Whether the body of a function has a call of another one. -/
def Calls (caller callee : String) : Prop :=
  Within (InFunction caller) code (Usage.calledFunction? · = some callee)

/-- Whether a function, or one that it calls, directly or through others, has an effect in its
body. -/
def Causes (effect : Effect) (label : String) : Prop :=
  ∃ source, ReflTransGen (Calls code) label source ∧
    Within (InFunction source) code fun i => i.ownEffects.has effect

/-- Whether an instruction has an effect by itself or through the function that it calls. -/
def Brings (effect : Effect) (i : Instruction) : Prop :=
  i.ownEffects.has effect ∨ ∃ callee, Usage.calledFunction? i = some callee ∧
    Causes code effect callee

/-- The same of an instruction of an expression: what the one that ends it does by itself is not
part of the evaluation. -/
def BringsInside (effect : Effect) (i : Instruction) : Prop :=
  (¬ i.markers.expressionEnd ∧ i.ownEffects.has effect) ∨
    ∃ callee, Usage.calledFunction? i = some callee ∧ Causes code effect callee

end Causes

/-- The instructions of its body bring the effects of a function. -/
theorem causes_iff {code : List Instruction} {effect : Effect} {label : String} :
    Causes code effect label ↔ Within (InFunction label) code (Brings code effect) := by
  constructor
  · rintro ⟨source, path, position, i, found, inside, has⟩
    rcases ReflTransGen.cases_head path with rfl | ⟨callee, call, rest⟩
    · exact ⟨position, i, found, inside, Or.inl has⟩
    · obtain ⟨site, j, there, around, called⟩ := call
      exact ⟨site, j, there, around,
        Or.inr ⟨callee, called, source, rest, position, i, found, inside, has⟩⟩
  · rintro ⟨position, i, found, inside, has | ⟨callee, called, source, path, own⟩⟩
    · exact ⟨label, ReflTransGen.refl, position, i, found, inside, has⟩
    · exact ⟨source, path.head ⟨position, i, found, inside, called⟩, own⟩

section Surveyed

variable {code surveyed : List Instruction} {usage : Usage}

/-- A scan leaves entries for the caller and the callee of every call that it notes. -/
theorem Survey.known_of_scan {found : Survey} (scanned : scan 0 code {} = .ok found) :
    Known found.calls found.usage.functions := by
  have describes : found.Describes code := Describes.start.scan scanned
  have surveying := Usage.surveying_scan scanned
  have counts := surveying.counts.perm code.reverse_perm
  rintro ⟨caller, callee⟩ call
  obtain ⟨position, i, there, -, called⟩ := (describes.calls caller callee).mp call
  refine ⟨surveying.counts.isSome_function (Or.inr (surveying.callers _ call)),
    counts.isSome_function (Or.inl ?_)⟩
  exact List.countP_pos_iff.mpr ⟨i, List.mem_of_getElem? there, by simpa using called⟩

theorem isSome_of_called (survey : Usage.survey code = .ok (usage, surveyed)) {position : Nat}
    {i : Instruction} {callee : String} (there : code[position]? = some i)
    (called : Usage.calledFunction? i = some callee) : (usage.functions.get? callee).isSome := by
  refine (Usage.counts_survey survey).1.isSome_function (Or.inl ?_)
  exact List.countP_pos_iff.mpr ⟨i, List.mem_of_getElem? there, by simpa using called⟩

/-- The entry of a function has the effects that the function causes. -/
theorem has_effectsOf_survey (survey : Usage.survey code = .ok (usage, surveyed)) {label : String}
    {effect : Effect} :
    (Survey.effectsOf usage.functions label).has effect ↔ Causes code effect label := by
  obtain ⟨found, scanned, rfl, -⟩ := Usage.exists_markEffects_of_survey survey
  have describes : found.Describes code := Survey.Describes.start.scan scanned
  have known := Survey.known_of_scan scanned
  have same : (fun caller callee => (caller, callee) ∈ found.calls) = Calls code :=
    funext fun caller => funext fun callee => propext (describes.calls caller callee)
  dsimp only
  rw [Survey.closedFunctions, Survey.has_effectsOf_spread known
    (Nat.lt_succ_of_le (Survey.room_le _)), same]
  exact exists_congr fun source => and_congr_right fun _ => describes.effects source effect

/-- What a survey stores where an expression starts is what the instructions of the expression
bring. -/
theorem has_effects_survey (survey : Usage.survey code = .ok (usage, surveyed)) {start : Nat}
    (marked : At (·.markers.expressionStart) code start) :
    ∃ i, surveyed[start]? = some i ∧ ∀ effect, i.effects.has effect ↔
      Within (InExpression start) code (BringsInside code effect) := by
  have callee : ∀ {position : Nat} {i name effect}, code[position]? = some i →
      Usage.calledFunction? i = some name →
      ((Survey.calleeEffects usage.functions name).has effect ↔ Causes code effect name) := by
    intro position i name effect there called
    rw [Survey.calleeEffects_eq (isSome_of_called survey there called), has_effectsOf_survey survey]
  obtain ⟨found, scanned, rfl, rfl⟩ := Usage.exists_markEffects_of_survey survey
  have describes : found.Describes code := Survey.Describes.start.scan scanned
  obtain ⟨i, here, starts⟩ := at_iff.mp marked
  refine ⟨{ i with effects := found.bracketTotal found.closedFunctions start }, ?_,
    fun effect => ?_⟩
  · rw [Survey.markEffects, List.getElem?_mapIdx, here, Option.map_some, if_pos starts]
  dsimp only at callee ⊢
  rw [Survey.bracketTotal, Effects.has_foldl (fun entry : Nat × String => entry.1 = start)
    (fun entry => Survey.calleeEffects found.closedFunctions entry.2),
    Effects.has_foldl (fun entry : Nat × Effects => entry.1 = start) Prod.snd, Effects.has_none]
  constructor
  · rintro ((impossible | ⟨⟨_, effects⟩, noted, rfl, has⟩) | ⟨⟨_, name⟩, noted, rfl, has⟩)
    · exact absurd impossible (by simp)
    · obtain ⟨position, j, there, inside, ends, -, rfl⟩ := (describes.bracketEffects _ _).mp noted
      exact ⟨position, j, there, inside, Or.inl ⟨ends, has⟩⟩
    · obtain ⟨position, j, there, inside, called⟩ := (describes.bracketCalls _ _).mp noted
      exact ⟨position, j, there, inside, Or.inr ⟨name, called, (callee there called).mp has⟩⟩
  · rintro ⟨position, j, there, inside, ⟨ends, has⟩ | ⟨name, called, has⟩⟩
    · refine Or.inl (Or.inr ⟨(start, j.ownEffects), ?_, rfl, has⟩)
      exact (describes.bracketEffects _ _).mpr
        ⟨position, j, there, inside, ends, Effects.not_isPure_of_has has, rfl⟩
    · refine Or.inr ⟨(start, name), ?_, rfl, (callee there called).mpr has⟩
      exact (describes.bracketCalls _ _).mpr ⟨position, j, there, inside, called⟩

end Surveyed

/-! ### Calls of functions without a marked start -/

/-- Without a marked start a function has no body. -/
theorem not_causes_of_unmarked {code : List Instruction} {label : String}
    (unmarked : ∀ i ∈ code, Usage.startedFunction? i ≠ some label) (effect : Effect) :
    ¬ Causes code effect label := by
  rw [causes_iff]
  rintro ⟨position, i, -, ⟨start, reaches, defined⟩, -⟩
  obtain ⟨first, there, marked⟩ := at_iff.mp reaches.opened
  refine unmarked first (List.mem_of_getElem? there) ?_
  rw [there, Option.bind_some] at defined
  rw [Usage.startedFunction?, if_pos marked, defined]

theorem ownEffects_of_call {i : Instruction} {callee : String}
    (called : Usage.calledFunction? i = some callee) : i.ownEffects = Effects.none := by
  have opcode : i.opcode = .call := by
    by_contra other
    rw [Usage.calledFunction?, if_neg other] at called
    exact absurd called (by simp)
  simp [Instruction.ownEffects, Instruction.target?, opcode, Opcode.definesTarget, Effects.none]

/-- An instruction that does not satisfy a condition can be left out. -/
theorem within_apart {region : List Instruction → Nat → Prop} {code : List Instruction}
    {condition : Instruction → Prop} {position : Nat} {i : Instruction}
    (there : code[position]? = some i) (fails : ¬ condition i) :
    Within region code condition ↔
      Within (fun code other => other ≠ position ∧ region code other) code condition := by
  constructor
  · rintro ⟨other, j, found, inside, holds⟩
    refine ⟨other, j, found, ⟨?_, inside⟩, holds⟩
    rintro rfl
    obtain rfl := Option.some_inj.mp (there.symm.trans found)
    exact fails holds
  · rintro ⟨other, j, found, ⟨-, inside⟩, holds⟩
    exact ⟨other, j, found, inside, holds⟩

/-- A call of a function that has no marked start adds nothing. The function has an entry, with no
effects; the effects stored where an expression with the call starts, and those of a function with
the call in its body, are those that the other instructions bring. -/
theorem unmarked_callee_adds_nothing {code surveyed : List Instruction} {usage : Usage}
    (survey : Usage.survey code = .ok (usage, surveyed)) {position : Nat} {call : Instruction}
    {callee : String} (there : code[position]? = some call)
    (called : Usage.calledFunction? call = some callee)
    (unmarked : ∀ i ∈ code, Usage.startedFunction? i ≠ some callee) :
    (∃ use, usage.functions.get? callee = some use ∧ use.effects = Effects.none) ∧
      (∀ start, InExpression start code position →
        ∃ i, surveyed[start]? = some i ∧ ∀ effect, i.effects.has effect ↔
          Within (fun code other => other ≠ position ∧ InExpression start code other) code
            (BringsInside code effect)) ∧
      ∀ caller, InFunction caller code position →
        ∃ use, usage.functions.get? caller = some use ∧ ∀ effect, use.effects.has effect ↔
          Within (fun code other => other ≠ position ∧ InFunction caller code other) code
            (Brings code effect) := by
  have nothing := not_causes_of_unmarked unmarked
  have own := ownEffects_of_call called
  have through : ∀ effect, ¬ ∃ name, Usage.calledFunction? call = some name ∧
      Causes code effect name := by
    rintro effect ⟨name, same, causes⟩
    obtain rfl := Option.some_inj.mp (called.symm.trans same)
    exact nothing effect causes
  refine ⟨?_, fun start inside => ?_, fun caller inside => ?_⟩
  · obtain ⟨use, entry⟩ := Option.isSome_iff_exists.mp (isSome_of_called survey there called)
    refine ⟨use, entry, Effects.eq_none_of_has fun effect has => nothing effect ?_⟩
    rw [← has_effectsOf_survey survey, Survey.effectsOf, entry]
    exact has
  · obtain ⟨i, stored, effects⟩ := has_effects_survey survey inside.opened
    refine ⟨i, stored, fun effect => (effects effect).trans (within_apart there ?_)⟩
    rintro (⟨-, has⟩ | other)
    · exact absurd has (by simp [own, Effects.has_none])
    · exact through effect other
  · have marked : 0 < Usage.startsIn code caller := by
      obtain ⟨start, reaches, defined⟩ := inside
      obtain ⟨first, here, marked⟩ := at_iff.mp reaches.opened
      rw [here, Option.bind_some] at defined
      refine List.countP_pos_iff.mpr ⟨first, List.mem_of_getElem? here, ?_⟩
      simpa [Usage.startedFunction?, marked] using defined
    obtain ⟨use, entry⟩ := Option.isSome_iff_exists.mp
      ((Usage.counts_survey survey).1.isSome_function (Or.inr marked))
    refine ⟨use, entry, fun effect => Iff.trans ?_ (within_apart there ?_)⟩
    · rw [← causes_iff, ← has_effectsOf_survey survey, Survey.effectsOf, entry]
      rfl
    · rintro (has | other)
      · exact absurd has (by simp [own, Effects.has_none])
      · exact through effect other

/-- A function whose only expression reads input and calls two functions that write, one with a
marked start and one without. -/
def mixedCallees : List Instruction :=
  [{ opcode := .label, operands := [.label "f"], markers := { functionStart := true } },
   { opcode := .call, operands := [.label "g"], markers := { expressionStart := true } },
   { opcode := .read, operands := [.var ⟨.lf, "y"⟩, .type .int] },
   { opcode := .call, operands := [.label "h"] },
   { opcode := .pops, operands := [.var ⟨.lf, "x"⟩], markers := { expressionEnd := true } },
   { opcode := .ret, operands := [], markers := { functionEnd := true } },
   { opcode := .label, operands := [.label "g"] },
   { opcode := .write, operands := [.const (.int 1)] },
   { opcode := .ret, operands := [] },
   { opcode := .label, operands := [.label "h"], markers := { functionStart := true } },
   { opcode := .write, operands := [.const (.int 2)] },
   { opcode := .ret, operands := [], markers := { functionEnd := true } }]

/-- What is stored comes from the input and from the function with the marked start. -/
theorem unmarked_callee_adds_nothing_mixed :
    ∃ usage surveyed, Usage.survey mixedCallees = .ok (usage, surveyed) ∧
      (usage.functions.get? "f").map FunctionUse.effects = some { input := true, output := true } ∧
      (∃ use, usage.functions.get? "g" = some use ∧ use.effects = Effects.none) ∧
      (∃ i, surveyed[1]? = some i ∧ ∀ effect, i.effects.has effect ↔
        Within (fun code other => other ≠ 1 ∧ InExpression 1 code other) mixedCallees
          (BringsInside mixedCallees effect)) ∧
      ∃ use, usage.functions.get? "f" = some use ∧ ∀ effect, use.effects.has effect ↔
        Within (fun code other => other ≠ 1 ∧ InFunction "f" code other) mixedCallees
          (Brings mixedCallees effect) := by
  obtain ⟨unknown, inExpression, inFunction⟩ :=
    @unmarked_callee_adds_nothing mixedCallees _ _ rfl 1 _ _ rfl rfl (by decide)
  exact ⟨_, _, rfl, rfl, unknown, inExpression 1 (by decide), inFunction "f" ⟨0, by decide, rfl⟩⟩

/-- A function whose only expression calls a function without a marked start, which writes. -/
def unmarkedCallee : List Instruction :=
  [{ opcode := .label, operands := [.label "f"], markers := { functionStart := true } },
   { opcode := .call, operands := [.label "g"], markers := { expressionStart := true } },
   { opcode := .pops, operands := [.var ⟨.lf, "x"⟩], markers := { expressionEnd := true } },
   { opcode := .ret, operands := [], markers := { functionEnd := true } },
   { opcode := .label, operands := [.label "g"] },
   { opcode := .write, operands := [.const (.int 1)] },
   { opcode := .ret, operands := [] }]

/-- Neither the expression nor the function is given any effect. -/
theorem unmarked_callee_taken_for_pure :
    (∀ i ∈ unmarkedCallee, Usage.startedFunction? i ≠ some "g") ∧
      InExpression 1 unmarkedCallee 1 ∧ InFunction "f" unmarkedCallee 1 ∧
      ∃ usage surveyed, Usage.survey unmarkedCallee = .ok (usage, surveyed) ∧
        surveyed[1]?.map Instruction.effects = some Effects.none ∧
        (usage.functions.get? "f").map FunctionUse.effects = some Effects.none :=
  ⟨by decide, by decide, ⟨0, by decide, rfl⟩, _, _, rfl, rfl, rfl⟩

end ThreeAddress
