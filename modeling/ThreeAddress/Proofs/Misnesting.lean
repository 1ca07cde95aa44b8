/-
Calls in any order. A call that closes something looks for the labels of what it
closes and refuses if they are not there. Most closing calls look before they
change anything. The two that close an `if` and a loop do not: they take the two
labels of the statement one by one, so if only one is left it is lost, and they
trust the counts of open statements, which have nothing to do with the labels.

The main statement says for every builder that calls in any order lead to how a
closing call ends. It runs below zero exactly if there are two labels for a
statement that was not counted. These come from testing a condition that no open
statement waits for: without such a test there are never more than two labels for
each statement that is open, and then no closing call runs below zero.
-/
import ThreeAddress.Proofs.BuilderCalls

namespace ThreeAddress.Builder

/-! ### Calls in any order -/

/-- The builder that is left after a call, whether it was carried out or refused. -/
def Outcome.left? : Outcome → Option Builder
  | .done b | .refused _ b => some b
  | .underflow => none

/-- The builder that is left after calls, those that are refused included. -/
def attemptAll (b : Builder) : List Call → Option Builder
  | [] => some b
  | call :: rest => (b.perform call).left?.bind fun next => next.attemptAll rest

/-- Whether a call closes something. -/
def Call.closes : Call → Bool
  | .scopeStart | .scopeEnd | .staticEnd _ _ | .ifEndBlock | .elseIfBefore | .elseBlock
  | .ifAfterEnd | .whileEnd => true
  | _ => false

/-- What is said to be closed without being opened if a call is refused. -/
def Call.construct : Call → String
  | .scopeStart => "main scope"
  | .staticEnd _ _ => "static declaration"
  | .ifEndBlock | .elseIfBefore | .elseBlock | .ifAfterEnd => "if statement"
  | .whileEnd => "while loop"
  | _ => "scope"

/-- Whether the labels or the scope that a closing call asks for are there. Only the main scope
has a label. -/
def Finds (b : Builder) : Call → Prop
  | .scopeStart => b.scopeDepth = 0 → b.codeLabels ≠ []
  | .scopeEnd => b.scopeDepth ≠ 0
  | .staticEnd _ _ => b.codeLabels ≠ []
  | .elseIfBefore => b.conditionLabels ≠ []
  | .ifEndBlock | .elseBlock | .ifAfterEnd => 2 ≤ b.conditionLabels.length
  | .whileEnd => 2 ≤ b.loopLabels.length
  | _ => True

/-- Whether a call closes a statement of which one label is left. -/
def Halved (b : Builder) : Call → Prop
  | .ifAfterEnd => b.conditionLabels.length = 1
  | .whileEnd => b.loopLabels.length = 1
  | _ => False

/-- What is left of the builder then: the label is gone, and that of an `if` is defined. -/
def withoutHalf (b : Builder) : Call → Builder
  | .ifAfterEnd =>
    { b with conditionLabels := [] }.emitAll
      (b.conditionLabels.map fun label => op .label [.label label])
  | .whileEnd => { b with loopLabels := [] }
  | _ => b

/-- Whether a call closes a statement that has its labels but was not counted. -/
def Uncounted (b : Builder) : Call → Prop
  | .ifAfterEnd => 2 ≤ b.conditionLabels.length ∧ b.controlDepth = 0
  | .whileEnd => 2 ≤ b.loopLabels.length ∧ (b.controlDepth = 0 ∨ b.loopDepth = 0)
  | _ => False

/-- How a closing call ends: one case for each way. -/
inductive Ends (b : Builder) (call : Call) : Outcome → Prop
  | closed (next : Builder) (finds : b.Finds call) (counted : ¬ b.Uncounted call) :
    Ends b call (.done next)
  | refused (missing : ¬ b.Finds call) (whole : ¬ b.Halved call) :
    Ends b call (.refused (.unbalanced call.construct) b)
  | halved (missing : ¬ b.Finds call) (half : b.Halved call) :
    Ends b call (.refused (.unbalanced call.construct) (b.withoutHalf call))
  | underflow (finds : b.Finds call) (uncounted : b.Uncounted call) : Ends b call .underflow

theorem not_two_le {labels : List String}
    (few : ∀ first second rest, labels = first :: second :: rest → False) :
    ¬ 2 ≤ labels.length := by
  intro many
  obtain ⟨first, rest, rfl⟩ := List.exists_cons_of_length_pos (by omega : 0 < labels.length)
  obtain ⟨second, others, rfl⟩ := List.exists_cons_of_length_pos (Nat.le_of_succ_le_succ many)
  exact few first second others rfl

theorem ends_ifAfterEnd (b : Builder) : Ends b .ifAfterEnd (b.perform .ifAfterEnd) := by
  rw [perform, ifAfterEnd]
  split
  · next none => exact .refused (by simp [Finds, none]) (by simp [Halved, none])
  · next label one =>
    have lost : ({ b with conditionLabels := [] }.emitAll [op .label [.label label]]) =
        b.withoutHalf .ifAfterEnd := by rw [withoutHalf, one]; rfl
    rw [lost]
    exact .halved (by simp [Finds, one]) (by simp [Halved, one])
  · next next last rest two =>
    have finds : b.Finds .ifAfterEnd := by simp [Finds, two]
    dsimp only
    rw [emitAll_eq]
    dsimp only
    split
    · next zero => exact .underflow finds ⟨finds, zero⟩
    · next depth counted => exact .closed _ finds (by simp [Uncounted, counted])

theorem ends_whileEnd (b : Builder) : Ends b .whileEnd (b.perform .whileEnd) := by
  rw [perform, whileEnd]
  split
  · next last start rest two =>
    have finds : b.Finds .whileEnd := by simp [Finds, two]
    dsimp only
    rw [emitAll_eq]
    dsimp only
    split
    · next control loops counted nested =>
      exact .closed _ finds (by simp [Uncounted, counted, nested])
    · next uncounted =>
      refine .underflow finds ⟨finds, ?_⟩
      by_contra positive
      rw [not_or] at positive
      obtain ⟨control, counted⟩ := Nat.exists_eq_succ_of_ne_zero positive.1
      obtain ⟨loops, nested⟩ := Nat.exists_eq_succ_of_ne_zero positive.2
      exact uncounted control loops counted nested
  · next few =>
    cases labels : b.loopLabels with
    | nil =>
      have same : { b with loopLabels := [] } = b := by rw [← labels]
      rw [same]
      exact .refused (by simp [Finds, labels]) (by simp [Halved, labels])
    | cons last rest =>
      cases rest with
      | nil => exact .halved (by simp [Finds, labels]) (by simp [Halved, labels])
      | cons start rest => exact absurd labels (few last start rest)

/-- Every closing call ends in one of four ways, and what is open says in which. -/
theorem ends_perform (b : Builder) {call : Call} (closing : call.closes) :
    Ends b call (b.perform call) := by
  cases call with
  | scopeStart =>
    rw [perform, scopeStart]
    split
    · next outside =>
      split
      · next none => exact .refused (by simp [Finds, outside, none]) id
      · next label rest found => exact .closed _ (by simp [Finds, found]) id
    · next inside => exact .closed _ (fun outside => absurd outside inside) id
  | scopeEnd =>
    rw [perform, scopeEnd]
    split
    · next outside => exact .refused (by simp [Finds, outside]) id
    · next depth inside => exact .closed _ (by simp [Finds, inside]) id
  | staticEnd function name =>
    rw [perform, staticEnd]
    split
    · next none => exact .refused (by simp [Finds, none]) id
    · next label rest found => exact .closed _ (by simp [Finds, found]) id
  | ifEndBlock =>
    rw [perform, ifEndBlock]
    split
    · next next last rest found => exact .closed _ (by simp [Finds, found]) id
    · next few => exact .refused (not_two_le few) id
  | elseIfBefore =>
    rw [perform, elseIfBefore]
    split
    · next label rest found => exact .closed _ (by simp [Finds, found]) id
    · next none => exact .refused (by simp [Finds, none]) id
  | elseBlock =>
    rw [perform, elseBlock]
    split
    · next next last rest found => exact .closed _ (by simp [Finds, found]) id
    · next few => exact .refused (not_two_le few) id
  | ifAfterEnd => exact ends_ifAfterEnd b
  | whileEnd => exact ends_whileEnd b
  | _ => exact absurd closing (by simp [Call.closes])

/-! ### Counting open statements -/

/-- Whether a call comes where it can: if it tests a condition, an open statement has fewer than
its two labels and so waits for one. -/
def awaits (b : Builder) : Call → Bool
  | .elseIfAfter => b.conditionLabels.length < 2 * (b.controlDepth - b.loopDepth)
  | .whileAfter => b.loopLabels.length < 2 * b.loopDepth
  | _ => true

/-- Whether all calls come where they can. -/
def awaitsAll (b : Builder) : List Call → Bool
  | [] => true
  | call :: rest => b.awaits call && (b.perform call).left?.all fun next => next.awaitsAll rest

/-- Whether there are at most two labels for each statement that is counted as open. -/
structure Covered (s : Nesting) : Prop where
  loops : s.loopLabels.length ≤ 2 * s.loopDepth
  conditions : s.conditionLabels.length ≤ 2 * (s.controlDepth - s.loopDepth)
  inside : s.loopDepth ≤ s.controlDepth

theorem Covered.counted {b : Builder} (covered : Covered b.nesting) (call : Call) :
    ¬ b.Uncounted call := by
  obtain ⟨loops, conditions, inside⟩ := covered
  dsimp only [nesting] at loops conditions inside
  cases call with
  | ifAfterEnd =>
    rintro ⟨two, zero⟩
    omega
  | whileEnd =>
    rintro ⟨two, zero⟩
    omega
  | _ => exact id

@[simp] theorem nesting_emitAll (b : Builder) (code : List Instruction) :
    (b.emitAll code).nesting = b.nesting := by
  rw [emitAll_eq]
  rfl

theorem perform_of_stretch {b next : Builder} {call : Call} {fresh defines jumps : List String}
    (stretch : Stretch b [call] next fresh defines jumps) : b.perform call = .done next := by
  have runs := stretch.runs
  rw [performAll] at runs
  split at runs
  · next performed => rw [performed]; exact runs
  · exact runs

theorem nesting_of_settles {functions declared : List String} {call : Call}
    (settles : Settles functions declared [call]) {b next : Builder}
    (left : (b.perform call).left? = some next) : next.nesting = b.nesting := by
  obtain ⟨_, _, _, _, stretch, restored, -, -⟩ := settles b
  rw [perform_of_stretch stretch] at left
  rwa [← Option.some_inj.mp left]

/-- What is open of control statements alone. -/
def Nesting.statements (s : Nesting) : Nesting :=
  { s with codeLabels := [], scopeDepth := 0 }

theorem Covered.congr {s t : Nesting} (same : t.statements = s.statements) (covered : Covered s) :
    Covered t := by
  obtain ⟨-, conditions, loops, -, controlDepth, loopDepth⟩ := Nesting.mk.inj same
  refine ⟨?_, ?_, ?_⟩
  · rw [loops, loopDepth]
    exact covered.loops
  · rw [conditions, controlDepth, loopDepth]
    exact covered.conditions
  · rw [controlDepth, loopDepth]
    exact covered.inside

/-- Whether a call is a step of a control statement. -/
def Call.steers : Call → Bool
  | .ifAfterExpression | .ifEndBlock | .elseIfBefore | .elseIfAfter | .elseBlock | .ifAfterEnd
  | .whileBefore | .whileAfter | .whileEnd => true
  | _ => false

/-- Other calls leave control statements as they are. -/
theorem statements_of_not_steers {b next : Builder} {call : Call} (aside : ¬ call.steers)
    (left : (b.perform call).left? = some next) :
    next.nesting.statements = b.nesting.statements := by
  have settled : ∀ {functions}, call.Plain functions →
      next.nesting.statements = b.nesting.statements := fun plain =>
    congrArg Nesting.statements (nesting_of_settles plain.settles left)
  cases call with
  | emit | startCode | expressionStart | expressionEnd | functionHeader | functionEnd =>
    obtain rfl := Option.some_inj.mp left
    rfl
  | scopeStart =>
    rw [perform, scopeStart] at left
    split at left
    · split at left <;> obtain rfl := Option.some_inj.mp left <;> rfl
    · obtain rfl := Option.some_inj.mp left
      rfl
  | scopeEnd =>
    rw [perform, scopeEnd] at left
    split at left
    · obtain rfl := Option.some_inj.mp left
      rfl
    · obtain rfl := Option.some_inj.mp left
      split <;> rfl
  | staticStart function name type =>
    obtain ⟨_, _, stretch, opened⟩ := stretch_staticStart b function name type
    rw [perform_of_stretch stretch] at left
    obtain rfl := Option.some_inj.mp left
    rw [opened]
    rfl
  | staticEnd =>
    rw [perform, staticEnd] at left
    split at left <;> obtain rfl := Option.some_inj.mp left <;> rfl
  | call label => exact @settled [label] (List.mem_singleton_self label)
  | declare | input | print | returnStatement | convert | convertUnary | convertBinary | length
  | chr | asc | substring => exact @settled [] trivial
  | _ => exact absurd rfl aside

theorem Covered.ifAfterEnd {b next : Builder} (covered : Covered b.nesting)
    (left : b.ifAfterEnd.left? = some next) : Covered next.nesting := by
  obtain ⟨loops, conditions, inside⟩ := covered
  dsimp only [nesting] at loops conditions inside
  unfold Builder.ifAfterEnd at left
  split at left
  · obtain rfl := Option.some_inj.mp left
    exact ⟨loops, conditions, inside⟩
  · obtain rfl := Option.some_inj.mp left
    exact ⟨loops, Nat.zero_le _, inside⟩
  · next first last rest two =>
    dsimp only at left
    rw [emitAll_eq] at left
    dsimp only at left
    split at left
    · exact absurd left (by simp [Outcome.left?])
    · next depth counted =>
      obtain rfl := Option.some_inj.mp left
      rw [two, List.length_cons, List.length_cons] at conditions
      refine ⟨loops, ?_, ?_⟩
      · show rest.length ≤ 2 * (depth - b.loopDepth)
        omega
      · show b.loopDepth ≤ depth
        omega

theorem Covered.whileEnd {b next : Builder} (covered : Covered b.nesting)
    (left : b.whileEnd.left? = some next) : Covered next.nesting := by
  obtain ⟨loops, conditions, inside⟩ := covered
  dsimp only [nesting] at loops conditions inside
  unfold Builder.whileEnd at left
  split at left
  · next last start rest two =>
    dsimp only at left
    rw [emitAll_eq] at left
    dsimp only at left
    split at left
    · next control loop counted nested =>
      obtain rfl := Option.some_inj.mp left
      rw [two, List.length_cons, List.length_cons] at loops
      refine ⟨?_, ?_, ?_⟩
      · show rest.length ≤ 2 * loop
        omega
      · show b.conditionLabels.length ≤ 2 * (control - loop)
        omega
      · show loop ≤ control
        omega
    · exact absurd left (by simp [Outcome.left?])
  · obtain rfl := Option.some_inj.mp left
    exact ⟨Nat.zero_le _, conditions, inside⟩

/-- A call that comes where it can keeps the labels within the count. -/
theorem Covered.perform {b next : Builder} {call : Call} (covered : Covered b.nesting)
    (awaits : b.awaits call) (left : (b.perform call).left? = some next) :
    Covered next.nesting := by
  by_cases steers : call.steers
  · obtain ⟨loops, conditions, inside⟩ := id covered
    dsimp only [nesting] at loops conditions inside
    cases call with
    | ifAfterExpression =>
      obtain rfl := Option.some_inj.mp left
      refine ⟨loops, ?_, Nat.le_succ_of_le inside⟩
      show b.conditionLabels.length + 2 ≤ 2 * (b.controlDepth + 1 - b.loopDepth)
      omega
    | elseIfAfter =>
      obtain rfl := Option.some_inj.mp left
      exact ⟨loops, of_decide_eq_true awaits, inside⟩
    | ifEndBlock =>
      rw [Builder.perform, ifEndBlock] at left
      split at left <;> obtain rfl := Option.some_inj.mp left <;> exact covered
    | elseIfBefore =>
      rw [Builder.perform, elseIfBefore] at left
      split at left
      · next label rest found =>
        obtain rfl := Option.some_inj.mp left
        rw [found] at conditions
        exact ⟨loops, Nat.le_of_succ_le conditions, inside⟩
      · obtain rfl := Option.some_inj.mp left
        exact covered
    | elseBlock =>
      rw [Builder.perform, elseBlock] at left
      split at left
      · next first last rest found =>
        obtain rfl := Option.some_inj.mp left
        rw [found] at conditions
        exact ⟨loops, conditions, inside⟩
      · obtain rfl := Option.some_inj.mp left
        exact covered
    | ifAfterEnd => exact covered.ifAfterEnd left
    | whileBefore =>
      obtain rfl := Option.some_inj.mp left
      refine ⟨?_, ?_, Nat.succ_le_succ inside⟩
      · show b.loopLabels.length + 1 ≤ 2 * (b.loopDepth + 1)
        omega
      · show b.conditionLabels.length ≤ 2 * (b.controlDepth + 1 - (b.loopDepth + 1))
        omega
    | whileAfter =>
      obtain rfl := Option.some_inj.mp left
      exact ⟨of_decide_eq_true awaits, conditions, inside⟩
    | whileEnd => exact covered.whileEnd left
    | _ => exact absurd steers Bool.false_ne_true
  · exact covered.congr (statements_of_not_steers steers left)

/-- So do calls that all come where they can. -/
theorem Covered.attemptAll {b last : Builder} {calls : List Call} (covered : Covered b.nesting)
    (awaits : b.awaitsAll calls) (reached : b.attemptAll calls = some last) :
    Covered last.nesting := by
  induction calls generalizing b with
  | nil =>
    obtain rfl := Option.some_inj.mp reached
    exact covered
  | cons call rest inductionHypothesis =>
    obtain ⟨next, left, others⟩ := Option.bind_eq_some_iff.mp reached
    obtain ⟨here, later⟩ := Bool.and_eq_true_iff.mp awaits
    rw [left, Option.all_some] at later
    exact inductionHypothesis (covered.perform here left) later others

/-! ### How closing calls end -/

theorem Halved.not_finds {b : Builder} {call : Call} (half : b.Halved call) : ¬ b.Finds call := by
  cases call with
  | ifAfterEnd | whileEnd =>
    dsimp only [Halved, Finds] at half ⊢
    omega
  | _ => exact half.elim

theorem Uncounted.finds {b : Builder} {call : Call} (uncounted : b.Uncounted call) :
    b.Finds call := by
  cases call with
  | ifAfterEnd | whileEnd => exact uncounted.1
  | _ => exact uncounted.elim

theorem Halved.nesting_ne {b : Builder} {call : Call} (half : b.Halved call) :
    (b.withoutHalf call).nesting ≠ b.nesting := by
  intro same
  cases call with
  | ifAfterEnd =>
    rw [withoutHalf, nesting_emitAll] at same
    have empty : [] = b.conditionLabels := congrArg Nesting.conditionLabels same
    exact absurd half (by simp [Halved, ← empty])
  | whileEnd =>
    have empty : [] = b.loopLabels := congrArg Nesting.loopLabels same
    exact absurd half (by simp [Halved, ← empty])
  | _ => exact half.elim

/-- In every builder that calls in any order lead to, a closing call is carried out exactly if it
finds what it asks for and the statement was counted; if it does not find it, it is refused and
changes nothing, unless one label of the statement is left, which is then lost. It runs below zero
exactly if the statement was not counted, which takes an earlier test of a condition that no
statement waits for. -/
theorem closing_calls_report {calls : List Call} {b : Builder}
    (reached : attemptAll {} calls = some b) {call : Call} (closing : call.closes) :
    ((∃ next, b.perform call = .done next) ↔ b.Finds call ∧ ¬ b.Uncounted call) ∧
      (b.perform call = .refused (.unbalanced call.construct) b ↔
        ¬ b.Finds call ∧ ¬ b.Halved call) ∧
      (b.Halved call →
        b.perform call = .refused (.unbalanced call.construct) (b.withoutHalf call)) ∧
      (b.perform call = .underflow ↔ b.Uncounted call) ∧
      (awaitsAll {} calls → b.perform call ≠ .underflow) := by
  have none : Covered ({} : Builder).nesting := ⟨Nat.le_refl _, Nat.le_refl _, Nat.le_refl _⟩
  have steady : awaitsAll {} calls → ¬ b.Uncounted call := fun awaits =>
    (none.attemptAll awaits reached).counted call
  have ends := ends_perform b closing
  generalize b.perform call = outcome at ends ⊢
  cases ends with
  | closed next finds counted =>
    refine ⟨⟨fun _ => ⟨finds, counted⟩, fun _ => ⟨next, rfl⟩⟩, ?_, ?_, ?_, ?_⟩
    · exact iff_of_false (by simp) fun missing => missing.1 finds
    · exact fun half => absurd finds half.not_finds
    · exact iff_of_false (by simp) counted
    · exact fun _ => by simp
  | refused missing whole =>
    refine ⟨?_, iff_of_true rfl ⟨missing, whole⟩, fun half => absurd half whole, ?_, ?_⟩
    · exact iff_of_false (by simp) fun found => missing found.1
    · exact iff_of_false (by simp) fun uncounted => missing uncounted.finds
    · exact fun _ => by simp
  | halved missing half =>
    refine ⟨?_, ?_, fun _ => rfl, ?_, ?_⟩
    · exact iff_of_false (by simp) fun found => missing found.1
    · refine iff_of_false (fun same => half.nesting_ne ?_) fun whole => whole.2 half
      exact congrArg nesting (Outcome.refused.inj same).2
    · exact iff_of_false (by simp) fun uncounted => missing uncounted.finds
    · exact fun _ => by simp
  | underflow finds uncounted =>
    refine ⟨?_, ?_, ?_, iff_of_true rfl uncounted, ?_⟩
    · exact iff_of_false (by simp) fun found => found.2 uncounted
    · exact iff_of_false (by simp) fun missing => missing.1 finds
    · exact fun half => absurd finds half.not_finds
    · exact fun awaits => absurd uncounted (steady awaits)

/-- A loop that is closed too early and a scope that was never opened, around an `if`. -/
def interrupted : List Call :=
  [.whileBefore, .whileEnd, .ifAfterExpression, .elseIfBefore, .scopeEnd, .elseIfAfter]

theorem closing_calls_report_interrupted : ∃ b, attemptAll {} interrupted = some b ∧
    (∃ next, b.perform .ifAfterEnd = .done next) ∧
      b.perform .whileEnd = .refused (.unbalanced "while loop") b ∧
      b.perform .whileEnd ≠ .underflow := by
  let b := (attemptAll {} interrupted).getD {}
  have reached : attemptAll {} interrupted = some b := rfl
  obtain ⟨closed, -⟩ := @closing_calls_report _ _ reached .ifAfterEnd rfl
  obtain ⟨-, refused, -, -, steady⟩ := @closing_calls_report _ _ reached .whileEnd rfl
  refine ⟨b, reached, closed.mpr ⟨?_, ?_⟩, refused.mpr ⟨?_, ?_⟩, steady rfl⟩
  · show 2 ≤ b.conditionLabels.length
    decide
  · show ¬ (2 ≤ b.conditionLabels.length ∧ b.controlDepth = 0)
    decide
  · show ¬ 2 ≤ b.loopLabels.length
    decide
  · show ¬ b.loopLabels.length = 1
    decide

/-- Closing calls that are not just carried out or refused: one that runs below zero, since two
conditions were tested without a loop; one that defines a label and drops it before it is refused;
and one that drops a label before it is refused. -/
theorem misnested_calls_not_reported :
    (∃ b, attemptAll {} [.whileAfter, .whileAfter] = some b ∧
      b.perform .whileEnd = .underflow) ∧
    (∃ b left, attemptAll {} [.ifAfterExpression, .elseIfBefore] = some b ∧
      b.perform .ifAfterEnd = .refused (.unbalanced "if statement") left ∧
      left.store.code.length = b.store.code.length + 1 ∧
      left.conditionLabels ≠ b.conditionLabels) ∧
    ∃ b left, attemptAll {} [.whileBefore] = some b ∧
      b.perform .whileEnd = .refused (.unbalanced "while loop") left ∧
      left.loopLabels ≠ b.loopLabels :=
  ⟨⟨_, rfl, rfl⟩, ⟨_, _, rfl, rfl, rfl, by decide⟩, ⟨_, _, rfl, rfl, by decide⟩⟩

end ThreeAddress.Builder
