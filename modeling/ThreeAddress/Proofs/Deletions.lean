/-
What the removal of unused variables takes out of a program, one deletion after
the other. A deletion takes an instruction on its own, because it mentions a
variable that is not used, or an expression as a whole, because its value is not
used and no effects are on record for it; `Erases` is the log of all deletions
of a removal, over all its passes.

Two things follow. If each end of an expression has a start of its own, no
deletion takes an instruction that reads input or writes output. And the
variable that a deleted instruction stores into is not read any more, with one
exception: what stands inside a deleted expression goes with it, whatever it
stores into, as the effects on record are those on input, output and global
variables only.
-/
import ThreeAddress.Proofs.ExpressionEffects

namespace ThreeAddress

namespace Instruction

/-- Opcode and operands of an instruction. -/
def statement (i : Instruction) : Opcode × List Operand :=
  (i.opcode, i.operands)

/-- What an instruction mentions is its destination or is read. -/
theorem mem_vars_iff {i : Instruction} {v : Variable} :
    v ∈ i.vars ↔ i.target? = some v ∨ v ∈ i.reads := by
  unfold vars target? reads sources
  split
  · cases i.operands with
    | nil => simp
    | cons operand rest =>
      rw [List.filterMap_cons, List.head?_cons, Option.bind_some, List.tail_cons]
      cases operand.var? <;> simp [eq_comm]
  · simp

/-- Whatever an instruction reads occurs in it: those that count nothing read nothing. -/
theorem occurs_of_mem_reads {i : Instruction} {v : Variable} (wellFormed : i.WellFormed)
    (reads : v ∈ i.reads) : 0 < i.occurrencesOf v := by
  have counted : ¬ (i.opcode = .defvar ∨ (i.opcode = .pops ∧ i.markers.expressionEnd)) := by
    intro uncounted
    have single : i.operands.length = 1 := by
      rcases uncounted with opcode | ⟨opcode, -⟩ <;> rw [wellFormed, opcode] <;> rfl
    have defines : i.opcode.definesTarget := by
      rcases uncounted with opcode | ⟨opcode, -⟩ <;> rw [opcode] <;> rfl
    obtain ⟨operand, only⟩ := List.length_eq_one_iff.mp single
    rw [Instruction.reads, sources, if_pos defines, only] at reads
    exact absurd reads (by simp)
  have mentioned : (v, true) ∈ i.mentions := by
    rw [mentions, if_neg counted]
    exact List.mem_append_right _ (List.mem_map.mpr ⟨v, reads, rfl⟩)
  exact occurrencesOf_pos mentioned

/-- Whatever an instruction mentions occurs in it, unless it only declares a variable or stores into
it. -/
theorem occurs_of_mem_vars {i : Instruction} {v : Variable} (declares : i.opcode ≠ .defvar)
    (closes : ¬ (i.opcode = .pops ∧ i.markers.expressionEnd)) (stores : i.opcode ≠ .move)
    (mentions : v ∈ i.vars) : 0 < i.occurrencesOf v := by
  have all : i.mentions = (i.target?.toList.map fun v => (v, false)) ++
      i.reads.map fun v => (v, true) := by
    rw [Instruction.mentions, if_neg (by simp [declares, closes]), if_neg stores]
  rcases mem_vars_iff.mp mentions with target | reads
  · have mentioned : (v, false) ∈ i.mentions := by
      rw [all, target]
      exact List.mem_append_left _ (by simp)
    exact occurrencesOf_pos mentioned
  · have mentioned : (v, true) ∈ i.mentions := by
      rw [all]
      exact List.mem_append_right _ (List.mem_map.mpr ⟨v, reads, rfl⟩)
    exact occurrencesOf_pos mentioned

end Instruction

namespace Unused

open Relation
open scoped List

/-! ### The log of a removal -/

/-- What goes at once: an instruction on its own, or an expression, the value of which the last
instruction stores. -/
structure Deletion where
  inner : List Instruction
  last : Instruction

/-- The instructions that go. -/
def Deletion.instructions (deletion : Deletion) : List Instruction :=
  deletion.inner ++ [deletion.last]

/-- A program whose first instruction takes over what is handed on. -/
def handOver (handed : Option Effects) : List Instruction → List Instruction
  | [] => []
  | i :: rest => takeOver i handed :: rest

/-- Whether a variable outside the temporary frame has no occurrence in a program. -/
structure Idle (code : List Instruction) (v : Variable) : Prop where
  lasting : v.frame ≠ .tf
  unused : Usage.occurrencesIn code v = 0

/-- One deletion. -/
inductive Deletes : List Instruction → Deletion → List Instruction → Prop
  /-- An instruction that ends no expression mentions an idle variable. -/
  | alone {before after : List Instruction} {i : Instruction} {v : Variable}
    (plain : ¬ closesExpression i) (mentions : v ∈ i.vars) (idle : Idle (before ++ i :: after) v) :
    Deletes (before ++ i :: after) ⟨[], i⟩ (before ++ handOver (handedOn i) after)
  /-- An expression without effects on record stores its value into an idle variable. -/
  | expression {before inner after : List Instruction} {store : Instruction} {v : Variable}
    {effects : Effects} (closes : closesExpression store) (receives : receiver? store = some v)
    (idle : Idle (before ++ (inner ++ store :: after)) v)
    (start : expressionStart? (store :: inner.reverse) = some (inner.length + 1, effects))
    (pure : effects.isPure) :
    Deletes (before ++ (inner ++ store :: after)) ⟨inner, store⟩ (before ++ after)

/-- The programs that deletions lead to, with the deletions so far. In between, surveys put the
effects of expressions on record anew. -/
inductive Erases (code : List Instruction) : List Deletion → List Instruction → Prop
  | start : Erases code [] code
  | survey {log : List Deletion} {current next : List Instruction}
    (earlier : Erases code log current) (same : List.Forall₂ Remarked current next) :
    Erases code log next
  | delete {log : List Deletion} {deletion : Deletion} {current next : List Instruction}
    (earlier : Erases code log current) (deletes : Deletes current deletion next) :
    Erases code (log ++ [deletion]) next

/-- The program at a moment of a pass. -/
def Pruning.text (now : Pruning) : List Instruction :=
  now.done.reverse ++ handOver now.handed now.rest

theorem handOver_none (code : List Instruction) : handOver none code = code := by
  cases code <;> rfl

/-- Keeping an instruction leaves the program as it is. -/
theorem text_keep {now : Pruning} {i : Instruction} {rest : List Instruction}
    (next : now.rest = i :: rest) :
    Pruning.text { now with rest, handed := none, done := takeOver i now.handed :: now.done } =
      now.text := by
  simp only [Pruning.text, next, handOver_none, List.reverse_cons, List.append_assoc]
  rfl

theorem counts_text {now : Pruning} (counted : now.Counted) : now.usage.Counts now.text := by
  unfold Pruning.Counted at counted
  unfold Pruning.text
  cases next : now.rest with
  | nil =>
    rw [next, List.append_nil] at counted
    rw [handOver, List.append_nil]
    exact counted.perm (List.reverse_perm _).symm
  | cons i rest =>
    rw [next] at counted
    have taken := counts_takeOver now.handed counted
    exact taken.perm (List.perm_middle.symm.trans ((List.reverse_perm _).symm.append_right _))

/-- What is not used in the course of a pass is idle in the program at that moment. -/
theorem idle_of_isUnused {now : Pruning} {v : Variable} (counted : now.Counted)
    (unused : isUnused now.usage v) : Idle now.text v := by
  rw [isUnused, decide_eq_true_eq] at unused
  exact ⟨unused.1, ((counts_text counted).occurrences v).symm.trans unused.2⟩

/-- The nearest start is found without looking further. -/
theorem expressionStart?_take {code : List Instruction} {count : Nat} {effects : Effects}
    (found : expressionStart? code = some (count, effects)) :
    expressionStart? (code.take count) = some (count, effects) := by
  induction code generalizing count with
  | nil => exact absurd found (by simp [expressionStart?])
  | cons i rest inductionHypothesis =>
    unfold expressionStart? at found
    split at found
    · next marked =>
      obtain ⟨rfl, rfl⟩ := Prod.mk.inj (Option.some_inj.mp found)
      rw [List.take_succ_cons, expressionStart?, if_pos marked]
    · next unmarked =>
      obtain ⟨⟨before, known⟩, later, same⟩ := Option.map_eq_some_iff.mp found
      obtain ⟨rfl, rfl⟩ := Prod.mk.inj same
      rw [List.take_succ_cons, expressionStart?, if_neg unmarked, inductionHypothesis later]
      rfl

/-- Where a pass finds the start of an expression, the expression is what was kept last, so in the
program it stands right before the store. -/
theorem Pruning.exists_pieces {now : Pruning} {i : Instruction} {rest : List Instruction}
    {count : Nat} {effects : Effects} (next : now.rest = i :: rest)
    (start : expressionStart? (takeOver i now.handed :: now.done) = some (count, effects)) :
    ∃ size, count = size + 1 ∧ (now.done.take size).length = size ∧
      now.text = (now.done.drop size).reverse ++
        ((now.done.take size).reverse ++ takeOver i now.handed :: rest) := by
  obtain ⟨newer, first, older, split, rfl, -⟩ := exists_split_of_expressionStart? start
  have lengths := congrArg List.length split
  rw [List.length_cons, List.length_append, List.length_cons] at lengths
  refine ⟨newer.length, rfl, List.length_take_of_le (by omega), ?_⟩
  rw [Pruning.text, next, ← List.append_assoc, ← List.reverse_append, List.take_append_drop]
  rfl

/-- A step of a pass keeps the program, or deletes an instruction, or deletes an expression, which
is what was kept since the nearest start. -/
theorem PruneStep.text_cases {kept : List Variable} {now later : Pruning} (counted : now.Counted)
    (step : PruneStep kept now later) :
    later.text = now.text ∨ (∃ i, Deletes now.text ⟨[], i⟩ later.text) ∨
      ∃ i rest count effects, now.rest = i :: rest ∧ closesExpression (takeOver i now.handed) ∧
        expressionStart? (takeOver i now.handed :: now.done) = some (count + 1, effects) ∧
        effects.isPure ∧
        Deletes now.text ⟨(now.done.take count).reverse, takeOver i now.handed⟩ later.text := by
  cases step with
  | keep next plain alive => exact Or.inl (text_keep next)
  | keepExpression next closes needed => exact Or.inl (text_keep next)
  | drop next plain dead =>
    obtain ⟨v, mentions, unused⟩ := List.any_eq_true.mp dead
    rw [Bool.and_eq_true] at unused
    have idle := idle_of_isUnused counted unused.1
    unfold Pruning.text at idle ⊢
    rw [next] at idle ⊢
    exact Or.inr (Or.inl ⟨_, Deletes.alone plain mentions idle⟩)
  | @dropExpression i now rest count effects next closes unused start pure =>
    obtain ⟨v, receives, unused⟩ := (Option.any_eq_true _ _).mp unused
    have idle := idle_of_isUnused counted unused
    obtain ⟨size, rfl, length, pieces⟩ := Pruning.exists_pieces next start
    refine Or.inr (Or.inr ⟨i, rest, size, effects, next, closes, start, pure, ?_⟩)
    rw [pieces] at idle ⊢
    rw [Pruning.text, handOver_none, List.drop_succ_cons]
    refine Deletes.expression closes receives idle ?_ pure
    have nearest := expressionStart?_take start
    rwa [List.reverse_reverse, List.length_reverse, length, ← List.take_succ_cons]

/-! ### A whole removal -/

/-- Whether nothing that stands inside a deleted expression has an effect of its own. -/
def Deletion.Quiet (deletion : Deletion) : Prop :=
  ∀ j ∈ deletion.inner, j.ownEffects = Effects.none

/-- Whether deletions lead from one program to another, and, if each end of an expression had a
start of its own, then it still has and the deletions were quiet. -/
def ErasesQuietly (code current : List Instruction) (log : List Deletion) : Prop :=
  Erases code log current ∧
    (Delimited code → Throughout Closable current ∧ ∀ deletion ∈ log, deletion.Quiet)

/-- The deletions of a pass, added to those before it. -/
theorem exists_log_of_run {code surveyed : List Instruction} {usage : Usage}
    {kept : List Variable} {log : List Deletion} {now : Pruning}
    (erases : ErasesQuietly code surveyed log) (counts : usage.Counts surveyed)
    (noted : Throughout Noted surveyed)
    (run : ReflTransGen (PruneStep kept) ⟨surveyed, none, usage, [], 0⟩ now) :
    now.Counted ∧ ∃ log, Erases code log now.text ∧
      (Delimited code →
        (∃ seen, Following surveyed seen now) ∧ ∀ deletion ∈ log, deletion.Quiet) := by
  induction run with
  | refl =>
    refine ⟨counts, log, ?_, fun delimited => ⟨⟨[], rfl, ?_, ?_⟩, (erases.2 delimited).2⟩⟩
    · rw [Pruning.text, handOver_none]
      exact erases.1
    · exact fun effects opened => absurd opened (by simp [openAfter])
    · exact fun before i after split => absurd split (by simp)
  | @tail now later _ step inductionHypothesis =>
    obtain ⟨counted, log, erased, quiet⟩ := inductionHypothesis
    obtain ⟨i, next⟩ := step.exists_next
    -- the log grows whatever the markers are; only its being quiet depends on them
    have goesOn : Delimited code → ∃ seen, Following surveyed seen later := by
      intro delimited
      obtain ⟨⟨seen, following⟩, -⟩ := quiet delimited
      exact ⟨_, following.step noted (erases.2 delimited).1 next step⟩
    refine ⟨counted.step step, ?_⟩
    rcases step.text_cases counted with
      same | ⟨i, deletes⟩ | ⟨i, rest, count, effects, here, closes, start, pure, deletes⟩
    · rw [same]
      exact ⟨log, erased, fun delimited => ⟨goesOn delimited, (quiet delimited).2⟩⟩
    · refine ⟨_, erased.delete deletes, fun delimited => ⟨goesOn delimited, ?_⟩⟩
      rw [List.forall_mem_append, List.forall_mem_singleton]
      exact ⟨(quiet delimited).2, fun j member => absurd member (by simp)⟩
    · refine ⟨_, erased.delete deletes, fun delimited => ⟨goesOn delimited, ?_⟩⟩
      obtain ⟨⟨seen, following⟩, before⟩ := quiet delimited
      rw [List.forall_mem_append, List.forall_mem_singleton]
      refine ⟨before, fun j member => ?_⟩
      exact following.quiet (erases.2 delimited).1 here closes start pure j
        (List.mem_reverse.mp member)

/-- One pass. -/
theorem exists_log_of_prune {code current : List Instruction} {log : List Deletion} {edit : Edit}
    (erases : ErasesQuietly code current log) (pruned : prune current = .ok edit) :
    ∃ log, ErasesQuietly code edit.code log := by
  obtain ⟨usage, surveyed, kept, final, survey, -, ended, rfl, run⟩ := exists_run_of_prune pruned
  have same := remarked_survey survey
  have start : ErasesQuietly code surveyed log :=
    ⟨erases.1.survey same, fun delimited =>
      ⟨closable_remarked same (erases.2 delimited).1, (erases.2 delimited).2⟩⟩
  obtain ⟨-, log, erased, quiet⟩ :=
    exists_log_of_run start (Usage.counts_survey survey).2 (noted_survey survey) run
  have text : final.text = final.done.reverse := by
    rw [Pruning.text, ended, handOver, List.append_nil]
  rw [text] at erased
  refine ⟨log, erased, fun delimited => ?_⟩
  obtain ⟨⟨seen, following⟩, all⟩ := quiet delimited
  exact ⟨following.closable, all⟩

/-- A removal is a log of deletions, which are quiet if each end of an expression has a start of
its own. -/
theorem exists_log_of_removeVariables {code : List Instruction} {edit : Edit}
    (removed : removeVariables code = .ok edit) : ∃ log, ErasesQuietly code edit.code log := by
  obtain ⟨last, next, passes, pruned, -, same⟩ := exists_last_pass removed (Nat.lt_succ_self _)
  have start : ErasesQuietly code code [] :=
    ⟨Erases.start, fun delimited => ⟨delimited_iff.mp delimited, by simp⟩⟩
  have before : ∃ log, ErasesQuietly code last log := by
    clear pruned
    induction passes with
    | refl => exact ⟨[], start⟩
    | tail _ pass inductionHypothesis =>
      obtain ⟨log, erases⟩ := inductionHypothesis
      obtain ⟨edit, pruned, rfl⟩ := pass
      exact exists_log_of_prune erases pruned
  obtain ⟨log, erases⟩ := before
  rw [same]
  exact exists_log_of_prune erases pruned

theorem statement_alike (i j : Instruction) (alike : Usage.CountedAlike i j) :
    i.statement = j.statement :=
  Prod.ext alike.opcode alike.operands

/-! ### Input and output -/

/-- Whether an instruction reads input or writes output. -/
def transfers (i : Instruction) : Bool :=
  i.opcode = .read ∨ i.opcode = .write

/-- What a program reads and writes, in the order of the program. -/
def transfersOf (code : List Instruction) : List (Opcode × List Operand) :=
  (code.filter transfers).map Instruction.statement

theorem transfersOf_append (code rest : List Instruction) :
    transfersOf (code ++ rest) = transfersOf code ++ transfersOf rest := by
  rw [transfersOf, List.filter_append, List.map_append]
  rfl

theorem transfersOf_cons (i : Instruction) (rest : List Instruction) :
    transfersOf (i :: rest) = transfersOf [i] ++ transfersOf rest :=
  transfersOf_append [i] rest

theorem transfersOf_eq_nil {code : List Instruction} (silent : ∀ i ∈ code, ¬ transfers i) :
    transfersOf code = [] := by
  rw [transfersOf, List.filter_eq_nil_iff.mpr silent, List.map_nil]

theorem transfersOf_alike {code other : List Instruction}
    (alike : List.Forall₂ Usage.CountedAlike code other) :
    transfersOf code = transfersOf other := by
  -- whether an instruction reads or writes shows in its statement
  have statements (code : List Instruction) : transfersOf code =
      (code.map Instruction.statement).filter fun statement =>
        statement.1 = .read ∨ statement.1 = .write := by
    rw [List.filter_map]
    rfl
  rw [statements, statements, Usage.map_eq_of_alike statement_alike alike]

theorem alike_handOver (handed : Option Effects) (code : List Instruction) :
    List.Forall₂ Usage.CountedAlike code (handOver handed code) := by
  cases code with
  | nil => exact List.Forall₂.nil
  | cons i rest =>
    refine List.Forall₂.cons (alike_takeOver i handed) ?_
    exact List.forall₂_same.mpr fun i _ => Usage.CountedAlike.refl i

theorem alike_of_remarked {code other : List Instruction}
    (same : List.Forall₂ Remarked code other) : List.Forall₂ Usage.CountedAlike code other :=
  same.imp fun _ _ found => found.alike

/-- Whatever an instruction that reads or writes mentions occurs in it. -/
theorem occurs_of_transfers {i : Instruction} {v : Variable} (transferring : transfers i)
    (mentions : v ∈ i.vars) : 0 < i.occurrencesOf v := by
  rw [transfers, decide_eq_true_eq] at transferring
  refine Instruction.occurs_of_mem_vars ?_ ?_ ?_ mentions <;>
    rcases transferring with opcode | opcode <;> simp [opcode]

theorem not_transfers_of_quiet {i : Instruction} (quiet : i.ownEffects = Effects.none) :
    ¬ transfers i := by
  have input : decide (i.opcode = .read) = false := congrArg Effects.input quiet
  have output : decide (i.opcode = .write) = false := congrArg Effects.output quiet
  rw [transfers, decide_eq_true_eq]
  rintro (opcode | opcode)
  · exact absurd opcode (of_decide_eq_false input)
  · exact absurd opcode (of_decide_eq_false output)

/-- A quiet deletion takes nothing that reads or writes. -/
theorem transfersOf_deletes {current next : List Instruction} {deletion : Deletion}
    (deletes : Deletes current deletion next) (quiet : deletion.Quiet) :
    transfersOf next = transfersOf current := by
  cases deletes with
  | @alone before after i v plain mentions idle =>
    have silent : ¬ transfers i := by
      intro transferring
      have occurs := occurs_of_transfers transferring mentions
      have absent := Usage.occurrencesIn_eq_zero_iff.mp idle.unused i (by simp)
      omega
    rw [transfersOf_append, transfersOf_append, transfersOf_cons,
      transfersOf_eq_nil (List.forall_mem_singleton.mpr silent), List.nil_append,
      transfersOf_alike (alike_handOver _ after)]
  | @expression before inner after store v effects closes receives idle start pure =>
    have silent : ¬ transfers store := by
      rw [closesExpression, decide_eq_true_eq] at closes
      rw [transfers, closes.1]
      decide
    rw [transfersOf_append, transfersOf_append, transfersOf_append, transfersOf_cons,
      transfersOf_eq_nil (List.forall_mem_singleton.mpr silent),
      transfersOf_eq_nil fun j member => not_transfers_of_quiet (quiet j member),
      List.nil_append, List.nil_append]

theorem transfersOf_erases {code current : List Instruction} {log : List Deletion}
    (erases : Erases code log current) (quiet : ∀ deletion ∈ log, deletion.Quiet) :
    transfersOf current = transfersOf code := by
  induction erases with
  | start => rfl
  | survey earlier same inductionHypothesis =>
    rw [← inductionHypothesis quiet, transfersOf_alike (alike_of_remarked same)]
  | delete earlier deletes inductionHypothesis =>
    rw [List.forall_mem_append, List.forall_mem_singleton] at quiet
    rw [transfersOf_deletes deletes quiet.2, inductionHypothesis quiet.1]

/-- If each end of an expression has a start of its own, then a removal keeps every instruction
that reads input or writes output, in the order of the program. -/
theorem input_and_output_stay {code : List Instruction} {edit : Edit}
    (delimited : Delimited code) (removed : removeVariables code = .ok edit) :
    (edit.code.filter fun i => i.opcode = .read ∨ i.opcode = .write).map
        (fun i => (i.opcode, i.operands)) =
      (code.filter fun i => i.opcode = .read ∨ i.opcode = .write).map
        fun i => (i.opcode, i.operands) := by
  obtain ⟨log, erases, quiet⟩ := exists_log_of_removeVariables removed
  exact transfersOf_erases erases (quiet delimited).2

/-- Two variables that nothing uses: one receives the value of an expression that writes and whose
start is a store into the other. -/
def writesInside : List Instruction :=
  [{ opcode := .defvar, operands := [.var ⟨.lf, "u"⟩] },
   { opcode := .defvar, operands := [.var ⟨.lf, "x"⟩] },
   { opcode := .read, operands := [.var ⟨.lf, "y"⟩, .type .int] },
   { opcode := .move, operands := [.var ⟨.lf, "u"⟩, .var ⟨.lf, "y"⟩],
     markers := { expressionStart := true } },
   { opcode := .write, operands := [.const (.int 1)] },
   { opcode := .pops, operands := [.var ⟨.lf, "x"⟩], markers := { expressionEnd := true } },
   { opcode := .pushs, operands := [.const (.int 2)], markers := { expressionStart := true } },
   { opcode := .pops, operands := [.var ⟨.lf, "u"⟩], markers := { expressionEnd := true } },
   { opcode := .write, operands := [.var ⟨.lf, "y"⟩] }]

/-- Only what does not read or write goes. -/
theorem input_and_output_stay_inside :
    Delimited writesInside ∧ ∃ edit, removeVariables writesInside = .ok edit ∧
      edit.code.map Instruction.opcode = [.defvar, .read, .write, .pops, .write] ∧
      (edit.code.filter fun i => i.opcode = .read ∨ i.opcode = .write).map
          (fun i => (i.opcode, i.operands)) =
        (writesInside.filter fun i => i.opcode = .read ∨ i.opcode = .write).map
          fun i => (i.opcode, i.operands) :=
  ⟨by decide, _, rfl, rfl, input_and_output_stay (by decide) rfl⟩

/-- An end without a start of its own finds the start of another expression, and what stands in
between goes although it writes. -/
example : ∃ edit, removeVariables
    [{ opcode := .pushs, operands := [.const (.int 1)],
       markers := { expressionStart := true, expressionEnd := true } },
     { opcode := .write, operands := [.const (.int 2)] },
     { opcode := .pops, operands := [.var ⟨.lf, "x"⟩],
       markers := { expressionEnd := true } }] = .ok edit ∧ edit.code = [] :=
  ⟨_, rfl, rfl⟩

/-! ### Variables that are still read -/

/-- Every instruction before a deletion goes or stays. -/
theorem statements_deletes {current next : List Instruction} {deletion : Deletion}
    (deletes : Deletes current deletion next) :
    ((deletion.instructions ++ next).map Instruction.statement).Perm
      (current.map Instruction.statement) := by
  cases deletes with
  | @alone before after i =>
    rw [Deletion.instructions, List.nil_append, List.singleton_append, List.map_cons,
      List.map_append, ← Usage.map_eq_of_alike statement_alike (alike_handOver _ after),
      List.map_append, List.map_cons]
    exact List.perm_middle.symm
  | @expression before inner after store =>
    rw [Deletion.instructions]
    refine List.Perm.map _ ?_
    calc inner ++ [store] ++ (before ++ after)
      _ ~ before ++ (inner ++ [store] ++ after) := List.perm_append_comm_assoc _ _ _
      _ = before ++ (inner ++ store :: after) := by rw [List.append_assoc, List.singleton_append]

/-- Every instruction of a program is in the log or stays. -/
theorem statements_erases {code current : List Instruction} {log : List Deletion}
    (erases : Erases code log current) :
    ((log.flatMap Deletion.instructions ++ current).map Instruction.statement).Perm
      (code.map Instruction.statement) := by
  induction erases with
  | start => exact List.Perm.refl _
  | survey earlier same inductionHypothesis =>
    rw [List.map_append] at inductionHypothesis ⊢
    rwa [← Usage.map_eq_of_alike statement_alike (alike_of_remarked same)]
  | @delete log deletion current next earlier deletes inductionHypothesis =>
    have here := (statements_deletes deletes).append_left
      ((log.flatMap Deletion.instructions).map Instruction.statement)
    rw [← List.map_append, ← List.map_append, ← List.append_assoc] at here
    rw [List.flatMap_append, List.flatMap_singleton]
    exact here.trans inductionHypothesis

/-- Neither the log nor what stays has an instruction with the wrong number of operands. -/
theorem wellFormed_erases {code current : List Instruction} {log : List Deletion}
    (erases : Erases code log current) (wellFormed : ∀ i ∈ code, i.WellFormed) :
    ∀ j ∈ log.flatMap Deletion.instructions ++ current, j.WellFormed := by
  intro j member
  have stated := (statements_erases erases).mem_iff.mp (List.mem_map_of_mem member)
  obtain ⟨i, inside, same⟩ := List.mem_map.mp stated
  obtain ⟨opcode, operands⟩ := Prod.mk.inj same
  rw [Instruction.WellFormed, ← opcode, ← operands]
  exact wellFormed i inside

/-- With an end that has no start of its own, even the store into a global variable goes. -/
example : ∃ edit, removeVariables
    [{ opcode := .pushs, operands := [.const (.int 1)],
       markers := { expressionStart := true, expressionEnd := true } },
     { opcode := .move, operands := [.var ⟨.gf, "g"⟩, .const (.int 2)] },
     { opcode := .pops, operands := [.var ⟨.lf, "x"⟩], markers := { expressionEnd := true } },
     { opcode := .write, operands := [.var ⟨.gf, "g"⟩] }] = .ok edit ∧
    edit.code.map Instruction.opcode = [.write] :=
  ⟨_, rfl, rfl⟩

end Unused

end ThreeAddress
