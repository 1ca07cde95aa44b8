/-
A peephole pass over a stored program is greedy rewriting of the list of its
instructions. `greedy` goes through a list from the front: where some rule
matches, the first such rule replaces the instructions that it matches and
rewriting goes on behind them, and elsewhere it moves on by one; the counts
follow each replacement. A pass over a store edits under its own cursor: what it
inserts stands before the cursor, in slots that were emptied before or that are
new, and what it empties is what the cursor moves over. So what lies ahead of
the cursor is always what was there at the start, and the pass takes the steps
of `greedy`, as does the pass over a list.
-/
import ThreeAddress.Peephole.Cursor
import ThreeAddress.Proofs.RuleBindings
import ThreeAddress.Proofs.StoreEntries

namespace ThreeAddress.Peephole

/-! ### Greedy rewriting of a list -/

/-- What is done at one place of a program. -/
inductive Step where
  /-- An instruction stays. -/
  | keep (i : Instruction)
  /-- The instructions that a rule matches are replaced. -/
  | replace (rule : Rule) (bindings : Bindings) (span : List Instruction)
deriving DecidableEq, Repr

namespace Step

/-- The instructions that a step is about. -/
def before : Step → List Instruction
  | keep i => [i]
  | replace _ _ span => span

/-- The instructions that a step leaves. -/
def after : Step → List Instruction
  | keep i => [i]
  | replace rule bindings span =>
    carryBoundaries span (rule.replacement.map (Substitute.written bindings))

/-- The counts after a step. -/
def count (usage : Usage) : Step → Usage
  | keep _ => usage
  | replace rule bindings span =>
    replaceUsage usage span (replace rule bindings span).after

/-- Whether a step replaces instructions. -/
def isReplacement : Step → Bool
  | keep _ => false
  | replace .. => true

end Step

/-- The first rule that matches the instructions in front, with what its names stand for. -/
def firstMatch? (rules : List Rule) (usage : Usage) (code : List Instruction) :
    Option (Rule × Bindings) :=
  rules.findSome? fun rule => (rule.match? usage code).map (rule, ·)

/-- The steps of greedy rewriting. A rule that matches has a pattern of at least one instruction. -/
def greedy (rules : List Rule) : List Instruction → Usage → List Step
  | [], _ => []
  | i :: rest, usage =>
    match firstMatch? rules usage (i :: rest) with
    | none => .keep i :: greedy rules rest usage
    | some (rule, bindings) =>
      let step := Step.replace rule bindings (rule.span (i :: rest))
      step :: greedy rules (rest.drop (rule.pattern.length - 1)) (step.count usage)
termination_by code => code.length

/-- What steps come to. -/
def editOfSteps (usage : Usage) (steps : List Step) : Edit where
  code := steps.flatMap Step.after
  usage := steps.foldl Step.count usage
  changes := steps.countP Step.isReplacement

section Greedy

variable {rules : List Rule} {usage : Usage} {i : Instruction} {rest code : List Instruction}
  {rule : Rule} {bindings : Bindings}

theorem of_firstMatch? (found : firstMatch? rules usage code = some (rule, bindings)) :
    rule ∈ rules ∧ rule.match? usage code = some bindings := by
  obtain ⟨other, member, matched⟩ := List.exists_of_findSome?_eq_some found
  obtain ⟨_, same, pair⟩ := Option.map_eq_some_iff.mp matched
  obtain ⟨rfl, rfl⟩ := Prod.mk.inj pair
  exact ⟨member, same⟩

theorem greedy_of_none (none : firstMatch? rules usage (i :: rest) = none) :
    greedy rules (i :: rest) usage = .keep i :: greedy rules rest usage := by
  rw [greedy, none]

/-- A replacement moves on by as many instructions as were matched. -/
theorem greedy_of_some (found : firstMatch? rules usage (i :: rest) = some (rule, bindings)) :
    greedy rules (i :: rest) usage =
      .replace rule bindings (rule.span (i :: rest)) ::
        greedy rules ((i :: rest).drop rule.pattern.length)
          ((Step.replace rule bindings (rule.span (i :: rest))).count usage) := by
  have nonempty := (matchPattern?_of_match? (of_firstMatch? found).2).1
  obtain ⟨length, more⟩ := Nat.exists_eq_add_one.mpr (List.length_pos_iff.mpr nonempty)
  rw [greedy, found]
  dsimp only
  rw [more]
  rfl

/-- The steps are about the instructions of the program, each of them once and in their order. -/
theorem flatMap_before_greedy (rules : List Rule) (code : List Instruction) (usage : Usage) :
    (greedy rules code usage).flatMap Step.before = code := by
  fun_induction greedy rules code usage with
  | case1 => rfl
  | case2 i rest usage none inductionHypothesis =>
    rw [List.flatMap_cons, inductionHypothesis]
    rfl
  | case3 i rest usage rule bindings found step inductionHypothesis =>
    have nonempty := (matchPattern?_of_match? (of_firstMatch? found).2).1
    obtain ⟨length, more⟩ := Nat.exists_eq_add_one.mpr (List.length_pos_iff.mpr nonempty)
    rw [List.flatMap_cons, inductionHypothesis, Step.before, Rule.span, more]
    exact List.take_append_drop (length + 1) (i :: rest)

/-- A replacement is made by a rule of the list that matches there. -/
theorem exists_match_of_mem_greedy {span : List Instruction}
    (member : Step.replace rule bindings span ∈ greedy rules code usage) :
    rule ∈ rules ∧ ∃ rest now, span = rule.span rest ∧ rule.match? now rest = some bindings := by
  fun_induction greedy rules code usage with
  | case1 => exact absurd member (by simp)
  | case2 i rest usage none inductionHypothesis =>
    exact inductionHypothesis (by simpa using member)
  | case3 i rest usage other known found step inductionHypothesis =>
    obtain same | later := List.mem_cons.mp member
    · obtain ⟨rfl, rfl, rfl⟩ := Step.replace.inj same
      obtain ⟨listed, matched⟩ := of_firstMatch? found
      exact ⟨listed, _, _, rfl, matched⟩
    · exact inductionHypothesis later

end Greedy

/-! ### Matching along the links -/

section Sites

variable {s : Store} {before after : List (Slot × Instruction)} {slot : Slot} {i : Instruction}

/-- Following the links from a place is going through the entries from there on. -/
theorem matchSlots?_eq (usage : Usage) (templates : List Template)
    {rest : List (Slot × Instruction)} (split : s.entries = before ++ rest) (bindings : Bindings) :
    matchSlots? usage s templates (rest.head?.map Prod.fst) bindings =
      (matchPattern? usage templates (rest.map Prod.snd) bindings).map fun found =>
        { span := (rest.take templates.length).map Prod.fst, bindings := found } := by
  induction templates generalizing before rest bindings with
  | nil => simp [matchSlots?, matchPattern?]
  | cons template templates inductionHypothesis =>
    cases rest with
    | nil => rfl
    | cons entry rest =>
      have used := Store.used_of_split split
      have later := @inductionHypothesis (before ++ [entry]) rest (by simpa using split)
      simp only [matchSlots?, List.head?_cons, Option.map_some, used.get, used.next, later,
        matchPattern?, List.map_cons, Option.bind_eq_bind, Option.bind_some]
      split
      · cases matchPlaces? usage template.places entry.2.operands bindings with
        | none => rfl
        | some bound =>
          rw [Option.bind_some, Option.bind_some]
          cases matchPattern? usage templates (rest.map Prod.snd) bound <;> rfl
      · rfl

/-- The site of a rule at the front of some entries: as many slots as the rule has templates. -/
def Rule.siteAt (rule : Rule) (entries : List (Slot × Instruction)) (bindings : Bindings) :
    Site where
  span := (entries.take rule.pattern.length).map Prod.fst
  bindings

theorem instructions_siteAt (rule : Rule) (bindings : Bindings) {rest : List (Slot × Instruction)}
    (split : s.entries = before ++ rest) :
    (rule.siteAt rest bindings).instructions s = rule.span (rest.map Prod.snd) := by
  rw [Rule.siteAt, Site.instructions, Rule.span, ← List.map_take, List.filterMap_map,
    ← List.filterMap_eq_map]
  refine List.filterMap_congr fun entry member => Store.get?_of_mem ?_
  rw [split]
  exact List.mem_append_right _ (List.mem_of_mem_take member)

/-- A rule applies at a slot exactly if it matches the instructions from there on. -/
theorem site?_eq (rule : Rule) (usage : Usage)
    (split : s.entries = before ++ (slot, i) :: after) :
    rule.site? usage s slot =
      (rule.match? usage (i :: after.map Prod.snd)).map (rule.siteAt ((slot, i) :: after)) := by
  have walk : matchSlots? usage s rule.pattern (some slot) {} =
      (matchPattern? usage rule.pattern (i :: after.map Prod.snd) {}).map
        (rule.siteAt ((slot, i) :: after)) := matchSlots?_eq usage rule.pattern split {}
  rw [Rule.site?, walk, Rule.match?]
  cases matched : matchPattern? usage rule.pattern (i :: after.map Prod.snd) {} with
  | none => split <;> rfl
  | some found =>
    simp only [Option.map_some, Option.bind_eq_bind, Option.bind_some,
      instructions_siteAt rule found split, List.map_cons]
    -- the span has an instruction exactly if the pattern has a template
    cases pattern : rule.pattern with
    | nil => simp [Rule.siteAt, pattern]
    | cons template templates =>
      cases keepsBoundaries rule (rule.span (i :: after.map Prod.snd)) <;>
        simp [Rule.siteAt, pattern]

theorem firstSite?_eq (rules : List Rule) (usage : Usage)
    (split : s.entries = before ++ (slot, i) :: after) :
    firstSite? rules usage s slot =
      (firstMatch? rules usage (i :: after.map Prod.snd)).map fun found =>
        (found.1, found.1.siteAt ((slot, i) :: after) found.2) := by
  induction rules with
  | nil => rfl
  | cons rule rules inductionHypothesis =>
    unfold firstSite? firstMatch? at inductionHypothesis ⊢
    rw [List.findSome?_cons, List.findSome?_cons, site?_eq rule usage split, inductionHypothesis]
    cases rule.match? usage (i :: after.map Prod.snd) <;> rfl

end Sites

/-! ### Editing under the cursor -/

section Edits

variable {before after : List (Slot × Instruction)}

/-- What is inserted before a slot stands there in its order, behind everything that stood before
the slot. -/
theorem entries_insertBefore (new : List Instruction) {edit : StoreEdit}
    {entry : Slot × Instruction} (split : edit.store.entries = before ++ entry :: after) :
    ∃ inserted, inserted.map Prod.snd = new ∧
      (new.foldl (StoreEdit.insertBefore entry.1) edit).store.entries =
        before ++ (inserted ++ entry :: after) ∧
      (new.foldl (StoreEdit.insertBefore entry.1) edit).usage = new.foldl Usage.add edit.usage ∧
      (new.foldl (StoreEdit.insertBefore entry.1) edit).changes = edit.changes := by
  induction new generalizing edit before with
  | nil => exact ⟨[], rfl, split, rfl, rfl⟩
  | cons i new inductionHypothesis =>
    obtain ⟨slot, t, added, -, entries⟩ := (Store.used_of_split split).insertBefore i
    have now : (edit.insertBefore entry.1 i).store = t := by rw [StoreEdit.insertBefore, added]
    obtain ⟨inserted, instructions, later, usage, changes⟩ :=
      @inductionHypothesis (before ++ [(slot, i)]) (edit.insertBefore entry.1 i)
        (by rw [now, entries, List.append_assoc, List.singleton_append])
    refine ⟨(slot, i) :: inserted, by rw [List.map_cons, instructions], ?_, usage, changes⟩
    rw [List.foldl_cons, later, List.append_assoc]
    rfl

/-- Emptying slots that follow each other leaves what stood before and behind them, and gives the
slot behind them. -/
theorem entries_takeAll (span : List (Slot × Instruction)) {edit : StoreEdit} (next : Option Slot)
    (split : edit.store.entries = before ++ (span ++ after)) :
    ∃ result, edit.takeAll (span.map Prod.fst) next =
        (if span = [] then next else after.head?.map Prod.fst, result) ∧
      result.store.entries = before ++ after ∧
      result.usage = (span.map Prod.snd).foldl Usage.remove edit.usage ∧
      result.changes = edit.changes := by
  induction span generalizing edit next with
  | nil => exact ⟨edit, rfl, split, rfl, rfl⟩
  | cons entry span inductionHypothesis =>
    obtain ⟨t, taken, -, entries⟩ := (Store.used_of_split split).take
    obtain ⟨result, rest, left, usage, changes⟩ :=
      @inductionHypothesis { edit with store := t, usage := edit.usage.remove entry.2 }
        ((span ++ after).head?.map Prod.fst) entries
    refine ⟨result, ?_, left, usage, changes⟩
    rw [List.map_cons, StoreEdit.takeAll, taken]
    refine rest.trans ?_
    cases span <;> rfl

/-- Where an accepted rule matches, its replacement takes the place of the instructions in front of
the cursor. What stood before and behind them stays, and the cursor moves behind them. -/
theorem entries_replace? {rule : Rule} (accepted : rule.Accepted) {usage : Usage}
    {bindings : Bindings} {edit : StoreEdit} {rest : List (Slot × Instruction)}
    (split : edit.store.entries = before ++ rest)
    (matched : rule.match? usage (rest.map Prod.snd) = some bindings) :
    ∃ result inserted,
      rule.replace? (rule.siteAt rest bindings) edit =
        some ((rest.drop rule.pattern.length).head?.map Prod.fst, result) ∧
      result.store.entries = before ++ (inserted ++ rest.drop rule.pattern.length) ∧
      inserted.map Prod.snd =
        (Step.replace rule bindings (rule.span (rest.map Prod.snd))).after ∧
      result.usage =
        (Step.replace rule bindings (rule.span (rest.map Prod.snd))).count edit.usage ∧
      result.changes = edit.changes := by
  obtain ⟨nonempty, pattern, -⟩ := matchPattern?_of_match? matched
  have made := accepted.instances pattern
  have instructions := instructions_siteAt rule bindings split
  obtain ⟨length, more⟩ := Nat.exists_eq_add_one.mpr (List.length_pos_iff.mpr nonempty)
  obtain _ | ⟨entry, others⟩ := rest
  · exact absurd (length_le_of_matchPattern? pattern) (by simp [more])
  obtain ⟨inserted, written, entries, added, same⟩ := entries_insertBefore
    (Step.replace rule bindings (rule.span ((entry :: others).map Prod.snd))).after split
  obtain ⟨result, emptied, left, removed, changes⟩ :=
    @entries_takeAll (before ++ inserted) ((entry :: others).drop rule.pattern.length)
      ((entry :: others).take rule.pattern.length) _ none
      (by rw [entries, List.append_assoc, List.take_append_drop])
  rw [if_neg (by simp [more])] at emptied
  refine ⟨result, inserted, ?_, by rw [left, List.append_assoc], written, ?_, changes.trans same⟩
  · have first : (rule.siteAt (entry :: others) bindings).span.head? = some entry.1 := by
      rw [Rule.siteAt, more]
      rfl
    simp only [Rule.replace?, first, instructions, Option.bind_eq_bind, Option.bind_some]
    rw [show rule.replacement.mapM (Substitute.instantiate? (rule.siteAt _ bindings).bindings) = _
      from made]
    exact congrArg some emptied
  · rw [removed, added, List.map_take]
    rfl

end Edits

/-! ### Whole passes -/

section Passes

variable {rules : List Rule}

/-- The pass goes on from a place of a stored program as rewriting the rest of its instructions
does. -/
theorem passOverFrom_eq (accepted : ∀ rule ∈ rules, rule.Accepted) {turns : Nat} {edit : StoreEdit}
    {before rest : List (Slot × Instruction)} (split : edit.store.entries = before ++ rest)
    (enough : rest.length ≤ turns) :
    ∃ result, passOverFrom rules turns (rest.head?.map Prod.fst) edit = some result ∧
      result.store.code = before.map Prod.snd ++
        (greedy rules (rest.map Prod.snd) edit.usage).flatMap Step.after ∧
      result.usage = (greedy rules (rest.map Prod.snd) edit.usage).foldl Step.count edit.usage ∧
      result.changes =
        edit.changes + (greedy rules (rest.map Prod.snd) edit.usage).countP Step.isReplacement := by
  induction turns generalizing edit before rest with
  | zero =>
    obtain rfl := List.length_eq_zero_iff.mp (Nat.le_zero.mp enough)
    refine ⟨edit, rfl, ?_, by simp [greedy], by simp [greedy]⟩
    simp [greedy, Store.code, split]
  | succ turns inductionHypothesis =>
    obtain _ | ⟨⟨slot, i⟩, rest⟩ := rest
    · refine ⟨edit, rfl, ?_, by simp [greedy], by simp [greedy]⟩
      simp [greedy, Store.code, split]
    · rw [List.length_cons] at enough
      rw [List.head?_cons, Option.map_some, passOverFrom, firstSite?_eq rules edit.usage split,
        List.map_cons]
      cases found : firstMatch? rules edit.usage (i :: rest.map Prod.snd) with
      | none =>
        rw [greedy_of_none found, (Store.used_of_split split).next]
        obtain ⟨result, passed, code, usage, changes⟩ :=
          @inductionHypothesis edit (before ++ [(slot, i)]) rest (by simpa using split)
            (by omega)
        refine ⟨result, passed, by rw [code]; simp [Step.after], usage, ?_⟩
        rw [changes, List.countP_cons_of_neg (by simp [Step.isReplacement])]
      | some pair =>
        obtain ⟨rule, bindings⟩ := pair
        obtain ⟨member, matched⟩ := of_firstMatch? found
        have nonempty := (matchPattern?_of_match? matched).1
        have positive := List.length_pos_iff.mpr nonempty
        obtain ⟨replaced, inserted, done, entries, instructions, counted, same⟩ :=
          @entries_replace? before rule (accepted rule member) edit.usage bindings edit
            ((slot, i) :: rest) split matched
        -- what was inserted joins what is behind the cursor, and is not looked at again
        obtain ⟨result, passed, code, usage, changes⟩ :=
          @inductionHypothesis { replaced with changes := replaced.changes + 1 }
            (before ++ inserted) (((slot, i) :: rest).drop rule.pattern.length)
            (by rw [List.append_assoc]; exact entries) (by simp; omega)
        simp only [counted, List.map_drop, List.map_cons] at code usage changes
        rw [greedy_of_some found]
        refine ⟨result, ?_, ?_, usage, ?_⟩
        · simp only [Option.map_some, done, Option.bind_eq_bind, Option.bind_some, passed]
        · rw [code, List.map_append, instructions, List.append_assoc]
          rfl
        · rw [changes, same, List.countP_cons_of_pos rfl]
          omega

theorem toEdit_passOver (accepted : ∀ rule ∈ rules, rule.Accepted) (s : Store) (usage : Usage) :
    ∃ edit, passOver rules s usage = some edit ∧
      edit.toEdit = editOfSteps usage (greedy rules s.code usage) := by
  have list := s.acts_as_list
  obtain ⟨edit, passed, code, counted, changes⟩ :=
    @passOverFrom_eq rules accepted s.size { store := s, usage, changes := 0 } [] s.entries rfl
      (Nat.le_of_eq list.size.symm)
  rw [Nat.zero_add] at changes
  refine ⟨edit, by rw [passOver, list.first, passed], ?_⟩
  rw [StoreEdit.toEdit, code, counted, changes]
  rfl

/-- An accepted rule applies exactly where it matches. -/
theorem fire?_eq {rule : Rule} (accepted : rule.Accepted) (usage : Usage)
    (code : List Instruction) :
    rule.fire? usage code =
      (rule.match? usage code).map fun bindings =>
        (Step.replace rule bindings (rule.span code)).after := by
  unfold Rule.fire?
  cases matched : rule.match? usage code with
  | none => rfl
  | some bindings =>
    have made := accepted.instances (matchPattern?_of_match? matched).2.1
    simp only [Option.bind_eq_bind, Option.bind_some, made]
    rfl

theorem firstApplicable?_eq (accepted : ∀ rule ∈ rules, rule.Accepted) (usage : Usage)
    (code : List Instruction) :
    firstApplicable? rules usage code =
      (firstMatch? rules usage code).map fun found =>
        (found.1.pattern.length, (Step.replace found.1 found.2 (found.1.span code)).after) := by
  induction rules with
  | nil => rfl
  | cons rule rules inductionHypothesis =>
    rw [List.forall_mem_cons] at accepted
    have later := inductionHypothesis accepted.2
    unfold firstApplicable? firstMatch? at later ⊢
    rw [List.findSome?_cons, List.findSome?_cons, fire?_eq accepted.1, later]
    cases rule.match? usage code <;> rfl

/-- The pass over a list goes on as rewriting the rest of it does. -/
theorem passFrom_eq (accepted : ∀ rule ∈ rules, rule.Accepted) (skip : Nat)
    (rest : List Instruction) (usage : Usage) (done : List Instruction) (changes : Nat) :
    passFrom rules skip rest usage done changes =
      { code := done.reverse ++ (greedy rules (rest.drop skip) usage).flatMap Step.after
        usage := (greedy rules (rest.drop skip) usage).foldl Step.count usage
        changes := changes + (greedy rules (rest.drop skip) usage).countP Step.isReplacement } := by
  induction rest generalizing skip usage done changes with
  | nil => simp [passFrom, greedy]
  | cons i rest inductionHypothesis =>
    cases skip with
    | succ skip => exact inductionHypothesis skip usage done changes
    | zero =>
      rw [passFrom, firstApplicable?_eq accepted, List.drop_zero]
      cases found : firstMatch? rules usage (i :: rest) with
      | none =>
        rw [greedy_of_none found]
        dsimp only [Option.map_none]
        rw [inductionHypothesis]
        simp [Step.after, Step.count, Step.isReplacement]
      | some pair =>
        obtain ⟨rule, bindings⟩ := pair
        have nonempty := (matchPattern?_of_match? (of_firstMatch? found).2).1
        obtain ⟨length, more⟩ := Nat.exists_eq_add_one.mpr (List.length_pos_iff.mpr nonempty)
        rw [greedy_of_some found]
        dsimp only [Option.map_some]
        rw [inductionHypothesis, more, List.drop_succ_cons, Nat.add_sub_cancel, List.reverse_append,
          List.reverse_reverse, List.countP_cons_of_pos rfl]
        simp only [Step.count, Rule.span, more, List.flatMap_cons, List.foldl_cons,
          List.append_assoc, Nat.add_assoc, Nat.add_comm 1]

theorem pass_eq (accepted : ∀ rule ∈ rules, rule.Accepted) (code : List Instruction)
    (usage : Usage) : pass rules code usage = editOfSteps usage (greedy rules code usage) := by
  rw [pass, passFrom_eq accepted, List.drop_zero, Nat.zero_add]
  rfl

/-- With rules that were accepted, a pass over a stored program ends, and its result is that of
greedy rewriting: the same instructions, the same counts, and as many changes as rules were applied.
The steps are about the instructions that were there at the start, each of them once and in their
order. A pass over the list of instructions has the same result. -/
theorem stored_pass_is_greedy (accepted : ∀ rule ∈ rules, rule.Accepted) (s : Store)
    (usage : Usage) :
    (greedy rules s.code usage).flatMap Step.before = s.code ∧
      (∃ edit, passOver rules s usage = some edit ∧
        edit.toEdit = editOfSteps usage (greedy rules s.code usage)) ∧
      pass rules s.code usage = editOfSteps usage (greedy rules s.code usage) :=
  ⟨flatMap_before_greedy rules s.code usage, toEdit_passOver accepted s usage,
    pass_eq accepted s.code usage⟩

/-- Everything that is written is shown to the debugger too. -/
def echoed : Rule :=
  ⟨"echoed", [⟨.write, [.named "a" none none]⟩], [⟨.write, ["a"]⟩, ⟨.dprint, ["a"]⟩]⟩

theorem accepted_echoed : ∀ rule ∈ echoed :: standard, rule.Accepted :=
  List.forall_mem_cons.mpr ⟨⟨_, echoed.pattern, echoed.replacement, rfl⟩, accepted_standard⟩

/-- A value that is pushed, popped and written, in a store with an emptied slot. -/
def recycled : Store :=
  ((Store.ofCode
    [{ opcode := .pushs, operands := [.const (.int 1)] },
     { opcode := .brk, operands := [] },
     { opcode := .pops, operands := [.var ⟨.gf, "x"⟩] },
     { opcode := .write, operands := [.var ⟨.gf, "x"⟩] }]).remove 1).2

/-- The pushed value is moved through the slot that was emptied before; what is written and shown
then stands in the slots of the push and the pop. -/
theorem stored_pass_is_greedy_recycled :
    (∀ rule ∈ echoed :: standard, rule.Accepted) ∧ recycled.order = [0, 2, 3] ∧
      ∃ edit, passOver (echoed :: standard) recycled {} = some edit ∧
        edit.store.order = [1, 2, 0] ∧ edit.changes = 2 ∧
        edit.toEdit = editOfSteps {} (greedy (echoed :: standard) recycled.code {}) ∧
        pass (echoed :: standard) recycled.code {} = edit.toEdit := by
  obtain ⟨-, ⟨edit, passed, same⟩, list⟩ := stored_pass_is_greedy accepted_echoed recycled {}
  have shown : (passOver (echoed :: standard) recycled {}).map (fun edit =>
      (edit.store.order, edit.changes)) = some ([1, 2, 0], 2) := by decide +kernel
  rw [passed, Option.map_some, Option.some_inj, Prod.mk.injEq] at shown
  exact ⟨accepted_echoed, by decide +kernel, edit, passed, shown.1, shown.2, same,
    list.trans same.symm⟩

end Passes

/-! ### Rules that cannot fail -/

section Safety

variable {rule : Rule} {usage : Usage} {s : Store} {slot : Slot} {site : Site}

/-- A rule applies only at slots that hold an instruction. -/
theorem exists_split_of_site? (applies : rule.site? usage s slot = some site) :
    ∃ before i after, s.entries = before ++ (slot, i) :: after := by
  by_contra unheld
  have outside : slot ∉ s.order := by
    intro member
    obtain ⟨⟨_, i⟩, held, rfl⟩ := List.mem_map.mp member
    obtain ⟨before, after, split⟩ := List.append_of_mem held
    exact unheld ⟨before, i, after, split⟩
  have empty := (Store.unused_of_not_mem outside).get
  unfold Rule.site? at applies
  cases pattern : rule.pattern with
  | nil => simp [pattern, matchSlots?] at applies
  | cons template templates => simp [pattern, matchSlots?, empty] at applies

theorem namings_span (rule : Rule) (code : List Instruction) :
    namings rule.pattern (rule.span code) = namings rule.pattern code := by
  rw [namings, namings, Rule.span]
  congr 1
  generalize rule.pattern = templates
  induction templates generalizing code with
  | nil => rfl
  | cons template templates inductionHypothesis =>
    cases code with
    | nil => rfl
    | cons i code =>
      rw [List.length_cons, List.take_succ_cons, List.zip_cons_cons, inductionHypothesis,
        List.zip_cons_cons]

/-- What is known where a rule applies. -/
structure Rule.Supplied (rule : Rule) (s : Store) (site : Site) : Prop where
  /-- A name that the replacement uses stands for the operand at the first place that has it. -/
  named : ∀ substitute ∈ rule.replacement, ∀ name ∈ substitute.aliases,
    ∃ operand, site.bindings.get? name = some operand ∧
      firstNamed rule.pattern (site.instructions s) name = some operand
  /-- Every instruction of the replacement can be made from these operands. -/
  made : ∃ instances,
    rule.replacement.mapM (Substitute.instantiate? site.bindings) = some instances ∧
      List.Forall₂ (fun substitute i => i.opcode = substitute.opcode ∧ i.operands.map some =
        substitute.aliases.map (firstNamed rule.pattern (site.instructions s)))
        rule.replacement instances
  /-- The rule replaces its site, and leaves instructions with as many operands as they need. -/
  replaced : ∀ usage changes, ∃ next edit,
    rule.replace? site { store := s, usage, changes } = some (next, edit) ∧
      ∀ i ∈ edit.store.code, i.WellFormed

theorem wellFormed_carryBoundaries {span replacement : List Instruction}
    (wellFormed : ∀ i ∈ replacement, i.WellFormed) :
    ∀ i ∈ carryBoundaries span replacement, i.WellFormed := by
  have same : (carryBoundaries span replacement).map Instruction.WellFormed =
      replacement.map Instruction.WellFormed := map_carryBoundaries (fun _ _ _ => rfl) _ _
  intro i member
  obtain ⟨j, listed, equal⟩ := List.mem_map.mp (same ▸ List.mem_map_of_mem member)
  exact equal ▸ wellFormed j listed

/-- Wherever an accepted rule matches, what it leaves has as many operands as it needs. -/
theorem Rule.Accepted.wellFormed {code : List Instruction} {bindings : Bindings}
    (accepted : rule.Accepted) (matched : rule.match? usage code = some bindings)
    (span : List Instruction) :
    ∀ i ∈ (Step.replace rule bindings span).after, i.WellFormed := by
  obtain ⟨-, pattern, -⟩ := matchPattern?_of_match? matched
  refine wellFormed_carryBoundaries fun i member => ?_
  obtain ⟨substitute, listed, rfl⟩ := List.mem_map.mp member
  exact (accepted.written pattern listed).2

theorem Rule.Accepted.supplied (accepted : rule.Accepted)
    (wellFormed : ∀ i ∈ s.code, i.WellFormed) (applies : rule.site? usage s slot = some site) :
    rule.Supplied s site := by
  obtain ⟨before, i, after, split⟩ := exists_split_of_site? applies
  rw [site?_eq rule usage split] at applies
  obtain ⟨bindings, matched, rfl⟩ := Option.map_eq_some_iff.mp applies
  have pattern := (matchPattern?_of_match? matched).2.1
  have first : firstNamed rule.pattern
      ((rule.siteAt ((slot, i) :: after) bindings).instructions s) =
        firstNamed rule.pattern (i :: after.map Prod.snd) := by
    funext name
    rw [instructions_siteAt rule bindings split, firstNamed, namings_span, firstNamed]
    rfl
  refine ⟨fun substitute member name has => ?_, ⟨_, accepted.instances pattern, ?_⟩,
    fun usage changes => ?_⟩
  · obtain ⟨operand, known⟩ := Option.isSome_iff_exists.mp
      (isSome_of_matchPattern? pattern ((accepted.substitute member).2 name has))
    refine ⟨operand, known, ?_⟩
    rw [first, ← known, get?_of_matchPattern? pattern, Table.get?_empty, Option.none_or]
  · rw [first, List.forall₂_map_right_iff, List.forall₂_same]
    exact fun substitute member => ⟨rfl, (accepted.written pattern member).1⟩
  · obtain ⟨edit, inserted, done, entries, instructions, -⟩ :=
      @entries_replace? before rule accepted _ bindings { store := s, usage, changes }
        ((slot, i) :: after) split matched
    refine ⟨_, edit, done, fun j member => ?_⟩
    rw [Store.code, entries, List.map_append, List.map_append, instructions, List.mem_append,
      List.mem_append] at member
    rw [Store.code, split, List.map_append] at wellFormed
    obtain ahead | new | behind := member
    · exact wellFormed j (List.mem_append_left _ ahead)
    · exact accepted.wellFormed matched _ j new
    · rw [List.map_drop] at behind
      exact wellFormed j (List.mem_append_right _ (List.mem_of_mem_drop behind))

/-- Rules that were accepted cannot fail, whatever the counts are: wherever one of them applies,
each name that its replacement uses is bound, to the operand at the first place that has the name,
and the instructions of the replacement have as many operands as they need. So a pass with such
rules over a program whose instructions have as many operands as they need gives a program of that
kind. -/
theorem accepted_rules_cannot_fail {rules : List Rule} (accepted : ∀ rule ∈ rules, rule.Accepted)
    {s : Store} (wellFormed : ∀ i ∈ s.code, i.WellFormed) (usage : Usage) :
    (∀ rule ∈ rules, ∀ slot site, rule.site? usage s slot = some site → rule.Supplied s site) ∧
      ∃ edit, passOver rules s usage = some edit ∧ ∀ i ∈ edit.store.code, i.WellFormed := by
  refine ⟨fun rule member slot site applies =>
    (accepted rule member).supplied wellFormed applies, ?_⟩
  obtain ⟨edit, passed, same⟩ := toEdit_passOver accepted s usage
  refine ⟨edit, passed, fun i member => ?_⟩
  have code : edit.store.code = (greedy rules s.code usage).flatMap Step.after :=
    congrArg Edit.code same
  rw [code, List.mem_flatMap] at member
  obtain ⟨step, taken, left⟩ := member
  cases step with
  | keep j =>
    obtain rfl := List.mem_singleton.mp left
    refine wellFormed i ?_
    rw [← flatMap_before_greedy rules s.code usage, List.mem_flatMap]
    exact ⟨_, taken, List.mem_singleton_self i⟩
  | replace rule bindings span =>
    obtain ⟨listed, rest, now, -, matched⟩ := exists_match_of_mem_greedy taken
    exact (accepted rule listed).wellFormed matched span i left

/-- Two moves into one variable, the first of which is lost. -/
def lostMove : Store :=
  .ofCode
    [{ opcode := .move, operands := [.var ⟨.gf, "x"⟩, .const (.int 1)] },
     { opcode := .move, operands := [.var ⟨.gf, "x"⟩, .var ⟨.gf, "y"⟩] },
     { opcode := .write, operands := [.var ⟨.gf, "x"⟩] }]

/-- A rule that has one name twice, a place without a name and a name that must differ from another
applies at the first slot. -/
theorem accepted_rules_cannot_fail_lostMove :
    (∀ rule ∈ echoed :: standard, rule.Accepted) ∧ (∀ i ∈ lostMove.code, i.WellFormed) ∧
      (∃ site, overwrittenMove.site? {} lostMove 0 = some site ∧ site.span = [0, 1] ∧
        overwrittenMove.Supplied lostMove site) ∧
      ∃ edit, passOver (echoed :: standard) lostMove {} = some edit ∧ edit.changes = 2 ∧
        ∀ i ∈ edit.store.code, i.WellFormed := by
  have wellFormed : ∀ i ∈ lostMove.code, i.WellFormed := by
    unfold Instruction.WellFormed
    decide +kernel
  obtain ⟨supplied, edit, passed, left⟩ := accepted_rules_cannot_fail accepted_echoed wellFormed {}
  have applies : (overwrittenMove.site? {} lostMove 0).map Site.span = some [0, 1] := by
    decide +kernel
  obtain ⟨site, found, span⟩ := Option.map_eq_some_iff.mp applies
  have changes : (passOver (echoed :: standard) lostMove {}).map StoreEdit.changes = some 2 := by
    decide +kernel
  rw [passed, Option.map_some, Option.some_inj] at changes
  exact ⟨accepted_echoed, wellFormed,
    ⟨site, found, span, supplied overwrittenMove (by simp [standard]) _ _ found⟩, edit, passed,
    changes, left⟩

end Safety

end ThreeAddress.Peephole
