/-
The counts of uses are always those of the program. What is counted is said
here once more, slot by slot and without the tables, and `Usage.Counts` relates
the tables to it: an entry shows both of its counts, and there is no entry where
nothing is counted. Adding an instruction and removing one keep this relation,
whatever the instruction is and wherever it stands, so it holds after every
sequence of edits. A removal never subtracts from zero, because what it
subtracts is part of what was counted.
-/
import ThreeAddress.Usage.Survey
import Mathlib.Algebra.GroupWithZero.Nat
import Mathlib.Algebra.Order.BigOperators.Group.List
import Mathlib.Algebra.Order.Group.Nat
import Mathlib.Data.List.Forall2
import Mathlib.Logic.Relation

namespace ThreeAddress

/-! ### Steps that may fail -/

/-- A computation in two parts that succeeds succeeds in both. -/
theorem exists_ok_of_bind {ε α β : Type} {first : Except ε α} {second : α → Except ε β}
    {result : β} (succeeded : first >>= second = .ok result) :
    ∃ found, first = .ok found ∧ second found = .ok result := by
  cases first with
  | error cause => exact absurd succeeded (by simp [bind, Except.bind])
  | ok found => exact ⟨found, rfl, succeeded⟩

theorem exists_ok_of_isOk {ε α : Type} {outcome : Except ε α} (succeeds : outcome.isOk) :
    ∃ result, outcome = .ok result := by
  cases outcome with
  | error cause => exact absurd succeeds (by simp [Except.isOk, Except.toBool])
  | ok result => exact ⟨result, rfl⟩

/-! ### Tables -/

namespace Table

variable {κ α : Type} [DecidableEq κ]

theorem get?_alter (table : Table κ α) (key other : κ) (change : Option α → Option α) :
    (table.alter key change).get? other =
      if other = key then change (table.get? other) else table.get? other := by
  by_cases same : other = key
  · rw [if_pos same, same, get?_alter_self]
  · rw [if_neg same, get?_alter_of_ne table same]

/-- A run of changes acts at each key through the changes at that key alone. -/
theorem get?_foldl_alter {β : Type} (change : β → Option α → Option α) (edits : List (κ × β))
    (table : Table κ α) (key : κ) :
    (edits.foldl (fun table edit => table.alter edit.1 (change edit.2)) table).get? key =
      (edits.filter fun edit => edit.1 = key).foldl (fun value edit => change edit.2 value)
        (table.get? key) := by
  induction edits generalizing table with
  | nil => rfl
  | cons edit rest inductionHypothesis =>
    rw [List.foldl_cons, inductionHypothesis, get?_alter]
    by_cases same : edit.1 = key
    · rw [List.filter_cons_of_pos (by simpa using same), List.foldl_cons, if_pos same.symm]
    · rw [List.filter_cons_of_neg (by simpa using same), if_neg (Ne.symm same)]

end Table

/-! ### What is counted, slot by slot -/

namespace Instruction

/-- Whether a variable at an index counts as an occurrence. Operand 0 of `MOVE` does not, and no
operand of `DEFVAR` or of a `POPS` that ends an expression does. -/
def isCounted (i : Instruction) (index : Nat) : Bool :=
  i.opcode ≠ .defvar ∧ ¬ (i.opcode = .pops ∧ i.markers.expressionEnd) ∧
    ¬ (i.opcode = .move ∧ index = 0)

/-- The counted slots among operands, the first of which stands at the given index. -/
def slotsFrom (i : Instruction) : Nat → List Operand → List (Nat × Variable)
  | _, [] => []
  | index, operand :: rest =>
    (if i.isCounted index then operand.var?.toList.map fun v => (index, v) else []) ++
      slotsFrom i (index + 1) rest

/-- The slots that count as occurrences. -/
def countedSlots (i : Instruction) : List (Nat × Variable) :=
  i.slotsFrom 0 i.operands

/-- How often a variable occurs in an instruction. -/
def occurrencesOf (i : Instruction) (v : Variable) : Nat :=
  i.countedSlots.countP fun slot => slot.2 = v

/-- How often an instruction reads a variable. -/
def readsOf (i : Instruction) (v : Variable) : Nat :=
  i.countedSlots.countP fun slot => slot.2 = v ∧ ¬ i.isDestination slot.1

theorem readsOf_le (i : Instruction) (v : Variable) : i.readsOf v ≤ i.occurrencesOf v :=
  List.countP_mono_left fun slot _ reads => by simp_all

/-- What is counted is mentioned. -/
theorem mem_vars_of_mem_countedSlots (i : Instruction) {slot : Nat × Variable}
    (counted : slot ∈ i.countedSlots) : slot.2 ∈ i.vars := by
  suffices mentioned : ∀ start operands, slot ∈ i.slotsFrom start operands →
      slot.2 ∈ operands.filterMap Operand.var? from mentioned 0 i.operands counted
  intro start operands
  induction operands generalizing start with
  | nil => simp [slotsFrom]
  | cons operand rest inductionHypothesis =>
    intro member
    rw [List.filterMap_cons]
    rcases List.mem_append.mp member with here | later
    · split at here
      · obtain ⟨v, found, rfl⟩ := List.mem_map.mp here
        rw [Option.mem_toList] at found
        rw [found]
        exact List.mem_cons_self
      · exact absurd here (by simp)
    · have inside := inductionHypothesis (start + 1) later
      cases operand.var? with
      | none => exact inside
      | some v => exact List.mem_cons_of_mem _ inside

theorem slotsFrom_eq_nil (i : Instruction) (uncounted : ∀ index, ¬ i.isCounted index)
    (start : Nat) (operands : List Operand) : i.slotsFrom start operands = [] := by
  induction operands generalizing start with
  | nil => rfl
  | cons operand rest inductionHypothesis =>
    rw [slotsFrom, if_neg (uncounted start), inductionHypothesis, List.append_nil]

/-- Behind the destination, or where there is none, every variable counts and is read. -/
theorem slotsFrom_reads (i : Instruction) (start : Nat) (operands : List Operand)
    (counted : ∀ index, start ≤ index → i.isCounted index ∧ ¬ i.isDestination index) :
    (i.slotsFrom start operands).map (fun slot => (slot.2, !i.isDestination slot.1)) =
      (operands.filterMap Operand.var?).map fun v => (v, true) := by
  induction operands generalizing start with
  | nil => rfl
  | cons operand rest inductionHypothesis =>
    have later := inductionHypothesis (start + 1) fun index above => counted index (by omega)
    have here := counted start (Nat.le_refl _)
    rw [slotsFrom, if_pos here.1, List.map_append, later, List.filterMap_cons]
    cases operand.var? with
    | none => rfl
    | some v => simp [here.2]

/-- The variables that the tables are changed for are the counted slots, in their order. -/
theorem mentions_eq (i : Instruction) :
    i.mentions = i.countedSlots.map fun slot => (slot.2, !i.isDestination slot.1) := by
  unfold mentions countedSlots
  split
  · next uncounted =>
    have none : ∀ index, ¬ i.isCounted index := by
      intro index
      rcases uncounted with defvar | pops
      · simp [isCounted, defvar]
      · simp [isCounted, pops]
    rw [i.slotsFrom_eq_nil none, List.map_nil]
  · next counted =>
    rw [not_or] at counted
    by_cases defines : i.opcode.definesTarget
    · have behind : ∀ index, 1 ≤ index → i.isCounted index ∧ ¬ i.isDestination index := by
        intro index above
        have later : index ≠ 0 := by omega
        simp only [isCounted, isDestination, later, and_false, not_false_eq_true, and_true,
          false_and, decide_false, Bool.false_eq_true, decide_eq_true_eq]
        exact counted
      rw [target?, if_pos defines, reads, sources, if_pos defines]
      cases i.operands with
      | nil => simp [slotsFrom]
      | cons target rest =>
        have destination : i.isDestination 0 := by simp [isDestination, defines]
        rw [slotsFrom, List.map_append, i.slotsFrom_reads 1 rest behind, List.tail_cons,
          List.head?_cons, Option.bind_some]
        congr 1
        by_cases move : i.opcode = .move
        · rw [if_pos move, if_neg (by simp [isCounted, move]), List.map_nil]
        · have first : i.isCounted 0 := by
            simp only [isCounted, move, not_false_eq_true, and_true, decide_eq_true_eq]
            exact counted
          rw [if_neg move, if_pos first, List.map_map]
          simp [destination, Function.comp_def]
    · have everywhere : ∀ index, 0 ≤ index → i.isCounted index ∧ ¬ i.isDestination index := by
        intro index _
        have notMove : i.opcode ≠ .move := fun move => defines (by rw [move]; rfl)
        simp only [isCounted, isDestination, defines, notMove, false_and, not_false_eq_true,
          and_true, and_false, decide_false, Bool.false_eq_true, decide_eq_true_eq]
        exact counted
      rw [i.slotsFrom_reads 0 i.operands everywhere, target?, if_neg defines, reads, sources,
        if_neg defines]
      simp

/-- How many mentions there are of a variable. -/
theorem length_filter_mentions (i : Instruction) (v : Variable) :
    (i.mentions.filter fun mention => mention.1 = v).length = i.occurrencesOf v := by
  rw [← List.countP_eq_length_filter, mentions_eq, List.countP_map]
  rfl

/-- Whatever is mentioned occurs. -/
theorem occurrencesOf_pos {i : Instruction} {mention : Variable × Bool}
    (mentioned : mention ∈ i.mentions) : 0 < i.occurrencesOf mention.1 := by
  rw [← i.length_filter_mentions]
  exact List.length_pos_of_mem (List.mem_filter.mpr ⟨mentioned, decide_eq_true rfl⟩)

/-- How many mentions of a variable are reads. -/
theorem countP_filter_mentions (i : Instruction) (v : Variable) :
    (i.mentions.filter fun mention => mention.1 = v).countP (fun mention => mention.2) =
      i.readsOf v := by
  rw [List.countP_filter, mentions_eq, List.countP_map, readsOf]
  refine List.countP_congr fun slot _ => ?_
  simp [and_comm]

end Instruction

/-! ### What a program counts -/

namespace Usage

/-- The occurrences of a variable in a program. -/
def occurrencesIn (code : List Instruction) (v : Variable) : Nat :=
  (code.map fun i => i.occurrencesOf v).sum

/-- The reads of a variable in a program. -/
def readsIn (code : List Instruction) (v : Variable) : Nat :=
  (code.map fun i => i.readsOf v).sum

/-- The calls of a function in a program. -/
def callsIn (code : List Instruction) (label : String) : Nat :=
  code.countP fun i => calledFunction? i = some label

/-- The marked starts of a function in a program. -/
def startsIn (code : List Instruction) (label : String) : Nat :=
  code.countP fun i => startedFunction? i = some label

/-- The references to a label in a program. -/
def referencesIn (code : List Instruction) (label : String) : Nat :=
  code.countP fun i => i.jumpTarget? = some label

/-- The definitions of a label in a program. -/
def definitionsIn (code : List Instruction) (label : String) : Nat :=
  code.countP fun i => i.definedLabel? = some label

theorem readsIn_le (code : List Instruction) (v : Variable) :
    readsIn code v ≤ occurrencesIn code v :=
  List.sum_le_sum fun i _ => i.readsOf_le v

/-- What an entry with two counts shows; without anything counted there is no entry. -/
def tally (first second : Nat) : Option (Nat × Nat) :=
  if first = 0 ∧ second = 0 then none else some (first, second)

/-- The counts in the entry of a variable: occurrences and reads. -/
def variableCounts (u : Usage) (v : Variable) : Option (Nat × Nat) :=
  (u.vars.get? v).map fun use => (use.occurrences, use.reads)

/-- The counts in the entry of a function: calls and marked starts. -/
def functionCounts (u : Usage) (label : String) : Option (Nat × Nat) :=
  (u.functions.get? label).map fun use => (use.calls, use.definitions)

/-- The counts in the entry of a label: references and definitions. -/
def labelCounts (u : Usage) (label : String) : Option (Nat × Nat) :=
  (u.labels.get? label).map fun use => (use.references, use.definitions)

/-- The entries are those of a program: each shows what the program counts for it, and there is
none where the program counts nothing. -/
structure Counts (u : Usage) (code : List Instruction) : Prop where
  vars : ∀ v, u.variableCounts v = tally (occurrencesIn code v) (readsIn code v)
  functions : ∀ label, u.functionCounts label = tally (callsIn code label) (startsIn code label)
  labels : ∀ label,
    u.labelCounts label = tally (referencesIn code label) (definitionsIn code label)

/-! ### Single entries -/

theorem counts_of_tally {α : Type} {entry : Option α} {counts : α → Nat × Nat}
    {first second : Nat} (default : α) (zero : counts default = (0, 0))
    (shown : entry.map counts = tally first second) :
    counts (entry.getD default) = (first, second) := by
  unfold tally at shown
  cases entry with
  | none =>
    split at shown
    · next both => rw [Option.getD_none, zero, both.1, both.2]
    · exact absurd shown (by simp)
  | some use =>
    split at shown
    · exact absurd shown (by simp)
    · exact Option.some_inj.mp shown

theorem functionUse_adjust {entry : Option FunctionUse} {calls starts : Nat}
    (callStep startStep : Nat → Nat)
    (shown : entry.map (fun use => (use.calls, use.definitions)) = tally calls starts) :
    (FunctionUse.adjust callStep startStep entry).map (fun use => (use.calls, use.definitions)) =
      tally (callStep calls) (startStep starts) := by
  have start := counts_of_tally {} rfl shown
  rw [Prod.mk.injEq] at start
  simp only [FunctionUse.adjust, start, tally]
  split <;> rfl

theorem labelUse_adjust {entry : Option LabelUse} {references definitions : Nat}
    (referenceStep definitionStep : Nat → Nat)
    (shown : entry.map (fun use => (use.references, use.definitions)) =
      tally references definitions) :
    (LabelUse.adjust referenceStep definitionStep entry).map
        (fun use => (use.references, use.definitions)) =
      tally (referenceStep references) (definitionStep definitions) := by
  have start := counts_of_tally {} rfl shown
  rw [Prod.mk.injEq] at start
  simp only [LabelUse.adjust, start, tally]
  split <;> rfl

/-- The entry of a variable goes when its occurrences do, so nothing may be left of its reads. -/
theorem variableUse_adjust {entry : Option VariableUse} {occurrences reads : Nat}
    (step : Nat → Nat) (isRead : Bool)
    (shown : entry.map (fun use => (use.occurrences, use.reads)) = tally occurrences reads)
    (together : step occurrences = 0 → (if isRead then step reads else reads) = 0) :
    (VariableUse.adjust step isRead entry).map (fun use => (use.occurrences, use.reads)) =
      tally (step occurrences) (if isRead then step reads else reads) := by
  have start := counts_of_tally {} rfl shown
  rw [Prod.mk.injEq] at start
  simp only [VariableUse.adjust, start, tally]
  by_cases gone : step occurrences = 0
  · simp [gone, together gone]
  · simp [gone]

/-- Adding mentions of a variable one after the other. -/
theorem variableUse_add (mentions : List (Variable × Bool)) {entry : Option VariableUse}
    {occurrences reads : Nat}
    (shown : entry.map (fun use => (use.occurrences, use.reads)) = tally occurrences reads) :
    (mentions.foldl (fun use mention => VariableUse.adjust (· + 1) mention.2 use) entry).map
        (fun use => (use.occurrences, use.reads)) =
      tally (occurrences + mentions.length) (reads + mentions.countP fun mention => mention.2) := by
  induction mentions generalizing entry occurrences reads with
  | nil => exact shown
  | cons mention rest inductionHypothesis =>
    have next := inductionHypothesis (variableUse_adjust (· + 1) mention.2 shown (by simp))
    rw [List.foldl_cons, next, List.length_cons, List.countP_cons]
    congr 1
    · omega
    · split <;> omega

/-- Removing mentions of a variable one after the other, if they were counted. -/
theorem variableUse_remove (mentions : List (Variable × Bool)) {entry : Option VariableUse}
    {occurrences reads : Nat} (bounded : reads ≤ occurrences)
    (shown : entry.map (fun use => (use.occurrences, use.reads)) =
      tally (occurrences + mentions.length)
        (reads + mentions.countP fun mention => mention.2)) :
    (mentions.foldl (fun use mention => VariableUse.adjust (· - 1) mention.2 use) entry).map
        (fun use => (use.occurrences, use.reads)) = tally occurrences reads := by
  induction mentions generalizing entry with
  | nil => exact shown
  | cons mention rest inductionHypothesis =>
    have most : rest.countP (fun mention => mention.2) ≤ rest.length := List.countP_le_length
    rw [List.length_cons, List.countP_cons] at shown
    refine inductionHypothesis ?_
    have next := variableUse_adjust (· - 1) mention.2 shown (by
      intro gone
      split <;> simp_all)
    rw [next]
    congr 1
    split <;> simp_all

/-! ### Adding and removing an instruction -/

theorem get?_alterAt {α : Type} (table : Table String α) (key : Option String) (other : String)
    (change : Option α → Option α) :
    (alterAt table key change).get? other =
      if key = some other then change (table.get? other) else table.get? other := by
  cases key with
  | none => rfl
  | some key =>
    rw [alterAt, Table.get?_alter]
    simp only [Option.some_inj, eq_comm]

theorem functionCounts_count (step : Nat → Nat) (u : Usage) (i : Instruction) {label : String}
    {calls starts : Nat} (shown : u.functionCounts label = tally calls starts) :
    (u.count step i).functionCounts label =
      tally (if calledFunction? i = some label then step calls else calls)
        (if startedFunction? i = some label then step starts else starts) := by
  simp only [functionCounts, count, get?_alterAt] at shown ⊢
  by_cases called : calledFunction? i = some label <;>
    by_cases started : startedFunction? i = some label
  · simpa [called, started] using functionUse_adjust step id (functionUse_adjust id step shown)
  · simpa [called, started] using functionUse_adjust step id shown
  · simpa [called, started] using functionUse_adjust id step shown
  · simpa [called, started] using shown

theorem labelCounts_count (step : Nat → Nat) (u : Usage) (i : Instruction) {label : String}
    {references definitions : Nat} (shown : u.labelCounts label = tally references definitions) :
    (u.count step i).labelCounts label =
      tally (if i.jumpTarget? = some label then step references else references)
        (if i.definedLabel? = some label then step definitions else definitions) := by
  simp only [labelCounts, count, get?_alterAt] at shown ⊢
  by_cases referred : i.jumpTarget? = some label <;>
    by_cases defined : i.definedLabel? = some label
  · simpa [referred, defined] using labelUse_adjust step id (labelUse_adjust id step shown)
  · simpa [referred, defined] using labelUse_adjust step id shown
  · simpa [referred, defined] using labelUse_adjust id step shown
  · simpa [referred, defined] using shown

theorem occurrencesIn_cons (i : Instruction) (code : List Instruction) (v : Variable) :
    occurrencesIn (i :: code) v = occurrencesIn code v + i.occurrencesOf v := by
  rw [occurrencesIn, List.map_cons, List.sum_cons, Nat.add_comm]
  rfl

theorem occurrencesIn_append (code rest : List Instruction) (v : Variable) :
    occurrencesIn (code ++ rest) v = occurrencesIn code v + occurrencesIn rest v := by
  rw [occurrencesIn, List.map_append, List.sum_append]
  rfl

theorem occurrencesIn_eq_zero_iff {code : List Instruction} {v : Variable} :
    occurrencesIn code v = 0 ↔ ∀ i ∈ code, i.occurrencesOf v = 0 := by
  rw [occurrencesIn, List.sum_eq_zero_iff, List.forall_mem_map]

theorem readsIn_cons (i : Instruction) (code : List Instruction) (v : Variable) :
    readsIn (i :: code) v = readsIn code v + i.readsOf v := by
  rw [readsIn, List.map_cons, List.sum_cons, Nat.add_comm]
  rfl

/-- Counting an instruction that was added. -/
theorem Counts.add {u : Usage} {code : List Instruction} (counts : u.Counts code)
    (i : Instruction) : (u.add i).Counts (i :: code) where
  vars v := by
    rw [variableCounts, Usage.add, count, Table.get?_foldl_alter, variableUse_add _ (counts.vars v),
      i.length_filter_mentions, i.countP_filter_mentions, occurrencesIn_cons, readsIn_cons]
  functions label := by
    rw [Usage.add, functionCounts_count _ _ _ (counts.functions label), callsIn, callsIn, startsIn,
      startsIn, List.countP_cons, List.countP_cons]
    congr 1 <;> split <;> simp_all
  labels label := by
    rw [Usage.add, labelCounts_count _ _ _ (counts.labels label), referencesIn, referencesIn,
      definitionsIn, definitionsIn, List.countP_cons, List.countP_cons]
    congr 1 <;> split <;> simp_all

/-- Counting an instruction that was removed. -/
theorem Counts.remove {u : Usage} {i : Instruction} {code : List Instruction}
    (counts : u.Counts (i :: code)) : (u.remove i).Counts code where
  vars v := by
    have shown := counts.vars v
    rw [occurrencesIn_cons, readsIn_cons, ← i.length_filter_mentions,
      ← i.countP_filter_mentions] at shown
    rw [variableCounts, Usage.remove, count, Table.get?_foldl_alter]
    exact variableUse_remove _ (readsIn_le code v) shown
  functions label := by
    rw [Usage.remove, functionCounts_count _ _ _ (counts.functions label), callsIn, callsIn,
      startsIn, startsIn, List.countP_cons, List.countP_cons]
    congr 1 <;> split <;> simp_all
  labels label := by
    rw [Usage.remove, labelCounts_count _ _ _ (counts.labels label), referencesIn, referencesIn,
      definitionsIn, definitionsIn, List.countP_cons, List.countP_cons]
    congr 1 <;> split <;> simp_all

/-- The order of the instructions does not matter. -/
theorem Counts.perm {u : Usage} {code other : List Instruction} (counts : u.Counts code)
    (same : code.Perm other) : u.Counts other where
  vars v := by
    have occurrences := (same.map fun i => i.occurrencesOf v).sum_eq
    have reads := (same.map fun i => i.readsOf v).sum_eq
    rw [counts.vars, occurrencesIn, readsIn, occurrences, reads]
    rfl
  functions label := by
    rw [counts.functions, callsIn, startsIn, same.countP_eq, same.countP_eq]
    rfl
  labels label := by
    rw [counts.labels, referencesIn, definitionsIn, same.countP_eq, same.countP_eq]
    rfl

/-- Counting a run of instructions that were added. -/
theorem Counts.addAll {u : Usage} {code : List Instruction} (counts : u.Counts code)
    (more : List Instruction) : (more.foldl Usage.add u).Counts (more ++ code) := by
  induction more generalizing u code with
  | nil => exact counts
  | cons i rest inductionHypothesis =>
    exact (inductionHypothesis (counts.add i)).perm List.perm_middle

/-- Counting a run of instructions that were removed. -/
theorem Counts.removeAll {u : Usage} (span : List Instruction) {code : List Instruction}
    (counts : u.Counts (span ++ code)) : (span.foldl Usage.remove u).Counts code := by
  induction span generalizing u with
  | nil => exact counts
  | cons i rest inductionHypothesis => exact inductionHypothesis counts.remove

/-! ### What does not count -/

/-- Whether two instructions agree in everything that is counted. Effects and the start of an
expression are not. -/
structure CountedAlike (i j : Instruction) : Prop where
  opcode : i.opcode = j.opcode
  operands : i.operands = j.operands
  expressionEnd : i.markers.expressionEnd = j.markers.expressionEnd
  functionStart : i.markers.functionStart = j.markers.functionStart

namespace CountedAlike

variable {i j : Instruction}

theorem refl (i : Instruction) : CountedAlike i i :=
  ⟨rfl, rfl, rfl, rfl⟩

theorem mentions (alike : CountedAlike i j) : i.mentions = j.mentions := by
  simp only [Instruction.mentions, Instruction.target?, Instruction.reads, Instruction.sources,
    alike.opcode, alike.operands, alike.expressionEnd]

theorem occurrencesOf (alike : CountedAlike i j) (v : Variable) :
    i.occurrencesOf v = j.occurrencesOf v := by
  rw [← i.length_filter_mentions, ← j.length_filter_mentions, alike.mentions]

theorem readsOf (alike : CountedAlike i j) (v : Variable) : i.readsOf v = j.readsOf v := by
  rw [← i.countP_filter_mentions, ← j.countP_filter_mentions, alike.mentions]

theorem jumpTarget? (alike : CountedAlike i j) : i.jumpTarget? = j.jumpTarget? := by
  rw [Instruction.jumpTarget?, alike.opcode, alike.operands, Instruction.jumpTarget?]

theorem definedLabel? (alike : CountedAlike i j) : i.definedLabel? = j.definedLabel? := by
  rw [Instruction.definedLabel?, alike.opcode, alike.operands, Instruction.definedLabel?]

theorem calledFunction? (alike : CountedAlike i j) :
    Usage.calledFunction? i = Usage.calledFunction? j := by
  rw [Usage.calledFunction?, alike.opcode, alike.jumpTarget?, Usage.calledFunction?]

theorem startedFunction? (alike : CountedAlike i j) :
    Usage.startedFunction? i = Usage.startedFunction? j := by
  rw [Usage.startedFunction?, alike.functionStart, alike.definedLabel?, Usage.startedFunction?]

end CountedAlike

theorem map_eq_of_alike {α : Type} {view : Instruction → α}
    (same : ∀ i j, CountedAlike i j → view i = view j) {code other : List Instruction}
    (alike : List.Forall₂ CountedAlike code other) : code.map view = other.map view := by
  induction alike with
  | nil => rfl
  | cons head _ inductionHypothesis =>
    rw [List.map_cons, List.map_cons, same _ _ head, inductionHypothesis]

theorem countP_eq_of_alike {view : Instruction → Option String}
    (same : ∀ i j, CountedAlike i j → view i = view j) {code other : List Instruction}
    (alike : List.Forall₂ CountedAlike code other) (label : String) :
    code.countP (fun i => view i = some label) = other.countP fun i => view i = some label := by
  have mapped := congrArg (List.countP fun found => found = some label) (map_eq_of_alike same alike)
  rwa [List.countP_map, List.countP_map] at mapped

/-- Programs that agree in everything that is counted have the same counts. -/
theorem Counts.of_alike {u : Usage} {code other : List Instruction} (counts : u.Counts code)
    (alike : List.Forall₂ CountedAlike code other) : u.Counts other where
  vars v := by
    rw [counts.vars, occurrencesIn, readsIn,
      map_eq_of_alike (fun _ _ alike => alike.occurrencesOf v) alike,
      map_eq_of_alike (fun _ _ alike => alike.readsOf v) alike]
    rfl
  functions label := by
    rw [counts.functions, callsIn, startsIn,
      countP_eq_of_alike (fun _ _ alike => alike.calledFunction?) alike,
      countP_eq_of_alike (fun _ _ alike => alike.startedFunction?) alike]
    rfl
  labels label := by
    rw [counts.labels, referencesIn, definitionsIn,
      countP_eq_of_alike (fun _ _ alike => alike.jumpTarget?) alike,
      countP_eq_of_alike (fun _ _ alike => alike.definedLabel?) alike]
    rfl

/-! ### Counting a whole program -/

/-- An entry that is there keeps its counts when its effects change. -/
theorem Counts.withEffects {u : Usage} {code : List Instruction} (counts : u.Counts code)
    {v : Variable} (counted : 0 < occurrencesIn code v) (effects : Effects → Effects) :
    ({ u with
        vars := u.vars.alter v fun use =>
          let use := use.getD {}
          some { use with effects := effects use.effects } } : Usage).Counts code where
  vars other := by
    rw [← counts.vars other, variableCounts, Table.get?_alter]
    split
    · next same =>
      subst same
      have shown := counts.vars other
      rw [variableCounts, tally, if_neg (by omega)] at shown
      cases entry : u.vars.get? other with
      | none => rw [entry] at shown; exact absurd shown (by simp)
      | some use => simp [variableCounts, entry]
    · rfl
  functions := counts.functions
  labels := counts.labels

/-- The same for functions. -/
theorem Counts.withFunctionEffects {u : Usage} {code : List Instruction} (counts : u.Counts code)
    {label : String} (counted : 0 < startsIn code label) (effects : Effects → Effects) :
    ({ u with
        functions := u.functions.alter label fun use =>
          let use := use.getD {}
          some { use with effects := effects use.effects } } : Usage).Counts code where
  vars := counts.vars
  functions other := by
    rw [← counts.functions other, functionCounts, Table.get?_alter]
    split
    · next same =>
      subst same
      have shown := counts.functions other
      rw [functionCounts, tally, if_neg (by omega)] at shown
      cases entry : u.functions.get? other with
      | none => rw [entry] at shown; exact absurd shown (by simp)
      | some use => simp [functionCounts, entry]
    · rfl
  labels := counts.labels

/-- The destination of `READ` is counted. -/
theorem occurrencesOf_read {i : Instruction} {v : Variable} (read : i.opcode = .read)
    (target : i.target? = some v) : 0 < i.occurrencesOf v := by
  have mentioned : (v, false) ∈ i.mentions := by simp [Instruction.mentions, read, target]
  exact Instruction.occurrencesOf_pos mentioned

/-- What holds while a program is surveyed: the uses are those of the instructions so far, and the
functions that effects are noted for have a marked start among these. -/
structure Surveying (s : Survey) (code : List Instruction) : Prop where
  counts : s.usage.Counts code
  function : ∀ label, s.function = some label → 0 < startsIn code label
  callers : ∀ call ∈ s.calls, 0 < startsIn code call.1

theorem startsIn_cons_pos {i : Instruction} {code : List Instruction} {label : String}
    (positive : 0 < startsIn code label) : 0 < startsIn (i :: code) label := by
  unfold startsIn at positive ⊢
  rw [List.countP_cons]
  omega

theorem startsIn_cons_of_started {i : Instruction} {code : List Instruction} {label : String}
    (started : startedFunction? i = some label) : 0 < startsIn (i :: code) label := by
  unfold startsIn
  rw [List.countP_cons_of_pos (by simpa using started)]
  omega

/-- The function around an instruction has a marked start at the instruction or before it. -/
theorem Surveying.enterFunction {s : Survey} {code : List Instruction} (now : Surveying s code)
    {position : Nat} {i : Instruction} {function : Option String}
    (entered : s.enterFunction position i = .ok function) (label : String)
    (here : function = some label) : 0 < startsIn (i :: code) label := by
  unfold Survey.enterFunction at entered
  split at entered
  · next marked =>
    cases defined : i.definedLabel? with
    | none => rw [defined] at entered; exact absurd entered (by simp)
    | some found =>
      rw [defined] at entered
      refine startsIn_cons_of_started ?_
      rw [startedFunction?, if_pos marked, defined, ← here]
      exact Except.ok.inj entered
  · have same : s.function = function := Except.ok.inj entered
    exact startsIn_cons_pos (now.function label (same.trans here))

theorem Counts.countUses {u : Usage} {code : List Instruction} (counts : u.Counts code)
    {function : Option String} {i : Instruction}
    (marked : ∀ label, function = some label → 0 < startsIn (i :: code) label) :
    (Survey.countUses u function i).Counts (i :: code) := by
  have added := counts.add i
  -- a destination of `READ` and a function around the instruction have entries to note effects in
  have destination : ∀ v, i.opcode = .read → i.target? = some v →
      0 < occurrencesIn (i :: code) v := by
    intro v read target
    rw [occurrencesIn_cons]
    exact Nat.lt_of_lt_of_le (occurrencesOf_read read target) (Nat.le_add_left _ _)
  have noted := fun v read target => added.withEffects (destination v read target)
    fun effects => effects.union { input := true }
  unfold Survey.countUses
  cases function with
  | none =>
    dsimp only
    split
    · next v read target => exact noted v read target
    · exact added
  | some label =>
    have started := marked label rfl
    dsimp only
    split
    · next v read target =>
      exact (noted v read target).withFunctionEffects started fun effects =>
        effects.union i.ownEffects
    · exact added.withFunctionEffects started fun effects => effects.union i.ownEffects

theorem Surveying.scanOne {s next : Survey} {code : List Instruction} (now : Surveying s code)
    {position : Nat} {i : Instruction} (scanned : s.scanOne position i = .ok next) :
    Surveying next (i :: code) := by
  obtain ⟨function, entered, result⟩ := exists_ok_of_bind scanned
  obtain rfl := Except.ok.inj result
  have marked := now.enterFunction entered
  refine ⟨now.counts.countUses marked, fun label inside => ?_, fun call member => ?_⟩
  · dsimp only at inside
    split at inside
    · exact absurd inside (by simp)
    · exact marked label inside
  · dsimp only at member
    split at member
    · next _ _ caller callee called =>
      rcases List.mem_append.mp member with old | new
      · exact startsIn_cons_pos (now.callers call old)
      · obtain rfl := List.mem_singleton.mp new
        exact marked caller rfl
    · exact startsIn_cons_pos (now.callers call member)

theorem Surveying.scan {s final : Survey} {done code : List Instruction} (now : Surveying s done)
    {position : Nat} (scanned : Survey.scan position code s = .ok final) :
    Surveying final (code.reverse ++ done) := by
  induction code generalizing s done position with
  | nil =>
    obtain rfl := Except.ok.inj scanned
    exact now
  | cons i rest inductionHypothesis =>
    obtain ⟨next, one, others⟩ := exists_ok_of_bind scanned
    have whole := inductionHypothesis (now.scanOne one) others
    rwa [List.reverse_cons, List.append_assoc]

/-- Whether two tables of functions have the same entries with the same counts. -/
def SameFunctionCounts (functions others : Table String FunctionUse) : Prop :=
  ∀ label, (functions.get? label).map (fun use => (use.calls, use.definitions)) =
    (others.get? label).map fun use => (use.calls, use.definitions)

theorem SameFunctionCounts.isSome {functions others : Table String FunctionUse}
    (same : SameFunctionCounts functions others) (label : String) :
    (functions.get? label).isSome = (others.get? label).isSome := by
  have views := congrArg Option.isSome (same label)
  rwa [Option.isSome_map, Option.isSome_map] at views

/-- Giving callers the effects of their callees leaves the counts alone, as every caller has an
entry. -/
theorem sameFunctionCounts_spreadOnce (calls : List (String × String))
    (functions : Table String FunctionUse)
    (known : ∀ call ∈ calls, (functions.get? call.1).isSome) :
    SameFunctionCounts (Survey.spreadOnce calls functions).1 functions := by
  induction calls generalizing functions with
  | nil => exact fun _ => rfl
  | cons call rest inductionHypothesis =>
    obtain ⟨caller, callee⟩ := call
    have later : ∀ call ∈ rest, (functions.get? call.1).isSome :=
      fun call member => known call (List.mem_cons_of_mem _ member)
    unfold Survey.spreadOnce
    dsimp only
    split
    · exact inductionHypothesis functions later
    · obtain ⟨use, entry⟩ := Option.isSome_iff_exists.mp (known _ List.mem_cons_self)
      dsimp only at entry ⊢
      rw [entry, Option.getD_some]
      have stored : ∀ effects, SameFunctionCounts
          (functions.put caller { use with effects }) functions := by
        intro effects label
        rw [Table.put, Table.get?_alter]
        split
        · next same => rw [same, entry]; rfl
        · rfl
      have rests := fun effects => inductionHypothesis (functions.put caller { use with effects })
        fun call member => by
          rw [(stored effects).isSome]
          exact later call member
      exact fun label => (rests _ label).trans (stored _ label)

theorem sameFunctionCounts_spread (calls : List (String × String)) (rounds : Nat)
    (functions : Table String FunctionUse)
    (known : ∀ call ∈ calls, (functions.get? call.1).isSome) :
    SameFunctionCounts (Survey.spread calls rounds functions) functions := by
  induction rounds generalizing functions with
  | zero => exact fun _ => rfl
  | succ rounds inductionHypothesis =>
    have once := sameFunctionCounts_spreadOnce calls functions known
    unfold Survey.spread
    split
    · next spreaded changed =>
      rw [changed] at once
      have rest := inductionHypothesis spreaded fun call member => by
        rw [once.isSome]
        exact known call member
      exact fun label => (rest label).trans (once label)
    · next spreaded unchanged =>
      rw [unchanged] at once
      exact once

theorem alike_markEffects (s : Survey) (functions : Table String FunctionUse)
    (code : List Instruction) : List.Forall₂ CountedAlike code (s.markEffects functions code) := by
  refine List.forall₂_iff_get.mpr ⟨by simp [Survey.markEffects], fun index bound other => ?_⟩
  simp only [Survey.markEffects, List.get_eq_getElem, List.getElem_mapIdx]
  split <;> exact ⟨rfl, rfl, rfl, rfl⟩

/-- A survey that succeeds gives the program back with the effects of its expressions. -/
theorem exists_markEffects_of_survey {code marked : List Instruction} {usage : Usage}
    (surveyed : survey code = .ok (usage, marked)) :
    ∃ found, Survey.scan 0 code {} = .ok found ∧
      usage = { found.usage with functions := found.closedFunctions } ∧
      marked = found.markEffects found.closedFunctions code := by
  obtain ⟨found, scanned, done⟩ := exists_ok_of_bind surveyed
  have result := Prod.mk.inj (Except.ok.inj done)
  exact ⟨found, scanned, result.1.symm, result.2.symm⟩

theorem alike_survey {code marked : List Instruction} {usage : Usage}
    (surveyed : survey code = .ok (usage, marked)) : List.Forall₂ CountedAlike code marked := by
  obtain ⟨found, -, -, rfl⟩ := exists_markEffects_of_survey surveyed
  exact alike_markEffects _ _ _

/-- What is called or has a marked start has an entry, and nothing else has. -/
theorem Counts.isSome_function_iff {u : Usage} {code : List Instruction} (counts : u.Counts code)
    {label : String} : (u.functions.get? label).isSome ↔
      0 < callsIn code label ∨ 0 < startsIn code label := by
  have shown := congrArg Option.isSome (counts.functions label)
  rw [functionCounts, Option.isSome_map] at shown
  rw [shown, tally]
  split
  · next none => simp [none]
  · next some => exact iff_of_true rfl (by omega)

theorem Counts.isSome_function {u : Usage} {code : List Instruction} (counts : u.Counts code)
    {label : String} (counted : 0 < callsIn code label ∨ 0 < startsIn code label) :
    (u.functions.get? label).isSome :=
  counts.isSome_function_iff.mpr counted

theorem surveying_scan {code : List Instruction} {found : Survey}
    (scanned : Survey.scan 0 code {} = .ok found) : Surveying found code.reverse := by
  have start : Surveying {} [] :=
    ⟨⟨fun _ => rfl, fun _ => rfl, fun _ => rfl⟩, fun _ inside => absurd inside (by simp), by simp⟩
  simpa only [List.append_nil] using start.scan scanned

/-- A survey counts the program that it was given. -/
theorem counts_survey {code marked : List Instruction} {usage : Usage}
    (surveyed : survey code = .ok (usage, marked)) : usage.Counts code ∧ usage.Counts marked := by
  obtain ⟨found, scanned, rfl, rfl⟩ := exists_markEffects_of_survey surveyed
  have final := surveying_scan scanned
  have counts : found.usage.Counts code := final.counts.perm code.reverse_perm
  have known : ∀ call ∈ found.calls, (found.usage.functions.get? call.1).isSome :=
    fun call member => final.counts.isSome_function (Or.inr (final.callers call member))
  have closed : ({ found.usage with functions := found.closedFunctions } : Usage).Counts code :=
    ⟨counts.vars, fun label =>
      (sameFunctionCounts_spread _ _ _ known label).trans (counts.functions label), counts.labels⟩
  exact ⟨closed, closed.of_alike (alike_markEffects _ _ _)⟩

/-! ### Sequences of edits -/

/-- One edit of a program together with the update of the counts that goes with it. -/
inductive Edited : List Instruction × Usage → List Instruction × Usage → Prop
  /-- An instruction is removed, and then counted as removed. -/
  | remove (before : List Instruction) (i : Instruction) (after : List Instruction) (u : Usage) :
    Edited (before ++ i :: after, u) (before ++ after, u.remove i)
  /-- An instruction is added anywhere, and counted as added. -/
  | add (before : List Instruction) (i : Instruction) (after : List Instruction) (u : Usage) :
    Edited (before ++ after, u) (before ++ i :: after, u.add i)
  /-- An operand is replaced while the instruction is counted as removed. -/
  | replace (before : List Instruction) (i : Instruction) (after : List Instruction) (u : Usage)
    (index : Nat) (operand old : Operand) (changed : Instruction)
    (replaced : i.replaceOperand? index operand = some (old, changed)) :
    Edited (before ++ i :: after, u) (before ++ changed :: after, (u.remove i).add changed)

/-- One edit keeps the counts those of the program. -/
theorem Counts.edited {program next : List Instruction × Usage}
    (counts : program.2.Counts program.1) (edit : Edited program next) :
    next.2.Counts next.1 := by
  cases edit with
  | remove before i after u => exact (counts.perm List.perm_middle).remove
  | add before i after u => exact (counts.add i).perm List.perm_middle.symm
  | replace before i after u index operand old changed replaced =>
    exact ((counts.perm List.perm_middle).remove.add changed).perm List.perm_middle.symm

/-- Every count that is lowered when an instruction is removed is at least what is taken off. -/
structure Covers (u : Usage) (i : Instruction) : Prop where
  occurrences : ∀ v, i.occurrencesOf v ≤ u.occurrences v
  reads : ∀ v, i.readsOf v ≤ u.reads v
  calls : ∀ label, calledFunction? i = some label → 0 < u.calls label
  starts : ∀ label, startedFunction? i = some label →
    0 < ((u.functions.get? label).map FunctionUse.definitions).getD 0
  references : ∀ label, i.jumpTarget? = some label → 0 < u.references label
  definitions : ∀ label, i.definedLabel? = some label → u.isDefined label

section Accessors

variable {u : Usage} {code : List Instruction}

theorem Counts.occurrences (counts : u.Counts code) (v : Variable) :
    u.occurrences v = occurrencesIn code v := by
  have shown := counts_of_tally {} rfl (counts.vars v)
  rw [Usage.occurrences, ← (Prod.mk.inj shown).1]
  cases u.vars.get? v <;> rfl

theorem Counts.reads (counts : u.Counts code) (v : Variable) : u.reads v = readsIn code v := by
  have shown := counts_of_tally {} rfl (counts.vars v)
  rw [Usage.reads, ← (Prod.mk.inj shown).2]
  cases u.vars.get? v <;> rfl

theorem Counts.calls (counts : u.Counts code) (label : String) :
    u.calls label = callsIn code label := by
  have shown := counts_of_tally {} rfl (counts.functions label)
  rw [Usage.calls, ← (Prod.mk.inj shown).1]
  cases u.functions.get? label <;> rfl

theorem Counts.starts (counts : u.Counts code) (label : String) :
    ((u.functions.get? label).map FunctionUse.definitions).getD 0 = startsIn code label := by
  have shown := counts_of_tally {} rfl (counts.functions label)
  rw [← (Prod.mk.inj shown).2]
  cases u.functions.get? label <;> rfl

theorem Counts.references (counts : u.Counts code) (label : String) :
    u.references label = referencesIn code label := by
  have shown := counts_of_tally {} rfl (counts.labels label)
  rw [Usage.references, ← (Prod.mk.inj shown).1]
  cases u.labels.get? label <;> rfl

theorem Counts.isDefined (counts : u.Counts code) (label : String) :
    u.isDefined label ↔ 0 < definitionsIn code label := by
  have shown := counts_of_tally {} rfl (counts.labels label)
  rw [Usage.isDefined, ← (Prod.mk.inj shown).2]
  cases u.labels.get? label <;> simp

end Accessors

/-- What an instruction of the program counts for is part of the counts. -/
theorem Counts.covers {u : Usage} {code : List Instruction} (counts : u.Counts code)
    {i : Instruction} (member : i ∈ code) : u.Covers i where
  occurrences v := by
    rw [counts.occurrences]
    exact List.single_le_sum (by simp) _ (List.mem_map_of_mem member)
  reads v := by
    rw [counts.reads]
    exact List.single_le_sum (by simp) _ (List.mem_map_of_mem member)
  calls label called := by
    rw [counts.calls]
    exact List.countP_pos_iff.mpr ⟨i, member, by simpa using called⟩
  starts label started := by
    rw [counts.starts]
    exact List.countP_pos_iff.mpr ⟨i, member, by simpa using started⟩
  references label referred := by
    rw [counts.references]
    exact List.countP_pos_iff.mpr ⟨i, member, by simpa using referred⟩
  definitions label defined := by
    rw [counts.isDefined]
    exact List.countP_pos_iff.mpr ⟨i, member, by simpa using defined⟩

/-- Whether two usages have the same entries with the same counts, effects apart. -/
structure SameCounts (u other : Usage) : Prop where
  vars : ∀ v, u.variableCounts v = other.variableCounts v
  functions : ∀ label, u.functionCounts label = other.functionCounts label
  labels : ∀ label, u.labelCounts label = other.labelCounts label

/-- After every sequence of edits that starts from a survey, the entries are those of the program
and those that another survey would give, and no removal that may come next subtracts from zero. -/
theorem edits_follow_survey {code marked : List Instruction} {usage : Usage}
    (surveyed : survey code = .ok (usage, marked)) {edited : List Instruction} {followed : Usage}
    (edits : Relation.ReflTransGen Edited (marked, usage) (edited, followed)) :
    followed.Counts edited ∧ (∀ i ∈ edited, followed.Covers i) ∧
      ∀ again remarked, survey edited = .ok (again, remarked) → followed.SameCounts again := by
  have counts : followed.Counts edited := by
    suffices run : ∀ program, Relation.ReflTransGen Edited (marked, usage) program →
        program.2.Counts program.1 from run _ edits
    intro program run
    induction run with
    | refl => exact (counts_survey surveyed).2
    | tail _ edit inductionHypothesis => exact inductionHypothesis.edited edit
  refine ⟨counts, fun i member => counts.covers member, fun again remarked resurveyed => ?_⟩
  have fresh := (counts_survey resurveyed).1
  exact ⟨fun v => (counts.vars v).trans (fresh.vars v).symm,
    fun label => (counts.functions label).trans (fresh.functions label).symm,
    fun label => (counts.labels label).trans (fresh.labels label).symm⟩

/-- A label that is the start of a function. -/
def functionLabel : Instruction :=
  { opcode := .label, operands := [.label "f"], markers := { functionStart := true } }

/-- An instruction that mentions one variable three times. -/
def doubling : Instruction :=
  { opcode := .add, operands := [.var ⟨.gf, "n"⟩, .var ⟨.gf, "n"⟩, .var ⟨.gf, "n"⟩] }

/-- The same instruction with a literal in place of the last mention. -/
def increment : Instruction :=
  { doubling with operands := [.var ⟨.gf, "n"⟩, .var ⟨.gf, "n"⟩, .const (.int 1)] }

/-- A call of the function. -/
def functionCall : Instruction :=
  { opcode := .call, operands := [.label "f"] }

/-- In a function that calls itself, the three mentions of a variable lose one read, then the start
of the function goes, and then there is a second call. -/
theorem edits_follow_survey_recursion :
    ∃ usage marked edited followed,
      survey [functionLabel, doubling, functionCall] = .ok (usage, marked) ∧
      Relation.ReflTransGen Edited (marked, usage) (edited, followed) ∧
      (followed.variableCounts ⟨.gf, "n"⟩, followed.functionCounts "f", followed.labelCounts "f") =
        (some (2, 1), some (2, 0), some (2, 0)) ∧
      followed.Counts edited ∧ (∀ i ∈ edited, followed.Covers i) ∧
      ∀ again remarked, survey edited = .ok (again, remarked) → followed.SameCounts again := by
  have edits (usage : Usage) : Relation.ReflTransGen Edited
      ([functionLabel, doubling, functionCall], usage)
      ([increment, functionCall, functionCall],
        (((usage.remove doubling).add increment).remove functionLabel).add functionCall) := by
    refine Relation.ReflTransGen.tail (Relation.ReflTransGen.tail (Relation.ReflTransGen.single ?_)
      (Edited.remove [] functionLabel [increment, functionCall] _))
      (Edited.add [increment, functionCall] functionCall [] _)
    exact Edited.replace [functionLabel] doubling [functionCall] usage 2 (.const (.int 1))
      (.var ⟨.gf, "n"⟩) increment rfl
  obtain ⟨usage, surveyed⟩ : ∃ usage, survey [functionLabel, doubling, functionCall] =
      .ok (usage, [functionLabel, doubling, functionCall]) := ⟨_, rfl⟩
  have result := edits_follow_survey surveyed (edits usage)
  refine ⟨usage, _, _, _, surveyed, edits usage, ?_, result⟩
  rw [result.1.vars, result.1.functions, result.1.labels]
  rfl

end Usage

end ThreeAddress
