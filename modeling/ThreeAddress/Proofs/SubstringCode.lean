/-
The code for a substring computes it. Its five scratch variables hold, in this
order, the string, an index into it, the length and later the index where to stop,
a limit that is by turns a truth value, a number and the string built so far, and
one character. The proof follows the code from label to label: what is tested
before the loop, the loop by induction on the characters that are still to come,
and the two ways to the end.

The code is run alone first and then inside any program that does not define its
labels before it.
-/
import ThreeAddress.Proofs.Construction
import ThreeAddress.Proofs.StackMachine

namespace ThreeAddress.Builder

open Machine

/-- The characters of a string from a position on, counting from one: as many as the length says,
or all of them if it is negative or larger than what is left. -/
def slice (text : String) (start length : Int) : String :=
  if start < 1 ∨ text.length < start then ""
  else
    let rest := text.toList.drop (start - 1).toNat
    String.ofList (if length < 0 ∨ rest.length < length then rest else rest.take length.toNat)

/-- How many characters the loop takes, or a negative number if the start is too far behind the
string. -/
def taken (text : String) (start length : Int) : Int :=
  if length < 0 ∨ text.length - (start - 1) < length then text.length - (start - 1) else length

/-- The labels inside the code for a substring, in the order in which they are made. -/
def SubstringLabels.toList (labels : SubstringLabels) : List String :=
  [labels.goOn, labels.loop, labels.leave, labels.empty, labels.last]

/-- The code for a substring of values that need no conversion, as it is appended. -/
def substringProgram (pending : Markers) (labels : SubstringLabels) : List Instruction :=
  marked pending (substringCode .string .int .int labels)

section Running

variable {World : Type} {others : Machine Datum World} {memory : Memory Datum World}
  {calls : List Nat} {pad : Pad} {stack : List Datum} {pending : Markers}
  {labels : SubstringLabels} {text : String} {start length index stop : Int} {limit spare : Datum}

theorem placeOf?_substringProgram (distinct : labels.toList.Nodup) {k : Nat} {label : String}
    (here : (substringProgram pending labels)[k]? = some (op .label [.label label])) :
    placeOf? (substringProgram pending labels) label = some k :=
  placeOf?_of_getElem? (show DistinctLabels (substringProgram pending labels) from distinct) here
    rfl

/-- The three arguments are taken from the stack, and the start is compared with one. -/
theorem reaches_test :
    (exact others).Reaches (substringProgram pending labels)
      ⟨0, calls, memory.noted pad (.int length :: .int start :: .string text :: stack)⟩
      ⟨4, calls, memory.noted
        ⟨.string text, .int start, .int length, .bool (start < 1), pad.fifth⟩ stack⟩ := by
  refine reaches_line 0 4 (Nat.le_add_right 4 35) ?_
  simp (disch := decide) [substringProgram, substringCode, conversionCode, conversion?, marked, op,
    number]

/-- A test of the limit that leads to the empty string. -/
theorem reaches_end_of_test (distinct : labels.toList.Nodup) {k : Nat} {c : Constant}
    (here : (substringProgram pending labels)[k]? =
      some (op .jumpifeq [.label labels.empty, scratch 4, .const c]))
    (same : pad.fourth.same? c.datum = some true) :
    (exact others).Reaches (substringProgram pending labels)
      ⟨k, calls, memory.noted pad stack⟩
      ⟨39, calls, memory.noted pad (.string "" :: stack)⟩ := by
  have jumps : (exact others).execute?
      (op .jumpifeq [.label labels.empty, scratch 4, .const c]) (memory.noted pad stack) =
        some (.goto labels.empty, memory.noted pad stack) := by
    rw [op, execute?_jumpifeq, value_scratch (by decide), value_exact_const]
    show (pad.fourth.same? c.datum).map _ = _
    rw [same]
    rfl
  have empty : (exact others).Reaches (substringProgram pending labels)
      ⟨36, calls, memory.noted pad stack⟩
      ⟨39, calls, memory.noted pad (.string "" :: stack)⟩ :=
    reaches_line 36 3 (Nat.le_refl 39) rfl
  exact (reaches_jump here jumps (placeOf?_substringProgram distinct rfl)).trans empty

/-- A start that is not before the string. -/
theorem reaches_length :
    (exact others).Reaches (substringProgram pending labels)
      ⟨4, calls, memory.noted ⟨.string text, .int start, .int length, .bool false, spare⟩ stack⟩
      ⟨6, calls, memory.noted
        ⟨.string text, .int start, .int length, .int text.length, spare⟩ stack⟩ := by
  refine reaches_line 4 2 (Nat.le_add_right 6 33) ?_
  simp (disch := decide) [substringProgram, substringCode, conversionCode, conversion?, marked, op,
    truth]

/-- The number of characters from the start on is computed and compared with the length. -/
theorem reaches_choice {size : Int} (nonempty : size ≠ 0) :
    (exact others).Reaches (substringProgram pending labels)
      ⟨6, calls, memory.noted ⟨.string text, .int start, .int length, .int size, spare⟩ stack⟩
      ⟨17, calls, memory.noted
        ⟨.string text, .int (start - 1), .int length, .int (size - (start - 1)), spare⟩
        (.bool false :: .bool (length < 0 ∨ size - (start - 1) < length) :: stack)⟩ := by
  refine reaches_line 6 11 (Nat.le_add_right 17 22) ?_
  simp (disch := decide) [substringProgram, substringCode, conversionCode, conversion?, marked, op,
    number, truth, nonempty]

theorem reaches_goOn (distinct : labels.toList.Nodup) {rest : Int} {tooLong : Bool} :
    (exact others).Reaches (substringProgram pending labels)
      ⟨17, calls, memory.noted ⟨.string text, .int index, .int length, .int rest, spare⟩
        (.bool false :: .bool tooLong :: stack)⟩
      ⟨19, calls, memory.noted
        ⟨.string text, .int index, .int (if tooLong then rest else length), .int rest, spare⟩
        stack⟩ := by
  cases tooLong with
  | true =>
    refine reaches_line 17 2 (Nat.le_add_right 19 20) ?_
    simp (disch := decide) [substringProgram, substringCode, conversionCode, conversion?, marked,
      op]
  | false =>
    refine reaches_jump rfl ?_ (placeOf?_substringProgram distinct (k := 19) rfl)
    simp (disch := decide) [op]

/-- The index where to stop is computed and compared with the one to start from. -/
theorem reaches_bound :
    (exact others).Reaches (substringProgram pending labels)
      ⟨19, calls, memory.noted ⟨.string text, .int index, .int length, limit, spare⟩ stack⟩
      ⟨22, calls, memory.noted ⟨.string text, .int index, .int (length + index),
        .bool (length + index < index), spare⟩ stack⟩ := by
  refine reaches_line 19 3 (Nat.le_add_right 22 17) ?_
  simp (disch := decide) [substringProgram, substringCode, conversionCode, conversion?, marked, op]

/-- What is tested before the loop. -/
theorem reaches_bounded (distinct : labels.toList.Nodup) (nonempty : text.length ≠ 0) :
    (exact others).Reaches (substringProgram pending labels)
      ⟨6, calls, memory.noted
        ⟨.string text, .int start, .int length, .int text.length, spare⟩ stack⟩
      ⟨22, calls, memory.noted ⟨.string text, .int (start - 1),
        .int (taken text start length + (start - 1)), .bool (taken text start length < 0), spare⟩
        stack⟩ := by
  have size : (text.length : Int) ≠ 0 := by omega
  have count : (if decide (length < 0 ∨ text.length - (start - 1) < length) then
      text.length - (start - 1) else length) = taken text start length := by
    simp only [decide_eq_true_eq, taken]
  have negative : decide (taken text start length + (start - 1) < start - 1) =
      decide (taken text start length < 0) := decide_eq_decide.mpr (by omega)
  rw [← negative, ← count]
  exact ((reaches_choice size).trans (reaches_goOn distinct)).trans reaches_bound

theorem reaches_loop :
    (exact others).Reaches (substringProgram pending labels)
      ⟨22, calls, memory.noted ⟨.string text, .int index, .int stop, .bool false, spare⟩ stack⟩
      ⟨24, calls, memory.noted
        ⟨.string text, .int index, .int stop, .string "", spare⟩ stack⟩ := by
  refine reaches_line 22 2 (Nat.le_add_right 24 15) ?_
  simp (disch := decide) [substringProgram, substringCode, conversionCode, conversion?, marked, op,
    truth, literal]

/-- One round of the loop takes one character. -/
theorem reaches_round (distinct : labels.toList.Nodup) {k : Nat} {c : Char} {found : String}
    (there : text.toList[k]? = some c) (before : (k : Int) ≠ stop) :
    (exact others).Reaches (substringProgram pending labels)
      ⟨24, calls, memory.noted ⟨.string text, .int k, .int stop, .string found, spare⟩ stack⟩
      ⟨24, calls, memory.noted ⟨.string text, .int (k + 1), .int stop,
        .string (found ++ String.singleton c), .string (String.singleton c)⟩ stack⟩ := by
  have round : (exact others).Reaches (substringProgram pending labels)
      ⟨24, calls, memory.noted ⟨.string text, .int k, .int stop, .string found, spare⟩ stack⟩
      ⟨32, calls, memory.noted ⟨.string text, .int (k + 1), .int stop,
        .string (found ++ String.singleton c), .string (String.singleton c)⟩ stack⟩ := by
    refine reaches_line 24 8 (Nat.le_add_right 32 7) ?_
    simp (disch := decide) [substringProgram, substringCode, conversionCode, conversion?, marked,
      op, number, there, before]
  exact round.trans
    (reaches_jump rfl (execute?_jump _) (placeOf?_substringProgram distinct (k := 24) rfl))

/-- The loop takes the characters up to the index where to stop. -/
theorem reaches_leave (distinct : labels.toList.Nodup) {count k : Nat} {found : String}
    (inside : k + count ≤ text.length) :
    ∃ last, (exact others).Reaches (substringProgram pending labels)
      ⟨24, calls, memory.noted
        ⟨.string text, .int k, .int (k + count : Nat), .string found, spare⟩ stack⟩
      ⟨33, calls, memory.noted ⟨.string text, .int (k + count : Nat), .int (k + count : Nat),
        .string (found ++ String.ofList ((text.toList.drop k).take count)), last⟩ stack⟩ := by
  induction count generalizing k found spare with
  | zero =>
    refine ⟨spare, ?_⟩
    have entered : (exact others).Reaches (substringProgram pending labels)
        ⟨24, calls, memory.noted ⟨.string text, .int k, .int k, .string found, spare⟩ stack⟩
        ⟨25, calls, memory.noted ⟨.string text, .int k, .int k, .string found, spare⟩ stack⟩ :=
      reaches_line 24 1 (Nat.le_add_right 25 14) rfl
    have jumped : (exact others).Reaches (substringProgram pending labels)
        ⟨25, calls, memory.noted ⟨.string text, .int k, .int k, .string found, spare⟩ stack⟩
        ⟨33, calls, memory.noted ⟨.string text, .int k, .int k, .string found, spare⟩ stack⟩ := by
      refine reaches_jump rfl ?_ (placeOf?_substringProgram distinct (k := 33) rfl)
      simp (disch := decide) [op]
    simpa using entered.trans jumped
  | succ count inductionHypothesis =>
    have bound : k < text.toList.length := by
      rw [String.length_toList]
      omega
    have there := List.getElem?_eq_getElem bound
    obtain ⟨last, later⟩ := @inductionHypothesis (.string (String.singleton text.toList[k]))
      (k + 1) (found ++ String.singleton text.toList[k]) (by omega)
    refine ⟨last, ?_⟩
    have taken : (text.toList.drop k).take (count + 1) =
        text.toList[k] :: (text.toList.drop (k + 1)).take count := by
      rw [List.drop_eq_getElem_cons bound, List.take_succ_cons]
    have built : found ++ String.ofList ((text.toList.drop k).take (count + 1)) =
        found ++ String.singleton text.toList[k] ++
          String.ofList ((text.toList.drop (k + 1)).take count) := by
      rw [taken, String.append_assoc, ← String.toList_inj]
      simp
    have behind : k + (count + 1) = k + 1 + count := by omega
    rw [built, behind]
    exact (reaches_round distinct there (by omega)).trans later

theorem reaches_end_of_leave (distinct : labels.toList.Nodup) :
    (exact others).Reaches (substringProgram pending labels)
      ⟨33, calls, memory.noted pad stack⟩
      ⟨39, calls, memory.noted pad (pad.fourth :: stack)⟩ := by
  have pushed : (exact others).Reaches (substringProgram pending labels)
      ⟨33, calls, memory.noted pad stack⟩
      ⟨35, calls, memory.noted pad (pad.fourth :: stack)⟩ := by
    refine reaches_line 33 2 (Nat.le_add_right 35 4) ?_
    simp (disch := decide) [substringProgram, substringCode, conversionCode, conversion?, marked,
      op]
  have jumped : (exact others).Reaches (substringProgram pending labels)
      ⟨35, calls, memory.noted pad (pad.fourth :: stack)⟩
      ⟨38, calls, memory.noted pad (pad.fourth :: stack)⟩ :=
    reaches_jump rfl (execute?_jump _) (placeOf?_substringProgram distinct (k := 38) rfl)
  exact (pushed.trans jumped).trans (reaches_line 38 1 (Nat.le_refl 39) rfl)

end Running

/-! ### The result -/

theorem slice_eq {text : String} {start length : Int} (first : 1 ≤ start) :
    slice text start length = String.ofList
      ((text.toList.drop (start - 1).toNat).take (taken text start length).toNat) := by
  have size : text.toList.length = text.length := String.length_toList
  rw [slice]
  split
  · next outside =>
    have beyond : text.toList.length ≤ (start - 1).toNat := by omega
    rw [List.drop_eq_nil_of_le beyond, List.take_nil]
  · next inside =>
    rw [taken]
    dsimp only
    rw [List.length_drop, size]
    have left : ((text.length - (start - 1).toNat : Nat) : Int) = text.length - (start - 1) := by
      omega
    rw [left]
    split
    · next rest =>
      congr 1
      refine (List.take_of_length_le ?_).symm
      rw [List.length_drop, size]
      omega
    · rfl

/-- The code alone replaces the arguments by the substring. -/
theorem reaches_slice {World : Type} {others : Machine Datum World} {memory : Memory Datum World}
    {calls : List Nat} {pad : Pad} {stack : List Datum} {pending : Markers}
    {labels : SubstringLabels} (distinct : labels.toList.Nodup) (text : String)
    (start length : Int) :
    ∃ pad', (exact others).Reaches (substringProgram pending labels)
      ⟨0, calls, memory.noted pad (.int length :: .int start :: .string text :: stack)⟩
      ⟨39, calls, memory.noted pad' (.string (slice text start length) :: stack)⟩ := by
  by_cases early : start < 1
  · rw [slice, if_pos (.inl early)]
    exact ⟨_, reaches_test.trans (reaches_end_of_test distinct (k := 4) rfl (by simp [early]))⟩
  have tested := @reaches_test World others memory calls pad stack pending labels text start length
  rw [decide_eq_false early] at tested
  have measured := tested.trans reaches_length
  by_cases empty : text.length = 0
  · rw [slice, if_pos (.inr (by omega))]
    exact ⟨_, measured.trans (reaches_end_of_test distinct (k := 6) rfl (by simp [empty]))⟩
  have bounded := measured.trans (reaches_bounded distinct empty)
  rw [slice_eq (by omega)]
  by_cases beyond : taken text start length < 0
  · rw [Int.toNat_of_nonpos (by omega), List.take_zero]
    refine ⟨_, bounded.trans (reaches_end_of_test distinct (k := 22) rfl ?_)⟩
    simp [beyond]
  · rw [decide_eq_false beyond] at bounded
    obtain ⟨k, isIndex⟩ := Int.eq_ofNat_of_zero_le (show 0 ≤ start - 1 by omega)
    obtain ⟨count, isCount⟩ := Int.eq_ofNat_of_zero_le (Int.not_lt.mp beyond)
    have inside : k + count ≤ text.length := by
      rw [taken] at isCount
      split at isCount <;> omega
    have stop : taken text start length + (start - 1) = (k + count : Nat) := by omega
    rw [stop, isIndex] at bounded
    obtain ⟨last, left⟩ := reaches_leave distinct inside
    have built := (bounded.trans (reaches_loop.trans left)).trans (reaches_end_of_leave distinct)
    rw [isIndex, isCount]
    exact ⟨_, built⟩

theorem level_substringProgram (pending : Markers) (labels : SubstringLabels) :
    Level (substringProgram pending labels) := by
  have level : ((substringProgram pending labels).map Instruction.opcode).all
      fun opcode => decide (opcode ≠ .call ∧ opcode ≠ .ret) := rfl
  rw [List.all_map, List.all_eq_true] at level
  exact fun i member => of_decide_eq_true (level i member)

/-- The labels that a builder takes for a substring. -/
def substringLabels (b : Builder) : SubstringLabels :=
  let goOn := b.labels.next "substr_continue" b.controlDepth
  let loop := goOn.2.next "substr_loop" b.controlDepth
  let leave := loop.2.next "substr_break" b.controlDepth
  let empty := leave.2.next "substr_empty" b.controlDepth
  let last := empty.2.next "substr_end" b.controlDepth
  { goOn := goOn.1, loop := loop.1, leave := leave.1, empty := empty.1, last := last.1 }

theorem toList_substringLabels (b : Builder) (stringType startType lengthType : DataType) :
    b.substringLabels.toList = b.issued (.substring stringType startType lengthType) := rfl

theorem code_substring (b : Builder) (stringType startType lengthType : DataType) :
    (b.substring stringType startType lengthType).store.code = b.store.code ++
      marked b.pending (substringCode stringType startType lengthType b.substringLabels) := by
  rw [← code_write]
  exact congrArg (fun b : Builder => b.store.code) (emitAll_eq _ _)

/-- The code for a substring, wherever it stands, replaces a string, a start and a length on the
data stack by the substring and changes nothing else but scratch variables. -/
theorem substring_code_slices {World : Type} (others : Machine Datum World) (b : Builder)
    (before after : List Instruction)
    (fresh : ∀ label ∈ b.issued (.substring .string .int .int),
      label ∉ before.filterMap Instruction.definedLabel?)
    (text : String) (start length : Int) (calls : List Nat) (memory : Memory Datum World) :
    ∃ emitted final, (b.substring .string .int .int).store.code = b.store.code ++ emitted ∧
      (exact others).Reaches (before ++ emitted ++ after)
        ⟨before.length, calls,
          { memory with stack := .int length :: .int start :: .string text :: memory.stack }⟩
        ⟨before.length + emitted.length, calls, final⟩ ∧
      final.stack = .string (slice text start length) :: memory.stack ∧
      final.world = memory.world ∧
      ∀ v, (∀ k, 1 ≤ k → k ≤ Variable.scratchCount → v ≠ Variable.scratch k) →
        final.store v = memory.store v := by
  have distinct : b.substringLabels.toList.Nodup := by
    rw [b.toList_substringLabels .string .int .int]
    exact (numbered_issue _ _ _).nodup
  obtain ⟨pad, start_eq⟩ :=
    memory.exists_noted (.int length :: .int start :: .string text :: memory.stack)
  obtain ⟨pad', alone⟩ := @reaches_slice World others memory calls pad memory.stack b.pending
    b.substringLabels distinct text start length
  refine ⟨_, memory.noted pad' (.string (slice text start length) :: memory.stack),
    b.code_substring .string .int .int, ?_, rfl, rfl, fun v other => ?_⟩
  · have apart : Apart before (substringProgram b.pending b.substringLabels) := fresh
    rw [start_eq]
    exact alone.embed (level_substringProgram _ _) apart
  · refine Memory.store_noted_other ?_
    cases number : v.scratchNumber? with
    | none => rfl
    | some k =>
      obtain ⟨same, low, high⟩ := Variable.eq_scratch number
      exact absurd same (other k low high)

/-- Three characters from the second on, in a program that has a label before. -/
theorem substring_code_slices_hello :
    (∀ label ∈ ({} : Builder).issued (.substring .string .int .int),
        label ∉ [op .label [.label "main"]].filterMap Instruction.definedLabel?) ∧
      slice "hello" 2 3 = "ell" ∧
      ∃ emitted final,
        (({} : Builder).substring .string .int .int).store.code = [] ++ emitted ∧
        (exact ⟨fun _ => .bool false, fun _ _ _ => none, fun _ _ _ => false⟩).Reaches
          ([op .label [.label "main"]] ++ emitted ++ [])
          ⟨1, [], ⟨fun _ => .bool true, [.int 3, .int 2, .string "hello", .int 7], ()⟩⟩
          ⟨1 + emitted.length, [], final⟩ ∧
        final.stack = .string (slice "hello" 2 3) :: [.int 7] ∧
        final.world = () ∧
        ∀ v, (∀ k, 1 ≤ k → k ≤ Variable.scratchCount → v ≠ Variable.scratch k) →
          final.store v = .bool true :=
  ⟨by decide, by decide,
    substring_code_slices ⟨fun _ => .bool false, fun _ _ _ => none, fun _ _ _ => false⟩ {}
      [op .label [.label "main"]] [] (by decide) "hello" 2 3 []
      ⟨fun _ => .bool true, [.int 7], ()⟩⟩

end ThreeAddress.Builder
