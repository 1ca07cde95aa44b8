/-
Labels from one source never repeat. A label is put together from a fixed
beginning, the running number of the source, the depth and the purpose, and a
purpose may be any text, with names from the program in it. So the depth and the
purpose say nothing about where a label came from. The number does: it ends at the
first character that is no digit, and that is the underscore behind it, whatever
depth and purpose follow. The labels that a source gives one after the other carry
consecutive numbers, so no two of them are equal.
-/
import ThreeAddress.Builder.Label
import ThreeAddress.Proofs.Literals
import Mathlib.Data.List.Nodup

namespace ThreeAddress.Builder

/-! ### The number of a label -/

/-- Whether a label carries a number of the source. -/
def CarriesNumber (n : Nat) (label : String) : Prop :=
  ∃ tail, label.toList = "%LABEL_".toList ++ ((toString n).toList ++ '_' :: tail)

/-- The number that is read off a label: the digits behind the fixed beginning. -/
def labelNumber? (label : String) : Option Nat :=
  Text.readNatural? ((label.toList.drop "%LABEL_".toList.length).takeWhile Char.isDigit)

theorem takeWhile_isDigit_toString (n : Nat) (tail : List Char) :
    ((toString n).toList ++ '_' :: tail).takeWhile Char.isDigit = Text.naturalText n := by
  have text : (toString n).toList = Text.naturalText n := by
    rw [Nat.toString_eq_ofList_toDigits, String.toList_ofList, Text.naturalText]
  rw [text, List.takeWhile_append_of_pos fun _ => Text.isDigit_of_mem_naturalText,
    List.takeWhile_cons_of_neg (by decide), List.append_nil]

/-- The number that a label carries can be read off it, whatever is behind the number. -/
theorem CarriesNumber.labelNumber?_eq {n : Nat} {label : String} (carries : CarriesNumber n label) :
    labelNumber? label = some n := by
  obtain ⟨tail, text⟩ := carries
  rw [labelNumber?, text, List.drop_left, takeWhile_isDigit_toString,
    Text.readNatural?_naturalText]

theorem carriesNumber_next (source : LabelSource) (purpose : String) (depth : Nat) :
    CarriesNumber source.counter (source.next purpose depth).1 := by
  refine ⟨"DEPTH_".toList ++ ((toString depth).toList ++ ("_$".toList ++ purpose.toList)), ?_⟩
  simp only [LabelSource.next, String.toList_append, List.append_assoc]
  rfl

/-! ### Consecutive numbers -/

/-- Whether labels carry consecutive numbers from a given one on. -/
def Numbered : Nat → List String → Prop
  | _, [] => True
  | n, label :: rest => CarriesNumber n label ∧ Numbered (n + 1) rest

theorem numbered_append {n : Nat} {labels others : List String} :
    Numbered n (labels ++ others) ↔ Numbered n labels ∧ Numbered (n + labels.length) others := by
  induction labels generalizing n with
  | nil => simp [Numbered]
  | cons label rest inductionHypothesis =>
    rw [List.cons_append, Numbered, Numbered, inductionHypothesis, and_assoc, List.length_cons,
      Nat.add_assoc, Nat.add_comm 1]

theorem Numbered.exists_number {n : Nat} {labels : List String} (numbered : Numbered n labels)
    {label : String} (member : label ∈ labels) : ∃ m, n ≤ m ∧ CarriesNumber m label := by
  induction labels generalizing n with
  | nil => exact absurd member List.not_mem_nil
  | cons first rest inductionHypothesis =>
    rcases List.mem_cons.mp member with rfl | later
    · exact ⟨n, Nat.le_refl n, numbered.1⟩
    · obtain ⟨m, above, carries⟩ := inductionHypothesis numbered.2 later
      exact ⟨m, Nat.le_of_succ_le above, carries⟩

/-- The numbers that are read off such labels. -/
theorem Numbered.map_labelNumber? {n : Nat} {labels : List String} (numbered : Numbered n labels) :
    labels.map labelNumber? = (List.range' n labels.length).map some := by
  induction labels generalizing n with
  | nil => rfl
  | cons label rest inductionHypothesis =>
    rw [List.map_cons, numbered.1.labelNumber?_eq, inductionHypothesis numbered.2, List.length_cons,
      List.range'_succ, List.map_cons]

/-- Labels with consecutive numbers differ, because their numbers do. -/
theorem Numbered.nodup {n : Nat} {labels : List String} (numbered : Numbered n labels) :
    labels.Nodup := by
  refine List.Nodup.of_map labelNumber? ?_
  rw [numbered.map_labelNumber?]
  exact List.Nodup.map (Option.some_injective Nat) List.nodup_range'

/-! ### One label after the other -/

/-- The labels that a source gives on requests, each for a purpose and a depth, one after the
other. -/
def LabelSource.answers (source : LabelSource) : List (String × Nat) → List String
  | [] => []
  | (purpose, depth) :: rest =>
    (source.next purpose depth).1 :: (source.next purpose depth).2.answers rest

theorem length_answers (source : LabelSource) (requests : List (String × Nat)) :
    (source.answers requests).length = requests.length := by
  induction requests generalizing source with
  | nil => rfl
  | cons request rest inductionHypothesis =>
    rw [LabelSource.answers, List.length_cons, inductionHypothesis, List.length_cons]

theorem numbered_answers (source : LabelSource) (requests : List (String × Nat)) :
    Numbered source.counter (source.answers requests) := by
  induction requests generalizing source with
  | nil => trivial
  | cons request rest inductionHypothesis =>
    obtain ⟨purpose, depth⟩ := request
    exact ⟨carriesNumber_next source purpose depth,
      inductionHypothesis (source.next purpose depth).2⟩

/-- The labels that a source gives for some purposes, one after the other. -/
def LabelSource.issue (source : LabelSource) (depth : Nat) : List String → List String
  | [] => []
  | purpose :: rest =>
    (source.next purpose depth).1 :: (source.next purpose depth).2.issue depth rest

/-- Purposes at one depth are requests at that depth. -/
theorem issue_eq_answers (source : LabelSource) (depth : Nat) (purposes : List String) :
    source.issue depth purposes =
      source.answers (purposes.map fun purpose => (purpose, depth)) := by
  induction purposes generalizing source with
  | nil => rfl
  | cons purpose rest inductionHypothesis =>
    rw [LabelSource.issue, List.map_cons, LabelSource.answers, inductionHypothesis]

theorem numbered_issue (source : LabelSource) (depth : Nat) (purposes : List String) :
    Numbered source.counter (source.issue depth purposes) := by
  rw [issue_eq_answers]
  exact numbered_answers source _

theorem length_issue (source : LabelSource) (depth : Nat) (purposes : List String) :
    (source.issue depth purposes).length = purposes.length := by
  rw [issue_eq_answers, length_answers, List.length_map]

/-- On any requests a source gives as many labels, no two of them equal: in their order they carry
consecutive numbers from its counter on. -/
theorem labels_never_repeat (source : LabelSource) (requests : List (String × Nat)) :
    (source.answers requests).Nodup ∧
      (source.answers requests).map labelNumber? =
        (List.range' source.counter requests.length).map some := by
  have numbered := numbered_answers source requests
  refine ⟨numbered.nodup, ?_⟩
  rw [numbered.map_labelNumber?, length_answers]

/-- A purpose that looks like the rest of another label does not make the two equal. -/
example : (LabelSource.mk 1).answers [("a", 2), ("a_DEPTH_2_$a", 12), ("", 0)] =
    ["%LABEL_1_DEPTH_2_$a", "%LABEL_2_DEPTH_12_$a_DEPTH_2_$a", "%LABEL_3_DEPTH_0_$"] := by
  decide

end ThreeAddress.Builder
