/-
How a text falls into lines and a line into words. Writing puts a line feed
behind each line and a space before each further word; the lemmas here take such
a text apart again. A blank belongs to no word, so trimming a text does not
change its words, and a mark that does not occur before the comment of a line
divides the line from it.
-/
import ThreeAddress.Text.Lines
import Mathlib.Data.List.Induction

namespace ThreeAddress.Text

variable {text word : List Char}

/-! ### Pieces -/

theorem pieces_eq_splitOnP (divides : Char → Bool) (text : List Char) :
    pieces divides text = text.splitOnP divides := by
  induction text with
  | nil => rw [pieces, List.splitOnP_nil]
  | cons c rest inductionHypothesis =>
    rw [List.splitOnP_cons_eq_if_modifyHead, pieces, inductionHypothesis]
    split
    · rfl
    · cases split : rest.splitOnP divides with
      | nil => exact absurd split (List.splitOnP_ne_nil _ _)
      | cons piece others => rfl

theorem pieces_append_cons {divides : Char → Bool} {c : Char} (divided : divides c)
    (before after : List Char) :
    pieces divides (before ++ c :: after) = pieces divides before ++ pieces divides after := by
  simp only [pieces_eq_splitOnP]
  exact List.splitOnP_append_cons _ _ divided

theorem pieces_of_undivided {divides : Char → Bool} (undivided : ∀ c ∈ text, divides c = false) :
    pieces divides text = [text] := by
  rw [pieces_eq_splitOnP, List.splitOnP_eq_singleton undivided]

/-- A piece consists of characters of the text, none of which divides. -/
theorem of_mem_pieces {divides : Char → Bool} {piece : List Char} {c : Char}
    (member : piece ∈ pieces divides text) (inside : c ∈ piece) :
    c ∈ text ∧ divides c = false := by
  induction text generalizing piece with
  | nil =>
    rw [pieces, List.mem_singleton] at member
    rw [member] at inside
    cases inside
  | cons head rest inductionHypothesis =>
    have later (also : piece ∈ pieces divides rest) : c ∈ head :: rest ∧ divides c = false :=
      (inductionHypothesis also inside).imp_left (List.mem_cons_of_mem _)
    rw [pieces] at member
    split at member
    · obtain rfl | member := List.mem_cons.mp member
      · cases inside
      · exact later member
    · next undivided =>
      cases split : pieces divides rest with
      | nil => simp_all
      | cons first others =>
        simp only [split, List.mem_cons] at member
        obtain rfl | member := member
        · obtain rfl | inside := List.mem_cons.mp inside
          · exact ⟨List.mem_cons_self, by simpa using undivided⟩
          · have := inductionHypothesis (split ▸ List.mem_cons_self) inside
            exact this.imp_left (List.mem_cons_of_mem _)
        · exact later (split ▸ List.mem_cons_of_mem _ member)

/-! ### Words -/

/-- A text that is one word: not empty and without white space. -/
structure Solid (word : List Char) : Prop where
  nonempty : word ≠ []
  unbroken : ∀ c ∈ word, isBlank c = false

@[simp] theorem words_nil : words [] = [] := rfl

theorem words_append_blank {c : Char} (blank : isBlank c) (before after : List Char) :
    words (before ++ c :: after) = words before ++ words after := by
  rw [words, pieces_append_cons blank, List.filter_append]
  rfl

theorem words_cons_blank {c : Char} (blank : isBlank c) (text : List Char) :
    words (c :: text) = words text :=
  words_append_blank blank [] text

theorem words_concat_blank {c : Char} (blank : isBlank c) (text : List Char) :
    words (text ++ [c]) = words text := by
  rw [words_append_blank blank, words_nil, List.append_nil]

theorem words_ne_nil {c : Char} (inside : c ∈ text) (unbroken : isBlank c = false) :
    words text ≠ [] := by
  induction text with
  | nil => cases inside
  | cons head rest inductionHypothesis =>
    by_cases blank : isBlank head
    · rw [words_cons_blank blank]
      obtain rfl | later := List.mem_cons.mp inside
      · simp [unbroken] at blank
      · exact inductionHypothesis later
    · rw [words, pieces, if_neg blank]
      cases pieces isBlank rest <;> simp

theorem words_of_solid (solid : Solid word) : words word = [word] := by
  rw [words, pieces_of_undivided solid.unbroken]
  simp [solid.nonempty]

/-- A word of a text is one word, and its characters are in the text. -/
theorem solid_of_mem_words (member : word ∈ words text) :
    Solid word ∧ ∀ c ∈ word, c ∈ text := by
  obtain ⟨member, nonempty⟩ := List.mem_filter.mp member
  exact ⟨⟨by simpa using nonempty, fun c inside => (of_mem_pieces member inside).2⟩,
    fun c inside => (of_mem_pieces member inside).1⟩

/-- Words with a space before each. -/
def spaced (list : List (List Char)) : List Char :=
  list.flatMap (' ' :: ·)

/-- Words with a space between them, after one more space. -/
theorem cons_intercalate (word : List Char) (rest : List (List Char)) :
    ' ' :: [' '].intercalate (word :: rest) = spaced (word :: rest) := by
  induction rest generalizing word with
  | nil => simp [spaced]
  | cons next rest inductionHypothesis =>
    rw [List.intercalate_cons_cons, List.append_assoc, List.singleton_append, inductionHypothesis]
    rfl

theorem words_append_spaced (text : List Char) (list : List (List Char)) :
    words (text ++ spaced list) = words text ++ list.flatMap words := by
  induction list generalizing text with
  | nil => simp [spaced]
  | cons word rest inductionHypothesis =>
    rw [spaced, List.flatMap_cons, List.cons_append, words_append_blank rfl, ← spaced,
      inductionHypothesis, List.flatMap_cons]

theorem flatMap_words {list : List (List Char)} (solid : ∀ word ∈ list, Solid word) :
    list.flatMap words = list := by
  induction list with
  | nil => rfl
  | cons word rest inductionHypothesis =>
    rw [List.forall_mem_cons] at solid
    rw [List.flatMap_cons, words_of_solid solid.1, inductionHypothesis solid.2]
    rfl

/-- Words without a space in them are the pieces between the spaces. -/
theorem pieces_append_spaced {first : List Char} {list : List (List Char)}
    (spaceless : ∀ word ∈ first :: list, ' ' ∉ word) :
    pieces (· == ' ') (first ++ spaced list) = first :: list := by
  have undivided (word : List Char) (member : word ∈ first :: list) :
      pieces (· == ' ') word = [word] :=
    pieces_of_undivided fun c inside =>
      beq_false_of_ne (ne_of_mem_of_not_mem inside (spaceless word member))
  induction list generalizing first with
  | nil =>
    rw [spaced, List.flatMap_nil, List.append_nil]
    exact undivided first List.mem_cons_self
  | cons next rest inductionHypothesis =>
    have divided : pieces (· == ' ') (first ++ ' ' :: (next ++ spaced rest)) =
        pieces (· == ' ') first ++ pieces (· == ' ') (next ++ spaced rest) :=
      pieces_append_cons rfl _ _
    rw [spaced, List.flatMap_cons, List.cons_append, ← spaced, divided,
      undivided first List.mem_cons_self,
      inductionHypothesis (fun word member => spaceless word (List.mem_cons_of_mem _ member))
        fun word member => undivided word (List.mem_cons_of_mem _ member)]
    rfl

theorem words_trimStart (text : List Char) : words (trimStart text) = words text := by
  induction text with
  | nil => rfl
  | cons c rest inductionHypothesis =>
    rw [trimStart, List.dropWhile_cons]
    split
    · next blank => exact inductionHypothesis.trans (words_cons_blank blank rest).symm
    · rfl

theorem words_trimEnd (text : List Char) : words (trimEnd text) = words text := by
  induction text using List.reverseRecOn with
  | nil => rfl
  | append_singleton before c inductionHypothesis =>
    rw [trimEnd, List.reverse_concat, List.dropWhile_cons]
    split
    · next blank => exact inductionHypothesis.trans (words_concat_blank blank before).symm
    · rw [List.reverse_cons, List.reverse_reverse]

@[simp] theorem words_trim (text : List Char) : words (trim text) = words text :=
  (words_trimEnd _).trans (words_trimStart text)

theorem mem_of_mem_trim {c : Char} (inside : c ∈ trim text) : c ∈ text := by
  rw [trim, trimEnd, List.mem_reverse] at inside
  have inside := (List.dropWhile_suffix _).subset inside
  rw [List.mem_reverse] at inside
  exact (List.dropWhile_suffix _).subset inside

/-! ### Marks -/

theorem cut?_append_cons {mark : Char} {before : List Char} (unmarked : mark ∉ before)
    (after : List Char) : cut? mark (before ++ mark :: after) = some (before, after) := by
  induction before with
  | nil => simp [cut?]
  | cons c rest inductionHypothesis =>
    rw [List.mem_cons, not_or] at unmarked
    rw [List.cons_append, cut?, if_neg (Ne.symm unmarked.1), inductionHypothesis unmarked.2]
    rfl

theorem cut?_eq_none_iff {mark : Char} : cut? mark text = none ↔ mark ∉ text := by
  induction text with
  | nil => simp [cut?]
  | cons c rest inductionHypothesis =>
    rw [cut?, List.mem_cons, not_or, ← inductionHypothesis]
    split
    · next same => simp [same]
    · next differs => simp [Ne.symm differs]

/-- What a cut says about the text. -/
theorem cut?_eq_some {mark : Char} {before after : List Char}
    (divided : cut? mark text = some (before, after)) :
    mark ∉ before ∧ text = before ++ mark :: after := by
  induction text generalizing before with
  | nil => cases divided
  | cons c rest inductionHypothesis =>
    rw [cut?] at divided
    split at divided
    · next same =>
      cases divided
      exact ⟨List.not_mem_nil, by rw [same]; rfl⟩
    · next differs =>
      obtain ⟨⟨first, second⟩, divided, same⟩ := Option.map_eq_some_iff.mp divided
      cases same
      obtain ⟨unmarked, rfl⟩ := inductionHypothesis divided
      refine ⟨?_, rfl⟩
      rw [List.mem_cons, not_or]
      exact ⟨Ne.symm differs, unmarked⟩

/-! ### Lines -/

theorem pieces_of_ended {list : List (List Char)} (single : ∀ line ∈ list, '\n' ∉ line) :
    pieces (· == '\n') (list.flatMap (· ++ ['\n'])) = list ++ [[]] := by
  induction list with
  | nil => rfl
  | cons line rest inductionHypothesis =>
    have whole : pieces (· == '\n') line = [line] :=
      pieces_of_undivided fun c inside =>
        beq_false_of_ne (ne_of_mem_of_not_mem inside (single line List.mem_cons_self))
    have ended : pieces (· == '\n') (line ++ '\n' :: rest.flatMap (· ++ ['\n'])) =
        pieces (· == '\n') line ++ pieces (· == '\n') (rest.flatMap (· ++ ['\n'])) :=
      pieces_append_cons rfl _ _
    rw [List.flatMap_cons, List.append_assoc, List.singleton_append, ended, whole,
      inductionHypothesis fun line member => single line (List.mem_cons_of_mem _ member)]
    rfl

theorem linesOfPieces_append {list : List (List Char)} (clean : ∀ line ∈ list, '\r' ∉ line) :
    linesOfPieces (list ++ [[]]) = list := by
  induction list with
  | nil => rfl
  | cons line rest inductionHypothesis =>
    have unended : dropReturn line = line :=
      if_neg fun last => clean line List.mem_cons_self (List.mem_of_getLast? last)
    have more : linesOfPieces (line :: (rest ++ [[]])) =
        dropReturn line :: linesOfPieces (rest ++ [[]]) := by
      cases rest <;> rfl
    rw [List.cons_append, more, unended,
      inductionHypothesis fun line member => clean line (List.mem_cons_of_mem _ member)]

/-- Lines that were written with a line feed behind each are read again. -/
theorem lines_of_ended {list : List (List Char)} (single : ∀ line ∈ list, '\n' ∉ line)
    (clean : ∀ line ∈ list, '\r' ∉ line) : lines (list.flatMap (· ++ ['\n'])) = list := by
  rw [lines, pieces_of_ended single, linesOfPieces_append clean]

end ThreeAddress.Text
