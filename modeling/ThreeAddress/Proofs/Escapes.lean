/-
Escaping loses nothing, and which texts can be unescaped. A reader goes through a
text from left to right. Behind a backslash it cuts off the next three characters,
fewer if the text ends before, and goes on behind them. `Met` names the places
where it stops, so a backslash inside a cut is not met. What is cut off is good if
it takes three bytes and consists of digits. Digits take one byte each, so the
measure in bytes only tells a cut at the end of the text from a whole one; and
three digits are always the code of a character.
-/
import ThreeAddress.Proofs.LiteralGrammar
import Mathlib.Data.List.Induction

namespace ThreeAddress.Text

/-! ### Behind a backslash -/

/-- How many bytes a text takes. -/
def byteCount (text : List Char) : Nat :=
  (text.map Char.utf8Size).sum

/-- The character with a given code; not every number is the code of one. -/
def charOfCode? (code : Nat) : Option Char :=
  if code.isValidChar then some (Char.ofNat code) else none

/-- The character for what is cut off behind a backslash. -/
def decodeCut? (cut : List Char) : Option Char :=
  if byteCount cut = 3 ∧ cut.all Char.isDigit then (readNatural? cut).bind charOfCode? else none

theorem byteCount_of_isDigit {text : List Char} (digits : ∀ c ∈ text, c.isDigit) :
    byteCount text = text.length := by
  induction text with
  | nil => rfl
  | cons c rest inductionHypothesis =>
    have small : c.utf8Size = 1 := by
      obtain ⟨-, below⟩ := toNat_of_isDigit (digits c List.mem_cons_self)
      have ascii : c.toNat ≤ 127 := by omega
      exact Char.utf8Size_eq_one_iff.mpr (UInt32.le_iff_toNat_le.mpr ascii)
    have others := inductionHypothesis fun other member =>
      digits other (List.mem_cons_of_mem _ member)
    rw [byteCount] at others ⊢
    rw [List.map_cons, List.sum_cons, small, others, List.length_cons, Nat.add_comm]

theorem digitsValue_lt {text : List Char} (digits : ∀ c ∈ text, c.isDigit) :
    digitsValue text < 10 ^ text.length := by
  induction text using List.reverseRecOn with
  | nil => decide
  | append_singleton front last inductionHypothesis =>
    have small := inductionHypothesis fun c member => digits c (List.mem_append_left _ member)
    obtain ⟨-, below⟩ := toNat_of_isDigit (digits last (List.mem_append_right _ List.mem_cons_self))
    rw [digitsValue, List.foldl_append, List.length_append, List.length_singleton, Nat.pow_succ]
    change 10 * digitsValue front + digitValue last < _
    rw [digitValue]
    omega

/-- A cut has a character if it is three digits. -/
theorem decodeCut?_eq_some_iff {cut : List Char} {decoded : Char} :
    decodeCut? cut = some decoded ↔ (cut.length = 3 ∧ ∀ c ∈ cut, c.isDigit) ∧
      Char.ofNat (digitsValue cut) = decoded := by
  rw [decodeCut?, Option.ite_none_right_eq_some, List.all_eq_true]
  have counted : (byteCount cut = 3 ∧ ∀ c ∈ cut, c.isDigit) ↔
      cut.length = 3 ∧ ∀ c ∈ cut, c.isDigit :=
    and_congr_left fun digits => by rw [byteCount_of_isDigit digits]
  rw [counted]
  refine and_congr_right fun ⟨whole, digits⟩ => ?_
  have code : digitsValue cut < 10 ^ 3 := whole ▸ digitsValue_lt digits
  have filled : cut ≠ [] := by
    rintro rfl
    cases whole
  rw [readNatural?_of_isDigit filled digits, Option.bind_some, charOfCode?,
    if_pos (Or.inl (by omega)), Option.some_inj]

/-- Unescaping cuts off three characters behind a backslash, whatever they are. -/
theorem unescape?_backslash (rest : List Char) :
    unescape? ('\\' :: rest) = (decodeCut? (rest.take 3)).bind fun decoded =>
      (unescape? (rest.drop 3)).map (decoded :: ·) := by
  have short : ∀ cut : List Char, cut.length ≠ 3 → decodeCut? cut = none := by
    intro cut partly
    refine Option.eq_none_iff_forall_ne_some.mpr fun decoded found => partly ?_
    exact (decodeCut?_eq_some_iff.mp found).1.1
  rcases rest with _ | ⟨a, _ | ⟨b, _ | ⟨c, rest⟩⟩⟩
  · rfl
  · rw [short _ (by simp)]
    rfl
  · rw [short _ (by simp)]
    rfl
  · have same : decodeDigits? a b c = decodeCut? [a, b, c] := by
      refine Option.ext fun decoded => ?_
      rw [decodeDigits?_eq_some_iff, decodeCut?_eq_some_iff]
      simp
    rw [unescape?, same]
    simp only [Option.map_eq_bind]
    rfl

/-! ### Places where a reader stops -/

/-- How far a reader goes on from a character. -/
def stride (c : Char) : Nat :=
  if c = '\\' then 4 else 1

/-- The places of a text where a reader from left to right stops. -/
inductive Met (text : List Char) : Nat → Prop
  | start : Met text 0
  | next {place : Nat} {c : Char} (met : Met text place) (here : text[place]? = some c) :
      Met text (place + stride c)

/-- Whether three digits follow a place. -/
def Coded (text : List Char) (place : Nat) : Prop :=
  ∃ a b c rest, text.drop (place + 1) = a :: b :: c :: rest ∧ a.isDigit ∧ b.isDigit ∧ c.isDigit

/-- From the second stop on, a reader does what it would do without the first. -/
theorem met_cons_iff {c : Char} {rest : List Char} {place : Nat} :
    Met (c :: rest) place ↔
      place = 0 ∨ ∃ later, place = later + stride c ∧ Met ((c :: rest).drop (stride c)) later := by
  constructor
  · intro met
    induction met with
    | start => exact Or.inl rfl
    | @next place d _ here inductionHypothesis =>
      rcases inductionHypothesis with rfl | ⟨later, rfl, laterMet⟩
      · obtain rfl : c = d := Option.some_inj.mp here
        exact Or.inr ⟨0, rfl, .start⟩
      · rw [Nat.add_comm, ← List.getElem?_drop] at here
        exact Or.inr ⟨later + stride d, Nat.add_right_comm _ _ _, laterMet.next here⟩
  · rintro (rfl | ⟨later, rfl, met⟩)
    · exact .start
    · induction met with
      | start => exact Met.start.next rfl
      | next met here inductionHypothesis =>
        rw [List.getElem?_drop, Nat.add_comm] at here
        rw [Nat.add_right_comm]
        exact inductionHypothesis.next here

theorem coded_drop {text : List Char} {width place : Nat} :
    Coded (text.drop width) place ↔ Coded text (place + width) := by
  rw [Coded, List.drop_drop, ← Nat.add_assoc, Nat.add_comm width, Coded]

/-- The cut behind a place has a character if three digits follow the place. -/
theorem isSome_decodeCut?_iff {text : List Char} {place : Nat} :
    (decodeCut? ((text.drop (place + 1)).take 3)).isSome ↔ Coded text place := by
  rw [Coded, Option.isSome_iff_exists]
  simp only [decodeCut?_eq_some_iff]
  rcases text.drop (place + 1) with _ | ⟨a, _ | ⟨b, _ | ⟨c, rest⟩⟩⟩ <;> simp

/-- Whether every backslash that is met is followed by three digits. -/
def Legible (text : List Char) : Prop :=
  ∀ place, Met text place → text[place]? = some '\\' → Coded text place

theorem legible_cons_iff {c : Char} {rest : List Char} :
    Legible (c :: rest) ↔
      (c = '\\' → Coded (c :: rest) 0) ∧ Legible ((c :: rest).drop (stride c)) := by
  constructor
  · intro legible
    refine ⟨fun backslash => legible 0 .start (congrArg some backslash), fun later met here => ?_⟩
    rw [List.getElem?_drop, Nat.add_comm] at here
    rw [coded_drop]
    exact legible (later + stride c) (met_cons_iff.mpr (Or.inr ⟨later, rfl, met⟩)) here
  · rintro ⟨first, legible⟩ place met here
    rcases met_cons_iff.mp met with rfl | ⟨later, rfl, laterMet⟩
    · exact first (Option.some_inj.mp here)
    · rw [Nat.add_comm, ← List.getElem?_drop] at here
      exact coded_drop.mp (legible later laterMet here)

theorem isSome_unescape?_iff (text : List Char) : (unescape? text).isSome ↔ Legible text := by
  -- a step may pass over several characters, so the induction is on the length
  induction length : text.length using Nat.strongRecOn generalizing text with
  | _ _ inductionHypothesis =>
    subst length
    cases text with
    | nil => exact iff_of_true rfl fun place _ here => absurd here (by simp)
    | cons c rest =>
      rw [legible_cons_iff]
      by_cases backslash : c = '\\'
      · subst backslash
        have later := inductionHypothesis (rest.drop 3).length
          (by rw [List.length_drop, List.length_cons]; omega) (rest.drop 3) rfl
        have cut : (decodeCut? (rest.take 3)).isSome ↔ Coded ('\\' :: rest) 0 :=
          @isSome_decodeCut?_iff ('\\' :: rest) 0
        have behind : ('\\' :: rest).drop (stride '\\') = rest.drop 3 := rfl
        rw [behind, ← later, ← cut, unescape?_backslash, imp_iff_right rfl]
        cases decodeCut? (rest.take 3) with
        | none => simp
        | some decoded => simp
      · rw [unescape?_cons backslash, Option.isSome_map, stride, if_neg backslash, List.drop_one,
          List.tail_cons, ← inductionHypothesis rest.length (Nat.lt_succ_self _) rest rfl]
        exact (and_iff_right fun same => absurd same backslash).symm

/-- Unescaping undoes escaping, so different strings are escaped differently; and a text can be
unescaped if every backslash met from left to right is followed by three digits. -/
theorem unescaping_inverts_escaping :
    (∀ text, unescape? (escape text) = some text) ∧ Function.Injective escape ∧
      ∀ text, (unescape? text).isSome ↔
        ∀ place, Met text place → text[place]? = some '\\' → Coded text place := by
  refine ⟨unescape?_escape, fun first second same => ?_, isSome_unescape?_iff⟩
  rw [← Option.some_inj, ← unescape?_escape, same, unescape?_escape]

end ThreeAddress.Text
