/-
Literals of strings and integers as they are written and read. Each is read as
the value it was written for. What is written are ordinary characters only,
neither white space nor `#`, so that a literal stays in one word and in front of
the comment. For strings this needs a condition: only white space up to the
space is written by its code.
-/
import ThreeAddress.Operand
import Mathlib.Tactic.IntervalCases

namespace ThreeAddress.Text

/-- A character that neither ends a word nor starts a comment. -/
structure Ordinary (c : Char) : Prop where
  unbroken : isBlank c = false
  unmarked : c ≠ '#'

instance (c : Char) : Decidable (Ordinary c) :=
  decidable_of_iff (isBlank c = false ∧ c ≠ '#') ⟨fun h => ⟨h.1, h.2⟩, fun h => ⟨h.1, h.2⟩⟩

/-- A property of the characters of a text is decided along the text, not over all characters. -/
theorem forall_mem_of_all {property : Char → Prop} [DecidablePred property] {text : List Char}
    (all : text.all fun c => decide (property c)) : ∀ c ∈ text, property c := fun c inside =>
  of_decide_eq_true (List.all_eq_true.mp all c inside)

/-- A character that neither starts a comment nor is white space up to the space. Such a character
may end a word, but not a line. -/
structure Inline (c : Char) : Prop where
  unmarked : c ≠ '#'
  high : isBlank c → 32 < c.toNat

theorem Ordinary.inline {c : Char} (ordinary : Ordinary c) : Inline c :=
  ⟨ordinary.unmarked, fun blank => absurd blank (by simp [ordinary.unbroken])⟩

theorem toNat_of_isDigit {c : Char} (digit : c.isDigit) : 48 ≤ c.toNat ∧ c.toNat ≤ 57 := by
  simpa [Char.isDigit, UInt32.le_iff_toNat_le] using digit

theorem ordinary_of_isDigit {c : Char} (digit : c.isDigit) : Ordinary c := by
  obtain ⟨above, below⟩ := toNat_of_isDigit digit
  refine ⟨?_, ?_⟩
  · simp only [isBlank, Bool.or_eq_false_iff, Bool.and_eq_false_iff, decide_eq_false_iff_not,
      beq_eq_false_iff_ne]
    omega
  · rintro rfl
    simp at above

/-! ### Strings -/

theorem isDigit_digitChar {n : Nat} (small : n < 10) : (digitChar n).isDigit := by
  interval_cases n <;> rfl

theorem digitValue_digitChar {n : Nat} (small : n < 10) : digitValue (digitChar n) = n := by
  interval_cases n <;> rfl

theorem toNat_lt_of_isEscaped {c : Char} (escaped : isEscaped c) : c.toNat < 1000 := by
  simp only [isEscaped, Bool.or_eq_true, decide_eq_true_eq, beq_iff_eq] at escaped
  obtain (low | rfl) | rfl := escaped
  · omega
  · decide
  · decide

theorem unescape?_cons {c : Char} (plain : c ≠ '\\') (rest : List Char) :
    unescape? (c :: rest) = (unescape? rest).map (c :: ·) := by
  rw [unescape?]
  · rw [if_neg plain]
  · intro _ _ _ _ same
    exact absurd same plain

theorem unescape?_escapeSequence {c : Char} (escaped : isEscaped c) (rest : List Char) :
    unescape? (escapeSequence c ++ rest) = (unescape? rest).map (c :: ·) := by
  have small := toNat_lt_of_isEscaped escaped
  have hundreds : c.toNat / 100 < 10 := by omega
  have tens : c.toNat / 10 % 10 < 10 := by omega
  have ones : c.toNat % 10 < 10 := by omega
  have code : 100 * (c.toNat / 100) + 10 * (c.toNat / 10 % 10) + c.toNat % 10 = c.toNat := by omega
  have decoded : decodeDigits? (digitChar (c.toNat / 100)) (digitChar (c.toNat / 10 % 10))
      (digitChar (c.toNat % 10)) = some c := by
    rw [decodeDigits?, isDigit_digitChar hundreds, isDigit_digitChar tens, isDigit_digitChar ones,
      digitValue_digitChar hundreds, digitValue_digitChar tens, digitValue_digitChar ones, code,
      Char.ofNat_toNat]
    rfl
  rw [escapeSequence]
  simp only [List.cons_append, List.nil_append, unescape?, decoded, Option.bind_eq_bind,
    Option.bind_some]
  cases unescape? rest <;> rfl

/-- A written string is read as the string. -/
theorem unescape?_escape (text : List Char) : unescape? (escape text) = some text := by
  induction text with
  | nil => rfl
  | cons c rest inductionHypothesis =>
    rw [escape]
    split
    · next escaped => rw [unescape?_escapeSequence escaped, inductionHypothesis, Option.map_some]
    · next plain =>
      have plain : c ≠ '\\' := by
        rintro rfl
        exact plain rfl
      rw [List.singleton_append, unescape?_cons plain, inductionHypothesis, Option.map_some]

theorem mem_escape {c : Char} {text : List Char} (inside : c ∈ escape text) :
    (c ∈ text ∧ isEscaped c = false) ∨ c = '\\' ∨ c.isDigit := by
  induction text with
  | nil => cases inside
  | cons head rest inductionHypothesis =>
    rw [escape, List.mem_append] at inside
    obtain here | later := inside
    · split at here
      · next escaped =>
        have small := toNat_lt_of_isEscaped escaped
        simp only [escapeSequence, List.mem_cons, List.not_mem_nil, or_false] at here
        obtain rfl | rfl | rfl | rfl := here
        · exact .inr (.inl rfl)
        · exact .inr (.inr (isDigit_digitChar (by omega)))
        · exact .inr (.inr (isDigit_digitChar (by omega)))
        · exact .inr (.inr (isDigit_digitChar (by omega)))
      · next plain =>
        rw [List.mem_singleton] at here
        subst here
        exact .inl ⟨List.mem_cons_self, by simpa using plain⟩
    · exact (inductionHypothesis later).imp_left (.imp_left (List.mem_cons_of_mem _))

theorem inline_of_mem_escape {text : List Char} {c : Char} (inside : c ∈ escape text) :
    Inline c := by
  obtain ⟨-, plain⟩ | rfl | digit := mem_escape inside
  · simp only [isEscaped, Bool.or_eq_false_iff, decide_eq_false_iff_not,
      beq_eq_false_iff_ne] at plain
    exact ⟨plain.1.2, fun _ => by omega⟩
  · exact Ordinary.inline (by decide)
  · exact (ordinary_of_isDigit digit).inline

/-- A string whose white space goes up to the space is written in ordinary characters. -/
theorem ordinary_of_mem_escape {text : List Char}
    (low : ∀ c ∈ text, isBlank c → c.toNat ≤ 32) {c : Char} (inside : c ∈ escape text) :
    Ordinary c := by
  have inline := inline_of_mem_escape inside
  obtain ⟨inText, -⟩ | rfl | digit := mem_escape inside
  · refine ⟨?_, inline.unmarked⟩
    by_contra blank
    rw [Bool.not_eq_false] at blank
    exact absurd (low c inText blank) (by have := inline.high blank; omega)
  · decide
  · exact ordinary_of_isDigit digit

theorem mem_escape_of_plain {text : List Char} {c : Char} (inside : c ∈ text)
    (plain : isEscaped c = false) : c ∈ escape text := by
  induction text with
  | nil => cases inside
  | cons head rest inductionHypothesis =>
    rw [escape, List.mem_append]
    obtain rfl | later := List.mem_cons.mp inside
    · simp [plain]
    · exact .inr (inductionHypothesis later)

/-- A string that is written without white space has white space only up to the space. -/
theorem toNat_le_of_unbroken {text : List Char} (unbroken : ∀ c ∈ escape text, isBlank c = false) :
    ∀ c ∈ text, isBlank c → c.toNat ≤ 32 := by
  intro c inside blank
  by_contra high
  have unmarked : c ≠ '#' := fun mark => absurd blank (by rw [mark]; decide)
  have unescaped : c ≠ '\\' := fun mark => absurd blank (by rw [mark]; decide)
  have plain : isEscaped c = false := by simp [isEscaped, high, unmarked, unescaped]
  simp [unbroken c (mem_escape_of_plain inside plain)] at blank

theorem unescape?_append {first text : List Char} (read : unescape? first = some text)
    (second : List Char) : unescape? (first ++ second) = (unescape? second).map (text ++ ·) := by
  fun_induction unescape? first generalizing text with
  | case1 =>
    cases read
    simp
  | case2 x y z rest inductionHypothesis =>
    simp only [Option.bind_eq_bind, Option.bind_eq_some_iff, Option.pure_def,
      Option.some.injEq] at read
    obtain ⟨decoded, digits, others, read, rfl⟩ := read
    simp only [List.cons_append, unescape?, digits, inductionHypothesis read, Option.bind_eq_bind,
      Option.bind_some]
    cases unescape? second <;> rfl
  | case3 head rest => cases read
  | case4 head rest _ plain inductionHypothesis =>
    obtain ⟨others, unescaped, rfl⟩ := Option.map_eq_some_iff.mp read
    rw [List.cons_append, unescape?_cons plain, inductionHypothesis unescaped, Option.map_map]
    rfl

theorem eq_nil_of_unescape? {value : List Char} (read : unescape? value = some []) :
    value = [] := by
  unfold unescape? at read
  split at read
  · rfl
  · simp [Option.bind_eq_some_iff] at read
  · split at read
    · cases read
    · simp at read

/-- The string is not read from less than the whole of what is written for it. -/
theorem eq_nil_of_escape_eq {text before after : List Char}
    (written : escape text = before ++ after) (read : unescape? before = some text) :
    after = [] := by
  have whole := unescape?_append read after
  rw [← written, unescape?_escape] at whole
  obtain ⟨rest, unescaped, longer⟩ := Option.map_eq_some_iff.mp whole.symm
  rw [List.append_right_eq_self.mp longer] at unescaped
  exact eq_nil_of_unescape? unescaped

theorem toNat_le_of_decodeDigits? {a b c decoded : Char}
    (read : decodeDigits? a b c = some decoded) : decoded.toNat ≤ 999 := by
  rw [decodeDigits?] at read
  split at read
  · next digits =>
    simp only [Bool.and_eq_true] at digits
    have first := toNat_of_isDigit digits.1.1
    have second := toNat_of_isDigit digits.1.2
    have third := toNat_of_isDigit digits.2
    have small : 100 * digitValue a + 10 * digitValue b + digitValue c ≤ 999 := by
      simp only [digitValue]
      omega
    have valid : (100 * digitValue a + 10 * digitValue b + digitValue c).isValidChar := by
      left
      omega
    cases read
    rw [Char.ofNat, dif_pos valid]
    exact small
  · cases read

/-- A string that was read consists of characters of its literal and of characters with a code of
three digits. -/
theorem of_mem_unescape? {value text : List Char} (read : unescape? value = some text) {c : Char}
    (inside : c ∈ text) : c ∈ value ∨ c.toNat ≤ 999 := by
  fun_induction unescape? value generalizing text with
  | case1 =>
    cases read
    cases inside
  | case2 x y z rest inductionHypothesis =>
    simp only [Option.bind_eq_bind, Option.bind_eq_some_iff, Option.pure_def,
      Option.some.injEq] at read
    obtain ⟨decoded, digits, others, read, rfl⟩ := read
    obtain rfl | later := List.mem_cons.mp inside
    · exact .inr (toNat_le_of_decodeDigits? digits)
    · refine (inductionHypothesis read later).imp_left fun member => ?_
      iterate 4 apply List.mem_cons_of_mem
      exact member
  | case3 head rest => cases read
  | case4 head rest _ _ inductionHypothesis =>
    obtain ⟨others, unescaped, rfl⟩ := Option.map_eq_some_iff.mp read
    obtain rfl | later := List.mem_cons.mp inside
    · exact .inl List.mem_cons_self
    · exact (inductionHypothesis unescaped later).imp_left (List.mem_cons_of_mem _)

/-! ### Integers -/

theorem isDigit_of_mem_naturalText {n : Nat} {c : Char} (inside : c ∈ naturalText n) : c.isDigit :=
  Nat.isDigit_of_mem_toDigits (by decide) (by decide) inside

theorem readNatural?_of_isDigit {digits : List Char} (nonempty : digits ≠ [])
    (all : ∀ c ∈ digits, c.isDigit) : readNatural? digits = some (digitsValue digits) := by
  have filled : digits.isEmpty = false := List.isEmpty_eq_false_iff.mpr nonempty
  rw [readNatural?, List.all_eq_true.mpr all, filled]
  rfl

theorem readNatural?_naturalText (n : Nat) : readNatural? (naturalText n) = some n := by
  have nonempty : naturalText n ≠ [] := Nat.toDigits_ne_nil
  have value : digitsValue (naturalText n) = n := Nat.ofDigitChars_ten_toDigits
  rw [readNatural?_of_isDigit nonempty fun _ => isDigit_of_mem_naturalText, value]

/-- A numeral that starts with a digit has no sign. -/
theorem takeSign_of_isDigit {text : List Char} (digits : ∀ c, text.head? = some c → c.isDigit) :
    takeSign text = (false, text) := by
  rw [takeSign]
  · rintro _ rfl
    exact absurd (digits _ rfl) (by decide)
  · rintro _ rfl
    exact absurd (digits _ rfl) (by decide)

theorem takeSign_naturalText (n : Nat) : takeSign (naturalText n) = (false, naturalText n) :=
  takeSign_of_isDigit fun _ first => isDigit_of_mem_naturalText (List.mem_of_mem_head? first)

theorem readInteger?_integerText (value : Int) :
    readInteger? (integerText value) = some value := by
  rw [integerText]
  split
  · next negative =>
    rw [readInteger?, takeSign]
    simp only [readNatural?_naturalText]
    exact congrArg some (by simp only [if_true]; omega)
  · next positive =>
    rw [readInteger?, takeSign_naturalText]
    simp only [readNatural?_naturalText]
    exact congrArg some (by simp only [Bool.false_eq_true, if_false]; omega)

/-- A written integer is read as the integer. -/
theorem readInt32?_integerText (value : Int32) :
    readInt32? (integerText value.toInt) = some value := by
  have range : Int32.minValue.toInt ≤ value.toInt ∧ value.toInt ≤ Int32.maxValue.toInt :=
    ⟨value.minValue_le_toInt, value.toInt_le⟩
  rw [readInt32?, readInteger?_integerText, Option.bind_some, if_pos range, Int32.ofInt_toInt]

theorem ordinary_of_mem_integerText {value : Int} {c : Char} (inside : c ∈ integerText value) :
    Ordinary c := by
  rw [integerText] at inside
  split at inside
  · obtain rfl | inside := List.mem_cons.mp inside
    · decide
    · exact ordinary_of_isDigit (isDigit_of_mem_naturalText inside)
  · exact ordinary_of_isDigit (isDigit_of_mem_naturalText inside)

end ThreeAddress.Text
