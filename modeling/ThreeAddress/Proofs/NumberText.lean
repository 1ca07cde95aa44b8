/-
The text of a number. It is a sign, digits with a point and perhaps an exponent,
or one of the words for infinity and NaN. So it has ordinary characters only,
and it can be read again whatever number it was written for. That the number
read has the same text is not so for every number; six digits do not determine
a number, and among the smallest numbers not even their own text.
-/
import ThreeAddress.Proofs.LiteralGrammar

namespace ThreeAddress.Number

open Text (Ordinary ordinary_of_isDigit forall_mem_of_all)

/-! ### Numerals -/

/-- A decimal numeral: digits, perhaps with a point and more digits behind them. -/
inductive Decimal : List Char → Prop where
  | whole {digits : List Char} (some : digits ≠ []) (all : ∀ c ∈ digits, c.isDigit) :
      Decimal digits
  | fraction {digits places : List Char} (some : digits ≠ []) (all : ∀ c ∈ digits, c.isDigit)
      (allPlaces : ∀ c ∈ places, c.isDigit) : Decimal (digits ++ '.' :: places)

/-- What may follow a decimal numeral. -/
inductive Ending : List Char → Prop where
  | nothing : Ending []
  | exponent {sign : Char} {digits : List Char} (signed : sign = '+' ∨ sign = '-')
      (some : digits ≠ []) (all : ∀ c ∈ digits, c.isDigit) : Ending ('e' :: sign :: digits)

/-- An unsigned number as it is written. -/
def Numeral (text : List Char) : Prop :=
  ∃ decimal ending, text = decimal ++ ending ∧ Decimal decimal ∧ Ending ending

variable {text ending : List Char}

theorem Decimal.ordinary (decimal : Decimal text) : ∀ c ∈ text, Ordinary c := by
  cases decimal with
  | whole some all => exact fun c inside => ordinary_of_isDigit (all c inside)
  | fraction some all allPlaces =>
    refine List.forall_mem_append.mpr ⟨?_, List.forall_mem_cons.mpr ⟨by decide, ?_⟩⟩
    · exact fun c inside => ordinary_of_isDigit (all c inside)
    · exact fun c inside => ordinary_of_isDigit (allPlaces c inside)

theorem Ending.ordinary (ends : Ending ending) : ∀ c ∈ ending, Ordinary c := by
  cases ends with
  | nothing => exact List.forall_mem_nil _
  | exponent signed some all =>
    refine List.forall_mem_cons.mpr ⟨by decide, List.forall_mem_cons.mpr ⟨?_, ?_⟩⟩
    · obtain rfl | rfl := signed <;> decide
    · exact fun c inside => ordinary_of_isDigit (all c inside)

theorem Ending.exists_scale (ends : Ending ending) : ∃ n, Scale ending n := by
  cases ends with
  | nothing => exact ⟨0, .none⟩
  | exponent signed some all =>
    obtain rfl | rfl := signed
    · exact ⟨_, .exponent (.inl rfl) (.signed .plus ⟨some, all⟩)⟩
    · exact ⟨_, .exponent (.inl rfl) (.signed .minus ⟨some, all⟩)⟩

/-- What is written is of the form that is read. -/
theorem Numeral.exists_magnitude (numeral : Numeral text) :
    ∃ digits exponent, Magnitude text digits exponent := by
  obtain ⟨decimal, ending, rfl, isDecimal, ends⟩ := numeral
  obtain ⟨n, scale⟩ := ends.exists_scale
  cases isDecimal with
  | whole some all =>
    exact ⟨_, _, .scaled all .none scale (List.append_ne_nil_of_left_ne_nil some [])⟩
  | @fraction digits places some all allPlaces =>
    rw [List.append_assoc]
    exact ⟨_, _, .scaled all (.point allPlaces) scale
      (List.append_ne_nil_of_left_ne_nil some places)⟩

theorem Numeral.ordinary (numeral : Numeral text) : ∀ c ∈ text, Ordinary c := by
  obtain ⟨decimal, ending, rfl, isDecimal, ends⟩ := numeral
  exact List.forall_mem_append.mpr ⟨isDecimal.ordinary, ends.ordinary⟩

theorem Numeral.isSome_readBinary64? (numeral : Numeral text) (negative : Bool) :
    (readBinary64? ((if negative then ['-'] else []) ++ text)).isSome := by
  obtain ⟨digits, exponent, magnitude⟩ := numeral.exists_magnitude
  have signed : Text.Sign (if negative then ['-'] else []) negative := by
    cases negative with
    | false => exact .none
    | true => exact .minus
  have double := Double.decimal signed magnitude
  exact Option.isSome_iff_exists.mpr ⟨_, readBinary64?_eq_some_iff.mpr double⟩

/-! ### What is written is a numeral -/

theorem isDigit_paddedDigits (width n : Nat) : ∀ c ∈ paddedDigits width n, c.isDigit := by
  refine List.forall_mem_append.mpr ⟨fun c zero => ?_, fun c inside => ?_⟩
  · rw [List.eq_of_mem_replicate zero]
    rfl
  · exact Nat.isDigit_of_mem_toDigits (by decide) (by decide) inside

theorem mem_of_mem_dropTrailing {mark c : Char} (inside : c ∈ dropTrailing mark text) :
    c ∈ text := by
  rw [dropTrailing, List.mem_reverse] at inside
  exact List.mem_reverse.mp ((List.dropWhile_suffix _).subset inside)

theorem dropTrailing_eq_self {mark : Char} (differs : text.getLast? ≠ some mark) :
    dropTrailing mark text = text := by
  rw [dropTrailing, List.reverse_eq_iff]
  cases back : text.reverse with
  | nil => rfl
  | cons last rest =>
    rw [← List.head?_reverse, back, List.head?_cons] at differs
    exact List.dropWhile_cons_of_neg (by simpa using differs)

theorem dropTrailing_append_cons {mark stop : Char} (differs : stop ≠ mark)
    (before after : List Char) :
    dropTrailing mark (before ++ stop :: after) = before ++ stop :: dropTrailing mark after := by
  have stays : (stop :: before.reverse).dropWhile (· == mark) = stop :: before.reverse :=
    List.dropWhile_cons_of_neg (by simpa using differs)
  rw [dropTrailing, dropTrailing, List.reverse_append, List.reverse_cons, List.append_assoc,
    List.singleton_append, List.dropWhile_append, stays]
  split
  · next none =>
    rw [List.isEmpty_iff.mp none]
    simp
  · simp

theorem dropTrailing_concat (mark : Char) (text : List Char) :
    dropTrailing mark (text ++ [mark]) = dropTrailing mark text := by
  rw [dropTrailing, dropTrailing, List.reverse_append, List.reverse_singleton,
    List.singleton_append, List.dropWhile_cons_of_pos (by simp)]

theorem dropTrailing_point {digits : List Char} (all : ∀ c ∈ digits, c.isDigit) :
    dropTrailing '.' digits = digits :=
  dropTrailing_eq_self fun last => absurd (all '.' (List.mem_of_getLast? last)) (by decide)

/-- A fraction without its trailing zeros is a decimal numeral; the point goes if nothing is left
behind it. -/
theorem decimal_trimFraction (n places : Nat) : Decimal (trimFraction (fixedText n places)) := by
  have digits : ∀ c ∈ Nat.toDigits 10 (n / Nat.pow 10 places), c.isDigit := fun _ =>
    Nat.isDigit_of_mem_toDigits (by decide) (by decide)
  rw [fixedText]
  split
  · have pointless : ¬ (Nat.toDigits 10 (n / Nat.pow 10 places)).contains '.' := by
      rw [List.contains_iff_mem]
      exact fun point => absurd (digits '.' point) (by decide)
    rw [trimFraction, if_neg pointless]
    exact .whole Nat.toDigits_ne_nil digits
  · have pointed : (Nat.toDigits 10 (n / Nat.pow 10 places) ++
        '.' :: paddedDigits places (n % Nat.pow 10 places)).contains '.' := by simp
    have rest : ∀ c ∈ dropTrailing '0' (paddedDigits places (n % Nat.pow 10 places)), c.isDigit :=
      fun c inside => isDigit_paddedDigits _ _ c (mem_of_mem_dropTrailing inside)
    rw [trimFraction, if_pos pointed, dropTrailing_append_cons (by decide)]
    generalize dropTrailing '0' (paddedDigits places (n % Nat.pow 10 places)) = kept at rest
    obtain rfl | filled := eq_or_ne kept []
    · rw [dropTrailing_concat, dropTrailing_point digits]
      exact .whole Nat.toDigits_ne_nil digits
    · have last : (Nat.toDigits 10 (n / Nat.pow 10 places) ++ '.' :: kept).getLast? ≠ some '.' := by
        rw [List.getLast?_append, List.getLast?_cons, List.getLast?_eq_some_getLast filled]
        exact fun last =>
          absurd (rest '.' (Option.some.inj last ▸ List.getLast_mem filled)) (by decide)
      rw [dropTrailing_eq_self last]
      exact .fraction Nat.toDigits_ne_nil digits rest

theorem ending_exponentText (exponent : Int) : Ending (exponentText exponent) := by
  refine .exponent ?_ ?_ (isDigit_paddedDigits _ _)
  · split
    · exact .inr rfl
    · exact .inl rfl
  · exact List.append_ne_nil_of_right_ne_nil _ Nat.toDigits_ne_nil

theorem numeral_ratioText (num den : Nat) : Numeral (ratioText num den) := by
  unfold ratioText
  refine iteInduction (fun _ => ?_) fun _ => ?_
  · exact ⟨_, _, rfl, decimal_trimFraction _ _, ending_exponentText _⟩
  · exact ⟨_, _, (List.append_nil _).symm, decimal_trimFraction _ _, .nothing⟩

/-! ### Texts of numbers -/

/-- What is written for a number. -/
inductive Written : List Char → Prop where
  | nan : Written "nan".toList
  | infinity (negative : Bool) : Written ((if negative then ['-'] else []) ++ "inf".toList)
  | numeral (negative : Bool) {text : List Char} (numeral : Numeral text) :
      Written ((if negative then ['-'] else []) ++ text)

theorem written_text (x : Binary64) : Written x.text := by
  have zero : Numeral ['0'] :=
    ⟨['0'], [], rfl, .whole (by decide) (forall_mem_of_all (by decide)), .nothing⟩
  unfold Binary64.text
  split
  · exact .nan
  · dsimp only
    split
    · exact .infinity _
    · split
      · exact .numeral _ zero
      · exact .numeral _ (numeral_ratioText _ _)

theorem Written.ordinary (written : Written text) : ∀ c ∈ text, Ordinary c := by
  have sign (negative : Bool) : ∀ c ∈ if negative then ['-'] else [], Ordinary c := by
    cases negative <;> exact forall_mem_of_all (by decide)
  cases written with
  | nan => exact forall_mem_of_all (by decide)
  | infinity negative =>
    exact List.forall_mem_append.mpr ⟨sign negative, forall_mem_of_all (by decide)⟩
  | numeral negative numeral =>
    exact List.forall_mem_append.mpr ⟨sign negative, numeral.ordinary⟩

theorem Written.isSome_readBinary64? (written : Written text) : (readBinary64? text).isSome := by
  cases written with
  | nan => rfl
  | infinity negative => cases negative <;> rfl
  | numeral negative numeral => exact numeral.isSome_readBinary64? negative

end ThreeAddress.Number
