/-
What literals look like. An integer is an optional sign and digits. A number is an
optional sign and digits with an optional point and an optional exponent, or a
word for infinity or NaN. A string is made of characters that stand for themselves
and of codes, three digits behind a backslash. Each relation says which texts are
such literals and what they denote, without regard to how they are read; reading
gives a value for exactly these texts, and the value that they denote.

Reading takes as many digits as there are, so what follows the digits in the
grammar must not begin with one, and what follows an optional sign must not begin
with a sign.
-/
import ThreeAddress.Proofs.Literals

namespace ThreeAddress

namespace Text

variable {text body sign digits : List Char}

/-! ### Integers -/

/-- Whether a text is made of digits, at least one. -/
structure Digits (text : List Char) : Prop where
  nonempty : text ≠ []
  all : ∀ c ∈ text, c.isDigit

/-- The texts of an optional sign, and whether it is a minus. -/
inductive Sign : List Char → Bool → Prop
  | none : Sign [] false
  | plus : Sign ['+'] false
  | minus : Sign ['-'] true

/-- The texts of integers, and the integers. -/
inductive Integer : List Char → Int → Prop
  | signed {sign digits : List Char} {negative : Bool} (signed : Sign sign negative)
      (numeral : Digits digits) :
      Integer (sign ++ digits)
        (if negative then -(digitsValue digits : Int) else digitsValue digits)

theorem readNatural?_eq_some_iff {n : Nat} :
    readNatural? text = some n ↔ Digits text ∧ digitsValue text = n := by
  constructor
  · intro read
    rw [readNatural?] at read
    split at read
    · cases read
    · next digits =>
      rw [Bool.or_eq_true, not_or, Bool.not_eq_true, List.isEmpty_eq_false_iff, Bool.not_eq_true',
        Bool.not_eq_false, List.all_eq_true] at digits
      exact ⟨⟨digits.1, digits.2⟩, Option.some_inj.mp read⟩
  · rintro ⟨digits, rfl⟩
    exact readNatural?_of_isDigit digits.nonempty digits.all

/-- Whether a text does not begin with a sign. -/
def Unsigned (text : List Char) : Prop :=
  ∀ c, text.head? = some c → c ≠ '+' ∧ c ≠ '-'

theorem unsigned_of_isDigit {c : Char} (digit : c.isDigit) (rest : List Char) :
    Unsigned (c :: rest) := by
  rintro _ ⟨⟩
  constructor
  · rintro rfl
    exact absurd digit (by decide)
  · rintro rfl
    exact absurd digit (by decide)

theorem Digits.unsigned (digits : Digits text) : Unsigned text := by
  obtain ⟨c, rest, rfl⟩ := List.exists_cons_of_ne_nil digits.nonempty
  exact unsigned_of_isDigit (digits.all c List.mem_cons_self) rest

theorem takeSign_append {negative : Bool} (signed : Sign sign negative) (unsigned : Unsigned body) :
    takeSign (sign ++ body) = (negative, body) := by
  cases signed with
  | none =>
    rw [List.nil_append, takeSign]
    · rintro rest rfl
      exact (unsigned '-' rfl).2 rfl
    · rintro rest rfl
      exact (unsigned '+' rfl).1 rfl
  | plus => rfl
  | minus => rfl

/-- What is taken off a text is a sign. -/
theorem exists_sign (text : List Char) :
    ∃ sign, Sign sign (takeSign text).1 ∧ text = sign ++ (takeSign text).2 := by
  unfold takeSign
  split
  · exact ⟨['-'], .minus, rfl⟩
  · exact ⟨['+'], .plus, rfl⟩
  · exact ⟨[], .none, rfl⟩

theorem readInteger?_eq_some_iff {n : Int} : readInteger? text = some n ↔ Integer text n := by
  have unfolded : readInteger? text = (readNatural? (takeSign text).2).map fun magnitude : Nat =>
      if (takeSign text).1 then -(magnitude : Int) else magnitude := by
    rw [readInteger?]
    obtain ⟨negative, digits⟩ := takeSign text
    dsimp only
    cases readNatural? digits <;> rfl
  rw [unfolded, Option.map_eq_some_iff]
  constructor
  · rintro ⟨magnitude, natural, rfl⟩
    obtain ⟨digits, rfl⟩ := readNatural?_eq_some_iff.mp natural
    obtain ⟨sign, signed, whole⟩ := exists_sign text
    have integer := Integer.signed signed digits
    rwa [← whole] at integer
  · rintro ⟨signed, digits⟩
    rw [takeSign_append signed digits.unsigned]
    exact ⟨_, readNatural?_of_isDigit digits.nonempty digits.all, rfl⟩

/-- An integer is read if it fits in 32 bits. -/
theorem readInt32?_eq_some_iff {value : Int32} :
    readInt32? text = some value ↔ Integer text value.toInt := by
  rw [← readInteger?_eq_some_iff, readInt32?, Option.bind_eq_some_iff]
  constructor
  · rintro ⟨n, read, range⟩
    split at range
    · next inside =>
      obtain rfl := Option.some_inj.mp range
      rw [read, Int32.toInt_ofInt_of_le inside.1 (Int.lt_of_le_of_lt inside.2 (by decide))]
    · cases range
  · intro read
    refine ⟨value.toInt, read, ?_⟩
    rw [if_pos ⟨value.minValue_le_toInt, value.toInt_le⟩, Int32.ofInt_toInt]

/-! ### Strings -/

/-- The texts of strings, and the strings. -/
inductive Escaped : List Char → List Char → Prop
  | nil : Escaped [] []
  | plain {c : Char} {text string : List Char} (plain : c ≠ '\\') (rest : Escaped text string) :
      Escaped (c :: text) (c :: string)
  | code {a b c : Char} {text string : List Char} (first : a.isDigit) (second : b.isDigit)
      (third : c.isDigit) (rest : Escaped text string) :
      Escaped ('\\' :: a :: b :: c :: text) (Char.ofNat (digitsValue [a, b, c]) :: string)

theorem decodeDigits?_eq_some_iff {a b c decoded : Char} :
    decodeDigits? a b c = some decoded ↔
      (a.isDigit ∧ b.isDigit ∧ c.isDigit) ∧ Char.ofNat (digitsValue [a, b, c]) = decoded := by
  have value : digitsValue [a, b, c] =
      100 * digitValue a + 10 * digitValue b + digitValue c := by
    simp only [digitsValue, List.foldl_cons, List.foldl_nil]
    omega
  rw [decodeDigits?, value]
  split
  · next all => simp_all
  · next bad => simp_all

theorem unescape?_eq_some_iff {string : List Char} :
    unescape? text = some string ↔ Escaped text string := by
  constructor
  · intro read
    fun_induction unescape? text generalizing string with
    | case1 =>
      cases read
      exact .nil
    | case2 a b c rest inductionHypothesis =>
      obtain ⟨decoded, digits, read⟩ := Option.bind_eq_some_iff.mp read
      obtain ⟨others, later, read⟩ := Option.bind_eq_some_iff.mp read
      cases read
      obtain ⟨⟨first, second, third⟩, rfl⟩ := decodeDigits?_eq_some_iff.mp digits
      exact .code first second third (inductionHypothesis later)
    | case3 => cases read
    | case4 c rest _ plain inductionHypothesis =>
      obtain ⟨others, later, rfl⟩ := Option.map_eq_some_iff.mp read
      exact .plain plain (inductionHypothesis later)
  · intro escaped
    induction escaped with
    | nil => rfl
    | plain plain _ inductionHypothesis =>
      rw [unescape?_cons plain, inductionHypothesis, Option.map_some]
    | code first second third _ inductionHypothesis =>
      rw [unescape?, decodeDigits?_eq_some_iff.mpr ⟨⟨first, second, third⟩, rfl⟩,
        inductionHypothesis]
      rfl

end Text

namespace Number

open Text (Digits Sign Integer Unsigned digitsValue takeSign sameLetters)

variable {text body sign : List Char}

/-! ### Numbers -/

/-- The texts of an optional point, and the digits behind it. -/
inductive Point : List Char → List Char → Prop
  | none : Point [] []
  | point {places : List Char} (all : ∀ c ∈ places, c.isDigit) : Point ('.' :: places) places

/-- The texts of an optional exponent, and the exponent. -/
inductive Scale : List Char → Int → Prop
  | none : Scale [] 0
  | exponent {mark : Char} {text : List Char} {n : Int} (marked : mark = 'e' ∨ mark = 'E')
      (power : Integer text n) : Scale (mark :: text) n

/-- The texts of unsigned numbers: the number is made of digits and scaled by a power of ten. -/
inductive Magnitude : List Char → Nat → Int → Prop
  | scaled {whole point places scale : List Char} {exponent : Int} (all : ∀ c ∈ whole, c.isDigit)
      (pointed : Point point places) (scaled : Scale scale exponent) (some : whole ++ places ≠ []) :
      Magnitude (whole ++ (point ++ scale)) (digitsValue (whole ++ places))
        (exponent - places.length)

/-- Whether a text does not begin with a digit. -/
def Stops (text : List Char) : Prop :=
  ∀ c, text.head? = some c → c.isDigit = false

theorem takeWhile_append {digits : List Char} (all : ∀ c ∈ digits, c.isDigit) (stops : Stops text) :
    (digits ++ text).takeWhile Char.isDigit = digits := by
  rw [List.takeWhile_append_of_pos all]
  cases text with
  | nil => exact List.append_nil _
  | cons c rest => rw [List.takeWhile_cons_of_neg (by simp [stops c rfl]), List.append_nil]

theorem dropWhile_append {digits : List Char} (all : ∀ c ∈ digits, c.isDigit) (stops : Stops text) :
    (digits ++ text).dropWhile Char.isDigit = text := by
  rw [List.dropWhile_append_of_pos all]
  cases text with
  | nil => rfl
  | cons c rest => exact List.dropWhile_cons_of_neg (by simp [stops c rfl])

theorem Scale.stops {n : Int} (scale : Scale text n) : Stops text := by
  intro c first
  cases scale with
  | none => cases first
  | exponent marked power =>
    cases first
    obtain rfl | rfl := marked <;> rfl

theorem Point.stops {point places : List Char} (isPoint : Point point places) (stops : Stops text) :
    Stops (point ++ text) := by
  cases isPoint with
  | none => exact stops
  | point all =>
    rintro c ⟨⟩
    rfl

/-- Takes an optional point and the digits behind it off a text. -/
def takePoint : List Char → List Char × List Char
  | '.' :: rest => (rest.takeWhile Char.isDigit, rest.dropWhile Char.isDigit)
  | text => ([], text)

/-- Reads an optional exponent. -/
def readScale? : List Char → Option Int
  | [] => some 0
  | c :: rest => if c = 'e' ∨ c = 'E' then readExponent? rest else none

theorem readDecimal?_eq (text : List Char) :
    readDecimal? text =
      let whole := text.takeWhile Char.isDigit
      let (places, scale) := takePoint (text.dropWhile Char.isDigit)
      if whole ++ places = [] then none
      else (readScale? scale).map fun exponent =>
        (digitsValue (whole ++ places), exponent - places.length) := by
  have scaled (digits : Nat) (shift : Int) (scale : List Char) :
      (match scale with
        | [] => some (digits, -shift)
        | c :: rest =>
          if c = 'e' ∨ c = 'E' then
            (readExponent? rest).map fun exponent => (digits, exponent - shift)
          else none) =
        (readScale? scale).map fun exponent => (digits, exponent - shift) := by
    cases scale with
    | nil => simp [readScale?]
    | cons c rest => by_cases marked : c = 'e' ∨ c = 'E' <;> simp [readScale?, marked]
  have empty (whole places : List Char) :
      (whole.isEmpty && places.isEmpty) = true ↔ whole ++ places = [] := by
    rw [Bool.and_eq_true, List.isEmpty_iff, List.isEmpty_iff, List.append_eq_nil_iff]
  exact if_congr (empty _ _) rfl (scaled _ _ _)

theorem takePoint_append {point places : List Char} (pointed : Point point places)
    {n : Int} (scaled : Scale text n) : takePoint (point ++ text) = (places, text) := by
  cases pointed with
  | none =>
    rw [List.nil_append, takePoint]
    rintro rest rfl
    cases scaled with
    | exponent marked => exact absurd marked (by decide)
  | point all =>
    rw [List.cons_append, takePoint, takeWhile_append all scaled.stops,
      dropWhile_append all scaled.stops]

theorem all_takeWhile (text : List Char) : ∀ c ∈ text.takeWhile Char.isDigit, c.isDigit :=
  List.all_eq_true.mp List.all_takeWhile

/-- What is taken off a text is a point with digits behind it. -/
theorem exists_point (text : List Char) :
    ∃ point, Point point (takePoint text).1 ∧ text = point ++ (takePoint text).2 := by
  unfold takePoint
  split
  · next rest =>
    refine ⟨_, .point (all_takeWhile rest), ?_⟩
    rw [List.cons_append, List.takeWhile_append_dropWhile]
  · exact ⟨[], .none, rfl⟩

theorem readScale?_eq_some_iff {n : Int} : readScale? text = some n ↔ Scale text n := by
  constructor
  · intro read
    unfold readScale? at read
    split at read
    · cases read
      exact .none
    · split at read
      · next marked => exact .exponent marked (Text.readInteger?_eq_some_iff.mp read)
      · cases read
  · rintro (_ | ⟨marked, power⟩)
    · rfl
    · rw [readScale?, if_pos marked]
      exact Text.readInteger?_eq_some_iff.mpr power

theorem readDecimal?_eq_some_iff {digits : Nat} {exponent : Int} :
    readDecimal? text = some (digits, exponent) ↔ Magnitude text digits exponent := by
  rw [readDecimal?_eq]
  constructor
  · intro read
    obtain ⟨point, pointed, behind⟩ := exists_point (text.dropWhile Char.isDigit)
    have whole := List.takeWhile_append_dropWhile (p := Char.isDigit) (l := text)
    rw [behind] at whole
    dsimp only at read
    split at read
    · cases read
    · next some =>
      obtain ⟨power, scaled, same⟩ := Option.map_eq_some_iff.mp read
      cases same
      have magnitude := Magnitude.scaled (all_takeWhile text) pointed
        (readScale?_eq_some_iff.mp scaled) some
      rwa [whole] at magnitude
  · rintro ⟨all, pointed, scaled, some⟩
    have stops := pointed.stops scaled.stops
    rw [takeWhile_append all stops, dropWhile_append all stops, takePoint_append pointed scaled]
    dsimp only
    rw [if_neg some, readScale?_eq_some_iff.mpr scaled, Option.map_some]

/-- A decimal number begins with a digit or a point. -/
theorem Magnitude.head {digits : Nat} {exponent : Int} (magnitude : Magnitude text digits exponent)
    {c : Char} (first : text.head? = some c) : c.isDigit ∨ c = '.' := by
  obtain @⟨whole, point, places, scale, _, all, pointed, scaled, some⟩ := magnitude
  cases whole with
  | cons digit rest =>
    cases first
    exact .inl (all c List.mem_cons_self)
  | nil =>
    cases pointed with
    | none => exact absurd rfl some
    | point =>
      cases first
      exact .inr rfl

theorem Magnitude.unsigned {digits : Nat} {exponent : Int}
    (magnitude : Magnitude text digits exponent) : Unsigned text := by
  intro c first
  obtain digit | rfl := magnitude.head first
  · exact Text.unsigned_of_isDigit digit [] c rfl
  · decide

/-- The words for infinity and NaN, in any case. -/
def Worded (text : List Char) : Prop :=
  sameLetters text "inf".toList ∨ sameLetters text "infinity".toList ∨
    sameLetters text "nan".toList

theorem Worded.head (worded : Worded text) {c : Char} (first : text.head? = some c) :
    c.toLower = 'i' ∨ c.toLower = 'n' := by
  have lowered : (text.map Char.toLower).head? = some c.toLower := by
    rw [List.head?_map, first, Option.map_some]
  obtain same | same | same := worded
  · have letter : ("inf".toList.map Char.toLower).head? = some 'i' := by decide
    exact .inl (Option.some_inj.mp (lowered.symm.trans (beq_iff_eq.mp same ▸ letter)))
  · have letter : ("infinity".toList.map Char.toLower).head? = some 'i' := by decide
    exact .inl (Option.some_inj.mp (lowered.symm.trans (beq_iff_eq.mp same ▸ letter)))
  · have letter : ("nan".toList.map Char.toLower).head? = some 'n' := by decide
    exact .inr (Option.some_inj.mp (lowered.symm.trans (beq_iff_eq.mp same ▸ letter)))

theorem toLower_of_isDigit {c : Char} (digit : c.isDigit) : c.toLower = c := by
  obtain ⟨-, below⟩ := Text.toNat_of_isDigit digit
  refine dif_neg fun upper => ?_
  have above : 65 ≤ c.toNat := UInt32.le_iff_toNat_le.mp upper.1
  omega

/-- Words have no sign, and they are no decimal numbers. -/
theorem Worded.apart (worded : Worded text) : Unsigned text ∧ readDecimal? text = none := by
  constructor
  · intro c first
    constructor <;> rintro rfl <;> exact absurd (worded.head first) (by decide)
  · cases read : readDecimal? text with
    | none => rfl
    | some result =>
      have magnitude := readDecimal?_eq_some_iff.mp read
      obtain ⟨c, rest, rfl⟩ : ∃ c rest, text = c :: rest := by
        cases text with
        | nil =>
          have nothing : ¬ (sameLetters [] "inf".toList ∨ sameLetters [] "infinity".toList ∨
            sameLetters [] "nan".toList) := by decide
          exact absurd worded nothing
        | cons c rest => exact ⟨c, rest, rfl⟩
      have letter := worded.head rfl
      obtain digit | rfl := magnitude.head rfl
      · rw [toLower_of_isDigit digit] at letter
        obtain rfl | rfl := letter <;> exact absurd digit (by decide)
      · exact absurd letter (by decide)

/-- The texts of numbers, and the numbers. -/
inductive Double : List Char → Binary64 → Prop
  | decimal {sign body : List Char} {negative : Bool} {digits : Nat} {exponent : Int}
      (signed : Sign sign negative) (magnitude : Magnitude body digits exponent) :
      Double (sign ++ body) (nearest negative digits exponent)
  | infinite {sign body : List Char} {negative : Bool} (signed : Sign sign negative)
      (word : sameLetters body "inf".toList ∨ sameLetters body "infinity".toList) :
      Double (sign ++ body) (.ofMagnitude negative Binary64.infinityBits)
  | nan {sign body : List Char} {negative : Bool} (signed : Sign sign negative)
      (word : sameLetters body "nan".toList) :
      Double (sign ++ body) (.ofMagnitude negative (Binary64.infinityBits + Nat.pow 2 51))

theorem readBinary64?_eq_some_iff {x : Binary64} :
    readBinary64? text = some x ↔ Double text x := by
  constructor
  · intro read
    obtain ⟨sign, signed, whole⟩ := Text.exists_sign text
    unfold readBinary64? at read
    dsimp only at read
    split at read
    · next digits exponent found =>
      cases read
      have decimal := Double.decimal signed (readDecimal?_eq_some_iff.mp found)
      rwa [← whole] at decimal
    · split at read
      · next word =>
        cases read
        have infinite := Double.infinite signed (by simpa using word)
        rwa [← whole] at infinite
      · split at read
        · next word =>
          cases read
          have nan := Double.nan signed word
          rwa [← whole] at nan
        · cases read
  · rintro (⟨signed, magnitude⟩ | ⟨signed, word⟩ | ⟨signed, word⟩)
    · rw [readBinary64?, Text.takeSign_append signed magnitude.unsigned]
      dsimp only
      rw [readDecimal?_eq_some_iff.mpr magnitude]
    · have apart := Worded.apart (word.elim .inl fun long => .inr (.inl long))
      rw [readBinary64?, Text.takeSign_append signed apart.1]
      dsimp only
      rw [apart.2]
      exact if_pos ((Bool.or_eq_true _ _).mpr word)
    · have apart := Worded.apart (.inr (.inr word))
      have same := beq_iff_eq.mp word
      rw [readBinary64?, Text.takeSign_append signed apart.1]
      dsimp only
      rw [apart.2]
      dsimp only
      rw [if_neg, if_pos word]
      rw [Bool.or_eq_true, sameLetters, sameLetters, same]
      decide

end Number

end ThreeAddress
