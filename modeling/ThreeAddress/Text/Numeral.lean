/-
Decimal numerals. An integer literal has an optional single sign and at least
one ASCII digit, and it must fit in 32 bits.
-/
import ThreeAddress.Text.Escape

namespace ThreeAddress.Text

/-- The number written by decimal digits, most significant first. -/
def digitsValue (digits : List Char) : Nat :=
  digits.foldl (fun value digit => 10 * value + digitValue digit) 0

/-- Reads an unsigned numeral: one or more digits and nothing else. -/
def readNatural? (text : List Char) : Option Nat :=
  if text.isEmpty || !text.all Char.isDigit then none else some (digitsValue text)

/-- Takes an optional sign off a numeral; the flag says whether it was a minus. -/
def takeSign : List Char → Bool × List Char
  | '-' :: rest => (true, rest)
  | '+' :: rest => (false, rest)
  | text => (false, text)

/-- Reads a signed numeral. -/
def readInteger? (text : List Char) : Option Int :=
  let (negative, digits) := takeSign text
  (readNatural? digits).map fun magnitude =>
    if negative then -(magnitude : Int) else magnitude

/-- Reads a signed numeral that fits in 32 bits. -/
def readInt32? (text : List Char) : Option Int32 :=
  (readInteger? text).bind fun value =>
    if Int32.minValue.toInt ≤ value ∧ value ≤ Int32.maxValue.toInt then some (Int32.ofInt value)
    else none

/-- The digits of a natural number. -/
def naturalText (value : Nat) : List Char :=
  Nat.toDigits 10 value

/-- The written form of an integer. -/
def integerText (value : Int) : List Char :=
  if value < 0 then '-' :: naturalText value.natAbs else naturalText value.natAbs

end ThreeAddress.Text
