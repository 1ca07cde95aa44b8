/-
Reading of numbers. A numeral is an optional sign, decimal digits with an
optional point and an optional exponent, or one of the words for infinity and
NaN in any case. The result is the double-precision number nearest to the exact
decimal value; a half goes to the even neighbour, and too large a value is
infinite.
-/
import ThreeAddress.Number.Binary64
import ThreeAddress.Number.Rounding
import ThreeAddress.Text.Blank
import ThreeAddress.Text.Numeral

namespace ThreeAddress.Number

/-- The exponent of the leading binary digit of `num / den`, which is positive. -/
def leadingBit (num den : Nat) : Int :=
  let estimate : Int := (Nat.log2 num : Int) - Nat.log2 den
  let reached : Bool :=
    match estimate with
    | .ofNat up => decide (den * Nat.pow 2 up ≤ num)
    | .negSucc down => decide (den ≤ num * Nat.pow 2 (down + 1))
  if reached then estimate else estimate - 1

/-- The number nearest to the positive fraction `num / den`, without sign. A significand that is
rounded up to the next power of two carries into the exponent. -/
def nearestMagnitude (num den : Nat) : Nat :=
  let scale := (leadingBit num den - 52 + 1074).toNat
  let significand := roundScaled 2 num den (1074 - scale)
  min (scale * Nat.pow 2 52 + significand) Binary64.infinityBits

/-- The number nearest to `digits * 10 ^ exponent`. Exponents far outside the range of
double precision are settled without computing the power. -/
def nearest (negative : Bool) (digits : Nat) (exponent : Int) : Binary64 :=
  let top := exponent + decimalLength digits
  if digits = 0 ∨ top < -330 then .ofMagnitude negative 0
  else if 330 < top then .ofMagnitude negative Binary64.infinityBits
  else
    .ofMagnitude negative <|
      match exponent with
      | .ofNat up => nearestMagnitude (digits * Nat.pow 10 up) 1
      | .negSucc down => nearestMagnitude digits (Nat.pow 10 (down + 1))

/-- Reads an exponent: an optional sign and at least one digit. -/
def readExponent? (text : List Char) : Option Int :=
  Text.readInteger? text

/-- Reads an unsigned decimal numeral as its digits and the power of ten they are scaled by. -/
def readDecimal? (text : List Char) : Option (Nat × Int) :=
  let whole := text.takeWhile Char.isDigit
  let afterWhole := text.dropWhile Char.isDigit
  let (fraction, afterFraction) :=
    match afterWhole with
    | '.' :: rest => (rest.takeWhile Char.isDigit, rest.dropWhile Char.isDigit)
    | rest => ([], rest)
  if whole.isEmpty && fraction.isEmpty then none
  else
    let digits := Text.digitsValue (whole ++ fraction)
    let places : Int := fraction.length
    match afterFraction with
    | [] => some (digits, -places)
    | c :: rest =>
      if c = 'e' ∨ c = 'E' then
        (readExponent? rest).map fun exponent => (digits, exponent - places)
      else none

/-- Reads a number. -/
def readBinary64? (text : List Char) : Option Binary64 :=
  let (negative, unsigned) := Text.takeSign text
  match readDecimal? unsigned with
  | some (digits, exponent) => some (nearest negative digits exponent)
  | none =>
    if Text.sameLetters unsigned "inf".toList || Text.sameLetters unsigned "infinity".toList then
      some (.ofMagnitude negative Binary64.infinityBits)
    else if Text.sameLetters unsigned "nan".toList then
      some (.ofMagnitude negative (Binary64.infinityBits + Nat.pow 2 51))
    else none

end ThreeAddress.Number
