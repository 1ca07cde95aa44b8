/-
The text of a number with six significant digits. The exact value is rounded to
six digits, a half to the even neighbour; trailing zeros of a fraction are left
out. Numbers whose leading digit stands at an exponent below `-4` or from `6` on
are written with an exponent of at least two digits.
-/
import ThreeAddress.Number.Binary64
import ThreeAddress.Number.Rounding

namespace ThreeAddress.Number

/-- How many significant digits are written. -/
def precision : Nat := 6

/-- The digits of `n`, filled with zeros in front up to `width`. -/
def paddedDigits (width n : Nat) : List Char :=
  let digits := Nat.toDigits 10 n
  List.replicate (width - digits.length) '0' ++ digits

/-- The text without the characters `c` at its end. -/
def dropTrailing (c : Char) (text : List Char) : List Char :=
  (text.reverse.dropWhile (· == c)).reverse

/-- A decimal fraction without the zeros at its end, nor a point that then ends it. -/
def trimFraction (text : List Char) : List Char :=
  if text.contains '.' then dropTrailing '.' (dropTrailing '0' text) else text

/-- `n / 10 ^ places` written with exactly that many places. -/
def fixedText (n places : Nat) : List Char :=
  let whole := Nat.toDigits 10 (n / Nat.pow 10 places)
  if places = 0 then whole
  else whole ++ '.' :: paddedDigits places (n % Nat.pow 10 places)

/-- An exponent with its sign and at least two digits. -/
def exponentText (exponent : Int) : List Char :=
  'e' :: (if exponent < 0 then '-' else '+') :: paddedDigits 2 exponent.natAbs

/-- The text of the positive fraction `num / den`. -/
def ratioText (num den : Nat) : List Char :=
  let leading := leadingExponent num den
  let rounded := roundScaled 10 num den (5 - leading)
  let carried := rounded = Nat.pow 10 precision
  let digits := if carried then Nat.pow 10 (precision - 1) else rounded
  let exponent := if carried then leading + 1 else leading
  if exponent < -4 ∨ (precision : Int) ≤ exponent then
    trimFraction (fixedText digits (precision - 1)) ++ exponentText exponent
  else
    let places := (5 - exponent).toNat
    trimFraction (fixedText (roundScaled 10 num den places) places)

/-- The text of a number. -/
def Binary64.text (x : Binary64) : List Char :=
  if x.isNaN then "nan".toList
  else
    let sign := if x.isNegative then ['-'] else []
    if x.isInfinite then sign ++ "inf".toList
    else if x.isZero then sign ++ ['0']
    else
      let (num, den) := x.ratio
      sign ++ ratioText num den

end ThreeAddress.Number
