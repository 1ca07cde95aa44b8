/-
Rounding of exact fractions. Both directions between decimal text and binary
numbers round a fraction of natural numbers to the nearest integer, and a half
goes to the even neighbour.
-/

namespace ThreeAddress.Number

/-- The integer nearest to `num / den`; a half goes to the even neighbour. -/
def roundDiv (num den : Nat) : Nat :=
  let quotient := num / den
  let remainder := num % den
  if den < 2 * remainder || (2 * remainder == den && quotient % 2 == 1) then quotient + 1
  else quotient

/-- The nearest integer to `num / den` times `base ^ power`. -/
def roundScaled (base num den : Nat) (power : Int) : Nat :=
  match power with
  | .ofNat up => roundDiv (num * Nat.pow base up) den
  | .negSucc down => roundDiv num (den * Nat.pow base (down + 1))

/-- How many decimal digits a number has; zero has none. -/
def decimalLength (n : Nat) : Nat :=
  if n = 0 then 0 else (Nat.toDigits 10 n).length

/-- The exponent of the leading decimal digit of `num / den`, which is positive. -/
def leadingExponent (num den : Nat) : Int :=
  if den ≤ num then (decimalLength (num / den) : Int) - 1
  else -(decimalLength ((den + num - 1) / num - 1) : Int)

end ThreeAddress.Number
