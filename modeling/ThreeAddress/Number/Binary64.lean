/-
Double-precision numbers as their sixty-four bits. A number is kept as bits and
its exact value is a significand times a power of two, so that printing and
reading are arithmetic on natural numbers. Two numbers compare equal as
IEEE 754 says: a NaN equals nothing and the two zeros are equal.
-/

namespace ThreeAddress.Number

/-- A double-precision number, given by its bits. -/
structure Binary64 where
  bits : UInt64
deriving DecidableEq, Repr

namespace Binary64

/-- The bit patterns from `infinityBits` on (without the sign) are infinity and the NaNs. -/
def infinityBits : Nat := 2047 * Nat.pow 2 52

/-- The bits without the sign. -/
def magnitude (x : Binary64) : Nat :=
  x.bits.toNat % Nat.pow 2 63

/-- Whether the sign bit is set. -/
def isNegative (x : Binary64) : Bool :=
  Nat.pow 2 63 ≤ x.bits.toNat

/-- Whether the number is a NaN. -/
def isNaN (x : Binary64) : Bool :=
  infinityBits < x.magnitude

/-- Whether the number is one of the two infinities. -/
def isInfinite (x : Binary64) : Bool :=
  x.magnitude == infinityBits

/-- Whether the number is one of the two zeros. -/
def isZero (x : Binary64) : Bool :=
  x.magnitude == 0

/-- Equality of numbers: a NaN equals nothing, and the zeros are equal. -/
def same (x y : Binary64) : Bool :=
  !x.isNaN && !y.isNaN && (x.bits == y.bits || (x.isZero && y.isZero))

/-- The number with a given sign and given remaining bits. -/
def ofMagnitude (negative : Bool) (magnitude : Nat) : Binary64 :=
  ⟨UInt64.ofNat (if negative then Nat.pow 2 63 + magnitude else magnitude)⟩

/-- Positive zero. -/
def zero : Binary64 := ⟨0⟩

/-- The significand of a finite number. -/
def significand (x : Binary64) : Nat :=
  let fraction := x.magnitude % Nat.pow 2 52
  if x.magnitude < Nat.pow 2 52 then fraction else Nat.pow 2 52 + fraction

/-- How far the power of two of a finite number lies above the least one, which is `-1074`. -/
def scale (x : Binary64) : Nat :=
  x.magnitude / Nat.pow 2 52 - 1

/-- The absolute value of a finite number as a fraction, numerator and denominator. -/
def ratio (x : Binary64) : Nat × Nat :=
  if 1074 ≤ x.scale then (x.significand * Nat.pow 2 (x.scale - 1074), 1)
  else (x.significand, Nat.pow 2 (1074 - x.scale))

end Binary64

end ThreeAddress.Number
