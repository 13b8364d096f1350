/-
WireRecord.Float.Format — the two binary floating-point formats, read off
their bit patterns.

A number is kept as the pattern a buffer holds, never as a machine float, so
every statement about one is a statement about exact integers. Apart from its
sign, a finite pattern stands for `significand * 2 ^ exponent`; the patterns
above `infinity` are not numbers at all.

The patterns of one sign are ordered like the numbers they stand for. That is
why `magnitude`, the pattern without its sign, is all that rounding, comparing
and printing look at.
-/

namespace WireRecord

/-- A binary floating-point format, by its width. -/
inductive FloatFormat where
  /-- 32 bits, 24 of them precision. -/
  | single
  /-- 64 bits, 53 of them precision. -/
  | double
deriving DecidableEq, Repr

namespace FloatFormat

/-- Bits of one number. -/
def width : FloatFormat → Nat
  | single => 32
  | double => 64

/-- Binary digits of a significand, the leading one included. -/
def precision : FloatFormat → Nat
  | single => 24
  | double => 53

/-- The exponent of the last significand digit of the smallest numbers; no
number is written with a smaller one. -/
def minExponent : FloatFormat → Int
  | single => -149
  | double => -1074

/-- The magnitude of infinity: all exponent bits set, no others. -/
def infinity : FloatFormat → Nat
  | single => 0x7f800000
  | double => 0x7ff0000000000000

/-- The weight of the sign bit; every magnitude is below it. -/
def signWeight (f : FloatFormat) : Nat := Nat.pow 2 (f.width - 1)

/-- The weight of the lowest exponent bit, which is the hidden leading digit
of a significand. -/
def hiddenBit (f : FloatFormat) : Nat := Nat.pow 2 (f.precision - 1)

/-! ## Magnitudes -/

/-- The significand of a magnitude: the hidden digit counts unless the exponent
field is zero. -/
def significand (f : FloatFormat) (mag : Nat) : Nat :=
  if mag / f.hiddenBit = 0 then mag else mag % f.hiddenBit + f.hiddenBit

/-- The exponent of the significand's last digit. Exponent fields zero and one
mean the same exponent. -/
def exponent (f : FloatFormat) (mag : Nat) : Int :=
  f.minExponent + (mag / f.hiddenBit - 1 : Nat)

/-! ## Patterns -/

/-- The pattern of a given sign and magnitude. -/
def pattern (f : FloatFormat) (negative : Bool) (mag : Nat) : BitVec f.width :=
  BitVec.ofNat f.width ((if negative then f.signWeight else 0) + mag)

/-- The sign bit, which a zero and a non-number have too. -/
def negative (f : FloatFormat) (x : BitVec f.width) : Bool :=
  decide (f.signWeight ≤ x.toNat)

/-- The pattern without its sign. -/
def magnitude (f : FloatFormat) (x : BitVec f.width) : Nat :=
  x.toNat % f.signWeight

/-- Whether the pattern stands for no number, not even an infinite one. -/
def isNaN (f : FloatFormat) (x : BitVec f.width) : Bool :=
  decide (f.infinity < f.magnitude x)

/-- Whether the pattern stands for one of the two infinities. -/
def isInfinite (f : FloatFormat) (x : BitVec f.width) : Bool :=
  f.magnitude x == f.infinity

/-- Whether the pattern is one of the two zeros. -/
def isZero (f : FloatFormat) (x : BitVec f.width) : Bool :=
  f.magnitude x == 0

/-- Equality of numbers: the two zeros are equal, and what is not a number
equals nothing, itself included. -/
def sameNumber (f : FloatFormat) (x y : BitVec f.width) : Bool :=
  !f.isNaN x && !f.isNaN y && (x == y || (f.isZero x && f.isZero y))

end FloatFormat

end WireRecord
