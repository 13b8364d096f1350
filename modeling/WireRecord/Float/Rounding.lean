/-
WireRecord.Float.Rounding — into, out of and between the floating-point
formats.

Every conversion rounds at most once. A number enters a format as an exact
`m * 2 ^ q`; `roundMagnitude` picks the exponent that leaves as many digits as
the format has, divides, and sends a half to the even neighbour. Because the
patterns of one sign are consecutive where the numbers are, a significand that
rounds up to the next power of two needs no case of its own: the carry runs
into the exponent field, and past the largest number it arrives at infinity.
-/
import WireRecord.Float.Format

namespace WireRecord

/-- The quotient rounded to the nearest integer; a half goes to the even
neighbour. -/
def divNearestEven (n d : Nat) : Nat :=
  let q := n / d
  let r := n % d
  if 2 * r < d then q else if d < 2 * r then q + 1 else q + q % 2

namespace FloatFormat

/-- The magnitude nearest to `m * 2 ^ q`. The exponent is chosen so that the
significand has the format's precision, but is never below the least one, and
what exceeds the largest number becomes infinite. -/
def roundMagnitude (f : FloatFormat) (m : Nat) (q : Int) : Nat :=
  if m = 0 then 0
  else
    let e := max ((m.log2 : Int) + q - (f.precision - 1 : Nat)) f.minExponent
    let r :=
      if e ≤ q then m * Nat.pow 2 (q - e).toNat else divNearestEven m (Nat.pow 2 (e - q).toNat)
    min f.infinity ((e - f.minExponent).toNat * f.hiddenBit + r)

/-- The number of the format nearest to an integer. -/
def ofInt (f : FloatFormat) (n : Int) : BitVec f.width :=
  f.pattern (decide (n < 0)) (f.roundMagnitude n.natAbs 0)

/-- The integer part of a finite magnitude. -/
def truncMagnitude (f : FloatFormat) (mag : Nat) : Nat :=
  let m := f.significand mag
  let q := f.exponent mag
  if 0 ≤ q then m * Nat.pow 2 q.toNat else m / Nat.pow 2 (-q).toNat

/-- The integer part, brought into the range from `lo` to `hi`: what lies
outside the range becomes its nearer end, and what is no number becomes zero. -/
def toIntClamped (f : FloatFormat) (lo hi : Int) (x : BitVec f.width) : Int :=
  if f.isNaN x then 0
  else if f.isInfinite x then (if f.negative x then lo else hi)
  else
    let n : Int := f.truncMagnitude (f.magnitude x)
    max lo (min hi (if f.negative x then -n else n))

/-- The nearest number of another format. The sign is kept; a pattern that is
no number keeps the leading digits of its payload and becomes a quiet one. -/
def convert (f g : FloatFormat) (x : BitVec f.width) : BitVec g.width :=
  let mag := f.magnitude x
  g.pattern (f.negative x) <|
    if f.isNaN x then
      let payload := mag % f.hiddenBit * g.hiddenBit / f.hiddenBit
      g.infinity + (payload ||| g.hiddenBit / 2)
    else if f.isInfinite x then g.infinity
    else g.roundMagnitude (f.significand mag) (f.exponent mag)

end FloatFormat

end WireRecord
