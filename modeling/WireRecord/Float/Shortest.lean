/-
WireRecord.Float.Shortest — the shortest decimal text that reads back as the
same number.

The reals that round to one floating-point number form an interval around it:
half a unit up, and half a unit down or, just above a power of two, a quarter.
Its ends belong to it exactly when the significand is even, since a half goes
to the even neighbour. `shortest` lays decimal grids over this interval, from
coarse to fine, and stops at the first grid with a point inside. On that grid
only the two neighbours of the number can be the nearest point; an exact tie
goes up.

The text is positional at every size: zeros fill the places up to the point,
whole numbers have no point, and the sign of zero is shown.
-/
import WireRecord.Float.Format

namespace WireRecord

/-- The number `digits * 10 ^ exponent`. -/
structure Decimal where
  /-- The significant digits as one number. -/
  digits : Nat
  /-- The decimal exponent of the last digit. -/
  exponent : Int
deriving DecidableEq, Repr

namespace Decimal

/-- Positional notation, with as many zeros as the exponent asks for. -/
def text (d : Decimal) : String :=
  let s := toString d.digits
  if 0 ≤ d.exponent then s ++ String.ofList (List.replicate d.exponent.toNat '0')
  else
    let places := (-d.exponent).toNat
    -- one digit stands before the point even when the number is below one
    let padded := List.replicate (places + 1 - s.length) '0' ++ s.toList
    let whole := padded.length - places
    String.ofList (padded.take whole) ++ "." ++ String.ofList (padded.drop whole)

end Decimal

namespace FloatFormat

/-- The reals that round to one number, measured in quarters of the unit of its
last digit: from `below` under the centre to `above` over it. -/
structure Basin where
  /-- The number itself. -/
  centre : Nat
  /-- How far the interval reaches down. -/
  below : Nat
  /-- How far the interval reaches up. -/
  above : Nat
  /-- Whether the two ends round to the number as well. -/
  closed : Bool
  /-- The binary exponent of a quarter of the last digit's unit. -/
  exponent : Int
deriving DecidableEq, Repr

/-- The interval that rounds to a magnitude. Above a power of two the next
number down is only half as far, unless the format has no finer digits. -/
def basin (f : FloatFormat) (mag : Nat) : Basin :=
  let m := f.significand mag
  let q := f.exponent mag
  { centre := 4 * m
    below := if m = f.hiddenBit ∧ f.minExponent < q then 1 else 2
    above := 2
    closed := m % 2 == 0
    exponent := q - 2 }

/-- Whether a point of the measure lies in the interval. -/
def Basin.contains (b : Basin) (scale point : Nat) : Bool :=
  let low := (b.centre - b.below) * scale
  let high := (b.centre + b.above) * scale
  if b.closed then decide (low ≤ point ∧ point ≤ high) else decide (low < point ∧ point < high)

/-- The point of the grid `10 ^ k` that lies in the interval, the nearer one of
two, and of two equally near ones the upper. -/
def Basin.onGrid? (b : Basin) (k : Int) : Option Decimal :=
  -- both the interval and the grid in units of which each is a whole multiple
  let scale := Nat.pow 2 b.exponent.toNat * Nat.pow 10 (-k).toNat
  let step := Nat.pow 10 k.toNat * Nat.pow 2 (-b.exponent).toNat
  let centre := b.centre * scale
  let d := centre / step
  let lower := d * step
  let upper := (d + 1) * step
  match b.contains scale lower, b.contains scale upper with
  | true, true => some ⟨if centre - lower < upper - centre then d else d + 1, k⟩
  | true, false => some ⟨d, k⟩
  | false, true => some ⟨d + 1, k⟩
  | false, false => none

/-- The first hit on the grids `10 ^ k`, `10 ^ (k - 1)`, and so on. -/
def Basin.coarsest (b : Basin) : Nat → Int → Decimal
  | 0, k => (b.onGrid? k).getD ⟨0, 0⟩
  | n + 1, k => (b.onGrid? k).getD (b.coarsest n (k - 1))

/-- The shortest decimal that reads back as the magnitude. The first grid is
coarser than the number, since `30103 / 100000` exceeds the decimal logarithm
of two, and twenty grids on one is finer than any interval. -/
def shortest (f : FloatFormat) (mag : Nat) : Decimal :=
  let length : Int := (f.significand mag).log2 + f.exponent mag + 1
  (f.basin mag).coarsest 20 (length * 30103 / 100000 + 1)

/-- The text of a pattern. -/
def text (f : FloatFormat) (x : BitVec f.width) : String :=
  if f.isNaN x then "NaN"
  else
    (if f.negative x then "-" else "") ++
      if f.isInfinite x then "inf"
      else if f.isZero x then "0"
      else (f.shortest (f.magnitude x)).text

end FloatFormat

end WireRecord
