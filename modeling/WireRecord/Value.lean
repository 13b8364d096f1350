/-
WireRecord.Value — typed values, their bits and their conversions.

`toWord` and `ofWord` connect a value with the bits a field holds. For a field
of `n` bits the way back looks at the low `n` bits only, and a signed type
takes the highest of them as the sign.

`convert` moves a value to another type. Integers are reduced modulo the width,
a truth value is any number but zero, and a step into or out of a floating-point
format rounds once: to the nearest number on the way in, towards zero and into
the range of the type on the way out.
-/
import WireRecord.Float.Rounding
import WireRecord.Float.Shortest
import WireRecord.Scalar
import WireRecord.Word

namespace WireRecord

/-- A value of one scalar type. -/
inductive Value where
  /-- A truth value. -/
  | bool (b : Bool)
  /-- An unsigned integer. -/
  | uint (w : Width) (n : BitVec w.bits)
  /-- A two's-complement integer. -/
  | sint (w : Width) (n : BitVec w.bits)
  /-- A floating-point number, by its pattern. -/
  | float (f : FloatFormat) (x : BitVec f.width)
deriving DecidableEq, Repr

namespace Value

/-- The type of a value. -/
def type : Value → Scalar
  | bool _ => .bool
  | uint w _ => .uint w
  | sint w _ => .sint w
  | float f _ => .float f

/-- The integer a value stands for; a truth value counts as zero or one, and
floating-point numbers stand for none, whole or not. -/
def integer? : Value → Option Int
  | bool b => some b.toNat
  | uint _ n => some n.toNat
  | sint _ n => some n.toInt
  | float _ _ => none

/-- The natural number a value stands for. -/
def natural? (v : Value) : Option Nat :=
  match v.integer? with
  | some (.ofNat n) => some n
  | _ => none

/-- The integer a value stands for, if 64 bits with a sign hold it. -/
def signed64? (v : Value) : Option Int :=
  v.integer?.filter (· ≤ (BitVec.intMax 64).toInt)

/-! ## Bits -/

/-- The bits of a value; a negative integer has all upper bits set. -/
def toWord : Value → Word
  | bool b => if b then 1 else 0
  | uint _ n => n.setWidth 64
  | sint _ n => n.signExtend 64
  | float _ x => x.setWidth 64

/-- The value of a type in the low `n` bits of a word. Above the low `n` bits
the word is taken to be clear, except that a sign reaches into them. -/
def ofWord (t : Scalar) (raw : Word) (n : Nat) : Value :=
  match t with
  | .bool => bool (raw != 0)
  | .uint w => uint w (raw.setWidth w.bits)
  | .sint w => sint w ((Word.signExtend raw n).setWidth w.bits)
  | .float f => float f (raw.setWidth f.width)

/-! ## Conversion -/

/-- An integer as a value of a type. -/
def ofInt (t : Scalar) (n : Int) : Value :=
  match t with
  | .bool => bool (n != 0)
  | .uint w => uint w (BitVec.ofInt w.bits n)
  | .sint w => sint w (BitVec.ofInt w.bits n)
  | .float f => float f (f.ofInt n)

/-- A floating-point number as a value of a type. -/
def ofFloat (t : Scalar) (f : FloatFormat) (x : BitVec f.width) : Value :=
  match t with
  | .bool => bool (!f.isZero x)
  | .uint w => uint w (BitVec.ofInt w.bits (f.toIntClamped 0 (BitVec.allOnes w.bits).toNat x))
  | .sint w =>
    sint w <| BitVec.ofInt w.bits <|
      f.toIntClamped (BitVec.intMin w.bits).toInt (BitVec.intMax w.bits).toInt x
  | .float g => float g (f.convert g x)

/-- The value as one of another type. A value of the type itself stays as it
is, whatever its bits. -/
def convert (v : Value) (t : Scalar) : Value :=
  if v.type = t then v
  else match v with
    | float f x => ofFloat t f x
    | v => ofInt t (v.integer?.getD 0)

/-- Equality as values of one type; floating-point numbers compare as numbers. -/
def same : Value → Value → Bool
  | float .single x, float .single y => FloatFormat.single.sameNumber x y
  | float .double x, float .double y => FloatFormat.double.sameNumber x y
  | v, w => v == w

/-- The text of a value: a decimal number, or a truth value by its name. -/
def text : Value → String
  | bool b => if b then "true" else "false"
  | uint _ n => toString n.toNat
  | sint _ n => toString n.toInt
  | float f x => f.text x

end Value

end WireRecord
