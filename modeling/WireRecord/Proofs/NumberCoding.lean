/-
WireRecord.Proofs.NumberCoding — fields accessed through a coding of numbers.

Where a window consists of whole bytes, they need not be put together bit by bit: a
library can take them as a number in one go. Such a library has assertions of its own.
It is called with one to eight bytes, with a buffer that has them, and with a number that
fits them, or the program stops. `NumberCoding` is the part of one that field access
uses, `none` standing for an assertion that fails, and `NumberCoding.Documented` says
what it documents: when it does not stop, and what the bytes are then.

`NumberCoding.get` and `NumberCoding.set` access a field through a coding. Native fields
are slices of the buffer. On the wire, big-endian order turns a window of whole bytes
into a number by writing it in one order and reading it in the other, in a scratch buffer
of eight bytes.
-/
import Mathlib.Data.Nat.Digits.Defs
import WireRecord.Field.Access

namespace WireRecord

/-! ## Numbers in bytes -/

namespace ByteOrder

/-- The bytes of a number in an order, the least significant first; and back. -/
def arrange (o : ByteOrder) (b : Bytes) : Bytes :=
  match o with
  | littleEndian => b
  | bigEndian => b.reverse

/-- The number that bytes spell in an order. -/
def number (o : ByteOrder) (b : Bytes) : Nat := Nat.ofDigits 256 ((o.arrange b).map UInt8.toNat)

end ByteOrder

/-- The `n` bytes from `start` on; nothing, if there are not so many. -/
def Bytes.slice? (b : Bytes) (start n : Nat) : Option Bytes :=
  if start + n ≤ b.length then some ((b.drop start).take n) else none

/-! ## Codings -/

/-- A coding of numbers by the first bytes of a buffer; nothing, where an assertion
fails. -/
structure NumberCoding where
  /-- The number in the first `n` bytes. -/
  readUint (o : ByteOrder) (b : Bytes) (n : Nat) : Option Word
  /-- The buffer with a number in its first `n` bytes. -/
  writeUint (o : ByteOrder) (b : Bytes) (w : Word) (n : Nat) : Option Bytes
  /-- The number in the first eight bytes. -/
  readU64 (o : ByteOrder) (b : Bytes) : Option Word
  /-- The buffer with a number in its first eight bytes. -/
  writeU64 (o : ByteOrder) (b : Bytes) (w : Word) : Option Bytes

/-- A buffer whose first `n` bytes were replaced by those of a number. -/
structure ByteOrder.Spells (o : ByteOrder) (n : Nat) (w : Word) (b b' : Bytes) : Prop where
  length_eq : b'.length = b.length
  drop_eq : b'.drop n = b.drop n
  number_eq : o.number (b'.take n) = w.toNat

namespace NumberCoding

/-- What a coding documents: its assertions, and what is read and written when they
hold. -/
structure Documented (c : NumberCoding) : Prop where
  readUint_isSome : ∀ o b n, (c.readUint o b n).isSome ↔ 1 ≤ n ∧ n ≤ 8 ∧ n ≤ b.length
  readUint_toNat : ∀ o b n w, c.readUint o b n = some w → w.toNat = o.number (b.take n)
  writeUint_isSome : ∀ o b w n, (c.writeUint o b w n).isSome ↔
    1 ≤ n ∧ n ≤ 8 ∧ n ≤ b.length ∧ w.toNat < 256 ^ n
  writeUint_spells : ∀ o b w n b', c.writeUint o b w n = some b' → o.Spells n w b b'
  readU64_isSome : ∀ o b, (c.readU64 o b).isSome ↔ 8 ≤ b.length
  readU64_toNat : ∀ o b w, c.readU64 o b = some w → w.toNat = o.number (b.take 8)
  writeU64_isSome : ∀ o b w, (c.writeU64 o b w).isSome ↔ 8 ≤ b.length
  writeU64_spells : ∀ o b w b', c.writeU64 o b w = some b' → o.Spells 8 w b b'

variable (c : NumberCoding)

/-! ## Windows and numbers in big-endian order -/

/-- The buffer in which numbers are turned around. -/
def scratch : Bytes := List.replicate 8 0

/-- The number in a window of `n` bits that holds it in big-endian order. Whole bytes
are laid out from the least significant one on, and read from the most significant. -/
def numberOf (window : Word) (n : Nat) : Option Word :=
  if n % 8 = 0 then do
    let b ← c.writeU64 .littleEndian scratch window
    c.readUint .bigEndian (← b.slice? 0 (bytesFor n)) (bytesFor n)
  else some (window.ofBigEndian n)

/-- The window of `n` bits that holds a number in big-endian order. -/
def windowOf (number : Word) (n : Nat) : Option Word :=
  if n % 8 = 0 then do
    let front ← c.writeUint .bigEndian (← scratch.slice? 0 (bytesFor n)) number (bytesFor n)
    c.readU64 .littleEndian (front ++ scratch.drop (bytesFor n))
  else some (number.toBigEndian n)

/-! ## Fields -/

/-- The number in the window of a field. -/
def load (f : Field) (r : Representation) (b : Bytes) : Option Word :=
  let s := f.span r
  match r with
  | .native => do
    c.readUint .littleEndian (← b.slice? (s.offset / 8) (s.size / 8)) (s.size / 8)
  | .wire =>
    let window := b.readBits s.offset s.size
    match f.order with
    | .littleEndian => some window
    | .bigEndian => c.numberOf window s.size

/-- The buffer with the low bits of a word in the window of a field. -/
def store (f : Field) (r : Representation) (b : Bytes) (w : Word) : Option Bytes :=
  let s := f.span r
  match r with
  | .native => do
    let start := s.offset / 8
    let n := s.size / 8
    let bytes ← c.writeUint .littleEndian (← b.slice? start n) (w.low (8 * n)) n
    return b.take start ++ bytes ++ b.drop (start + n)
  | .wire => do
    let number := w.low s.size
    let window ← match f.order with
      | .littleEndian => some number
      | .bigEndian => c.windowOf number s.size
    return b.writeBits s.offset s.size window

/-- The value of a field, or why it cannot be read. -/
def get (f : Field) (r : Representation) (b : Bytes) : Option (Except Error Value) :=
  match f.checkWindow r b.length with
  | .error e => some (.error e)
  | .ok _ => (c.load f r b).map fun w => .ok (.ofWord f.type w (f.span r).size)

/-- Writes a value to a field of a buffer. The result is the buffer, together with the
reason if the value cannot be written. -/
def set (f : Field) (r : Representation) (v : Value) (b : Bytes) :
    Option (Except Error Unit × Bytes) :=
  match f.checkWindow r b.length with
  | .error e => some (.error e, b)
  | .ok _ => (c.store f r b (v.convert f.type).toWord).map fun b' => (.ok (), b')

/-! ## A coding -/

/-- The coding that checks its assertions and goes on without further ado. -/
def plain : NumberCoding where
  readUint o b n :=
    if 1 ≤ n ∧ n ≤ 8 ∧ n ≤ b.length then some (.ofNat 64 (o.number (b.take n))) else none
  writeUint o b w n :=
    if 1 ≤ n ∧ n ≤ 8 ∧ n ≤ b.length ∧ w.toNat < 256 ^ n then
      some (o.arrange (.ofWord n w) ++ b.drop n)
    else none
  readU64 o b := if 8 ≤ b.length then some (.ofNat 64 (o.number (b.take 8))) else none
  writeU64 o b w := if 8 ≤ b.length then some (o.arrange (.ofWord 8 w) ++ b.drop 8) else none

end NumberCoding

end WireRecord
