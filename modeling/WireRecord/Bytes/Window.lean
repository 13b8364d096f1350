/-
WireRecord.Bytes.Window — windows of bits in a string of bytes.

The bits of a string are numbered through it, each byte from its least
significant bit: bit `j` is bit `j % 8` of byte `j / 8`. A window is a run of
at most 64 of them; as a word, its first bit is the lowest.

`readBits` and `writeBits` go through the string byte by byte. A step takes
what the current byte still has, so the first and the last step may be short.
Writing leaves every bit outside the window as it was.
-/
import WireRecord.Word

namespace WireRecord

/-- A string of bytes. -/
abbrev Bytes := List UInt8

namespace Bytes

/-- Bit `j` of the string, numbered through all bytes; past the end, no bit is
set. -/
def bit (b : Bytes) (j : Nat) : Bool :=
  (b.getD (j / 8) 0).toBitVec.getLsbD (j % 8)

/-- The next `size` bits, the first of which is bit `shift` of the first byte. -/
def gather : Bytes → (shift size : Nat) → Word
  | [], _, _ => 0
  | x :: rest, shift, size =>
    if size = 0 then 0
    else
      let take := min (8 - shift) size
      Word.low (x.toBitVec.setWidth 64 >>> shift) take ||| gather rest 0 (size - take) <<< take

/-- The window of `size` bits at `offset`. -/
def readBits (b : Bytes) (offset size : Nat) : Word :=
  gather (b.drop (offset / 8)) (offset % 8) size

/-- Replaces `take` bits of a byte, from bit `shift` on, by the low bits of a
word. -/
def spliceByte (x : UInt8) (shift take : Nat) (w : Word) : UInt8 :=
  let mask := (Word.lowMask take).setWidth 8 <<< shift
  let bits := (Word.low w take).setWidth 8 <<< shift
  ⟨x.toBitVec &&& ~~~mask ||| bits⟩

/-- Replaces the next `size` bits, the first of which is bit `shift` of the
first byte, by the low bits of a word. -/
def scatter : Bytes → (shift size : Nat) → Word → Bytes
  | [], _, _, _ => []
  | x :: rest, shift, size, w =>
    if size = 0 then x :: rest
    else
      let take := min (8 - shift) size
      spliceByte x shift take w :: scatter rest 0 (size - take) (w >>> take)

/-- Replaces the window of `size` bits at `offset` by the low bits of a word. -/
def writeBits (b : Bytes) (offset size : Nat) (w : Word) : Bytes :=
  b.take (offset / 8) ++ scatter (b.drop (offset / 8)) (offset % 8) size w

/-! ## Whole bytes -/

/-- The word a string of bytes spells, least significant byte first. -/
def toWord (b : Bytes) : Word := b.readBits 0 (8 * b.length)

/-- The low `n` bytes of a word, least significant first. -/
def ofWord (n : Nat) (w : Word) : Bytes := writeBits (List.replicate n 0) 0 (8 * n) w

end Bytes

end WireRecord
