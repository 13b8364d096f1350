/-
WireRecord.Bytes.ChunkOrder — the two orders in which a window holds a number.

A window is cut by address into chunks of eight bits, of which the last may be
shorter. Little-endian order takes the chunk at the lowest address as the least
significant one, and the window as a word is the number. Big-endian order takes
it as the most significant one; `ofBigEndian` and `toBigEndian` move the chunks
to their places and back. For a window of whole bytes that is the usual reversal
of bytes. For any other, the short chunk stays at the high address and holds the
low bits of the number.
-/
import WireRecord.Word

namespace WireRecord

/-- The order of the bytes of a number in a field. -/
inductive ByteOrder where
  /-- The least significant byte first. -/
  | littleEndian
  /-- The most significant byte first. -/
  | bigEndian
deriving DecidableEq, Repr

namespace Word

/-- The number in a window of `n` bits that holds it in big-endian order: the
lowest chunk of the window is the highest of the number. -/
def ofBigEndian (w : Word) : (n : Nat) → Word
  | n + 9 => w.low 8 <<< (n + 1) ||| ofBigEndian (w >>> 8) (n + 1)
  | n => w.low n

/-- The window of `n` bits that holds a number in big-endian order: the highest
chunk of the number becomes the lowest of the window. -/
def toBigEndian (w : Word) : (n : Nat) → Word
  | n + 9 => low (w >>> (n + 1)) 8 ||| toBigEndian w (n + 1) <<< 8
  | n => w.low n

end Word

namespace ByteOrder

/-- The number in a window of `n` bits. -/
def decode (o : ByteOrder) (window : Word) (n : Nat) : Word :=
  match o with
  | littleEndian => window
  | bigEndian => window.ofBigEndian n

/-- The window of `n` bits for a number that fits it. -/
def encode (o : ByteOrder) (number : Word) (n : Nat) : Word :=
  match o with
  | littleEndian => number
  | bigEndian => number.toBigEndian n

end ByteOrder

end WireRecord
