/-
WireRecord.Field.Access — reading and writing one field of a buffer.

A field can be accessed when its window is one to 64 bits long and lies inside
the buffer. In the native representation it also has to consist of whole bytes,
which hold the number least significant byte first. On the wire the window may
start at any bit, and its chunks stand in the byte order of the field.

A value is written as one of the field's type, cut to the width of the window.
The raw forms move the same value as exactly the native bytes of its type.
-/
import WireRecord.Bytes.Window
import WireRecord.Error
import WireRecord.Field

namespace WireRecord.Field

/-- Refuses a field that cannot be accessed in a buffer of `length` bytes. -/
def checkWindow (f : Field) (r : Representation) (length : Nat) : Except Error Unit := do
  let s := f.span r
  if s.size = 0 ∨ 64 < s.size then throw (.fieldSize f.name s.size)
  if 8 * length < s.stop then throw (.fieldOutside f.name s.offset s.stop length)
  if r = .native ∧ ¬(s.byteAligned ∧ s.size % 8 = 0) then
    throw (.unalignedField f.name s.offset s.size)

/-- The byte order of a field in one representation. -/
def orderIn (f : Field) : Representation → ByteOrder
  | .native => .littleEndian
  | .wire => f.order

/-- The number in the window of a field. -/
def load (f : Field) (r : Representation) (b : Bytes) : Word :=
  let s := f.span r
  (f.orderIn r).decode (b.readBits s.offset s.size) s.size

/-- Puts the low bits of a word into the window of a field. -/
def store (f : Field) (r : Representation) (b : Bytes) (w : Word) : Bytes :=
  let s := f.span r
  b.writeBits s.offset s.size ((f.orderIn r).encode (w.low s.size) s.size)

/-- The value of a field. -/
def read (f : Field) (r : Representation) (b : Bytes) : Except Error Value := do
  f.checkWindow r b.length
  return .ofWord f.type (f.load r b) (f.span r).size

/-- The buffer with a value in place of the field's. -/
def write (f : Field) (r : Representation) (b : Bytes) (v : Value) : Except Error Bytes := do
  f.checkWindow r b.length
  return f.store r b (v.convert f.type).toWord

/-- Refuses raw bytes that are not as many as the type has. -/
def checkRaw (f : Field) (length : Nat) : Except Error Unit :=
  if length = f.type.bytes then pure () else throw (.rawLength f.name length f.type)

/-- The value of a field as `length` native bytes. -/
def readRaw (f : Field) (r : Representation) (b : Bytes) (length : Nat) : Except Error Bytes := do
  f.checkRaw length
  let v ← f.read r b
  return .ofWord length v.toWord

/-- The buffer with a value, given as native bytes, in place of the field's. -/
def writeRaw (f : Field) (r : Representation) (b raw : Bytes) : Except Error Bytes := do
  f.checkRaw raw.length
  f.write r b (.ofWord f.type raw.toWord (8 * raw.length))

/-- The bytes that hold a field, as a start and an end, if it starts on a byte
boundary and lies inside a buffer of `length` bytes. -/
def byteRange? (f : Field) (r : Representation) (length : Nat) : Option (Nat × Nat) :=
  let s := f.span r
  let start := s.offset / 8
  let stop := start + bytesFor s.size
  if s.byteAligned ∧ stop ≤ length then some (start, stop) else none

end WireRecord.Field
