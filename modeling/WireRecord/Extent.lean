/-
WireRecord.Extent — the two representations of a record, and places in them.

Every record exists in two forms. The native form is how it lies in memory:
each field at its natural width, on a byte boundary, padded for alignment. The
wire form is packed bit by bit. Sizes and running positions therefore come in
pairs, an `Extent`, counted in bits on both sides; alignment moves the native
side only. The numbers here are exact. `Arithmetic` says what a machine makes of
them.
-/

namespace WireRecord

/-- One of the two forms of a record. -/
inductive Representation where
  /-- Aligned and padded, as in memory. -/
  | native
  /-- Packed, as sent. -/
  | wire
deriving DecidableEq, Repr

/-- The name a representation has in texts. -/
def Representation.name : Representation → String
  | native => "Deserialized"
  | wire => "Serialized"

/-- The number of bytes that hold `n` bits. -/
def bytesFor (n : Nat) : Nat := (n + 7) / 8

/-- The next multiple of `alignment` bytes, for a position in bits. Alignments
of zero and one leave the position as it is. -/
def alignUp (position alignment : Nat) : Nat :=
  if alignment ≤ 1 then position
  else
    let step := 8 * alignment
    (position + (step - 1)) / step * step

/-- A run of bits in one representation. -/
structure Span where
  /-- The first bit. -/
  offset : Nat
  /-- The number of bits. -/
  size : Nat
deriving DecidableEq, Repr

namespace Span

/-- The bit after the last one. -/
def stop (s : Span) : Nat := s.offset + s.size

/-- Whether the span starts on a byte boundary. -/
def byteAligned (s : Span) : Bool := s.offset % 8 == 0

/-- The span moved up. -/
def shift (s : Span) (n : Nat) : Span := { s with offset := s.offset + n }

end Span

/-- A size or a position in both representations, in bits. -/
structure Extent where
  /-- The native side. -/
  native : Nat
  /-- The wire side. -/
  wire : Nat
deriving DecidableEq, Repr

namespace Extent

instance : Zero Extent where
  zero := ⟨0, 0⟩

instance : Add Extent where
  add a b := ⟨a.native + b.native, a.wire + b.wire⟩

/-- The side of one representation, in bits. -/
def bits (e : Extent) : Representation → Nat
  | .native => e.native
  | .wire => e.wire

/-- The bytes that the side of one representation needs. -/
def bytes (e : Extent) (r : Representation) : Nat := bytesFor (e.bits r)

/-- Moves the native side up to an alignment in bytes; the wire is packed. -/
def align (e : Extent) (alignment : Nat) : Extent :=
  { e with native := alignUp e.native alignment }

@[simp] theorem native_zero : (0 : Extent).native = 0 := rfl

@[simp] theorem wire_zero : (0 : Extent).wire = 0 := rfl

@[simp] theorem native_add (a b : Extent) : (a + b).native = a.native + b.native := rfl

@[simp] theorem wire_add (a b : Extent) : (a + b).wire = a.wire + b.wire := rfl

end Extent

end WireRecord
