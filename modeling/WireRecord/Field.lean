/-
WireRecord.Field — one addressable field of a record.

A field has a place in both representations. Its native span has the native
size of its type; its wire span may be narrower and start at any bit.
-/
import WireRecord.Arithmetic
import WireRecord.EnumTable

namespace WireRecord

/-- A field: its name and type, and where it lies in both representations. -/
structure Field where
  /-- The path of the field from the record, or from an instance of a template. -/
  name : String
  /-- The type of its values. -/
  type : Scalar
  /-- The names of its values, if it is of an enumeration. -/
  table : Option EnumTable
  /-- The native place. -/
  native : Span
  /-- The place on the wire. -/
  wire : Span
  /-- The byte order on the wire. -/
  order : ByteOrder
  /-- The value the field always holds. -/
  constant : Option Value
deriving DecidableEq, Repr

namespace Field

/-- The place in one representation. -/
def span (f : Field) : Representation → Span
  | .native => f.native
  | .wire => f.wire

/-- The sizes in both representations. -/
def size (f : Field) : Extent := ⟨f.native.size, f.wire.size⟩

/-- The field moved up and given another name. -/
def instantiate (f : Field) (start : Extent) (name : String) : Field :=
  { f with
    name := name
    native := f.native.shift start.native
    wire := f.wire.shift start.wire }

/-- The same, with both places computed by an arithmetic. -/
def instantiateBy (f : Field) (m : Arithmetic) (start : Extent) (name : String) :
    Except Error Field := do
  let native ← m.shift f.native start.native
  let wire ← m.shift f.wire start.wire
  return { f with name := name, native := native, wire := wire }

@[simp] theorem instantiateBy_exact (f : Field) (start : Extent) (name : String) :
    f.instantiateBy .exact start name = .ok (f.instantiate start name) := rfl

end Field

end WireRecord
