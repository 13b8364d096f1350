/-
WireRecord.View — a record in a buffer, seen as a list of elements.

A view holds the fields of a record, in order, together with the buffer they lie
in. A static view has the fixed fields only; a full view has the fields of the
variable part as well, found when it is opened. The fields of a view never
change. Writing changes the buffer, and a counter that was written takes effect
when a new view is opened on it.
-/
import WireRecord.Expansion

namespace WireRecord

/-- A record in a buffer. -/
structure View where
  /-- The layout of the record. -/
  layout : Layout
  /-- The representation of the buffer. -/
  rep : Representation
  /-- The bytes. -/
  buffer : Bytes
  /-- The fields of the variable part. -/
  expanded : List Field
  /-- The size of the record in both representations. -/
  extent : Extent
deriving Repr

namespace View

/-! ## Opening -/

/-- The view of the fixed part. -/
def openStatic (l : Layout) (r : Representation) (b : Bytes) : View :=
  { layout := l, rep := r, buffer := b, expanded := [], extent := l.size }

/-- The view of the whole record, if its variable part can be read, and the
journal of reading it. -/
def openJournaled (l : Layout) (r : Representation) (b : Bytes) (m : Arithmetic := .exact) :
    Except Error View × List Event :=
  match (l.expandTemplates r b m).run.run { fields := [], journal := [] } with
  | (.ok extent, x) =>
    (.ok { layout := l, rep := r, buffer := b, expanded := x.fields, extent := extent }, x.journal)
  | (.error e, x) => (.error e, x.journal)

/-- The view of the whole record. -/
def openFull (l : Layout) (r : Representation) (b : Bytes) (m : Arithmetic := .exact) :
    Except Error View :=
  (openJournaled l r b m).1

/-- The view of hand-made fields. They belong to no struct, so nothing is asked
of the buffer, and the record is as large as the field that reaches farthest. -/
def ofFields (fields : List Field) (r : Representation) (b : Bytes) : View :=
  { layout := { name := "", fields := fields, templates := [], tables := [], size := 0 }
    rep := r
    buffer := b
    expanded := []
    extent :=
      ⟨(fields.map (·.native.stop)).foldl max 0, (fields.map (·.wire.stop)).foldl max 0⟩ }

/-! ## Elements -/

/-- The elements in order: the fixed fields, then those of the variable part. -/
def elements (v : View) : List Field := v.layout.fields ++ v.expanded

/-- The number of elements. -/
def count (v : View) : Nat := v.elements.length

/-- The element with an index. -/
def element (v : View) (index : Nat) : Except Error Field :=
  match v.elements[index]? with
  | some f => .ok f
  | none => .error (.noIndex index v.count)

/-- The bytes the record needs in a representation. -/
def bytes (v : View) (r : Representation) : Nat := v.extent.bytes r

/-- Refuses a buffer that does not hold the fixed part. -/
def checkSize (v : View) : Except Error Unit :=
  let needed := v.layout.size.bytes v.rep
  if v.buffer.length < needed then
    .error (.bufferTooShort v.buffer.length needed v.layout.name)
  else .ok ()

/-! ## Reading -/

/-- The value of an element. -/
def value (v : View) (index : Nat) : Except Error Value := do
  (← v.element index).read v.rep v.buffer

/-- The value of an element as `length` native bytes. -/
def raw (v : View) (index length : Nat) : Except Error Bytes := do
  (← v.element index).readRaw v.rep v.buffer length

/-- The bytes that hold a field, if it starts on a byte boundary inside the
buffer. -/
def fieldBytes? (v : View) (f : Field) : Option Bytes :=
  (f.byteRange? v.rep v.buffer.length).map fun (start, stop) =>
    (v.buffer.drop start).take (stop - start)

/-- The bytes that hold an element, if it can be addressed. -/
def address (v : View) (index : Nat) : Except Error (Option Bytes) := do
  return v.fieldBytes? (← v.element index)

/-! ## Writing -/

/-- The view with another value of an element. -/
def setValue (v : View) (index : Nat) (x : Value) : Except Error View := do
  let b ← (← v.element index).write v.rep v.buffer x
  return { v with buffer := b }

/-- The view with another value of an element, given as native bytes. -/
def setRaw (v : View) (index : Nat) (raw : Bytes) : Except Error View := do
  let b ← (← v.element index).writeRaw v.rep v.buffer raw
  return { v with buffer := b }

/-- The view with other bytes of an element, as many as fit it, and the number of
bytes the element has; nothing, if it cannot be addressed. -/
def setBytes (v : View) (index : Nat) (new : Bytes) : Except Error (Option (Nat × View)) := do
  let f ← v.element index
  return (f.byteRange? v.rep v.buffer.length).map fun (start, stop) =>
    let new := new.take (stop - start)
    let b := v.buffer.take start ++ new ++ v.buffer.drop (start + new.length)
    (stop - start, { v with buffer := b })

/-- Writes the constants of some elements in order. What was written before a
refusal stays. -/
def writeConstants (r : Representation) : List Field → ExceptT Error (StateM Bytes) Unit
  | [] => return
  | f :: rest => do
    if let some c := f.constant then
      match f.write r (← get) c with
      | .ok b => set b
      | .error e => throw e
    writeConstants r rest

/-- Writes the constant of every element that has one. A layout that met no
enumeration leaves the buffer alone. -/
def setConstants (v : View) : Except Error Unit × View :=
  if v.layout.tables.isEmpty then (.ok (), v)
  else
    let (result, b) := (writeConstants v.rep v.elements).run.run v.buffer
    (result, { v with buffer := b })

end View

end WireRecord
