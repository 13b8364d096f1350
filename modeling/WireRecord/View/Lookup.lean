/-
WireRecord.View.Lookup — elements by their paths.

The elements of a view stand in the order of the record, so those of one struct
or one array follow one another. A path is found by the first element that lies
below it, and an array ends at the first element that does not.
-/
import WireRecord.View

namespace WireRecord.View

/-- The first index from `start` on whose name has a property. -/
def findFrom? (v : View) (start : Nat) (p : String → Bool) : Option Nat :=
  ((v.elements.drop start).findIdx? fun f => p f.name).map (start + ·)

/-- The index of the element with a name. -/
def find (v : View) (name : String) : Except Error Nat :=
  match v.findFrom? 0 (· == name) with
  | some i => .ok i
  | none => .error (.noElement name)

/-- The index of the first element of the struct at a path. -/
def findStruct (v : View) (path : String) : Except Error Nat :=
  match v.findFrom? 0 (Path.inStruct path) with
  | some i => .ok i
  | none => .error (.noElement path)

/-- The index of the first element of the array at a path. -/
def findArray (v : View) (path : String) : Except Error Nat :=
  match v.findFrom? 0 (Path.inArray path) with
  | some i => .ok i
  | none => .error (.noElement path)

/-- The first index from `start` on that does not belong to the array at a
path. -/
def arrayEnd? (v : View) (path : String) (start : Nat) : Option Nat :=
  v.findFrom? start fun name => !Path.inArray path name

/-! ## Access by name -/

/-- The value of the element with a name. -/
def valueOf (v : View) (name : String) : Except Error Value := do
  v.value (← v.find name)

/-- The view with another value of the element with a name. -/
def setValueOf (v : View) (name : String) (x : Value) : Except Error View := do
  v.setValue (← v.find name) x

/-- The text of the value of the element with a name. -/
def textOf (v : View) (name : String) : Except Error String := do
  let index ← v.find name
  let x ← v.value index
  return x.textIn (← v.element index).table

/-! ## Bytes of structs and arrays -/

/-- The byte an element starts at. -/
def startByte (v : View) (index : Nat) : Except Error Nat := do
  let f ← v.element index
  let s := f.span v.rep
  if s.byteAligned then return s.offset / 8
  else throw (.unalignedStart f.name s.offset)

/-- The bytes of the array at a path, as a start and an end: from its first
element to the element behind it, or to the end of the buffer. -/
def arrayRange (v : View) (path : String) : Except Error (Nat × Nat) := do
  let first ← v.findArray path
  let start ← v.startByte first
  let stop ← match v.arrayEnd? path first with
    | some next => v.startByte next
    | none => pure v.buffer.length
  if stop < start ∨ v.buffer.length < stop then
    throw (.arrayRange path start stop v.buffer.length)
  return (start, stop)

/-- The number of bytes the array at a path takes, padding included. -/
def arrayBytes (v : View) (path : String) : Except Error Nat := do
  let (start, stop) ← v.arrayRange path
  return stop - start

/-- The bytes of the array at a path. -/
def arrayAddress (v : View) (path : String) : Except Error Bytes := do
  let (start, stop) ← v.arrayRange path
  return (v.buffer.drop start).take (stop - start)

/-- The buffer from the first byte of the struct at a path on. -/
def structAddress (v : View) (path : String) : Except Error Bytes := do
  let start ← v.startByte (← v.findStruct path)
  if v.buffer.length < start then throw (.structOutside path)
  return v.buffer.drop start

end WireRecord.View
