/-
WireRecord.Expansion — the variable part of a record, read off a buffer.

The templates of a layout are gone through in order. A counted one is repeated
as often as its counter says; the counter is the first field of that name among
the fixed ones and those already found, so it has to come before the array. Each
instance starts on the alignment of its template, and its fields have to end
within the buffer.

More items than the buffer has bits cannot all take up space in it, so a larger
count is refused before anything is repeated.
-/
import WireRecord.Event
import WireRecord.Field.Access
import WireRecord.Layout

namespace WireRecord

/-- The fields found so far, and the events on the way. -/
structure Expansion where
  /-- The fields of the variable part, in order. -/
  fields : List Field
  /-- What happened, in order. -/
  journal : List Event
deriving Repr

/-- A step of expanding: it may be refused, and what it recorded until then is
kept. -/
abbrev Expanding := ExceptT Error (StateM Expansion)

/-- What an expansion is read off. -/
structure Source where
  /-- The fields of the fixed part. -/
  fixed : List Field
  /-- The representation of the buffer. -/
  rep : Representation
  /-- The record. -/
  buffer : Bytes
deriving Repr

namespace Source

/-- Adds an event to the journal. -/
def note (e : Event) : Expanding Unit :=
  modify fun x => { x with journal := x.journal ++ [e] }

/-- The number of items a counter holds, given the fields found so far. -/
def count (src : Source) (found : List Field) (path : String) : Except Error Nat := do
  match (src.fixed.find? (·.name == path)).or (found.find? (·.name == path)) with
  | none => throw (.counterMissing path)
  | some f =>
    let v ← f.read src.rep src.buffer
    match v.natural? with
    | none => throw (.counterValue path v)
    | some n =>
      if 8 * src.buffer.length < n then throw (.counterTooLarge n path src.buffer.length)
      return n

/-- How often a template is repeated: once, unless it has a counter. -/
def repetitions (src : Source) (path : String) (counter : Option String) : Expanding Nat := do
  match counter with
  | none => return 1
  | some c =>
    match src.count (← get).fields (Path.join path c) with
    | .ok n => return n
    | .error e => throw e

/-- Adds a field of an instance, which has to end within the buffer. -/
def addField (src : Source) (instancePath : String) (start : Extent) (f : Field)
    (m : Arithmetic := .exact) : Expanding Unit := do
  let f ← f.instantiateBy m start (Path.join instancePath f.name)
  let stop ← m.stop (f.span src.rep)
  if 8 * src.buffer.length < stop then
    throw (.instanceOutside f.name stop src.buffer.length)
  modify fun x => { x with fields := x.fields ++ [f] }

mutual

/-- Repeats a template below a path, from a position on. The result is the
position behind it. -/
def expand (src : Source) (path : String) (start : Extent) (t : Template)
    (m : Arithmetic := .exact) : Expanding Extent :=
  match t with
  | ⟨name, alignment, counter, size, fields, children⟩ => do
    let start ← m.align start alignment
    if name.isEmpty then return start
    let whole := Path.join path name
    let n ← src.repetitions path counter
    note (.repeated whole n start)
    let stop ← (List.range n).foldlM (fun position i => do
      let position ← m.align position alignment
      let instancePath := if counter.isSome then Path.item whole i else whole
      fields.forM fun f => src.addField instancePath position f m
      src.expandAll instancePath (← m.advance position size) children m) start
    m.align stop alignment

/-- Repeats templates that follow one another. -/
def expandAll (src : Source) (path : String) (start : Extent) (ts : List Template)
    (m : Arithmetic := .exact) : Expanding Extent :=
  match ts with
  | [] => return start
  | t :: rest => do
    let stop ← src.expand path start t m
    src.expandAll path stop rest m

end

end Source

namespace Layout

/-- The fields of the variable part of a record, and its size in both
representations. A layout without templates asks nothing of the buffer. -/
def expandTemplates (l : Layout) (r : Representation) (b : Bytes) (m : Arithmetic := .exact) :
    Expanding Extent := do
  if !l.isVariable then return l.size
  let stop ← Source.expandAll ⟨l.fields, r, b⟩ "" l.size l.templates m
  Source.note (.expanded l.name (← get).fields.length stop)
  return stop

end Layout

end WireRecord
