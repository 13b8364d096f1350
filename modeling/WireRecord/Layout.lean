/-
WireRecord.Layout — the compiled form of one struct.

A layout has two parts. The fixed part is a list of fields at known places. The
variable part begins with the first array whose length a buffer decides; what
follows has no place of its own and is kept as templates.

A template is a pattern for instances: the fields of one instance, placed from
its start and named below it, its fixed size, and further templates that follow
it inside the instance. It stands for one instance, or for as many as its
counter says. A template without a name stands for nothing and only moves the
position up to its alignment.
-/
import WireRecord.Field
import WireRecord.Path

namespace WireRecord

/-- A pattern for a piece of the variable part. -/
structure Template where
  /-- The path of its instances, from the record or the enclosing instance. -/
  name : String
  /-- The alignment of an instance, in bytes. -/
  alignment : Nat
  /-- The path of the element that holds the number of instances, if the
  template is an array. -/
  counter : Option String
  /-- The size of the fixed part of one instance. -/
  size : Extent
  /-- The fields of one instance. One without a name is the instance itself. -/
  fields : List Field
  /-- What follows the fixed part inside one instance. -/
  children : List Template
deriving Repr

namespace Template

/-- A template that only moves the position up to an alignment. -/
def marker (alignment : Nat) : Template :=
  { name := "", alignment := alignment, counter := none, size := 0, fields := [], children := [] }

/-- Whether a template stands for no instance. -/
def isMarker (t : Template) : Bool := t.name.isEmpty

/-- Whether a counter decides how many instances there are. -/
def isArray (t : Template) : Bool := t.counter.isSome

end Template

/-- The compiled form of one struct. -/
structure Layout where
  /-- The name of the struct. -/
  name : String
  /-- The fields of the fixed part. -/
  fields : List Field
  /-- The variable part. -/
  templates : List Template
  /-- The tables of the enumerations met, in the order of their names. -/
  tables : List EnumTable
  /-- The size of the fixed part. -/
  size : Extent
deriving Repr

namespace Layout

/-- Whether the struct has a variable part. -/
def isVariable (l : Layout) : Bool := !l.templates.isEmpty

/-- The field of the fixed part with an index. -/
def element (l : Layout) (index : Nat) : Except Error Field :=
  match l.fields[index]? with
  | some f => .ok f
  | none => .error (.noIndex index l.fields.length)

end Layout

end WireRecord
