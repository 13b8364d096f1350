/-
WireRecord.EnumTable — the names of an enumeration, with their values.

The declared numbers are kept as values of the underlying type, so one that
does not fit is reduced like any other conversion. Both directions of look-up
take the first entry that matches: a name may be declared twice, and several
names may share a value.
-/
import WireRecord.Schema
import WireRecord.Value

namespace WireRecord

/-- The names and values of one enumeration. -/
structure EnumTable where
  /-- The name of the enumeration. -/
  name : String
  /-- The underlying type. -/
  type : Scalar
  /-- The entries in the order of their declaration. -/
  entries : List (String × Value)
deriving DecidableEq, Repr

/-- The declared number of an entry as a value. -/
def EnumEntry.toValue (e : EnumEntry) : Value := .sint .w64 e.value

namespace EnumTable

/-- The table of a declared enumeration over an underlying type. -/
def ofDecl (e : EnumDecl) (type : Scalar) : EnumTable :=
  { name := e.name
    type := type
    entries := e.entries.map fun entry => (entry.name, entry.toValue.convert type) }

/-- The value of a name. -/
def valueOf? (t : EnumTable) (name : String) : Option Value := t.entries.lookup name

/-- The first name of a value, which may be given in any type. -/
def nameOf? (t : EnumTable) (v : Value) : Option String :=
  let v := v.convert t.type
  (t.entries.find? fun entry => entry.2.same v).map (·.1)

end EnumTable

/-- The text of a value: its name in the table if it has one there, else the
plain value. -/
def Value.textIn (v : Value) (table : Option EnumTable) : String :=
  ((table.bind (·.nameOf? v))).getD v.text

end WireRecord
