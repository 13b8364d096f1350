/-
WireRecord.Layout.Compile — from a schema to the layout of one of its structs.

Compiling checks the names, unfolds the struct and places its shape. It yields
a layout or the first error met on the way, and a journal in either case.
-/
import WireRecord.Layout.Placement

namespace WireRecord.Schema

/-- The struct with a name in a schema without repeated names. -/
def root (s : Schema) (name : String) : Except Error StructDecl := do
  s.checkNames
  match s.struct? name with
  | some d => return d
  | none => throw (.noStruct name)

/-- The scope of a whole record. -/
def scope (s : Schema) : Scope :=
  { legacy := s.version.isLegacy, positioned := true, entries := s.entries }

/-- Places a struct as a record of its own. -/
def placeRecord (s : Schema) (d : StructDecl) (m : Arithmetic := .exact) : Placing Layout := do
  let draft ← (s.shape d).place s.scope "" false .empty m
  Placing.note (.compiled d.name draft.fields.length draft.templates.length draft.size)
  return { name := d.name, fields := draft.fields, templates := draft.templates
           tables := (← get).tables, size := draft.size }

/-- The layout of a struct, and the journal of how it came about. -/
def compile (s : Schema) (name : String) (m : Arithmetic := .exact) :
    Except Error Layout × List Event :=
  match s.root name with
  | .error e => (.error e, [])
  | .ok d =>
    let (result, ledger) := (s.placeRecord d m).run.run { tables := [], journal := [] }
    (result, ledger.journal)

/-- The layout of a struct. -/
def layout (s : Schema) (name : String) (m : Arithmetic := .exact) : Except Error Layout :=
  (s.compile name m).1

end WireRecord.Schema
