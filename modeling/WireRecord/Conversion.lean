/-
WireRecord.Conversion — a record of a schema, carried over in one go.

Compiling a struct, opening a record of it and carrying the record over into a
representation, each step on the result of the one before. The journal holds
what the steps recorded, up to the first that was refused.
-/
import WireRecord.Layout.Compile
import WireRecord.View.Transfer

namespace WireRecord.Schema

/-- The record in a buffer, read in the `source` representation and written in
the `target` one. -/
def convertRecord (s : Schema) (name : String) (source target : Representation) (b : Bytes)
    (m : Arithmetic := .exact) : Except Error Bytes × List Event :=
  match s.compile name m with
  | (.error e, journal) => (.error e, journal)
  | (.ok l, journal) =>
    match View.openJournaled l source b m with
    | (.error e, more) => (.error e, journal ++ more)
    | (.ok v, more) =>
      match v.transfer target with
      | .error e => (.error e, journal ++ more)
      | .ok out => (.ok out, journal ++ more ++ [v.transferEvent target])

end WireRecord.Schema
