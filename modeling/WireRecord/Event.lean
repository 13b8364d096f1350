/-
WireRecord.Event — the journal of compiling, expanding and converting records.

The library writes no log of its own. What is worth telling is recorded as a
list of events, in order, which an operation hands back beside its result, also
when it is refused.
-/
import WireRecord.Extent

namespace WireRecord

/-- How much attention an event deserves. -/
inductive Level where
  /-- Something in a schema has no effect. -/
  | warn
  /-- A step that happens once per layout or view. -/
  | debug
  /-- A step that happens once per array or record. -/
  | trace
deriving DecidableEq, Repr

/-- The name of a level in texts. -/
def Level.name : Level → String
  | warn => "WARN"
  | debug => "DEBUG"
  | trace => "TRACE"

/-- One entry of a journal. -/
inductive Event where
  /-- An element of the variable part carries a wire position, which is not
  heeded there. -/
  | positionIgnored (owner element : String)
  /-- The first counted array begins the variable part of a record. -/
  | variablePart (owner element : String) (start : Extent)
  /-- The table of an enumeration was recorded. -/
  | enumRecorded (name : String) (entries : Nat)
  /-- A layout is complete. -/
  | compiled (layout : String) (fields templates : Nat) (size : Extent)
  /-- A template is repeated from a position on. -/
  | repeated (path : String) (count : Nat) (start : Extent)
  /-- The variable part of a record is complete. -/
  | expanded (layout : String) (fields : Nat) (stop : Extent)
  /-- A record was carried over into another representation. -/
  | transferred (layout : String) (elements : Nat) (source target : Representation)
deriving DecidableEq, Repr

namespace Event

/-- The level of an event. -/
def level : Event → Level
  | positionIgnored _ _ => .warn
  | variablePart _ _ _ | enumRecorded _ _ | compiled _ _ _ _ | expanded _ _ _ => .debug
  | repeated _ _ _ | transferred _ _ _ _ => .trace

/-- The wording of an event. -/
def text : Event → String
  | positionIgnored owner element =>
    s!"{owner}.{element}: serialized position ignored in dynamic section"
  | variablePart owner element start =>
    s!"{owner}.{element}: dynamic section opens at bit {start.native} / {start.wire}"
  | enumRecorded name entries => s!"enum {name} registered with {entries} entries"
  | compiled layout fields templates size =>
    s!"layout {layout}: {fields} fixed fields, {templates} dynamic templates, " ++
      s!"static size {size.native} / {size.wire} bits"
  | repeated path count start =>
    s!"{path}: {count} instance(s) at bit {start.native} / {start.wire}"
  | expanded layout fields stop =>
    s!"{layout}: {fields} dynamic fields materialized, " ++
      s!"record ends at bit {stop.native} / {stop.wire}"
  | transferred layout elements source target =>
    s!"{layout}: {elements} elements transformed {source.name} -> {target.name}"

end Event

end WireRecord
