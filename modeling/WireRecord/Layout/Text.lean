/-
WireRecord.Layout.Text — a layout as text, for people.

One line for each fixed field, with its places in both representations, and the
templates of the variable part as nested blocks.
-/
import WireRecord.Layout

namespace WireRecord

/-- The short name of a byte order. -/
def ByteOrder.tag : ByteOrder → String
  | littleEndian => "le"
  | bigEndian => "be"

/-- Spaces in front of a line, two for each level. -/
def indentation (level : Nat) : String := String.ofList (List.replicate (2 * level) ' ')

/-- The line of a field. -/
def Field.line (f : Field) (level : Nat) : String :=
  let name := if f.name.isEmpty then "<item>" else f.name
  let table := match f.table with
    | some t => s!" enum {t.name}"
    | none => ""
  let constant := match f.constant with
    | some c => s!" = {c.textIn f.table}"
    | none => ""
  s!"{indentation level}{name}: {f.type.name} deser {f.native.offset}+{f.native.size} " ++
    s!"ser {f.wire.offset}+{f.wire.size} {f.order.tag}{table}{constant}"

mutual

/-- The lines of a template and what it contains. -/
def Template.lines (level : Nat) : Template → List String
  | ⟨name, alignment, counter, size, fields, children⟩ =>
    if name.isEmpty then [s!"{indentation level}<align {alignment}>"]
    else
      let count := match counter with
        | some c => s!"[{c}]"
        | none => ""
      let head := s!"{indentation level}{name}{count} align {alignment} " ++
        s!"size {size.native}/{size.wire} \x7b"
      head :: fields.map (·.line (level + 1)) ++ templateLines (level + 1) children ++
        [indentation level ++ "\x7d"]

/-- The lines of templates that follow one another. -/
def templateLines (level : Nat) : List Template → List String
  | [] => []
  | t :: rest => t.lines level ++ templateLines level rest

end

/-- The text of a layout. -/
def Layout.text (l : Layout) : String :=
  let head := s!"struct {l.name} static {l.size.native}/{l.size.wire} bits"
  let rest := if l.isVariable then "  dynamic:" :: templateLines 2 l.templates else []
  "\n".intercalate (head :: l.fields.map (·.line 1) ++ rest)

end WireRecord
