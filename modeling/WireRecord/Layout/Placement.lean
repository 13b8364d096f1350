/-
WireRecord.Layout.Placement — placing the members of a shape one after another.

A draft is a layout in the making. It starts with a fixed part, where every
field gets a place at the cursor. The first counted array begins the variable
part: from there on nothing is placed, every item becomes a template, and the
cursor stays where the fixed part ended. This holds at any depth. An array whose
first item holds a counted array has its other items in the variable part.

How one item is laid out depends on the member, what a fixed or a counted array
of them is does not. So the first is an `ItemRule`, the second `Element.place`,
and the recursion over the shape passes the one to the other.

Inside a template places are relative to the instance and names are relative to
its path, so the placing of a nested struct starts afresh there. Wire positions
of the schema mean nothing behind a part of unknown length and are not heeded.
-/
import WireRecord.Event
import WireRecord.Layout
import WireRecord.Shape

namespace WireRecord

/-! ## What placing keeps track of -/

/-- The tables and events recorded so far. -/
structure Ledger where
  /-- The tables of the enumerations met, in the order of their names. -/
  tables : List EnumTable
  /-- What happened, in order. -/
  journal : List Event
deriving Repr

/-- A step of placing: it may be refused, and what it recorded until then is
kept. -/
abbrev Placing := ExceptT Error (StateM Ledger)

namespace Placing

/-- Adds an event to the journal. -/
def note (e : Event) : Placing Unit :=
  modify fun l => { l with journal := l.journal ++ [e] }

/-- Records the table of an enumeration when it is met for the first time. -/
def record (t : EnumTable) : Placing Unit := do
  let tables := (← get).tables
  unless tables.any (·.name == t.name) do
    note (.enumRecorded t.name t.entries.length)
    modify fun l =>
      { l with
        tables := tables.takeWhile (·.name < t.name) ++ t :: tables.dropWhile (·.name < t.name) }

end Placing

/-- What is the same for all members of a scope. -/
structure Scope where
  /-- Whether the last struct of a fixed array goes without padding. -/
  legacy : Bool
  /-- Whether wire positions are heeded. -/
  positioned : Bool
  /-- The entries of all enumerations, in the order of their declaration. -/
  entries : List EnumEntry
deriving Repr

/-! ## Drafts -/

/-- A layout in the making. -/
structure Draft where
  /-- The fields placed so far. -/
  fields : List Field
  /-- The templates made so far. -/
  templates : List Template
  /-- The place of the next field; the end of the fixed part, once it ended. -/
  cursor : Extent
  /-- The highest bit any field reaches on the wire. -/
  wireEnd : Nat
  /-- Whether the variable part has begun. -/
  varies : Bool
deriving Repr

namespace Draft

/-- The draft without any member. -/
def empty : Draft :=
  { fields := [], templates := [], cursor := 0, wireEnd := 0, varies := false }

/-- Adds a field that was placed at the cursor. -/
def addField (d : Draft) (f : Field) : Draft :=
  { d with
    fields := d.fields ++ [f]
    cursor := d.cursor + f.size
    wireEnd := max d.wireEnd f.wire.stop }

/-- The same, with the new cursor and the end of the field computed by an
arithmetic. -/
def addFieldBy (d : Draft) (m : Arithmetic) (f : Field) : Except Error Draft := do
  let cursor ← m.advance d.cursor f.size
  let stop ← m.stop f.wire
  return { d with
    fields := d.fields ++ [f]
    cursor := cursor
    wireEnd := max d.wireEnd stop }

/-- Adds a template to the variable part. -/
def addTemplate (d : Draft) (t : Template) : Draft :=
  { d with templates := d.templates ++ [t] }

/-- Pads the end of a struct: the cursor moves up, or a marker is left for
whatever follows. -/
def pad (d : Draft) (alignment : Nat) : Draft :=
  if d.varies then if 1 < alignment then d.addTemplate (.marker alignment) else d
  else { d with cursor := d.cursor.align alignment }

/-- The same, with the new cursor computed by an arithmetic. -/
def padBy (d : Draft) (m : Arithmetic) (alignment : Nat) : Except Error Draft := do
  if d.varies then return d.pad alignment
  else return { d with cursor := ← m.align d.cursor alignment }

/-- The size of the fixed part. Wire positions may have moved the cursor back,
so the wire side is what the fields reach at most. -/
def size (d : Draft) : Extent := ⟨d.cursor.native, max d.cursor.wire d.wireEnd⟩

@[simp] theorem addFieldBy_exact (d : Draft) (f : Field) :
    d.addFieldBy .exact f = .ok (d.addField f) := rfl

@[simp] theorem padBy_exact (d : Draft) (alignment : Nat) :
    d.padBy .exact alignment = .ok (d.pad alignment) := by
  unfold padBy
  by_cases h : d.varies = true
  · rw [if_pos h]
    rfl
  · rw [if_neg h, Arithmetic.exact_align, pad, if_neg h]
    rfl

end Draft

/-! ## Fields -/

namespace Element

/-- The value a constant stands for: that of the first recorded table with an
entry of the name, else the first declared entry. -/
def constantValue? (tables : List EnumTable) (entries : List EnumEntry) (token : String) :
    Option Value :=
  (tables.findSome? (·.valueOf? token)).or
    ((entries.find? (·.name == token)).map (·.toValue))

/-- The constant of an element as a value of its type. -/
def resolveConstant (e : Element) (scope : Scope) (owner : String) (type : Scalar) :
    Placing (Option Value) := do
  match e.constant with
  | none => return none
  | some token =>
    match constantValue? (← get).tables scope.entries token with
    | some v => return some (v.convert type)
    | none => throw (.element owner e.name (.unknownConstant token))

/-- The field of a scalar element at a place. -/
def field (e : Element) (scope : Scope) (owner name : String) (type : Scalar)
    (table : Option EnumTable) (start : Extent) : Placing Field := do
  let width := e.width.getD type.bits
  unless 1 ≤ width ∧ width ≤ type.bits do
    throw (.element owner e.name (.width width type))
  let constant ← e.resolveConstant scope owner type
  return { name := name, type := type, table := table
           native := ⟨start.native, type.bits⟩, wire := ⟨start.wire, width⟩
           order := e.order, constant := constant }

end Element

/-! ## Items and arrays -/

/-- How the items of one member are laid out. -/
structure ItemRule where
  /-- Settles what the type of the member stands for. -/
  settle : Placing Unit
  /-- Adds an item with a name at the cursor; `last` tells the last one of a
  fixed array. -/
  place : (name : String) → (last : Bool) → Draft → Placing Draft
  /-- The template of one item, or of all items a counter counts. -/
  template : (name : String) → (counter : Option String) → (last : Bool) → Placing Template

namespace Element

/-- Where the first item of a fixed element starts. A wire position counts from
the start of the struct. -/
def start (e : Element) (scope : Scope) (owner : String) (base : Nat) (cursor : Extent)
    (m : Arithmetic := .exact) : Placing Extent := do
  let aligned ← m.align cursor e.alignment
  match e.position with
  | none => return aligned
  | some p =>
    if scope.positioned then return { aligned with wire := ← m.locate base p }
    else
      Placing.note (.positionIgnored owner e.name)
      return aligned

/-- Places the items of a fixed array; those after a counted array inside an
earlier item belong to the variable part. -/
def placeFixed (e : Element) (scope : Scope) (owner path : String) (base n : Nat)
    (rule : ItemRule) (d : Draft) (m : Arithmetic := .exact) : Placing Draft := do
  if n = 0 then throw (.element owner e.name .noRepetition)
  rule.settle
  let cursor ← e.start scope owner base d.cursor m
  (List.range n).foldlM (fun d i => do
    let name := Path.itemOf (Path.join path e.name) i n
    let last := i + 1 == n
    if d.varies then return d.addTemplate (← rule.template name none last)
    else rule.place name last d) { d with cursor := cursor }

/-- Adds the templates of an element of the variable part. A counter has to be
one of the `earlier` elements of the struct. -/
def placeVarying (e : Element) (owner path : String) (earlier : List String)
    (rule : ItemRule) (d : Draft) : Placing Draft := do
  if e.position.isSome then Placing.note (.positionIgnored owner e.name)
  rule.settle
  let name := Path.join path e.name
  match e.repetition with
  | .countedBy counter =>
    unless counter ≠ "" ∧ counter ∈ earlier do
      throw (.element owner e.name (.uncounted counter))
    return d.addTemplate (← rule.template name (some (Path.join path counter)) false)
  | .fixed n =>
    if n = 0 then throw (.element owner e.name .noRepetition)
    (List.range n).foldlM (fun d i => do
      return d.addTemplate (← rule.template (Path.itemOf name i n) none (i + 1 == n))) d

/-- Places an element: in the fixed part as long as it lasts, which a counted
array ends. -/
def place (e : Element) (scope : Scope) (owner path : String) (base : Nat)
    (earlier : List String) (rule : ItemRule) (d : Draft) (m : Arithmetic := .exact) :
    Placing Draft := do
  if d.varies then e.placeVarying owner path earlier rule d
  else
    match e.repetition with
    | .fixed n => e.placeFixed scope owner path base n rule d m
    | .countedBy _ =>
      Placing.note (.variablePart owner e.name d.cursor)
      e.placeVarying owner path earlier rule { d with varies := true }

end Element

/-! ## Members -/

/-- The items of a scalar member: a field, or a template of the field alone. -/
def ItemRule.leaf (e : Element) (scope : Scope) (owner : String) (type : Scalar)
    (table : Option EnumTable) (m : Arithmetic := .exact) : ItemRule where
  settle := match table with
    | some t => Placing.record t
    | none => pure ()
  place name _ d := do d.addFieldBy m (← e.field scope owner name type table d.cursor)
  template name counter _ := do
    let f ← e.field scope owner "" type table 0
    return { name := name, alignment := e.alignment, counter := counter
             size := f.size, fields := [f], children := [] }

/-- The items of a struct member, given how the struct is placed. An instance
starts on the alignment that keeps its members aligned. -/
def ItemRule.nested (e : Element) (scope : Scope) (alignment : Nat)
    (placeStruct : Scope → (path : String) → (last : Bool) → Draft → Placing Draft)
    (m : Arithmetic := .exact) : ItemRule where
  settle := pure ()
  place name last d := do
    placeStruct scope name last { d with cursor := ← m.align d.cursor alignment }
  template name counter last := do
    let d ← placeStruct { scope with positioned := false } "" last .empty
    return { name := name, alignment := max e.alignment alignment, counter := counter
             size := d.size, fields := d.fields, children := d.templates }

/-- The items of a member that contains its own struct: none can be laid out. -/
def ItemRule.cyclic (struct : String) : ItemRule where
  settle := pure ()
  place _ _ _ := throw (.cyclic struct)
  template _ _ _ := throw (.cyclic struct)

/-- The items of a member whose type cannot be laid out. -/
def ItemRule.unresolved (reason : Error) : ItemRule where
  settle := throw reason
  place _ _ _ := throw reason
  template _ _ _ := throw reason

mutual

/-- Places a struct: its members in order, then the padding at its end. In
legacy schemas the last struct of a fixed array goes without. -/
def Shape.place (scope : Scope) (path : String) (last : Bool) (d : Draft) (shape : Shape)
    (m : Arithmetic := .exact) : Placing Draft :=
  match shape with
  | .mk name alignment members => do
    let d ← placeMembers scope name path d.cursor.wire [] d members m
    if scope.legacy ∧ last then return d else d.padBy m alignment

/-- Places the remaining members of a struct. -/
def placeMembers (scope : Scope) (owner path : String) (base : Nat) (earlier : List String)
    (d : Draft) (members : List Member) (m : Arithmetic := .exact) : Placing Draft :=
  match members with
  | [] => return d
  | member :: rest => do
    let d ← member.place scope owner path base earlier d m
    placeMembers scope owner path base (member.element.name :: earlier) d rest m

/-- Places one member of a struct. -/
def Member.place (scope : Scope) (owner path : String) (base : Nat) (earlier : List String)
    (d : Draft) (member : Member) (m : Arithmetic := .exact) : Placing Draft :=
  match member with
  | .leaf e type table =>
    e.place scope owner path base earlier (.leaf e scope owner type table m) d m
  | .nested e shape =>
    e.place scope owner path base earlier
      (.nested e scope shape.instanceAlignment
        (fun scope path last d => shape.place scope path last d m) m) d m
  | .cyclic e struct _ =>
    e.place scope owner path base earlier (.cyclic struct) d m
  | .unresolved e reason =>
    e.place scope owner path base earlier (.unresolved reason) d m

end

end WireRecord
