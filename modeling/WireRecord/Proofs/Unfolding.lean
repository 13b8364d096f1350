/-
WireRecord.Proofs.Unfolding — the elements of a record, straight from its type.

`Shape.unfold` lists the elements of a record without placing, templates or
expansion. It goes through the shape depth first, in the order of declaration. A
fixed array has as many items as it says. A counted one has as many as its
counter holds, and the counter is looked up among the elements of the very
instance that the array is in, by the index it got there: no path is ever read
backwards.

`Shape.rows N` is the same list for counters that are known by their paths, with
a mark wherever a counter is asked for. It is what the marks of a layout are
compared with, and the place for all that is said about names in a record.
-/
import WireRecord.Proofs.PathTheorems
import WireRecord.Proofs.ShapeTheorems
import WireRecord.Proofs.Unrolling

namespace WireRecord

/-! ## Rows -/

/-- An element apart from where it lies. -/
structure Row where
  /-- The full name. -/
  name : String
  /-- The type of its values. -/
  type : Scalar
  /-- The name of the enumeration, if it is of one. -/
  enum : Option String
  /-- The byte order on the wire. -/
  order : ByteOrder
  /-- The width on the wire, in bits. -/
  width : Nat
deriving DecidableEq, Repr

/-- What a field says apart from where it lies. -/
def Field.row (f : Field) : Row :=
  ⟨f.name, f.type, f.table.map (·.name), f.order, f.wire.size⟩

namespace Element

/-- The row of a scalar element under a name. -/
def row (e : Element) (type : Scalar) (table : Option EnumTable) (name : String) : Row :=
  ⟨name, type, table.map (·.name), e.order, e.width.getD type.bits⟩

/-- The paths of the items of an element in an instance at a path, given the
numbers that its counters hold. -/
def items (e : Element) (path : String) (number : String → Option Nat) : Option (List String) :=
  match e.repetition with
  | .fixed n => some ((List.range n).map fun i => Path.itemOf (Path.join path e.name) i n)
  | .countedBy c => (number c).map fun n => (List.range n).map (Path.item (Path.join path e.name))

end Element

/-! ## Unfolding a shape -/

/-- The plain scalar elements of one instance met so far, by name, each with its
index in the record. -/
abbrev Siblings := List (String × Nat)

/-- The siblings after a member whose first element has an index: a scalar that
is not an array can count what follows. -/
def Member.enter (first : Nat) (siblings : Siblings) : Member → Siblings
  | .leaf e _ _ => if e.repetition = .fixed 1 then (e.name, first) :: siblings else siblings
  | .nested _ _ | .cyclic _ _ _ | .unresolved _ _ => siblings

/-- Instances at some paths one after another, the first of which starts with a
given index. -/
def unfoldInstances (one : String → Nat → Option (List Row)) :
    List String → (first : Nat) → Option (List Row)
  | [], _ => some []
  | p :: rest, first => do
    let rows ← one p first
    let more ← unfoldInstances one rest (first + rows.length)
    return rows ++ more

mutual

/-- The elements of an instance of a shape at a path, where `held` is the number
that the element with an index holds and the first element has index `first`. -/
def Shape.unfold (held : Nat → Option Nat) (path : String) (first : Nat) :
    Shape → Option (List Row)
  | .mk _ _ members => unfoldMembers held path first [] members

/-- The elements of the remaining members of an instance. -/
def unfoldMembers (held : Nat → Option Nat) (path : String) (first : Nat) (siblings : Siblings) :
    List Member → Option (List Row)
  | [] => some []
  | m :: rest => do
    let rows ← m.unfold held path first siblings
    let more ← unfoldMembers held path (first + rows.length) (m.enter first siblings) rest
    return rows ++ more

/-- The elements of one member of an instance. -/
def Member.unfold (held : Nat → Option Nat) (path : String) (first : Nat) (siblings : Siblings) :
    Member → Option (List Row)
  | .leaf e type table => do
    let paths ← e.items path fun c => (siblings.lookup c).bind held
    return paths.map (e.row type table)
  | .nested e shape => do
    let paths ← e.items path fun c => (siblings.lookup c).bind held
    unfoldInstances (fun path first => shape.unfold held path first) paths first
  | .cyclic _ _ _ | .unresolved _ _ => none

end

/-! ## Rows and counters by their paths -/

namespace Element

/-- The counter of an element. -/
def counter? (e : Element) : Option String :=
  match e.repetition with
  | .fixed _ => none
  | .countedBy c => some c

/-- The paths of the items of an element, for counters known by their paths. -/
def instances (e : Element) (N : String → Nat) (path : String) : List String :=
  match e.repetition with
  | .fixed n => (List.range n).map fun i => Path.itemOf (Path.join path e.name) i n
  | .countedBy c => (List.range (N (Path.join path c))).map (Path.item (Path.join path e.name))

end Element

/-- Whether no element is repeated as a counter says. -/
def Uncounted (es : List Element) : Prop := ∀ e ∈ es, e.counter? = none

instance : DecidablePred Uncounted := fun es =>
  inferInstanceAs (Decidable (∀ e ∈ es, e.counter? = none))

mutual

/-- The rows of an instance of a shape, and the counters asked for on the way. -/
def Shape.rows (N : String → Nat) (path : String) : Shape → List (Mark Row)
  | .mk _ _ members => membersRows N path members

/-- The rows of some members of an instance. -/
def membersRows (N : String → Nat) (path : String) : List Member → List (Mark Row)
  | [] => []
  | m :: rest => m.rows N path ++ membersRows N path rest

/-- The rows of one member of an instance. -/
def Member.rows (N : String → Nat) (path : String) : Member → List (Mark Row)
  | .leaf e type table =>
    Template.asked path e.counter? ++ (e.instances N path).map fun p => .entry (e.row type table p)
  | .nested e shape =>
    Template.asked path e.counter? ++ (e.instances N path).flatMap fun p => shape.rows N p
  | .cyclic _ _ _ | .unresolved _ _ => []

end

end WireRecord
