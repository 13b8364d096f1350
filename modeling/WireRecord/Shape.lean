/-
WireRecord.Shape — a struct with every name in it resolved.

A schema refers to types by name, and nothing keeps a struct from naming itself.
`Schema.shape` follows the names and stops where one leads back to a struct that
is being unfolded, so a shape is always a finite tree: its leaves are scalar
elements and the elements that cannot be laid out, which carry the reason. What
is done with a shape from here on is recursion over that tree.
-/
import WireRecord.EnumTable

namespace WireRecord

mutual

/-- A struct, unfolded. -/
inductive Shape where
  /-- A struct by its name, its alignment in bytes and its members. -/
  | mk (name : String) (alignment : Nat) (members : List Member)

/-- An element of a struct, with what its type name stands for. -/
inductive Member where
  /-- A scalar, or an enumeration with its table. -/
  | leaf (element : Element) (type : Scalar) (table : Option EnumTable)
  /-- Another struct. -/
  | nested (element : Element) (shape : Shape)
  /-- A struct that is being unfolded already. An instance of it would have to
  start on `alignment`. -/
  | cyclic (element : Element) (struct : String) (alignment : Nat)
  /-- A type that cannot be laid out. -/
  | unresolved (element : Element) (reason : Error)

end

namespace Member

/-- The element as the schema describes it. -/
def element : Member → Element
  | leaf e _ _ | nested e _ | cyclic e _ _ | unresolved e _ => e

end Member

namespace Shape

/-- The name of the struct. -/
def name : Shape → String
  | mk name _ _ => name

/-- The declared alignment of the struct, in bytes. -/
def alignment : Shape → Nat
  | mk _ alignment _ => alignment

/-- The members in order. -/
def members : Shape → List Member
  | mk _ _ members => members

end Shape

/-! ## Alignment of instances -/

mutual

/-- The alignment an instance starts on: the largest one of the struct, its
members and the structs among them. The places of members are relative to the
start of the instance, so this is what keeps them aligned in a buffer. -/
def Shape.instanceAlignment : Shape → Nat
  | .mk _ alignment members => max (max alignment 1) (membersAlignment members)

/-- The largest alignment of a list of members. -/
def membersAlignment : List Member → Nat
  | [] => 0
  | m :: rest => max m.instanceAlignment (membersAlignment rest)

/-- The alignment that a member contributes. -/
def Member.instanceAlignment : Member → Nat
  | .leaf e _ _ => e.alignment
  | .nested e shape => max e.alignment shape.instanceAlignment
  | .cyclic e _ alignment => max e.alignment alignment
  | .unresolved e _ => e.alignment

end

/-! ## From a schema -/

namespace Schema

/-- The structs that the elements of some structs refer to. -/
def successors (s : Schema) (structs : List StructDecl) : List StructDecl :=
  structs.flatMap fun d => d.elements.filterMap fun e =>
    if (s.scalar? e.type).isSome || (s.enum? e.type).isSome then none else s.struct? e.type

/-- The structs reachable from some structs in at most `n` steps. -/
def reachable (s : Schema) : Nat → List StructDecl → List StructDecl
  | 0, structs => structs
  | n + 1, structs => s.reachable n (structs ++ s.successors structs).eraseDups

/-- The largest alignment of a struct, its elements, and whatever struct can be
reached from it. As many steps as there are structs reach all of them. -/
def reachableAlignment (s : Schema) (d : StructDecl) : Nat :=
  (s.reachable s.structs.length [d]).foldl
    (fun a t => max a ((t.alignment :: t.elements.map (·.alignment)).foldl max 1)) 1

theorem mem_structs_of_struct?_eq_some {s : Schema} {name : String} {d : StructDecl}
    (h : s.struct? name = some d) : d ∈ s.structs :=
  List.mem_of_find?_eq_some h

/-- The number of structs that are not being unfolded yet. -/
def remaining (s : Schema) (active : List String) : Nat :=
  s.structs.countP (·.name ∉ active)

/-- Unfolding one struct more leaves fewer that are not being unfolded yet. -/
theorem remaining_cons_lt {s : Schema} {active : List String} {d : StructDecl}
    (hd : d ∈ s.structs) (ha : d.name ∉ active) :
    s.remaining (d.name :: active) < s.remaining active := by
  unfold remaining
  generalize s.structs = structs at hd
  induction structs with
  | nil => simp at hd
  | cons t rest ih =>
    have le : rest.countP (·.name ∉ d.name :: active) ≤ rest.countP (·.name ∉ active) :=
      List.countP_mono_left fun u _ hu => by simp at hu ⊢; exact hu.2
    rcases List.mem_cons.1 hd with rfl | hd
    · rw [List.countP_cons_of_neg (by simp), List.countP_cons_of_pos (by simpa using ha)]
      omega
    · have lt := ih hd
      by_cases ht : t.name ∈ active
      · rwa [List.countP_cons_of_neg (by simp [ht]), List.countP_cons_of_neg (by simp [ht])]
      · have right : (t :: rest).countP (·.name ∉ active) = rest.countP (·.name ∉ active) + 1 :=
          List.countP_cons_of_pos (by simpa using ht)
        rw [right, List.countP_cons]
        split <;> omega

/-- The member that an element of a struct is, while the structs named `active`
are being unfolded. -/
def member (s : Schema) (owner : String) (active : List String) (e : Element) : Member :=
  match s.scalar? e.type with
  | some type => .leaf e type none
  | none =>
    match s.enum? e.type with
    | some decl =>
      match s.scalar? decl.base with
      | some type => .leaf e type (some (.ofDecl decl type))
      | none => .unresolved e (.enumBase decl.name decl.base)
    | none =>
      match _hd : s.struct? e.type with
      | some d =>
        if _ha : d.name ∈ active then .cyclic e d.name (s.reachableAlignment d)
        else .nested e (.mk d.name d.alignment
          (d.elements.map (s.member d.name (d.name :: active))))
      | none => .unresolved e (.element owner e.name (.unknownType e.type))
termination_by s.remaining active
decreasing_by exact remaining_cons_lt (mem_structs_of_struct?_eq_some _hd) _ha

/-- A leaf without a table is of the scalar that its type names. -/
theorem scalar?_of_member {s : Schema} {owner : String} {active : List String} {e x : Element}
    {type : Scalar} (h : s.member owner active e = .leaf x type none) :
    x = e ∧ s.scalar? e.type = some type := by
  rw [member] at h
  split at h
  · rename_i type' hscalar
    cases h
    exact ⟨rfl, hscalar⟩
  · split at h
    · split at h <;> cases h
    · split at h
      · split at h <;> cases h
      · cases h

/-- A leaf with a table is of an enumeration, and its type names no scalar. The table has the
name of the declaration, which is that of the type, its base as type, and its entries as
values of that. -/
theorem table_of_member {s : Schema} {owner : String} {active : List String} {e x : Element}
    {type : Scalar} {t : EnumTable} (h : s.member owner active e = .leaf x type (some t)) :
    x = e ∧ s.scalar? e.type = none ∧ ∃ decl, s.enum? e.type = some decl ∧
      t.name = e.type ∧ s.scalar? decl.base = some t.type ∧ t.type = type ∧
      t.entries = decl.entries.map fun entry => (entry.name, entry.toValue.convert type) := by
  rw [member] at h
  split at h
  · cases h
  · rename_i hscalar
    split at h
    · rename_i decl henum
      split at h
      · rename_i type' hbase
        cases h
        exact ⟨rfl, hscalar, decl, henum, name_of_enum? henum, hbase, rfl, rfl⟩
      · cases h
    · split at h
      · split at h <;> cases h
      · cases h

/-- The shape of a struct. -/
def shape (s : Schema) (d : StructDecl) : Shape :=
  .mk d.name d.alignment (d.elements.map (s.member d.name [d.name]))

end Schema

end WireRecord
