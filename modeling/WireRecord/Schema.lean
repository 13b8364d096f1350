/-
WireRecord.Schema — descriptions of record types.

A schema declares names for scalars, enumerations and structs. An element of a
struct refers to its type by name, to the element that counts it by name, and
to its constant by the name of an enumeration entry; what these names stand for
is settled here, what follows from them for the layout is not.

A type name is looked up among the declared scalars, then the built-in ones,
then the enumerations, then the structs. `checkNames` refuses a schema in which
one of these lists declares a name twice.
-/
import WireRecord.Bytes.ChunkOrder
import WireRecord.Error

namespace WireRecord

/-- The version of the language a schema is written in. -/
structure Version where
  /-- The leading number. -/
  major : Nat
  /-- The second number. -/
  minor : Nat
deriving DecidableEq, Repr

/-- Before version 3.0 the last struct of a fixed array was not padded at its
end. -/
def Version.isLegacy (v : Version) : Bool := decide (v.major < 3)

/-- A declared name of a scalar. -/
structure Alias where
  /-- The new name. -/
  name : String
  /-- What it stands for. -/
  type : Scalar
deriving DecidableEq, Repr

/-- One name of an enumeration. -/
structure EnumEntry where
  /-- The name. -/
  name : String
  /-- The declared number, as a two's-complement integer. -/
  value : BitVec 64
deriving DecidableEq, Repr

/-- An enumeration: names for numbers of an underlying type. -/
structure EnumDecl where
  /-- The name of the type. -/
  name : String
  /-- The name of the underlying type, which has to be a scalar. -/
  base : String
  /-- The entries in the order of their declaration. -/
  entries : List EnumEntry
deriving DecidableEq, Repr

/-- How often an element is repeated. -/
inductive Repetition where
  /-- A fixed number of times; a plain element is repeated once. -/
  | fixed (n : Nat)
  /-- As often as an earlier element of the same struct says. -/
  | countedBy (element : String)
deriving DecidableEq, Repr

/-- A place on the wire, counted from the start of the enclosing struct. -/
structure WirePosition where
  /-- Whole bytes. -/
  byte : Nat
  /-- Further bits, which may exceed a byte. -/
  bit : Nat
deriving DecidableEq, Repr

/-- The place in bits. -/
def WirePosition.bits (p : WirePosition) : Nat := 8 * p.byte + p.bit

/-- One element of a struct. -/
structure Element where
  /-- The name, which may be empty. -/
  name : String
  /-- The name of the type. -/
  type : String
  /-- The repetition. -/
  repetition : Repetition
  /-- The alignment of the native place, in bytes. -/
  alignment : Nat
  /-- The place on the wire, where it is not simply the next one. -/
  position : Option WirePosition
  /-- The width on the wire in bits, where it is not the native one. -/
  width : Option Nat
  /-- The byte order on the wire. -/
  order : ByteOrder
  /-- The name of the enumeration entry that the element always holds. -/
  constant : Option String
deriving DecidableEq, Repr

/-- A struct. -/
structure StructDecl where
  /-- The name of the type. -/
  name : String
  /-- The alignment of an instance, in bytes. -/
  alignment : Nat
  /-- The elements in order. -/
  elements : List Element
deriving DecidableEq, Repr

/-- A description of record types. -/
structure Schema where
  /-- The version of the language. -/
  version : Version
  /-- The declared names of scalars. -/
  aliases : List Alias
  /-- The enumerations. -/
  enums : List EnumDecl
  /-- The structs. -/
  structs : List StructDecl
deriving DecidableEq, Repr

/-- The first name of a list that occurred before. -/
def firstRepeated? (names : List String) : Option String :=
  go [] names
where
  /-- Goes through the names, with those already met at hand. -/
  go (seen : List String) : List String → Option String
    | [] => none
    | n :: rest => if n ∈ seen then some n else go (n :: seen) rest

namespace Schema

/-- The scalar a name stands for; a declared name wins over a built-in one. -/
def scalar? (s : Schema) (name : String) : Option Scalar :=
  ((s.aliases.find? (·.name == name)).map (·.type)).or (Scalar.ofName? name)

/-- The enumeration with a name. -/
def enum? (s : Schema) (name : String) : Option EnumDecl :=
  s.enums.find? (·.name == name)

/-- The struct with a name. -/
def struct? (s : Schema) (name : String) : Option StructDecl :=
  s.structs.find? (·.name == name)

/-- A name stands for the scalar it is declared for first, and if it is not declared, for
the one that is spelled so. -/
theorem scalar?_eq_some_iff {s : Schema} {name : String} {type : Scalar} :
    s.scalar? name = some type ↔
      (∃ a, s.aliases.find? (·.name == name) = some a ∧ a.type = type) ∨
        (∀ a ∈ s.aliases, a.name ≠ name) ∧ name ∈ type.spellings := by
  unfold scalar?
  rw [Option.or_eq_some_iff, Option.map_eq_some_iff, Option.map_eq_none_iff,
    Scalar.ofName?_eq_some_iff]
  simp

theorem mem_enums_of_enum? {s : Schema} {name : String} {decl : EnumDecl}
    (h : s.enum? name = some decl) : decl ∈ s.enums :=
  List.mem_of_find?_eq_some h

theorem name_of_enum? {s : Schema} {name : String} {decl : EnumDecl}
    (h : s.enum? name = some decl) : decl.name = name := by
  have hfound := List.find?_some h
  simpa using hfound

/-- Refuses names that are declared twice in one of the three lists. -/
def checkNames (s : Schema) : Except Error Unit := do
  if let some n := firstRepeated? (s.aliases.map (·.name)) then throw (.repeatedAlias n)
  if let some n := firstRepeated? (s.enums.map (·.name)) then throw (.repeatedEnum n)
  if let some n := firstRepeated? (s.structs.map (·.name)) then throw (.repeatedStruct n)

/-- All entries of all enumerations, in the order of their declaration. -/
def entries (s : Schema) : List EnumEntry := s.enums.flatMap (·.entries)

end Schema

end WireRecord
