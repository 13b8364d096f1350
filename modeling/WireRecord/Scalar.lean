/-
WireRecord.Scalar — the primitive types of fields.

A scalar has one canonical name, the one every text shows, and may be written
under further names in a schema. Its native size is what it takes in memory; on
the wire a field of the type may be narrower.
-/
import WireRecord.Float.Format

namespace WireRecord

/-- The widths of integers. -/
inductive Width where
  /-- One byte. -/
  | w8
  /-- Two bytes. -/
  | w16
  /-- Four bytes. -/
  | w32
  /-- Eight bytes. -/
  | w64
deriving DecidableEq, Repr

/-- The width in bits. -/
def Width.bits : Width → Nat
  | w8 => 8
  | w16 => 16
  | w32 => 32
  | w64 => 64

/-- The type of a field. -/
inductive Scalar where
  /-- A truth value. -/
  | bool
  /-- An unsigned integer. -/
  | uint (w : Width)
  /-- A two's-complement integer. -/
  | sint (w : Width)
  /-- A floating-point number. -/
  | float (f : FloatFormat)
deriving DecidableEq, Repr

namespace Scalar

/-- The canonical name. -/
def name : Scalar → String
  | bool => "tBool"
  | sint .w8 => "tInt8"
  | uint .w8 => "tUInt8"
  | sint .w16 => "tInt16"
  | uint .w16 => "tUInt16"
  | sint .w32 => "tInt32"
  | uint .w32 => "tUInt32"
  | sint .w64 => "tInt64"
  | uint .w64 => "tUInt64"
  | float .single => "tFloat32"
  | float .double => "tFloat64"

/-- Every name a scalar is known under without being declared. -/
def builtinNames : List (String × Scalar) :=
  [ ("tBool", bool), ("bool", bool),
    ("tChar", sint .w8), ("tInt8", sint .w8), ("int8_t", sint .w8), ("char", sint .w8),
    ("tUInt8", uint .w8), ("uint8_t", uint .w8),
    ("tInt16", sint .w16), ("int16_t", sint .w16),
    ("tUInt16", uint .w16), ("uint16_t", uint .w16),
    ("tInt32", sint .w32), ("int32_t", sint .w32),
    ("tUInt32", uint .w32), ("uint32_t", uint .w32),
    ("tInt64", sint .w64), ("int64_t", sint .w64),
    ("tUInt64", uint .w64), ("uint64_t", uint .w64),
    ("tFloat32", float .single), ("float", float .single),
    ("tFloat64", float .double), ("double", float .double) ]

/-- The scalar with a built-in name. -/
def ofName? (s : String) : Option Scalar := builtinNames.lookup s

/-- The built-in names of a scalar: the canonical one, then those of C. A byte with a sign
may also be called a character. -/
def spellings : Scalar → List String
  | bool => ["tBool", "bool"]
  | sint .w8 => ["tInt8", "int8_t", "tChar", "char"]
  | uint .w8 => ["tUInt8", "uint8_t"]
  | sint .w16 => ["tInt16", "int16_t"]
  | uint .w16 => ["tUInt16", "uint16_t"]
  | sint .w32 => ["tInt32", "int32_t"]
  | uint .w32 => ["tUInt32", "uint32_t"]
  | sint .w64 => ["tInt64", "int64_t"]
  | uint .w64 => ["tUInt64", "uint64_t"]
  | float .single => ["tFloat32", "float"]
  | float .double => ["tFloat64", "double"]

theorem mem_builtinNames_iff {s : String} {t : Scalar} :
    (s, t) ∈ builtinNames ↔ s ∈ t.spellings := by
  constructor
  · intro h
    exact (by decide : ∀ p ∈ builtinNames, p.1 ∈ p.2.spellings) (s, t) h
  · intro h
    cases t with
    | bool => exact (by decide : ∀ n ∈ spellings bool, (n, bool) ∈ builtinNames) s h
    | uint w =>
      cases w <;> exact (by decide : ∀ n ∈ spellings (uint _), (n, uint _) ∈ builtinNames) s h
    | sint w =>
      cases w <;> exact (by decide : ∀ n ∈ spellings (sint _), (n, sint _) ∈ builtinNames) s h
    | float f =>
      cases f <;> exact (by decide : ∀ n ∈ spellings (float _), (n, float _) ∈ builtinNames) s h

/-- A built-in name stands for the scalar that is spelled so, and no other name for any. -/
theorem ofName?_eq_some_iff {s : String} {t : Scalar} :
    ofName? s = some t ↔ s ∈ t.spellings := by
  rw [← mem_builtinNames_iff]
  constructor
  · intro h
    obtain ⟨before, after, hsplit, -⟩ := List.lookup_eq_some_iff.mp h
    rw [hsplit]
    exact List.mem_append_right _ List.mem_cons_self
  · intro h
    exact (by decide : ∀ p ∈ builtinNames, ofName? p.1 = some p.2) (s, t) h

/-- A scalar has its canonical name. -/
theorem ofName?_name (t : Scalar) : ofName? t.name = some t := by
  rw [ofName?_eq_some_iff]
  cases t with
  | bool => exact List.mem_cons_self
  | uint w => cases w <;> exact List.mem_cons_self
  | sint w => cases w <;> exact List.mem_cons_self
  | float f => cases f <;> exact List.mem_cons_self

/-- The native size in bits. -/
def bits : Scalar → Nat
  | bool => 8
  | uint w => w.bits
  | sint w => w.bits
  | float f => f.width

/-- The native size in bytes. -/
def bytes (t : Scalar) : Nat := t.bits / 8

/-- Whether a narrow field of the type holds a two's-complement number. -/
def isSigned : Scalar → Bool
  | sint _ => true
  | _ => false

end Scalar

end WireRecord
