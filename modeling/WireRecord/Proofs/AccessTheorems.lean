/-
WireRecord.Proofs.AccessTheorems — reading and writing one field.

`Field.Accessible` is the condition under which neither is refused, and under it
both are total: reading yields `Field.valueIn`, writing yields `Field.store`.
What a store does is said in bits. Inside the window stand the bits that load as
what was stored, outside everything stays, so a field reads back what was
written to it and any field that meets no bit of the window reads what it did.

A field that a compiler placed is `Field.WellPlaced`: native size and byte
boundary on the one side, at least one bit and at most the native size on the
other. All that is left to ask of such a field is whether it ends within the
buffer.
-/
import Mathlib.Tactic.SplitIfs
import WireRecord.Field.Access
import WireRecord.Proofs.ChunkOrderTheorems
import WireRecord.Proofs.ValueTheorems

namespace WireRecord.Field

/-! ## When a field can be accessed -/

/-- The window is one to 64 bits inside the buffer, and whole bytes if native. -/
structure Accessible (f : Field) (r : Representation) (length : Nat) : Prop where
  size_pos : 0 < (f.span r).size
  size_le : (f.span r).size ≤ 64
  stop_le : (f.span r).stop ≤ 8 * length
  whole : r = .native → (f.span r).byteAligned = true ∧ (f.span r).size % 8 = 0

/-- The three checks, one after the other. -/
theorem checkWindow_eq (f : Field) (r : Representation) (length : Nat) :
    f.checkWindow r length =
      if (f.span r).size = 0 ∨ 64 < (f.span r).size then .error (.fieldSize f.name (f.span r).size)
      else if 8 * length < (f.span r).stop then
        .error (.fieldOutside f.name (f.span r).offset (f.span r).stop length)
      else if r = .native ∧ ¬((f.span r).byteAligned ∧ (f.span r).size % 8 = 0) then
        .error (.unalignedField f.name (f.span r).offset (f.span r).size)
      else .ok () := by
  simp only [checkWindow]
  split_ifs <;> rfl

theorem checkWindow_eq_ok_iff (f : Field) (r : Representation) (length : Nat) :
    f.checkWindow r length = .ok () ↔ f.Accessible r length := by
  rw [checkWindow_eq]
  constructor
  · intro h
    split_ifs at h with h1 h2 h3
    refine ⟨by omega, by omega, by omega, fun hr => ?_⟩
    by_contra hn
    exact h3 ⟨hr, hn⟩
  · intro h
    have h1 : ¬ ((f.span r).size = 0 ∨ 64 < (f.span r).size) := by
      have := h.size_pos
      have := h.size_le
      omega
    have h2 : ¬ 8 * length < (f.span r).stop := Nat.not_lt.mpr h.stop_le
    have h3 : ¬ (r = .native ∧ ¬((f.span r).byteAligned ∧ (f.span r).size % 8 = 0)) :=
      fun hn => hn.2 (h.whole hn.1)
    rw [if_neg h1, if_neg h2, if_neg h3]

/-- The value in the window of a field. -/
def valueIn (f : Field) (r : Representation) (b : Bytes) : Value :=
  .ofWord f.type (f.load r b) (f.span r).size

@[simp] theorem type_valueIn (f : Field) (r : Representation) (b : Bytes) :
    (f.valueIn r b).type = f.type := Value.type_ofWord _ _ _

theorem read_of_accessible {f : Field} {r : Representation} {b : Bytes}
    (h : f.Accessible r b.length) : f.read r b = .ok (f.valueIn r b) := by
  rw [read, (checkWindow_eq_ok_iff f r b.length).mpr h]
  rfl

theorem write_eq {f : Field} {r : Representation} {b : Bytes} (h : f.Accessible r b.length)
    (v : Value) : f.write r b v = .ok (f.store r b (v.convert f.type).toWord) := by
  rw [write, (checkWindow_eq_ok_iff f r b.length).mpr h]
  rfl

theorem write_of_accessible {f : Field} {r : Representation} {b : Bytes} {v : Value}
    (h : f.Accessible r b.length) (hv : v.type = f.type) :
    f.write r b v = .ok (f.store r b v.toWord) := by
  rw [write_eq h, Value.convert_of_type_eq hv]

theorem read_eq_ok {f : Field} {r : Representation} {b : Bytes} {v : Value}
    (h : f.read r b = .ok v) : f.Accessible r b.length ∧ v = f.valueIn r b := by
  have hacc : f.Accessible r b.length := by
    rw [← checkWindow_eq_ok_iff]
    cases hc : f.checkWindow r b.length with
    | ok u => rfl
    | error e =>
      rw [read, hc] at h
      cases h
  rw [read_of_accessible hacc] at h
  cases h
  exact ⟨hacc, rfl⟩

theorem write_eq_ok {f : Field} {r : Representation} {b b' : Bytes} {v : Value}
    (h : f.write r b v = .ok b') :
    f.Accessible r b.length ∧ b' = f.store r b (v.convert f.type).toWord := by
  have hacc : f.Accessible r b.length := by
    rw [← checkWindow_eq_ok_iff]
    cases hc : f.checkWindow r b.length with
    | ok u => rfl
    | error e =>
      rw [write, hc] at h
      cases h
  rw [write_eq hacc] at h
  cases h
  exact ⟨hacc, rfl⟩

/-! ## Native bytes -/

section Raw

variable {f : Field} {r : Representation} {b : Bytes}

theorem checkRaw_of_eq {n : Nat} (h : n = f.type.bytes) : f.checkRaw n = .ok () := if_pos h

theorem checkRaw_of_ne {n : Nat} (h : n ≠ f.type.bytes) :
    f.checkRaw n = .error (.rawLength f.name n f.type) := if_neg h

/-- A number of native bytes that is not that of the type is refused. -/
theorem readRaw_of_ne {n : Nat} (h : n ≠ f.type.bytes) :
    f.readRaw r b n = .error (.rawLength f.name n f.type) := by
  rw [readRaw, checkRaw_of_ne h]
  rfl

theorem writeRaw_of_ne {raw : Bytes} (h : raw.length ≠ f.type.bytes) :
    f.writeRaw r b raw = .error (.rawLength f.name raw.length f.type) := by
  rw [writeRaw, checkRaw_of_ne h]
  rfl

theorem readRaw_eq (h : f.Accessible r b.length) :
    f.readRaw r b f.type.bytes = .ok (.ofWord f.type.bytes (f.valueIn r b).toWord) := by
  rw [readRaw, checkRaw_of_eq rfl, read_of_accessible h]
  rfl

theorem writeRaw_eq (h : f.Accessible r b.length) {raw : Bytes}
    (hlength : raw.length = f.type.bytes) :
    f.writeRaw r b raw = .ok (f.store r b (Value.ofWord f.type raw.toWord f.type.bits).toWord) := by
  rw [writeRaw, checkRaw_of_eq hlength, hlength, f.type.eight_mul_bytes]
  exact write_of_accessible h (Value.type_ofWord _ _ _)

theorem readRaw_eq_ok {n : Nat} {raw : Bytes} (h : f.readRaw r b n = .ok raw) :
    f.Accessible r b.length ∧ raw = .ofWord f.type.bytes (f.valueIn r b).toWord := by
  by_cases hn : n = f.type.bytes
  · subst hn
    have hacc : f.Accessible r b.length := by
      cases hread : f.read r b with
      | ok v => exact (read_eq_ok hread).1
      | error e =>
        rw [readRaw, checkRaw_of_eq rfl, hread] at h
        cases h
    rw [readRaw_eq hacc] at h
    cases h
    exact ⟨hacc, rfl⟩
  · rw [readRaw_of_ne hn] at h
    cases h

end Raw

/-! ## Fields as compilers place them -/

/-- A field as compilers place it: natively the whole bytes of its type, on the
wire at least one bit and no more than that. -/
structure WellPlaced (f : Field) : Prop where
  native_size : f.native.size = f.type.bits
  native_start : f.native.offset % 8 = 0
  wire_pos : 0 < f.wire.size
  wire_le : f.wire.size ≤ f.type.bits

theorem WellPlaced.size_pos {f : Field} (h : f.WellPlaced) (r : Representation) :
    0 < (f.span r).size := by
  cases r with
  | native =>
    have hsize : (f.span .native).size = f.type.bits := h.native_size
    have := f.type.eight_le_bits
    omega
  | wire => exact h.wire_pos

theorem WellPlaced.size_le_bits {f : Field} (h : f.WellPlaced) (r : Representation) :
    (f.span r).size ≤ f.type.bits := by
  cases r with
  | native => exact Nat.le_of_eq h.native_size
  | wire => exact h.wire_le

/-- Such a field can be accessed when it ends within the buffer. -/
theorem WellPlaced.accessible {f : Field} (h : f.WellPlaced) {r : Representation} {length : Nat}
    (hstop : (f.span r).stop ≤ 8 * length) : f.Accessible r length := by
  refine ⟨h.size_pos r, Nat.le_trans (h.size_le_bits r) f.type.bits_le, hstop, ?_⟩
  rintro rfl
  have hsize : (f.span .native).size = f.type.bits := h.native_size
  refine ⟨beq_iff_eq.mpr h.native_start, ?_⟩
  rw [hsize]
  exact f.type.bits_mod

/-! ## Stores, bit by bit -/

@[simp] theorem length_store (f : Field) (r : Representation) (b : Bytes) (w : Word) :
    (f.store r b w).length = b.length := by
  simp [store]

/-- A store leaves every bit outside the window. -/
theorem bit_store_of_outside {f : Field} {r : Representation} {b : Bytes} (w : Word) {j : Nat}
    (h : f.Accessible r b.length) (hj : j < (f.span r).offset ∨ (f.span r).stop ≤ j) :
    (f.store r b w).bit j = b.bit j := by
  have hstop : (f.span r).stop = (f.span r).offset + (f.span r).size := rfl
  have hle := h.stop_le
  have hout : ¬ ((f.span r).offset ≤ j ∧ j < (f.span r).offset + (f.span r).size) := by omega
  rw [store, Bytes.bit_writeBits _ _ _ _ _ (by omega), if_neg hout]

/-- Equal bits in the window load as equal numbers. -/
theorem load_congr {f : Field} {r : Representation} {a b : Bytes} (hn : (f.span r).size ≤ 64)
    (h : ∀ j, (f.span r).offset ≤ j → j < (f.span r).stop → a.bit j = b.bit j) :
    f.load r a = f.load r b := by
  simp only [load]
  rw [Bytes.readBits_congr hn h]

/-- The number in a window fits it. -/
theorem low_load {f : Field} {r : Representation} (b : Bytes) (hn : (f.span r).size ≤ 64) :
    (f.load r b).low (f.span r).size = f.load r b :=
  ByteOrder.low_decode _ (Bytes.low_readBits b _ _ hn)

/-- A field holds the low bits of what was stored in it. -/
theorem load_store {f : Field} {r : Representation} {b : Bytes} (w : Word)
    (h : f.Accessible r b.length) : f.load r (f.store r b w) = w.low (f.span r).size := by
  have hle : (f.span r).offset + (f.span r).size ≤ 8 * b.length := h.stop_le
  simp only [load, store]
  rw [Bytes.readBits_writeBits _ _ _ _ h.size_le hle]
  exact ByteOrder.decode_encode _ _ h.size_le

/-- Storing the number that the window of another buffer holds copies its bits. -/
theorem bit_store_of_inside {f : Field} {r : Representation} {a b : Bytes} {w : Word} {j : Nat}
    (h : f.Accessible r b.length) (hw : w.low (f.span r).size = f.load r a)
    (h1 : (f.span r).offset ≤ j) (h2 : j < (f.span r).stop) :
    (f.store r b w).bit j = a.bit j := by
  have hstop : (f.span r).stop = (f.span r).offset + (f.span r).size := rfl
  have hle := h.stop_le
  have hn := h.size_le
  have hin : (f.span r).offset ≤ j ∧ j < (f.span r).offset + (f.span r).size := by omega
  have hi : j - (f.span r).offset < (f.span r).size := by omega
  -- decoding and encoding the window of `a` gives its bits again
  have hcode := ByteOrder.encode_decode (f.orderIn r)
    (a.readBits (f.span r).offset (f.span r).size) hn
  have hload : (f.orderIn r).decode (a.readBits (f.span r).offset (f.span r).size)
      (f.span r).size = f.load r a := rfl
  rw [hload, low_load a hn, Word.low_eq_low_iff] at hcode
  have hbit := hcode (j - (f.span r).offset) hi
  have hj : (f.span r).offset + (j - (f.span r).offset) = j := by omega
  rw [Bytes.getLsbD_readBits _ _ _ _ hn, hj] at hbit
  rw [store, Bytes.bit_writeBits _ _ _ _ _ (by omega), if_pos hin, hw, hbit]
  simp [hi]

/-- Storing the number that the window holds changes nothing. -/
theorem store_eq_self {f : Field} {r : Representation} {b : Bytes} {w : Word}
    (h : f.Accessible r b.length) (hw : w.low (f.span r).size = f.load r b) :
    f.store r b w = b := by
  refine Bytes.eq_of_bit (length_store f r b w) fun j => ?_
  by_cases hj : (f.span r).offset ≤ j ∧ j < (f.span r).stop
  · exact bit_store_of_inside h hw hj.1 hj.2
  · exact bit_store_of_outside w h (by omega)

/-- A field reads back what its window holds of what was stored in it. -/
theorem valueIn_store {f : Field} {r : Representation} {b : Bytes} (w : Word)
    (h : f.Accessible r b.length) :
    f.valueIn r (f.store r b w) = .ofWord f.type (w.low (f.span r).size) (f.span r).size := by
  rw [valueIn, load_store w h]

/-- A field that meets no bit of the window reads what it did. -/
theorem valueIn_store_of_disjoint {f g : Field} {r : Representation} {b : Bytes} (w : Word)
    (h : f.Accessible r b.length) (hg : (g.span r).size ≤ 64)
    (hapart : (f.span r).stop ≤ (g.span r).offset ∨ (g.span r).stop ≤ (f.span r).offset) :
    g.valueIn r (f.store r b w) = g.valueIn r b := by
  have hload : g.load r (f.store r b w) = g.load r b := by
    refine load_congr hg fun j hlo hhi => bit_store_of_outside w h ?_
    omega
  rw [valueIn, valueIn, hload]

end WireRecord.Field
