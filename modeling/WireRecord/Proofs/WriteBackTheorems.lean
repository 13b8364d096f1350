/-
WireRecord.Proofs.WriteBackTheorems — writing back what was read.

A value is read from the bits of its window, and the bits a value is written as are
those it was read from: a number of `n` bits comes back from any type that has room
for it, signs and patterns of floating-point numbers included, and both byte orders
undo what they did. The one value that does not give its bits back is a truth value
read from a window with another number than zero or one.

So an element that was read can be written back without any effect on the buffer, as
a value or as native bytes (`Field.write_valueIn`, `Field.writeRaw_of_readRaw`). The
window is the same before and after, and it does not matter which other elements
lie over it. What has no effect once has none any number of times, in any order.
-/
import WireRecord.Proofs.AvailabilityTheorems

namespace WireRecord

/-- Records whose elements lie over one another on the wire. -/
def overlaid : Schema where
  version := ⟨3, 0⟩
  aliases := []
  enums := []
  structs :=
    [ { name := "Record", alignment := 1
        elements :=
          [ { Element.simple "word" "tInt32" (.fixed 1) (some 20) with order := .bigEndian },
            { Element.simple "number" "tFloat32" (.fixed 1) none with position := some ⟨0, 5⟩ },
            { Element.simple "flag" "tBool" (.fixed 1) (some 2) with position := some ⟨0, 5⟩ } ] } ]

/-- The native bytes of a word spell its low bits. -/
theorem Bytes.toWord_ofWord {n : Nat} (hn : n ≤ 8) (w : Word) :
    Bytes.toWord (.ofWord n w) = w.low (8 * n) := by
  rw [Bytes.toWord, Bytes.length_ofWord]
  exact Bytes.readBits_writeBits _ 0 (8 * n) w (by omega) (by simp)

/-- A value comes back from its native bytes. -/
theorem Value.ofWord_native (v : Value) :
    ofWord v.type (Bytes.toWord (.ofWord v.type.bytes v.toWord)) (8 * v.type.bytes) = v := by
  have hbits := v.type.eight_mul_bytes
  have hle : v.type.bytes ≤ 8 := by
    have := v.type.bits_le
    omega
  rw [Bytes.toWord_ofWord hle, hbits]
  exact v.survives_bits

namespace Field

variable {f : Field} {r : Representation} {b : Bytes}

/-- Writing the value that a field holds changes nothing, if the type has room for the
window and a truth value is zero or one. -/
theorem write_valueIn (h : f.Accessible r b.length) (hsize : (f.span r).size ≤ f.type.bits)
    (hbool : Value.Canonical f.type (f.load r b)) : f.write r b (f.valueIn r b) = .ok b := by
  have hbits : (f.valueIn r b).toWord.low (f.span r).size = f.load r b := by
    rw [valueIn, Value.low_toWord_ofWord hsize hbool, low_load b h.size_le]
  rw [write_of_accessible h (f.type_valueIn r b), store_eq_self h hbits]

/-- Native bytes that were read stand for the value that the field holds. -/
theorem writeRaw_of_readRaw {n : Nat} {raw : Bytes} (h : f.readRaw r b n = .ok raw) :
    f.writeRaw r b raw = f.write r b (f.valueIn r b) := by
  obtain ⟨-, rfl⟩ := readRaw_eq_ok h
  have hback := (f.valueIn r b).ofWord_native
  rw [type_valueIn] at hback
  rw [writeRaw, checkRaw_of_eq (Bytes.length_ofWord _ _), Bytes.length_ofWord, hback]
  rfl

end Field

namespace View

/-! ## Writing back -/

/-- A request to read an element of a view and to write it back. -/
inductive Rewrite where
  /-- As a value. -/
  | value (index : Nat)
  /-- As native bytes. -/
  | raw (index : Nat)
deriving DecidableEq, Repr

/-- The element that is written back. -/
def Rewrite.index : Rewrite → Nat
  | value i | raw i => i

/-- The view after an element was read and written back. -/
def rewrite (v : View) : Rewrite → Except Error View
  | .value i => do v.setValue i (← v.value i)
  | .raw i => do
    let f ← v.element i
    v.setRaw i (← v.raw i f.type.bytes)

/-- The view after some elements were written back, one after another. -/
def rewriteAll (v : View) (steps : List Rewrite) : Except Error View := steps.foldlM rewrite v

/-- Whether an element can be read and, if it is a truth value, holds zero or one. -/
def Restorable (v : View) (i : Nat) : Prop :=
  ∃ f ∈ v.elements[i]?, (v.value i).isOk ∧
    (f.type = .bool → f.load v.rep v.buffer = 0 ∨ f.load v.rep v.buffer = 1)

instance (v : View) (i : Nat) : Decidable (v.Restorable i) :=
  inferInstanceAs (Decidable (∃ f ∈ v.elements[i]?, _))

variable {v : View} {i : Nat} {f : Field}

/-- Writing an element as it is leaves the view as it is. -/
theorem setValue_eq_self (hf : v.elements[i]? = some f) {x : Value}
    (h : f.write v.rep v.buffer x = .ok v.buffer) : v.setValue i x = .ok v := by
  rw [setValue_eq_write hf, h]
  rfl

theorem setRaw_eq_self (hf : v.elements[i]? = some f) {raw : Bytes}
    (h : f.writeRaw v.rep v.buffer raw = .ok v.buffer) : v.setRaw i raw = .ok v := by
  rw [setRaw_eq_writeRaw hf, h]
  rfl

/-- An element of a type that has room for its window is written back without effect. -/
theorem restores_of_size_le (hf : v.elements[i]? = some f)
    (hsize : (f.span v.rep).size ≤ f.type.bits) (h : v.Restorable i) :
    (∃ x, v.value i = .ok x ∧ v.setValue i x = .ok v) ∧
      (∃ raw, v.raw i f.type.bytes = .ok raw) ∧
      ∀ n raw, v.raw i n = .ok raw → v.setRaw i raw = .ok v := by
  obtain ⟨g, hg, hok, hbool⟩ := h
  obtain rfl : f = g := Option.some.inj (hf.symm.trans hg)
  obtain ⟨x, hx⟩ := exists_ok_of_isOk hok
  obtain ⟨haccessible, rfl⟩ := Field.read_eq_ok ((value_eq_read hf).symm.trans hx)
  have hwrite := Field.write_valueIn haccessible hsize hbool
  refine ⟨⟨_, hx, setValue_eq_self hf hwrite⟩, ?_, ?_⟩
  · obtain ⟨raw, hraw, -⟩ := (serves_of_accessible hf haccessible).raw
    exact ⟨raw, hraw⟩
  · intro n raw hraw
    rw [raw_eq_readRaw hf] at hraw
    refine setRaw_eq_self hf ?_
    rw [Field.writeRaw_of_readRaw hraw, hwrite]

/-- Steps that each leave the view as it is do so together. -/
theorem rewriteAll_eq_self {steps : List Rewrite} (h : ∀ s ∈ steps, v.rewrite s = .ok v) :
    v.rewriteAll steps = .ok v := by
  induction steps with
  | nil => rfl
  | cons s rest ih =>
    obtain ⟨hfirst, hrest⟩ := List.forall_mem_cons.mp h
    show (s :: rest).foldlM rewrite v = .ok v
    rw [List.foldlM_cons, hfirst]
    exact ih hrest

/-! ## Views of compiled structs -/

/-- What was read from a view of a compiled struct can be written back, as a value and as
native bytes, without any effect. So can any number of elements in any order. -/
theorem restores_of_opening {s : Schema} {name : String} {l : Layout} {r : Representation}
    {b : Bytes} (hl : s.layout name = .ok l) (hv : Opening l r b v) :
    (∀ i, v.Restorable i → (∃ x, v.value i = .ok x ∧ v.setValue i x = .ok v) ∧
      (∃ n raw, v.raw i n = .ok raw) ∧ ∀ n raw, v.raw i n = .ok raw → v.setRaw i raw = .ok v) ∧
    ∀ steps, (∀ s ∈ steps, v.Restorable s.index) → v.rewriteAll steps = .ok v := by
  obtain ⟨d, hd⟩ := Schema.exists_root hl
  have hwell := (hv.sound (Schema.sound_of_layout hd hl)).well
  have hone : ∀ i f, v.elements[i]? = some f → v.Restorable i →
      (∃ x, v.value i = .ok x ∧ v.setValue i x = .ok v) ∧
        (∃ raw, v.raw i f.type.bytes = .ok raw) ∧
        ∀ n raw, v.raw i n = .ok raw → v.setRaw i raw = .ok v := by
    intro i f hf h
    exact restores_of_size_le hf ((hwell f (List.mem_of_getElem? hf)).size_le_bits v.rep) h
  refine ⟨fun i h => ?_, fun steps hsteps => rewriteAll_eq_self fun step hstep => ?_⟩
  · have ⟨f, hf, _⟩ := h
    obtain ⟨hvalue, ⟨raw, hraw⟩, hsetRaw⟩ := hone i f hf h
    exact ⟨hvalue, ⟨_, raw, hraw⟩, hsetRaw⟩
  · have h := hsteps step hstep
    have ⟨f, hf, _⟩ := h
    obtain ⟨⟨x, hx, hset⟩, ⟨raw, hraw⟩, hsetRaw⟩ := hone step.index f hf h
    cases step with
    | value i => simp only [rewrite, Rewrite.index] at hx hset ⊢; rw [hx]; exact hset
    | raw i =>
      have helement : v.element i = .ok f := element_eq_ok_iff.mpr hf
      simp only [rewrite, Rewrite.index] at hraw hsetRaw ⊢
      rw [helement]
      show (v.raw i f.type.bytes >>= v.setRaw i) = .ok v
      rw [hraw]
      exact hsetRaw _ _ hraw

/-- Twenty bits in big-endian order, a number that is none with a bit that marks it as
signalling, and a truth value of two bits lie over one another. Written back in any order,
they leave all five bytes. -/
theorem restores_of_opening_overlaid : ∃ l v, overlaid.layout "Record" = .ok l ∧
    Opening l .wire [0x20, 0x00, 0x00, 0xF4, 0x0F] v ∧
    v.value 1 = .ok (.float .single 0x7FA00001) ∧ v.count = 3 ∧
    (∀ i < v.count, v.Restorable i) ∧
    v.rewriteAll [.raw 2, .value 0, .value 1, .raw 1, .raw 0, .value 2] = .ok v := by
  obtain ⟨d, l, v, -, hl, hv, hp⟩ := @Schema.exists_view overlaid "Record" .wire
    [0x20, 0x00, 0x00, 0xF4, 0x0F]
    (fun _ v => (v.value 1).toOption = some (.float .single 0x7FA00001) ∧ v.count = 3 ∧
      ∀ i < v.count, v.Restorable i) (by decide +kernel)
  obtain ⟨hnan, hcount, hrestorable⟩ := of_decide_eq_true hp
  obtain ⟨-, hall⟩ := restores_of_opening hl (.full hv)
  have hsteps : ∀ s ∈ [Rewrite.raw 2, .value 0, .value 1, .raw 1, .raw 0, .value 2],
      s.index < v.count := by
    rw [hcount]
    decide
  exact ⟨l, v, hl, .full hv, eq_ok_of_toOption hnan, hcount, hrestorable,
    hall _ fun s hs => hrestorable s.index (hsteps s hs)⟩

end View

end WireRecord
