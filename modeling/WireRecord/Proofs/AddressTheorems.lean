/-
WireRecord.Proofs.AddressTheorems — the bytes of an element and its value.

An element that starts on a byte boundary can be handed out as a slice of the buffer. The
slice is found by arithmetic on bytes, the value by going through bits. They agree on when
there is something to be had: a slice lies in the buffer if and only if the window does, as
the last byte of the slice has a bit of the window in it. And where the window is made of
whole bytes, they agree on what it is: the value is read from the number that the slice
spells in the byte order of the element (`Field.valueIn_eq_spelled`), natively always with
the least significant byte first.

Putting other bytes in place of the slice is the same statement about another buffer, of
which is known byte by byte what it holds (`getElem?_splice`).
-/
import WireRecord.Proofs.AvailabilityTheorems
import WireRecord.Proofs.NumberCodingTheorems

namespace WireRecord

/-! ## Slices -/

/-- A list with some elements in place of as many others, from a position on. -/
theorem getElem?_splice {α : Type} {l new : List α} {start : Nat}
    (h : start + new.length ≤ l.length) (k : Nat) :
    (l.take start ++ new ++ l.drop (start + new.length))[k]? =
      if start ≤ k ∧ k < start + new.length then new[k - start]? else l[k]? := by
  have hbefore : (l.take start).length = start := List.length_take_of_le (by omega)
  by_cases h1 : k < start
  · have hout : ¬ (start ≤ k ∧ k < start + new.length) := by omega
    rw [if_neg hout, List.append_assoc, List.getElem?_append_left (by omega),
      List.getElem?_take_of_lt h1]
  · by_cases h2 : k < start + new.length
    · rw [if_pos ⟨Nat.le_of_not_lt h1, h2⟩, List.append_assoc,
        List.getElem?_append_right (by omega), hbefore, List.getElem?_append_left (by omega)]
    · have hout : ¬ (start ≤ k ∧ k < start + new.length) := by omega
      have hback : start + new.length + (k - (start + new.length)) = k := by omega
      rw [if_neg hout, List.getElem?_append_right (by rw [List.length_append]; omega),
        List.length_append, hbefore, List.getElem?_drop, hback]

theorem length_splice {α : Type} {l new : List α} {start : Nat}
    (h : start + new.length ≤ l.length) :
    (l.take start ++ new ++ l.drop (start + new.length)).length = l.length := by
  rw [List.length_append, List.length_append, List.length_take_of_le (by omega), List.length_drop]
  omega

/-- The slice at the place of the new elements has them, and behind them what it had. -/
theorem slice_splice {α : Type} {l new : List α} {start n : Nat} (hn : new.length ≤ n)
    (h : start + n ≤ l.length) :
    ((l.take start ++ new ++ l.drop (start + new.length)).drop start).take n =
      new ++ ((l.drop start).take n).drop new.length := by
  refine List.ext_getElem? fun k => ?_
  by_cases hk : k < n
  · rw [List.getElem?_take_of_lt hk, List.getElem?_drop, getElem?_splice (by omega)]
    by_cases hnew : k < new.length
    · rw [if_pos (by omega), List.getElem?_append_left hnew, Nat.add_sub_cancel_left]
    · have hback : start + (new.length + (k - new.length)) = start + k := by omega
      rw [if_neg (by omega), List.getElem?_append_right (by omega), List.getElem?_drop,
        List.getElem?_take_of_lt (by omega), List.getElem?_drop, hback]
  · have hlength : (new ++ ((l.drop start).take n).drop new.length).length = n := by
      rw [List.length_append, List.length_drop, List.length_take_of_le]
      · omega
      · rw [List.length_drop]
        omega
    rw [List.getElem?_take_eq_none (Nat.le_of_not_lt hk), List.getElem?_eq_none (by omega)]

/-- The number that eight bytes at most spell is what their window decodes to. -/
theorem ByteOrder.toNat_decode (o : ByteOrder) {b : Bytes} (hlength : b.length ≤ 8) {w : Word}
    (hw : w.toNat = littleEndian.number b) :
    (o.decode w (8 * b.length)).toNat = o.number b := by
  cases o with
  | littleEndian => exact hw
  | bigEndian => exact toNat_ofBigEndian hlength hw

/-! ## Fields -/

namespace Field

variable {f : Field} {r : Representation} {b : Bytes}

/-- The first byte of the window of a field. -/
def start (f : Field) (r : Representation) : Nat := (f.span r).offset / 8

/-- The number of bytes that the window of a field has a bit in, if it starts on a byte
boundary. -/
def width (f : Field) (r : Representation) : Nat := bytesFor (f.span r).size

/-- The bytes of a field in a buffer. -/
def slice (f : Field) (r : Representation) (b : Bytes) : Bytes :=
  (b.drop (f.start r)).take (f.width r)

/-- The value of a field whose window spells the number of some bytes. -/
def spelled (f : Field) (r : Representation) (bytes : Bytes) : Value :=
  .ofWord f.type (.ofNat 64 ((f.orderIn r).number bytes)) (f.span r).size

/-- Whether a field starts on a byte boundary and ends within a buffer. -/
def Addressable (f : Field) (r : Representation) (length : Nat) : Prop :=
  (f.span r).offset % 8 = 0 ∧ (f.span r).stop ≤ 8 * length

instance (f : Field) (r : Representation) (length : Nat) : Decidable (f.Addressable r length) :=
  inferInstanceAs (Decidable (_ ∧ _))

/-- The bytes of a field lie in the buffer if and only if its bits do. -/
theorem byteRange?_eq (f : Field) (r : Representation) (length : Nat) :
    f.byteRange? r length = if f.Addressable r length then
      some (f.start r, f.start r + f.width r) else none := by
  have hiff : (f.span r).byteAligned = true ∧ (f.span r).offset / 8 + bytesFor (f.span r).size ≤
      length ↔ f.Addressable r length := by
    have hstop : (f.span r).stop = (f.span r).offset + (f.span r).size := rfl
    simp only [Span.byteAligned, beq_iff_eq, Addressable, hstop, bytesFor]
    omega
  simp only [byteRange?, hiff]
  rfl

theorem Addressable.stop_le {length : Nat} (h : f.Addressable r length) :
    f.start r + f.width r ≤ length := by
  obtain ⟨hstart, hstop⟩ := h
  have hsum : (f.span r).stop = (f.span r).offset + (f.span r).size := rfl
  simp only [start, width, bytesFor]
  omega

theorem Addressable.length_slice (h : f.Addressable r b.length) :
    (f.slice r b).length = f.width r := by
  have := h.stop_le
  rw [slice, List.length_take, List.length_drop]
  omega

/-- The slice of a window of whole bytes spells the value of the field. -/
theorem valueIn_eq_spelled (h : f.Addressable r b.length) (hle : (f.span r).size ≤ 64)
    (hwhole : (f.span r).size % 8 = 0) : f.valueIn r b = f.spelled r (f.slice r b) := by
  have hlength := h.length_slice
  have hwidth : 8 * f.width r = (f.span r).size := by
    simp only [width, bytesFor]
    omega
  have hoffset : 8 * f.start r = (f.span r).offset :=
    Nat.mul_div_cancel' (Nat.dvd_of_mod_eq_zero h.1)
  have hwindow := Bytes.toNat_readBits b (f.start r) (n := f.width r) (by omega)
  have hnumber := (f.orderIn r).toNat_decode (b := f.slice r b) (by omega) hwindow
  rw [hlength, hwidth, hoffset] at hnumber
  have hload : f.load r b = .ofNat 64 ((f.orderIn r).number (f.slice r b)) := by
    rw [← hnumber, load]
    simp
  rw [valueIn, spelled, hload]

end Field

/-! ## Elements -/

namespace View

variable {v : View} {i : Nat} {f : Field}

theorem fieldBytes?_eq (v : View) (f : Field) :
    v.fieldBytes? f = if f.Addressable v.rep v.buffer.length then
      some (f.slice v.rep v.buffer) else none := by
  rw [fieldBytes?, Field.byteRange?_eq]
  split
  · simp [Field.slice]
  · rfl

theorem address_eq (hf : v.elements[i]? = some f) : v.address i = .ok (v.fieldBytes? f) := by
  rw [address, element_eq_ok_iff.mpr hf]
  rfl

/-- The view with some bytes in place of the first ones of an element. -/
def splice (v : View) (f : Field) (new : Bytes) : View :=
  v.onto v.rep (v.buffer.take (f.start v.rep) ++ new ++
    v.buffer.drop (f.start v.rep + new.length))

theorem setBytes_eq (hf : v.elements[i]? = some f) (new : Bytes) :
    v.setBytes i new = .ok (if f.Addressable v.rep v.buffer.length then
      some (f.width v.rep, v.splice f (new.take (f.width v.rep))) else none) := by
  have hrange := Field.byteRange?_eq f v.rep v.buffer.length
  split
  · rename_i h
    simp [setBytes, element_eq_ok_iff.mpr hf, hrange, h, splice, onto, bind, Except.bind, pure,
      Except.pure]
  · rename_i h
    simp [setBytes, element_eq_ok_iff.mpr hf, hrange, h, bind, Except.bind, pure, Except.pure]

/-- What the bytes of an element are: those of the buffer from its first byte on, and its
value, spelled, if it is made of whole bytes. -/
structure Spells (v : View) (i : Nat) (f : Field) (bytes : Bytes) : Prop where
  address_eq : v.address i = .ok (some bytes)
  getElem?_eq : ∀ k < bytes.length, bytes[k]? = v.buffer[(f.span v.rep).offset / 8 + k]?
  value : ∃ x, v.value i = .ok x
  length_eq : (f.span v.rep).size % 8 = 0 → 8 * bytes.length = (f.span v.rep).size
  value_eq : (f.span v.rep).size % 8 = 0 → v.value i = .ok (f.spelled v.rep bytes)

/-- The slice of an element that can be addressed and accessed spells its value. -/
theorem spells_slice (hf : v.elements[i]? = some f) (h : f.Addressable v.rep v.buffer.length)
    (haccessible : f.Accessible v.rep v.buffer.length) :
    v.Spells i f (f.slice v.rep v.buffer) := by
  have hlength := h.length_slice
  have hvalue := value_of_accessible hf haccessible
  refine ⟨?_, fun k hk => ?_, ⟨_, hvalue⟩, fun hwhole => ?_, fun hwhole => ?_⟩
  · rw [View.address_eq hf, fieldBytes?_eq, if_pos h]
  · rw [hlength] at hk
    rw [Field.slice, List.getElem?_take_of_lt hk, List.getElem?_drop]
    rfl
  · rw [hlength]
    simp only [Field.width, bytesFor]
    omega
  · rw [hvalue, Field.valueIn_eq_spelled h haccessible.size_le hwhole]

/-- Bytes put in place of those of an element are its bytes afterwards, and any other byte
stays. -/
theorem spells_splice (hf : v.elements[i]? = some f) (h : f.Addressable v.rep v.buffer.length)
    (haccessible : f.Accessible v.rep v.buffer.length) {new : Bytes}
    (hnew : new.length ≤ f.width v.rep) :
    (v.splice f new).buffer.length = v.buffer.length ∧
      (v.splice f new).Spells i f (new ++ (f.slice v.rep v.buffer).drop new.length) ∧
      ∀ k, k < f.start v.rep ∨ f.start v.rep + new.length ≤ k →
        (v.splice f new).buffer[k]? = v.buffer[k]? := by
  have hstop := h.stop_le
  have hfits : f.start v.rep + new.length ≤ v.buffer.length := by omega
  have hlength : (v.splice f new).buffer.length = v.buffer.length := length_splice hfits
  have hslice : f.slice v.rep (v.splice f new).buffer =
      new ++ (f.slice v.rep v.buffer).drop new.length := slice_splice hnew hstop
  refine ⟨hlength, ?_, fun k hk => ?_⟩
  · rw [← hslice]
    have helement : (v.splice f new).elements[i]? = some f := hf
    exact spells_slice helement (hlength ▸ h) (hlength ▸ haccessible)
  · show (_ ++ _ ++ _ : Bytes)[k]? = _
    rw [getElem?_splice hfits, if_neg (by omega)]

/-! ## Views of compiled structs -/

/-- An element of a view of a compiled struct has bytes if and only if it starts on a byte
boundary and ends within the buffer. It can be read then, and where it is made of whole bytes
its value is the one they spell. The same goes for it once they are replaced by others, as many
as there are of these, and no other byte changes. -/
theorem address_of_opening {s : Schema} {name : String} {l : Layout} {r : Representation}
    {b : Bytes} (hl : s.layout name = .ok l) (hv : Opening l r b v)
    (hf : v.elements[i]? = some f) :
    ((∃ bytes, v.address i = .ok (some bytes)) ↔
      (f.span r).offset % 8 = 0 ∧ (f.span r).stop ≤ 8 * b.length) ∧
    (¬ ((f.span r).offset % 8 = 0 ∧ (f.span r).stop ≤ 8 * b.length) →
      v.address i = .ok none ∧ ∀ new, v.setBytes i new = .ok none) ∧
    ∀ bytes, v.address i = .ok (some bytes) → v.Spells i f bytes ∧ ∀ new, ∃ w,
      v.setBytes i new = .ok (some (bytes.length, w)) ∧ w = v.onto r w.buffer ∧
      w.buffer.length = b.length ∧
      w.Spells i f (new.take bytes.length ++ bytes.drop new.length) ∧
      ∀ k, k < (f.span r).offset / 8 ∨ (f.span r).offset / 8 + bytes.length ≤ k →
        w.buffer[k]? = b[k]? := by
  obtain ⟨d, hd⟩ := Schema.exists_root hl
  have hwell := (hv.sound (Schema.sound_of_layout hd hl)).well f (List.mem_of_getElem? hf)
  obtain ⟨-, rfl, rfl⟩ := hv.eq
  have haddress := address_eq hf
  rw [fieldBytes?_eq] at haddress
  refine ⟨?_, fun hnone => ?_, fun bytes hbytes => ?_⟩
  · by_cases h : f.Addressable v.rep v.buffer.length
    · exact iff_of_true ⟨_, by rw [haddress, if_pos h]⟩ h
    · refine iff_of_false ?_ h
      rw [haddress, if_neg h]
      rintro ⟨bytes, hbytes⟩
      cases hbytes
  · have h : ¬ f.Addressable v.rep v.buffer.length := hnone
    exact ⟨by rw [haddress, if_neg h], fun new => by rw [setBytes_eq hf, if_neg h]⟩
  · by_cases h : f.Addressable v.rep v.buffer.length
    · rw [haddress, if_pos h] at hbytes
      cases hbytes
      have haccessible := hwell.accessible h.2
      have hlength := h.length_slice
      refine ⟨spells_slice hf h haccessible, fun new => ?_⟩
      have htake : (new.take (f.width v.rep)).length ≤ f.width v.rep := List.length_take_le _ _
      obtain ⟨hsame, hspells, hout⟩ := spells_splice hf h haccessible htake
      -- what lies behind the new bytes in the slice is the same whether or not they are cut
      have hdrop : (f.slice v.rep v.buffer).drop (new.take (f.width v.rep)).length =
          (f.slice v.rep v.buffer).drop new.length := by
        rw [List.length_take]
        by_cases hle : f.width v.rep ≤ new.length
        · rw [Nat.min_eq_left hle, List.drop_of_length_le (by omega),
            List.drop_of_length_le (by omega)]
        · rw [Nat.min_eq_right (by omega)]
      rw [hdrop] at hspells
      refine ⟨v.splice f (new.take (f.width v.rep)), ?_, rfl, hsame, ?_, fun k hk => hout k ?_⟩
      · rw [setBytes_eq hf, if_pos h, hlength]
      · rw [hlength]
        exact hspells
      · rw [hlength] at hk
        simp only [Field.start]
        omega
    · rw [haddress, if_neg h] at hbytes
      cases hbytes

end View

/-- Records with a number of three bytes, the most significant one first. -/
def gauges : Schema where
  version := ⟨3, 0⟩
  aliases := []
  enums := []
  structs :=
    [ { name := "Record", alignment := 1
        elements :=
          [ .simple "mark" "tUInt8" (.fixed 1) none,
            { Element.simple "level" "tInt32" (.fixed 1) (some 24) with order := .bigEndian },
            .simple "low" "tUInt8" (.fixed 1) (some 4), .simple "high" "tUInt8" (.fixed 1) (some 4) ] } ]

/-- The bytes of minus two are replaced by those of 258, and the bytes around them stay. The
last element starts within a byte and has none. -/
theorem View.address_of_opening_gauges : ∃ l v w, gauges.layout "Record" = .ok l ∧
    Opening l .wire [0x07, 0xFF, 0xFF, 0xFE, 0x5A] v ∧
    v.address 1 = .ok (some [0xFF, 0xFF, 0xFE]) ∧ v.value 1 = .ok (.sint .w32 (-2)) ∧
    v.setBytes 1 [0x00, 0x01, 0x02] = .ok (some (3, w)) ∧ w.value 1 = .ok (.sint .w32 258) ∧
    w.buffer[0]? = some 0x07 ∧ w.buffer[4]? = some 0x5A ∧ v.address 3 = .ok none := by
  obtain ⟨d, l, v, -, hl, hv, hp⟩ := @Schema.exists_view gauges "Record" .wire
    [0x07, 0xFF, 0xFF, 0xFE, 0x5A]
    (fun _ v => (v.address 1).toOption = some (some [0xFF, 0xFF, 0xFE]) ∧
      (∃ f ∈ v.elements[1]?, f.type = .sint .w32 ∧ f.order = .bigEndian ∧
        f.span .wire = ⟨8, 24⟩) ∧
      ∃ g ∈ v.elements[3]?, g.span .wire = ⟨36, 4⟩) (by decide +kernel)
  obtain ⟨hbytes, ⟨f, hf, htype, horder, hspan⟩, g, hg, hspan'⟩ := of_decide_eq_true hp
  have hopening : Opening l .wire _ v := .full hv
  have hrep : v.rep = .wire := hopening.eq.2.1
  have haddress := eq_ok_of_toOption hbytes
  obtain ⟨-, -, hall⟩ := address_of_opening hl hopening hf
  obtain ⟨hspells, hset⟩ := hall _ haddress
  obtain ⟨w, hw, honto, -, hspells', hout⟩ := hset [0x00, 0x01, 0x02]
  have hrep' : w.rep = .wire := by rw [honto]; rfl
  have hvalue := hspells.value_eq (by simp [hrep, hspan])
  have hvalue' := hspells'.value_eq (by simp [hrep', hspan])
  rw [hrep, Field.spelled, Field.orderIn, hspan, htype, horder] at hvalue
  rw [hrep', Field.spelled, Field.orderIn, hspan, htype, horder] at hvalue'
  rw [hspan] at hout
  obtain ⟨-, hnone, -⟩ := address_of_opening hl hopening hg
  rw [hspan'] at hnone
  exact ⟨l, v, w, hl, hopening, haddress, hvalue.trans (by decide), hw,
    hvalue'.trans (by decide), hout 0 (by decide), hout 4 (by decide), (hnone (by decide)).1⟩

end WireRecord
