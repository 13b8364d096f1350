/-
WireRecord.Proofs.DelimitedTheorems — where a record on the wire ends.

On the wire the variable part has no gaps, so a buffer on which a view opens holds
the whole record. Every element is read from the bytes of the record, and what is
read decides how the view goes on. So the same bytes in front of others open to the
same record (`View.Recurs`), and no shorter part of them opens to any: its record
would be there in the whole buffer, too, and a buffer has only one
(`View.delimited_of_openFull`).

The one thing that depends on the length of a buffer is the limit for counters. The
bytes of the record alone keep to it where each counted item takes a bit
(`View.Fits`).
-/
import WireRecord.Proofs.CountTheorems
import WireRecord.Proofs.RoundTripTheorems

namespace WireRecord

/-- Fields without gaps that each end before a position end there together. -/
theorem Field.Packed.stop_le {fs : List Field} {lo hi n : Nat} (h : Packed lo fs hi)
    (hlo : lo ≤ n) (hstop : ∀ f ∈ fs, f.wire.stop ≤ n) : hi ≤ n := by
  induction fs generalizing lo with
  | nil =>
    obtain rfl : lo = hi := h
    exact hlo
  | cons f rest ih =>
    obtain ⟨hf, hrest⟩ := List.forall_mem_cons.mp hstop
    exact ih h.2 hf hrest

/-- A field reads the same where the bytes up to its end are the same. -/
theorem Field.read_of_take_eq {f : Field} {r : Representation} {a b : Bytes} {k : Nat}
    (hf : f.WellPlaced) (hstop : (f.span r).stop ≤ 8 * k) (ha : k ≤ a.length)
    (hb : k ≤ b.length) (h : a.take k = b.take k) : f.read r a = f.read r b := by
  have hload : f.load r a = f.load r b := by
    refine load_congr (Nat.le_trans (hf.size_le_bits r) f.type.bits_le) fun j _ hj => ?_
    have hjk : j < 8 * k := by omega
    rw [← Bytes.bit_take hjk, h, Bytes.bit_take hjk]
  rw [read_of_accessible (hf.accessible (by omega)), read_of_accessible (hf.accessible (by omega)),
    valueIn, valueIn, hload]

namespace View

/-- Whether the record of a view is also in another buffer: that opens to the same
elements and extent, is long enough, and holds the same values. -/
structure Recurs (v : View) (b : Bytes) : Prop where
  open_eq : openFull v.layout v.rep b = .ok (v.onto v.rep b)
  valid : (v.onto v.rep b).checkSize = .ok ()
  value_eq : ∀ i, (v.onto v.rep b).value i = v.value i

variable {s : Schema} {name : String} {d : StructDecl} {l : Layout} {b b' : Bytes} {v : View}

/-- A buffer on which a view opens holds the whole record. -/
theorem bytes_le_length (hd : s.root name = .ok d) (hl : s.layout name = .ok l)
    (hv : openFull l .wire b = .ok v) (hvalid : v.checkSize = .ok ()) :
    v.bytes .wire ≤ b.length := by
  have hopened := opened_of_openFull hv
  obtain ⟨rfl, hrep, rfl, -⟩ := openFull_eq_ok_iff.mp hv
  have hsize := checkSize_eq_ok_iff.mp hvalid
  have hexpanded := hopened.expanded_stop
  rw [hrep] at hsize hexpanded
  exact bytesFor_le ((hopened.stretch (Schema.sound_of_layout hd hl)).wire.stop_le
    (le_of_bytesFor_le hsize) hexpanded)

/-- A buffer that begins with the bytes of a record has the record, unless it has too few
bits for a counter. -/
theorem recurs_iff (hd : s.root name = .ok d) (hl : s.layout name = .ok l)
    (hv : openFull l .wire b = .ok v) (hvalid : v.checkSize = .ok ())
    (hlength : v.bytes .wire ≤ b'.length)
    (hbytes : b'.take (v.bytes .wire) = b.take (v.bytes .wire)) :
    v.Recurs b' ↔ ∀ c ∈ v.asked, v.countAt c ≤ 8 * b'.length := by
  have hopened := opened_of_openFull hv
  have hsound := sound_of_openFull hd hl hv
  have hwhole := bytes_le_length hd hl hv hvalid
  obtain ⟨rfl, hrep, rfl, -⟩ := openFull_eq_ok_iff.mp hv
  have hread : ∀ f ∈ v.elements, f.read .wire b' = f.read v.rep v.buffer := by
    intro f hf
    rw [hrep]
    exact f.read_of_take_eq (hsound.well f hf) (hsound.stop_le hf .wire) hlength hwhole hbytes
  have hstop : ∀ f ∈ v.elements, (f.span .wire).stop ≤ 8 * b'.length := fun f hf =>
    Nat.le_trans (hsound.stop_le hf .wire) (Nat.mul_le_mul_left 8 hlength)
  have hopens := reopen_iff hopened hread hstop
  constructor
  · intro h
    have hopen := h.open_eq
    rw [hrep] at hopen
    exact hopens.mp hopen
  · intro h
    refine ⟨?_, ?_, fun i => ?_⟩ <;> rw [hrep]
    · exact hopens.mpr h
    · have hfixed : v.layout.size.bytes .wire ≤ v.bytes .wire :=
        bytesFor_le (Nat.le_trans (hsound.size_le .wire) (le_bytesFor _))
      exact checkSize_eq_ok_iff.mpr (Nat.le_trans hfixed hlength)
    · exact value_onto hread i

/-- What follows a record does not matter. -/
theorem recurs_of_length_le (hd : s.root name = .ok d) (hl : s.layout name = .ok l)
    (hv : openFull l .wire b = .ok v) (hvalid : v.checkSize = .ok ())
    (hlonger : b.length ≤ b'.length)
    (hbytes : b'.take (v.bytes .wire) = b.take (v.bytes .wire)) : v.Recurs b' := by
  have hlength := Nat.le_trans (bytes_le_length hd hl hv hvalid) hlonger
  refine (recurs_iff hd hl hv hvalid hlength hbytes).mpr fun c hc => ?_
  have hadmits := (opened_of_openFull hv).admits
  obtain ⟨-, -, rfl, -⟩ := openFull_eq_ok_iff.mp hv
  exact Nat.le_trans (hadmits.counter_le c hc) (Nat.mul_le_mul_left 8 hlonger)

/-- A shorter part of a record holds no record: that would be in the whole buffer, too, which
has one already. -/
theorem not_valid_of_lt {k : Nat} {w : View} (hd : s.root name = .ok d)
    (hl : s.layout name = .ok l) (hv : openFull l .wire b = .ok v) (hvalid : v.checkSize = .ok ())
    (hk : k < v.bytes .wire) (hw : openFull l .wire (b.take k) = .ok w) :
    w.checkSize ≠ .ok () := by
  intro hwvalid
  have hwhole := bytes_le_length hd hl hv hvalid
  have hle := bytes_le_length hd hl hw hwvalid
  rw [List.length_take_of_le (by omega)] at hle
  have hbytes : b.take (w.bytes .wire) = (b.take k).take (w.bytes .wire) := by
    rw [List.take_take, Nat.min_eq_left hle]
  have hrecurs := recurs_of_length_le hd hl hw hwvalid (List.length_take_le' k b) hbytes
  have hopen := hrecurs.open_eq
  obtain ⟨hlayout, hrep, -⟩ := openFull_eq_ok_iff.mp hw
  rw [hlayout, hrep] at hopen
  obtain rfl : v = w.onto .wire b := Except.ok.inj (hv.symm.trans hopen)
  exact absurd hk (Nat.not_lt.mpr hle)

/-- A valid wire record ends where it says. What follows it does not matter, and without
its last byte it is not valid. Its bytes alone open to it if and only if they are not too
few for a counter. They are not where every counted struct has a scalar in it and either
names are plain, or none is empty and there are no wire positions. -/
theorem delimited_of_openFull (hd : s.root name = .ok d) (hl : s.layout name = .ok l)
    (hv : openFull l .wire b = .ok v) (hvalid : v.checkSize = .ok ()) :
    v.bytes .wire ≤ b.length ∧
      (∀ b', v.bytes .wire ≤ b'.length → b'.take (v.bytes .wire) = b.take (v.bytes .wire) →
        (v.Recurs b' ↔ ∀ c ∈ v.asked, v.countAt c ≤ 8 * b'.length) ∧
          (b.length ≤ b'.length ∨ v.Fits .wire → v.Recurs b')) ∧
      (v.Recurs (b.take (v.bytes .wire)) ↔ v.Fits .wire) ∧
      (∀ k < v.bytes .wire, ∀ w, openFull l .wire (b.take k) = .ok w → w.checkSize ≠ .ok ()) ∧
      ((s.shape d).Everywhere Bearing → (∀ t ∈ s.structs, PlainlyNamed t.elements) ∨
        (∀ t ∈ s.structs, Named t.elements) ∧ (∀ t ∈ s.structs, Unpositioned t.elements) →
          v.Fits .wire) := by
  have hwhole := bytes_le_length hd hl hv hvalid
  refine ⟨hwhole, fun b' hlength hbytes => ⟨recurs_iff hd hl hv hvalid hlength hbytes, ?_⟩, ?_,
    fun k hk w hw => not_valid_of_lt hd hl hv hvalid hk hw, ?_⟩
  · rintro (hlonger | hfits)
    · exact recurs_of_length_le hd hl hv hvalid hlonger hbytes
    · exact (recurs_iff hd hl hv hvalid hlength hbytes).mpr fun c hc =>
        Nat.le_trans (hfits c hc) (Nat.mul_le_mul_left 8 hlength)
  · have hlength : (b.take (v.bytes .wire)).length = v.bytes .wire := List.length_take_of_le hwhole
    have hiff := @recurs_iff s name d l b (b.take (v.bytes .wire)) v hd hl hv hvalid
      (Nat.le_of_eq hlength.symm) (by rw [List.take_take, Nat.min_self])
    rw [hlength] at hiff
    exact hiff
  · rintro hbearing (hplain | ⟨hnames, hpositions⟩)
    · exact fits_of_plainlyNamed hplain hbearing hd hl hv .wire
    · exact fits_of_bearing hnames hbearing hd hl hv ((sound_of_openFull hd hl hv).wire hpositions)

/-- Two chunks take six bytes: a seventh one does not matter, and five are too few. -/
theorem delimited_of_openFull_chunks : ∃ l v, chunks.layout "Record" = .ok l ∧
    openFull l .wire [0x32, 0xA5, 0x2F, 0x80, 0x01, 0x7C, 0xFF] = .ok v ∧
    v.checkSize = .ok () ∧ v.bytes .wire = 6 ∧
    v.Recurs [0x32, 0xA5, 0x2F, 0x80, 0x01, 0x7C] ∧
    ∀ w, openFull l .wire [0x32, 0xA5, 0x2F, 0x80, 0x01] = .ok w → w.checkSize ≠ .ok () := by
  obtain ⟨d, l, v, hd, hl, hv, hp⟩ := @Schema.exists_view chunks "Record" .wire
    [0x32, 0xA5, 0x2F, 0x80, 0x01, 0x7C, 0xFF]
    (fun d v => v.layout.size.bytes v.rep ≤ v.buffer.length ∧ v.bytes .wire = 6 ∧
      (chunks.shape d).Everywhere Bearing) (by decide +kernel)
  obtain ⟨hsize, hbytes, hbearing⟩ := of_decide_eq_true hp
  have hvalid := checkSize_eq_ok_iff.mpr hsize
  obtain ⟨-, hagree, -, hshort, hfits⟩ := delimited_of_openFull hd hl hv hvalid
  rw [hbytes] at hagree hshort
  refine ⟨l, v, hl, hv, hvalid, hbytes, ?_, fun w hw => hshort 5 (by decide) w hw⟩
  exact (hagree _ (by decide) (by decide)).2 (.inr (hfits hbearing (.inl (by decide))))

/-- Nine items, each with a scalar of its own that was dropped, make a record of one byte.
It is there in two bytes, but not in the one byte itself. -/
theorem not_delimited_dropped : ∃ d l v, dropped.root "Record" = .ok d ∧
    dropped.layout "Record" = .ok l ∧ (dropped.shape d).Everywhere Bearing ∧
    openFull l .wire [9, 0] = .ok v ∧ v.checkSize = .ok () ∧ v.bytes .wire = 1 ∧
    ∀ w, openFull l .wire [9] ≠ .ok w := by
  obtain ⟨d, l, v, hd, hl, hv, hp⟩ := @Schema.exists_view dropped "Record" .wire [9, 0]
    (fun d v => (dropped.shape d).Everywhere Bearing ∧
      v.layout.size.bytes v.rep ≤ v.buffer.length ∧ v.bytes .wire = 1 ∧
      (openFull v.layout .wire [9]).isOk = false) (by decide +kernel)
  obtain ⟨hbearing, hsize, hbytes, hno⟩ := of_decide_eq_true hp
  obtain ⟨rfl, -⟩ := openFull_eq_ok_iff.mp hv
  refine ⟨d, v.layout, v, hd, hl, hbearing, hv, checkSize_eq_ok_iff.mpr hsize, hbytes,
    fun w hw => ?_⟩
  rw [hw] at hno
  cases hno

end View

end WireRecord
