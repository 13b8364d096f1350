/-
WireRecord.Proofs.RoundTripTheorems — a record keeps its values from one
representation to the other.

Natively no two fields meet and every value has room, so from the wire to the
native form every value is kept, wherever the fields lie on the wire. Back on the
wire every window gets the bits it had, if truth values were zero or one. From
the native form to the wire the values have to survive in their windows, and no
wire positions may make these meet.

What can go wrong is the number of bytes. Opening refuses a counter beyond the
bits of the buffer, on the ground that so many items cannot have room, and after
a transfer the buffer has no byte more than the record. The theorems say exactly
when the record opens again: when it `Fits`. Where every element has a name and
every counted struct a scalar in it, it does. An element without a name in the
variable part of a struct passes for a mere change of alignment, so its scalars
are dropped, and the items of such a struct can be more than the record has bits
(`dropped`).

Where the record opens again, converting it in one go and back is the same
(`Schema.convertRecord_back`).
-/
import WireRecord.Conversion
import WireRecord.Proofs.CountTheorems
import WireRecord.Proofs.TransferTheorems

namespace WireRecord

/-- Records of items whose scalars have no name and stand in the variable part. -/
def dropped : Schema where
  version := ⟨3, 0⟩
  aliases := []
  enums := []
  structs :=
    [ { name := "Empty", alignment := 1, elements := [] },
      { name := "Item", alignment := 1
        elements :=
          [ .simple "none" "Empty" (.fixed 1) none,
            .simple "" "tUInt8" (.countedBy "none") none ] },
      { name := "Record", alignment := 1
        elements :=
          [ .simple "n" "tUInt8" (.fixed 1) none,
            .simple "items" "Item" (.countedBy "n") none ] } ]

namespace View

/-- Where the elements lie does not depend on the buffer. -/
theorem Sound.onto {packed : Prop} {v : View} (h : v.Sound packed) (r : Representation)
    (b : Bytes) : (v.onto r b).Sound packed :=
  ⟨h.well, h.native, h.wire_stop, h.wire, h.size_le⟩

/-- What has the same values can be read. -/
theorem accessible_onto {v : View} {r : Representation} {b : Bytes}
    (hhere : ∀ f ∈ v.elements, f.Accessible v.rep v.buffer.length)
    (hread : ∀ f ∈ v.elements, f.read r b = f.read v.rep v.buffer) :
    ∀ f ∈ v.elements, f.Accessible r b.length ∧
      f.valueIn r b = f.valueIn v.rep v.buffer := by
  intro f hf
  have hok := hread f hf
  rw [Field.read_of_accessible (hhere f hf)] at hok
  obtain ⟨hacc, hvalue⟩ := Field.read_eq_ok hok
  exact ⟨hacc, hvalue.symm⟩

/-- Natively every value survives. -/
theorem survives_native {packed : Prop} {v : View} (h : v.Sound packed) :
    ∀ f ∈ v.elements, (f.valueIn v.rep v.buffer).Survives (f.span .native).size := by
  intro f hf
  have hsize : (f.span .native).size = (f.valueIn v.rep v.buffer).type.bits := by
    rw [Field.type_valueIn]
    exact (h.well f hf).native_size
  rw [hsize]
  exact Value.survives_bits _

variable {s : Schema} {name : String} {d : StructDecl} {l : Layout} {b : Bytes} {v : View}

/-- Natively no two elements meet, so there are bits for the counters. -/
theorem fits_native {r : Representation} (hd : s.root name = .ok d) (hl : s.layout name = .ok l)
    (hv : openFull l r b = .ok v) (hnames : ∀ t ∈ s.structs, Named t.elements)
    (hbearing : (s.shape d).Everywhere Bearing) : v.Fits .native :=
  fits_of_bearing hnames hbearing hd hl hv (sound_of_openFull hd hl hv).native

/-! ## From the wire -/

/-- A valid wire record is carried over into the native form, whatever its wire
positions are. The native bytes open to the same view if and only if they are not
too few for a counter, and they are not where every element has a name and every
counted struct a scalar in it. -/
theorem native_of_wire (hd : s.root name = .ok d) (hl : s.layout name = .ok l)
    (hv : openFull l .wire b = .ok v) (hvalid : v.checkSize = .ok ()) :
    ∃ out, v.Carried .native out ∧
      (openFull l .native out = .ok (v.onto .native out) ↔ v.Fits .native) ∧
      ((∀ t ∈ s.structs, Named t.elements) → (s.shape d).Everywhere Bearing → v.Fits .native) := by
  have hopened := opened_of_openFull hv
  have hsound := sound_of_openFull hd hl hv
  have hhere := accessible_of_openFull hd hl hv hvalid
  have hfits := fits_native hd hl hv
  obtain ⟨rfl, -⟩ := openFull_eq_ok_iff.mp hv
  obtain ⟨hcarried, hread⟩ := carried_transferred hsound hhere hsound.native.pairwise
    (survives_native hsound)
  exact ⟨_, hcarried, reopen_iff_fits hopened hsound hread hcarried.length_eq, hfits⟩

/-- Two chunks open again in the native form. -/
theorem native_of_wire_chunks : ∃ d l v out, chunks.root "Record" = .ok d ∧
    chunks.layout "Record" = .ok l ∧
    openFull l .wire [0x32, 0xA5, 0x2F, 0x80, 0x01, 0x7C] = .ok v ∧ v.checkSize = .ok () ∧
    v.Carried .native out ∧ openFull l .native out = .ok (v.onto .native out) := by
  obtain ⟨d, l, v, hd, hl, hv, hp⟩ := @Schema.exists_view chunks "Record" .wire
    [0x32, 0xA5, 0x2F, 0x80, 0x01, 0x7C]
    (fun d v => v.layout.size.bytes v.rep ≤ v.buffer.length ∧ (chunks.shape d).Everywhere Bearing)
    (by decide +kernel)
  obtain ⟨hsize, hbearing⟩ := of_decide_eq_true hp
  have hvalid := checkSize_eq_ok_iff.mpr hsize
  obtain ⟨out, hcarried, hopens, hfits⟩ := native_of_wire hd hl hv hvalid
  exact ⟨d, l, v, out, hd, hl, hv, hvalid, hcarried, hopens.mpr (hfits (by decide) hbearing)⟩

/-- Nine items, each with a scalar of its own that was dropped, fit a wire buffer
of two bytes. The native record is one byte and has bits for eight. -/
theorem not_native_of_wire_dropped : ∃ d l v out, dropped.root "Record" = .ok d ∧
    dropped.layout "Record" = .ok l ∧ (dropped.shape d).Everywhere Bearing ∧
    openFull l .wire [9, 0] = .ok v ∧ v.checkSize = .ok () ∧ v.transfer .native = .ok out ∧
    ∀ w, openFull l .native out ≠ .ok w := by
  obtain ⟨d, l, v, hd, hl, hv, hp⟩ := @Schema.exists_view dropped "Record" .wire [9, 0]
    (fun d v => (dropped.shape d).Everywhere Bearing ∧
      v.layout.size.bytes v.rep ≤ v.buffer.length ∧ (v.transfer .native).toOption = some [9] ∧
      (openFull v.layout .native [9]).isOk = false) (by decide +kernel)
  obtain ⟨hbearing, hsize, htransfer, hno⟩ := of_decide_eq_true hp
  obtain ⟨rfl, -⟩ := openFull_eq_ok_iff.mp hv
  refine ⟨d, v.layout, v, [9], hd, hl, hbearing, hv, checkSize_eq_ok_iff.mpr hsize,
    eq_ok_of_toOption htransfer, fun w hw => ?_⟩
  rw [hw] at hno
  cases hno

/-- What was carried over from the wire can be carried back: every window gets the bits it
had, and everything else is clear. -/
theorem carried_back {packed : Prop} (hsound : v.Sound packed) (hrep : v.rep = .wire)
    (hhere : ∀ f ∈ v.elements, f.Accessible v.rep v.buffer.length)
    (hread : ∀ f ∈ v.elements,
      f.read .native (v.transferred .native) = f.read v.rep v.buffer)
    (hbool : ∀ f ∈ v.elements, f.type = .bool →
      f.load .wire v.buffer = 0 ∨ f.load .wire v.buffer = 1) :
    ∃ back, (v.onto .native (v.transferred .native)).transfer .wire = .ok back ∧
      back.length = v.bytes .wire ∧
      (∀ j, (∃ f ∈ v.elements, f.Covers .wire j) → back.bit j = v.buffer.bit j) ∧
      ∀ j, (∀ f ∈ v.elements, ¬ f.Covers .wire j) → back.bit j = false := by
  have hthere := accessible_onto hhere hread
  have hwire : ∀ f ∈ v.elements, f.Accessible .wire (v.bytes .wire) := fun f hf =>
    (hsound.well f hf).accessible (hsound.stop_le hf .wire)
  have hzero : ∀ f ∈ v.elements,
      f.Accessible .wire (List.replicate (v.bytes .wire) (0 : UInt8)).length := fun f hf => by
    rw [List.length_replicate]
    exact hwire f hf
  refine ⟨(v.onto .native (v.transferred .native)).transferred .wire,
    transfer_eq (fun f hf => (hthere f hf).1) hwire, length_transferred _ _, ?_, ?_⟩
  · intro j hcovers
    refine Field.bit_storeAll_of_covers hzero (fun f hf => ?_) hcovers
    -- the value has the bits it was read from
    have hsize : (f.span .wire).size ≤ 64 := (hwire f hf).size_le
    show (f.valueIn .native (v.transferred .native)).toWord.low (f.span .wire).size = _
    rw [(hthere f hf).2, hrep, Field.valueIn,
      Value.low_toWord_ofWord ((hsound.well f hf).size_le_bits .wire) (hbool f hf),
      Field.low_load _ hsize]
  · intro j hout
    exact (Field.bit_storeAll_of_not_covers hzero hout).trans (Bytes.bit_replicate_zero _ _)

/-- On the way back to the wire every window gets the bits it had, and everything
else is clear. -/
theorem wire_of_native_of_wire (hd : s.root name = .ok d) (hl : s.layout name = .ok l)
    (hv : openFull l .wire b = .ok v) (hvalid : v.checkSize = .ok ())
    (hbool : ∀ f ∈ v.elements, f.type = .bool → f.load .wire b = 0 ∨ f.load .wire b = 1) :
    ∃ out back, v.Carried .native out ∧
      (openFull l .native out = .ok (v.onto .native out) ↔ v.Fits .native) ∧
      ((∀ t ∈ s.structs, Named t.elements) → (s.shape d).Everywhere Bearing → v.Fits .native) ∧
      (v.onto .native out).transfer .wire = .ok back ∧ back.length = v.bytes .wire ∧
      (∀ j, (∃ f ∈ v.elements, f.Covers .wire j) → back.bit j = b.bit j) ∧
      ∀ j, (∀ f ∈ v.elements, ¬ f.Covers .wire j) → back.bit j = false := by
  have hopened := opened_of_openFull hv
  have hsound := sound_of_openFull hd hl hv
  have hhere := accessible_of_openFull hd hl hv hvalid
  have hfits := fits_native hd hl hv
  obtain ⟨rfl, hrep, rfl, -⟩ := openFull_eq_ok_iff.mp hv
  obtain ⟨hcarried, hread⟩ := carried_transferred hsound hhere hsound.native.pairwise
    (survives_native hsound)
  obtain ⟨back, hback, hlength, hcovered, hclear⟩ := carried_back hsound hrep hhere hread hbool
  exact ⟨v.transferred .native, back, hcarried,
    reopen_iff_fits hopened hsound hread hcarried.length_eq, hfits, hback, hlength, hcovered,
    hclear⟩

/-- Two chunks and their flag are on the wire again as they were. -/
theorem wire_of_native_of_wire_chunks : ∃ d l v out back, chunks.root "Record" = .ok d ∧
    chunks.layout "Record" = .ok l ∧
    openFull l .wire [0x32, 0xA5, 0x2F, 0x80, 0x01, 0x7C] = .ok v ∧ v.checkSize = .ok () ∧
    (∀ f ∈ v.elements, f.type = .bool →
      f.load .wire [0x32, 0xA5, 0x2F, 0x80, 0x01, 0x7C] = 0 ∨
        f.load .wire [0x32, 0xA5, 0x2F, 0x80, 0x01, 0x7C] = 1) ∧
    openFull l .native out = .ok (v.onto .native out) ∧
    (v.onto .native out).transfer .wire = .ok back ∧
    ∀ j, (∃ f ∈ v.elements, f.Covers .wire j) →
      back.bit j = Bytes.bit [0x32, 0xA5, 0x2F, 0x80, 0x01, 0x7C] j := by
  obtain ⟨d, l, v, hd, hl, hv, hp⟩ := @Schema.exists_view chunks "Record" .wire
    [0x32, 0xA5, 0x2F, 0x80, 0x01, 0x7C]
    (fun d v => v.layout.size.bytes v.rep ≤ v.buffer.length ∧
      (chunks.shape d).Everywhere Bearing ∧
      ∀ f ∈ v.elements, f.type = .bool →
        f.load .wire [0x32, 0xA5, 0x2F, 0x80, 0x01, 0x7C] = 0 ∨
          f.load .wire [0x32, 0xA5, 0x2F, 0x80, 0x01, 0x7C] = 1) (by decide +kernel)
  obtain ⟨hsize, hbearing, hbool⟩ := of_decide_eq_true hp
  have hvalid := checkSize_eq_ok_iff.mpr hsize
  obtain ⟨out, back, -, hopens, hfits, hback, -, hcovered, -⟩ :=
    wire_of_native_of_wire hd hl hv hvalid hbool
  exact ⟨d, l, v, out, back, hd, hl, hv, hvalid, hbool,
    hopens.mpr (hfits (by decide) hbearing), hback, hcovered⟩

/-- Nine items without their scalars do not come back: the native record between
the two transfers cannot be opened. -/
theorem not_wire_of_native_of_wire_dropped : ∃ d l v out, dropped.root "Record" = .ok d ∧
    dropped.layout "Record" = .ok l ∧ (dropped.shape d).Everywhere Bearing ∧
    openFull l .wire [9, 0] = .ok v ∧ v.checkSize = .ok () ∧
    (∀ f ∈ v.elements, f.type ≠ .bool) ∧ v.transfer .native = .ok out ∧
    ∀ w, openFull l .native out ≠ .ok w := by
  obtain ⟨d, l, v, hd, hl, hv, hp⟩ := @Schema.exists_view dropped "Record" .wire [9, 0]
    (fun d v => (dropped.shape d).Everywhere Bearing ∧
      v.layout.size.bytes v.rep ≤ v.buffer.length ∧ (∀ f ∈ v.elements, f.type ≠ .bool) ∧
      (v.transfer .native).toOption = some [9] ∧
      (openFull v.layout .native [9]).isOk = false) (by decide +kernel)
  obtain ⟨hbearing, hsize, hbool, htransfer, hno⟩ := of_decide_eq_true hp
  obtain ⟨rfl, -⟩ := openFull_eq_ok_iff.mp hv
  refine ⟨d, v.layout, v, [9], hd, hl, hbearing, hv, checkSize_eq_ok_iff.mpr hsize, hbool,
    eq_ok_of_toOption htransfer, fun w hw => ?_⟩
  rw [hw] at hno
  cases hno

/-! ## From the native form -/

/-- Without wire positions, a valid native record whose values survive on the wire
is carried over there and back again. Both times the bytes open to the same view
if and only if they are not too few for a counter, and they are not where every
element has a name and every counted struct a scalar in it. -/
theorem native_of_wire_of_native (hpositions : ∀ t ∈ s.structs, Unpositioned t.elements)
    (hd : s.root name = .ok d) (hl : s.layout name = .ok l)
    (hv : openFull l .native b = .ok v) (hvalid : v.checkSize = .ok ())
    (hfit : ∀ f ∈ v.elements, ∀ x, f.read .native b = .ok x → x.Survives f.wire.size) :
    ∃ out back, v.Carried .wire out ∧
      (openFull l .wire out = .ok (v.onto .wire out) ↔ v.Fits .wire) ∧
      (v.onto .wire out).Carried .native back ∧
      (openFull l .native back = .ok (v.onto .native back) ↔ v.Fits .native) ∧
      ((∀ t ∈ s.structs, Named t.elements) → (s.shape d).Everywhere Bearing →
        v.Fits .wire ∧ v.Fits .native) := by
  have hopened := opened_of_openFull hv
  have hsound := sound_of_openFull hd hl hv
  have hhere := accessible_of_openFull hd hl hv hvalid
  have hfits : (∀ t ∈ s.structs, Named t.elements) → (s.shape d).Everywhere Bearing →
      v.Fits .wire ∧ v.Fits .native := by
    intro hnames hbearing
    exact ⟨fits_of_bearing hnames hbearing hd hl hv (hsound.wire hpositions),
      fits_native hd hl hv hnames hbearing⟩
  obtain ⟨rfl, hrep, rfl, -⟩ := openFull_eq_ok_iff.mp hv
  obtain ⟨hcarried, hread⟩ := carried_transferred hsound hhere (hsound.wire hpositions).pairwise
    (fun f hf => by
      have hvalue := Field.read_of_accessible (hhere f hf)
      rw [hrep] at hvalue ⊢
      exact hfit f hf _ hvalue)
  have hthere := accessible_onto hhere hread
  obtain ⟨hcarried', hread'⟩ := carried_transferred (hsound.onto .wire (v.transferred .wire))
    (fun f hf => (hthere f hf).1) hsound.native.pairwise (survives_native (hsound.onto _ _))
  refine ⟨_, _, hcarried, reopen_iff_fits hopened hsound hread hcarried.length_eq, hcarried',
    reopen_iff_fits hopened hsound (fun f hf => ?_) hcarried'.length_eq, hfits⟩
  exact (hread' f hf).trans (hread f hf)

/-- Two chunks whose numbers have twelve bits pass through the wire. -/
theorem native_of_wire_of_native_chunks : ∃ d l v out back, chunks.root "Record" = .ok d ∧
    chunks.layout "Record" = .ok l ∧
    openFull l .native [2, 1, 1, 0, 0x34, 0x02, 2, 0, 0xFF, 0xFF, 0x00, 0xF8] = .ok v ∧
    v.checkSize = .ok () ∧
    (∀ f ∈ v.elements, ∀ x,
      f.read .native [2, 1, 1, 0, 0x34, 0x02, 2, 0, 0xFF, 0xFF, 0x00, 0xF8] = .ok x →
        x.Survives f.wire.size) ∧
    v.Carried .wire out ∧ openFull l .wire out = .ok (v.onto .wire out) ∧
    (v.onto .wire out).Carried .native back ∧
    openFull l .native back = .ok (v.onto .native back) := by
  obtain ⟨d, l, v, hd, hl, hv, hp⟩ := @Schema.exists_view chunks "Record" .native
    [2, 1, 1, 0, 0x34, 0x02, 2, 0, 0xFF, 0xFF, 0x00, 0xF8]
    (fun d v => v.layout.size.bytes v.rep ≤ v.buffer.length ∧
      (chunks.shape d).Everywhere Bearing ∧ ∀ f ∈ v.elements,
        (f.valueIn .native
          [2, 1, 1, 0, 0x34, 0x02, 2, 0, 0xFF, 0xFF, 0x00, 0xF8]).Survives f.wire.size)
    (by decide +kernel)
  obtain ⟨hsize, hbearing, hsurvives⟩ := of_decide_eq_true hp
  have hvalid := checkSize_eq_ok_iff.mpr hsize
  have hfit : ∀ f ∈ v.elements, ∀ x,
      f.read .native [2, 1, 1, 0, 0x34, 0x02, 2, 0, 0xFF, 0xFF, 0x00, 0xF8] = .ok x →
        x.Survives f.wire.size := fun f hf x hx => by
    rw [(Field.read_eq_ok hx).2]
    exact hsurvives f hf
  obtain ⟨out, back, hout, hopens, hback, hreopens, hfits⟩ :=
    native_of_wire_of_native (by decide) hd hl hv hvalid hfit
  have hboth := hfits (by decide) hbearing
  exact ⟨d, l, v, out, back, hd, hl, hv, hvalid, hfit, hout, hopens.mpr hboth.1, hback,
    hreopens.mpr hboth.2⟩

/-- Nine items, each with a scalar of its own that was dropped, fit a native buffer
of two bytes. The wire record is one byte and has bits for eight. -/
theorem not_native_of_wire_of_native_dropped : ∃ d l v out, dropped.root "Record" = .ok d ∧
    dropped.layout "Record" = .ok l ∧ (∀ t ∈ dropped.structs, Unpositioned t.elements) ∧
    (dropped.shape d).Everywhere Bearing ∧ openFull l .native [9, 0] = .ok v ∧
    v.checkSize = .ok () ∧
    (∀ f ∈ v.elements, ∀ x, f.read .native [9, 0] = .ok x → x.Survives f.wire.size) ∧
    v.transfer .wire = .ok out ∧ ∀ w, openFull l .wire out ≠ .ok w := by
  obtain ⟨d, l, v, hd, hl, hv, hp⟩ := @Schema.exists_view dropped "Record" .native [9, 0]
    (fun d v => (dropped.shape d).Everywhere Bearing ∧
      v.layout.size.bytes v.rep ≤ v.buffer.length ∧
      (∀ f ∈ v.elements, (f.valueIn .native [9, 0]).Survives f.wire.size) ∧
      (v.transfer .wire).toOption = some [9] ∧ (openFull v.layout .wire [9]).isOk = false)
    (by decide +kernel)
  obtain ⟨hbearing, hsize, hsurvives, htransfer, hno⟩ := of_decide_eq_true hp
  obtain ⟨rfl, -⟩ := openFull_eq_ok_iff.mp hv
  refine ⟨d, v.layout, v, [9], hd, hl, by decide, hbearing, hv, checkSize_eq_ok_iff.mpr hsize,
    fun f hf x hx => ?_, eq_ok_of_toOption htransfer, fun w hw => ?_⟩
  · rw [(Field.read_eq_ok hx).2]
    exact hsurvives f hf
  · rw [hw] at hno
    cases hno

end View

/-! ## In one go -/

namespace Schema

variable {s : Schema} {name : String} {source target : Representation} {b : Bytes}

/-- A record is converted if its struct has a layout, it opens, and it can be carried over. -/
theorem convertRecord_eq_ok_iff {m : Arithmetic} {out : Bytes} :
    (s.convertRecord name source target b m).1 = .ok out ↔ ∃ l v, s.layout name m = .ok l ∧
      View.openFull l source b m = .ok v ∧ v.transfer target = .ok out := by
  unfold convertRecord layout View.openFull
  rcases s.compile name m with ⟨e | l, journal⟩
  · simp
  · rcases hopen : View.openJournaled l source b m with ⟨e | v, more⟩
    · simp [hopen]
    · cases htransfer : v.transfer target <;> simp [hopen, htransfer]

/-- Where words hold the numbers of a struct and of a record of it, every machine converts it
alike. -/
theorem convertRecord_eq (hs : s.Contained name)
    (hc : ∀ l, s.layout name = .ok l → l.Contained source b) (m : Arithmetic) :
    s.convertRecord name source target b m = s.convertRecord name source target b := by
  unfold convertRecord
  rw [hs.compile_eq m]
  rcases hcompile : s.compile name with ⟨e | l, journal⟩
  · rfl
  · have hl : s.layout name = .ok l := congrArg Prod.fst hcompile
    have hopen := (hc l hl).openJournaled_eq (hs.bounded hl) m
    simp only [hopen]

/-- Where every element has a name and every counted struct a scalar in it, a valid wire
record can be converted into the native form and back. It has its bits again wherever an
element lies, if truth values were zero or one. -/
theorem convertRecord_back {d : StructDecl} {l : Layout} {v : View}
    (hnames : ∀ t ∈ s.structs, Named t.elements) (hbearing : (s.shape d).Everywhere Bearing)
    (hd : s.root name = .ok d) (hl : s.layout name = .ok l)
    (hv : View.openFull l .wire b = .ok v) (hvalid : v.checkSize = .ok ())
    (hbool : ∀ f ∈ v.elements, f.type = .bool → f.load .wire b = 0 ∨ f.load .wire b = 1) :
    ∃ out back, (s.convertRecord name .wire .native b).1 = .ok out ∧
      (s.convertRecord name .native .wire out).1 = .ok back ∧ back.length = v.bytes .wire ∧
      (∀ j, (∃ f ∈ v.elements, f.Covers .wire j) → back.bit j = b.bit j) ∧
      ∀ j, (∀ f ∈ v.elements, ¬ f.Covers .wire j) → back.bit j = false := by
  have hopened := View.opened_of_openFull hv
  have hsound := View.sound_of_openFull hd hl hv
  have hhere := View.accessible_of_openFull hd hl hv hvalid
  have hfits := View.fits_native hd hl hv hnames hbearing
  obtain ⟨rfl, hrep, rfl, -⟩ := View.openFull_eq_ok_iff.mp hv
  obtain ⟨hcarried, hread⟩ := View.carried_transferred hsound hhere hsound.native.pairwise
    (View.survives_native hsound)
  have hreopen := (View.reopen_iff_fits hopened hsound hread hcarried.length_eq).mpr hfits
  obtain ⟨back, hback, hbits⟩ := View.carried_back hsound hrep hhere hread hbool
  refine ⟨v.transferred .native, back, ?_, ?_, hbits⟩
  · exact convertRecord_eq_ok_iff.mpr ⟨v.layout, v, hl, hv, hcarried.transfer_eq⟩
  · exact convertRecord_eq_ok_iff.mpr ⟨v.layout, _, hl, hreopen, hback⟩

end Schema

end WireRecord
