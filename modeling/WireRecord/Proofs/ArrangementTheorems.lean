/-
WireRecord.Proofs.ArrangementTheorems — where the elements of every view lie.

A view comes about in two ways: it shows the fixed fields of a layout alone, or
it was opened on the whole record. `View.Opening` has one case for each. What
the elements keep to is the same, `View.Arranged`:

* natively each element takes the whole bytes of its type on a byte boundary,
  behind all elements before it;
* on the wire each element takes at least one bit and no more than natively, and
  the variable part has no gaps;
* wire positions can leave gaps in the fixed part only. In a schema without them
  the record on the wire is as long as the widths of its elements together.

The fixed part has this from placing (`Schema.sound_of_layout`), the variable
part from the templates, whatever the counters hold (`stretch_templateMarks`).

The views that a machine computes are those of `View.OpeningBy`. As long as words hold
the numbers on the way they are the same views, and their places are `View.InWords`.
Otherwise low bits are all that is left of a place, and elements come to lie anywhere.
-/
import WireRecord.Proofs.UnfoldingTheorems
import WireRecord.Proofs.ViewTheorems

namespace WireRecord.View

/-! ## How a view comes about -/

/-- The views of a layout on a buffer: that of the fixed part, and that of the
whole record if it can be opened. -/
inductive Opening (l : Layout) (r : Representation) (b : Bytes) : View → Prop where
  | fixed : Opening l r b (openStatic l r b)
  | full {v : View} (open_eq : openFull l r b = .ok v) : Opening l r b v

namespace Opening

variable {l : Layout} {r : Representation} {b : Bytes} {v : View}

/-- A view keeps what it was opened on. -/
theorem eq (h : Opening l r b v) : v.layout = l ∧ v.rep = r ∧ v.buffer = b := by
  cases h with
  | fixed => exact ⟨rfl, rfl, rfl⟩
  | full hv =>
    obtain ⟨hl, hr, hb, -⟩ := openFull_eq_ok_iff.mp hv
    exact ⟨hl, hr, hb⟩

/-- The elements behind the fixed part fill the rest of the record; a view of the
fixed part has none. -/
theorem stretch (h : Opening l r b v) {packed : Prop} (hl : l.Sound packed) :
    Stretch l.size v.expanded v.extent := by
  cases h with
  | fixed => exact .nil hl.size_mod
  | full hv =>
    have hopened := opened_of_openFull hv
    obtain ⟨rfl, -⟩ := openFull_eq_ok_iff.mp hv
    exact hopened.stretch hl

/-- What was found behind the fixed part ends within the buffer. -/
theorem expanded_stop (h : Opening l r b v) :
    ∀ f ∈ v.expanded, (f.span v.rep).stop ≤ 8 * v.buffer.length := by
  cases h with
  | fixed => simp [openStatic]
  | full hv => exact (opened_of_openFull hv).expanded_stop

theorem sound (h : Opening l r b v) {packed : Prop} (hl : l.Sound packed) : v.Sound packed := by
  have hstretch := h.stretch hl
  obtain ⟨rfl, -, -⟩ := h.eq
  exact sound_of_stretch hl hstretch

/-- Without wire positions the whole record is without gaps. -/
theorem packed (h : Opening l r b v) {packed : Prop} (hl : l.Sound packed) (hp : packed) :
    Field.Packed 0 v.elements v.extent.wire := by
  have hstretch := h.stretch hl
  obtain ⟨rfl, -, -⟩ := h.eq
  exact (hl.wire hp).append hstretch.wire

end Opening

/-- The views that an arithmetic computes, with words for every number on the way where the
whole record is opened. -/
inductive OpeningBy (m : Arithmetic) (l : Layout) (r : Representation) (b : Bytes) :
    View → Prop where
  | fixed : OpeningBy m l r b (openStatic l r b)
  | full {v : View} (contained : l.Contained r b) (open_eq : openFull l r b m = .ok v) :
    OpeningBy m l r b v

/-- Whether words hold the places of a view: its size and where each element ends. -/
structure InWords (v : View) : Prop where
  extent : v.extent.Bounded
  stop : ∀ f ∈ v.elements, ∀ r, (f.span r).stop < 2 ^ 64

/-- Where an element ends is the same number in every arithmetic. -/
theorem InWords.stop_eq {v : View} (h : v.InWords) {f : Field} (hf : f ∈ v.elements)
    (r : Representation) (m : Arithmetic) : m.stop (f.span r) = .ok (f.span r).stop :=
  m.hold_of_lt .sum (h.stop f hf r)

/-- Where words hold the numbers, a machine has the layout and the views of the exact
arithmetic, and words hold all places in them. -/
theorem opening_of_contained {m : Arithmetic} {s : Schema} {name : String} {l : Layout}
    {r : Representation} {b : Bytes} {v : View} (hs : s.Contained name)
    (hl : s.layout name m = .ok l) (hv : OpeningBy m l r b v) :
    s.layout name = .ok l ∧ Opening l r b v ∧ v.InWords := by
  rw [hs.layout_eq m] at hl
  have hsize := hs.bounded hl
  obtain ⟨hopening, hextent⟩ : Opening l r b v ∧ v.extent.Bounded := by
    cases hv with
    | fixed => exact ⟨.fixed, hsize⟩
    | full hc hv =>
      rw [hc.openFull_eq hsize m] at hv
      exact ⟨.full hv, hc.bounded hsize hv⟩
  obtain ⟨d, hd⟩ := Schema.exists_root hl
  have hsound := hopening.sound (Schema.sound_of_layout hd hl)
  refine ⟨hl, hopening, hextent, fun f hf r => ?_⟩
  refine Nat.lt_of_le_of_lt (hsound.stop_le_extent hf r) ?_
  cases r with
  | native => exact hextent.native
  | wire => exact hextent.wire

/-! ## Arrangement -/

/-- Where the elements of a view lie. `packed` tells whether the fixed part is
without gaps on the wire, too. -/
structure Arranged (packed : Prop) (v : View) : Prop where
  native_start : ∀ f ∈ v.elements, f.native.offset % 8 = 0
  native_size : ∀ f ∈ v.elements, f.native.size = f.type.bits
  native_order : v.elements.Pairwise fun f g => f.native.stop ≤ g.native.offset
  wire_size : ∀ f ∈ v.elements, 1 ≤ f.wire.size ∧ f.wire.size ≤ f.type.bits
  wire_expanded : Field.Packed v.layout.size.wire v.expanded v.extent.wire
  wire_elements : packed → Field.Packed 0 v.elements v.extent.wire
  stop_le : ∀ r, ∀ f ∈ v.elements, (f.span r).stop ≤ 8 * v.bytes r
  bytes_wire : packed → v.bytes .wire = bytesFor (v.elements.map (·.wire.size)).sum

/-- Every view of a compiled struct is arranged, on any buffer, and packed if its
schema has no wire positions: so it is in exact numbers. -/
theorem arranged_of_opening {s : Schema} {name : String} {l : Layout} {r : Representation}
    {b : Bytes} {v : View} (hl : s.layout name = .ok l) (hv : Opening l r b v) :
    v.Arranged (∀ t ∈ s.structs, Unpositioned t.elements) := by
  obtain ⟨d, hd⟩ := Schema.exists_root hl
  have hlayout := Schema.sound_of_layout hd hl
  have hstretch := hv.stretch hlayout
  have hsound := hv.sound hlayout
  have hpacked := hv.packed hlayout
  obtain ⟨rfl, -, -⟩ := hv.eq
  refine ⟨?_, ?_, hsound.native.pairwise, ?_, hstretch.wire, hpacked, ?_, ?_⟩
  · intro f hf
    exact (hsound.well f hf).native_start
  · intro f hf
    exact (hsound.well f hf).native_size
  · intro f hf
    exact ⟨(hsound.well f hf).wire_pos, (hsound.well f hf).wire_le⟩
  · intro r f hf
    exact hsound.stop_le hf r
  · intro hp
    have hsum := (hpacked hp).sum_eq
    rw [Nat.zero_add] at hsum
    show bytesFor v.extent.wire = _
    rw [hsum]

/-- Blocks that are two to the 63rd bits apart. -/
def strides : Schema where
  version := ⟨2, 0⟩
  aliases := []
  enums := []
  structs :=
    [ { name := "Block", alignment := 1152921504606846976
        elements := [.simple "a" "tUInt8" (.fixed 1) none] },
      { name := "Record", alignment := 1
        elements := [.simple "items" "Block" (.fixed 3) none] } ]

end WireRecord.View
