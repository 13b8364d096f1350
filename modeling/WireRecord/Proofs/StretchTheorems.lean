/-
WireRecord.Proofs.StretchTheorems — fields that lie one after another.

`Field.Ordered r lo fs hi` says that the spans of some fields in one
representation lie between two positions, each behind the one before it. Such
fields do not overlap, and there are no more of them than there are bits.
`Field.Packed lo fs hi` says more about the wire: each field starts where the one
before it stops, so the positions are sums of widths.

A `Stretch` is in order natively, on byte boundaries, and packed on the wire. A
template is sound when the fields of an instance are a stretch of the instance's
size. Then whatever instances a buffer asks for, the fields of
the variable part are a stretch from the end of the fixed part to the end of the
record.
-/
import Mathlib.Algebra.GroupWithZero.Nat
import WireRecord.Proofs.AccessTheorems
import WireRecord.Proofs.AlignmentTheorems
import WireRecord.Proofs.Unrolling

namespace WireRecord

namespace Field

/-! ## Fields in order -/

/-- Whether the spans of some fields lie between two positions, each behind the
one before it. -/
def Ordered (r : Representation) : Nat → List Field → Nat → Prop
  | lo, [], hi => lo ≤ hi
  | lo, f :: rest, hi => lo ≤ (f.span r).offset ∧ Ordered r (f.span r).stop rest hi

namespace Ordered

variable {r : Representation}

theorem le {fs : List Field} {lo hi : Nat} (h : Ordered r lo fs hi) : lo ≤ hi := by
  induction fs generalizing lo with
  | nil => exact h
  | cons f rest ih =>
    have hstop : (f.span r).stop = (f.span r).offset + (f.span r).size := rfl
    have hlo := h.1
    have hrest := ih h.2
    omega

theorem mono_left {fs : List Field} {lo lo' hi : Nat} (hlo : lo' ≤ lo)
    (h : Ordered r lo fs hi) : Ordered r lo' fs hi := by
  cases fs with
  | nil => exact Nat.le_trans hlo h
  | cons f rest => exact ⟨Nat.le_trans hlo h.1, h.2⟩

theorem mono_right {fs : List Field} {lo hi hi' : Nat} (hhi : hi ≤ hi')
    (h : Ordered r lo fs hi) : Ordered r lo fs hi' := by
  induction fs generalizing lo with
  | nil => exact Nat.le_trans h hhi
  | cons f rest ih => exact ⟨h.1, ih h.2⟩

theorem append {fs gs : List Field} {lo mid hi : Nat} (h1 : Ordered r lo fs mid)
    (h2 : Ordered r mid gs hi) : Ordered r lo (fs ++ gs) hi := by
  induction fs generalizing lo with
  | nil => exact h2.mono_left h1
  | cons f rest ih => exact ⟨h1.1, ih h1.2⟩

/-- Every field lies between the two positions. -/
theorem bounds {fs : List Field} {lo hi : Nat} (h : Ordered r lo fs hi) :
    ∀ f ∈ fs, lo ≤ (f.span r).offset ∧ (f.span r).stop ≤ hi := by
  induction fs generalizing lo with
  | nil => simp
  | cons f rest ih =>
    intro g hg
    have hstop : (f.span r).stop = (f.span r).offset + (f.span r).size := rfl
    have hlo := h.1
    rcases List.mem_cons.mp hg with rfl | hg
    · exact ⟨hlo, h.2.le⟩
    · have hb := ih h.2 g hg
      exact ⟨by omega, hb.2⟩

/-- No field meets one behind it. -/
theorem pairwise {fs : List Field} {lo hi : Nat} (h : Ordered r lo fs hi) :
    fs.Pairwise fun f g => (f.span r).stop ≤ (g.span r).offset := by
  induction fs generalizing lo with
  | nil => exact .nil
  | cons f rest ih =>
    refine .cons ?_ (ih h.2)
    intro g hg
    exact (h.2.bounds g hg).1

/-- There is room for the sizes of all fields. -/
theorem length_le {fs : List Field} {lo hi k : Nat} (h : Ordered r lo fs hi)
    (hk : ∀ f ∈ fs, k ≤ (f.span r).size) : lo + k * fs.length ≤ hi := by
  induction fs generalizing lo with
  | nil => exact h
  | cons f rest ih =>
    have hstop : (f.span r).stop = (f.span r).offset + (f.span r).size := rfl
    have hlo := h.1
    have hsize := hk f (by simp)
    have hrest := ih h.2 fun g hg => hk g (by simp [hg])
    rw [List.length_cons, Nat.mul_add]
    omega

/-- Fields stay in order when all of them are moved up. -/
theorem placed {path : String} {position : Extent} {fs : List Field} {lo hi : Nat}
    (h : Ordered r lo fs hi) : Ordered r (position.bits r + lo)
      (Template.placed path position fs) (position.bits r + hi) := by
  induction fs generalizing lo with
  | nil => exact Nat.add_le_add_left h _
  | cons f rest ih =>
    have hoffset : ((f.instantiate position (Path.join path f.name)).span r).offset =
        position.bits r + (f.span r).offset := by
      cases r <;> exact Nat.add_comm _ _
    have hstop : ((f.instantiate position (Path.join path f.name)).span r).stop =
        position.bits r + (f.span r).stop := by
      cases r <;> simp only [Span.stop, hoffset] <;> exact Nat.add_assoc _ _ _
    refine ⟨?_, ?_⟩
    · rw [hoffset]
      exact Nat.add_le_add_left h.1 _
    · rw [hstop]
      exact ih h.2

end Ordered

/-! ## Fields without gaps -/

/-- Whether the spans of some fields on the wire fill what lies between two
positions, each starting where the one before it stops. -/
def Packed : Nat → List Field → Nat → Prop
  | lo, [], hi => lo = hi
  | lo, f :: rest, hi => f.wire.offset = lo ∧ Packed f.wire.stop rest hi

namespace Packed

theorem ordered {fs : List Field} {lo hi : Nat} (h : Packed lo fs hi) :
    Ordered .wire lo fs hi := by
  induction fs generalizing lo with
  | nil => exact Nat.le_of_eq h
  | cons f rest ih => exact ⟨Nat.le_of_eq h.1.symm, ih h.2⟩

theorem append {fs gs : List Field} {lo mid hi : Nat} (h1 : Packed lo fs mid)
    (h2 : Packed mid gs hi) : Packed lo (fs ++ gs) hi := by
  induction fs generalizing lo with
  | nil =>
    obtain rfl : lo = mid := h1
    exact h2
  | cons f rest ih => exact ⟨h1.1, ih h1.2⟩

/-- Fields without gaps take as many bits as they have together. -/
theorem sum_eq {fs : List Field} {lo hi : Nat} (h : Packed lo fs hi) :
    hi = lo + (fs.map (·.wire.size)).sum := by
  induction fs generalizing lo with
  | nil => exact h.symm
  | cons f rest ih =>
    have hoffset : f.wire.offset = lo := h.1
    rw [ih h.2, Span.stop, hoffset, List.map_cons, List.sum_cons, Nat.add_assoc]

/-- Without gaps the widths decide where the fields lie. -/
theorem map_wire_eq {fs gs : List Field} {lo hi hi' : Nat} (hfs : Packed lo fs hi)
    (hgs : Packed lo gs hi') (hsize : fs.map (·.wire.size) = gs.map (·.wire.size)) :
    fs.map (·.wire) = gs.map (·.wire) ∧ hi = hi' := by
  induction fs generalizing lo gs with
  | nil =>
    obtain rfl : gs = [] := by simpa using hsize.symm
    exact ⟨rfl, hfs.symm.trans hgs⟩
  | cons f rest ih =>
    cases gs with
    | nil => simp at hsize
    | cons g more =>
      simp only [List.map_cons, List.cons.injEq] at hsize
      have hspan : f.wire = g.wire := by
        rw [Span.mk.injEq]
        exact ⟨hfs.1.trans hgs.1.symm, hsize.1⟩
      have hmore := hgs.2
      rw [← hspan] at hmore
      obtain ⟨hrest, hend⟩ := ih hfs.2 hmore hsize.2
      exact ⟨by rw [List.map_cons, List.map_cons, hspan, hrest], hend⟩

/-- Fields stay without gaps when all of them are moved up. -/
theorem placed {path : String} {position : Extent} {fs : List Field} {lo hi : Nat}
    (h : Packed lo fs hi) :
    Packed (position.wire + lo) (Template.placed path position fs) (position.wire + hi) := by
  induction fs generalizing lo with
  | nil => exact congrArg (position.wire + ·) h
  | cons f rest ih =>
    refine ⟨?_, ?_⟩
    · rw [← h.1]
      exact Nat.add_comm _ _
    · have hstop : (f.instantiate position (Path.join path f.name)).wire.stop =
          position.wire + f.wire.stop := by
        show f.wire.offset + position.wire + f.wire.size = position.wire + f.wire.stop
        rw [Nat.add_comm f.wire.offset, Nat.add_assoc, Span.stop]
      rw [hstop]
      exact ih h.2

end Packed

end Field

/-! ## Stretches -/

/-- Fields that fill what lies between two positions: each well placed, natively
in order from one byte boundary to another, on the wire without gaps. -/
structure Stretch (start : Extent) (fs : List Field) (stop : Extent) : Prop where
  start_mod : start.native % 8 = 0
  stop_mod : stop.native % 8 = 0
  well : ∀ f ∈ fs, f.WellPlaced
  native : Field.Ordered .native start.native fs stop.native
  wire : Field.Packed start.wire fs stop.wire

namespace Stretch

theorem nil {start : Extent} (h : start.native % 8 = 0) : Stretch start [] start :=
  ⟨h, h, by simp, Nat.le_refl _, rfl⟩

theorem append {start mid stop : Extent} {fs gs : List Field} (h1 : Stretch start fs mid)
    (h2 : Stretch mid gs stop) : Stretch start (fs ++ gs) stop where
  start_mod := h1.start_mod
  stop_mod := h2.stop_mod
  well f hf := by
    rcases List.mem_append.mp hf with hf | hf
    · exact h1.well f hf
    · exact h2.well f hf
  native := h1.native.append h2.native
  wire := h1.wire.append h2.wire

theorem of_align {start stop : Extent} {fs : List Field} {alignment : Nat}
    (hstart : start.native % 8 = 0) (h : Stretch (start.align alignment) fs stop) :
    Stretch start fs stop :=
  { h with
    start_mod := hstart
    native := h.native.mono_left (le_alignUp _ _) }

theorem align {start stop : Extent} {fs : List Field} (h : Stretch start fs stop)
    (alignment : Nat) : Stretch start fs (stop.align alignment) :=
  { h with
    stop_mod := alignUp_mod h.stop_mod alignment
    native := h.native.mono_right (le_alignUp _ _) }

theorem in_order {start stop : Extent} {fs : List Field} (h : Stretch start fs stop)
    (r : Representation) : Field.Ordered r (start.bits r) fs (stop.bits r) := by
  cases r with
  | native => exact h.native
  | wire => exact h.wire.ordered

/-- The fields of an instance, put at a position. -/
theorem placed {size position : Extent} {fs : List Field} (h : Stretch 0 fs size)
    (hposition : position.native % 8 = 0) (path : String) :
    Stretch position (Template.placed path position fs) (position + size) where
  start_mod := hposition
  stop_mod := by
    have := h.stop_mod
    rw [Extent.native_add]
    omega
  well f hf := by
    obtain ⟨g, hg, rfl⟩ := List.mem_map.mp hf
    have hw := h.well g hg
    refine ⟨hw.native_size, ?_, hw.wire_pos, hw.wire_le⟩
    have hoffset := hw.native_start
    show (g.native.offset + position.native) % 8 = 0
    omega
  native := h.native.placed
  wire := h.wire.placed

end Stretch

/-! ## Templates -/

mutual

/-- Whether the fields of an instance fill the size of the instance, for a
template and those inside it. -/
def Template.Sound : Template → Prop
  | ⟨_, _, _, size, fields, children⟩ => Stretch 0 fields size ∧ templatesSound children

/-- Whether all templates of a list are sound. -/
def templatesSound : List Template → Prop
  | [] => True
  | t :: rest => t.Sound ∧ templatesSound rest

end

theorem templatesSound_append {ts us : List Template} (ht : templatesSound ts)
    (hu : templatesSound us) : templatesSound (ts ++ us) := by
  induction ts with
  | nil => exact hu
  | cons t rest ih => exact ⟨ht.1, ih ht.2⟩

/-- Instances in series are a stretch when each one is. -/
theorem stretch_inSeries {one : String → Extent → List (Mark Field) × Extent}
    (hone : ∀ p start, start.native % 8 = 0 →
      Stretch start (Mark.entries (one p start).1) (one p start).2)
    (ps : List String) (start : Extent) (hstart : start.native % 8 = 0) :
    Stretch start (Mark.entries (inSeries one ps start).1) (inSeries one ps start).2 := by
  induction ps generalizing start with
  | nil => exact .nil hstart
  | cons p rest ih =>
    have hfirst := hone p start hstart
    rw [inSeries, Mark.entries_append]
    exact hfirst.append (ih (one p start).2 hfirst.stop_mod)

mutual

/-- The fields that a sound template stands for are a stretch. -/
theorem stretch_marks (N : String → Nat) : ∀ (t : Template) (path : String) (start : Extent),
    t.Sound → start.native % 8 = 0 →
    Stretch start (Mark.entries (t.marks N path start).1) (t.marks N path start).2
  | ⟨name, alignment, counter, size, fields, children⟩, path, start, ht, hstart => by
      by_cases hname : name = ""
      · rw [Template.marks_of_isEmpty hname]
        exact (Stretch.nil hstart).align alignment
      · rw [Template.marks_of_ne hname, Mark.entries_append, Template.entries_asked,
          List.nil_append]
        refine (Stretch.of_align hstart (stretch_inSeries ?_ _ _ ?_)).align alignment
        · intro p position hposition
          have hplaced : Stretch (position.align alignment)
              (Template.placed p (position.align alignment) fields)
              (position.align alignment + size) :=
            ht.1.placed (alignUp_mod hposition alignment) p
          rw [Template.instanceMarks, Mark.entries_append, Mark.entries_map_entry]
          exact Stretch.of_align hposition (hplaced.append
            (stretch_templateMarks N children p _ ht.2 hplaced.stop_mod))
        · exact alignUp_mod hstart alignment

/-- The fields that sound templates stand for are a stretch. -/
theorem stretch_templateMarks (N : String → Nat) : ∀ (ts : List Template) (path : String)
    (start : Extent), templatesSound ts → start.native % 8 = 0 →
    Stretch start (Mark.entries (templateMarks N path start ts).1)
      (templateMarks N path start ts).2
  | [], _, _, _, h => .nil h
  | t :: rest, path, start, ht, hstart => by
      have h1 := stretch_marks N t path start ht.1 hstart
      rw [templateMarks, Mark.entries_append]
      exact h1.append (stretch_templateMarks N rest path _ ht.2 h1.stop_mod)

end

end WireRecord
