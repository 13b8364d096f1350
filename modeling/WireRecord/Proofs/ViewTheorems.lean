/-
WireRecord.Proofs.ViewTheorems — the elements of a view, and the same view on
another buffer.

An opened view of a compiled layout is `View.Sound`: natively its elements lie
one after another up to the extent of the view, on the wire they end within it.
If the buffer also holds the fixed part, every element can be read.

`View.onto` keeps the elements and the extent of a view and changes what they are
read from. When the values stay the same, that is the view which opens there,
unless a counter exceeds what the new buffer has bits for: `View.reopen_iff`.
-/
import WireRecord.Proofs.ExpansionTheorems
import WireRecord.Proofs.LayoutTheorems
import WireRecord.View.Transfer

namespace WireRecord

theorem le_bytesFor (n : Nat) : n ≤ 8 * bytesFor n := by
  unfold bytesFor
  omega

theorem bytesFor_le {n length : Nat} (h : n ≤ 8 * length) : bytesFor n ≤ length := by
  unfold bytesFor
  omega

theorem le_of_bytesFor_le {n length : Nat} (h : bytesFor n ≤ length) : n ≤ 8 * length := by
  unfold bytesFor at h
  omega

namespace Source

/-- Every counter that was asked for holds no more than the buffer has bits. -/
theorem Admits.counter_le {src : Source} {N : String → Nat} {marks : List (Mark Field)}
    {found : List Field} (h : src.Admits N found marks) :
    ∀ c ∈ Mark.counters marks, N c ≤ 8 * src.buffer.length :=
  (admits_iff.mp h).2

/-- Every field that was found ends within the buffer. -/
theorem Admits.entry_stop {src : Source} {N : String → Nat} {marks : List (Mark Field)}
    {found : List Field} (h : src.Admits N found marks) :
    ∀ f ∈ Mark.entries marks, (f.span src.rep).stop ≤ 8 * src.buffer.length :=
  (admits_iff.mp h).1.entry_stop

/-- Another buffer in which the counters hold the same admits the same marks, if its
fields end within it and it has bits for the counters. -/
theorem Admits.transfer {src src' : Source} {N : String → Nat} {known found : List Field}
    {marks : List (Mark Field)} (h : src.Admits N found marks) (hfixed : src'.fixed = src.fixed)
    (hread : ∀ p ∈ Mark.counters marks, ∀ f, (src.fixed ++ known).find? (·.name == p) = some f →
      f.read src'.rep src'.buffer = f.read src.rep src.buffer)
    (hstop : ∀ f ∈ known, (f.span src'.rep).stop ≤ 8 * src'.buffer.length)
    (hknown : known = found ++ Mark.entries marks)
    (hle : ∀ c ∈ Mark.counters marks, N c ≤ 8 * src'.buffer.length) :
    src'.Admits N found marks := by
  induction marks generalizing found with
  | nil => trivial
  | cons m rest ih =>
    cases m with
    | counter p =>
      refine ⟨?_, ih h.2 (fun c hc => hread c (List.mem_cons_of_mem p hc)) hknown
        fun c hc => hle c (List.mem_cons_of_mem p hc)⟩
      obtain ⟨f, x, hf, hx, hn, -⟩ := count_eq_ok_iff.mp h.1
      -- what is found later does not come before the counter
      have hfirst : (src.fixed ++ known).find? (·.name == p) = some f := by
        rw [hknown, ← List.append_assoc, List.find?_append, List.find?_append, hf]
        rfl
      refine count_eq_ok_iff.mpr ⟨f, x, ?_, ?_, hn, hle p List.mem_cons_self⟩
      · rw [hfixed]
        exact hf
      · rw [hread p List.mem_cons_self f hfirst]
        exact hx
    | entry f =>
      have hmore : known = (found ++ [f]) ++ Mark.entries rest := by
        rw [hknown, List.append_assoc]
        rfl
      refine ⟨hstop f ?_, ih h.2 hread hmore hle⟩
      rw [hmore]
      simp

end Source

namespace View

theorem element_eq_ok_iff {v : View} {i : Nat} {f : Field} :
    v.element i = .ok f ↔ v.elements[i]? = some f := by
  unfold element
  cases v.elements[i]? <;> simp

section Operations

variable {v : View} {i : Nat} {f : Field} (hf : v.elements[i]? = some f)
include hf

/-- What is asked of an element is asked of its field. -/
theorem value_eq_read : v.value i = f.read v.rep v.buffer := by
  rw [value, element_eq_ok_iff.mpr hf]
  rfl

theorem raw_eq_readRaw (n : Nat) : v.raw i n = f.readRaw v.rep v.buffer n := by
  rw [raw, element_eq_ok_iff.mpr hf]
  rfl

theorem setValue_eq_write (x : Value) :
    v.setValue i x = (f.write v.rep v.buffer x).map ({ v with buffer := · }) := by
  rw [setValue, element_eq_ok_iff.mpr hf]
  rfl

theorem setRaw_eq_writeRaw (bytes : Bytes) :
    v.setRaw i bytes = (f.writeRaw v.rep v.buffer bytes).map ({ v with buffer := · }) := by
  rw [setRaw, element_eq_ok_iff.mpr hf]
  rfl

theorem value_of_accessible (h : f.Accessible v.rep v.buffer.length) :
    v.value i = .ok (f.valueIn v.rep v.buffer) := by
  rw [value_eq_read hf, Field.read_of_accessible h]

end Operations

/-! ## Where the elements of a view lie -/

/-- Where the elements of a view lie: natively in order up to its extent, on the
wire within its extent, and in order there too if it is `packed`. -/
structure Sound (packed : Prop) (v : View) : Prop where
  well : ∀ f ∈ v.elements, f.WellPlaced
  native : Field.Ordered .native 0 v.elements v.extent.native
  wire_stop : ∀ f ∈ v.elements, f.wire.stop ≤ v.extent.wire
  wire : packed → Field.Ordered .wire 0 v.elements v.extent.wire
  size_le : ∀ r, v.layout.size.bits r ≤ v.extent.bits r

/-- Every element ends within the record. -/
theorem Sound.stop_le_extent {packed : Prop} {v : View} (h : v.Sound packed) {f : Field}
    (hf : f ∈ v.elements) (r : Representation) : (f.span r).stop ≤ v.extent.bits r := by
  cases r with
  | native => exact (h.native.bounds f hf).2
  | wire => exact h.wire_stop f hf

/-- Every element ends within the bytes the record needs. -/
theorem Sound.stop_le {packed : Prop} {v : View} (h : v.Sound packed) {f : Field}
    (hf : f ∈ v.elements) (r : Representation) : (f.span r).stop ≤ 8 * v.bytes r :=
  Nat.le_trans (h.stop_le_extent hf r) (le_bytesFor _)

/-- The variable part of a view fills what lies between the fixed part and the
end. -/
theorem Opened.stretch {v : View} (h : v.Opened) {packed : Prop} (hl : v.layout.Sound packed) :
    Stretch v.layout.size v.expanded v.extent := by
  rw [h.expanded_eq, h.extent_eq]
  exact stretch_templateMarks v.countAt v.layout.templates "" v.layout.size hl.templates
    hl.size_mod

/-- A view is sound when its variable part fills what lies between the fixed part
and the end. -/
theorem sound_of_stretch {packed : Prop} {v : View} (hl : v.layout.Sound packed)
    (h : Stretch v.layout.size v.expanded v.extent) : v.Sound packed := by
  refine ⟨?_, hl.native.append h.native, ?_, fun hp => ((hl.wire hp).append h.wire).ordered,
    fun r => (h.in_order r).le⟩
  · intro f hf
    rcases List.mem_append.mp hf with hf | hf
    · exact hl.well f hf
    · exact h.well f hf
  · intro f hf
    rcases List.mem_append.mp hf with hf | hf
    · exact Nat.le_trans (hl.wire_stop f hf) h.wire.ordered.le
    · exact (h.wire.ordered.bounds f hf).2

theorem Opened.sound {v : View} (h : v.Opened) {packed : Prop} (hl : v.layout.Sound packed) :
    v.Sound packed :=
  sound_of_stretch hl (h.stretch hl)

theorem checkSize_eq_ok_iff {v : View} :
    v.checkSize = .ok () ↔ v.layout.size.bytes v.rep ≤ v.buffer.length := by
  unfold checkSize
  simp only
  split
  · rename_i hlt
    constructor
    · intro h
      cases h
    · intro hle
      omega
  · rename_i hge
    exact ⟨fun _ => Nat.not_lt.mp hge, fun _ => rfl⟩

/-- A view whose buffer holds both parts can read all its elements. -/
theorem accessible_of_checkSize {v : View} {packed : Prop} (hl : v.layout.Sound packed)
    (h : v.Sound packed) (hvalid : v.checkSize = .ok ())
    (hstop : ∀ f ∈ v.expanded, (f.span v.rep).stop ≤ 8 * v.buffer.length) :
    ∀ f ∈ v.elements, f.Accessible v.rep v.buffer.length := by
  intro f hf
  refine (h.well f hf).accessible ?_
  rcases List.mem_append.mp hf with hf | hf
  · refine Nat.le_trans ?_ (le_of_bytesFor_le (checkSize_eq_ok_iff.mp hvalid))
    cases v.rep with
    | native => exact (hl.native.bounds f hf).2
    | wire => exact hl.wire_stop f hf
  · exact hstop f hf

/-- The elements that were found when a view was opened end within the buffer. -/
theorem Opened.expanded_stop {v : View} (h : v.Opened) :
    ∀ f ∈ v.expanded, (f.span v.rep).stop ≤ 8 * v.buffer.length := by
  rw [h.expanded_eq]
  exact h.admits.entry_stop

section OpenFull

variable {s : Schema} {name : String} {d : StructDecl} {l : Layout} {r : Representation}
  {b : Bytes} {v : View}

/-- A view of a compiled struct is sound, and packed if the schema has no wire
positions. -/
theorem sound_of_openFull (hd : s.root name = .ok d) (hl : s.layout name = .ok l)
    (hv : openFull l r b = .ok v) : v.Sound (∀ t ∈ s.structs, Unpositioned t.elements) := by
  have hopened := opened_of_openFull hv
  obtain ⟨rfl, -⟩ := openFull_eq_ok_iff.mp hv
  exact hopened.sound (Schema.sound_of_layout hd hl)

/-- A valid view of a compiled struct can read all its elements. -/
theorem accessible_of_openFull (hd : s.root name = .ok d) (hl : s.layout name = .ok l)
    (hv : openFull l r b = .ok v) (hvalid : v.checkSize = .ok ()) :
    ∀ f ∈ v.elements, f.Accessible v.rep v.buffer.length := by
  have hopened := opened_of_openFull hv
  obtain ⟨rfl, -⟩ := openFull_eq_ok_iff.mp hv
  have hsound := Schema.sound_of_layout hd hl
  exact accessible_of_checkSize hsound (hopened.sound hsound) hvalid hopened.expanded_stop

end OpenFull

/-! ## The same elements in another buffer -/

/-- The view with the same elements on another buffer. -/
def onto (v : View) (r : Representation) (b : Bytes) : View := { v with rep := r, buffer := b }

/-- The counters that opening a view asks for. -/
def asked (v : View) : List String := Mark.counters (v.layout.marks v.countAt).1

/-- Whether the counters of a view hold no more than the bits of the record in a
representation, so that a buffer of just the record is not too short for them. -/
def Fits (v : View) (r : Representation) : Prop := ∀ c ∈ v.asked, v.countAt c ≤ 8 * v.bytes r

instance (v : View) (r : Representation) : Decidable (v.Fits r) :=
  inferInstanceAs (Decidable (∀ c ∈ v.asked, v.countAt c ≤ 8 * v.bytes r))

variable {v : View} {r : Representation} {b : Bytes}

theorem countAt_onto (hread : ∀ f ∈ v.elements, f.read r b = f.read v.rep v.buffer) :
    (v.onto r b).countAt = v.countAt := by
  funext p
  have helements : (v.onto r b).elements = v.elements := rfl
  unfold countAt
  rw [helements]
  cases hf : v.elements.find? (·.name == p) with
  | none => rfl
  | some f =>
    simp only
    rw [← hread f (List.mem_of_find?_eq_some hf)]
    rfl

theorem value_onto (hread : ∀ f ∈ v.elements, f.read r b = f.read v.rep v.buffer) (i : Nat) :
    (v.onto r b).value i = v.value i := by
  have helement : (v.onto r b).element i = v.element i := rfl
  unfold value
  rw [helement]
  cases he : v.element i with
  | error e => rfl
  | ok f => exact hread f (List.mem_of_getElem? (element_eq_ok_iff.mp he))

/-- A buffer in which the counters hold the same admits the marks of a view, if it holds
the variable part and has bits enough for every counter. -/
theorem admits_of_counters (h : v.Opened)
    (hread : ∀ p ∈ v.asked, ∀ f, v.elements.find? (·.name == p) = some f →
      f.read r b = f.read v.rep v.buffer)
    (hstop : ∀ f ∈ v.expanded, (f.span r).stop ≤ 8 * b.length)
    (hle : ∀ c ∈ v.asked, v.countAt c ≤ 8 * b.length) :
    Source.Admits ⟨v.layout.fields, r, b⟩ v.countAt [] (v.layout.marks v.countAt).1 :=
  h.admits.transfer rfl hread hstop h.expanded_eq hle

/-- What admits the marks of a view opens as the same view. -/
theorem Opened.reopen (h : v.Opened)
    (hadmits : Source.Admits ⟨v.layout.fields, r, b⟩ v.countAt [] (v.layout.marks v.countAt).1) :
    openFull v.layout r b = .ok (v.onto r b) := by
  rw [openFull_of_admits hadmits, onto, ← h.expanded_eq, ← h.extent_eq]

/-- A buffer with the same values has the same view if and only if it has bits
enough for every counter. -/
theorem reopen_iff (h : v.Opened)
    (hread : ∀ f ∈ v.elements, f.read r b = f.read v.rep v.buffer)
    (hstop : ∀ f ∈ v.elements, (f.span r).stop ≤ 8 * b.length) :
    openFull v.layout r b = .ok (v.onto r b) ↔ ∀ c ∈ v.asked, v.countAt c ≤ 8 * b.length := by
  constructor
  · intro hopen c hc
    have hadmits := (opened_of_openFull hopen).admits
    rw [countAt_onto hread] at hadmits
    exact hadmits.counter_le c hc
  · intro hle
    exact h.reopen (admits_of_counters h (fun p _ f hf => hread f (List.mem_of_find?_eq_some hf))
      (fun f hf => hstop f (List.mem_append_right _ hf)) hle)

end View

end WireRecord
