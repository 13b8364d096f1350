/-
WireRecord.Proofs.LayoutTheorems — where compiled fields lie.

Natively the fixed fields of a layout follow one another on byte boundaries. On
the wire they end within the size of the layout, and without wire positions they
fill it without gaps. Positions can make them overlap, but only in the
fixed part: every template is sound. `Draft.Sound` is the invariant behind this.
It is kept by each way to extend a draft, hence by placing a shape.

The other invariant is about the shape: one that was placed has no unknown types,
names its counters before it uses them and has no empty array
(`Schema.placeable_of_layout`).
-/
import WireRecord.Proofs.PlacingTheorems
import WireRecord.Proofs.ReachTheorems
import WireRecord.Proofs.StretchTheorems

namespace WireRecord

/-! ## Sound drafts -/

/-- Whether the fields of a draft lie as they should, up to the cursor; on the
wire, only if the draft is to be packed. -/
structure Draft.Sound (packed : Prop) (d : Draft) : Prop where
  cursor_mod : d.cursor.native % 8 = 0
  well : ∀ f ∈ d.fields, f.WellPlaced
  native : Field.Ordered .native 0 d.fields d.cursor.native
  reached : ∀ f ∈ d.fields, f.wire.stop ≤ d.wireEnd
  wire : packed → Field.Packed 0 d.fields d.cursor.wire ∧ d.wireEnd ≤ d.cursor.wire
  templates : templatesSound d.templates

theorem Element.FieldAt.wellPlaced {e : Element} {type : Scalar} {table : Option EnumTable}
    {name : String} {start : Extent} {f : Field} (h : e.FieldAt type table name start f)
    (hstart : start.native % 8 = 0) : f.WellPlaced where
  native_size := by rw [h.native_eq, h.type_eq]
  native_start := by
    rw [h.native_eq]
    exact hstart
  wire_pos := by
    rw [h.wire_eq]
    exact h.width_pos
  wire_le := by
    rw [h.wire_eq, h.type_eq]
    exact h.width_le

/-- Natively a field fills the size of its type. -/
theorem Element.FieldAt.ordered {e : Element} {type : Scalar} {table : Option EnumTable}
    {name : String} {start : Extent} {f : Field} (h : e.FieldAt type table name start f) :
    Field.Ordered .native start.native [f] (start.native + f.size.native) := by
  rw [Field.Ordered, Field.span, Field.size, h.native_eq]
  exact ⟨Nat.le_refl _, Nat.le_refl _⟩

/-- On the wire a field fills its own width. -/
theorem Element.FieldAt.packed {e : Element} {type : Scalar} {table : Option EnumTable}
    {name : String} {start : Extent} {f : Field} (h : e.FieldAt type table name start f) :
    Field.Packed start.wire [f] (start.wire + f.size.wire) := by
  rw [Field.Packed, Field.size, h.wire_eq]
  exact ⟨rfl, rfl⟩

/-- A field fills its own size. -/
theorem Element.FieldAt.stretch {e : Element} {type : Scalar} {table : Option EnumTable}
    {name : String} {start : Extent} {f : Field} (h : e.FieldAt type table name start f)
    (hstart : start.native % 8 = 0) : Stretch start [f] (start + f.size) where
  start_mod := hstart
  stop_mod := by
    have hsize : f.size.native = type.bits := by rw [Field.size, h.native_eq]
    have := type.bits_mod
    rw [Extent.native_add, hsize]
    omega
  well g hg := by
    obtain rfl := List.mem_singleton.mp hg
    exact h.wellPlaced hstart
  native := h.ordered
  wire := h.packed

namespace Draft.Sound

variable {packed : Prop} {d : Draft}

theorem empty : Draft.Sound packed .empty where
  cursor_mod := rfl
  well := by simp [Draft.empty]
  native := Nat.le_refl 0
  reached := by simp [Draft.empty]
  wire _ := ⟨rfl, Nat.le_refl 0⟩
  templates := trivial

theorem addField (h : d.Sound packed) {e : Element} {type : Scalar} {table : Option EnumTable}
    {name : String} {f : Field} (hf : e.FieldAt type table name d.cursor f) :
    (d.addField f).Sound packed := by
  have hstretch := hf.stretch h.cursor_mod
  have hstop : f.wire.stop = (d.cursor + f.size).wire := by
    rw [Extent.wire_add, Field.size, hf.wire_eq]
    rfl
  refine ⟨hstretch.stop_mod, ?_, h.native.append hstretch.native, ?_, fun hp => ⟨?_, ?_⟩,
    h.templates⟩
  · intro g hg
    rcases List.mem_append.mp hg with hg | hg
    · exact h.well g hg
    · exact hstretch.well g hg
  · intro g hg
    rcases List.mem_append.mp hg with hg | hg
    · exact Nat.le_trans (h.reached g hg) (Nat.le_max_left _ _)
    · obtain rfl := List.mem_singleton.mp hg
      exact Nat.le_max_right _ _
  · exact (h.wire hp).1.append hstretch.wire
  · have hend := (h.wire hp).2
    refine Nat.max_le.mpr ⟨?_, Nat.le_of_eq hstop⟩
    exact Nat.le_trans hend (Nat.le_add_right _ _)

theorem addTemplate (h : d.Sound packed) {t : Template} (ht : t.Sound) :
    (d.addTemplate t).Sound packed :=
  { h with templates := templatesSound_append h.templates ⟨ht, trivial⟩ }

theorem vary (h : d.Sound packed) : ({ d with varies := true } : Draft).Sound packed :=
  { h with }

/-- The cursor moves up to an alignment. -/
theorem align (h : d.Sound packed) (alignment : Nat) :
    ({ d with cursor := d.cursor.align alignment } : Draft).Sound packed :=
  { h with
    cursor_mod := alignUp_mod h.cursor_mod alignment
    native := h.native.mono_right (le_alignUp _ _) }

/-- A wire position moves the cursor anywhere, unless the draft is to be packed. -/
theorem reposition (h : d.Sound packed) (hp : ¬ packed) (alignment wire : Nat) :
    ({ d with cursor := { d.cursor.align alignment with wire := wire } } : Draft).Sound packed :=
  { h.align alignment with
    wire := fun hpacked => (hp hpacked).elim }

theorem sound_marker (alignment : Nat) : (Template.marker alignment).Sound :=
  ⟨.nil rfl, trivial⟩

theorem pad (h : d.Sound packed) (alignment : Nat) : (d.pad alignment).Sound packed := by
  unfold Draft.pad
  split
  · split
    · exact h.addTemplate (sound_marker alignment)
    · exact h
  · exact h.align alignment

/-- A packed draft ends where its last field does. -/
theorem stretch (h : d.Sound True) : Stretch 0 d.fields d.size := by
  have hsize : d.size = d.cursor := by
    have hend := (h.wire trivial).2
    rw [Draft.size, Nat.max_eq_left hend]
  rw [hsize]
  exact ⟨rfl, h.cursor_mod, h.well, h.native, (h.wire trivial).1⟩

end Draft.Sound

/-! ## Sound elements -/

/-- Whether a rule lays out sound items. -/
structure ItemRule.Sound (packed : Prop) (rule : ItemRule) : Prop where
  place : ∀ {name : String} {last : Bool} {d d' : Draft}, Yields (rule.place name last d) d' →
    d.Sound packed → d'.Sound packed
  template : ∀ {name : String} {counter : Option String} {last : Bool} {t : Template},
    Yields (rule.template name counter last) t → t.Sound

section Placed

variable {packed : Prop} {e : Element} {scope : Scope} {path : String} {earlier : List String}
  {rule : ItemRule} {d d' : Draft}

theorem Element.Starts.sound (h : e.Starts scope d d') (hd : d.Sound packed)
    (hp : packed → scope.positioned = true → e.position = none) : d'.Sound packed := by
  cases h with
  | varying _ => exact hd
  | aligned _ => exact hd.align e.alignment
  | positioned wire _ hscope hposition =>
    exact hd.reposition (fun hpacked => hposition (hp hpacked hscope)) e.alignment wire

theorem ItemRule.Adds.sound {name : String} {last : Bool} (h : rule.Adds name last d d')
    (hrule : rule.Sound packed) (hd : d.Sound packed) : d'.Sound packed := by
  unfold ItemRule.Adds at h
  split at h
  · obtain ⟨t, ht, rfl⟩ := h
    exact hd.addTemplate (hrule.template ht)
  · exact hrule.place h hd

theorem Items.sound {items : List (String × Bool)} (h : Items rule items d d')
    (hrule : rule.Sound packed) (hd : d.Sound packed) : d'.Sound packed :=
  h.preserves (fun _ _ _ _ hadds hd => hadds.sound hrule hd) hd

/-- An element keeps a draft sound when its items do. -/
theorem Element.Placed.sound (h : e.Placed scope path earlier rule d d')
    (hrule : rule.Sound packed) (hd : d.Sound packed)
    (hp : packed → scope.positioned = true → e.position = none) : d'.Sound packed := by
  cases h with
  | fixed _ _ starts items => exact items.sound hrule (starts.sound hd hp)
  | counted _ _ template eq =>
    rw [eq]
    exact hd.vary.addTemplate (hrule.template template)

end Placed

theorem ItemRule.sound_leaf {packed : Prop} (e : Element) (scope : Scope) (owner : String)
    (type : Scalar) (table : Option EnumTable) :
    (ItemRule.leaf e scope owner type table).Sound packed where
  place h hd := by
    obtain ⟨f, hf, rfl⟩ := ItemRule.leaf_place h
    exact hd.addField hf
  template h := by
    obtain ⟨f, hf, rfl⟩ := ItemRule.leaf_template h
    have hstretch : Stretch 0 [f] (0 + f.size) := hf.stretch rfl
    have hsize : (0 : Extent) + f.size = f.size := by
      show Extent.mk (0 + _) (0 + _) = _
      rw [Nat.zero_add, Nat.zero_add]
    rw [hsize] at hstretch
    exact ⟨hstretch, trivial⟩

/-! ## Sound layouts -/

mutual

/-- Placing a shape keeps a draft sound. A template starts a draft of its own,
which is packed as wire positions are not heeded in it. -/
theorem Shape.place_sound {packed : Prop} : ∀ (shape : Shape) {scope : Scope} {path : String}
    {last : Bool} {d d' : Draft}, Yields (shape.place scope path last d) d' → d.Sound packed →
    (packed → scope.positioned = true → shape.Everywhere (OfElements Unpositioned)) →
    d'.Sound packed
  | .mk name alignment members, scope, path, last, d, d', h, hd, hp => by
      obtain ⟨mid, hmid, rfl⟩ := Shape.place_yields h
      have hsound := placeMembers_sound members hmid hd hp
      split
      · exact hsound
      · exact hsound.pad alignment

theorem placeMembers_sound {packed : Prop} : ∀ (members : List Member) {scope : Scope}
    {owner path : String} {base : Nat} {earlier : List String} {d d' : Draft},
    Yields (placeMembers scope owner path base earlier d members) d' → d.Sound packed →
    (packed → scope.positioned = true → OfElements Unpositioned members ∧
      membersEverywhere (OfElements Unpositioned) members) →
    d'.Sound packed
  | [], _, _, _, _, _, _, _, h, hd, _ => by
      rw [placeMembers_nil_yields h]
      exact hd
  | m :: rest, scope, _, _, _, _, _, _, h, hd, hp => by
      obtain ⟨mid, hm, hrest⟩ := placeMembers_cons_yields h
      refine placeMembers_sound rest hrest (m.place_sound hm hd fun hpacked hscope => ?_)
        fun hpacked hscope => ?_
      · obtain ⟨hnone, hin⟩ := hp hpacked hscope
        exact ⟨hnone _ (by simp [elementsOf]), hin.1⟩
      · obtain ⟨hnone, hin⟩ := hp hpacked hscope
        exact ⟨fun e he => hnone e (List.mem_cons_of_mem _ he), hin.2⟩

theorem Member.place_sound {packed : Prop} : ∀ (m : Member) {scope : Scope}
    {owner path : String} {base : Nat} {earlier : List String} {d d' : Draft},
    Yields (m.place scope owner path base earlier d) d' → d.Sound packed →
    (packed → scope.positioned = true → m.element.position = none ∧
      m.Everywhere (OfElements Unpositioned)) →
    d'.Sound packed
  | .leaf e type table, scope, owner, path, base, earlier, d, d', h, hd, hp => by
      rw [Member.place] at h
      exact (Element.place_yields h).sound (ItemRule.sound_leaf e scope owner type table) hd
        fun hpacked hscope => (hp hpacked hscope).1
  | .nested e shape, scope, owner, path, base, earlier, d, d', h, hd, hp => by
      rw [Member.place] at h
      refine (Element.place_yields h).sound ⟨fun hplace hd => ?_, fun htemplate => ?_⟩ hd
        fun hpacked hscope => (hp hpacked hscope).1
      · rw [ItemRule.nested_place] at hplace
        exact shape.place_sound hplace (hd.align _) fun hpacked hscope => (hp hpacked hscope).2
      · obtain ⟨draft, hdraft, rfl⟩ := ItemRule.nested_template htemplate
        have hsound : draft.Sound True := shape.place_sound hdraft .empty fun _ hscope => by
          cases hscope
        exact ⟨hsound.stretch, hsound.templates⟩
  | .cyclic _ _ _, _, _, _, _, _, _, _, h, _, _ => (Member.resolved_of_yields h).elim
  | .unresolved _ _, _, _, _, _, _, _, _, h, _, _ => (Member.resolved_of_yields h).elim

end

/-- Where the fields of a layout lie: natively in order, on the wire within its
size, and without gaps if it is `packed`. -/
structure Layout.Sound (packed : Prop) (l : Layout) : Prop where
  size_mod : l.size.native % 8 = 0
  well : ∀ f ∈ l.fields, f.WellPlaced
  native : Field.Ordered .native 0 l.fields l.size.native
  wire_stop : ∀ f ∈ l.fields, f.wire.stop ≤ l.size.wire
  wire : packed → Field.Packed 0 l.fields l.size.wire
  templates : templatesSound l.templates

/-- Whether the struct with a name, and all that is in it, has no wire positions. -/
def Schema.Packs (s : Schema) (name : String) : Prop :=
  ∀ d, s.root name = .ok d → (s.shape d).Everywhere (OfElements Unpositioned)

theorem Schema.packs_of_unpositioned {s : Schema} (h : ∀ t ∈ s.structs, Unpositioned t.elements)
    (name : String) : s.Packs name := fun _ hd =>
  Schema.shape_everywhere h (Schema.mem_structs_of_root hd)

/-- Every compiled layout is sound, and packed if there are no wire positions in its
struct. -/
theorem Schema.sound_of_root {s : Schema} {name : String} {d : StructDecl} {l : Layout}
    (hd : s.root name = .ok d) (hl : s.layout name = .ok l) : l.Sound (s.Packs name) := by
  obtain ⟨draft, hdraft, hfields, htemplates, hsize⟩ := Schema.layout_eq_ok hd hl
  have hsound : draft.Sound (s.Packs name) :=
    (s.shape d).place_sound hdraft .empty fun hp _ => hp d hd
  rw [show l = { l with fields := draft.fields, templates := draft.templates, size := draft.size }
    by rw [← hfields, ← htemplates, ← hsize]]
  refine ⟨hsound.cursor_mod, hsound.well, hsound.native, ?_, ?_, hsound.templates⟩
  · intro f hf
    exact Nat.le_trans (hsound.reached f hf) (Nat.le_max_right _ _)
  · intro hp
    obtain ⟨hfields, hend⟩ := hsound.wire hp
    rw [← Nat.max_eq_left hend] at hfields
    exact hfields

/-- Every compiled layout is sound, and packed if its schema has no wire
positions. -/
theorem Schema.sound_of_layout {s : Schema} {name : String} {d : StructDecl} {l : Layout}
    (hd : s.root name = .ok d) (hl : s.layout name = .ok l) :
    l.Sound (∀ t ∈ s.structs, Unpositioned t.elements) := by
  have hsound := Schema.sound_of_root hd hl
  exact { hsound with wire := fun hp => hsound.wire (Schema.packs_of_unpositioned hp name) }

/-! ## Shapes that can be placed -/

/-- Whether some members of a shape could be placed: every type is known, every
counter is named before it is used and no array is empty. -/
structure Placeable (members : List Member) : Prop where
  resolved : ∀ m ∈ members, m.Resolved
  countable : Countable [] (elementsOf members)

theorem Element.Placed.counter {e : Element} {scope : Scope} {path : String}
    {earlier : List String} {rule : ItemRule} {d d' : Draft}
    (h : e.Placed scope path earlier rule d d') : match e.repetition with
      | .fixed n => 0 < n
      | .countedBy c => c ∈ earlier := by
  cases h with
  | fixed repetition pos _ _ => simpa only [repetition] using pos
  | counted repetition mem _ _ => simpa only [repetition] using mem

mutual

/-- A shape that was placed can be placed. -/
theorem Shape.placeable_of_yields : ∀ (shape : Shape) {scope : Scope} {path : String}
    {last : Bool} {d d' : Draft}, Yields (shape.place scope path last d) d' →
    shape.Everywhere Placeable
  | .mk _ _ members, _, _, _, _, _, h => by
      obtain ⟨mid, hmid, -⟩ := Shape.place_yields h
      obtain ⟨hresolved, hcountable, hin⟩ := placeMembers_placeable members hmid
      exact ⟨⟨hresolved, hcountable⟩, hin⟩

theorem placeMembers_placeable : ∀ (members : List Member) {scope : Scope} {owner path : String}
    {base : Nat} {earlier : List String} {d d' : Draft},
    Yields (placeMembers scope owner path base earlier d members) d' →
    (∀ m ∈ members, m.Resolved) ∧ Countable earlier (elementsOf members) ∧
      membersEverywhere Placeable members
  | [], _, _, _, _, _, _, _, _ => ⟨fun _ hm => (List.not_mem_nil hm).elim, trivial, trivial⟩
  | m :: rest, _, _, _, _, _, _, _, h => by
      obtain ⟨mid, hm, hrest⟩ := placeMembers_cons_yields h
      obtain ⟨hresolved, hcounter, hin⟩ := m.placeable_of_yields hm
      obtain ⟨hresolveds, hcountable, hins⟩ := placeMembers_placeable rest hrest
      exact ⟨List.forall_mem_cons.mpr ⟨hresolved, hresolveds⟩, ⟨hcounter, hcountable⟩, hin, hins⟩

theorem Member.placeable_of_yields : ∀ (m : Member) {scope : Scope} {owner path : String}
    {base : Nat} {earlier : List String} {d d' : Draft},
    Yields (m.place scope owner path base earlier d) d' →
    m.Resolved ∧ (match m.element.repetition with
      | .fixed n => 0 < n
      | .countedBy c => c ∈ earlier) ∧ m.Everywhere Placeable
  | .leaf e type table, _, _, _, _, _, _, _, h => by
      rw [Member.place] at h
      exact ⟨trivial, (Element.place_yields h).counter, trivial⟩
  | .nested e shape, _, _, _, _, _, _, _, h => by
      rw [Member.place] at h
      have hplaced := Element.place_yields h
      refine ⟨trivial, hplaced.counter, ?_⟩
      -- otherwise no item of the member could have been placed
      by_contra hno
      refine ItemRule.Refuses.not_placed ⟨?_, ?_⟩ hplaced
      · intro name last d d' hplace
        rw [ItemRule.nested_place] at hplace
        exact hno (shape.placeable_of_yields hplace)
      · intro name counter last t htemplate
        obtain ⟨draft, hdraft, -⟩ := ItemRule.nested_template htemplate
        exact hno (shape.placeable_of_yields hdraft)
  | .cyclic _ _ _, _, _, _, _, _, _, _, h => (Member.resolved_of_yields h).elim
  | .unresolved _ _, _, _, _, _, _, _, _, h => (Member.resolved_of_yields h).elim

end

/-- The shape of a compiled struct can be placed: in particular every counter is
an earlier element of the same struct. -/
theorem Schema.placeable_of_layout {s : Schema} {name : String} {d : StructDecl} {l : Layout}
    (hd : s.root name = .ok d) (hl : s.layout name = .ok l) :
    (s.shape d).Everywhere Placeable := by
  obtain ⟨draft, hdraft, -⟩ := Schema.layout_eq_ok hd hl
  exact (s.shape d).placeable_of_yields hdraft

end WireRecord
