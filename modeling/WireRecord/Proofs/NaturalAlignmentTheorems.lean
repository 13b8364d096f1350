/-
WireRecord.Proofs.NaturalAlignmentTheorems — naturally aligned scalars stay so.

A schema is naturally aligned if each of its scalars is aligned to its own size.
Then natively every element of every view lies on a multiple of its size, in the
fixed part as in the variable part.

In the fixed part that is what placing does. A template places its fields from
zero, so there the instance has to help: it starts on the largest alignment of
all that it contains, and among powers of two the largest one is a multiple of
the others. `Field.Natural alignment` says of a field that this works out for an
instance on `alignment`, and `Template.Natural` says it of all fields of a
template, each time with the alignment of the template they are in.
-/
import WireRecord.Proofs.ArrangementTheorems
import WireRecord.Proofs.SpreadTheorems

namespace WireRecord

/-! ## Fields and templates -/

/-- Whether a field lies on the size of its type, and stays there in an instance
that starts on an alignment. -/
structure Field.Natural (alignment : Nat) (f : Field) : Prop where
  bytes_le : f.type.bytes ≤ alignment
  aligned : Aligned f.type.bytes f.native.offset

namespace Field.Natural

variable {alignment : Nat} {f : Field}

theorem mono {coarser : Nat} (h : f.Natural alignment) (hle : alignment ≤ coarser) :
    f.Natural coarser :=
  ⟨Nat.le_trans h.bytes_le hle, h.aligned⟩

theorem instantiate (h : f.Natural alignment) (halignment : IsAlignment alignment)
    {start : Extent} (hstart : Aligned alignment start.native) (name : String) :
    Aligned f.type.bytes (f.instantiate start name).native.offset :=
  aligned_add h.aligned (hstart.of_le f.type.isAlignment_bytes halignment h.bytes_le)

end Field.Natural

mutual

/-- Whether the instances of a template, and of those inside it, start on an
alignment that keeps their fields on the sizes of their types. -/
def Template.Natural : Template → Prop
  | ⟨_, alignment, _, _, fields, children⟩ =>
    IsAlignment alignment ∧ (∀ f ∈ fields, f.Natural alignment) ∧ templatesNatural children

/-- Whether this holds of all templates of a list. -/
def templatesNatural : List Template → Prop
  | [] => True
  | t :: rest => t.Natural ∧ templatesNatural rest

end

theorem templatesNatural_append {ts us : List Template} (ht : templatesNatural ts)
    (hu : templatesNatural us) : templatesNatural (ts ++ us) := by
  induction ts with
  | nil => exact hu
  | cons t rest ih => exact ⟨ht.1, ih ht.2⟩

mutual

/-- Wherever the instances of a template come to lie, their fields lie on the sizes
of their types. -/
theorem aligned_marks (N : String → Nat) : ∀ (t : Template) (path : String) (start : Extent),
    t.Natural → ∀ f ∈ Mark.entries (t.marks N path start).1, Aligned f.type.bytes f.native.offset
  | ⟨name, alignment, counter, size, fields, children⟩, path, start, ht, f, hf => by
      obtain ⟨halignment, hfields, hchildren⟩ := ht
      by_cases hname : name = ""
      · rw [Template.marks_of_isEmpty hname] at hf
        exact (List.not_mem_nil hf).elim
      · rw [Template.marks_of_ne hname, Mark.entries_append, Template.entries_asked,
          List.nil_append] at hf
        refine forall_mem_inSeries (p := fun f => Aligned f.type.bytes f.native.offset)
          (fun p position g hg => ?_) _ _ f hf
        rw [Template.instanceMarks, Mark.entries_append, Mark.entries_map_entry] at hg
        rcases List.mem_append.mp hg with hg | hg
        · obtain ⟨k, hk, rfl⟩ := List.mem_map.mp hg
          exact (hfields k hk).instantiate halignment (aligned_alignUp _ alignment) _
        · exact aligned_templateMarks N children p _ hchildren g hg

/-- The same for templates that follow one another. -/
theorem aligned_templateMarks (N : String → Nat) : ∀ (ts : List Template) (path : String)
    (start : Extent), templatesNatural ts →
    ∀ f ∈ Mark.entries (templateMarks N path start ts).1, Aligned f.type.bytes f.native.offset
  | [], _, _, _, _, hf => (List.not_mem_nil hf).elim
  | t :: rest, path, start, hts, f, hf => by
      rw [templateMarks, Mark.entries_append] at hf
      rcases List.mem_append.mp hf with hf | hf
      · exact aligned_marks N t path start hts.1 f hf
      · exact aligned_templateMarks N rest path _ hts.2 f hf

end

/-! ## Drafts -/

/-- Whether the fields of a draft are natural for an instance on an alignment, and
its templates are natural, too. -/
structure Draft.Natural (alignment : Nat) (d : Draft) : Prop where
  fields : ∀ f ∈ d.fields, f.Natural alignment
  templates : templatesNatural d.templates

namespace Draft.Natural

variable {alignment : Nat} {d : Draft}

theorem empty : Draft.empty.Natural alignment :=
  ⟨fun _ hf => (List.not_mem_nil hf).elim, trivial⟩

theorem addField (h : d.Natural alignment) {f : Field} (hf : f.Natural alignment) :
    (d.addField f).Natural alignment where
  fields g hg := by
    rcases List.mem_append.mp hg with hg | hg
    · exact h.fields g hg
    · obtain rfl := List.mem_singleton.mp hg
      exact hf
  templates := h.templates

theorem addTemplate (h : d.Natural alignment) {t : Template} (ht : t.Natural) :
    (d.addTemplate t).Natural alignment :=
  ⟨h.fields, templatesNatural_append h.templates ⟨ht, trivial⟩⟩

theorem vary (h : d.Natural alignment) : ({ d with varies := true } : Draft).Natural alignment :=
  { h with }

theorem pad (h : d.Natural alignment) {padding : Nat} (hpadding : IsAlignment padding) :
    (d.pad padding).Natural alignment := by
  have hmarker : (Template.marker padding).Natural :=
    ⟨hpadding, fun _ hf => (List.not_mem_nil hf).elim, trivial⟩
  unfold Draft.pad
  split
  · split
    · exact h.addTemplate hmarker
    · exact h
  · exact ⟨h.fields, h.templates⟩

/-- A struct that was placed on its own is the template of its instances. -/
theorem template (h : d.Natural alignment) {coarser : Nat} (hle : alignment ≤ coarser)
    (hcoarser : IsAlignment coarser) (name : String) (counter : Option String) :
    Template.Natural ⟨name, coarser, counter, d.size, d.fields, d.templates⟩ :=
  ⟨hcoarser, fun f hf => (h.fields f hf).mono hle, h.templates⟩

end Draft.Natural

/-! ## Shapes -/

/-- Whether a member is naturally aligned: a scalar to its size, a struct to a power
of two or not at all. -/
def Member.Natural : Member → Prop
  | .leaf e type _ => e.alignment = type.bytes
  | .nested e shape => IsAlignment e.alignment ∧ IsAlignment shape.alignment
  | .cyclic _ _ _ | .unresolved _ _ => False

/-- Whether all members of a struct are naturally aligned. -/
def NaturalMembers (members : List Member) : Prop := ∀ m ∈ members, m.Natural

theorem NaturalMembers.allAlign {members : List Member} (h : NaturalMembers members) :
    AllAlign IsAlignment members := by
  intro m hm
  have hnatural := h m hm
  cases m with
  | leaf e type table =>
    show IsAlignment e.alignment
    rw [show e.alignment = type.bytes from hnatural]
    exact type.isAlignment_bytes
  | nested e shape => exact hnatural
  | cyclic e struct alignment => exact hnatural
  | unresolved e reason => exact hnatural

/-- Instances of a naturally aligned shape start on a power of two. -/
theorem Shape.isAlignment_instanceAlignment {shape : Shape}
    (halignment : IsAlignment shape.alignment) (h : shape.Everywhere NaturalMembers) :
    IsAlignment shape.instanceAlignment :=
  shape.instanceAlignment_of (.inl rfl) .one .max halignment (h.mono fun _ hp => hp.allAlign)

/-! ## Placing -/

theorem Element.FieldAt.natural {e : Element} {type : Scalar} {table : Option EnumTable}
    {name : String} {start : Extent} {f : Field} {alignment : Nat}
    (h : e.FieldAt type table name start f) (hle : type.bytes ≤ alignment)
    (hstart : Aligned type.bytes start.native) : f.Natural alignment where
  bytes_le := by rwa [h.type_eq]
  aligned := by rwa [h.type_eq, h.native_eq]

/-- Whether a draft is natural, and ready for a scalar: as long as it does not vary,
its cursor is on the size of the type. -/
structure Draft.ReadyFor (alignment : Nat) (type : Scalar) (d : Draft) : Prop where
  natural : d.Natural alignment
  cursor : d.varies = false → Aligned type.bytes d.cursor.native

section Placed

variable {alignment : Nat} {e : Element} {scope : Scope} {path owner : String}
  {earlier : List String} {type : Scalar} {table : Option EnumTable} {d d' : Draft}

theorem Element.Starts.natural (h : e.Starts scope d d') (hd : d.Natural alignment) :
    d'.Natural alignment := by
  cases h <;> exact ⟨hd.fields, hd.templates⟩

/-- The first item of a scalar element starts on the size of the type. -/
theorem Element.Starts.readyFor (h : e.Starts scope d d') (he : e.alignment = type.bytes)
    (hd : d.Natural alignment) : d'.ReadyFor alignment type := by
  have hcursor : Aligned type.bytes (alignUp d.cursor.native e.alignment) :=
    he ▸ aligned_alignUp _ e.alignment
  refine ⟨h.natural hd, fun hfixed => ?_⟩
  cases h with
  | varying hv =>
    rw [hv] at hfixed
    cases hfixed
  | aligned _ => exact hcursor
  | positioned wire _ _ _ => exact hcursor

theorem ItemRule.natural_leaf_template {name : String} {counter : Option String} {last : Bool}
    {t : Template} (he : e.alignment = type.bytes)
    (h : Yields ((ItemRule.leaf e scope owner type table).template name counter last) t) :
    t.Natural := by
  obtain ⟨f, hf, rfl⟩ := ItemRule.leaf_template h
  refine ⟨he ▸ type.isAlignment_bytes, fun g hg => ?_, trivial⟩
  obtain rfl := List.mem_singleton.mp hg
  exact hf.natural (Nat.le_of_eq he.symm) fun _ => Nat.dvd_zero _

/-- Behind an item of a scalar the next one starts on the size of the type, too. -/
theorem ItemRule.Adds.readyFor {name : String} {last : Bool}
    (h : (ItemRule.leaf e scope owner type table).Adds name last d d')
    (he : e.alignment = type.bytes) (hle : type.bytes ≤ alignment)
    (hd : d.ReadyFor alignment type) : d'.ReadyFor alignment type := by
  unfold ItemRule.Adds at h
  split at h
  · rename_i hv
    obtain ⟨t, ht, rfl⟩ := h
    refine ⟨hd.natural.addTemplate (natural_leaf_template he ht), fun hfixed => ?_⟩
    rw [Draft.addTemplate, hv] at hfixed
    cases hfixed
  · rename_i hv
    have hcursor := hd.cursor (by simpa using hv)
    obtain ⟨f, hf, rfl⟩ := ItemRule.leaf_place h
    refine ⟨hd.natural.addField (hf.natural hle hcursor), fun _ => ?_⟩
    have hsize : f.size.native = type.bits := by rw [Field.size, hf.native_eq]
    have hbits := Scalar.aligned_bits type.isAlignment_bytes (Nat.le_refl type.bytes)
    show Aligned type.bytes (d.cursor.native + f.size.native)
    rw [hsize]
    exact aligned_add hcursor hbits

/-- A scalar element keeps a draft natural. -/
theorem Element.Placed.natural_leaf
    (h : e.Placed scope path earlier (.leaf e scope owner type table) d d')
    (he : e.alignment = type.bytes) (hle : type.bytes ≤ alignment) (hd : d.Natural alignment) :
    d'.Natural alignment := by
  cases h with
  | fixed _ _ starts items =>
    have hready := items.preserves (p := (Draft.ReadyFor alignment type ·))
      (fun _ _ _ _ hadds => hadds.readyFor he hle) (starts.readyFor he hd)
    exact hready.natural
  | counted _ _ template eq =>
    rw [eq]
    exact hd.vary.addTemplate (ItemRule.natural_leaf_template he template)

/-- A struct element keeps a draft natural, when the struct does. -/
theorem Element.Placed.natural_nested {instanceAlignment : Nat}
    {placeStruct : Scope → String → Bool → Draft → Placing Draft}
    (h : e.Placed scope path earlier (.nested e scope instanceAlignment placeStruct) d d')
    (he : IsAlignment e.alignment) (hinstance : IsAlignment instanceAlignment)
    (hplace : ∀ {a : Nat} {scope : Scope} {path : String} {last : Bool} {d d' : Draft},
      instanceAlignment ≤ a → Yields (placeStruct scope path last d) d' → d.Natural a →
      d'.Natural a)
    (hle : instanceAlignment ≤ alignment) (hd : d.Natural alignment) : d'.Natural alignment := by
  have htemplate : ∀ {name : String} {counter : Option String} {last : Bool} {t : Template},
      Yields ((ItemRule.nested e scope instanceAlignment placeStruct).template name counter last)
        t → t.Natural := by
    intro name counter last t ht
    obtain ⟨draft, hdraft, rfl⟩ := ItemRule.nested_template ht
    have hnatural := hplace (Nat.le_refl instanceAlignment) hdraft .empty
    exact hnatural.template (Nat.le_max_right _ _) (he.max hinstance) name counter
  cases h with
  | fixed _ _ starts items =>
    refine items.preserves (fun name last d d' hadds hd => ?_) (starts.natural hd)
    unfold ItemRule.Adds at hadds
    split at hadds
    · obtain ⟨t, ht, rfl⟩ := hadds
      exact hd.addTemplate (htemplate ht)
    · rw [ItemRule.nested_place] at hadds
      exact hplace hle hadds ⟨hd.fields, hd.templates⟩
  | counted _ _ template eq =>
    rw [eq]
    exact hd.vary.addTemplate (htemplate template)

end Placed

mutual

/-- Placing a naturally aligned shape keeps a draft natural, for an instance on any
alignment from that of the shape on. -/
theorem Shape.place_natural : ∀ (shape : Shape) {alignment : Nat} {scope : Scope} {path : String}
    {last : Bool} {d d' : Draft}, IsAlignment shape.alignment →
    shape.Everywhere NaturalMembers → shape.instanceAlignment ≤ alignment →
    Yields (shape.place scope path last d) d' → d.Natural alignment → d'.Natural alignment
  | .mk _ padding members, _, _, _, _, _, _, hpadding, hmembers, hle, h, hd => by
      obtain ⟨mid, hmid, rfl⟩ := Shape.place_yields h
      have hinner := Nat.le_trans (Nat.le_max_right _ _) hle
      have hnatural := placeMembers_natural members hmembers.1 hmembers.2 hinner hmid hd
      split
      · exact hnatural
      · exact hnatural.pad hpadding

theorem placeMembers_natural : ∀ (members : List Member) {alignment : Nat} {scope : Scope}
    {owner path : String} {base : Nat} {earlier : List String} {d d' : Draft},
    NaturalMembers members → membersEverywhere NaturalMembers members →
    membersAlignment members ≤ alignment →
    Yields (placeMembers scope owner path base earlier d members) d' → d.Natural alignment →
    d'.Natural alignment
  | [], _, _, _, _, _, _, _, _, _, _, _, h, hd => by
      rw [placeMembers_nil_yields h]
      exact hd
  | m :: rest, _, _, _, _, _, _, _, _, hmembers, hin, hle, h, hd => by
      obtain ⟨mid, hm, hrest⟩ := placeMembers_cons_yields h
      have hfirst := m.place_natural (hmembers m List.mem_cons_self) hin.1
        (Nat.le_trans (Nat.le_max_left _ _) hle) hm hd
      exact placeMembers_natural rest (fun k hk => hmembers k (List.mem_cons_of_mem m hk)) hin.2
        (Nat.le_trans (Nat.le_max_right _ _) hle) hrest hfirst

theorem Member.place_natural : ∀ (m : Member) {alignment : Nat} {scope : Scope}
    {owner path : String} {base : Nat} {earlier : List String} {d d' : Draft},
    m.Natural → m.Everywhere NaturalMembers → m.instanceAlignment ≤ alignment →
    Yields (m.place scope owner path base earlier d) d' → d.Natural alignment →
    d'.Natural alignment
  | .leaf e type table, _, _, _, _, _, _, _, _, he, _, hle, h, hd => by
      rw [Member.place] at h
      rw [Member.instanceAlignment, show e.alignment = type.bytes from he] at hle
      exact (Element.place_yields h).natural_leaf he hle hd
  | .nested e shape, _, _, _, _, _, _, _, _, he, hin, hle, h, hd => by
      rw [Member.place] at h
      exact (Element.place_yields h).natural_nested he.1
        (Shape.isAlignment_instanceAlignment he.2 hin)
        (fun hle h hd => shape.place_natural he.2 hin hle h hd)
        (Nat.le_trans (Nat.le_max_right _ _) hle) hd
  | .cyclic _ _ _, _, _, _, _, _, _, _, _, he, _, _, _, _ => he.elim
  | .unresolved _ _, _, _, _, _, _, _, _, _, he, _, _, _, _ => he.elim

end

/-! ## Schemas and views -/

namespace Schema

/-- Whether an element is naturally aligned: a scalar, be it of an enumeration or not,
to its native size, a struct to a power of two or not at all. -/
def AlignsNaturally (s : Schema) (e : Element) : Prop :=
  match s.meaning? e.type with
  | some (.struct _) => IsAlignment e.alignment
  | _ => ∀ type ∈ s.leafType? e.type, e.alignment = type.bytes

instance (s : Schema) (e : Element) : Decidable (s.AlignsNaturally e) :=
  match h : s.meaning? e.type with
  | some (.struct _) => decidable_of_iff (IsAlignment e.alignment) (by simp [AlignsNaturally, h])
  | some (.scalar _) | some (.enum _) | none =>
    decidable_of_iff (∀ type ∈ s.leafType? e.type, e.alignment = type.bytes)
      (by simp [AlignsNaturally, h])

/-- Whether every struct of a schema is aligned to a power of two or not at all, and
every element naturally. -/
def NaturallyAligned (s : Schema) : Prop :=
  ∀ d ∈ s.structs, IsAlignment d.alignment ∧ ∀ e ∈ d.elements, s.AlignsNaturally e

instance (s : Schema) : Decidable s.NaturallyAligned :=
  inferInstanceAs (Decidable (∀ d ∈ s.structs, _ ∧ _))

variable {s : Schema} {name : String} {d : StructDecl} {l : Layout}

/-- Where a schema is naturally aligned, the shape of a struct is. -/
theorem naturalMembers_shape (hs : s.NaturallyAligned) (hd : d ∈ s.structs)
    (hin : (s.shape d).Everywhere AllResolved) : (s.shape d).Everywhere NaturalMembers := by
  rw [shape_eq_shapeOf, everywhere_iff] at hin ⊢
  intro x hx m hm
  have hresolved := hin x hx m hm
  have hmem : x.struct ∈ s.structs := by
    cases hx with
    | refl => exact hd
    | tail _ hstep => exact hstep.refers.mem_structs
  obtain ⟨e, he, rfl⟩ := List.mem_map.mp hm
  have halign := (hs _ hmem).2 e he
  unfold AlignsNaturally at halign
  rcases member_of_resolved hresolved with ⟨type, table, htype, hleaf⟩ | ⟨t, ht, -, hnested⟩
  · rw [hleaf]
    split at halign
    · rename_i t hmeaning
      rw [leafType?, hmeaning] at htype
      cases htype
    · exact halign type htype
  · rw [hnested]
    rw [ht] at halign
    exact ⟨halign, (hs t (mem_structs_of_struct?_eq_some (struct?_of_meaning? ht))).1⟩

/-- In a layout of a naturally aligned schema all fields lie on the sizes of their
types, and all templates keep them there. -/
theorem natural_of_layout (hs : s.NaturallyAligned) (hd : s.root name = .ok d)
    (hl : s.layout name = .ok l) :
    (∀ f ∈ l.fields, Aligned f.type.bytes f.native.offset) ∧ templatesNatural l.templates := by
  obtain ⟨draft, hdraft, hfields, htemplates, -⟩ := layout_eq_ok hd hl
  have hmem := mem_structs_of_root hd
  have hmembers := naturalMembers_shape hs hmem
    ((placeable_of_layout hd hl).mono fun _ h => h.resolved)
  have hnatural := (s.shape d).place_natural (hs d hmem).1 hmembers (Nat.le_refl _) hdraft .empty
  rw [hfields, htemplates]
  exact ⟨fun f hf => (hnatural.fields f hf).aligned, hnatural.templates⟩

end Schema

namespace View

/-- In a naturally aligned schema every element of every view lies natively on a
multiple of its size, whatever version, wire positions and buffer. -/
theorem size_dvd_offset_of_opening {s : Schema} {name : String} {l : Layout} {r : Representation}
    {b : Bytes} {v : View} (hs : s.NaturallyAligned) (hl : s.layout name = .ok l)
    (hv : Opening l r b v) : ∀ f ∈ v.elements, f.native.size ∣ f.native.offset := by
  obtain ⟨d, hd⟩ := Schema.exists_root hl
  obtain ⟨hfields, htemplates⟩ := Schema.natural_of_layout hs hd hl
  have hsound := hv.sound (Schema.sound_of_layout hd hl)
  have haligned : ∀ f ∈ v.elements, Aligned f.type.bytes f.native.offset := by
    intro f hf
    cases hv with
    | fixed =>
      rw [elements, openStatic, List.append_nil] at hf
      exact hfields f hf
    | full hopen =>
      have hopened := opened_of_openFull hopen
      obtain ⟨rfl, -⟩ := openFull_eq_ok_iff.mp hopen
      rw [elements, hopened.expanded_eq] at hf
      rcases List.mem_append.mp hf with hf | hf
      · exact hfields f hf
      · exact aligned_templateMarks _ _ _ _ htemplates f hf
  intro f hf
  have hwell := hsound.well f hf
  have hbytes : f.type.bits = 8 * f.type.bytes := by
    have hmod := f.type.bits_mod
    unfold Scalar.bytes
    omega
  rw [hwell.native_size, hbytes]
  by_cases hone : 1 < f.type.bytes
  · exact haligned f hf hone
  · have hbyte : f.type.bytes = 1 := by
      have height := f.type.eight_le_bits
      omega
    rw [hbyte]
    exact Nat.dvd_of_mod_eq_zero hwell.native_start

end View

/-! ## An example -/

/-- Records of samples, each with values of its own, in a legacy schema and with a
place on the wire. The values are aligned beyond the struct they are in. -/
def samples : Schema where
  version := ⟨2, 0⟩
  aliases := []
  enums := [{ name := "Kind", base := "tUInt16", entries := [⟨"Low", 0⟩, ⟨"High", 1⟩] }]
  structs :=
    [ { name := "Sample", alignment := 4
        elements :=
          [ .simple "size" "tUInt8" (.fixed 1) none,
            { Element.simple "kind" "Kind" (.fixed 1) (some 8) with alignment := 2 },
            { Element.simple "values" "tUInt64" (.countedBy "size") (some 36) with
              alignment := 8 } ] },
      { name := "Record", alignment := 1
        elements :=
          [ .simple "count" "tUInt8" (.fixed 1) none,
            { Element.simple "level" "tUInt32" (.fixed 1) none with
              alignment := 4, position := some ⟨2, 0⟩ },
            .simple "samples" "Sample" (.countedBy "count") none,
            { Element.simple "sum" "tUInt32" (.fixed 1) none with alignment := 4 } ] } ]

/-- Two samples: the second one and the sum behind it are aligned, too. -/
theorem View.size_dvd_offset_of_opening_samples : ∃ l v, samples.layout "Record" = .ok l ∧
    Opening l .wire [2, 0, 0, 0, 0, 0, 2, 0, 0, 0, 0, 0, 0, 0, 0, 0, 0, 0, 0, 0, 0, 0, 0] v ∧
    (∀ f ∈ v.elements, f.native.size ∣ f.native.offset) ∧
    v.elements.map (fun f => (f.name, f.native.offset / 8)) = [("count", 0), ("level", 4),
      ("samples[0].size", 8), ("samples[0].kind", 10), ("samples[0].values[0]", 16),
      ("samples[0].values[1]", 24), ("samples[1].size", 32), ("samples[1].kind", 34),
      ("sum", 40)] := by
  have hs : samples.NaturallyAligned := by decide +kernel
  obtain ⟨d, l, v, -, hl, hv, hplaces⟩ := @Schema.exists_view samples "Record" .wire
    [2, 0, 0, 0, 0, 0, 2, 0, 0, 0, 0, 0, 0, 0, 0, 0, 0, 0, 0, 0, 0, 0, 0]
    (fun _ v => v.elements.map (fun f => (f.name, f.native.offset / 8)) = [("count", 0),
      ("level", 4), ("samples[0].size", 8), ("samples[0].kind", 10),
      ("samples[0].values[0]", 16), ("samples[0].values[1]", 24), ("samples[1].size", 32),
      ("samples[1].kind", 34), ("sum", 40)]) (by decide +kernel)
  exact ⟨l, v, hl, .full hv, size_dvd_offset_of_opening hs hl (.full hv),
    of_decide_eq_true hplaces⟩

end WireRecord
