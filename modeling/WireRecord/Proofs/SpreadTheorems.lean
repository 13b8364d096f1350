/-
WireRecord.Proofs.SpreadTheorems — where a record lies natively, straight from
its type.

`Shape.spread` gives the native places of a struct by one walk over its shape
with a single position at hand: an element moves the position up to its
alignment, a scalar takes its size, a struct starts on its alignment and is
padded at its end. There is no fixed and no variable part in it, and a counted
array is gone through just like a fixed one.

Two things are compared with it:

* a layout without counted arrays, which is placed like that
  (`Shape.place_spread`), for any alignments;
* a layout whose counted arrays are those of the record itself, expanded with
  what the counters hold (`Schema.trail_of_layout`). Templates are placed from
  zero and moved to where an instance starts, so this needs `Shape.Regular`: the
  start is aligned to all that the instance contains, and then a struct can be
  moved there as a whole (`Shape.spread_add`).
-/
import WireRecord.Proofs.AlignmentTheorems
import WireRecord.Proofs.RowTheorems

namespace WireRecord

/-! ## Trails -/

/-- Native places one after another, and the position behind them. -/
@[ext] structure Trail where
  /-- The places. -/
  spans : List Span
  /-- The position behind them. -/
  stop : Nat

namespace Trail

/-- What comes next is added from where a trail stops. -/
def andThen (t : Trail) (next : Nat → Trail) : Trail :=
  ⟨t.spans ++ (next t.stop).spans, (next t.stop).stop⟩

/-- The trail moved up. -/
def shift (t : Trail) (distance : Nat) : Trail :=
  ⟨t.spans.map (·.shift distance), t.stop + distance⟩

/-- Moving on to an alignment. -/
def pad (alignment position : Nat) : Trail := ⟨[], alignUp position alignment⟩

/-- Items one after another, each from where the one before it stopped. -/
def inTurn (one : Nat → Trail) : Nat → Nat → Trail
  | 0, start => ⟨[], start⟩
  | n + 1, start => (one start).andThen (inTurn one n)

@[simp] theorem andThen_nil (t : Trail) : t.andThen (fun p => ⟨[], p⟩) = t := by
  simp [andThen]

@[simp] theorem andThen_assoc (t : Trail) (f g : Nat → Trail) :
    (t.andThen f).andThen g = t.andThen fun p => (f p).andThen g := by
  simp [andThen]

theorem andThen_shift {t : Trail} {f g : Nat → Trail} {distance : Nat}
    (h : ∀ p, f (p + distance) = (g p).shift distance) :
    (t.shift distance).andThen f = (t.andThen g).shift distance := by
  simp [andThen, shift, h]

theorem pad_add {alignment distance : Nat} (h : Aligned alignment distance) (p : Nat) :
    pad alignment (p + distance) = (pad alignment p).shift distance := by
  simp [pad, shift, alignUp_add h]

/-- Items that can be moved can be moved together. -/
theorem inTurn_add {one : Nat → Trail} {distance : Nat}
    (h : ∀ p, one (p + distance) = (one p).shift distance) (n p : Nat) :
    inTurn one n (p + distance) = (inTurn one n p).shift distance := by
  induction n generalizing p with
  | zero => rfl
  | succ n ih =>
    rw [inTurn, inTurn, h]
    exact andThen_shift ih

/-- A first item that moves to an alignment itself need not start on it. -/
theorem inTurn_congr {one : Nat → Trail} {n p q : Nat} (hn : 0 < n) (h : one p = one q) :
    inTurn one n p = inTurn one n q := by
  obtain ⟨n, rfl⟩ := Nat.exists_eq_succ_of_ne_zero (Nat.ne_of_gt hn)
  simp [inTurn, h]

/-- Items that stop on an alignment do so together. -/
theorem aligned_inTurn {one : Nat → Trail} {alignment : Nat}
    (hone : ∀ p, Aligned alignment p → Aligned alignment (one p).stop) (n p : Nat)
    (hp : Aligned alignment p) : Aligned alignment (inTurn one n p).stop := by
  induction n generalizing p with
  | zero => exact hp
  | succ n ih => exact ih (one p).stop (hone p hp)

/-- Items that stop on an alignment may be moved to it before each of them. -/
theorem inTurn_alignUp {one : Nat → Trail} {alignment n : Nat} (hn : 0 < n)
    (hone : ∀ p, Aligned alignment p → Aligned alignment (one p).stop) (p : Nat) :
    inTurn (fun p => one (alignUp p alignment)) n p = inTurn one n (alignUp p alignment) := by
  induction n generalizing p with
  | zero => omega
  | succ n ih =>
    have hstop := hone _ (aligned_alignUp p alignment)
    cases n with
    | zero => rfl
    | succ n =>
      rw [inTurn, inTurn, andThen, ih (Nat.succ_pos n), alignUp_of_aligned hstop]
      rfl

end Trail

/-! ## Spreading a shape -/

/-- How often an element is repeated, if it is one of the record itself. -/
def Element.times (N : String → Nat) (e : Element) : Nat :=
  match e.repetition with
  | .fixed n => n
  | .countedBy c => N c

/-- The native place of a scalar. -/
def Scalar.trail (type : Scalar) (position : Nat) : Trail :=
  ⟨[⟨position, type.bits⟩], position + type.bits⟩

mutual

/-- The native places of an instance of a shape, from a position on. -/
def Shape.spread (N : String → Nat) (start : Nat) : Shape → Trail
  | .mk _ alignment members => (membersSpread N start members).andThen (Trail.pad alignment)

/-- The native places of some members. -/
def membersSpread (N : String → Nat) (start : Nat) : List Member → Trail
  | [] => ⟨[], start⟩
  | m :: rest => (m.spread N start).andThen fun p => membersSpread N p rest

/-- The native places of a member. -/
def Member.spread (N : String → Nat) (start : Nat) : Member → Trail
  | .leaf e type _ => Trail.inTurn type.trail (e.times N) (alignUp start e.alignment)
  | .nested e shape =>
    Trail.inTurn (fun p => shape.spread N (alignUp p shape.instanceAlignment)) (e.times N)
      (alignUp start e.alignment)
  | .cyclic _ _ _ | .unresolved _ _ => ⟨[], start⟩

end

/-! ## The fixed part -/

/-- The native places of the fixed part of a draft. -/
def Draft.fixedTrail (d : Draft) : Trail := ⟨d.fields.map (·.native), d.cursor.native⟩

/-- Whether a draft became another one by placing fields, all in the fixed part. -/
structure Draft.Places (d d' : Draft) (t : Nat → Trail) : Prop where
  varies : d'.varies = false
  templates : d'.templates = d.templates
  trail : d'.fixedTrail = d.fixedTrail.andThen t

namespace Draft.Places

variable {d mid d' : Draft} {t u : Nat → Trail}

theorem refl (h : d.varies = false) : d.Places d fun p => ⟨[], p⟩ :=
  ⟨h, rfl, by rw [Trail.andThen_nil]⟩

theorem trans (h1 : d.Places mid t) (h2 : mid.Places d' u) :
    d.Places d' fun p => (t p).andThen u :=
  ⟨h2.varies, h2.templates.trans h1.templates, by rw [h2.trail, h1.trail, Trail.andThen_assoc]⟩

theorem align (h : d.varies = false) {cursor : Extent} {alignment : Nat}
    (hcursor : cursor.native = alignUp d.cursor.native alignment) :
    d.Places { d with cursor := cursor } (Trail.pad alignment) :=
  ⟨h, rfl, by simp [fixedTrail, Trail.andThen, Trail.pad, hcursor]⟩

theorem pad (h : d.varies = false) (alignment : Nat) :
    d.Places (d.pad alignment) (Trail.pad alignment) := by
  have hpad : d.pad alignment = { d with cursor := d.cursor.align alignment } := by
    simp [Draft.pad, h]
  rw [hpad]
  exact align h rfl

theorem addField (h : d.varies = false) {e : Element} {type : Scalar} {table : Option EnumTable}
    {name : String} {f : Field} (hf : e.FieldAt type table name d.cursor f) :
    d.Places (d.addField f) type.trail :=
  ⟨h, rfl, by simp [fixedTrail, Draft.addField, Trail.andThen, Scalar.trail, Field.size,
    hf.native_eq]⟩

end Draft.Places

section Placed

variable {e : Element} {scope : Scope} {path : String} {earlier : List String} {rule : ItemRule}
  {d d' : Draft} {one : Nat → Trail}

theorem Element.Starts.places (h : e.Starts scope d d') (hd : d.varies = false) :
    d.Places d' (Trail.pad e.alignment) := by
  cases h with
  | varying hv =>
    rw [hv] at hd
    cases hd
  | aligned _ => exact .align hd rfl
  | positioned wire _ _ _ => exact .align hd rfl

/-- Items that are placed in the fixed part are placed in turn. -/
theorem Items.places {items : List (String × Bool)} (h : Items rule items d d')
    (hrule : ∀ name last d d', Yields (rule.place name last d) d' → d.varies = false →
      d.Places d' one) (hd : d.varies = false) : d.Places d' (Trail.inTurn one items.length) := by
  induction h with
  | nil => exact .refl hd
  | cons hadds _ ih =>
    have hplace := hadds
    simp only [ItemRule.Adds, hd, Bool.false_eq_true, if_false] at hplace
    have hfirst := hrule _ _ _ _ hplace hd
    exact hfirst.trans (ih hfirst.varies)

/-- A fixed element is placed in the fixed part when its items are. -/
theorem Element.Placed.places (h : e.Placed scope path earlier rule d d') (N : String → Nat)
    (hrule : ∀ name last d d', Yields (rule.place name last d) d' → d.varies = false →
      d.Places d' one) (he : e.counter? = none) (hd : d.varies = false) :
    d.Places d' fun p => Trail.inTurn one (e.times N) (alignUp p e.alignment) := by
  cases h with
  | @fixed n start repetition pos starts items =>
    have hstart := starts.places hd
    have hitems := hstart.trans (items.places hrule hstart.varies)
    have hlength : (e.fixedItems path n).length = e.times N := by
      simp [Element.fixedItems, Element.times, repetition]
    rw [hlength] at hitems
    exact hitems
  | counted repetition _ _ _ => simp [Element.counter?, repetition] at he

end Placed

theorem ItemRule.places_leaf {e : Element} {scope : Scope} {owner name : String} {type : Scalar}
    {table : Option EnumTable} {last : Bool} {d d' : Draft}
    (h : Yields ((ItemRule.leaf e scope owner type table).place name last d) d')
    (hd : d.varies = false) : d.Places d' type.trail := by
  obtain ⟨f, hf, rfl⟩ := ItemRule.leaf_place h
  exact .addField hd hf

/-- A struct moves to its alignment before it is placed. -/
theorem ItemRule.places_nested {e : Element} {scope : Scope} {alignment : Nat}
    {placeStruct : Scope → String → Bool → Draft → Placing Draft} {name : String} {last : Bool}
    {d d' : Draft} {t : Nat → Trail}
    (h : Yields ((ItemRule.nested e scope alignment placeStruct).place name last d) d')
    (hd : d.varies = false)
    (hplace : ∀ mid, mid.varies = false → Yields (placeStruct scope name last mid) d' →
      mid.Places d' t) : d.Places d' fun p => t (alignUp p alignment) := by
  have haligned : d.Places { d with cursor := d.cursor.align alignment } (Trail.pad alignment) :=
    .align hd rfl
  rw [nested_place] at h
  exact haligned.trans (hplace _ haligned.varies h)

/-- A struct is padded at its end, unless the schema is a legacy one. -/
theorem Shape.place_yields_pad {scope : Scope} {path : String} {last : Bool} {d d' : Draft}
    {name : String} {alignment : Nat} {members : List Member} (hlegacy : scope.legacy = false)
    (h : Yields ((Shape.mk name alignment members).place scope path last d) d') :
    ∃ mid, Yields (placeMembers scope name path d.cursor.wire [] d members) mid ∧
      d' = mid.pad alignment := by
  obtain ⟨mid, hmid, rfl⟩ := Shape.place_yields h
  exact ⟨mid, hmid, by simp [hlegacy]⟩

mutual

/-- A shape without counted arrays is placed where it is spread. -/
theorem Shape.place_spread (N : String → Nat) : ∀ (shape : Shape) {scope : Scope} {path : String}
    {last : Bool} {d d' : Draft}, Yields (shape.place scope path last d) d' →
    scope.legacy = false → shape.Everywhere (OfElements Uncounted) → d.varies = false →
    d.Places d' fun p => shape.spread N p
  | .mk name alignment members, scope, path, last, d, d', h, hlegacy, hfixed, hd => by
      obtain ⟨mid, hmid, rfl⟩ := Shape.place_yields_pad hlegacy h
      have hplaces := placeMembers_spread N members hmid hlegacy hfixed.1 hfixed.2 hd
      exact hplaces.trans (.pad hplaces.varies alignment)

theorem placeMembers_spread (N : String → Nat) : ∀ (members : List Member) {scope : Scope}
    {owner path : String} {base : Nat} {earlier : List String} {d d' : Draft},
    Yields (placeMembers scope owner path base earlier d members) d' → scope.legacy = false →
    OfElements Uncounted members → membersEverywhere (OfElements Uncounted) members →
    d.varies = false → d.Places d' fun p => membersSpread N p members
  | [], _, _, _, _, _, d, _, h, _, _, _, hd => by
      rw [placeMembers_nil_yields h]
      exact .refl hd
  | m :: rest, _, _, _, _, _, _, _, h, hlegacy, hfixed, hin, hd => by
      obtain ⟨mid, hm, hrest⟩ := placeMembers_cons_yields h
      have h1 := m.place_spread N hm hlegacy (hfixed _ List.mem_cons_self) hin.1 hd
      have h2 := placeMembers_spread N rest hrest hlegacy
        (fun e he => hfixed e (List.mem_cons_of_mem _ he)) hin.2 h1.varies
      exact h1.trans h2

theorem Member.place_spread (N : String → Nat) : ∀ (m : Member) {scope : Scope}
    {owner path : String} {base : Nat} {earlier : List String} {d d' : Draft},
    Yields (m.place scope owner path base earlier d) d' → scope.legacy = false →
    m.element.counter? = none → m.Everywhere (OfElements Uncounted) → d.varies = false →
    d.Places d' fun p => m.spread N p
  | .leaf e type table, scope, owner, path, _, _, d, d', h, _, he, _, hd => by
      rw [Member.place] at h
      exact (Element.place_yields h).places N (fun _ _ _ _ => ItemRule.places_leaf) he hd
  | .nested e shape, scope, owner, path, _, _, d, d', h, hlegacy, he, hin, hd => by
      rw [Member.place] at h
      refine (Element.place_yields h).places N ?_ he hd
      intro name last d d' hitem hd
      have hplace : ∀ mid, mid.varies = false → Yields (shape.place scope name last mid) d' →
          mid.Places d' fun p => shape.spread N p := fun mid hmid hshape =>
        shape.place_spread N hshape hlegacy hin hmid
      exact ItemRule.places_nested hitem hd hplace
  | .cyclic _ _ _, _, _, _, _, _, _, _, h, _, _, _, _ => (Member.resolved_of_yields h).elim
  | .unresolved _ _, _, _, _, _, _, _, _, h, _, _, _, _ => (Member.resolved_of_yields h).elim

end

/-! ## Regular alignments -/

mutual

/-- Whether the alignments in a shape are regular: powers of two or zero, none
larger than that of the struct around it, none of an element larger than what the
element is aligned for. -/
def Shape.Regular : Shape → Prop
  | .mk _ alignment members => IsAlignment alignment ∧ membersRegular alignment members

/-- Whether the alignments of some members of a struct are regular. -/
def membersRegular (bound : Nat) : List Member → Prop
  | [] => True
  | m :: rest => m.Regular bound ∧ membersRegular bound rest

/-- Whether the alignments of a member of a struct are regular. -/
def Member.Regular (bound : Nat) : Member → Prop
  | .leaf e type _ => IsAlignment e.alignment ∧ e.alignment ≤ bound ∧ e.alignment ≤ type.bytes
  | .nested e shape =>
    IsAlignment e.alignment ∧ e.alignment ≤ shape.alignment ∧ shape.alignment ≤ bound ∧
      shape.Regular
  | .cyclic _ _ _ | .unresolved _ _ => False

end

theorem membersRegular_iff {bound : Nat} {members : List Member} :
    membersRegular bound members ↔ ∀ m ∈ members, m.Regular bound := by
  induction members with
  | nil => simp [membersRegular]
  | cons m rest ih => simp [membersRegular, ih]

theorem Shape.Regular.isAlignment {shape : Shape} (h : shape.Regular) :
    IsAlignment shape.alignment := by
  cases shape with
  | mk name alignment members => exact h.1

theorem Scalar.isAlignment_bytes (type : Scalar) : IsAlignment type.bytes := by
  cases type with
  | bool => decide
  | uint w => cases w <;> decide
  | sint w => cases w <;> decide
  | float f => cases f <;> decide

/-- A scalar takes a multiple of any regular alignment it may have. -/
theorem Scalar.aligned_bits {type : Scalar} {alignment : Nat} (h : IsAlignment alignment)
    (hle : alignment ≤ type.bytes) : Aligned alignment type.bits := by
  have hbits : Aligned type.bytes type.bits := by
    intro _
    have hmod := type.bits_mod
    refine ⟨1, ?_⟩
    unfold Scalar.bytes
    omega
  exact hbits.of_le h type.isAlignment_bytes hle

mutual

/-- In a regular shape nothing is aligned more coarsely than the struct. -/
theorem Shape.Regular.instanceAlignment_eq : ∀ {shape : Shape}, shape.Regular →
    shape.instanceAlignment = max shape.alignment 1
  | .mk _ alignment members, h => by
      have hle := membersAlignment_le h.2
      rw [Shape.instanceAlignment, Shape.alignment]
      omega

theorem membersAlignment_le {bound : Nat} : ∀ {members : List Member},
    membersRegular bound members → membersAlignment members ≤ max bound 1
  | [], _ => Nat.zero_le _
  | m :: rest, h => by
      rw [membersAlignment]
      exact Nat.max_le.mpr ⟨Member.Regular.instanceAlignment_le h.1, membersAlignment_le h.2⟩

theorem Member.Regular.instanceAlignment_le {bound : Nat} : ∀ {m : Member}, m.Regular bound →
    m.instanceAlignment ≤ max bound 1
  | .leaf e _ _, h => by
      have hle := h.2.1
      rw [Member.instanceAlignment]
      omega
  | .nested e shape, h => by
      obtain ⟨-, he, hshape, hregular⟩ := h
      rw [Member.instanceAlignment, hregular.instanceAlignment_eq]
      omega
  | .cyclic _ _ _, h => h.elim
  | .unresolved _ _, h => h.elim

end

/-- An instance of a regular shape starts on the alignment of the struct. -/
theorem Shape.Regular.alignUp_eq {shape : Shape} (h : shape.Regular) (p : Nat) :
    alignUp p shape.instanceAlignment = alignUp p shape.alignment := by
  rw [h.instanceAlignment_eq, alignUp_max_one]

/-- It also ends there. -/
theorem Shape.aligned_spread {shape : Shape} (N : String → Nat) (p : Nat) :
    Aligned shape.alignment (shape.spread N p).stop := by
  cases shape with
  | mk name alignment members =>
    rw [Shape.spread]
    exact aligned_alignUp _ alignment

mutual

/-- A regular shape can be moved as a whole by a distance that is aligned to it. -/
theorem Shape.spread_add (N : String → Nat) {distance : Nat} : ∀ (shape : Shape), shape.Regular →
    Aligned shape.alignment distance → ∀ p,
    shape.spread N (p + distance) = (shape.spread N p).shift distance
  | .mk _ alignment members, h, hdistance, p => by
      rw [Shape.spread, Shape.spread,
        membersSpread_add N members h.1 h.2 hdistance p]
      exact Trail.andThen_shift (Trail.pad_add hdistance)

theorem membersSpread_add (N : String → Nat) {distance : Nat} :
    ∀ (members : List Member) {bound : Nat}, IsAlignment bound → membersRegular bound members →
    Aligned bound distance → ∀ p,
    membersSpread N (p + distance) members = (membersSpread N p members).shift distance
  | [], _, _, _, _, _ => rfl
  | m :: rest, _, hbound, h, hdistance, p => by
      rw [membersSpread, membersSpread, m.spread_add N hbound h.1 hdistance p]
      exact Trail.andThen_shift (membersSpread_add N rest hbound h.2 hdistance)

theorem Member.spread_add (N : String → Nat) {distance : Nat} :
    ∀ (m : Member) {bound : Nat}, IsAlignment bound → m.Regular bound → Aligned bound distance →
    ∀ p, m.spread N (p + distance) = (m.spread N p).shift distance
  | .leaf e type _, _, hbound, h, hdistance, p => by
      obtain ⟨he, hle, -⟩ := h
      rw [Member.spread, Member.spread, alignUp_add (hdistance.of_le he hbound hle)]
      refine Trail.inTurn_add (fun p => ?_) _ _
      simp [Scalar.trail, Trail.shift, Span.shift, Nat.add_right_comm]
  | .nested e shape, _, hbound, h, hdistance, p => by
      obtain ⟨he, hle, hshape, hregular⟩ := h
      have hinner := hdistance.of_le hregular.isAlignment hbound hshape
      rw [Member.spread, Member.spread, alignUp_add (hinner.of_le he hregular.isAlignment hle)]
      refine Trail.inTurn_add (fun p => ?_) _ _
      rw [hregular.alignUp_eq, hregular.alignUp_eq, alignUp_add hinner]
      exact shape.spread_add N hregular hinner _
  | .cyclic _ _ _, _, _, h, _, _ => h.elim
  | .unresolved _ _, _, _, h, _, _ => h.elim

end

/-! ## Templates -/

/-- The native places of some marks. -/
def Trail.ofMarks (m : List (Mark Field) × Extent) : Trail :=
  ⟨(Mark.entries m.1).map (·.native), m.2.native⟩

/-- Whether all that a template stands for is in its fixed part, and an instance at
an aligned position is like one item there. -/
structure Template.Solid (t : Template) (one : Nat → Trail) : Prop where
  children : t.children = []
  fields : ∀ p, Aligned t.alignment p →
    (⟨t.fields.map (·.native.shift p), p + t.size.native⟩ : Trail) = one p
  aligned : ∀ p, Aligned t.alignment p → Aligned t.alignment (one p).stop

namespace Template.Solid

variable {t : Template} {one : Nat → Trail} {N : String → Nat}

theorem ofMarks_instance (h : t.Solid one) (path : String) {position : Extent}
    (hposition : Aligned t.alignment position.native) :
    Trail.ofMarks (t.instanceMarks N path position) = one position.native := by
  have hself : position.align t.alignment = position := by
    rw [Extent.align, alignUp_of_aligned hposition]
  rw [← h.fields _ hposition, Template.instanceMarks, hself, h.children]
  simp only [Trail.ofMarks, templateMarks, List.append_nil, Mark.entries_map_entry]
  rw [Template.placed, List.map_map]
  rfl

/-- Instances in series are items in turn. -/
theorem ofMarks_inSeries (h : t.Solid one) (paths : List String) {position : Extent}
    (hposition : Aligned t.alignment position.native) :
    Trail.ofMarks (inSeries (t.instanceMarks N) paths position) =
      Trail.inTurn one paths.length position.native := by
  induction paths generalizing position with
  | nil => rfl
  | cons p rest ih =>
    have hfirst := h.ofMarks_instance (N := N) p hposition
    have hstop : (t.instanceMarks N p position).2.native = (one position.native).stop :=
      congrArg Trail.stop hfirst
    have hnext : Aligned t.alignment (t.instanceMarks N p position).2.native := by
      rw [hstop]
      exact h.aligned _ hposition
    have hrest := ih hnext
    rw [hstop] at hrest
    rw [List.length_cons, Trail.inTurn, Trail.andThen, ← hrest, ← hfirst]
    simp [Trail.ofMarks, inSeries]

/-- The instances of a template are items in turn, from its alignment on. -/
theorem ofMarks_marks (h : t.Solid one) (hname : t.name ≠ "") (path : String) (start : Extent) :
    Trail.ofMarks (t.marks N path start) =
      Trail.inTurn one (Template.instances N path t.name t.counter).length
        (alignUp start.native t.alignment) := by
  have hstart : Aligned t.alignment (start.align t.alignment).native := aligned_alignUp _ _
  have hseries := h.ofMarks_inSeries (N := N)
    (Template.instances N path t.name t.counter) hstart
  have hend : Aligned t.alignment (inSeries (t.instanceMarks N)
      (Template.instances N path t.name t.counter) (start.align t.alignment)).2.native := by
    have hstop := Trail.aligned_inTurn h.aligned
      (Template.instances N path t.name t.counter).length _ hstart
    rw [← hseries] at hstop
    exact hstop
  rw [Template.marks_of_ne hname]
  refine Eq.trans ?_ hseries
  simp only [Trail.ofMarks, Mark.entries_append, Template.entries_asked, List.nil_append]
  congr 1
  exact alignUp_of_aligned hend

end Template.Solid

/-! ## Whole drafts -/

/-- The native places of a draft, with all its templates expanded. -/
def Draft.trail (N : String → Nat) (d : Draft) : Trail :=
  d.fixedTrail.andThen fun _ => .ofMarks (templateMarks N "" d.size d.templates)

theorem Draft.trail_of_fixed (N : String → Nat) {d : Draft} (h : d.templates = []) :
    d.trail N = d.fixedTrail := by
  simp [Draft.trail, h, templateMarks, Trail.ofMarks, Trail.andThen, fixedTrail, Draft.size]

theorem Draft.trail_addTemplate {N : String → Nat} {d : Draft} {t : Template} {f : Nat → Trail}
    (h : ∀ start, Trail.ofMarks (t.marks N "" start) = f start.native) :
    (d.addTemplate t).trail N = (d.trail N).andThen f := by
  have hmarks : Trail.ofMarks (templateMarks N "" d.size (d.templates ++ [t])) =
      (Trail.ofMarks (templateMarks N "" d.size d.templates)).andThen f := by
    rw [templateMarks_append, Trail.andThen]
    simp only [Trail.ofMarks]
    rw [← h]
    simp [templateMarks, Trail.ofMarks]
  show d.fixedTrail.andThen (fun _ => .ofMarks (templateMarks N "" d.size (d.templates ++ [t]))) = _
  rw [hmarks, Draft.trail, Trail.andThen_assoc]

/-- Whether a draft became another one by adding places to what it stands for. As
long as it does not vary it has no templates, so fields can be added at the end. -/
structure Draft.Unrolls (N : String → Nat) (d d' : Draft) (t : Nat → Trail) : Prop where
  trail : d'.trail N = (d.trail N).andThen t
  no_templates : d'.varies = false → d'.templates = []

namespace Draft.Unrolls

variable {N : String → Nat} {d mid d' : Draft} {t u : Nat → Trail}

theorem refl (h : d.varies = false → d.templates = []) : Unrolls N d d fun p => ⟨[], p⟩ :=
  ⟨by rw [Trail.andThen_nil], h⟩

theorem trans (h1 : Unrolls N d mid t) (h2 : Unrolls N mid d' u) :
    Unrolls N d d' fun p => (t p).andThen u :=
  ⟨by rw [h2.trail, h1.trail, Trail.andThen_assoc], h2.no_templates⟩

theorem of_places (h : d.Places d' t) (hd : d.templates = []) : Unrolls N d d' t where
  trail := by
    rw [trail_of_fixed N hd, trail_of_fixed N (h.templates.trans hd), h.trail]
  no_templates _ := h.templates.trans hd

theorem addTemplate (hd : d.varies = true) {t : Template} {f : Nat → Trail}
    (h : ∀ start, Trail.ofMarks (t.marks N "" start) = f start.native) :
    Unrolls N d (d.addTemplate t) f where
  trail := trail_addTemplate h
  no_templates hvaries := by
    rw [Draft.addTemplate, hd] at hvaries
    cases hvaries

theorem pad (hd : d.varies = false → d.templates = []) (alignment : Nat) :
    Unrolls N d (d.pad alignment) (Trail.pad alignment) := by
  by_cases hv : d.varies = true
  · by_cases ha : 1 < alignment
    · have hpad : d.pad alignment = d.addTemplate (.marker alignment) := by
        simp [Draft.pad, hv, ha]
      rw [hpad]
      refine .addTemplate hv fun start => ?_
      rw [Template.marks_of_isEmpty rfl]
      rfl
    · have hpad : d.pad alignment = d := by simp [Draft.pad, hv, ha]
      have hstay : Trail.pad alignment = fun p => ⟨[], p⟩ := by
        funext p
        rw [Trail.pad, alignUp_of_aligned fun hlt => absurd hlt ha]
      rw [hpad, hstay]
      exact .refl hd
  · have hfixed : d.varies = false := by simpa using hv
    exact .of_places (.pad hfixed alignment) (hd hfixed)

end Draft.Unrolls

/-! ## Elements of the record -/

/-- Whether a rule lays out items like `one`, in the fixed part and as templates on
an alignment. -/
structure ItemRule.Spreads (rule : ItemRule) (one : Nat → Trail) (alignment : Nat) : Prop where
  place : ∀ {name : String} {last : Bool} {d d' : Draft}, Yields (rule.place name last d) d' →
    d.varies = false → d.Places d' one
  template : ∀ {name : String} {counter : Option String} {last : Bool} {t : Template},
    Yields (rule.template name counter last) t →
    t.name = name ∧ t.counter = counter ∧ t.alignment = alignment ∧ t.Solid one

section Placed

variable {N : String → Nat} {e : Element} {scope : Scope} {earlier : List String}
  {rule : ItemRule} {d d' : Draft} {one : Nat → Trail} {alignment : Nat}

theorem ItemRule.Spreads.ofMarks_template (hrule : rule.Spreads one alignment) {name : String}
    {counter : Option String} {last : Bool} {t : Template} (hname : name ≠ "")
    (h : Yields (rule.template name counter last) t) (path : String) (start : Extent) :
    Trail.ofMarks (t.marks N path start) =
      Trail.inTurn one (Template.instances N path name counter).length
        (alignUp start.native alignment) := by
  obtain ⟨rfl, rfl, rfl, hsolid⟩ := hrule.template h
  exact hsolid.ofMarks_marks hname path start

/-- In the variable part each item of a fixed array is a template of its own, and
starts on the alignment of the template. -/
theorem Items.unrolls {items : List (String × Bool)} (h : Items rule items d d')
    (hrule : rule.Spreads one alignment) (hnames : ∀ i ∈ items, i.1 ≠ "")
    (hd : d.varies = true) :
    d.Unrolls N d' (Trail.inTurn (fun p => one (alignUp p alignment)) items.length) := by
  induction h with
  | nil => exact .refl fun hv => by simp [hd] at hv
  | @cons name last rest d mid d' hadds _ ih =>
    simp only [ItemRule.Adds, hd, if_true] at hadds
    obtain ⟨t, ht, rfl⟩ := hadds
    have hone : ∀ start, Trail.ofMarks (t.marks N "" start) =
        one (alignUp start.native alignment) := by
      intro start
      rw [hrule.ofMarks_template (hnames _ List.mem_cons_self) ht "" start]
      simp [Template.instances, Trail.inTurn]
    have hrest := ih (fun i hi => hnames i (List.mem_cons_of_mem _ hi)) hd
    exact (Draft.Unrolls.addTemplate hd hone).trans hrest

/-- An element of the record adds its items in turn. Wherever the first one moves
to by itself, it need not be moved to the alignment of the template before. -/
theorem Element.Placed.unrolls (h : e.Placed scope "" earlier rule d d')
    (hrule : rule.Spreads one alignment) (hname : e.name ≠ "") (hpos : 0 < e.times N)
    (haligned : ∀ p, Aligned alignment p → Aligned alignment (one p).stop)
    (hfirst : ∀ p, one (alignUp p e.alignment) = one (alignUp p alignment))
    (hd : d.varies = false → d.templates = []) :
    d.Unrolls N d' fun p => Trail.inTurn one (e.times N) (alignUp p e.alignment) := by
  have hwhole : Path.join "" e.name ≠ "" := Path.join_ne_empty hname
  have hturn : (fun p => Trail.inTurn one (e.times N) (alignUp p e.alignment)) =
      fun p => Trail.inTurn one (e.times N) (alignUp p alignment) := by
    funext p
    exact Trail.inTurn_congr hpos (hfirst p)
  cases h with
  | @counted c t repetition mem template eq =>
    have hmarks : ∀ start, Trail.ofMarks (t.marks N "" start) =
        Trail.inTurn one (e.times N) (alignUp start.native alignment) := by
      intro start
      rw [hrule.ofMarks_template hwhole template "" start]
      simp [Template.instances, Element.times, repetition]
    have hadd : ({ d with varies := true } : Draft).Unrolls N d'
        fun p => Trail.inTurn one (e.times N) (alignUp p alignment) := by
      rw [eq]
      exact .addTemplate rfl hmarks
    rw [hturn]
    exact ⟨hadd.trail, hadd.no_templates⟩
  | @fixed n start repetition pos starts items =>
    by_cases hv : d.varies = true
    · cases starts with
      | varying _ =>
        have hitems := items.unrolls (N := N) hrule (fun i hi => by
          obtain ⟨k, -, rfl⟩ := List.mem_map.mp hi
          exact Path.itemOf_ne_empty hwhole k n) hv
        have hlength : (e.fixedItems "" n).length = e.times N := by
          simp [Element.fixedItems, Element.times, repetition]
        rw [hlength] at hitems
        rw [hturn]
        simp only [← Trail.inTurn_alignUp hpos haligned]
        exact hitems
      | aligned hfixed => simp [hv] at hfixed
      | positioned wire hfixed _ _ => simp [hv] at hfixed
    · have hfixed : d.varies = false := by simpa using hv
      have he : e.counter? = none := by simp [Element.counter?, repetition]
      have hplaced : e.Placed scope "" earlier rule d d' := .fixed repetition pos starts items
      exact .of_places (hplaced.places N (fun _ _ _ _ => hrule.place) he hfixed) (hd hfixed)

end Placed

/-! ## Members of the record -/

theorem ItemRule.spreads_leaf {e : Element} {scope : Scope} {owner : String} {type : Scalar}
    {table : Option EnumTable} (he : IsAlignment e.alignment) (hle : e.alignment ≤ type.bytes) :
    (ItemRule.leaf e scope owner type table).Spreads type.trail e.alignment where
  place := ItemRule.places_leaf
  template h := by
    obtain ⟨f, hf, rfl⟩ := ItemRule.leaf_template h
    refine ⟨rfl, rfl, rfl, rfl, ?_, ?_⟩
    · intro p _
      simp [Scalar.trail, Field.size, hf.native_eq, Span.shift]
    · intro p hp
      exact aligned_add hp (Scalar.aligned_bits he hle)

/-- The template of a struct is the struct at zero, and can be moved from there. -/
theorem ItemRule.spreads_nested (N : String → Nat) {e : Element} {scope : Scope} {shape : Shape}
    (hle : e.alignment ≤ shape.alignment) (hregular : shape.Regular)
    (hfixed : shape.Everywhere (OfElements Uncounted)) (hlegacy : scope.legacy = false) :
    (ItemRule.nested e scope shape.instanceAlignment
      fun scope path last d => shape.place scope path last d).Spreads
        (fun p => shape.spread N (alignUp p shape.instanceAlignment))
        (max e.alignment shape.instanceAlignment) where
  place {name last d d'} h hd := by
    have hplace : ∀ mid, mid.varies = false → Yields (shape.place scope name last mid) d' →
        mid.Places d' fun p => shape.spread N p := fun mid hmid hshape =>
      shape.place_spread N hshape hlegacy hfixed hmid
    exact ItemRule.places_nested h hd hplace
  template h := by
    obtain ⟨draft, hdraft, rfl⟩ := ItemRule.nested_template h
    have hplaces := shape.place_spread N hdraft hlegacy hfixed rfl
    have hzero : draft.fixedTrail = shape.spread N 0 := hplaces.trail
    have halignment : max e.alignment shape.instanceAlignment = max shape.alignment 1 := by
      rw [hregular.instanceAlignment_eq]
      omega
    refine ⟨rfl, rfl, rfl, hplaces.templates, ?_, ?_⟩
    · intro p hp
      simp only [halignment, aligned_max_one] at hp
      have hmoved := shape.spread_add N hregular hp 0
      rw [Nat.zero_add, ← hzero] at hmoved
      rw [hregular.alignUp_eq, alignUp_of_aligned hp, hmoved]
      simp [Trail.shift, Draft.fixedTrail, Draft.size, Nat.add_comm]
    · intro p _
      simp only [halignment, aligned_max_one]
      exact shape.aligned_spread N _

/-- What is asked of a member of the record: that its alignments are regular, that
it has a name, that only the element itself may be counted, and then not zero. -/
structure Member.Outer (N : String → Nat) (bound : Nat) (m : Member) : Prop where
  regular : m.Regular bound
  fixed : m.Everywhere (OfElements Uncounted)
  named : m.element.name ≠ ""
  times_pos : 0 < m.element.times N

/-- A member of the record adds the places that it is spread to. -/
theorem Member.place_unrolls {N : String → Nat} {bound : Nat} {m : Member} {scope : Scope}
    {owner : String} {base : Nat} {earlier : List String} {d d' : Draft} (hm : m.Outer N bound)
    (hlegacy : scope.legacy = false) (h : Yields (m.place scope owner "" base earlier d) d')
    (hd : d.varies = false → d.templates = []) : d.Unrolls N d' fun p => m.spread N p := by
  cases m with
  | leaf e type table =>
    obtain ⟨he, -, hle⟩ := hm.regular
    rw [Member.place] at h
    refine (Element.place_yields h).unrolls (ItemRule.spreads_leaf he hle) hm.named hm.times_pos
      ?_ (fun _ => rfl) hd
    intro p hp
    exact aligned_add hp (Scalar.aligned_bits he hle)
  | nested e shape =>
    obtain ⟨he, hle, -, hregular⟩ := hm.regular
    have halignment : max e.alignment shape.instanceAlignment = shape.instanceAlignment := by
      rw [hregular.instanceAlignment_eq]
      omega
    rw [Member.place] at h
    refine (Element.place_yields h).unrolls
      (ItemRule.spreads_nested N hle hregular hm.fixed hlegacy) hm.named hm.times_pos ?_ ?_ hd
    · intro p _
      rw [halignment, hregular.instanceAlignment_eq, aligned_max_one]
      exact shape.aligned_spread N _
    · intro p
      have hself := alignUp_of_aligned (aligned_alignUp p shape.alignment)
      simp only [halignment, hregular.alignUp_eq, hself]
      rw [alignUp_alignUp he hregular.isAlignment hle]
  | cyclic e struct alignment => exact hm.regular.elim
  | unresolved e reason => exact hm.regular.elim

theorem placeMembers_unrolls {N : String → Nat} {bound : Nat} {members : List Member}
    {scope : Scope} {owner : String} {base : Nat} {earlier : List String} {d d' : Draft}
    (hmembers : ∀ m ∈ members, m.Outer N bound) (hlegacy : scope.legacy = false)
    (h : Yields (placeMembers scope owner "" base earlier d members) d')
    (hd : d.varies = false → d.templates = []) :
    d.Unrolls N d' fun p => membersSpread N p members := by
  induction members generalizing earlier d with
  | nil =>
    rw [placeMembers_nil_yields h]
    exact .refl hd
  | cons m rest ih =>
    obtain ⟨mid, hm, hrest⟩ := placeMembers_cons_yields h
    have hfirst := Member.place_unrolls (hmembers m List.mem_cons_self) hlegacy hm hd
    have hlater := ih (fun k hk => hmembers k (List.mem_cons_of_mem m hk)) hrest
      hfirst.no_templates
    exact hfirst.trans hlater

/-! ## Layouts -/

/-- The native places of a layout, with all its templates expanded. -/
def Layout.trail (N : String → Nat) (l : Layout) : Trail :=
  ⟨(l.fields ++ Mark.entries (l.marks N).1).map (·.native), (l.marks N).2.native⟩

section Layouts

variable {s : Schema} {name : String} {d : StructDecl} {l : Layout}

/-- A record whose counted arrays are its own lies where its shape is spread, with
as many items as the counters hold. -/
theorem Schema.trail_of_layout {N : String → Nat} (hlegacy : s.version.isLegacy = false)
    (hd : s.root name = .ok d) (hl : s.layout name = .ok l)
    (hmembers : ∀ m ∈ (s.shape d).members, m.Outer N d.alignment) :
    l.trail N = (s.shape d).spread N 0 := by
  obtain ⟨draft, hdraft, hfields, htemplates, hsize⟩ := Schema.layout_eq_ok hd hl
  obtain ⟨mid, hmid, rfl⟩ := Shape.place_yields_pad hlegacy hdraft
  have hplaced := placeMembers_unrolls hmembers hlegacy hmid fun _ => rfl
  have hpadded := (hplaced.trans (.pad hplaced.no_templates d.alignment)).trail
  rw [Layout.trail, Layout.marks, hfields, htemplates, hsize, List.map_append]
  exact hpadded

/-- A record without counted arrays has a fixed part only, where its shape is
spread. -/
theorem Schema.fixed_of_layout (N : String → Nat) (hlegacy : s.version.isLegacy = false)
    (hd : s.root name = .ok d) (hl : s.layout name = .ok l)
    (hfixed : (s.shape d).Everywhere (OfElements Uncounted)) :
    l.templates = [] ∧ l.fields.map (·.native) = ((s.shape d).spread N 0).spans ∧
      l.size.native = ((s.shape d).spread N 0).stop := by
  obtain ⟨draft, hdraft, hfields, htemplates, hsize⟩ := Schema.layout_eq_ok hd hl
  have hplaces := (s.shape d).place_spread N hdraft hlegacy hfixed rfl
  have htrail : draft.fixedTrail = (s.shape d).spread N 0 := hplaces.trail
  rw [← htrail, hfields, htemplates, hsize]
  exact ⟨hplaces.templates, rfl, rfl⟩

end Layouts

end WireRecord
