/-
WireRecord.Proofs.LegacyPaddingTheorems — what stands behind an array of structs in
a legacy schema.

There the last struct of a fixed array goes without padding. In the fixed part that
is how far the next element is away: all structs but the last one take their padded
size. In the variable part it is not, since every instance of a template stops on
the alignment of the template, the last one, too. So the padding comes back, and
the distance is a multiple of the padded size (`Schema.distances_of_legacy`). The two
are the same only for a struct that needs no padding, and where it does they differ
(`Schema.not_same_distance_blocks`).
-/
import WireRecord.Proofs.ArrangementTheorems
import WireRecord.Proofs.SeriesTheorems

namespace WireRecord

/-! ## Structs that are aligned as a whole -/

/-- Whether an alignment makes sense and is no larger than a bound. -/
def AlignmentWithin (bound a : Nat) : Prop := IsAlignment a ∧ a ≤ bound

instance (bound : Nat) : DecidablePred (AlignmentWithin bound) := fun a =>
  inferInstanceAs (Decidable (IsAlignment a ∧ a ≤ bound))

/-- What is aligned to the bound can be moved along an alignment within it. -/
theorem AlignmentWithin.allows {bound a distance : Nat} (h : AlignmentWithin bound a)
    (hbound : IsAlignment bound) (hdistance : Aligned bound distance) :
    Representation.native.Allows distance a :=
  (hdistance.of_le h.1 hbound h.2).allows

/-- Instances start on the bound at most. -/
theorem Shape.instanceAlignment_within {bound : Nat} {shape : Shape}
    (halignment : AlignmentWithin bound shape.alignment)
    (h : shape.Everywhere (AllAlign (AlignmentWithin bound))) :
    AlignmentWithin (max bound 1) shape.instanceAlignment := by
  have hwiden : ∀ a, AlignmentWithin bound a → AlignmentWithin (max bound 1) a := fun a ha =>
    ⟨ha.1, Nat.le_trans ha.2 (Nat.le_max_left _ _)⟩
  exact shape.instanceAlignment_of ⟨.inl rfl, Nat.zero_le _⟩ ⟨.one, Nat.le_max_right _ _⟩
    (fun ha hb => ⟨ha.1.max hb.1, Nat.max_le.mpr ⟨ha.2, hb.2⟩⟩) (hwiden _ halignment)
    (h.mono fun _ hms => hms.mono hwiden)

mutual

/-- All that is in a struct can be moved by what its bound divides. -/
theorem Shape.movable_native {bound distance : Nat} (hbound : IsAlignment bound)
    (hdistance : Aligned bound distance) : ∀ (shape : Shape),
    shape.Everywhere (AllAlign (AlignmentWithin bound)) →
    shape.Everywhere (MovableMembers .native distance)
  | .mk _ _ members, h => membersMovable_native hbound hdistance members h.1 h.2

theorem membersMovable_native {bound distance : Nat} (hbound : IsAlignment bound)
    (hdistance : Aligned bound distance) : ∀ (members : List Member),
    AllAlign (AlignmentWithin bound) members →
    membersEverywhere (AllAlign (AlignmentWithin bound)) members →
    MovableMembers .native distance members ∧
      membersEverywhere (MovableMembers .native distance) members
  | [], _, _ => ⟨fun _ hm => (List.not_mem_nil hm).elim, trivial⟩
  | m :: rest, h, hin => by
      obtain ⟨hm, hmin⟩ := m.movable_native hbound hdistance (h m List.mem_cons_self) hin.1
      obtain ⟨hrest, hrestin⟩ := membersMovable_native hbound hdistance rest
        (fun k hk => h k (List.mem_cons_of_mem m hk)) hin.2
      exact ⟨List.forall_mem_cons.mpr ⟨hm, hrest⟩, hmin, hrestin⟩

theorem Member.movable_native {bound distance : Nat} (hbound : IsAlignment bound)
    (hdistance : Aligned bound distance) : ∀ (m : Member), m.Aligns (AlignmentWithin bound) →
    m.Everywhere (AllAlign (AlignmentWithin bound)) →
    m.Movable .native distance ∧ m.Everywhere (MovableMembers .native distance)
  | .leaf _ _ _, h, _ => ⟨h.allows hbound hdistance, trivial⟩
  | .nested _ shape, h, hin => by
      have hinstance := Shape.instanceAlignment_within h.2 hin
      exact ⟨⟨h.1.allows hbound hdistance, h.2.allows hbound hdistance,
        hinstance.allows (hbound.max .one) (aligned_max_one.mpr hdistance)⟩,
        shape.movable_native hbound hdistance hin⟩
  | .cyclic _ _ _, h, _ => h.elim
  | .unresolved _ _, h, _ => h.elim

end

/-- Whether a struct is aligned as a whole: to a power of two or not at all, and to no
less than anything in it. -/
structure Shape.AlignedWhole (shape : Shape) : Prop where
  alignment : IsAlignment shape.alignment
  members : shape.Everywhere (AllAlign (AlignmentWithin shape.alignment))

namespace Shape.AlignedWhole

variable {shape : Shape}

theorem instanceAlignment_eq (h : shape.AlignedWhole) :
    shape.instanceAlignment = max shape.alignment 1 := by
  have hle := (Shape.instanceAlignment_within ⟨h.alignment, Nat.le_refl _⟩ h.members).2
  obtain ⟨name, alignment, members⟩ := shape
  exact Nat.le_antisymm hle (Nat.le_max_left _ _)

theorem alignUp_eq (h : shape.AlignedWhole) (p : Nat) :
    alignUp p shape.instanceAlignment = alignUp p shape.alignment := by
  rw [h.instanceAlignment_eq, alignUp_max_one]

/-- It looks the same from wherever it is aligned. -/
theorem startsAt (h : shape.AlignedWhole) (scope : Scope) {p : Nat}
    (hp : Aligned shape.alignment p) : shape.StartsAt (scope.gauge .native) p where
  instance_eq := (h.alignUp_eq p).trans (alignUp_of_aligned hp)
  alignment := hp.allows
  members := shape.movable_native h.alignment hp h.members

end Shape.AlignedWhole

/-! ## Records with an array and what follows it -/

/-- Whether some fields have among them those of the instances of a record, natively
apart by a stride, and then the one of a row, at a distance from where the first instance
starts. -/
def Layout.Spaced (lt : Layout) (label : String → List Row) (paths : List String)
    (stride distance : Nat) (rows : List Row) (fields : List Field) : Prop :=
  ∃ pre items f post start, fields = pre ++ items ++ f :: post ∧
    lt.Series .native label paths start stride items ∧ [f.row] = rows ∧
    f.native.offset = start + distance

namespace Schema

/-- Whether a struct has a fixed array of another one among its elements, and a plain
scalar behind it that is not aligned. -/
structure Holds (s : Schema) (d t : StructDecl) (n : Nat) (before : List Element)
    (e x : Element) (after : List Element) : Prop where
  elements : d.elements = before ++ e :: x :: after
  type : s.meaning? e.type = some (.struct t)
  repetition : e.repetition = .fixed n
  scalar : (s.leafType? x.type).isSome
  plain : x.repetition = .fixed 1
  unaligned : x.alignment ≤ 1

variable {s : Schema} {name : String} {d t : StructDecl} {l lt : Layout} {n : Nat}
  {before after : List Element} {e x : Element}

theorem Holds.mem_elements (h : s.Holds d t n before e x after) : e ∈ d.elements := by
  simp [h.elements]

/-- The scalar behind the array, as a member. -/
theorem Holds.exists_leaf (h : s.Holds d t n before e x after) (owner : String)
    (active : List String) : ∃ type table, s.member owner active x = .leaf x type table := by
  have hscalar := h.scalar
  unfold leafType? at hscalar
  rw [member_eq]
  cases hmeaning : s.meaning? x.type with
  | none => simp [hmeaning] at hscalar
  | some meaning =>
    cases meaning with
    | scalar type => exact ⟨type, _, rfl⟩
    | enum decl =>
      simp only [hmeaning] at hscalar
      obtain ⟨type, htype⟩ := Option.isSome_iff_exists.mp hscalar
      exact ⟨type, _, by simp only [htype]; rfl⟩
    | struct u => simp [hmeaning] at hscalar

end Schema

/-! ## In the fixed part -/

/-- In a legacy schema the items of an array are copies of the struct, apart by its padded
size, and the last one ends without padding. -/
theorem Member.course_legacy_array {scope : Scope} (hlegacy : scope.legacy = true) {e : Element}
    {shape : Shape} {n : Nat} (hn : 0 < n) (hr : e.repetition = .fixed n)
    (hshape : shape.Everywhere (OfElements Uncounted)) (hwhole : shape.AlignedWhole)
    (base p : Nat) :
    ∃ start, (Member.nested e shape).course (scope.gauge .native) base p =
      ⟨Course.copies (shape.course (scope.gauge .native) false 0).spans
          (alignUp (shape.net (scope.gauge .native)) shape.alignment) n start,
        start + ((n - 1) * alignUp (shape.net (scope.gauge .native)) shape.alignment +
          shape.net (scope.gauge .native)), false⟩ := by
  have hstep : ∀ q, Aligned shape.alignment q →
      Aligned shape.alignment (q + alignUp (shape.net (scope.gauge .native)) shape.alignment) :=
    fun q hq => aligned_add hq (aligned_alignUp _ _)
  -- the first struct starts on the alignment of all instances
  have hfirst : Aligned shape.alignment (alignUp
      (e.startAt (scope.gauge .native) base p) shape.instanceAlignment) := by
    rw [hwhole.alignUp_eq]
    exact aligned_alignUp _ _
  have harray := Member.course_array hn hr hshape (fun q hq => hwhole.startsAt scope hq) hstep
    hfirst
  have hpadded : (scope.gauge .native).legacy = true := hlegacy
  rw [hpadded, if_pos rfl, Nat.add_assoc] at harray
  exact ⟨_, harray⟩

/-- The native course of a plain scalar that is not aligned. -/
theorem membersCourse_plain (scope : Scope) {x : Element} (hplain : x.repetition = .fixed 1)
    (hunaligned : x.alignment ≤ 1) (type : Scalar) (table : Option EnumTable) (base p : Nat) :
    membersCourse (scope.gauge .native) base p [.leaf x type table] =
      ⟨[⟨p, type.bits⟩], p + type.bits, false⟩ := by
  have hstart : x.startAt (scope.gauge .native) base p = p := by
    have hstay : alignUp p x.alignment = p := alignUp_of_aligned fun hlt => by omega
    unfold Element.startAt
    cases x.position <;> simp [Scope.gauge, Representation.align, hstay]
  have hlasts : Element.lasts 1 = [true] := rfl
  have hrep : (scope.gauge .native).rep = .native := rfl
  simp [membersCourse, Member.course, Element.course, hplain, hlasts, Course.inTurn, hstart,
    Element.leafCourse, Element.extent, Extent.bits, hrep]

namespace Schema

variable {s : Schema} {name : String} {d t : StructDecl} {l lt : Layout} {n : Nat}
  {before after : List Element} {e x : Element}

/-- In the fixed part all structs but the last one take their padded size. -/
theorem spaced_fixed (hlegacy : s.version.isLegacy = true) (hd : s.root name = .ok d)
    (hl : s.layout name = .ok l) (h : s.Holds d t n before e x after)
    (hbefore : ∀ b ∈ before, (s.member d.name [d.name] b).Static)
    (hfixed : (s.shape t).Everywhere (OfElements Uncounted)) (hwhole : (s.shape t).AlignedWhole)
    (hroot : s.root t.name = .ok t) (hlt : s.layout t.name = .ok lt) (N : String → Nat) :
    lt.Spaced (fun p => Mark.entries ((s.shape t).rows N p)) (e.instances N "")
      (alignUp (s.net .native t) t.alignment)
      ((n - 1) * alignUp (s.net .native t) t.alignment + s.net .native t)
      (Mark.entries ((s.member d.name [d.name] x).rows N "")) l.fields := by
  have hmember := member_of_struct hd hl h.mem_elements h.type
  obtain ⟨type, table, hx⟩ := h.exists_leaf d.name [d.name]
  obtain ⟨hspans, -, -⟩ := fields_of_static hroot hlt hfixed .native N
  have hstatic : (s.member d.name [d.name] e).Static := by
    refine ⟨?_, ?_⟩
    · simp [Element.counter?, h.repetition]
    · rw [hmember]
      exact hfixed
  have helements : d.elements = before ++ e :: ([x] ++ after) := h.elements
  obtain ⟨pre, items, next, post, hfields, -, hitemRows, hitems, hnext, hnextRows, -⟩ :=
    parts_of_layout hd hl helements hbefore hstatic .native N
  rw [hmember] at hitemRows hitems hnext hnextRows
  generalize (membersCourse (s.scope.gauge .native) 0 0
    (before.map (s.member d.name [d.name]))).stop = p at hitems hnext hnextRows
  obtain ⟨start, harray⟩ := Member.course_legacy_array (show s.scope.legacy = true from hlegacy)
    (repetition_pos hd hl h.mem_elements h.repetition) h.repetition hfixed hwhole 0 p
  rw [harray] at hitems hnext hnextRows
  rw [List.map_singleton, hx, membersCourse_plain s.scope h.plain h.unaligned] at hnext hnextRows
  obtain ⟨f, rfl, hnative⟩ := List.map_eq_singleton_iff.mp hnext
  have hlength : (e.instances N "").length = n := by simp [Element.instances, h.repetition]
  refine ⟨pre, items, f, post, start, ?_, ⟨?_, ?_⟩, ?_, ?_⟩
  · rw [hfields, List.append_assoc]
    rfl
  · rw [hitemRows, entries_rows_nested]
  · rw [hitems, hlength, hspans]
    rfl
  · have hrow := hnextRows rfl
    rw [membersRows, membersRows, List.append_nil] at hrow
    rw [hx]
    exact hrow
  · exact congrArg Span.offset hnative

end Schema

/-! ## In the variable part -/

theorem Course.copies_cons (spans : List Span) (stride n start : Nat) :
    copies spans stride (n + 1) start =
      spans.map (·.shift start) ++ copies spans stride n (start + stride) := by
  have hnext : ∀ k, start + (k + 1) * stride = start + stride + k * stride := by
    intro k
    rw [Nat.succ_mul]
    omega
  simp [copies, List.range_succ_eq_map, List.flatMap_map, hnext]

/-- A template moves to its alignment itself. -/
theorem Template.marks_align (t : Template) (N : String → Nat) (path : String) (start : Extent) :
    t.marks N path (start.align t.alignment) = t.marks N path start := by
  have htwice : (start.align t.alignment).align t.alignment = start.align t.alignment := by
    simp [Extent.align, alignUp_of_aligned (aligned_alignUp _ _)]
  by_cases hname : t.name = ""
  · rw [Template.marks_of_isEmpty hname, Template.marks_of_isEmpty hname, htwice]
  · rw [Template.marks_of_ne hname, Template.marks_of_ne hname, htwice]

/-- So do templates from the first one on. -/
theorem templateMarks_align (t : Template) (rest : List Template) (N : String → Nat)
    (path : String) (start : Extent) :
    templateMarks N path (start.align t.alignment) (t :: rest) =
      templateMarks N path start (t :: rest) := by
  rw [templateMarks, templateMarks, t.marks_align]

/-- A template of one plain field that is not aligned stands for the field where it is. -/
theorem Template.marks_plain {name : String} {alignment : Nat} (hname : name ≠ "")
    (hunaligned : alignment ≤ 1) (size : Extent) (f : Field) (N : String → Nat)
    (start : Extent) : ∃ stop,
      (Template.mk name alignment none size [f] []).marks N "" start =
        ([.entry (f.instantiate start (Path.join name f.name))], stop) := by
  have hstay : ∀ x : Extent, x.align alignment = x := fun x => by
    have hnative : alignUp x.native alignment = x.native := alignUp_of_aligned fun hlt => by omega
    rw [Extent.align, hnative]
  refine ⟨start + size, ?_⟩
  rw [Template.marks_of_ne hname]
  simp [Template.instances, Template.asked, inSeries, Template.instanceMarks, Template.placed,
    templateMarks, hstay]

/-- Whether a template stands for one instance of a record, on an alignment, with what
follows it a stride further on. -/
structure Template.Repeats (lt : Layout) (alignment stride : Nat) (name : String)
    (t : Template) : Prop where
  name_eq : t.name = name
  alignment_eq : t.alignment = alignment
  counter_eq : t.counter = none
  children_eq : t.children = []
  rows : t.fields.map Field.row = lt.fields.map Field.row
  spans : t.fields.map (·.span .native) = lt.fields.map (·.span .native)
  stride : alignUp t.size.native alignment = stride

namespace Template.Repeats

variable {lt : Layout} {alignment stride : Nat} {name : String} {t : Template}

/-- The marks of one instance that starts on its alignment. -/
theorem marks_eq (h : t.Repeats lt alignment stride name) (hname : name ≠ "") (N : String → Nat)
    {start : Extent} (hstart : Aligned alignment start.native) :
    (Mark.entries (t.marks N "" start).1).map Field.row = lt.fields.map (·.rowAt name) ∧
      (Mark.entries (t.marks N "" start).1).map (·.span .native) =
        (lt.fields.map (·.span .native)).map (·.shift start.native) ∧
      (t.marks N "" start).2.native = start.native + stride := by
  have hne : t.name ≠ "" := by rwa [h.name_eq]
  have hself : start.align alignment = start := by
    rw [Extent.align, alignUp_of_aligned hstart]
  have hmarks : t.marks N "" start =
      ((Template.placed name start t.fields).map .entry, (start + t.size).align alignment) := by
    rw [Template.marks_of_ne hne, h.counter_eq, h.alignment_eq, hself]
    simp [Template.instances, Template.asked, inSeries, Template.instanceMarks, h.children_eq,
      templateMarks, h.name_eq, h.alignment_eq, hself]
  rw [hmarks, Mark.entries_map_entry, Template.placed, List.map_map, List.map_map]
  refine ⟨?_, ?_, ?_⟩
  · have hrows := congrArg (List.map fun r : Row => { r with name := Path.join name r.name }) h.rows
    rw [List.map_map, List.map_map] at hrows
    exact hrows
  · rw [← h.spans, List.map_map]
    rfl
  · show alignUp (start.native + t.size.native) alignment = _
    rw [Nat.add_comm, alignUp_add hstart, h.stride, Nat.add_comm]

/-- Instances of a record one after another are a series. -/
theorem templateMarks_series (N : String → Nat) {items : List (String × Bool)}
    {ts : List Template}
    (h : List.Forall₂ (fun i t => Repeats lt alignment stride i.1 t) items ts)
    (hnames : ∀ i ∈ items, i.1 ≠ "") {start : Extent} (hstart : Aligned alignment start.native)
    (hstride : Aligned alignment stride) :
    lt.Series .native (fun p => lt.fields.map (·.rowAt p)) (items.map (·.1)) start.native stride
        (Mark.entries (templateMarks N "" start ts).1) ∧
      (templateMarks N "" start ts).2.native = start.native + items.length * stride := by
  induction h generalizing start with
  | nil =>
    rw [templateMarks]
    refine ⟨⟨rfl, rfl⟩, ?_⟩
    simp
  | @cons i t items ts hfirst _ ih =>
    obtain ⟨hname, hrest⟩ := List.forall_mem_cons.mp hnames
    obtain ⟨hrows, hspans, hstop⟩ := hfirst.marks_eq hname N hstart
    have hnext : Aligned alignment (t.marks N "" start).2.native := by
      rw [hstop]
      exact aligned_add hstart hstride
    obtain ⟨hseries, hend⟩ := ih hrest hnext
    rw [hstop] at hseries hend
    rw [templateMarks, Mark.entries_append]
    refine ⟨⟨?_, ?_⟩, ?_⟩
    · rw [List.map_append, hrows, hseries.rows]
      rfl
    · rw [List.map_append, hspans, hseries.spans, List.map_cons, List.length_cons,
        Course.copies_cons]
    · rw [hend, List.length_cons, Nat.succ_mul]
      omega

/-- Instances of a record start on their alignment, and a plain field behind them is where
they stop. -/
theorem marks_before_plain (N : String → Nat) {items : List (String × Bool)} {ts : List Template}
    (h : List.Forall₂ (fun i t => Repeats lt alignment stride i.1 t) items ts)
    (hnames : ∀ i ∈ items, i.1 ≠ "") (hitems : items ≠ []) (hstride : Aligned alignment stride)
    {name : String} {unaligned : Nat} (hname : name ≠ "") (hunaligned : unaligned ≤ 1)
    (size : Extent) (f : Field) (later : List Template) (position : Extent) :
    ∃ fields g post start,
      Mark.entries (templateMarks N "" position
        (ts ++ ⟨name, unaligned, none, size, [f], []⟩ :: later)).1 = fields ++ g :: post ∧
      lt.Series .native (fun p => lt.fields.map (·.rowAt p)) (items.map (·.1)) start stride
        fields ∧
      g.row = f.rowAt name ∧
      g.native.offset = start + items.length * stride + f.native.offset := by
  -- the first instance moves to the alignment from wherever it is
  have hmove : templateMarks N "" position ts =
      templateMarks N "" (position.align alignment) ts := by
    cases h with
    | nil => exact absurd rfl hitems
    | cons hfirst _ => rw [← hfirst.alignment_eq, templateMarks_align]
  have haligned : Aligned alignment (position.align alignment).native := aligned_alignUp _ _
  obtain ⟨hseries, hstop⟩ := templateMarks_series N h hnames haligned hstride
  rw [templateMarks_append, hmove]
  generalize templateMarks N "" (position.align alignment) ts = marks at hseries hstop
  obtain ⟨stop, hplain⟩ := Template.marks_plain hname hunaligned size f N marks.2
  refine ⟨Mark.entries marks.1, f.instantiate marks.2 (Path.join name f.name),
    Mark.entries (templateMarks N "" stop later).1, _, ?_, hseries, rfl, ?_⟩
  · rw [templateMarks, hplain]
    simp [Mark.entries, Mark.entry?]
  · rw [← hstop, Nat.add_comm]
    rfl

end Template.Repeats

/-- The template of an item of a struct stands for one instance of its record, and what
follows it starts on the alignment of both. -/
theorem ItemRule.repeats_nested {e : Element} {scope : Scope} {shape : Shape} {lt : Layout}
    {name : String} {last : Bool} {t : Template} (he : IsAlignment e.alignment)
    (hshape : shape.Everywhere (OfElements Uncounted)) (hwhole : shape.AlignedWhole)
    (hrows : lt.fields.map Field.row = Mark.entries (shape.rows (fun _ => 0) ""))
    (hspans : lt.fields.map (·.span .native) =
      (shape.course (scope.gauge .native) false 0).spans)
    (h : Yields ((ItemRule.nested e scope shape.instanceAlignment
      fun scope path last d => shape.place scope path last d).template name none last) t) :
    t.Repeats lt (max e.alignment shape.instanceAlignment)
      (alignUp (shape.net (scope.gauge .native)) (max e.alignment shape.alignment)) name := by
  obtain ⟨draft, hdraft, rfl⟩ := ItemRule.nested_template h
  have hlays := shape.place_lays .native (fun _ => 0) hdraft
  have hgauge : ({ scope with positioned := false } : Scope).gauge .native =
      scope.gauge .native := by simp [Scope.gauge]
  have hzero : Draft.empty.cursor.bits .native = 0 := rfl
  obtain ⟨hcursor, hvaries⟩ := hlays.cursor_eq rfl
  obtain ⟨added, hadded, haddedSpans, haddedRows⟩ := hlays.exists_added rfl
  rw [hgauge, hzero, Shape.course_zero hshape] at hcursor hvaries haddedSpans
  have hall : draft.fields = added := hadded
  refine ⟨rfl, rfl, rfl, hlays.templates hvaries, ?_, ?_, ?_⟩
  · rw [hall, haddedRows hvaries, hrows]
  · rw [hall, haddedSpans, hspans]
  · have hsize : draft.size.native = draft.cursor.bits .native := rfl
    have hmax : max e.alignment shape.instanceAlignment =
        max (max e.alignment shape.alignment) 1 := by
      rw [hwhole.instanceAlignment_eq, Nat.max_assoc]
    simp only [hsize, hcursor, hmax, alignUp_max_one]
    split
    · rfl
    · exact alignUp_alignUp hwhole.alignment (he.max hwhole.alignment) (Nat.le_max_right _ _) _

namespace Schema

variable {s : Schema} {name : String} {d t : StructDecl} {l lt : Layout} {n : Nat}
  {before after : List Element} {e x : Element}

/-- Behind a counted array the items and the scalar become templates that follow one
another. -/
theorem exists_templates (hd : s.root name = .ok d) (hl : s.layout name = .ok l)
    (h : s.Holds d t n before e x after) (hcounted : ∃ b ∈ before, b.counter? ≠ none)
    {type : Scalar} {table : Option EnumTable}
    (hx : s.member d.name [d.name] x = .leaf x type table) :
    ∃ earlier ts f later, l.templates = earlier ++ ts ++
        ⟨x.name, x.alignment, none, f.size, [f], []⟩ :: later ∧
      x.FieldAt type table "" 0 f ∧
      List.Forall₂ (fun i t' => Yields ((ItemRule.nested e s.scope (s.shape t).instanceAlignment
        fun scope path last d => (s.shape t).place scope path last d).template i.1 none i.2) t')
        (e.fixedItems "" n) ts := by
  obtain ⟨mid, hmid, -, hprefix⟩ := members_of_layout hd hl
  have hmember := member_of_struct hd hl h.mem_elements h.type
  have hmembers : (s.shape d).members = before.map (s.member d.name [d.name]) ++
      .nested e (s.shape t) :: .leaf x type table :: after.map (s.member d.name [d.name]) := by
    show d.elements.map (s.member d.name [d.name]) = _
    simp [h.elements, hmember, hx]
  rw [hmembers, placeMembers_append] at hmid
  obtain ⟨d1, h1, hmid⟩ := Yields.of_bind hmid
  obtain ⟨d2, h2, hmid⟩ := placeMembers_cons_yields hmid
  obtain ⟨d3, h3, h4⟩ := placeMembers_cons_yields hmid
  have hvaries : d1.varies = true := by
    obtain ⟨b, hb, hcounter⟩ := hcounted
    have hresolved : (s.member d.name [d.name] b).Resolved := by
      have hb' : b ∈ d.elements := by simp [h.elements, hb]
      exact (placeable_of_layout hd hl).1.resolved _ (mem_members (x := ⟨d, [d.name]⟩) hb')
    rw [((placeMembers_lays .native (fun _ => 0) _ h1 (fun _ => rfl : _ → 0 = 0)).cursor_eq
      rfl).2]
    exact membersCourse_ended hresolved (by simpa using hcounter) (List.mem_map_of_mem hb) _ _
  rw [Member.place] at h2
  rw [Member.place] at h3
  obtain ⟨hvaries2, ts, hts, hitems⟩ := (Element.place_yields h2).templates hvaries h.repetition
  obtain ⟨-, us, hus, hplain⟩ := (Element.place_yields h3).templates hvaries2 h.plain
  -- the scalar is an array of one
  obtain ⟨u, rfl, hu⟩ : ∃ u, us = [u] ∧ Yields ((ItemRule.leaf x s.scope d.name type
      table).template x.name none true) u := by
    cases hplain with
    | cons hu hrest =>
      cases hrest
      exact ⟨_, rfl, hu⟩
  obtain ⟨f, hf, rfl⟩ := ItemRule.leaf_template hu
  obtain ⟨later, hlater⟩ := (placeMembers_lays .native (fun _ => 0) _ h4
    (fun _ => rfl : _ → 0 = 0)).adds.templates
  obtain ⟨rest, hrest⟩ := hprefix
  refine ⟨d1.templates, ts, f, later ++ rest, ?_, hf, hitems⟩
  rw [← hrest, ← hlater, hus, hts]
  simp

/-- In the variable part all structs take a multiple of their padded size, the last one,
too. -/
theorem spaced_variable (hd : s.root name = .ok d) (hl : s.layout name = .ok l)
    (h : s.Holds d t n before e x after) (hcounted : ∃ b ∈ before, b.counter? ≠ none)
    (he : IsAlignment e.alignment) (hename : e.name ≠ "") (hxname : x.name ≠ "")
    (hfixed : (s.shape t).Everywhere (OfElements Uncounted)) (hwhole : (s.shape t).AlignedWhole)
    (hroot : s.root t.name = .ok t) (hlt : s.layout t.name = .ok lt) {r : Representation}
    {b : Bytes} {v : View} (hv : View.openFull l r b = .ok v) :
    lt.Spaced (fun p => lt.fields.map (·.rowAt p)) (e.instances v.countAt "")
      (alignUp (s.net .native t) (max e.alignment t.alignment))
      (n * alignUp (s.net .native t) (max e.alignment t.alignment))
      (Mark.entries ((s.member d.name [d.name] x).rows v.countAt "")) v.elements := by
  obtain ⟨type, table, hx⟩ := h.exists_leaf d.name [d.name]
  obtain ⟨hspans, hrows, -⟩ := fields_of_static hroot hlt hfixed .native fun _ => 0
  obtain ⟨earlier, ts, f, later, htemplates, hf, hitems⟩ := exists_templates hd hl h hcounted hx
  have hpos := repetition_pos hd hl h.mem_elements h.repetition
  have hrepeats := hitems.imp fun i u hu =>
    ItemRule.repeats_nested he hfixed hwhole hrows hspans hu
  have hnames : ∀ i ∈ e.fixedItems "" n, i.1 ≠ "" := by
    intro i hi
    obtain ⟨k, -, rfl⟩ := List.mem_map.mp hi
    exact Path.itemOf_ne_empty (Path.join_ne_empty hename) k n
  have hpaths : (e.fixedItems "" n).map (·.1) = e.instances v.countAt "" := by
    simp [Element.fixedItems, Element.instances, h.repetition, Function.comp_def]
  have hlength : (e.fixedItems "" n).length = n := by simp [Element.fixedItems]
  have hne : e.fixedItems "" n ≠ [] := List.ne_nil_of_length_pos (by omega)
  have hstride : Aligned (max e.alignment (s.shape t).instanceAlignment)
      (alignUp (s.net .native t) (max e.alignment t.alignment)) := by
    have halignment : (s.shape t).alignment = t.alignment := rfl
    rw [hwhole.instanceAlignment_eq, halignment, ← Nat.max_assoc, aligned_max_one]
    exact aligned_alignUp _ _
  have hexpanded := (View.opened_of_openFull hv).expanded_eq
  obtain ⟨rfl, -⟩ := View.openFull_eq_ok_iff.mp hv
  obtain ⟨items, g, post, start, hmarks, hseries, hrow, hoffset⟩ :=
    Template.Repeats.marks_before_plain v.countAt hrepeats hnames hne hstride hxname h.unaligned
      f.size f later (templateMarks v.countAt "" v.layout.size earlier).2
  rw [hpaths] at hseries
  refine ⟨v.layout.fields ++ Mark.entries (templateMarks v.countAt "" v.layout.size earlier).1,
    items, g, post, start, ?_, hseries, ?_, ?_⟩
  · rw [View.elements, hexpanded, Layout.marks, htemplates, List.append_assoc,
      templateMarks_append, Mark.entries_append, hmarks]
    simp
  · rw [hrow, hf.rowAt_eq, hx, entries_rows_leaf]
    simp [Element.instances, h.plain, Path.itemOf]
  · rw [hoffset, hlength, hf.native_eq]
    rfl

/-! ## The two distances -/

/-- A record without counted arrays takes the padded size of its struct. -/
theorem native_size_of_static (hroot : s.root t.name = .ok t) (hlt : s.layout t.name = .ok lt)
    (hfixed : (s.shape t).Everywhere (OfElements Uncounted)) :
    lt.size.native = alignUp (s.net .native t) t.alignment := by
  obtain ⟨draft, hdraft, -, -, hsize⟩ := layout_eq_ok hroot hlt
  obtain ⟨hcursor, -⟩ := ((s.shape t).place_lays .native (fun _ => 0) hdraft).cursor_eq rfl
  have hzero : Draft.empty.cursor.bits .native = 0 := rfl
  rw [hzero, Shape.course_zero hfixed] at hcursor
  simp only [Bool.false_eq_true, and_false, if_false] at hcursor
  rw [hsize]
  exact hcursor

/-- A last item without padding is as long as one with all of it exactly if there is
none. -/
theorem net_last_eq_iff {a b n : Nat} (ha : IsAlignment a) (hb : IsAlignment b) (hle : a ≤ b)
    (hn : 0 < n) (net : Nat) :
    (n - 1) * alignUp net a + net = n * alignUp net b ↔ Aligned b net := by
  obtain ⟨m, rfl⟩ := Nat.exists_eq_succ_of_ne_zero (Nat.ne_of_gt hn)
  rw [Nat.succ_mul, Nat.succ_eq_add_one, Nat.add_sub_cancel]
  constructor
  · intro heq
    have hfine : alignUp net a ≤ alignUp net b :=
      alignUp_le ((aligned_alignUp net b).of_le ha hb hle) (le_alignUp net b)
    have hall : m * alignUp net a ≤ m * alignUp net b := Nat.mul_le_mul_left m hfine
    have hnet := le_alignUp net b
    have hself : alignUp net b = net := by omega
    rw [← hself]
    exact aligned_alignUp net b
  · intro haligned
    rw [alignUp_of_aligned haligned, alignUp_of_aligned (haligned.of_le ha hb hle)]

/-- In a legacy schema what stands behind an array of structs is the net size of the last
struct away from it in the fixed part, and its padded size in the variable part. The two
distances are the same exactly if the struct needs no padding. -/
theorem distances_of_legacy {name₁ name₂ : String} {d₁ d₂ : StructDecl} {l₁ l₂ : Layout}
    {before₁ after₁ before₂ after₂ : List Element} {e₁ x₁ e₂ x₂ : Element}
    (hlegacy : s.version.isLegacy = true)
    (hd₁ : s.root name₁ = .ok d₁) (hl₁ : s.layout name₁ = .ok l₁)
    (h₁ : s.Holds d₁ t n before₁ e₁ x₁ after₁)
    (hbefore : ∀ b ∈ before₁, (s.member d₁.name [d₁.name] b).Static)
    (hd₂ : s.root name₂ = .ok d₂) (hl₂ : s.layout name₂ = .ok l₂)
    (h₂ : s.Holds d₂ t n before₂ e₂ x₂ after₂) (hcounted : ∃ b ∈ before₂, b.counter? ≠ none)
    (he₂ : IsAlignment e₂.alignment) (hename : e₂.name ≠ "") (hxname : x₂.name ≠ "")
    (hfixed : (s.shape t).Everywhere (OfElements Uncounted)) (hwhole : (s.shape t).AlignedWhole) :
    ∃ lt, s.layout t.name = .ok lt ∧ lt.size.native = alignUp (s.net .native t) t.alignment ∧
      (∀ N, lt.Spaced (fun p => Mark.entries ((s.shape t).rows N p)) (e₁.instances N "")
        lt.size.native ((n - 1) * lt.size.native + s.net .native t)
        (Mark.entries ((s.member d₁.name [d₁.name] x₁).rows N "")) l₁.fields) ∧
      (∀ r b v, View.openFull l₂ r b = .ok v →
        lt.Spaced (fun p => lt.fields.map (·.rowAt p)) (e₂.instances v.countAt "")
          (alignUp (s.net .native t) (max e₂.alignment t.alignment))
          (n * alignUp (s.net .native t) (max e₂.alignment t.alignment))
          (Mark.entries ((s.member d₂.name [d₂.name] x₂).rows v.countAt "")) v.elements) ∧
      ((n - 1) * lt.size.native + s.net .native t =
          n * alignUp (s.net .native t) (max e₂.alignment t.alignment) ↔
        Aligned (max e₂.alignment t.alignment) (s.net .native t)) := by
  obtain ⟨hroot, lt, hlt⟩ := exists_layout_of_refers hd₁ hl₁ ⟨e₁, h₁.mem_elements, h₁.type⟩
  have hsize := native_size_of_static hroot hlt hfixed
  refine ⟨lt, hlt, hsize, fun N => ?_, fun r b v hv => ?_, ?_⟩
  · rw [hsize]
    exact spaced_fixed hlegacy hd₁ hl₁ h₁ hbefore hfixed hwhole hroot hlt N
  · exact spaced_variable hd₂ hl₂ h₂ hcounted he₂ hename hxname hfixed hwhole hroot hlt hv
  · have ht : IsAlignment t.alignment := hwhole.alignment
    have hpos := repetition_pos hd₁ hl₁ h₁.mem_elements h₁.repetition
    rw [hsize]
    exact net_last_eq_iff ht (he₂.max ht) (Nat.le_max_right _ _) hpos _

end Schema

/-- A word and a byte, aligned like the word. -/
def block : StructDecl where
  name := "Block"
  alignment := 4
  elements :=
    [ { Element.simple "a" "tUInt32" (.fixed 1) none with alignment := 4 },
      .simple "b" "tUInt8" (.fixed 1) none ]

/-- Two blocks and a byte, before counted blocks and behind them. -/
def twoTwice : StructDecl where
  name := "Record"
  alignment := 1
  elements :=
    [ .simple "n" "tUInt8" (.fixed 1) none, .simple "first" "Block" (.fixed 2) none,
      .simple "x" "tUInt8" (.fixed 1) none, .simple "items" "Block" (.countedBy "n") none,
      .simple "last" "Block" (.fixed 2) none, .simple "y" "tUInt8" (.fixed 1) none ]

/-- A legacy schema of blocks. -/
def blocks : Schema where
  version := ⟨2, 0⟩
  aliases := []
  enums := []
  structs := [block, twoTwice]

namespace Schema

/-- A block needs padding: 13 bytes from the first one in the fixed part, and 16 bytes
from the one in the variable part. -/
theorem distances_of_legacy_blocks : ∃ lt v, blocks.layout "Block" = .ok lt ∧
    lt.size.native = 64 ∧ blocks.net .native block = 40 ∧
    View.openFull v.layout .native (1 :: List.replicate 44 0) = .ok v ∧
    lt.Spaced (fun p => Mark.entries ((blocks.shape block).rows (fun _ => 0) p))
      ["first[0]", "first[1]"] 64 104
      (Mark.entries ((blocks.member "Record" ["Record"]
        (.simple "x" "tUInt8" (.fixed 1) none)).rows (fun _ => 0) "")) v.layout.fields ∧
    lt.Spaced (fun p => lt.fields.map (·.rowAt p)) ["last[0]", "last[1]"] 64 128
      (Mark.entries ((blocks.member "Record" ["Record"]
        (.simple "y" "tUInt8" (.fixed 1) none)).rows v.countAt "")) v.elements ∧
    ¬ Aligned 4 40 := by
  obtain ⟨d, l, v, hd, hl, hv, hp⟩ := @Schema.exists_view blocks "Record" .native
    (1 :: List.replicate 44 0) (fun d _ => d = twoTwice) (by decide +kernel)
  obtain rfl := of_decide_eq_true hp
  obtain ⟨rfl, -⟩ := View.openFull_eq_ok_iff.mp hv
  have hnet : blocks.net .native block = 40 := by decide +kernel
  have hfirst : blocks.Holds twoTwice block 2 [.simple "n" "tUInt8" (.fixed 1) none]
      (.simple "first" "Block" (.fixed 2) none) (.simple "x" "tUInt8" (.fixed 1) none)
      [.simple "items" "Block" (.countedBy "n") none, .simple "last" "Block" (.fixed 2) none,
        .simple "y" "tUInt8" (.fixed 1) none] :=
    ⟨rfl, rfl, rfl, by decide +kernel, rfl, by decide⟩
  have hlast : blocks.Holds twoTwice block 2
      [.simple "n" "tUInt8" (.fixed 1) none, .simple "first" "Block" (.fixed 2) none,
        .simple "x" "tUInt8" (.fixed 1) none, .simple "items" "Block" (.countedBy "n") none]
      (.simple "last" "Block" (.fixed 2) none) (.simple "y" "tUInt8" (.fixed 1) none) [] :=
    ⟨rfl, rfl, rfl, by decide +kernel, rfl, by decide⟩
  have hfixed : ∀ b ∈ [Element.simple "n" "tUInt8" (.fixed 1) none],
      (blocks.member "Record" ["Record"] b).Static := by decide +kernel
  obtain ⟨lt, hlt, hsize, hspaced, hvarying, hequal⟩ :=
    distances_of_legacy (show blocks.version.isLegacy = true from rfl) hd hl hfirst hfixed hd hl
      hlast (by decide) (by decide) (by decide) (by decide) (by decide +kernel)
      ⟨by decide +kernel, by decide +kernel⟩
  have hpadded : lt.size.native = 64 := by rw [hsize, hnet]; rfl
  have hspaced := hspaced fun _ => 0
  have hvarying := hvarying _ _ _ hv
  rw [hpadded, hnet] at hspaced hequal
  rw [hnet] at hvarying
  exact ⟨lt, v, hlt, hpadded, hnet, hv, hspaced, hvarying,
    fun h => absurd (hequal.mpr h) (by decide)⟩

/-- Without padding behind the last block, the byte behind it would be as far away as the
one in the fixed part, not three bytes further. -/
theorem not_same_distance_blocks : ∃ v, blocks.version.isLegacy = true ∧
    (blocks.shape block).AlignedWhole ∧ blocks.layout "Record" = .ok v.layout ∧
    View.openFull v.layout .native (1 :: List.replicate 44 0) = .ok v ∧
    v.elements.map (fun f => (f.name, f.native.offset)) =
      [("n", 0), ("first[0].a", 32), ("first[0].b", 64), ("first[1].a", 96),
        ("first[1].b", 128), ("x", 136), ("items[0].a", 160), ("items[0].b", 192),
        ("last[0].a", 224), ("last[0].b", 256), ("last[1].a", 288), ("last[1].b", 320),
        ("y", 352)] ∧
    136 - 32 ≠ 352 - 224 := by
  obtain ⟨_, l, v, -, hl, hv, hp⟩ := @Schema.exists_view blocks "Record" .native
    (1 :: List.replicate 44 0) (fun _ v => v.elements.map (fun f => (f.name, f.native.offset)) =
      [("n", 0), ("first[0].a", 32), ("first[0].b", 64), ("first[1].a", 96),
        ("first[1].b", 128), ("x", 136), ("items[0].a", 160), ("items[0].b", 192),
        ("last[0].a", 224), ("last[0].b", 256), ("last[1].a", 288), ("last[1].b", 320),
        ("y", 352)]) (by decide +kernel)
  obtain ⟨rfl, -⟩ := View.openFull_eq_ok_iff.mp hv
  exact ⟨v, rfl, ⟨by decide +kernel, by decide +kernel⟩, hl, hv, of_decide_eq_true hp, by decide⟩

end Schema

end WireRecord
