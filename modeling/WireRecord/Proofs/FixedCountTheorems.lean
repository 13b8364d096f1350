/-
WireRecord.Proofs.FixedCountTheorems — counted arrays lie like fixed ones.

A counted array goes through templates and is laid out when a record is opened, a
fixed one is laid out by the compiler. For a reader of the record there should be
no difference: once the counts are known, they may as well stand in the schema.
`Schema.withCounts` writes them there. The theorem is that the new schema has a
layout, and that its fields are the elements of the view, each with the same name
and type in the same place.

That names, types and widths agree is a matter of rows, and on the wire nothing
else matters, as records without wire positions are packed. Natively the two are
compared with `Shape.spread`. The new schema unfolds to the same shape but for the
repetitions (`Schema.shape_withCounts`), and these do not matter to a spread.
-/
import WireRecord.Proofs.AcceptanceTheorems
import WireRecord.Proofs.ArrangementTheorems
import WireRecord.Proofs.SpreadTheorems

namespace WireRecord

open Relation

/-! ## Writing counts into a schema -/

namespace Element

/-- The element with the number of its items in place of its counter. -/
def withCount (N : String → Nat) (e : Element) : Element :=
  { e with repetition := .fixed (e.times N) }

@[simp] theorem counter?_withCount (N : String → Nat) (e : Element) :
    (e.withCount N).counter? = none := rfl

/-- The items have the same names, as long as a counted array does not become a
plain element. -/
theorem instances_withCount {N : String → Nat} {e : Element}
    (h : ∀ c, e.counter? = some c → N c ≠ 1) :
    (e.withCount N).instances N "" = e.instances N "" := by
  unfold instances withCount times
  cases hr : e.repetition with
  | fixed n => rfl
  | countedBy c =>
    have hc : N c ≠ 1 := h c (by simp [counter?, hr])
    simp [Path.itemOf, hc]

end Element

/-- The struct with counts in place of its counters. -/
def StructDecl.withCounts (N : String → Nat) (d : StructDecl) : StructDecl :=
  { d with elements := d.elements.map (·.withCount N) }

/-- The schema with counts in place of the counters of one struct. -/
def Schema.withCounts (s : Schema) (name : String) (N : String → Nat) : Schema :=
  { s with structs := s.structs.map fun t => if t.name = name then t.withCounts N else t }

/-- The member with a count in place of its counter. -/
def Member.withCount (N : String → Nat) : Member → Member
  | leaf e type table => leaf (e.withCount N) type table
  | nested e shape => nested (e.withCount N) shape
  | cyclic e struct alignment => cyclic (e.withCount N) struct alignment
  | unresolved e reason => unresolved (e.withCount N) reason

@[simp] theorem Member.element_withCount (N : String → Nat) (m : Member) :
    (m.withCount N).element = m.element.withCount N := by
  cases m <;> rfl

/-- The structs inside a member stay the same. -/
@[simp] theorem Member.everywhere_withCount (N : String → Nat) (p : List Member → Prop)
    (m : Member) : (m.withCount N).Everywhere p ↔ m.Everywhere p := by
  cases m <;> rfl

theorem membersEverywhere_withCount {N : String → Nat} {p : List Member → Prop}
    {members : List Member} :
    membersEverywhere p (members.map (Member.withCount N)) ↔ membersEverywhere p members := by
  simp [membersEverywhere_iff]

namespace Schema

variable {s : Schema} {name : String} {N : String → Nat}

theorem struct?_withCounts (n : String) : (s.withCounts name N).struct? n =
    (s.struct? n).map fun t => if t.name = name then t.withCounts N else t := by
  have hname : ((fun t : StructDecl => t.name == n) ∘ fun t : StructDecl =>
      if t.name = name then t.withCounts N else t) = fun t : StructDecl => t.name == n := by
    funext t
    by_cases ht : t.name = name <;> simp [ht, StructDecl.withCounts]
  simp only [struct?, withCounts, List.find?_map, hname]

/-- A type name stands for what it did, up to the struct that was changed. -/
theorem meaning?_withCounts (n : String) : (s.withCounts name N).meaning? n =
    match s.meaning? n with
    | some (.struct t) => some (.struct (if t.name = name then t.withCounts N else t))
    | other => other := by
  have hscalar : (s.withCounts name N).scalar? n = s.scalar? n := rfl
  have henum : (s.withCounts name N).enum? n = s.enum? n := rfl
  simp only [meaning?, hscalar, henum, struct?_withCounts]
  cases s.scalar? n <;> cases s.enum? n <;> cases s.struct? n <;> simp

/-- A member does not depend on the repetition of its element. -/
theorem member_withCount (owner : String) (active : List String) (e : Element) :
    s.member owner active (e.withCount N) = (s.member owner active e).withCount N := by
  have htype : (e.withCount N).type = e.type := rfl
  rw [member_eq, member_eq, htype]
  split
  · rfl
  · split <;> rfl
  · split <;> rfl
  · rfl

/-- Inside the changed struct everything unfolds as before: it does not contain
itself. -/
theorem member_withCounts {owner : String} {active : List String} (hname : name ∈ active)
    (e : Element) (hresolved : (s.member owner active e).Resolved)
    (hin : (s.member owner active e).Everywhere AllResolved) :
    (s.withCounts name N).member owner active e = s.member owner active e := by
  induction hn : s.remaining active using Nat.strongRecOn generalizing owner active e with
  | ind n ih =>
    rw [member_eq] at hresolved hin
    rw [member_eq, member_eq, meaning?_withCounts]
    cases hmeaning : s.meaning? e.type with
    | none => rfl
    | some x =>
      cases x with
      | scalar type => rfl
      | enum decl => rfl
      | struct t =>
        simp only [hmeaning] at hresolved hin
        by_cases hactive : t.name ∈ active
        · rw [if_pos hactive] at hresolved
          exact hresolved.elim
        · rw [if_neg hactive] at hin
          have hother : t.name ≠ name := by
            rintro rfl
            exact hactive hname
          simp only [hother, hactive, if_false]
          have hfewer : s.remaining (t.name :: active) < n := by
            rw [← hn]
            exact remaining_cons_lt
              (mem_structs_of_struct?_eq_some (struct?_of_meaning? hmeaning)) hactive
          obtain ⟨hmembers, hinner⟩ := everywhere_shapeOf_iff.mp hin
          rw [shapeOf, shapeOf, members, members]
          congr 2
          refine List.map_congr_left fun k hk => ?_
          have hmem : s.member t.name (t.name :: active) k ∈ s.members ⟨t, t.name :: active⟩ :=
            mem_members hk
          exact ih _ hfewer (List.mem_cons_of_mem _ hname) k (hmembers _ hmem) (hinner _ hmem) rfl

/-- The changed struct has the same members but for the repetitions. -/
theorem shape_withCounts {d : StructDecl} (hin : (s.shape d).Everywhere AllResolved) :
    (s.withCounts d.name N).shape (d.withCounts N) =
      .mk d.name d.alignment ((s.shape d).members.map (Member.withCount N)) := by
  obtain ⟨hmembers, hinner⟩ := (everywhere_shapeOf_iff (x := ⟨d, [d.name]⟩)).mp hin
  simp only [shape, Shape.members, StructDecl.withCounts, List.map_map]
  congr 1
  refine List.map_congr_left fun e he => ?_
  have hmem : s.member d.name [d.name] e ∈ s.members ⟨d, [d.name]⟩ := mem_members he
  rw [Function.comp_apply, Function.comp_apply, member_withCount,
    member_withCounts (List.mem_singleton_self d.name) e (hmembers _ hmem) (hinner _ hmem)]

theorem names_withCounts :
    (s.withCounts name N).structs.map (·.name) = s.structs.map (·.name) := by
  rw [withCounts, List.map_map]
  refine List.map_congr_left fun t _ => ?_
  by_cases ht : t.name = name <;> simp [ht, StructDecl.withCounts]

theorem root_withCounts {d : StructDecl} (hd : s.root name = .ok d) :
    (s.withCounts name N).root name = .ok (d.withCounts N) := by
  obtain ⟨hnames, hstruct⟩ := root_eq_ok_iff.mp hd
  refine root_eq_ok_iff.mpr ⟨⟨hnames.aliases, hnames.enums, ?_⟩, ?_⟩
  · rw [names_withCounts]
    exact hnames.structs
  · rw [struct?_withCounts, hstruct]
    simp [name_of_struct? hstruct]

/-- What holds of all elements of a schema and does not look at repetitions holds
of the changed schema, too. -/
theorem elements_withCounts {p : Element → Prop} (hp : ∀ e, p e → p (e.withCount N))
    (h : ∀ t ∈ s.structs, ∀ e ∈ t.elements, p e) :
    ∀ t ∈ (s.withCounts name N).structs, ∀ e ∈ t.elements, p e := by
  intro t ht e he
  obtain ⟨u, hu, rfl⟩ := List.mem_map.mp ht
  by_cases hname : u.name = name
  · rw [if_pos hname] at he
    obtain ⟨k, hk, rfl⟩ := List.mem_map.mp he
    exact hp k (h u hu k hk)
  · rw [if_neg hname] at he
    exact h u hu e he

end Schema

/-! ## The changed struct is accepted -/

theorem membersAcceptable_withCount {N : String → Nat} {entries : List EnumEntry}
    {members : List Member} {earlier : List String} (hpos : ∀ m ∈ members, 0 < m.element.times N)
    (h : MembersAcceptable entries earlier members) :
    MembersAcceptable entries earlier (members.map (Member.withCount N)) := by
  induction members generalizing earlier with
  | nil => trivial
  | cons m rest ih =>
    refine ⟨?_, ?_⟩
    · have htimes : (m.element.withCount N).Repeatable earlier :=
        Nat.ne_of_gt (hpos m List.mem_cons_self)
      cases m with
      | leaf e type table => exact ⟨htimes, h.1.2.width, h.1.2.constant⟩
      | nested e shape => exact htimes
      | cyclic e struct alignment => exact h.1
      | unresolved e reason => exact h.1
    · rw [Member.element_withCount]
      exact ih (fun k hk => hpos k (List.mem_cons_of_mem m hk)) h.2

/-- The changed schema has a layout of the struct if the first one has. -/
theorem Schema.exists_layout_withCounts {s : Schema} {name : String} {d : StructDecl} {l : Layout}
    {N : String → Nat} (hd : s.root name = .ok d) (hl : s.layout name = .ok l)
    (hpos : ∀ m ∈ (s.shape d).members, 0 < m.element.times N) :
    ∃ l', (s.withCounts name N).layout name = .ok l' := by
  have hd' := root_withCounts (N := N) hd
  obtain ⟨-, hstruct⟩ := root_eq_ok_iff.mp hd
  obtain ⟨-, hstruct'⟩ := root_eq_ok_iff.mp hd'
  obtain rfl := name_of_struct? hstruct
  have hresolved : (s.shape d).Everywhere AllResolved :=
    (placeable_of_layout hd hl).mono fun _ h => h.resolved
  have haccepts := layout_of_root hd
  rw [hl] at haccepts
  obtain ⟨hmembers, hinner⟩ : MembersAcceptable s.entries [] (s.shape d).members ∧
    membersEverywhere (MembersAcceptable s.entries []) (s.shape d).members :=
      (shape_acceptable_iff hstruct).mpr haccepts
  have hshape : ((s.withCounts d.name N).shape (d.withCounts N)).Everywhere
      (MembersAcceptable (s.withCounts d.name N).entries []) := by
    rw [shape_withCounts hresolved]
    exact ⟨membersAcceptable_withCount hpos hmembers, membersEverywhere_withCount.mpr hinner⟩
  have haccepts' := (shape_acceptable_iff hstruct').mp hshape
  have hlayout := layout_of_root hd'
  cases hl' : (s.withCounts d.name N).layout d.name with
  | ok l' => exact ⟨l', rfl⟩
  | error e =>
    rw [hl'] at hlayout
    exact absurd haccepts' hlayout.1

/-! ## Regular schemas -/

namespace Schema

/-- Whether the alignment of an element fits its type: a scalar, be it of an
enumeration or not, is not aligned beyond its native size, a struct not beyond its
own alignment, which is not beyond that of the struct around it. -/
def AlignsType (s : Schema) (d : StructDecl) (e : Element) : Prop :=
  match s.meaning? e.type with
  | some (.scalar type) => e.alignment ≤ type.bytes
  | some (.enum decl) => ∀ type ∈ s.scalar? decl.base, e.alignment ≤ type.bytes
  | some (.struct t) => e.alignment ≤ t.alignment ∧ t.alignment ≤ d.alignment
  | none => True

/-- Whether the alignments of a struct and its elements are powers of two or zero,
and fit each other. -/
structure Aligns (s : Schema) (d : StructDecl) : Prop where
  struct : IsAlignment d.alignment
  element : ∀ e ∈ d.elements, IsAlignment e.alignment ∧ e.alignment ≤ d.alignment
  type : ∀ e ∈ d.elements, s.AlignsType d e

instance (s : Schema) (d : StructDecl) (e : Element) : Decidable (s.AlignsType d e) :=
  match h : s.meaning? e.type with
  | some (.scalar type) => decidable_of_iff (e.alignment ≤ type.bytes) (by simp [AlignsType, h])
  | some (.enum decl) =>
    decidable_of_iff (∀ type ∈ s.scalar? decl.base, e.alignment ≤ type.bytes)
      (by simp [AlignsType, h])
  | some (.struct t) =>
    decidable_of_iff (e.alignment ≤ t.alignment ∧ t.alignment ≤ d.alignment)
      (by simp [AlignsType, h])
  | none => .isTrue (by simp [AlignsType, h])

instance (s : Schema) (d : StructDecl) : Decidable (s.Aligns d) :=
  decidable_of_iff (IsAlignment d.alignment ∧
      (∀ e ∈ d.elements, IsAlignment e.alignment ∧ e.alignment ≤ d.alignment) ∧
      ∀ e ∈ d.elements, s.AlignsType d e)
    ⟨fun h => ⟨h.1, h.2.1, h.2.2⟩, fun h => ⟨h.struct, h.element, h.type⟩⟩

variable {s : Schema}

/-- Where alignments fit each other in every struct, a shape is regular. The
induction is on the structs that are not being unfolded yet. -/
theorem regular_shapeOf (haligns : ∀ t ∈ s.structs, s.Aligns t) {x : Visit}
    (hx : x.struct ∈ s.structs) (hin : (s.shapeOf x).Everywhere AllResolved) :
    (s.shapeOf x).Regular := by
  induction hn : s.remaining x.active using Nat.strongRecOn generalizing x with
  | ind n ih =>
    obtain ⟨hmembers, hinner⟩ := everywhere_shapeOf_iff.mp hin
    refine ⟨(haligns _ hx).struct, membersRegular_iff.mpr fun m hm => ?_⟩
    have hresolved := hmembers m hm
    have hinside := hinner m hm
    obtain ⟨e, he, rfl⟩ := List.mem_map.mp hm
    obtain ⟨hpower, hle⟩ := (haligns _ hx).element e he
    have htype := (haligns _ hx).type e he
    unfold AlignsType at htype
    rw [member_eq] at hresolved hinside ⊢
    cases hmeaning : s.meaning? e.type with
    | none =>
      simp only [hmeaning] at hresolved
      exact hresolved.elim
    | some meaning =>
      simp only [hmeaning] at hresolved hinside htype ⊢
      cases meaning with
      | scalar type => exact ⟨hpower, hle, htype⟩
      | enum decl =>
        cases hbase : s.scalar? decl.base with
        | none =>
          simp only [hbase] at hresolved
          exact hresolved.elim
        | some type =>
          simp only [hbase]
          exact ⟨hpower, hle, htype type hbase⟩
      | struct t =>
        by_cases hactive : t.name ∈ x.active
        · simp only [hactive, if_true] at hresolved
          exact hresolved.elim
        · simp only [hactive, if_false] at hinside ⊢
          have hrefers : s.Refers x.struct t := ⟨e, he, hmeaning⟩
          have henters : s.Enters x ⟨t, t.name :: x.active⟩ := ⟨hrefers, hactive, rfl⟩
          exact ⟨hpower, htype.1, htype.2,
            ih _ (hn ▸ henters.remaining_lt) hrefers.mem_structs hinside rfl⟩

/-- Where no struct below the record has counted arrays, only those of its own
elements are counted. -/
theorem uncounted_member {d : StructDecl}
    (hbelow : ∀ t, TransGen s.Refers d t → Uncounted t.elements) {m : Member}
    (hm : m ∈ (s.shape d).members) : m.Everywhere (OfElements Uncounted) := by
  obtain ⟨e, he, rfl⟩ := List.mem_map.mp hm
  rw [member_eq]
  split
  · trivial
  · split <;> trivial
  · rename_i t hmeaning
    split
    · trivial
    · have hrefers : s.Refers d t := ⟨e, he, hmeaning⟩
      show (s.shapeOf _).Everywhere _
      refine everywhere_iff.mpr fun y hy => ?_
      rw [OfElements, members, elementsOf_member]
      exact hbelow _ (.head' hrefers (reaches_of_enters hy))
  · trivial

end Schema

/-! ## Views as fixed records -/

section Spread

variable {N : String → Nat}

@[simp] theorem Member.spread_withCount (m : Member) (p : Nat) :
    (m.withCount N).spread N p = m.spread N p := by
  cases m <;> rfl

theorem membersSpread_withCount (members : List Member) (p : Nat) :
    membersSpread N p (members.map (Member.withCount N)) = membersSpread N p members := by
  induction members generalizing p with
  | nil => rfl
  | cons m rest ih => simp [membersSpread, ih]

theorem entries_rows_withCount {m : Member} (h : ∀ c, m.element.counter? = some c → N c ≠ 1) :
    Mark.entries ((m.withCount N).rows N "") = Mark.entries (m.rows N "") := by
  cases m with
  | leaf e type table =>
    have hinstances : (e.withCount N).instances N "" = e.instances N "" :=
      Element.instances_withCount h
    rw [Member.withCount, entries_rows_leaf, entries_rows_leaf, hinstances]
    rfl
  | nested e shape =>
    have hinstances : (e.withCount N).instances N "" = e.instances N "" :=
      Element.instances_withCount h
    rw [Member.withCount, entries_rows_nested, entries_rows_nested, hinstances]
  | cyclic e struct alignment => rfl
  | unresolved e reason => rfl

/-- Counts in place of counters leave the names and types as they are. -/
theorem entries_membersRows_withCount {members : List Member}
    (h : ∀ m ∈ members, ∀ c, m.element.counter? = some c → N c ≠ 1) :
    Mark.entries (membersRows N "" (members.map (Member.withCount N))) =
      Mark.entries (membersRows N "" members) := by
  induction members with
  | nil => rfl
  | cons m rest ih =>
    simp [membersRows, entries_rows_withCount (h m List.mem_cons_self),
      ih fun k hk => h k (List.mem_cons_of_mem m hk)]

end Spread

theorem Countable.times_pos {N : String → Nat} {es : List Element} {earlier : List String}
    (h : Countable earlier es) (hcounts : ∀ e ∈ es, ∀ c, e.counter? = some c → 0 < N c) :
    ∀ e ∈ es, 0 < e.times N := by
  intro e he
  unfold Element.times
  cases hr : e.repetition with
  | fixed n => exact h.fixed_pos e he n hr
  | countedBy c => exact hcounts e he c (by simp [Element.counter?, hr])

namespace Schema

variable {s : Schema} {d : StructDecl} {N : String → Nat}

theorem element_mem {m : Member} (hm : m ∈ (s.shape d).members) : m.element ∈ d.elements := by
  obtain ⟨e, he, rfl⟩ := List.mem_map.mp hm
  rw [element_member]
  exact he

/-- The fields of a layout without a variable part are the rows of its struct. -/
theorem map_row_of_layout {name : String} {l : Layout}
    (hnames : ∀ t ∈ s.structs, Named t.elements) (hd : s.root name = .ok d)
    (hl : s.layout name = .ok l) (htemplates : l.templates = []) (N : String → Nat) :
    l.fields.map Field.row = Mark.entries ((s.shape d).rows N "") := by
  have hrows := rows_of_layout hnames hd hl N
  have hmarks : (l.marks N).1 = [] := by rw [Layout.marks, htemplates, templateMarks]
  rw [hmarks, List.map_nil, List.append_nil] at hrows
  rw [← hrows, Mark.entries_map_comp]

/-- The changed struct has the same rows. -/
theorem rows_withCounts (hresolved : (s.shape d).Everywhere AllResolved)
    (hone : ∀ m ∈ (s.shape d).members, ∀ c, m.element.counter? = some c → N c ≠ 1) :
    Mark.entries (((s.withCounts d.name N).shape (d.withCounts N)).rows N "") =
      Mark.entries ((s.shape d).rows N "") := by
  rw [shape_withCounts hresolved, Shape.rows, entries_membersRows_withCount hone]
  rfl

/-- The changed struct is spread like the first one. -/
theorem spread_withCounts (hresolved : (s.shape d).Everywhere AllResolved) (p : Nat) :
    ((s.withCounts d.name N).shape (d.withCounts N)).spread N p = (s.shape d).spread N p := by
  rw [shape_withCounts hresolved, Shape.spread, membersSpread_withCount]
  rfl

/-- No element of the changed struct is counted, and none below it was. -/
theorem uncounted_withCounts (hbelow : ∀ t, TransGen s.Refers d t → Uncounted t.elements)
    (hresolved : (s.shape d).Everywhere AllResolved) :
    ((s.withCounts d.name N).shape (d.withCounts N)).Everywhere (OfElements Uncounted) := by
  rw [shape_withCounts hresolved]
  refine ⟨?_, ?_⟩
  · intro e he
    simp only [elementsOf, List.map_map, List.mem_map, Function.comp_apply] at he
    obtain ⟨m, -, rfl⟩ := he
    rw [Member.element_withCount, Element.counter?_withCount]
  · rw [membersEverywhere_withCount, membersEverywhere_iff]
    exact fun m hm => uncounted_member hbelow hm

/-- The members of a struct whose alignments fit, with no counted arrays below its
own elements. -/
theorem outer_of_layout {name : String} {l : Layout}
    (hnames : ∀ t ∈ s.structs, Named t.elements) (haligns : ∀ t ∈ s.structs, s.Aligns t)
    (hd : s.root name = .ok d) (hl : s.layout name = .ok l)
    (hbelow : ∀ t, TransGen s.Refers d t → Uncounted t.elements)
    (hcounts : ∀ e ∈ d.elements, ∀ c, e.counter? = some c → 0 < N c) :
    ∀ m ∈ (s.shape d).members, m.Outer N d.alignment := by
  have hplaceable := placeable_of_layout hd hl
  have hmem := mem_structs_of_root hd
  obtain ⟨-, hregular⟩ : IsAlignment d.alignment ∧
      membersRegular d.alignment (s.shape d).members :=
    regular_shapeOf haligns (x := ⟨d, [d.name]⟩) hmem (hplaceable.mono fun _ h => h.resolved)
  rw [membersRegular_iff] at hregular
  have htimes : ∀ e ∈ d.elements, 0 < e.times N := by
    have hcountable := hplaceable.1.countable
    rw [elementsOf_member] at hcountable
    exact hcountable.times_pos hcounts
  intro m hm
  have helement := element_mem hm
  exact ⟨hregular m hm, uncounted_member hbelow hm, hnames d hmem _ helement, htimes _ helement⟩

end Schema

namespace View

/-- A field apart from its constant: what it is called and holds, and its places. -/
def entryOf (f : Field) : Row × Span × Span := (f.row, f.native, f.wire)

theorem map_entryOf_eq {fs gs : List Field} (hrow : fs.map Field.row = gs.map Field.row)
    (hnative : fs.map (·.native) = gs.map (·.native))
    (hwire : fs.map (·.wire) = gs.map (·.wire)) : fs.map entryOf = gs.map entryOf := by
  have hzip : ∀ fs : List Field, fs.map entryOf =
      (fs.map Field.row).zip ((fs.map (·.native)).zip (fs.map (·.wire))) := by
    intro fs
    rw [List.zip_map', List.zip_map']
    rfl
  rw [hzip, hzip, hrow, hnative, hwire]

/-- A record with counted arrays of its own lies like one with fixed arrays of the
same lengths: with the counts of a view in place of the counters, the schema has a
layout, and its fields are the elements of the view. -/
theorem layout_withCounts_of_openFull {s : Schema} {name : String} {d : StructDecl} {l : Layout}
    {r : Representation} {b : Bytes} {v : View} (hversion : s.version.isLegacy = false)
    (hpositions : ∀ t ∈ s.structs, Unpositioned t.elements)
    (hnames : ∀ t ∈ s.structs, Named t.elements) (haligns : ∀ t ∈ s.structs, s.Aligns t)
    (hd : s.root name = .ok d) (hl : s.layout name = .ok l)
    (hbelow : ∀ t, TransGen s.Refers d t → Uncounted t.elements)
    (hv : openFull l r b = .ok v)
    (hcounts : ∀ e ∈ d.elements, ∀ c, e.counter? = some c → 2 ≤ v.countAt c) :
    ∃ l', (s.withCounts name v.countAt).layout name = .ok l' ∧ l'.templates = [] ∧
      l'.fields.map entryOf = v.elements.map entryOf ∧ ∀ r', l'.size.bytes r' = v.bytes r' := by
  obtain ⟨-, hstruct⟩ := Schema.root_eq_ok_iff.mp hd
  obtain rfl := Schema.name_of_struct? hstruct
  have hresolved : (s.shape d).Everywhere AllResolved :=
    (Schema.placeable_of_layout hd hl).mono fun _ h => h.resolved
  have hopened := opened_of_openFull hv
  have hsound := Schema.sound_of_layout hd hl
  have hpacked := (Opening.full hv).packed hsound hpositions
  obtain ⟨hrows, -⟩ := rows_of_openFull hnames hd hl hv
  obtain ⟨rfl, -⟩ := openFull_eq_ok_iff.mp hv
  have hsome : ∀ e ∈ d.elements, ∀ c, e.counter? = some c → 0 < v.countAt c := by
    intro e he c hc
    have htwo := hcounts e he c hc
    omega
  have hmembers := Schema.outer_of_layout hnames haligns hd hl hbelow hsome
  have hone : ∀ m ∈ (s.shape d).members, ∀ c, m.element.counter? = some c → v.countAt c ≠ 1 := by
    intro m hm c hc
    have htwo := hcounts _ (Schema.element_mem hm) c hc
    omega
  obtain ⟨l', hl'⟩ := Schema.exists_layout_withCounts hd hl fun m hm => (hmembers m hm).times_pos
  have hd' := Schema.root_withCounts (N := v.countAt) hd
  -- natively both are the spread of the shape
  have htrail := Schema.trail_of_layout hversion hd hl hmembers
  have hversion' : (s.withCounts d.name v.countAt).version.isLegacy = false := hversion
  obtain ⟨htemplates, hspans, hstop⟩ := Schema.fixed_of_layout v.countAt hversion' hd' hl'
    (Schema.uncounted_withCounts hbelow hresolved)
  rw [Schema.spread_withCounts hresolved, ← htrail] at hspans hstop
  -- names, types and widths are the rows of the shape
  have hnames' : ∀ t ∈ (s.withCounts d.name v.countAt).structs, Named t.elements :=
    Schema.elements_withCounts (p := fun e => e.name ≠ "") (fun _ h => h) hnames
  have hrows' := Schema.map_row_of_layout hnames' hd' hl' htemplates v.countAt
  rw [Schema.rows_withCounts hresolved hone, hrows] at hrows'
  -- on the wire both are packed, so the widths say it all
  have hpositions' : ∀ t ∈ (s.withCounts d.name v.countAt).structs, Unpositioned t.elements :=
    Schema.elements_withCounts (p := fun e => e.position = none) (fun _ h => h) hpositions
  have hpacked' := (Schema.sound_of_layout hd' hl').wire hpositions'
  have hwidths : l'.fields.map (·.wire.size) = v.elements.map (·.wire.size) := by
    have hmap := congrArg (List.map Row.width) hrows'
    rw [List.map_map, List.map_map] at hmap
    exact hmap
  obtain ⟨hwire, hsize⟩ := hpacked'.map_wire_eq hpacked hwidths
  refine ⟨l', hl', htemplates, map_entryOf_eq hrows' ?_ hwire, ?_⟩
  · rw [hspans, elements, hopened.expanded_eq]
    rfl
  · have hnative : l'.size.native = v.extent.native := by
      rw [hopened.extent_eq]
      exact hstop
    intro r'
    cases r' with
    | native => exact congrArg bytesFor hnative
    | wire => exact congrArg bytesFor hsize

end View

/-! ## An example -/

/-- A waypoint of three bytes, padded to four. -/
def waypoint : StructDecl where
  name := "Waypoint"
  alignment := 2
  elements :=
    [ { Element.simple "x" "tInt16" (.fixed 1) (some 11) with alignment := 2 },
      .simple "y" "tUInt8" (.fixed 1) (some 5) ]

/-- Waypoints, as many as counted, and a number behind them. -/
def route : StructDecl where
  name := "Route"
  alignment := 4
  elements :=
    [ .simple "count" "tUInt8" (.fixed 1) (some 4),
      { Element.simple "points" "Waypoint" (.countedBy "count") none with alignment := 2 },
      { Element.simple "length" "tUInt32" (.fixed 1) none with alignment := 4 } ]

/-- Routes of waypoints. -/
def routes : Schema where
  version := ⟨3, 0⟩
  aliases := []
  enums := []
  structs := [waypoint, route]

theorem uncounted_routes : ∀ t, TransGen routes.Refers route t → Uncounted t.elements := by
  have hroute : ∀ u, routes.Refers route u → u = waypoint := by
    rintro u ⟨e, he, hmeaning⟩
    have hstruct := Schema.struct?_of_meaning? hmeaning
    simp only [route, List.mem_cons, List.not_mem_nil, or_false] at he
    rcases he with rfl | rfl | rfl <;>
      simp [Element.simple, Schema.struct?, routes, route, waypoint] at hstruct
    exact hstruct.symm
  have hwaypoint : ∀ u, ¬ routes.Refers waypoint u := by
    rintro u ⟨e, he, hmeaning⟩
    have hstruct := Schema.struct?_of_meaning? hmeaning
    simp only [waypoint, List.mem_cons, List.not_mem_nil, or_false] at he
    rcases he with rfl | rfl <;>
      simp [Element.simple, Schema.struct?, routes, route, waypoint] at hstruct
  intro t ht
  have hsame : t = waypoint := by
    induction ht with
    | single hstep => exact hroute _ hstep
    | tail _ hstep ih =>
      subst ih
      exact absurd hstep (hwaypoint _)
  subst hsame
  decide

/-- Two waypoints: the number behind them is padded to its alignment as it is behind a
fixed array. -/
theorem View.layout_withCounts_of_openFull_routes : ∃ d l v l', routes.root "Route" = .ok d ∧
    routes.layout "Route" = .ok l ∧
    openFull l .native [2, 0, 1, 0, 7, 0, 3, 0, 9, 0, 0, 0, 5, 0, 0, 0] = .ok v ∧
    (routes.withCounts "Route" v.countAt).layout "Route" = .ok l' ∧
    l'.fields.map entryOf = v.elements.map entryOf ∧
    v.elements.map (fun f => (f.name, f.native.offset / 8)) = [("count", 0), ("points[0].x", 2),
      ("points[0].y", 4), ("points[1].x", 6), ("points[1].y", 8), ("length", 12)] := by
  have haligns : ∀ t ∈ routes.structs, routes.Aligns t := by decide +kernel
  obtain ⟨d, l, v, hd, hl, hv, hp⟩ := @Schema.exists_view routes "Route" .native
    [2, 0, 1, 0, 7, 0, 3, 0, 9, 0, 0, 0, 5, 0, 0, 0]
    (fun d v => d = route ∧ v.countAt "count" = 2 ∧
      v.elements.map (fun f => (f.name, f.native.offset / 8)) = [("count", 0), ("points[0].x", 2),
        ("points[0].y", 4), ("points[1].x", 6), ("points[1].y", 8), ("length", 12)])
    (by decide +kernel)
  obtain ⟨rfl, hcount, hplaces⟩ := of_decide_eq_true hp
  have hcounts : ∀ e ∈ route.elements, ∀ c, e.counter? = some c → 2 ≤ v.countAt c := by
    intro e he c hc
    have hcounter : c = "count" := by
      simp only [route, List.mem_cons, List.not_mem_nil, or_false] at he
      rcases he with rfl | rfl | rfl <;> simp_all [Element.simple, Element.counter?]
    rw [hcounter]
    exact Nat.le_of_eq hcount.symm
  obtain ⟨l', hl', -, hfields, -⟩ := View.layout_withCounts_of_openFull rfl (by decide)
    (by decide) haligns hd hl uncounted_routes hv hcounts
  exact ⟨route, l, v, l', hd, hl, hv, hl', hfields, hplaces⟩

end WireRecord
