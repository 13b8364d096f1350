/-
WireRecord.Proofs.TallyTheorems — what the templates of a layout count up to.

Expansion tells the padding at the end of a struct from an array or a struct by the
name alone: a template without one is a marker and stands for nothing. The compiler
makes a template in two places, for the padding (`Template.Pads`) and for the items
of an element (`Template.MadeFor`), and it puts the name of the second together from
the path of the struct and the name of the element. It is empty when both are, so
the scalars of an element without a name can be taken for padding: `unnamed` has one.

How many fields the templates stand for is their `tally`. A full view has that many
less those of the markers, whatever the names are, and where every element has a name
no marker stands for an element.
-/
import WireRecord.Proofs.UnfoldingTheorems

namespace WireRecord

/-! ## What templates are made for -/

mutual

/-- A template and those inside it, the outer one first. -/
def Template.parts : Template → List Template
  | ⟨name, alignment, counter, size, fields, children⟩ =>
    ⟨name, alignment, counter, size, fields, children⟩ :: templateParts children

/-- Some templates and those inside them. -/
def templateParts : List Template → List Template
  | [] => []
  | t :: rest => t.parts ++ templateParts rest

end

theorem Template.parts_eq (t : Template) : t.parts = t :: templateParts t.children := by
  obtain ⟨name, alignment, counter, size, fields, children⟩ := t
  rw [parts]

theorem templateParts_append (ts us : List Template) :
    templateParts (ts ++ us) = templateParts ts ++ templateParts us := by
  induction ts with
  | nil => rfl
  | cons t rest ih => rw [List.cons_append, templateParts, templateParts, ih, List.append_assoc]

/-- Whether a template pads the end of a struct. -/
def Template.Pads (t : Template) : Prop := ∃ a, 1 < a ∧ t = .marker a

/-- The names of the templates of an element in a struct whose members are named below
a path: one for each item of a fixed array, one for all items that are counted. -/
def Element.templateNames (e : Element) (path : String) : List String :=
  match e.repetition with
  | .fixed n => (List.range n).map fun i => Path.itemOf (Path.join path e.name) i n
  | .countedBy _ => [Path.join path e.name]

/-- Whether a template stands for items of an element, in a struct whose members are
named below a path. -/
structure Template.MadeFor (t : Template) (e : Element) (path : String) : Prop where
  name_mem : t.name ∈ e.templateNames path
  counter_eq : t.counter = e.counter?.map (Path.join path)

namespace Path

theorem join_eq_empty_iff {path name : String} : join path name = "" ↔ path = "" ∧ name = "" := by
  constructor
  · intro h
    by_cases hn : name = ""
    · rw [hn, join_empty_right] at h
      exact ⟨h, hn⟩
    · exact absurd h (join_ne_empty hn)
  · rintro ⟨rfl, rfl⟩
    exact join_empty_left ""

theorem itemOf_eq_empty_iff {path : String} {i n : Nat} : itemOf path i n = "" ↔ path = "" ∧ n = 1 := by
  unfold itemOf
  split <;> simp [*, item_ne_empty]

end Path

/-- A template that stands for items of an element passes for a marker when neither the
element nor the struct it is in has a name, unless there are several items with an index
each. -/
theorem Template.MadeFor.isMarker_iff {t : Template} {e : Element} {path : String}
    (h : t.MadeFor e path) : t.isMarker = true ↔
      path = "" ∧ e.name = "" ∧ ∀ n, e.repetition = .fixed n → n = 1 := by
  have hname := h.name_mem
  have hmarker : t.isMarker = true ↔ t.name = "" := by simp [isMarker]
  unfold Element.templateNames at hname
  cases hr : e.repetition with
  | fixed n =>
    rw [hr] at hname
    obtain ⟨i, -, hi⟩ := List.mem_map.mp hname
    rw [hmarker, ← hi, Path.itemOf_eq_empty_iff, Path.join_eq_empty_iff, and_assoc]
    simp
  | countedBy c =>
    rw [hr] at hname
    rw [hmarker, List.mem_singleton.mp hname, Path.join_eq_empty_iff]
    simp

/-- Whether a template pads, or stands for items of an element with a property. -/
def Template.Made (p : Element → Prop) (t : Template) : Prop :=
  t.Pads ∨ ∃ e path, p e ∧ t.MadeFor e path

/-- Whether all templates of a draft were made so, and those inside them. -/
def Draft.Made (p : Element → Prop) (d : Draft) : Prop :=
  ∀ t ∈ templateParts d.templates, t.Made p

section Made

variable {p : Element → Prop}

theorem Draft.Made.addTemplate {d : Draft} (hd : d.Made p) {t : Template} (ht : t.Made p)
    (hchildren : ∀ u ∈ templateParts t.children, u.Made p) : (d.addTemplate t).Made p := by
  intro u hu
  rw [Draft.addTemplate, templateParts_append] at hu
  rcases List.mem_append.mp hu with hu | hu
  · exact hd u hu
  · rw [templateParts, templateParts, List.append_nil, Template.parts_eq] at hu
    rcases List.mem_cons.mp hu with rfl | hu
    · exact ht
    · exact hchildren u hu

theorem Draft.Made.pad {d : Draft} (hd : d.Made p) (alignment : Nat) : (d.pad alignment).Made p := by
  unfold Draft.pad
  split
  · split
    · exact hd.addTemplate (.inl ⟨alignment, ‹_›, rfl⟩) fun u hu => (List.not_mem_nil hu).elim
    · exact hd
  · exact hd

/-- Whether a rule keeps to such templates: those of an item go by the name and the
counter they are given. -/
structure ItemRule.Makes (p : Element → Prop) (rule : ItemRule) : Prop where
  place : ∀ {name : String} {last : Bool} {d d' : Draft}, Yields (rule.place name last d) d' →
    d.Made p → d'.Made p
  template : ∀ {name : String} {counter : Option String} {last : Bool} {t : Template},
    Yields (rule.template name counter last) t →
    t.name = name ∧ t.counter = counter ∧ ∀ u ∈ templateParts t.children, u.Made p

theorem Items.made {rule : ItemRule} (hrule : rule.Makes p) {items : List (String × Bool)}
    {d d' : Draft} (h : Items rule items d d')
    (hitem : ∀ i ∈ items, ∀ t : Template, t.name = i.1 → t.counter = none → t.Made p)
    (hd : d.Made p) : d'.Made p := by
  induction h with
  | nil => exact hd
  | cons hadds _ ih =>
    refine ih (fun i hi => hitem i (List.mem_cons_of_mem _ hi)) ?_
    unfold ItemRule.Adds at hadds
    split at hadds
    · obtain ⟨t, ht, rfl⟩ := hadds
      obtain ⟨hname, hcounter, hchildren⟩ := hrule.template ht
      exact hd.addTemplate (hitem _ List.mem_cons_self t hname hcounter) hchildren
    · exact hrule.place hadds hd

theorem Element.Placed.made {e : Element} {scope : Scope} {path : String} {earlier : List String}
    {rule : ItemRule} {d d' : Draft} (h : e.Placed scope path earlier rule d d')
    (hrule : rule.Makes p) (he : p e) (hd : d.Made p) : d'.Made p := by
  cases h with
  | @fixed n start repetition _ starts items =>
    have hstart : start.Made p := by
      cases starts <;> exact hd
    refine items.made hrule (fun i hi t hname hcounter => ?_) hstart
    obtain ⟨k, hk, rfl⟩ := List.mem_map.mp hi
    refine .inr ⟨e, path, he, ?_, ?_⟩
    · rw [Element.templateNames, repetition, hname]
      exact List.mem_map.mpr ⟨k, hk, rfl⟩
    · rw [hcounter, Element.counter?, repetition]
      rfl
  | counted repetition _ template eq =>
    obtain ⟨hname, hcounter, hchildren⟩ := hrule.template template
    subst eq
    refine Draft.Made.addTemplate (d := { d with varies := true }) hd
      (.inr ⟨e, path, he, ?_, ?_⟩) hchildren
    · rw [Element.templateNames, repetition, hname]
      exact List.mem_singleton_self _
    · rw [hcounter, Element.counter?, repetition]
      rfl

theorem ItemRule.makes_leaf (e : Element) (scope : Scope) (owner : String) (type : Scalar)
    (table : Option EnumTable) : (ItemRule.leaf e scope owner type table).Makes p where
  place h hd := by
    obtain ⟨f, -, rfl⟩ := leaf_place h
    exact hd
  template h := by
    obtain ⟨f, -, rfl⟩ := leaf_template h
    exact ⟨rfl, rfl, fun u hu => (List.not_mem_nil hu).elim⟩

mutual

/-- Placing a shape makes templates for its padding and its elements only. -/
theorem Shape.place_made : ∀ (shape : Shape) {scope : Scope} {path : String} {last : Bool}
    {d d' : Draft}, Yields (shape.place scope path last d) d' →
    shape.Everywhere (OfElements fun es => ∀ e ∈ es, p e) → d.Made p → d'.Made p
  | .mk _ alignment members, scope, _, last, _, _, h, hp, hd => by
      obtain ⟨mid, hmid, rfl⟩ := Shape.place_yields h
      have hmade := placeMembers_made members hmid hp.1 hp.2 hd
      split
      · exact hmade
      · exact hmade.pad alignment

theorem placeMembers_made : ∀ (members : List Member) {scope : Scope} {owner path : String}
    {base : Nat} {earlier : List String} {d d' : Draft},
    Yields (placeMembers scope owner path base earlier d members) d' →
    (∀ e ∈ elementsOf members, p e) →
    membersEverywhere (OfElements fun es => ∀ e ∈ es, p e) members → d.Made p → d'.Made p
  | [], _, _, _, _, _, _, _, h, _, _, hd => by
      rw [placeMembers_nil_yields h]
      exact hd
  | m :: rest, _, _, _, _, _, _, _, h, hp, hin, hd => by
      obtain ⟨mid, hm, hrest⟩ := placeMembers_cons_yields h
      exact placeMembers_made rest hrest (fun e he => hp e (List.mem_cons_of_mem _ he)) hin.2
        (m.place_made hm (hp _ List.mem_cons_self) hin.1 hd)

theorem Member.place_made : ∀ (m : Member) {scope : Scope} {owner path : String} {base : Nat}
    {earlier : List String} {d d' : Draft}, Yields (m.place scope owner path base earlier d) d' →
    p m.element → m.Everywhere (OfElements fun es => ∀ e ∈ es, p e) → d.Made p → d'.Made p
  | .leaf e type table, scope, owner, _, _, _, _, _, h, he, _, hd => by
      rw [Member.place] at h
      exact (Element.place_yields h).made (ItemRule.makes_leaf e scope owner type table) he hd
  | .nested e shape, _, _, _, _, _, _, _, h, he, hin, hd => by
      rw [Member.place] at h
      refine (Element.place_yields h).made ⟨fun hplace hd => ?_, fun htemplate => ?_⟩ he hd
      · rw [ItemRule.nested_place] at hplace
        exact shape.place_made hplace hin hd
      · obtain ⟨draft, hdraft, rfl⟩ := ItemRule.nested_template htemplate
        exact ⟨rfl, rfl, shape.place_made hdraft hin fun u hu => (List.not_mem_nil hu).elim⟩
  | .cyclic _ _ _, _, _, _, _, _, _, _, h, _, _, _ => (Member.resolved_of_yields h).elim
  | .unresolved _ _, _, _, _, _, _, _, _, h, _, _, _ => (Member.resolved_of_yields h).elim

end

end Made

/-- Every template of a layout, and every one inside another, pads or stands for items of
an element of the schema. -/
theorem Schema.made_of_layout {s : Schema} {name : String} {d : StructDecl} {l : Layout}
    (hd : s.root name = .ok d) (hl : s.layout name = .ok l) :
    ∀ t ∈ templateParts l.templates, t.Made fun e => ∃ u ∈ s.structs, e ∈ u.elements := by
  obtain ⟨draft, hdraft, -, htemplates, -⟩ := Schema.layout_eq_ok hd hl
  rw [htemplates]
  refine (s.shape d).place_made hdraft ?_ fun t ht => (List.not_mem_nil ht).elim
  exact Schema.shape_everywhere (fun u hu e he => ⟨u, hu, he⟩) (Schema.mem_structs_of_root hd)

/-! ## How many fields templates stand for -/

mutual

/-- The number of fields that the instances of a template and all that is inside them
have, given what the counters hold. -/
def Template.tally (N : String → Nat) (path : String) : Template → Nat
  | ⟨name, _, counter, _, fields, children⟩ =>
    ((Template.instances N path name counter).map fun p =>
      fields.length + templatesTally N p children).sum

/-- The number for templates that follow one another. -/
def templatesTally (N : String → Nat) (path : String) : List Template → Nat
  | [] => 0
  | t :: rest => t.tally N path + templatesTally N path rest

end

mutual

/-- The number of these fields that belong to markers. -/
def Template.lost (N : String → Nat) (path : String) : Template → Nat
  | ⟨name, alignment, counter, size, fields, children⟩ =>
    if name.isEmpty then Template.tally N path ⟨name, alignment, counter, size, fields, children⟩
    else ((Template.instances N path name counter).map fun p => templatesLost N p children).sum

/-- The number for templates that follow one another. -/
def templatesLost (N : String → Nat) (path : String) : List Template → Nat
  | [] => 0
  | t :: rest => t.lost N path + templatesLost N path rest

end

section Tally

variable (N : String → Nat)

/-- Instances in series, with what each of them finds and loses. -/
theorem length_inSeries {one : String → Extent → List (Mark Field) × Extent}
    {lost tally : String → Nat}
    (hone : ∀ p start, (Mark.entries (one p start).1).length + lost p = tally p)
    (ps : List String) (start : Extent) :
    (Mark.entries (inSeries one ps start).1).length + (ps.map lost).sum = (ps.map tally).sum := by
  induction ps generalizing start with
  | nil => rfl
  | cons p rest ih =>
    have hfirst := hone p start
    have hrest := ih (one p start).2
    simp only [inSeries, Mark.entries_append, List.length_append, List.map_cons, List.sum_cons]
    omega

mutual

/-- A template is found as its tally, but for what belongs to markers. -/
theorem Template.length_marks : ∀ (t : Template) (path : String) (start : Extent),
    (Mark.entries (t.marks N path start).1).length + t.lost N path = t.tally N path
  | ⟨name, alignment, counter, size, fields, children⟩, path, start => by
      by_cases hname : name = ""
      · rw [Template.marks_of_isEmpty hname, Template.lost, if_pos (by simpa using hname)]
        exact Nat.zero_add _
      · rw [Template.marks_of_ne hname, Template.lost, if_neg (by simpa using hname),
          Template.tally, Mark.entries_append, Template.entries_asked, List.nil_append]
        refine length_inSeries (fun p position => ?_) _ _
        have hchildren := templateMarks_length children p (position.align alignment + size)
        simp only [Template.instanceMarks, Mark.entries_append, Mark.entries_map_entry,
          List.length_append, Template.placed, List.length_map]
        omega

theorem templateMarks_length : ∀ (ts : List Template) (path : String) (start : Extent),
    (Mark.entries (templateMarks N path start ts).1).length + templatesLost N path ts =
      templatesTally N path ts
  | [], _, _ => rfl
  | t :: rest, path, start => by
      have hfirst := t.length_marks path start
      have hrest := templateMarks_length rest path (t.marks N path start).2
      simp only [templateMarks, templatesLost, templatesTally, Mark.entries_append,
        List.length_append]
      omega

end

mutual

/-- Padding has no fields, so nothing is lost where only padding passes for a marker. -/
theorem Template.lost_eq_zero : ∀ (t : Template) (path : String),
    (∀ u ∈ t.parts, u.isMarker = true → u.Pads) → t.lost N path = 0
  | ⟨name, alignment, counter, size, fields, children⟩, path, h => by
      rw [Template.parts] at h
      obtain ⟨hself, hchildren⟩ := List.forall_mem_cons.mp h
      rw [Template.lost]
      split
      · rename_i hname
        obtain ⟨a, -, heq⟩ := hself hname
        rw [heq]
        rfl
      · refine List.sum_eq_zero_iff_forall_eq_nat.mpr fun x hx => ?_
        obtain ⟨p, -, rfl⟩ := List.mem_map.mp hx
        exact templatesLost_eq_zero children p hchildren

theorem templatesLost_eq_zero : ∀ (ts : List Template) (path : String),
    (∀ u ∈ templateParts ts, u.isMarker = true → u.Pads) → templatesLost N path ts = 0
  | [], _, _ => rfl
  | t :: rest, path, h => by
      rw [templateParts] at h
      obtain ⟨hfirst, hrest⟩ := List.forall_mem_append.mp h
      rw [templatesLost, t.lost_eq_zero path hfirst, templatesLost_eq_zero rest path hrest]

end

end Tally

namespace View

/-- A full view has as many elements behind the fixed part as its templates stand for,
less those of templates that stand for elements but pass for markers. These are the
elements without a name in a struct without a name, so where all elements have names
none is lost. -/
theorem length_expanded_of_openFull {s : Schema} {name : String} {d : StructDecl} {l : Layout}
    {r : Representation} {b : Bytes} {v : View} (hd : s.root name = .ok d)
    (hl : s.layout name = .ok l) (hv : openFull l r b = .ok v) :
    (∀ t ∈ templateParts l.templates, t.Pads ∨ ∃ u ∈ s.structs, ∃ e ∈ u.elements, ∃ path,
      t.MadeFor e path ∧ (t.isMarker = true ↔
        path = "" ∧ e.name = "" ∧ ∀ n, e.repetition = .fixed n → n = 1)) ∧
    v.expanded.length + templatesLost v.countAt "" l.templates =
      templatesTally v.countAt "" l.templates ∧
    ((∀ u ∈ s.structs, Named u.elements) →
      (∀ t ∈ templateParts l.templates, t.isMarker = true → t.Pads) ∧
      v.expanded.length = templatesTally v.countAt "" l.templates ∧
      v.elements.map Field.row = Mark.entries ((s.shape d).rows v.countAt "")) := by
  have hmade : ∀ t ∈ templateParts l.templates, t.Pads ∨ ∃ u ∈ s.structs, ∃ e ∈ u.elements,
      ∃ path, t.MadeFor e path ∧ (t.isMarker = true ↔
        path = "" ∧ e.name = "" ∧ ∀ n, e.repetition = .fixed n → n = 1) := by
    intro t ht
    rcases Schema.made_of_layout hd hl t ht with hpads | ⟨e, path, ⟨u, hu, he⟩, hmade⟩
    · exact .inl hpads
    · exact .inr ⟨u, hu, e, he, path, hmade, hmade.isMarker_iff⟩
  have hlength : v.expanded.length + templatesLost v.countAt "" l.templates =
      templatesTally v.countAt "" l.templates := by
    have hopened := opened_of_openFull hv
    obtain ⟨rfl, -⟩ := openFull_eq_ok_iff.mp hv
    rw [hopened.expanded_eq]
    exact templateMarks_length v.countAt v.layout.templates "" v.layout.size
  refine ⟨hmade, hlength, fun hnames => ?_⟩
  have hmarkers : ∀ t ∈ templateParts l.templates, t.isMarker = true → t.Pads := by
    intro t ht hmarker
    rcases hmade t ht with hpads | ⟨u, hu, e, he, path, -, hiff⟩
    · exact hpads
    · exact absurd (hiff.mp hmarker).2.1 (hnames u hu e he)
  rw [templatesLost_eq_zero _ _ _ hmarkers] at hlength
  exact ⟨hmarkers, hlength, (rows_of_openFull hnames hd hl hv).1.symm⟩

/-- Two chunks with three numbers: five elements behind the fixed part, two of them the
counters that the chunks begin with. -/
theorem length_expanded_of_openFull_chunks : ∃ l v, chunks.layout "Record" = .ok l ∧
    openFull l .wire [0x32, 0xA5, 0x2F, 0x80, 0x01, 0x7C] = .ok v ∧
    (∀ t ∈ templateParts l.templates, t.isMarker = true → t.Pads) ∧
    v.expanded.length = 5 ∧ templatesTally v.countAt "" l.templates = 5 := by
  obtain ⟨d, l, v, hd, hl, hv, hp⟩ := @Schema.exists_view chunks "Record" .wire
    [0x32, 0xA5, 0x2F, 0x80, 0x01, 0x7C] (fun _ v => v.expanded.length = 5) (by decide +kernel)
  obtain ⟨-, -, hnamed⟩ := length_expanded_of_openFull hd hl hv
  obtain ⟨hmarkers, hlength, -⟩ := hnamed (by decide)
  have hfive : v.expanded.length = 5 := of_decide_eq_true hp
  exact ⟨l, v, hl, hv, hmarkers, hfive, hlength.symm.trans hfive⟩

end View

/-! ## An element without a name -/

/-- A counted array with a scalar behind it that has no name. -/
def unnamed : Schema where
  version := ⟨3, 0⟩
  aliases := []
  enums := []
  structs :=
    [ { name := "Record", alignment := 1
        elements :=
          [ .simple "n" "tUInt8" (.fixed 1) none,
            .simple "items" "tUInt8" (.countedBy "n") none,
            .simple "" "tUInt8" (.fixed 1) none ] } ]

/-- The scalar behind the array has a template with a field, which passes for a marker:
the record of a single item has one element behind the fixed part and not two. -/
theorem View.not_length_expanded_unnamed : ∃ l v, unnamed.layout "Record" = .ok l ∧
    openFull l .native [1, 5, 7] = .ok v ∧
    (∃ t ∈ templateParts l.templates, t.isMarker = true ∧ t.fields.length = 1 ∧
      ∃ u ∈ unnamed.structs, ∃ e ∈ u.elements, ∃ path, t.MadeFor e path) ∧
    v.expanded.length = 1 ∧ templatesTally v.countAt "" l.templates = 2 := by
  obtain ⟨d, l, v, hd, hl, hv, hp⟩ := @Schema.exists_view unnamed "Record" .native [1, 5, 7]
    (fun _ v => (∃ t ∈ templateParts v.layout.templates, t.isMarker = true ∧ t.fields.length = 1) ∧
      v.expanded.length = 1 ∧ templatesTally v.countAt "" v.layout.templates = 2)
    (by decide +kernel)
  obtain ⟨⟨t, ht, hmarker, hfields⟩, hlength, htally⟩ := of_decide_eq_true hp
  obtain ⟨rfl, -⟩ := openFull_eq_ok_iff.mp hv
  refine ⟨v.layout, v, hl, hv, ⟨t, ht, hmarker, hfields, ?_⟩, hlength, htally⟩
  rcases Schema.made_of_layout hd hl t ht with ⟨a, -, rfl⟩ | ⟨e, path, ⟨u, hu, he⟩, hmade⟩
  · cases hfields
  · exact ⟨u, hu, e, he, path, hmade⟩

end WireRecord
