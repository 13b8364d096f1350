/-
WireRecord.Proofs.RowTheorems — compiling keeps the rows.

A layout no longer shows the struct it came from: what stands in the variable
part was turned into templates at any depth, and names are relative there. But
the rows its marks stand for are still those of the shape, in the same order and
with the counters asked for at the same points (`Schema.rows_of_layout`).

Each item that is placed adds its rows to those of the draft, whether as fields
or as a template, `Draft.Grows`. The induction is over the shape, for a draft
under any path, since the draft of a template is used under the paths of all its
instances.
-/
import WireRecord.Proofs.LayoutTheorems
import WireRecord.Proofs.Unfolding

namespace WireRecord

/-! ## Rows of templates -/

/-- The row of a field in an instance at a path. -/
def Field.rowAt (path : String) (f : Field) : Row := { f.row with name := Path.join path f.name }

mutual

/-- The rows of the instances of a template, and the counters asked for. -/
def Template.rows (N : String → Nat) (path : String) : Template → List (Mark Row)
  | ⟨name, _, counter, _, fields, children⟩ =>
    if name.isEmpty then []
    else Template.asked path counter ++ (Template.instances N path name counter).flatMap fun p =>
      fields.map (fun f => .entry (f.rowAt p)) ++ templateRows N p children

/-- The rows of templates that follow one another. -/
def templateRows (N : String → Nat) (path : String) : List Template → List (Mark Row)
  | [] => []
  | t :: rest => t.rows N path ++ templateRows N path rest

end

theorem Template.rows_of_ne {t : Template} (h : t.name ≠ "") (N : String → Nat) (path : String) :
    t.rows N path = Template.asked path t.counter ++
      (Template.instances N path t.name t.counter).flatMap fun p =>
        t.fields.map (fun f => .entry (f.rowAt p)) ++ templateRows N p t.children := by
  obtain ⟨name, alignment, counter, size, fields, children⟩ := t
  have hname : name.isEmpty = false := by simpa using h
  rw [Template.rows, hname]
  rfl

theorem templateRows_append (N : String → Nat) (path : String) (ts us : List Template) :
    templateRows N path (ts ++ us) = templateRows N path ts ++ templateRows N path us := by
  induction ts with
  | nil => rfl
  | cons t rest ih => simp [templateRows, ih]

/-- Instances in series, seen through what is said of their fields. -/
theorem map_inSeries {one : String → Extent → List (Mark Field) × Extent}
    {rows : String → List (Mark Row)}
    (hone : ∀ p start, (one p start).1.map (Mark.map Field.row) = rows p)
    (ps : List String) (start : Extent) :
    (inSeries one ps start).1.map (Mark.map Field.row) = ps.flatMap rows := by
  induction ps generalizing start with
  | nil => rfl
  | cons p rest ih => simp [inSeries, hone, ih]

mutual

/-- The rows do not depend on where the instances lie. -/
theorem Template.map_marks (N : String → Nat) : ∀ (t : Template) (path : String) (start : Extent),
    (t.marks N path start).1.map (Mark.map Field.row) = t.rows N path
  | ⟨name, alignment, counter, size, fields, children⟩, path, start => by
      by_cases hname : name = ""
      · rw [Template.marks_of_isEmpty hname, Template.rows]
        simp [hname]
      · rw [Template.marks_of_ne hname, Template.rows_of_ne hname, List.map_append]
        congr 1
        · cases counter <;> rfl
        · refine map_inSeries (fun p position => ?_) _ _
          have ih := templateRows_map_marks N children p
            (position.align alignment + size)
          rw [Template.instanceMarks, List.map_append, ih, List.map_map, Template.placed,
            List.map_map]
          rfl

theorem templateRows_map_marks (N : String → Nat) : ∀ (ts : List Template) (path : String)
    (start : Extent),
    (templateMarks N path start ts).1.map (Mark.map Field.row) = templateRows N path ts
  | [], _, _ => rfl
  | t :: rest, path, start => by
      rw [templateMarks, templateRows, List.map_append, t.map_marks N path start,
        templateRows_map_marks N rest path]

end

/-! ## Rows of drafts -/

/-- The rows of a draft whose fields and templates are named below a path. -/
def Draft.rows (N : String → Nat) (path : String) (d : Draft) : List (Mark Row) :=
  d.fields.map (fun f => .entry (f.rowAt path)) ++ templateRows N path d.templates

/-- Whether a draft became another one by adding some rows. As long as it does not
vary it has no templates, so fields can be added at the end. -/
structure Draft.Grows (N : String → Nat) (path : String) (d d' : Draft)
    (rows : List (Mark Row)) : Prop where
  rows_eq : d'.rows N path = d.rows N path ++ rows
  no_templates : d'.varies = false → d'.templates = []

namespace Draft.Grows

variable {N : String → Nat} {q : String} {d d' mid : Draft} {rows more : List (Mark Row)}

theorem refl (h : d.varies = false → d.templates = []) : Draft.Grows N q d d [] :=
  ⟨by rw [List.append_nil], h⟩

theorem trans (h1 : Draft.Grows N q d mid rows) (h2 : Draft.Grows N q mid d' more) :
    Draft.Grows N q d d' (rows ++ more) :=
  ⟨by rw [h2.rows_eq, h1.rows_eq, List.append_assoc], h2.no_templates⟩

theorem addField (hd : d.templates = []) (f : Field) :
    Draft.Grows N q d (d.addField f) [.entry (f.rowAt q)] where
  rows_eq := by simp [Draft.rows, Draft.addField, hd, templateRows]
  no_templates _ := hd

theorem addTemplate (hd : d.varies = true) (t : Template) :
    Draft.Grows N q d (d.addTemplate t) (t.rows N q) where
  rows_eq := by
    simp only [Draft.rows, Draft.addTemplate, templateRows_append, templateRows, List.append_nil,
      List.append_assoc]
  no_templates h := by
    rw [Draft.addTemplate, hd] at h
    cases h

theorem pad (h : d.varies = false → d.templates = []) (alignment : Nat) :
    Draft.Grows N q d (d.pad alignment) [] := by
  unfold Draft.pad
  split
  · rename_i hv
    split
    · have hmarker : (Template.marker alignment).rows N q = [] := rfl
      rw [← hmarker]
      exact addTemplate hv _
    · exact refl h
  · exact ⟨by rw [List.append_nil]; rfl, h⟩

end Draft.Grows

/-! ## Rows of elements -/

theorem Element.FieldAt.rowAt_eq {e : Element} {type : Scalar} {table : Option EnumTable}
    {name : String} {start : Extent} {f : Field} (h : e.FieldAt type table name start f)
    (q : String) : f.rowAt q = e.row type table (Path.join q name) := by
  rw [Field.rowAt, Field.row, Element.row, h.name_eq, h.type_eq, h.table_eq, h.order_eq,
    h.wire_eq]

/-- Whether a rule lays out items with some rows, in a record below a path. -/
structure ItemRule.Shows (rule : ItemRule) (N : String → Nat) (q : String)
    (itemRows : String → List (Mark Row)) : Prop where
  place : ∀ {name : String} {last : Bool} {d d' : Draft}, Yields (rule.place name last d) d' →
    d.varies = false → d.templates = [] → d.Grows N q d' (itemRows (Path.join q name))
  template : ∀ {name : String} {counter : Option String} {last : Bool} {t : Template},
    name ≠ "" → Yields (rule.template name counter last) t →
    t.rows N q = Template.asked q counter ++ (Template.instances N q name counter).flatMap itemRows

section Placed

variable {N : String → Nat} {q : String} {itemRows : String → List (Mark Row)} {e : Element}
  {scope : Scope} {path : String} {earlier : List String} {rule : ItemRule} {d d' : Draft}

theorem ItemRule.Adds.grows {name : String} {last : Bool} (h : rule.Adds name last d d')
    (hrule : rule.Shows N q itemRows) (hname : name ≠ "")
    (hd : d.varies = false → d.templates = []) :
    d.Grows N q d' (itemRows (Path.join q name)) := by
  unfold ItemRule.Adds at h
  split at h
  · rename_i hv
    obtain ⟨t, ht, rfl⟩ := h
    have hrows := hrule.template hname ht
    rw [Template.asked, Template.instances, List.flatMap_singleton, List.nil_append] at hrows
    rw [← hrows]
    exact .addTemplate hv t
  · rename_i hv
    have hfixed : d.varies = false := by simpa using hv
    exact hrule.place h hfixed (hd hfixed)

theorem Items.grows {items : List (String × Bool)} (h : Items rule items d d')
    (hrule : rule.Shows N q itemRows) (hnames : ∀ i ∈ items, i.1 ≠ "")
    (hd : d.varies = false → d.templates = []) :
    d.Grows N q d' (items.flatMap fun i => itemRows (Path.join q i.1)) := by
  induction h with
  | nil => exact .refl hd
  | cons hadds _ ih =>
    have hfirst := hadds.grows hrule (hnames _ List.mem_cons_self) hd
    have hrest := ih (fun i hi => hnames i (List.mem_cons_of_mem _ hi)) hfirst.no_templates
    rw [List.flatMap_cons]
    exact hfirst.trans hrest

theorem Element.Starts.rows_eq (h : e.Starts scope d d') : d'.rows N q = d.rows N q := by
  cases h <;> rfl

theorem Element.Starts.no_templates (h : e.Starts scope d d')
    (hd : d.varies = false → d.templates = []) : d'.varies = false → d'.templates = [] := by
  cases h <;> exact hd

/-- An element adds the rows of its items, behind its counter. -/
theorem Element.Placed.grows (h : e.Placed scope path earlier rule d d')
    (hrule : rule.Shows N q itemRows) (hname : e.name ≠ "")
    (hd : d.varies = false → d.templates = []) :
    d.Grows N q d' (Template.asked (Path.join q path) e.counter? ++
      (e.instances N (Path.join q path)).flatMap itemRows) := by
  have hwhole : Path.join path e.name ≠ "" := Path.join_ne_empty hname
  cases h with
  | @fixed n start repetition pos starts items =>
    have hitems := items.grows hrule (fun i hi => by
      obtain ⟨k, -, rfl⟩ := List.mem_map.mp hi
      exact Path.itemOf_ne_empty hwhole k n) (starts.no_templates hd)
    have hrows : (e.fixedItems path n).flatMap (fun i => itemRows (Path.join q i.1)) =
        (e.instances N (Path.join q path)).flatMap itemRows := by
      simp only [Element.fixedItems, Element.instances, repetition, List.flatMap_map,
        Path.join_itemOf hwhole, Path.join_assoc]
    rw [Element.counter?, repetition, Template.asked, List.nil_append, ← hrows]
    exact ⟨by rw [hitems.rows_eq, starts.rows_eq], hitems.no_templates⟩
  | @counted c t repetition mem template eq =>
    have hrows := hrule.template hwhole template
    have hgrows : ({ d with varies := true } : Draft).Grows N q d' (t.rows N q) := by
      rw [eq]
      exact .addTemplate rfl t
    rw [hrows] at hgrows
    have hasked : Template.asked q (some (Path.join path c)) =
        (Template.asked (Path.join q path) e.counter? : List (Mark Row)) := by
      simp only [Element.counter?, repetition, Template.asked, Path.join_assoc]
    have hinstances : Template.instances N q (Path.join path e.name) (some (Path.join path c)) =
        e.instances N (Path.join q path) := by
      simp only [Element.instances, repetition, Template.instances, Path.join_assoc]
    rw [hasked, hinstances] at hgrows
    exact ⟨hgrows.rows_eq, hgrows.no_templates⟩

end Placed

theorem ItemRule.shows_leaf (N : String → Nat) (q : String) (e : Element) (scope : Scope)
    (owner : String) (type : Scalar) (table : Option EnumTable) :
    (ItemRule.leaf e scope owner type table).Shows N q fun p => [.entry (e.row type table p)] where
  place h _ hd := by
    obtain ⟨f, hf, rfl⟩ := ItemRule.leaf_place h
    have hrow := hf.rowAt_eq q
    rw [← hrow]
    exact .addField hd f
  template hname h := by
    obtain ⟨f, hf, rfl⟩ := ItemRule.leaf_template h
    rw [Template.rows_of_ne hname]
    congr 2
    funext p
    have hrow := hf.rowAt_eq p
    rw [Path.join_empty_right] at hrow
    rw [List.map_singleton, hrow]
    rfl

/-! ## Rows of shapes -/

mutual

/-- Placing a shape adds its rows to a draft. -/
theorem Shape.place_grows (N : String → Nat) : ∀ (shape : Shape) (q : String) {scope : Scope}
    {path : String} {last : Bool} {d d' : Draft}, Yields (shape.place scope path last d) d' →
    shape.Everywhere (OfElements Named) → (d.varies = false → d.templates = []) →
    d.Grows N q d' (shape.rows N (Path.join q path))
  | .mk name alignment members, q, scope, path, last, d, d', h, hnames, hd => by
      obtain ⟨mid, hmid, rfl⟩ := Shape.place_yields h
      have hgrows := placeMembers_grows N members q hmid hnames.1 hnames.2 hd
      split
      · exact hgrows
      · have hpad := hgrows.trans (.pad hgrows.no_templates alignment)
        rw [List.append_nil] at hpad
        exact hpad

theorem placeMembers_grows (N : String → Nat) : ∀ (members : List Member) (q : String)
    {scope : Scope} {owner path : String} {base : Nat} {earlier : List String} {d d' : Draft},
    Yields (placeMembers scope owner path base earlier d members) d' →
    OfElements Named members → membersEverywhere (OfElements Named) members →
    (d.varies = false → d.templates = []) →
    d.Grows N q d' (membersRows N (Path.join q path) members)
  | [], q, _, _, _, _, _, d, _, h, _, _, hd => by
      rw [placeMembers_nil_yields h]
      exact .refl hd
  | m :: rest, q, _, _, _, _, _, _, _, h, hnames, hin, hd => by
      obtain ⟨mid, hm, hrest⟩ := placeMembers_cons_yields h
      have h1 := m.place_grows N q hm (hnames _ List.mem_cons_self) hin.1 hd
      have h2 := placeMembers_grows N rest q hrest
        (fun e he => hnames e (List.mem_cons_of_mem _ he)) hin.2 h1.no_templates
      exact h1.trans h2

theorem Member.place_grows (N : String → Nat) : ∀ (m : Member) (q : String) {scope : Scope}
    {owner path : String} {base : Nat} {earlier : List String} {d d' : Draft},
    Yields (m.place scope owner path base earlier d) d' → m.element.name ≠ "" →
    m.Everywhere (OfElements Named) → (d.varies = false → d.templates = []) →
    d.Grows N q d' (m.rows N (Path.join q path))
  | .leaf e type table, q, scope, owner, path, _, _, d, d', h, hname, _, hd => by
      rw [Member.place] at h
      have hgrows := (Element.place_yields h).grows
        (ItemRule.shows_leaf N q e scope owner type table) hname hd
      rw [← List.map_eq_flatMap] at hgrows
      exact hgrows
  | .nested e shape, q, _, _, path, _, _, d, d', h, hname, hin, hd => by
      rw [Member.place] at h
      refine @Element.Placed.grows N q (fun p => shape.rows N p) _ _ _ _ _ _ _
        (Element.place_yields h) ⟨fun hplace hv ht => ?_, fun ht htemplate => ?_⟩ hname hd
      · rw [ItemRule.nested_place] at hplace
        have hgrows := shape.place_grows N q hplace hin fun _ => ht
        exact ⟨hgrows.rows_eq, hgrows.no_templates⟩
      · obtain ⟨draft, hdraft, rfl⟩ := ItemRule.nested_template htemplate
        rw [Template.rows_of_ne ht]
        congr 2
        funext p
        -- the draft of the template, seen from the path of one instance
        have hgrows := shape.place_grows N p hdraft hin fun _ => rfl
        rw [Path.join_empty_right] at hgrows
        exact hgrows.rows_eq
  | .cyclic _ _ _, _, _, _, _, _, _, _, _, h, _, _, _ => (Member.resolved_of_yields h).elim
  | .unresolved _ _, _, _, _, _, _, _, _, _, h, _, _, _ => (Member.resolved_of_yields h).elim

end

/-- The rows of a layout, fixed and variable, are those of the struct it was
compiled from. -/
theorem Schema.rows_of_layout {s : Schema} {name : String} {d : StructDecl} {l : Layout}
    (hnames : ∀ t ∈ s.structs, Named t.elements) (hd : s.root name = .ok d)
    (hl : s.layout name = .ok l) (N : String → Nat) :
    l.fields.map (fun f => .entry f.row) ++ (l.marks N).1.map (Mark.map Field.row) =
      (s.shape d).rows N "" := by
  obtain ⟨draft, hdraft, hfields, htemplates, -⟩ := Schema.layout_eq_ok hd hl
  have hgrows := (s.shape d).place_grows N "" hdraft
    (Schema.shape_everywhere hnames (Schema.mem_structs_of_root hd)) fun _ => rfl
  have hrows := hgrows.rows_eq
  rw [Path.join_empty_left] at hrows
  have hrow : ∀ f : Field, f.rowAt "" = f.row := fun f => by
    rw [Field.rowAt, Path.join_empty_left]
    rfl
  simp only [Draft.rows, hrow] at hrows
  rw [Layout.marks, templateRows_map_marks, hfields, htemplates]
  exact hrows

end WireRecord
