/-
WireRecord.Proofs.CourseTheorems — the fixed part of a record, side by side.

`Shape.course` goes through a shape with a single position at hand: that of one
representation, in bits. It knows of no fields, names or templates. It lists the
places it meets, and stops at the first counted array, wherever that is. What is
placed in the fixed part lies where this walk says (`Shape.place_lays`), for any
schema: legacy or not, with wire positions or without.
-/
import WireRecord.Proofs.AcceptanceTheorems
import WireRecord.Proofs.AlignmentTheorems
import WireRecord.Proofs.UnfoldingTheorems

namespace WireRecord

/-! ## Courses -/

/-- Places one after another, the position behind them, and whether a counted array
ended the fixed part there. -/
@[ext] structure Course where
  /-- The places. -/
  spans : List Span
  /-- The position behind them. -/
  stop : Nat
  /-- Whether the fixed part ended. -/
  ended : Bool

namespace Course

/-- Nothing, at a position. -/
def skip (position : Nat) : Course := ⟨[], position, false⟩

/-- What comes next is added from where a course stops, unless it ended. -/
def andThen (c : Course) (next : Nat → Course) : Course :=
  if c.ended then c
  else ⟨c.spans ++ (next c.stop).spans, (next c.stop).stop, (next c.stop).ended⟩

/-- The course moved up. -/
def shift (c : Course) (distance : Nat) : Course :=
  ⟨c.spans.map (·.shift distance), c.stop + distance, c.ended⟩

/-- Items one after another, each told whether it is the last one. -/
def inTurn (one : Bool → Nat → Course) : List Bool → Nat → Course
  | [], start => skip start
  | last :: rest, start => (one last start).andThen (inTurn one rest)

variable {c : Course} {f g : Nat → Course} {distance : Nat}

theorem andThen_of_ended (h : c.ended = true) (f : Nat → Course) : c.andThen f = c := by
  simp [andThen, h]

theorem andThen_of_not_ended (h : c.ended = false) (f : Nat → Course) :
    c.andThen f = ⟨c.spans ++ (f c.stop).spans, (f c.stop).stop, (f c.stop).ended⟩ := by
  simp [andThen, h]

@[simp] theorem andThen_skip (c : Course) : c.andThen skip = c := by
  cases h : c.ended <;> simp [andThen, skip, Course.ext_iff, h]

@[simp] theorem skip_andThen (p : Nat) (f : Nat → Course) : (skip p).andThen f = f p := rfl

@[simp] theorem andThen_assoc (c : Course) (f g : Nat → Course) :
    (c.andThen f).andThen g = c.andThen fun p => (f p).andThen g := by
  cases h : c.ended
  · cases hf : (f c.stop).ended <;> simp [andThen, h, hf]
  · simp [andThen, h]

theorem andThen_shift (h : ∀ p, f (p + distance) = (g p).shift distance) :
    (c.shift distance).andThen f = (c.andThen g).shift distance := by
  cases hc : c.ended <;> simp [andThen, shift, h, hc]

theorem ended_of_andThen (h : (c.andThen f).ended = false) :
    c.ended = false ∧ (f c.stop).ended = false := by
  cases hc : c.ended <;> simp_all [andThen]

/-- Items that can be moved can be moved together. -/
theorem inTurn_add {one : Bool → Nat → Course}
    (h : ∀ last p, one last (p + distance) = (one last p).shift distance) (lasts : List Bool)
    (p : Nat) : inTurn one lasts (p + distance) = (inTurn one lasts p).shift distance := by
  induction lasts generalizing p with
  | nil => simp [inTurn, skip, shift]
  | cons last rest ih =>
    rw [inTurn, inTurn, h]
    exact andThen_shift ih

end Course

/-! ## The course of a shape -/

/-- How positions are counted: in which representation, in a legacy schema or not,
and whether wire positions are heeded. -/
structure Gauge where
  /-- The representation. -/
  rep : Representation
  /-- Whether the last struct of a fixed array goes without padding. -/
  legacy : Bool
  /-- Whether wire positions are heeded. -/
  positioned : Bool

/-- The position on an alignment: only the native one moves. -/
def Representation.align (r : Representation) (position alignment : Nat) : Nat :=
  match r with
  | .native => alignUp position alignment
  | .wire => position

/-- How one representation of a scope is counted. Natively there are no positions to
be heeded. -/
def Scope.gauge (scope : Scope) (r : Representation) : Gauge :=
  ⟨r, scope.legacy, scope.positioned && r == .wire⟩

namespace Element

/-- Where the first item of an element starts in a struct that starts at `base`. -/
def startAt (e : Element) (g : Gauge) (base position : Nat) : Nat :=
  match e.position with
  | none => g.rep.align position e.alignment
  | some p => if g.positioned then base + p.bits else g.rep.align position e.alignment

/-- Which of the items of an array of `n` is the last one. -/
def lasts (n : Nat) : List Bool := (List.range n).map fun i => i + 1 == n

/-- The course of an element, given that of one item. -/
def course (e : Element) (g : Gauge) (base : Nat) (one : Bool → Nat → Course)
    (start : Nat) : Course :=
  match e.repetition with
  | .fixed n => Course.inTurn one (lasts n) (e.startAt g base start)
  | .countedBy _ => ⟨[], start, true⟩

/-- The bits that a scalar element takes. -/
def extent (e : Element) (type : Scalar) : Extent := ⟨type.bits, e.width.getD type.bits⟩

/-- The place of a scalar. -/
def leafCourse (e : Element) (r : Representation) (type : Scalar) (start : Nat) : Course :=
  ⟨[⟨start, (e.extent type).bits r⟩], start + (e.extent type).bits r, false⟩

end Element

mutual

/-- The places of a struct in the fixed part, from a position on. -/
def Shape.course (g : Gauge) (last : Bool) (start : Nat) : Shape → Course
  | .mk _ alignment members =>
    (membersCourse g start start members).andThen fun p =>
      .skip (if g.legacy ∧ last then p else g.rep.align p alignment)

/-- The places of some members of a struct that starts at `base`. -/
def membersCourse (g : Gauge) (base start : Nat) : List Member → Course
  | [] => .skip start
  | m :: rest => (m.course g base start).andThen fun p => membersCourse g base p rest

/-- The places of a member of a struct that starts at `base`. -/
def Member.course (g : Gauge) (base start : Nat) : Member → Course
  | .leaf e type _ => e.course g base (fun _ p => e.leafCourse g.rep type p) start
  | .nested e shape =>
    e.course g base
      (fun last p => shape.course g last (g.rep.align p shape.instanceAlignment)) start
  | .cyclic _ _ _ | .unresolved _ _ => .skip start

end

/-! ## Placing takes this course -/

/-- The course that a draft took so far. -/
def Draft.course (r : Representation) (d : Draft) : Course :=
  ⟨d.fields.map (·.span r), d.cursor.bits r, d.varies⟩

/-- Whether a draft became another one by adding to it. -/
structure Draft.Extends (d d' : Draft) : Prop where
  fields : d.fields <+: d'.fields
  templates : d.templates <+: d'.templates

namespace Draft.Extends

variable {d mid d' : Draft}

theorem refl (d : Draft) : d.Extends d := ⟨List.prefix_refl _, List.prefix_refl _⟩

theorem trans (h1 : d.Extends mid) (h2 : mid.Extends d') : d.Extends d' :=
  ⟨h1.fields.trans h2.fields, h1.templates.trans h2.templates⟩

theorem addTemplate (d : Draft) (t : Template) : d.Extends (d.addTemplate t) :=
  ⟨List.prefix_refl _, List.prefix_append _ _⟩

end Draft.Extends

/-- Whether a draft became another one by taking a course in its fixed part. As long
as this goes on, the fields that were added have some rows. -/
structure Draft.Lays (r : Representation) (d d' : Draft) (c : Nat → Course)
    (rows : List Row) : Prop where
  course : d'.course r = (d.course r).andThen c
  adds : d.Extends d'
  templates : d'.varies = false → d'.templates = d.templates
  rows : d'.varies = false → d'.fields.map Field.row = d.fields.map Field.row ++ rows

namespace Draft.Lays

variable {r : Representation} {d mid d' : Draft} {c c' : Nat → Course} {rows more : List Row}

theorem refl (r : Representation) (d : Draft) : d.Lays r d Course.skip [] :=
  ⟨(Course.andThen_skip _).symm, .refl d, fun _ => rfl, fun _ => by
    rw [List.append_nil]⟩

theorem varies (h : d.Lays r d' c rows) (hd : d'.varies = false) : d.varies = false := by
  have hended : ((d.course r).andThen c).ended = false := by
    rw [← h.course]
    exact hd
  exact (Course.ended_of_andThen hended).1

theorem trans (h1 : d.Lays r mid c rows) (h2 : mid.Lays r d' c' more) :
    d.Lays r d' (fun p => (c p).andThen c') (rows ++ more) where
  course := by rw [h2.course, h1.course, Course.andThen_assoc]
  adds := h1.adds.trans h2.adds
  templates hd := by rw [h2.templates hd, h1.templates (h2.varies hd)]
  rows hd := by rw [h2.rows hd, h1.rows (h2.varies hd), List.append_assoc]

/-- A course is only taken from where the cursor is. -/
theorem congr (h : d.Lays r d' c rows) (hc : c (d.cursor.bits r) = c' (d.cursor.bits r)) :
    d.Lays r d' c' rows where
  course := by
    rw [h.course]
    simp only [Course.andThen, show (d.course r).stop = d.cursor.bits r from rfl, hc]
  adds := h.adds
  templates := h.templates
  rows := h.rows

/-- Nothing is laid out in the fixed part once it ended. -/
theorem of_varying (hd : d.varies = true) (hcourse : d'.course r = d.course r)
    (hadds : d.Extends d') (c : Nat → Course) (rows : List Row) :
    d.Lays r d' c rows := by
  have hvaries : d'.varies = true := by
    rw [← hd]
    exact congrArg Course.ended hcourse
  refine ⟨?_, hadds, fun h => ?_, fun h => ?_⟩
  · rw [hcourse, Course.andThen_of_ended hd]
  all_goals
    rw [hvaries] at h
    cases h

theorem addTemplate (hd : d.varies = true) (t : Template) (c : Nat → Course)
    (rows : List Row) : d.Lays r (d.addTemplate t) c rows :=
  of_varying hd (show (d.addTemplate t).course r = d.course r from rfl) (.addTemplate d t) c rows

/-- As long as the fixed part goes on, the cursor may move. -/
theorem moves (hd : d.varies = false) {cursor : Extent} {move : Nat → Nat}
    (hcursor : cursor.bits r = move (d.cursor.bits r)) :
    d.Lays r { d with cursor := cursor } (fun p => .skip (move p)) [] where
  course := by simp [Draft.course, Course.andThen, Course.skip, hd, hcursor]
  adds := ⟨List.prefix_refl _, List.prefix_refl _⟩
  templates _ := rfl
  rows _ := by rw [List.append_nil]

theorem pad (r : Representation) (d : Draft) (alignment : Nat) :
    d.Lays r (d.pad alignment) (fun p => .skip (r.align p alignment)) [] := by
  cases hd : d.varies with
  | false =>
    have hpad : d.pad alignment = { d with cursor := d.cursor.align alignment } := by
      simp [Draft.pad, hd]
    rw [hpad]
    exact moves hd (by cases r <;> rfl)
  | true =>
    have hpad : d.pad alignment = d ∨ d.pad alignment = d.addTemplate (.marker alignment) := by
      unfold Draft.pad
      rw [if_pos hd]
      split
      · exact .inr rfl
      · exact .inl rfl
    rcases hpad with hpad | hpad
    · rw [hpad]
      exact of_varying hd rfl (.refl d) _ _
    · rw [hpad]
      exact addTemplate hd _ _ _

theorem addField (hd : d.varies = false) {e : Element} {type : Scalar}
    {table : Option EnumTable} {name : String} {f : Field}
    (hf : e.FieldAt type table name d.cursor f) :
    d.Lays r (d.addField f) (e.leafCourse r type) [e.row type table name] where
  course := by
    cases r <;>
      simp [Draft.course, Draft.addField, Course.andThen, Element.leafCourse, Element.extent,
        Extent.bits, Field.span, Field.size, hd, hf.native_eq, hf.wire_eq]
  adds := ⟨List.prefix_append _ _, List.prefix_refl _⟩
  templates _ := rfl
  rows _ := by
    simp [Draft.addField, Field.row, Element.row, hf.name_eq, hf.type_eq, hf.table_eq,
      hf.order_eq, hf.wire_eq]

end Draft.Lays

section Placed

variable {r : Representation} {e : Element} {scope : Scope} {owner path : String} {base : Nat}
  {earlier : List String} {rule : ItemRule} {d d' : Draft} {one : Bool → Nat → Course}
  {itemRows : String → List Row}

/-- Whether a rule lays out items along a course and with some rows. -/
def ItemRule.LaysItems (rule : ItemRule) (r : Representation) (one : Bool → Nat → Course)
    (itemRows : String → List Row) : Prop :=
  ∀ name last d d', Yields (rule.place name last d) d' → d.varies = false →
    d.Lays r d' (one last) (itemRows name)

theorem Items.lays {items : List (String × Bool)} (h : Items rule items d d')
    (hrule : rule.LaysItems r one itemRows) :
    d.Lays r d' (Course.inTurn one (items.map (·.2))) (items.flatMap fun i => itemRows i.1) := by
  induction h with
  | nil => exact .refl r _
  | cons hadds _ ih =>
    refine Draft.Lays.trans ?_ ih
    unfold ItemRule.Adds at hadds
    split at hadds
    · rename_i hv
      obtain ⟨t, -, rfl⟩ := hadds
      exact .addTemplate hv t _ _
    · rename_i hv
      exact hrule _ _ _ _ hadds (by simpa using hv)

theorem Element.bits_start {cursor : Extent}
    (h : Yields (e.start scope owner base d.cursor) cursor) (r : Representation) :
    cursor.bits r = e.startAt (scope.gauge r) base (d.cursor.bits r) := by
  rw [start_eq] at h
  unfold startAt
  cases hp : e.position with
  | none =>
    simp only [hp] at h
    obtain rfl := Yields.of_pure h
    cases r <;> rfl
  | some p =>
    simp only [hp] at h
    cases hs : scope.positioned with
    | true =>
      simp only [hs, if_true] at h
      obtain rfl := Yields.of_pure h
      cases r <;> simp [Scope.gauge, hs, Extent.bits, Extent.align, Representation.align]
    | false =>
      simp only [hs] at h
      obtain ⟨_, -, h⟩ := Yields.of_bind h
      obtain rfl := Yields.of_pure h
      cases r <;> simp [Scope.gauge, hs, Extent.bits, Extent.align, Representation.align]

/-- An element takes its course when its items do. -/
theorem Element.place_lays {struct : Nat}
    (h : Yields (e.place scope owner path base earlier rule d) d')
    (hrule : rule.LaysItems r one itemRows)
    (hbase : (scope.gauge r).positioned = true → struct = base) (N : String → Nat) :
    d.Lays r d' (e.course (scope.gauge r) struct one)
      ((e.instances N path).flatMap itemRows) := by
  cases hd : d.varies with
  | true =>
    cases place_yields h with
    | fixed _ _ starts items =>
      cases starts with
      | varying _ =>
        have hlays := items.lays hrule
        have hcourse := hlays.course
        rw [Course.andThen_of_ended hd] at hcourse
        exact .of_varying hd hcourse hlays.adds _ _
      | aligned hv => simp [hd] at hv
      | positioned _ hv _ _ => simp [hd] at hv
    | counted _ _ _ eq =>
      subst eq
      have hself : ({ d with varies := true } : Draft) = d := by rw [← hd]
      rw [hself]
      exact .addTemplate hd _ _ _
  | false =>
    cases hr : e.repetition with
    | countedBy c =>
      cases place_yields h with
      | fixed hfixed _ _ _ => simp [hr] at hfixed
      | counted _ _ _ eq =>
        subst eq
        refine ⟨?_, ⟨List.prefix_refl _, List.prefix_append _ _⟩, fun hv => ?_, fun hv => ?_⟩
        · simp [Draft.course, Draft.addTemplate, course, hr, Course.andThen, hd]
        all_goals
          cases hv
    | fixed n =>
      obtain ⟨-, cursor, hcursor, hitems⟩ := place_items hr hd h
      have hstart : cursor.bits r = e.startAt (scope.gauge r) struct (d.cursor.bits r) := by
        rw [bits_start hcursor r]
        unfold startAt
        cases e.position with
        | none => rfl
        | some p =>
          by_cases hp : (scope.gauge r).positioned = true
          · simp [hp, hbase hp]
          · simp [hp]
      have hmove : d.Lays r { d with cursor := cursor }
          (fun p => .skip (e.startAt (scope.gauge r) struct p)) [] := .moves hd hstart
      have hlays := hmove.trans (hitems.lays hrule)
      have hcourse : (fun p => (Course.skip (e.startAt (scope.gauge r) struct p)).andThen
          (Course.inTurn one ((e.fixedItems path n).map (·.2)))) =
            e.course (scope.gauge r) struct one := by
        funext p
        simp [course, hr, fixedItems, lasts, Function.comp_def]
      have hrows : (e.fixedItems path n).flatMap (fun i => itemRows i.1) =
          (e.instances N path).flatMap itemRows := by
        simp [fixedItems, instances, hr, List.flatMap_map]
      rw [hcourse, List.nil_append, hrows] at hlays
      exact hlays

end Placed

theorem ItemRule.laysItems_leaf (r : Representation) (e : Element) (scope : Scope)
    (owner : String) (type : Scalar) (table : Option EnumTable) :
    (ItemRule.leaf e scope owner type table).LaysItems r (fun _ p => e.leafCourse r type p)
      fun p => [e.row type table p] := by
  intro name last d d' h hd
  obtain ⟨f, hf, rfl⟩ := ItemRule.leaf_place h
  exact .addField hd hf

mutual

/-- In the fixed part a shape is placed along its course, and its fields have its
rows. -/
theorem Shape.place_lays (r : Representation) (N : String → Nat) : ∀ (shape : Shape)
    {scope : Scope} {path : String} {last : Bool} {d d' : Draft},
    Yields (shape.place scope path last d) d' →
    d.Lays r d' (fun p => shape.course (scope.gauge r) last p) (Mark.entries (shape.rows N path))
  | .mk name alignment members, scope, path, last, d, d', h => by
      obtain ⟨mid, hmid, rfl⟩ := Shape.place_yields h
      have hbase : (scope.gauge r).positioned = true → d.cursor.bits r = d.cursor.wire := by
        cases r <;> simp [Scope.gauge, Extent.bits]
      have hmembers := placeMembers_lays r N members hmid hbase
      have hpadded : mid.Lays r (if scope.legacy = true ∧ last = true then mid
          else mid.pad alignment) (fun p => .skip (if (scope.gauge r).legacy ∧ last then p
            else (scope.gauge r).rep.align p alignment)) [] := by
        by_cases hlast : scope.legacy = true ∧ last = true
        · simp only [hlast, Scope.gauge, and_self, if_true]
          exact .refl r mid
        · simp only [hlast, Scope.gauge, if_false]
          exact .pad r mid alignment
      have hlays := hmembers.trans hpadded
      rw [List.append_nil] at hlays
      exact hlays.congr rfl

theorem placeMembers_lays (r : Representation) (N : String → Nat) : ∀ (members : List Member)
    {scope : Scope} {owner path : String} {base struct : Nat} {earlier : List String}
    {d d' : Draft}, Yields (placeMembers scope owner path base earlier d members) d' →
    ((scope.gauge r).positioned = true → struct = base) →
    d.Lays r d' (fun p => membersCourse (scope.gauge r) struct p members)
      (Mark.entries (membersRows N path members))
  | [], _, _, _, _, _, _, d, _, h, _ => by
      rw [placeMembers_nil_yields h]
      exact .refl r d
  | m :: rest, _, _, _, _, _, _, _, _, h, hbase => by
      obtain ⟨mid, hm, hrest⟩ := placeMembers_cons_yields h
      have h1 := m.place_lays r N hm hbase
      have h2 := placeMembers_lays r N rest hrest hbase
      rw [membersRows, Mark.entries_append]
      exact h1.trans h2

theorem Member.place_lays (r : Representation) (N : String → Nat) : ∀ (m : Member)
    {scope : Scope} {owner path : String} {base struct : Nat} {earlier : List String}
    {d d' : Draft}, Yields (m.place scope owner path base earlier d) d' →
    ((scope.gauge r).positioned = true → struct = base) →
    d.Lays r d' (fun p => m.course (scope.gauge r) struct p) (Mark.entries (m.rows N path))
  | .leaf e type table, scope, owner, path, _, _, _, d, d', h, hbase => by
      rw [Member.place] at h
      have hlays := Element.place_lays h (ItemRule.laysItems_leaf r e scope owner type table)
        hbase N
      rw [← List.map_eq_flatMap] at hlays
      rw [entries_rows_leaf]
      exact hlays
  | .nested e shape, scope, owner, path, _, _, _, d, d', h, hbase => by
      rw [Member.place] at h
      rw [entries_rows_nested]
      refine Element.place_lays h (fun name last d d' hitem hd => ?_) hbase N
      -- an item is placed once the cursor is on the alignment of an instance
      have hmove : d.Lays r { d with cursor := d.cursor.align shape.instanceAlignment }
          (fun p => .skip (r.align p shape.instanceAlignment)) [] := .moves hd (by cases r <;> rfl)
      rw [ItemRule.nested_place] at hitem
      exact hmove.trans (shape.place_lays r N hitem)
  | .cyclic _ _ _, _, _, _, _, _, _, _, _, h, _ => (Member.resolved_of_yields h).elim
  | .unresolved _ _, _, _, _, _, _, _, _, _, h, _ => (Member.resolved_of_yields h).elim

end

namespace Draft.Lays

variable {r : Representation} {d d' : Draft} {c : Nat → Course} {rows : List Row}

/-- As long as the fixed part goes on, the cursor is where the course stops. -/
theorem cursor_eq (h : d.Lays r d' c rows) (hd : d.varies = false) :
    d'.cursor.bits r = (c (d.cursor.bits r)).stop ∧ d'.varies = (c (d.cursor.bits r)).ended := by
  have hcourse := h.course
  rw [Course.andThen_of_not_ended hd] at hcourse
  exact ⟨congrArg Course.stop hcourse, congrArg Course.ended hcourse⟩

/-- The fields that were added lie on the course. -/
theorem exists_added (h : d.Lays r d' c rows) (hd : d.varies = false) :
    ∃ added, d'.fields = d.fields ++ added ∧
      added.map (·.span r) = (c (d.cursor.bits r)).spans ∧
      (d'.varies = false → added.map Field.row = rows) := by
  obtain ⟨added, hadded⟩ := h.adds.fields
  have hcourse := h.course
  rw [Course.andThen_of_not_ended hd] at hcourse
  have hspans : d'.fields.map (·.span r) =
      d.fields.map (·.span r) ++ (c (d.cursor.bits r)).spans := congrArg Course.spans hcourse
  rw [← hadded, List.map_append] at hspans
  refine ⟨added, hadded.symm, List.append_cancel_left hspans, fun hv => ?_⟩
  have hrows := h.rows hv
  rw [← hadded, List.map_append] at hrows
  exact List.append_cancel_left hrows

/-- Once the fixed part ended no fields are added. -/
theorem fields_eq (h : d.Lays r d' c rows) (hd : d.varies = true) : d'.fields = d.fields := by
  have hcourse := h.course
  rw [Course.andThen_of_ended hd] at hcourse
  have hlength := congrArg (fun c : Course => c.spans.length) hcourse
  simp only [Draft.course, List.length_map] at hlength
  exact (h.adds.fields.eq_of_length hlength.symm).symm

end Draft.Lays

/-! ## Uncounted shapes -/

/-- Items that go on let the fixed part go on. -/
theorem Course.inTurn_not_ended {one : Bool → Nat → Course}
    (hone : ∀ last p, (one last p).ended = false) (lasts : List Bool) (p : Nat) :
    (inTurn one lasts p).ended = false := by
  induction lasts generalizing p with
  | nil => rfl
  | cons last rest ih => simp [inTurn, andThen, hone, ih]

theorem Element.course_not_ended {e : Element} {g : Gauge} {base : Nat}
    {one : Bool → Nat → Course} (he : e.counter? = none)
    (hone : ∀ last p, (one last p).ended = false) (start : Nat) :
    (e.course g base one start).ended = false := by
  unfold course
  cases hr : e.repetition with
  | fixed n => exact Course.inTurn_not_ended hone _ _
  | countedBy c => simp [counter?, hr] at he

mutual

/-- Without counted arrays the fixed part goes on. -/
theorem Shape.course_not_ended (g : Gauge) : ∀ (shape : Shape) (last : Bool) (start : Nat),
    shape.Everywhere (OfElements Uncounted) → (shape.course g last start).ended = false
  | .mk _ alignment members, last, start, h => by
      have hmembers := membersCourse_not_ended g members start start h.1 h.2
      simp [Shape.course, Course.andThen, Course.skip, hmembers]

theorem membersCourse_not_ended (g : Gauge) : ∀ (members : List Member) (base start : Nat),
    OfElements Uncounted members → membersEverywhere (OfElements Uncounted) members →
    (membersCourse g base start members).ended = false
  | [], _, _, _, _ => rfl
  | m :: rest, base, start, h, hin => by
      have hfirst := m.course_not_ended g base start (h _ List.mem_cons_self) hin.1
      have hrest := membersCourse_not_ended g rest base (m.course g base start).stop
        (fun e he => h e (List.mem_cons_of_mem _ he)) hin.2
      simp [membersCourse, Course.andThen, hfirst, hrest]

theorem Member.course_not_ended (g : Gauge) : ∀ (m : Member) (base start : Nat),
    m.element.counter? = none → m.Everywhere (OfElements Uncounted) →
    (m.course g base start).ended = false
  | .leaf _ _ _, _, start, he, _ => Element.course_not_ended he (fun _ _ => rfl) start
  | .nested _ shape, _, start, he, hin =>
      Element.course_not_ended he (fun last _ => shape.course_not_ended g last _ hin) start
  | .cyclic _ _ _, _, _, _, _ => rfl
  | .unresolved _ _, _, _, _, _ => rfl

end

/-- A counted array ends the fixed part. -/
theorem membersCourse_ended {g : Gauge} {m : Member} (hm : m.Resolved)
    (hcounted : m.element.counter? ≠ none) {members : List Member} (hmem : m ∈ members)
    (base start : Nat) : (membersCourse g base start members).ended = true := by
  have hself : ∀ p, (m.course g base p).ended = true := by
    intro p
    cases m with
    | leaf e type table =>
      cases hr : e.repetition <;>
        simp_all [Member.course, Element.course, Element.counter?, Member.element]
    | nested e shape =>
      cases hr : e.repetition <;>
        simp_all [Member.course, Element.course, Element.counter?, Member.element]
    | cyclic _ _ _ => exact hm.elim
    | unresolved _ _ => exact hm.elim
  induction members generalizing start with
  | nil => cases hmem
  | cons k rest ih =>
    rw [membersCourse]
    rcases List.mem_cons.mp hmem with rfl | hmem
    · rw [Course.andThen_of_ended (hself start)]
      exact hself start
    · unfold Course.andThen
      split
      · assumption
      · exact ih hmem _

end WireRecord
