/-
WireRecord.Proofs.SeriesTheorems — arrays of structs in the fixed part.

A walk along a shape can be moved. On the wire nothing depends on where a struct
starts, so it can be moved anywhere; natively it can be moved by what all
alignments inside divide (`Shape.course_add`). That is why the items of an array
are copies of the struct, each further on by the same distance
(`Member.course_array`), and why their fields are those of a record of its own
that was moved (`Layout.Series`).

`Schema.parts_of_layout` cuts the fixed part of a layout into what comes before an
element, its items, some members behind it and the rest.
-/
import WireRecord.Proofs.AcceptanceTheorems
import WireRecord.Proofs.CourseTheorems

namespace WireRecord

/-! ## Moving a course -/

/-- Whether positions can be moved by a distance before or after an alignment. -/
def Representation.Allows (r : Representation) (distance alignment : Nat) : Prop :=
  ∀ p, r.align (p + distance) alignment = r.align p alignment + distance

/-- On the wire there is no alignment. -/
theorem Representation.allows_wire (distance alignment : Nat) :
    Representation.wire.Allows distance alignment := fun _ => rfl

theorem Aligned.allows {distance alignment : Nat} (h : Aligned alignment distance) :
    Representation.native.Allows distance alignment := alignUp_add h

/-- Whether a member can be moved by a distance, as far as its own alignments go. -/
def Member.Movable (r : Representation) (distance : Nat) : Member → Prop
  | .leaf e _ _ => r.Allows distance e.alignment
  | .nested e shape =>
    r.Allows distance e.alignment ∧ r.Allows distance shape.alignment ∧
      r.Allows distance shape.instanceAlignment
  | .cyclic _ _ _ | .unresolved _ _ => True

/-- Whether all members of a struct can be moved by a distance. -/
def MovableMembers (r : Representation) (distance : Nat) (members : List Member) : Prop :=
  ∀ m ∈ members, m.Movable r distance

theorem Member.movable_wire (distance : Nat) (m : Member) : m.Movable .wire distance := by
  cases m with
  | leaf e type table => exact Representation.allows_wire _ _
  | nested e shape => exact ⟨fun _ => rfl, fun _ => rfl, fun _ => rfl⟩
  | cyclic _ _ _ => trivial
  | unresolved _ _ => trivial

theorem Element.startAt_add {e : Element} {g : Gauge} {distance : Nat}
    (h : g.rep.Allows distance e.alignment) (base p : Nat) :
    e.startAt g (base + distance) (p + distance) = e.startAt g base p + distance := by
  unfold startAt
  cases e.position with
  | none => exact h p
  | some position =>
    simp only
    split
    · omega
    · exact h p

theorem Element.course_add {e : Element} {g : Gauge} {distance : Nat}
    {one : Bool → Nat → Course} (h : g.rep.Allows distance e.alignment)
    (hone : ∀ last p, one last (p + distance) = (one last p).shift distance) (base p : Nat) :
    e.course g (base + distance) one (p + distance) =
      (e.course g base one p).shift distance := by
  unfold course
  cases e.repetition with
  | fixed n =>
    simp only [startAt_add h]
    exact Course.inTurn_add hone _ _
  | countedBy c => simp [Course.shift]

mutual

/-- A struct can be moved by a distance that all alignments inside allow. -/
theorem Shape.course_add (g : Gauge) (distance : Nat) : ∀ (shape : Shape) (last : Bool) (p : Nat),
    g.rep.Allows distance shape.alignment → shape.Everywhere (MovableMembers g.rep distance) →
    shape.course g last (p + distance) = (shape.course g last p).shift distance
  | .mk _ alignment members, last, p, halignment, h => by
      rw [Shape.course, Shape.course, membersCourse_add g distance members p p h.1 h.2]
      refine Course.andThen_shift fun q => ?_
      by_cases hlast : g.legacy = true ∧ last = true
      · simp [hlast, Course.skip, Course.shift]
      · simp only [hlast, if_false, Course.skip, Course.shift, List.map_nil]
        have halign : g.rep.align (q + distance) alignment =
            g.rep.align q alignment + distance := halignment q
        rw [halign]

theorem membersCourse_add (g : Gauge) (distance : Nat) : ∀ (members : List Member)
    (base p : Nat), MovableMembers g.rep distance members →
    membersEverywhere (MovableMembers g.rep distance) members →
    membersCourse g (base + distance) (p + distance) members =
      (membersCourse g base p members).shift distance
  | [], _, _, _, _ => by simp [membersCourse, Course.skip, Course.shift]
  | m :: rest, base, p, h, hin => by
      rw [membersCourse, membersCourse,
        m.course_add g distance base p (h m List.mem_cons_self) hin.1]
      exact Course.andThen_shift fun q => membersCourse_add g distance rest base q
        (fun k hk => h k (List.mem_cons_of_mem m hk)) hin.2

theorem Member.course_add (g : Gauge) (distance : Nat) : ∀ (m : Member) (base p : Nat),
    m.Movable g.rep distance → m.Everywhere (MovableMembers g.rep distance) →
    m.course g (base + distance) (p + distance) = (m.course g base p).shift distance
  | .leaf e type _, base, p, h, _ => by
      refine Element.course_add h (fun _ q => ?_) base p
      simp [Element.leafCourse, Course.shift, Span.shift]
      omega
  | .nested e shape, base, p, h, hin => by
      refine Element.course_add h.1 (fun last q => ?_) base p
      rw [h.2.2 q]
      exact shape.course_add g distance last _ h.2.1 hin
  | .cyclic _ _ _, _, _, _, _ => by simp [Member.course, Course.skip, Course.shift]
  | .unresolved _ _, _, _, _, _ => by simp [Member.course, Course.skip, Course.shift]

end

/-! ## Arrays of structs -/

theorem Element.lasts_succ (n : Nat) : lasts (n + 1) = List.replicate n false ++ [true] := by
  have hfalse : (List.range n).map (fun i => i + 1 == n + 1) = List.replicate n false := by
    refine List.eq_replicate_iff.mpr ⟨by simp, fun b hb => ?_⟩
    obtain ⟨i, hi, rfl⟩ := List.mem_map.mp hb
    have hlt := List.mem_range.mp hi
    simp
    omega
  rw [lasts, List.range_succ, List.map_append, hfalse]
  simp

namespace Course

/-- Places again and again, each time further on by a stride. -/
def copies (spans : List Span) (stride n start : Nat) : List Span :=
  (List.range n).flatMap fun k => spans.map (·.shift (start + k * stride))

theorem copies_succ (spans : List Span) (stride n start : Nat) :
    copies spans stride (n + 1) start =
      copies spans stride n start ++ spans.map (·.shift (start + n * stride)) := by
  simp [copies, List.range_succ]

variable {one : Bool → Nat → Course} {good : Nat → Prop} {spans : List Span} {stride final : Nat}

theorem inTurn_append (one : Bool → Nat → Course) (xs ys : List Bool) (p : Nat) :
    inTurn one (xs ++ ys) p = (inTurn one xs p).andThen (inTurn one ys) := by
  induction xs generalizing p with
  | nil => simp [inTurn]
  | cons x rest ih =>
    have hrest : (fun q => inTurn one (rest ++ ys) q) =
        fun q => (inTurn one rest q).andThen (inTurn one ys) := funext ih
    simp [inTurn, hrest]

/-- Items that look the same from every good position are copies of one another. -/
theorem inTurn_replicate
    (hone : ∀ p, good p → one false p = ⟨spans.map (·.shift p), p + stride, false⟩)
    (hgood : ∀ p, good p → good (p + stride)) (n : Nat) {p : Nat} (hp : good p) :
    good (p + n * stride) ∧ inTurn one (List.replicate n false) p =
      ⟨copies spans stride n p, p + n * stride, false⟩ := by
  induction n with
  | zero => simpa [inTurn, skip, copies] using hp
  | succ n ih =>
    obtain ⟨hgoodn, hn⟩ := ih
    have hnext : p + n * stride + stride = p + (n + 1) * stride := by
      rw [Nat.succ_mul, Nat.add_assoc]
    refine ⟨hnext ▸ hgood _ hgoodn, ?_⟩
    rw [List.replicate_succ', inTurn_append, hn, copies_succ]
    simp [andThen, inTurn, skip, hone _ hgoodn, hnext]

/-- The last one may end elsewhere. -/
theorem inTurn_lasts
    (hone : ∀ p, good p → one false p = ⟨spans.map (·.shift p), p + stride, false⟩)
    (hlast : ∀ p, good p → one true p = ⟨spans.map (·.shift p), p + final, false⟩)
    (hgood : ∀ p, good p → good (p + stride)) {n : Nat} (hn : 0 < n) {p : Nat} (hp : good p) :
    inTurn one (Element.lasts n) p =
      ⟨copies spans stride n p, p + (n - 1) * stride + final, false⟩ := by
  obtain ⟨m, rfl⟩ := Nat.exists_eq_succ_of_ne_zero (Nat.ne_of_gt hn)
  obtain ⟨hgoodm, hm⟩ := inTurn_replicate hone hgood m hp
  rw [Element.lasts_succ, inTurn_append, hm, copies_succ]
  simp [andThen, inTurn, skip, hlast _ hgoodm]

/-- A first item that moves to an alignment itself need not start on it. -/
theorem inTurn_congr {lasts : List Bool} {p q : Nat} (hne : lasts ≠ [])
    (h : ∀ last, one last p = one last q) : inTurn one lasts p = inTurn one lasts q := by
  cases lasts with
  | nil => exact absurd rfl hne
  | cons last rest => rw [inTurn, inTurn, h]

end Course

/-- The size of a struct that starts at zero, without the padding at its end. -/
def Shape.net (g : Gauge) (shape : Shape) : Nat := (membersCourse g 0 0 shape.members).stop

theorem Shape.course_zero {g : Gauge} {shape : Shape}
    (h : shape.Everywhere (OfElements Uncounted)) (last : Bool) :
    shape.course g last 0 = ⟨(shape.course g false 0).spans,
      if g.legacy ∧ last then shape.net g else g.rep.align (shape.net g) shape.alignment,
      false⟩ := by
  obtain ⟨name, alignment, members⟩ := shape
  have hmembers := membersCourse_not_ended g members 0 0 h.1 h.2
  simp [Shape.course, Course.andThen, Course.skip, hmembers, Shape.net, Shape.alignment,
    Shape.members]

/-- Whether a struct looks the same from a position as from zero. -/
structure Shape.StartsAt (g : Gauge) (shape : Shape) (p : Nat) : Prop where
  instance_eq : g.rep.align p shape.instanceAlignment = p
  alignment : g.rep.Allows p shape.alignment
  members : shape.Everywhere (MovableMembers g.rep p)

/-- The items of an array are copies of the struct, apart by its padded size; only
the last one of a legacy schema ends without padding. -/
theorem Member.course_array {g : Gauge} {e : Element} {shape : Shape} {good : Nat → Prop}
    {n base start : Nat} (hn : 0 < n) (hr : e.repetition = .fixed n)
    (hshape : shape.Everywhere (OfElements Uncounted))
    (hgood : ∀ p, good p → shape.StartsAt g p)
    (hstep : ∀ p, good p → good (p + g.rep.align (shape.net g) shape.alignment))
    (hfirst : good (g.rep.align (e.startAt g base start) shape.instanceAlignment)) :
    (Member.nested e shape).course g base start =
      ⟨Course.copies (shape.course g false 0).spans
          (g.rep.align (shape.net g) shape.alignment) n
          (g.rep.align (e.startAt g base start) shape.instanceAlignment),
        g.rep.align (e.startAt g base start) shape.instanceAlignment +
          (n - 1) * g.rep.align (shape.net g) shape.alignment +
          (if g.legacy then shape.net g else g.rep.align (shape.net g) shape.alignment),
        false⟩ := by
  have hone : ∀ last p, good p → shape.course g last (g.rep.align p shape.instanceAlignment) =
      ⟨(shape.course g false 0).spans.map (·.shift p),
        p + (if g.legacy ∧ last then shape.net g
          else g.rep.align (shape.net g) shape.alignment), false⟩ := by
    intro last p hp
    have hmoves := hgood p hp
    rw [hmoves.instance_eq]
    have hadd := shape.course_add g p last 0 hmoves.alignment hmoves.members
    rw [Nat.zero_add, Shape.course_zero hshape] at hadd
    rw [hadd, Course.shift, Nat.add_comm]
  have hne : Element.lasts n ≠ [] := by
    intro h
    have hlength := congrArg List.length h
    simp [Element.lasts] at hlength
    omega
  rw [Member.course, Element.course, hr]
  refine (Course.inTurn_congr hne fun last => ?_).trans
    (Course.inTurn_lasts (fun p hp => ?_) (fun p hp => ?_) hstep hn hfirst)
  · rw [(hgood _ hfirst).instance_eq]
  · simpa using hone false p hp
  · simpa using hone true p hp

/-- Whether fields are those of the instances of a record at some paths: labelled for
each of them, and placed like the fields of the record, each time further on by a
stride. -/
structure Layout.Series (lt : Layout) (r : Representation) (label : String → List Row)
    (paths : List String) (start stride : Nat) (fields : List Field) : Prop where
  rows : fields.map Field.row = paths.flatMap label
  spans : fields.map (·.span r) =
    Course.copies (lt.fields.map (·.span r)) stride paths.length start

/-! ## Schemas -/

/-- Whether a member has a known place in a record: neither it nor what it contains is
repeated as a counter says. -/
structure Member.Static (m : Member) : Prop where
  fixed : m.element.counter? = none
  below : m.Everywhere (OfElements Uncounted)

instance : DecidablePred Member.Static := fun m =>
  @decidable_of_iff _ (m.element.counter? = none ∧ m.Everywhere (OfElements Uncounted))
    ⟨fun h => ⟨h.1, h.2⟩, fun h => ⟨h.fixed, h.below⟩⟩
    (@instDecidableAnd _ _ inferInstance (m.decEverywhere _))

/-- The course of static members does not end. -/
theorem membersCourse_static {members : List Member} (h : ∀ m ∈ members, m.Static) (g : Gauge)
    (base p : Nat) : (membersCourse g base p members).ended = false := by
  refine membersCourse_not_ended g _ base p (fun e he => ?_)
    (membersEverywhere_iff.mpr fun m hm => (h m hm).below)
  obtain ⟨m, hm, rfl⟩ := List.mem_map.mp he
  exact (h m hm).fixed

namespace Schema

variable {s : Schema} {name : String} {d t : StructDecl} {l : Layout} {e : Element}

/-- The size of a struct up to where its last member leaves the cursor, without any
padding. -/
def net (s : Schema) (r : Representation) (t : StructDecl) : Nat :=
  (s.shape t).net (s.scope.gauge r)

/-- In a record that has a layout no fixed array is empty. -/
theorem repetition_pos (hd : s.root name = .ok d) (hl : s.layout name = .ok l)
    (he : e ∈ d.elements) {n : Nat} (hn : e.repetition = .fixed n) : 0 < n := by
  have hcountable := (placeable_of_layout hd hl).1.countable
  rw [elementsOf_member] at hcountable
  exact hcountable.fixed_pos e he n hn

/-- A member that is of a struct has the shape of it. -/
theorem member_of_struct (hd : s.root name = .ok d) (hl : s.layout name = .ok l)
    (he : e ∈ d.elements) (ht : s.meaning? e.type = some (.struct t)) :
    s.member d.name [d.name] e = .nested e (s.shape t) := by
  have hresolved : (s.shapeOf ⟨d, [d.name]⟩).Everywhere AllResolved :=
    (placeable_of_layout hd hl).mono fun _ h => h.resolved
  obtain ⟨hmembers, hinner⟩ := everywhere_shapeOf_iff.mp hresolved
  rcases member_of_resolved (hmembers _ (mem_members he)) with
    ⟨type, table, htype, -⟩ | ⟨u, hu, -, hnested⟩
  · simp [leafType?, ht] at htype
  · obtain rfl : t = u := by simpa [ht] using hu
    have hshape := hinner _ (mem_members he)
    rw [hnested] at hshape ⊢
    rw [shapeOf_eq_shape hshape]

/-- A struct without counted arrays has a layout along its course, which holds nothing
else. -/
theorem fields_of_static (hroot : s.root t.name = .ok t) (hlt : s.layout t.name = .ok l)
    (hfixed : (s.shape t).Everywhere (OfElements Uncounted)) (r : Representation)
    (N : String → Nat) :
    l.fields.map (·.span r) = ((s.shape t).course (s.scope.gauge r) false 0).spans ∧
      l.fields.map Field.row = Mark.entries ((s.shape t).rows N "") ∧
      ((s.shape t).course (s.scope.gauge r) false 0).stop ≤ l.size.bits r := by
  obtain ⟨draft, hdraft, hfields, -, hsize⟩ := layout_eq_ok hroot hlt
  have hlays := (s.shape t).place_lays r N hdraft
  obtain ⟨hcursor, hvaries⟩ := hlays.cursor_eq rfl
  obtain ⟨added, hadded, hspans, hrows⟩ := hlays.exists_added rfl
  rw [Shape.course_not_ended _ _ _ _ hfixed] at hvaries
  have hall : l.fields = added := by rw [hfields, hadded]; rfl
  have hzero : Draft.empty.cursor.bits r = 0 := by cases r <;> rfl
  rw [hzero] at hcursor hspans
  refine ⟨by rw [hall, hspans], by rw [hall, hrows hvaries], ?_⟩
  rw [← hcursor, hsize]
  cases r with
  | native => exact Nat.le_refl _
  | wire => exact Nat.le_max_left _ _

/-- The fixed part of a layout, around an element of it that is static like all before
it. Some members behind it either add all their fields or end the fixed part. -/
theorem parts_of_layout {before run after : List Element} (hd : s.root name = .ok d)
    (hl : s.layout name = .ok l) (helements : d.elements = before ++ e :: (run ++ after))
    (hbefore : ∀ b ∈ before, (s.member d.name [d.name] b).Static)
    (he : (s.member d.name [d.name] e).Static) (r : Representation) (N : String → Nat) :
    let g := s.scope.gauge r
    let own := s.member d.name [d.name]
    let p := (membersCourse g 0 0 (before.map own)).stop
    let behind := membersCourse g 0 ((own e).course g 0 p).stop (run.map own)
    ∃ pre items next post, l.fields = pre ++ items ++ next ++ post ∧
      pre.map Field.row = Mark.entries (membersRows N "" (before.map own)) ∧
      items.map Field.row = Mark.entries ((own e).rows N "") ∧
      items.map (·.span r) = ((own e).course g 0 p).spans ∧
      next.map (·.span r) = behind.spans ∧
      (behind.ended = false → next.map Field.row = Mark.entries (membersRows N "" (run.map own))) ∧
      (behind.ended = true → post = []) := by
  intro g own p behind
  obtain ⟨mid, hmid, hfields, -⟩ := members_of_layout hd hl
  have hmembers : (s.shape d).members =
      before.map own ++ own e :: (run.map own ++ after.map own) := by
    show d.elements.map own = _
    simp [helements]
  rw [hmembers, placeMembers_append] at hmid
  obtain ⟨d1, h1, hmid⟩ := Yields.of_bind hmid
  obtain ⟨d2, h2, hmid⟩ := placeMembers_cons_yields hmid
  rw [placeMembers_append] at hmid
  obtain ⟨d3, h3, h4⟩ := Yields.of_bind hmid
  have hzero : Draft.empty.cursor.bits r = 0 := by cases r <;> rfl
  have hbase : g.positioned = true → 0 = 0 := fun _ => rfl
  -- before the element
  have hlays1 := placeMembers_lays r N (before.map own) h1 hbase
  obtain ⟨hcursor1, hvaries1⟩ := hlays1.cursor_eq rfl
  obtain ⟨pre, hpre, -, hrows1⟩ := hlays1.exists_added rfl
  rw [hzero] at hcursor1 hvaries1
  rw [membersCourse_static (List.forall_mem_map.mpr hbefore)] at hvaries1
  -- its items
  have hlays2 := (own e).place_lays r N h2 hbase
  obtain ⟨hcursor2, hvaries2⟩ := hlays2.cursor_eq hvaries1
  obtain ⟨items, hitems, hspans2, hrows2⟩ := hlays2.exists_added hvaries1
  rw [hcursor1] at hcursor2 hvaries2 hspans2
  rw [(own e).course_not_ended g 0 p he.fixed he.below] at hvaries2
  -- the members behind it
  have hlays3 := placeMembers_lays r N (run.map own) h3 hbase
  obtain ⟨-, hvaries3⟩ := hlays3.cursor_eq hvaries2
  obtain ⟨next, hnext, hspans3, hrows3⟩ := hlays3.exists_added hvaries2
  rw [hcursor2] at hvaries3 hspans3
  -- and the rest
  have hlays4 := placeMembers_lays r N (after.map own) h4 hbase
  obtain ⟨post, hpost⟩ := hlays4.adds.fields
  refine ⟨pre, items, next, post, ?_, hrows1 hvaries1, hrows2 hvaries2, hspans2, hspans3,
    fun h => hrows3 (hvaries3.trans h), fun h => ?_⟩
  · rw [hfields, ← hpost, hnext, hitems, hpre]
    rfl
  · have hsame := hlays4.fields_eq (hvaries3.trans h)
    rw [← hpost] at hsame
    simpa using hsame

end Schema

end WireRecord
