/-
WireRecord.Proofs.PositionedArrayTheorems — fixed arrays on the wire.

Wire positions let the members of a struct stand in any order, and the cursor goes
back and forth with them. The next struct starts where the last member left it, so
that is the distance from one item of an array to the next (`Schema.net`), and not
the size of the struct. All items are laid out like the struct on its own, each
moved by its multiple of this distance (`Schema.series_of_layout`).

Where the last member is the one that reaches furthest, the distance is the size
of the struct. Then items do not meet, nor does what follows them without a wire
position of its own. Where it is not, they can (`Schema.not_series_of_size_pairs`).
-/
import WireRecord.Proofs.SeriesTheorems

namespace WireRecord

/-! ## Spans that do not meet -/

/-- Whether two spans have no bit in common. -/
def Span.Apart (a b : Span) : Prop := a.stop ≤ b.offset ∨ b.stop ≤ a.offset

instance (a b : Span) : Decidable (a.Apart b) :=
  inferInstanceAs (Decidable (_ ∨ _))

theorem Span.Apart.shift {a b : Span} (h : a.Apart b) (distance : Nat) :
    (a.shift distance).Apart (b.shift distance) := by
  simp only [Apart, stop, Span.shift] at h ⊢
  omega

namespace Course

variable {spans : List Span} {stride : Nat}

/-- What fits into a stride stays within its multiples. -/
theorem mem_copies {n start : Nat} {span : Span} (hfit : ∀ s ∈ spans, s.stop ≤ stride)
    (h : span ∈ copies spans stride n start) :
    start ≤ span.offset ∧ span.stop ≤ start + n * stride := by
  obtain ⟨k, hk, hspan⟩ := List.mem_flatMap.mp h
  obtain ⟨s, hs, rfl⟩ := List.mem_map.mp hspan
  have hlt := List.mem_range.mp hk
  have hstop := hfit s hs
  have hmul : (k + 1) * stride ≤ n * stride := Nat.mul_le_mul_right stride hlt
  rw [Nat.succ_mul] at hmul
  simp only [Span.stop, Span.shift] at hstop ⊢
  omega

/-- Copies of what fits into a stride do not meet. -/
theorem apart_copies (hfit : ∀ s ∈ spans, s.stop ≤ stride) (hapart : spans.Pairwise Span.Apart)
    (n start : Nat) : (copies spans stride n start).Pairwise Span.Apart := by
  induction n with
  | zero => exact List.Pairwise.nil
  | succ n ih =>
    rw [copies_succ, List.pairwise_append, List.pairwise_map]
    refine ⟨ih, hapart.imp fun h => h.shift _, fun a ha b hb => ?_⟩
    obtain ⟨s, hs, rfl⟩ := List.mem_map.mp hb
    have hbefore := (mem_copies hfit ha).2
    refine .inl (Nat.le_trans hbefore ?_)
    exact Nat.le_add_left _ _

end Course

namespace Layout.Series

variable {lt : Layout} {label : String → List Row} {paths : List String} {start stride : Nat}
  {fields : List Field}

/-- The fields of a record that fits into the stride do not meet in a series, if they do
not in the record. -/
theorem pairwise_apart (h : lt.Series .wire label paths start stride fields)
    (hfit : ∀ f ∈ lt.fields, f.wire.stop ≤ stride)
    (hapart : (lt.fields.map (·.wire)).Pairwise Span.Apart) :
    (fields.map (·.wire)).Pairwise Span.Apart := by
  show (fields.map (·.span .wire)).Pairwise Span.Apart
  rw [h.spans]
  exact Course.apart_copies (List.forall_mem_map.mpr hfit) hapart _ start

/-- They stay within as many strides as there are instances. -/
theorem stop_le (h : lt.Series .wire label paths start stride fields)
    (hfit : ∀ f ∈ lt.fields, f.wire.stop ≤ stride) :
    ∀ f ∈ fields, f.wire.stop ≤ start + paths.length * stride := by
  intro f hf
  have hspan : f.wire ∈ fields.map (·.span .wire) := List.mem_map_of_mem hf
  rw [h.spans] at hspan
  exact (Course.mem_copies (List.forall_mem_map.mpr hfit) hspan).2

end Layout.Series

/-! ## Courses do not go back -/

/-- Whether a course stays behind a position. -/
structure Course.Behind (floor : Nat) (c : Course) : Prop where
  spans : ∀ span ∈ c.spans, floor ≤ span.offset
  stop : floor ≤ c.stop

namespace Course.Behind

variable {floor : Nat} {c : Course}

theorem skip {p : Nat} (h : floor ≤ p) : (Course.skip p).Behind floor :=
  ⟨fun _ hspan => (List.not_mem_nil hspan).elim, h⟩

theorem andThen (hc : c.Behind floor) {f : Nat → Course}
    (hf : ∀ p, floor ≤ p → (f p).Behind floor) : (c.andThen f).Behind floor := by
  unfold Course.andThen
  split
  · exact hc
  · have hnext := hf c.stop hc.stop
    refine ⟨fun span hspan => ?_, hnext.stop⟩
    rcases List.mem_append.mp hspan with hspan | hspan
    · exact hc.spans span hspan
    · exact hnext.spans span hspan

theorem inTurn {one : Bool → Nat → Course}
    (hone : ∀ last p, floor ≤ p → (one last p).Behind floor) (lasts : List Bool) {p : Nat}
    (hp : floor ≤ p) : (Course.inTurn one lasts p).Behind floor := by
  induction lasts generalizing p with
  | nil => exact skip hp
  | cons last rest ih => exact (hone last p hp).andThen fun _ hq => ih hq

end Course.Behind

theorem Representation.le_align (r : Representation) (p alignment : Nat) :
    p ≤ r.align p alignment := by
  cases r with
  | native => exact le_alignUp p alignment
  | wire => exact Nat.le_refl p

theorem Element.course_behind {e : Element} {g : Gauge} {one : Bool → Nat → Course}
    {floor base p : Nat} (hone : ∀ last p, floor ≤ p → (one last p).Behind floor)
    (hbase : floor ≤ base ∨ e.position = none) (hp : floor ≤ p) :
    (e.course g base one p).Behind floor := by
  have hstart : floor ≤ e.startAt g base p := by
    have halign := Nat.le_trans hp (g.rep.le_align p e.alignment)
    unfold startAt
    rcases hbase with hbase | hnone
    · split
      · exact halign
      · split
        · exact Nat.le_trans hbase (Nat.le_add_right _ _)
        · exact halign
    · rw [hnone]
      exact halign
  unfold course
  cases e.repetition with
  | fixed n => exact .inTurn hone _ hstart
  | countedBy c => exact ⟨fun _ hspan => (List.not_mem_nil hspan).elim, hp⟩

mutual

/-- A struct stays behind where it starts, wherever its wire positions are. -/
theorem Shape.course_behind (g : Gauge) {floor : Nat} : ∀ (shape : Shape) (last : Bool) (p : Nat),
    floor ≤ p → (shape.course g last p).Behind floor
  | .mk _ alignment members, last, p, hp => by
      have hmembers := membersCourse_behind g members p p (.inl hp) hp
      rw [Shape.course]
      refine hmembers.andThen fun q hq => ?_
      refine .skip ?_
      split
      · exact hq
      · exact Nat.le_trans hq (g.rep.le_align q alignment)

/-- Members stay behind where they start, unless a wire position is before it. -/
theorem membersCourse_behind (g : Gauge) {floor : Nat} : ∀ (members : List Member)
    (base p : Nat), (floor ≤ base ∨ OfElements Unpositioned members) → floor ≤ p →
    (membersCourse g base p members).Behind floor
  | [], _, _, _, hp => .skip hp
  | m :: rest, base, p, hbase, hp => by
      have hfirst := m.course_behind g base p
        (hbase.imp_right fun h => h _ List.mem_cons_self) hp
      exact hfirst.andThen fun q hq => membersCourse_behind g rest base q
        (hbase.imp_right fun h e he => h e (List.mem_cons_of_mem _ he)) hq

theorem Member.course_behind (g : Gauge) {floor : Nat} : ∀ (m : Member) (base p : Nat),
    (floor ≤ base ∨ m.element.position = none) → floor ≤ p → (m.course g base p).Behind floor
  | .leaf e type _, base, p, hbase, hp => by
      refine Element.course_behind (fun _ q hq => ⟨fun span hspan => ?_, ?_⟩) hbase hp
      · obtain rfl := List.mem_singleton.mp hspan
        exact hq
      · exact Nat.le_trans hq (Nat.le_add_right _ _)
  | .nested _ shape, base, p, hbase, hp =>
      Element.course_behind (fun last q hq => shape.course_behind g last _
        (Nat.le_trans hq (g.rep.le_align q _))) hbase hp
  | .cyclic _ _ _, _, _, _, hp => .skip hp
  | .unresolved _ _, _, _, _, hp => .skip hp

end

/-! ## Arrays in a layout -/

/-- On the wire the items of an array are copies of the struct, apart by its net size. -/
theorem Member.course_wire_array (scope : Scope) {e : Element} {shape : Shape} {n : Nat}
    (hn : 0 < n) (hr : e.repetition = .fixed n) (hposition : e.position = none)
    (hshape : shape.Everywhere (OfElements Uncounted)) (base start : Nat) :
    (Member.nested e shape).course (scope.gauge .wire) base start =
      ⟨Course.copies (shape.course (scope.gauge .wire) false 0).spans
          (shape.net (scope.gauge .wire)) n start,
        start + n * shape.net (scope.gauge .wire), false⟩ := by
  -- nothing is aligned, so a struct looks the same from everywhere
  have hmoves : ∀ p, True → shape.StartsAt (scope.gauge .wire) p := fun p _ =>
    ⟨rfl, fun _ => rfl, hshape.mono fun _ _ m _ => m.movable_wire p⟩
  have hstart : e.startAt (scope.gauge .wire) base start = start := by
    unfold Element.startAt
    rw [hposition]
    rfl
  have halign : ∀ p a, (scope.gauge .wire).rep.align p a = p := fun _ _ => rfl
  have hsum : (n - 1) * shape.net (scope.gauge .wire) + shape.net (scope.gauge .wire) =
      n * shape.net (scope.gauge .wire) := by
    rw [← Nat.succ_mul, Nat.succ_eq_add_one, Nat.sub_add_cancel hn]
  rw [Member.course_array hn hr hshape hmoves (fun _ _ => trivial) trivial]
  simp only [halign, hstart, ite_self, Nat.add_assoc, hsum]

namespace Schema

/-- The net size is no more than the whole one, which is where the fields end. -/
theorem net_wire_le_size {s : Schema} {t : StructDecl} {lt : Layout}
    (hroot : s.root t.name = .ok t) (hlt : s.layout t.name = .ok lt)
    (hfixed : (s.shape t).Everywhere (OfElements Uncounted)) : s.net .wire t ≤ lt.size.wire := by
  obtain ⟨-, -, hsize⟩ := fields_of_static hroot hlt hfixed .wire fun _ => 0
  have hstop : ((s.shape t).course (s.scope.gauge .wire) false 0).stop = s.net .wire t := by
    rw [Shape.course_zero hfixed]
    simp [net, Scope.gauge, Representation.align]
  rw [← hstop]
  exact hsize

/-- The items of a fixed array lie on the wire like its struct on its own, apart by the
net size of the struct. If that is the whole size, the items do not meet as long as
the members do not, nor do they meet what follows without a wire position. -/
theorem series_of_layout {s : Schema} {name : String} {d t : StructDecl} {l : Layout}
    {e : Element} {n : Nat} {before run after : List Element} (hd : s.root name = .ok d)
    (hl : s.layout name = .ok l) (helements : d.elements = before ++ e :: (run ++ after))
    (ht : s.meaning? e.type = some (.struct t)) (hn : e.repetition = .fixed n)
    (hposition : e.position = none)
    (hbefore : ∀ b ∈ before, (s.member d.name [d.name] b).Static)
    (hfixed : (s.shape t).Everywhere (OfElements Uncounted))
    (hrun : Unpositioned run) (N : String → Nat) :
    ∃ lt pre items next post start, s.layout t.name = .ok lt ∧
      lt.fields.map Field.row = Mark.entries ((s.shape t).rows N "") ∧
      l.fields = pre ++ items ++ next ++ post ∧
      pre.map Field.row =
        Mark.entries (membersRows N "" (before.map (s.member d.name [d.name]))) ∧
      lt.Series .wire (fun p => Mark.entries ((s.shape t).rows N p)) (e.instances N "") start
        (s.net .wire t) items ∧
      (post = [] ∨ next.map Field.row =
        Mark.entries (membersRows N "" (run.map (s.member d.name [d.name])))) ∧
      s.net .wire t ≤ lt.size.wire ∧
      (s.net .wire t = lt.size.wire → (lt.fields.map (·.wire)).Pairwise Span.Apart →
        (items.map (·.wire)).Pairwise Span.Apart ∧
          ∀ f ∈ items, ∀ g ∈ next, f.wire.Apart g.wire) := by
  have he : e ∈ d.elements := by simp [helements]
  have hmember := member_of_struct hd hl he ht
  obtain ⟨hroot, lt, hlt⟩ := exists_layout_of_refers hd hl ⟨e, he, ht⟩
  obtain ⟨hspans, hrows, -⟩ := fields_of_static hroot hlt hfixed .wire N
  have hstatic : (s.member d.name [d.name] e).Static := by
    refine ⟨?_, ?_⟩
    · simp [Element.counter?, hn]
    · rw [hmember]
      exact hfixed
  obtain ⟨pre, items, next, post, hfields, hpre, hitemRows, hitems, hnext, hnextRows, hpost⟩ :=
    parts_of_layout hd hl helements hbefore hstatic .wire N
  generalize (membersCourse (s.scope.gauge .wire) 0 0
    (before.map (s.member d.name [d.name]))).stop = start at hitems hnext hnextRows hpost
  have hpos := repetition_pos hd hl he hn
  have harray := Member.course_wire_array s.scope hpos hn hposition hfixed 0 start
  rw [hmember, harray] at hitems hnext hnextRows hpost
  have hnet : (s.shape t).net (s.scope.gauge .wire) = s.net .wire t := rfl
  have hlength : (e.instances N "").length = n := by simp [Element.instances, hn]
  have hseries : lt.Series .wire (fun p => Mark.entries ((s.shape t).rows N p))
      (e.instances N "") start (s.net .wire t) items := by
    refine ⟨?_, ?_⟩
    · rw [hitemRows, hmember, entries_rows_nested]
    · rw [hitems, hlength, hspans]
      rfl
  refine ⟨lt, pre, items, next, post, start, hlt, hrows, hfields, hpre, hseries, ?_,
    net_wire_le_size hroot hlt hfixed, ?_⟩
  · generalize (membersCourse _ _ _ _).ended = ended at hnextRows hpost
    cases ended with
    | false => exact .inr (hnextRows rfl)
    | true => exact .inl (hpost rfl)
  · intro hwhole hapart
    have hfit : ∀ f ∈ lt.fields, f.wire.stop ≤ s.net .wire t := by
      rw [hwhole]
      exact (sound_of_layout hroot hlt).wire_stop
    have hnone : OfElements Unpositioned (run.map (s.member d.name [d.name])) := by
      rw [OfElements, elementsOf_member]
      exact hrun
    have hbehind := (membersCourse_behind (s.scope.gauge .wire) _ 0 _ (.inr hnone)
      (Nat.le_refl (start + n * s.net .wire t))).spans
    refine ⟨hseries.pairwise_apart hfit hapart, fun f hf g hg => ?_⟩
    have hg' : g.wire ∈ next.map (·.span .wire) := List.mem_map_of_mem hg
    have hf' := hseries.stop_le hfit f hf
    rw [hnext] at hg'
    rw [hlength] at hf'
    exact .inl (Nat.le_trans hf' (hbehind _ hg'))

end Schema

/-! ## Examples -/

/-- A byte with a place on the wire. -/
def Element.byteAt (name : String) (byte : Nat) : Element :=
  { Element.simple name "tUInt8" (.fixed 1) none with position := some ⟨byte, 0⟩ }

/-- Three bytes, the first two of which change places on the wire. -/
def triple : StructDecl where
  name := "Triple"
  alignment := 1
  elements := [.byteAt "a" 1, .byteAt "b" 0, .byteAt "c" 2]

/-- Two bytes that change places on the wire. -/
def pair : StructDecl where
  name := "Pair"
  alignment := 1
  elements := [.byteAt "a" 1, .byteAt "b" 0]

/-- Two of a struct between two bytes. -/
def twoOf (name struct : String) : StructDecl where
  name := name
  alignment := 1
  elements :=
    [ .simple "n" "tUInt8" (.fixed 1) none, .simple "items" struct (.fixed 2) none,
      .simple "x" "tUInt8" (.fixed 1) none ]

/-- Arrays of structs with wire positions. -/
def swaps : Schema where
  version := ⟨3, 0⟩
  aliases := []
  enums := []
  structs := [triple, pair, twoOf "Triples" "Triple", twoOf "Pairs" "Pair"]

namespace Schema

/-- The last byte of a triple is also the one that reaches furthest: triples do not meet
each other, nor what follows them. -/
theorem series_of_layout_triples : ∃ l lt pre items next post start,
    swaps.layout "Triples" = .ok l ∧ swaps.layout "Triple" = .ok lt ∧
    swaps.net .wire triple = lt.size.wire ∧ (lt.fields.map (·.wire)).Pairwise Span.Apart ∧
    l.fields = pre ++ items ++ next ++ post ∧
    lt.Series .wire (fun p => Mark.entries ((swaps.shape triple).rows (fun _ => 0) p))
      ["items[0]", "items[1]"] start (swaps.net .wire triple) items ∧
    (items.map (·.wire)).Pairwise Span.Apart ∧
    (∀ f ∈ items, ∀ g ∈ next, f.wire.Apart g.wire) ∧
    l.fields.map (·.wire.offset) = [0, 16, 8, 24, 40, 32, 48, 56] := by
  obtain ⟨d, l, v, hd, hl, hv, hp⟩ := @Schema.exists_view swaps "Triples" .wire []
    (fun d v => d = twoOf "Triples" "Triple" ∧
      v.layout.fields.map (·.wire.offset) = [0, 16, 8, 24, 40, 32, 48, 56]) (by decide +kernel)
  obtain ⟨rfl, hoffsets⟩ := of_decide_eq_true hp
  obtain ⟨rfl, -⟩ := View.openFull_eq_ok_iff.mp hv
  obtain ⟨_, lt, vt, -, hlt, hvt, hpt⟩ := @Schema.exists_view swaps "Triple" .wire []
    (fun _ v => v.layout.size.wire = swaps.net .wire triple ∧
      (v.layout.fields.map (·.wire)).Pairwise Span.Apart) (by decide +kernel)
  obtain ⟨hsize, hapart⟩ := of_decide_eq_true hpt
  obtain ⟨rfl, -⟩ := View.openFull_eq_ok_iff.mp hvt
  have hbefore : ∀ b ∈ [Element.simple "n" "tUInt8" (.fixed 1) none],
      (swaps.member "Triples" ["Triples"] b).Static := by decide +kernel
  obtain ⟨lt', pre, items, next, post, start, hlt', -, hfields, -, hseries, -, -, hmeet⟩ :=
    @series_of_layout swaps "Triples" (twoOf "Triples" "Triple") triple v.layout _ 2
      [.simple "n" "tUInt8" (.fixed 1) none] [.simple "x" "tUInt8" (.fixed 1) none] [] hd hl rfl
      rfl rfl rfl hbefore (by decide +kernel) (by decide) fun _ => 0
  obtain rfl : vt.layout = lt' := Except.ok.inj (hlt.symm.trans hlt')
  obtain ⟨hitems, hnext⟩ := hmeet hsize.symm hapart
  exact ⟨v.layout, vt.layout, pre, items, next, post, start, hl, hlt, hsize.symm, hapart,
    hfields, hseries, hitems, hnext, hoffsets⟩

/-- The last byte of a pair leaves the cursor in the middle of it, so the second pair
starts there: its last byte has the place of the first byte of the first pair, and what
follows has that of its first byte. The size of a pair would keep them apart. -/
theorem not_series_of_size_pairs : ∃ l lt, swaps.layout "Pairs" = .ok l ∧
    swaps.layout "Pair" = .ok lt ∧ (lt.fields.map (·.wire)).Pairwise Span.Apart ∧
    lt.size.wire = 16 ∧
    l.fields.map (fun f => (f.name, f.wire.offset)) = [("n", 0), ("items[0].a", 16),
      ("items[0].b", 8), ("items[1].a", 24), ("items[1].b", 16), ("x", 24)] ∧
    (∀ start, ((l.fields.map (·.wire)).drop 1).take 4 ≠
      Course.copies (lt.fields.map (·.wire)) lt.size.wire 2 start) ∧
    ¬ (l.fields.map (·.wire)).Pairwise Span.Apart := by
  obtain ⟨d, l, v, -, hl, hv, hp⟩ := @Schema.exists_view swaps "Pairs" .wire []
    (fun _ v => v.layout.fields.map (fun f => (f.name, f.wire.offset)) = [("n", 0),
        ("items[0].a", 16), ("items[0].b", 8), ("items[1].a", 24), ("items[1].b", 16),
        ("x", 24)] ∧
      ((v.layout.fields.map (·.wire)).drop 1).take 4 =
        [⟨16, 8⟩, ⟨8, 8⟩, ⟨24, 8⟩, ⟨16, 8⟩] ∧
      ¬ (v.layout.fields.map (·.wire)).Pairwise Span.Apart) (by decide +kernel)
  obtain ⟨hplaces, hspans, hmeet⟩ := of_decide_eq_true hp
  obtain ⟨rfl, -⟩ := View.openFull_eq_ok_iff.mp hv
  obtain ⟨_, lt, vt, -, hlt, hvt, hpt⟩ := @Schema.exists_view swaps "Pair" .wire []
    (fun _ v => v.layout.fields.map (·.wire) = [⟨8, 8⟩, ⟨0, 8⟩] ∧ v.layout.size.wire = 16)
    (by decide +kernel)
  obtain ⟨hpair, hsize⟩ := of_decide_eq_true hpt
  obtain ⟨rfl, -⟩ := View.openFull_eq_ok_iff.mp hvt
  refine ⟨v.layout, vt.layout, hl, hlt, ?_, hsize, hplaces, fun start h => ?_, hmeet⟩
  · rw [hpair]
    decide
  · rw [hspans, hpair, hsize] at h
    simp [Course.copies, List.range_succ, Span.shift] at h
    omega

end Schema

end WireRecord
