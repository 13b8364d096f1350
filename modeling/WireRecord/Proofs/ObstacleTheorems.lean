/-
WireRecord.Proofs.ObstacleTheorems — why opening a view is refused.

Opening goes through the marks of a layout in order. It should fail for a reason that
can be pointed at in the record, `Layout.Obstructed`: a counter that is not there, lies
outside the buffer or holds no natural number, or a field that ends outside the buffer.
Expansion has one reason more, `Layout.Crowded`: a counter that holds more than the
buffer has bits. It is meant to save the work of repeating what cannot fit, and so it
does as long as every item takes a bit. Items of a struct without scalars do not
(`hollow`), and neither do scalars without a name.

Together the two are all there is. Where every counted struct has a scalar in it and
names are in order, whoever reaches the end without an obstacle has met no such counter:
each item has left an element in the buffer.
-/
import WireRecord.Proofs.CountTheorems
import WireRecord.Proofs.WalkTheorems

namespace WireRecord

/-! ## What refuses a record -/

namespace Layout

/-- Whether opening on a buffer gets to a counter that holds more than the buffer has
bits. -/
def Crowded (l : Layout) (r : Representation) (b : Bytes) : Prop :=
  ∃ done p n, l.Reaches r b done (.counter p) ∧
    Source.held? ⟨l.fields, r, b⟩ (Mark.entries done) p = some n ∧ 8 * b.length < n

variable {l : Layout} {r : Representation} {b : Bytes}

/-- A buffer that shows all marks opens if no counter among them exceeds its bits. -/
theorem crowded_of_shows {N : String → Nat}
    (hall : Source.Shows ⟨l.fields, r, b⟩ N [] (l.marks N).1) {c : String}
    (hc : c ∈ Mark.counters (l.marks N).1) (hlt : 8 * b.length < N c) : l.Crowded r b := by
  obtain ⟨done, rest, hmarks⟩ := List.append_of_mem (Mark.mem_counters_iff.mp hc)
  rw [hmarks, Source.shows_append, List.nil_append] at hall
  exact ⟨done, c, N c, ⟨N, rest, hmarks, hall.1⟩, hall.2.1, hlt⟩

theorem not_crowded_of_admits {M : String → Nat}
    (hall : Source.Admits ⟨l.fields, r, b⟩ M [] (l.marks M).1) : ¬ l.Crowded r b := by
  rintro ⟨done, p, n, hreaches, hheld, hlt⟩
  obtain ⟨hshows, hle⟩ := Source.admits_iff.mp hall
  obtain ⟨rest, hmarks, hp⟩ := hreaches.of_shows hshows
  have hsame : n = M p := Option.some.inj (hheld.symm.trans hp.1)
  have hbound := hle p (Mark.mem_counters_iff.mpr (by rw [hmarks]; simp))
  rw [← hsame] at hbound
  exact absurd hlt (Nat.not_lt.mpr hbound)

end Layout

/-- Opening is refused at an obstacle or at a counter beyond the limit, and nowhere
else. -/
theorem View.openFull_eq_error_iff {l : Layout} {r : Representation} {b : Bytes}
    (hwell : ∀ N, ∀ f ∈ l.fields ++ Mark.entries (l.marks N).1, f.WellPlaced) :
    (∃ e, openFull l r b = .error e) ↔ l.Obstructed r b ∨ l.Crowded r b := by
  constructor
  · rintro ⟨e, he⟩
    by_contra hneither
    obtain ⟨hclear, hroom⟩ := not_or.mp hneither
    obtain ⟨N, hall⟩ := l.exists_shows hwell hclear
    have hadmits : Source.Admits ⟨l.fields, r, b⟩ N [] (l.marks N).1 :=
      Source.admits_iff.mpr ⟨hall, fun c hc => Nat.not_lt.mp fun hlt =>
        hroom (Layout.crowded_of_shows hall hc hlt)⟩
    rw [openFull_of_admits hadmits] at he
    cases he
  · intro hreason
    cases hv : openFull l r b with
    | error e => exact ⟨e, rfl⟩
    | ok v =>
      have hopened := opened_of_openFull hv
      obtain ⟨rfl, rfl, rfl, -⟩ := openFull_eq_ok_iff.mp hv
      rcases hreason with hobstructed | hcrowded
      · exact absurd hobstructed
          (Layout.not_obstructed_of_shows (Source.admits_iff.mp hopened.admits).1)
      · exact absurd hcrowded (Layout.not_crowded_of_admits hopened.admits)

/-! ## What items leave behind their counter -/

/-- Whether behind each counter among some marks there is a trace of every item that it
counts. -/
def Traced (N : String → Nat) : List (Mark Row) → Prop
  | [] => True
  | .counter p :: rest =>
    (∃ whole, ∀ i < N p, ∃ k ∈ rest, (Path.item whole i).toList <+: k.path.toList) ∧ Traced N rest
  | .entry _ :: rest => Traced N rest

namespace Traced

variable {N : String → Nat} {a b : List (Mark Row)}

theorem append (ha : Traced N a) (hb : Traced N b) : Traced N (a ++ b) := by
  induction a with
  | nil => exact hb
  | cons m rest ih =>
    cases m with
    | counter p =>
      obtain ⟨⟨whole, hwhole⟩, hrest⟩ := ha
      refine ⟨⟨whole, fun i hi => ?_⟩, ih hrest⟩
      obtain ⟨k, hk, hbegins⟩ := hwhole i hi
      exact ⟨k, List.mem_append_left b hk, hbegins⟩
    | entry r => exact ih ha

theorem right (h : Traced N (a ++ b)) : Traced N b := by
  induction a with
  | nil => exact h
  | cons m rest ih =>
    cases m with
    | counter p => exact ih h.2
    | entry r => exact ih h

theorem flatMap {α : Type} {as : List α} {f : α → List (Mark Row)}
    (h : ∀ a ∈ as, Traced N (f a)) : Traced N (as.flatMap f) := by
  induction as with
  | nil => trivial
  | cons a rest ih =>
    rw [List.flatMap_cons]
    exact (h a List.mem_cons_self).append (ih fun c hc => h c (List.mem_cons_of_mem a hc))

/-- Items that leave something each, behind the counter that is asked for them. -/
theorem asked {e : Element} {path : String} {rows : String → List (Mark Row)}
    (hitems : ∀ p ∈ e.instances N path, Traced N (rows p))
    (hleft : e.counter? ≠ none → ∀ p ∈ e.instances N path,
      ∃ k ∈ rows p, p.toList <+: k.path.toList) :
    Traced N (Template.asked path e.counter? ++ (e.instances N path).flatMap rows) := by
  cases hc : e.counter? with
  | none => exact flatMap hitems
  | some c =>
    refine ⟨⟨Path.join path e.name, fun i hi => ?_⟩, flatMap hitems⟩
    have hmem := e.item_mem_instances (p := Path.join path c)
      (by rw [hc]; exact List.mem_singleton_self _) hi
    obtain ⟨k, hk, hbegins⟩ := hleft (by simp [hc]) _ hmem
    exact ⟨k, List.mem_flatMap.mpr ⟨_, hmem, hk⟩, hbegins⟩

end Traced

mutual

/-- Where every counted struct has a scalar in it, each item that is counted leaves
something behind its counter. -/
theorem Shape.traced_rows (N : String → Nat) : ∀ (shape : Shape) (path : String),
    shape.Everywhere Placeable → shape.Everywhere Bearing → Traced N (shape.rows N path)
  | .mk _ _ members, path, hplaceable, hbearing =>
      membersRows_traced N members path hplaceable.2 hbearing.1 hbearing.2

theorem membersRows_traced (N : String → Nat) : ∀ (members : List Member) (path : String),
    membersEverywhere Placeable members → Bearing members → membersEverywhere Bearing members →
    Traced N (membersRows N path members)
  | [], _, _, _, _ => trivial
  | m :: rest, path, hplaceable, hbearing, hin => by
      obtain ⟨hm, hrest⟩ := List.forall_mem_cons.mp hbearing
      exact (m.traced_rows N path hplaceable.1 hm hin.1).append
        (membersRows_traced N rest path hplaceable.2 hrest hin.2)

theorem Member.traced_rows (N : String → Nat) : ∀ (m : Member) (path : String),
    m.Everywhere Placeable → (m.element.counter? ≠ none → m.hasLeaf = true) →
    m.Everywhere Bearing → Traced N (m.rows N path)
  | .leaf e type table, path, _, _, _ => by
      rw [Member.rows, List.map_eq_flatMap]
      refine Traced.asked (fun p _ => trivial) fun _ p _ => ?_
      exact ⟨_, List.mem_singleton_self _, List.prefix_refl _⟩
  | .nested e shape, path, hplaceable, hleaf, hin => by
      rw [Member.rows]
      refine Traced.asked (fun p _ => shape.traced_rows N p hplaceable hin) fun hcounted p hp => ?_
      have hp : p ≠ "" := by
        rcases Element.mem_instances hp with ⟨-, hone⟩ | ⟨-, i, rfl⟩
        · simp [Element.counter?, hone] at hcounted
        · exact Path.item_ne_empty _ i
      obtain ⟨k, hk⟩ := List.exists_mem_of_ne_nil _
        (shape.rows_ne_nil N p hplaceable (hleaf hcounted))
      exact ⟨k, hk, (shape.below_marks N hp hk).begins⟩
  | .cyclic _ _ _, _, _, _, _ => trivial
  | .unresolved _ _, _, _, _, _ => trivial

end

/-! ## Room for the items -/

/-- No more fields lie behind one another than there are bits. -/
theorem Field.length_le_of_pairwise {r : Representation} {fs : List Field} {hi : Nat}
    (horder : fs.Pairwise fun f g => (f.span r).stop ≤ (g.span r).offset)
    (hpos : ∀ f ∈ fs, 1 ≤ (f.span r).size) (hstop : ∀ f ∈ fs, (f.span r).stop ≤ hi) :
    fs.length ≤ hi := by
  have hordered : ∀ lo, lo ≤ hi → (∀ f ∈ fs, lo ≤ (f.span r).offset) →
      Field.Ordered r lo fs hi := by
    induction fs with
    | nil => exact fun lo hlo _ => hlo
    | cons f rest ih =>
      intro lo _ hfrom
      obtain ⟨hf, hrest⟩ := List.pairwise_cons.mp horder
      exact ⟨hfrom f List.mem_cons_self,
        ih hrest (fun g hg => hpos g (List.mem_cons_of_mem f hg))
          (fun g hg => hstop g (List.mem_cons_of_mem f hg)) _ (hstop f List.mem_cons_self) hf⟩
  have hlength := (hordered 0 (Nat.zero_le hi) fun f _ => Nat.zero_le _).length_le hpos
  omega

section Room

variable {s : Schema} {name : String} {d : StructDecl} {l : Layout} {r : Representation}
  {b : Bytes} {N : String → Nat}

/-- With plain names the items leave fields behind their counter. They lie in the variable
part, which has no two fields on one bit. -/
theorem Schema.counter_le_of_plainlyNamed (hnames : ∀ t ∈ s.structs, PlainlyNamed t.elements)
    (hbearing : (s.shape d).Everywhere Bearing) (hd : s.root name = .ok d)
    (hl : s.layout name = .ok l) (hall : Source.Shows ⟨l.fields, r, b⟩ N [] (l.marks N).1) :
    ∀ c ∈ Mark.counters (l.marks N).1, N c ≤ 8 * b.length := by
  have hnamed : ∀ t ∈ s.structs, Named t.elements := fun t ht => (hnames t ht).named
  have hlayout := Schema.sound_of_layout hd hl
  have hstretch : Stretch l.size (Mark.entries (l.marks N).1) (l.marks N).2 :=
    stretch_templateMarks N l.templates "" l.size hlayout.templates hlayout.size_mod
  have hbears := View.bearsOut_rows (v := ⟨l, r, b, Mark.entries (l.marks N).1, (l.marks N).2⟩)
    hnamed hd hl rfl hall
  have hcovered := (s.shape d).covered_rows "" []
    (Schema.shape_everywhere hnames (Schema.mem_structs_of_root hd))
    (Schema.placeable_of_layout hd hl) hbearing hbears fun _ hr => (List.not_mem_nil hr).elim
  rw [← Schema.rows_of_layout hnamed hd hl N] at hcovered
  have hroom := Field.length_le_of_pairwise (hstretch.in_order r).pairwise
    (fun f hf => (hstretch.well f hf).size_pos r) hall.entry_stop
  exact fun c hc => Nat.le_trans (hcovered.right.of_map.counter_le c hc) hroom

/-- What a mark leaves in a buffer that shows it is an element that ends within the buffer:
the field itself, or the field that a counter is read from. -/
theorem exists_inside_of_shows (hall : Source.Shows ⟨l.fields, r, b⟩ N [] (l.marks N).1)
    {k : Mark Field} (hk : k ∈ (l.marks N).1) :
    ∃ f ∈ l.fields ++ Mark.entries (l.marks N).1, (f.span r).stop ≤ 8 * b.length ∧
      f.name = (k.map Field.row).path := by
  cases k with
  | entry f =>
    have hf : f ∈ Mark.entries (l.marks N).1 := List.mem_filterMap.mpr ⟨_, hk, rfl⟩
    exact ⟨f, List.mem_append_right _ hf, hall.entry_stop f hf, rfl⟩
  | counter q =>
    obtain ⟨f, x, hf, hread, -⟩ := Source.held?_eq_some_iff.mp
      (hall.held q (Mark.mem_counters_iff.mpr hk))
    rw [List.nil_append, ← List.find?_append] at hf
    have hname : f.name = q := by simpa using List.find?_some hf
    exact ⟨f, List.mem_of_find?_eq_some hf, (Field.read_eq_ok hread).1.stop_le, hname⟩

/-- Whatever the names are, each item leaves an element of the record in the buffer. Where
the elements of the record lie in order, these have a bit each. -/
theorem Schema.counter_le_of_ordered (hnames : ∀ t ∈ s.structs, Named t.elements)
    (hr : r = .native ∨ ∀ t ∈ s.structs, Unpositioned t.elements)
    (hbearing : (s.shape d).Everywhere Bearing) (hd : s.root name = .ok d)
    (hl : s.layout name = .ok l) (hall : Source.Shows ⟨l.fields, r, b⟩ N [] (l.marks N).1) :
    ∀ c ∈ Mark.counters (l.marks N).1, N c ≤ 8 * b.length := by
  intro c hc
  have hlayout := Schema.sound_of_layout hd hl
  have hsound := View.sound_of_stretch (v := ⟨l, r, b, Mark.entries (l.marks N).1, (l.marks N).2⟩)
    hlayout (stretch_templateMarks N l.templates "" l.size hlayout.templates hlayout.size_mod)
  have horder : (l.fields ++ Mark.entries (l.marks N).1).Pairwise fun f g =>
      (f.span r).stop ≤ (g.span r).offset := by
    cases r with
    | native => exact hsound.native.pairwise
    | wire => exact (hsound.wire (hr.resolve_left (by simp))).pairwise
  obtain ⟨done, rest, hmarks⟩ := List.append_of_mem (Mark.mem_counters_iff.mp hc)
  have htraced := (s.shape d).traced_rows N "" (Schema.placeable_of_layout hd hl) hbearing
  rw [← Schema.rows_of_layout hnames hd hl N, hmarks, List.map_append] at htraced
  obtain ⟨⟨whole, hwhole⟩, -⟩ := htraced.right.right
  -- the elements that end within the buffer
  let inside := (l.fields ++ Mark.entries (l.marks N).1).filter fun f =>
    (f.span r).stop ≤ 8 * b.length
  have hinside : ∀ f, f ∈ inside ↔
      f ∈ l.fields ++ Mark.entries (l.marks N).1 ∧ (f.span r).stop ≤ 8 * b.length := by
    intro f
    simp only [inside, List.mem_filter, decide_eq_true_eq]
  have hroom : inside.length ≤ 8 * b.length :=
    Field.length_le_of_pairwise (horder.sublist List.filter_sublist)
      (fun f hf => (hsound.well f ((hinside f).mp hf).1).size_pos r)
      fun f hf => ((hinside f).mp hf).2
  have hcount : N c ≤ (inside.map Field.row).length := by
    refine @le_length_of_prefixes _ whole _ fun i hi => ?_
    obtain ⟨_, hleft, hbegins⟩ := hwhole i hi
    obtain ⟨k, hk, rfl⟩ := List.mem_map.mp hleft
    obtain ⟨f, hf, hstop, hname⟩ := exists_inside_of_shows hall (k := k)
      (by rw [hmarks]; exact List.mem_append_right _ (List.mem_cons_of_mem _ hk))
    refine ⟨f.row, List.mem_map.mpr ⟨f, (hinside f).mpr ⟨hf, hstop⟩, rfl⟩, ?_⟩
    rw [← hname] at hbegins
    exact hbegins
  rw [List.length_map] at hcount
  exact Nat.le_trans hcount hroom

end Room

namespace View

/-- Opening a record is refused at an obstacle or at a counter beyond the limit. Where
every counted struct has a scalar in it and the names are plain, or are there and the
elements lie in order, the limit refuses nothing but what is obstructed as well. -/
theorem refused_iff {s : Schema} {name : String} {d : StructDecl} {l : Layout}
    (hd : s.root name = .ok d) (hl : s.layout name = .ok l) (r : Representation) (b : Bytes) :
    ((∃ e, openFull l r b = .error e) ↔ l.Obstructed r b ∨ l.Crowded r b) ∧
    ((s.shape d).Everywhere Bearing →
      ((∀ t ∈ s.structs, PlainlyNamed t.elements) ∨ (∀ t ∈ s.structs, Named t.elements) ∧
        (r = .native ∨ ∀ t ∈ s.structs, Unpositioned t.elements)) →
      ((∃ e, openFull l r b = .error e) ↔ l.Obstructed r b)) := by
  have hlayout := Schema.sound_of_layout hd hl
  have hwell : ∀ N, ∀ f ∈ l.fields ++ Mark.entries (l.marks N).1, f.WellPlaced := by
    intro N f hf
    rcases List.mem_append.mp hf with hf | hf
    · exact hlayout.well f hf
    · exact (stretch_templateMarks N l.templates "" l.size hlayout.templates
        hlayout.size_mod).well f hf
  have hiff := openFull_eq_error_iff (r := r) (b := b) hwell
  refine ⟨hiff, fun hbearing hnames => ?_⟩
  rw [hiff]
  refine ⟨fun hreason => ?_, .inl⟩
  by_contra hclear
  obtain ⟨N, hall⟩ := l.exists_shows hwell hclear
  have hle : ∀ c ∈ Mark.counters (l.marks N).1, N c ≤ 8 * b.length := by
    rcases hnames with hplain | ⟨hnamed, horder⟩
    · exact Schema.counter_le_of_plainlyNamed hplain hbearing hd hl hall
    · exact Schema.counter_le_of_ordered hnamed horder hbearing hd hl hall
  exact Layout.not_crowded_of_admits (Source.admits_iff.mpr ⟨hall, hle⟩)
    (hreason.resolve_left hclear)

/-- Two bytes of two chunks are refused for a field that ends behind them; all six bytes
have no obstacle. -/
theorem refused_iff_chunks : ∃ l, chunks.layout "Record" = .ok l ∧
    (∃ e, openFull l .wire [0x32, 0xA5] = .error e) ∧ l.Obstructed .wire [0x32, 0xA5] ∧
    ¬ l.Obstructed .wire [0x32, 0xA5, 0x2F, 0x80, 0x01, 0x7C] := by
  obtain ⟨d, l, v, hd, hl, hv, hp⟩ := @Schema.exists_view chunks "Record" .wire
    [0x32, 0xA5, 0x2F, 0x80, 0x01, 0x7C]
    (fun d v => (chunks.shape d).Everywhere Bearing ∧
      (openFull v.layout .wire [0x32, 0xA5]).isOk = false) (by decide +kernel)
  obtain ⟨hbearing, hshort⟩ := of_decide_eq_true hp
  obtain ⟨rfl, -⟩ := openFull_eq_ok_iff.mp hv
  have hnames : ∀ t ∈ chunks.structs, PlainlyNamed t.elements := by decide
  obtain ⟨-, hiff⟩ := refused_iff hd hl .wire [0x32, 0xA5]
  obtain ⟨-, hiff'⟩ := refused_iff hd hl .wire [0x32, 0xA5, 0x2F, 0x80, 0x01, 0x7C]
  have herror := exists_error_of_isOk hshort
  refine ⟨v.layout, hl, herror, (hiff hbearing (.inl hnames)).mp herror, fun hobstructed => ?_⟩
  obtain ⟨e, he⟩ := (hiff' hbearing (.inl hnames)).mpr hobstructed
  rw [hv] at he
  cases he

end View

/-! ## Items that take no room -/

/-- Records of counted items without anything in them. -/
def hollow : Schema where
  version := ⟨3, 0⟩
  aliases := []
  enums := []
  structs :=
    [ { name := "Empty", alignment := 1, elements := [] },
      { name := "Record", alignment := 1
        elements :=
          [ .simple "n" "tUInt8" (.fixed 1) none,
            .simple "items" "Empty" (.countedBy "n") none ] } ]

/-- Nine items without fields fit into any buffer, and the byte of their counter is all
there: nothing is in the way, but the record is refused. -/
theorem View.not_refused_iff_hollow : ∃ l, hollow.layout "Record" = .ok l ∧
    (∃ e, openFull l .wire [9] = .error e) ∧ ¬ l.Obstructed .wire [9] := by
  obtain ⟨d, l, v, -, hl, hv, hp⟩ := @Schema.exists_view hollow "Record" .wire [9, 0]
    (fun _ v => (openFull v.layout .wire [9]).isOk = false ∧
      Source.Shows ⟨v.layout.fields, .wire, [9]⟩ (fun _ => 9) [] (v.layout.marks fun _ => 9).1)
    (by decide +kernel)
  obtain ⟨hrefused, hshows⟩ := of_decide_eq_true hp
  obtain ⟨rfl, -⟩ := openFull_eq_ok_iff.mp hv
  exact ⟨v.layout, hl, exists_error_of_isOk hrefused, Layout.not_obstructed_of_shows hshows⟩

end WireRecord
