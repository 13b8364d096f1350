/-
WireRecord.Proofs.UnfoldingTheorems — a full view lists the unfolding of its
struct.

Expansion finds counters by their paths, `Shape.unfold` by their place among the
siblings. The two find the same element as long as names are plain: what lies
below one member of an instance does not lie below another, and what lies below
one instance of an array does not lie below another. So an element with the path
of a sibling is that sibling, and it belongs to the very instance that the array
is in. `Siblings.Match` is this as an invariant of the unfolding.
-/
import WireRecord.Proofs.ArithmeticTheorems
import WireRecord.Proofs.ExpansionTheorems
import WireRecord.Proofs.RowTheorems

namespace WireRecord

open WireRecord.Path (Below Plain)

/-! ## Names of rows -/

theorem Mark.entries_flatMap {α β : Type} (f : α → List (Mark β)) (as : List α) :
    Mark.entries (as.flatMap f) = as.flatMap fun a => Mark.entries (f a) := by
  induction as with
  | nil => rfl
  | cons a rest ih => rw [List.flatMap_cons, Mark.entries_append, ih, List.flatMap_cons]

namespace Element

variable {N : String → Nat} {path : String}

/-- An item is named by its element and an index, unless there is just one. -/
theorem mem_instances {e : Element} {p : String} (h : p ∈ e.instances N path) :
    p = Path.join path e.name ∧ e.repetition = .fixed 1 ∨
      e.repetition ≠ .fixed 1 ∧ ∃ i, p = Path.item (Path.join path e.name) i := by
  unfold instances at h
  cases hr : e.repetition with
  | fixed n =>
    rw [hr] at h
    obtain ⟨i, -, rfl⟩ := List.mem_map.mp h
    by_cases hn : n = 1
    · exact .inl ⟨by simp [Path.itemOf, hn], by rw [hn]⟩
    · exact .inr ⟨by simpa using hn, i, by simp [Path.itemOf, hn]⟩
  | countedBy c =>
    rw [hr] at h
    obtain ⟨i, -, rfl⟩ := List.mem_map.mp h
    exact .inr ⟨by simp, i, rfl⟩

theorem below_of_mem_instances {e : Element} {p : String} (h : p ∈ e.instances N path) :
    Below (Path.join path e.name) p := by
  rcases mem_instances h with ⟨rfl, -⟩ | ⟨-, i, rfl⟩
  · exact Below.refl _
  · exact Path.below_item _ i

theorem ne_empty_of_mem_instances {e : Element} {p : String} (hname : e.name ≠ "")
    (h : p ∈ e.instances N path) : p ≠ "" := by
  rcases mem_instances h with ⟨rfl, -⟩ | ⟨-, i, rfl⟩
  · exact Path.join_ne_empty hname
  · exact Path.item_ne_empty _ i

/-- Nothing lies below two items of an element. -/
theorem instances_pairwise (e : Element) :
    (e.instances N path).Pairwise fun p q => ∀ name, Below p name → ¬ Below q name := by
  unfold instances
  cases e.repetition with
  | fixed n =>
    by_cases hn : n = 1
    · subst hn
      exact List.pairwise_singleton _ _
    · simp only [Path.itemOf, hn, if_false]
      rw [List.pairwise_map]
      refine List.pairwise_lt_range.imp fun hij name hi hj => ?_
      exact absurd (Path.index_eq_of_below hi hj) (Nat.ne_of_lt hij)
  | countedBy c =>
    simp only [List.pairwise_map]
    refine List.pairwise_lt_range.imp fun hij name hi hj => ?_
    exact absurd (Path.index_eq_of_below hi hj) (Nat.ne_of_lt hij)

end Element

theorem entries_rows_leaf (N : String → Nat) (path : String) (e : Element) (type : Scalar)
    (table : Option EnumTable) : Mark.entries ((Member.leaf e type table).rows N path) =
      (e.instances N path).map (e.row type table) := by
  rw [Member.rows, Mark.entries_append, Template.entries_asked, List.nil_append,
    Mark.entries_map_comp]

theorem entries_rows_nested (N : String → Nat) (path : String) (e : Element) (shape : Shape) :
    Mark.entries ((Member.nested e shape).rows N path) =
      (e.instances N path).flatMap fun p => Mark.entries (shape.rows N p) := by
  rw [Member.rows, Mark.entries_append, Template.entries_asked, List.nil_append,
    Mark.entries_flatMap]

mutual

/-- The rows of an instance lie below its path, and none is named by it alone. -/
theorem Shape.below_rows (N : String → Nat) : ∀ (shape : Shape) {path : String} {r : Row},
    shape.Everywhere (OfElements Named) → path ≠ "" → r ∈ Mark.entries (shape.rows N path) →
    Below path r.name ∧ path.toList.length < r.name.toList.length
  | .mk _ _ members, path, r, hnames, hpath, hr => by
      obtain ⟨e, he, hbelow⟩ := membersRows_below N members hnames.1 hnames.2 hr
      exact ⟨(Path.below_join hpath _).trans hbelow,
        Nat.lt_of_lt_of_le (Path.length_lt_join hpath (hnames.1 e he)) hbelow.length_le⟩

/-- The rows of some members lie below the paths of these members. -/
theorem membersRows_below (N : String → Nat) : ∀ (members : List Member) {path : String}
    {r : Row}, OfElements Named members → membersEverywhere (OfElements Named) members →
    r ∈ Mark.entries (membersRows N path members) →
    ∃ e ∈ elementsOf members, Below (Path.join path e.name) r.name
  | [], _, _, _, _, hr => (List.not_mem_nil hr).elim
  | m :: rest, path, r, hnames, hin, hr => by
      have hm := hnames m.element List.mem_cons_self
      rw [membersRows, Mark.entries_append] at hr
      rcases List.mem_append.mp hr with hr | hr
      · exact ⟨m.element, List.mem_cons_self, (m.below_rows N hm hin.1 hr).1⟩
      · obtain ⟨e, he, hbelow⟩ := membersRows_below N rest
          (fun e he => hnames e (List.mem_cons_of_mem _ he)) hin.2 hr
        exact ⟨e, List.mem_cons_of_mem _ he, hbelow⟩

/-- The rows of a member lie below its path. None but a plain scalar is named by
it alone. -/
theorem Member.below_rows (N : String → Nat) : ∀ (m : Member) {path : String} {r : Row},
    m.element.name ≠ "" → m.Everywhere (OfElements Named) → r ∈ Mark.entries (m.rows N path) →
    Below (Path.join path m.element.name) r.name ∧
      (r.name = Path.join path m.element.name → ∃ e type table, m = .leaf e type table ∧
        e.repetition = .fixed 1)
  | .leaf e type table, path, r, _, _, hr => by
      rw [entries_rows_leaf] at hr
      obtain ⟨p, hp, rfl⟩ := List.mem_map.mp hr
      refine ⟨Element.below_of_mem_instances hp, fun hname => ⟨e, type, table, rfl, ?_⟩⟩
      rcases Element.mem_instances hp with ⟨-, hone⟩ | ⟨-, i, rfl⟩
      · exact hone
      · have hlt := Path.length_lt_item (Path.join path e.name) i
        have heq : Path.item (Path.join path e.name) i = Path.join path e.name := hname
        rw [heq] at hlt
        exact absurd hlt (Nat.lt_irrefl _)
  | .nested e shape, path, r, hname, hin, hr => by
      rw [entries_rows_nested] at hr
      obtain ⟨p, hp, hr⟩ := List.mem_flatMap.mp hr
      have hwhole := Element.below_of_mem_instances hp
      obtain ⟨hbelow, hlt⟩ := shape.below_rows N hin (Element.ne_empty_of_mem_instances hname hp) hr
      refine ⟨hwhole.trans hbelow, fun heq => ?_⟩
      have hle := hwhole.length_le
      rw [heq] at hlt
      exact absurd (Nat.lt_of_lt_of_le hlt hle) (Nat.lt_irrefl _)
  | .cyclic _ _ _, _, _, _, _, hr => (List.not_mem_nil hr).elim
  | .unresolved _ _, _, _, _, _, hr => (List.not_mem_nil hr).elim

end

/-! ## What rows say about counters -/

/-- Whether some marks are borne out by the numbers that elements hold, after some
rows: each counter is the path of a row by then, and the first such row holds its
number. -/
def BearsOut (held : Nat → Option Nat) (N : String → Nat) : List Row → List (Mark Row) → Prop
  | _, [] => True
  | found, .counter p :: rest =>
    (∃ k, found.findIdx? (·.name == p) = some k ∧ held k = some (N p)) ∧
      BearsOut held N found rest
  | found, .entry r :: rest => BearsOut held N (found ++ [r]) rest

theorem bearsOut_append {held : Nat → Option Nat} {N : String → Nat} {a b : List (Mark Row)}
    {found : List Row} : BearsOut held N found (a ++ b) ↔
      BearsOut held N found a ∧ BearsOut held N (found ++ Mark.entries a) b := by
  induction a generalizing found with
  | nil => simp [BearsOut]
  | cons m rest ih =>
    cases m with
    | counter p =>
      have hentries : Mark.entries (.counter p :: rest) = Mark.entries rest := rfl
      simp only [List.cons_append, BearsOut, ih, and_assoc, hentries]
    | entry r =>
      have hentries : Mark.entries (.entry r :: rest) = r :: Mark.entries rest := rfl
      simp only [List.cons_append, BearsOut, ih, hentries, List.append_assoc, List.nil_append]

/-- Rows alone ask for no counter. -/
theorem bearsOut_entries {held : Nat → Option Nat} {N : String → Nat} {α : Type} (g : α → Row)
    (as : List α) (found : List Row) : BearsOut held N found (as.map fun a => .entry (g a)) := by
  induction as generalizing found with
  | nil => trivial
  | cons a rest ih => exact ih (found ++ [g a])

/-! ## Siblings -/

/-- What the siblings of an instance know: for any plain name the first row with
the path of that member, and nothing yet of the members to come. -/
structure Siblings.Match (path : String) (earlier : List String) (found : List Row)
    (siblings : Siblings) : Prop where
  lookup_eq : ∀ a, Plain a → found.findIdx? (·.name == Path.join path a) = siblings.lookup a
  fresh : ∀ a, Plain a → a ∉ earlier → ∀ r ∈ found, ¬ Below (Path.join path a) r.name

namespace Siblings.Match

variable {path : String} {earlier : List String} {found new : List Row} {siblings : Siblings}

/-- An instance starts without siblings where no row lies below its path. -/
theorem start (h : ∀ r ∈ found, path ≠ "" ∧ ¬ Below path r.name) : Match path [] found [] := by
  have hfresh : ∀ a, ∀ r ∈ found, ¬ Below (Path.join path a) r.name := fun a r hr hbelow =>
    (h r hr).2 ((Path.below_join (h r hr).1 a).trans hbelow)
  refine ⟨fun a _ => ?_, fun a _ _ => hfresh a⟩
  rw [List.lookup_nil, List.findIdx?_eq_none_iff]
  intro r hr
  have hne : r.name ≠ Path.join path a := fun heq => hfresh a r hr (heq ▸ Below.refl _)
  simpa using hne

theorem lookup_eq_none (h : Match path earlier found siblings) {a : String} (ha : Plain a)
    (hnew : a ∉ earlier) : siblings.lookup a = none := by
  rw [← h.lookup_eq a ha, List.findIdx?_eq_none_iff]
  intro r hr
  have hne : r.name ≠ Path.join path a := fun heq =>
    h.fresh a ha hnew r hr (heq ▸ Below.refl _)
  simpa using hne

/-- The rows of a member follow, and the siblings know of that member what its
rows say about its path. -/
theorem extend (h : Match path earlier found siblings) {b : String} (hb : Plain b)
    (hnew : b ∉ earlier) (hbelow : ∀ r ∈ new, Below (Path.join path b) r.name)
    {siblings' : Siblings}
    (hself : siblings'.lookup b =
      (new.findIdx? (·.name == Path.join path b)).map (· + found.length))
    (hother : ∀ a, a ≠ b → siblings'.lookup a = siblings.lookup a) :
    Match path (b :: earlier) (found ++ new) siblings' where
  lookup_eq a ha := by
    rw [List.findIdx?_append, h.lookup_eq a ha]
    by_cases hab : a = b
    · subst hab
      rw [h.lookup_eq_none ha hnew, hself]
      rfl
    · have hnone : new.findIdx? (·.name == Path.join path a) = none := by
        rw [List.findIdx?_eq_none_iff]
        intro r hr
        have hne : r.name ≠ Path.join path a := fun heq =>
          hab (Plain.eq_of_below ha hb (heq ▸ Below.refl _) (hbelow r hr))
        simpa using hne
      rw [hnone, hother a hab]
      simp
  fresh a ha hearlier r hr := by
    rw [List.mem_cons, not_or] at hearlier
    rcases List.mem_append.mp hr with hr | hr
    · exact h.fresh a ha hearlier.2 r hr
    · exact fun hbelow' => hearlier.1 (Plain.eq_of_below ha hb hbelow' (hbelow r hr))

/-- Going on behind a member keeps the siblings matched. -/
theorem enter (h : Match path earlier found siblings) {N : String → Nat} {m : Member}
    (hm : Plain m.element.name) (hnew : m.element.name ∉ earlier)
    (hin : m.Everywhere (OfElements Named)) :
    Match path (m.element.name :: earlier) (found ++ Mark.entries (m.rows N path))
      (m.enter found.length siblings) := by
  have hbelow := fun r hr => @Member.below_rows N m path r hm.1 hin hr
  by_cases hplain : ∃ e type table, m = .leaf e type table ∧ e.repetition = .fixed 1
  · obtain ⟨e, type, table, rfl, hone⟩ := hplain
    refine h.extend hm hnew (fun r hr => (hbelow r hr).1) ?_ fun a ha => ?_
    · have hinstances : e.instances N path = [Path.join path e.name] := by
        rw [Element.instances, hone]
        rfl
      rw [Member.enter, if_pos hone, entries_rows_leaf, hinstances]
      simp [Member.element, Element.row]
    · have hne : (a == e.name) = false := beq_eq_false_iff_ne.mpr ha
      rw [Member.enter, if_pos hone, List.lookup_cons, hne]
  · have hsame : m.enter found.length siblings = siblings := by
      cases m with
      | leaf e type table =>
        exact if_neg fun hone => hplain ⟨e, type, table, rfl, hone⟩
      | nested e shape => rfl
      | cyclic e struct alignment => rfl
      | unresolved e reason => rfl
    have hnone : (Mark.entries (m.rows N path)).findIdx?
        (·.name == Path.join path m.element.name) = none := by
      rw [List.findIdx?_eq_none_iff]
      intro r hr
      have hne : r.name ≠ Path.join path m.element.name := fun heq => hplain ((hbelow r hr).2 heq)
      simpa using hne
    rw [hsame]
    refine h.extend hm hnew (fun r hr => (hbelow r hr).1) ?_ fun a _ => rfl
    rw [hnone, h.lookup_eq_none hm hnew]
    rfl

end Siblings.Match

/-! ## The unfolding -/

section Unfold

variable {held : Nat → Option Nat} {N : String → Nat}

/-- The items of an element are its instances when its counter is borne out. -/
theorem Element.items_eq (e : Element) {path : String} {earlier : List String}
    {found : List Row} {siblings : Siblings} (hmatch : siblings.Match path earlier found)
    (hearlier : ∀ a ∈ earlier, Plain a)
    (hcounter : match e.repetition with
      | .fixed n => 0 < n
      | .countedBy c => c ∈ earlier)
    (hasked : BearsOut held N found (Template.asked path e.counter?)) :
    e.items path (fun c => (siblings.lookup c).bind held) = some (e.instances N path) := by
  unfold items instances
  cases hr : e.repetition with
  | fixed n => rfl
  | countedBy c =>
    rw [counter?, hr] at hasked
    rw [hr] at hcounter
    obtain ⟨k, hk, hheld⟩ := hasked.1
    rw [hmatch.lookup_eq c (hearlier c hcounter)] at hk
    simp [hk, hheld]

/-- Instances at paths that nothing lies below twice. -/
theorem unfoldInstances_eq {one : String → Nat → Option (List Row)}
    {rows : String → List (Mark Row)}
    (hone : ∀ p found, BearsOut held N found (rows p) →
      (∀ r ∈ found, p ≠ "" ∧ ¬ Below p r.name) →
      one p found.length = some (Mark.entries (rows p)))
    (hbelow : ∀ p, p ≠ "" → ∀ r ∈ Mark.entries (rows p), Below p r.name)
    (ps : List String) (found : List Row)
    (hapart : ps.Pairwise fun p q => ∀ name, Below p name → ¬ Below q name)
    (hfresh : ∀ p ∈ ps, p ≠ "" ∧ ∀ r ∈ found, ¬ Below p r.name)
    (hrows : BearsOut held N found (ps.flatMap rows)) :
    unfoldInstances one ps found.length = some (Mark.entries (ps.flatMap rows)) := by
  induction ps generalizing found with
  | nil => rfl
  | cons p rest ih =>
    rw [List.flatMap_cons, bearsOut_append] at hrows
    obtain ⟨hp, hfound⟩ := hfresh p List.mem_cons_self
    obtain ⟨hfirst, hothers⟩ := List.pairwise_cons.mp hapart
    have h1 := hone p found hrows.1 fun r hr => ⟨hp, hfound r hr⟩
    -- nothing the first instance left lies below one of the others
    have hfresh' : ∀ q ∈ rest, q ≠ "" ∧
        ∀ r ∈ found ++ Mark.entries (rows p), ¬ Below q r.name := by
      intro q hq
      obtain ⟨hne, hold⟩ := hfresh q (List.mem_cons_of_mem p hq)
      refine ⟨hne, ?_⟩
      intro r hr
      rcases List.mem_append.mp hr with hr | hr
      · exact hold r hr
      · exact hfirst q hq r.name (hbelow p hp r hr)
    have h2 := ih (found ++ Mark.entries (rows p)) hothers hfresh' hrows.2
    rw [List.length_append] at h2
    rw [unfoldInstances, h1, List.flatMap_cons, Mark.entries_append]
    simp [h2]

mutual

/-- An instance of a shape unfolds to its rows, where no row so far lies below its
path and its counters are borne out. -/
theorem Shape.unfold_eq : ∀ (shape : Shape) (path : String) (found : List Row),
    shape.Everywhere (OfElements PlainlyNamed) → shape.Everywhere Placeable →
    BearsOut held N found (shape.rows N path) →
    (∀ r ∈ found, path ≠ "" ∧ ¬ Below path r.name) →
    shape.unfold held path found.length = some (Mark.entries (shape.rows N path))
  | .mk _ _ members, path, found, hnames, hplaceable, hrows, hfresh =>
      unfoldMembers_eq members path found [] [] hnames.1.1 (fun _ _ => List.not_mem_nil)
        hnames.1.2 (fun _ ha => (List.not_mem_nil ha).elim) hnames.2 hplaceable.1.resolved
        hplaceable.1.countable hplaceable.2 hrows (.start hfresh)

theorem unfoldMembers_eq : ∀ (members : List Member) (path : String) (found : List Row)
    (siblings : Siblings) (earlier : List String),
    ((elementsOf members).map (·.name)).Nodup →
    (∀ e ∈ elementsOf members, e.name ∉ earlier) →
    (∀ e ∈ elementsOf members, Plain e.name) → (∀ a ∈ earlier, Plain a) →
    membersEverywhere (OfElements PlainlyNamed) members → (∀ m ∈ members, m.Resolved) →
    Countable earlier (elementsOf members) → membersEverywhere Placeable members →
    BearsOut held N found (membersRows N path members) → siblings.Match path earlier found →
    unfoldMembers held path found.length siblings members =
      some (Mark.entries (membersRows N path members))
  | [], _, _, _, _, _, _, _, _, _, _, _, _, _, _ => rfl
  | m :: rest, path, found, siblings, earlier, hnodup, hnew, hplain, hearlier, hin, hresolved,
      hcountable, hplaceable, hrows, hmatch => by
      have hm := hplain m.element List.mem_cons_self
      have hmnew := hnew m.element List.mem_cons_self
      obtain ⟨hself, hnodup⟩ := List.nodup_cons.mp hnodup
      rw [membersRows, bearsOut_append] at hrows
      have h1 := m.unfold_eq path found siblings earlier hm hmnew hearlier hin.1
        (hresolved m List.mem_cons_self) hcountable.1 hplaceable.1 hrows.1 hmatch
      have h2 := unfoldMembers_eq rest path (found ++ Mark.entries (m.rows N path))
        (m.enter found.length siblings) (m.element.name :: earlier) hnodup
        (fun e he => by
          rw [List.mem_cons, not_or]
          exact ⟨fun heq => hself (List.mem_map.mpr ⟨e, he, heq⟩),
            hnew e (List.mem_cons_of_mem _ he)⟩)
        (fun e he => hplain e (List.mem_cons_of_mem _ he))
        (List.forall_mem_cons.mpr ⟨hm, hearlier⟩) hin.2
        (fun k hk => hresolved k (List.mem_cons_of_mem _ hk)) hcountable.2 hplaceable.2 hrows.2
        (hmatch.enter hm hmnew (m.named_of_plainlyNamed hin.1))
      rw [List.length_append] at h2
      rw [unfoldMembers, h1, membersRows, Mark.entries_append]
      simp [h2]

theorem Member.unfold_eq : ∀ (m : Member) (path : String) (found : List Row)
    (siblings : Siblings) (earlier : List String), Plain m.element.name →
    m.element.name ∉ earlier → (∀ a ∈ earlier, Plain a) →
    m.Everywhere (OfElements PlainlyNamed) → m.Resolved →
    (match m.element.repetition with
      | .fixed n => 0 < n
      | .countedBy c => c ∈ earlier) →
    m.Everywhere Placeable → BearsOut held N found (m.rows N path) →
    siblings.Match path earlier found →
    m.unfold held path found.length siblings = some (Mark.entries (m.rows N path))
  | .leaf e type table, path, found, siblings, earlier, _, _, hearlier, _, _, hcounter, _, hrows,
      hmatch => by
      rw [Member.rows, bearsOut_append] at hrows
      rw [Member.unfold, e.items_eq hmatch hearlier hcounter hrows.1, entries_rows_leaf]
      rfl
  | .nested e shape, path, found, siblings, earlier, hm, hnew, hearlier, hin, _, hcounter,
      hplaceable, hrows, hmatch => by
      rw [Member.rows, bearsOut_append, Template.entries_asked, List.append_nil] at hrows
      rw [Member.unfold, e.items_eq hmatch hearlier hcounter hrows.1, entries_rows_nested,
        ← Mark.entries_flatMap]
      have hnamed := shape.named_of_plainlyNamed hin
      refine unfoldInstances_eq (fun p found => fun hp hfresh =>
          shape.unfold_eq p found hin hplaceable hp hfresh)
        (fun p hp r hr => (shape.below_rows N hnamed hp hr).1) _ _
        (e.instances_pairwise) (fun p hp => ⟨Element.ne_empty_of_mem_instances hm.1 hp, ?_⟩)
        hrows.2
      intro r hr hbelow
      exact hmatch.fresh e.name hm hnew r hr ((Element.below_of_mem_instances hp).trans hbelow)
  | .cyclic _ _ _, _, _, _, _, _, _, _, _, hresolved, _, _, _, _ => hresolved.elim
  | .unresolved _ _, _, _, _, _, _, _, _, _, hresolved, _, _, _, _ => hresolved.elim

end

end Unfold

/-! ## Views -/

/-- The first element of a list with a property, by its index. -/
theorem exists_findIdx?_of_find? {α : Type} {p : α → Bool} {as : List α} {a : α}
    (h : as.find? p = some a) : ∃ k, as.findIdx? p = some k ∧ as[k]? = some a := by
  obtain ⟨ha, k, hk, hget, hbefore⟩ := List.find?_eq_some_iff_getElem.mp h
  refine ⟨k, List.findIdx?_eq_some_iff_getElem.mpr ⟨hk, by rw [hget]; exact ha, ?_⟩, ?_⟩
  · intro j hj
    simpa using hbefore j hj
  · rw [List.getElem?_eq_getElem hk, hget]

namespace View

/-- The natural number that the element with an index holds. -/
def natural (v : View) (index : Nat) : Option Nat :=
  (v.value index).toOption.bind Value.natural?

/-- What a buffer shows, its view bears out: the counters are the elements that
it reads. -/
theorem bearsOut_of_shows (v : View) {N : String → Nat} (marks : List (Mark Field))
    (found : List Field) (hv : v.expanded = found ++ Mark.entries marks)
    (h : v.source.Shows N found marks) :
    BearsOut v.natural N ((v.layout.fields ++ found).map Field.row)
      (marks.map (Mark.map Field.row)) := by
  induction marks generalizing found with
  | nil => trivial
  | cons m rest ih =>
    cases m with
    | counter p =>
      refine ⟨?_, ih found hv h.2⟩
      obtain ⟨f, x, hf, hx, hn⟩ := Source.held?_eq_some_iff.mp h.1
      have hfind : (v.layout.fields ++ found).find? (·.name == p) = some f := by
        rw [List.find?_append]
        exact hf
      obtain ⟨k, hk, hget⟩ := exists_findIdx?_of_find? hfind
      refine ⟨k, ?_, ?_⟩
      · rw [List.findIdx?_map]
        exact hk
      · have helement : v.elements[k]? = some f := by
          have hlt := (List.getElem?_eq_some_iff.mp hget).1
          rw [elements, hv, ← List.append_assoc, List.getElem?_append_left hlt]
          exact hget
        have hvalue : v.value k = .ok x := by
          rw [value, element, helement]
          exact hx
        rw [natural, hvalue]
        exact hn
    | entry f =>
      have hmore : v.expanded = (found ++ [f]) ++ Mark.entries rest := by
        rw [hv, List.append_assoc]
        rfl
      have hrest := ih (found ++ [f]) hmore h.2
      rw [← List.append_assoc, List.map_append] at hrest
      exact hrest

/-- The rows of the struct are borne out by a view with the fields of some marks that its
buffer shows. -/
theorem bearsOut_rows {s : Schema} {name : String} {d : StructDecl} {v : View}
    {N : String → Nat} (hnames : ∀ t ∈ s.structs, Named t.elements) (hd : s.root name = .ok d)
    (hl : s.layout name = .ok v.layout) (hv : v.expanded = Mark.entries (v.layout.marks N).1)
    (hshows : v.source.Shows N [] (v.layout.marks N).1) :
    BearsOut v.natural N [] ((s.shape d).rows N "") := by
  rw [← Schema.rows_of_layout hnames hd hl N, bearsOut_append, Mark.entries_map_comp]
  refine ⟨bearsOut_entries Field.row _ _, ?_⟩
  have h := v.bearsOut_of_shows _ [] hv hshows
  rw [List.append_nil] at h
  exact h

/-- The rows of the struct are the elements of a full view, which bears them out. -/
theorem rows_of_openFull {s : Schema} {name : String} {d : StructDecl} {l : Layout}
    {r : Representation} {b : Bytes} {v : View} (hnames : ∀ t ∈ s.structs, Named t.elements)
    (hd : s.root name = .ok d) (hl : s.layout name = .ok l) (hv : openFull l r b = .ok v) :
    Mark.entries ((s.shape d).rows v.countAt "") = v.elements.map Field.row ∧
      BearsOut v.natural v.countAt [] ((s.shape d).rows v.countAt "") := by
  have hopened := opened_of_openFull hv
  obtain ⟨rfl, rfl, rfl, -⟩ := openFull_eq_ok_iff.mp hv
  refine ⟨?_, bearsOut_rows hnames hd hl hopened.expanded_eq
    (Source.admits_iff.mp hopened.admits).1⟩
  rw [← Schema.rows_of_layout hnames hd hl v.countAt, Mark.entries_append,
    Mark.entries_map_comp, elements, hopened.expanded_eq, List.map_append, Mark.entries_map]

/-- The elements of a full view are the unfolding of its struct, with the numbers
that the view itself reads. -/
theorem elements_eq_unfold {s : Schema} {name : String} {d : StructDecl} {l : Layout}
    {r : Representation} {b : Bytes} {v : View}
    (hnames : ∀ t ∈ s.structs, PlainlyNamed t.elements) (hd : s.root name = .ok d)
    (hl : s.layout name = .ok l) (hv : openFull l r b = .ok v) :
    (s.shape d).unfold v.natural "" 0 = some (v.elements.map Field.row) := by
  obtain ⟨hentries, hbears⟩ := rows_of_openFull (fun t ht => (hnames t ht).named) hd hl hv
  have hunfold := (s.shape d).unfold_eq "" []
    (Schema.shape_everywhere hnames (Schema.mem_structs_of_root hd))
    (Schema.placeable_of_layout hd hl) hbears (fun _ hr => (List.not_mem_nil hr).elim)
  rw [hentries] at hunfold
  exact hunfold

end View

/-! ## An example -/

/-- An element with nothing out of the ordinary but its width. -/
def Element.simple (name type : String) (repetition : Repetition) (width : Option Nat) : Element :=
  { name := name, type := type, repetition := repetition, alignment := 1, position := none
    width := width, order := .littleEndian, constant := none }

/-- Records of counted chunks, each of which counts its own numbers. -/
def chunks : Schema where
  version := ⟨3, 0⟩
  aliases := []
  enums := []
  structs :=
    [ { name := "Chunk", alignment := 1
        elements :=
          [ .simple "size" "tUInt8" (.fixed 1) (some 3),
            { Element.simple "data" "tInt16" (.countedBy "size") (some 12) with
              alignment := 2, order := .bigEndian } ] },
      { name := "Record", alignment := 1
        elements :=
          [ .simple "count" "tUInt8" (.fixed 1) (some 4),
            .simple "flag" "tBool" (.fixed 1) (some 1),
            .simple "chunks" "Chunk" (.countedBy "count") none ] } ]

theorem eq_ok_of_toOption {ε α : Type} {x : Except ε α} {a : α} (h : x.toOption = some a) :
    x = .ok a := by
  cases x with
  | error e => cases h
  | ok b => rw [Option.some.inj h]

theorem exists_ok_of_isOk {ε α : Type} {x : Except ε α} (h : x.isOk) : ∃ a, x = .ok a := by
  cases x with
  | error e => cases h
  | ok a => exact ⟨a, rfl⟩

theorem exists_error_of_isOk {ε α : Type} {x : Except ε α} (h : x.isOk = false) :
    ∃ e, x = .error e := by
  cases x with
  | error e => exact ⟨e, rfl⟩
  | ok a => cases h

/-- A record that was opened by an arithmetic and checked by evaluation. -/
theorem Schema.exists_viewBy (m : Arithmetic) {s : Schema} {name : String} {r : Representation}
    {b : Bytes} (p : StructDecl → View → Bool)
    (h : (do
      let d ← s.root name
      let v ← View.openFull (← s.layout name m) r b m
      return p d v).toOption = some true) :
    ∃ d l v, s.root name = .ok d ∧ s.layout name m = .ok l ∧ View.openFull l r b m = .ok v ∧
      p d v = true := by
  cases hd : s.root name with
  | error e =>
    rw [hd] at h
    cases h
  | ok d =>
    cases hl : s.layout name m with
    | error e =>
      rw [hd, hl] at h
      cases h
    | ok l =>
      cases hv : View.openFull l r b m with
      | error e =>
        rw [hd, hl] at h
        simp only [bind, Except.bind, hv] at h
        cases h
      | ok v =>
        rw [hd, hl] at h
        simp only [bind, Except.bind, hv] at h
        exact ⟨d, l, v, rfl, rfl, hv, Option.some.inj h⟩

/-- A record that was opened and checked by evaluation. -/
theorem Schema.exists_view {s : Schema} {name : String} {r : Representation} {b : Bytes}
    (p : StructDecl → View → Bool)
    (h : (do
      let d ← s.root name
      let v ← View.openFull (← s.layout name) r b
      return p d v).toOption = some true) :
    ∃ d l v, s.root name = .ok d ∧ s.layout name = .ok l ∧ View.openFull l r b = .ok v ∧
      p d v = true :=
  exists_viewBy .exact p h

/-- A record that was compiled and opened by evaluation, without leaving the words. -/
theorem Schema.exists_contained {s : Schema} {name : String} {r : Representation} {b : Bytes}
    (p : StructDecl → View → Bool)
    (h : (do
      let d ← s.root name
      let v ← View.openFull (← s.layout name .checked) r b .checked
      return p d v).toOption = some true) :
    ∃ d l v, s.root name = .ok d ∧ s.Contained name ∧ (∀ m, s.layout name m = .ok l) ∧
      l.Contained r b ∧ (∀ m, View.openFull l r b m = .ok v) ∧ p d v = true := by
  obtain ⟨d, l, v, hd, hl, hv, hp⟩ := exists_viewBy .checked p h
  have hs : s.Contained name := .of_checked hl
  have hc : l.Contained r b := .of_checked hv
  rw [hs.layout_eq] at hl
  rw [hc.openFull_eq (hs.bounded hl)] at hv
  exact ⟨d, l, v, hd, hs, fun m => (hs.layout_eq m).trans hl, hc,
    fun m => (hc.openFull_eq (hs.bounded hl) m).trans hv, hp⟩

/-- Two chunks of one and of two numbers. -/
theorem View.elements_eq_unfold_chunks : ∃ d l v, chunks.root "Record" = .ok d ∧
    chunks.layout "Record" = .ok l ∧
    openFull l .wire [0x32, 0xA5, 0x2F, 0x80, 0x01, 0x7C] = .ok v ∧
    (chunks.shape d).unfold v.natural "" 0 = some (v.elements.map Field.row) ∧
    v.elements.map (·.name) = ["count", "flag", "chunks[0].size", "chunks[0].data[0]",
      "chunks[1].size", "chunks[1].data[0]", "chunks[1].data[1]"] := by
  have hnames : ∀ t ∈ chunks.structs, PlainlyNamed t.elements := by decide
  obtain ⟨d, l, v, hd, hl, hv, hlist⟩ := @Schema.exists_view chunks "Record" .wire
    [0x32, 0xA5, 0x2F, 0x80, 0x01, 0x7C]
    (fun _ v => v.elements.map (·.name) = ["count", "flag", "chunks[0].size", "chunks[0].data[0]",
      "chunks[1].size", "chunks[1].data[0]", "chunks[1].data[1]"]) (by decide +kernel)
  exact ⟨d, l, v, hd, hl, hv, elements_eq_unfold hnames hd hl hv, of_decide_eq_true hlist⟩

end WireRecord
