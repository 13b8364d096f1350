/-
WireRecord.Proofs.CountTheorems — a counter never exceeds the number of elements.

Opening a view refuses counters beyond the bits of the buffer. A transfer makes
the buffer as short as the record, so it has to be shown that the counters still
pass. They do when every counted struct has a scalar in it (`Bearing`) and every
element has a name: then each item leaves a trace among the elements, a field of
its own or the counter of an array in it. Traces of different items are
different, as their names begin with different paths. Each element takes at least
one bit, so the record has a bit for every item (`View.fits_of_bearing`).

Wire positions can make the elements of the fixed part share their bits. With plain
names that does no harm: then the items leave fields of the variable part, behind
their counter (`Shape.covered_rows`), and these do not meet
(`View.fits_of_plainlyNamed`).
-/
import Mathlib.Algebra.BigOperators.Group.List.Basic
import Mathlib.Data.Fintype.Card
import WireRecord.Proofs.UnfoldingTheorems
import WireRecord.Proofs.ViewTheorems

namespace WireRecord

open WireRecord.Path (Below Plain)

/-! ## Structs with scalars in them -/

mutual

/-- Whether a shape has a scalar leaf. -/
def Shape.hasLeaf : Shape → Bool
  | .mk _ _ members => membersHaveLeaf members

/-- Whether some members have a scalar leaf. -/
def membersHaveLeaf : List Member → Bool
  | [] => false
  | m :: rest => m.hasLeaf || membersHaveLeaf rest

/-- Whether a member is or has a scalar leaf. -/
def Member.hasLeaf : Member → Bool
  | .leaf _ _ _ => true
  | .nested _ shape => shape.hasLeaf
  | .cyclic _ _ _ | .unresolved _ _ => false

end

/-- Whether no counted array among some members is one of structs without scalar
leaves. -/
def Bearing (members : List Member) : Prop :=
  ∀ m ∈ members, m.element.counter? ≠ none → m.hasLeaf = true

instance : DecidablePred Bearing := fun members =>
  inferInstanceAs (Decidable (∀ m ∈ members, m.element.counter? ≠ none → m.hasLeaf = true))

/-! ## Traces -/

/-- The path that a mark is about. -/
def Mark.path : Mark Row → String
  | counter p => p
  | entry r => r.name

/-- The counter of an element is asked for below the path of its instance. -/
theorem below_of_mem_asked {e : Element} {path : String} (hpath : path ≠ "") {k : Mark Row}
    (h : k ∈ Template.asked path e.counter?) : Below path k.path := by
  cases hc : e.counter? with
  | none =>
    rw [hc] at h
    exact (List.not_mem_nil h).elim
  | some c =>
    rw [hc] at h
    obtain rfl := List.mem_singleton.mp h
    exact Path.below_join hpath c

theorem ne_empty_of_below {path name : String} (hpath : path ≠ "") (h : Below path name) :
    name ≠ "" := by
  rintro rfl
  have hle := h.length_le
  simp_all

mutual

/-- All that an instance leaves lies below its path. -/
theorem Shape.below_marks (N : String → Nat) : ∀ (shape : Shape) {path : String} {k : Mark Row},
    path ≠ "" → k ∈ shape.rows N path → Below path k.path
  | .mk _ _ members, _, _, hpath, hk => membersRows_below_marks N members hpath hk

theorem membersRows_below_marks (N : String → Nat) : ∀ (members : List Member) {path : String}
    {k : Mark Row}, path ≠ "" → k ∈ membersRows N path members → Below path k.path
  | [], _, _, _, hk => (List.not_mem_nil hk).elim
  | m :: rest, path, k, hpath, hk => by
      rw [membersRows] at hk
      rcases List.mem_append.mp hk with hk | hk
      · exact m.below_marks N hpath hk
      · exact membersRows_below_marks N rest hpath hk

theorem Member.below_marks (N : String → Nat) : ∀ (m : Member) {path : String} {k : Mark Row},
    path ≠ "" → k ∈ m.rows N path → Below path k.path
  | .leaf e type table, path, k, hpath, hk => by
      rw [Member.rows] at hk
      rcases List.mem_append.mp hk with hk | hk
      · exact below_of_mem_asked hpath hk
      · obtain ⟨p, hp, rfl⟩ := List.mem_map.mp hk
        exact (Path.below_join hpath e.name).trans (Element.below_of_mem_instances hp)
  | .nested e shape, path, k, hpath, hk => by
      rw [Member.rows] at hk
      rcases List.mem_append.mp hk with hk | hk
      · exact below_of_mem_asked hpath hk
      · obtain ⟨p, hp, hk⟩ := List.mem_flatMap.mp hk
        have hbelow := (Path.below_join hpath e.name).trans (Element.below_of_mem_instances hp)
        exact hbelow.trans (shape.below_marks N (ne_empty_of_below hpath hbelow) hk)
  | .cyclic _ _ _, _, _, _, hk => (List.not_mem_nil hk).elim
  | .unresolved _ _, _, _, _, hk => (List.not_mem_nil hk).elim

end

/-- An element that asks for no counter has an item. -/
theorem Element.exists_mem_instances {N : String → Nat} (e : Element) {path : String}
    {earlier : List String} (hcounter : match e.repetition with
      | .fixed n => 0 < n
      | .countedBy c => c ∈ earlier)
    (hasked : Template.asked path e.counter? = ([] : List (Mark Row))) :
    ∃ p, p ∈ e.instances N path := by
  unfold counter? at hasked
  unfold instances
  cases hr : e.repetition with
  | fixed n =>
    rw [hr] at hcounter
    exact ⟨_, List.mem_map.mpr ⟨0, List.mem_range.mpr hcounter, rfl⟩⟩
  | countedBy c =>
    rw [hr] at hasked
    cases hasked

mutual

/-- An instance with a scalar in it leaves something: a field, or a counter. -/
theorem Shape.rows_ne_nil (N : String → Nat) : ∀ (shape : Shape) (path : String),
    shape.Everywhere Placeable → shape.hasLeaf = true → shape.rows N path ≠ []
  | .mk _ _ members, path, hplaceable, hleaf =>
      membersRows_ne_nil N members path [] hplaceable.1.countable hplaceable.2 hleaf

theorem membersRows_ne_nil (N : String → Nat) : ∀ (members : List Member) (path : String)
    (earlier : List String), Countable earlier (elementsOf members) →
    membersEverywhere Placeable members → membersHaveLeaf members = true →
    membersRows N path members ≠ []
  | [], _, _, _, _, hleaf => by cases hleaf
  | m :: rest, path, earlier, hcountable, hplaceable, hleaf => by
      intro hnil
      obtain ⟨hm, hrest⟩ := List.append_eq_nil_iff.mp hnil
      rcases Bool.or_eq_true_iff.mp hleaf with hleaf | hleaf
      · exact m.rows_ne_nil N path earlier hcountable.1 hplaceable.1 hleaf hm
      · exact membersRows_ne_nil N rest path _ hcountable.2 hplaceable.2 hleaf hrest

theorem Member.rows_ne_nil (N : String → Nat) : ∀ (m : Member) (path : String)
    (earlier : List String), (match m.element.repetition with
      | .fixed n => 0 < n
      | .countedBy c => c ∈ earlier) →
    m.Everywhere Placeable → m.hasLeaf = true → m.rows N path ≠ []
  | .leaf e type table, path, earlier, hcounter, _, _ => by
      intro hnil
      obtain ⟨hasked, hitems⟩ := List.append_eq_nil_iff.mp hnil
      obtain ⟨p, hp⟩ := e.exists_mem_instances hcounter hasked
      rw [List.map_eq_nil_iff] at hitems
      rw [hitems] at hp
      exact List.not_mem_nil hp
  | .nested e shape, path, earlier, hcounter, hplaceable, hleaf => by
      intro hnil
      obtain ⟨hasked, hitems⟩ := List.append_eq_nil_iff.mp hnil
      obtain ⟨p, hp⟩ := e.exists_mem_instances hcounter hasked
      exact shape.rows_ne_nil N p hplaceable hleaf (List.flatMap_eq_nil_iff.mp hitems p hp)
  | .cyclic _ _ _, _, _, _, _, hleaf => by cases hleaf
  | .unresolved _ _, _, _, _, _, hleaf => by cases hleaf

end

/-- An item that is counted is an instance. -/
theorem Element.item_mem_instances {N : String → Nat} (e : Element) {path p : String}
    (hp : Mark.counter p ∈ (Template.asked path e.counter? : List (Mark Row))) {i : Nat}
    (hi : i < N p) : Path.item (Path.join path e.name) i ∈ e.instances N path := by
  unfold counter? at hp
  unfold instances
  cases hr : e.repetition with
  | fixed n =>
    rw [hr] at hp
    exact (List.not_mem_nil hp).elim
  | countedBy c =>
    rw [hr] at hp
    cases List.mem_singleton.mp hp
    exact List.mem_map.mpr ⟨i, List.mem_range.mpr hi, rfl⟩

mutual

/-- Where a counter is asked for, each of the items it counts leaves something. -/
theorem Shape.item_left (N : String → Nat) : ∀ (shape : Shape) {path p : String},
    shape.Everywhere Placeable → shape.Everywhere Bearing → .counter p ∈ shape.rows N path →
    ∃ whole, ∀ i < N p, ∃ k ∈ shape.rows N path, (Path.item whole i).toList <+: k.path.toList
  | .mk _ _ members, _, _, hplaceable, hbearing, hp =>
      membersRows_item_left N members hplaceable.2 hbearing.1 hbearing.2 hp

theorem membersRows_item_left (N : String → Nat) : ∀ (members : List Member) {path p : String},
    membersEverywhere Placeable members → Bearing members → membersEverywhere Bearing members →
    .counter p ∈ membersRows N path members →
    ∃ whole, ∀ i < N p, ∃ k ∈ membersRows N path members,
      (Path.item whole i).toList <+: k.path.toList
  | [], _, _, _, _, _, hp => (List.not_mem_nil hp).elim
  | m :: rest, path, p, hplaceable, hbearing, hin, hp => by
      rw [membersRows] at hp ⊢
      rcases List.mem_append.mp hp with hp | hp
      · obtain ⟨whole, hwhole⟩ := m.item_left N hplaceable.1 (hbearing m List.mem_cons_self)
          hin.1 hp
        refine ⟨whole, fun i hi => ?_⟩
        obtain ⟨k, hk, hbegins⟩ := hwhole i hi
        exact ⟨k, List.mem_append_left _ hk, hbegins⟩
      · obtain ⟨whole, hwhole⟩ := membersRows_item_left N rest hplaceable.2
          (fun k hk => hbearing k (List.mem_cons_of_mem _ hk)) hin.2 hp
        refine ⟨whole, fun i hi => ?_⟩
        obtain ⟨k, hk, hbegins⟩ := hwhole i hi
        exact ⟨k, List.mem_append_right _ hk, hbegins⟩

theorem Member.item_left (N : String → Nat) : ∀ (m : Member) {path p : String},
    m.Everywhere Placeable → (m.element.counter? ≠ none → m.hasLeaf = true) →
    m.Everywhere Bearing → .counter p ∈ m.rows N path →
    ∃ whole, ∀ i < N p, ∃ k ∈ m.rows N path, (Path.item whole i).toList <+: k.path.toList
  | .leaf e type table, path, p, _, _, _, hp => by
      rw [Member.rows] at hp ⊢
      rcases List.mem_append.mp hp with hp | hp
      · refine ⟨Path.join path e.name, fun i hi => ?_⟩
        have hmem := e.item_mem_instances hp hi
        exact ⟨_, List.mem_append_right _ (List.mem_map.mpr ⟨_, hmem, rfl⟩), List.prefix_refl _⟩
      · obtain ⟨q, -, hq⟩ := List.mem_map.mp hp
        cases hq
  | .nested e shape, path, p, hplaceable, hleaf, hin, hp => by
      rw [Member.rows] at hp ⊢
      rcases List.mem_append.mp hp with hp | hp
      · refine ⟨Path.join path e.name, fun i hi => ?_⟩
        have hmem := e.item_mem_instances hp hi
        have hcounted : e.counter? ≠ none := fun hnone => by
          rw [hnone] at hp
          exact List.not_mem_nil hp
        obtain ⟨k, hk⟩ := List.exists_mem_of_ne_nil _
          (shape.rows_ne_nil N (Path.item (Path.join path e.name) i) hplaceable (hleaf hcounted))
        exact ⟨k, List.mem_append_right _ (List.mem_flatMap.mpr ⟨_, hmem, hk⟩),
          (shape.below_marks N (Path.item_ne_empty _ i) hk).begins⟩
      · -- the counter is that of an array inside one of the items
        obtain ⟨q, hq, hp⟩ := List.mem_flatMap.mp hp
        obtain ⟨whole, hwhole⟩ := shape.item_left N hplaceable hin hp
        refine ⟨whole, fun i hi => ?_⟩
        obtain ⟨k, hk, hbegins⟩ := hwhole i hi
        exact ⟨k, List.mem_append_right _ (List.mem_flatMap.mpr ⟨q, hq, hk⟩), hbegins⟩
  | .cyclic _ _ _, _, _, _, _, _, hp => (List.not_mem_nil hp).elim
  | .unresolved _ _, _, _, _, _, _, hp => (List.not_mem_nil hp).elim

end

/-! ## Counting traces -/

/-- A list in which something begins like each of `n` items has `n` entries. -/
theorem le_length_of_prefixes {rows : List Row} {whole : String} {n : Nat}
    (h : ∀ i < n, ∃ r ∈ rows, (Path.item whole i).toList <+: r.name.toList) :
    n ≤ rows.length := by
  have hindex : ∀ i : Fin n, ∃ k : Fin rows.length,
      (Path.item whole i).toList <+: rows[k].name.toList := fun i => by
    obtain ⟨r, hr, hbegins⟩ := h i i.isLt
    obtain ⟨k, hk, rfl⟩ := List.mem_iff_getElem.mp hr
    exact ⟨⟨k, hk⟩, hbegins⟩
  choose index hbegins using hindex
  have hinj : Function.Injective index := fun i j hij => by
    have hj := hbegins j
    rw [← hij] at hj
    exact Fin.ext (Path.index_eq_of_prefix (hbegins i) hj)
  simpa using Fintype.card_le_of_injective index hinj

/-- Whatever is left by rows is the name of one of them, as a counter has to be a
row by then. -/
theorem exists_row_of_mem {held : Nat → Option Nat} {N : String → Nat}
    {marks : List (Mark Row)} {found : List Row} {k : Mark Row}
    (h : BearsOut held N found marks) (hk : k ∈ marks) :
    ∃ r ∈ found ++ Mark.entries marks, r.name = k.path := by
  induction marks generalizing found with
  | nil => simp at hk
  | cons m rest ih =>
    cases m with
    | counter p =>
      rcases List.mem_cons.mp hk with rfl | hk
      · obtain ⟨i, hi, -⟩ := h.1
        obtain ⟨hlt, hname, -⟩ := List.findIdx?_eq_some_iff_getElem.mp hi
        exact ⟨found[i], List.mem_append_left _ (List.getElem_mem hlt), beq_iff_eq.mp hname⟩
      · exact ih h.2 hk
    | entry r =>
      have hentries : Mark.entries (.entry r :: rest) = r :: Mark.entries rest := rfl
      rcases List.mem_cons.mp hk with rfl | hk
      · exact ⟨r, by simp [hentries], rfl⟩
      · obtain ⟨r', hr', hname⟩ := ih h hk
        exact ⟨r', by simpa [hentries] using hr', hname⟩

/-! ## What stands behind a counter -/

/-- Whether each counter among some marks holds no more than there are fields behind
it. -/
def Covered {α : Type} (N : String → Nat) : List (Mark α) → Prop
  | [] => True
  | .counter p :: rest => N p ≤ (Mark.entries rest).length ∧ Covered N rest
  | .entry _ :: rest => Covered N rest

namespace Covered

variable {α β : Type} {N : String → Nat} {a b : List (Mark α)}

theorem append (ha : Covered N a) (hb : Covered N b) : Covered N (a ++ b) := by
  induction a with
  | nil => exact hb
  | cons m rest ih =>
    cases m with
    | counter p =>
      refine ⟨?_, ih ha.2⟩
      show N p ≤ (Mark.entries (rest ++ b)).length
      rw [Mark.entries_append, List.length_append]
      exact Nat.le_add_right_of_le ha.1
    | entry x => exact ih ha

theorem right (h : Covered N (a ++ b)) : Covered N b := by
  induction a with
  | nil => exact h
  | cons m rest ih =>
    cases m with
    | counter p => exact ih h.2
    | entry x => exact ih h

theorem entries (as : List β) (f : β → α) : Covered N (as.map fun x => .entry (f x)) := by
  induction as with
  | nil => trivial
  | cons x rest ih => exact ih

theorem flatMap {as : List β} {f : β → List (Mark α)} (h : ∀ x ∈ as, Covered N (f x)) :
    Covered N (as.flatMap f) := by
  induction as with
  | nil => trivial
  | cons x rest ih =>
    rw [List.flatMap_cons]
    exact (h x List.mem_cons_self).append (ih fun y hy => h y (List.mem_cons_of_mem x hy))

theorem of_map {marks : List (Mark α)} {g : α → β} (h : Covered N (marks.map (Mark.map g))) :
    Covered N marks := by
  induction marks with
  | nil => trivial
  | cons m rest ih =>
    cases m with
    | counter p =>
      refine ⟨?_, ih h.2⟩
      have hle := h.1
      rwa [Mark.entries_map, List.length_map] at hle
    | entry x => exact ih h

/-- No counter holds more than there are fields in all. -/
theorem counter_le {marks : List (Mark α)} (h : Covered N marks) :
    ∀ c ∈ Mark.counters marks, N c ≤ (Mark.entries marks).length := by
  induction marks with
  | nil => simp [Mark.counters]
  | cons m rest ih =>
    intro c hc
    cases m with
    | counter p =>
      rcases List.mem_cons.mp hc with rfl | hc
      · exact h.1
      · exact ih h.2 c hc
    | entry x => exact Nat.le_succ_of_le (ih h c hc)

end Covered

section Covered

variable {held : Nat → Option Nat} {N : String → Nat}

/-- Each of some instances that nothing lies below twice starts where nothing lies below
it yet. -/
theorem bearsOut_instances {rows : String → List (Mark Row)}
    (hbelow : ∀ p, p ≠ "" → ∀ r ∈ Mark.entries (rows p), Below p r.name)
    (ps : List String) (found : List Row)
    (hapart : ps.Pairwise fun p q => ∀ name, Below p name → ¬ Below q name)
    (hfresh : ∀ p ∈ ps, p ≠ "" ∧ ∀ r ∈ found, ¬ Below p r.name)
    (hrows : BearsOut held N found (ps.flatMap rows)) :
    ∀ p ∈ ps, ∃ before, BearsOut held N before (rows p) ∧ ∀ r ∈ before, ¬ Below p r.name := by
  induction ps generalizing found with
  | nil => simp
  | cons p rest ih =>
    rw [List.flatMap_cons, bearsOut_append] at hrows
    obtain ⟨hp, hfound⟩ := hfresh p List.mem_cons_self
    obtain ⟨hfirst, hothers⟩ := List.pairwise_cons.mp hapart
    intro q hq
    rcases List.mem_cons.mp hq with rfl | hq
    · exact ⟨found, hrows.1, hfound⟩
    · refine ih (found ++ Mark.entries (rows p)) hothers (fun q hq => ?_) hrows.2 q hq
      obtain ⟨hne, hold⟩ := hfresh q (List.mem_cons_of_mem p hq)
      refine ⟨hne, fun r hr => ?_⟩
      rcases List.mem_append.mp hr with hr | hr
      · exact hold r hr
      · exact hfirst q hq r.name (hbelow p hp r hr)

/-- The first that an instance leaves is a field: a counter would be a row below its
path that was there before. -/
theorem entries_ne_nil {path : String} {marks : List (Mark Row)} {found : List Row}
    (hmarks : marks ≠ []) (hbelow : ∀ k ∈ marks, Below path k.path)
    (hrows : BearsOut held N found marks) (hfresh : ∀ r ∈ found, ¬ Below path r.name) :
    Mark.entries marks ≠ [] := by
  cases marks with
  | nil => exact absurd rfl hmarks
  | cons k rest =>
    cases k with
    | entry r => exact List.cons_ne_nil r _
    | counter p =>
      obtain ⟨i, hi, -⟩ := hrows.1
      obtain ⟨hlt, hname, -⟩ := List.findIdx?_eq_some_iff_getElem.mp hi
      have hself : Below path p := hbelow _ List.mem_cons_self
      rw [← beq_iff_eq.mp hname] at hself
      exact absurd hself (hfresh _ (List.getElem_mem hlt))

/-- As many lists as there are, each with something in it, have as much in all. -/
theorem length_le_flatMap {α β : Type} {as : List α} {f : α → List β}
    (h : ∀ a ∈ as, f a ≠ []) : as.length ≤ (as.flatMap f).length := by
  have hsum := List.length_le_sum_of_one_le (as.map fun a => (f a).length) fun n hn => by
    obtain ⟨a, ha, rfl⟩ := List.mem_map.mp hn
    exact List.length_pos_of_ne_nil (h a ha)
  rwa [List.length_map, ← List.length_flatMap] at hsum

/-- A counter is covered by items that have at least one field each. -/
theorem Element.covered {e : Element} {path : String} {items : List (Mark Row)}
    (hitems : Covered N items) (hlength : e.counter? ≠ none →
      (e.instances N path).length ≤ (Mark.entries items).length) :
    Covered N (Template.asked path e.counter? ++ items) := by
  unfold counter? instances at *
  cases hr : e.repetition with
  | fixed n => exact hitems
  | countedBy c =>
    simp only [hr, ne_eq, reduceCtorEq, not_false_eq_true, List.length_map, List.length_range,
      true_implies] at hlength
    exact ⟨hlength, hitems⟩

mutual

/-- With plain names the items of a counted array all stand behind its counter, and each
of them has a field. -/
theorem Shape.covered_rows : ∀ (shape : Shape) (path : String) (found : List Row),
    shape.Everywhere (OfElements PlainlyNamed) → shape.Everywhere Placeable →
    shape.Everywhere Bearing → BearsOut held N found (shape.rows N path) →
    (∀ r ∈ found, path ≠ "" ∧ ¬ Below path r.name) → Covered N (shape.rows N path)
  | .mk _ _ members, path, found, hnames, hplaceable, hbearing, hrows, hfresh =>
      membersRows_covered members path found hnames.1.1 hnames.1.2 hnames.2 hplaceable.2
        hbearing.1 hbearing.2 hrows fun e _ r hr hbelow =>
          (hfresh r hr).2 ((Path.below_join (hfresh r hr).1 e.name).trans hbelow)

theorem membersRows_covered : ∀ (members : List Member) (path : String) (found : List Row),
    ((elementsOf members).map (·.name)).Nodup → (∀ e ∈ elementsOf members, Plain e.name) →
    membersEverywhere (OfElements PlainlyNamed) members → membersEverywhere Placeable members →
    Bearing members → membersEverywhere Bearing members →
    BearsOut held N found (membersRows N path members) →
    (∀ e ∈ elementsOf members, ∀ r ∈ found, ¬ Below (Path.join path e.name) r.name) →
    Covered N (membersRows N path members)
  | [], _, _, _, _, _, _, _, _, _, _ => trivial
  | m :: rest, path, found, hnodup, hplain, hin, hplaceable, hbearing, hbelow, hrows, hfresh => by
      obtain ⟨hself, hnodup⟩ := List.nodup_cons.mp hnodup
      obtain ⟨hm, hplain⟩ := List.forall_mem_cons.mp hplain
      obtain ⟨hmfresh, hfresh⟩ := List.forall_mem_cons.mp hfresh
      obtain ⟨hmleaf, hbearing⟩ := List.forall_mem_cons.mp hbearing
      rw [membersRows, bearsOut_append] at hrows
      have hcovered := m.covered_rows path found hm hin.1 hplaceable.1 hmleaf hbelow.1 hrows.1
        hmfresh
      refine hcovered.append (membersRows_covered rest path _ hnodup hplain hin.2 hplaceable.2
        hbearing hbelow.2 hrows.2 fun e he r hr hr' => ?_)
      rcases List.mem_append.mp hr with hr | hr
      · exact hfresh e he r hr hr'
      · -- what lies below two members has a name that is plain twice
        have hown := (m.below_rows N hm.1 (m.named_of_plainlyNamed hin.1) hr).1
        have hsame := Path.Plain.eq_of_below hm (hplain e he) hown hr'
        exact hself (List.mem_map.mpr ⟨e, he, hsame.symm⟩)

theorem Member.covered_rows : ∀ (m : Member) (path : String) (found : List Row),
    Plain m.element.name → m.Everywhere (OfElements PlainlyNamed) → m.Everywhere Placeable →
    (m.element.counter? ≠ none → m.hasLeaf = true) → m.Everywhere Bearing →
    BearsOut held N found (m.rows N path) →
    (∀ r ∈ found, ¬ Below (Path.join path m.element.name) r.name) → Covered N (m.rows N path)
  | .leaf e type table, path, found, _, _, _, _, _, _, _ => by
      rw [Member.rows]
      refine Element.covered (Covered.entries _ _) fun _ => ?_
      have hrows := entries_rows_leaf N path e type table
      rw [Member.rows, Mark.entries_append, Template.entries_asked, List.nil_append] at hrows
      rw [hrows, List.length_map]
  | .nested e shape, path, found, hm, hin, hplaceable, hleaf, hbearing, hrows, hfresh => by
      rw [Member.rows, bearsOut_append, Template.entries_asked, List.append_nil] at hrows
      have hnamed := shape.named_of_plainlyNamed hin
      have hne : ∀ p ∈ e.instances N path, p ≠ "" := fun p hp =>
        Element.ne_empty_of_mem_instances hm.1 hp
      have hstarts := bearsOut_instances (fun p hp r hr => (shape.below_rows N hnamed hp hr).1)
        _ found e.instances_pairwise (fun p hp => ⟨hne p hp, fun r hr hbelow =>
          hfresh r hr ((Element.below_of_mem_instances hp).trans hbelow)⟩) hrows.2
      rw [Member.rows]
      refine Element.covered (Covered.flatMap fun p hp => ?_) fun hcounted => ?_
      · obtain ⟨before, hbefore, hnone⟩ := hstarts p hp
        exact shape.covered_rows p before hin hplaceable hbearing hbefore fun r hr =>
          ⟨hne p hp, hnone r hr⟩
      · rw [Mark.entries_flatMap]
        refine length_le_flatMap fun p hp => ?_
        obtain ⟨before, hbefore, hnone⟩ := hstarts p hp
        exact entries_ne_nil (shape.rows_ne_nil N p hplaceable (hleaf hcounted))
          (fun k hk => shape.below_marks N (hne p hp) hk) hbefore hnone
  | .cyclic _ _ _, _, _, _, _, _, _, _, _, _ => trivial
  | .unresolved _ _, _, _, _, _, _, _, _, _, _ => trivial

end

end Covered

namespace View

variable {s : Schema} {name : String} {d : StructDecl} {l : Layout} {r r' : Representation}
  {b : Bytes} {v : View}

/-- A counter that opening a view asks for is one of its struct. -/
theorem counter_mem_rows (hnames : ∀ t ∈ s.structs, Named t.elements) (hd : s.root name = .ok d)
    (hl : s.layout name = .ok l) (hv : openFull l r b = .ok v) {c : String} (hc : c ∈ v.asked) :
    .counter c ∈ (s.shape d).rows v.countAt "" := by
  obtain ⟨rfl, -⟩ := openFull_eq_ok_iff.mp hv
  rw [← Schema.rows_of_layout hnames hd hl v.countAt]
  refine List.mem_append_right _ (List.mem_map.mpr ⟨.counter c, ?_, rfl⟩)
  exact Mark.mem_counters_iff.mp hc

/-- No counter exceeds the number of elements, if every counted struct has a
scalar in it. -/
theorem countAt_le_count (hnames : ∀ t ∈ s.structs, Named t.elements)
    (hbearing : (s.shape d).Everywhere Bearing) (hd : s.root name = .ok d)
    (hl : s.layout name = .ok l) (hv : openFull l r b = .ok v) :
    ∀ c ∈ v.asked, v.countAt c ≤ v.count := by
  intro c hc
  obtain ⟨hentries, hbears⟩ := rows_of_openFull hnames hd hl hv
  obtain ⟨whole, hwhole⟩ := (s.shape d).item_left v.countAt (Schema.placeable_of_layout hd hl)
    hbearing (counter_mem_rows hnames hd hl hv hc)
  have hle : v.countAt c ≤ (v.elements.map Field.row).length := by
    refine @le_length_of_prefixes _ whole _ fun i hi => ?_
    obtain ⟨k, hk, hbegins⟩ := hwhole i hi
    obtain ⟨row, hrow, hname⟩ := exists_row_of_mem hbears hk
    rw [List.nil_append, hentries] at hrow
    exact ⟨row, hrow, by rw [hname]; exact hbegins⟩
  rw [List.length_map] at hle
  exact hle

/-- A record has a bit for each item that is counted, where its elements do not
meet. -/
theorem fits_of_bearing (hnames : ∀ t ∈ s.structs, Named t.elements)
    (hbearing : (s.shape d).Everywhere Bearing) (hd : s.root name = .ok d)
    (hl : s.layout name = .ok l) (hv : openFull l r b = .ok v)
    (horder : Field.Ordered r' 0 v.elements (v.extent.bits r')) : v.Fits r' := by
  intro c hc
  have hcount := countAt_le_count hnames hbearing hd hl hv c hc
  have hwell := (sound_of_openFull hd hl hv).well
  have hroom := @Field.Ordered.length_le r' v.elements 0 _ 1 horder fun f hf =>
    (hwell f hf).size_pos r'
  have hbytes := le_bytesFor (v.extent.bits r')
  have hlength : v.count = v.elements.length := rfl
  show v.countAt c ≤ 8 * bytesFor (v.extent.bits r')
  omega

/-- With plain names no counter exceeds the number of elements in the variable part. -/
theorem countAt_le_expanded (hnames : ∀ t ∈ s.structs, PlainlyNamed t.elements)
    (hbearing : (s.shape d).Everywhere Bearing) (hd : s.root name = .ok d)
    (hl : s.layout name = .ok l) (hv : openFull l r b = .ok v) :
    ∀ c ∈ v.asked, v.countAt c ≤ v.expanded.length := by
  have hnamed : ∀ t ∈ s.structs, Named t.elements := fun t ht => (hnames t ht).named
  obtain ⟨-, hbears⟩ := rows_of_openFull hnamed hd hl hv
  have hcovered := (s.shape d).covered_rows "" []
    (Schema.shape_everywhere hnames (Schema.mem_structs_of_root hd))
    (Schema.placeable_of_layout hd hl) hbearing hbears fun _ hr => (List.not_mem_nil hr).elim
  rw [← Schema.rows_of_layout hnamed hd hl v.countAt] at hcovered
  have hopened := opened_of_openFull hv
  obtain ⟨rfl, -⟩ := openFull_eq_ok_iff.mp hv
  intro c hc
  rw [hopened.expanded_eq]
  exact hcovered.right.of_map.counter_le c hc

/-- So the variable part has a bit for each item that is counted, wherever the elements of
the fixed part lie. -/
theorem fits_of_plainlyNamed (hnames : ∀ t ∈ s.structs, PlainlyNamed t.elements)
    (hbearing : (s.shape d).Everywhere Bearing) (hd : s.root name = .ok d)
    (hl : s.layout name = .ok l) (hv : openFull l r b = .ok v) (r' : Representation) :
    v.Fits r' := by
  intro c hc
  have hcount := countAt_le_expanded hnames hbearing hd hl hv c hc
  have hopened := opened_of_openFull hv
  obtain ⟨rfl, -⟩ := openFull_eq_ok_iff.mp hv
  have hstretch := hopened.stretch (Schema.sound_of_layout hd hl)
  have hroom := @Field.Ordered.length_le r' v.expanded _ _ 1 (hstretch.in_order r') fun f hf =>
    (hstretch.well f hf).size_pos r'
  have hbytes := le_bytesFor (v.extent.bits r')
  show v.countAt c ≤ 8 * bytesFor (v.extent.bits r')
  omega

end View

end WireRecord
