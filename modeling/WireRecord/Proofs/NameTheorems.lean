/-
WireRecord.Proofs.NameTheorems — no two elements of a record have one name.

Names are put together in several places: by the compiler for what is fixed, by
templates for what is not, with indices and the paths of instances added on the
way. None of that matters here. The elements of a view are rows of its struct
(`View.exists_rows_of_opening`), and the names of these are paths down the shape.
Paths through two members of an instance part at the member, paths through two
items of an array part at the index, and neither can meet again where names are
plain (`Path.Plain.eq_of_below`, `Path.index_eq_of_below`).

So a name leads to the one element that has it, and any other name to none.
-/
import WireRecord.Proofs.ArrangementTheorems
import WireRecord.View.Lookup

namespace WireRecord

open WireRecord.Path (Below Plain)

/-! ## Rows of a shape -/

section Rows

variable (N : String → Nat)

/-- Two items of an element have different paths. -/
theorem Element.instances_nodup (e : Element) (path : String) : (e.instances N path).Nodup := by
  refine List.nodup_iff_pairwise_ne.mpr (e.instances_pairwise.imp ?_)
  rintro p q hapart rfl
  exact hapart p (Below.refl p) (Below.refl p)

mutual

/-- The rows of an instance have different names. -/
theorem Shape.names_nodup : ∀ (shape : Shape) (path : String),
    shape.Everywhere (OfElements PlainlyNamed) →
    ((Mark.entries (shape.rows N path)).map (·.name)).Nodup
  | .mk _ _ members, path, h => membersRows_names_nodup members path h.1 h.2

theorem membersRows_names_nodup : ∀ (members : List Member) (path : String),
    OfElements PlainlyNamed members → membersEverywhere (OfElements PlainlyNamed) members →
    ((Mark.entries (membersRows N path members)).map (·.name)).Nodup
  | [], _, _, _ => .nil
  | m :: rest, path, h, hin => by
      obtain ⟨hself, hnodup⟩ := List.nodup_cons.mp h.1
      obtain ⟨hm, hplain⟩ := List.forall_mem_cons.mp h.2
      have hnamed := Member.named_of_plainlyNamed hin.1
      have hrest : OfElements PlainlyNamed rest := ⟨hnodup, hplain⟩
      rw [membersRows, Mark.entries_append, List.map_append, List.nodup_append]
      refine ⟨m.names_nodup path hm hin.1, membersRows_names_nodup rest path hrest hin.2, ?_⟩
      intro a ha b hb hab
      obtain ⟨r, hr, rfl⟩ := List.mem_map.mp ha
      obtain ⟨r', hr', rfl⟩ := List.mem_map.mp hb
      -- a name below two members would make them one
      obtain ⟨e, he, hbelow'⟩ := membersRows_below N rest hrest.named
        (membersEverywhere_mono (fun _ hp => hp.named) hin.2) hr'
      obtain ⟨hbelow, -⟩ := m.below_rows N hm.1 hnamed hr
      rw [hab] at hbelow
      have hsame := Plain.eq_of_below hm (hplain e he) hbelow hbelow'
      exact hself (List.mem_map.mpr ⟨e, he, hsame.symm⟩)

theorem Member.names_nodup : ∀ (m : Member) (path : String), Plain m.element.name →
    m.Everywhere (OfElements PlainlyNamed) →
    ((Mark.entries (m.rows N path)).map (·.name)).Nodup
  | .leaf e type table, path, _, _ => by
      rw [entries_rows_leaf, List.map_map]
      have hname : ((fun r : Row => r.name) ∘ e.row type table) = id := rfl
      rw [hname, List.map_id]
      exact e.instances_nodup N path
  | .nested e shape, path, hname, hin => by
      have hnamed := shape.named_of_plainlyNamed hin
      have hne : ∀ p ∈ e.instances N path, p ≠ "" := fun p hp =>
        Element.ne_empty_of_mem_instances hname.1 hp
      rw [entries_rows_nested, List.map_flatMap, List.nodup_iff_pairwise_ne,
        List.pairwise_flatMap]
      refine ⟨fun p _ => shape.names_nodup p hin, ?_⟩
      refine e.instances_pairwise.imp_of_mem fun {p q} hp hq hapart a ha b hb hab => ?_
      obtain ⟨r, hr, rfl⟩ := List.mem_map.mp ha
      obtain ⟨r', hr', rfl⟩ := List.mem_map.mp hb
      refine hapart r.name (shape.below_rows N hnamed (hne p hp) hr).1 ?_
      rw [hab]
      exact (shape.below_rows N hnamed (hne q hq) hr').1
  | .cyclic _ _ _, _, _, _ => .nil
  | .unresolved _ _, _, _, _ => .nil

end

end Rows

namespace View

/-! ## Elements of a view -/

/-- The elements of a view are rows of its struct: all of them if the view shows
the whole record, else the first ones. -/
theorem exists_rows_of_opening {s : Schema} {name : String} {d : StructDecl} {l : Layout}
    {r : Representation} {b : Bytes} {v : View} (hnames : ∀ t ∈ s.structs, Named t.elements)
    (hd : s.root name = .ok d) (hl : s.layout name = .ok l) (hv : Opening l r b v) :
    ∃ N more, v.elements.map Field.row ++ more = Mark.entries ((s.shape d).rows N "") := by
  cases hv with
  | full hv =>
    obtain ⟨hrows, -⟩ := rows_of_openFull hnames hd hl hv
    exact ⟨v.countAt, [], by rw [List.append_nil, hrows]⟩
  | fixed =>
    have hrows := congrArg Mark.entries (Schema.rows_of_layout hnames hd hl fun _ => 0)
    rw [Mark.entries_append, Mark.entries_map_comp] at hrows
    refine ⟨fun _ => 0, Mark.entries ((l.marks fun _ => 0).1.map (Mark.map Field.row)), ?_⟩
    rw [elements, openStatic, List.append_nil]
    exact hrows

/-- No two elements of a view have one name. -/
theorem names_nodup_of_opening {s : Schema} {name : String} {l : Layout} {r : Representation}
    {b : Bytes} {v : View} (hnames : ∀ t ∈ s.structs, PlainlyNamed t.elements)
    (hl : s.layout name = .ok l) (hv : Opening l r b v) : (v.elements.map (·.name)).Nodup := by
  obtain ⟨d, hd⟩ := Schema.exists_root hl
  obtain ⟨N, more, hrows⟩ :=
    exists_rows_of_opening (fun t ht => (hnames t ht).named) hd hl hv
  have hshape : (s.shape d).Everywhere (OfElements PlainlyNamed) :=
    Schema.shape_everywhere hnames (Schema.mem_structs_of_root hd)
  have hnodup := (s.shape d).names_nodup N "" hshape
  rw [← hrows, List.map_append, List.map_map] at hnodup
  exact (List.nodup_append.mp hnodup).1

/-! ## Looking up a name -/

theorem find_eq (v : View) (name : String) : v.find name =
    match v.elements.findIdx? (·.name == name) with
    | some i => .ok i
    | none => .error (.noElement name) := by
  rw [find, findFrom?, List.drop_zero]
  cases v.elements.findIdx? (·.name == name) with
  | none => rfl
  | some i => simp

/-- A name that no element has leads to none. -/
theorem find_eq_error {v : View} {name : String} (h : name ∉ v.elements.map (·.name)) :
    v.find name = .error (.noElement name) := by
  have hnone : v.elements.findIdx? (·.name == name) = none := by
    rw [List.findIdx?_eq_none_iff]
    intro f hf
    have hne : f.name ≠ name := fun heq => h (List.mem_map.mpr ⟨f, hf, heq⟩)
    simpa using hne
  rw [find_eq, hnone]

/-- A name that no other element has leads to its element. -/
theorem find_of_unique {v : View} {i : Nat} {f : Field} (hf : v.elements[i]? = some f)
    (h : ∀ j g, v.elements[j]? = some g → g.name = f.name → j = i) : v.find f.name = .ok i := by
  obtain ⟨hi, rfl⟩ := List.getElem?_eq_some_iff.mp hf
  have hfirst : v.elements.findIdx? (·.name == v.elements[i].name) = some i := by
    refine List.findIdx?_eq_some_iff_getElem.mpr ⟨hi, beq_self_eq_true _, fun j hj => ?_⟩
    have hother := h j v.elements[j] (List.getElem?_eq_getElem (by omega))
    simpa using fun hname => Nat.ne_of_lt hj (hother hname)
  rw [find_eq, hfirst]

/-- Where names are distinct, no other element has the name of one. -/
theorem eq_of_name_eq {v : View} (h : (v.elements.map (·.name)).Nodup) {i j : Nat} {f g : Field}
    (hf : v.elements[i]? = some f) (hg : v.elements[j]? = some g) (hname : g.name = f.name) :
    j = i := by
  have hi : i < (v.elements.map (·.name)).length := by
    rw [List.length_map]
    exact (List.getElem?_eq_some_iff.mp hf).1
  refine ((List.getElem?_inj hi h).mp ?_).symm
  rw [List.getElem?_map, List.getElem?_map, hf, hg, Option.map_some, Option.map_some, hname]

/-- Where names are distinct, the name of an element leads to it. -/
theorem find_name {v : View} (h : (v.elements.map (·.name)).Nodup) {i : Nat} {f : Field}
    (hf : v.elements[i]? = some f) : v.find f.name = .ok i :=
  find_of_unique hf fun _ _ hg hname => eq_of_name_eq h hf hg hname

/-- Every element of a view is found by its name and used through it, and nothing is
found by a name that no element has. -/
theorem find_of_opening {s : Schema} {name : String} {l : Layout} {r : Representation}
    {b : Bytes} {v : View} (hnames : ∀ t ∈ s.structs, PlainlyNamed t.elements)
    (hl : s.layout name = .ok l) (hv : Opening l r b v) :
    (v.elements.map (·.name)).Nodup ∧
      (∀ i f, v.elements[i]? = some f → v.find f.name = .ok i ∧
        v.valueOf f.name = v.value i ∧ ∀ x, v.setValueOf f.name x = v.setValue i x) ∧
      ∀ path, path ∉ v.elements.map (·.name) → v.find path = .error (.noElement path) ∧
        v.valueOf path = .error (.noElement path) ∧
        ∀ x, v.setValueOf path x = .error (.noElement path) := by
  have hnodup := names_nodup_of_opening hnames hl hv
  refine ⟨hnodup, fun i f hf => ?_, fun path hpath => ?_⟩
  · have hfind := find_name hnodup hf
    refine ⟨hfind, ?_, fun x => ?_⟩
    · rw [valueOf, hfind]; rfl
    · rw [setValueOf, hfind]; rfl
  · have hfind := find_eq_error hpath
    refine ⟨hfind, ?_, fun x => ?_⟩
    · rw [valueOf, hfind]; rfl
    · rw [setValueOf, hfind]; rfl

/-- The second number of the second chunk is found by its path, a third one is not. -/
theorem find_of_opening_chunks : ∃ l v, chunks.layout "Record" = .ok l ∧
    Opening l .wire [0x32, 0xA5, 0x2F, 0x80, 0x01, 0x7C] v ∧
    v.find "chunks[1].data[1]" = .ok 6 ∧ v.valueOf "chunks[1].data[1]" = v.value 6 ∧
    v.find "chunks[1].data[2]" = .error (.noElement "chunks[1].data[2]") := by
  obtain ⟨d, l, v, -, hl, hv, hp⟩ := @Schema.exists_view chunks "Record" .wire
    [0x32, 0xA5, 0x2F, 0x80, 0x01, 0x7C]
    (fun _ v => (∃ f ∈ v.elements[6]?, f.name = "chunks[1].data[1]") ∧
      "chunks[1].data[2]" ∉ v.elements.map (·.name)) (by decide +kernel)
  obtain ⟨⟨f, hf, hname⟩, hnot⟩ := of_decide_eq_true hp
  obtain ⟨-, hfound, hmissing⟩ := find_of_opening (by decide) hl (.full hv)
  obtain ⟨hfind, hvalue, -⟩ := hfound 6 f hf
  rw [hname] at hfind hvalue
  exact ⟨l, v, hl, .full hv, hfind, hvalue, (hmissing _ hnot).1⟩

end View

end WireRecord
