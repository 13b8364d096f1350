/-
WireRecord.Proofs.ConstantWritingTheorems — writing the constants of a view.

A constant is resolved when the field is placed, as a value of the type of the field, and
the instances of a template have the constant of the template
(`Schema.type_of_constant`, `View.Opening.exists_field`). So no conversion takes place when
it is written: the window gets the bits of the constant, as far as it has room for them.

Writing goes through the elements in order and stores where there is a constant. Where no
two windows meet, each window holds its constant afterwards, and all the others hold what
they did. Windows that hold their constants already are stored over with their own bits
(`Field.storeAll_eq_self`), so a second time changes nothing.
-/
import WireRecord.Proofs.RecordingTheorems
import WireRecord.Proofs.StoreTheorems

namespace WireRecord

/-- Records with a mark, of packets with a kind. -/
def packets : Schema where
  version := ⟨3, 0⟩
  aliases := []
  enums := [{ name := "Kind", base := "tUInt8", entries := [⟨"DATA", 5⟩, ⟨"MARK", 300⟩] }]
  structs :=
    [ { name := "Packet", alignment := 1
        elements :=
          [ { Element.simple "kind" "Kind" (.fixed 1) (some 2) with constant := some "DATA" },
            .simple "body" "tUInt8" (.fixed 1) (some 6) ] },
      { name := "Record", alignment := 1
        elements :=
          [ .simple "n" "tUInt8" (.fixed 1) none,
            { Element.simple "mark" "tInt16" (.fixed 1) (some 12) with
              order := .bigEndian, constant := some "MARK" },
            .simple "packets" "Packet" (.countedBy "n") none ] } ]

/-! ## Fields of a view and fields of its layout -/

section Instances

variable (N : String → Nat)

mutual

/-- Every field found in a template is an instance of one of its fields. -/
theorem Template.exists_field_of_mem_marks : ∀ (t : Template) (path : String) (start : Extent),
    ∀ f ∈ Mark.entries (t.marks N path start).1, ∃ g ∈ t.parts.flatMap (·.fields),
      ∃ position name, f = g.instantiate position name
  | ⟨name, alignment, counter, size, fields, children⟩, path, start, f, hf => by
      by_cases hname : name = ""
      · rw [Template.marks_of_isEmpty hname] at hf
        exact (List.not_mem_nil hf).elim
      · rw [Template.marks_of_ne hname, Mark.entries_append, Template.entries_asked,
          List.nil_append] at hf
        refine forall_mem_inSeries (p := fun f => ∃ g ∈ Template.parts
          ⟨name, alignment, counter, size, fields, children⟩ |>.flatMap (·.fields),
          ∃ position name, f = g.instantiate position name) (fun p position g hg => ?_) _ _ f hf
        rw [Template.instanceMarks, Mark.entries_append, Mark.entries_map_entry] at hg
        rw [Template.parts_eq, List.flatMap_cons]
        rcases List.mem_append.mp hg with hg | hg
        · obtain ⟨k, hk, rfl⟩ := List.mem_map.mp hg
          exact ⟨k, List.mem_append_left _ hk, _, _, rfl⟩
        · obtain ⟨k, hk, hinstance⟩ := exists_field_of_mem_templateMarks children p _ g hg
          exact ⟨k, List.mem_append_right _ hk, hinstance⟩

/-- The same for templates that follow one another. -/
theorem exists_field_of_mem_templateMarks : ∀ (ts : List Template) (path : String)
    (start : Extent), ∀ f ∈ Mark.entries (templateMarks N path start ts).1,
      ∃ g ∈ (templateParts ts).flatMap (·.fields), ∃ position name, f = g.instantiate position name
  | [], _, _, _, hf => (List.not_mem_nil hf).elim
  | t :: rest, path, start, f, hf => by
      rw [templateMarks, Mark.entries_append] at hf
      rw [templateParts, List.flatMap_append]
      rcases List.mem_append.mp hf with hf | hf
      · obtain ⟨g, hg, hinstance⟩ := t.exists_field_of_mem_marks path start f hf
        exact ⟨g, List.mem_append_left _ hg, hinstance⟩
      · obtain ⟨g, hg, hinstance⟩ := exists_field_of_mem_templateMarks rest path _ f hf
        exact ⟨g, List.mem_append_right _ hg, hinstance⟩

end

end Instances

namespace View

/-- What was found behind the fixed part are instances of the fields of templates. -/
theorem Opening.exists_field_of_mem_expanded {l : Layout} {r : Representation} {b : Bytes}
    {v : View} (h : Opening l r b v) {f : Field} (hf : f ∈ v.expanded) :
    ∃ g ∈ (templateParts l.templates).flatMap (·.fields),
      ∃ position name, f = g.instantiate position name := by
  cases h with
  | fixed => exact (List.not_mem_nil hf).elim
  | full hv =>
    have hopened := opened_of_openFull hv
    obtain ⟨rfl, -⟩ := openFull_eq_ok_iff.mp hv
    rw [hopened.expanded_eq] at hf
    exact exists_field_of_mem_templateMarks _ _ _ _ f hf

/-- Every element of a view is an instance of a field of the layout. -/
theorem Opening.exists_field {l : Layout} {r : Representation} {b : Bytes} {v : View}
    (h : Opening l r b v) {f : Field} (hf : f ∈ v.elements) :
    ∃ g ∈ l.allFields, ∃ position name, f = g.instantiate position name := by
  have hexpanded : f ∈ v.expanded → _ := h.exists_field_of_mem_expanded
  obtain ⟨rfl, -, -⟩ := h.eq
  rcases List.mem_append.mp hf with hf | hf
  · -- a fixed field is its own instance at the start of the record
    exact ⟨f, List.mem_append_left _ hf, 0, f.name, rfl⟩
  · obtain ⟨g, hg, hinstance⟩ := hexpanded hf
    exact ⟨g, List.mem_append_right _ hg, hinstance⟩

end View

/-- The constant of a field is a value of the type of the field. -/
theorem Schema.type_of_constant {s : Schema} {name : String} {l : Layout}
    (hl : s.layout name = .ok l) {f : Field} (hf : f ∈ l.allFields) {c : Value}
    (hc : f.constant = some c) : c.type = f.type := by
  obtain ⟨d, hd⟩ := Schema.exists_root hl
  obtain ⟨k, x, -, htype, -, hconstant⟩ := exists_leaf_of_mem_allFields hd hl hf
  rw [hc, Leaf.constantIn?] at hconstant
  obtain ⟨token, -, hvalue⟩ := Option.bind_eq_some_iff.mp hconstant.symm
  obtain ⟨v, -, rfl⟩ := Option.map_eq_some_iff.mp hvalue
  rw [Value.type_convert, htype]

/-! ## Storing constants -/

namespace Field

/-- The bits of the constant of a field. -/
def constantWord (f : Field) : Word := (f.constant.map Value.toWord).getD 0

/-- Storing in every field what its window holds changes nothing. -/
theorem storeAll_eq_self {r : Representation} {w : Field → Word} {fs : List Field} {b : Bytes}
    (hacc : ∀ f ∈ fs, f.Accessible r b.length)
    (h : ∀ f ∈ fs, (w f).low (f.span r).size = f.load r b) : storeAll r w fs b = b := by
  induction fs with
  | nil => rfl
  | cons f rest ih =>
    obtain ⟨hf, hrest⟩ := List.forall_mem_cons.mp h
    have hstore := store_eq_self (hacc f List.mem_cons_self) hf
    rw [storeAll, hstore]
    exact ih (fun g hg => hacc g (List.mem_cons_of_mem f hg)) hrest

end Field

namespace View

/-- The elements that have a constant, in order. -/
def constantElements (v : View) : List Field := v.elements.filter (·.constant.isSome)

/-- The buffer of a view with the constants in place. -/
def stamped (v : View) : Bytes :=
  Field.storeAll v.rep Field.constantWord v.constantElements v.buffer

/-- Elements that can be accessed, and whose constants are of their types, get the bits of
their constants, one after another. -/
theorem writeConstants_ends {r : Representation} {fs : List Field} {b : Bytes}
    (hacc : ∀ f ∈ fs, f.Accessible r b.length)
    (htype : ∀ f ∈ fs, ∀ c, f.constant = some c → c.type = f.type) :
    Ends (writeConstants r fs) b ()
      (Field.storeAll r Field.constantWord (fs.filter (·.constant.isSome)) b) := by
  induction fs generalizing b with
  | nil =>
    rw [writeConstants]
    exact Ends.pure_iff.mpr ⟨rfl, rfl⟩
  | cons f rest ih =>
    have hrest : ∀ g ∈ rest, ∀ c, g.constant = some c → c.type = g.type :=
      fun g hg => htype g (List.mem_cons_of_mem f hg)
    rw [writeConstants]
    cases hc : f.constant with
    | none =>
      rw [List.filter_cons_of_neg (by simp [hc])]
      exact ih (fun g hg => hacc g (List.mem_cons_of_mem f hg)) hrest
    | some c =>
      have hword : f.constantWord = c.toWord := by simp [Field.constantWord, hc]
      have hwrite := Field.write_of_accessible (hacc f List.mem_cons_self)
        (htype f List.mem_cons_self c hc)
      rw [List.filter_cons_of_pos (by simp [hc]), Field.storeAll, hword]
      refine Ends.bind_iff.mpr ⟨b, b, Ends.get_iff.mpr ⟨rfl, rfl⟩, ?_⟩
      simp only [hwrite]
      exact Ends.bind_iff.mpr ⟨(), _, Ends.set_iff.mpr rfl, ih (Field.accessible_store hacc) hrest⟩

variable {v : View} {f : Field}

/-- Whether every constant of a view is a value of the type of its element. -/
def ConstantsTyped (v : View) : Prop :=
  ∀ f ∈ v.elements, ∀ c, f.constant = some c → c.type = f.type

/-- The constants of a view can be written when its elements can be accessed. -/
theorem setConstants_eq (hacc : ∀ f ∈ v.elements, f.Accessible v.rep v.buffer.length)
    (htype : v.ConstantsTyped) (htables : v.layout.tables ≠ []) :
    v.setConstants = (.ok (), v.onto v.rep v.stamped) := by
  have hrun : (writeConstants v.rep v.elements).run.run v.buffer = (.ok (), v.stamped) :=
    writeConstants_ends hacc htype
  have hnone : v.layout.tables.isEmpty = false := by simpa using htables
  simp [setConstants, hnone, hrun, onto]

@[simp] theorem length_stamped (v : View) : v.stamped.length = v.buffer.length :=
  Field.length_storeAll _ _

theorem mem_elements_of_mem_constantElements (hf : f ∈ v.constantElements) : f ∈ v.elements :=
  (List.mem_filter.mp hf).1

/-- The window of an element with a constant holds the bits of the constant. -/
theorem load_stamped (h : v.Independent) (hf : f ∈ v.constantElements) :
    f.load v.rep v.stamped = f.constantWord.low (f.span v.rep).size := by
  refine Field.load_storeAll (fun g hg => ?_) (h.apart.sublist List.filter_sublist) f hf
  exact h.accessible g (mem_elements_of_mem_constantElements hg)

/-- A bit that belongs to no element with a constant stays. -/
theorem bit_stamped (h : v.Independent) {j : Nat}
    (hj : ∀ g ∈ v.constantElements, ¬ g.Covers v.rep j) : v.stamped.bit j = v.buffer.bit j := by
  refine Field.bit_storeAll_of_not_covers (fun g hg => ?_) hj
  exact h.accessible g (mem_elements_of_mem_constantElements hg)

/-- The window of any other element holds what it did. -/
theorem load_stamped_of_none (h : v.Independent) (hf : f ∈ v.elements)
    (hc : f.constant = none) : f.load v.rep v.stamped = f.load v.rep v.buffer := by
  refine Field.load_congr (h.accessible f hf).size_le fun j hlo hhi => bit_stamped h fun g hg => ?_
  obtain ⟨hg, hconstant⟩ := List.mem_filter.mp hg
  obtain ⟨n, hn⟩ := List.mem_iff_getElem?.mp hf
  obtain ⟨m, hm⟩ := List.mem_iff_getElem?.mp hg
  have hne : n ≠ m := by
    rintro rfl
    obtain rfl : f = g := Option.some.inj (hn.symm.trans hm)
    simp [hc] at hconstant
  have hdisjoint := h.disjoint hn hm hne
  unfold Field.Covers
  omega

theorem Independent.onto_stamped (h : v.Independent) :
    (v.onto v.rep v.stamped).Independent := by
  refine ⟨fun f hf => ?_, h.apart⟩
  show f.Accessible v.rep v.stamped.length
  rw [length_stamped]
  exact h.accessible f hf

/-- With the constants in place there is nothing left to write. -/
theorem stamped_onto_stamped (h : v.Independent) :
    (v.onto v.rep v.stamped).stamped = v.stamped := by
  refine Field.storeAll_eq_self (fun f hf => ?_) fun f hf => (load_stamped h hf).symm
  exact h.onto_stamped.accessible f (mem_elements_of_mem_constantElements hf)

/-- What an element reads once the constants are in place. -/
theorem value_stamped (h : v.Independent) {i : Nat} (hf : v.elements[i]? = some f) :
    (v.onto v.rep v.stamped).value i = match f.constant with
      | some c => .ok (.ofWord f.type (c.toWord.low (f.span v.rep).size) (f.span v.rep).size)
      | none => v.value i := by
  have hmem := List.mem_of_getElem? hf
  rw [value_eq h.onto_stamped hf]
  show Except.ok (Value.ofWord f.type (f.load v.rep v.stamped) (f.span v.rep).size) = _
  cases hc : f.constant with
  | some c =>
    have hload := load_stamped h (List.mem_filter.mpr ⟨hmem, by simp [hc]⟩)
    rw [hload]
    simp [Field.constantWord, hc]
  | none =>
    rw [load_stamped_of_none h hmem hc, value_eq h hf]
    rfl

/-! ## Views of compiled structs -/

theorem constantsTyped_of_opening {s : Schema} {name : String} {l : Layout} {r : Representation}
    {b : Bytes} (hl : s.layout name = .ok l) (hv : Opening l r b v) : v.ConstantsTyped := by
  intro f hf c hc
  obtain ⟨g, hg, position, name, rfl⟩ := hv.exists_field hf
  exact Schema.type_of_constant hl hg hc

/-- Blocks with a switch, two to the 63rd bits apart. -/
def switches : Schema where
  version := ⟨2, 0⟩
  aliases := []
  enums := [{ name := "Switch", base := "tUInt8", entries := [⟨"ON", 1⟩] }]
  structs :=
    [ { name := "Block", alignment := 1152921504606846976
        elements :=
          [{ Element.simple "switch" "Switch" (.fixed 1) none with constant := some "ON" }] },
      { name := "Record", alignment := 1
        elements := [.simple "items" "Block" (.fixed 3) none] } ]

end View

end WireRecord
