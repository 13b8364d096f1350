/-
WireRecord.Proofs.ConstantTheorems — what a constant stands for.

A constant is the name of an enumeration entry, and a name that only one entry has
stands for the number declared there. It is looked up in two places. Among the
declarations it is that number. A recorded table has it as a value of the underlying
type, so a number that this does not hold is reduced on the way to the field. Which of
the two is found depends on whether a scalar of the enumeration was met before,
`Shape.Meets`, and on nothing else.

For a number that the underlying type holds there is no difference. For others there
can be one: in `levels` the same constant is 300 in one struct and 44 in the other.
-/
import WireRecord.Proofs.AcceptanceTheorems
import WireRecord.Proofs.IntegerTheorems
import WireRecord.Proofs.RecordingTheorems

namespace WireRecord

/-! ## Names in tables -/

/-- The value of a name is that of the first entry declared with it. -/
theorem EnumTable.valueOf?_ofDecl (decl : EnumDecl) (type : Scalar) (token : String) :
    (ofDecl decl type).valueOf? token =
      (decl.entries.find? (·.name == token)).map (·.toValue.convert type) := by
  unfold ofDecl valueOf?
  induction decl.entries with
  | nil => rfl
  | cons entry rest ih =>
    rw [List.map_cons, List.lookup_cons, List.find?_cons]
    by_cases hname : entry.name = token
    · simp [hname]
    · rw [beq_false_of_ne hname, beq_false_of_ne (Ne.symm hname)]
      exact ih

/-- What only one element of a list satisfies is found there. -/
theorem find?_eq_some_of_unique {α : Type} {p : α → Bool} {a : α} {l : List α} (ha : a ∈ l)
    (hp : p a = true) (hunique : ∀ b ∈ l, p b = true → b = a) : l.find? p = some a := by
  cases hfound : l.find? p with
  | none => exact absurd hp (by simpa using List.find?_eq_none.mp hfound a ha)
  | some b => rw [hunique b (List.mem_of_find?_eq_some hfound) (List.find?_some hfound)]

/-- What occurs once among the images of some elements comes from one of them. -/
theorem eq_of_count_map_eq_one {α β : Type} [DecidableEq β] {f : α → β} {l : List α} {a b : α}
    (hcount : (l.map f).count (f a) = 1) (ha : a ∈ l) (hb : b ∈ l) (hf : f b = f a) : b = a := by
  obtain ⟨before, after, rfl⟩ := List.append_of_mem ha
  rw [List.map_append, List.map_cons, List.count_append, List.count_cons_self] at hcount
  have hbefore : f a ∉ before.map f := List.count_eq_zero.mp (by omega)
  have hafter : f a ∉ after.map f := List.count_eq_zero.mp (by omega)
  rcases List.mem_append.mp hb with hb | hb
  · exact absurd (hf ▸ List.mem_map_of_mem hb) hbefore
  · rcases List.mem_cons.mp hb with rfl | hb
    · rfl
    · exact absurd (hf ▸ List.mem_map_of_mem hb) hafter

namespace Schema

variable {s : Schema}

/-- Whether a table is that of a declared enumeration. -/
def Declares (s : Schema) (t : EnumTable) : Prop :=
  ∃ decl ∈ s.enums, ∃ type, s.scalar? decl.base = some type ∧ t = .ofDecl decl type

/-- The table of a scalar is that of the enumeration it is of, over the type of the scalar. -/
theorem enum_of_mem_leaves {d : StructDecl} {x : Leaf} {t : EnumTable}
    (hx : x ∈ (s.shape d).leaves) (ht : x.table = some t) :
    ∃ decl, s.meaning? x.element.type = some (.enum decl) ∧
      s.scalar? decl.base = some x.type ∧ t = .ofDecl decl x.type := by
  have hshape : (s.shape d).Everywhere (OfLeaves fun x => ∀ t, x.table = some t →
      ∃ decl, s.meaning? x.element.type = some (.enum decl) ∧
        s.scalar? decl.base = some x.type ∧ t = .ofDecl decl x.type) := by
    rw [shape_eq_shapeOf, everywhere_iff]
    intro y _ e type table hm t ht
    obtain ⟨e, -, hm⟩ := List.mem_map.mp hm
    rw [member_eq] at hm
    split at hm
    · cases hm
      cases ht
    · rename_i decl hdecl
      split at hm
      · rename_i base hbase
        cases hm
        cases ht
        exact ⟨decl, hdecl, hbase, rfl⟩
      · cases hm
    · split at hm <;> cases hm
    · cases hm
  exact Shape.forall_mem_leaves hshape x hx t ht

/-- A scalar has no table but that of a declared enumeration. -/
theorem declares_of_mem_leaves {d : StructDecl} {x : Leaf} {t : EnumTable}
    (hx : x ∈ (s.shape d).leaves) (ht : x.table = some t) : s.Declares t := by
  obtain ⟨decl, hdecl, hbase, rfl⟩ := enum_of_mem_leaves hx ht
  exact ⟨decl, mem_enums_of_meaning? hdecl, _, hbase, rfl⟩

/-- All entries, with the enumerations that they are declared in. -/
def placedEntries (s : Schema) : List (EnumDecl × EnumEntry) :=
  s.enums.flatMap fun decl => decl.entries.map (decl, ·)

theorem mem_placedEntries {decl : EnumDecl} {entry : EnumEntry} (hdecl : decl ∈ s.enums)
    (hentry : entry ∈ decl.entries) : (decl, entry) ∈ s.placedEntries :=
  List.mem_flatMap.mpr ⟨decl, hdecl, List.mem_map_of_mem hentry⟩

theorem map_placedEntries (s : Schema) :
    s.placedEntries.map (·.2.name) = s.entries.map (·.name) := by
  simp [placedEntries, entries, List.map_flatMap, Function.comp_def]

section Unique

variable {decl decl' : EnumDecl} {entry : EnumEntry}
  (hunique : (s.entries.map (·.name)).count entry.name = 1) (hdecl : decl ∈ s.enums)
  (hentry : entry ∈ decl.entries)

include hunique hdecl hentry

/-- An entry with a name of its own is declared in one place. -/
theorem eq_of_entry_unique {entry' : EnumEntry} (hdecl' : decl' ∈ s.enums)
    (hentry' : entry' ∈ decl'.entries) (hname : entry'.name = entry.name) :
    decl' = decl ∧ entry' = entry := by
  have heq : (decl', entry') = (decl, entry) :=
    eq_of_count_map_eq_one (f := (·.2.name)) (by rw [map_placedEntries]; exact hunique)
      (mem_placedEntries hdecl hentry) (mem_placedEntries hdecl' hentry') hname
  exact ⟨congrArg Prod.fst heq, congrArg Prod.snd heq⟩

/-- Only the table of its own enumeration has a value for the name of a single entry. -/
theorem valueOf?_eq_some_iff {type : Scalar} {v : Value} (hdecl' : decl' ∈ s.enums) :
    (EnumTable.ofDecl decl' type).valueOf? entry.name = some v ↔
      decl' = decl ∧ v = entry.toValue.convert type := by
  rw [EnumTable.valueOf?_ofDecl, Option.map_eq_some_iff]
  constructor
  · rintro ⟨found, hfound, rfl⟩
    have hname : found.name = entry.name := by simpa using List.find?_some hfound
    obtain ⟨rfl, rfl⟩ := eq_of_entry_unique hunique hdecl hentry hdecl'
      (List.mem_of_find?_eq_some hfound) hname
    exact ⟨rfl, rfl⟩
  · rintro ⟨rfl, rfl⟩
    refine ⟨entry, find?_eq_some_of_unique hentry (beq_self_eq_true _) fun other hother hname => ?_,
      rfl⟩
    exact (eq_of_entry_unique hunique hdecl hentry hdecl hother (by simpa using hname)).2

/-- A declared table that has a value for such a name is of the enumeration of the entry, and
has the number declared there as a value of its type. -/
theorem Declares.of_valueOf? {t : EnumTable} {v : Value} (ht : s.Declares t)
    (hv : t.valueOf? entry.name = some v) : t.name = decl.name ∧
      ∃ type, s.scalar? decl.base = some type ∧ v = entry.toValue.convert type := by
  obtain ⟨decl', hdecl', type, hbase, rfl⟩ := ht
  obtain ⟨rfl, rfl⟩ := (valueOf?_eq_some_iff hunique hdecl hentry hdecl').mp hv
  exact ⟨rfl, type, hbase, rfl⟩

/-- Among the declarations such a name is found once. -/
theorem find?_entries : s.entries.find? (·.name == entry.name) = some entry := by
  refine find?_eq_some_of_unique (List.mem_flatMap.mpr ⟨decl, hdecl, hentry⟩)
    (beq_self_eq_true _) fun other hother hname => ?_
  obtain ⟨decl', hdecl', hother⟩ := List.mem_flatMap.mp hother
  exact (eq_of_entry_unique hunique hdecl hentry hdecl' hother (by simpa using hname)).2

/-- In tables of declared enumerations, the name of a single entry stands for the number
declared with it, unless the table of its enumeration is among them: then it stands for
that number as a value of the underlying type. -/
theorem constantValue?_of_unique (hnames : s.NamesDistinct) {ts : List EnumTable}
    (hts : ∀ t ∈ ts, s.Declares t) :
    ((∀ t ∈ ts, t.name ≠ decl.name) →
      Element.constantValue? ts s.entries entry.name = some entry.toValue) ∧
    ((∃ t ∈ ts, t.name = decl.name) → ∃ type, s.scalar? decl.base = some type ∧
      Element.constantValue? ts s.entries entry.name = some (entry.toValue.convert type)) := by
  unfold Element.constantValue?
  refine ⟨fun hnone => ?_, ?_⟩
  · have htables : ts.findSome? (·.valueOf? entry.name) = none :=
      List.findSome?_eq_none_iff.mpr fun t ht => Option.eq_none_iff_forall_ne_some.mpr fun v hv =>
        hnone t ht ((hts t ht).of_valueOf? hunique hdecl hentry hv).1
    rw [htables, find?_entries hunique hdecl hentry]
    rfl
  · rintro ⟨t, ht, hname⟩
    obtain ⟨decl', hdecl', type, -, rfl⟩ := hts t ht
    obtain rfl : decl' = decl := List.inj_on_of_nodup_map hnames.enums hdecl' hdecl hname
    have hself : (EnumTable.ofDecl decl' type).valueOf? entry.name =
        some (entry.toValue.convert type) :=
      (valueOf?_eq_some_iff hunique hdecl hentry hdecl).mpr ⟨rfl, rfl⟩
    have hsome : (ts.findSome? (·.valueOf? entry.name)).isSome = true :=
      List.findSome?_isSome_iff.mpr ⟨_, ht, by rw [hself]; rfl⟩
    obtain ⟨v, hv⟩ := Option.isSome_iff_exists.mp hsome
    obtain ⟨u, hu, huv⟩ := List.exists_of_findSome?_eq_some hv
    obtain ⟨-, base, hbase, rfl⟩ := (hts u hu).of_valueOf? hunique hdecl hentry huv
    exact ⟨base, hbase, by rw [hv, Option.some_or]⟩

end Unique

end Schema

/-! ## Constants of a layout -/

/-- Whether one of the scalars of a shape, up to the one with an index, is of an
enumeration. -/
def Shape.Meets (shape : Shape) (decl : EnumDecl) (k : Nat) : Prop :=
  ∃ x ∈ shape.leaves.take (k + 1), ∃ t ∈ x.table, t.name = decl.name

instance (shape : Shape) (decl : EnumDecl) (k : Nat) : Decidable (shape.Meets decl k) :=
  inferInstanceAs (Decidable (∃ x ∈ shape.leaves.take (k + 1), ∃ t ∈ x.table, t.name = decl.name))

/-- The tables recorded up to a scalar have that of an enumeration among them if and only if a
scalar of it was met. -/
theorem Shape.meets_iff (shape : Shape) (decl : EnumDecl) (k : Nat) :
    shape.Meets decl k ↔ ∃ t ∈ settleAll [] (shape.leaves.take (k + 1)), t.name = decl.name := by
  constructor
  · rintro ⟨x, hx, t, ht, hname⟩
    obtain ⟨u, hu, huname⟩ :
        ∃ u ∈ settleAll [] (shape.leaves.take (k + 1)), u.name = t.name := exists_mem_settleAll hx ht
    exact ⟨u, hu, huname.trans hname⟩
  · rintro ⟨t, ht, hname⟩
    rcases mem_settleAll ht with ht | ⟨x, hx, hxt⟩
    · exact (List.not_mem_nil ht).elim
    · exact ⟨x, hx, t, hxt, hname⟩

namespace Schema

/-- The fields of a layout are those of the scalars of its struct, in order. A constant
that names a single entry is the declared number as a value of the type of the field as
long as no scalar of the enumeration was met. After that the number goes through the
underlying type, which makes no difference if this holds it. -/
theorem constant_of_layout {s : Schema} {name : String} {d : StructDecl} {l : Layout}
    (hd : s.root name = .ok d) (hl : s.layout name = .ok l) {decl : EnumDecl} {entry : EnumEntry}
    (hdecl : decl ∈ s.enums) (hentry : entry ∈ decl.entries)
    (hunique : (s.entries.map (·.name)).count entry.name = 1) :
    l.allFields.length = (s.shape d).leaves.length ∧
    ∀ k x, (s.shape d).leaves[k]? = some x → x.element.constant = some entry.name →
      ∃ f, l.allFields[k]? = some f ∧ f.type = x.type ∧
        (¬ (s.shape d).Meets decl k → f.constant = some (entry.toValue.convert f.type)) ∧
        ((s.shape d).Meets decl k → ∃ base, s.scalar? decl.base = some base ∧
          f.constant = some ((entry.toValue.convert base).convert f.type) ∧
          ((entry.toValue.convert base).integer? = entry.toValue.integer? →
            f.constant = some (entry.toValue.convert f.type))) := by
  have hnames := (root_eq_ok_iff.mp hd).1
  refine ⟨length_allFields hd hl, fun k x hx htoken => ?_⟩
  obtain ⟨f, hf, htype, -, hconstant⟩ := field_of_leaf hd hl hx
  have hts : ∀ t ∈ settleAll [] ((s.shape d).leaves.take (k + 1)), s.Declares t := by
    intro t ht
    rcases mem_settleAll ht with ht | ⟨y, hy, hty⟩
    · exact (List.not_mem_nil ht).elim
    · exact declares_of_mem_leaves (List.mem_of_mem_take hy) hty
  obtain ⟨hunmet, hmet⟩ := constantValue?_of_unique hunique hdecl hentry hnames hts
  rw [Leaf.constantIn?, htoken, Option.bind_some] at hconstant
  refine ⟨f, hf, htype, fun hnot => ?_, fun hmeets => ?_⟩
  · rw [hconstant, hunmet, htype]
    · rfl
    · exact fun t ht hname => hnot ((Shape.meets_iff _ decl k).mpr ⟨t, ht, hname⟩)
  · obtain ⟨base, hbase, hvalue⟩ := hmet ((Shape.meets_iff _ decl k).mp hmeets)
    have hthrough : f.constant = some ((entry.toValue.convert base).convert f.type) := by
      rw [hconstant, hvalue, htype]
      rfl
    refine ⟨base, hbase, hthrough, fun hholds => ?_⟩
    rw [hthrough, Value.convert_convert (v := entry.toValue) rfl (hholds.trans rfl)]

end Schema

/-- An enumeration with a number that its underlying type does not hold. -/
def level : EnumDecl where
  name := "Level"
  base := "tUInt8"
  entries := [⟨"LOW", 3⟩, ⟨"HIGH", 300⟩]

/-- Two structs with constants of it. Only the first has an element of the enumeration. -/
def levels : Schema where
  version := ⟨3, 0⟩
  aliases := []
  enums := [level]
  structs :=
    [ { name := "Record", alignment := 1
        elements :=
          [ .simple "kind" "Level" (.fixed 1) none,
            { Element.simple "low" "tUInt16" (.fixed 1) none with constant := some "LOW" },
            { Element.simple "high" "tUInt16" (.fixed 1) none with constant := some "HIGH" } ] },
      { name := "Plain", alignment := 1
        elements :=
          [{ Element.simple "high" "tUInt16" (.fixed 1) none with constant := some "HIGH" }] } ]

/-- Three is the same number in all types, so it does not matter that the enumeration was met. -/
theorem Schema.constant_of_layout_levels : ∃ l f, levels.layout "Record" = .ok l ∧
    l.allFields[1]? = some f ∧ f.type = .uint .w16 ∧ f.constant = some (.uint .w16 3) := by
  obtain ⟨d, l, v, hd, hl, -, hp⟩ := @exists_view levels "Record" .wire [0, 0, 0, 0, 0]
    (fun d _ => ((levels.shape d).leaves[1]?).map (fun x => (x.element.constant, x.type)) =
      some (some "LOW", .uint .w16) ∧ (levels.shape d).Meets level 1) (by decide +kernel)
  obtain ⟨hleaf, hmeets⟩ := of_decide_eq_true hp
  obtain ⟨x, hx, hlow⟩ := Option.map_eq_some_iff.mp hleaf
  obtain ⟨htoken, hscalar⟩ := Prod.mk.inj hlow
  have hentry : ⟨"LOW", 3⟩ ∈ level.entries := List.mem_cons_self
  obtain ⟨-, hconstants⟩ := constant_of_layout hd hl List.mem_cons_self hentry (by decide)
  obtain ⟨f, hf, htype, -, hmet⟩ := hconstants 1 x hx htoken
  obtain ⟨base, hbase, -, hholds⟩ := hmet hmeets
  have hbyte : levels.scalar? level.base = some (.uint .w8) := by decide +kernel
  obtain rfl := Option.some.inj (hbase.symm.trans hbyte)
  rw [hscalar] at htype
  rw [htype] at hholds
  exact ⟨l, f, hl, hf, htype, (hholds (by decide +kernel)).trans (by decide +kernel)⟩

/-- The number 300 is declared once, but behind an element of the enumeration its constant is
what is left of it in eight bits. -/
theorem Schema.not_constant_of_declared_levels : ∃ l l', levels.layout "Record" = .ok l ∧
    levels.layout "Plain" = .ok l' ∧ (levels.entries.map (·.name)).count "HIGH" = 1 ∧
    ⟨"HIGH", 300⟩ ∈ levels.entries ∧
    (l.allFields[2]?).map Field.holding = some (.uint .w16, none, some (.uint .w16 44)) ∧
    (l'.allFields[0]?).map Field.holding = some (.uint .w16, none, some (.uint .w16 300)) ∧
    (EnumEntry.toValue ⟨"HIGH", 300⟩).convert (.uint .w16) = .uint .w16 300 := by
  obtain ⟨-, l, v, -, hl, hv, hp⟩ := @exists_view levels "Record" .wire [0, 0, 0, 0, 0]
    (fun _ v => (v.layout.allFields[2]?).map Field.holding =
      some (.uint .w16, none, some (.uint .w16 44))) (by decide +kernel)
  obtain ⟨-, l', v', -, hl', hv', hp'⟩ := @exists_view levels "Plain" .wire [0, 0]
    (fun _ v => (v.layout.allFields[0]?).map Field.holding =
      some (.uint .w16, none, some (.uint .w16 300))) (by decide +kernel)
  obtain ⟨rfl, -⟩ := View.openFull_eq_ok_iff.mp hv
  obtain ⟨rfl, -⟩ := View.openFull_eq_ok_iff.mp hv'
  exact ⟨v.layout, v'.layout, hl, hl', by decide, by decide, of_decide_eq_true hp,
    of_decide_eq_true hp', by decide +kernel⟩

end WireRecord
