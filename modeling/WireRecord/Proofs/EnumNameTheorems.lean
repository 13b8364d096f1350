/-
WireRecord.Proofs.EnumNameTheorems — the names of an enumeration, on the wire and back.

The table of an element of an enumeration has the declared numbers as values of the type of
the element, so a value has a name if and only if it is congruent to a declared number
(`EnumTable.exists_nameOf?_iff`). Where no two entries share a name, the name of a value
leads back to it, and where no two share a value either, the value of a name leads back to
the name.

A value that is written to an element comes back if the window holds it. So names survive
there if the window holds the values of all the entries, and the native one always does.
-/
import WireRecord.Proofs.ConstantTheorems
import WireRecord.Proofs.ConstantWritingTheorems
import WireRecord.Proofs.NameTheorems

namespace WireRecord

/-! ## Tables of integers -/

namespace EnumDecl

/-- Whether the entries of an enumeration have different names, and different values of a
type. -/
structure Distinct (decl : EnumDecl) (type : Scalar) : Prop where
  names : (decl.entries.map (·.name)).Nodup
  values : (decl.entries.map (·.toValue.convert type)).Nodup

instance (decl : EnumDecl) (type : Scalar) : Decidable (decl.Distinct type) :=
  decidable_of_iff ((decl.entries.map (·.name)).Nodup ∧
    (decl.entries.map (·.toValue.convert type)).Nodup)
    ⟨fun h => ⟨h.1, h.2⟩, fun h => ⟨h.names, h.values⟩⟩

/-- Whether `n` bits of a type hold the values of the entries of an enumeration. -/
def FitsIn (decl : EnumDecl) (type : Scalar) (n : Nat) : Prop :=
  ∀ entry ∈ decl.entries, ∃ k ∈ (entry.toValue.convert type).integer?, type.Holds n k

instance (decl : EnumDecl) (type : Scalar) (n : Nat) : Decidable (decl.FitsIn type n) :=
  inferInstanceAs (Decidable (∀ entry ∈ decl.entries, ∃ k ∈ _, type.Holds n k))

end EnumDecl

/-- Where images are distinct, an element is found by its image. -/
theorem find?_eq_some_of_nodup_map {α β : Type} [DecidableEq β] {f : α → β} {a : α} {l : List α}
    (h : (l.map f).Nodup) (ha : a ∈ l) : l.find? (f · == f a) = some a :=
  find?_eq_some_of_unique ha (beq_self_eq_true _) fun _ hb hf =>
    List.inj_on_of_nodup_map h hb ha (by simpa using hf)

namespace EnumTable

variable {decl : EnumDecl} {type : Scalar} {entry : EnumEntry} {v : Value}

/-- The name of an integer is that of the first entry with the same value. -/
theorem nameOf?_ofDecl (decl : EnumDecl) (hv : v.type.IsInteger) :
    (ofDecl decl v.type).nameOf? v =
      (decl.entries.find? (·.toValue.convert v.type == v)).map (·.name) := by
  unfold ofDecl nameOf?
  simp only [Value.convert_type, Value.same_eq_beq hv, List.find?_map, Option.map_map]
  rfl

/-- An integer has a name if and only if a declared number is congruent to it. -/
theorem exists_nameOf?_iff (hv : v.type.IsInteger) {k : Int} (hk : v.integer? = some k) :
    (∃ n, (ofDecl decl v.type).nameOf? v = some n) ↔
      ∃ entry ∈ decl.entries, entry.value.toInt % 2 ^ v.type.bits = k % 2 ^ v.type.bits := by
  have hentry : ∀ entry : EnumEntry, (entry.toValue.convert v.type == v) = true ↔
      entry.value.toInt % 2 ^ v.type.bits = k % 2 ^ v.type.bits := by
    intro entry
    have hnumber : entry.toValue.integer? = some entry.value.toInt := rfl
    rw [beq_iff_eq, Value.convert_eq_iff_emod_eq hnumber hk hv]
  rw [nameOf?_ofDecl decl hv, ← Option.isSome_iff_exists, Option.isSome_map, List.find?_isSome]
  simp only [hentry]

/-- Where names are distinct, the table has the declared number of each of them. -/
theorem valueOf?_of_mem (hnames : (decl.entries.map (·.name)).Nodup) (type : Scalar)
    (hentry : entry ∈ decl.entries) :
    (ofDecl decl type).valueOf? entry.name = some (entry.toValue.convert type) := by
  rw [valueOf?_ofDecl, find?_eq_some_of_nodup_map hnames hentry]
  rfl

/-- Where names are distinct, the name of a value leads back to it. -/
theorem valueOf?_of_nameOf? (hnames : (decl.entries.map (·.name)).Nodup) (hv : v.type.IsInteger)
    {n : String} (hn : (ofDecl decl v.type).nameOf? v = some n) :
    (ofDecl decl v.type).valueOf? n = some v := by
  rw [nameOf?_ofDecl decl hv] at hn
  obtain ⟨entry, hfound, rfl⟩ := Option.map_eq_some_iff.mp hn
  have hvalue : entry.toValue.convert v.type = v := by simpa using List.find?_some hfound
  rw [valueOf?_of_mem hnames v.type (List.mem_of_find?_eq_some hfound), hvalue]

/-- Where values are distinct, the value of an entry leads back to its name. -/
theorem nameOf?_of_mem (hvalues : (decl.entries.map (·.toValue.convert type)).Nodup)
    (ht : type.IsInteger) (hentry : entry ∈ decl.entries) :
    (ofDecl decl type).nameOf? (entry.toValue.convert type) = some entry.name := by
  have htype := Value.type_convert entry.toValue type
  have hname := nameOf?_ofDecl (v := entry.toValue.convert type) decl (by rw [htype]; exact ht)
  rw [htype] at hname
  rw [hname, find?_eq_some_of_nodup_map hvalues hentry]
  rfl

end EnumTable

/-- The values of entries survive in the native window of a field, and on the wire if they fit
there. -/
theorem EnumDecl.survives_convert {decl : EnumDecl} {f : Field} {r : Representation}
    (hwell : f.WellPlaced) (hfits : r = .wire → decl.FitsIn f.type f.wire.size) {entry : EnumEntry}
    (hentry : entry ∈ decl.entries) :
    (entry.toValue.convert f.type).Survives (f.span r).size := by
  have htype := Value.type_convert entry.toValue f.type
  cases r with
  | native =>
    have hsize : (f.span .native).size = f.type.bits := hwell.native_size
    refine Value.survives_of_bits_le ?_
    rw [htype, hsize]
  | wire =>
    obtain ⟨k, hk, hholds⟩ := hfits rfl entry hentry
    have hle : f.wire.size ≤ (entry.toValue.convert f.type).type.bits := by
      rw [htype]
      exact hwell.wire_le
    refine (Value.survives_iff_holds hk hwell.wire_pos hle).mpr ?_
    rw [htype]
    exact hholds

/-! ## Elements of enumerations -/

namespace View

variable {s : Schema} {name : String} {l : Layout} {r : Representation} {b : Bytes} {v : View}
  {i : Nat} {f : Field}

/-- The table of an element is that of a declared enumeration over the type of the element. -/
theorem Opening.exists_enum (hl : s.layout name = .ok l) (hv : Opening l r b v)
    (hf : f ∈ v.elements) {t : EnumTable} (ht : f.table = some t) :
    ∃ decl ∈ s.enums, s.scalar? decl.base = some f.type ∧ t = .ofDecl decl f.type := by
  obtain ⟨g, hg, position, path, rfl⟩ := hv.exists_field hf
  obtain ⟨d, hd⟩ := Schema.exists_root hl
  obtain ⟨k, x, hx, htype, htable, -⟩ := Schema.exists_leaf_of_mem_allFields hd hl hg
  obtain ⟨decl, hdecl, hbase, rfl⟩ :=
    Schema.enum_of_mem_leaves (List.mem_of_getElem? hx) (htable ▸ ht)
  have hinstance : (g.instantiate position path).type = x.type := htype
  rw [hinstance]
  exact ⟨decl, Schema.mem_enums_of_meaning? hdecl, hbase, rfl⟩

/-- A value of the type of an element that survives in its window is read once it was
written. -/
theorem value_put_of_survives (hf : v.elements[i]? = some f)
    (h : f.Accessible v.rep v.buffer.length) {x : Value} (hx : x.type = f.type)
    (hsurvives : x.Survives (f.span v.rep).size) : (v.put f x).value i = .ok x := by
  rw [value_put_of_accessible hf h, Field.kept, Value.convert_of_type_eq hx, ← hx, hsurvives]

/-- The text of an element that no other has the name of is that of its value. -/
theorem textOf_eq (hf : v.elements[i]? = some f)
    (hunique : ∀ j g, v.elements[j]? = some g → g.name = f.name → j = i) {x : Value}
    (hx : v.value i = .ok x) : v.textOf f.name = .ok (x.textIn f.table) := by
  simp [textOf, find_of_unique hf hunique, hx, element_eq_ok_iff.mpr hf, bind, Except.bind, pure,
    Except.pure]

/-- In an element of a view of a compiled struct that is of an enumeration of integers, names
survive. If no two entries share a name, or a value of the type, and the window on the wire
holds the values, each name comes back from the value that is written for it, and the text of
the element shows it, if no other element has the same name. What is read from any buffer has
a name if and only if a declared number is congruent to it, and if no two entries share one,
the name leads back to the value. -/
theorem names_of_opening (hl : s.layout name = .ok l) (hv : Opening l r b v)
    (hf : v.elements[i]? = some f) {t : EnumTable} (ht : f.table = some t)
    (hinteger : f.type.IsInteger) :
    ∃ decl ∈ s.enums, s.scalar? decl.base = some f.type ∧ t = .ofDecl decl f.type ∧
      (decl.Distinct f.type → (r = .wire → decl.FitsIn f.type f.wire.size) →
        (f.span r).stop ≤ 8 * b.length → ∀ entry ∈ decl.entries, ∃ x w,
          t.valueOf? entry.name = some x ∧ v.setValue i x = .ok w ∧ w.value i = .ok x ∧
          t.nameOf? x = some entry.name ∧
          ((∀ j g, v.elements[j]? = some g → g.name = f.name → j = i) →
            w.textOf f.name = .ok entry.name)) ∧
      ∀ b' y, (v.onto r b').value i = .ok y → ∃ k, y.integer? = some k ∧
        ((∃ n, t.nameOf? y = some n) ↔
          ∃ entry ∈ decl.entries, entry.value.toInt % 2 ^ f.type.bits = k % 2 ^ f.type.bits) ∧
        ((decl.entries.map (·.name)).Nodup → ∀ n, t.nameOf? y = some n → t.valueOf? n = some y) := by
  have hmem := List.mem_of_getElem? hf
  obtain ⟨d, hd⟩ := Schema.exists_root hl
  have hwell := (hv.sound (Schema.sound_of_layout hd hl)).well f hmem
  obtain ⟨decl, hdecl, hbase, rfl⟩ := hv.exists_enum hl hmem ht
  obtain ⟨-, rfl, rfl⟩ := hv.eq
  refine ⟨decl, hdecl, hbase, rfl, fun hdistinct hfits hstop entry hentry => ?_,
    fun b' y hy => ?_⟩
  · have haccessible := hwell.accessible hstop
    have hvalue := value_put_of_survives hf haccessible (Value.type_convert entry.toValue f.type)
      (EnumDecl.survives_convert hwell hfits hentry)
    have hname := EnumTable.nameOf?_of_mem hdistinct.values hinteger hentry
    refine ⟨_, _, EnumTable.valueOf?_of_mem hdistinct.names f.type hentry,
      setValue_of_accessible hf haccessible _, hvalue, hname, fun hunique => ?_⟩
    have helement : (v.put f (entry.toValue.convert f.type)).elements[i]? = some f := hf
    rw [textOf_eq helement hunique hvalue, Value.textIn, ht, Option.bind_some, hname,
      Option.getD_some]
  · have helement : (v.onto v.rep b').elements[i]? = some f := hf
    rw [value_eq_read helement] at hy
    have htype : y.type = f.type := by
      obtain ⟨-, rfl⟩ := Field.read_eq_ok hy
      exact f.type_valueIn _ _
    rw [← htype] at hinteger ⊢
    obtain ⟨k, hk⟩ := Value.exists_integer hinteger
    exact ⟨k, hk, EnumTable.exists_nameOf?_iff hinteger hk,
      fun hnames n hn => EnumTable.valueOf?_of_nameOf? hnames hinteger hn⟩

end View

/-- The gears of an engine, one of which has a number that eight bits do not hold. -/
def gear : EnumDecl where
  name := "Gear"
  base := "tInt8"
  entries := [⟨"REVERSE", -1⟩, ⟨"NEUTRAL", 0⟩, ⟨"LOW", 1⟩, ⟨"HIGH", 259⟩]

/-- Records with a gear in three bits. -/
def gears : Schema where
  version := ⟨3, 0⟩
  aliases := []
  enums := [gear]
  structs :=
    [ { name := "Record", alignment := 1
        elements :=
          [ .simple "speed" "tUInt8" (.fixed 1) (some 5),
            .simple "gear" "Gear" (.fixed 1) (some 3) ] } ]

/-- Of 259 the table has three, which three bits with a sign hold. Only the highest of them set
is minus four and has no name, all of them set is minus one and has one. -/
theorem View.names_of_opening_gears : ∃ l v w, gears.layout "Record" = .ok l ∧
    Opening l .wire [0x0A] v ∧ v.setValue 1 (.sint .w8 3) = .ok w ∧
    w.value 1 = .ok (.sint .w8 3) ∧ w.textOf "gear" = .ok "HIGH" ∧
    (v.onto .wire [0x8A]).value 1 = .ok (.sint .w8 (-4)) ∧
    (EnumTable.ofDecl gear (.sint .w8)).nameOf? (.sint .w8 (-4)) = none ∧
    (v.onto .wire [0xEA]).value 1 = .ok (.sint .w8 (-1)) ∧
    ∃ n, (EnumTable.ofDecl gear (.sint .w8)).nameOf? (.sint .w8 (-1)) = some n := by
  obtain ⟨d, l, v, -, hl, hv, hp⟩ := @Schema.exists_view gears "Record" .wire [0x0A]
    (fun _ v => (v.elements.map (·.name)).Nodup ∧ ∃ f ∈ v.elements[1]?, f.name = "gear" ∧
      f.type = .sint .w8 ∧ f.table = some (.ofDecl gear (.sint .w8)) ∧ f.wire = ⟨5, 3⟩ ∧
      (f.read .wire [0x8A]).toOption = some (.sint .w8 (-4)) ∧
      (f.read .wire [0xEA]).toOption = some (.sint .w8 (-1))) (by decide +kernel)
  obtain ⟨hnames, f, hf, hname, htype, ht, hwire, hlowest, hlast⟩ := of_decide_eq_true hp
  obtain ⟨decl, hdecl, -, -, hwrite, hread⟩ :=
    names_of_opening hl (.full hv) hf ht (by rw [htype]; trivial)
  obtain rfl : decl = gear := List.mem_singleton.mp hdecl
  have hspan : f.span .wire = ⟨5, 3⟩ := hwire
  rw [htype] at hwrite hread
  obtain ⟨x, w, hx, hset, hvalue, -, htext⟩ := hwrite (by decide)
    (fun _ => by rw [hwire]; decide) (by rw [hspan]; decide) ⟨"HIGH", 259⟩ (by decide)
  have hhigh : (EnumTable.ofDecl gear (.sint .w8)).valueOf? "HIGH" = some (.sint .w8 3) := by
    decide
  obtain rfl : .sint .w8 3 = x := Option.some.inj (hhigh.symm.trans hx)
  have hshown := htext fun j g hg hsame => View.eq_of_name_eq hnames hf hg hsame
  rw [hname] at hshown
  have hlowest' : (v.onto .wire [0x8A]).value 1 = .ok (.sint .w8 (-4)) := by
    rw [value_eq_read (v := v.onto .wire [0x8A]) hf]
    exact eq_ok_of_toOption hlowest
  have hlast' : (v.onto .wire [0xEA]).value 1 = .ok (.sint .w8 (-1)) := by
    rw [value_eq_read (v := v.onto .wire [0xEA]) hf]
    exact eq_ok_of_toOption hlast
  obtain ⟨k, hk, hiff, -⟩ := hread _ _ hlowest'
  obtain ⟨k', hk', hiff', -⟩ := hread _ _ hlast'
  obtain rfl : -4 = k := Option.some.inj hk
  obtain rfl : -1 = k' := Option.some.inj hk'
  refine ⟨l, v, w, hl, .full hv, hset, hvalue, hshown, hlowest', ?_, hlast',
    hiff'.mpr (by decide)⟩
  refine Option.eq_none_iff_forall_ne_some.mpr fun n hn => ?_
  exact absurd (hiff.mp ⟨n, hn⟩) (by decide)

end WireRecord
