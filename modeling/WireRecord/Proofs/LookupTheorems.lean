/-
WireRecord.Proofs.LookupTheorems — a struct or an array is found as a block of
elements.

Lookup by a path tests how the names of elements begin, and it takes for granted
that those which begin alike stand side by side. They do, for any text that ends
where a member or an index is to follow, whether or not anything is named so. The
elements of a view are rows of its struct. In an instance either all names begin
with the text, because it stops before the members part, or what begins with it
lies below a single member (`Path.Opens.below`); among the items of an array it is
the same with the indices. So going down the shape the names in question never
leave one piece (`Shape.contiguous`).

What lies in order in a buffer and stands side by side in a view also lies side by
side in the buffer, if words hold the places: the bytes of an array are those of its
elements alone (`View.Block.covers`).
-/
import WireRecord.Proofs.NameTheorems

namespace WireRecord

open WireRecord.Path (Below Plain)

/-! ## Elements side by side -/

/-- Whether the elements of a list with a property stand side by side. -/
def Contiguous {α : Type} (p : α → Prop) (as : List α) : Prop :=
  ∃ before block after, as = before ++ block ++ after ∧
    (∀ a ∈ before, ¬ p a) ∧ (∀ a ∈ block, p a) ∧ ∀ a ∈ after, ¬ p a

namespace Contiguous

variable {α β : Type} {p : α → Prop} {as bs : List α}

theorem of_all (h : ∀ a ∈ as, p a) : Contiguous p as :=
  ⟨[], as, [], by simp, by simp, h, by simp⟩

theorem of_none (h : ∀ a ∈ as, ¬ p a) : Contiguous p as :=
  ⟨as, [], [], by simp, h, by simp, by simp⟩

theorem singleton (a : α) : Contiguous p [a] := by
  by_cases h : p a
  · exact of_all (by simpa using h)
  · exact of_none (by simpa using h)

/-- A list begins as it goes on. -/
theorem of_append (h : Contiguous p (as ++ bs)) : Contiguous p as := by
  obtain ⟨before, block, after, heq, hbefore, hblock, hafter⟩ := h
  have htake : as = (before ++ block ++ after).take as.length := by
    rw [← heq, List.take_left]
  rw [List.take_append, List.take_append] at htake
  exact ⟨_, _, _, htake, fun a ha => hbefore a (List.mem_of_mem_take ha),
    fun a ha => hblock a (List.mem_of_mem_take ha),
    fun a ha => hafter a (List.mem_of_mem_take ha)⟩

/-- Two lists one of which has no such elements. -/
theorem append (h1 : Contiguous p as) (h2 : Contiguous p bs)
    (hapart : ∀ a ∈ as, p a → ∀ b ∈ bs, ¬ p b) : Contiguous p (as ++ bs) := by
  by_cases hnone : ∀ a ∈ as, ¬ p a
  · obtain ⟨before, block, after, rfl, hbefore, hblock, hafter⟩ := h2
    refine ⟨as ++ before, block, after, by simp, ?_, hblock, hafter⟩
    intro a ha
    rcases List.mem_append.mp ha with ha | ha
    · exact hnone a ha
    · exact hbefore a ha
  · obtain ⟨a, ha, hp⟩ : ∃ a ∈ as, p a := by simpa using hnone
    have hright := hapart a ha hp
    obtain ⟨before, block, after, rfl, hbefore, hblock, hafter⟩ := h1
    refine ⟨before, block, after ++ bs, by simp, hbefore, hblock, ?_⟩
    intro b hb
    rcases List.mem_append.mp hb with hb | hb
    · exact hafter b hb
    · exact hright b hb

/-- Lists at most one of which has such elements. -/
theorem flatMap {f : β → List α} {cs : List β} (h : ∀ c ∈ cs, Contiguous p (f c))
    (hapart : cs.Pairwise fun c d => ∀ a ∈ f c, p a → ∀ b ∈ f d, ¬ p b) :
    Contiguous p (cs.flatMap f) := by
  induction cs with
  | nil => exact of_all (by simp)
  | cons c rest ih =>
    obtain ⟨hc, hrest⟩ := List.pairwise_cons.mp hapart
    rw [List.flatMap_cons]
    refine (h c List.mem_cons_self).append
      (ih (fun d hd => h d (List.mem_cons_of_mem c hd)) hrest) ?_
    intro a ha hp b hb
    obtain ⟨d, hd, hb⟩ := List.mem_flatMap.mp hb
    exact hc d hd a ha hp b hb

/-- The indices of such elements are those from one index to another. -/
theorem exists_range (h : Contiguous p as) :
    ∃ s e, s ≤ e ∧ e ≤ as.length ∧ ∀ i a, as[i]? = some a → (p a ↔ s ≤ i ∧ i < e) := by
  obtain ⟨before, block, after, rfl, hbefore, hblock, hafter⟩ := h
  refine ⟨before.length, before.length + block.length, by omega, by simp, ?_⟩
  intro i a ha
  rw [List.append_assoc] at ha
  rcases Nat.lt_or_ge i before.length with hi | hi
  · rw [List.getElem?_append_left hi] at ha
    have hnot := hbefore a (List.mem_of_getElem? ha)
    exact ⟨fun hp => absurd hp hnot, fun hrange => by omega⟩
  · rw [List.getElem?_append_right hi] at ha
    rcases Nat.lt_or_ge (i - before.length) block.length with hin | hin
    · rw [List.getElem?_append_left hin] at ha
      have hp := hblock a (List.mem_of_getElem? ha)
      exact ⟨fun _ => by omega, fun _ => hp⟩
    · rw [List.getElem?_append_right hin] at ha
      have hnot := hafter a (List.mem_of_getElem? ha)
      exact ⟨fun hp => absurd hp hnot, fun hrange => by omega⟩

end Contiguous

/-! ## How names begin -/

namespace Path

/-- Whether a name begins with a text. -/
def Begins (text name : String) : Prop := text.toList <+: name.toList

/-- Whether a text ends where a member or an index is to follow. -/
def Opens (text : String) : Prop := ∃ c ∈ text.toList.getLast?, c = '.' ∨ c = '['

theorem Begins.trans {a b c : String} (hab : Begins a b) (hbc : Begins b c) : Begins a c :=
  List.IsPrefix.trans hab hbc

theorem opens_point (path : String) : Opens (path ++ ".") := ⟨'.', by simp, .inl rfl⟩

theorem opens_bracket (path : String) : Opens (path ++ "[") := ⟨'[', by simp, .inr rfl⟩

theorem inArray_iff {path name : String} : inArray path name = true ↔ Begins (path ++ "[") name :=
  List.isPrefixOf_iff_prefix

theorem inStruct_iff {path name : String} : inStruct path name = true ↔ Begins (path ++ ".") name :=
  List.isPrefixOf_iff_prefix

/-- Of two texts that one name begins with, the shorter one begins the other. -/
theorem Begins.total {a b name : String} (ha : Begins a name) (hb : Begins b name) :
    Begins a b ∨ Begins b a :=
  List.prefix_or_prefix_of_prefix ha hb

/-- Where a path is a stem and a part without points and brackets, a text that opens
begins what lies below the path only if it does not go beyond the stem or if it lies
below the path itself. -/
theorem Opens.below {text stem path name : String} {part : List Char} (ht : Opens text)
    (hpath : path.toList = stem.toList ++ part) (hpart : ∀ c ∈ part, c ≠ '.' ∧ c ≠ '[')
    (hname : Below path name) (h : Begins text name) : Begins text stem ∨ Below path text := by
  have hbegins : Begins path name := hname.begins
  rcases h.total hbegins with hshort | ⟨more, hmore⟩
  · left
    have hstem : Begins stem path := ⟨part, hpath.symm⟩
    rcases hshort.total hstem with hstem | ⟨taken, htaken⟩
    · exact hstem
    · -- the text cannot end inside the part
      obtain ⟨c, hc, hdelimiter⟩ := ht
      have htail : taken <+: part := by
        rw [Begins, hpath, ← htaken] at hshort
        exact (List.prefix_append_right_inj _).mp hshort
      cases hlast : taken.getLast? with
      | none =>
        rw [List.getLast?_eq_none_iff.mp hlast, List.append_nil] at htaken
        exact ⟨[], by rw [List.append_nil, htaken]⟩
      | some d =>
        rw [← htaken, List.getLast?_append, hlast] at hc
        have hcd : d = c := Option.some.inj hc
        obtain ⟨hpoint, hbracket⟩ := hpart c (htail.subset (hcd ▸ List.mem_of_getLast? hlast))
        exact (hdelimiter.elim hpoint hbracket).elim
  · right
    obtain ⟨rest, hrest, hhead⟩ := hname
    refine ⟨more, hmore.symm, ?_⟩
    have hmore' : more <+: rest := by
      rw [Begins, hrest, ← hmore] at h
      exact (List.prefix_append_right_inj _).mp h
    obtain ⟨ending, rfl⟩ := hmore'
    intro c hc
    cases more with
    | nil => cases hc
    | cons d ds => exact hhead c hc

theorem Plain.not_mem {a : String} (ha : Plain a) : ∀ c ∈ a.toList, c ≠ '.' ∧ c ≠ '[' :=
  fun _ hc => ⟨fun h => ha.2.1 (h ▸ hc), fun h => ha.2.2 (h ▸ hc)⟩

/-- What stands before the name of a member of an instance. -/
def stem (path : String) : String := if path = "" then "" else path ++ "."

theorem toList_join {path name : String} (hn : name ≠ "") :
    (join path name).toList = (stem path).toList ++ name.toList := by
  by_cases hp : path = ""
  · simp [hp, stem]
  · rw [join_of_ne hp hn, stem, if_neg hp]
    simp

theorem Below.begins_stem {path a name : String} (ha : a ≠ "") (h : Below (join path a) name) :
    Begins (stem path) name :=
  Begins.trans ⟨a.toList, (toList_join ha).symm⟩ h.begins

/-- An index in its bracket has no points and opens no further bracket. -/
theorem plain_index (i : Nat) : ∀ c ∈ Nat.toDigits 10 i ++ [']'], c ≠ '.' ∧ c ≠ '[' := by
  intro c hc
  rcases List.mem_append.mp hc with hc | hc
  · have hdigit := Nat.isDigit_of_mem_toDigits (by decide) (by decide) hc
    constructor <;> rintro rfl <;> simp at hdigit
  · rw [List.mem_singleton.mp hc]
    decide

theorem toList_item_eq (path : String) (i : Nat) :
    (item path i).toList = (path ++ "[").toList ++ (Nat.toDigits 10 i ++ [']']) := by
  rw [toList_item]
  simp

end Path

/-! ## Blocks of rows -/

section Rows

open WireRecord.Path (Begins Opens)

variable (N : String → Nat) {text : String}

/-- Names below the items of an element which begin with a text stand side by side, as
far as they do for each item. -/
theorem Element.contiguous_instances (e : Element) {path : String} (ht : Opens text)
    {names : String → List String} (hbelow : ∀ p ∈ e.instances N path, ∀ a ∈ names p, Below p a)
    (hone : ∀ p ∈ e.instances N path, Contiguous (Begins text) (names p)) :
    Contiguous (Begins text) ((e.instances N path).flatMap names) := by
  by_cases hsingle : e.repetition = .fixed 1
  · have hinstances : e.instances N path = [Path.join path e.name] := by
      rw [instances, hsingle]
      rfl
    rw [hinstances, List.flatMap_singleton]
    exact hone _ (by rw [hinstances]; exact List.mem_singleton_self _)
  · have hitem : ∀ p ∈ e.instances N path, ∃ i, p = Path.item (Path.join path e.name) i := by
      intro p hp
      rcases mem_instances hp with ⟨-, h⟩ | ⟨-, h⟩
      · exact absurd h hsingle
      · exact h
    by_cases hstem : Begins text (Path.join path e.name ++ "[")
    · refine .of_all fun a ha => ?_
      obtain ⟨p, hp, ha⟩ := List.mem_flatMap.mp ha
      obtain ⟨i, rfl⟩ := hitem p hp
      have hpath : Begins (Path.join path e.name ++ "[") (Path.item (Path.join path e.name) i) :=
        ⟨_, (Path.toList_item_eq _ i).symm⟩
      exact (hstem.trans hpath).trans (hbelow _ hp a ha).begins
    · have hpart : ∀ p ∈ e.instances N path, ∀ a ∈ names p, Begins text a → Below p text := by
        intro p hp a ha hbegins
        have hname := hbelow p hp a ha
        obtain ⟨i, rfl⟩ := hitem p hp
        exact (ht.below (Path.toList_item_eq _ i) (Path.plain_index i) hname
          hbegins).resolve_left hstem
      refine .flatMap hone ((e.instances_pairwise).imp_of_mem ?_)
      intro p q hp hq hapart a ha hbegins b hb hbegins'
      exact hapart text (hpart p hp a ha hbegins) (hpart q hq b hb hbegins')

mutual

/-- The names in an instance which begin with a text that opens stand side by side. -/
theorem Shape.contiguous (ht : Opens text) : ∀ (shape : Shape) (path : String),
    shape.Everywhere (OfElements PlainlyNamed) →
    Contiguous (Begins text) ((Mark.entries (shape.rows N path)).map (·.name))
  | .mk _ _ members, path, h => by
      by_cases hstem : Begins text (Path.stem path)
      · refine .of_all fun a ha => ?_
        obtain ⟨r, hr, rfl⟩ := List.mem_map.mp ha
        obtain ⟨e, he, hbelow⟩ := membersRows_below N members h.1.named
          (membersEverywhere_mono (fun _ hp => hp.named) h.2) hr
        exact hstem.trans (hbelow.begins_stem (h.1.2 e he).1)
      · exact membersRows_contiguous ht members path hstem h.1 h.2

theorem membersRows_contiguous (ht : Opens text) : ∀ (members : List Member) (path : String),
    ¬ Begins text (Path.stem path) → OfElements PlainlyNamed members →
    membersEverywhere (OfElements PlainlyNamed) members →
    Contiguous (Begins text) ((Mark.entries (membersRows N path members)).map (·.name))
  | [], _, _, _, _ => .of_all (by simp [membersRows])
  | m :: rest, path, hstem, h, hin => by
      obtain ⟨hself, hnodup⟩ := List.nodup_cons.mp h.1
      obtain ⟨hm, hplain⟩ := List.forall_mem_cons.mp h.2
      have hrest : OfElements PlainlyNamed rest := ⟨hnodup, hplain⟩
      rw [membersRows, Mark.entries_append, List.map_append]
      refine (m.contiguous ht path hm hin.1).append
        (membersRows_contiguous ht rest path hstem hrest hin.2) ?_
      intro a ha hbegins b hb hbegins'
      obtain ⟨r, hr, rfl⟩ := List.mem_map.mp ha
      obtain ⟨r', hr', rfl⟩ := List.mem_map.mp hb
      obtain ⟨e, he, hbelow'⟩ := membersRows_below N rest hrest.named
        (membersEverywhere_mono (fun _ hp => hp.named) hin.2) hr'
      obtain ⟨hbelow, -⟩ := m.below_rows N hm.1 (Member.named_of_plainlyNamed hin.1) hr
      -- the text would lie below two members
      have hpart : ∀ {a name : String}, Plain a → Below (Path.join path a) name →
          Begins text name → Below (Path.join path a) text := fun ha hname h =>
        (ht.below (Path.toList_join ha.1) ha.not_mem hname h).resolve_left hstem
      have hsame := Plain.eq_of_below hm (hplain e he) (hpart hm hbelow hbegins)
        (hpart (hplain e he) hbelow' hbegins')
      exact hself (List.mem_map.mpr ⟨e, he, hsame.symm⟩)

theorem Member.contiguous (ht : Opens text) : ∀ (m : Member) (path : String),
    Plain m.element.name → m.Everywhere (OfElements PlainlyNamed) →
    Contiguous (Begins text) ((Mark.entries (m.rows N path)).map (·.name))
  | .leaf e type table, path, _, _ => by
      have hnames : (Mark.entries ((Member.leaf e type table).rows N path)).map (·.name) =
          (e.instances N path).flatMap fun p => [p] := by
        rw [entries_rows_leaf, List.map_map, List.flatMap_singleton']
        exact List.map_id _
      rw [hnames]
      refine e.contiguous_instances N ht (fun p _ a ha => ?_) fun p _ => .singleton p
      rw [List.mem_singleton.mp ha]
      exact Below.refl p
  | .nested e shape, path, hname, hin => by
      have hnamed := shape.named_of_plainlyNamed hin
      rw [entries_rows_nested, List.map_flatMap]
      refine e.contiguous_instances N ht (fun p hp a ha => ?_) fun p _ =>
        shape.contiguous ht p hin
      obtain ⟨r, hr, rfl⟩ := List.mem_map.mp ha
      exact (shape.below_rows N hnamed (Element.ne_empty_of_mem_instances hname.1 hp) hr).1
  | .cyclic _ _ _, _, _, _ => .of_all (by simp [Member.rows])
  | .unresolved _ _, _, _, _ => .of_all (by simp [Member.rows])

end

end Rows

namespace View

/-! ## Searching from an index -/

theorem findFrom?_eq_none {v : View} {start : Nat} {p : String → Bool}
    (h : ∀ i f, start ≤ i → v.elements[i]? = some f → p f.name = false) :
    v.findFrom? start p = none := by
  rw [findFrom?, Option.map_eq_none_iff, List.findIdx?_eq_none_iff]
  intro f hf
  obtain ⟨i, hi⟩ := List.getElem?_of_mem hf
  rw [List.getElem?_drop] at hi
  exact h _ f (Nat.le_add_right _ _) hi

theorem findFrom?_eq_some {v : View} {start i : Nat} {p : String → Bool} {f : Field}
    (hle : start ≤ i) (hf : v.elements[i]? = some f) (hp : p f.name = true)
    (h : ∀ j g, start ≤ j → j < i → v.elements[j]? = some g → p g.name = false) :
    v.findFrom? start p = some i := by
  obtain ⟨hi, rfl⟩ := List.getElem?_eq_some_iff.mp hf
  have hfirst : (v.elements.drop start).findIdx? (fun f => p f.name) = some (i - start) := by
    refine List.findIdx?_eq_some_iff_getElem.mpr ⟨by rw [List.length_drop]; omega, ?_, ?_⟩
    · simpa [List.getElem_drop, Nat.add_sub_cancel' hle] using hp
    · intro j hj
      rw [List.getElem_drop]
      simpa using h (start + j) _ (by omega) (by omega) (List.getElem?_eq_getElem (by omega))
  rw [findFrom?, hfirst, Option.map_some, Nat.add_sub_cancel' hle]

/-! ## Blocks of elements -/

/-- Whether the indices from `s` to `e` are those of the elements whose names have a
property. -/
structure Block (v : View) (p : String → Bool) (s e : Nat) : Prop where
  le : s ≤ e
  le_count : e ≤ v.count
  iff : ∀ i f, v.elements[i]? = some f → (p f.name = true ↔ s ≤ i ∧ i < e)

namespace Block

variable {v : View} {p : String → Bool} {s e : Nat}

/-- An element outside the block does not have the property. -/
theorem eq_false (h : v.Block p s e) {i : Nat} {f : Field} (hf : v.elements[i]? = some f)
    (hi : i < s ∨ e ≤ i) : p f.name = false := by
  have hnot : ¬ p f.name = true := fun hp => by
    have hrange := (h.iff i f hf).mp hp
    omega
  simpa using hnot

/-- A block is found by its first element, unless it is empty. -/
theorem findFrom?_eq (h : v.Block p s e) :
    v.findFrom? 0 p = if s = e then none else some s := by
  have hle := h.le
  split
  · exact findFrom?_eq_none fun i f _ hf => h.eq_false hf (by omega)
  · have hs : s < v.elements.length := Nat.lt_of_lt_of_le (by omega) h.le_count
    have hf := List.getElem?_eq_getElem hs
    exact findFrom?_eq_some (Nat.zero_le s) hf ((h.iff s _ hf).mpr (by omega))
      fun j g _ hj hg => h.eq_false hg (.inl hj)

/-- A block ends at the first element behind it, if there is one. -/
theorem findFrom?_not_eq (h : v.Block p s e) :
    v.findFrom? s (fun name => !p name) = if e = v.count then none else some e := by
  have hle := h.le
  have hcount := h.le_count
  have hin : ∀ i f, s ≤ i → i < e → v.elements[i]? = some f → (!p f.name) = false :=
    fun i f hs he hf => by rw [(h.iff i f hf).mpr ⟨hs, he⟩]; rfl
  split
  · rename_i hall
    refine findFrom?_eq_none fun i f hs hf => hin i f hs ?_ hf
    rw [hall]
    exact (List.getElem?_eq_some_iff.mp hf).1
  · have he : e < v.elements.length := Nat.lt_of_le_of_ne hcount ‹_›
    have hf := List.getElem?_eq_getElem he
    refine findFrom?_eq_some hle hf ?_ hin
    rw [h.eq_false hf (.inr (Nat.le_refl e))]
    rfl

end Block

/-! ## Bytes of a block -/

/-- Whether the bytes from one to another hold the elements whose names have a property,
and no bit of any other element. -/
structure Covers (v : View) (p : String → Bool) (start stop : Nat) : Prop where
  inside : ∀ f ∈ v.elements, p f.name = true →
    8 * start ≤ (f.span v.rep).offset ∧ (f.span v.rep).stop ≤ 8 * stop
  outside : ∀ f ∈ v.elements, p f.name = false →
    (f.span v.rep).stop ≤ 8 * start ∨ 8 * stop ≤ (f.span v.rep).offset

/-- Two steps succeed when the first one does and the second one goes on from it. -/
theorem bind_eq_ok {ε α β : Type} {x : Except ε α} {f : α → Except ε β} {b : β} :
    (x >>= f) = .ok b ↔ ∃ a, x = .ok a ∧ f a = .ok b := by
  cases x <;> simp [bind, Except.bind]

theorem startByte_eq_ok {v : View} {i k : Nat} (h : v.startByte i = .ok k) :
    ∃ f, v.elements[i]? = some f ∧ (f.span v.rep).offset = 8 * k := by
  obtain ⟨f, hf, h⟩ := bind_eq_ok.mp h
  refine ⟨f, element_eq_ok_iff.mp hf, ?_⟩
  by_cases haligned : (f.span v.rep).byteAligned = true
  · simp only [haligned, if_true] at h
    have hmod : (f.span v.rep).offset % 8 = 0 := by simpa [Span.byteAligned] using haligned
    have hk : (f.span v.rep).offset / 8 = k := Except.ok.inj h
    omega
  · simp only [haligned] at h
    cases h

/-- The bytes of an array go from its first element to the one behind it. -/
theorem arrayRange_eq_ok {v : View} {path : String} {start stop : Nat}
    (h : v.arrayRange path = .ok (start, stop)) :
    ∃ first, v.findArray path = .ok first ∧ v.startByte first = .ok start ∧
      (∀ next, v.arrayEnd? path first = some next → v.startByte next = .ok stop) ∧
      (v.arrayEnd? path first = none → stop = v.buffer.length) ∧ start ≤ stop ∧
      stop ≤ v.buffer.length := by
  obtain ⟨first, hfirst, h⟩ := bind_eq_ok.mp h
  obtain ⟨start', hstart, h⟩ := bind_eq_ok.mp h
  have key : ∀ stop', (do
      if stop' < start' ∨ v.buffer.length < stop' then
        throw (.arrayRange path start' stop' v.buffer.length)
      return (start', stop') : Except Error (Nat × Nat)) = .ok (start, stop) →
      start' = start ∧ stop' = stop ∧ start ≤ stop ∧ stop ≤ v.buffer.length := by
    intro stop' h
    split at h
    · cases h
    · cases h
      omega
  refine ⟨first, hfirst, ?_⟩
  cases hend : v.arrayEnd? path first with
  | none =>
    simp only [hend] at h
    obtain ⟨rfl, rfl, hle, hlen⟩ := key _ h
    exact ⟨hstart, by simp, fun _ => rfl, hle, hlen⟩
  | some next =>
    simp only [hend] at h
    obtain ⟨stop', hstop, h⟩ := bind_eq_ok.mp h
    obtain ⟨rfl, rfl, hle, hlen⟩ := key _ h
    exact ⟨hstart, by simpa using hstop, by simp, hle, hlen⟩

section Array

variable {v : View} {path : String} {s e : Nat} (h : v.Block (Path.inArray path) s e)

include h

theorem Block.findArray_eq_error_iff : v.findArray path = .error (.noElement path) ↔ s = e := by
  rw [findArray, h.findFrom?_eq]
  by_cases hempty : s = e <;> simp [hempty]

theorem Block.findArray_eq (hlt : s < e) : v.findArray path = .ok s := by
  rw [findArray, h.findFrom?_eq, if_neg (by omega)]

theorem Block.lt_of_findArray {first : Nat} (hfirst : v.findArray path = .ok first) :
    first = s ∧ s < e := by
  have hle := h.le
  rw [findArray, h.findFrom?_eq] at hfirst
  by_cases hempty : s = e
  · rw [if_pos hempty] at hfirst
    cases hfirst
  · rw [if_neg hempty] at hfirst
    cases hfirst
    omega

omit h in
/-- Where elements lie in order, each ends before those behind it start. -/
theorem stop_le_offset (horder : v.elements.Pairwise fun f g =>
      (f.span v.rep).stop ≤ (g.span v.rep).offset) {i j : Nat} {f g : Field} (hij : i < j)
    (hf : v.elements[i]? = some f) (hg : v.elements[j]? = some g) :
    (f.span v.rep).stop ≤ (g.span v.rep).offset := by
  obtain ⟨hi, rfl⟩ := List.getElem?_eq_some_iff.mp hf
  obtain ⟨hj, rfl⟩ := List.getElem?_eq_some_iff.mp hg
  exact List.pairwise_iff_getElem.mp horder i j hi hj hij

/-- The end of an array parts the elements up to its last one from those behind it. -/
theorem Block.parted (horder : v.elements.Pairwise fun f g =>
      (f.span v.rep).stop ≤ (g.span v.rep).offset)
    (hstop : ∀ f ∈ v.elements, (f.span v.rep).stop ≤ 8 * v.buffer.length) {stop : Nat}
    (hnext : ∀ next, v.arrayEnd? path s = some next → v.startByte next = .ok stop)
    (hlast : v.arrayEnd? path s = none → stop = v.buffer.length) {i : Nat} {f : Field}
    (hf : v.elements[i]? = some f) :
    (i < e → (f.span v.rep).stop ≤ 8 * stop) ∧ (e ≤ i → 8 * stop ≤ (f.span v.rep).offset) := by
  have hi : i < v.count := (List.getElem?_eq_some_iff.mp hf).1
  have hfind := h.findFrom?_not_eq
  by_cases hall : e = v.count
  · rw [if_pos hall] at hfind
    rw [hlast hfind]
    exact ⟨fun _ => hstop f (List.mem_of_getElem? hf), fun _ => by omega⟩
  · rw [if_neg hall] at hfind
    obtain ⟨g, hg, hgoffset⟩ := startByte_eq_ok (hnext e hfind)
    refine ⟨fun hie => hgoffset ▸ stop_le_offset horder hie hf hg, fun hei => ?_⟩
    rcases Nat.lt_or_eq_of_le hei with hei | rfl
    · have hle := stop_le_offset horder hei hg hf
      have hg' : (g.span v.rep).offset ≤ (g.span v.rep).stop := Nat.le_add_right _ _
      omega
    · rw [hg] at hf
      cases hf
      omega

/-- Where elements lie in order and within the buffer, the bytes of an array are those
of its elements alone. -/
theorem Block.covers (horder : v.elements.Pairwise fun f g =>
      (f.span v.rep).stop ≤ (g.span v.rep).offset)
    (hstop : ∀ f ∈ v.elements, (f.span v.rep).stop ≤ 8 * v.buffer.length) {start stop : Nat}
    (hrange : v.arrayRange path = .ok (start, stop)) :
    v.Covers (Path.inArray path) start stop := by
  obtain ⟨first, hfirst, hstart, hnext, hlast, -, -⟩ := arrayRange_eq_ok hrange
  obtain ⟨rfl, hlt⟩ := h.lt_of_findArray hfirst
  obtain ⟨f₀, hf₀, hoffset⟩ := startByte_eq_ok hstart
  have hend : ∀ {i f}, v.elements[i]? = some f →
      (i < e → (f.span v.rep).stop ≤ 8 * stop) ∧ (e ≤ i → 8 * stop ≤ (f.span v.rep).offset) :=
    h.parted horder hstop hnext hlast
  constructor
  · intro f hf hp
    obtain ⟨i, hi⟩ := List.getElem?_of_mem hf
    obtain ⟨hsi, hie⟩ := (h.iff i f hi).mp hp
    refine ⟨?_, (hend hi).1 hie⟩
    rcases Nat.lt_or_eq_of_le hsi with hsi | rfl
    · have hle := stop_le_offset horder hsi hf₀ hi
      have hf₀' : (f₀.span v.rep).offset ≤ (f₀.span v.rep).stop := Nat.le_add_right _ _
      omega
    · rw [hf₀] at hi
      cases hi
      omega
  · intro f hf hp
    obtain ⟨i, hi⟩ := List.getElem?_of_mem hf
    rcases Nat.lt_or_ge i first with hlow | hhigh
    · exact .inl (hoffset ▸ stop_le_offset horder hlow hi hf₀)
    · refine .inr ((hend hi).2 (Nat.le_of_not_lt fun hie => ?_))
      rw [(h.iff i f hi).mpr ⟨hhigh, hie⟩] at hp
      cases hp

end Array

theorem Block.findStruct_eq_error_iff {v : View} {path : String} {s e : Nat}
    (h : v.Block (Path.inStruct path) s e) :
    v.findStruct path = .error (.noElement path) ↔ s = e := by
  rw [findStruct, h.findFrom?_eq]
  by_cases hempty : s = e <;> simp [hempty]

theorem Block.findStruct_eq {v : View} {path : String} {s e : Nat}
    (h : v.Block (Path.inStruct path) s e) (hlt : s < e) : v.findStruct path = .ok s := by
  rw [findStruct, h.findFrom?_eq, if_neg (by omega)]

theorem arrayAddress_eq_ok {v : View} {path : String} {bytes : Bytes}
    (h : v.arrayAddress path = .ok bytes) : ∃ start stop, v.arrayRange path = .ok (start, stop) ∧
      bytes = (v.buffer.drop start).take (stop - start) ∧ stop ≤ v.buffer.length ∧
      v.arrayBytes path = .ok bytes.length := by
  obtain ⟨⟨start, stop⟩, hrange, hbytes⟩ := bind_eq_ok.mp h
  obtain ⟨-, -, -, -, -, hle, hlen⟩ := arrayRange_eq_ok hrange
  obtain rfl : (v.buffer.drop start).take (stop - start) = bytes := Except.ok.inj hbytes
  refine ⟨start, stop, hrange, rfl, hlen, ?_⟩
  rw [arrayBytes, hrange, List.length_take, List.length_drop, Nat.min_eq_left (by omega)]
  rfl

section Opening

variable {s : Schema} {name : String} {l : Layout} {r : Representation} {b : Bytes} {v : View}

/-- The elements whose names begin with a text that opens are a block. -/
theorem exists_block (hnames : ∀ t ∈ s.structs, PlainlyNamed t.elements)
    (hl : s.layout name = .ok l) (hv : Opening l r b v) {text : String} (ht : Path.Opens text)
    {p : String → Bool} (hp : ∀ a, p a = true ↔ Path.Begins text a) :
    ∃ s e, v.Block p s e := by
  obtain ⟨d, hd⟩ := Schema.exists_root hl
  obtain ⟨N, more, hrows⟩ := exists_rows_of_opening (fun t ht => (hnames t ht).named) hd hl hv
  have hcontiguous := (s.shape d).contiguous N ht ""
    (Schema.shape_everywhere hnames (Schema.mem_structs_of_root hd))
  rw [← hrows, List.map_append] at hcontiguous
  obtain ⟨s, e, hle, hcount, hiff⟩ := hcontiguous.of_append.exists_range
  refine ⟨s, e, hle, by simpa [count] using hcount, fun i f hf => ?_⟩
  rw [hp]
  exact hiff i f.name (by simp [hf, Field.row])

/-- The elements of a view lie in order in its buffer, natively and wherever there are no
wire positions. -/
theorem ordered_of_opening (hl : s.layout name = .ok l) (hv : Opening l r b v)
    (hr : r = .native ∨ ∀ t ∈ s.structs, Unpositioned t.elements) :
    v.elements.Pairwise fun f g => (f.span v.rep).stop ≤ (g.span v.rep).offset := by
  have harranged := arranged_of_opening hl hv
  rw [hv.eq.2.1]
  cases r with
  | native => exact harranged.native_order
  | wire =>
    have hpositions := hr.resolve_left (by simp)
    exact (harranged.wire_elements hpositions).ordered.pairwise

/-- The elements of a view that holds its fixed part end within its buffer. -/
theorem stop_le_of_opening (hl : s.layout name = .ok l) (hv : Opening l r b v)
    (hvalid : v.checkSize = .ok ()) :
    ∀ f ∈ v.elements, (f.span v.rep).stop ≤ 8 * v.buffer.length := by
  obtain ⟨d, hd⟩ := Schema.exists_root hl
  have hlayout := Schema.sound_of_layout hd hl
  have hsound := hv.sound hlayout
  have hexpanded := hv.expanded_stop
  rw [← hv.eq.1] at hlayout
  exact fun f hf => (accessible_of_checkSize hlayout hsound hvalid hexpanded f hf).stop_le

end Opening

end View

end WireRecord
