/-
WireRecord.Proofs.PathTheorems — which paths lie below which.

Joining paths is associative with the empty path as unit, so a path relative to
an instance can be made absolute in one step or in many.

`Path.Below path name` says that `name` is `path` itself or goes on from it with
a member or an index. Names of members without points and brackets cannot run
into each other: what lies below one member of a struct does not lie below
another one, and what lies below one item of an array does not lie below another
one. Everything about elements with distinct names rests on these two facts.
-/
import Mathlib.Tactic.Common
import WireRecord.Path

namespace WireRecord.Path

/-! ## Joining -/

@[simp] theorem join_empty_left (name : String) : join "" name = name := by
  simp [join]

@[simp] theorem join_empty_right (path : String) : join path "" = path := by
  by_cases h : path = "" <;> simp [join, h]

theorem join_of_ne {path name : String} (hp : path ≠ "") (hn : name ≠ "") :
    join path name = path ++ "." ++ name := by
  simp [join, hp, hn]

theorem join_ne_empty {path name : String} (hn : name ≠ "") : join path name ≠ "" := by
  by_cases hp : path = ""
  · simpa [hp] using hn
  · rw [join_of_ne hp hn]
    simp

theorem join_assoc (a b c : String) : join (join a b) c = join a (join b c) := by
  by_cases ha : a = ""
  · simp [ha]
  · by_cases hb : b = ""
    · simp [hb]
    · by_cases hc : c = ""
      · simp [hc]
      · rw [join_of_ne ha hb, join_of_ne hb hc, join_of_ne (by simp) hc,
          join_of_ne ha (by simp)]
        simp [String.append_assoc]

theorem item_ne_empty (path : String) (i : Nat) : item path i ≠ "" := by
  simp [item]

theorem join_item {path name : String} (hn : name ≠ "") (i : Nat) :
    join path (item name i) = item (join path name) i := by
  by_cases hp : path = ""
  · simp [hp]
  · rw [join_of_ne hp (item_ne_empty name i), join_of_ne hp hn]
    simp [item, String.append_assoc]

theorem itemOf_ne_empty {path : String} (h : path ≠ "") (i n : Nat) : itemOf path i n ≠ "" := by
  unfold itemOf
  split
  · exact h
  · exact item_ne_empty path i

theorem join_itemOf {path name : String} (hn : name ≠ "") (i n : Nat) :
    join path (itemOf name i n) = itemOf (join path name) i n := by
  unfold itemOf
  split
  · rfl
  · exact join_item hn i

/-! ## Prefixes -/

theorem toList_item (path : String) (i : Nat) :
    (item path i).toList = path.toList ++ '[' :: (Nat.toDigits 10 i ++ [']']) := by
  simp [item]

theorem bracket_not_mem_toDigits (i : Nat) : ']' ∉ Nat.toDigits 10 i := fun h => by
  have hdigit := Nat.isDigit_of_mem_toDigits (by decide) (by decide) h
  simp at hdigit

/-- An index is read off what follows the bracket. -/
theorem toDigits_prefix_inj {i j : Nat}
    (h : Nat.toDigits 10 i ++ [']'] <+: Nat.toDigits 10 j ++ [']']) : i = j := by
  have hdigits : ∀ k : Nat, (Nat.toDigits 10 k).all (· != ']') = true := fun k => by
    rw [List.all_eq_true]
    intro c hc
    have hne : c ≠ ']' := fun hc' => bracket_not_mem_toDigits k (hc' ▸ hc)
    simpa using hne
  have htake : ∀ (k : Nat) (rest : List Char),
      (Nat.toDigits 10 k ++ ']' :: rest).takeWhile (· != ']') = Nat.toDigits 10 k := by
    intro k rest
    rw [List.takeWhile_append_of_pos (by simpa [List.all_eq_true] using hdigits k)]
    simp
  obtain ⟨rest, hrest⟩ := h
  have hi := htake i rest
  have hj := htake j []
  rw [← hrest, List.append_assoc, List.singleton_append, hi] at hj
  have hval := congrArg (Nat.ofDigitChars 10 · 0) hj
  simpa using hval

/-- Nothing begins like two items of an array. -/
theorem index_eq_of_prefix {path : String} {i j : Nat} {s : List Char}
    (hi : (item path i).toList <+: s) (hj : (item path j).toList <+: s) : i = j := by
  have hcase := List.prefix_or_prefix_of_prefix hi hj
  simp only [toList_item, List.prefix_append_right_inj, List.cons_prefix_cons, true_and]
    at hcase
  rcases hcase with h | h
  · exact toDigits_prefix_inj h
  · exact (toDigits_prefix_inj h).symm

/-! ## Names below a path -/

/-- Whether a name is a path or continues it with a member or an index. -/
def Below (path name : String) : Prop :=
  ∃ rest, name.toList = path.toList ++ rest ∧ ∀ c ∈ rest.head?, c = '.' ∨ c = '['

theorem Below.refl (path : String) : Below path path := ⟨[], by simp, by simp⟩

theorem Below.begins {path name : String} (h : Below path name) :
    path.toList <+: name.toList := by
  obtain ⟨rest, hrest, -⟩ := h
  exact ⟨rest, hrest.symm⟩

theorem Below.trans {a b c : String} (hab : Below a b) (hbc : Below b c) : Below a c := by
  obtain ⟨r, hr, hrc⟩ := hab
  obtain ⟨s, hs, hsc⟩ := hbc
  refine ⟨r ++ s, by rw [hs, hr, List.append_assoc], fun x hx => ?_⟩
  cases r with
  | nil => exact hsc x hx
  | cons y ys => exact hrc x hx

theorem below_join {path : String} (hp : path ≠ "") (name : String) :
    Below path (join path name) := by
  by_cases hn : name = ""
  · rw [hn, join_empty_right]
    exact Below.refl path
  · rw [join_of_ne hp hn]
    exact ⟨'.' :: name.toList, by simp, by simp⟩

theorem below_item (path : String) (i : Nat) : Below path (item path i) :=
  ⟨'[' :: (Nat.toDigits 10 i ++ [']']), toList_item path i, by simp⟩

theorem Below.length_le {path name : String} (h : Below path name) :
    path.toList.length ≤ name.toList.length := h.begins.length_le

theorem length_lt_item (path : String) (i : Nat) :
    path.toList.length < (item path i).toList.length := by
  rw [toList_item, List.length_append, List.length_cons]
  omega

theorem length_lt_join {path name : String} (hp : path ≠ "") (hn : name ≠ "") :
    path.toList.length < (join path name).toList.length := by
  rw [join_of_ne hp hn, String.toList_append, String.toList_append]
  simp only [List.length_append, String.reduceToList, List.length_cons]
  omega

/-! ## Plain names -/

/-- A name that paths can be read by: not empty, without points and opening
brackets. -/
def Plain (name : String) : Prop := name ≠ "" ∧ '.' ∉ name.toList ∧ '[' ∉ name.toList

instance (name : String) : Decidable (Plain name) := inferInstanceAs (Decidable (_ ∧ _ ∧ _))

/-- A plain name is read off the front of what continues it. -/
theorem Plain.takeWhile {a : String} (ha : Plain a) {rest : List Char}
    (hr : ∀ c ∈ rest.head?, c = '.' ∨ c = '[') :
    (a.toList ++ rest).takeWhile (fun c => c != '.' && c != '[') = a.toList := by
  rw [List.takeWhile_append_of_pos]
  · cases rest with
    | nil => simp
    | cons c r => rcases hr c (by simp) with h | h <;> simp [h]
  · intro c hc
    have h1 : c ≠ '.' := fun h => ha.2.1 (h ▸ hc)
    have h2 : c ≠ '[' := fun h => ha.2.2 (h ▸ hc)
    simp [h1, h2]

/-- No name lies below two members of a struct. -/
theorem Plain.eq_of_below {a b path name : String} (ha : Plain a) (hb : Plain b)
    (h1 : Below (join path a) name) (h2 : Below (join path b) name) : a = b := by
  obtain ⟨r, hr, hrc⟩ := h1
  obtain ⟨s, hs, hsc⟩ := h2
  have htail : a.toList ++ r = b.toList ++ s := by
    rw [hr] at hs
    by_cases hp : path = ""
    · simpa [hp] using hs
    · rw [join_of_ne hp ha.1, join_of_ne hp hb.1] at hs
      simpa using hs
  have hread := congrArg (List.takeWhile fun c => c != '.' && c != '[') htail
  rw [ha.takeWhile hrc, hb.takeWhile hsc] at hread
  exact String.toList_inj.mp hread

/-- No name lies below two items of an array. -/
theorem index_eq_of_below {path name : String} {i j : Nat} (h1 : Below (item path i) name)
    (h2 : Below (item path j) name) : i = j :=
  index_eq_of_prefix h1.begins h2.begins

end WireRecord.Path
