/-
WireRecord.Proofs.ReachTheorems — the structs that a shape is made of.

A schema says by names which struct has elements of which. `Schema.Refers` is
that relation, and what can be reached along it says nothing about the order in
which a shape is unfolded. Unfolding does have an order: it keeps the names of
the structs it is in, and does not enter one of these again. `Schema.Enters` is
one step of it, between structs that come with these names.

The two are tied together here. A condition holds everywhere in a shape if and
only if it holds of the members of each struct that is entered
(`Schema.everywhere_iff`), so what holds of the elements of all declared structs
holds everywhere (`Schema.shape_everywhere`). Along a path of references no struct
can be entered twice, so a shape is never deeper than there are structs
(`Schema.depth_shape_le`).
-/
import Mathlib.Logic.Relation
import WireRecord.Proofs.ShapeTheorems

namespace WireRecord

open Relation

/-! ## What type names stand for -/

/-- What a type name can stand for. -/
inductive Meaning where
  /-- A scalar, declared or built in. -/
  | scalar (type : Scalar)
  /-- An enumeration. -/
  | enum (decl : EnumDecl)
  /-- A struct. -/
  | struct (decl : StructDecl)

/-- A struct that is being unfolded. -/
structure Visit where
  /-- The struct. -/
  struct : StructDecl
  /-- The names of all structs that are being unfolded, its own included. -/
  active : List String

namespace Schema

/-- What a type name stands for: a scalar if there is one of the name, else an
enumeration, else a struct. -/
def meaning? (s : Schema) (name : String) : Option Meaning :=
  ((s.scalar? name).map .scalar).or
    (((s.enum? name).map .enum).or ((s.struct? name).map .struct))

/-- Scalars come first, whether declared or built-in. -/
theorem meaning?_eq_scalar_iff {s : Schema} {name : String} {type : Scalar} :
    s.meaning? name = some (.scalar type) ↔ s.scalar? name = some type := by
  unfold meaning?
  cases s.scalar? name <;> cases s.enum? name <;> cases s.struct? name <;> simp

/-- Enumerations come behind the scalars. -/
theorem meaning?_eq_enum_iff {s : Schema} {name : String} {decl : EnumDecl} :
    s.meaning? name = some (.enum decl) ↔ s.scalar? name = none ∧ s.enum? name = some decl := by
  unfold meaning?
  cases s.scalar? name <;> cases s.enum? name <;> cases s.struct? name <;> simp

/-- Structs come last. -/
theorem meaning?_eq_struct_iff {s : Schema} {name : String} {d : StructDecl} :
    s.meaning? name = some (.struct d) ↔
      s.scalar? name = none ∧ s.enum? name = none ∧ s.struct? name = some d := by
  unfold meaning?
  cases s.scalar? name <;> cases s.enum? name <;> cases s.struct? name <;> simp

/-- Whether an element of a struct is of another one. -/
def Refers (s : Schema) (d t : StructDecl) : Prop :=
  ∃ e ∈ d.elements, s.meaning? e.type = some (.struct t)

/-- The members of a struct that is being unfolded. -/
def members (s : Schema) (x : Visit) : List Member :=
  x.struct.elements.map (s.member x.struct.name x.active)

/-- The shape of a struct that is being unfolded. -/
def shapeOf (s : Schema) (x : Visit) : Shape :=
  .mk x.struct.name x.struct.alignment (s.members x)

/-- One step of unfolding: from a struct into one that it refers to and that is
not being unfolded yet. -/
structure Enters (s : Schema) (x y : Visit) : Prop where
  refers : s.Refers x.struct y.struct
  fresh : y.struct.name ∉ x.active
  active_eq : y.active = y.struct.name :: x.active

theorem mem_members {s : Schema} {x : Visit} {e : Element} (he : e ∈ x.struct.elements) :
    s.member x.struct.name x.active e ∈ s.members x :=
  List.mem_map.mpr ⟨e, he, rfl⟩

theorem shape_eq_shapeOf (s : Schema) (d : StructDecl) : s.shape d = s.shapeOf ⟨d, [d.name]⟩ :=
  rfl

variable {s : Schema}

theorem struct?_of_meaning? {name : String} {d : StructDecl}
    (h : s.meaning? name = some (.struct d)) : s.struct? name = some d :=
  (meaning?_eq_struct_iff.mp h).2.2

theorem enum?_of_meaning? {name : String} {decl : EnumDecl}
    (h : s.meaning? name = some (.enum decl)) : s.enum? name = some decl :=
  (meaning?_eq_enum_iff.mp h).2

theorem name_of_struct? {name : String} {d : StructDecl} (h : s.struct? name = some d) :
    d.name = name := by
  have hfound := List.find?_some h
  simpa using hfound

/-- A struct that is referred to is the one of its name. -/
theorem Refers.struct?_eq {d t : StructDecl} (h : s.Refers d t) : s.struct? t.name = some t := by
  obtain ⟨e, -, he⟩ := h
  have hstruct := struct?_of_meaning? he
  rw [name_of_struct? hstruct]
  exact hstruct

theorem Refers.mem_structs {d t : StructDecl} (h : s.Refers d t) : t ∈ s.structs :=
  mem_structs_of_struct?_eq_some h.struct?_eq

/-- The member that an element is, by what its type name stands for. -/
theorem member_eq (s : Schema) (owner : String) (active : List String) (e : Element) :
    s.member owner active e = match s.meaning? e.type with
      | some (.scalar type) => .leaf e type none
      | some (.enum decl) =>
        match s.scalar? decl.base with
        | some type => .leaf e type (some (.ofDecl decl type))
        | none => .unresolved e (.enumBase decl.name decl.base)
      | some (.struct d) =>
        if d.name ∈ active then .cyclic e d.name (s.reachableAlignment d)
        else .nested e (s.shapeOf ⟨d, d.name :: active⟩)
      | none => .unresolved e (.element owner e.name (.unknownType e.type)) := by
  rw [member, meaning?]
  cases hs : s.scalar? e.type with
  | some type => rfl
  | none =>
    cases he : s.enum? e.type with
    | some decl => rfl
    | none =>
      simp only [Option.map_none, Option.none_or]
      split
      · rename_i d hd
        rw [hd]
        rfl
      · rename_i hd
        rw [hd]
        rfl

/-- The scalar that a type name comes down to: the one it stands for, or the one
below an enumeration. -/
def leafType? (s : Schema) (name : String) : Option Scalar :=
  match s.meaning? name with
  | some (.scalar type) => some type
  | some (.enum decl) => s.scalar? decl.base
  | some (.struct _) | none => none

/-- A member with a known type is a scalar or a struct that is not being unfolded yet. -/
theorem member_of_resolved {owner : String} {active : List String} {e : Element}
    (h : (s.member owner active e).Resolved) :
    (∃ type table, s.leafType? e.type = some type ∧
      s.member owner active e = .leaf e type table) ∨
    ∃ t, s.meaning? e.type = some (.struct t) ∧ t.name ∉ active ∧
      s.member owner active e = .nested e (s.shapeOf ⟨t, t.name :: active⟩) := by
  rw [member_eq] at h ⊢
  unfold leafType?
  cases hmeaning : s.meaning? e.type with
  | none =>
    simp only [hmeaning] at h
    exact h.elim
  | some meaning =>
    simp only [hmeaning] at h
    cases meaning with
    | scalar type => exact .inl ⟨type, none, rfl, rfl⟩
    | enum decl =>
      cases hbase : s.scalar? decl.base with
      | none =>
        simp only [hbase] at h
        exact h.elim
      | some type => exact .inl ⟨type, some (.ofDecl decl type), hbase, by simp only [hbase]⟩
    | struct t =>
      by_cases hactive : t.name ∈ active
      · simp only [hactive, if_true] at h
        exact h.elim
      · exact .inr ⟨t, rfl, hactive, by simp only [hactive, if_false]⟩

/-! ## Conditions on what is entered -/

theorem everywhere_shapeOf_iff {p : List Member → Prop} {x : Visit} :
    (s.shapeOf x).Everywhere p ↔ p (s.members x) ∧ ∀ m ∈ s.members x, m.Everywhere p := by
  rw [shapeOf, Shape.Everywhere, membersEverywhere_iff]

/-- The structs in a shape are the one at its root and those in the shapes that
are entered from it. -/
theorem everywhere_iff_enters {p : List Member → Prop} {x : Visit} :
    (s.shapeOf x).Everywhere p ↔
      p (s.members x) ∧ ∀ y, s.Enters x y → (s.shapeOf y).Everywhere p := by
  rw [everywhere_shapeOf_iff]
  refine and_congr_right fun _ => ⟨?_, ?_⟩
  · rintro h ⟨d, active⟩ ⟨⟨e, he, hd⟩, hfresh, hactive⟩
    have hm := h _ (mem_members he)
    rw [member_eq, hd] at hm
    simp only at hfresh hactive
    simp only [if_neg hfresh] at hm
    rw [hactive]
    exact hm
  · intro h m hm
    obtain ⟨e, he, rfl⟩ := List.mem_map.mp hm
    rw [member_eq]
    split
    · trivial
    · split <;> trivial
    · rename_i d hd
      split
      · trivial
      · rename_i hfresh
        exact h ⟨d, d.name :: x.active⟩ ⟨⟨e, he, hd⟩, hfresh, rfl⟩
    · trivial

/-- Fewer structs are left to be entered after each step. -/
theorem Enters.remaining_lt {x y : Visit} (h : s.Enters x y) :
    s.remaining y.active < s.remaining x.active := by
  rw [h.active_eq]
  exact remaining_cons_lt h.refers.mem_structs h.fresh

/-- What holds everywhere in a shape is what holds of all structs that are
entered. The induction is on those that are left. -/
theorem everywhere_iff {p : List Member → Prop} {x : Visit} :
    (s.shapeOf x).Everywhere p ↔ ∀ y, ReflTransGen s.Enters x y → p (s.members y) := by
  constructor
  · intro h y hxy
    induction hxy using ReflTransGen.head_induction_on with
    | refl => exact (everywhere_iff_enters.mp h).1
    | head hstep _ ih => exact ih ((everywhere_iff_enters.mp h).2 _ hstep)
  · intro h
    induction hn : s.remaining x.active using Nat.strongRecOn generalizing x with
    | ind n ih =>
      refine everywhere_iff_enters.mpr ⟨h x .refl, fun y hy => ?_⟩
      exact ih _ (hn ▸ hy.remaining_lt) (fun z hz => h z (.head hy hz)) rfl

/-- What else is being unfolded shows only where a type stands for it. -/
theorem shapeOf_congr {t : StructDecl} {active fewer : List String} (hsub : fewer ⊆ active)
    (hin : (s.shapeOf ⟨t, active⟩).Everywhere AllResolved) :
    s.shapeOf ⟨t, fewer⟩ = s.shapeOf ⟨t, active⟩ := by
  induction hn : s.remaining active using Nat.strongRecOn generalizing t active fewer with
  | ind n ih =>
    obtain ⟨hresolved, hinner⟩ := everywhere_shapeOf_iff.mp hin
    have hmembers : s.members ⟨t, fewer⟩ = s.members ⟨t, active⟩ := by
      refine List.map_congr_left fun e he => ?_
      have hm := hresolved _ (mem_members he)
      rcases member_of_resolved hm with ⟨type, table, -, hleaf⟩ | ⟨u, hu, hactive, hnested⟩
      · rw [hleaf]
        rw [member_eq] at hleaf ⊢
        split at hleaf
        · exact hleaf
        · exact hleaf
        · split at hleaf <;> cases hleaf
        · cases hleaf
      · have henters : s.Enters ⟨t, active⟩ ⟨u, u.name :: active⟩ := ⟨⟨e, he, hu⟩, hactive, rfl⟩
        have hshape := hinner _ (mem_members he)
        rw [hnested] at hshape
        have hsame := ih _ (hn ▸ henters.remaining_lt)
          (List.cons_subset_cons u.name hsub) hshape rfl
        have hfewer : u.name ∉ fewer := fun h => hactive (hsub h)
        rw [hnested, member_eq, hu]
        simp only [if_neg hfewer, hsame]
    rw [shapeOf, shapeOf, hmembers]

/-- In a record a struct has the shape it has on its own. -/
theorem shapeOf_eq_shape {t : StructDecl} {active : List String}
    (hin : (s.shapeOf ⟨t, t.name :: active⟩).Everywhere AllResolved) :
    s.shapeOf ⟨t, t.name :: active⟩ = s.shape t :=
  (shapeOf_congr (List.cons_subset_cons _ (List.nil_subset active)) hin).symm

theorem reaches_of_enters {x y : Visit} (h : ReflTransGen s.Enters x y) :
    ReflTransGen s.Refers x.struct y.struct :=
  h.lift Visit.struct fun _ _ hstep => hstep.refers

/-- What holds of the elements of every declared struct holds everywhere in a
shape: no other struct is entered. -/
theorem shape_everywhere {q : List Element → Prop} (h : ∀ d ∈ s.structs, q d.elements)
    {d : StructDecl} (hd : d ∈ s.structs) : (s.shape d).Everywhere (OfElements q) := by
  rw [shape_eq_shapeOf, everywhere_iff]
  intro y hy
  rw [OfElements, members, elementsOf_member]
  cases hy with
  | refl => exact h d hd
  | tail _ hstep => exact h _ hstep.refers.mem_structs

/-! ## Depth -/

end Schema

mutual

/-- How deep structs are nested in a shape, itself included. -/
def Shape.depth : Shape → Nat
  | .mk _ _ members => membersDepth members + 1

/-- How deep structs are nested in some members. -/
def membersDepth : List Member → Nat
  | [] => 0
  | m :: rest => max m.depth (membersDepth rest)

/-- How deep structs are nested in a member. -/
def Member.depth : Member → Nat
  | .nested _ shape => shape.depth
  | .leaf _ _ _ | .cyclic _ _ _ | .unresolved _ _ => 0

end

theorem membersDepth_le {ms : List Member} {n : Nat} (h : ∀ m ∈ ms, m.depth ≤ n) :
    membersDepth ms ≤ n := by
  induction ms with
  | nil => exact Nat.zero_le n
  | cons m rest ih =>
    exact Nat.max_le.mpr ⟨h m List.mem_cons_self, ih fun k hk => h k (List.mem_cons_of_mem m hk)⟩

namespace Schema

variable {s : Schema}

/-- Below a struct, unfolding goes no deeper than there are structs left. -/
theorem depth_shapeOf_le (x : Visit) : (s.shapeOf x).depth ≤ s.remaining x.active + 1 := by
  induction hn : s.remaining x.active using Nat.strongRecOn generalizing x with
  | ind n ih =>
    rw [shapeOf, Shape.depth]
    refine Nat.succ_le_succ (membersDepth_le fun m hm => ?_)
    obtain ⟨e, he, rfl⟩ := List.mem_map.mp hm
    rw [member_eq]
    split
    · exact Nat.zero_le n
    · split <;> exact Nat.zero_le n
    · rename_i d hd
      split
      · exact Nat.zero_le n
      · rename_i hfresh
        have hy : s.Enters x ⟨d, d.name :: x.active⟩ := ⟨⟨e, he, hd⟩, hfresh, rfl⟩
        have hlt := hy.remaining_lt
        have hle := ih _ (hn ▸ hlt) _ rfl
        show (s.shapeOf ⟨d, d.name :: x.active⟩).depth ≤ n
        omega
    · exact Nat.zero_le n

/-- A shape is no deeper than there are structs. -/
theorem depth_shape_le {d : StructDecl} (hd : d ∈ s.structs) :
    (s.shape d).depth ≤ s.structs.length := by
  have hdepth := @depth_shapeOf_le s ⟨d, [d.name]⟩
  have hlt : s.remaining [d.name] < s.remaining [] := remaining_cons_lt hd List.not_mem_nil
  have hle : s.remaining [] ≤ s.structs.length := List.countP_le_length
  rw [shape_eq_shapeOf]
  simp only at hdepth
  omega

end Schema

end WireRecord
