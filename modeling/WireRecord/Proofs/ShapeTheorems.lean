/-
WireRecord.Proofs.ShapeTheorems — conditions on shapes.

What a theorem asks of a schema is said struct by struct: names are distinct, no
element has a wire position, and so on. `Shape.Everywhere p` asks `p` of the
members of each struct in a shape, and `OfElements q` asks `q` of the elements
that they are.
-/
import WireRecord.Layout.Compile
import WireRecord.Proofs.PathTheorems

namespace WireRecord

/-! ## Conditions on every struct of a shape -/

mutual

/-- Whether the members of every struct in a shape satisfy a condition. -/
def Shape.Everywhere (p : List Member → Prop) : Shape → Prop
  | .mk _ _ members => p members ∧ membersEverywhere p members

/-- The condition for the structs that some members are. -/
def membersEverywhere (p : List Member → Prop) : List Member → Prop
  | [] => True
  | m :: rest => m.Everywhere p ∧ membersEverywhere p rest

/-- The condition for the struct that a member is, if it is one. -/
def Member.Everywhere (p : List Member → Prop) : Member → Prop
  | .nested _ shape => shape.Everywhere p
  | .leaf _ _ _ | .cyclic _ _ _ | .unresolved _ _ => True

end

mutual

/-- A condition that can be decided for one struct can be decided for a shape. -/
def Shape.decEverywhere (p : List Member → Prop) [DecidablePred p] :
    (shape : Shape) → Decidable (shape.Everywhere p)
  | .mk _ _ members =>
    @instDecidableAnd _ _ (inferInstanceAs (Decidable (p members))) (decMembersEverywhere p members)

/-- Likewise for the structs that some members are. -/
def decMembersEverywhere (p : List Member → Prop) [DecidablePred p] :
    (members : List Member) → Decidable (membersEverywhere p members)
  | [] => inferInstanceAs (Decidable True)
  | m :: rest => @instDecidableAnd _ _ (m.decEverywhere p) (decMembersEverywhere p rest)

/-- Likewise for the struct that a member is. -/
def Member.decEverywhere (p : List Member → Prop) [DecidablePred p] :
    (m : Member) → Decidable (m.Everywhere p)
  | .nested _ shape => shape.decEverywhere p
  | .leaf _ _ _ | .cyclic _ _ _ | .unresolved _ _ => inferInstanceAs (Decidable True)

end

instance (p : List Member → Prop) [DecidablePred p] (shape : Shape) :
    Decidable (shape.Everywhere p) := shape.decEverywhere p

theorem membersEverywhere_iff {p : List Member → Prop} {ms : List Member} :
    membersEverywhere p ms ↔ ∀ m ∈ ms, m.Everywhere p := by
  induction ms with
  | nil => simp [membersEverywhere]
  | cons m rest ih => simp [membersEverywhere, ih]

/-- Whether it is known what the type of a member stands for. -/
def Member.Resolved : Member → Prop
  | .leaf _ _ _ | .nested _ _ => True
  | .cyclic _ _ _ | .unresolved _ _ => False

/-- Whether the types of all members are known. -/
def AllResolved (members : List Member) : Prop := ∀ m ∈ members, m.Resolved

/-! ## Conditions on elements -/

/-- Whether no element has a place of its own on the wire. -/
def Unpositioned (es : List Element) : Prop := ∀ e ∈ es, e.position = none

/-- Whether every element has a name. -/
def Named (es : List Element) : Prop := ∀ e ∈ es, e.name ≠ ""

/-- Whether the names are distinct and paths can be read by them. -/
def PlainlyNamed (es : List Element) : Prop :=
  (es.map (·.name)).Nodup ∧ ∀ e ∈ es, Path.Plain e.name

instance : DecidablePred Unpositioned := fun es =>
  inferInstanceAs (Decidable (∀ e ∈ es, e.position = none))

instance : DecidablePred Named := fun es =>
  inferInstanceAs (Decidable (∀ e ∈ es, e.name ≠ ""))

instance : DecidablePred PlainlyNamed := fun es =>
  inferInstanceAs (Decidable ((es.map (·.name)).Nodup ∧ ∀ e ∈ es, Path.Plain e.name))

theorem PlainlyNamed.named {es : List Element} (h : PlainlyNamed es) : Named es :=
  fun e he => (h.2 e he).1

/-- Whether each counter is among the elements before its array, and no fixed
array is empty. -/
def Countable : (earlier : List String) → List Element → Prop
  | _, [] => True
  | earlier, e :: rest =>
    (match e.repetition with
      | .fixed n => 0 < n
      | .countedBy c => c ∈ earlier) ∧ Countable (e.name :: earlier) rest

/-- No fixed array is empty. -/
theorem Countable.fixed_pos {earlier : List String} {es : List Element} (h : Countable earlier es) :
    ∀ e ∈ es, ∀ n, e.repetition = .fixed n → 0 < n := by
  induction es generalizing earlier with
  | nil => simp
  | cons k rest ih =>
    intro e he n hn
    rcases List.mem_cons.mp he with rfl | he
    · have hfirst := h.1
      simpa [hn] using hfirst
    · exact ih h.2 e he n hn

/-- The elements that members are. -/
def elementsOf (members : List Member) : List Element := members.map (·.element)

/-- A condition on elements, as one on members. -/
def OfElements (q : List Element → Prop) (members : List Member) : Prop := q (elementsOf members)

instance (q : List Element → Prop) [DecidablePred q] : DecidablePred (OfElements q) := fun ms =>
  inferInstanceAs (Decidable (q (elementsOf ms)))

mutual

/-- A condition on elements may be weakened everywhere. -/
theorem Shape.Everywhere.mono {p q : List Member → Prop} (h : ∀ ms, p ms → q ms) :
    ∀ {shape : Shape}, shape.Everywhere p → shape.Everywhere q
  | .mk _ _ members, hp => ⟨h members hp.1, membersEverywhere_mono h hp.2⟩

theorem membersEverywhere_mono {p q : List Member → Prop} (h : ∀ ms, p ms → q ms) :
    ∀ {members : List Member}, membersEverywhere p members → membersEverywhere q members
  | [], _ => trivial
  | _ :: _, hp => ⟨Member.Everywhere.mono h hp.1, membersEverywhere_mono h hp.2⟩

theorem Member.Everywhere.mono {p q : List Member → Prop} (h : ∀ ms, p ms → q ms) :
    ∀ {m : Member}, m.Everywhere p → m.Everywhere q
  | .nested _ shape, hp => Shape.Everywhere.mono h (show shape.Everywhere p from hp)
  | .leaf _ _ _, _ | .cyclic _ _ _, _ | .unresolved _ _, _ => trivial

end

theorem Shape.named_of_plainlyNamed {shape : Shape}
    (h : shape.Everywhere (OfElements PlainlyNamed)) : shape.Everywhere (OfElements Named) :=
  Shape.Everywhere.mono (fun _ hp => hp.named) h

theorem Member.named_of_plainlyNamed {m : Member}
    (h : m.Everywhere (OfElements PlainlyNamed)) : m.Everywhere (OfElements Named) :=
  Member.Everywhere.mono (fun _ hp => hp.named) h

namespace Schema

@[simp] theorem element_member (s : Schema) (owner : String) (active : List String)
    (e : Element) : (s.member owner active e).element = e := by
  rw [member]
  split
  · rfl
  · split
    · split <;> rfl
    · split
      · split <;> rfl
      · rfl

theorem elementsOf_member (s : Schema) (owner : String) (active : List String)
    (es : List Element) : elementsOf (es.map (s.member owner active)) = es := by
  simp [elementsOf, Function.comp_def]

variable {s : Schema}

/-- The root of a record is looked up among distinct names. -/
theorem root_eq (s : Schema) (name : String) : s.root name =
    match s.checkNames, s.struct? name with
    | .error e, _ => .error e
    | .ok _, none => .error (.noStruct name)
    | .ok _, some d => .ok d := by
  unfold root
  cases s.checkNames <;> cases s.struct? name <;> rfl

theorem mem_structs_of_root {name : String} {d : StructDecl} (h : s.root name = .ok d) :
    d ∈ s.structs := by
  rw [root_eq] at h
  split at h
  · cases h
  · cases h
  · rename_i t hstruct
    cases h
    exact mem_structs_of_struct?_eq_some hstruct

end Schema

end WireRecord
