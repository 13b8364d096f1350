/-
WireRecord.Proofs.AcceptanceTheorems — which structs have a layout.

A struct is refused for what its schema says, not for the way in which it is gone
through. `Schema.Accepts` is what is asked of it: something of every element of
every struct that can be reached, and that no struct reaches itself.

Placing checks the same in many places, on items in the fixed part and on
templates, with the tables recorded so far at hand. What makes these checks one
is that each step of placing `Decides` a condition: it goes through if the
condition holds, and is refused as an invalid argument if not. The conditions of
steps in a row add up, and that of an element depends neither on the draft nor on
the ledger it meets. The one place that looks at the ledger is a constant, and
there it makes no difference, as every table in it is that of a declared
enumeration.

None of this looks at a size or a place. So a machine finds the same, unless it
stops at a number that it cannot compute.
-/
import Mathlib.Data.List.Nodup
import WireRecord.Proofs.ArithmeticTheorems
import WireRecord.Proofs.PlacingTheorems
import WireRecord.Proofs.ReachTheorems
import WireRecord.Proofs.ValueTheorems

namespace WireRecord

open Relation

/-! ## What is asked of a schema -/

/-- Whether no two declarations of one kind have one name. -/
structure Schema.NamesDistinct (s : Schema) : Prop where
  aliases : (s.aliases.map (·.name)).Nodup
  enums : (s.enums.map (·.name)).Nodup
  structs : (s.structs.map (·.name)).Nodup

namespace Element

/-- Whether the width and the constant of an element go with the scalar it holds:
the width is at least one bit and at most the native one, and the constant is an
entry of some enumeration. -/
structure Suits (e : Element) (entries : List EnumEntry) (type : Scalar) : Prop where
  width : ∀ n, e.width = some n → 1 ≤ n ∧ n ≤ type.bits
  constant : ∀ token, e.constant = some token → ∃ entry ∈ entries, entry.name = token

/-- Whether a fixed element is not repeated zero times, and a counted one has a
counter among the elements before it. -/
def Repeatable (e : Element) (earlier : List String) : Prop :=
  match e.repetition with
  | .fixed n => n ≠ 0
  | .countedBy c => c ≠ "" ∧ c ∈ earlier

end Element

namespace Schema

/-- Whether the type of an element is known, and goes with its width and its
constant if it is held in a scalar. -/
def AcceptsType (s : Schema) (e : Element) : Prop :=
  match s.meaning? e.type with
  | some (.scalar type) => e.Suits s.entries type
  | some (.enum decl) => ∃ type, s.scalar? decl.base = some type ∧ e.Suits s.entries type
  | some (.struct _) => True
  | none => False

/-- Whether each element of a struct is acceptable behind those before it. -/
def AcceptsElements (s : Schema) (d : StructDecl) : Prop :=
  ∀ before e after, d.elements = before ++ e :: after →
    s.AcceptsType e ∧ e.Repeatable (before.map (·.name))

/-- Whether a struct can be laid out: the elements of all structs that it reaches
are acceptable, and none of these reaches itself. -/
structure Accepts (s : Schema) (d : StructDecl) : Prop where
  elements : ∀ t, ReflTransGen s.Refers d t → s.AcceptsElements t
  acyclic : ∀ t, ReflTransGen s.Refers d t → ¬ TransGen s.Refers t t

end Schema

/-! ## Names -/

theorem go_eq_none_iff {seen names : List String} :
    firstRepeated?.go seen names = none ↔ names.Nodup ∧ ∀ n ∈ names, n ∉ seen := by
  induction names generalizing seen with
  | nil => simp [firstRepeated?.go]
  | cons n rest ih =>
    rw [firstRepeated?.go]
    by_cases hn : n ∈ seen
    · simp [hn]
    · rw [if_neg hn, ih, List.nodup_cons]
      constructor
      · rintro ⟨hnodup, hnew⟩
        refine ⟨⟨fun hmem => hnew n hmem List.mem_cons_self, hnodup⟩, ?_⟩
        rintro k (_ | ⟨_, hk⟩)
        · exact hn
        · exact fun hseen => hnew k hk (List.mem_cons_of_mem n hseen)
      · rintro ⟨⟨hself, hnodup⟩, hnew⟩
        refine ⟨hnodup, fun k hk hmem => ?_⟩
        rcases List.mem_cons.mp hmem with rfl | hseen
        · exact hself hk
        · exact hnew k (List.mem_cons_of_mem n hk) hseen

/-- A list repeats no name if and only if there is no first one that it repeats. -/
theorem firstRepeated?_eq_none_iff {names : List String} :
    firstRepeated? names = none ↔ names.Nodup := by
  rw [firstRepeated?, go_eq_none_iff]
  simp

namespace Schema

theorem checkNames_eq (s : Schema) : s.checkNames =
    match firstRepeated? (s.aliases.map (·.name)), firstRepeated? (s.enums.map (·.name)),
      firstRepeated? (s.structs.map (·.name)) with
    | some n, _, _ => .error (.repeatedAlias n)
    | none, some n, _ => .error (.repeatedEnum n)
    | none, none, some n => .error (.repeatedStruct n)
    | none, none, none => .ok () := by
  unfold checkNames
  cases firstRepeated? (s.aliases.map (·.name)) <;>
    cases firstRepeated? (s.enums.map (·.name)) <;>
    cases firstRepeated? (s.structs.map (·.name)) <;> rfl

theorem checkNames_eq_ok_iff {s : Schema} : s.checkNames = .ok () ↔ s.NamesDistinct := by
  have hdistinct : s.NamesDistinct ↔ firstRepeated? (s.aliases.map (·.name)) = none ∧
      firstRepeated? (s.enums.map (·.name)) = none ∧
      firstRepeated? (s.structs.map (·.name)) = none := by
    simp only [firstRepeated?_eq_none_iff]
    exact ⟨fun h => ⟨h.1, h.2, h.3⟩, fun h => ⟨h.1, h.2.1, h.2.2⟩⟩
  rw [checkNames_eq, hdistinct]
  split <;> simp_all

/-- A repeated name is an invalid argument. -/
theorem kind_of_checkNames {s : Schema} {e : Error} (h : s.checkNames = .error e) :
    e.kind = .invalidArgument := by
  rw [checkNames_eq] at h
  split at h <;> cases h <;> rfl

end Schema

/-! ## Steps that decide a condition -/

/-- Whether the names of a table are among those of some entries. -/
def EnumTable.Within (t : EnumTable) (entries : List EnumEntry) : Prop :=
  ∀ p ∈ t.entries, ∃ entry ∈ entries, entry.name = p.1

/-- Whether all tables recorded so far are. -/
def Ledger.Within (l : Ledger) (entries : List EnumEntry) : Prop :=
  ∀ t ∈ l.tables, t.Within entries

/-- Whether a step goes through if a condition holds, and is refused as an
invalid argument if it does not, wherever it starts; unless the arithmetic stops. -/
def Placing.Decides {α : Type} (m : Arithmetic) (entries : List EnumEntry) (x : Placing α)
    (c : Prop) : Prop :=
  ∀ l : Ledger, l.Within entries → match x.run.run l with
    | (.ok _, l') => c ∧ l'.Within entries
    | (.error e, _) => (¬ c ∧ e.kind = .invalidArgument) ∨ ∃ f, m.Stops f ∧ e = .stopped f

namespace Placing.Decides

variable {m : Arithmetic} {entries : List EnumEntry} {α β : Type} {x : Placing α}
  {f : α → Placing β} {c c' : Prop}

theorem of_pure (a : α) : Decides m entries (pure a) True := fun _ hl => ⟨trivial, hl⟩

theorem of_throw {e : Error} (he : e.kind = .invalidArgument) :
    Decides m entries (throw e : Placing α) False := fun _ _ => .inl ⟨id, he⟩

theorem congr (h : Decides m entries x c) (hc : c ↔ c') : Decides m entries x c' := by
  rw [← propext hc]
  exact h

/-- Steps in a row decide what each of them decides. -/
theorem bind (hx : Decides m entries x c) (hf : ∀ a, Decides m entries (f a) c') :
    Decides m entries (x >>= f) (c ∧ c') := by
  intro l hl
  have h := hx l hl
  rw [run_run_bind]
  generalize x.run.run l = out at h
  rcases out with ⟨e | a, u⟩
  · exact h.imp_left fun ⟨hc, he⟩ => ⟨fun hcc => hc hcc.1, he⟩
  · have h' := hf a u h.2
    show match (f a).run.run u with
      | (.ok _, l') => (c ∧ c') ∧ l'.Within entries
      | (.error e, _) =>
        (¬ (c ∧ c') ∧ e.kind = .invalidArgument) ∨ ∃ f, m.Stops f ∧ e = .stopped f
    generalize (f a).run.run u = out at h'
    rcases out with ⟨e | b, w⟩
    · exact h'.imp_left fun ⟨hc, he⟩ => ⟨fun hcc => hc hcc.2, he⟩
    · exact ⟨⟨h.1, h'.1⟩, h'.2⟩

theorem map (hx : Decides m entries x c) (g : α → β) :
    Decides m entries (x >>= fun a => pure (g a)) c :=
  (hx.bind fun a => of_pure (g a)).congr ⟨fun hc => hc.1, fun hc => ⟨hc, trivial⟩⟩

/-- A step that cannot be refused does not matter. -/
theorem after (hx : Decides m entries x True) (hf : ∀ a, Decides m entries (f a) c') :
    Decides m entries (x >>= f) c' :=
  (hx.bind hf).congr ⟨fun hc => hc.2, fun hc => ⟨trivial, hc⟩⟩

theorem note (e : Event) : Decides m entries (Placing.note e) True := fun _ hl => ⟨trivial, hl⟩

/-- Computing a number decides nothing. -/
theorem computed {x : Except Error α} (h : m.Computes x) :
    Decides m entries (liftM x) True := by
  intro l hl
  cases x with
  | error e => exact .inr (h e rfl)
  | ok a => exact ⟨trivial, hl⟩

/-- A step that is refused under a condition, before anything else is done. -/
theorem guard {p : Prop} [Decidable p] {e : Error} (he : e.kind = .invalidArgument)
    {y : Placing β} (hy : ¬ p → Decides m entries y c) :
    Decides m entries (if p then (throw e : Placing α) >>= f else y) (¬ p ∧ c) := by
  by_cases hp : p
  · rw [if_pos hp]
    exact fun _ _ => .inl ⟨fun hc => hc.1 hp, he⟩
  · rw [if_neg hp]
    exact (hy hp).congr ⟨fun hc => ⟨hp, hc⟩, fun hc => hc.2⟩

/-- A step that is refused unless a condition holds. -/
theorem require {p : Prop} [Decidable p] {e : Error} (he : e.kind = .invalidArgument)
    {y : Placing β} (hy : p → Decides m entries y c) :
    Decides m entries (if p then y else (throw e : Placing α) >>= f) (p ∧ c) := by
  by_cases hp : p
  · rw [if_pos hp]
    exact (hy hp).congr ⟨fun hc => ⟨hp, hc⟩, fun hc => hc.2⟩
  · rw [if_neg hp]
    exact fun _ _ => .inl ⟨fun hc => hp hc.1, he⟩

/-- A remark made on the way decides nothing. -/
theorem remark {p : Prop} [Decidable p] (e : Event) {y : Placing β} (hy : Decides m entries y c) :
    Decides m entries (if p then Placing.note e >>= fun _ => y else y) c := by
  by_cases hp : p
  · rw [if_pos hp]
    exact (note e).after fun _ => hy
  · rw [if_neg hp]
    exact hy

theorem record {t : EnumTable} (ht : t.Within entries) :
    Decides m entries (Placing.record t) True := by
  intro l hl
  obtain ⟨journal, hrun⟩ := Placing.run_record t l
  rw [hrun]
  refine ⟨trivial, fun u hu => ?_⟩
  rcases EnumTable.mem_recordIn hu with rfl | hu
  · exact ht
  · exact hl u hu

/-- A loop over at least one item decides what each round decides. -/
theorem foldlM {σ ι : Type} {g : σ → ι → Placing σ} (hg : ∀ d i, Decides m entries (g d i) c)
    (is : List ι) (d : σ) : Decides m entries (is.foldlM g d) (is ≠ [] → c) := by
  induction is generalizing d with
  | nil => exact (of_pure d).congr (by simp)
  | cons i rest ih =>
    rw [List.foldlM_cons]
    refine ((hg d i).bind fun d' => ih d').congr ?_
    simp only [ne_eq, reduceCtorEq, not_false_eq_true, forall_const]
    exact and_iff_left_of_imp fun hc _ => hc

end Placing.Decides

/-! ## Fields -/

/-- In a ledger of declared enumerations a constant has a value if and only if it
is an entry of one of them. -/
theorem Element.isSome_constantValue?_iff {tables : List EnumTable} {entries : List EnumEntry}
    {token : String} (htables : ∀ t ∈ tables, t.Within entries) :
    (constantValue? tables entries token).isSome = true ↔
      ∃ entry ∈ entries, entry.name = token := by
  rw [constantValue?, Option.isSome_or, Bool.or_eq_true]
  constructor
  · rintro (h | h)
    · obtain ⟨t, ht, hvalue⟩ := List.findSome?_isSome_iff.mp h
      obtain ⟨v, hv⟩ := Option.isSome_iff_exists.mp hvalue
      obtain ⟨l₁, l₂, hsplit, -⟩ := List.lookup_eq_some_iff.mp hv
      exact htables t ht (token, v) (by simp [hsplit])
    · rw [Option.isSome_map, List.find?_isSome] at h
      obtain ⟨entry, hentry, hname⟩ := h
      exact ⟨entry, hentry, by simpa using hname⟩
  · rintro ⟨entry, hentry, hname⟩
    refine .inr ?_
    rw [Option.isSome_map, List.find?_isSome]
    exact ⟨entry, hentry, by simpa using hname⟩

section Elements

variable {m : Arithmetic} {e : Element} {scope : Scope} {owner path : String}

open Placing (Decides)

theorem Element.decides_resolveConstant (type : Scalar) :
    Decides m scope.entries (e.resolveConstant scope owner type)
      (∀ token, e.constant = some token → ∃ entry ∈ scope.entries, entry.name = token) := by
  unfold resolveConstant
  cases hc : e.constant with
  | none => exact (Decides.of_pure none).congr (by simp)
  | some token =>
    intro l hl
    have hvalue : (constantValue? l.tables scope.entries token).isSome = true ↔
        ∃ entry ∈ scope.entries, entry.name = token := isSome_constantValue?_iff hl
    simp only [run_run_bind, Option.some.injEq, forall_eq',
      show (MonadState.get : Placing Ledger).run.run l = (.ok l, l) from rfl]
    cases hv : constantValue? l.tables scope.entries token with
    | none =>
      rw [hv] at hvalue
      exact .inl ⟨fun hentry => by simpa using hvalue.mpr hentry, rfl⟩
    | some v =>
      rw [hv] at hvalue
      exact ⟨hvalue.mp rfl, hl⟩

/-- A field is placed if the width and the constant go with its type. -/
theorem Element.decides_field (name : String) (type : Scalar) (table : Option EnumTable)
    (start : Extent) :
    Decides m scope.entries (e.field scope owner name type table start)
      (e.Suits scope.entries type) := by
  have hwidth : (1 ≤ e.width.getD type.bits ∧ e.width.getD type.bits ≤ type.bits) ↔
      ∀ n, e.width = some n → 1 ≤ n ∧ n ≤ type.bits := by
    have hbits := type.eight_le_bits
    cases e.width with
    | none =>
      simp only [Option.getD_none, reduceCtorEq, false_implies, implies_true, iff_true]
      omega
    | some n => simp
  have hsuits : e.Suits scope.entries type ↔ (∀ n, e.width = some n → 1 ≤ n ∧ n ≤ type.bits) ∧
      ∀ token, e.constant = some token → ∃ entry ∈ scope.entries, entry.name = token :=
    ⟨fun h => ⟨h.1, h.2⟩, fun h => ⟨h.1, h.2⟩⟩
  rw [hsuits, ← hwidth]
  unfold field
  exact Decides.require rfl fun _ => (decides_resolveConstant type).map _

/-! ## Elements -/

/-- What the parts of a rule decide: whether the type is settled, and whether an
item can be laid out, in whichever way. -/
structure ItemRule.Decides (m : Arithmetic) (rule : ItemRule) (entries : List EnumEntry)
    (settled item : Prop) : Prop where
  settle : Placing.Decides m entries rule.settle settled
  place : ∀ name last d, Placing.Decides m entries (rule.place name last d) item
  template : ∀ name counter last, Placing.Decides m entries (rule.template name counter last) item

theorem Element.decides_start (base : Nat) (cursor : Extent) :
    Decides m scope.entries (e.start scope owner base cursor m) True := by
  unfold start
  refine (Decides.computed (m.computes_align cursor e.alignment)).after fun aligned => ?_
  cases e.position with
  | none => exact .of_pure _
  | some p =>
    simp only
    split
    · exact (Decides.computed (m.computes_locate base p)).map _
    · exact (Decides.note _).after fun _ => .of_pure _

variable {rule : ItemRule} {settled item : Prop}

/-- A loop over the items of a fixed array decides what one item does. -/
theorem Element.decides_items {g : Draft → Nat → Placing Draft} {n : Nat} (hn : n ≠ 0)
    (hg : ∀ d i, Decides m scope.entries (g d i) item) (d : Draft) :
    Decides m scope.entries ((List.range n).foldlM g d) item :=
  (Decides.foldlM hg (List.range n) d).congr (by simp [hn])

theorem Element.decides_placeFixed (hrule : rule.Decides m scope.entries settled item)
    (base n : Nat) (d : Draft) : Decides m scope.entries (e.placeFixed scope owner path base n rule d m)
      (n ≠ 0 ∧ settled ∧ item) := by
  unfold placeFixed
  refine Decides.guard rfl fun hn => hrule.settle.bind fun _ =>
    (decides_start base d.cursor).after fun cursor => decides_items hn (fun d i => ?_) _
  split
  · exact (hrule.template _ none _).map _
  · exact hrule.place _ _ d

theorem Element.decides_placeVarying (hrule : rule.Decides m scope.entries settled item)
    (earlier : List String) (d : Draft) :
    Decides m scope.entries (e.placeVarying owner path earlier rule d)
      (settled ∧ e.Repeatable earlier ∧ item) := by
  unfold placeVarying Repeatable
  refine Decides.remark _ (hrule.settle.bind fun _ => ?_)
  cases e.repetition with
  | countedBy c => exact Decides.require rfl fun _ => (hrule.template _ _ false).map _
  | fixed n =>
    exact Decides.guard rfl fun hn => decides_items hn
      (fun d i => (hrule.template _ none _).map _) d

/-- An element is placed if its type is settled, its repetition makes sense and
its items can be laid out. It does not matter whether they are placed or become
templates. -/
theorem Element.decides_place (hrule : rule.Decides m scope.entries settled item) (base : Nat)
    (earlier : List String) (d : Draft) :
    Decides m scope.entries (e.place scope owner path base earlier rule d m)
      (e.Repeatable earlier ∧ settled ∧ item) := by
  have hvarying : ∀ d, Decides m scope.entries (e.placeVarying owner path earlier rule d)
      (e.Repeatable earlier ∧ settled ∧ item) := fun d =>
    (decides_placeVarying hrule earlier d).congr and_left_comm
  unfold place
  split
  · exact hvarying d
  · cases hr : e.repetition with
    | fixed n =>
      refine (decides_placeFixed hrule base n d).congr ?_
      rw [Repeatable, hr]
    | countedBy c => exact (Decides.note _).after fun _ => hvarying _

end Elements

/-! ## Shapes -/

/-- Whether a member can be laid out behind some elements. -/
def Member.Acceptable (entries : List EnumEntry) (earlier : List String) : Member → Prop
  | .leaf e type _ => e.Repeatable earlier ∧ e.Suits entries type
  | .nested e _ => e.Repeatable earlier
  | .cyclic _ _ _ | .unresolved _ _ => False

/-- Whether some members can be laid out one after another. -/
def MembersAcceptable (entries : List EnumEntry) : (earlier : List String) → List Member → Prop
  | _, [] => True
  | earlier, m :: rest =>
    m.Acceptable entries earlier ∧ MembersAcceptable entries (m.element.name :: earlier) rest

/-- What unfolding a schema makes sure of: the tables are those of declared
enumerations, and whatever is wrong with a type is an invalid argument. -/
def Member.Declared (entries : List EnumEntry) : Member → Prop
  | .leaf _ _ (some t) => t.Within entries
  | .unresolved _ reason => reason.kind = .invalidArgument
  | .leaf _ _ none | .nested _ _ | .cyclic _ _ _ => True

/-- Whether this holds of some members. -/
def MembersDeclared (entries : List EnumEntry) (members : List Member) : Prop :=
  ∀ m ∈ members, m.Declared entries

namespace ItemRule

variable {m : Arithmetic} {e : Element} {scope : Scope}

theorem decides_leaf {owner : String} {type : Scalar} {table : Option EnumTable}
    (htable : (Member.leaf e type table).Declared scope.entries) :
    (leaf e scope owner type table m).Decides m scope.entries True
      (e.Suits scope.entries type) where
  settle := by
    cases table with
    | none => exact .of_pure ()
    | some t => exact .record htable
  place _ _ d := by
    refine ((Element.decides_field _ type table _).bind fun f =>
      .computed (m.computes_addFieldBy d f)).congr (and_iff_left trivial)
  template _ _ _ := (Element.decides_field _ type table _).map _

theorem decides_nested {entries : List EnumEntry} {alignment : Nat} {c : Prop}
    {placeStruct : Scope → String → Bool → Draft → Placing Draft}
    (h : ∀ positioned path last d,
      Placing.Decides m entries
        (placeStruct { scope with positioned := positioned } path last d) c) :
    (nested e scope alignment placeStruct m).Decides m entries True c where
  settle := .of_pure ()
  place _ _ d := (Placing.Decides.computed (m.computes_align d.cursor alignment)).after
    fun _ => h scope.positioned _ _ _
  template _ _ _ := (h false _ _ _).map _

theorem decides_cyclic (entries : List EnumEntry) (struct : String) :
    (cyclic struct).Decides m entries True False where
  settle := .of_pure ()
  place _ _ _ := .of_throw rfl
  template _ _ _ := .of_throw rfl

theorem decides_unresolved (entries : List EnumEntry) {reason : Error}
    (h : reason.kind = .invalidArgument) : (unresolved reason).Decides m entries False False where
  settle := .of_throw h
  place _ _ _ := .of_throw h
  template _ _ _ := .of_throw h

end ItemRule

section Shapes

variable {m : Arithmetic}

mutual

/-- A shape is placed if all its members are acceptable, wherever it is placed. -/
theorem Shape.decides_place : ∀ (shape : Shape) (scope : Scope) (path : String) (last : Bool)
    (d : Draft), shape.Everywhere (MembersDeclared scope.entries) →
    Placing.Decides m scope.entries (shape.place scope path last d m)
      (shape.Everywhere (MembersAcceptable scope.entries []))
  | .mk name alignment members, scope, path, last, d, h => by
      rw [Shape.place]
      refine ((decides_placeMembers members scope name path d.cursor.wire [] d h.1 h.2).bind
        fun d => ?_).congr (and_iff_left trivial)
      split
      · exact .of_pure d
      · exact .computed (m.computes_padBy d alignment)

theorem decides_placeMembers : ∀ (members : List Member) (scope : Scope) (owner path : String)
    (base : Nat) (earlier : List String) (d : Draft), MembersDeclared scope.entries members →
    membersEverywhere (MembersDeclared scope.entries) members →
    Placing.Decides m scope.entries (placeMembers scope owner path base earlier d members m)
      (MembersAcceptable scope.entries earlier members ∧
        membersEverywhere (MembersAcceptable scope.entries []) members)
  | [], _, _, _, _, _, d, _, _ => by
      rw [placeMembers]
      exact (Placing.Decides.of_pure d).congr ⟨fun _ => ⟨trivial, trivial⟩, fun _ => trivial⟩
  | member :: rest, scope, owner, path, base, earlier, d, h, hin => by
      rw [placeMembers]
      refine ((member.decides_place scope owner path base earlier d (h member List.mem_cons_self)
        hin.1).bind fun mid => decides_placeMembers rest scope owner path base
          (member.element.name :: earlier) mid (fun k hk => h k (List.mem_cons_of_mem member hk))
          hin.2).congr ?_
      exact and_and_and_comm

theorem Member.decides_place : ∀ (member : Member) (scope : Scope) (owner path : String)
    (base : Nat) (earlier : List String) (d : Draft), member.Declared scope.entries →
    member.Everywhere (MembersDeclared scope.entries) →
    Placing.Decides m scope.entries (member.place scope owner path base earlier d m)
      (member.Acceptable scope.entries earlier ∧
        member.Everywhere (MembersAcceptable scope.entries []))
  | .leaf e type table, scope, owner, path, base, earlier, d, h, _ => by
      rw [Member.place]
      refine (Element.decides_place (ItemRule.decides_leaf h) base earlier d).congr ?_
      simp only [Member.Acceptable, Member.Everywhere, true_and, and_true]
  | .nested e shape, scope, owner, path, base, earlier, d, _, hin => by
      rw [Member.place]
      have hshape : ∀ positioned path last d, Placing.Decides m scope.entries
          (shape.place { scope with positioned := positioned } path last d m)
          (shape.Everywhere (MembersAcceptable scope.entries [])) := fun positioned path last d =>
        shape.decides_place { scope with positioned := positioned } path last d hin
      refine (Element.decides_place (ItemRule.decides_nested hshape) base earlier d).congr ?_
      simp only [Member.Acceptable, Member.Everywhere, true_and]
  | .cyclic e struct alignment, scope, owner, path, base, earlier, d, _, _ => by
      rw [Member.place]
      refine (Element.decides_place (ItemRule.decides_cyclic scope.entries struct) base earlier
        d).congr ?_
      simp only [Member.Acceptable, and_false, false_and]
  | .unresolved e reason, scope, owner, path, base, earlier, d, h, _ => by
      rw [Member.place]
      refine (Element.decides_place (ItemRule.decides_unresolved scope.entries h) base earlier
        d).congr ?_
      simp only [Member.Acceptable, and_false, false_and]

end

end Shapes

/-! ## From shapes to structs -/

namespace Schema

variable {s : Schema}

theorem within_ofDecl {decl : EnumDecl} (h : decl ∈ s.enums) (type : Scalar) :
    (EnumTable.ofDecl decl type).Within s.entries := by
  intro p hp
  obtain ⟨entry, hentry, rfl⟩ := List.mem_map.mp hp
  exact ⟨entry, List.mem_flatMap.mpr ⟨decl, h, hentry⟩, rfl⟩

theorem mem_enums_of_meaning? {name : String} {decl : EnumDecl}
    (h : s.meaning? name = some (.enum decl)) : decl ∈ s.enums :=
  mem_enums_of_enum? (enum?_of_meaning? h)

/-- Unfolding makes sure of what placing relies on. -/
theorem declared_members (x : Visit) : MembersDeclared s.entries (s.members x) := by
  intro m hm
  obtain ⟨e, -, rfl⟩ := List.mem_map.mp hm
  rw [member_eq]
  split
  · trivial
  · rename_i decl hdecl
    split
    · exact within_ofDecl (mem_enums_of_meaning? hdecl) _
    · rfl
  · split <;> trivial
  · rfl

/-- A member is acceptable if its element is, and it is of no struct that is
being unfolded. -/
theorem acceptable_member_iff {owner : String} {active earlier : List String} {e : Element} :
    (s.member owner active e).Acceptable s.entries earlier ↔
      (s.AcceptsType e ∧ e.Repeatable earlier) ∧
        ∀ t, s.meaning? e.type = some (.struct t) → t.name ∉ active := by
  rw [member_eq, AcceptsType]
  cases hm : s.meaning? e.type with
  | none => simp [Member.Acceptable]
  | some meaning =>
    cases meaning with
    | scalar type => simp [Member.Acceptable, and_comm]
    | enum decl => cases hb : s.scalar? decl.base <;> simp [Member.Acceptable, hb, and_comm]
    | struct t => by_cases ht : t.name ∈ active <;> simp [Member.Acceptable, ht]

/-- What is said of the elements of a list and those before each of them is said of
the first one, with none before it, and of the others. -/
theorem forall_split_cons_iff {α : Type} {p : List α → α → Prop} {a : α} {as : List α} :
    (∀ before e after, a :: as = before ++ e :: after → p before e) ↔
      p [] a ∧ ∀ before e after, as = before ++ e :: after → p (a :: before) e := by
  constructor
  · intro h
    refine ⟨h [] a as rfl, fun before e after has => h (a :: before) e after ?_⟩
    rw [has]
    rfl
  · rintro ⟨hfirst, hrest⟩ before e after has
    cases before with
    | nil =>
      obtain ⟨rfl, -⟩ := List.cons.inj has
      exact hfirst
    | cons b before =>
      obtain ⟨rfl, hsplit⟩ := List.cons.inj has
      exact hrest before e after hsplit

theorem acceptable_members_iff {owner : String} {active : List String} {es : List Element}
    {earlier : List String} :
    MembersAcceptable s.entries earlier (es.map (s.member owner active)) ↔
      (∀ before e after, es = before ++ e :: after →
        s.AcceptsType e ∧ e.Repeatable (before.map (·.name) ++ earlier)) ∧
      ∀ e ∈ es, ∀ t, s.meaning? e.type = some (.struct t) → t.name ∉ active := by
  induction es generalizing earlier with
  | nil => simp [MembersAcceptable]
  | cons e rest ih =>
    have hmoved : ∀ (before : List Element) (k : Element),
        k.Repeatable (before.map (·.name) ++ e.name :: earlier) ↔
          k.Repeatable ((e :: before).map (·.name) ++ earlier) := by
      intro before k
      unfold Element.Repeatable
      cases k.repetition <;> simp [or_left_comm]
    rw [List.map_cons, MembersAcceptable, ih, element_member, acceptable_member_iff,
      forall_split_cons_iff, List.forall_mem_cons]
    simp only [hmoved]
    exact and_and_and_comm

/-- Everywhere in a shape members are acceptable if and only if the elements of
all structs that are entered are, and none of these refers back. -/
theorem everywhere_acceptable_iff {x : Visit} :
    (s.shapeOf x).Everywhere (MembersAcceptable s.entries []) ↔
      ∀ y, ReflTransGen s.Enters x y → s.AcceptsElements y.struct ∧
        ∀ t, s.Refers y.struct t → t.name ∉ y.active := by
  rw [everywhere_iff]
  refine forall_congr' fun y => imp_congr_right fun _ => ?_
  rw [members, acceptable_members_iff]
  simp only [List.append_nil]
  refine and_congr_right fun _ => ⟨?_, ?_⟩
  · rintro h t ⟨e, he, ht⟩
    exact h e he t ht
  · intro h e he t ht
    exact h t ⟨e, he, ht⟩

/-- Where no struct that is entered refers back, a path of references is one of
entering. -/
theorem enters_of_reaches {x : Visit} {t : StructDecl}
    (hfresh : ∀ y, ReflTransGen s.Enters x y → ∀ t, s.Refers y.struct t → t.name ∉ y.active)
    (ht : ReflTransGen s.Refers x.struct t) :
    ∃ y, ReflTransGen s.Enters x y ∧ y.struct = t ∧ x.active ⊆ y.active := by
  induction ht with
  | refl => exact ⟨x, .refl, rfl, List.Subset.refl _⟩
  | @tail u t _ hstep ih =>
    obtain ⟨y, hy, rfl, hactive⟩ := ih
    have hnew := hfresh y hy t hstep
    refine ⟨⟨t, t.name :: y.active⟩, hy.tail ⟨hstep, hnew, rfl⟩, rfl, ?_⟩
    exact fun _ h => List.mem_cons_of_mem _ (hactive h)

/-- A struct that is entered is being unfolded. -/
theorem name_mem_active {d : StructDecl} {y : Visit}
    (hy : ReflTransGen s.Enters ⟨d, [d.name]⟩ y) : y.struct.name ∈ y.active := by
  cases hy with
  | refl => exact List.mem_singleton_self _
  | tail _ hstep =>
    rw [hstep.active_eq]
    exact List.mem_cons_self

/-- A struct whose name is among those being unfolded is one that leads to where
unfolding is. -/
theorem reaches_of_mem_active {d : StructDecl} (hd : s.struct? d.name = some d) {y : Visit}
    (hy : ReflTransGen s.Enters ⟨d, [d.name]⟩ y) {t : StructDecl}
    (ht : s.struct? t.name = some t) (hactive : t.name ∈ y.active) :
    ReflTransGen s.Refers d t ∧ ReflTransGen s.Refers t y.struct := by
  induction hy with
  | refl =>
    have hname : t.name = d.name := by simpa using hactive
    rw [hname, hd] at ht
    obtain rfl := Option.some.inj ht
    exact ⟨.refl, .refl⟩
  | @tail y z hpath hstep ih =>
    rw [hstep.active_eq] at hactive
    rcases List.mem_cons.mp hactive with hname | hactive
    · rw [hname, hstep.refers.struct?_eq] at ht
      obtain rfl := Option.some.inj ht
      exact ⟨(reaches_of_enters hpath).tail hstep.refers, .refl⟩
    · obtain ⟨h1, h2⟩ := ih hactive
      exact ⟨h1, h2.tail hstep.refers⟩

/-- The shape of a struct is acceptable if and only if the struct is. -/
theorem shape_acceptable_iff {d : StructDecl} (hd : s.struct? d.name = some d) :
    (s.shape d).Everywhere (MembersAcceptable s.entries []) ↔ s.Accepts d := by
  rw [shape_eq_shapeOf, everywhere_acceptable_iff]
  constructor
  · intro h
    have hfresh := fun y hy => (h y hy).2
    refine ⟨fun t ht => ?_, fun t ht hcycle => ?_⟩
    · obtain ⟨y, hy, rfl, -⟩ := enters_of_reaches hfresh ht
      exact (h y hy).1
    · -- the last struct of a cycle would refer to one that is being unfolded
      obtain ⟨y, hy, rfl, -⟩ := enters_of_reaches hfresh ht
      obtain ⟨u, hu, hback⟩ := TransGen.tail'_iff.mp hcycle
      obtain ⟨z, hz, rfl, hactive⟩ := enters_of_reaches (fun z hz => hfresh z (hy.trans hz)) hu
      exact hfresh z (hy.trans hz) _ hback (hactive (name_mem_active hy))
  · intro h y hy
    have hreach := reaches_of_enters hy
    refine ⟨h.elements _ hreach, fun t ht hactive => ?_⟩
    obtain ⟨hroot, hback⟩ := reaches_of_mem_active hd hy ht.struct?_eq hactive
    exact h.acyclic t hroot (.tail' hback ht)

/-! ## Layouts -/

theorem root_eq_ok_iff {name : String} {d : StructDecl} :
    s.root name = .ok d ↔ s.NamesDistinct ∧ s.struct? name = some d := by
  rw [root_eq, ← checkNames_eq_ok_iff]
  cases s.checkNames <;> cases s.struct? name <;> simp

/-- Among distinct names a struct is the one of its name. -/
theorem struct?_of_mem {name : String} (hnames : s.NamesDistinct) {d : StructDecl}
    (hd : d ∈ s.structs) (hname : d.name = name) : s.struct? name = some d := by
  cases hfound : s.struct? name with
  | none => exact absurd hname (by simpa using List.find?_eq_none.mp hfound d hd)
  | some t =>
    have ht := mem_structs_of_struct?_eq_some hfound
    have hsame : t.name = d.name := by rw [name_of_struct? hfound, hname]
    rw [List.inj_on_of_nodup_map hnames.structs ht hd hsame]

/-- A record is placed if its struct is accepted, and otherwise refused as an
invalid argument. -/
theorem decides_placeRecord {m : Arithmetic} {d : StructDecl} (hd : s.struct? d.name = some d) :
    Placing.Decides m s.entries (s.placeRecord d m) (s.Accepts d) := by
  have hdeclared : (s.shape d).Everywhere (MembersDeclared s.entries) :=
    (everywhere_iff (x := ⟨d, [d.name]⟩)).mpr fun y _ => declared_members y
  have hplace := (@Shape.decides_place m (s.shape d) s.scope "" false .empty hdeclared).congr
    (shape_acceptable_iff hd)
  unfold placeRecord
  refine (hplace.bind fun draft => (Placing.Decides.note _).after fun _ => ?_).congr
    (and_iff_left trivial)
  exact fun _ hl => ⟨trivial, hl⟩

/-- The layout of a struct that was found: there is one if the struct is accepted,
and an invalid argument if not; unless the arithmetic stops. -/
theorem layoutBy_of_root (m : Arithmetic) {name : String} {d : StructDecl}
    (hd : s.root name = .ok d) :
    match s.layout name m with
      | .ok _ => s.Accepts d
      | .error e =>
        (¬ s.Accepts d ∧ e.kind = .invalidArgument) ∨ ∃ f, m.Stops f ∧ e = .stopped f := by
  have hstruct := (root_eq_ok_iff.mp hd).2
  rw [← name_of_struct? hstruct] at hstruct
  have hdecides := @decides_placeRecord s m d hstruct { tables := [], journal := [] }
    fun t ht => (List.not_mem_nil ht).elim
  unfold layout compile
  simp only [hd]
  generalize (s.placeRecord d m).run.run { tables := [], journal := [] } = out at hdecides ⊢
  rcases out with ⟨e | l, ledger⟩
  · exact hdecides
  · exact hdecides.1

/-- In exact numbers nothing stops. -/
theorem layout_of_root {name : String} {d : StructDecl} (hd : s.root name = .ok d) :
    match s.layout name with
      | .ok _ => s.Accepts d
      | .error e => ¬ s.Accepts d ∧ e.kind = .invalidArgument := by
  have h := layoutBy_of_root .exact hd
  split at h
  · exact h
  · exact h.resolve_right fun ⟨_, hno, _⟩ => hno

/-- What is reached from a struct with a layout has one of its own. -/
theorem exists_layout_of_refers {name : String} {d t : StructDecl} {l : Layout}
    (hd : s.root name = .ok d) (hl : s.layout name = .ok l) (ht : s.Refers d t) :
    s.root t.name = .ok t ∧ ∃ lt, s.layout t.name = .ok lt := by
  have hroot : s.root t.name = .ok t :=
    root_eq_ok_iff.mpr ⟨(root_eq_ok_iff.mp hd).1, ht.struct?_eq⟩
  have haccepts := layout_of_root hd
  rw [hl] at haccepts
  have hbelow : s.Accepts t :=
    ⟨fun u hu => haccepts.elements u (.head ht hu), fun u hu => haccepts.acyclic u (.head ht hu)⟩
  have hlayout := layout_of_root hroot
  cases hlt : s.layout t.name with
  | ok lt => exact ⟨hroot, lt, rfl⟩
  | error e =>
    rw [hlt] at hlayout
    exact absurd hbelow hlayout.1

/-- What keeps a struct from being found keeps it from having a layout. -/
theorem layout_eq_error_of_root {m : Arithmetic} {name : String} {e : Error}
    (h : s.root name = .error e) : s.layout name m = .error e := by
  unfold layout compile
  rw [h]

/-- Only a struct that is not declared is not found. -/
theorem kind_of_root {name : String} {e : Error} (h : s.root name = .error e)
    (hdeclared : ¬ (s.NamesDistinct ∧ s.struct? name = none)) : e.kind = .invalidArgument := by
  rw [root_eq] at h
  cases hcheck : s.checkNames with
  | error e' =>
    rw [hcheck] at h
    cases h
    exact kind_of_checkNames hcheck
  | ok u =>
    cases hstruct : s.struct? name with
    | none => exact absurd ⟨checkNames_eq_ok_iff.mp hcheck, hstruct⟩ hdeclared
    | some d =>
      rw [hcheck, hstruct] at h
      cases h

/-- Looking for a struct computes no number. -/
theorem root_ne_stopped {name : String} {f : Fault} : s.root name ≠ .error (.stopped f) := by
  intro h
  rw [root_eq] at h
  cases hcheck : s.checkNames with
  | error e =>
    rw [hcheck] at h
    cases h
    exact absurd (kind_of_checkNames hcheck) (by simp [Error.kind])
  | ok u =>
    rw [hcheck] at h
    cases hstruct : s.struct? name with
    | none =>
      rw [hstruct] at h
      cases h
    | some d =>
      rw [hstruct] at h
      cases h

/-- Compiling stops only as its arithmetic does, and not where words hold all numbers. -/
theorem stops_of_layout {m : Arithmetic} {name : String} {f : Fault}
    (h : s.layout name m = .error (.stopped f)) : m.Stops f ∧ ¬ s.Contained name := by
  refine ⟨?_, fun hs => hs f ((hs.layout_eq .checked).trans ((hs.layout_eq m).symm.trans h))⟩
  cases hroot : s.root name with
  | error e =>
    rw [layout_eq_error_of_root hroot] at h
    cases h
    exact absurd hroot root_ne_stopped
  | ok d =>
    have hlayout := layoutBy_of_root m hroot
    rw [h] at hlayout
    rcases hlayout with ⟨-, hkind⟩ | ⟨g, hg, hfault⟩
    · cases hkind
    · cases hfault
      exact hg

/-- A number whose alignment in bits no word holds. -/
def towers : Schema where
  version := ⟨3, 0⟩
  aliases := []
  enums := []
  structs :=
    [ { name := "Record", alignment := 1
        elements :=
          [ { name := "a", type := "tUInt8", repetition := .fixed 1
              alignment := 2305843009213693952, position := none, width := none
              order := .littleEndian, constant := none } ] } ]

end Schema

end WireRecord
