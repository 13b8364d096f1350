/-
WireRecord.Proofs.ArithmeticTheorems — where words make no difference.

Layouts and views are computed by one of three arithmetics. A step of such a
computation is `Steady` if the checked arithmetic stops in it, or else all three do
the same. There is one lemma for each way to build a step, and sums and products are
steady because a number that the checked arithmetic lets pass is kept in full by the
wrapping one. So no run is ever taken apart: placing a struct is an induction over its
shape, expanding one over the templates.

What a steady step yields has a property besides, which is what the next step needs.
For the places of a record it is that words hold them.

For schemas and layouts this says that one run of the checked arithmetic speaks for
all. Where it does not stop, `Schema.Contained` and `Layout.Contained`, what a machine
computes is what the exact arithmetic says, in either build.
-/
import Mathlib.Algebra.Group.Nat.Defs
import WireRecord.Layout.Compile
import WireRecord.Proofs.Runs
import WireRecord.View

namespace WireRecord

/-! ## Steady steps -/

section Steady

variable {σ α β : Type} {P : α → Prop} {Q : β → Prop}

/-- From any state the checked arithmetic stops, or all arithmetics end alike, and what
they yield has a property. -/
def Steady (P : α → Prop) (x : Arithmetic → ExceptT Error (StateM σ) α) : Prop :=
  ∀ s, (∃ f t, (x .checked).run.run s = (.error (.stopped f), t)) ∨
    (∀ m, (x m).run.run s = (x .exact).run.run s) ∧ ∀ a t, Ends (x .exact) s a t → P a

namespace Steady

/-- A step that computes no size and no place. -/
theorem same {y : ExceptT Error (StateM σ) α} (h : ∀ a, Yields y a → P a) :
    Steady P fun _ => y :=
  fun s => .inr ⟨fun _ => rfl, fun a t ha => h a ⟨s, t, ha⟩⟩

theorem pure {a : α} (h : P a) :
    Steady P fun _ => (Pure.pure a : ExceptT Error (StateM σ) α) :=
  same fun b hb => by
    obtain rfl := Yields.of_pure hb
    exact h

theorem throw (e : Error) : Steady P fun _ => (throw e : ExceptT Error (StateM σ) α) :=
  same fun _ hthrow => (Yields.not_throw hthrow).elim

/-- A sequence is steady when its first step is and, on what that yields, the rest. -/
theorem bind {x : Arithmetic → ExceptT Error (StateM σ) α}
    {f : Arithmetic → α → ExceptT Error (StateM σ) β} (hx : Steady P x)
    (hf : ∀ a, P a → Steady Q fun m => f m a) : Steady Q fun m => x m >>= f m := by
  intro s
  rcases hx s with ⟨fault, t, hstop⟩ | ⟨hsame, hP⟩
  · refine .inl ⟨fault, t, ?_⟩
    rw [run_run_bind, hstop]
  · cases hrun : (x .exact).run.run s with
    | mk result t =>
      cases result with
      | error e =>
        refine .inr ⟨fun m => ?_, fun b u hb => ?_⟩
        · rw [run_run_bind, run_run_bind, hsame m, hrun]
        · obtain ⟨a, t', ha, -⟩ := Ends.bind_iff.mp hb
          rw [Ends, hrun] at ha
          cases ha
      | ok a =>
        have hrest : ∀ m, (x m >>= f m).run.run s = (f m a).run.run t := fun m => by
          rw [run_run_bind, hsame m, hrun]
        rcases hf a (hP a t hrun) t with ⟨fault, u, hstop⟩ | ⟨hsame', hQ⟩
        · exact .inl ⟨fault, u, (hrest _).trans hstop⟩
        · refine .inr ⟨fun m => ?_, fun b u hb => hQ b u ?_⟩
          · rw [hrest, hrest, hsame' m]
          · rwa [Ends, hrest] at hb

/-- A step before that computes no size and no place. -/
theorem same_bind {y : ExceptT Error (StateM σ) α}
    {f : Arithmetic → α → ExceptT Error (StateM σ) β} (hf : ∀ a, Steady Q fun m => f m a) :
    Steady Q fun m => y >>= f m :=
  bind (P := fun _ => True) (same fun _ _ => trivial) fun a _ => hf a

theorem ite {c : Prop} [Decidable c] {x y : Arithmetic → ExceptT Error (StateM σ) α}
    (hthen : c → Steady P x) (helse : ¬ c → Steady P y) :
    Steady P fun m => if c then x m else y m := by
  by_cases hc : c
  · simp only [hc, if_true]
    exact hthen hc
  · simp only [hc, if_false]
    exact helse hc

/-- A remark made on the way changes nothing. -/
theorem remark {c : Prop} [Decidable c] {n : ExceptT Error (StateM σ) PUnit}
    {x : Arithmetic → ExceptT Error (StateM σ) α} (h : Steady P x) :
    Steady P fun m => if c then n >>= fun _ => x m else x m :=
  ite (fun _ => same_bind fun _ => h) fun _ => h

/-- What would follow a refusal does not matter. -/
theorem throw_bind {e : Error} {f : Arithmetic → β → ExceptT Error (StateM σ) α} :
    Steady P fun m => (MonadExcept.throw e : ExceptT Error (StateM σ) β) >>= f m :=
  bind (P := fun _ => False) (throw e) fun _ hno => hno.elim

/-- A loop is steady when each round keeps the property. -/
theorem foldlM {ι : Type} {g : Arithmetic → α → ι → ExceptT Error (StateM σ) α}
    (hg : ∀ i a, P a → Steady P fun m => g m a i) (is : List ι) {a : α} (ha : P a) :
    Steady P fun m => is.foldlM (g m) a := by
  induction is generalizing a with
  | nil => exact pure ha
  | cons i rest ih =>
    simp only [List.foldlM_cons]
    exact (hg i a ha).bind fun _ hb => ih hb

theorem forM {ι : Type} {g : Arithmetic → ι → ExceptT Error (StateM σ) PUnit}
    (hg : ∀ i, Steady (fun _ => True) fun m => g m i) (is : List ι) :
    Steady (fun _ => True) fun m => is.forM (g m) := by
  induction is with
  | nil => exact pure trivial
  | cons i rest ih => exact (hg i).bind fun _ _ => ih

/-- Where the checked arithmetic ends, the exact one ends with the same. -/
theorem ends {x : Arithmetic → ExceptT Error (StateM σ) α} (h : Steady P x) {s t : σ} {a : α}
    (ha : Ends (x .checked) s a t) : Ends (x .exact) s a t ∧ P a := by
  rcases h s with ⟨f, u, hstop⟩ | ⟨hsame, hP⟩
  · rw [Ends, hstop] at ha
    cases ha
  · have hexact : Ends (x .exact) s a t := (hsame .checked).symm.trans ha
    exact ⟨hexact, hP a t hexact⟩

end Steady

/-- A part of a computation without a state is a step of its own. -/
theorem liftM_bind (x : Except Error α) (f : α → Except Error β) :
    (liftM (x >>= f) : ExceptT Error (StateM σ) β) = liftM x >>= fun a => liftM (f a) := by
  cases x with
  | error e => rfl
  | ok a => rfl

end Steady

/-! ## Numbers -/

namespace Arithmetic

/-- The faults that stop an arithmetic. -/
def Stops : Arithmetic → Fault → Prop
  | exact, _ => False
  | checked, _ => True
  | wrapping, fault => fault = .quotient

/-- Whether a computation fails only where its arithmetic stops. -/
def Computes {α : Type} (m : Arithmetic) (x : Except Error α) : Prop :=
  ∀ e, x = .error e → ∃ f, m.Stops f ∧ e = .stopped f

section Computes

variable {α β : Type} {m : Arithmetic}

theorem Computes.pure (a : α) : m.Computes (.ok a) := fun _ h => by cases h

theorem Computes.bind {x : Except Error α} {f : α → Except Error β} (hx : m.Computes x)
    (hf : ∀ a, m.Computes (f a)) : m.Computes (x >>= f) := by
  cases x with
  | error e =>
    intro e' h
    cases h
    exact hx e rfl
  | ok a => exact hf a

variable (m)

theorem computes_hold (fault : Fault) (n : Nat) : m.Computes (m.hold fault n) := by
  cases m with
  | exact => exact .pure n
  | wrapping => exact .pure _
  | checked =>
    unfold hold
    simp only
    split
    · exact .pure n
    · intro e h
      cases h
      exact ⟨fault, trivial, rfl⟩

theorem computes_add (a b : Nat) : m.Computes (m.add a b) := m.computes_hold .sum (a + b)

theorem computes_mul (a b : Nat) : m.Computes (m.mul a b) := m.computes_hold .product (a * b)

/-- Only an alignment whose bits no word holds divides by zero. -/
theorem computes_alignUp (position alignment : Nat) :
    m.Computes (m.alignUp position alignment) := by
  by_cases hm : m = .exact
  · subst hm
    rw [exact_alignUp]
    exact .pure _
  · have hquotient : m.Stops .quotient := by
      cases m with
      | exact => exact absurd rfl hm
      | checked => trivial
      | wrapping => rfl
    unfold alignUp
    split
    · exact .pure position
    · refine (m.computes_mul 8 alignment).bind fun step => .bind ?_ fun n => m.computes_mul n step
      unfold divUp
      split
      · intro e h
        cases h
        exact ⟨.quotient, hquotient, rfl⟩
      · exact .pure _

theorem computes_align (e : Extent) (alignment : Nat) : m.Computes (m.align e alignment) :=
  (m.computes_alignUp e.native alignment).bind fun _ => .pure _

theorem computes_advance (a b : Extent) : m.Computes (m.advance a b) :=
  (m.computes_add a.native b.native).bind fun _ =>
    (m.computes_add a.wire b.wire).bind fun _ => .pure _

theorem computes_locate (base : Nat) (p : WirePosition) : m.Computes (m.locate base p) :=
  (m.computes_mul 8 p.byte).bind fun bytes =>
    (m.computes_add base bytes).bind fun start => m.computes_add start p.bit

theorem computes_addFieldBy (d : Draft) (f : Field) : m.Computes (d.addFieldBy m f) :=
  (m.computes_advance d.cursor f.size).bind fun _ =>
    (m.computes_add f.wire.offset f.wire.size).bind fun _ => .pure _

theorem computes_padBy (d : Draft) (alignment : Nat) : m.Computes (d.padBy m alignment) := by
  unfold Draft.padBy
  split
  · exact .pure _
  · exact (m.computes_align d.cursor alignment).bind fun _ => .pure _

end Computes

end Arithmetic

/-- Whether words hold both sides. -/
structure Extent.Bounded (e : Extent) : Prop where
  native : e.native < 2 ^ 64
  wire : e.wire < 2 ^ 64

namespace Arithmetic

variable {σ : Type}

theorem hold_of_lt (m : Arithmetic) (fault : Fault) {n : Nat} (h : n < 2 ^ 64) :
    m.hold fault n = .ok n := by
  have hword : (BitVec.ofNat 64 n).toNat = n := by
    rw [BitVec.toNat_ofNat, Nat.mod_eq_of_lt h]
  cases m with
  | exact => rfl
  | checked => exact if_pos hword
  | wrapping => exact congrArg Except.ok hword

theorem checked_hold_of_le (fault : Fault) {n : Nat} (h : 2 ^ 64 ≤ n) :
    checked.hold fault n = .error (.stopped fault) := by
  refine if_neg fun hword => ?_
  have hlt := (BitVec.ofNat 64 n).isLt
  omega

/-- What the checked arithmetic lets pass, the others keep in full. -/
theorem steady_hold (fault : Fault) (n : Nat) :
    Steady (· < 2 ^ 64) fun m => (liftM (m.hold fault n) : ExceptT Error (StateM σ) Nat) := by
  intro s
  rcases Nat.lt_or_ge n (2 ^ 64) with h | h
  · refine .inr ⟨fun m => ?_, fun a t ha => ?_⟩
    · simp only [hold_of_lt _ fault h]
    · obtain ⟨rfl, -⟩ := Ends.pure_iff.mp ha
      exact h
  · refine .inl ⟨fault, s, ?_⟩
    simp only [checked_hold_of_le fault h]
    rfl

theorem steady_add (a b : Nat) :
    Steady (· < 2 ^ 64) fun m => (liftM (m.add a b) : ExceptT Error (StateM σ) Nat) :=
  steady_hold .sum (a + b)

theorem steady_mul (a b : Nat) :
    Steady (· < 2 ^ 64) fun m => (liftM (m.mul a b) : ExceptT Error (StateM σ) Nat) :=
  steady_hold .product (a * b)

theorem steady_alignUp {position : Nat} (h : position < 2 ^ 64) (alignment : Nat) :
    Steady (· < 2 ^ 64) fun m =>
      (liftM (m.alignUp position alignment) : ExceptT Error (StateM σ) Nat) := by
  unfold alignUp
  by_cases hle : alignment ≤ 1
  · simp only [hle, if_true]
    exact .pure h
  · simp only [hle, if_false, liftM_bind]
    refine (steady_mul 8 alignment).bind fun step _ => ?_
    exact .same_bind fun n => steady_mul n step

theorem steady_align {e : Extent} (h : e.Bounded) (alignment : Nat) :
    Steady Extent.Bounded fun m =>
      (liftM (m.align e alignment) : ExceptT Error (StateM σ) Extent) := by
  simp only [align, liftM_bind]
  exact (steady_alignUp h.native alignment).bind fun n hn => .pure ⟨hn, h.wire⟩

theorem steady_advance (a b : Extent) :
    Steady Extent.Bounded fun m =>
      (liftM (m.advance a b) : ExceptT Error (StateM σ) Extent) := by
  simp only [advance, liftM_bind]
  refine (steady_add a.native b.native).bind fun native hnative => ?_
  exact (steady_add a.wire b.wire).bind fun wire hwire => .pure ⟨hnative, hwire⟩

theorem steady_locate (base : Nat) (p : WirePosition) :
    Steady (· < 2 ^ 64) fun m => (liftM (m.locate base p) : ExceptT Error (StateM σ) Nat) := by
  simp only [locate, liftM_bind]
  refine (steady_mul 8 p.byte).bind fun bytes _ => ?_
  exact (steady_add base bytes).bind fun start _ => steady_add start p.bit

theorem steady_stop (s : Span) :
    Steady (· < 2 ^ 64) fun m => (liftM (m.stop s) : ExceptT Error (StateM σ) Nat) :=
  steady_add s.offset s.size

theorem steady_shift (s : Span) (n : Nat) :
    Steady (fun _ => True) fun m => (liftM (m.shift s n) : ExceptT Error (StateM σ) Span) := by
  simp only [shift, liftM_bind]
  exact (steady_add s.offset n).bind fun _ _ => .pure trivial

end Arithmetic

open Arithmetic

theorem Field.steady_instantiateBy {σ : Type} (f : Field) (start : Extent) (name : String) :
    Steady (fun _ => True) fun m =>
      (liftM (f.instantiateBy m start name) : ExceptT Error (StateM σ) Field) := by
  simp only [instantiateBy, liftM_bind]
  refine (steady_shift f.native start.native).bind fun native _ => ?_
  exact (steady_shift f.wire start.wire).bind fun wire _ => .pure trivial

/-! ## Placing -/

namespace Draft

/-- Whether words hold all places of a draft that later ones are computed from. -/
structure Bounded (d : Draft) : Prop where
  cursor : d.cursor.Bounded
  wireEnd : d.wireEnd < 2 ^ 64

namespace Bounded

variable {d : Draft}

theorem empty : Draft.empty.Bounded := ⟨⟨by decide, by decide⟩, by decide⟩

theorem moveTo (h : d.Bounded) {cursor : Extent} (hc : cursor.Bounded) :
    { d with cursor := cursor }.Bounded := ⟨hc, h.wireEnd⟩

theorem vary (h : d.Bounded) : { d with varies := true }.Bounded := ⟨h.cursor, h.wireEnd⟩

theorem addTemplate (h : d.Bounded) (t : Template) : (d.addTemplate t).Bounded :=
  ⟨h.cursor, h.wireEnd⟩

theorem size (h : d.Bounded) : d.size.Bounded :=
  ⟨h.cursor.native, Nat.max_lt.mpr ⟨h.cursor.wire, h.wireEnd⟩⟩

theorem steady_addFieldBy (h : d.Bounded) (f : Field) :
    Steady Bounded fun m => (liftM (d.addFieldBy m f) : Placing Draft) := by
  simp only [addFieldBy, liftM_bind]
  refine (steady_advance d.cursor f.size).bind fun cursor hcursor => ?_
  refine (steady_stop f.wire).bind fun stop hstop => .pure ⟨hcursor, ?_⟩
  exact Nat.max_lt.mpr ⟨h.wireEnd, hstop⟩

theorem steady_padBy (h : d.Bounded) (alignment : Nat) :
    Steady Bounded fun m => (liftM (d.padBy m alignment) : Placing Draft) := by
  unfold padBy
  by_cases hv : d.varies = true
  · have hpad : (d.pad alignment).Bounded := by
      rw [pad, if_pos hv]
      split
      · exact h.addTemplate _
      · exact h
    simp only [hv, if_true]
    exact .pure hpad
  · simp only [if_neg hv, liftM_bind]
    exact (steady_align h.cursor alignment).bind fun cursor hcursor => .pure (h.moveTo hcursor)

end Bounded

end Draft

/-- Whether each part of a rule is steady. -/
structure ItemRule.Steady (rule : Arithmetic → ItemRule) : Prop where
  settle : WireRecord.Steady (fun _ => True) fun m => (rule m).settle
  place : ∀ name last {d : Draft}, d.Bounded →
    WireRecord.Steady Draft.Bounded fun m => (rule m).place name last d
  template : ∀ name counter last,
    WireRecord.Steady (fun _ => True) fun m => (rule m).template name counter last

namespace Element

variable {rule : Arithmetic → ItemRule} {d : Draft}

theorem steady_start (e : Element) (scope : Scope) (owner : String) (base : Nat) {cursor : Extent}
    (h : cursor.Bounded) : Steady Extent.Bounded fun m => e.start scope owner base cursor m := by
  unfold start
  refine (steady_align h e.alignment).bind fun aligned haligned => ?_
  cases e.position with
  | none => exact .pure haligned
  | some p =>
    refine .ite (fun _ => ?_) fun _ => ?_
    · exact (steady_locate base p).bind fun wire hwire => .pure ⟨haligned.native, hwire⟩
    · exact .same_bind fun _ => .pure haligned

/-- A draft stays bounded when the template of an item is added to it. -/
theorem steady_addTemplate (h : ItemRule.Steady rule) (hd : d.Bounded) (name : String)
    (counter : Option String) (last : Bool) : Steady Draft.Bounded fun m => do
      return d.addTemplate (← (rule m).template name counter last) :=
  (h.template name counter last).bind fun t _ => .pure (hd.addTemplate t)

theorem steady_placeFixed (h : ItemRule.Steady rule) (hd : d.Bounded) (e : Element)
    (scope : Scope) (owner path : String) (base n : Nat) : Steady Draft.Bounded fun m =>
      e.placeFixed scope owner path base n (rule m) d m := by
  unfold placeFixed
  refine .ite (fun _ => .throw_bind) fun _ => ?_
  refine h.settle.bind fun _ _ => ?_
  refine (e.steady_start scope owner base hd.cursor).bind fun cursor hcursor => ?_
  refine .foldlM (fun i d hd => .ite (fun _ => ?_) fun _ => ?_) _ (hd.moveTo hcursor)
  · exact steady_addTemplate h hd _ none _
  · exact h.place _ _ hd

theorem steady_placeVarying (h : ItemRule.Steady rule) (hd : d.Bounded) (e : Element)
    (owner path : String) (earlier : List String) : Steady Draft.Bounded fun m =>
      e.placeVarying owner path earlier (rule m) d := by
  unfold placeVarying
  refine .remark (h.settle.bind fun _ _ => ?_)
  cases e.repetition with
  | countedBy c =>
    refine .ite (fun _ => ?_) fun _ => .throw_bind
    exact steady_addTemplate h hd _ _ false
  | fixed n =>
    refine .ite (fun _ => .throw_bind) fun _ => ?_
    exact .foldlM (fun i d hd => steady_addTemplate h hd _ none _) _ hd

theorem steady_place (h : ItemRule.Steady rule) (hd : d.Bounded) (e : Element) (scope : Scope)
    (owner path : String) (base : Nat) (earlier : List String) : Steady Draft.Bounded fun m =>
      e.place scope owner path base earlier (rule m) d m := by
  unfold place
  refine .ite (fun _ => steady_placeVarying h hd e owner path earlier) fun _ => ?_
  cases e.repetition with
  | fixed n => exact steady_placeFixed h hd e scope owner path base n
  | countedBy c =>
    exact .same_bind fun _ => steady_placeVarying h hd.vary e owner path earlier

end Element

namespace ItemRule

theorem steady_leaf (e : Element) (scope : Scope) (owner : String) (type : Scalar)
    (table : Option EnumTable) : ItemRule.Steady fun m => leaf e scope owner type table m where
  settle := .same fun _ _ => trivial
  place name last d hd := by
    exact .same_bind fun f => hd.steady_addFieldBy f
  template _ _ _ := .same fun _ _ => trivial

theorem steady_nested (e : Element) (scope : Scope) (alignment : Nat)
    {placeStruct : Arithmetic → Scope → String → Bool → Draft → Placing Draft}
    (h : ∀ scope path last {d : Draft}, d.Bounded →
      WireRecord.Steady Draft.Bounded fun m => placeStruct m scope path last d) :
    ItemRule.Steady fun m => nested e scope alignment (placeStruct m) m where
  settle := .pure trivial
  place name last _ hd :=
    (steady_align hd.cursor alignment).bind fun _ hcursor => h scope name last (hd.moveTo hcursor)
  template _ _ last := (h _ "" last .empty).bind fun _ _ => .pure trivial

/-- A rule that computes nothing. -/
theorem steady_of_throw {rule : ItemRule} {e : Error}
    (hplace : ∀ name last d, rule.place name last d = MonadExcept.throw e) :
    ItemRule.Steady fun _ => rule where
  settle := .same fun _ _ => trivial
  place name last d _ := by
    simp only [hplace]
    exact .throw e
  template _ _ _ := .same fun _ _ => trivial

end ItemRule

mutual

/-- Placing a struct at a bounded place is steady, and ends at one. -/
theorem Shape.steady_place : ∀ (shape : Shape) (scope : Scope) (path : String) (last : Bool)
    {d : Draft}, d.Bounded → Steady Draft.Bounded fun m => shape.place scope path last d m
  | .mk name alignment members, scope, path, last, d, hd => by
      simp only [Shape.place]
      refine (steady_placeMembers members scope name path d.cursor.wire [] hd).bind fun d hd => ?_
      exact .ite (fun _ => .pure hd) fun _ => hd.steady_padBy alignment

theorem steady_placeMembers : ∀ (members : List Member) (scope : Scope) (owner path : String)
    (base : Nat) (earlier : List String) {d : Draft}, d.Bounded →
    Steady Draft.Bounded fun m => placeMembers scope owner path base earlier d members m
  | [], _, _, _, _, _, d, hd => by
      simp only [placeMembers]
      exact .pure hd
  | member :: rest, scope, owner, path, base, earlier, d, hd => by
      simp only [placeMembers]
      refine (member.steady_place scope owner path base earlier hd).bind fun d hd => ?_
      exact steady_placeMembers rest scope owner path base _ hd

theorem Member.steady_place : ∀ (member : Member) (scope : Scope) (owner path : String)
    (base : Nat) (earlier : List String) {d : Draft}, d.Bounded →
    Steady Draft.Bounded fun m => member.place scope owner path base earlier d m
  | .leaf e type table, scope, owner, path, base, earlier, d, hd => by
      simp only [Member.place]
      exact Element.steady_place (ItemRule.steady_leaf e scope owner type table) hd e scope owner
        path base earlier
  | .nested e shape, scope, owner, path, base, earlier, d, hd => by
      simp only [Member.place]
      have hrule := ItemRule.steady_nested e scope shape.instanceAlignment
        fun scope path last {_} hd => shape.steady_place scope path last hd
      exact Element.steady_place hrule hd e scope owner path base earlier
  | .cyclic e struct _, scope, owner, path, base, earlier, d, hd => by
      simp only [Member.place]
      exact Element.steady_place (ItemRule.steady_of_throw fun _ _ _ => rfl) hd e scope owner path
        base earlier
  | .unresolved e reason, scope, owner, path, base, earlier, d, hd => by
      simp only [Member.place]
      exact Element.steady_place (ItemRule.steady_of_throw fun _ _ _ => rfl) hd e scope owner path
        base earlier

end

/-! ## Expanding -/

namespace Source

theorem steady_addField (src : Source) (path : String) (start : Extent) (f : Field) :
    Steady (fun _ => True) fun m => src.addField path start f m := by
  unfold addField
  refine (f.steady_instantiateBy start _).bind fun f _ => ?_
  refine (steady_stop (f.span src.rep)).bind fun stop _ => ?_
  exact .ite (fun _ => .throw_bind) fun _ => .same fun _ _ => trivial

mutual

/-- Expanding a template from a bounded place is steady, and ends at one. -/
theorem steady_expand : ∀ (t : Template) (src : Source) (path : String) {start : Extent},
    start.Bounded → Steady Extent.Bounded fun m => src.expand path start t m
  | ⟨name, alignment, counter, size, fields, children⟩, src, path, start, h => by
      simp only [expand]
      refine (steady_align h alignment).bind fun start h => ?_
      refine .ite (fun _ => .pure h) fun _ => ?_
      refine .same_bind fun n => ?_
      refine .same_bind fun _ => ?_
      refine (Steady.foldlM (fun i position h => ?_) _ h).bind
        fun stop h => steady_align h alignment
      refine (steady_align h alignment).bind fun position _ => ?_
      refine (Steady.forM (fun f => src.steady_addField _ position f) fields).bind fun _ _ => ?_
      refine (steady_advance position size).bind fun behind h => ?_
      exact steady_expandAll children src _ h

theorem steady_expandAll : ∀ (ts : List Template) (src : Source) (path : String) {start : Extent},
    start.Bounded → Steady Extent.Bounded fun m => src.expandAll path start ts m
  | [], _, _, _, h => by
      simp only [expandAll]
      exact .pure h
  | t :: rest, src, path, start, h => by
      simp only [expandAll]
      exact (steady_expand t src path h).bind fun _ h => steady_expandAll rest src path h

end

end Source

/-! ## Layouts -/

namespace Schema

theorem steady_placeRecord (s : Schema) (d : StructDecl) :
    Steady (fun l => l.size.Bounded) fun m => s.placeRecord d m := by
  unfold placeRecord
  refine ((s.shape d).steady_place s.scope "" false .empty).bind fun draft hdraft => ?_
  refine .same_bind fun _ => ?_
  refine .same_bind fun _ => ?_
  exact .pure hdraft.size

/-- Either the checked arithmetic stops, or compiling is the same in all of them, and words
hold the size of what it yields. -/
theorem compile_stops_or_eq (s : Schema) (name : String) :
    (∃ f, s.layout name .checked = .error (.stopped f)) ∨
      (∀ m, s.compile name m = s.compile name) ∧
        ∀ l, s.layout name = .ok l → l.size.Bounded := by
  unfold layout compile
  cases s.root name with
  | error e => exact .inr ⟨fun _ => rfl, fun _ hl => by cases hl⟩
  | ok d =>
    rcases s.steady_placeRecord d { tables := [], journal := [] } with ⟨f, t, hstop⟩ | ⟨hsame, hP⟩
    · exact .inl ⟨f, congrArg Prod.fst hstop⟩
    · refine .inr ⟨fun m => by simp only [hsame m], fun l hl => ?_⟩
      exact hP l ((s.placeRecord d).run.run { tables := [], journal := [] }).2 (Prod.ext hl rfl)

/-- Whether words hold every number that is computed to compile a struct: the checked
arithmetic does not stop. -/
def Contained (s : Schema) (name : String) : Prop :=
  ∀ f, s.layout name .checked ≠ .error (.stopped f)

namespace Contained

variable {s : Schema} {name : String} {l : Layout}

theorem of_checked (h : s.layout name .checked = .ok l) : s.Contained name := fun f hf => by
  rw [h] at hf
  cases hf

theorem compile_eq (h : s.Contained name) (m : Arithmetic) : s.compile name m = s.compile name :=
  ((s.compile_stops_or_eq name).resolve_left fun ⟨f, hf⟩ => h f hf).1 m

theorem layout_eq (h : s.Contained name) (m : Arithmetic) : s.layout name m = s.layout name :=
  congrArg Prod.fst (h.compile_eq m)

theorem bounded (h : s.Contained name) (hl : s.layout name = .ok l) : l.size.Bounded :=
  ((s.compile_stops_or_eq name).resolve_left fun ⟨f, hf⟩ => h f hf).2 l hl

end Contained

end Schema

/-! ## Views -/

namespace Layout

variable {l : Layout}

theorem steady_expandTemplates (hl : l.size.Bounded) (r : Representation) (b : Bytes) :
    Steady Extent.Bounded fun m => l.expandTemplates r b m := by
  unfold expandTemplates
  refine .ite (fun _ => .pure hl) fun _ => ?_
  refine (Source.steady_expandAll l.templates _ "" hl).bind fun stop hstop => ?_
  refine .same_bind fun _ => ?_
  exact .same_bind fun _ => .pure hstop

/-- Either the checked arithmetic stops, or opening is the same in all of them, and words
hold the size of the record. -/
theorem open_stops_or_eq (hl : l.size.Bounded) (r : Representation) (b : Bytes) :
    (∃ f, View.openFull l r b .checked = .error (.stopped f)) ∨
      (∀ m, View.openJournaled l r b m = View.openJournaled l r b) ∧
        ∀ v, View.openFull l r b = .ok v → v.extent.Bounded := by
  unfold View.openFull View.openJournaled
  rcases steady_expandTemplates hl r b { fields := [], journal := [] } with
    ⟨f, t, hstop⟩ | ⟨hsame, hP⟩
  · refine .inl ⟨f, ?_⟩
    rw [hstop]
  · refine .inr ⟨fun m => by rw [hsame m], fun v hv => ?_⟩
    cases hrun : (l.expandTemplates r b).run.run { fields := [], journal := [] } with
    | mk result x =>
      rw [hrun] at hv
      cases result with
      | error e => cases hv
      | ok extent =>
        cases hv
        exact hP extent x hrun

/-- Whether words hold every number that is computed to open a record: the checked
arithmetic does not stop. -/
def Contained (l : Layout) (r : Representation) (b : Bytes) : Prop :=
  ∀ f, View.openFull l r b .checked ≠ .error (.stopped f)

namespace Contained

variable {r : Representation} {b : Bytes} {v : View}

theorem of_checked (h : View.openFull l r b .checked = .ok v) : l.Contained r b := fun f hf => by
  rw [h] at hf
  cases hf

theorem openJournaled_eq (h : l.Contained r b) (hl : l.size.Bounded) (m : Arithmetic) :
    View.openJournaled l r b m = View.openJournaled l r b :=
  ((open_stops_or_eq hl r b).resolve_left fun ⟨f, hf⟩ => h f hf).1 m

theorem openFull_eq (h : l.Contained r b) (hl : l.size.Bounded) (m : Arithmetic) :
    View.openFull l r b m = View.openFull l r b :=
  congrArg Prod.fst (h.openJournaled_eq hl m)

theorem bounded (h : l.Contained r b) (hl : l.size.Bounded) (hv : View.openFull l r b = .ok v) :
    v.extent.Bounded :=
  ((open_stops_or_eq hl r b).resolve_left fun ⟨f, hf⟩ => h f hf).2 v hv

end Contained

end Layout

end WireRecord
