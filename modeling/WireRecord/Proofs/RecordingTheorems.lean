/-
WireRecord.Proofs.RecordingTheorems — which tables are at hand where a field is made.

Placing meets the scalars of a shape one after another, those of nested structs among
them and those of fixed arrays as often as there are items: these are the `leaves` of
the shape. Each adds its table to the tables recorded so far, `Leaf.settle`, and then
looks up its constant in them. What a field holds besides its place is settled by the
leaves up to its own, so both are computed here from the leaves alone, in `settleAll`
and `holdings`.

That placing comes to the same is a statement about runs, with the ledgers before and
after them. It does not matter whether a field ends up in the fixed part or in a
template: a layout lists them in one order, `Layout.allFields`.
-/
import WireRecord.Proofs.TallyTheorems

namespace WireRecord

/-! ## The scalars of a shape -/

/-- A scalar that is laid out once. -/
structure Leaf where
  /-- The element as the schema describes it. -/
  element : Element
  /-- The type of its values. -/
  type : Scalar
  /-- The table of its enumeration, if it is of one. -/
  table : Option EnumTable
deriving DecidableEq, Repr

/-- How often an element is laid out: once for each item of a fixed array, and once for
all items that are counted. -/
def Element.copies (e : Element) : Nat :=
  match e.repetition with
  | .fixed n => n
  | .countedBy _ => 1

mutual

/-- The scalars of a shape, in the order in which they are laid out. -/
def Shape.leaves : Shape → List Leaf
  | .mk _ _ members => membersLeaves members

/-- The scalars of some members. -/
def membersLeaves : List Member → List Leaf
  | [] => []
  | m :: rest => m.leaves ++ membersLeaves rest

/-- The scalars of a member, as often as it is laid out. -/
def Member.leaves : Member → List Leaf
  | .leaf e type table => (List.replicate e.copies [⟨e, type, table⟩]).flatten
  | .nested e shape => (List.replicate e.copies shape.leaves).flatten
  | .cyclic _ _ _ | .unresolved _ _ => []

end

/-! ## Tables and constants along the leaves -/

namespace Leaf

/-- The recorded tables once a scalar is met. -/
def settle (x : Leaf) (ts : List EnumTable) : List EnumTable :=
  match x.table with
  | some t => t.recordIn ts
  | none => ts

theorem settle_settle (x : Leaf) (ts : List EnumTable) : x.settle (x.settle ts) = x.settle ts := by
  unfold settle
  cases x.table with
  | none => rfl
  | some t => exact t.recordIn_recordIn ts

/-- The constant of a scalar, given the tables recorded. -/
def constantIn? (x : Leaf) (entries : List EnumEntry) (ts : List EnumTable) : Option Value :=
  x.element.constant.bind fun token =>
    (Element.constantValue? ts entries token).map (·.convert x.type)

end Leaf

/-- The recorded tables once some scalars are met. -/
def settleAll (ts : List EnumTable) (xs : List Leaf) : List EnumTable :=
  xs.foldl (fun ts x => x.settle ts) ts

theorem settleAll_cons (ts : List EnumTable) (x : Leaf) (xs : List Leaf) :
    settleAll ts (x :: xs) = settleAll (x.settle ts) xs := rfl

theorem settleAll_append (ts : List EnumTable) (xs ys : List Leaf) :
    settleAll ts (xs ++ ys) = settleAll (settleAll ts xs) ys := List.foldl_append

/-- What a field holds besides its place: its type, its table and its constant. -/
def Field.holding (f : Field) : Scalar × Option EnumTable × Option Value :=
  (f.type, f.table, f.constant)

/-- What the fields of some scalars hold, given the tables recorded before them. -/
def holdings (entries : List EnumEntry) :
    List EnumTable → List Leaf → List (Scalar × Option EnumTable × Option Value)
  | _, [] => []
  | ts, x :: rest =>
    (x.type, x.table, x.constantIn? entries (x.settle ts)) :: holdings entries (x.settle ts) rest

section Holdings

variable {entries : List EnumEntry}

theorem holdings_append (ts : List EnumTable) (xs ys : List Leaf) :
    holdings entries ts (xs ++ ys) =
      holdings entries ts xs ++ holdings entries (settleAll ts xs) ys := by
  induction xs generalizing ts with
  | nil => rfl
  | cons x rest ih =>
    rw [List.cons_append, holdings, holdings, ih, List.cons_append]
    rfl

theorem length_holdings (ts : List EnumTable) (xs : List Leaf) :
    (holdings entries ts xs).length = xs.length := by
  induction xs generalizing ts with
  | nil => rfl
  | cons x rest ih => rw [holdings, List.length_cons, ih, List.length_cons]

/-- What one field holds is settled by the scalars up to its own. -/
theorem getElem?_holdings (ts : List EnumTable) (xs : List Leaf) (k : Nat) :
    (holdings entries ts xs)[k]? = xs[k]?.map fun x =>
      (x.type, x.table, x.constantIn? entries (settleAll ts (xs.take (k + 1)))) := by
  induction xs generalizing ts k with
  | nil => rfl
  | cons x rest ih =>
    cases k with
    | zero => rfl
    | succ k =>
      rw [holdings, List.getElem?_cons_succ, ih, List.getElem?_cons_succ, List.take_succ_cons]
      rfl

/-- A table is recorded only when a scalar of it is met. -/
theorem mem_settleAll {ts : List EnumTable} {xs : List Leaf} {t : EnumTable}
    (h : t ∈ settleAll ts xs) : t ∈ ts ∨ ∃ x ∈ xs, x.table = some t := by
  induction xs generalizing ts with
  | nil => exact .inl h
  | cons x rest ih =>
    rw [settleAll_cons] at h
    rcases ih h with hx | ⟨y, hy, hty⟩
    · unfold Leaf.settle at hx
      split at hx
      · rename_i u hu
        rcases EnumTable.mem_recordIn hx with rfl | hts
        · exact .inr ⟨x, List.mem_cons_self, hu⟩
        · exact .inl hts
      · exact .inl hx
    · exact .inr ⟨y, List.mem_cons_of_mem x hy, hty⟩

theorem subset_settleAll (ts : List EnumTable) (xs : List Leaf) : ts ⊆ settleAll ts xs := by
  induction xs generalizing ts with
  | nil => exact List.Subset.refl ts
  | cons x rest ih =>
    refine List.Subset.trans ?_ (ih (x.settle ts))
    unfold Leaf.settle
    split
    · exact EnumTable.subset_recordIn _ ts
    · exact List.Subset.refl ts

/-- Once a scalar of an enumeration is met, a table of its name is recorded. -/
theorem exists_mem_settleAll {ts : List EnumTable} {xs : List Leaf} {x : Leaf} {t : EnumTable}
    (hx : x ∈ xs) (ht : x.table = some t) : ∃ u ∈ settleAll ts xs, u.name = t.name := by
  obtain ⟨before, after, rfl⟩ := List.append_of_mem hx
  obtain ⟨u, hu, hname⟩ := List.any_eq_true.mp (t.any_recordIn (settleAll ts before))
  refine ⟨u, ?_, by simpa using hname⟩
  rw [settleAll_append, settleAll_cons]
  refine subset_settleAll _ after ?_
  rw [Leaf.settle, ht]
  exact hu

end Holdings

/-! ## What a draft lists -/

/-- All fields of a layout in one order: those of the fixed part, then those of each
template, followed by those of the templates inside it. -/
def Layout.allFields (l : Layout) : List Field :=
  l.fields ++ (templateParts l.templates).flatMap (·.fields)

namespace Draft

/-- All fields of a draft in the order of those of a layout. -/
def allFields (d : Draft) : List Field :=
  d.fields ++ (templateParts d.templates).flatMap (·.fields)

/-- Whether the templates of a draft are behind its fixed part: there are none as long
as that lasts. -/
def Orderly (d : Draft) : Prop := d.varies = false → d.templates = []

theorem allFields_addField {d : Draft} (h : d.Orderly) (hd : d.varies = false) (f : Field) :
    (d.addField f).allFields = d.allFields ++ [f] := by
  simp [allFields, addField, h hd, templateParts]

theorem allFields_addTemplate (d : Draft) (t : Template) : (d.addTemplate t).allFields =
    d.allFields ++ (t.fields ++ (templateParts t.children).flatMap (·.fields)) := by
  simp [allFields, addTemplate, templateParts_append, templateParts, Template.parts_eq t]

theorem allFields_pad (d : Draft) (alignment : Nat) : (d.pad alignment).allFields = d.allFields := by
  unfold pad
  split
  · split
    · rw [allFields_addTemplate]
      simp [Template.marker, templateParts]
    · rfl
  · rfl

theorem Orderly.pad {d : Draft} (h : d.Orderly) (alignment : Nat) : (d.pad alignment).Orderly := by
  unfold Draft.pad
  split
  · rename_i hd
    split
    · exact fun hv => absurd hd (by simp [show d.varies = false from hv])
    · exact h
  · exact h

end Draft

/-- What laying out some scalars does, with the tables recorded before and after: the
fields that are added hold what these settle. -/
structure Laid (entries : List EnumEntry) (xs : List Leaf) (ts : List EnumTable) (d d' : Draft)
    (us : List EnumTable) : Prop where
  tables_eq : us = settleAll ts xs
  orderly : d.Orderly → d'.Orderly
  holdings_eq : d.Orderly → d'.allFields.map Field.holding =
    d.allFields.map Field.holding ++ holdings entries ts xs

namespace Laid

variable {entries : List EnumEntry} {xs ys : List Leaf} {ts us vs : List EnumTable}
  {d mid d' : Draft}

theorem refl (d : Draft) (ts : List EnumTable) : Laid entries [] ts d d ts :=
  ⟨rfl, id, fun _ => (List.append_nil _).symm⟩

theorem trans (h : Laid entries xs ts d mid us) (h' : Laid entries ys us mid d' vs) :
    Laid entries (xs ++ ys) ts d d' vs where
  tables_eq := by rw [h'.tables_eq, h.tables_eq, settleAll_append]
  orderly := fun hd => h'.orderly (h.orderly hd)
  holdings_eq := fun hd => by
    rw [h'.holdings_eq (h.orderly hd), h.holdings_eq hd, holdings_append, h.tables_eq,
      List.append_assoc]

/-- Only the fields and templates matter of the draft that laying out starts from. -/
theorem of_start {start : Draft} (h : Laid entries xs ts start d' us)
    (hfields : start.allFields = d.allFields) (horderly : d.Orderly → start.Orderly) :
    Laid entries xs ts d d' us where
  tables_eq := h.tables_eq
  orderly := fun hd => h.orderly (horderly hd)
  holdings_eq := fun hd => by rw [h.holdings_eq (horderly hd), hfields]

/-- A scalar is a field of its own in the fixed part. -/
theorem addField {f : Field} (hd : d.varies = false) (htables : us = settleAll ts xs)
    (hf : [f.holding] = holdings entries ts xs) : Laid entries xs ts d (d.addField f) us where
  tables_eq := htables
  orderly := fun h => h
  holdings_eq := fun h => by
    rw [Draft.allFields_addField h hd, List.map_append, ← hf, List.map_singleton]

theorem pad (h : Laid entries xs ts d mid us) (alignment : Nat) :
    Laid entries xs ts d (mid.pad alignment) us where
  tables_eq := h.tables_eq
  orderly := fun hd => (h.orderly hd).pad alignment
  holdings_eq := fun hd => by rw [Draft.allFields_pad, h.holdings_eq hd]

/-- A template is added behind the fixed part. -/
theorem addTemplate {t : Template} (hd : d.varies = true) (htables : us = settleAll ts xs)
    (hfields : (t.fields ++ (templateParts t.children).flatMap (·.fields)).map Field.holding =
      holdings entries ts xs) : Laid entries xs ts d (d.addTemplate t) us where
  tables_eq := htables
  orderly := fun _ hv => absurd hd (by simp [show d.varies = false from hv])
  holdings_eq := fun _ => by rw [Draft.allFields_addTemplate, List.map_append, hfields]

/-- A loop lays out as often what each round does. -/
theorem foldlM {g : Draft → Nat → Placing Draft} {inv : Draft → List EnumTable → Prop}
    (hg : ∀ d i l d' l', inv d l.tables → Ends (g d i) l d' l' →
      Laid entries xs l.tables d d' l'.tables ∧ inv d' l'.tables)
    (is : List Nat) (d d' : Draft) (l l' : Ledger) (hinv : inv d l.tables)
    (h : Ends (is.foldlM g d) l d' l') :
    Laid entries (List.replicate is.length xs).flatten l.tables d d' l'.tables := by
  induction is generalizing d l with
  | nil =>
    rw [List.foldlM_nil] at h
    obtain ⟨rfl, rfl⟩ := Ends.pure_iff.mp h
    exact .refl d' l'.tables
  | cons i rest ih =>
    rw [List.foldlM_cons] at h
    obtain ⟨mid, m, h1, h2⟩ := Ends.bind_iff.mp h
    obtain ⟨hlaid, hnext⟩ := hg d i l mid m hinv h1
    exact hlaid.trans (ih mid m hnext h2)

end Laid

/-! ## Steps of placing -/

theorem Placing.note_ends {e : Event} {l l' : Ledger} {u : Unit}
    (h : Ends (Placing.note e) l u l') : l'.tables = l.tables := by
  rw [Ends.modify_iff.mp h]

/-- A remark made on the way does not change the tables. -/
theorem Placing.remark_ends {α : Type} {c : Prop} [Decidable c] {ev : Event} {y : Placing α}
    {a : α} {l l' : Ledger}
    (h : Ends (if c then Placing.note ev >>= fun _ => y else y) l a l') :
    ∃ m : Ledger, m.tables = l.tables ∧ Ends y m a l' := by
  split at h
  · obtain ⟨_, m, hnote, hy⟩ := Ends.bind_iff.mp h
    exact ⟨m, Placing.note_ends hnote, hy⟩
  · exact ⟨l, rfl, h⟩

theorem Placing.record_ends {t : EnumTable} {l l' : Ledger} {u : Unit}
    (h : Ends (Placing.record t) l u l') : l'.tables = t.recordIn l.tables := by
  obtain ⟨journal, hrun⟩ := Placing.run_record t l
  rw [(Prod.mk.inj (h.symm.trans hrun)).2]

namespace Element

variable {e : Element} {scope : Scope} {owner path : String}

theorem resolveConstant_ends {type : Scalar} (table : Option EnumTable) {c : Option Value}
    {l l' : Ledger} (h : Ends (e.resolveConstant scope owner type) l c l') :
    c = Leaf.constantIn? ⟨e, type, table⟩ scope.entries l.tables ∧ l' = l := by
  unfold resolveConstant at h
  unfold Leaf.constantIn?
  cases hc : e.constant with
  | none =>
    simp only [hc] at h
    exact Ends.pure_iff.mp h
  | some token =>
    simp only [hc] at h
    obtain ⟨_, m, hget, hrest⟩ := Ends.bind_iff.mp h
    obtain ⟨rfl, rfl⟩ := Ends.get_iff.mp hget
    cases hv : constantValue? m.tables scope.entries token with
    | some v =>
      rw [hv] at hrest
      obtain ⟨rfl, rfl⟩ := Ends.pure_iff.mp hrest
      simp [hv]
    | none =>
      rw [hv] at hrest
      exact (Ends.not_throw hrest).elim

theorem field_ends {name : String} {type : Scalar} {table : Option EnumTable} {start : Extent}
    {f : Field} {l l' : Ledger} (h : Ends (e.field scope owner name type table start) l f l') :
    f.holding = (type, table, Leaf.constantIn? ⟨e, type, table⟩ scope.entries l.tables) ∧
      l' = l := by
  unfold field at h
  by_cases hw : 1 ≤ e.width.getD type.bits ∧ e.width.getD type.bits ≤ type.bits
  · simp only [hw, and_self, if_true] at h
    obtain ⟨c, m, hc, hpure⟩ := Ends.bind_iff.mp h
    obtain ⟨rfl, rfl⟩ := resolveConstant_ends table hc
    obtain ⟨rfl, rfl⟩ := Ends.pure_iff.mp hpure
    exact ⟨rfl, rfl⟩
  · simp only [hw, if_false] at h
    exact (Ends.not_throw_bind h).elim

theorem start_ends {base : Nat} {cursor aligned : Extent} {l l' : Ledger}
    (h : Ends (e.start scope owner base cursor) l aligned l') : l'.tables = l.tables := by
  rw [start_eq] at h
  split at h
  · rw [(Ends.pure_iff.mp h).2]
  · split at h
    · rw [(Ends.pure_iff.mp h).2]
    · obtain ⟨_, m, hnote, h⟩ := Ends.bind_iff.mp h
      rw [(Ends.pure_iff.mp h).2, Placing.note_ends hnote]

end Element

/-- What the parts of a rule do to the tables, and what an item lays out once the type
is settled. -/
structure ItemRule.Lays (rule : ItemRule) (entries : List EnumEntry)
    (settle : List EnumTable → List EnumTable) (xs : List Leaf) : Prop where
  settle_ends : ∀ {l l' : Ledger} {u : Unit}, Ends rule.settle l u l' →
    l'.tables = settle l.tables
  settle_settle : ∀ ts, settle (settle ts) = settle ts
  settle_items : ∀ ts, settle ts = ts → settle (settleAll ts xs) = settleAll ts xs
  settleAll_settle : ∀ ts, settleAll (settle ts) xs = settleAll ts xs
  holdings_settle : ∀ ts, holdings entries (settle ts) xs = holdings entries ts xs
  place : ∀ {name : String} {last : Bool} {d d' : Draft} {l l' : Ledger},
    settle l.tables = l.tables → d.varies = false → Ends (rule.place name last d) l d' l' →
    Laid entries xs l.tables d d' l'.tables
  template : ∀ {name : String} {counter : Option String} {last : Bool} {t : Template}
    {l l' : Ledger}, settle l.tables = l.tables → Ends (rule.template name counter last) l t l' →
    l'.tables = settleAll l.tables xs ∧
      (t.fields ++ (templateParts t.children).flatMap (·.fields)).map Field.holding =
        holdings entries l.tables xs

section Elements

variable {e : Element} {scope : Scope} {owner path : String} {base : Nat}
  {earlier : List String} {rule : ItemRule} {entries : List EnumEntry}
  {settle : List EnumTable → List EnumTable} {xs : List Leaf} {d d' : Draft} {l l' : Ledger}

/-- What at least one item settles is settled before it. -/
theorem Laid.of_settle (hrule : rule.Lays entries settle xs) {n : Nat} (hn : n ≠ 0)
    {ts us : List EnumTable}
    (h : Laid entries (List.replicate n xs).flatten (settle ts) d d' us) :
    Laid entries (List.replicate n xs).flatten ts d d' us := by
  obtain ⟨n, rfl⟩ := Nat.exists_eq_succ_of_ne_zero hn
  rw [List.replicate_succ, List.flatten_cons] at h ⊢
  refine ⟨?_, h.orderly, fun hd => ?_⟩
  · rw [h.tables_eq, settleAll_append, settleAll_append, hrule.settleAll_settle]
  · rw [h.holdings_eq hd, holdings_append, holdings_append, hrule.settleAll_settle,
      hrule.holdings_settle]

theorem ItemRule.Lays.addTemplate (hrule : rule.Lays entries settle xs) {name : String}
    {counter : Option String} {last : Bool} (hd : d.varies = true)
    (hsettled : settle l.tables = l.tables)
    (h : Ends (rule.template name counter last >>= fun t => pure (d.addTemplate t)) l d' l') :
    Laid entries xs l.tables d d' l'.tables ∧ d'.varies = true ∧
      settle l'.tables = l'.tables := by
  obtain ⟨t, m, ht, h⟩ := Ends.bind_iff.mp h
  obtain ⟨rfl, rfl⟩ := Ends.pure_iff.mp h
  obtain ⟨htables, hfields⟩ := hrule.template hsettled ht
  refine ⟨.addTemplate hd htables hfields, hd, ?_⟩
  rw [htables]
  exact hrule.settle_items _ hsettled

theorem Element.placeFixed_ends (hrule : rule.Lays entries settle xs) {n : Nat}
    (h : Ends (e.placeFixed scope owner path base n rule d) l d' l') :
    Laid entries (List.replicate n xs).flatten l.tables d d' l'.tables := by
  unfold placeFixed at h
  split at h
  · exact (Ends.not_throw_bind h).elim
  · rename_i hn
    obtain ⟨_, m, hsettle, h⟩ := Ends.bind_iff.mp h
    obtain ⟨cursor, m', hstart, h⟩ := Ends.bind_iff.mp h
    have htables : m'.tables = settle l.tables := by
      rw [start_ends hstart, hrule.settle_ends hsettle]
    have hitems := @Laid.foldlM entries xs _ (fun _ ts => settle ts = ts)
      (fun d i m d' m' hinv hi => ?_) (List.range n) _ d' m' l'
      (by rw [htables, hrule.settle_settle]) h
    · rw [List.length_range, htables] at hitems
      exact (Laid.of_settle hrule hn hitems).of_start rfl id
    · split at hi
      · rename_i hd
        obtain ⟨hlaid, -, hsettled⟩ := hrule.addTemplate hd hinv hi
        exact ⟨hlaid, hsettled⟩
      · rename_i hd
        have hlaid := hrule.place hinv (by simpa using hd) hi
        refine ⟨hlaid, ?_⟩
        rw [hlaid.tables_eq]
        exact hrule.settle_items _ hinv

theorem Element.placeVarying_ends (hrule : rule.Lays entries settle xs) (hd : d.varies = true)
    (h : Ends (e.placeVarying owner path earlier rule d) l d' l') :
    Laid entries (List.replicate e.copies xs).flatten l.tables d d' l'.tables := by
  unfold placeVarying at h
  obtain ⟨m, hm, h⟩ := Placing.remark_ends h
  obtain ⟨_, m', hsettle, h⟩ := Ends.bind_iff.mp h
  have htables : m'.tables = settle l.tables := by rw [hrule.settle_ends hsettle, hm]
  have hsettled : settle m'.tables = m'.tables := by rw [htables, hrule.settle_settle]
  unfold copies
  cases hr : e.repetition with
  | countedBy c =>
    simp only [hr] at h
    by_cases hc : c ≠ "" ∧ c ∈ earlier
    · rw [if_pos hc] at h
      have hlaid := (hrule.addTemplate hd hsettled h).1
      rw [htables] at hlaid
      exact Laid.of_settle hrule Nat.one_ne_zero (by simpa using hlaid)
    · rw [if_neg hc] at h
      exact (Ends.not_throw_bind h).elim
  | fixed n =>
    simp only [hr] at h
    by_cases hn : n = 0
    · simp only [hn, if_true] at h
      exact (Ends.not_throw_bind h).elim
    · simp only [hn, if_false] at h
      have hitems := @Laid.foldlM entries xs _ (fun d ts => d.varies = true ∧ settle ts = ts)
        (fun d i m d' m' hinv hi => hrule.addTemplate hinv.1 hinv.2 hi)
        (List.range n) d d' m' l' ⟨hd, hsettled⟩ h
      rw [List.length_range, htables] at hitems
      exact Laid.of_settle hrule hn hitems

theorem Element.place_ends (hrule : rule.Lays entries settle xs)
    (h : Ends (e.place scope owner path base earlier rule d) l d' l') :
    Laid entries (List.replicate e.copies xs).flatten l.tables d d' l'.tables := by
  unfold place at h
  by_cases hd : d.varies = true
  · rw [if_pos hd] at h
    exact placeVarying_ends hrule hd h
  · rw [if_neg hd] at h
    cases hr : e.repetition with
    | fixed n =>
      simp only [hr] at h
      have hcopies : e.copies = n := by rw [copies, hr]
      rw [hcopies]
      exact placeFixed_ends hrule h
    | countedBy c =>
      simp only [hr] at h
      obtain ⟨_, m, hnote, h⟩ := Ends.bind_iff.mp h
      have hlaid := placeVarying_ends hrule (d := { d with varies := true }) rfl h
      rw [Placing.note_ends hnote] at hlaid
      exact hlaid.of_start rfl fun _ hv => by cases hv

end Elements

/-! ## Shapes -/

namespace ItemRule

variable {e : Element} {scope : Scope}

theorem lays_leaf (owner : String) (type : Scalar) (table : Option EnumTable) :
    (leaf e scope owner type table).Lays scope.entries (Leaf.settle ⟨e, type, table⟩)
      [⟨e, type, table⟩] where
  settle_ends h := by
    cases table with
    | none => rw [(Ends.pure_iff.mp h).2, Leaf.settle]
    | some t => exact Placing.record_ends h
  settle_settle := Leaf.settle_settle _
  settle_items _ _ := Leaf.settle_settle _ _
  settleAll_settle _ := Leaf.settle_settle _ _
  holdings_settle ts := by rw [holdings, holdings, holdings, holdings, Leaf.settle_settle]
  place hsettled hd h := by
    obtain ⟨f, m, hf, hpure⟩ := Ends.bind_iff.mp h
    obtain ⟨rfl, rfl⟩ := Ends.pure_iff.mp hpure
    obtain ⟨hholding, rfl⟩ := Element.field_ends hf
    refine .addField hd hsettled.symm ?_
    rw [hholding, holdings, holdings, hsettled]
  template hsettled h := by
    obtain ⟨f, m, hf, hpure⟩ := Ends.bind_iff.mp h
    obtain ⟨rfl, rfl⟩ := Ends.pure_iff.mp hpure
    obtain ⟨hholding, rfl⟩ := Element.field_ends hf
    refine ⟨hsettled.symm, ?_⟩
    rw [holdings, holdings, hsettled, ← hholding]
    rfl

theorem lays_nested {alignment : Nat} {xs : List Leaf}
    {placeStruct : Scope → String → Bool → Draft → Placing Draft}
    (h : ∀ positioned path last d l d' l',
      Ends (placeStruct { scope with positioned := positioned } path last d) l d' l' →
      Laid scope.entries xs l.tables d d' l'.tables) :
    (nested e scope alignment placeStruct).Lays scope.entries id xs where
  settle_ends hs := by rw [(Ends.pure_iff.mp hs).2, id]
  settle_settle _ := rfl
  settle_items _ _ := rfl
  settleAll_settle _ := rfl
  holdings_settle _ := rfl
  place _ _ hp := by
    rw [nested_place] at hp
    exact (h scope.positioned _ _ _ _ _ _ hp).of_start rfl id
  template _ ht := by
    obtain ⟨d, m, hd, hpure⟩ := Ends.bind_iff.mp ht
    obtain ⟨rfl, rfl⟩ := Ends.pure_iff.mp hpure
    have hlaid := h false _ _ _ _ _ _ hd
    exact ⟨hlaid.tables_eq, hlaid.holdings_eq fun _ => rfl⟩

end ItemRule

mutual

/-- Placing a shape lays out its scalars, wherever it is placed. -/
theorem Shape.place_ends : ∀ (shape : Shape) {scope : Scope} {path : String} {last : Bool}
    {d d' : Draft} {l l' : Ledger}, Ends (shape.place scope path last d) l d' l' →
    Laid scope.entries shape.leaves l.tables d d' l'.tables
  | .mk name alignment members, scope, path, last, d, d', l, l', h => by
      rw [Shape.place_mk] at h
      obtain ⟨mid, m, hmid, hpure⟩ := Ends.bind_iff.mp h
      obtain ⟨rfl, rfl⟩ := Ends.pure_iff.mp hpure
      have hlaid := placeMembers_ends members hmid
      rw [Shape.leaves]
      split
      · exact hlaid
      · exact hlaid.pad alignment

theorem placeMembers_ends : ∀ (members : List Member) {scope : Scope} {owner path : String}
    {base : Nat} {earlier : List String} {d d' : Draft} {l l' : Ledger},
    Ends (placeMembers scope owner path base earlier d members) l d' l' →
    Laid scope.entries (membersLeaves members) l.tables d d' l'.tables
  | [], scope, _, _, _, _, d, d', l, l', h => by
      rw [placeMembers] at h
      obtain ⟨rfl, rfl⟩ := Ends.pure_iff.mp h
      exact .refl d' l'.tables
  | m :: rest, _, _, _, _, _, _, _, _, _, h => by
      rw [placeMembers] at h
      obtain ⟨mid, u, hm, hrest⟩ := Ends.bind_iff.mp h
      exact (m.place_ends hm).trans (placeMembers_ends rest hrest)

theorem Member.place_ends : ∀ (m : Member) {scope : Scope} {owner path : String} {base : Nat}
    {earlier : List String} {d d' : Draft} {l l' : Ledger},
    Ends (m.place scope owner path base earlier d) l d' l' →
    Laid scope.entries m.leaves l.tables d d' l'.tables
  | .leaf e type table, scope, owner, _, _, _, _, _, _, _, h => by
      rw [Member.place] at h
      exact Element.place_ends (ItemRule.lays_leaf owner type table) h
  | .nested e shape, scope, _, _, _, _, _, _, _, _, h => by
      rw [Member.place] at h
      have hshape : ∀ positioned path last d l d' l',
          Ends (shape.place { scope with positioned := positioned } path last d) l d' l' →
          Laid scope.entries shape.leaves l.tables d d' l'.tables :=
        fun positioned _ _ _ _ _ _ hplace =>
          @Shape.place_ends shape { scope with positioned := positioned } _ _ _ _ _ _ hplace
      exact Element.place_ends (ItemRule.lays_nested hshape) h
  | .cyclic _ _ _, _, _, _, _, _, _, _, _, _, h => (Member.resolved_of_yields ⟨_, _, h⟩).elim
  | .unresolved _ _, _, _, _, _, _, _, _, _, _, h => (Member.resolved_of_yields ⟨_, _, h⟩).elim

end

/-! ## Layouts -/

/-- Whether the scalars among some members have a property. -/
def OfLeaves (p : Leaf → Prop) (members : List Member) : Prop :=
  ∀ e type table, Member.leaf e type table ∈ members → p ⟨e, type, table⟩

mutual

/-- What holds of the scalars among all members holds of the leaves. -/
theorem Shape.forall_mem_leaves {p : Leaf → Prop} : ∀ {shape : Shape},
    shape.Everywhere (OfLeaves p) → ∀ x ∈ shape.leaves, p x
  | .mk _ _ _, h, x, hx => forall_mem_membersLeaves h.1 h.2 x hx

theorem forall_mem_membersLeaves {p : Leaf → Prop} : ∀ {members : List Member},
    OfLeaves p members → membersEverywhere (OfLeaves p) members → ∀ x ∈ membersLeaves members, p x
  | [], _, _, _, hx => (List.not_mem_nil hx).elim
  | m :: _, h, hin, x, hx => by
      rcases List.mem_append.mp hx with hx | hx
      · exact m.forall_mem_leaves (fun e type table hm => h e type table (hm ▸ List.mem_cons_self))
          hin.1 x hx
      · exact forall_mem_membersLeaves
          (fun e type table hm => h e type table (List.mem_cons_of_mem m hm)) hin.2 x hx

theorem Member.forall_mem_leaves {p : Leaf → Prop} : ∀ (m : Member),
    (∀ e type table, Member.leaf e type table = m → p ⟨e, type, table⟩) →
    m.Everywhere (OfLeaves p) → ∀ x ∈ m.leaves, p x
  | .leaf e type table, h, _, x, hx => by
      obtain ⟨xs, hxs, hx⟩ := List.mem_flatten.mp hx
      rw [(List.mem_replicate.mp hxs).2, List.mem_singleton] at hx
      subst hx
      exact h e type table rfl
  | .nested e shape, _, hin, x, hx => by
      obtain ⟨xs, hxs, hx⟩ := List.mem_flatten.mp hx
      rw [(List.mem_replicate.mp hxs).2] at hx
      exact shape.forall_mem_leaves hin x hx
  | .cyclic _ _ _, _, _, _, hx | .unresolved _ _, _, _, _, hx => (List.not_mem_nil hx).elim

end

/-- A layout records the tables of the scalars of its struct, and its fields hold what
these settle. -/
theorem Schema.holdings_of_layout {s : Schema} {name : String} {d : StructDecl} {l : Layout}
    (hd : s.root name = .ok d) (hl : s.layout name = .ok l) :
    l.allFields.map Field.holding = holdings s.entries [] (s.shape d).leaves ∧
      l.tables = settleAll [] (s.shape d).leaves := by
  obtain ⟨draft, ledger, hplaced, hfields, htemplates, htables, -⟩ := layout_ends hd hl
  have hlaid := (s.shape d).place_ends hplaced
  refine ⟨?_, by rw [htables, hlaid.tables_eq]⟩
  rw [Layout.allFields, hfields, htemplates]
  exact hlaid.holdings_eq fun _ => rfl

/-- The field of a scalar has its type and its table, and the constant that the scalars up
to it settle. -/
theorem Schema.field_of_leaf {s : Schema} {name : String} {d : StructDecl} {l : Layout}
    (hd : s.root name = .ok d) (hl : s.layout name = .ok l) {k : Nat} {x : Leaf}
    (hx : (s.shape d).leaves[k]? = some x) :
    ∃ f, l.allFields[k]? = some f ∧ f.type = x.type ∧ f.table = x.table ∧ f.constant =
      x.constantIn? s.entries (settleAll [] ((s.shape d).leaves.take (k + 1))) := by
  have hfield : (l.allFields[k]?).map Field.holding = some (x.type, x.table,
      x.constantIn? s.entries (settleAll [] ((s.shape d).leaves.take (k + 1)))) := by
    rw [← List.getElem?_map, (holdings_of_layout hd hl).1, getElem?_holdings, hx]
    rfl
  obtain ⟨f, hf, hholding⟩ := Option.map_eq_some_iff.mp hfield
  obtain ⟨htype, hrest⟩ := Prod.mk.inj hholding
  obtain ⟨htable, hconstant⟩ := Prod.mk.inj hrest
  exact ⟨f, hf, htype, htable, hconstant⟩

/-- A layout has a field for each scalar of its struct. -/
theorem Schema.length_allFields {s : Schema} {name : String} {d : StructDecl} {l : Layout}
    (hd : s.root name = .ok d) (hl : s.layout name = .ok l) :
    l.allFields.length = (s.shape d).leaves.length := by
  simpa [length_holdings] using congrArg List.length (holdings_of_layout hd hl).1

/-- Every field of a layout is that of a scalar. -/
theorem Schema.exists_leaf_of_mem_allFields {s : Schema} {name : String} {d : StructDecl}
    {l : Layout} (hd : s.root name = .ok d) (hl : s.layout name = .ok l) {f : Field}
    (hf : f ∈ l.allFields) :
    ∃ (k : Nat) (x : Leaf), (s.shape d).leaves[k]? = some x ∧ f.type = x.type ∧
      f.table = x.table ∧ f.constant =
        x.constantIn? s.entries (settleAll [] ((s.shape d).leaves.take (k + 1))) := by
  obtain ⟨k, hk⟩ := List.mem_iff_getElem?.mp hf
  have hleaf : k < (s.shape d).leaves.length := by
    rw [← length_allFields hd hl]
    exact (List.getElem?_eq_some_iff.mp hk).1
  have hx := List.getElem?_eq_getElem hleaf
  obtain ⟨g, hg, hholds⟩ := field_of_leaf hd hl hx
  obtain rfl : f = g := Option.some.inj (hk.symm.trans hg)
  exact ⟨k, _, hx, hholds⟩

end WireRecord
