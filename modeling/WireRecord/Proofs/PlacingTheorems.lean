/-
WireRecord.Proofs.PlacingTheorems — what placing an element can do.

Placing runs in a monad, refuses what cannot be laid out and keeps a journal.
What it does to a draft is said here once, without any of that. An element
either puts its items into the draft one after another, `Items`, or adds one
template for all of them: these are the two cases of `Element.Placed`. A leaf
adds the field that `Element.FieldAt` describes, a struct is placed in turn, and
the members that cannot be laid out are never placed. The tables recorded on the
way are a list of their own, `EnumTable.recordIn`, which no place depends on.

Every property of layouts is an induction over shapes with these cases.
-/
import WireRecord.Layout.Compile
import WireRecord.Proofs.Runs
import WireRecord.Proofs.ShapeTheorems

namespace WireRecord

/-! ## Recorded tables -/

namespace EnumTable

/-- The recorded tables with one more, unless there is one of its name. -/
def recordIn (t : EnumTable) (ts : List EnumTable) : List EnumTable :=
  if ts.any (·.name == t.name) then ts
  else ts.takeWhile (·.name < t.name) ++ t :: ts.dropWhile (·.name < t.name)

theorem any_recordIn (t : EnumTable) (ts : List EnumTable) :
    (t.recordIn ts).any (·.name == t.name) = true := by
  unfold recordIn
  split
  · assumption
  · simp

/-- Recording twice is recording once. -/
theorem recordIn_recordIn (t : EnumTable) (ts : List EnumTable) :
    t.recordIn (t.recordIn ts) = t.recordIn ts := by
  rw [recordIn, if_pos (t.any_recordIn ts)]

theorem mem_recordIn {t u : EnumTable} {ts : List EnumTable} (h : u ∈ t.recordIn ts) :
    u = t ∨ u ∈ ts := by
  unfold recordIn at h
  split at h
  · exact .inr h
  · rcases List.mem_append.mp h with h | h
    · exact .inr ((List.takeWhile_prefix _).subset h)
    · rcases List.mem_cons.mp h with rfl | h
      · exact .inl rfl
      · exact .inr ((List.dropWhile_suffix _).subset h)

theorem subset_recordIn (t : EnumTable) (ts : List EnumTable) : ts ⊆ t.recordIn ts := by
  intro u hu
  unfold recordIn
  split
  · exact hu
  · rw [← List.takeWhile_append_dropWhile (p := fun x => decide (x.name < t.name)) (l := ts)] at hu
    rcases List.mem_append.mp hu with hu | hu
    · exact List.mem_append_left _ hu
    · exact List.mem_append_right _ (List.mem_cons_of_mem _ hu)

end EnumTable

/-- Recording a table is never refused. -/
theorem Placing.run_record (t : EnumTable) (l : Ledger) : ∃ journal,
    (Placing.record t).run.run l = (.ok (), { tables := t.recordIn l.tables, journal := journal }) := by
  unfold Placing.record EnumTable.recordIn
  simp only [run_run_bind, show (MonadState.get : Placing Ledger).run.run l = (.ok l, l) from rfl]
  by_cases hmet : l.tables.any (·.name == t.name) = true
  · simp only [hmet, if_true]
    exact ⟨l.journal, rfl⟩
  · simp only [hmet]
    exact ⟨_, rfl⟩

/-! ## Fields -/

namespace Element

/-- Whether a field is the one of a scalar element at a place. -/
structure FieldAt (e : Element) (type : Scalar) (table : Option EnumTable) (name : String)
    (start : Extent) (f : Field) : Prop where
  name_eq : f.name = name
  type_eq : f.type = type
  table_eq : f.table = table
  native_eq : f.native = ⟨start.native, type.bits⟩
  wire_eq : f.wire = ⟨start.wire, e.width.getD type.bits⟩
  order_eq : f.order = e.order
  width_pos : 0 < e.width.getD type.bits
  width_le : e.width.getD type.bits ≤ type.bits

theorem field_yields {e : Element} {scope : Scope} {owner name : String} {type : Scalar}
    {table : Option EnumTable} {start : Extent} {f : Field}
    (h : Yields (e.field scope owner name type table start) f) :
    e.FieldAt type table name start f := by
  unfold field at h
  by_cases hw : 1 ≤ e.width.getD type.bits ∧ e.width.getD type.bits ≤ type.bits
  · simp only [hw, and_self, if_true] at h
    obtain ⟨_, -, rfl⟩ := Yields.of_map h
    exact ⟨rfl, rfl, rfl, rfl, rfl, rfl, hw.1, hw.2⟩
  · simp only [hw, if_false] at h
    exact (Yields.not_throw_bind h).elim

end Element

/-! ## Items -/

/-- What one item of a fixed array does to a draft: it is placed, or it becomes
a template once the variable part has begun. -/
def ItemRule.Adds (rule : ItemRule) (name : String) (last : Bool) (d d' : Draft) : Prop :=
  if d.varies then ∃ t, Yields (rule.template name none last) t ∧ d' = d.addTemplate t
  else Yields (rule.place name last d) d'

/-- What items do one after another. -/
inductive Items (rule : ItemRule) : List (String × Bool) → Draft → Draft → Prop where
  | nil (d : Draft) : Items rule [] d d
  | cons {name : String} {last : Bool} {rest : List (String × Bool)} {d mid d' : Draft} :
    rule.Adds name last d mid → Items rule rest mid d' → Items rule ((name, last) :: rest) d d'

namespace Element

/-- The items of a fixed array of `n`, each with whether it is the last one. -/
def fixedItems (e : Element) (path : String) (n : Nat) : List (String × Bool) :=
  (List.range n).map fun i => (Path.itemOf (Path.join path e.name) i n, i + 1 == n)

/-- The draft that the first item of a fixed array finds: in the fixed part, the
cursor was aligned, and only a wire position moves it on the wire. -/
inductive Starts (e : Element) (scope : Scope) (d : Draft) : Draft → Prop where
  | varying : d.varies = true → Starts e scope d d
  | aligned : d.varies = false → Starts e scope d { d with cursor := d.cursor.align e.alignment }
  | positioned (wire : Nat) : d.varies = false → scope.positioned = true → e.position ≠ none →
    Starts e scope d { d with cursor := { d.cursor.align e.alignment with wire := wire } }

/-- What placing an element does to a draft. -/
inductive Placed (e : Element) (scope : Scope) (path : String) (earlier : List String)
    (rule : ItemRule) (d d' : Draft) : Prop where
  | fixed {n : Nat} {start : Draft} (repetition : e.repetition = .fixed n) (pos : 0 < n)
    (starts : e.Starts scope d start) (items : Items rule (e.fixedItems path n) start d')
  | counted {c : String} {t : Template} (repetition : e.repetition = .countedBy c)
    (mem : c ∈ earlier)
    (template : Yields
      (rule.template (Path.join path e.name) (some (Path.join path c)) false) t)
    (eq : d' = { d with varies := true }.addTemplate t)

/-- An element starts on its alignment, and on the wire at its position where that is
heeded. -/
theorem start_eq (e : Element) (scope : Scope) (owner : String) (base : Nat) (cursor : Extent) :
    e.start scope owner base cursor = match e.position with
      | none => pure (cursor.align e.alignment)
      | some p =>
        if scope.positioned then pure { cursor.align e.alignment with wire := base + p.bits }
        else Placing.note (.positionIgnored owner e.name) >>= fun _ =>
          pure (cursor.align e.alignment) := by
  unfold start
  rw [Arithmetic.exact_align]
  cases e.position with
  | none => rfl
  | some p =>
    dsimp only
    rw [Arithmetic.exact_locate]
    rfl

theorem start_yields {e : Element} {scope : Scope} {owner : String} {base : Nat} {d : Draft}
    {cursor : Extent} (hd : d.varies = false)
    (h : Yields (e.start scope owner base d.cursor) cursor) :
    e.Starts scope d { d with cursor := cursor } := by
  rw [start_eq] at h
  cases hp : e.position with
  | none =>
    simp only [hp] at h
    obtain rfl := Yields.of_pure h
    exact .aligned hd
  | some p =>
    simp only [hp] at h
    by_cases hs : scope.positioned = true
    · simp only [hs, if_true] at h
      obtain rfl := Yields.of_pure h
      exact .positioned _ hd hs (by simp [hp])
    · simp only [hs] at h
      obtain ⟨_, -, h⟩ := Yields.of_bind h
      obtain rfl := Yields.of_pure h
      exact .aligned hd

end Element

namespace Items

variable {rule : ItemRule}

/-- What every single item preserves is preserved by all of them. -/
theorem preserves {p : Draft → Prop} {items : List (String × Bool)} {d d' : Draft}
    (h : Items rule items d d')
    (hstep : ∀ name last d d', rule.Adds name last d d' → p d → p d') (hd : p d) : p d' := by
  induction h with
  | nil => exact hd
  | cons hadds _ ih => exact ih (hstep _ _ _ _ hadds hd)

/-- In the variable part each item becomes a template. -/
theorem templates {items : List (String × Bool)} {d d' : Draft} (h : Items rule items d d')
    (hd : d.varies = true) : d'.varies = true ∧ ∃ ts, d'.templates = d.templates ++ ts ∧
      List.Forall₂ (fun i t => Yields (rule.template i.1 none i.2) t) items ts := by
  induction h with
  | nil => exact ⟨hd, [], (List.append_nil _).symm, .nil⟩
  | cons hadds _ ih =>
    simp only [ItemRule.Adds, hd, if_true] at hadds
    obtain ⟨t, ht, rfl⟩ := hadds
    obtain ⟨hvaries, ts, hts, hall⟩ := ih hd
    refine ⟨hvaries, t :: ts, ?_, .cons ht hall⟩
    rw [hts, Draft.addTemplate, List.append_assoc]
    rfl

/-- A loop over the items of a fixed array. -/
theorem of_foldlM {g : Draft → Nat → Placing Draft} {item : Nat → String × Bool}
    (hg : ∀ d i d', Yields (g d i) d' → rule.Adds (item i).1 (item i).2 d d')
    (is : List Nat) (d d' : Draft) (h : Yields (is.foldlM g d) d') :
    Items rule (is.map item) d d' := by
  induction is generalizing d with
  | nil =>
    rw [List.foldlM_nil] at h
    obtain rfl := Yields.of_pure h
    exact .nil d'
  | cons i rest ih =>
    rw [List.foldlM_cons] at h
    obtain ⟨mid, h1, h2⟩ := Yields.of_bind h
    exact .cons (hg d i mid h1) (ih mid h2)

/-- In the variable part the loop only adds templates. -/
theorem of_foldlM_varying {g : Draft → Nat → Placing Draft} {item : Nat → String × Bool}
    (hg : ∀ d i d', Yields (g d i) d' →
      ∃ t, Yields (rule.template (item i).1 none (item i).2) t ∧ d' = d.addTemplate t)
    (is : List Nat) (d d' : Draft) (hd : d.varies = true) (h : Yields (is.foldlM g d) d') :
    Items rule (is.map item) d d' := by
  induction is generalizing d with
  | nil =>
    rw [List.foldlM_nil] at h
    obtain rfl := Yields.of_pure h
    exact .nil d'
  | cons i rest ih =>
    rw [List.foldlM_cons] at h
    obtain ⟨mid, h1, h2⟩ := Yields.of_bind h
    obtain ⟨t, ht, rfl⟩ := hg d i mid h1
    have hadds : rule.Adds (item i).1 (item i).2 d (d.addTemplate t) := by
      rw [ItemRule.Adds, if_pos hd]
      exact ⟨t, ht, rfl⟩
    exact .cons hadds (ih (d.addTemplate t) hd h2)

end Items

namespace Element

variable {e : Element} {scope : Scope} {owner path : String} {base : Nat}
  {earlier : List String} {rule : ItemRule} {d d' : Draft}

/-- The items of a fixed element start where the element does. -/
theorem placeFixed_items {n : Nat} (h : Yields (e.placeFixed scope owner path base n rule d) d') :
    0 < n ∧ ∃ cursor, Yields (e.start scope owner base d.cursor) cursor ∧
      Items rule (e.fixedItems path n) { d with cursor := cursor } d' := by
  unfold placeFixed at h
  by_cases h0 : n = 0
  · simp only [h0, if_true] at h
    exact (Yields.not_throw_bind h).elim
  · simp only [h0, if_false] at h
    obtain ⟨_, -, h⟩ := Yields.of_bind h
    obtain ⟨cursor, hcursor, h⟩ := Yields.of_bind h
    refine ⟨Nat.pos_of_ne_zero h0, cursor, hcursor, Items.of_foldlM (fun d i d' hi => ?_) _ _ _ h⟩
    unfold ItemRule.Adds
    by_cases hv : d.varies = true
    · simp only [hv, if_true] at hi ⊢
      exact Yields.of_map hi
    · simp only [hv] at hi ⊢
      exact hi

theorem placeFixed_yields {n : Nat} (hn : e.repetition = .fixed n) (hd : d.varies = false)
    (h : Yields (e.placeFixed scope owner path base n rule d) d') :
    e.Placed scope path earlier rule d d' := by
  obtain ⟨hpos, cursor, hcursor, hitems⟩ := placeFixed_items h
  exact .fixed hn hpos (start_yields hd hcursor) hitems

theorem placeVarying_yields
    (h : Yields (e.placeVarying owner path earlier rule { d with varies := true }) d')
    (hd : ∀ n, e.repetition = .fixed n → d.varies = true) :
    e.Placed scope path earlier rule d d' := by
  unfold placeVarying at h
  obtain ⟨_, -, h⟩ := Yields.of_bind (Yields.of_remark h)
  cases hr : e.repetition with
  | countedBy c =>
    simp only [hr] at h
    by_cases hc : c ≠ "" ∧ c ∈ earlier
    · rw [if_pos hc] at h
      obtain ⟨t, ht, rfl⟩ := Yields.of_map h
      exact .counted hr hc.2 ht rfl
    · rw [if_neg hc] at h
      exact (Yields.not_throw_bind h).elim
  | fixed n =>
    simp only [hr] at h
    have hv := hd n hr
    by_cases h0 : n = 0
    · simp only [h0, if_true] at h
      exact (Yields.not_throw_bind h).elim
    · simp only [h0, if_false] at h
      have hself : ({ d with varies := true } : Draft) = d := by rw [← hv]
      rw [hself] at h
      refine .fixed hr (Nat.pos_of_ne_zero h0) (.varying hv) ?_
      exact Items.of_foldlM_varying (fun d i d' hi => Yields.of_map hi) _ _ _ hv h

/-- An element that is not refused was placed in one of the two ways. -/
theorem place_yields (h : Yields (e.place scope owner path base earlier rule d) d') :
    e.Placed scope path earlier rule d d' := by
  unfold place at h
  by_cases hv : d.varies = true
  · simp only [hv, if_true] at h
    have hself : d = { d with varies := true } := by rw [← hv]
    rw [hself] at h
    exact placeVarying_yields h fun _ _ => hv
  · have hd : d.varies = false := by simpa using hv
    simp only [hd] at h
    cases hr : e.repetition with
    | fixed n =>
      simp only [hr] at h
      exact placeFixed_yields hr hd h
    | countedBy c =>
      simp only [hr] at h
      obtain ⟨_, -, h⟩ := Yields.of_bind h
      exact placeVarying_yields h fun n hn => by rw [hr] at hn; cases hn

/-- In the fixed part a fixed element puts its items behind one another. -/
theorem place_items {n : Nat} (hn : e.repetition = .fixed n) (hd : d.varies = false)
    (h : Yields (e.place scope owner path base earlier rule d) d') :
    0 < n ∧ ∃ cursor, Yields (e.start scope owner base d.cursor) cursor ∧
      Items rule (e.fixedItems path n) { d with cursor := cursor } d' := by
  unfold place at h
  simp only [hd, hn] at h
  exact placeFixed_items h

end Element

/-! ## Members -/

namespace ItemRule

/-- A scalar item is a field at the cursor. -/
theorem leaf_place {e : Element} {scope : Scope} {owner name : String} {type : Scalar}
    {table : Option EnumTable} {last : Bool} {d d' : Draft}
    (h : Yields ((leaf e scope owner type table).place name last d) d') :
    ∃ f, e.FieldAt type table name d.cursor f ∧ d' = d.addField f := by
  obtain ⟨f, hf, rfl⟩ := Yields.of_map h
  exact ⟨f, Element.field_yields hf, rfl⟩

/-- The template of a scalar holds one field without a name. -/
theorem leaf_template {e : Element} {scope : Scope} {owner name : String} {type : Scalar}
    {table : Option EnumTable} {counter : Option String} {last : Bool} {t : Template}
    (h : Yields ((leaf e scope owner type table).template name counter last) t) :
    ∃ f, e.FieldAt type table "" 0 f ∧ t = ⟨name, e.alignment, counter, f.size, [f], []⟩ := by
  obtain ⟨f, hf, rfl⟩ := Yields.of_map h
  exact ⟨f, Element.field_yields hf, rfl⟩

/-- A struct item starts on its alignment. -/
theorem nested_place (e : Element) (scope : Scope) (alignment : Nat)
    (placeStruct : Scope → String → Bool → Draft → Placing Draft) (name : String) (last : Bool)
    (d : Draft) : (nested e scope alignment placeStruct).place name last d =
      placeStruct scope name last { d with cursor := d.cursor.align alignment } := by
  simp only [nested, Arithmetic.exact_align, liftM_ok, pure_bind]

/-- The template of a struct is a draft that was placed on its own. -/
theorem nested_template {e : Element} {scope : Scope} {alignment : Nat}
    {placeStruct : Scope → String → Bool → Draft → Placing Draft} {name : String}
    {counter : Option String} {last : Bool} {t : Template}
    (h : Yields ((nested e scope alignment placeStruct).template name counter last) t) :
    ∃ d, Yields (placeStruct { scope with positioned := false } "" last .empty) d ∧
      t = ⟨name, max e.alignment alignment, counter, d.size, d.fields, d.templates⟩ :=
  Yields.of_map h

/-- Whether a rule lays out no item at all. -/
def Refuses (rule : ItemRule) : Prop :=
  (∀ name last d d', ¬ Yields (rule.place name last d) d') ∧
    ∀ name counter last t, ¬ Yields (rule.template name counter last) t

theorem refuses_cyclic (struct : String) : (cyclic struct).Refuses :=
  ⟨fun _ _ _ _ => Yields.not_throw, fun _ _ _ _ => Yields.not_throw⟩

theorem refuses_unresolved (reason : Error) : (unresolved reason).Refuses :=
  ⟨fun _ _ _ _ => Yields.not_throw, fun _ _ _ _ => Yields.not_throw⟩

/-- No element is placed by such a rule: there is at least one item. -/
theorem Refuses.not_placed {rule : ItemRule} (hr : rule.Refuses) {e : Element} {scope : Scope}
    {path : String} {earlier : List String} {d d' : Draft} :
    ¬ e.Placed scope path earlier rule d d'
  | .fixed _ pos _ items => by
      obtain ⟨n, rfl⟩ := Nat.exists_eq_succ_of_ne_zero (Nat.ne_of_gt pos)
      rw [Element.fixedItems, List.range_succ_eq_map] at items
      cases items with
      | cons hadds _ =>
        unfold Adds at hadds
        split at hadds
        · obtain ⟨t, ht, -⟩ := hadds
          exact hr.2 _ _ _ t ht
        · exact hr.1 _ _ _ _ hadds
  | .counted _ _ template _ => hr.2 _ _ _ _ template

end ItemRule

/-- Only a member whose type is known is placed. -/
theorem Member.resolved_of_yields {m : Member} {scope : Scope} {owner path : String} {base : Nat}
    {earlier : List String} {d d' : Draft}
    (h : Yields (m.place scope owner path base earlier d) d') : m.Resolved := by
  cases m with
  | leaf e type table => trivial
  | nested e shape => trivial
  | cyclic e struct alignment =>
    rw [Member.place] at h
    exact (ItemRule.refuses_cyclic struct).not_placed (Element.place_yields h)
  | unresolved e reason =>
    rw [Member.place] at h
    exact (ItemRule.refuses_unresolved reason).not_placed (Element.place_yields h)

/-- A struct is placed member by member, and padded at its end unless it is the last
item in a legacy schema. -/
theorem Shape.place_mk (scope : Scope) (path : String) (last : Bool) (d : Draft) (name : String)
    (alignment : Nat) (members : List Member) :
    (Shape.mk name alignment members).place scope path last d = (do
      let mid ← placeMembers scope name path d.cursor.wire [] d members
      return if scope.legacy ∧ last then mid else mid.pad alignment) := by
  rw [Shape.place]
  congr
  funext mid
  split
  · rfl
  · rw [Draft.padBy_exact]
    rfl

theorem Shape.place_yields {scope : Scope} {path : String} {last : Bool} {d d' : Draft}
    {name : String} {alignment : Nat} {members : List Member}
    (h : Yields ((Shape.mk name alignment members).place scope path last d) d') :
    ∃ mid, Yields (placeMembers scope name path d.cursor.wire [] d members) mid ∧
      d' = if scope.legacy ∧ last then mid else mid.pad alignment := by
  rw [Shape.place_mk] at h
  obtain ⟨mid, hmid, rfl⟩ := Yields.of_map h
  exact ⟨mid, hmid, rfl⟩

/-- In the variable part a fixed element becomes one template for each of its items. -/
theorem Element.Placed.templates {e : Element} {scope : Scope} {path : String}
    {earlier : List String} {rule : ItemRule} {d d' : Draft}
    (h : e.Placed scope path earlier rule d d') (hd : d.varies = true) {n : Nat}
    (hn : e.repetition = .fixed n) : d'.varies = true ∧ ∃ ts, d'.templates = d.templates ++ ts ∧
      List.Forall₂ (fun i t => Yields (rule.template i.1 none i.2) t) (e.fixedItems path n) ts := by
  cases h with
  | fixed hr _ starts items =>
    obtain rfl : _ = n := by simpa [hn] using hr.symm
    cases starts with
    | varying _ => exact items.templates hd
    | aligned hv => simp [hd] at hv
    | positioned _ hv _ _ => simp [hd] at hv
  | counted hr _ _ _ => simp [hn] at hr

theorem placeMembers_nil_yields {scope : Scope} {owner path : String} {base : Nat}
    {earlier : List String} {d d' : Draft}
    (h : Yields (placeMembers scope owner path base earlier d []) d') : d' = d := by
  rw [placeMembers] at h
  exact Yields.of_pure h

theorem placeMembers_cons_yields {scope : Scope} {owner path : String} {base : Nat}
    {earlier : List String} {d d' : Draft} {m : Member} {rest : List Member}
    (h : Yields (placeMembers scope owner path base earlier d (m :: rest)) d') :
    ∃ mid, Yields (m.place scope owner path base earlier d) mid ∧
      Yields (placeMembers scope owner path base (m.element.name :: earlier) mid rest) d' := by
  rw [placeMembers] at h
  exact Yields.of_bind h

/-- Members are placed behind those before them. -/
theorem placeMembers_append (scope : Scope) (owner path : String) (base : Nat)
    (ys xs : List Member) (earlier : List String) (d : Draft) :
    placeMembers scope owner path base earlier d (xs ++ ys) = (do
      let mid ← placeMembers scope owner path base earlier d xs
      placeMembers scope owner path base ((xs.map (·.element.name)).reverse ++ earlier) mid
        ys) := by
  induction xs generalizing earlier d with
  | nil => simp [placeMembers]
  | cons m rest ih => simp [placeMembers, ih]

/-- Only a declared struct has a layout. -/
theorem Schema.exists_root {s : Schema} {name : String} {l : Layout}
    (hl : s.layout name = .ok l) : ∃ d, s.root name = .ok d := by
  unfold layout compile at hl
  cases hd : s.root name with
  | ok d => exact ⟨d, rfl⟩
  | error e =>
    rw [hd] at hl
    cases hl

/-- A layout that was compiled is the draft of its shape, with the tables recorded on
the way. -/
theorem Schema.layout_ends {s : Schema} {name : String} {d : StructDecl} {l : Layout}
    (hd : s.root name = .ok d) (hl : s.layout name = .ok l) :
    ∃ (draft : Draft) (ledger : Ledger), Ends ((s.shape d).place s.scope "" false .empty)
      { tables := [], journal := [] } draft ledger ∧ l.fields = draft.fields ∧
      l.templates = draft.templates ∧ l.tables = ledger.tables ∧ l.size = draft.size := by
  unfold layout compile at hl
  simp only [hd] at hl
  have hplaced : ∃ last, Ends (s.placeRecord d) { tables := [], journal := [] } l last := by
    generalize hrun : (s.placeRecord d).run.run { tables := [], journal := [] } = out at hl
    obtain ⟨result, last⟩ := out
    simp only at hl
    rw [hl] at hrun
    exact ⟨last, hrun⟩
  obtain ⟨last, hplaced⟩ := hplaced
  unfold placeRecord at hplaced
  obtain ⟨draft, ledger, hdraft, hrest⟩ := Ends.bind_iff.mp hplaced
  obtain ⟨_, noted, hnote, hrest⟩ := Ends.bind_iff.mp hrest
  obtain ⟨_, got, hget, hpure⟩ := Ends.bind_iff.mp hrest
  obtain ⟨rfl, rfl⟩ := Ends.get_iff.mp hget
  obtain ⟨rfl, -⟩ := Ends.pure_iff.mp hpure
  obtain rfl := Ends.modify_iff.mp hnote
  exact ⟨draft, ledger, hdraft, rfl, rfl, rfl, rfl⟩

/-- Its fields, templates and size are those of the draft, wherever that was placed. -/
theorem Schema.layout_eq_ok {s : Schema} {name : String} {d : StructDecl} {l : Layout}
    (hd : s.root name = .ok d) (hl : s.layout name = .ok l) :
    ∃ draft, Yields ((s.shape d).place s.scope "" false .empty) draft ∧
      l.fields = draft.fields ∧ l.templates = draft.templates ∧ l.size = draft.size := by
  obtain ⟨draft, ledger, hdraft, hfields, htemplates, -, hsize⟩ := layout_ends hd hl
  exact ⟨draft, ⟨_, ledger, hdraft⟩, hfields, htemplates, hsize⟩

theorem Draft.fields_pad (d : Draft) (alignment : Nat) : (d.pad alignment).fields = d.fields := by
  unfold pad
  split
  · split <;> rfl
  · rfl

theorem Draft.templates_pad (d : Draft) (alignment : Nat) :
    d.templates <+: (d.pad alignment).templates := by
  unfold pad
  split
  · split
    · exact List.prefix_append _ _
    · exact List.prefix_refl _
  · exact List.prefix_refl _

/-- A layout that was compiled holds what its members placed. -/
theorem Schema.members_of_layout {s : Schema} {name : String} {d : StructDecl} {l : Layout}
    (hd : s.root name = .ok d) (hl : s.layout name = .ok l) :
    ∃ mid, Yields (placeMembers s.scope d.name "" 0 [] .empty (s.shape d).members) mid ∧
      l.fields = mid.fields ∧ mid.templates <+: l.templates := by
  obtain ⟨draft, hdraft, hfields, htemplates, -⟩ := layout_eq_ok hd hl
  obtain ⟨mid, hmid, rfl⟩ := Shape.place_yields hdraft
  simp only [Bool.false_eq_true, and_false, if_false] at hfields htemplates
  rw [Draft.fields_pad] at hfields
  exact ⟨mid, hmid, hfields, htemplates ▸ Draft.templates_pad mid d.alignment⟩

end WireRecord
