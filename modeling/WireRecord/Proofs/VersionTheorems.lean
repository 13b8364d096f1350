/-
WireRecord.Proofs.VersionTheorems — what the version of a schema has a say in.

In schemas before version 3.0 the last struct of a fixed array is not padded at its
end. Here one schema is compiled in two versions, of which the newer one pads
everywhere, and the two runs are followed together. Skipping a pad moves every later
native place, and in the variable part it leaves out a marker and changes the size of
a template; but it moves nothing forward, and the wire does not notice. That is what
`Draft.Tightens` says of the drafts on both sides, and each step of placing keeps it:
a pad on the newer side only does (`Draft.Tightens.pad_right`), and everything else
happens on both.

So a schema is refused in both versions for the same reason, or has two layouts of
which the older one tightens the newer one (`Schema.tightens_inVersion`). With what is
known of such layouts, all that a wire buffer shows is the same in both. Where words hold
the numbers of both versions, a machine finds it so.
-/
import WireRecord.Proofs.LegacyPaddingTheorems
import WireRecord.Proofs.TighteningTheorems

namespace WireRecord

/-! ## Drafts in step -/

/-- Whether a draft is another one but for native places, none of which is behind
that of its counterpart. -/
structure Draft.Tightens (d d' : Draft) : Prop where
  fields : List.Forall₂ Field.Tightens d.fields d'.fields
  templates : TemplatesTighten d.templates d'.templates
  cursor : d.cursor.Tightens d'.cursor
  wireEnd_eq : d.wireEnd = d'.wireEnd
  varies_eq : d.varies = d'.varies

namespace Draft.Tightens

variable {d d' : Draft}

theorem empty : Draft.empty.Tightens Draft.empty := ⟨.nil, .nil, .refl 0, rfl, rfl⟩

theorem moveTo (h : d.Tightens d') {p q : Extent} (hpq : p.Tightens q) :
    Draft.Tightens { d with cursor := p } { d' with cursor := q } :=
  { h with cursor := hpq }

theorem vary (h : d.Tightens d') :
    Draft.Tightens { d with varies := true } { d' with varies := true } :=
  { h with varies_eq := rfl }

theorem addField (h : d.Tightens d') {f g : Field} (hfg : f.Tightens g) :
    (d.addField f).Tightens (d'.addField g) where
  fields := List.rel_append h.fields (.cons hfg .nil)
  templates := h.templates
  cursor := h.cursor.add hfg.field_size
  wireEnd_eq := by rw [Draft.addField, Draft.addField, h.wireEnd_eq, hfg.wire_eq]
  varies_eq := h.varies_eq

theorem addTemplate (h : d.Tightens d') {t t' : Template} (ht : TemplatesTighten [t] [t']) :
    (d.addTemplate t).Tightens (d'.addTemplate t') :=
  { h with templates := h.templates.append ht }

theorem pad (h : d.Tightens d') (alignment : Nat) :
    (d.pad alignment).Tightens (d'.pad alignment) := by
  have hvaries := h.varies_eq
  unfold Draft.pad
  by_cases hv : d'.varies = true
  · rw [if_pos (hvaries.trans hv), if_pos hv]
    split
    · exact h.addTemplate (.singleton_marker alignment)
    · exact h
  · rw [if_neg (hvaries ▸ hv), if_neg hv]
    exact h.moveTo (h.cursor.align alignment)

/-- A pad of the second draft alone moves it on, if anything. -/
theorem pad_right (h : d.Tightens d') (alignment : Nat) : d.Tightens (d'.pad alignment) := by
  unfold Draft.pad
  split
  · split
    · exact { h with templates := h.templates.append_marker alignment }
    · exact h
  · exact h.moveTo (h.cursor.align_right alignment)

theorem size (h : d.Tightens d') : d.size.Tightens d'.size where
  wire_eq := by rw [Draft.size, Draft.size, h.cursor.wire_eq, h.wireEnd_eq]
  native_le := h.cursor.native_le

end Draft.Tightens

/-! ## Placing in step -/

/-- Whether two ledgers have recorded the same tables, whatever else happened. -/
def Ledger.Agrees (a b : Ledger) : Prop := a.tables = b.tables

/-- The scope in which every struct is padded. -/
def Scope.padded (scope : Scope) : Scope := { scope with legacy := false }

namespace Placing

theorem note_inStep {e e' : Event} :
    InStep Ledger.Agrees (fun _ _ => True) (note e) (note e') :=
  .modify fun _ _ h => h

theorem record_inStep (t : EnumTable) :
    InStep Ledger.Agrees (fun _ _ => True) (record t) (record t) := by
  unfold record
  refine InStep.get.bind fun a b hab => ?_
  have htables : a.tables = b.tables := hab
  simp only [htables]
  refine .ite (fun _ => .pure trivial) fun _ => note_inStep.bind fun _ _ _ => ?_
  exact .modify fun _ _ _ => rfl

end Placing

namespace Element

variable (e : Element) (scope : Scope) (owner : String)

theorem resolveConstant_inStep (type : Scalar) : InStep Ledger.Agrees (· = ·)
    (e.resolveConstant scope owner type) (e.resolveConstant scope.padded owner type) := by
  unfold resolveConstant
  cases e.constant with
  | none => exact .pure rfl
  | some token =>
    refine InStep.get.bind fun a b hab => ?_
    have htables : a.tables = b.tables := hab
    have hentries : scope.padded.entries = scope.entries := rfl
    simp only [htables, hentries]
    cases constantValue? b.tables scope.entries token with
    | none => exact .throw _
    | some v => exact .pure rfl

theorem field_inStep (name : String) (type : Scalar) (table : Option EnumTable) {p q : Extent}
    (h : p.Tightens q) : InStep Ledger.Agrees Field.Tightens
      (e.field scope owner name type table p) (e.field scope.padded owner name type table q) := by
  unfold field
  refine .ite (fun _ => ?_) fun _ => .throw_bind _
  refine (e.resolveConstant_inStep scope owner type).bind ?_
  rintro constant _ rfl
  rw [h.wire_eq]
  exact .pure ⟨rfl, rfl, h.native_le⟩

theorem start_inStep (base : Nat) {p q : Extent} (h : p.Tightens q) :
    InStep Ledger.Agrees Extent.Tightens
      (e.start scope owner base p) (e.start scope.padded owner base q) := by
  have haligned := h.align e.alignment
  rw [start_eq, start_eq]
  cases e.position with
  | none => exact .pure haligned
  | some position =>
    refine .ite (fun _ => .pure ⟨rfl, haligned.native_le⟩) fun _ => ?_
    exact Placing.note_inStep.bind fun _ _ _ => .pure haligned

end Element

/-- Whether two ways to lay out the items of a member keep drafts in step. -/
structure ItemRule.InStep (rule rule' : ItemRule) : Prop where
  settle : WireRecord.InStep Ledger.Agrees (fun _ _ => True) rule.settle rule'.settle
  place : ∀ name last {d d' : Draft}, d.Tightens d' →
    WireRecord.InStep Ledger.Agrees Draft.Tightens (rule.place name last d)
      (rule'.place name last d')
  template : ∀ name counter last,
    WireRecord.InStep Ledger.Agrees (fun t t' => TemplatesTighten [t] [t'])
      (rule.template name counter last) (rule'.template name counter last)

namespace ItemRule.InStep

variable {rule rule' : ItemRule}

/-- A draft stays in step when the template of an item is added to it. -/
theorem addTemplate (h : rule.InStep rule') (name : String) (counter : Option String)
    (last : Bool) {d d' : Draft} (hd : d.Tightens d') :
    WireRecord.InStep Ledger.Agrees Draft.Tightens
      (do return d.addTemplate (← rule.template name counter last))
      (do return d'.addTemplate (← rule'.template name counter last)) :=
  (h.template name counter last).bind fun _ _ ht => .pure (hd.addTemplate ht)

theorem placeFixed (h : rule.InStep rule') (e : Element) (scope : Scope) (owner path : String)
    (base n : Nat) {d d' : Draft} (hd : d.Tightens d') :
    WireRecord.InStep Ledger.Agrees Draft.Tightens
      (e.placeFixed scope owner path base n rule d)
      (e.placeFixed scope.padded owner path base n rule' d') := by
  unfold Element.placeFixed
  refine .ite (fun _ => .throw_bind _) fun _ => ?_
  refine h.settle.bind fun _ _ _ => ?_
  refine (e.start_inStep scope owner base hd.cursor).bind fun p q hpq => ?_
  refine .foldlM _ (fun i _ d d' hd => ?_) (hd.moveTo hpq)
  simp only [hd.varies_eq]
  exact .ite (fun _ => h.addTemplate _ _ _ hd) fun _ => h.place _ _ hd

theorem placeVarying (h : rule.InStep rule') (e : Element) (owner path : String)
    (earlier : List String) {d d' : Draft} (hd : d.Tightens d') :
    WireRecord.InStep Ledger.Agrees Draft.Tightens
      (e.placeVarying owner path earlier rule d) (e.placeVarying owner path earlier rule' d') := by
  unfold Element.placeVarying
  refine .remark Placing.note_inStep (h.settle.bind fun _ _ _ => ?_)
  cases e.repetition with
  | countedBy counter => exact .ite (fun _ => h.addTemplate _ _ _ hd) fun _ => .throw_bind _
  | fixed n =>
    refine .ite (fun _ => .throw_bind _) fun _ => ?_
    refine .foldlM (List.range n) ?_ hd
    intro i _ d d' hd
    exact h.addTemplate _ _ _ hd

theorem place_element (h : rule.InStep rule') (e : Element) (scope : Scope) (owner path : String)
    (base : Nat) (earlier : List String) {d d' : Draft} (hd : d.Tightens d') :
    WireRecord.InStep Ledger.Agrees Draft.Tightens
      (e.place scope owner path base earlier rule d)
      (e.place scope.padded owner path base earlier rule' d') := by
  unfold Element.place
  rw [hd.varies_eq]
  refine .ite (fun _ => h.placeVarying e owner path earlier hd) fun _ => ?_
  cases e.repetition with
  | fixed n => exact h.placeFixed e scope owner path base n hd
  | countedBy counter =>
    exact Placing.note_inStep.bind fun _ _ _ => h.placeVarying e owner path earlier hd.vary

end ItemRule.InStep

namespace ItemRule

theorem leaf_inStep (e : Element) (scope : Scope) (owner : String) (type : Scalar)
    (table : Option EnumTable) :
    (leaf e scope owner type table).InStep (leaf e scope.padded owner type table) where
  settle := by
    cases table with
    | none => exact .pure trivial
    | some t => exact Placing.record_inStep t
  place name _ _ _ hd :=
    (e.field_inStep scope owner name type table hd.cursor).bind fun _ _ hfield =>
      .pure (hd.addField hfield)
  template _ _ _ :=
    (e.field_inStep scope owner "" type table (.refl 0)).bind fun _ _ hfield =>
      .pure (.cons hfield.field_size (.cons hfield .nil) .nil .nil)

theorem nested_inStep (e : Element) (scope : Scope) (alignment : Nat)
    {placeStruct : Scope → String → Bool → Draft → Placing Draft}
    (h : ∀ scope path last {d d' : Draft}, d.Tightens d' → WireRecord.InStep Ledger.Agrees
      Draft.Tightens (placeStruct scope path last d) (placeStruct scope.padded path last d')) :
    (nested e scope alignment placeStruct).InStep
      (nested e scope.padded alignment placeStruct) where
  settle := .pure trivial
  place name last _ _ hd := by
    rw [nested_place, nested_place]
    exact h scope name last (hd.moveTo (hd.cursor.align alignment))
  template _ _ last :=
    (h { scope with positioned := false } "" last .empty).bind fun _ _ hd =>
      .pure (.cons hd.size hd.fields hd.templates .nil)

/-- Where nothing can be laid out, nothing is. -/
theorem inStep_of_throw {rule : ItemRule} {e : Error}
    (hsettle : rule.settle = pure () ∨ rule.settle = throw e)
    (hplace : ∀ name last d, rule.place name last d = throw e)
    (htemplate : ∀ name counter last, rule.template name counter last = throw e) :
    rule.InStep rule where
  settle := by
    rcases hsettle with h | h
    · rw [h]
      exact .pure trivial
    · rw [h]
      exact .throw e
  place name last d d' _ := by
    rw [hplace, hplace]
    exact .throw e
  template name counter last := by
    rw [htemplate]
    exact .throw e

end ItemRule

mutual

/-- Placing a struct where all structs are padded takes the same course, and puts
nothing natively ahead of where it was. -/
theorem Shape.place_inStep : ∀ (shape : Shape) (scope : Scope) (path : String) (last : Bool)
    {d d' : Draft}, d.Tightens d' → InStep Ledger.Agrees Draft.Tightens
      (shape.place scope path last d) (shape.place scope.padded path last d')
  | .mk name alignment members, scope, path, last, d, d', hd => by
      rw [Shape.place_mk, Shape.place_mk, hd.cursor.wire_eq]
      refine (placeMembers_inStep members scope name path _ [] hd).bind fun d d' hd => ?_
      by_cases hlast : scope.legacy ∧ last
      · -- the one pad that the versions do not agree on
        rw [if_pos hlast, if_neg (by simp [Scope.padded])]
        exact .pure (hd.pad_right alignment)
      · rw [if_neg hlast, if_neg (by simp [Scope.padded])]
        exact .pure (hd.pad alignment)

theorem placeMembers_inStep : ∀ (members : List Member) (scope : Scope) (owner path : String)
    (base : Nat) (earlier : List String) {d d' : Draft}, d.Tightens d' →
    InStep Ledger.Agrees Draft.Tightens (placeMembers scope owner path base earlier d members)
      (placeMembers scope.padded owner path base earlier d' members)
  | [], _, _, _, _, _, _, _, hd => .pure hd
  | m :: rest, scope, owner, path, base, earlier, d, d', hd => by
      rw [placeMembers, placeMembers]
      refine (m.place_inStep scope owner path base earlier hd).bind fun d d' hd => ?_
      exact placeMembers_inStep rest scope owner path base _ hd

theorem Member.place_inStep : ∀ (m : Member) (scope : Scope) (owner path : String) (base : Nat)
    (earlier : List String) {d d' : Draft}, d.Tightens d' → InStep Ledger.Agrees Draft.Tightens
      (m.place scope owner path base earlier d) (m.place scope.padded owner path base earlier d')
  | .leaf e type table, scope, owner, path, base, earlier, d, d', hd => by
      rw [Member.place, Member.place]
      exact (ItemRule.leaf_inStep e scope owner type table).place_element e scope owner path base
        earlier hd
  | .nested e shape, scope, owner, path, base, earlier, d, d', hd => by
      rw [Member.place, Member.place]
      have hrule := ItemRule.nested_inStep e scope shape.instanceAlignment
        fun scope path last {_ _} hd => shape.place_inStep scope path last hd
      exact hrule.place_element e scope owner path base earlier hd
  | .cyclic e struct alignment, scope, owner, path, base, earlier, d, d', hd => by
      rw [Member.place, Member.place]
      have hrule : (ItemRule.cyclic struct).InStep (.cyclic struct) :=
        ItemRule.inStep_of_throw (.inl rfl) (fun _ _ _ => rfl) fun _ _ _ => rfl
      exact hrule.place_element e scope owner path base earlier hd
  | .unresolved e reason, scope, owner, path, base, earlier, d, d', hd => by
      rw [Member.place, Member.place]
      have hrule : (ItemRule.unresolved reason).InStep (.unresolved reason) :=
        ItemRule.inStep_of_throw (.inr rfl) (fun _ _ _ => rfl) fun _ _ _ => rfl
      exact hrule.place_element e scope owner path base earlier hd

end

/-! ## One schema in two versions -/

namespace Schema

/-- A schema that says the same in another version of the language. -/
def inVersion (s : Schema) (version : Version) : Schema := { s with version := version }

variable (s : Schema) (version : Version)

theorem reachable_inVersion (n : Nat) (structs : List StructDecl) :
    (s.inVersion version).reachable n structs = s.reachable n structs := by
  induction n generalizing structs with
  | zero => rfl
  | succ n ih =>
    rw [reachable, reachable, ih]
    rfl

/-- The version has no part in what type names stand for. -/
theorem member_inVersion (owner : String) (active : List String) (e : Element) :
    (s.inVersion version).member owner active e = s.member owner active e := by
  induction h : s.remaining active using Nat.strongRecOn generalizing owner active e with
  | ind n ih =>
    subst h
    have hmeaning : (s.inVersion version).meaning? e.type = s.meaning? e.type := rfl
    rw [member_eq, member_eq, hmeaning]
    cases hm : s.meaning? e.type with
    | none => rfl
    | some meaning =>
      cases meaning with
      | scalar type => rfl
      | enum decl => rfl
      | struct d =>
        by_cases hactive : d.name ∈ active
        · simp only [hactive, if_true, reachableAlignment, reachable_inVersion]
          rfl
        · have hless := remaining_cons_lt
            (mem_structs_of_struct?_eq_some (struct?_of_meaning? hm)) hactive
          have hmembers : (s.inVersion version).members ⟨d, d.name :: active⟩ =
              s.members ⟨d, d.name :: active⟩ :=
            List.map_congr_left fun e _ => ih _ hless _ _ e rfl
          simp only [hactive, if_false, shapeOf, hmembers]

theorem shape_inVersion (d : StructDecl) : (s.inVersion version).shape d = s.shape d := by
  unfold shape
  rw [List.map_congr_left fun e _ => s.member_inVersion version d.name [d.name] e]

/-- Placing a record in two versions of which the newer one pads everywhere. -/
theorem placeRecord_inStep {newer : Version} (hnewer : newer.isLegacy = false) (older : Version)
    (d : StructDecl) : InStep Ledger.Agrees Layout.Tightens
      ((s.inVersion older).placeRecord d) ((s.inVersion newer).placeRecord d) := by
  have hscope : (s.inVersion newer).scope = (s.inVersion older).scope.padded := by
    simp [scope, Scope.padded, inVersion, entries, hnewer]
  unfold placeRecord
  rw [shape_inVersion, shape_inVersion, hscope]
  refine ((s.shape d).place_inStep _ "" false .empty).bind fun draft draft' h => ?_
  refine Placing.note_inStep.bind fun _ _ _ => ?_
  refine InStep.get.bind fun a b hab => ?_
  exact .pure ⟨rfl, h.fields, h.templates, hab, h.size⟩

/-- The version of a schema says nothing but how much native padding there is. In any
version and in one from 3.0 on, a struct is refused for the same reason, or has
layouts that are the same but for native places; and so have its records in every
wire buffer. The newer version puts nothing natively ahead of the older one. -/
theorem tightens_inVersion (name : String) (older : Version) {newer : Version}
    (hnewer : 3 ≤ newer.major) :
    Alike (fun l l' => l.Tightens l' ∧
        ∀ b, Alike View.Tightens (View.openFull l .wire b) (View.openFull l' .wire b))
      ((s.inVersion older).layout name) ((s.inVersion newer).layout name) := by
  have hroot : ∀ version, (s.inVersion version).root name = s.root name := fun _ => rfl
  have hlegacy : newer.isLegacy = false := by simpa [Version.isLegacy] using hnewer
  unfold layout compile
  rw [hroot, hroot]
  cases s.root name with
  | error e => exact .error e
  | ok d =>
    have hplace := s.placeRecord_inStep hlegacy older d _ { tables := [], journal := [] } rfl
    exact hplace.1.mono fun l l' h => ⟨h, h.openFull⟩

/-- Two blocks that are two to the 63rd bits apart. -/
def brinks : Schema where
  version := ⟨2, 0⟩
  aliases := []
  enums := []
  structs :=
    [ { name := "Block", alignment := 1152921504606846976
        elements := [.simple "a" "tUInt8" (.fixed 1) none] },
      { name := "Record", alignment := 1
        elements := [.simple "items" "Block" (.fixed 2) none] } ]

end Schema

end WireRecord
