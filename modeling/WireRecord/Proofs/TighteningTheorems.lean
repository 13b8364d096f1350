/-
WireRecord.Proofs.TighteningTheorems — the same record with less native padding.

One description `Tightens` another when both say the same, except that natively the
first puts nothing behind where the second does. For positions and fields this is a
comparison. For templates it is a relation on lists of them (`TemplatesTighten`),
because the second description may have markers that the first one goes without: a
marker moves the native position and leaves the wire alone.

Reading a wire buffer never looks at a native place. So two layouts of which one
tightens the other find the same variable part in every buffer
(`expandAll_inStep`), or are refused alike, and only native places come out
different (`Layout.Tightens.openFull`). Alignment keeps the order of positions
(`alignUp_mono`), which carries the comparison through all instances.
-/
import WireRecord.Proofs.AlignmentTheorems
import WireRecord.Proofs.ExpansionTheorems
import WireRecord.Proofs.PairedRuns

namespace WireRecord

/-! ## Positions and fields -/

/-- Whether a position is the same as another one on the wire, and not behind it
natively. -/
structure Extent.Tightens (p q : Extent) : Prop where
  wire_eq : p.wire = q.wire
  native_le : p.native ≤ q.native

namespace Extent.Tightens

variable {p q : Extent}

theorem refl (p : Extent) : p.Tightens p := ⟨rfl, Nat.le_refl p.native⟩

theorem add {p' q' : Extent} (h : p.Tightens q) (h' : p'.Tightens q') :
    (p + p').Tightens (q + q') where
  wire_eq := by rw [wire_add, wire_add, h.wire_eq, h'.wire_eq]
  native_le := Nat.add_le_add h.native_le h'.native_le

theorem align (h : p.Tightens q) (alignment : Nat) :
    (p.align alignment).Tightens (q.align alignment) :=
  ⟨h.wire_eq, alignUp_mono h.native_le alignment⟩

theorem align_right (h : p.Tightens q) (alignment : Nat) : p.Tightens (q.align alignment) :=
  ⟨h.wire_eq, Nat.le_trans h.native_le (le_alignUp q.native alignment)⟩

theorem bytes_wire (h : p.Tightens q) : p.bytes .wire = q.bytes .wire :=
  congrArg bytesFor h.wire_eq

theorem bytes_native (h : p.Tightens q) : p.bytes .native ≤ q.bytes .native :=
  Nat.div_le_div_right (Nat.add_le_add_right h.native_le 7)

end Extent.Tightens

/-- Whether a field is another one but for its native offset, which is not behind
that of the other. -/
structure Field.Tightens (f g : Field) : Prop where
  same : { f with native := g.native } = g
  size_eq : f.native.size = g.native.size
  offset_le : f.native.offset ≤ g.native.offset

namespace Field.Tightens

variable {f g : Field}

theorem name_eq (h : f.Tightens g) : f.name = g.name := by rw [← h.same]

theorem wire_eq (h : f.Tightens g) : f.wire = g.wire := by rw [← h.same]

/-- On the wire both read the same. -/
theorem read_eq (h : f.Tightens g) (b : Bytes) : f.read .wire b = g.read .wire b := by
  rw [← h.same]
  rfl

theorem field_size (h : f.Tightens g) : f.size.Tightens g.size :=
  ⟨congrArg Span.size h.wire_eq, Nat.le_of_eq h.size_eq⟩

theorem instantiate (h : f.Tightens g) {p q : Extent} (hstart : p.Tightens q) (name : String) :
    (f.instantiate p name).Tightens (g.instantiate q name) where
  same := by rw [← h.same, Field.instantiate, Field.instantiate, hstart.wire_eq]
  size_eq := h.size_eq
  offset_le := Nat.add_le_add h.offset_le hstart.native_le

/-- Among fields of which each tightens its counterpart, the first ones with a
name are counterparts. -/
theorem find? {fs gs : List Field} (h : List.Forall₂ Field.Tightens fs gs) (name : String) :
    Option.Rel Field.Tightens (fs.find? (·.name == name)) (gs.find? (·.name == name)) := by
  induction h with
  | nil => exact .none
  | cons hfirst _ ih =>
    rw [List.find?_cons, List.find?_cons, hfirst.name_eq]
    split
    · exact .some hfirst
    · exact ih

/-- So are those with an index. -/
theorem getElem? {fs gs : List Field} (h : List.Forall₂ Field.Tightens fs gs) (i : Nat) :
    Option.Rel Field.Tightens fs[i]? gs[i]? := by
  induction h generalizing i with
  | nil => exact .none
  | cons hfirst _ ih =>
    cases i with
    | zero => exact .some hfirst
    | succ i => exact ih i

end Field.Tightens

/-! ## Templates -/

/-- Whether templates are others but for native places, none of which is behind
that of its counterpart, and for markers that they go without. -/
inductive TemplatesTighten : List Template → List Template → Prop where
  | nil : TemplatesTighten [] []
  | cons {name : String} {alignment : Nat} {counter : Option String} {size size' : Extent}
      {fields fields' : List Field} {children children' rest rest' : List Template}
      (hsize : size.Tightens size') (hfields : List.Forall₂ Field.Tightens fields fields')
      (hchildren : TemplatesTighten children children') (hrest : TemplatesTighten rest rest') :
      TemplatesTighten (⟨name, alignment, counter, size, fields, children⟩ :: rest)
        (⟨name, alignment, counter, size', fields', children'⟩ :: rest')
  | marker {rest rest' : List Template} (alignment : Nat) (hrest : TemplatesTighten rest rest') :
      TemplatesTighten rest (.marker alignment :: rest')

namespace TemplatesTighten

variable {ts ts' us us' : List Template}

theorem append (h : TemplatesTighten ts ts') (h' : TemplatesTighten us us') :
    TemplatesTighten (ts ++ us) (ts' ++ us') := by
  induction h with
  | nil => exact h'
  | cons hsize hfields hchildren _ _ ih => exact .cons hsize hfields hchildren ih
  | marker alignment _ ih => exact .marker alignment ih

theorem append_marker (h : TemplatesTighten ts ts') (alignment : Nat) :
    TemplatesTighten ts (ts' ++ [.marker alignment]) := by
  have happend := h.append (.marker alignment .nil)
  rwa [List.append_nil] at happend

theorem singleton_marker (alignment : Nat) :
    TemplatesTighten [.marker alignment] [.marker alignment] :=
  .cons (.refl 0) .nil .nil .nil

end TemplatesTighten

/-! ## Expanding from a wire buffer -/

/-- Whether the fields found by one expansion tighten those found by another. -/
def Expansion.Tightens (x y : Expansion) : Prop := List.Forall₂ Field.Tightens x.fields y.fields

namespace Source

variable {fixed fixed' : List Field} {b : Bytes}

/-- A counter holds the same. -/
theorem count_eq_of_tightens (hfixed : List.Forall₂ Field.Tightens fixed fixed')
    {found found' : List Field} (hfound : List.Forall₂ Field.Tightens found found')
    (path : String) :
    count ⟨fixed, .wire, b⟩ found path = count ⟨fixed', .wire, b⟩ found' path := by
  have hall : List.Forall₂ Field.Tightens (fixed ++ found) (fixed' ++ found') :=
    List.rel_append hfixed hfound
  have hfirst := Field.Tightens.find? hall path
  rw [count, count, ← List.find?_append, ← List.find?_append]
  generalize (fixed ++ found).find? _ = f, (fixed' ++ found').find? _ = g at hfirst ⊢
  cases hfirst with
  | none => rfl
  | some h => simp only [h.read_eq]

theorem repetitions_inStep (hfixed : List.Forall₂ Field.Tightens fixed fixed') (path : String)
    (counter : Option String) : InStep Expansion.Tightens (· = ·)
      (repetitions ⟨fixed, .wire, b⟩ path counter)
      (repetitions ⟨fixed', .wire, b⟩ path counter) := by
  unfold repetitions
  cases counter with
  | none => exact .pure rfl
  | some c =>
    refine InStep.get.bind fun x y hxy => ?_
    rw [count_eq_of_tightens hfixed hxy]
    cases count ⟨fixed', .wire, b⟩ y.fields (Path.join path c) with
    | ok n => exact .pure rfl
    | error e => exact .throw e

theorem note_inStep {e e' : Event} :
    InStep Expansion.Tightens (fun _ _ => True) (note e) (note e') :=
  .modify fun _ _ h => h

theorem addField_inStep {f g : Field} (h : f.Tightens g) {p q : Extent} (hstart : p.Tightens q)
    (path : String) : InStep Expansion.Tightens (fun _ _ => True)
      (addField ⟨fixed, .wire, b⟩ path p f) (addField ⟨fixed', .wire, b⟩ path q g) := by
  have hfield := h.instantiate hstart (Path.join path f.name)
  have hstop := congrArg Span.stop hfield.wire_eq
  unfold addField
  simp only [Field.instantiateBy_exact, Arithmetic.exact_stop, liftM_ok, pure_bind]
  rw [← h.name_eq]
  simp only [Field.span, hstop]
  refine .ite (fun _ => ?_) fun _ => ?_
  · rw [hfield.name_eq]
    exact .throw_bind _
  · exact .modify fun x y hfound => List.rel_append hfound (.cons hfield .nil)

theorem expand_marker (src : Source) (path : String) (start : Extent) (alignment : Nat) :
    src.expand path start (.marker alignment) = pure (start.align alignment) := by
  rw [Template.marker, expand]
  simp only [Arithmetic.exact_align, liftM_ok, pure_bind]
  rfl

/-- Expanding from a wire buffer finds the same fields but for native places, and
stops at the same bit of the buffer. -/
theorem expandAll_inStep (hfixed : List.Forall₂ Field.Tightens fixed fixed')
    {ts ts' : List Template} (h : TemplatesTighten ts ts') (path : String) {p q : Extent}
    (hstart : p.Tightens q) : InStep Expansion.Tightens Extent.Tightens
      (expandAll ⟨fixed, .wire, b⟩ path p ts) (expandAll ⟨fixed', .wire, b⟩ path q ts') := by
  induction h generalizing path p q with
  | nil => exact .pure hstart
  | marker alignment _ ih =>
    rw [expandAll.eq_2 _ _ q, expand_marker, pure_bind]
    exact ih path (hstart.align_right alignment)
  | @cons name alignment counter _ _ _ _ _ _ _ _ hsize hfields _ _ ihchildren ihrest =>
    rw [expandAll, expandAll]
    refine InStep.bind ?_ fun _ _ hstop => ihrest path hstop
    rw [expand, expand]
    simp only [Arithmetic.exact_align, Arithmetic.exact_advance, liftM_ok, pure_bind]
    split
    · exact .pure (hstart.align alignment)
    · refine (repetitions_inStep hfixed path counter).bind ?_
      rintro n _ rfl
      refine note_inStep.bind fun _ _ _ => ?_
      refine (InStep.foldlM _ ?_ (hstart.align alignment)).bind fun _ _ hstop =>
        .pure (hstop.align alignment)
      -- one instance: its own fields, then what follows inside it
      intro i _ position position' hposition
      have hplace := hposition.align alignment
      refine (InStep.forM hfields fun f g hfield => addField_inStep hfield hplace _).bind ?_
      exact fun _ _ _ => ihchildren _ (hplace.add hsize)

end Source

/-! ## Layouts and views -/

/-- Whether a layout is another one but for native places, none of which is behind
that of its counterpart. -/
structure Layout.Tightens (l l' : Layout) : Prop where
  name_eq : l.name = l'.name
  fields : List.Forall₂ Field.Tightens l.fields l'.fields
  templates : TemplatesTighten l.templates l'.templates
  tables_eq : l.tables = l'.tables
  size : l.size.Tightens l'.size

/-- Whether a view shows the same elements as another one, with the same values and
of the same size on the wire, and natively none behind its counterpart. -/
structure View.Tightens (v w : View) : Prop where
  elements : List.Forall₂ Field.Tightens v.elements w.elements
  value_eq : ∀ i, v.value i = w.value i
  extent : v.extent.Tightens w.extent
  bytes_wire : v.bytes .wire = w.bytes .wire
  bytes_native : v.bytes .native ≤ w.bytes .native

namespace View

/-- Views of a wire buffer whose elements and extents compare show the same. -/
theorem tightens_of_elements {v w : View} (hrep : v.rep = .wire ∧ w.rep = .wire)
    (hbuffer : v.buffer = w.buffer)
    (helements : List.Forall₂ Field.Tightens v.elements w.elements)
    (hextent : v.extent.Tightens w.extent) : v.Tightens w := by
  refine ⟨helements, fun i => ?_, hextent, hextent.bytes_wire, hextent.bytes_native⟩
  have hget := Field.Tightens.getElem? helements i
  have hcount : v.count = w.count := helements.length_eq
  unfold value element
  rw [hrep.1, hrep.2, hbuffer, hcount]
  generalize v.elements[i]? = f, w.elements[i]? = g at hget ⊢
  cases hget with
  | none => rfl
  | some h => exact h.read_eq w.buffer

end View

/-- On a wire buffer a layout and one that it tightens are refused alike, or open as
views that show the same. -/
theorem Layout.Tightens.openFull {l l' : Layout} (h : l.Tightens l') (b : Bytes) :
    Alike View.Tightens (View.openFull l .wire b) (View.openFull l' .wire b) := by
  have hstep := Source.expandAll_inStep (b := b) h.fields h.templates "" h.size
    { fields := [], journal := [] } { fields := [], journal := [] } .nil
  rw [View.openFull_eq, View.openFull_eq]
  generalize (Source.expandAll ⟨l.fields, .wire, b⟩ "" l.size l.templates).run.run _ = p,
    (Source.expandAll ⟨l'.fields, .wire, b⟩ "" l'.size l'.templates).run.run _ = q at hstep ⊢
  obtain ⟨ra, x⟩ := p
  obtain ⟨rb, y⟩ := q
  obtain ⟨halike, hfound⟩ := hstep
  cases halike with
  | error e => exact .error e
  | ok hextent =>
    refine .ok (View.tightens_of_elements ⟨rfl, rfl⟩ rfl ?_ hextent)
    exact List.rel_append h.fields hfound

end WireRecord
