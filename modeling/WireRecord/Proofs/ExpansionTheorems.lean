/-
WireRecord.Proofs.ExpansionTheorems — an expansion finds what the marks say.

Both halves are inductions over the templates, with a loop over the instances
inside. Towards the marks, a run that was not refused is taken apart step by
step; the numbers `N` only have to agree with the counters as they are at the
end, because a counter that was found stays what it was. Back from the marks,
the run is put together from what the buffer admits.

For views this says: what `View.openFull` yields is the view of the marks
(`View.opened_of_openFull`), and it does so whenever the buffer admits them
(`View.openFull_of_admits`).
-/
import WireRecord.Proofs.Unrolling

namespace WireRecord

namespace Source

variable {src : Source} {N : String → Nat}

/-! ## Single steps -/

theorem note_ends_iff {e : Event} {x x' : Expansion} {a : Unit} :
    Ends (note e) x a x' ↔ x' = { x with journal := x.journal ++ [e] } :=
  Ends.modify_iff

/-- A field is added when it ends within the buffer. -/
theorem addField_ends_iff {p : String} {start : Extent} {f : Field} {x x' : Expansion} {a : Unit} :
    Ends (src.addField p start f) x a x' ↔
      ((f.instantiate start (Path.join p f.name)).span src.rep).stop ≤ 8 * src.buffer.length ∧
        x' = { x with fields := x.fields ++ [f.instantiate start (Path.join p f.name)] } := by
  unfold addField
  simp only [Field.instantiateBy_exact, Arithmetic.exact_stop, liftM_ok, pure_bind]
  by_cases h : 8 * src.buffer.length <
      ((f.instantiate start (Path.join p f.name)).span src.rep).stop
  · simp only [h, if_true, Ends.bind_iff, Ends.not_throw]
    constructor
    · rintro ⟨_, _, hno, _⟩
      exact hno.elim
    · rintro ⟨hle, _⟩
      omega
  · simp only [h, if_false, Ends.modify_iff]
    exact ⟨fun hx => ⟨Nat.not_lt.mp h, hx⟩, fun hx => hx.2⟩

/-- All fields of an instance are added when each of them ends within the
buffer. -/
theorem addFields_ends_iff {p : String} {start : Extent} {fs : List Field} {x x' : Expansion}
    {a : Unit} : Ends (fs.forM (src.addField p start)) x a x' ↔
      (∀ f ∈ Template.placed p start fs, (f.span src.rep).stop ≤ 8 * src.buffer.length) ∧
        x' = { x with fields := x.fields ++ Template.placed p start fs } := by
  induction fs generalizing x with
  | nil =>
    have hnil : ([] : List Field).forM (src.addField p start) = pure () := rfl
    simp [Template.placed, hnil, Ends.pure_iff]
  | cons f rest ih =>
    have hcons : (f :: rest).forM (src.addField p start) =
        (src.addField p start f >>= fun _ => rest.forM (src.addField p start)) := rfl
    simp only [hcons, Ends.bind_iff, addField_ends_iff, ih, Template.placed, List.map_cons,
      List.forall_mem_cons]
    constructor
    · rintro ⟨_, _, ⟨h1, rfl⟩, h2, rfl⟩
      exact ⟨⟨h1, h2⟩, by simp⟩
    · rintro ⟨⟨h1, h2⟩, rfl⟩
      exact ⟨(), _, ⟨h1, rfl⟩, h2, by simp⟩

/-- A template without a counter is repeated once, any other as its counter
says. -/
theorem repetitions_ends_iff {p : String} {counter : Option String} {x x' : Expansion} {n : Nat} :
    Ends (src.repetitions p counter) x n x' ↔ x' = x ∧ match counter with
      | none => n = 1
      | some c => src.count x.fields (Path.join p c) = .ok n := by
  unfold repetitions
  cases counter with
  | none => simp [Ends.pure_iff, and_comm]
  | some c =>
    simp only [Ends.bind_iff, Ends.get_iff]
    constructor
    · rintro ⟨y, z, ⟨hy, hz⟩, h⟩
      rw [hy, hz] at h
      cases hc : src.count x.fields (Path.join p c) with
      | ok m =>
        simp only [hc, Ends.pure_iff] at h
        exact ⟨h.2, by rw [h.1]⟩
      | error e =>
        simp only [hc] at h
        exact (Ends.not_throw h).elim
    · rintro ⟨rfl, h⟩
      refine ⟨x', x', ⟨rfl, rfl⟩, ?_⟩
      simp only [h, Ends.pure_iff, and_self]

/-! ## From runs to marks -/

/-- Whether some numbers are what the counters hold, as far as fields are known. -/
def Agrees (src : Source) (N : String → Nat) (found : List Field) : Prop :=
  ∀ p n, src.count found p = .ok n → N p = n

theorem Agrees.of_append {found more : List Field} (h : src.Agrees N (found ++ more)) :
    src.Agrees N found := fun p n hn => h p n (count_append hn more)

/-- What a run from `x` to `x'` has to show for some marks: it stopped where they
stop, found their fields, and the buffer admits them. -/
structure Follows (src : Source) (N : String → Nat) (x x' : Expansion) (stop : Extent)
    (m : List (Mark Field) × Extent) : Prop where
  stop_eq : stop = m.2
  fields_eq : x'.fields = x.fields ++ Mark.entries m.1
  admits : src.Admits N x.fields m.1

/-- Instances in series, when each single one is accounted for. -/
theorem follows_inSeries {one : String → Extent → List (Mark Field) × Extent}
    {run : Extent → Nat → Expanding Extent} {name : Nat → String}
    (hone : ∀ i start x stop x', Ends (run start i) x stop x' → src.Agrees N x'.fields →
      src.Follows N x x' stop (one (name i) start))
    (is : List Nat) (start : Extent) (x : Expansion) (stop : Extent) (x' : Expansion)
    (h : Ends (is.foldlM run start) x stop x') (hN : src.Agrees N x'.fields) :
    src.Follows N x x' stop (inSeries one (is.map name) start) := by
  induction is generalizing start x with
  | nil =>
    rw [List.foldlM_nil, Ends.pure_iff] at h
    obtain ⟨rfl, rfl⟩ := h
    exact ⟨rfl, by simp [inSeries], trivial⟩
  | cons i rest ih =>
    rw [List.foldlM_cons, Ends.bind_iff] at h
    obtain ⟨mid, y, h1, h2⟩ := h
    have f2 := ih mid y h2
    have hmid : src.Agrees N y.fields := by
      rw [f2.fields_eq] at hN
      exact hN.of_append
    have f1 := hone i start x mid y h1 hmid
    obtain rfl := f1.stop_eq
    refine ⟨f2.stop_eq, ?_, ?_⟩
    · rw [f2.fields_eq, f1.fields_eq]
      simp [inSeries]
    · rw [List.map_cons, inSeries, admits_append]
      refine ⟨f1.admits, ?_⟩
      rw [← f1.fields_eq]
      exact f2.admits

/-- The items a run goes through are the instances of the template. -/
theorem instances_eq_map {path name : String} {counter : Option String} {x : Expansion} {n : Nat}
    (hn : match counter with
      | none => n = 1
      | some c => src.count x.fields (Path.join path c) = .ok n)
    (hN : src.Agrees N x.fields) :
    (List.range n).map (fun i => if counter.isSome then Path.item (Path.join path name) i
      else Path.join path name) = Template.instances N path name counter := by
  cases counter with
  | none =>
    simp only at hn
    subst hn
    rfl
  | some c =>
    simp only [Option.isSome_some, if_true, Template.instances]
    rw [hN _ _ hn]

mutual

/-- A template whose expansion is not refused was repeated as its marks say. -/
theorem expand_sound : ∀ (t : Template) (path : String) (start : Extent) (x : Expansion)
    (stop : Extent) (x' : Expansion), Ends (src.expand path start t) x stop x' →
    src.Agrees N x'.fields → src.Follows N x x' stop (t.marks N path start)
  | ⟨name, alignment, counter, size, fields, children⟩, path, start, x, stop, x', h, hN => by
      rw [expand] at h
      simp only [Arithmetic.exact_align, Arithmetic.exact_advance, liftM_ok, pure_bind] at h
      by_cases hname : name = ""
      · -- a template without a name moves the position, no more
        have hempty : name.isEmpty = true := by simpa using hname
        simp only [hempty, if_true, Ends.pure_iff] at h
        obtain ⟨rfl, rfl⟩ := h
        rw [Template.marks_of_isEmpty hname]
        exact ⟨rfl, by simp, trivial⟩
      · have hempty : name.isEmpty = false := by simpa using hname
        simp only [hempty, Bool.false_eq_true, if_false, Ends.bind_iff, repetitions_ends_iff,
          note_ends_iff, Ends.pure_iff] at h
        obtain ⟨n, y, ⟨rfl, hn⟩, _, z, rfl, last, w, hloop, rfl, rfl⟩ := h
        have hseries := @follows_inSeries src N
          (Template.instanceMarks N ⟨name, alignment, counter, size, fields, children⟩) _
          (fun i => if counter.isSome then Path.item (Path.join path name) i
            else Path.join path name)
          (fun i position y stop y' hrun hy => by
            simp only [Ends.bind_iff, addFields_ends_iff] at hrun
            obtain ⟨_, v, ⟨hle, rfl⟩, hrest⟩ := hrun
            have ih := expandAll_sound children _ _ _ _ _ hrest hy
            refine ⟨ih.stop_eq, ?_, ?_⟩
            · rw [ih.fields_eq]
              simp [Template.instanceMarks]
            · rw [Template.instanceMarks, admits_append, admits_map_entry]
              refine ⟨hle, ?_⟩
              simpa using ih.admits)
          (List.range n) _ _ _ _ hloop hN
        have hold : src.Agrees N y.fields := by
          rw [hseries.fields_eq] at hN
          exact hN.of_append
        rw [instances_eq_map hn hold] at hseries
        rw [Template.marks_of_ne hname]
        refine ⟨by rw [hseries.stop_eq], ?_, ?_⟩
        · rw [hseries.fields_eq]
          cases counter with
          | none => rfl
          | some c => rfl
        · rw [admits_append]
          cases counter with
          | none => exact ⟨trivial, by simpa [Template.asked] using hseries.admits⟩
          | some c =>
            refine ⟨⟨?_, trivial⟩, by
              rw [Template.entries_asked, List.append_nil]
              exact hseries.admits⟩
            rw [hold _ _ hn]
            exact hn

/-- Templates whose expansion is not refused were repeated as their marks say. -/
theorem expandAll_sound : ∀ (ts : List Template) (path : String) (start : Extent) (x : Expansion)
    (stop : Extent) (x' : Expansion), Ends (src.expandAll path start ts) x stop x' →
    src.Agrees N x'.fields → src.Follows N x x' stop (templateMarks N path start ts)
  | [], path, start, x, stop, x', h, _ => by
      rw [expandAll, Ends.pure_iff] at h
      obtain ⟨rfl, rfl⟩ := h
      exact ⟨rfl, by simp [templateMarks], trivial⟩
  | t :: rest, path, start, x, stop, x', h, hN => by
      rw [expandAll, Ends.bind_iff] at h
      obtain ⟨mid, y, h1, h2⟩ := h
      have f2 := expandAll_sound rest path mid y stop x' h2 hN
      have f1 := expand_sound t path start x mid y h1 (by
        rw [f2.fields_eq] at hN
        exact hN.of_append)
      obtain rfl := f1.stop_eq
      rw [templateMarks]
      refine ⟨f2.stop_eq, ?_, ?_⟩
      · rw [f2.fields_eq, f1.fields_eq]
        simp
      · rw [admits_append]
        refine ⟨f1.admits, ?_⟩
        rw [← f1.fields_eq]
        exact f2.admits

end

/-! ## From marks to runs -/

/-- Instances in series, when each single one can be run. -/
theorem inSeries_complete {one : String → Extent → List (Mark Field) × Extent}
    {run : Extent → Nat → Expanding Extent} {name : Nat → String}
    (hone : ∀ i start x, src.Admits N x.fields (one (name i) start).1 →
      ∃ x', Ends (run start i) x (one (name i) start).2 x' ∧
        x'.fields = x.fields ++ Mark.entries (one (name i) start).1)
    (is : List Nat) (start : Extent) (x : Expansion)
    (h : src.Admits N x.fields (inSeries one (is.map name) start).1) :
    ∃ x', Ends (is.foldlM run start) x (inSeries one (is.map name) start).2 x' ∧
      x'.fields = x.fields ++ Mark.entries (inSeries one (is.map name) start).1 := by
  induction is generalizing start x with
  | nil => exact ⟨x, by simp [inSeries, Ends.pure_iff], by simp [inSeries]⟩
  | cons i rest ih =>
    rw [List.map_cons, inSeries, admits_append] at h
    obtain ⟨y, h1, hy⟩ := hone i start x h.1
    rw [← hy] at h
    obtain ⟨x', h2, hx'⟩ := ih (one (name i) start).2 y h.2
    refine ⟨x', ?_, ?_⟩
    · rw [List.foldlM_cons, Ends.bind_iff]
      exact ⟨_, y, h1, h2⟩
    · rw [hx', hy]
      simp [inSeries]

mutual

/-- A template whose marks a buffer admits is expanded. -/
theorem expand_complete : ∀ (t : Template) (path : String) (start : Extent) (x : Expansion),
    src.Admits N x.fields (t.marks N path start).1 →
    ∃ x', Ends (src.expand path start t) x (t.marks N path start).2 x' ∧
      x'.fields = x.fields ++ Mark.entries (t.marks N path start).1
  | ⟨name, alignment, counter, size, fields, children⟩, path, start, x, h => by
      by_cases hname : name = ""
      · rw [Template.marks_of_isEmpty hname, expand]
        have hempty : name.isEmpty = true := by simpa using hname
        simp only [Arithmetic.exact_align, liftM_ok, pure_bind, hempty, if_true]
        exact ⟨x, Ends.pure_iff.mpr ⟨rfl, rfl⟩, by simp⟩
      · have hempty : name.isEmpty = false := by simpa using hname
        rw [Template.marks_of_ne hname] at h ⊢
        rw [admits_append] at h
        obtain ⟨hasked, hall⟩ := h
        rw [Template.entries_asked, List.append_nil] at hall
        -- the number of rounds is what the buffer admits for the counter
        obtain ⟨n, hn, hinst⟩ : ∃ n, (match counter with
              | none => n = 1
              | some c => src.count x.fields (Path.join path c) = .ok n) ∧
            (List.range n).map (fun i => if counter.isSome then
                Path.item (Path.join path name) i else Path.join path name) =
              Template.instances N path name counter := by
          cases counter with
          | none => exact ⟨1, rfl, rfl⟩
          | some c => exact ⟨N (Path.join path c), hasked.1, rfl⟩
        rw [← hinst] at hall ⊢
        obtain ⟨x', hloop, hx'⟩ := @inSeries_complete src N _
          (fun position i => do
            let position := position.align alignment
            let instancePath := if counter.isSome then Path.item (Path.join path name) i
              else Path.join path name
            fields.forM (src.addField instancePath position)
            src.expandAll instancePath (position + size) children) _
          (fun i position y hy => by
            rw [Template.instanceMarks, admits_append, admits_map_entry,
              Mark.entries_map_entry] at hy
            have hadd := (@addFields_ends_iff src _ _ _ y _ ()).mpr ⟨hy.1, rfl⟩
            obtain ⟨z, hz, hfields⟩ := expandAll_complete children _ _
              { y with fields := y.fields ++ Template.placed _ _ fields } hy.2
            refine ⟨z, Ends.bind_iff.mpr ⟨(), _, hadd, hz⟩, ?_⟩
            rw [hfields]
            simp [Template.instanceMarks])
          (List.range n) (start.align alignment)
          { x with journal := x.journal ++ [.repeated (Path.join path name) n
            (start.align alignment)] } hall
        refine ⟨x', ?_, ?_⟩
        · rw [expand]
          simp only [Arithmetic.exact_align, Arithmetic.exact_advance, liftM_ok, pure_bind, hempty,
            Bool.false_eq_true, if_false, Ends.bind_iff, repetitions_ends_iff, note_ends_iff,
            Ends.pure_iff]
          exact ⟨n, x, ⟨rfl, hn⟩, (), _, rfl, _, x', hloop, rfl, rfl⟩
        · rw [hx', Mark.entries_append, Template.entries_asked]
          rfl

/-- Templates whose marks a buffer admits are expanded. -/
theorem expandAll_complete : ∀ (ts : List Template) (path : String) (start : Extent)
    (x : Expansion), src.Admits N x.fields (templateMarks N path start ts).1 →
    ∃ x', Ends (src.expandAll path start ts) x (templateMarks N path start ts).2 x' ∧
      x'.fields = x.fields ++ Mark.entries (templateMarks N path start ts).1
  | [], path, start, x, _ => ⟨x, by simp [expandAll, templateMarks, Ends.pure_iff], by
      simp [templateMarks]⟩
  | t :: rest, path, start, x, h => by
      rw [templateMarks, admits_append] at h
      obtain ⟨y, h1, hy⟩ := expand_complete t path start x h.1
      obtain ⟨x', h2, hx'⟩ := expandAll_complete rest path (t.marks N path start).2 y
        (by rw [hy]; exact h.2)
      refine ⟨x', ?_, ?_⟩
      · rw [expandAll, Ends.bind_iff]
        exact ⟨_, y, h1, h2⟩
      · rw [hx', hy]
        simp [templateMarks]

end

end Source

/-! ## Views -/

namespace View

/-- What a view was read off. -/
def source (v : View) : Source := ⟨v.layout.fields, v.rep, v.buffer⟩

/-- The number that the first element with a path holds, zero if it holds none. -/
def countAt (v : View) (path : String) : Nat :=
  match v.elements.find? (·.name == path) with
  | some f => ((f.read v.rep v.buffer).toOption.bind Value.natural?).getD 0
  | none => 0

theorem agrees_countAt (v : View) : v.source.Agrees v.countAt v.expanded := fun p n h => by
  obtain ⟨f, x, hf, hx, hn, -⟩ := Source.count_eq_ok_iff.mp h
  rw [countAt, elements, List.find?_append]
  simp only [source] at hf hx
  rw [hf]
  simp [hx, hn, Except.toOption]

/-- Opening a view is expanding the templates of its layout, one after another,
also when there are none. -/
theorem openFull_eq (l : Layout) (r : Representation) (b : Bytes) (m : Arithmetic) :
    openFull l r b m = match (Source.expandAll ⟨l.fields, r, b⟩ "" l.size l.templates m).run.run
      { fields := [], journal := [] } with
    | (.ok extent, x) =>
      .ok { layout := l, rep := r, buffer := b, expanded := x.fields, extent := extent }
    | (.error e, _) => .error e := by
  unfold openFull openJournaled Layout.expandTemplates
  by_cases hv : l.isVariable = true
  · simp only [hv, Bool.not_true, Bool.false_eq_true, if_false, run_run_bind]
    rcases (Source.expandAll ⟨l.fields, r, b⟩ "" l.size l.templates m).run.run
      { fields := [], journal := [] } with ⟨e | extent, x⟩
    · rfl
    · rfl
  · have hnil : l.templates = [] := by simpa [Layout.isVariable] using hv
    simp only [hv, Bool.not_false, if_true, hnil, Source.expandAll]
    rfl

/-- A view is opened when the expansion of its templates is not refused. -/
theorem openFull_eq_ok_iff {l : Layout} {r : Representation} {b : Bytes} {m : Arithmetic}
    {v : View} : openFull l r b m = .ok v ↔
      v.layout = l ∧ v.rep = r ∧ v.buffer = b ∧
        ∃ x', Ends (Source.expandAll ⟨l.fields, r, b⟩ "" l.size l.templates m)
          { fields := [], journal := [] } v.extent x' ∧ x'.fields = v.expanded := by
  rw [openFull_eq]
  unfold Ends
  rcases (Source.expandAll ⟨l.fields, r, b⟩ "" l.size l.templates m).run.run
    { fields := [], journal := [] } with ⟨e | extent, x⟩
  · constructor
    · intro h
      cases h
    · rintro ⟨_, _, _, x', h, _⟩
      cases h
  · constructor
    · intro h
      cases h
      exact ⟨rfl, rfl, rfl, x, rfl, rfl⟩
    · rintro ⟨rfl, rfl, rfl, x', h, hx⟩
      obtain ⟨hextent, rfl⟩ := Prod.mk.inj h
      show Except.ok (View.mk _ _ _ x.fields _) = Except.ok v
      rw [hx, Except.ok.inj hextent]

/-- What an opened view consists of: its fields and its extent are those of the
marks, and its buffer admits them. -/
structure Opened (v : View) : Prop where
  expanded_eq : v.expanded = Mark.entries (v.layout.marks v.countAt).1
  extent_eq : v.extent = (v.layout.marks v.countAt).2
  admits : v.source.Admits v.countAt [] (v.layout.marks v.countAt).1

theorem opened_of_openFull {l : Layout} {r : Representation} {b : Bytes} {v : View}
    (h : openFull l r b = .ok v) : v.Opened := by
  obtain ⟨rfl, rfl, rfl, y, hy, hfields⟩ := openFull_eq_ok_iff.mp h
  have hN : v.source.Agrees v.countAt y.fields := by
    rw [hfields]
    exact v.agrees_countAt
  have hf := Source.expandAll_sound _ _ _ _ _ _ hy hN
  exact ⟨by rw [← hfields, hf.fields_eq]; rfl, hf.stop_eq, hf.admits⟩

/-- A buffer that admits the marks of a layout has the view of these marks. -/
theorem openFull_of_admits {l : Layout} {r : Representation} {b : Bytes} {N : String → Nat}
    (h : Source.Admits ⟨l.fields, r, b⟩ N [] (l.marks N).1) :
    openFull l r b = .ok
      { layout := l, rep := r, buffer := b, expanded := Mark.entries (l.marks N).1,
        extent := (l.marks N).2 } := by
  refine openFull_eq_ok_iff.mpr ⟨rfl, rfl, rfl, ?_⟩
  exact Source.expandAll_complete _ _ _ { fields := [], journal := [] } h

end View

end WireRecord
