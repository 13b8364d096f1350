/-
WireRecord.Proofs.Unrolling — what the templates of a layout stand for, once it
is known what the counters hold.

`Source.expand` asks the buffer for a counter, adds the fields of the instances
and goes on, and any of these steps may be refused. Here the same walk is a
function: `templateMarks N` lists, in order, the counters that are asked for and
the fields that are found, where `N` is what the counters hold. What the buffer
has to say about such a list is `Source.Admits`; but for the limit that expansion
sets to the numbers, it is `Source.Shows`.

The two meet in both directions. An expansion that is not refused found what the
marks say, for the counters as it read them (`expandAll_sound`). An expansion of
marks that a buffer admits is not refused (`expandAll_complete`). So whatever is
to be said about a view can be said about marks: which fields there are, where
they lie, and whether another buffer has a view with the same fields.
-/
import WireRecord.Proofs.Runs
import WireRecord.View

namespace WireRecord

/-! ## Marks -/

/-- One step of going through templates, with what is said about a field. -/
inductive Mark (α : Type) where
  /-- The counter at a path was asked for. -/
  | counter (path : String)
  /-- A field was found. -/
  | entry (a : α)

namespace Mark

variable {α β : Type}

/-- What a mark says about a field. -/
def entry? : Mark α → Option α
  | counter _ => none
  | entry a => some a

/-- The counter of a mark. -/
def counter? : Mark α → Option String
  | counter p => some p
  | entry _ => none

/-- The mark with something else said about the field. -/
def map (g : α → β) : Mark α → Mark β
  | counter p => counter p
  | entry a => entry (g a)

/-- The fields among some marks. -/
def entries (marks : List (Mark α)) : List α := marks.filterMap entry?

/-- The counters among some marks. -/
def counters (marks : List (Mark α)) : List String := marks.filterMap counter?

@[simp] theorem entries_nil : entries ([] : List (Mark α)) = [] := rfl

@[simp] theorem entries_append (a b : List (Mark α)) :
    entries (a ++ b) = entries a ++ entries b :=
  List.filterMap_append

@[simp] theorem entries_map_entry (as : List α) : entries (as.map entry) = as := by
  induction as with
  | nil => rfl
  | cons a rest ih => exact congrArg (a :: ·) ih

theorem entries_map_comp (g : α → β) (as : List α) :
    entries (as.map fun a => entry (g a)) = as.map g := by
  rw [← entries_map_entry (as.map g), List.map_map]
  rfl

theorem entries_map (g : α → β) (marks : List (Mark α)) :
    entries (marks.map (map g)) = (entries marks).map g := by
  induction marks with
  | nil => rfl
  | cons m rest ih =>
    cases m with
    | counter p => exact ih
    | entry a => exact congrArg (g a :: ·) ih

theorem mem_counters_iff {p : String} {marks : List (Mark α)} :
    p ∈ counters marks ↔ counter p ∈ marks := by
  constructor
  · intro h
    obtain ⟨m, hm, hp⟩ := List.mem_filterMap.mp h
    cases m with
    | counter q =>
      cases hp
      exact hm
    | entry a => cases hp
  · intro h
    exact List.mem_filterMap.mpr ⟨counter p, h, rfl⟩

end Mark

namespace Template

/-- The paths of the instances of a template. -/
def instances (N : String → Nat) (path name : String) : Option String → List String
  | none => [Path.join path name]
  | some c => (List.range (N (Path.join path c))).map (Path.item (Path.join path name))

/-- The counter that a template asks for. -/
def asked {α : Type} (path : String) : Option String → List (Mark α)
  | none => []
  | some c => [.counter (Path.join path c)]

@[simp] theorem entries_asked {α : Type} (path : String) (counter : Option String) :
    Mark.entries (asked path counter : List (Mark α)) = [] := by
  cases counter <;> rfl

/-- The fields of an instance at a position. -/
def placed (instancePath : String) (position : Extent) (fields : List Field) : List Field :=
  fields.map fun f => f.instantiate position (Path.join instancePath f.name)

end Template

/-- Instances one after another, each from where the one before it stopped. -/
def inSeries (one : String → Extent → List (Mark Field) × Extent) :
    List String → Extent → List (Mark Field) × Extent
  | [], start => ([], start)
  | p :: rest, start =>
    ((one p start).1 ++ (inSeries one rest (one p start).2).1,
      (inSeries one rest (one p start).2).2)

/-- What holds of the fields of every instance holds of the fields of a series. -/
theorem forall_mem_inSeries {one : String → Extent → List (Mark Field) × Extent}
    {p : Field → Prop} (hone : ∀ path start, ∀ f ∈ Mark.entries (one path start).1, p f)
    (paths : List String) (start : Extent) :
    ∀ f ∈ Mark.entries (inSeries one paths start).1, p f := by
  induction paths generalizing start with
  | nil => exact fun _ hf => (List.not_mem_nil hf).elim
  | cons path rest ih =>
    intro f hf
    rw [inSeries, Mark.entries_append] at hf
    rcases List.mem_append.mp hf with hf | hf
    · exact hone path start f hf
    · exact ih _ f hf

mutual

/-- The marks of a template below a path, from a position on, and the position
behind it. -/
def Template.marks (N : String → Nat) (path : String) (start : Extent) :
    Template → List (Mark Field) × Extent
  | ⟨name, alignment, counter, size, fields, children⟩ =>
    if name.isEmpty then ([], start.align alignment)
    else
      let all := inSeries
        (fun instancePath position =>
          let position := position.align alignment
          let rest := templateMarks N instancePath (position + size) children
          ((Template.placed instancePath position fields).map .entry ++ rest.1, rest.2))
        (Template.instances N path name counter) (start.align alignment)
      (Template.asked path counter ++ all.1, all.2.align alignment)

/-- The marks of templates that follow one another. -/
def templateMarks (N : String → Nat) (path : String) (start : Extent) :
    List Template → List (Mark Field) × Extent
  | [] => ([], start)
  | t :: rest =>
    ((t.marks N path start).1 ++ (templateMarks N path (t.marks N path start).2 rest).1,
      (templateMarks N path (t.marks N path start).2 rest).2)

end

/-- Templates behind others start where these stop. -/
theorem templateMarks_append (N : String → Nat) (path : String) (ts us : List Template)
    (start : Extent) : templateMarks N path start (ts ++ us) =
      ((templateMarks N path start ts).1 ++
          (templateMarks N path (templateMarks N path start ts).2 us).1,
        (templateMarks N path (templateMarks N path start ts).2 us).2) := by
  induction ts generalizing start with
  | nil => rfl
  | cons t rest ih => simp [templateMarks, ih]

/-- The marks of one instance of a template. -/
def Template.instanceMarks (N : String → Nat) (t : Template) (instancePath : String)
    (position : Extent) : List (Mark Field) × Extent :=
  let position := position.align t.alignment
  let rest := templateMarks N instancePath (position + t.size) t.children
  ((Template.placed instancePath position t.fields).map .entry ++ rest.1, rest.2)

theorem Template.marks_of_isEmpty {t : Template} (h : t.name = "") (N : String → Nat)
    (path : String) (start : Extent) : t.marks N path start = ([], start.align t.alignment) := by
  obtain ⟨name, alignment, counter, size, fields, children⟩ := t
  simp only at h
  subst h
  rw [Template.marks]
  rfl

theorem Template.marks_of_ne {t : Template} (h : t.name ≠ "") (N : String → Nat)
    (path : String) (start : Extent) :
    t.marks N path start =
      (Template.asked path t.counter ++ (inSeries (t.instanceMarks N)
          (Template.instances N path t.name t.counter) (start.align t.alignment)).1,
        (inSeries (t.instanceMarks N) (Template.instances N path t.name t.counter)
          (start.align t.alignment)).2.align t.alignment) := by
  obtain ⟨name, alignment, counter, size, fields, children⟩ := t
  have hname : name.isEmpty = false := by simpa using h
  rw [Template.marks, hname]
  rfl

/-- The marks of the variable part of a layout, and the size of the record. -/
def Layout.marks (l : Layout) (N : String → Nat) : List (Mark Field) × Extent :=
  templateMarks N "" l.size l.templates

namespace Source

/-! ## What a buffer says about marks -/

/-- Whether a buffer bears out some marks, after some fields were found: each
counter is among the fields known by then and holds its number, and each field
ends within the buffer. -/
def Admits (src : Source) (N : String → Nat) : List Field → List (Mark Field) → Prop
  | _, [] => True
  | found, .counter p :: rest => src.count found p = .ok (N p) ∧ src.Admits N found rest
  | found, .entry f :: rest =>
    (f.span src.rep).stop ≤ 8 * src.buffer.length ∧ src.Admits N (found ++ [f]) rest

theorem admits_append {src : Source} {N : String → Nat} {a b : List (Mark Field)}
    {found : List Field} : src.Admits N found (a ++ b) ↔
      src.Admits N found a ∧ src.Admits N (found ++ Mark.entries a) b := by
  induction a generalizing found with
  | nil => simp [Admits]
  | cons m rest ih =>
    cases m with
    | counter p =>
      have hentries : Mark.entries (.counter p :: rest) = Mark.entries rest := rfl
      simp only [List.cons_append, Admits, ih, and_assoc, hentries]
    | entry f =>
      have hentries : Mark.entries (.entry f :: rest) = f :: Mark.entries rest := rfl
      simp only [List.cons_append, Admits, ih, and_assoc, hentries, List.append_assoc,
        List.nil_append]

theorem admits_map_entry {src : Source} {N : String → Nat} {fs found : List Field} :
    src.Admits N found (fs.map .entry) ↔
      ∀ f ∈ fs, (f.span src.rep).stop ≤ 8 * src.buffer.length := by
  induction fs generalizing found with
  | nil => simp [Admits]
  | cons f rest ih => simp [Admits, ih]

/-- A counter is the first field of its name, and it holds a number that the
buffer has bits for. -/
theorem count_eq_ok_iff {src : Source} {found : List Field} {p : String} {n : Nat} :
    src.count found p = .ok n ↔ ∃ f x,
      (src.fixed.find? (·.name == p)).or (found.find? (·.name == p)) = some f ∧
        f.read src.rep src.buffer = .ok x ∧ x.natural? = some n ∧ n ≤ 8 * src.buffer.length := by
  unfold count
  cases (src.fixed.find? (·.name == p)).or (found.find? (·.name == p)) with
  | none => simp [throw, throwThe, MonadExceptOf.throw]
  | some f =>
    cases hread : f.read src.rep src.buffer with
    | error e => simp [hread, bind, Except.bind]
    | ok x =>
      cases hx : x.natural? with
      | none => simp [hread, hx, bind, Except.bind, throw, throwThe, MonadExceptOf.throw]
      | some m =>
        by_cases hm : 8 * src.buffer.length < m
        · simp only [hread, hx, hm, bind, Except.bind, if_true]
          constructor
          · intro h
            cases h
          · rintro ⟨_, _, hf, hv, hn, hle⟩
            cases hf
            rw [hread] at hv
            cases hv
            rw [hx] at hn
            cases hn
            omega
        · simp only [hread, hx, hm, bind, Except.bind, if_false]
          constructor
          · intro h
            cases h
            exact ⟨f, x, rfl, hread, hx, by omega⟩
          · rintro ⟨_, _, hf, hv, hn, -⟩
            cases hf
            rw [hread] at hv
            cases hv
            rw [hx] at hn
            cases hn
            rfl

/-- The number that a counter holds, given the fields found so far. -/
def held? (src : Source) (found : List Field) (path : String) : Option Nat :=
  ((src.fixed.find? (·.name == path)).or (found.find? (·.name == path))).bind fun f =>
    (f.read src.rep src.buffer).toOption.bind Value.natural?

theorem held?_eq_some_iff {src : Source} {found : List Field} {p : String} {n : Nat} :
    src.held? found p = some n ↔ ∃ f x,
      (src.fixed.find? (·.name == p)).or (found.find? (·.name == p)) = some f ∧
        f.read src.rep src.buffer = .ok x ∧ x.natural? = some n := by
  unfold held?
  rw [Option.bind_eq_some_iff]
  refine exists_congr fun f => ?_
  cases f.read src.rep src.buffer <;> simp [Except.toOption]

/-- A count is the number that is held, as long as the buffer has bits for it. -/
theorem count_eq_ok_iff_held? {src : Source} {found : List Field} {p : String} {n : Nat} :
    src.count found p = .ok n ↔ src.held? found p = some n ∧ n ≤ 8 * src.buffer.length := by
  rw [count_eq_ok_iff, held?_eq_some_iff]
  simp only [← exists_and_right, and_assoc]

theorem held?_append {src : Source} {found : List Field} {p : String} {n : Nat}
    (h : src.held? found p = some n) (more : List Field) :
    src.held? (found ++ more) p = some n := by
  obtain ⟨f, x, hf, hx⟩ := held?_eq_some_iff.mp h
  refine held?_eq_some_iff.mpr ⟨f, x, ?_, hx⟩
  rw [List.find?_append, ← Option.or_assoc, hf]
  rfl

/-- Whether a buffer shows some marks, after some fields were found: as `Admits`, but a
counter may hold any number. -/
def Shows (src : Source) (N : String → Nat) : List Field → List (Mark Field) → Prop
  | _, [] => True
  | found, .counter p :: rest => src.held? found p = some (N p) ∧ src.Shows N found rest
  | found, .entry f :: rest =>
    (f.span src.rep).stop ≤ 8 * src.buffer.length ∧ src.Shows N (found ++ [f]) rest

/-- Every field that is shown ends within the buffer. -/
theorem Shows.entry_stop {src : Source} {N : String → Nat} {marks : List (Mark Field)}
    {found : List Field} (h : src.Shows N found marks) :
    ∀ f ∈ Mark.entries marks, (f.span src.rep).stop ≤ 8 * src.buffer.length := by
  induction marks generalizing found with
  | nil => simp
  | cons m rest ih =>
    intro f hf
    cases m with
    | counter p => exact ih h.2 f hf
    | entry g =>
      rcases List.mem_cons.mp hf with rfl | hf
      · exact h.1
      · exact ih h.2 f hf

/-- What a buffer admits it shows, and its counters hold no more than it has bits. -/
theorem admits_iff {src : Source} {N : String → Nat} {marks : List (Mark Field)}
    {found : List Field} : src.Admits N found marks ↔
      src.Shows N found marks ∧ ∀ c ∈ Mark.counters marks, N c ≤ 8 * src.buffer.length := by
  induction marks generalizing found with
  | nil => simp [Admits, Shows, Mark.counters]
  | cons m rest ih =>
    cases m with
    | counter p =>
      have hcounters : Mark.counters (.counter p :: rest) = p :: Mark.counters rest := rfl
      rw [Admits, Shows, ih, count_eq_ok_iff_held?, hcounters, List.forall_mem_cons]
      exact and_and_and_comm
    | entry f =>
      have hcounters : Mark.counters (.entry f :: rest) = Mark.counters rest := rfl
      rw [Admits, Shows, ih, hcounters, and_assoc]

/-- A counter that was found once stays the same when more fields are found. -/
theorem count_append {src : Source} {found : List Field} {p : String} {n : Nat}
    (h : src.count found p = .ok n) (more : List Field) :
    src.count (found ++ more) p = .ok n := by
  obtain ⟨hheld, hle⟩ := count_eq_ok_iff_held?.mp h
  exact count_eq_ok_iff_held?.mpr ⟨held?_append hheld more, hle⟩

end Source

end WireRecord
