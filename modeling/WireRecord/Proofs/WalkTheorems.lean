/-
WireRecord.Proofs.WalkTheorems — how far a buffer goes along with a layout.

The marks of a layout depend on the numbers that its counters hold, and these are not
known before the counters are reached. Yet there is just one walk. The marks for two
ways to hold numbers are the same up to the first counter that holds two different ones
(`Forks`, `Layout.parallel_marks`), and a buffer shows a single number there. So what is
reached, `Layout.Reaches`, does not depend on the numbers further on
(`Source.Shows.reach`).

A walk that meets no obstacle gets to the end (`Layout.exists_shows`): each step takes in
one more mark, the numbers read so far say what comes next, and since a number has 64
bits there are only so many marks.
-/
import WireRecord.Proofs.ExpansionTheorems
import WireRecord.Proofs.StretchTheorems

namespace WireRecord

/-! ## Two ways to hold numbers -/

/-- Whether two lists of marks are the same up to a counter that holds one number for the
first and another one for the second. -/
inductive Forks (N M : String → Nat) : List (Mark Field) → List (Mark Field) → Prop where
  | nil : Forks N M [] []
  | entry (f : Field) {a b : List (Mark Field)} (h : Forks N M a b) :
    Forks N M (.entry f :: a) (.entry f :: b)
  | counter (p : String) {a b : List (Mark Field)} (h : N p = M p → Forks N M a b) :
    Forks N M (.counter p :: a) (.counter p :: b)

namespace Forks

variable {N M : String → Nat} {a b c d : List (Mark Field)}

theorem refl (a : List (Mark Field)) : Forks N M a a := by
  induction a with
  | nil => exact .nil
  | cons m rest ih =>
    cases m with
    | counter p => exact .counter p fun _ => ih
    | entry f => exact .entry f ih

theorem append (h : Forks N M a b)
    (hrest : (∀ p ∈ Mark.counters a, N p = M p) → Forks N M c d) :
    Forks N M (a ++ c) (b ++ d) := by
  induction h with
  | nil => exact hrest (by simp [Mark.counters])
  | entry f _ ih => exact .entry f (ih hrest)
  | counter p _ ih =>
    refine .counter p fun heq => ih heq fun hagree => hrest fun q hq => ?_
    rcases List.mem_cons.mp hq with rfl | hq
    · exact heq
    · exact hagree q hq

/-- As far as the counters hold the same, so do the marks go on the same. -/
theorem exists_eq_append (h : Forks N M (a ++ c) b) (hagree : ∀ p ∈ Mark.counters a, N p = M p) :
    ∃ d, b = a ++ d ∧ Forks N M c d := by
  induction a generalizing b with
  | nil => exact ⟨b, rfl, h⟩
  | cons m rest ih =>
    cases h with
    | entry f h =>
      obtain ⟨d, rfl, hd⟩ := ih h hagree
      exact ⟨d, rfl, hd⟩
    | counter p h =>
      have hp := hagree p List.mem_cons_self
      obtain ⟨d, rfl, hd⟩ := ih (h hp) fun q hq => hagree q (List.mem_cons_of_mem p hq)
      exact ⟨d, rfl, hd⟩

/-- What comes next is the same mark on both sides. -/
theorem exists_eq_cons {k : Mark Field} (h : Forks N M (k :: a) b) : ∃ d, b = k :: d := by
  cases h with
  | entry f _ => exact ⟨_, rfl⟩
  | counter p _ => exact ⟨_, rfl⟩

end Forks

/-- Marks and the position behind them, for two ways to hold numbers: where the marks are
the same throughout, so is the position. -/
structure Parallel (N M : String → Nat) (x y : List (Mark Field) × Extent) : Prop where
  forks : Forks N M x.1 y.1
  eq : (∀ p ∈ Mark.counters x.1, N p = M p) → x = y

namespace Parallel

variable {N M : String → Nat}

theorem refl (x : List (Mark Field) × Extent) : Parallel N M x x := ⟨.refl _, fun _ => rfl⟩

/-- What goes on from the position behind some marks. -/
theorem andThen {x y : List (Mark Field) × Extent}
    {f g : Extent → List (Mark Field) × Extent} (h : Parallel N M x y)
    (hrest : ∀ position, Parallel N M (f position) (g position)) :
    Parallel N M (x.1 ++ (f x.2).1, (f x.2).2) (y.1 ++ (g y.2).1, (g y.2).2) where
  forks := h.forks.append fun hagree => by
    rw [h.eq hagree]
    exact (hrest y.2).forks
  eq hagree := by
    rw [Mark.counters, List.filterMap_append] at hagree
    obtain ⟨hfirst, hlast⟩ := List.forall_mem_append.mp hagree
    rw [h.eq hfirst] at hlast ⊢
    rw [(hrest y.2).eq hlast]

theorem inSeries {one two : String → Extent → List (Mark Field) × Extent}
    (hone : ∀ p start, Parallel N M (one p start) (two p start)) (ps : List String)
    (start : Extent) :
    Parallel N M (WireRecord.inSeries one ps start) (WireRecord.inSeries two ps start) := by
  induction ps generalizing start with
  | nil => exact .refl _
  | cons p rest ih => exact (hone p start).andThen ih

end Parallel

section Parallel

variable (N M : String → Nat)

mutual

theorem Template.parallel_marks : ∀ (t : Template) (path : String) (start : Extent),
    Parallel N M (t.marks N path start) (t.marks M path start)
  | ⟨name, alignment, counter, size, fields, children⟩, path, start => by
      by_cases hname : name = ""
      · rw [Template.marks_of_isEmpty hname, Template.marks_of_isEmpty hname]
        exact .refl _
      · have hseries : ∀ ps position, Parallel N M
            (inSeries (Template.instanceMarks N ⟨name, alignment, counter, size, fields, children⟩)
              ps position)
            (inSeries (Template.instanceMarks M ⟨name, alignment, counter, size, fields, children⟩)
              ps position) := by
          refine Parallel.inSeries fun p position => ?_
          exact (Parallel.refl ((Template.placed p (position.align alignment) fields).map .entry,
            position.align alignment + size)).andThen fun position =>
              templateMarks_parallel children p position
        rw [Template.marks_of_ne hname, Template.marks_of_ne hname]
        cases counter with
        | none =>
          have h := hseries [Path.join path name] (start.align alignment)
          exact ⟨h.forks, fun hagree => by rw [Template.instances, Template.instances, h.eq hagree]⟩
        | some c =>
          by_cases hc : N (Path.join path c) = M (Path.join path c)
          · have h := hseries (Template.instances N path name (some c)) (start.align alignment)
            have hinstances : Template.instances M path name (some c) =
                Template.instances N path name (some c) := by
              rw [Template.instances, Template.instances, hc]
            rw [hinstances]
            refine ⟨.counter _ fun _ => h.forks, fun hagree => ?_⟩
            rw [h.eq fun p hp => hagree p (List.mem_cons_of_mem _ hp)]
          · exact ⟨.counter _ fun heq => absurd heq hc,
              fun hagree => absurd (hagree _ List.mem_cons_self) hc⟩

theorem templateMarks_parallel : ∀ (ts : List Template) (path : String) (start : Extent),
    Parallel N M (templateMarks N path start ts) (templateMarks M path start ts)
  | [], _, _ => .refl _
  | t :: rest, path, start =>
      (t.parallel_marks path start).andThen fun position => templateMarks_parallel rest path position

end

end Parallel

/-! ## A bound -/

mutual

/-- The most marks that a template can have when no counter holds more than a number. -/
def Template.most (bound : Nat) : Template → Nat
  | ⟨_, _, _, _, fields, children⟩ =>
    1 + (bound + 1) * (fields.length + templatesMost bound children)

/-- The most marks that templates following one another can have. -/
def templatesMost (bound : Nat) : List Template → Nat
  | [] => 0
  | t :: rest => t.most bound + templatesMost bound rest

end

theorem length_inSeries_le {one : String → Extent → List (Mark Field) × Extent} {bound : Nat}
    (hone : ∀ p start, (one p start).1.length ≤ bound) (ps : List String) (start : Extent) :
    (inSeries one ps start).1.length ≤ ps.length * bound := by
  induction ps generalizing start with
  | nil => simp [inSeries]
  | cons p rest ih =>
    have hfirst := hone p start
    have hrest := ih (one p start).2
    rw [inSeries, List.length_append, List.length_cons, Nat.add_mul, Nat.one_mul]
    omega

section Bound

variable {N : String → Nat} {bound : Nat}

theorem Template.length_instances_le (hN : ∀ p, N p ≤ bound) (path name : String)
    (counter : Option String) : (Template.instances N path name counter).length ≤ bound + 1 := by
  cases counter with
  | none => simp [instances]
  | some c =>
    have h := hN (Path.join path c)
    rw [instances, List.length_map, List.length_range]
    omega

mutual

theorem Template.length_marks_le (hN : ∀ p, N p ≤ bound) : ∀ (t : Template) (path : String)
    (start : Extent), (t.marks N path start).1.length ≤ t.most bound
  | ⟨name, alignment, counter, size, fields, children⟩, path, start => by
      by_cases hname : name = ""
      · rw [Template.marks_of_isEmpty hname]
        exact Nat.zero_le _
      · rw [Template.marks_of_ne hname, Template.most, List.length_append]
        have hasked : (Template.asked path counter : List (Mark Field)).length ≤ 1 := by
          cases counter <;> simp [Template.asked]
        have hone : ∀ p position, (Template.instanceMarks N
            ⟨name, alignment, counter, size, fields, children⟩ p position).1.length ≤
            fields.length + templatesMost bound children := by
          intro p position
          have hchildren := templateMarks_length_le hN children p (position.align alignment + size)
          simp only [Template.instanceMarks, Template.placed, List.length_append, List.length_map]
          omega
        have hseries := length_inSeries_le hone (Template.instances N path name counter)
          (start.align alignment)
        have hinstances := Template.length_instances_le hN path name counter
        exact Nat.add_le_add hasked
          (Nat.le_trans hseries (Nat.mul_le_mul_right _ hinstances))

theorem templateMarks_length_le (hN : ∀ p, N p ≤ bound) : ∀ (ts : List Template)
    (path : String) (start : Extent), (templateMarks N path start ts).1.length ≤ templatesMost bound ts
  | [], _, _ => Nat.le_refl 0
  | t :: rest, path, start => by
      rw [templateMarks, templatesMost, List.length_append]
      exact Nat.add_le_add (t.length_marks_le hN path start)
        (templateMarks_length_le hN rest path _)

end

end Bound

/-! ## What is reached -/

namespace Source

variable {src : Source} {N M : String → Nat}

theorem shows_append {a b : List (Mark Field)} {found : List Field} :
    src.Shows N found (a ++ b) ↔
      src.Shows N found a ∧ src.Shows N (found ++ Mark.entries a) b := by
  induction a generalizing found with
  | nil => simp [Shows]
  | cons m rest ih =>
    cases m with
    | counter p =>
      have hentries : Mark.entries (.counter p :: rest) = Mark.entries rest := rfl
      simp only [List.cons_append, Shows, ih, and_assoc, hentries]
    | entry f =>
      have hentries : Mark.entries (.entry f :: rest) = f :: Mark.entries rest := rfl
      simp only [List.cons_append, Shows, ih, and_assoc, hentries, List.append_assoc,
        List.nil_append]

/-- Whether a buffer shows some marks can be found out. -/
instance decShows (src : Source) (N : String → Nat) : (found : List Field) →
    (marks : List (Mark Field)) → Decidable (src.Shows N found marks)
  | _, [] => inferInstanceAs (Decidable True)
  | found, .counter _ :: rest => @instDecidableAnd _ _ inferInstance (decShows src N found rest)
  | found, .entry f :: rest =>
    @instDecidableAnd _ _ inferInstance (decShows src N (found ++ [f]) rest)

namespace Shows

variable {marks done rest b : List (Mark Field)} {found : List Field}

theorem held (h : src.Shows N found marks) :
    ∀ c ∈ Mark.counters marks, src.held? (found ++ Mark.entries marks) c = some (N c) := by
  induction marks generalizing found with
  | nil => simp [Mark.counters]
  | cons m rest ih =>
    intro c hc
    cases m with
    | counter p =>
      rcases List.mem_cons.mp hc with rfl | hc
      · exact held?_append h.1 (Mark.entries rest)
      · exact ih h.2 c hc
    | entry f =>
      have hmore := ih h.2 c hc
      rw [List.append_assoc] at hmore
      exact hmore

theorem congr (h : src.Shows N found marks)
    (hagree : ∀ c ∈ Mark.counters marks, N c = M c) : src.Shows M found marks := by
  induction marks generalizing found with
  | nil => trivial
  | cons m rest ih =>
    cases m with
    | counter p =>
      have hp := hagree p List.mem_cons_self
      exact ⟨hp ▸ h.1, ih h.2 fun c hc => hagree c (List.mem_cons_of_mem p hc)⟩
    | entry f => exact ⟨h.1, ih h.2 hagree⟩

/-- What one way to hold numbers reaches is reached by any that gets to the end. -/
theorem reach {k : Mark Field} (h : src.Shows N found done) (hall : src.Shows M found b)
    (hforks : Forks N M (done ++ k :: rest) b) : ∃ rest', b = done ++ k :: rest' := by
  induction done generalizing found b with
  | nil => exact hforks.exists_eq_cons
  | cons m done ih =>
    cases hforks with
    | entry f hforks =>
      obtain ⟨rest', rfl⟩ := ih h.2 hall.2 hforks
      exact ⟨rest', rfl⟩
    | counter p hforks =>
      have heq : N p = M p := Option.some.inj (h.1.symm.trans hall.1)
      obtain ⟨rest', rfl⟩ := ih h.2 hall.2 (hforks heq)
      exact ⟨rest', rfl⟩

end Shows

/-! ## Obstacles -/

/-- The first field of a name, given the fields found so far. -/
def known? (src : Source) (found : List Field) (path : String) : Option Field :=
  (src.fixed.find? (·.name == path)).or (found.find? (·.name == path))

/-- What keeps a mark from being taken in, given the fields found so far: a counter that
is not known, lies outside the buffer or does not hold a natural number, or a field that
ends outside the buffer. -/
inductive Obstacle (src : Source) (found : List Field) : Mark Field → Prop where
  | absent {p : String} (known : src.known? found p = none) : Obstacle src found (.counter p)
  | outside {p : String} {f : Field} (known : src.known? found p = some f)
    (stop : 8 * src.buffer.length < (f.span src.rep).stop) : Obstacle src found (.counter p)
  | unnatural {p : String} {f : Field} {x : Value} (known : src.known? found p = some f)
    (read : f.read src.rep src.buffer = .ok x) (none : x.natural? = none) :
    Obstacle src found (.counter p)
  | beyond {f : Field} (stop : 8 * src.buffer.length < (f.span src.rep).stop) :
    Obstacle src found (.entry f)

variable {found : List Field}

/-- A mark that is taken in is no obstacle. -/
theorem Shows.not_obstacle {k : Mark Field} (h : src.Shows N found [k]) :
    ¬ src.Obstacle found k := by
  intro hobstacle
  cases hobstacle with
  | absent known =>
    obtain ⟨f, x, hf, -, -⟩ := held?_eq_some_iff.mp h.1
    rw [known?, hf] at known
    cases known
  | outside known stop =>
    obtain ⟨f, x, hf, hread, -⟩ := held?_eq_some_iff.mp h.1
    rw [known?, hf] at known
    cases known
    have hle := (Field.read_eq_ok hread).1.stop_le
    omega
  | unnatural known read none =>
    obtain ⟨f, x, hf, hread, hn⟩ := held?_eq_some_iff.mp h.1
    rw [known?, hf] at known
    cases known
    rw [hread] at read
    cases read
    rw [hn] at none
    cases none
  | beyond stop =>
    have hle := h.1
    omega

/-- A counter that is no obstacle holds a number. -/
theorem exists_held?_of_not_obstacle {p : String}
    (hwell : ∀ f ∈ src.fixed ++ found, f.WellPlaced) (h : ¬ src.Obstacle found (.counter p)) :
    ∃ n, src.held? found p = some n := by
  cases hknown : src.known? found p with
  | none => exact absurd (.absent hknown) h
  | some f =>
    have hmem : f ∈ src.fixed ++ found := by
      rw [known?, ← List.find?_append] at hknown
      exact List.mem_of_find?_eq_some hknown
    by_cases hstop : 8 * src.buffer.length < (f.span src.rep).stop
    · exact absurd (.outside hknown hstop) h
    · have hread := Field.read_of_accessible
        ((hwell f hmem).accessible (Nat.not_lt.mp hstop))
      cases hx : (f.valueIn src.rep src.buffer).natural? with
      | none => exact absurd (.unnatural hknown hread hx) h
      | some n => exact ⟨n, held?_eq_some_iff.mpr ⟨f, _, hknown, hread, hx⟩⟩

end Source

/-! ## To the end -/

/-- A natural number that a value stands for has 64 bits. -/
theorem Value.natural?_lt {v : Value} {n : Nat} (h : v.natural? = some n) : n < 2 ^ 64 := by
  cases v with
  | bool b =>
    cases b <;> cases h <;> decide
  | uint w x =>
    have hx : x.toNat < 2 ^ 64 :=
      Nat.lt_of_lt_of_le x.isLt (Nat.pow_le_pow_right (by decide) w.bits_le)
    have hn : x.toNat = n := Option.some.inj h
    omega
  | sint w x =>
    have hx : x.toNat < 2 ^ 64 :=
      Nat.lt_of_lt_of_le x.isLt (Nat.pow_le_pow_right (by decide) w.bits_le)
    have hle : x.toInt ≤ x.toNat := by
      rw [BitVec.toInt_eq_toNat_cond]
      split <;> omega
    have hn : x.toInt = n := by
      unfold natural? integer? at h
      split at h
      · rename_i m hm
        cases h
        exact Option.some.inj hm
      · cases h
    omega
  | float f x => cases h

/-- The number that a counter holds, given the fields found so far; zero if it holds
none. -/
def Source.number (src : Source) (found : List Field) (path : String) : Nat :=
  (src.held? found path).getD 0

theorem Source.number_le (src : Source) (found : List Field) (path : String) :
    src.number found path ≤ 2 ^ 64 := by
  unfold number
  cases h : src.held? found path with
  | none => exact Nat.zero_le _
  | some n =>
    obtain ⟨f, x, -, -, hx⟩ := held?_eq_some_iff.mp h
    exact Nat.le_of_lt (Value.natural?_lt hx)

/-- A mark that is no obstacle is shown, with the numbers read by then. -/
theorem Source.shows_of_not_obstacle {src : Source} {found : List Field} {k : Mark Field}
    (hwell : ∀ f ∈ src.fixed ++ found, f.WellPlaced) (hfree : ¬ src.Obstacle found k) :
    src.Shows (src.number (found ++ Mark.entries [k])) found [k] := by
  cases k with
  | entry f => exact ⟨Nat.not_lt.mp fun hlt => hfree (.beyond hlt), trivial⟩
  | counter p =>
    obtain ⟨n, hn⟩ := exists_held?_of_not_obstacle hwell hfree
    have hsame : found ++ Mark.entries [.counter p] = found := List.append_nil found
    refine ⟨?_, trivial⟩
    rw [hsame, number, hn]
    rfl

namespace Layout

/-- Whether opening on a buffer gets to a mark, with all marks before it taken in. What
counters hold that were not reached by then does not matter. -/
def Reaches (l : Layout) (r : Representation) (b : Bytes) (done : List (Mark Field))
    (k : Mark Field) : Prop :=
  ∃ N rest, (l.marks N).1 = done ++ k :: rest ∧ Source.Shows ⟨l.fields, r, b⟩ N [] done

/-- Whether opening on a buffer gets to an obstacle. -/
def Obstructed (l : Layout) (r : Representation) (b : Bytes) : Prop :=
  ∃ done k, l.Reaches r b done k ∧ Source.Obstacle ⟨l.fields, r, b⟩ (Mark.entries done) k

variable {l : Layout} {r : Representation} {b : Bytes}

theorem parallel_marks (l : Layout) (N M : String → Nat) :
    Parallel N M (l.marks N) (l.marks M) :=
  templateMarks_parallel N M l.templates "" l.size

/-- A buffer that shows all marks of a layout has them all reached and meets none but
these. -/
theorem Reaches.of_shows {M : String → Nat} {done : List (Mark Field)} {k : Mark Field}
    (h : l.Reaches r b done k) (hall : Source.Shows ⟨l.fields, r, b⟩ M [] (l.marks M).1) :
    ∃ rest, (l.marks M).1 = done ++ k :: rest ∧
      Source.Shows ⟨l.fields, r, b⟩ M (Mark.entries done) [k] := by
  obtain ⟨N, rest, hmarks, hdone⟩ := h
  have hforks := (l.parallel_marks N M).forks
  rw [hmarks] at hforks
  obtain ⟨rest', heq⟩ := hdone.reach hall hforks
  rw [heq, ← List.singleton_append, Source.shows_append, Source.shows_append] at hall
  exact ⟨rest', heq, hall.2.1⟩

theorem not_obstructed_of_shows {M : String → Nat}
    (hall : Source.Shows ⟨l.fields, r, b⟩ M [] (l.marks M).1) : ¬ l.Obstructed r b := by
  rintro ⟨done, k, hreaches, hobstacle⟩
  obtain ⟨-, -, hshows⟩ := hreaches.of_shows hall
  exact hshows.not_obstacle hobstacle

/-- Some marks that were taken in, with what the counters hold by then. -/
structure Walked (l : Layout) (r : Representation) (b : Bytes) (done : List (Mark Field)) :
    Prop where
  marks_eq : ∃ rest,
    (l.marks (Source.number ⟨l.fields, r, b⟩ (Mark.entries done))).1 = done ++ rest
  shows : Source.Shows ⟨l.fields, r, b⟩
    (Source.number ⟨l.fields, r, b⟩ (Mark.entries done)) [] done

/-- One mark more is taken in unless it is an obstacle, or there is none. -/
theorem Walked.step {done : List (Mark Field)} (h : l.Walked r b done)
    (hwell : ∀ N, ∀ f ∈ l.fields ++ Mark.entries (l.marks N).1, f.WellPlaced)
    (hclear : ¬ l.Obstructed r b) :
    (∃ N, Source.Shows ⟨l.fields, r, b⟩ N [] (l.marks N).1) ∨ ∃ k, l.Walked r b (done ++ [k]) := by
  obtain ⟨⟨rest, hmarks⟩, hshows⟩ := h
  cases rest with
  | nil =>
    rw [List.append_nil] at hmarks
    exact .inl ⟨_, by rw [hmarks]; exact hshows⟩
  | cons k rest =>
    refine .inr ⟨k, ?_⟩
    have hfree : ¬ Source.Obstacle ⟨l.fields, r, b⟩ (Mark.entries done) k := fun hobstacle =>
      hclear ⟨done, k, ⟨_, rest, hmarks, hshows⟩, hobstacle⟩
    -- the counters met so far hold the same when one more field is found
    have hagree : ∀ c ∈ Mark.counters done,
        Source.number ⟨l.fields, r, b⟩ (Mark.entries done) c =
          Source.number ⟨l.fields, r, b⟩ (Mark.entries (done ++ [k])) c := by
      intro c hc
      have hheld := hshows.held c hc
      rw [List.nil_append] at hheld
      rw [Mark.entries_append, Source.number, Source.number, hheld, Source.held?_append hheld]
    constructor
    · have hforks := (l.parallel_marks (Source.number ⟨l.fields, r, b⟩ (Mark.entries done))
        (Source.number ⟨l.fields, r, b⟩ (Mark.entries (done ++ [k])))).forks
      rw [hmarks] at hforks
      obtain ⟨more, hmore, hforks⟩ := hforks.exists_eq_append hagree
      obtain ⟨rest', rfl⟩ := hforks.exists_eq_cons
      exact ⟨rest', by rw [hmore, List.append_assoc]; rfl⟩
    · rw [Source.shows_append, List.nil_append]
      refine ⟨hshows.congr hagree, ?_⟩
      rw [Mark.entries_append]
      refine Source.shows_of_not_obstacle (fun f hf => ?_) hfree
      refine hwell (Source.number ⟨l.fields, r, b⟩ (Mark.entries done)) f ?_
      rw [hmarks, Mark.entries_append, ← List.append_assoc]
      exact List.mem_append_left _ hf

/-- Where no obstacle is reached, the buffer shows all marks. -/
theorem exists_shows (hwell : ∀ N, ∀ f ∈ l.fields ++ Mark.entries (l.marks N).1, f.WellPlaced)
    (hclear : ¬ l.Obstructed r b) : ∃ N, Source.Shows ⟨l.fields, r, b⟩ N [] (l.marks N).1 := by
  by_contra hnone
  have hlong : ∀ n, ∃ done, done.length = n ∧ l.Walked r b done := by
    intro n
    induction n with
    | zero => exact ⟨[], rfl, ⟨_, rfl⟩, trivial⟩
    | succ n ih =>
      obtain ⟨done, rfl, hdone⟩ := ih
      obtain ⟨k, hk⟩ := (hdone.step hwell hclear).resolve_left hnone
      exact ⟨done ++ [k], by simp, hk⟩
  obtain ⟨done, hlength, ⟨rest, hmarks⟩, -⟩ := hlong (templatesMost (2 ^ 64) l.templates + 1)
  have hle := templateMarks_length_le (Source.number_le ⟨l.fields, r, b⟩ (Mark.entries done))
    l.templates "" l.size
  rw [Layout.marks] at hmarks
  rw [hmarks, List.length_append] at hle
  omega

end Layout

end WireRecord
