/-
WireRecord.Proofs.RerunTheorems — the same expansion on another buffer.

An expansion reads its buffer for counters only; of a field it asks whether the buffer
is long enough. So on a buffer of the same length, in which the counters hold the same,
it takes the same course.

For exact numbers this follows from the marks. What matters here is that it computes the
same numbers on its way: if words hold them for one buffer, they do for the other. So the
run of the checked arithmetic is carried over step by step. Its steps being steady, what
it found up to any point is what the marks say, and that is what the other buffer has to
admit.
-/
import WireRecord.Proofs.ArithmeticTheorems
import WireRecord.Proofs.ExpansionTheorems

namespace WireRecord

/-! ## Places in words -/

section Checked

variable {x y : Expansion} {stop : Extent}

/-- An aligned place that the checked arithmetic ends with is the exact one. -/
theorem Extent.Bounded.checked_align {start : Extent} (h : start.Bounded) {alignment : Nat}
    (hends : Ends (liftM (Arithmetic.checked.align start alignment) : Expanding Extent) x stop y) :
    stop = start.align alignment ∧ y = x ∧ stop.Bounded := by
  obtain ⟨hexact, hbounded⟩ := (Arithmetic.steady_align h alignment).ends hends
  rw [Arithmetic.exact_align, liftM_ok, Ends.pure_iff] at hexact
  obtain ⟨rfl, rfl⟩ := hexact
  exact ⟨rfl, rfl, hbounded⟩

/-- So is the place behind a size. -/
theorem Extent.checked_advance {start size : Extent}
    (hends : Ends (liftM (Arithmetic.checked.advance start size) : Expanding Extent) x stop y) :
    stop = start + size ∧ y = x ∧ stop.Bounded := by
  obtain ⟨hexact, hbounded⟩ := (Arithmetic.steady_advance start size).ends hends
  rw [Arithmetic.exact_advance, liftM_ok, Ends.pure_iff] at hexact
  obtain ⟨rfl, rfl⟩ := hexact
  exact ⟨rfl, rfl, hbounded⟩

end Checked

/-! ## Rounds -/

/-- The path of an instance of a template. -/
def Template.pathOf (t : Template) (path : String) (i : Nat) : String :=
  if t.counter.isSome then Path.item (Path.join path t.name) i else Path.join path t.name

/-- The part of an expansion that finds one instance of a template. -/
def Template.round (t : Template) (src : Source) (path : String) (m : Arithmetic)
    (position : Extent) (i : Nat) : Expanding Extent := do
  let position ← m.align position t.alignment
  t.fields.forM fun f => src.addField (t.pathOf path i) position f m
  src.expandAll (t.pathOf path i) (← m.advance position t.size) t.children m

namespace Source

theorem expand_of_ne {t : Template} (h : t.name ≠ "") (src : Source) (path : String)
    (start : Extent) (m : Arithmetic) : src.expand path start t m = (do
      let start ← m.align start t.alignment
      let n ← src.repetitions path t.counter
      note (.repeated (Path.join path t.name) n start)
      let stop ← (List.range n).foldlM (t.round src path m) start
      m.align stop t.alignment) := by
  obtain ⟨name, alignment, counter, size, fields, children⟩ := t
  have hname : name.isEmpty = false := by simpa using h
  rw [expand]
  simp only [hname, Bool.false_eq_true, if_false]
  rfl

theorem steady_round (src : Source) (t : Template) (path : String) (i : Nat) {start : Extent}
    (h : start.Bounded) : Steady Extent.Bounded fun m => t.round src path m start i := by
  unfold Template.round
  refine (Arithmetic.steady_align h t.alignment).bind fun position _ => ?_
  refine (Steady.forM (fun f => src.steady_addField _ position f) t.fields).bind fun _ _ => ?_
  refine (Arithmetic.steady_advance position t.size).bind fun behind h => ?_
  exact src.steady_expandAll t.children _ h

variable {src : Source} {N : String → Nat} {b : Bytes}

/-- What is found in a round are the marks of an instance. -/
theorem follows_round (t : Template) {path : String} {start stop : Extent} {i : Nat}
    {x x' : Expansion} (h : Ends (t.round src path .exact start i) x stop x')
    (hN : src.Agrees N x'.fields) :
    src.Follows N x x' stop (t.instanceMarks N (t.pathOf path i) start) := by
  unfold Template.round at h
  simp only [Arithmetic.exact_align, Arithmetic.exact_advance, liftM_ok, pure_bind, Ends.bind_iff,
    addFields_ends_iff] at h
  obtain ⟨_, y, ⟨hle, rfl⟩, hrest⟩ := h
  have hchildren := expandAll_sound t.children _ _ _ _ _ hrest hN
  refine ⟨hchildren.stop_eq, ?_, ?_⟩
  · rw [hchildren.fields_eq]
    simp [Template.instanceMarks]
  · rw [Template.instanceMarks, admits_append, admits_map_entry]
    exact ⟨hle, by simpa using hchildren.admits⟩

/-! ## On another buffer -/

/-- The same source with another record. -/
def onto (src : Source) (b : Bytes) : Source := { src with buffer := b }

/-- Adding a field asks for the length of the buffer only. -/
theorem addField_onto (hb : b.length = src.buffer.length) (p : String) (start : Extent) (f : Field)
    (m : Arithmetic) : (src.onto b).addField p start f m = src.addField p start f m := by
  unfold addField onto
  rw [hb]

/-- A template is repeated as often on both buffers if the counter holds the same. -/
theorem repetitions_onto {p : String} {counter : Option String} {x x' : Expansion} {n : Nat}
    (h : Ends (src.repetitions p counter) x n x') (hN : src.Agrees N x.fields)
    (hb : (src.onto b).Admits N x.fields (Template.asked p counter)) :
    Ends ((src.onto b).repetitions p counter) x n x' := by
  rw [repetitions_ends_iff] at h ⊢
  obtain ⟨rfl, hn⟩ := h
  refine ⟨rfl, ?_⟩
  cases counter with
  | none => exact hn
  | some c =>
    rw [← hN _ _ hn]
    exact hb.1

/-- What is found in rounds are the marks of the instances. -/
theorem follows_rounds (t : Template) {path : String} {is : List Nat} {start stop : Extent}
    {x x' : Expansion} (hstart : start.Bounded)
    (h : Ends (is.foldlM (t.round src path .checked) start) x stop x')
    (hN : src.Agrees N x'.fields) :
    src.Follows N x x' stop (inSeries (t.instanceMarks N) (is.map (t.pathOf path)) start) := by
  have hsteady := Steady.foldlM (fun i _ h => src.steady_round t path i h) is hstart
  exact @follows_inSeries src N (t.instanceMarks N) (t.round src path .exact) (t.pathOf path)
    (fun _ _ _ _ _ h hN => follows_round t h hN) is start x stop x' (hsteady.ends h).1 hN

/-- A round that ends in words for one buffer ends so for the other, if the children do. -/
theorem round_onto (hlength : b.length = src.buffer.length) {t : Template}
    (hchildren : ∀ (path : String) {start : Extent}, start.Bounded → ∀ (x : Expansion)
      (stop : Extent) (x' : Expansion),
      Ends (src.expandAll path start t.children .checked) x stop x' → src.Agrees N x'.fields →
      (src.onto b).Admits N x.fields (templateMarks N path start t.children).1 →
      Ends ((src.onto b).expandAll path start t.children .checked) x stop x')
    {path : String} {i : Nat} {start stop : Extent} {x x' : Expansion} (hstart : start.Bounded)
    (h : Ends (t.round src path .checked start i) x stop x') (hN : src.Agrees N x'.fields)
    (hb : (src.onto b).Admits N x.fields (t.instanceMarks N (t.pathOf path i) start).1) :
    Ends (t.round (src.onto b) path .checked start i) x stop x' := by
  unfold Template.round at h ⊢
  simp only [Ends.bind_iff, addField_onto hlength] at h ⊢
  obtain ⟨position, _, hposition, _, y, hfields, behind, z, hbehind, hrest⟩ := h
  refine ⟨position, _, hposition, (), y, hfields, behind, z, hbehind, ?_⟩
  -- what the children find starts behind the fields
  obtain ⟨rfl, rfl, -⟩ := hstart.checked_align hposition
  obtain ⟨rfl, rfl, hlast⟩ := Extent.checked_advance hbehind
  have hplaced := ((Steady.forM (fun f => src.steady_addField _ _ f) t.fields).ends hfields).1
  obtain ⟨-, rfl⟩ := addFields_ends_iff.mp hplaced
  rw [Template.instanceMarks, admits_append, Mark.entries_map_entry] at hb
  exact hchildren _ hlast _ _ _ hrest hN hb.2

/-- Rounds that end alike on both buffers, one after another. -/
theorem rounds_onto {t : Template} {path : String}
    (hround : ∀ i start x stop x', start.Bounded →
      Ends (t.round src path .checked start i) x stop x' → src.Agrees N x'.fields →
      (src.onto b).Admits N x.fields (t.instanceMarks N (t.pathOf path i) start).1 →
      Ends (t.round (src.onto b) path .checked start i) x stop x')
    (is : List Nat) {start : Extent} (hstart : start.Bounded) {x : Expansion} {stop : Extent}
    {x' : Expansion} (h : Ends (is.foldlM (t.round src path .checked) start) x stop x')
    (hN : src.Agrees N x'.fields)
    (hb : (src.onto b).Admits N x.fields
      (inSeries (t.instanceMarks N) (is.map (t.pathOf path)) start).1) :
    Ends (is.foldlM (t.round (src.onto b) path .checked) start) x stop x' := by
  induction is generalizing start x with
  | nil =>
    rw [List.foldlM_nil] at h ⊢
    exact h
  | cons i rest ih =>
    rw [List.foldlM_cons, Ends.bind_iff] at h ⊢
    obtain ⟨mid, y, hfirst, hrest⟩ := h
    obtain ⟨hexact, hmid⟩ := (src.steady_round t path i hstart).ends hfirst
    have hy : src.Agrees N y.fields := by
      rw [(follows_rounds t hmid hrest hN).fields_eq] at hN
      exact hN.of_append
    have hfollows := follows_round t hexact hy
    rw [List.map_cons, inSeries, admits_append, ← hfollows.fields_eq, ← hfollows.stop_eq] at hb
    exact ⟨mid, y, hround i start x mid y hstart hfirst hy hb.1, ih hmid hrest hb.2⟩

mutual

/-- A template that is expanded in words for one buffer is expanded so for another one of the
same length whose counters hold the same. -/
theorem expand_onto (hlength : b.length = src.buffer.length) : ∀ (t : Template) (path : String)
    {start : Extent}, start.Bounded → ∀ (x : Expansion) (stop : Extent) (x' : Expansion),
    Ends (src.expand path start t .checked) x stop x' → src.Agrees N x'.fields →
    (src.onto b).Admits N x.fields (t.marks N path start).1 →
    Ends ((src.onto b).expand path start t .checked) x stop x'
  | ⟨name, alignment, counter, size, fields, children⟩, path, start, hstart, x, stop, x', h, hN,
      hb => by
      by_cases hname : name = ""
      · -- a template without a name reads nothing
        have hempty : name.isEmpty = true := by simpa using hname
        rw [expand] at h ⊢
        simp only [hempty, if_true] at h ⊢
        exact h
      · rw [expand_of_ne hname] at h ⊢
        simp only [Ends.bind_iff, note_ends_iff] at h ⊢
        obtain ⟨first, y, hfirst, n, z, hn, _, _, rfl, last, u, hrounds, hlast⟩ := h
        obtain ⟨rfl, rfl, hbounded⟩ := hstart.checked_align hfirst
        obtain ⟨rfl, hcount⟩ := repetitions_ends_iff.mp hn
        obtain ⟨-, rfl⟩ := Ends.liftM_iff.mp hlast
        -- what was found before the rounds reads as it does behind them
        have hz : src.Agrees N z.fields := by
          have hgrowth := (follows_rounds _ hbounded hrounds hN).fields_eq
          rw [hgrowth] at hN
          exact hN.of_append
        rw [Template.marks_of_ne hname, admits_append, Template.entries_asked, List.append_nil,
          ← instances_eq_map hcount hz] at hb
        have hrounds' := rounds_onto
          (fun _ _ _ _ _ hstart h hN hb => round_onto hlength (expandAll_onto hlength children)
            hstart h hN hb) (List.range n) hbounded hrounds hN hb.2
        exact ⟨_, _, hfirst, n, _, repetitions_onto hn hz hb.1, (), _, rfl, last, _, hrounds',
          hlast⟩

theorem expandAll_onto (hlength : b.length = src.buffer.length) : ∀ (ts : List Template)
    (path : String) {start : Extent}, start.Bounded → ∀ (x : Expansion) (stop : Extent)
    (x' : Expansion), Ends (src.expandAll path start ts .checked) x stop x' →
    src.Agrees N x'.fields → (src.onto b).Admits N x.fields (templateMarks N path start ts).1 →
    Ends ((src.onto b).expandAll path start ts .checked) x stop x'
  | [], _, _, _, _, _, _, h, _, _ => by
      rw [expandAll, Ends.pure_iff] at h ⊢
      exact h
  | t :: rest, path, start, hstart, x, stop, x', h, hN, hb => by
      rw [expandAll, Ends.bind_iff] at h ⊢
      obtain ⟨mid, y, hfirst, hrest⟩ := h
      obtain ⟨hexact, hmid⟩ := (src.steady_expand t path hstart).ends hfirst
      have hfollows := expandAll_sound rest path mid y stop x'
        ((src.steady_expandAll rest path hmid).ends hrest).1 hN
      have hy : src.Agrees N y.fields := by
        rw [hfollows.fields_eq] at hN
        exact hN.of_append
      have hbefore := expand_sound t path start x mid y hexact hy
      rw [templateMarks, admits_append, ← hbefore.fields_eq, ← hbefore.stop_eq] at hb
      exact ⟨mid, y, expand_onto hlength t path hstart x mid y hfirst hy hb.1,
        expandAll_onto hlength rest path hmid y stop x' hrest hN hb.2⟩

end

end Source

/-! ## Views -/

/-- If words hold the numbers of a record in one buffer, they do in another one of the same
length that admits its marks. -/
theorem Layout.Contained.onto {l : Layout} {r : Representation} {b b' : Bytes} {v : View}
    (h : l.Contained r b) (hl : l.size.Bounded) (hv : View.openFull l r b = .ok v)
    (hlength : b'.length = b.length)
    (hadmits : Source.Admits ⟨l.fields, r, b'⟩ v.countAt [] (l.marks v.countAt).1) :
    l.Contained r b' := by
  have hchecked := (h.openFull_eq hl .checked).trans hv
  obtain ⟨rfl, rfl, rfl, x, hrun, hfields⟩ := View.openFull_eq_ok_iff.mp hchecked
  have hagrees : v.source.Agrees v.countAt x.fields := hfields ▸ v.agrees_countAt
  have hrerun := Source.expandAll_onto hlength _ "" hl _ _ x hrun hagrees hadmits
  have hopen : View.openFull v.layout v.rep b' .checked = .ok { v with buffer := b' } :=
    View.openFull_eq_ok_iff.mpr ⟨rfl, rfl, rfl, x, hrerun, hfields⟩
  exact .of_checked hopen

end WireRecord
