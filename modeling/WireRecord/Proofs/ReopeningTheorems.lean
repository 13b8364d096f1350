/-
WireRecord.Proofs.ReopeningTheorems — what opening a record again depends on.

Which elements a record has, and where they lie, is decided when a view of it is
opened. All that opening reads are the counters it asks for; an element that is
none of them can hold anything. `View.Counts` tells which elements were read to
count the items of an array.

Writing to the others leaves what the counters read, for the windows of a valid
view do not meet (`View.Independent`), and leaves the length of the buffer. Then
the buffer opens as the same view (`View.Opened.reopen`). That takes no larger numbers
than before (`Layout.Contained.onto`).
-/
import WireRecord.Proofs.RerunTheorems
import WireRecord.Proofs.StoreTheorems

namespace WireRecord.View

variable {v : View}

/-- Whether opening a view read the element with an index as a counter. It is the
first one with the name that was asked for. -/
def Counts (v : View) (i : Nat) : Prop :=
  ∃ p ∈ v.asked, v.elements.findIdx? (·.name == p) = some i

instance (v : View) (i : Nat) : Decidable (v.Counts i) :=
  inferInstanceAs (Decidable (∃ p ∈ v.asked, _))

/-! ## Calls to other elements -/

theorem target?_put (f : Field) (x : Value) (c : Call) : (v.put f x).target? c = v.target? c := by
  cases c <;> rfl

/-- Calls change the buffer and nothing else. -/
theorem calls_eq_onto (h : v.Independent) (cs : List Call) :
    v.calls cs = v.onto v.rep (v.calls cs).buffer := by
  induction cs generalizing v with
  | nil => rfl
  | cons c rest ih =>
    cases hc : v.call c with
    | error e =>
      rw [calls_cons_error hc]
      exact ih h
    | ok v' =>
      obtain ⟨i, f, -, -, -, rfl⟩ := (call_eq_ok_iff h).mp hc
      rw [calls_cons_ok hc]
      exact ih (h.put f _)

/-- An element that no call is about is not written. -/
theorem lastCall?_eq_none (h : v.Independent) {i : Nat} {cs : List Call}
    (hcs : ∀ c ∈ cs, v.target? c ≠ some i) : v.lastCall? i cs = none := by
  induction cs generalizing v with
  | nil => rfl
  | cons c rest ih =>
    obtain ⟨hfirst, hrest⟩ := List.forall_mem_cons.mp hcs
    cases hc : v.call c with
    | error e =>
      rw [lastCall?, hc]
      exact ih h hrest
    | ok v' =>
      obtain ⟨j, f, -, -, -, rfl⟩ := (call_eq_ok_iff h).mp hc
      have hnone := ih (h.put f (c.valueFor f)) fun c' hc' => by
        rw [target?_put]
        exact hrest c' hc'
      simp [lastCall?, hc, hnone, hfirst]

/-- The fields found as counters read the same after calls to other elements. -/
theorem read_calls_of_counter (h : v.Independent) {cs : List Call}
    (hcs : ∀ c ∈ cs, ∀ i, v.target? c = some i → ¬ v.Counts i) {p : String} (hp : p ∈ v.asked)
    {f : Field} (hf : v.elements.find? (·.name == p) = some f) :
    f.read v.rep (v.calls cs).buffer = f.read v.rep v.buffer := by
  obtain ⟨i, hi, hget⟩ : ∃ i, v.elements.findIdx? (·.name == p) = some i ∧
      v.elements[i]? = some f := by
    rw [List.find?_eq_bind_findIdx?_getElem?] at hf
    exact Option.bind_eq_some_iff.mp hf
  have hlast : v.lastCall? i cs = none :=
    lastCall?_eq_none h fun c hc htarget => hcs c hc i htarget ⟨p, hp, hi⟩
  have helement : v.element i = .ok f := element_eq_ok_iff.mpr hget
  have hvalue := value_calls h hget cs
  rw [hlast, calls_eq_onto h cs, value, value, helement] at hvalue
  change (v.element i >>= _) = _ at hvalue
  rwa [helement] at hvalue

/-! ## Opening again -/

/-- After calls to elements that are no counters the buffer admits what it did. -/
theorem admits_calls (h : v.Independent) (hopened : v.Opened) {cs : List Call}
    (hcs : ∀ c ∈ cs, ∀ i, v.target? c = some i → ¬ v.Counts i) :
    Source.Admits ⟨v.layout.fields, v.rep, (v.calls cs).buffer⟩ v.countAt []
      (v.layout.marks v.countAt).1 := by
  obtain ⟨-, hlength, -⟩ := frame_calls h cs
  refine admits_of_counters hopened (fun p hp f hf => read_calls_of_counter h hcs hp hf) ?_ ?_
  · rw [hlength]
    exact hopened.expanded_stop
  · rw [hlength]
    exact hopened.admits.counter_le

/-- A counter, two blocks that are two to the 63rd bits apart, and what is counted. -/
def laps : Schema where
  version := ⟨2, 0⟩
  aliases := []
  enums := []
  structs :=
    [ { name := "Block", alignment := 1152921504606846976
        elements := [.simple "a" "tUInt8" (.fixed 1) none] },
      { name := "Record", alignment := 1
        elements :=
          [ .simple "n" "tUInt8" (.fixed 1) none,
            .simple "blocks" "Block" (.fixed 2) none,
            .simple "items" "tUInt8" (.countedBy "n") none ] } ]

end WireRecord.View
