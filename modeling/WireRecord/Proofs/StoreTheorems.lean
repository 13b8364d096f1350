/-
WireRecord.Proofs.StoreTheorems — a view as a store of independent values.

Neighbours on the wire share bytes, so every write reads and changes bits that
belong to others. Still, where no two windows of a view meet and all of them lie
in the buffer (`View.Independent`), writing is what one expects of a store with a
cell for each element: an element reads what was last written to it, as far as
its type and its window hold it, whatever was written elsewhere before or after.
Views of compiled structs are such stores as long as words hold their places.

A `Call` is one request to write. `View.call_eq_ok_iff` says which of them are
granted, and a granted one is a `View.put`. What one `put` does is said in the
three lemmas on it; a run of calls is an induction with these.
-/
import WireRecord.Proofs.ArrangementTheorems
import WireRecord.Proofs.TransferTheorems
import WireRecord.View.Lookup

namespace WireRecord

/-! ## Calls -/

/-- A request to write an element of a view. -/
inductive Call where
  /-- A value for the element with an index. -/
  | value (index : Nat) (x : Value)
  /-- A value, as native bytes, for the element with an index. -/
  | raw (index : Nat) (bytes : Bytes)
  /-- A value for the first element with a name. -/
  | named (name : String) (x : Value)
deriving DecidableEq, Repr

namespace Call

/-- The value that a call has for a field. -/
def valueFor (f : Field) : Call → Value
  | value _ x | named _ x => x
  | raw _ bytes => .ofWord f.type bytes.toWord (8 * bytes.length)

/-- Whether a field takes what a call has for it: raw bytes have to be as many as
the type has. -/
def Suits (f : Field) : Call → Prop
  | value _ _ | named _ _ => True
  | raw _ bytes => bytes.length = f.type.bytes

end Call

namespace Field

/-- What a field reads once a value was written to it: the value as one of the
field's type, cut to the window and read back from the bits that are left. -/
def kept (f : Field) (r : Representation) (x : Value) : Value :=
  .ofWord f.type ((x.convert f.type).toWord.low (f.span r).size) (f.span r).size

end Field

namespace View

/-- The view after a call that is granted. -/
def call (v : View) : Call → Except Error View
  | .value i x => v.setValue i x
  | .raw i bytes => v.setRaw i bytes
  | .named name x => v.setValueOf name x

/-- The view after some calls. One that is refused leaves it as it is. -/
def calls (v : View) : List Call → View
  | [] => v
  | c :: rest =>
    match v.call c with
    | .ok v' => v'.calls rest
    | .error _ => v.calls rest

/-- The index that a call is about. -/
def target? (v : View) : Call → Option Nat
  | .value i _ | .raw i _ => some i
  | .named name _ => (v.find name).toOption

/-- The last of some calls that was granted for an element. -/
def lastCall? (v : View) (i : Nat) : List Call → Option Call
  | [] => none
  | c :: rest =>
    match v.call c with
    | .ok v' => (v'.lastCall? i rest).or (if v.target? c = some i then some c else none)
    | .error _ => v.lastCall? i rest

/-- Whether the elements of a view lie in its buffer, and no two of them meet. -/
structure Independent (v : View) : Prop where
  accessible : ∀ f ∈ v.elements, f.Accessible v.rep v.buffer.length
  apart : v.elements.Pairwise fun f g => (f.span v.rep).stop ≤ (g.span v.rep).offset

/-- The view with a value put into the window of a field. -/
def put (v : View) (f : Field) (x : Value) : View :=
  { v with buffer := f.store v.rep v.buffer (x.convert f.type).toWord }

@[simp] theorem rep_put (v : View) (f : Field) (x : Value) : (v.put f x).rep = v.rep := rfl

@[simp] theorem length_put (v : View) (f : Field) (x : Value) :
    (v.put f x).buffer.length = v.buffer.length :=
  Field.length_store _ _ _ _

/-! ## Which calls are granted -/

variable {v v' : View}

theorem setValue_of_accessible {i : Nat} {f : Field} (hf : v.elements[i]? = some f)
    (h : f.Accessible v.rep v.buffer.length) (x : Value) : v.setValue i x = .ok (v.put f x) := by
  rw [setValue_eq_write hf, Field.write_eq h]
  rfl

theorem setValue_eq (h : v.Independent) {i : Nat} {f : Field} (hf : v.elements[i]? = some f)
    (x : Value) : v.setValue i x = .ok (v.put f x) :=
  setValue_of_accessible hf (h.accessible f (List.mem_of_getElem? hf)) x

theorem setValue_ne_ok {i : Nat} (hi : v.elements[i]? = none) (x : Value) :
    v.setValue i x ≠ .ok v' := by
  intro h
  simp [setValue, element, hi, bind, Except.bind] at h

/-- A call is granted if and only if there is an element that it is about and
that takes its value. It puts the value into that element. -/
theorem call_eq_ok_iff (h : v.Independent) {c : Call} :
    v.call c = .ok v' ↔ ∃ i f, v.target? c = some i ∧ v.elements[i]? = some f ∧ c.Suits f ∧
      v' = v.put f (c.valueFor f) := by
  have hvalue : ∀ i x, v.setValue i x = .ok v' ↔
      ∃ f, v.elements[i]? = some f ∧ v' = v.put f x := by
    intro i x
    cases hf : v.elements[i]? with
    | none => simp [setValue_ne_ok hf]
    | some f => simp [setValue_eq h hf, eq_comm]
  cases c with
  | value i x => simp [call, target?, Call.Suits, Call.valueFor, hvalue]
  | named name x =>
    cases hname : v.find name with
    | error e => simp [call, target?, setValueOf, hname, bind, Except.bind, Except.toOption]
    | ok i =>
      simp [call, target?, setValueOf, hname, bind, Except.bind, Except.toOption, Call.Suits,
        Call.valueFor, hvalue]
  | raw i bytes =>
    cases hf : v.elements[i]? with
    | none => simp [call, target?, setRaw, element, hf, bind, Except.bind]
    | some f =>
      have haccessible := h.accessible f (List.mem_of_getElem? hf)
      by_cases hlength : bytes.length = f.type.bytes
      · have hput : v.call (.raw i bytes) = .ok (v.put f ((Call.raw i bytes).valueFor f)) := by
          rw [call, setRaw_eq_writeRaw hf, Field.writeRaw_eq haccessible hlength, put,
            Call.valueFor, Value.convert_of_type_eq (Value.type_ofWord _ _ _), hlength,
            f.type.eight_mul_bytes]
          rfl
        simp [hput, target?, hf, Call.Suits, hlength, eq_comm]
      · have hrefused := Field.writeRaw_of_ne (r := v.rep) (b := v.buffer) hlength
        simp [call, setRaw_eq_writeRaw hf, hrefused, Except.map, target?, hf, Call.Suits, hlength]

/-! ## One call -/

theorem Independent.put (h : v.Independent) (f : Field) (x : Value) :
    (v.put f x).Independent := by
  refine ⟨?_, h.apart⟩
  intro g hg
  rw [length_put]
  exact h.accessible g hg

/-- Two elements do not meet, whichever comes first. -/
theorem Independent.disjoint (h : v.Independent) {i j : Nat} {f g : Field}
    (hf : v.elements[i]? = some f) (hg : v.elements[j]? = some g) (hne : i ≠ j) :
    (f.span v.rep).stop ≤ (g.span v.rep).offset ∨ (g.span v.rep).stop ≤ (f.span v.rep).offset := by
  obtain ⟨hi, rfl⟩ := List.getElem?_eq_some_iff.mp hf
  obtain ⟨hj, rfl⟩ := List.getElem?_eq_some_iff.mp hg
  have hpair := List.pairwise_iff_getElem.mp h.apart
  rcases Nat.lt_or_gt_of_ne hne with hlt | hgt
  · exact .inl (hpair i j hi hj hlt)
  · exact .inr (hpair j i hj hi hgt)

theorem value_eq (h : v.Independent) {i : Nat} {f : Field} (hf : v.elements[i]? = some f) :
    v.value i = .ok (f.valueIn v.rep v.buffer) :=
  value_of_accessible hf (h.accessible f (List.mem_of_getElem? hf))

/-- An element reads what was put into it, whether or not others meet it. -/
theorem value_put_of_accessible {i : Nat} {f : Field} (hf : v.elements[i]? = some f)
    (h : f.Accessible v.rep v.buffer.length) (x : Value) :
    (v.put f x).value i = .ok (f.kept v.rep x) := by
  have helement : (v.put f x).elements[i]? = some f := hf
  rw [value_of_accessible helement (by rw [rep_put, length_put]; exact h)]
  exact congrArg Except.ok (Field.valueIn_store _ h)

/-- The element itself reads what was put into it. -/
theorem value_put_self (h : v.Independent) {i : Nat} {f : Field} (hf : v.elements[i]? = some f)
    (x : Value) : (v.put f x).value i = .ok (f.kept v.rep x) :=
  value_put_of_accessible hf (h.accessible f (List.mem_of_getElem? hf)) x

/-- Any other element reads what it did. -/
theorem value_put_of_ne (h : v.Independent) {i j : Nat} {f : Field}
    (hf : v.elements[i]? = some f) (hj : j < v.count) (hne : i ≠ j) (x : Value) :
    (v.put f x).value j = v.value j := by
  have hg : v.elements[j]? = some v.elements[j] := List.getElem?_eq_getElem hj
  have haccessible := h.accessible f (List.mem_of_getElem? hf)
  have hsize := (h.accessible _ (List.mem_of_getElem? hg)).size_le
  have hapart := h.disjoint hf hg hne
  rw [value_eq (h.put f x) hg, value_eq h hg]
  exact congrArg Except.ok (Field.valueIn_store_of_disjoint _ haccessible hsize hapart)

/-- A bit that belongs to no element stays. -/
theorem bit_put (h : v.Independent) {f : Field} (hf : f ∈ v.elements) (x : Value) {j : Nat}
    (hj : ∀ g ∈ v.elements, ¬ g.Covers v.rep j) : (v.put f x).buffer.bit j = v.buffer.bit j := by
  have hout := hj f hf
  unfold Field.Covers at hout
  refine Field.bit_store_of_outside _ (h.accessible f hf) ?_
  omega

/-! ## Any number of calls -/

theorem calls_cons_ok {c : Call} (hc : v.call c = .ok v') (rest : List Call) :
    v.calls (c :: rest) = v'.calls rest := by
  rw [calls, hc]

theorem calls_cons_error {c : Call} {e : Error} (hc : v.call c = .error e) (rest : List Call) :
    v.calls (c :: rest) = v.calls rest := by
  rw [calls, hc]

/-- After any calls an element reads what the last one that was granted for it
had, or what it read before. -/
theorem value_calls (h : v.Independent) {i : Nat} {f : Field} (hf : v.elements[i]? = some f)
    (cs : List Call) : (v.calls cs).value i = match v.lastCall? i cs with
      | some c => .ok (f.kept v.rep (c.valueFor f))
      | none => v.value i := by
  induction cs generalizing v with
  | nil => rfl
  | cons c rest ih =>
    cases hc : v.call c with
    | error e => simpa [calls_cons_error hc, lastCall?, hc] using ih h hf
    | ok v' =>
      obtain ⟨j, g, htarget, hg, -, rfl⟩ := (call_eq_ok_iff h).mp hc
      have hrest := ih (h.put g (c.valueFor g)) hf
      rw [calls_cons_ok hc, hrest, lastCall?, hc]
      simp only [htarget, Option.some.injEq, rep_put]
      cases (v.put g (c.valueFor g)).lastCall? i rest with
      | some later => rfl
      | none =>
        by_cases hij : j = i
        · subst hij
          obtain rfl : f = g := Option.some.inj (hf.symm.trans hg)
          simpa using value_put_self h hf (c.valueFor f)
        · have hi : i < v.count := (List.getElem?_eq_some_iff.mp hf).1
          simpa [hij] using value_put_of_ne h hg hi hij (c.valueFor g)

/-- No call changes which elements there are, the length of the buffer, or a bit
that belongs to no element. -/
theorem frame_calls (h : v.Independent) (cs : List Call) :
    (v.calls cs).elements = v.elements ∧ (v.calls cs).buffer.length = v.buffer.length ∧
      ∀ j, (∀ f ∈ v.elements, ¬ f.Covers v.rep j) →
        (v.calls cs).buffer.bit j = v.buffer.bit j := by
  induction cs generalizing v with
  | nil => exact ⟨rfl, rfl, fun _ _ => rfl⟩
  | cons c rest ih =>
    cases hc : v.call c with
    | error e => simpa only [calls_cons_error hc] using ih h
    | ok v' =>
      obtain ⟨i, f, -, hf, -, rfl⟩ := (call_eq_ok_iff h).mp hc
      obtain ⟨helements, hlength, hbit⟩ := ih (h.put f (c.valueFor f))
      rw [calls_cons_ok hc]
      refine ⟨helements, hlength.trans (length_put _ _ _), ?_⟩
      intro j hj
      rw [hbit j hj]
      exact bit_put h (List.mem_of_getElem? hf) _ hj

/-! ## Views of compiled structs -/

/-- A valid view is independent: natively always, on the wire if its struct has no wire
positions. -/
theorem independent_of_packs {s : Schema} {name : String} {l : Layout} {r : Representation}
    {b : Bytes} (hl : s.layout name = .ok l) (hv : Opening l r b v) (hvalid : v.checkSize = .ok ())
    (hpacks : r = .wire → s.Packs name) : v.Independent := by
  obtain ⟨d, hd⟩ := Schema.exists_root hl
  have hlayout := Schema.sound_of_root hd hl
  have hsound := hv.sound hlayout
  have hstop := hv.expanded_stop
  obtain ⟨rfl, rfl, -⟩ := hv.eq
  refine ⟨accessible_of_checkSize hlayout hsound hvalid hstop, ?_⟩
  cases hr : v.rep with
  | native => exact hsound.native.pairwise
  | wire => exact (hsound.wire (hpacks hr)).pairwise

/-- The same for a schema without any wire positions. -/
theorem independent_of_opening {s : Schema} {name : String} {l : Layout} {r : Representation}
    {b : Bytes} (hl : s.layout name = .ok l) (hv : Opening l r b v) (hvalid : v.checkSize = .ok ())
    (hpositions : r = .wire → ∀ t ∈ s.structs, Unpositioned t.elements) : v.Independent :=
  independent_of_packs hl hv hvalid fun hr => Schema.packs_of_unpositioned (hpositions hr) name

end View

end WireRecord
