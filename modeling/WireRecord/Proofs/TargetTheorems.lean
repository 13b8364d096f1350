/-
WireRecord.Proofs.TargetTheorems — what a transfer does to its target.

A transfer goes through the elements and stops at the first that cannot be read, or
that has no place in the target. Neither depends on what the target holds, and for a
target that is long enough it does not depend on its length: the verdict on the record
is one on the view (`View.verdict`), and a run stores the values of the elements up to
there (`View.run_writeElements`).

A store replaces the bits of its window, whatever they were, and carries all the others
along. So the windows may meet: a bit that none of them covers stays, and bytes behind
the record stay as if they were not there (`Field.storeAll_append`). That is why a
target that was cleared first begins with the record as `View.transfer` makes it.
-/
import Mathlib.Data.List.TakeWhile
import WireRecord.Proofs.StoreTheorems

namespace WireRecord

/-- Records of two numbers that have four bits in common on the wire. -/
def entwined : Schema where
  version := ⟨3, 0⟩
  aliases := []
  enums := []
  structs :=
    [ { name := "Record", alignment := 1
        elements :=
          [ { Element.simple "word" "tUInt16" (.fixed 1) (some 12) with order := .bigEndian },
            { Element.simple "byte" "tUInt8" (.fixed 1) (some 6) with
              position := some ⟨1, 0⟩ } ] } ]

namespace Field

variable {f : Field} {r : Representation}

/-- A window that ends within `m` bytes is as good in any longer buffer. -/
theorem checkWindow_eq_of_le {m n : Nat} (hstop : (f.span r).stop ≤ 8 * m) (hmn : m ≤ n) :
    f.checkWindow r n = f.checkWindow r m := by
  have hm : ¬ 8 * m < (f.span r).stop := by omega
  have hn : ¬ 8 * n < (f.span r).stop := by omega
  rw [checkWindow_eq, checkWindow_eq, if_neg hm, if_neg hn]

theorem Accessible.mono {m n : Nat} (h : f.Accessible r m) (hmn : m ≤ n) : f.Accessible r n :=
  ⟨h.size_pos, h.size_le, Nat.le_trans h.stop_le (Nat.mul_le_mul_left 8 hmn), h.whole⟩

/-- A field that ends within the first bytes is stored there. -/
theorem store_append {a : Bytes} (c : Bytes) (x : Word) (h : (f.span r).stop ≤ 8 * a.length) :
    f.store r (a ++ c) x = f.store r a x ++ c :=
  Bytes.writeBits_append c _ h

/-- So are many fields, one after another. -/
theorem storeAll_append {w : Field → Word} {fs : List Field} {a : Bytes} (c : Bytes)
    (h : ∀ f ∈ fs, (f.span r).stop ≤ 8 * a.length) :
    storeAll r w fs (a ++ c) = storeAll r w fs a ++ c := by
  induction fs generalizing a with
  | nil => rfl
  | cons f rest ih =>
    obtain ⟨hf, hrest⟩ := List.forall_mem_cons.mp h
    rw [storeAll, storeAll, store_append c _ hf]
    refine ih fun g hg => ?_
    rw [length_store]
    exact hrest g hg

end Field

namespace View

/-- Whether every element ends within the bytes the record needs in a representation. -/
def Bounded (v : View) (r : Representation) : Prop :=
  ∀ f ∈ v.elements, (f.span r).stop ≤ 8 * v.bytes r

instance (v : View) (r : Representation) : Decidable (v.Bounded r) :=
  inferInstanceAs (Decidable (∀ f ∈ v.elements, _))

/-- Refuses an element that cannot be read, or not be written in a representation. -/
def checkElement (v : View) (r : Representation) (f : Field) : Except Error Unit := do
  let _ ← f.read v.rep v.buffer
  f.checkWindow r (v.bytes r)

/-- Refuses a record with an element that cannot be transferred. -/
def verdict (v : View) (r : Representation) : Except Error Unit :=
  v.elements.forM (v.checkElement r)

/-- Some elements up to the first that cannot be transferred. -/
def upToRefusal (v : View) (r : Representation) (fs : List Field) : List Field :=
  fs.takeWhile fun f => (v.checkElement r f).isOk

variable {v : View} {r : Representation}

/-! ## The elements that are written -/

theorem mem_of_mem_upToRefusal {f : Field} {fs : List Field} (hf : f ∈ v.upToRefusal r fs) :
    f ∈ fs :=
  (List.takeWhile_sublist _).subset hf

/-- An element that is transferred has a place in the bytes of the record. -/
theorem accessible_of_mem_upToRefusal {f : Field} {fs : List Field}
    (hf : f ∈ v.upToRefusal r fs) : f.Accessible r (v.bytes r) := by
  unfold upToRefusal at hf
  have hok := List.mem_takeWhile_imp hf
  obtain ⟨_, hcheck⟩ := exists_ok_of_isOk hok
  rw [← Field.checkWindow_eq_ok_iff]
  cases hread : f.read v.rep v.buffer with
  | error e => simp [checkElement, hread, bind, Except.bind] at hcheck
  | ok x => simpa [checkElement, hread, bind, Except.bind] using hcheck

/-- One step of a transfer: the value of an element is stored, if it can be. -/
theorem read_write_eq {f : Field} {b : Bytes} (hstop : (f.span r).stop ≤ 8 * v.bytes r)
    (hb : v.bytes r ≤ b.length) :
    (f.read v.rep v.buffer >>= f.write r b) =
      (v.checkElement r f).map fun _ => f.store r b (v.wordOf f) := by
  cases hread : f.read v.rep v.buffer with
  | error e => simp [checkElement, hread, bind, Except.bind, Except.map]
  | ok x =>
    obtain ⟨-, rfl⟩ := Field.read_eq_ok hread
    have hconvert : (f.valueIn v.rep v.buffer).convert f.type = f.valueIn v.rep v.buffer :=
      Value.convert_of_type_eq (Field.type_valueIn f v.rep v.buffer)
    show f.write r b (f.valueIn v.rep v.buffer) = _
    rw [Field.write, hconvert, Field.checkWindow_eq_of_le hstop hb, checkElement, hread]
    cases f.checkWindow r (v.bytes r) <;> rfl

/-- A run stores the values up to the first element that is refused, and ends as the
record is judged. -/
theorem run_writeElements {fs : List Field} (hstop : ∀ f ∈ fs, (f.span r).stop ≤ 8 * v.bytes r)
    {b : Bytes} (hb : v.bytes r ≤ b.length) :
    (v.writeElements r fs).run.run b =
      (fs.forM (v.checkElement r), Field.storeAll r v.wordOf (v.upToRefusal r fs) b) := by
  induction fs generalizing b with
  | nil => rfl
  | cons f rest ih =>
    obtain ⟨hf, hrest⟩ := List.forall_mem_cons.mp hstop
    have hforM : (f :: rest).forM (v.checkElement r) =
      (v.checkElement r f >>= fun _ => rest.forM (v.checkElement r)) := rfl
    rw [writeElements, run_run_bind, hforM, upToRefusal, List.takeWhile_cons]
    simp only [run_run_get, read_write_eq hf hb]
    cases hcheck : v.checkElement r f with
    | error e => rfl
    | ok u =>
      refine ih hrest ?_
      rw [Field.length_store]
      exact hb

/-- What a transfer leaves in a target. -/
def delivered (v : View) (r : Representation) (target : Bytes) : Bytes :=
  Field.storeAll r v.wordOf (v.upToRefusal r v.elements) target

@[simp] theorem length_delivered (v : View) (r : Representation) (target : Bytes) :
    (v.delivered r target).length = target.length :=
  Field.length_storeAll _ _

/-- A bit outside all windows stays. -/
theorem bit_delivered {target : Bytes} {j : Nat} (hlength : v.bytes r ≤ target.length)
    (hj : ∀ f ∈ v.elements, ¬ f.Covers r j) : (v.delivered r target).bit j = target.bit j :=
  Field.bit_storeAll_of_not_covers
    (fun _ hf => (accessible_of_mem_upToRefusal hf).mono hlength)
    fun f hf => hj f (mem_of_mem_upToRefusal hf)

/-- What stands behind the record has no part in a transfer. -/
theorem delivered_append {a : Bytes} (c : Bytes) (ha : a.length = v.bytes r) :
    v.delivered r (a ++ c) = v.delivered r a ++ c := by
  refine Field.storeAll_append c fun f hf => ?_
  rw [ha]
  exact (accessible_of_mem_upToRefusal hf).stop_le

/-- Bytes behind the record stay, and the record is as in a target of just its size. -/
theorem delivered_eq {target : Bytes} (hlength : v.bytes r ≤ target.length) :
    v.delivered r target =
      v.delivered r (target.take (v.bytes r)) ++ target.drop (v.bytes r) := by
  have hsplit := delivered_append (v := v) (r := r) (target.drop (v.bytes r))
    (List.length_take_of_le hlength)
  rwa [List.take_append_drop] at hsplit

/-! ## Transfers -/

/-- A target that is too short is refused, before anything is written. -/
theorem run_transferInto_of_lt {target : Bytes} (clear : Bool)
    (h : target.length < v.bytes r) : (v.transferInto r clear).run.run target =
      (.error (.targetTooShort target.length (v.bytes r) v.layout.name), target) := by
  rw [transferInto, run_run_bind]
  simp only [run_run_get, h, if_true]
  rfl

/-- The target as a transfer finds it: as it is, or with the place of the record cleared. -/
def prepared (v : View) (r : Representation) (clear : Bool) (target : Bytes) : Bytes :=
  if clear then List.replicate (v.bytes r) 0 ++ target.drop (v.bytes r) else target

theorem length_prepared {target : Bytes} (clear : Bool) (h : v.bytes r ≤ target.length) :
    (v.prepared r clear target).length = target.length := by
  cases clear with
  | false => rfl
  | true =>
    simp only [prepared, if_true, List.length_append, List.length_replicate, List.length_drop]
    omega

/-- Any other target gets the elements that can be transferred. -/
theorem run_transferInto_of_le (hbounded : v.Bounded r) {target : Bytes} (clear : Bool)
    (h : v.bytes r ≤ target.length) : (v.transferInto r clear).run.run target =
      ((v.verdict r).map fun _ => v.bytes r, v.delivered r (v.prepared r clear target)) := by
  have hlong : ¬ target.length < v.bytes r := Nat.not_lt.mpr h
  have hwrite : ∀ b : Bytes, v.bytes r ≤ b.length →
      (v.writeElements r v.elements >>= fun _ => pure (v.bytes r)).run.run b =
        ((v.verdict r).map fun _ => v.bytes r, v.delivered r b) := by
    intro b hb
    rw [run_run_bind, run_writeElements hbounded hb, verdict]
    cases v.elements.forM (v.checkElement r) <;> rfl
  have hprepared := hwrite (v.prepared r clear target) (by
    rw [length_prepared clear h]
    exact h)
  rw [transferInto, run_run_bind]
  simp only [run_run_get, hlong, if_false]
  cases clear with
  | false => exact hprepared
  | true => exact hprepared

/-- A transfer into a fresh target is one verdict and one record. -/
theorem transfer_eq_map (hbounded : v.Bounded r) : v.transfer r =
    (v.verdict r).map fun _ => v.delivered r (List.replicate (v.bytes r) 0) := by
  rw [transfer, run_transferInto_of_le hbounded false (by simp)]
  cases v.verdict r <;> rfl

/-- The views of compiled structs have no element that ends behind the record. -/
theorem Opening.bounded {s : Schema} {name : String} {l : Layout} {r₀ : Representation}
    {b : Bytes} (hl : s.layout name = .ok l) (hv : Opening l r₀ b v) : v.Bounded r := by
  obtain ⟨d, hd⟩ := Schema.exists_root hl
  have hsound := hv.sound (Schema.sound_of_layout hd hl)
  exact fun f hf => hsound.stop_le hf r

end View

end WireRecord
