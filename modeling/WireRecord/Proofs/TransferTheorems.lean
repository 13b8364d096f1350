/-
WireRecord.Proofs.TransferTheorems — what a transfer leaves in its target.

A transfer reads every element and stores its value in the target, one after
another (`Field.storeAll`). Where the windows in the target do not meet, each
field afterwards holds what was stored in it. Where they do meet, but every
field stores what its window holds in one and the same buffer, the target agrees
with that buffer in all windows and keeps everything else.
-/
import WireRecord.Proofs.ViewTheorems

namespace WireRecord

namespace Field

/-! ## Storing many fields -/

/-- Whether a bit is in the window of a field. -/
def Covers (f : Field) (r : Representation) (j : Nat) : Prop :=
  (f.span r).offset ≤ j ∧ j < (f.span r).stop

instance (f : Field) (r : Representation) (j : Nat) : Decidable (f.Covers r j) :=
  inferInstanceAs (Decidable (_ ∧ _))

/-- Stores a word in each of some fields, in order. -/
def storeAll (r : Representation) (w : Field → Word) : List Field → Bytes → Bytes
  | [], b => b
  | f :: rest, b => storeAll r w rest (f.store r b (w f))

variable {r : Representation} {w : Field → Word}

@[simp] theorem length_storeAll (fs : List Field) (b : Bytes) :
    (storeAll r w fs b).length = b.length := by
  induction fs generalizing b with
  | nil => rfl
  | cons f rest ih => simp [storeAll, ih]

/-- Storing in a field leaves the others as accessible as they were. -/
theorem accessible_store {f : Field} {rest : List Field} {b : Bytes} {x : Word}
    (hacc : ∀ g ∈ f :: rest, g.Accessible r b.length) :
    ∀ g ∈ rest, g.Accessible r (f.store r b x).length := by
  intro g hg
  rw [length_store]
  exact hacc g (List.mem_cons_of_mem f hg)

/-- A bit that no window covers is left alone. -/
theorem bit_storeAll_of_not_covers {j : Nat} {fs : List Field} {b : Bytes}
    (hacc : ∀ f ∈ fs, f.Accessible r b.length) (hout : ∀ f ∈ fs, ¬ f.Covers r j) :
    (storeAll r w fs b).bit j = b.bit j := by
  induction fs generalizing b with
  | nil => rfl
  | cons f rest ih =>
    have hf : j < (f.span r).offset ∨ (f.span r).stop ≤ j := by
      have hnot := hout f List.mem_cons_self
      unfold Covers at hnot
      omega
    rw [storeAll, ih (accessible_store hacc) fun g hg => hout g (List.mem_cons_of_mem f hg)]
    exact bit_store_of_outside _ (hacc f List.mem_cons_self) hf

/-- Fields whose windows do not meet hold what was stored in them. -/
theorem load_storeAll {fs : List Field} {b : Bytes} (hacc : ∀ f ∈ fs, f.Accessible r b.length)
    (hpair : fs.Pairwise fun f g => (f.span r).stop ≤ (g.span r).offset) :
    ∀ f ∈ fs, f.load r (storeAll r w fs b) = (w f).low (f.span r).size := by
  induction fs generalizing b with
  | nil => simp
  | cons g rest ih =>
    intro f hf
    obtain ⟨hfirst, hothers⟩ := List.pairwise_cons.mp hpair
    have hg := hacc g List.mem_cons_self
    rcases List.mem_cons.mp hf with rfl | hf
    · rw [← load_store (w f) hg, storeAll]
      refine load_congr hg.size_le fun j _ hj => ?_
      refine bit_storeAll_of_not_covers (accessible_store hacc) fun k hk hcovers => ?_
      have hbehind := hfirst k hk
      have hin := hcovers.1
      omega
    · exact ih (accessible_store hacc) hothers f hf

/-- Fields that store what their windows hold in one buffer copy its bits. -/
theorem bit_storeAll_of_covers {a : Bytes} {j : Nat} {fs : List Field} {b : Bytes}
    (hacc : ∀ f ∈ fs, f.Accessible r b.length)
    (hload : ∀ f ∈ fs, (w f).low (f.span r).size = f.load r a)
    (hcovers : ∃ f ∈ fs, f.Covers r j) : (storeAll r w fs b).bit j = a.bit j := by
  induction fs generalizing b with
  | nil => simp at hcovers
  | cons f rest ih =>
    rw [storeAll]
    by_cases hlater : ∃ g ∈ rest, g.Covers r j
    · exact ih (accessible_store hacc) (fun g hg => hload g (List.mem_cons_of_mem f hg)) hlater
    · -- the last field that covers the bit is `f`
      have hf : f.Covers r j := by
        obtain ⟨g, hg, hgcovers⟩ := hcovers
        rcases List.mem_cons.mp hg with rfl | hg
        · exact hgcovers
        · exact absurd ⟨g, hg, hgcovers⟩ hlater
      rw [bit_storeAll_of_not_covers (accessible_store hacc) fun k hk hk' => hlater ⟨k, hk, hk'⟩]
      exact bit_store_of_inside (hacc f List.mem_cons_self) (hload f List.mem_cons_self) hf.1 hf.2

end Field

namespace View

/-! ## Transfers -/

/-- The word that a transfer stores for an element: the bits of its value. -/
def wordOf (v : View) (f : Field) : Word := (f.valueIn v.rep v.buffer).toWord

/-- The target of a transfer, once it is through. -/
def transferred (v : View) (r : Representation) : Bytes :=
  Field.storeAll r v.wordOf v.elements (List.replicate (v.bytes r) 0)

@[simp] theorem length_transferred (v : View) (r : Representation) :
    (v.transferred r).length = v.bytes r := by
  simp [transferred]

variable {v : View} {r : Representation}

/-- Elements that can be read here and written there are all stored. -/
theorem writeElements_ends {fs : List Field} {b : Bytes}
    (hhere : ∀ f ∈ fs, f.Accessible v.rep v.buffer.length)
    (hthere : ∀ f ∈ fs, f.Accessible r b.length) :
    Ends (v.writeElements r fs) b () (Field.storeAll r v.wordOf fs b) := by
  induction fs generalizing b with
  | nil =>
    rw [writeElements]
    exact Ends.pure_iff.mpr ⟨rfl, rfl⟩
  | cons f rest ih =>
    have hread := Field.read_of_accessible (hhere f List.mem_cons_self)
    have hwrite := Field.write_of_accessible (hthere f List.mem_cons_self)
      (Field.type_valueIn f v.rep v.buffer)
    have hstep : (f.read v.rep v.buffer >>= f.write r b) = .ok (f.store r b (v.wordOf f)) := by
      rw [hread]
      exact hwrite
    have hrest := ih (fun g hg => hhere g (List.mem_cons_of_mem f hg))
      (Field.accessible_store (x := v.wordOf f) hthere)
    rw [writeElements, Ends.bind_iff]
    refine ⟨b, b, Ends.get_iff.mpr ⟨rfl, rfl⟩, ?_⟩
    simp only [hstep]
    exact Ends.bind_iff.mpr ⟨(), _, Ends.set_iff.mpr rfl, hrest⟩

/-- A transfer is not refused when all elements can be read, and end within the
bytes the record needs. -/
theorem transfer_eq (hhere : ∀ f ∈ v.elements, f.Accessible v.rep v.buffer.length)
    (hthere : ∀ f ∈ v.elements, f.Accessible r (v.bytes r)) :
    v.transfer r = .ok (v.transferred r) := by
  have hwrite := writeElements_ends (b := List.replicate (v.bytes r) 0) hhere (by
    rw [List.length_replicate]
    exact hthere)
  have hends : Ends (v.transferInto r false) (List.replicate (v.bytes r) 0) (v.bytes r)
      (v.transferred r) := by
    unfold transferInto
    have hlength : ¬ (List.replicate (v.bytes r) (0 : UInt8)).length < v.bytes r := by simp
    refine Ends.bind_iff.mpr ⟨_, _, Ends.get_iff.mpr ⟨rfl, rfl⟩, ?_⟩
    simp only [hlength, if_false]
    exact Ends.bind_iff.mpr ⟨(), _, hwrite, Ends.pure_iff.mpr ⟨rfl, rfl⟩⟩
  unfold transfer
  rw [hends]

/-- After a transfer a field reads the value it had, if that survives in its
window. -/
theorem read_transferred {f : Field}
    (hthere : ∀ f ∈ v.elements, f.Accessible r (v.bytes r))
    (hpair : v.elements.Pairwise fun f g => (f.span r).stop ≤ (g.span r).offset)
    (hf : f ∈ v.elements) (hfit : (f.valueIn v.rep v.buffer).Survives (f.span r).size) :
    f.read r (v.transferred r) = .ok (f.valueIn v.rep v.buffer) := by
  have hacc : f.Accessible r (v.transferred r).length := by
    rw [length_transferred]
    exact hthere f hf
  have hload : f.load r (v.transferred r) = (v.wordOf f).low (f.span r).size := by
    refine Field.load_storeAll (fun g hg => ?_) hpair f hf
    rw [List.length_replicate]
    exact hthere g hg
  rw [Field.read_of_accessible hacc, Field.valueIn, hload, wordOf]
  unfold Value.Survives at hfit
  rw [Field.type_valueIn] at hfit
  rw [hfit]

/-- A record carried over into a representation: what the transfer yields has the
size of the record, it is valid, and every element reads the value it had. -/
structure Carried (v : View) (r : Representation) (out : Bytes) : Prop where
  transfer_eq : v.transfer r = .ok out
  length_eq : out.length = v.bytes r
  valid : (v.onto r out).checkSize = .ok ()
  value_eq : ∀ i, (v.onto r out).value i = v.value i

/-- A record is carried over when its values survive in windows that do not meet. -/
theorem carried_transferred {packed : Prop} (hsound : v.Sound packed)
    (hhere : ∀ f ∈ v.elements, f.Accessible v.rep v.buffer.length)
    (hpair : v.elements.Pairwise fun f g => (f.span r).stop ≤ (g.span r).offset)
    (hfit : ∀ f ∈ v.elements, (f.valueIn v.rep v.buffer).Survives (f.span r).size) :
    v.Carried r (v.transferred r) ∧
      ∀ f ∈ v.elements, f.read r (v.transferred r) = f.read v.rep v.buffer := by
  have hthere : ∀ f ∈ v.elements, f.Accessible r (v.bytes r) := fun f hf =>
    (hsound.well f hf).accessible (hsound.stop_le hf r)
  have hread : ∀ f ∈ v.elements, f.read r (v.transferred r) = f.read v.rep v.buffer := by
    intro f hf
    rw [read_transferred hthere hpair hf (hfit f hf), Field.read_of_accessible (hhere f hf)]
  refine ⟨⟨transfer_eq hhere hthere, length_transferred v r, ?_, value_onto hread⟩, hread⟩
  refine checkSize_eq_ok_iff.mpr ?_
  show v.layout.size.bytes r ≤ (v.transferred r).length
  rw [length_transferred]
  exact bytesFor_le (Nat.le_trans (hsound.size_le r) (le_bytesFor _))

/-- Bytes of the size of the record that have its values open to the same view,
unless they are too few for a counter. -/
theorem reopen_iff_fits {packed : Prop} (h : v.Opened) (hsound : v.Sound packed) {out : Bytes}
    (hread : ∀ f ∈ v.elements, f.read r out = f.read v.rep v.buffer)
    (hlength : out.length = v.bytes r) :
    openFull v.layout r out = .ok (v.onto r out) ↔ v.Fits r := by
  rw [reopen_iff h hread fun f hf => by
    rw [hlength]
    exact hsound.stop_le hf r, hlength]
  rfl

end View

end WireRecord
