/-
WireRecord.Proofs.AlignmentTheorems — moving positions up to alignments.

`alignUp p a` is the least position from `p` on that is `Aligned` to `a`. All
that is needed of it follows from that: it does nothing where a position is
aligned already, it commutes with moving everything by an aligned distance, and
a coarser alignment makes a finer one before it superfluous. Among the powers of
two the larger one is the coarser one.

An instance of a struct starts on the largest alignment in it, so what holds of all
of them holds of that one, if it holds of a maximum (`Shape.instanceAlignment_of`).
-/
import WireRecord.Proofs.ShapeTheorems

namespace WireRecord

/-- Whether a position, in bits, is on an alignment in bytes. Alignments of zero
and one ask for nothing. -/
def Aligned (alignment position : Nat) : Prop := 1 < alignment → 8 * alignment ∣ position

/-- Whether a number makes sense as an alignment. -/
def IsAlignment (alignment : Nat) : Prop := alignment = 0 ∨ alignment.isPowerOfTwo

instance : DecidablePred IsAlignment := fun alignment =>
  inferInstanceAs (Decidable (alignment = 0 ∨ alignment.isPowerOfTwo))

/-! ## The least aligned position -/

theorem le_alignUp (position alignment : Nat) : position ≤ alignUp position alignment := by
  unfold alignUp
  split
  · exact Nat.le_refl position
  · simp only
    have hpos : 0 < 8 * alignment := by omega
    have hdiv := Nat.div_add_mod (position + (8 * alignment - 1)) (8 * alignment)
    have hmod := Nat.mod_lt (position + (8 * alignment - 1)) hpos
    rw [Nat.mul_comm] at hdiv
    omega

theorem aligned_alignUp (position alignment : Nat) :
    Aligned alignment (alignUp position alignment) := by
  intro h
  unfold alignUp
  simp only [Nat.not_le.mpr h, if_false]
  exact Nat.dvd_mul_left _ _

theorem alignUp_le {position alignment q : Nat} (hq : Aligned alignment q)
    (h : position ≤ q) : alignUp position alignment ≤ q := by
  unfold alignUp
  split
  · exact h
  · rename_i ha
    obtain ⟨k, rfl⟩ := hq (Nat.not_le.mp ha)
    have hpos : 0 < 8 * alignment := by omega
    have hlt : (position + (8 * alignment - 1)) / (8 * alignment) < k + 1 := by
      rw [Nat.div_lt_iff_lt_mul hpos, Nat.add_mul, Nat.mul_comm k]
      omega
    rw [Nat.mul_comm (8 * alignment) k]
    exact Nat.mul_le_mul_right _ (Nat.le_of_lt_succ hlt)

/-- What comes first still does after aligning. -/
theorem alignUp_mono {p q : Nat} (h : p ≤ q) (alignment : Nat) :
    alignUp p alignment ≤ alignUp q alignment :=
  alignUp_le (aligned_alignUp q alignment) (Nat.le_trans h (le_alignUp q alignment))

/-- An aligned position is not moved. -/
theorem alignUp_of_aligned {position alignment : Nat} (h : Aligned alignment position) :
    alignUp position alignment = position :=
  Nat.le_antisymm (alignUp_le h (Nat.le_refl position)) (le_alignUp position alignment)

/-- Byte boundaries are aligned to byte boundaries. -/
theorem alignUp_mod {position : Nat} (h : position % 8 = 0) (alignment : Nat) :
    alignUp position alignment % 8 = 0 := by
  by_cases ha : 1 < alignment
  · have hdvd := aligned_alignUp position alignment ha
    exact Nat.mod_eq_zero_of_dvd (Nat.dvd_trans (Nat.dvd_mul_right 8 alignment) hdvd)
  · have hself : alignUp position alignment = position :=
      alignUp_of_aligned fun hlt => absurd hlt ha
    rw [hself]
    exact h

/-- Positions may be moved by an aligned distance before or after. -/
theorem alignUp_add {distance alignment : Nat} (h : Aligned alignment distance)
    (position : Nat) :
    alignUp (position + distance) alignment = alignUp position alignment + distance := by
  unfold alignUp
  split
  · rfl
  · rename_i ha
    obtain ⟨k, rfl⟩ := h (Nat.not_le.mp ha)
    have hpos : 0 < 8 * alignment := by omega
    have hmove : position + 8 * alignment * k + (8 * alignment - 1) =
        8 * alignment * k + (position + (8 * alignment - 1)) := by omega
    simp only [hmove]
    rw [Nat.mul_add_div hpos, Nat.add_mul, Nat.mul_comm k, Nat.add_comm]

/-! ## Coarser alignments -/

theorem aligned_add {alignment p q : Nat} (hp : Aligned alignment p) (hq : Aligned alignment q) :
    Aligned alignment (p + q) :=
  fun h => Nat.dvd_add (hp h) (hq h)

/-- What a larger power of two is on, a smaller one is on, too. -/
theorem Aligned.of_le {a b p : Nat} (h : Aligned b p) (ha : IsAlignment a) (hb : IsAlignment b)
    (hle : a ≤ b) : Aligned a p := by
  intro hone
  have hdvd : 8 * b ∣ p := h (by omega)
  rcases ha with rfl | ⟨j, rfl⟩
  · omega
  · rcases hb with rfl | ⟨k, rfl⟩
    · omega
    · have hjk : j ≤ k := (Nat.pow_le_pow_iff_right (by decide)).mp hle
      exact Nat.dvd_trans (Nat.mul_dvd_mul_left 8 (Nat.pow_dvd_pow 2 hjk)) hdvd

/-- Before a larger power of two a smaller one does nothing. -/
theorem alignUp_alignUp {a b : Nat} (ha : IsAlignment a) (hb : IsAlignment b) (hle : a ≤ b)
    (p : Nat) : alignUp (alignUp p a) b = alignUp p b := by
  have hfine : Aligned a (alignUp p b) := (aligned_alignUp p b).of_le ha hb hle
  have hbelow : alignUp p a ≤ alignUp p b := alignUp_le hfine (le_alignUp p b)
  refine Nat.le_antisymm (alignUp_le (aligned_alignUp p b) hbelow) ?_
  exact alignUp_mono (le_alignUp p a) b

theorem aligned_max_one {p a : Nat} : Aligned (max a 1) p ↔ Aligned a p := by
  by_cases ha : 1 ≤ a
  · rw [Nat.max_eq_left ha]
  · have hzero : a = 0 := by omega
    simp [Aligned, hzero]

/-- An alignment of one byte asks for nothing. -/
theorem alignUp_max_one (p a : Nat) : alignUp p (max a 1) = alignUp p a := by
  by_cases ha : 1 ≤ a
  · rw [Nat.max_eq_left ha]
  · have hzero : a = 0 := by omega
    subst hzero
    rfl

/-! ## Alignments of instances -/

theorem IsAlignment.one : IsAlignment 1 := by decide

theorem IsAlignment.max {a b : Nat} (ha : IsAlignment a) (hb : IsAlignment b) :
    IsAlignment (max a b) := by
  rcases Nat.le_total a b with h | h
  · rwa [Nat.max_eq_right h]
  · rwa [Nat.max_eq_left h]

/-- Whether a condition holds of the alignments that a member is declared with. -/
def Member.Aligns (p : Nat → Prop) : Member → Prop
  | .leaf e _ _ => p e.alignment
  | .nested e shape => p e.alignment ∧ p shape.alignment
  | .cyclic _ _ _ | .unresolved _ _ => False

/-- Whether it holds of the alignments of all members of a struct. -/
def AllAlign (p : Nat → Prop) (members : List Member) : Prop := ∀ m ∈ members, m.Aligns p

instance (p : Nat → Prop) [DecidablePred p] : DecidablePred (Member.Aligns p)
  | .leaf e _ _ => inferInstanceAs (Decidable (p e.alignment))
  | .nested e shape => inferInstanceAs (Decidable (p e.alignment ∧ p shape.alignment))
  | .cyclic _ _ _ | .unresolved _ _ => inferInstanceAs (Decidable False)

instance (p : Nat → Prop) [DecidablePred p] : DecidablePred (AllAlign p) := fun members =>
  inferInstanceAs (Decidable (∀ m ∈ members, m.Aligns p))

theorem AllAlign.mono {p q : Nat → Prop} (h : ∀ a, p a → q a) {members : List Member}
    (hp : AllAlign p members) : AllAlign q members := by
  intro m hm
  have haligns := hp m hm
  cases m with
  | leaf e type table => exact h _ haligns
  | nested e shape => exact ⟨h _ haligns.1, h _ haligns.2⟩
  | cyclic e struct alignment => exact haligns
  | unresolved e reason => exact haligns

mutual

/-- What holds of all alignments in a struct, and of maxima, holds of the alignment
that its instances start on. -/
theorem Shape.instanceAlignment_of {p : Nat → Prop} (hzero : p 0) (hone : p 1)
    (hmax : ∀ {a b}, p a → p b → p (max a b)) : ∀ (shape : Shape), p shape.alignment →
    shape.Everywhere (AllAlign p) → p shape.instanceAlignment
  | .mk _ _ members, halignment, h =>
      hmax (hmax halignment hone) (membersAlignment_of hzero hone hmax members h.1 h.2)

theorem membersAlignment_of {p : Nat → Prop} (hzero : p 0) (hone : p 1)
    (hmax : ∀ {a b}, p a → p b → p (max a b)) : ∀ (members : List Member), AllAlign p members →
    membersEverywhere (AllAlign p) members → p (membersAlignment members)
  | [], _, _ => hzero
  | m :: rest, h, hin =>
      hmax (m.instanceAlignment_of hzero hone hmax (h m List.mem_cons_self) hin.1)
        (membersAlignment_of hzero hone hmax rest (fun k hk => h k (List.mem_cons_of_mem m hk))
          hin.2)

theorem Member.instanceAlignment_of {p : Nat → Prop} (hzero : p 0) (hone : p 1)
    (hmax : ∀ {a b}, p a → p b → p (max a b)) : ∀ (m : Member), m.Aligns p →
    m.Everywhere (AllAlign p) → p m.instanceAlignment
  | .leaf _ _ _, h, _ => h
  | .nested _ shape, h, hin => hmax h.1 (shape.instanceAlignment_of hzero hone hmax h.2 hin)
  | .cyclic _ _ _, h, _ => h.elim
  | .unresolved _ _, h, _ => h.elim

end

end WireRecord
