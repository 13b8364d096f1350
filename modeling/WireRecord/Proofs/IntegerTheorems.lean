/-
WireRecord.Proofs.IntegerTheorems — integers as values, and in fewer bits.

An integer type has one value for each residue modulo two to the power of its width, so a
number is converted by reduction, and two numbers become the same value if and only if
they are congruent (`Value.ofInt_eq_ofInt_iff`).

Fewer bits than the type has keep some of its values and lose the others. Unsigned ones
are kept if they are small enough. Of signed ones the lower bits are read as a
two's-complement number again, so it takes as many bits as such a number needs
(`Value.survives_iff_holds`).
-/
import Mathlib.Algebra.Ring.Int.Defs
import WireRecord.Proofs.ValueTheorems

namespace WireRecord

/-! ## Integer types -/

namespace Scalar

/-- Whether a type is one of integers, and not of truth values. -/
def IsInteger : Scalar → Prop
  | uint _ | sint _ => True
  | bool | float _ => False

instance : DecidablePred IsInteger
  | uint _ | sint _ => inferInstanceAs (Decidable True)
  | bool | float _ => inferInstanceAs (Decidable False)

/-- Whether `n` bits of a type hold a number. -/
def Holds (t : Scalar) (n : Nat) (k : Int) : Prop :=
  match t with
  | bool => k = 0 ∨ k = 1
  | uint _ => 0 ≤ k ∧ k < 2 ^ n
  | sint _ => -2 ^ (n - 1) ≤ k ∧ k < 2 ^ (n - 1)
  | float _ => False

instance (t : Scalar) (n : Nat) (k : Int) : Decidable (t.Holds n k) :=
  match t with
  | bool => inferInstanceAs (Decidable (k = 0 ∨ k = 1))
  | uint _ => inferInstanceAs (Decidable (0 ≤ k ∧ k < 2 ^ n))
  | sint _ => inferInstanceAs (Decidable (-2 ^ (n - 1) ≤ k ∧ k < 2 ^ (n - 1)))
  | float _ => inferInstanceAs (Decidable False)

end Scalar

/-- A two's-complement number comes back from its residue modulo `2 ^ n` if and only if it is
one of `n` bits. -/
theorem bmod_two_pow_eq_self_iff {n : Nat} (hn : 0 < n) (k : Int) :
    k.bmod (2 ^ n) = k ↔ -2 ^ (n - 1) ≤ k ∧ k < 2 ^ (n - 1) := by
  obtain ⟨m, rfl⟩ : ∃ m, n = m + 1 := ⟨n - 1, by omega⟩
  have hpow : ((2 ^ (m + 1) : Nat) : Int) = 2 * 2 ^ m := by
    rw [Int.natCast_pow, Int.pow_succ, Int.mul_comm]
    rfl
  rw [Int.bmod_eq_iff (Nat.two_pow_pos _), hpow, Nat.add_sub_cancel]
  constructor
  · rintro ⟨hlo, hhi, -⟩
    omega
  · rintro ⟨hlo, hhi⟩
    refine ⟨by omega, by omega, ?_⟩
    simp

/-- Patterns of bits are those of integers modulo two to the power of their number. -/
theorem ofInt_eq_iff_emod_eq (w : Nat) (m n : Int) :
    BitVec.ofInt w m = BitVec.ofInt w n ↔ m % 2 ^ w = n % 2 ^ w := by
  have hpow : ((2 ^ w : Nat) : Int) = 2 ^ w := Int.natCast_pow 2 w
  have hpos : (2 : Int) ^ w ≠ 0 := by
    have := Nat.two_pow_pos w
    omega
  rw [← BitVec.toNat_inj, BitVec.toNat_ofInt, BitVec.toNat_ofInt, hpow]
  have hm := Int.emod_nonneg m hpos
  have hn := Int.emod_nonneg n hpos
  omega

namespace Value

/-! ## Numbers in other types -/

/-- Converting a number depends on the number alone, not on the type that holds it. -/
theorem convert_eq_ofInt {v : Value} {n : Int} (h : v.integer? = some n) (t : Scalar) :
    v.convert t = ofInt t n := by
  unfold convert
  split
  · rename_i ht
    subst ht
    cases v with
    | bool b =>
      obtain rfl : (b.toNat : Int) = n := Option.some.inj h
      cases b <;> rfl
    | uint w x =>
      obtain rfl : (x.toNat : Int) = n := Option.some.inj h
      simp [type, ofInt]
    | sint w x =>
      obtain rfl : x.toInt = n := Option.some.inj h
      simp [type, ofInt]
    | float f x => cases h
  · cases v with
    | float f x => cases h
    | bool b => simp [h]
    | uint w x => simp [h]
    | sint w x => simp [h]

/-- Going through a type that holds a number changes nothing. -/
theorem convert_convert {v : Value} {n : Int} {u : Scalar} (hv : v.integer? = some n)
    (hu : (v.convert u).integer? = some n) (t : Scalar) :
    (v.convert u).convert t = v.convert t := by
  rw [convert_eq_ofInt hu, convert_eq_ofInt hv]

/-- Integers become the same value if and only if they are congruent. -/
theorem ofInt_eq_ofInt_iff {t : Scalar} (ht : t.IsInteger) (m n : Int) :
    ofInt t m = ofInt t n ↔ m % 2 ^ t.bits = n % 2 ^ t.bits := by
  cases t with
  | bool => exact ht.elim
  | float f => exact ht.elim
  | uint w => simpa [ofInt, Scalar.bits] using ofInt_eq_iff_emod_eq w.bits m n
  | sint w => simpa [ofInt, Scalar.bits] using ofInt_eq_iff_emod_eq w.bits m n

/-- A number converted to an integer type is any value there that it is congruent to. -/
theorem convert_eq_iff_emod_eq {v w : Value} {m n : Int} (hv : v.integer? = some m)
    (hw : w.integer? = some n) (ht : w.type.IsInteger) :
    v.convert w.type = w ↔ m % 2 ^ w.type.bits = n % 2 ^ w.type.bits := by
  rw [← ofInt_eq_ofInt_iff ht, ← convert_eq_ofInt hv, ← convert_eq_ofInt hw, convert_type]

theorem exists_integer {v : Value} (h : v.type.IsInteger) : ∃ k, v.integer? = some k := by
  cases v with
  | bool b => exact h.elim
  | float f x => exact h.elim
  | uint w x => exact ⟨_, rfl⟩
  | sint w x => exact ⟨_, rfl⟩

/-- Only an equal value is the same as an integer. -/
theorem same_eq_beq {v : Value} (h : v.type.IsInteger) (w : Value) : same w v = (w == v) := by
  unfold same
  split
  · exact h.elim
  · exact h.elim
  · rfl

/-! ## Numbers in fewer bits -/

/-- The lower bits of a signed number are read as a signed number. -/
theorem setWidth_signExtend_low_of_le {m n : Nat} (hm : m ≤ 64) (hpos : 0 < n) (hn : n ≤ m)
    (x : BitVec m) : (Word.signExtend (Word.low (x.signExtend 64) n) n).setWidth m =
      (x.signExtend n).signExtend m := by
  refine BitVec.eq_of_getLsbD_eq fun i hi => ?_
  have h64 : i < 64 := by omega
  have hmsb : (x.setWidth n).msb = x.getLsbD (n - 1) := by
    have hlast : n - 1 < n := by omega
    rw [BitVec.msb_eq_getLsbD_last, BitVec.getLsbD_setWidth]
    simp [hlast]
  rw [BitVec.signExtend_eq_setWidth_of_le x hn, BitVec.getLsbD_setWidth,
    Word.getLsbD_signExtend _ hpos h64, Word.getLsbD_low, BitVec.getLsbD_signExtend,
    BitVec.getLsbD_signExtend, BitVec.getLsbD_setWidth, hmsb]
  by_cases h : i < n
  · have hmin : min i (n - 1) = i := by omega
    simp [hi, h, h64, hmin]
  · have hmin : min i (n - 1) = n - 1 := by omega
    have hlast : n - 1 < n ∧ n - 1 < m ∧ n - 1 < 64 := by omega
    simp [hi, h, hmin, hlast]

/-- The lower bits of an unsigned number are the number if they are enough for it. -/
theorem setWidth_low_setWidth_eq_iff {m n : Nat} (hm : m ≤ 64) (hn : n ≤ m) (x : BitVec m) :
    (Word.low (x.setWidth 64) n).setWidth m = x ↔ x.toNat < 2 ^ n := by
  have hpow : 2 ^ n ≤ 2 ^ m := Nat.pow_le_pow_right (by decide) hn
  have hnumber : ((Word.low (x.setWidth 64) n).setWidth m).toNat = x.toNat % 2 ^ n := by
    rw [BitVec.toNat_setWidth, Word.toNat_low, BitVec.toNat_setWidth_of_le hm,
      Nat.mod_eq_of_lt (Nat.lt_of_lt_of_le (Nat.mod_lt _ (Nat.two_pow_pos n)) hpow)]
  rw [← BitVec.toNat_inj, hnumber, Nat.mod_eq_iff_lt (Nat.ne_of_gt (Nat.two_pow_pos n))]

/-- The values that survive in `n` bits are those that `n` bits of their type hold. -/
theorem survives_iff_holds {v : Value} {k : Int} (hk : v.integer? = some k) {n : Nat}
    (hpos : 0 < n) (hn : n ≤ v.type.bits) : v.Survives n ↔ v.type.Holds n k := by
  cases v with
  | float f x => cases hk
  | bool b =>
    obtain rfl : (b.toNat : Int) = k := Option.some.inj hk
    refine iff_of_true (survives_bool b hpos) ?_
    cases b
    · exact .inl rfl
    · exact .inr rfl
  | uint w x =>
    obtain rfl : (x.toNat : Int) = k := Option.some.inj hk
    have hcast : ((2 ^ n : Nat) : Int) = 2 ^ n := Int.natCast_pow 2 n
    rw [Survives, type, toWord, ofWord, Value.uint.injEq, eq_self_iff_true, true_and, heq_iff_eq,
      setWidth_low_setWidth_eq_iff w.bits_le hn, Scalar.Holds]
    omega
  | sint w x =>
    obtain rfl : x.toInt = k := Option.some.inj hk
    have hle : n ≤ w.bits := hn
    have hnumber : ((Word.signExtend (Word.low (x.signExtend 64) n) n).setWidth w.bits).toInt =
        x.toInt.bmod (2 ^ n) := by
      rw [setWidth_signExtend_low_of_le w.bits_le hpos hle, BitVec.toInt_signExtend_of_le hle,
        BitVec.toInt_signExtend_eq_toInt_bmod_of_le x hle]
    rw [Survives, type, toWord, ofWord, Value.sint.injEq, eq_self_iff_true, true_and, heq_iff_eq,
      ← BitVec.toInt_inj, hnumber]
    exact bmod_two_pow_eq_self_iff hpos _

end Value

end WireRecord
