/-
WireRecord.Proofs.IntegerConversionTheorems — integers from one type to another.

A program takes every number through 128 bits with a sign, which hold those of all integer
types; `Value.wide` is that number as it gets there, by way of 64 bits with a sign, and past
them for the one type that has numbers beyond. `Value.ofWide` cuts it to the type asked for.

Nothing is lost on the way there, so what comes out is decided by the number alone, and is
the only value of the type that is congruent to it (`Value.convert_eq_iff_emod_eq`). A longer
way through a type that is no narrower than the last makes no difference, and a type that
holds the number gives it back.
-/
import WireRecord.Proofs.NarrowTheorems

namespace WireRecord

/-! ## Numbers and their ranges -/

/-- What a type holds is within 64 bits, and has room for a sign unless the type is the one
without. -/
theorem Scalar.Holds.bounds {t : Scalar} {n : Int} (h : t.Holds t.bits n) :
    -2 ^ 63 ≤ n ∧ n < 2 ^ 64 ∧ (t ≠ .uint .w64 → n < 2 ^ 63) := by
  cases t with
  | float f => exact h.elim
  | bool => rcases h with rfl | rfl <;> decide
  | uint w =>
    obtain ⟨hlo, hhi⟩ := h
    cases w with
    | w64 => exact ⟨by omega, hhi, fun hne => absurd rfl hne⟩
    | _ =>
      simp only [Scalar.bits, Width.bits] at hhi
      exact ⟨by omega, by omega, fun _ => by omega⟩
  | sint w =>
    obtain ⟨hlo, hhi⟩ := h
    cases w <;>
    · simp only [Scalar.bits, Width.bits] at hlo hhi
      exact ⟨by omega, by omega, fun _ => by omega⟩

namespace Value

/-- The number of a value is one that its type holds. -/
theorem holds_of_integer? {v : Value} {n : Int} (h : v.integer? = some n) :
    v.type.Holds v.type.bits n := by
  have hpos : 0 < v.type.bits := Nat.lt_of_lt_of_le (by decide) v.type.eight_le_bits
  exact (survives_iff_holds h hpos (Nat.le_refl _)).mp v.survives_bits

/-- A number that a type holds is the number of the value it becomes. -/
theorem integer?_ofInt {t : Scalar} {n : Int} (h : t.Holds t.bits n) :
    (ofInt t n).integer? = some n := by
  cases t with
  | float f => exact h.elim
  | bool =>
    rcases h with rfl | rfl
    · rfl
    · rfl
  | uint w =>
    obtain ⟨hlo, hhi⟩ := h
    have hcast : ((2 ^ w.bits : Nat) : Int) = 2 ^ w.bits := Int.natCast_pow 2 w.bits
    rw [ofInt, integer?, BitVec.toNat_ofInt, hcast]
    rw [Scalar.bits] at hhi
    rw [Int.emod_eq_of_lt hlo hhi, Int.toNat_of_nonneg hlo]
  | sint w =>
    have hpos : 0 < w.bits := Nat.lt_of_lt_of_le (by decide) (Scalar.eight_le_bits (.sint w))
    rw [ofInt, integer?, BitVec.toInt_ofInt, (bmod_two_pow_eq_self_iff hpos n).mpr h]

/-- What an integer type makes of a number is congruent to it. -/
theorem exists_integer?_ofInt {t : Scalar} (ht : t.IsInteger) (n : Int) :
    ∃ m, (ofInt t n).integer? = some m ∧ m % 2 ^ t.bits = n % 2 ^ t.bits := by
  have htype : (ofInt t n).type = t := by cases t <;> rfl
  obtain ⟨m, hm⟩ := exists_integer (htype.symm ▸ ht)
  have hback := convert_eq_ofInt hm t
  rw [convert_of_type_eq htype, ofInt_eq_ofInt_iff ht] at hback
  exact ⟨m, hm, hback.symm⟩

/-! ## By way of 128 bits -/

/-- The number of a value in 128 bits with a sign. -/
def wide : Value → BitVec 128
  | uint .w64 x => BitVec.ofInt 128 x.toNat
  | v => BitVec.ofInt 128 (v.signed64?.getD 0)

/-- The number in 128 bits as a value of a type. -/
def ofWide (t : Scalar) (n : BitVec 128) : Value :=
  match t with
  | .bool => bool (n != 0)
  | .uint w => uint w (n.setWidth w.bits)
  | .sint w => sint w (n.setWidth w.bits)
  | .float f => float f (f.ofInt n.toInt)

theorem signed64?_of_lt {v : Value} {n : Int} (h : v.integer? = some n) (hn : n < 2 ^ 63) :
    v.signed64? = some n := by
  have hmax : n ≤ 2 ^ 63 - 1 := by omega
  exact Option.filter_eq_some_iff.mpr ⟨h, decide_eq_true hmax⟩

/-- The number arrives unchanged. -/
theorem wide_eq_ofInt {v : Value} {n : Int} (h : v.integer? = some n) :
    v.wide = BitVec.ofInt 128 n := by
  unfold wide
  split
  · obtain rfl := Option.some.inj h
    rfl
  · rename_i hne
    have htype : v.type ≠ .uint .w64 := fun htype => by
      cases v with
      | uint w x =>
        obtain rfl : w = .w64 := Scalar.uint.inj htype
        exact hne x rfl
      | _ => cases htype
    rw [signed64?_of_lt h ((holds_of_integer? h).bounds.2.2 htype), Option.getD_some]

theorem toInt_wide {v : Value} {n : Int} (h : v.integer? = some n) : v.wide.toInt = n := by
  obtain ⟨hlo, hhi, -⟩ := (holds_of_integer? h).bounds
  rw [wide_eq_ofInt h, BitVec.toInt_ofInt]
  exact (bmod_two_pow_eq_self_iff (by decide) n).mpr ⟨by omega, by omega⟩

/-- Cutting 128 bits leaves the residue. -/
theorem setWidth_ofInt {m : Nat} (hm : m ≤ 128) (n : Int) :
    (BitVec.ofInt 128 n).setWidth m = BitVec.ofInt m n := by
  have hdvd : ((2 ^ m : Nat) : Int) ∣ ((2 ^ 128 : Nat) : Int) :=
    Int.natCast_dvd_natCast.mpr (Nat.pow_dvd_pow 2 hm)
  have hpos : ((2 ^ 128 : Nat) : Int) ≠ 0 := by decide
  refine BitVec.eq_of_toNat_eq ?_
  rw [BitVec.toNat_setWidth, BitVec.toNat_ofInt, BitVec.toNat_ofInt, ← Int.toNat_natCast (2 ^ m),
    ← Int.toNat_emod (Int.emod_nonneg n hpos) (Int.natCast_nonneg _), Int.toNat_natCast,
    Int.emod_emod_of_dvd n hdvd]

/-- A value is converted by way of 128 bits. -/
theorem convert_eq_ofWide {v : Value} {n : Int} (h : v.integer? = some n) (t : Scalar) :
    v.convert t = ofWide t v.wide := by
  rw [convert_eq_ofInt h]
  cases t with
  | bool =>
    have hzero : n = 0 ↔ v.wide = 0 := by rw [← BitVec.toInt_inj, toInt_wide h]; rfl
    rw [ofInt, ofWide]
    congr 1
    rw [Bool.eq_iff_iff, bne_iff_ne, bne_iff_ne, ne_eq, ne_eq, hzero]
  | uint w =>
    rw [ofInt, ofWide, wide_eq_ofInt h, setWidth_ofInt (Nat.le_trans w.bits_le (by decide))]
  | sint w =>
    rw [ofInt, ofWide, wide_eq_ofInt h, setWidth_ofInt (Nat.le_trans w.bits_le (by decide))]
  | float f => rw [ofInt, ofWide, toInt_wide h]

/-! ## Conversion as reduction -/

/-- Going through a type that is no narrower than the last changes nothing. -/
theorem convert_convert_of_bits_le {v : Value} {n : Int} (h : v.integer? = some n) {t u : Scalar}
    (ht : t.IsInteger) (hu : u.IsInteger) (hle : u.bits ≤ t.bits) :
    (v.convert t).convert u = v.convert u := by
  obtain ⟨m, hm, hmod⟩ := exists_integer?_ofInt ht n
  have hdvd : (2 : Int) ^ u.bits ∣ 2 ^ t.bits := by exact_mod_cast Nat.pow_dvd_pow 2 hle
  rw [convert_eq_ofInt h t, convert_eq_ofInt hm, convert_eq_ofInt h, ofInt_eq_ofInt_iff hu,
    ← Int.emod_emod_of_dvd m hdvd, hmod, Int.emod_emod_of_dvd n hdvd]

/-- Integers and truth values in other types, for all of them. The number is taken through 128
bits, where it is unchanged. In an integer type it becomes the one value that is congruent to
it, and as a truth value it says whether it is not zero. A longer way through a type that is
no narrower than the last makes no difference, and a type that holds the number gives the
value back. -/
theorem convert_of_integer {v : Value} {n : Int} (h : v.integer? = some n) :
    (v.wide.toInt = n ∧ ∀ t, v.convert t = ofWide t v.wide) ∧
    (∀ t : Scalar, t.IsInteger →
      ((v.convert t).type = t ∧
        ∃ m, (v.convert t).integer? = some m ∧ m % 2 ^ t.bits = n % 2 ^ t.bits) ∧
      ∀ w m, w.type = t → w.integer? = some m → m % 2 ^ t.bits = n % 2 ^ t.bits →
        w = v.convert t) ∧
    v.convert .bool = bool (decide (n ≠ 0)) ∧
    (∀ t u : Scalar, t.IsInteger → u.IsInteger → u.bits ≤ t.bits →
      (v.convert t).convert u = v.convert u) ∧
    ∀ t : Scalar, t.Holds t.bits n → (v.convert t).convert v.type = v := by
  refine ⟨⟨toInt_wide h, convert_eq_ofWide h⟩, fun t ht => ⟨⟨type_convert v t, ?_⟩, ?_⟩, ?_,
    fun t u => convert_convert_of_bits_le h, fun t ht => ?_⟩
  · rw [convert_eq_ofInt h]
    exact exists_integer?_ofInt ht n
  · rintro w m rfl hm hmod
    exact ((convert_eq_iff_emod_eq h hm ht).mpr hmod.symm).symm
  · rw [convert_eq_ofInt h, ofInt]
    congr 1
    rw [Bool.eq_iff_iff, bne_iff_ne, decide_eq_true_iff]
  · have hback : (v.convert t).integer? = some n := by rw [convert_eq_ofInt h, integer?_ofInt ht]
    rw [convert_convert h hback, convert_type]

/-- The greatest number of 64 bits without a sign is minus one in 32 bits with a sign, by way
of 64 bits with a sign too; minus one in eight bits is kept by every type with a sign. -/
theorem convert_of_integer_edges :
    (uint .w64 (BitVec.allOnes 64)).integer? = some (2 ^ 64 - 1) ∧
    (uint .w64 (BitVec.allOnes 64)).wide.toInt = 2 ^ 64 - 1 ∧
    sint .w32 (-1) = (uint .w64 (BitVec.allOnes 64)).convert (.sint .w32) ∧
    ((uint .w64 (BitVec.allOnes 64)).convert (.sint .w64)).convert (.sint .w32) = sint .w32 (-1) ∧
    ((sint .w8 (-1)).convert (.sint .w64)).convert (.sint .w8) = sint .w8 (-1) := by
  have hmax : (uint .w64 (BitVec.allOnes 64)).integer? = some (2 ^ 64 - 1) := by decide
  have hneg : (sint .w8 (-1)).integer? = some (-1) := by decide
  obtain ⟨⟨hwide, -⟩, hunique, -, hlonger, -⟩ := convert_of_integer hmax
  obtain ⟨-, -, -, -, hkept⟩ := convert_of_integer hneg
  have hone := (hunique (.sint .w32) trivial).2 (sint .w32 (-1)) (-1) rfl (by decide) (by decide)
  refine ⟨hmax, hwide, hone, ?_, hkept (.sint .w64) (by decide)⟩
  rw [hlonger (.sint .w64) (.sint .w32) trivial trivial (by decide), ← hone]

end Value

end WireRecord
