/-
WireRecord.Proofs.MagnitudeTheorems — floating-point patterns as exact rationals.

A magnitude stands for `significand * 2 ^ exponent`, and `FloatFormat.magValue` is this
rational. The equation behind everything else takes it apart: `r` units of a grid lie `r`
patterns above its first one (`FloatFormat.magValue_add`), also for the significand that is
one too large for the grid, since the carry into the exponent field leads to the same number.
So magnitudes are ordered like their numbers, and each number with few enough digits that is
not below the finest grid has a magnitude.

From infinity on the equations go on as if the exponents did. Rounding uses this: it looks
for the nearest magnitude first, and asks whether it is too large in the end.
-/
import Mathlib.Algebra.Order.Field.Power
import Mathlib.Data.Rat.Floor
import Mathlib.Tactic.Linarith
import Mathlib.Tactic.Positivity
import Mathlib.Tactic.Ring
import WireRecord.Float.Rounding

namespace WireRecord

/-! ## Powers of two -/

/-- Moving a number up is a product. -/
theorem mul_zpow_natCast (m k : Nat) : (m : ℚ) * 2 ^ (k : Int) = (m * 2 ^ k : Nat) := by
  rw [zpow_natCast]
  push_cast
  rfl

/-- Moving a number down is a quotient. -/
theorem mul_zpow_neg_natCast (m k : Nat) :
    (m : ℚ) * 2 ^ (-k : Int) = m / (2 ^ k : Nat) := by
  rw [zpow_neg, zpow_natCast, ← div_eq_mul_inv, Nat.cast_pow, Nat.cast_ofNat]

namespace FloatFormat

variable (f : FloatFormat)

/-! ## Magnitudes as numbers -/

/-- The number of a magnitude. -/
def magValue (mag : Nat) : ℚ := f.significand mag * 2 ^ f.exponent mag

theorem hiddenBit_pos : 0 < f.hiddenBit := Nat.two_pow_pos _

theorem hiddenBit_even : f.hiddenBit % 2 = 0 := by cases f <;> rfl

theorem two_mul_hiddenBit : 2 * f.hiddenBit = 2 ^ f.precision := by cases f <;> rfl

theorem cast_hiddenBit : (f.hiddenBit : ℚ) = 2 ^ ((f.precision - 1 : Nat) : Int) := by
  rw [zpow_natCast]
  exact_mod_cast (rfl : f.hiddenBit = 2 ^ (f.precision - 1))

theorem significand_lt (mag : Nat) : f.significand mag < 2 * f.hiddenBit := by
  have hpos := f.hiddenBit_pos
  unfold significand
  split
  · rename_i h
    rw [Nat.div_eq_zero_iff_lt hpos] at h
    omega
  · have := Nat.mod_lt mag hpos
    omega

/-- Only on the finest grid the hidden digit may be missing. -/
theorem grid_eq_zero_or (mag : Nat) :
    mag / f.hiddenBit - 1 = 0 ∨ f.hiddenBit ≤ f.significand mag := by
  unfold significand
  split
  · left
    omega
  · right
    omega

/-- A magnitude counts the grids below its own, and the units of its significand. -/
theorem eq_grid_add_significand (mag : Nat) :
    mag = (mag / f.hiddenBit - 1) * f.hiddenBit + f.significand mag := by
  have hsplit := Nat.div_add_mod mag f.hiddenBit
  unfold significand
  split
  · rename_i h
    simp [h]
  · rename_i h
    obtain ⟨k, hk⟩ := Nat.exists_eq_succ_of_ne_zero h
    rw [hk] at hsplit ⊢
    rw [Nat.succ_sub_one, Nat.add_comm (mag % f.hiddenBit), ← Nat.add_assoc, ← Nat.succ_mul,
      Nat.mul_comm, hsplit]

/-- The magnitude `r` units up a grid stands for `r` of its units. -/
theorem magValue_add {k r : Nat} (hr : r ≤ 2 * f.hiddenBit) (hk : k = 0 ∨ f.hiddenBit ≤ r) :
    f.magValue (k * f.hiddenBit + r) = r * 2 ^ (f.minExponent + k) := by
  have hpos := f.hiddenBit_pos
  rcases Nat.lt_or_ge r f.hiddenBit with hlow | hhigh
  · -- below the hidden digit there is only the finest grid
    obtain rfl : k = 0 := hk.resolve_right (Nat.not_le.mpr hlow)
    have hdiv : r / f.hiddenBit = 0 := Nat.div_eq_of_lt hlow
    rw [Nat.zero_mul, Nat.zero_add, magValue, significand, exponent, hdiv, if_pos rfl]
  · obtain ⟨s, rfl⟩ := Nat.exists_eq_add_of_le hhigh
    have hsum : k * f.hiddenBit + (f.hiddenBit + s) = s + (k + 1) * f.hiddenBit := by ring
    rcases Nat.lt_or_ge s f.hiddenBit with hin | hout
    · have hdiv : (s + (k + 1) * f.hiddenBit) / f.hiddenBit = k + 1 := by
        rw [Nat.add_mul_div_right _ _ hpos, Nat.div_eq_of_lt hin, Nat.zero_add]
      have hmod : (s + (k + 1) * f.hiddenBit) % f.hiddenBit = s := by
        rw [Nat.add_mul_mod_self_right, Nat.mod_eq_of_lt hin]
      rw [hsum, magValue, significand, exponent, hdiv, hmod, if_neg (Nat.succ_ne_zero k),
        Nat.add_sub_cancel, Nat.add_comm s]
    · -- the carry: one digit more is the hidden digit of the next grid
      obtain rfl : s = f.hiddenBit := by omega
      have hnext : f.hiddenBit + (k + 1) * f.hiddenBit = (k + 2) * f.hiddenBit := by ring
      have hdiv : (k + 2) * f.hiddenBit / f.hiddenBit = k + 2 := Nat.mul_div_cancel _ hpos
      have hpow : (2 : ℚ) ^ (f.minExponent + (k + 1 : Nat)) =
          2 * 2 ^ (f.minExponent + (k : Int)) := by
        rw [Nat.cast_succ, ← add_assoc, zpow_add_one₀ (by norm_num), mul_comm]
      rw [hsum, hnext, magValue, significand, exponent, hdiv, Nat.mul_mod_left,
        if_neg (Nat.succ_ne_zero _), Nat.zero_add, show k + 2 - 1 = k + 1 from rfl, hpow]
      push_cast
      ring

theorem magValue_eq (mag : Nat) : f.magValue mag =
    f.significand mag * 2 ^ (f.minExponent + (mag / f.hiddenBit - 1 : Nat)) := rfl

@[simp] theorem magValue_zero : f.magValue 0 = 0 := by simp [magValue, significand]

theorem magValue_nonneg (mag : Nat) : 0 ≤ f.magValue mag := by
  unfold magValue
  positivity

/-- Magnitudes are ordered like the numbers they stand for. -/
theorem magValue_strictMono : StrictMono f.magValue := by
  refine strictMono_nat_of_lt_succ fun mag => ?_
  have hnext := f.magValue_add (k := mag / f.hiddenBit - 1) (r := f.significand mag + 1)
    (f.significand_lt mag) ((f.grid_eq_zero_or mag).imp_right Nat.le_succ_of_le)
  rw [← Nat.add_assoc, ← f.eq_grid_add_significand] at hnext
  rw [hnext, magValue_eq]
  push_cast
  have hunit : (0 : ℚ) < 2 ^ (f.minExponent + ((mag / f.hiddenBit - 1 : Nat) : Int)) := by
    positivity
  linarith

/-- A number of few enough digits on some grid has a magnitude. -/
theorem exists_magValue_eq {m : Nat} (hm : m ≤ 2 * f.hiddenBit) (k : Nat) :
    ∃ mag, f.magValue mag = m * 2 ^ (f.minExponent + k) := by
  induction k generalizing m with
  | zero => exact ⟨_, f.magValue_add (k := 0) hm (.inl rfl)⟩
  | succ k ih =>
    by_cases hhidden : f.hiddenBit ≤ m
    · exact ⟨_, f.magValue_add hm (.inr hhidden)⟩
    · -- short numbers are on the next finer grid as well
      obtain ⟨mag, hmag⟩ := ih (m := 2 * m) (by omega)
      refine ⟨mag, ?_⟩
      rw [hmag, Nat.cast_succ, ← add_assoc, zpow_add_one₀ (by norm_num)]
      push_cast
      ring

/-- The exponent of the power of two at which a format ends. -/
def topExponent : FloatFormat → Int
  | single => 128
  | double => 1024

/-- Infinity takes the place of the first number that is too large. -/
theorem magValue_infinity : f.magValue f.infinity = 2 ^ f.topExponent := by
  obtain ⟨k, hk, htop⟩ : ∃ k : Nat, f.infinity = k * f.hiddenBit + f.hiddenBit ∧
      f.topExponent = (f.precision - 1 : Nat) + (f.minExponent + k) := by
    cases f with
    | single => exact ⟨254, rfl, rfl⟩
    | double => exact ⟨2046, rfl, rfl⟩
  rw [hk, f.magValue_add (by omega) (.inr le_rfl), cast_hiddenBit, ← zpow_add₀ (by norm_num), htop]

/-- A magnitude is on a grid, or below the part of the grid that is its own. -/
theorem exists_units_or_lt (k mag : Nat) :
    (∃ j : Nat, f.magValue mag = j * 2 ^ (f.minExponent + k)) ∨
      (k ≠ 0 ∧ f.magValue mag < f.hiddenBit * 2 ^ (f.minExponent + k)) := by
  rw [magValue_eq]
  rcases Nat.lt_or_ge (mag / f.hiddenBit - 1) k with hlow | hhigh
  · refine .inr ⟨by omega, ?_⟩
    have hsig : (f.significand mag : ℚ) < 2 * f.hiddenBit := by exact_mod_cast f.significand_lt mag
    have hpow : (2 : ℚ) ^ (f.minExponent + ((mag / f.hiddenBit - 1 : Nat) : Int) + 1) ≤
        2 ^ (f.minExponent + (k : Int)) := zpow_le_zpow_right₀ (by norm_num) (by omega)
    calc (f.significand mag : ℚ) * 2 ^ (f.minExponent + ((mag / f.hiddenBit - 1 : Nat) : Int))
        < 2 * f.hiddenBit * 2 ^ (f.minExponent + ((mag / f.hiddenBit - 1 : Nat) : Int)) :=
          mul_lt_mul_of_pos_right hsig (by positivity)
      _ = f.hiddenBit * 2 ^ (f.minExponent + ((mag / f.hiddenBit - 1 : Nat) : Int) + 1) := by
          rw [zpow_add_one₀ (by norm_num)]
          ring
      _ ≤ f.hiddenBit * 2 ^ (f.minExponent + (k : Int)) :=
          mul_le_mul_of_nonneg_left hpow (by positivity)
  · obtain ⟨i, hi⟩ := Nat.exists_eq_add_of_le hhigh
    refine .inl ⟨f.significand mag * 2 ^ i, ?_⟩
    rw [hi, Nat.cast_add, ← add_assoc, zpow_add₀ (by norm_num), zpow_natCast]
    push_cast
    ring

/-! ## Patterns as numbers -/

/-- Whether a pattern stands for a number that is not infinite. -/
def isFinite (x : BitVec f.width) : Bool := decide (f.magnitude x < f.infinity)

/-- The number of a pattern. -/
def number (x : BitVec f.width) : ℚ :=
  if f.negative x then -f.magValue (f.magnitude x) else f.magValue (f.magnitude x)

theorem two_mul_signWeight : 2 * f.signWeight = 2 ^ f.width := by cases f <;> rfl

theorem signWeight_pos : 0 < f.signWeight := Nat.two_pow_pos _

theorem signWeight_even : f.signWeight % 2 = 0 := by cases f <;> rfl

theorem infinity_lt_signWeight : f.infinity < f.signWeight := by cases f <;> decide

theorem toNat_pattern (s : Bool) {mag : Nat} (h : mag < f.signWeight) :
    (f.pattern s mag).toNat = (if s then f.signWeight else 0) + mag := by
  have hwidth := f.two_mul_signWeight
  rw [pattern, BitVec.toNat_ofNat, Nat.mod_eq_of_lt]
  split <;> omega

@[simp] theorem negative_pattern (s : Bool) {mag : Nat} (h : mag < f.signWeight) :
    f.negative (f.pattern s mag) = s := by
  rw [negative, toNat_pattern f s h]
  cases s <;> simp [h]

@[simp] theorem magnitude_pattern (s : Bool) {mag : Nat} (h : mag < f.signWeight) :
    f.magnitude (f.pattern s mag) = mag := by
  rw [magnitude, toNat_pattern f s h]
  cases s <;> simp [Nat.mod_eq_of_lt h]

/-- A pattern is its sign and its magnitude. -/
theorem pattern_negative_magnitude (x : BitVec f.width) :
    f.pattern (f.negative x) (f.magnitude x) = x := by
  have hpos := f.signWeight_pos
  have hlt : x.toNat < 2 * f.signWeight := f.two_mul_signWeight ▸ x.isLt
  refine BitVec.eq_of_toNat_eq ?_
  have hmag : f.magnitude x < f.signWeight := Nat.mod_lt _ hpos
  rw [toNat_pattern f _ hmag, magnitude, negative]
  by_cases hneg : f.signWeight ≤ x.toNat
  · rw [Nat.mod_eq_sub_mod hneg, Nat.mod_eq_of_lt (by omega)]
    simp [hneg]
  · rw [Nat.mod_eq_of_lt (by omega)]
    simp [hneg]

theorem number_pattern (s : Bool) {mag : Nat} (h : mag < f.signWeight) :
    f.number (f.pattern s mag) = if s then -f.magValue mag else f.magValue mag := by
  rw [number, negative_pattern f s h, magnitude_pattern f s h]

theorem abs_number (x : BitVec f.width) : |f.number x| = f.magValue (f.magnitude x) := by
  have hnonneg := f.magValue_nonneg (f.magnitude x)
  unfold number
  split
  · rw [abs_neg, abs_of_nonneg hnonneg]
  · rw [abs_of_nonneg hnonneg]

end FloatFormat

end WireRecord
