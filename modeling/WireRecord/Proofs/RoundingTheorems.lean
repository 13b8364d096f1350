/-
WireRecord.Proofs.RoundingTheorems — rounding finds the nearest number.

`FloatFormat.roundMagnitude` divides on the grid that leaves as many digits as the format
has. No number of the format is nearer than what it finds, whatever grid that number is on,
and if another one is as near, the one that was found has an even pattern:
`FloatFormat.Nearest` says both. On the grid this is division to the nearest integer. Numbers
between the points of the grid are all below the part of it where the rounded number is, and
the first point there is nearer than they are.

The rest needs nothing but `Nearest`. A number of the format is rounded to itself, and what is
not above one is rounded to no more than it.
-/
import WireRecord.Proofs.MagnitudeTheorems

namespace WireRecord

/-! ## The nearest integer -/

/-- A quotient is rounded by a half at most, and by a half only to an even number. -/
theorem abs_divNearestEven_sub_le (n : Nat) {d : Nat} (hd : 0 < d) :
    |(divNearestEven n d : ℚ) - n / d| ≤ 1 / 2 ∧
      (|(divNearestEven n d : ℚ) - n / d| = 1 / 2 → divNearestEven n d % 2 = 0) := by
  have hpos : (0 : ℚ) < d := by exact_mod_cast hd
  have hquot : (n : ℚ) / d = (n / d : Nat) + (n % d : Nat) / d := by
    rw [eq_comm, ← mul_right_inj' hpos.ne', mul_add, mul_div_cancel₀ _ hpos.ne',
      mul_div_cancel₀ _ hpos.ne']
    exact_mod_cast Nat.div_add_mod n d
  have hnonneg : (0 : ℚ) ≤ (n % d : Nat) / d := by positivity
  simp only [divNearestEven]
  rw [hquot]
  split
  · rename_i hlt
    have hless : ((n % d : Nat) : ℚ) / d < 1 / 2 := by
      rw [div_lt_div_iff₀ hpos (by norm_num)]
      exact_mod_cast (by omega : n % d * 2 < 1 * d)
    rw [abs_sub_comm, add_sub_cancel_left, abs_of_nonneg hnonneg]
    exact ⟨hless.le, fun heq => absurd heq hless.ne⟩
  · split
    · rename_i hgt
      have hmore : 1 / 2 < ((n % d : Nat) : ℚ) / d := by
        rw [div_lt_div_iff₀ (by norm_num) hpos]
        exact_mod_cast (by omega : 1 * d < n % d * 2)
      have hone : ((n % d : Nat) : ℚ) / d < 1 := by
        rw [div_lt_one hpos]
        exact_mod_cast Nat.mod_lt n hd
      rw [Nat.cast_succ, add_sub_add_left_eq_sub, abs_of_pos (by linarith)]
      exact ⟨by linarith, fun heq => by linarith⟩
    · have hhalf : ((n % d : Nat) : ℚ) / d = 1 / 2 := by
        rw [div_eq_div_iff hpos.ne' (by norm_num)]
        exact_mod_cast (by omega : n % d * 2 = 1 * d)
      refine ⟨?_, fun _ => by omega⟩
      rw [hhalf, Nat.cast_add, add_sub_add_left_eq_sub]
      rcases Nat.mod_two_eq_zero_or_one (n / d) with h | h <;> rw [h] <;> norm_num

/-- An integer that is within a half is the nearest. Another one that is as near is a half
away, like itself. -/
theorem abs_sub_le_of_half {x : ℚ} {r : Nat} (h : |(r : ℚ) - x| ≤ 1 / 2) (j : Nat) :
    |(r : ℚ) - x| ≤ |(j : ℚ) - x| ∧
      (j ≠ r → |(j : ℚ) - x| = |(r : ℚ) - x| → |(r : ℚ) - x| = 1 / 2) := by
  by_cases hj : j = r
  · subst hj
    exact ⟨le_rfl, fun hne => absurd rfl hne⟩
  · have hapart : (1 : ℚ) ≤ |(j : ℚ) - r| := by
      have hne : ((j : Int) - r) ≠ 0 := by omega
      exact_mod_cast Int.one_le_abs hne
    have hsplit : |(j : ℚ) - r| ≤ |(j : ℚ) - x| + |(r : ℚ) - x| := by
      rw [abs_sub_comm (r : ℚ) x]
      exact abs_sub_le _ _ _
    exact ⟨by linarith, fun _ heq => by linarith⟩

namespace FloatFormat

variable (f : FloatFormat)

/-! ## The nearest magnitude -/

/-- A magnitude to which a number is rounded: none is nearer, and if another one is as near,
this one is even. -/
structure Nearest (x : ℚ) (mag : Nat) : Prop where
  le : ∀ other, |f.magValue mag - x| ≤ |f.magValue other - x|
  even : ∀ other, other ≠ mag → |f.magValue other - x| = |f.magValue mag - x| → mag % 2 = 0

variable {f}

/-- The nearest unit of the right grid is the nearest magnitude. -/
theorem nearest_of_units {x : ℚ} {k r : Nat} (hr : r ≤ 2 * f.hiddenBit)
    (hk : k = 0 ∨ (f.hiddenBit ≤ r ∧ f.hiddenBit * 2 ^ (f.minExponent + k) ≤ x))
    (hhalf : |(r : ℚ) - x / 2 ^ (f.minExponent + k)| ≤ 1 / 2)
    (heven : |(r : ℚ) - x / 2 ^ (f.minExponent + k)| = 1 / 2 → r % 2 = 0) :
    f.Nearest x (k * f.hiddenBit + r) := by
  have hvalue := f.magValue_add hr (hk.imp_right And.left)
  have hunit : (0 : ℚ) < 2 ^ (f.minExponent + (k : Int)) := by positivity
  have hgrid := f.exists_units_or_lt k
  generalize (2 : ℚ) ^ (f.minExponent + (k : Int)) = unit at *
  have hdistance : ∀ j : Nat, |(j : ℚ) * unit - x| = |(j : ℚ) - x / unit| * unit := fun j => by
    rw [← abs_of_pos hunit, ← abs_mul, abs_of_pos hunit, sub_mul, div_mul_cancel₀ _ hunit.ne']
  have hscaled : ∀ j : Nat, |(r : ℚ) * unit - x| ≤ |(j : ℚ) * unit - x| := fun j => by
    rw [hdistance, hdistance]
    exact mul_le_mul_of_nonneg_right (abs_sub_le_of_half hhalf j).1 hunit.le
  -- below its part of the grid every number is farther away than the first point there
  have hplaces : ∀ other, (∃ j : Nat, f.magValue other = j * unit) ∨
      |(r : ℚ) * unit - x| < |f.magValue other - x| := fun other => by
    refine (hgrid other).imp_right fun ⟨hk0, hlt⟩ => ?_
    obtain ⟨-, hx⟩ := hk.resolve_left hk0
    refine lt_of_le_of_lt (hscaled f.hiddenBit) ?_
    rw [abs_of_nonpos (by linarith), abs_of_nonpos (by linarith)]
    linarith
  rw [← hvalue] at hplaces hscaled
  refine ⟨fun other => ?_, fun other hne heq => ?_⟩
  · rcases hplaces other with ⟨j, hj⟩ | hfar
    · rw [hj]
      exact hscaled j
    · exact hfar.le
  · rcases hplaces other with ⟨j, hj⟩ | hfar
    · have hjr : j ≠ r := by
        rintro rfl
        exact hne (f.magValue_strictMono.injective (hj.trans hvalue.symm))
      rw [hj, hvalue, hdistance, hdistance] at heq
      have hr2 := heven ((abs_sub_le_of_half hhalf j).2 hjr (mul_right_cancel₀ hunit.ne' heq))
      rw [Nat.add_mod, Nat.mul_mod, f.hiddenBit_even, hr2, Nat.mul_zero]
    · exact absurd heq hfar.ne'

/-! ## Rounding -/

/-- A number of units of one grid, in units of another. -/
theorem mul_zpow_div_zpow (m : Nat) (q e : Int) :
    (m : ℚ) * 2 ^ q / 2 ^ e = m * 2 ^ (q - e) := by
  rw [zpow_sub₀ (by norm_num), mul_div_assoc]

/-- The significand that rounding finds on a grid is the nearest. -/
theorem abs_units_sub_le (m : Nat) (q e : Int) :
    let r :=
      if e ≤ q then m * Nat.pow 2 (q - e).toNat else divNearestEven m (Nat.pow 2 (e - q).toNat)
    |(r : ℚ) - m * 2 ^ q / 2 ^ e| ≤ 1 / 2 ∧
      (|(r : ℚ) - m * 2 ^ q / 2 ^ e| = 1 / 2 → r % 2 = 0) := by
  intro r
  by_cases h : e ≤ q
  · have hr : r = m * 2 ^ (q - e).toNat := if_pos h
    have hexp : q - e = ((q - e).toNat : Int) := (Int.toNat_of_nonneg (by omega)).symm
    rw [mul_zpow_div_zpow, hexp, mul_zpow_natCast, ← hr, sub_self, abs_zero]
    exact ⟨by norm_num, fun hhalf => by norm_num at hhalf⟩
  · have hr : r = divNearestEven m (2 ^ (e - q).toNat) := if_neg h
    have hexp : q - e = -((e - q).toNat : Int) := by omega
    rw [mul_zpow_div_zpow, hexp, mul_zpow_neg_natCast, hr]
    exact abs_divNearestEven_sub_le m (Nat.two_pow_pos _)

/-- The exponent that rounding chooses leaves as many digits as the format has, and fewer only
on the finest grid. -/
theorem quotient_bounds {m : Nat} (hm : m ≠ 0) {q e : Int}
    (he : e = max ((m.log2 : Int) + q - (f.precision - 1 : Nat)) f.minExponent) :
    (m : ℚ) * 2 ^ q / 2 ^ e < 2 * f.hiddenBit ∧
      (e ≠ f.minExponent → (f.hiddenBit : ℚ) ≤ m * 2 ^ q / 2 ^ e) := by
  have hpow : (0 : ℚ) < 2 ^ (q - e) := by positivity
  have hone : 1 ≤ f.precision := by cases f <;> decide
  rw [mul_zpow_div_zpow]
  constructor
  · have hlog : (m : ℚ) < 2 ^ ((m.log2 + 1 : Nat) : Int) := by
      rw [zpow_natCast]
      exact_mod_cast Nat.lt_log2_self
    have htop : (2 * f.hiddenBit : ℚ) = 2 ^ (f.precision : Int) := by
      rw [zpow_natCast]
      exact_mod_cast f.two_mul_hiddenBit
    calc (m : ℚ) * 2 ^ (q - e) < 2 ^ ((m.log2 + 1 : Nat) : Int) * 2 ^ (q - e) :=
          mul_lt_mul_of_pos_right hlog hpow
      _ = 2 ^ (((m.log2 + 1 : Nat) : Int) + (q - e)) := (zpow_add₀ (by norm_num) _ _).symm
      _ ≤ 2 ^ (f.precision : Int) := zpow_le_zpow_right₀ (by norm_num) (by omega)
      _ = 2 * f.hiddenBit := htop.symm
  · intro hne
    have hlog : (2 : ℚ) ^ (m.log2 : Int) ≤ m := by
      rw [zpow_natCast]
      exact_mod_cast Nat.log2_self_le hm
    calc (f.hiddenBit : ℚ) = 2 ^ ((m.log2 : Int) + (q - e)) := by
          rw [f.cast_hiddenBit]
          congr 1
          omega
      _ = 2 ^ (m.log2 : Int) * 2 ^ (q - e) := zpow_add₀ (by norm_num) _ _
      _ ≤ m * 2 ^ (q - e) := mul_le_mul_of_nonneg_right hlog hpow.le

/-- Rounding finds the nearest magnitude, unless that is infinity or beyond. -/
theorem exists_nearest (m : Nat) (q : Int) :
    ∃ mag, f.roundMagnitude m q = min f.infinity mag ∧ f.Nearest (m * 2 ^ q) mag := by
  by_cases hm : m = 0
  · subst hm
    refine ⟨0, by simp [roundMagnitude], ?_⟩
    have hzero := nearest_of_units (f := f) (x := 0) (k := 0) (r := 0) (Nat.zero_le _) (.inl rfl)
      (by simp) (fun _ => rfl)
    simpa using hzero
  · obtain ⟨e, he⟩ : ∃ e, e = max ((m.log2 : Int) + q - (f.precision - 1 : Nat)) f.minExponent :=
      ⟨_, rfl⟩
    obtain ⟨k, hk⟩ : ∃ k : Nat, e = f.minExponent + k := ⟨(e - f.minExponent).toNat, by omega⟩
    have hgrid : (e - f.minExponent).toNat = k := by omega
    obtain ⟨hhalf, heven⟩ := abs_units_sub_le m q e
    obtain ⟨hupper, hlower⟩ := quotient_bounds hm he
    have hround : f.roundMagnitude m q = min f.infinity (k * f.hiddenBit +
        if e ≤ q then m * Nat.pow 2 (q - e).toNat
        else divNearestEven m (Nat.pow 2 (e - q).toNat)) := by
      simp only [roundMagnitude, if_neg hm, ← he, hgrid]
    generalize (if e ≤ q then m * Nat.pow 2 (q - e).toNat
      else divNearestEven m (Nat.pow 2 (e - q).toNat)) = r at *
    obtain ⟨hbelow, habove⟩ := abs_le.mp hhalf
    have hr : r ≤ 2 * f.hiddenBit := by
      have : (r : ℚ) < (2 * f.hiddenBit + 1 : Nat) := by
        push_cast
        linarith
      exact Nat.lt_succ_iff.mp (by exact_mod_cast this)
    refine ⟨_, hround, nearest_of_units hr ?_ (hk ▸ hhalf) (hk ▸ heven)⟩
    by_cases hfinest : e = f.minExponent
    · exact .inl (by omega)
    · have hhidden := hlower hfinest
      refine .inr ⟨?_, ?_⟩
      · have : (f.hiddenBit : ℚ) < (r + 1 : Nat) := by
          push_cast
          linarith
        exact Nat.lt_succ_iff.mp (by exact_mod_cast this)
      · rw [← hk, ← le_div_iff₀ (by positivity)]
        exact hhidden

/-! ## What the nearest magnitude is -/

namespace Nearest

variable {x : ℚ} {a mag : Nat}

/-- A number that has a magnitude is rounded to it. -/
theorem eq_of_magValue_eq (h : f.Nearest x mag) (ha : f.magValue a = x) : mag = a := by
  have hle := h.le a
  rw [ha, sub_self, abs_zero] at hle
  have hzero := abs_eq_zero.mp (le_antisymm hle (abs_nonneg _))
  exact f.magValue_strictMono.injective ((sub_eq_zero.mp hzero).trans ha.symm)

/-- A number is rounded to no more than what is above it. -/
theorem le_of_le_magValue (h : f.Nearest x mag) (ha : x ≤ f.magValue a) : mag ≤ a := by
  by_contra hlt
  have habove := f.magValue_strictMono (Nat.lt_of_not_le hlt)
  have hle := h.le a
  rw [abs_of_nonneg (by linarith), abs_of_nonneg (by linarith)] at hle
  linarith

end Nearest

/-- What is not above a number of the format is rounded to the nearest one, which is not above
it either. -/
theorem nearest_roundMagnitude {m a : Nat} {q : Int} (ha : a < f.infinity)
    (h : m * 2 ^ q ≤ f.magValue a) :
    f.Nearest (m * 2 ^ q) (f.roundMagnitude m q) ∧ f.roundMagnitude m q ≤ a := by
  obtain ⟨mag, hround, hnearest⟩ := f.exists_nearest m q
  have hle := hnearest.le_of_le_magValue h
  have hmag : f.roundMagnitude m q = mag := by rw [hround, Nat.min_eq_right (by omega)]
  rw [hmag]
  exact ⟨hnearest, hle⟩

/-- A number of the format is rounded to itself. -/
theorem roundMagnitude_of_magValue_eq {m a : Nat} {q : Int} (ha : a < f.infinity)
    (h : f.magValue a = m * 2 ^ q) : f.roundMagnitude m q = a :=
  (nearest_roundMagnitude ha h.ge).1.eq_of_magValue_eq h

end FloatFormat

/-- What is nearest to the lesser of two numbers is not above what is nearest to the greater. -/
theorem le_of_abs_sub_le {x y p q : ℚ} (hxy : x < y) (hp : |p - x| ≤ |q - x|)
    (hq : |q - y| ≤ |p - y|) : p ≤ q := by
  by_contra hlt
  have hpx := sq_le_sq.mpr hp
  have hqy := sq_le_sq.mpr hq
  have hleft : p + q ≤ 2 * x := by nlinarith
  have hright : 2 * y ≤ p + q := by nlinarith
  linarith

end WireRecord
