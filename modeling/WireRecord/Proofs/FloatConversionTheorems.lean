/-
WireRecord.Proofs.FloatConversionTheorems — integers and floating-point numbers, exactly.

An integer becomes the nearest floating-point number, and of two equally near ones that with
the even pattern (`FloatFormat.abs_number_ofInt_sub_le`, `FloatFormat.even_of_tie`). That it
keeps the order, and comes back while the format has digits for all of it, follows from this
alone. On the way back a number is cut towards zero and brought into the range of the type,
which is what it has nearest to the integer part.

Every number of the single format is one of the double format, so the way through the double
format leaves no trace: the rounding on the way in is exact, the rounding on the way out too,
and in between nothing is asked that does not depend on the number alone.
-/
import WireRecord.Proofs.RoundingTheorems

namespace WireRecord

/-- The integer part of a number. -/
def towardZero (x : ℚ) : Int := if x < 0 then ⌈x⌉ else ⌊x⌋

@[simp] theorem towardZero_intCast (n : Int) : towardZero n = n := by
  unfold towardZero
  split
  · exact Int.ceil_intCast n
  · exact Int.floor_intCast n

namespace FloatFormat

variable {f : FloatFormat}

/-! ## Integers in a format -/

/-- The numbers of 64 bits are well within either format. -/
theorem exists_magValue_eq_two_pow_64 (f : FloatFormat) :
    ∃ a, a < f.infinity ∧ f.magValue a = 2 ^ 64 := by
  have hlarge : (2 : ℚ) ^ (64 : Int) < f.magValue f.infinity := by
    rw [magValue_infinity]
    exact zpow_lt_zpow_right₀ (by norm_num) (by cases f <;> decide)
  have hgrid : f.minExponent + ((64 - f.minExponent).toNat : Int) = 64 := by cases f <;> rfl
  obtain ⟨a, ha⟩ := f.exists_magValue_eq (m := 1) (by cases f <;> decide) (64 - f.minExponent).toNat
  rw [hgrid, Nat.cast_one, one_mul] at ha
  exact ⟨a, f.magValue_strictMono.lt_iff_lt.mp (ha.trans_lt hlarge), ha⟩

/-- An integer of 64 bits is rounded to the nearest magnitude, which is finite. -/
theorem nearest_natAbs (f : FloatFormat) {n : Int} (hn : n.natAbs ≤ 2 ^ 64) :
    f.Nearest |(n : ℚ)| (f.roundMagnitude n.natAbs 0) ∧
      f.roundMagnitude n.natAbs 0 < f.infinity := by
  obtain ⟨a, ha, hvalue⟩ := f.exists_magValue_eq_two_pow_64
  have habs : ((n.natAbs : Nat) : ℚ) = |(n : ℚ)| := (Nat.cast_natAbs n).trans Int.cast_abs
  have hx : (n.natAbs : ℚ) * 2 ^ (0 : Int) = |(n : ℚ)| := by rw [zpow_zero, mul_one, habs]
  have hle : (n.natAbs : ℚ) * 2 ^ (0 : Int) ≤ f.magValue a := by
    rw [zpow_zero, mul_one, hvalue]
    exact_mod_cast hn
  obtain ⟨hnearest, hround⟩ := nearest_roundMagnitude ha hle
  exact ⟨hx ▸ hnearest, hround.trans_lt ha⟩

theorem isFinite_ofInt (f : FloatFormat) {n : Int} (hn : n.natAbs ≤ 2 ^ 64) :
    f.isFinite (f.ofInt n) = true := by
  have hlt := (f.nearest_natAbs hn).2
  rw [isFinite, ofInt, magnitude_pattern f _ (hlt.trans f.infinity_lt_signWeight)]
  exact decide_eq_true hlt

/-- The sign makes no difference for how far the number is from the integer. -/
theorem abs_number_ofInt_sub (f : FloatFormat) {n : Int} (hn : n.natAbs ≤ 2 ^ 64) :
    |f.number (f.ofInt n) - n| = |(f.magValue (f.roundMagnitude n.natAbs 0) - |(n : ℚ)|)| := by
  have hlt := (f.nearest_natAbs hn).2.trans f.infinity_lt_signWeight
  rw [ofInt, number_pattern f _ hlt]
  by_cases hneg : n < 0
  · have hcast : (n : ℚ) < 0 := by exact_mod_cast hneg
    rw [if_pos (decide_eq_true hneg), abs_of_neg hcast, ← abs_neg]
    congr 1
    ring
  · have hcast : (0 : ℚ) ≤ n := by exact_mod_cast not_lt.mp hneg
    rw [if_neg (by simp [hneg]), abs_of_nonneg hcast]

/-- No number of the format is nearer to an integer than the one it becomes. -/
theorem abs_number_ofInt_sub_le (f : FloatFormat) {n : Int} (hn : n.natAbs ≤ 2 ^ 64)
    (y : BitVec f.width) : |f.number (f.ofInt n) - n| ≤ |f.number y - n| :=
  calc |f.number (f.ofInt n) - n|
      = |(f.magValue (f.roundMagnitude n.natAbs 0) - |(n : ℚ)|)| := f.abs_number_ofInt_sub hn
    _ ≤ |(f.magValue (f.magnitude y) - |(n : ℚ)|)| := (f.nearest_natAbs hn).1.le _
    _ = |(|f.number y| - |(n : ℚ)|)| := by rw [abs_number]
    _ ≤ |f.number y - n| := abs_abs_sub_abs_le_abs_sub _ _

/-- Integers in a format are ordered like the integers. -/
theorem number_ofInt_le (f : FloatFormat) {m n : Int} (hm : m.natAbs ≤ 2 ^ 64)
    (hn : n.natAbs ≤ 2 ^ 64) (hle : m ≤ n) : f.number (f.ofInt m) ≤ f.number (f.ofInt n) := by
  rcases hle.lt_or_eq with hlt | rfl
  · have hcast : (m : ℚ) < n := by exact_mod_cast hlt
    exact le_of_abs_sub_le hcast (f.abs_number_ofInt_sub_le hm _) (f.abs_number_ofInt_sub_le hn _)
  · exact le_rfl

/-- An integer for which the format has all digits is one of its numbers. -/
theorem number_ofInt (f : FloatFormat) {n : Int} (hn : n.natAbs ≤ 2 ^ f.precision) :
    f.number (f.ofInt n) = n := by
  have h64 : n.natAbs ≤ 2 ^ 64 :=
    hn.trans (Nat.pow_le_pow_right (by decide) (by cases f <;> decide))
  have hgrid : f.minExponent + ((-f.minExponent).toNat : Int) = 0 := by cases f <;> rfl
  obtain ⟨a, ha⟩ := f.exists_magValue_eq (f.two_mul_hiddenBit ▸ hn) (-f.minExponent).toNat
  have hvalue : f.magValue a = |(n : ℚ)| := by
    rw [ha, hgrid, zpow_zero, mul_one]
    exact (Nat.cast_natAbs n).trans Int.cast_abs
  have hdistance := f.abs_number_ofInt_sub h64
  rw [(f.nearest_natAbs h64).1.eq_of_magValue_eq hvalue, hvalue, sub_self, abs_zero] at hdistance
  exact sub_eq_zero.mp (abs_eq_zero.mp hdistance)

/-- A number of the other sign is nearest to an integer only if the nearest is zero. -/
theorem roundMagnitude_eq_zero_of_opposite (f : FloatFormat) {n : Int} (hn : n.natAbs ≤ 2 ^ 64)
    {y : BitVec f.width} (hmag : f.magnitude y = f.roundMagnitude n.natAbs 0)
    (hsign : f.negative y ≠ decide (n < 0))
    (htie : |f.number y - n| = |f.number (f.ofInt n) - n|) :
    f.roundMagnitude n.natAbs 0 = 0 := by
  have hnonneg := f.magValue_nonneg (f.roundMagnitude n.natAbs 0)
  have hopposite : |f.number y - n| = f.magValue (f.roundMagnitude n.natAbs 0) + |(n : ℚ)| := by
    rw [number, hmag]
    by_cases hneg : n < 0
    · have hcast : (n : ℚ) < 0 := by exact_mod_cast hneg
      have hy : f.negative y = false := by simpa [hneg] using hsign
      rw [hy, if_neg Bool.false_ne_true, abs_of_neg hcast, abs_of_nonneg (by linarith)]
      ring
    · have hcast : (0 : ℚ) ≤ n := by exact_mod_cast not_lt.mp hneg
      have hy : f.negative y = true := by simpa [hneg] using hsign
      rw [hy, if_pos rfl, abs_of_nonneg hcast, abs_of_nonpos (by linarith)]
      ring
  rw [f.abs_number_ofInt_sub hn, hopposite] at htie
  have habs := abs_nonneg (n : ℚ)
  rcases le_total (f.magValue (f.roundMagnitude n.natAbs 0)) |(n : ℚ)| with hle | hge
  · rw [abs_of_nonpos (sub_nonpos.mpr hle)] at htie
    exact f.magValue_strictMono.injective (by rw [magValue_zero]; linarith)
  · rw [abs_of_nonneg (sub_nonneg.mpr hge)] at htie
    exact (f.nearest_natAbs hn).1.eq_of_magValue_eq (by rw [magValue_zero]; linarith)

/-- If another pattern is as near to an integer, the one it becomes is even. -/
theorem even_of_tie (f : FloatFormat) {n : Int} (hn : n.natAbs ≤ 2 ^ 64) {y : BitVec f.width}
    (hne : y ≠ f.ofInt n) (htie : |f.number y - n| = |f.number (f.ofInt n) - n|) :
    (f.ofInt n).toNat % 2 = 0 := by
  obtain ⟨hnearest, hfinite⟩ := f.nearest_natAbs hn
  have hparity : (f.ofInt n).toNat % 2 = f.roundMagnitude n.natAbs 0 % 2 := by
    have hsign := f.signWeight_even
    rw [ofInt, toNat_pattern f _ (hfinite.trans f.infinity_lt_signWeight)]
    split <;> omega
  rw [hparity]
  -- a pattern of the same magnitude has the other sign, one of another magnitude is a tie there
  by_cases hmag : f.magnitude y = f.roundMagnitude n.natAbs 0
  · have hsign : f.negative y ≠ decide (n < 0) := fun hsign => hne <| by
      rw [← f.pattern_negative_magnitude y, hsign, hmag, ofInt]
    rw [f.roundMagnitude_eq_zero_of_opposite hn hmag hsign htie]
  · refine hnearest.even _ hmag (le_antisymm ?_ (hnearest.le _))
    rw [← f.abs_number_ofInt_sub hn, ← htie, ← abs_number]
    exact abs_abs_sub_abs_le_abs_sub _ _

/-! ## Numbers of a format as integers -/

/-- What is a number is finite or infinite. -/
theorem isFinite_or_isInfinite {x : BitVec f.width} (hx : f.isNaN x = false) :
    f.isFinite x = true ∨ f.isInfinite x = true :=
  (Nat.lt_or_eq_of_le (Nat.not_lt.mp (of_decide_eq_false hx))).imp decide_eq_true beq_iff_eq.mpr

theorem magnitude_lt_of_isFinite {x : BitVec f.width} (hx : f.isFinite x = true) :
    f.magnitude x < f.infinity := of_decide_eq_true hx

theorem isNaN_of_isFinite {x : BitVec f.width} (hx : f.isFinite x = true) : f.isNaN x = false :=
  decide_eq_false (magnitude_lt_of_isFinite hx).not_gt

theorem isInfinite_of_isFinite {x : BitVec f.width} (hx : f.isFinite x = true) :
    f.isInfinite x = false := beq_false_of_ne (magnitude_lt_of_isFinite hx).ne

theorem isNaN_of_isInfinite {x : BitVec f.width} (hx : f.isInfinite x = true) :
    f.isNaN x = false := decide_eq_false (beq_iff_eq.mp hx).not_gt

/-- The integer part of a magnitude is that of its number. -/
theorem truncMagnitude_eq_floor (f : FloatFormat) (mag : Nat) :
    (f.truncMagnitude mag : Int) = ⌊f.magValue mag⌋ := by
  simp only [truncMagnitude, magValue]
  split
  · rename_i hexp
    obtain ⟨k, hk⟩ := Int.eq_ofNat_of_zero_le hexp
    rw [hk, mul_zpow_natCast, Int.floor_natCast, Int.toNat_natCast]
    rfl
  · rename_i hexp
    obtain ⟨k, hk⟩ : ∃ k : Nat, f.exponent mag = -k := ⟨(-f.exponent mag).toNat, by omega⟩
    rw [hk, mul_zpow_neg_natCast, Rat.floor_natCast_div_natCast, neg_neg, Int.toNat_natCast]
    rfl

/-- The integer part of a number is that of its magnitude, with its sign. -/
theorem towardZero_number (f : FloatFormat) (x : BitVec f.width) :
    towardZero (f.number x) = if f.negative x then -(f.truncMagnitude (f.magnitude x) : Int)
      else f.truncMagnitude (f.magnitude x) := by
  have hnonneg := f.magValue_nonneg (f.magnitude x)
  rw [truncMagnitude_eq_floor, number, towardZero]
  by_cases hneg : f.negative x
  · rw [if_pos hneg, if_pos hneg]
    split
    · exact Int.ceil_neg
    · have hzero : f.magValue (f.magnitude x) = 0 := by linarith
      simp [hzero]
  · rw [if_neg hneg, if_neg hneg, if_neg hnonneg.not_gt]

/-- A finite number becomes its integer part, brought into the range. -/
theorem toIntClamped_of_isFinite (lo hi : Int) {x : BitVec f.width} (hx : f.isFinite x = true) :
    f.toIntClamped lo hi x = max lo (min hi (towardZero (f.number x))) := by
  rw [towardZero_number]
  simp [toIntClamped, isNaN_of_isFinite hx, isInfinite_of_isFinite hx]

/-- An infinite number becomes the end of the range on its side. -/
theorem toIntClamped_of_isInfinite (lo hi : Int) {x : BitVec f.width} (hx : f.isInfinite x = true) :
    f.toIntClamped lo hi x = if f.negative x then lo else hi := by
  simp [toIntClamped, isNaN_of_isInfinite hx, hx]

/-- What comes out is within the range, also for what is no number. -/
theorem toIntClamped_bounds {lo hi : Int} (hlo : lo ≤ 0) (hhi : 0 ≤ hi) (x : BitVec f.width) :
    lo ≤ f.toIntClamped lo hi x ∧ f.toIntClamped lo hi x ≤ hi := by
  have hle := hlo.trans hhi
  unfold toIntClamped
  split
  · exact ⟨hlo, hhi⟩
  · split
    · split
      · exact ⟨le_rfl, hle⟩
      · exact ⟨hle, le_rfl⟩
    · exact ⟨le_max_left _ _, max_le hle (min_le_left _ _)⟩

/-! ## From one format to another -/

theorem isFinite_pattern (s : Bool) {a : Nat} (ha : a < f.infinity) :
    f.isFinite (f.pattern s a) = true := by
  rw [isFinite, magnitude_pattern f s (ha.trans f.infinity_lt_signWeight)]
  exact decide_eq_true ha

theorem isInfinite_pattern (f : FloatFormat) (s : Bool) :
    f.isInfinite (f.pattern s f.infinity) = true := by
  rw [isInfinite, magnitude_pattern f s f.infinity_lt_signWeight]
  exact beq_self_eq_true _

theorem convert_of_isInfinite (g : FloatFormat) {x : BitVec f.width} (hx : f.isInfinite x = true) :
    f.convert g x = g.pattern (f.negative x) g.infinity := by
  simp [convert, isNaN_of_isInfinite hx, hx]

/-- A number that the other format has is not rounded. -/
theorem convert_of_magValue_eq {g : FloatFormat} {x : BitVec f.width} {a : Nat}
    (hx : f.isFinite x = true) (ha : a < g.infinity)
    (h : g.magValue a = f.magValue (f.magnitude x)) :
    f.convert g x = g.pattern (f.negative x) a := by
  have hround : g.roundMagnitude (f.significand (f.magnitude x)) (f.exponent (f.magnitude x)) = a :=
    roundMagnitude_of_magValue_eq ha h
  simp [convert, isNaN_of_isFinite hx, isInfinite_of_isFinite hx, hround]

/-- The double format has every number of the single one, with the subnormal ones on grids that
start further up. -/
theorem exists_double_magValue_eq {mag : Nat} (h : mag < single.infinity) :
    ∃ a, a < double.infinity ∧ double.magValue a = single.magValue mag := by
  have hlarge : single.magValue mag < double.magValue double.infinity := by
    refine (single.magValue_strictMono h).trans ?_
    rw [magValue_infinity, magValue_infinity]
    exact zpow_lt_zpow_right₀ (by norm_num) (by decide)
  have hdigits : single.significand mag ≤ 2 * double.hiddenBit :=
    (single.significand_lt mag).le.trans (by decide)
  have hgrid : double.minExponent + ((925 + (mag / single.hiddenBit - 1) : Nat) : Int) =
      single.exponent mag := by
    rw [Nat.cast_add, ← add_assoc]
    rfl
  obtain ⟨a, ha⟩ := double.exists_magValue_eq hdigits (925 + (mag / single.hiddenBit - 1))
  rw [hgrid] at ha
  exact ⟨a, double.magValue_strictMono.lt_iff_lt.mp (ha.trans_lt hlarge), ha⟩

theorem exists_convert_double {x : BitVec single.width} (hx : single.isFinite x = true) :
    ∃ a, a < double.infinity ∧ double.magValue a = single.magValue (single.magnitude x) ∧
      single.convert double x = double.pattern (single.negative x) a := by
  obtain ⟨a, ha, hvalue⟩ := exists_double_magValue_eq (magnitude_lt_of_isFinite hx)
  exact ⟨a, ha, hvalue, convert_of_magValue_eq hx ha hvalue⟩

/-- The way through the double format and back keeps every bit. -/
theorem convert_convert_double {x : BitVec single.width} (hx : single.isNaN x = false) :
    double.convert single (single.convert double x) = x := by
  rcases isFinite_or_isInfinite hx with hfin | hinf
  · obtain ⟨a, ha, hvalue, hconvert⟩ := exists_convert_double hfin
    have hsign := ha.trans double.infinity_lt_signWeight
    have hback : single.magValue (single.magnitude x) =
        double.magValue (double.magnitude (double.pattern (single.negative x) a)) := by
      rw [magnitude_pattern _ _ hsign, hvalue]
    rw [hconvert, convert_of_magValue_eq (isFinite_pattern _ ha) (magnitude_lt_of_isFinite hfin)
      hback, negative_pattern _ _ hsign]
    exact single.pattern_negative_magnitude x
  · rw [convert_of_isInfinite double hinf, convert_of_isInfinite single (isInfinite_pattern _ _),
      negative_pattern _ _ double.infinity_lt_signWeight, ← beq_iff_eq.mp hinf]
    exact single.pattern_negative_magnitude x

/-- The way through the double format leads to the same integer. -/
theorem toIntClamped_convert_double (lo hi : Int) {x : BitVec single.width}
    (hx : single.isNaN x = false) :
    double.toIntClamped lo hi (single.convert double x) = single.toIntClamped lo hi x := by
  rcases isFinite_or_isInfinite hx with hfin | hinf
  · obtain ⟨a, ha, hvalue, hconvert⟩ := exists_convert_double hfin
    have hnumber : double.number (double.pattern (single.negative x) a) = single.number x := by
      rw [number_pattern _ _ (ha.trans double.infinity_lt_signWeight), hvalue, number]
    rw [hconvert, toIntClamped_of_isFinite lo hi (isFinite_pattern _ ha), hnumber,
      toIntClamped_of_isFinite lo hi hfin]
  · rw [convert_of_isInfinite double hinf,
      toIntClamped_of_isInfinite lo hi (isInfinite_pattern _ _),
      negative_pattern _ _ double.infinity_lt_signWeight, toIntClamped_of_isInfinite lo hi hinf]

end FloatFormat

end WireRecord
