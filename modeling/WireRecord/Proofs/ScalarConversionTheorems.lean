/-
WireRecord.Proofs.ScalarConversionTheorems — values across integer and floating-point types.

`Value.rational?` is the number that a value stands for, exactly. Through it the conversions
read as they do for numbers: into a floating-point type to the nearest, out of one to the
integer part, brought into the range of the type by `Scalar.clamp`.

There is no order of patterns to go by, since the negative ones run backwards and the two
zeros are one number. What keeps the order of integers is that the nearest numbers of two of
them cannot cross.
-/
import WireRecord.Proofs.FloatConversionTheorems
import WireRecord.Proofs.IntegerConversionTheorems

namespace WireRecord

/-! ## Ranges -/

namespace Scalar

/-- The least number of an integer type. -/
def least : Scalar → Int
  | sint w => -2 ^ (w.bits - 1)
  | _ => 0

/-- The greatest number of an integer type. -/
def greatest : Scalar → Int
  | bool => 1
  | uint w => 2 ^ w.bits - 1
  | sint w => 2 ^ (w.bits - 1) - 1
  | float _ => 0

/-- The number of an integer type that is nearest to an integer. -/
def clamp (t : Scalar) (n : Int) : Int := max t.least (min t.greatest n)

theorem holds_iff {t : Scalar} (ht : t.IsInteger) (n : Int) :
    t.Holds t.bits n ↔ t.least ≤ n ∧ n ≤ t.greatest := by
  cases t with
  | bool => exact ht.elim
  | float f => exact ht.elim
  | uint w => exact and_congr_right' (Int.le_sub_one_iff).symm
  | sint w => exact and_congr_right' (Int.le_sub_one_iff).symm

theorem least_le_zero (t : Scalar) : t.least ≤ 0 := by
  cases t with
  | sint w => simp [least]
  | _ => exact le_rfl

theorem zero_le_greatest (t : Scalar) : 0 ≤ t.greatest := by
  cases t with
  | bool => decide
  | float f => exact le_rfl
  | uint w => exact Int.le_sub_one_of_lt (by positivity)
  | sint w => exact Int.le_sub_one_of_lt (by positivity)

theorem clamp_eq_self {t : Scalar} (ht : t.IsInteger) {n : Int} (h : t.Holds t.bits n) :
    t.clamp n = n := by
  rw [holds_iff ht] at h
  rw [clamp]
  omega

end Scalar

namespace Value

/-! ## Numbers of values -/

/-- The number a value stands for. Infinities stand for none here, nor does what is no number
at all. -/
def rational? : Value → Option ℚ
  | float f x => if f.isFinite x then some (f.number x) else none
  | v => v.integer?.map fun n : Int => (n : ℚ)

/-- The number of a value is within the 64 bits for which rounding stays finite. -/
theorem natAbs_le_of_integer? {v : Value} {n : Int} (h : v.integer? = some n) :
    n.natAbs ≤ 2 ^ 64 := by
  obtain ⟨hlo, hhi, -⟩ := (holds_of_integer? h).bounds
  omega

theorem rational?_convert_float {v : Value} {n : Int} (h : v.integer? = some n)
    (f : FloatFormat) : (v.convert (.float f)).rational? = some (f.number (f.ofInt n)) := by
  rw [convert_eq_ofInt h]
  exact if_pos (f.isFinite_ofInt (natAbs_le_of_integer? h))

/-- The value of a floating-point type that stands for a number. -/
theorem eq_float_of_rational? {w : Value} {f : FloatFormat} {q : ℚ} (hw : w.type = .float f)
    (hq : w.rational? = some q) : ∃ y, w = float f y ∧ f.isFinite y = true ∧ q = f.number y := by
  cases w with
  | float g y =>
    obtain rfl : g = f := Scalar.float.inj hw
    obtain ⟨hfinite, hnumber⟩ := Option.ite_none_right_eq_some.mp hq
    exact ⟨y, rfl, hfinite, (Option.some.inj hnumber).symm⟩
  | _ => cases hw

/-! ## Out of a floating-point type -/

/-- The integer that a floating-point number is cut to, as a value. -/
theorem ofFloat_eq_ofInt {t : Scalar} (ht : t.IsInteger) (f : FloatFormat)
    (x : BitVec f.width) : ofFloat t f x = ofInt t (f.toIntClamped t.least t.greatest x) := by
  cases t with
  | bool => exact ht.elim
  | float g => exact ht.elim
  | uint w =>
    have hmax : ((BitVec.allOnes w.bits).toNat : Int) = 2 ^ w.bits - 1 := by cases w <;> rfl
    rw [ofFloat, hmax]
    rfl
  | sint w =>
    have hmin : (BitVec.intMin w.bits).toInt = -2 ^ (w.bits - 1) := by cases w <;> rfl
    have hmax : (BitVec.intMax w.bits).toInt = 2 ^ (w.bits - 1) - 1 := by cases w <;> rfl
    rw [ofFloat, hmin, hmax]
    rfl

/-- The number of the value is the integer, since the range of the type holds it. -/
theorem integer?_convert_of_float {t : Scalar} (ht : t.IsInteger) (f : FloatFormat)
    (x : BitVec f.width) :
    ((float f x).convert t).integer? = some (f.toIntClamped t.least t.greatest x) := by
  have hne : (float f x).type ≠ t := by
    rintro rfl
    exact ht
  have hholds : t.Holds t.bits (f.toIntClamped t.least t.greatest x) :=
    (Scalar.holds_iff ht _).mpr
      (FloatFormat.toIntClamped_bounds t.least_le_zero t.zero_le_greatest x)
  rw [convert, if_neg hne]
  exact ofFloat_eq_ofInt ht f x ▸ integer?_ofInt hholds

/-- A floating-point number in an integer type, with the two infinities beyond either end. -/
theorem integer?_convert_of_isNaN_eq_false {t : Scalar} (ht : t.IsInteger) {f : FloatFormat}
    {x : BitVec f.width} (hx : f.isNaN x = false) :
    ((float f x).convert t).integer? =
      some (if f.isFinite x then t.clamp (towardZero (f.number x))
        else if f.negative x then t.least else t.greatest) := by
  rw [integer?_convert_of_float ht]
  rcases FloatFormat.isFinite_or_isInfinite hx with hfin | hinf
  · rw [FloatFormat.toIntClamped_of_isFinite _ _ hfin, if_pos hfin, Scalar.clamp]
  · have hfin : f.isFinite x ≠ true := fun hfin => by
      rw [FloatFormat.isInfinite_of_isFinite hfin] at hinf
      exact Bool.false_ne_true hinf
    rw [FloatFormat.toIntClamped_of_isInfinite _ _ hinf, if_neg hfin]

/-- Values of one integer type are known by their numbers. -/
theorem eq_of_integer?_eq {v w : Value} {n : Int} (htype : v.type = w.type)
    (hv : v.integer? = some n) (hw : w.integer? = some n) : v = w := by
  rw [← convert_type v, ← convert_type w, convert_eq_ofInt hv, convert_eq_ofInt hw, htype]

/-- A number for which the format has all digits comes back. -/
theorem convert_float_convert {v : Value} {n : Int} (h : v.integer? = some n) {f : FloatFormat}
    (hn : n.natAbs ≤ 2 ^ f.precision) : (v.convert (.float f)).convert v.type = v := by
  by_cases ht : v.type.IsInteger
  · refine eq_of_integer?_eq (type_convert _ _) ?_ h
    rw [convert_eq_ofInt h, ofInt, integer?_convert_of_float ht,
      FloatFormat.toIntClamped_of_isFinite _ _ (f.isFinite_ofInt (natAbs_le_of_integer? h)),
      f.number_ofInt hn, towardZero_intCast]
    exact congrArg some (Scalar.clamp_eq_self ht (holds_of_integer? h))
  · cases v with
    | bool b => cases b <;> cases f <;> rfl
    | float g x => cases h
    | _ => exact absurd trivial ht

/-! ## Into a floating-point type -/

/-- Greater integers do not become lesser numbers, whatever types they come from. -/
theorem rational?_convert_float_le {v w : Value} {m n : Int} (hv : v.integer? = some m)
    (hw : w.integer? = some n) (hle : m ≤ n) (f : FloatFormat) :
    ∃ p q, (v.convert (.float f)).rational? = some p ∧
      (w.convert (.float f)).rational? = some q ∧ p ≤ q :=
  ⟨_, _, rational?_convert_float hv f, rational?_convert_float hw f,
    f.number_ofInt_le (natAbs_le_of_integer? hv) (natAbs_le_of_integer? hw) hle⟩

/-- An integer is rounded once: no number of the type is nearer, and if another pattern is as
near, the one it becomes is even. -/
theorem convert_float_nearest {v : Value} {n : Int} (h : v.integer? = some n)
    (f : FloatFormat) :
    ∃ p, (v.convert (.float f)).rational? = some p ∧
      ∀ (w : Value) (q : ℚ), w.type = .float f → w.rational? = some q → |p - n| ≤ |q - n| ∧
        (w ≠ v.convert (.float f) → |q - n| = |p - n| →
          (v.convert (.float f)).toWord.toNat % 2 = 0) := by
  have h64 := natAbs_le_of_integer? h
  refine ⟨_, rational?_convert_float h f, fun w q hw hq => ?_⟩
  obtain ⟨y, rfl, -, rfl⟩ := eq_float_of_rational? hw hq
  refine ⟨f.abs_number_ofInt_sub_le h64 y, fun hne htie => ?_⟩
  rw [convert_eq_ofInt h, ofInt] at hne ⊢
  rw [toWord, BitVec.toNat_setWidth_of_le f.width_le]
  exact f.even_of_tie h64 (fun heq => hne (congrArg _ heq)) htie

/-! ## Through the double format -/

/-- A number of the single format becomes the same integer by way of the double format. -/
theorem convert_double_convert {x : BitVec FloatFormat.single.width}
    (hx : FloatFormat.single.isNaN x = false) {t : Scalar} (ht : t.IsInteger) :
    ((float .single x).convert (.float .double)).convert t = (float .single x).convert t := by
  refine eq_of_integer?_eq (n := FloatFormat.single.toIntClamped t.least t.greatest x)
    ((type_convert _ _).trans (type_convert _ _).symm) ?_ (integer?_convert_of_float ht _ x)
  rw [← FloatFormat.toIntClamped_convert_double _ _ hx]
  exact integer?_convert_of_float ht .double _

/-- Between integers and floating-point numbers nothing is lost that need not be, for all
values of all types. Into either format, integers keep their order; one for which the format
has all digits comes back; and the number that an integer becomes is nearest to it among all
of the format, with an even pattern if it is not the only one. What is a number of the single
format is the same after the way through the double format, and through that or directly it
becomes its integer part in an integer type, or what the type has nearest to that. -/
theorem convert_nearest_and_truncated :
    (∀ (f : FloatFormat) (v w : Value) (m n : Int), v.integer? = some m → w.integer? = some n →
      m ≤ n → ∃ p q, (v.convert (.float f)).rational? = some p ∧
        (w.convert (.float f)).rational? = some q ∧ p ≤ q) ∧
    (∀ (f : FloatFormat) (v : Value) (n : Int), v.integer? = some n →
      n.natAbs ≤ 2 ^ f.precision → (v.convert (.float f)).convert v.type = v) ∧
    (∀ (f : FloatFormat) (v : Value) (n : Int), v.integer? = some n →
      ∃ p, (v.convert (.float f)).rational? = some p ∧
        ∀ (w : Value) (q : ℚ), w.type = .float f → w.rational? = some q → |p - n| ≤ |q - n| ∧
          (w ≠ v.convert (.float f) → |q - n| = |p - n| →
            (v.convert (.float f)).toWord.toNat % 2 = 0)) ∧
    ∀ x, FloatFormat.single.isNaN x = false →
      ((float .single x).convert (.float .double)).convert (.float .single) = float .single x ∧
      ∀ t : Scalar, t.IsInteger →
        ((float .single x).convert (.float .double)).convert t = (float .single x).convert t ∧
        ((float .single x).convert t).type = t ∧
        ((float .single x).convert t).integer? =
          some (if FloatFormat.single.isFinite x
            then t.clamp (towardZero (FloatFormat.single.number x))
            else if FloatFormat.single.negative x then t.least else t.greatest) :=
  ⟨fun f _ _ _ _ hv hw hle => rational?_convert_float_le hv hw hle f,
    fun _ _ _ h hn => convert_float_convert h hn,
    fun f _ _ h => convert_float_nearest h f,
    fun _ hx => ⟨congrArg (float .single) (FloatFormat.convert_convert_double hx),
      fun _ ht => ⟨convert_double_convert hx ht, type_convert _ _,
        integer?_convert_of_isNaN_eq_false ht hx⟩⟩⟩

/-- One more than two to the 24th lies in the middle of two numbers of the single format, and
becomes the even one; minus two to the 24th comes back. The negative number nearest to zero is
the same after the way through the double format, minus one and a half becomes minus one, and
minus infinity becomes the least number of eight bits with a sign. -/
theorem convert_nearest_and_truncated_edges :
    (∃ p q, ((sint .w8 (-1)).convert (.float .single)).rational? = some p ∧
      ((uint .w64 (BitVec.allOnes 64)).convert (.float .single)).rational? = some q ∧ p ≤ q) ∧
    ((sint .w32 (-0x1000000)).convert (.float .single)).convert (.sint .w32) =
      sint .w32 (-0x1000000) ∧
    ((uint .w32 0x1000001).convert (.float .single)).toWord.toNat % 2 = 0 ∧
    ((float .single 0x80000001).convert (.float .double)).convert (.float .single) =
      float .single 0x80000001 ∧
    ((float .single 0xbfc00000).convert (.sint .w8)).integer? = some (-1) ∧
    ((float .single 0xff800000).convert (.sint .w8)).integer? = some (-128) := by
  obtain ⟨hmonotone, hback, hnearest, hsingle⟩ := convert_nearest_and_truncated
  obtain ⟨p, hp, hties⟩ := hnearest .single (uint .w32 0x1000001) 16777217 (by decide)
  have habove : (float .single 0x4b800001).rational? = some 16777218 := by decide +kernel
  have hbelow : (float .single 0x4b800000).rational? = some 16777216 := by decide +kernel
  have hrounded : (uint .w32 0x1000001).convert (.float .single) = float .single 0x4b800000 := by
    decide
  obtain rfl : (16777216 : ℚ) = p := Option.some.inj (hbelow.symm.trans (hrounded ▸ hp))
  refine ⟨hmonotone .single _ _ (-1) (2 ^ 64 - 1) (by decide) (by decide) (by decide),
    hback .single _ (-0x1000000) (by decide) (by decide), ?_,
    (hsingle 0x80000001 (by decide)).1, ?_, ?_⟩
  · exact (hties _ _ rfl habove).2 (by rw [hrounded]; decide) (by norm_num)
  · rw [((hsingle 0xbfc00000 (by decide)).2 (.sint .w8) trivial).2.2,
      FloatFormat.towardZero_number]
    decide
  · rw [((hsingle 0xff800000 (by decide)).2 (.sint .w8) trivial).2.2]
    decide

end Value

end WireRecord
