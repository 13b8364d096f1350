/-
WireRecord.Proofs.ValueTheorems — values and the bits that hold them.

Two round trips carry everything that is said about fields. From a value to its
native bits and back nothing is lost, whatever the type. From `n` bits to a
value and back the same `n` bits come out, except that a truth value keeps of
them only whether they are all clear: the number in its window has to be zero or
one, `Value.Canonical`.
-/
import WireRecord.Proofs.WindowTheorems
import WireRecord.Value

namespace WireRecord

/-! ## Native sizes -/

theorem Width.bits_le (w : Width) : w.bits ≤ 64 := by
  cases w <;> decide

theorem FloatFormat.width_le (f : FloatFormat) : f.width ≤ 64 := by
  cases f <;> decide

namespace Scalar

theorem eight_le_bits (t : Scalar) : 8 ≤ t.bits := by
  cases t with
  | bool => decide
  | uint w => cases w <;> decide
  | sint w => cases w <;> decide
  | float f => cases f <;> decide

theorem bits_le (t : Scalar) : t.bits ≤ 64 := by
  cases t with
  | bool => decide
  | uint w => exact w.bits_le
  | sint w => exact w.bits_le
  | float f => exact f.width_le

/-- Every native size is a number of whole bytes. -/
theorem bits_mod (t : Scalar) : t.bits % 8 = 0 := by
  cases t with
  | bool => decide
  | uint w => cases w <;> decide
  | sint w => cases w <;> decide
  | float f => cases f <;> decide

theorem eight_mul_bytes (t : Scalar) : 8 * t.bytes = t.bits :=
  Nat.mul_div_cancel' (Nat.dvd_of_mod_eq_zero t.bits_mod)

end Scalar

/-- Sign extension repeats the highest of the low bits. -/
theorem Word.getLsbD_signExtend (w : Word) {n i : Nat} (hn : 0 < n) (h64 : i < 64) :
    (w.signExtend n).getLsbD i = w.getLsbD (min i (n - 1)) := by
  rw [Word.signExtend]
  split
  · rw [Nat.min_eq_left (by omega)]
  · have hlt : n - 1 < n := by omega
    have hlast : (w.setWidth n).msb = w.getLsbD (n - 1) := by
      simp [BitVec.msb_eq_getLsbD_last, hlt]
    rw [BitVec.getLsbD_signExtend, hlast]
    by_cases h : i < n
    · simp [h, h64, Nat.min_eq_left (show i ≤ n - 1 by omega)]
    · simp [h, h64, Nat.min_eq_right (show n - 1 ≤ i by omega)]

/-- Below the sign, sign extension changes nothing. -/
theorem Word.getLsbD_signExtend_of_lt (w : Word) {n i : Nat} (h : i < n) :
    (w.signExtend n).getLsbD i = w.getLsbD i := by
  by_cases h64 : i < 64
  · rw [getLsbD_signExtend w (by omega) h64, Nat.min_eq_left (by omega)]
  · rw [BitVec.getLsbD_of_ge _ i (by omega), BitVec.getLsbD_of_ge _ i (by omega)]

namespace Value

@[simp] theorem type_ofWord (t : Scalar) (raw : Word) (n : Nat) : (ofWord t raw n).type = t := by
  cases t <;> rfl

@[simp] theorem type_convert (v : Value) (t : Scalar) : (v.convert t).type = t := by
  unfold convert
  split
  · assumption
  · split
    · cases t <;> rfl
    · cases t <;> rfl

/-- A value of the type itself is not converted. -/
@[simp] theorem convert_type (v : Value) : v.convert v.type = v := by
  simp [convert]

theorem convert_of_type_eq {v : Value} {t : Scalar} (h : v.type = t) : v.convert t = v := by
  subst h
  exact convert_type v

/-! ## From a value to its bits and back -/

theorem setWidth_low_setWidth {m n : Nat} (hm : m ≤ 64) (hn : m ≤ n) (x : BitVec m) :
    (Word.low (x.setWidth 64) n).setWidth m = x := by
  refine BitVec.eq_of_getLsbD_eq fun i hi => ?_
  have h64 : i < 64 := by omega
  have hlow : i < n := by omega
  simp only [BitVec.getLsbD_setWidth, Word.getLsbD_low, hi, hlow, h64, decide_true, Bool.true_and]

/-- The sign that `toWord` spreads upwards is found again. -/
theorem setWidth_signExtend_low {m n : Nat} (hm : m ≤ 64) (hn : m ≤ n) (x : BitVec m) :
    (Word.signExtend (Word.low (x.signExtend 64) n) n).setWidth m = x := by
  refine BitVec.eq_of_getLsbD_eq fun i hi => ?_
  have h64 : i < 64 := by omega
  have hlow : i < n := by omega
  rw [BitVec.getLsbD_setWidth, Word.getLsbD_signExtend_of_lt _ hlow, Word.getLsbD_low,
    BitVec.getLsbD_signExtend]
  simp only [hi, hlow, h64, decide_true, Bool.true_and, if_true]

/-- A value survives in `n` bits when it is read back from its low `n` bits. -/
def Survives (v : Value) (n : Nat) : Prop := ofWord v.type (v.toWord.low n) n = v

instance (v : Value) (n : Nat) : Decidable (v.Survives n) :=
  inferInstanceAs (Decidable (ofWord v.type (v.toWord.low n) n = v))

/-- One bit is enough for a truth value. -/
theorem survives_bool (b : Bool) {n : Nat} (hn : 0 < n) : (bool b).Survives n := by
  have hbit : Word.low (toWord (.bool b)) n = toWord (.bool b) := by
    rw [Word.low_eq_self_iff]
    intro i hi
    have hi0 : i ≠ 0 := by omega
    cases b <;> simp [toWord, hi0]
  rw [Survives, hbit]
  cases b <;> rfl

/-- Every value survives in at least the native size of its type. -/
theorem survives_of_bits_le {v : Value} {n : Nat} (h : v.type.bits ≤ n) : v.Survives n := by
  have hpos : 0 < n := Nat.lt_of_lt_of_le (by decide) (Nat.le_trans v.type.eight_le_bits h)
  cases v with
  | bool b => exact survives_bool b hpos
  | uint w x =>
    simp only [Survives, type, ofWord, toWord]
    rw [setWidth_low_setWidth w.bits_le h]
  | sint w x =>
    simp only [Survives, type, ofWord, toWord]
    rw [setWidth_signExtend_low w.bits_le h]
  | float f x =>
    simp only [Survives, type, ofWord, toWord]
    rw [setWidth_low_setWidth f.width_le h]

theorem survives_bits (v : Value) : v.Survives v.type.bits := survives_of_bits_le (Nat.le_refl _)

/-! ## From bits to a value and back -/

/-- Whether a number of a type comes back from the value it is read as: any but
a truth value that is neither zero nor one. -/
def Canonical (t : Scalar) (raw : Word) : Prop := t = .bool → raw = 0 ∨ raw = 1

theorem low_setWidth_setWidth {m n : Nat} (hn : n ≤ m) (raw : Word) :
    Word.low ((raw.setWidth m).setWidth 64) n = raw.low n := by
  rw [Word.low_eq_low_iff]
  intro i hi
  by_cases h64 : i < 64
  · have hm : i < m := by omega
    simp only [BitVec.getLsbD_setWidth, hm, h64, decide_true, Bool.true_and]
  · rw [BitVec.getLsbD_of_ge _ i (by omega), BitVec.getLsbD_of_ge _ i (by omega)]

theorem low_signExtend_setWidth {m n : Nat} (hn : n ≤ m) (raw : Word) :
    Word.low (((Word.signExtend raw n).setWidth m).signExtend 64) n = raw.low n := by
  rw [Word.low_eq_low_iff]
  intro i hi
  by_cases h64 : i < 64
  · have hm : i < m := by omega
    rw [BitVec.getLsbD_signExtend, BitVec.getLsbD_setWidth,
      Word.getLsbD_signExtend_of_lt _ hi]
    simp only [hm, h64, decide_true, Bool.true_and, if_true]
  · rw [BitVec.getLsbD_of_ge _ i (by omega), BitVec.getLsbD_of_ge _ i (by omega)]

/-- The low bits of a value are the bits it was read from. -/
theorem low_toWord_ofWord {t : Scalar} {raw : Word} {n : Nat} (hn : n ≤ t.bits)
    (h : Canonical t raw) : (ofWord t raw n).toWord.low n = raw.low n := by
  cases t with
  | bool =>
    rcases h rfl with rfl | rfl
    · rfl
    · rfl
  | uint w => exact low_setWidth_setWidth hn raw
  | sint w => exact low_signExtend_setWidth hn raw
  | float f => exact low_setWidth_setWidth hn raw

end Value

end WireRecord
