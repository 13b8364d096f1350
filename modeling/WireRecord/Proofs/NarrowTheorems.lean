/-
WireRecord.Proofs.NarrowTheorems — values in fewer bits than their types have.

A field may be narrower than its type. It keeps the low bits of a value, and the value that is
read from them is the one that was written if and only if the bits were enough:
`Value.FitsIn` says when they are, type by type. A floating-point number is kept by its
pattern, like an unsigned integer, so it is lost as soon as its sign is.

What makes signed integers come back is sign extension. It yields the one number of `n` bits
that is congruent to the word (`Word.toInt_signExtend`), which a program computes by moving
the word up against the end and back down with its sign
(`Word.sshiftRight_shiftLeft`).
-/
import WireRecord.Proofs.IntegerTheorems

namespace WireRecord

namespace Word

/-! ## Sign extension -/

/-- Sign extension by two shifts. -/
theorem sshiftRight_shiftLeft (w : Word) {n : Nat} (hpos : 0 < n) (hn : n < 64) :
    (w <<< (64 - n)).sshiftRight (64 - n) = w.signExtend n := by
  have hmsb : (w <<< (64 - n)).msb = w.getLsbD (n - 1) := by
    have hup : 64 - 1 - (64 - n) = n - 1 := by omega
    have hin : ¬ 64 - 1 < 64 - n := by omega
    rw [BitVec.msb_eq_getLsbD_last, BitVec.getLsbD_shiftLeft, hup]
    simp [hin]
  refine BitVec.eq_of_getLsbD_eq fun i hi => ?_
  rw [BitVec.getLsbD_sshiftRight, getLsbD_signExtend w hpos hi, hmsb, BitVec.getLsbD_shiftLeft]
  by_cases h : i < n
  · have hback : 64 - n + i - (64 - n) = i := by omega
    have hin : 64 - n + i < 64 ∧ ¬ 64 - n + i < 64 - n ∧ ¬ 64 ≤ i := by omega
    have hmin : min i (n - 1) = i := by omega
    simp [hin, hback, hmin]
  · have hout : ¬ 64 - n + i < 64 ∧ ¬ 64 ≤ i := by omega
    have hmin : min i (n - 1) = n - 1 := by omega
    simp [hout, hmin]

/-- Sign extension keeps the residue, as a two's-complement number. -/
theorem toInt_signExtend (w : Word) {n : Nat} (hpos : 0 < n) (hn : n < 64) :
    (w.signExtend n).toInt = (w.toNat : Int).bmod (2 ^ n) := by
  have hout : ¬ (n = 0 ∨ 64 ≤ n) := by omega
  rw [signExtend, if_neg hout, BitVec.toInt_signExtend_of_le (Nat.le_of_lt hn),
    BitVec.toInt_setWidth]

/-- The sign extension of the low `n` bits is the only number of `n` bits that is congruent to
the word. -/
theorem eq_toInt_signExtend_iff (w : Word) {n : Nat} (hpos : 0 < n) (hn : n < 64) (k : Int) :
    k = (w.signExtend n).toInt ↔
      (-2 ^ (n - 1) ≤ k ∧ k < 2 ^ (n - 1)) ∧ k % 2 ^ n = (w.toNat : Int) % 2 ^ n := by
  have hpow : ((2 ^ n : Nat) : Int) = 2 ^ n := Int.natCast_pow 2 n
  rw [toInt_signExtend w hpos hn, ← bmod_two_pow_eq_self_iff hpos]
  constructor
  · rintro rfl
    refine ⟨Int.bmod_bmod, ?_⟩
    rw [← hpow, Int.bmod_emod]
  · rintro ⟨hself, hmod⟩
    rw [← hself, ← Int.emod_bmod k, ← Int.emod_bmod (w.toNat : Int), hpow, hmod]

end Word

namespace Value

/-! ## Enough bits -/

/-- Whether `n` bits are enough for a value. -/
def FitsIn (n : Nat) : Value → Prop
  | bool _ => True
  | uint _ x => x.toNat < 2 ^ n
  | sint _ x => -2 ^ (n - 1) ≤ x.toInt ∧ x.toInt < 2 ^ (n - 1)
  | float _ x => x.toNat < 2 ^ n

/-- The values that survive in some bits are those for which they are enough. -/
theorem survives_iff_fitsIn (v : Value) {n : Nat} (hpos : 0 < n) (hn : n ≤ v.type.bits) :
    v.Survives n ↔ v.FitsIn n := by
  cases v with
  | bool b => exact iff_of_true (survives_bool b hpos) trivial
  | uint w x =>
    have hcast : ((2 ^ n : Nat) : Int) = 2 ^ n := Int.natCast_pow 2 n
    rw [survives_iff_holds rfl hpos hn, type, Scalar.Holds, FitsIn]
    omega
  | sint w x => exact survives_iff_holds rfl hpos hn
  | float f x =>
    rw [Survives, type, toWord, ofWord, Value.float.injEq, eq_self_iff_true, true_and, heq_iff_eq,
      setWidth_low_setWidth_eq_iff f.width_le hn, FitsIn]

/-- Values in `n` bits, for every value and as many bits as its type has at most: what is read
back is the value if and only if the bits are enough for it. And signs, for every word: two
shifts extend the sign, and the result is the only number of `n` bits that is congruent to the
word. -/
theorem ofWord_low_toWord_iff :
    (∀ (v : Value) (n : Nat), 1 ≤ n → n ≤ v.type.bits →
      (ofWord v.type (v.toWord &&& Word.lowMask n) n = v ↔ v.FitsIn n)) ∧
    ∀ (w : Word) (n : Nat), 1 ≤ n → n ≤ 63 →
      (w <<< (64 - n)).sshiftRight (64 - n) = w.signExtend n ∧
      ∀ k : Int, k = (w.signExtend n).toInt ↔
        (-2 ^ (n - 1) ≤ k ∧ k < 2 ^ (n - 1)) ∧ k % 2 ^ n = (w.toNat : Int) % 2 ^ n :=
  ⟨fun v _ hpos hn => v.survives_iff_fitsIn hpos hn, fun w _ hpos hn =>
    ⟨w.sshiftRight_shiftLeft hpos (by omega), w.eq_toInt_signExtend_iff hpos (by omega)⟩⟩

/-- Three bits keep minus four and lose four, all but the highest bit keep a positive
floating-point number and lose a negative one, and seven in three bits is minus one. -/
theorem ofWord_low_toWord_iff_edges :
    (sint .w16 (-4)).Survives 3 ∧ ¬ (sint .w16 4).Survives 3 ∧
    (float .single 0x3f800000).Survives 31 ∧ ¬ (float .single 0xbf800000).Survives 31 ∧
    (Word.signExtend 7 3).toInt = -1 := by
  obtain ⟨hkept, hsign⟩ := ofWord_low_toWord_iff
  refine ⟨(hkept _ 3 (by decide) (by decide)).mpr ?_, fun h => ?_,
    (hkept _ 31 (by decide) (by decide)).mpr ?_, fun h => ?_, ?_⟩
  · exact ⟨by decide, by decide⟩
  · exact absurd ((hkept _ 3 (by decide) (by decide)).mp h).2 (by decide)
  · show (0x3f800000 : BitVec 32).toNat < 2 ^ 31
    decide
  · have hfits : (0xbf800000 : BitVec 32).toNat < 2 ^ 31 :=
      (hkept _ 31 (by decide) (by decide)).mp h
    exact absurd hfits (by decide)
  · have hminus := (hsign 7 3 (by decide) (by decide)).2 (-1)
    exact (hminus.mpr ⟨⟨by decide, by decide⟩, by decide⟩).symm

end Value

end WireRecord
