/-
WireRecord.Proofs.WindowTheorems — windows of bits against the stream of bits.

A string of bytes is the stream `Bytes.bit` of its bits. Reading a window picks
its bits out of the stream, writing one replaces exactly these:

    (b.readBits o n).getLsbD i = (i < n && b.bit (o + i))
    (b.writeBits o n w).bit j  = if o ≤ j < o + n then w.getLsbD (j - o) else b.bit j

Both loops go byte by byte, so both equations are inductions on the bytes. The
statement of each is about a window that starts inside the first byte, which is
what is left after a step, too: from the second byte on it starts at bit 0.
Past the end of the string no bit is set, and reading needs no bound for that
reason; writing cannot set a bit there, so its equation carries one.
-/
import Mathlib.Algebra.Group.Nat.Defs
import Mathlib.Tactic.Common
import WireRecord.Bytes.Window

namespace WireRecord

/-! ## Low bits of a word -/

namespace Word

@[simp] theorem getLsbD_lowMask (n i : Nat) :
    (lowMask n).getLsbD i = (decide (i < n) && decide (i < 64)) := by
  simp only [lowMask, BitVec.getLsbD_setWidth, BitVec.getLsbD_allOnes, Nat.lt_min]
  by_cases h : i < 64 <;> simp [h]

@[simp] theorem getLsbD_low (w : Word) (n i : Nat) :
    (w.low n).getLsbD i = (decide (i < n) && w.getLsbD i) := by
  rw [low, BitVec.getLsbD_and, getLsbD_lowMask]
  by_cases h : i < 64
  · simp [h, Bool.and_comm]
  · simp [h, BitVec.getLsbD_of_ge w i (Nat.le_of_not_lt h)]

@[simp] theorem low_zero (w : Word) : w.low 0 = 0 := by
  refine BitVec.eq_of_getLsbD_eq fun i _ => ?_
  simp

/-- The low bits count what is left of the number. -/
theorem toNat_low (w : Word) (n : Nat) : (w.low n).toNat = w.toNat % 2 ^ n := by
  refine Nat.eq_of_testBit_eq fun j => ?_
  rw [BitVec.testBit_toNat, getLsbD_low, Nat.testBit_mod_two_pow]
  rfl

/-- Two words with the same low bits are cut to the same word. -/
theorem low_eq_low_iff (v w : Word) (n : Nat) :
    v.low n = w.low n ↔ ∀ i < n, v.getLsbD i = w.getLsbD i := by
  constructor
  · intro h i hi
    have hbit := congrArg (·.getLsbD i) h
    simpa [hi] using hbit
  · intro h
    refine BitVec.eq_of_getLsbD_eq fun i _ => ?_
    by_cases hi : i < n
    · simp [hi, h i hi]
    · simp [hi]

@[simp] theorem low_low (w : Word) (m n : Nat) : (w.low m).low n = w.low (min m n) := by
  refine BitVec.eq_of_getLsbD_eq fun i _ => ?_
  have hmin : i < n ∧ i < m ↔ i < min m n := by omega
  rw [getLsbD_low, getLsbD_low, getLsbD_low, ← Bool.and_assoc, ← Bool.decide_and,
    decide_eq_decide.mpr hmin]

/-- A word is its own low part when no higher bit is set. -/
theorem low_eq_self_iff (w : Word) (n : Nat) :
    w.low n = w ↔ ∀ i, n ≤ i → w.getLsbD i = false := by
  constructor
  · intro h i hi
    rw [← h, getLsbD_low]
    simp [Nat.not_lt.mpr hi]
  · intro h
    refine BitVec.eq_of_getLsbD_eq fun i _ => ?_
    by_cases hi : i < n
    · simp [hi]
    · simp [hi, h i (Nat.le_of_not_lt hi)]

end Word

namespace Bytes

/-! ## The stream of bits -/

theorem bit_cons (x : UInt8) (rest : Bytes) (j : Nat) :
    bit (x :: rest) j = if j < 8 then x.toBitVec.getLsbD j else bit rest (j - 8) := by
  unfold bit
  by_cases h : j < 8
  · have h0 : j / 8 = 0 := Nat.div_eq_of_lt h
    simp [h, h0, Nat.mod_eq_of_lt h]
  · obtain ⟨k, rfl⟩ : ∃ k, j = k + 8 := ⟨j - 8, by omega⟩
    have hd : (k + 8) / 8 = k / 8 + 1 := by omega
    have hm : (k + 8) % 8 = k % 8 := by omega
    simp [hd, hm]

/-- No bit is set past the end. -/
theorem bit_of_ge {b : Bytes} {j : Nat} (h : 8 * b.length ≤ j) : b.bit j = false := by
  have hj : b.length ≤ j / 8 := by omega
  simp [bit, List.getElem?_eq_none hj]

theorem bit_drop (b : Bytes) (k j : Nat) : bit (b.drop k) j = b.bit (8 * k + j) := by
  have hd : (8 * k + j) / 8 = k + j / 8 := by omega
  have hm : (8 * k + j) % 8 = j % 8 := by omega
  simp [bit, List.getElem?_drop, hd, hm]

/-- The bits of the first bytes are those of the whole. -/
theorem bit_take {b : Bytes} {k j : Nat} (hj : j < 8 * k) : bit (b.take k) j = b.bit j := by
  have hbyte : j / 8 < k := by omega
  simp [bit, List.getD_eq_getElem?_getD, List.getElem?_take_of_lt hbyte]

theorem bit_append (a b : Bytes) (j : Nat) :
    bit (a ++ b) j = if j < 8 * a.length then a.bit j else b.bit (j - 8 * a.length) := by
  by_cases h : j < 8 * a.length
  · have hj : j / 8 < a.length := by omega
    simp [bit, h, List.getElem?_append_left hj]
  · have hj : a.length ≤ j / 8 := by omega
    have hd : (j - 8 * a.length) / 8 = j / 8 - a.length := by omega
    have hm : (j - 8 * a.length) % 8 = j % 8 := by omega
    simp [bit, h, List.getElem?_append_right hj, hd, hm]

@[simp] theorem bit_replicate_zero (n j : Nat) : bit (List.replicate n 0) j = false := by
  unfold bit
  by_cases h : j / 8 < n <;> simp [h]

/-- Two strings of one length are equal when their bits are. -/
theorem eq_of_bit {a b : Bytes} (hlength : a.length = b.length) (h : ∀ j, a.bit j = b.bit j) :
    a = b := by
  refine List.ext_getElem hlength fun i ha hb => ?_
  refine UInt8.toBitVec_inj.mp (BitVec.eq_of_getLsbD_eq fun j hj => ?_)
  have hbyte := h (8 * i + j)
  have hd : (8 * i + j) / 8 = i := by omega
  have hm : (8 * i + j) % 8 = j := by omega
  simpa [bit, hd, hm, ha, hb] using hbyte

/-! ## Reading -/

/-- Bit `i` of a gathered word is bit `shift + i` of the stream. -/
theorem getLsbD_gather : ∀ (b : Bytes) (shift size i : Nat), shift < 8 → size ≤ 64 →
    (gather b shift size).getLsbD i = (decide (i < size) && b.bit (shift + i))
  | [], shift, size, i, _, _ => by
      have hbit : bit [] (shift + i) = false := bit_of_ge (by simp)
      simp [gather, hbit]
  | x :: rest, shift, size, i, hs, hn => by
      rw [gather]
      by_cases h0 : size = 0
      · simp [h0]
      · rw [if_neg h0]
        have ih := getLsbD_gather rest 0 (size - min (8 - shift) size)
          (i - min (8 - shift) size) (by omega) (by omega)
        simp only [BitVec.getLsbD_or, Word.getLsbD_low, BitVec.getLsbD_ushiftRight,
          BitVec.getLsbD_setWidth, BitVec.getLsbD_shiftLeft, ih, bit_cons]
        by_cases hi : i < size
        · by_cases h8 : shift + i < 8
          · -- the bit comes from the byte at hand
            have ht : i < min (8 - shift) size := by omega
            have h64 : shift + i < 64 := by omega
            simp [ht, hi, h8, h64]
          · -- the bit comes from a later byte
            have ht : ¬ i < min (8 - shift) size := by omega
            have hr : i - min (8 - shift) size < size - min (8 - shift) size := by omega
            have h64 : i < 64 := by omega
            have hj : i - min (8 - shift) size = shift + i - 8 := by omega
            simp only [ht, hr, h64, hi, h8, if_false, decide_true, decide_false, Bool.false_and,
              Bool.false_or, Bool.not_false, Bool.true_and, Nat.zero_add]
            rw [hj]
        · have ht : ¬ i < min (8 - shift) size := by omega
          have hr : ¬ i - min (8 - shift) size < size - min (8 - shift) size := by omega
          simp [ht, hr, hi]

/-- Bit `i` of a window is bit `offset + i` of the stream. -/
theorem getLsbD_readBits (b : Bytes) (offset size i : Nat) (hn : size ≤ 64) :
    (b.readBits offset size).getLsbD i = (decide (i < size) && b.bit (offset + i)) := by
  rw [readBits, getLsbD_gather _ _ _ _ (Nat.mod_lt _ (by omega)) hn, bit_drop]
  have hj : 8 * (offset / 8) + (offset % 8 + i) = offset + i := by omega
  rw [hj]

/-- Nothing above the window is read. -/
theorem low_readBits (b : Bytes) (offset size : Nat) (hn : size ≤ 64) :
    (b.readBits offset size).low size = b.readBits offset size := by
  rw [Word.low_eq_self_iff]
  intro i hi
  rw [getLsbD_readBits _ _ _ _ hn]
  simp [Nat.not_lt.mpr hi]

/-! ## Writing -/

/-- The replaced bits of a byte come from the word, the others stay. -/
theorem getLsbD_spliceByte (x : UInt8) (shift take : Nat) (w : Word) (j : Nat)
    (h : shift + take ≤ 8) :
    (spliceByte x shift take w).toBitVec.getLsbD j =
      if shift ≤ j ∧ j < shift + take then w.getLsbD (j - shift) else x.toBitVec.getLsbD j := by
  simp only [spliceByte, BitVec.getLsbD_or, BitVec.getLsbD_and, BitVec.getLsbD_not,
    BitVec.getLsbD_shiftLeft, BitVec.getLsbD_setWidth, Word.getLsbD_lowMask, Word.getLsbD_low]
  by_cases h8 : j < 8
  · by_cases h1 : j < shift
    · simp [h8, h1, Nat.not_le.mpr h1]
    · by_cases h2 : j - shift < take
      · have hin : shift ≤ j ∧ j < shift + take := by omega
        have h64 : j - shift < 64 := by omega
        have hj : j - shift < 8 := by omega
        simp [h8, h1, h2, hin, h64, hj]
      · have hout : ¬ (shift ≤ j ∧ j < shift + take) := by omega
        simp [h8, h1, h2, hout]
  · have hout : ¬ (shift ≤ j ∧ j < shift + take) := by omega
    simp [h8, hout, BitVec.getLsbD_of_ge x.toBitVec j (Nat.le_of_not_lt h8)]

@[simp] theorem length_scatter : ∀ (b : Bytes) (shift size : Nat) (w : Word),
    (scatter b shift size w).length = b.length
  | [], _, _, _ => rfl
  | x :: rest, shift, size, w => by
      rw [scatter]
      split
      · rfl
      · simp [length_scatter rest]

/-- A bit of the window becomes the word's, any other stays. -/
theorem bit_scatter : ∀ (b : Bytes) (shift size : Nat) (w : Word) (j : Nat), shift < 8 →
    shift + size ≤ 8 * b.length →
    bit (scatter b shift size w) j =
      if shift ≤ j ∧ j < shift + size then w.getLsbD (j - shift) else b.bit j
  | [], shift, size, w, j, _, hb => by
      have hout : ¬ (shift ≤ j ∧ j < shift + size) := by
        simp only [List.length_nil] at hb
        omega
      simp [scatter, hout]
  | x :: rest, shift, size, w, j, hs, hb => by
      rw [scatter]
      by_cases h0 : size = 0
      · have hout : ¬ (shift ≤ j ∧ j < shift + size) := by omega
        rw [if_pos h0, if_neg hout]
      · rw [if_neg h0]
        have ih := bit_scatter rest 0 (size - min (8 - shift) size)
          (w >>> min (8 - shift) size) (j - 8) (by omega)
          (by simp only [List.length_cons] at hb; omega)
        have hsplice := getLsbD_spliceByte x shift (min (8 - shift) size) w j (by omega)
        simp only [bit_cons, hsplice, ih, BitVec.getLsbD_ushiftRight]
        by_cases h8 : j < 8
        · have hiff : (shift ≤ j ∧ j < shift + min (8 - shift) size) ↔
              (shift ≤ j ∧ j < shift + size) := by omega
          simp only [h8, if_true, hiff]
        · by_cases hin : shift ≤ j ∧ j < shift + size
          · have hr : 0 ≤ j - 8 ∧ j - 8 < 0 + (size - min (8 - shift) size) := by omega
            have hj : min (8 - shift) size + (j - 8 - 0) = j - shift := by omega
            simp only [h8, if_false, if_pos hr, if_pos hin, hj]
          · have hr : ¬ (0 ≤ j - 8 ∧ j - 8 < 0 + (size - min (8 - shift) size)) := by omega
            simp only [h8, if_false, if_neg hr, if_neg hin]

@[simp] theorem length_writeBits (b : Bytes) (offset size : Nat) (w : Word) :
    (b.writeBits offset size w).length = b.length := by
  simp only [writeBits, List.length_append, List.length_take, length_scatter, List.length_drop]
  omega

/-- A bit of the window becomes the word's, any other bit of the stream stays. -/
theorem bit_writeBits (b : Bytes) (offset size : Nat) (w : Word) (j : Nat)
    (h : offset + size ≤ 8 * b.length) :
    (b.writeBits offset size w).bit j =
      if offset ≤ j ∧ j < offset + size then w.getLsbD (j - offset) else b.bit j := by
  by_cases h0 : size = 0
  · -- an empty window may start behind the last byte, where nothing is dropped
    have hout : ¬ (offset ≤ j ∧ j < offset + size) := by omega
    have hsame : scatter (b.drop (offset / 8)) (offset % 8) size w = b.drop (offset / 8) := by
      cases b.drop (offset / 8) <;> simp [scatter, h0]
    rw [writeBits, hsame, List.take_append_drop, if_neg hout]
  · have hlen : (b.take (offset / 8)).length = offset / 8 := by
      rw [List.length_take]
      omega
    rw [writeBits, bit_append, hlen,
      bit_scatter _ _ _ _ _ (Nat.mod_lt _ (by omega)) (by rw [List.length_drop]; omega)]
    by_cases hj : j < 8 * (offset / 8)
    · have hout : ¬ (offset ≤ j ∧ j < offset + size) := by omega
      have htake := bit_append (b.take (offset / 8)) (b.drop (offset / 8)) j
      rw [List.take_append_drop, hlen, if_pos hj] at htake
      rw [if_pos hj, if_neg hout, htake]
    · rw [if_neg hj, bit_drop]
      have hback : 8 * (offset / 8) + (j - 8 * (offset / 8)) = j := by omega
      by_cases hin : offset ≤ j ∧ j < offset + size
      · have hin' : offset % 8 ≤ j - 8 * (offset / 8) ∧
            j - 8 * (offset / 8) < offset % 8 + size := by omega
        have hi : j - 8 * (offset / 8) - offset % 8 = j - offset := by omega
        rw [if_pos hin', if_pos hin, hi]
      · have hout : ¬ (offset % 8 ≤ j - 8 * (offset / 8) ∧
            j - 8 * (offset / 8) < offset % 8 + size) := by omega
        rw [if_neg hout, if_neg hin, hback]

/-- Writing a window of the first bytes leaves what follows them. -/
theorem writeBits_append {a : Bytes} {offset size : Nat} (c : Bytes) (w : Word)
    (h : offset + size ≤ 8 * a.length) :
    (a ++ c).writeBits offset size w = a.writeBits offset size w ++ c := by
  have hlonger : offset + size ≤ 8 * (a ++ c).length := by
    rw [List.length_append]
    omega
  refine eq_of_bit (by simp) fun j => ?_
  rw [bit_writeBits _ _ _ _ _ hlonger, bit_append, bit_append, bit_writeBits _ _ _ _ _ h,
    length_writeBits]
  by_cases hj : j < 8 * a.length
  · simp [hj]
  · have hout : ¬ (offset ≤ j ∧ j < offset + size) := by omega
    simp [hj, hout]

/-! ## Reading and writing -/

/-- A window holds the low bits of what was written to it. -/
theorem readBits_writeBits (b : Bytes) (offset size : Nat) (w : Word) (hn : size ≤ 64)
    (h : offset + size ≤ 8 * b.length) :
    (b.writeBits offset size w).readBits offset size = w.low size := by
  refine BitVec.eq_of_getLsbD_eq fun i _ => ?_
  rw [getLsbD_readBits _ _ _ _ hn, bit_writeBits _ _ _ _ _ h, Word.getLsbD_low]
  by_cases hi : i < size
  · have hin : offset ≤ offset + i ∧ offset + i < offset + size := by omega
    simp [hi]
  · simp [hi]

/-- A window that meets no written bit holds what it held before. -/
theorem readBits_congr {a b : Bytes} {offset size : Nat} (hn : size ≤ 64)
    (h : ∀ j, offset ≤ j → j < offset + size → a.bit j = b.bit j) :
    a.readBits offset size = b.readBits offset size := by
  refine BitVec.eq_of_getLsbD_eq fun i _ => ?_
  rw [getLsbD_readBits _ _ _ _ hn, getLsbD_readBits _ _ _ _ hn]
  by_cases hi : i < size
  · rw [h (offset + i) (by omega) (by omega)]
  · simp [hi]

/-! ## Whole bytes -/

@[simp] theorem length_ofWord (n : Nat) (w : Word) : (ofWord n w).length = n := by simp [ofWord]

/-- The bytes of a word have its low bits. -/
theorem bit_ofWord (n : Nat) (w : Word) (j : Nat) :
    (ofWord n w).bit j = (decide (j < 8 * n) && w.getLsbD j) := by
  rw [ofWord, bit_writeBits _ _ _ _ _ (by simp), bit_replicate_zero]
  by_cases hj : j < 8 * n <;> simp [hj]

/-- The word that eight bytes at most spell has their bits. -/
theorem getLsbD_toWord {b : Bytes} (h : b.length ≤ 8) (j : Nat) : b.toWord.getLsbD j = b.bit j := by
  rw [toWord, getLsbD_readBits _ _ _ _ (by omega), Nat.zero_add]
  by_cases hj : j < 8 * b.length
  · simp [hj]
  · simp [bit_of_ge (Nat.le_of_not_lt hj)]

end Bytes

end WireRecord
