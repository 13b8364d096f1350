/-
WireRecord.Proofs.ChunkOrderTheorems — the two chunk orders are inverse to each
other.

`Word.toBigEndian` takes the chunks of a number from the top and lays them from
the bottom of a window, `Word.ofBigEndian` goes back. Both recursions take a
whole chunk as long as more than eight bits are left, so the short chunk is the
last one either way, and one induction on the width covers all of them.

What a recursive call yields fits the width it is called with; that is the fact
that keeps the chunks apart when they are put together again.
-/
import WireRecord.Bytes.ChunkOrder
import WireRecord.Proofs.WindowTheorems

namespace WireRecord

namespace Word

theorem ofBigEndian_add_nine (w : Word) (n : Nat) :
    w.ofBigEndian (n + 9) = w.low 8 <<< (n + 1) ||| ofBigEndian (w >>> 8) (n + 1) := by
  rw [ofBigEndian]

theorem toBigEndian_add_nine (w : Word) (n : Nat) :
    w.toBigEndian (n + 9) = low (w >>> (n + 1)) 8 ||| toBigEndian w (n + 1) <<< 8 := by
  rw [toBigEndian]

/-- A width of one chunk at most has nothing to reorder. -/
theorem ofBigEndian_of_le (w : Word) {n : Nat} (h : n ≤ 8) : w.ofBigEndian n = w.low n := by
  rw [ofBigEndian]
  intro m hm
  omega

theorem toBigEndian_of_le (w : Word) {n : Nat} (h : n ≤ 8) : w.toBigEndian n = w.low n := by
  rw [toBigEndian]
  intro m hm
  omega

@[simp] theorem ofBigEndian_zero (w : Word) : w.ofBigEndian 0 = 0 := by
  rw [ofBigEndian_of_le w (Nat.zero_le 8), low_zero]

@[simp] theorem toBigEndian_zero (w : Word) : w.toBigEndian 0 = 0 := by
  rw [toBigEndian_of_le w (Nat.zero_le 8), low_zero]

/-- The first chunk of a window goes above the number in the others. -/
theorem ofBigEndian_eq (w : Word) (n : Nat) :
    w.ofBigEndian n = w.low (min 8 n) <<< (n - min 8 n) ||| ofBigEndian (w >>> 8) (n - min 8 n) := by
  by_cases h8 : n ≤ 8
  · simp [ofBigEndian_of_le w h8, Nat.min_eq_right h8]
  · obtain ⟨m, rfl⟩ : ∃ m, n = m + 9 := ⟨n - 9, by omega⟩
    have hmin : min 8 (m + 9) = 8 := by omega
    rw [ofBigEndian_add_nine, hmin, Nat.add_sub_assoc (by decide) m]

/-- The highest chunk of a number goes below the window of the others. -/
theorem toBigEndian_eq (w : Word) (n : Nat) :
    w.toBigEndian n =
      low (w >>> (n - min 8 n)) (min 8 n) ||| toBigEndian w (n - min 8 n) <<< 8 := by
  by_cases h8 : n ≤ 8
  · simp [toBigEndian_of_le w h8, Nat.min_eq_right h8]
  · obtain ⟨m, rfl⟩ : ∃ m, n = m + 9 := ⟨n - 9, by omega⟩
    have hmin : min 8 (m + 9) = 8 := by omega
    rw [toBigEndian_add_nine, hmin, Nat.add_sub_assoc (by decide) m]

/-- A number read in big-endian order fits its window. -/
theorem getLsbD_ofBigEndian_of_ge (w : Word) (n i : Nat) (h : n ≤ i) :
    (w.ofBigEndian n).getLsbD i = false := by
  induction n using Nat.strongRecOn generalizing w with
  | ind n ih =>
    by_cases h8 : n ≤ 8
    · rw [ofBigEndian_of_le w h8, getLsbD_low]
      simp [Nat.not_lt.mpr h]
    · obtain ⟨m, rfl⟩ : ∃ m, n = m + 9 := ⟨n - 9, by omega⟩
      have hlow : ¬ i - (m + 1) < 8 := by omega
      rw [ofBigEndian_add_nine, BitVec.getLsbD_or, ih (m + 1) (by omega) _ (by omega),
        BitVec.getLsbD_shiftLeft, getLsbD_low]
      simp [hlow]

/-- A window filled in big-endian order holds nothing above itself. -/
theorem getLsbD_toBigEndian_of_ge (w : Word) (n i : Nat) (h : n ≤ i) :
    (w.toBigEndian n).getLsbD i = false := by
  induction n using Nat.strongRecOn generalizing i with
  | ind n ih =>
    by_cases h8 : n ≤ 8
    · rw [toBigEndian_of_le w h8, getLsbD_low]
      simp [Nat.not_lt.mpr h]
    · obtain ⟨m, rfl⟩ : ∃ m, n = m + 9 := ⟨n - 9, by omega⟩
      have hlow : ¬ i < 8 := by omega
      rw [toBigEndian_add_nine, BitVec.getLsbD_or, BitVec.getLsbD_shiftLeft,
        ih (m + 1) (by omega) (i - 8) (by omega), getLsbD_low]
      simp [hlow]

/-- The first chunk of a window is the highest of the number. -/
theorem low_toBigEndian (w : Word) (n : Nat) :
    (w.toBigEndian n).low (min 8 n) = low (w >>> (n - min 8 n)) (min 8 n) := by
  rw [low_eq_low_iff, toBigEndian_eq]
  intro i hi
  have h8 : i < 8 := by omega
  simp [hi, h8]

/-- Behind its first chunk a window holds the lower bits of the number. -/
theorem toBigEndian_ushiftRight (w : Word) {n : Nat} (hn : n ≤ 64) :
    w.toBigEndian n >>> 8 = w.toBigEndian (n - 8) := by
  refine BitVec.eq_of_getLsbD_eq fun i _ => ?_
  rw [BitVec.getLsbD_ushiftRight]
  by_cases hi : i < n - 8
  · have hmin : min 8 n = 8 := by omega
    have h64 : 8 + i < 64 := by omega
    have hlow : ¬ 8 + i < 8 := by omega
    rw [toBigEndian_eq, hmin, BitVec.getLsbD_or, getLsbD_low, BitVec.getLsbD_shiftLeft,
      Nat.add_sub_cancel_left]
    simp only [h64, hlow, decide_true, decide_false, Bool.false_and, Bool.false_or, Bool.not_false,
      Bool.true_and]
  · rw [getLsbD_toBigEndian_of_ge w _ _ (by omega), getLsbD_toBigEndian_of_ge w _ _ (by omega)]

/-- Only the low bits of a number reach the window. -/
theorem toBigEndian_congr {v w : Word} {n : Nat} (h : v.low n = w.low n) :
    v.toBigEndian n = w.toBigEndian n := by
  induction n using Nat.strongRecOn with
  | ind n ih =>
    by_cases h8 : n ≤ 8
    · rw [toBigEndian_of_le v h8, toBigEndian_of_le w h8, h]
    · obtain ⟨m, rfl⟩ : ∃ m, n = m + 9 := ⟨n - 9, by omega⟩
      rw [low_eq_low_iff] at h
      have hrest : v.low (m + 1) = w.low (m + 1) := by
        rw [low_eq_low_iff]
        intro i hi
        exact h i (by omega)
      have htop : low (v >>> (m + 1)) 8 = low (w >>> (m + 1)) 8 := by
        rw [low_eq_low_iff]
        intro i hi
        rw [BitVec.getLsbD_ushiftRight, BitVec.getLsbD_ushiftRight]
        exact h (m + 1 + i) (by omega)
      rw [toBigEndian_add_nine, toBigEndian_add_nine, htop, ih (m + 1) (by omega) hrest]

/-- Filling a window in big-endian order and reading it back cuts the number to
the width. -/
theorem ofBigEndian_toBigEndian (w : Word) {n : Nat} (h : n ≤ 64) :
    (w.toBigEndian n).ofBigEndian n = w.low n := by
  induction n using Nat.strongRecOn with
  | ind n ih =>
    by_cases h8 : n ≤ 8
    · rw [toBigEndian_of_le w h8, ofBigEndian_of_le _ h8, low_low, Nat.min_self]
    · obtain ⟨m, rfl⟩ : ∃ m, n = m + 9 := ⟨n - 9, by omega⟩
      have hmin : min 8 (m + 9) = 8 := by omega
      have hfirst := low_toBigEndian w (m + 9)
      rw [hmin] at hfirst
      have hrest := toBigEndian_ushiftRight w h
      have hleft : m + 9 - 8 = m + 1 := by omega
      rw [hleft] at hfirst hrest
      rw [ofBigEndian_add_nine, hfirst, hrest, ih (m + 1) (by omega) (by omega)]
      refine BitVec.eq_of_getLsbD_eq fun i hi64 => ?_
      simp only [BitVec.getLsbD_or, BitVec.getLsbD_shiftLeft, BitVec.getLsbD_ushiftRight,
        getLsbD_low, hi64, decide_true, Bool.true_and]
      by_cases hi : i < m + 1
      · have hn : i < m + 9 := by omega
        simp [hi, hn]
      · by_cases hn : i < m + 9
        · have hk : i - (m + 1) < 8 := by omega
          have hback : m + 1 + (i - (m + 1)) = i := by omega
          simp [hi, hn, hk, hback]
        · have hk : ¬ i - (m + 1) < 8 := by omega
          simp [hi, hn, hk]

/-- Reading a window in big-endian order and filling it again changes nothing in
it. -/
theorem toBigEndian_ofBigEndian (w : Word) {n : Nat} (h : n ≤ 64) :
    (w.ofBigEndian n).toBigEndian n = w.low n := by
  induction n using Nat.strongRecOn generalizing w with
  | ind n ih =>
    by_cases h8 : n ≤ 8
    · rw [ofBigEndian_of_le w h8, toBigEndian_of_le _ h8, low_low, Nat.min_self]
    · obtain ⟨m, rfl⟩ : ∃ m, n = m + 9 := ⟨n - 9, by omega⟩
      have hfirst : low (w.ofBigEndian (m + 9) >>> (m + 1)) 8 = w.low 8 := by
        refine BitVec.eq_of_getLsbD_eq fun i _ => ?_
        by_cases hi : i < 8
        · have h64 : m + 1 + i < 64 := by omega
          have hhigh : ¬ m + 1 + i < m + 1 := by omega
          have hback : m + 1 + i - (m + 1) = i := by omega
          simp only [ofBigEndian_add_nine, getLsbD_low, BitVec.getLsbD_ushiftRight,
            BitVec.getLsbD_or, BitVec.getLsbD_shiftLeft, hi, h64, hhigh, hback,
            getLsbD_ofBigEndian_of_ge _ (m + 1) (m + 1 + i) (by omega), decide_true,
            decide_false, Bool.not_false, Bool.true_and, Bool.or_false]
        · simp [hi]
      have hrest : (w.ofBigEndian (m + 9)).low (m + 1) =
          low (ofBigEndian (w >>> 8) (m + 1)) (m + 1) := by
        rw [low_eq_low_iff, ofBigEndian_add_nine]
        intro i hi
        simp [hi]
      rw [toBigEndian_add_nine, hfirst, toBigEndian_congr hrest,
        ih (m + 1) (by omega) _ (by omega)]
      refine BitVec.eq_of_getLsbD_eq fun i hi64 => ?_
      simp only [BitVec.getLsbD_or, BitVec.getLsbD_shiftLeft, BitVec.getLsbD_ushiftRight,
        getLsbD_low, hi64, decide_true, Bool.true_and]
      by_cases hi : i < 8
      · have hn : i < m + 9 := by omega
        simp [hi, hn]
      · by_cases hn : i < m + 9
        · have hk : i - 8 < m + 1 := by omega
          have hback : 8 + (i - 8) = i := by omega
          simp [hi, hn, hk, hback]
        · have hk : ¬ i - 8 < m + 1 := by omega
          simp [hi, hn, hk]

end Word

namespace ByteOrder

/-- What was encoded for a window decodes to the number cut to the width. -/
theorem decode_encode (o : ByteOrder) (w : Word) {n : Nat} (h : n ≤ 64) :
    o.decode ((o.encode (w.low n) n).low n) n = w.low n := by
  cases o with
  | littleEndian => simp [decode, encode]
  | bigEndian =>
    have hfit : ((w.low n).toBigEndian n).low n = (w.low n).toBigEndian n := by
      rw [Word.low_eq_self_iff]
      intro i hi
      exact Word.getLsbD_toBigEndian_of_ge _ n i hi
    simp only [decode, encode, hfit]
    rw [Word.ofBigEndian_toBigEndian _ h, Word.low_low, Nat.min_self]

/-- Encoding the number of a window gives the window back. -/
theorem encode_decode (o : ByteOrder) (w : Word) {n : Nat} (h : n ≤ 64) :
    (o.encode ((o.decode w n).low n) n).low n = w.low n := by
  cases o with
  | littleEndian => simp [decode, encode]
  | bigEndian =>
    have hfit : (w.ofBigEndian n).low n = w.ofBigEndian n := by
      rw [Word.low_eq_self_iff]
      intro i hi
      exact Word.getLsbD_ofBigEndian_of_ge _ n i hi
    simp only [decode, encode, hfit]
    rw [Word.toBigEndian_ofBigEndian _ h, Word.low_low, Nat.min_self]

/-- The number of a window fits the width when the window does. -/
theorem low_decode (o : ByteOrder) {w : Word} {n : Nat} (h : w.low n = w) :
    (o.decode w n).low n = o.decode w n := by
  cases o with
  | littleEndian => exact h
  | bigEndian =>
    rw [Word.low_eq_self_iff]
    intro i hi
    exact Word.getLsbD_ofBigEndian_of_ge _ n i hi

end ByteOrder

end WireRecord
