/-
WireRecord.Proofs.ChunkLoopTheorems — big-endian order by way of a loop over chunks.

`Word.ofBigEndian` and `Word.toBigEndian` are recursions on the width. A program runs a
loop over the chunks of the window by address instead. On the way to a number it moves what
it has up by the width of a chunk and puts the chunk below. On the way to a window it takes
the chunks from the top of the number, for which it counts the bits that are left, and puts
each in its place. `Word.gatherChunks?` and `Word.layChunks?` yield nothing where a shift
takes a whole word, or where a chunk takes more bits than are left.

Both invariants say the same: what the loop has done and what the recursion does with the
rest make up what the recursion does with the whole. For windows of whole bytes a coding of
numbers takes a shorter way, which ends where the loops do.
-/
import WireRecord.Proofs.NumberCodingTheorems

namespace WireRecord

namespace Word

/-! ## Loops over chunks -/

/-- The bits of chunk `k` by address in a window of `n` bits. -/
def chunkWidth (n k : Nat) : Nat :=
  if k + 1 = bytesFor n then n - 8 * (bytesFor n - 1) else 8

/-- Chunk `k` by address of a window of `n` bits. -/
def chunk (window : Word) (n k : Nat) : Word := low (window >>> (8 * k)) (chunkWidth n k)

/-- Puts chunk `k` of a window below a number. -/
def gatherChunk? (window : Word) (n : Nat) (number : Word) (k : Nat) : Option Word :=
  if chunkWidth n k < 64 ∧ 8 * k < 64 then
    some (number <<< chunkWidth n k ||| window.chunk n k)
  else none

/-- The number in a window of `n` bits that holds it in big-endian order, by way of a loop. -/
def gatherChunks? (window : Word) (n : Nat) : Option Word :=
  (List.range (bytesFor n)).foldlM (window.gatherChunk? n) 0

/-- Puts the highest of the bits of a number that are left into chunk `k` of a window, and
counts those left then. -/
def layChunk? (number : Word) (n : Nat) (laid : Word × Nat) (k : Nat) : Option (Word × Nat) :=
  let (window, left) := laid
  let rest := left - chunkWidth n k
  if chunkWidth n k ≤ left ∧ rest < 64 ∧ 8 * k < 64 then
    some (window ||| low (number >>> rest) (chunkWidth n k) <<< (8 * k), rest)
  else none

/-- The window of `n` bits that holds a number in big-endian order, by way of a loop. -/
def layChunks? (number : Word) (n : Nat) : Option Word :=
  ((List.range (bytesFor n)).foldlM (number.layChunk? n) (0, n)).map (·.1)

/-- Chunk `k` of a number of `n` bits, counted from the most significant one. -/
def highChunk (number : Word) (n k : Nat) : Word :=
  low (number >>> (n - 8 * k - chunkWidth n k)) (chunkWidth n k)

end Word

/-- A loop over a range whose steps keep an invariant establishes it for the whole range. -/
theorem foldlM_range_eq_some {α : Type} {step : α → Nat → Option α} {inv : Nat → α → Prop}
    {m : Nat} (hstep : ∀ k a, k < m → inv k a → ∃ a', step a k = some a' ∧ inv (k + 1) a') {a : α}
    (h : inv 0 a) : ∃ a', (List.range m).foldlM step a = some a' ∧ inv m a' := by
  induction m with
  | zero => exact ⟨a, rfl, h⟩
  | succ m ih =>
    obtain ⟨a', ha', hinv⟩ := ih fun k a hk => hstep k a (Nat.lt_succ_of_lt hk)
    obtain ⟨last, hlast, hnext⟩ := hstep m a' (Nat.lt_succ_self m) hinv
    refine ⟨last, ?_, hnext⟩
    rw [List.range_succ, List.foldlM_append, ha']
    simp [hlast]

namespace Word

/-! ## One chunk of the recursions -/

/-- Each chunk begins within the window. -/
theorem eight_mul_lt {n k : Nat} (hk : k < bytesFor n) : 8 * k < n := by
  unfold bytesFor at hk
  omega

/-- After the last chunk nothing is left. -/
theorem sub_eight_mul_bytesFor (n : Nat) : n - 8 * bytesFor n = 0 := by
  unfold bytesFor
  omega

/-- A chunk has eight bits, or what is left of the window. -/
theorem chunkWidth_eq {n k : Nat} (hk : k < bytesFor n) : chunkWidth n k = min 8 (n - 8 * k) := by
  unfold chunkWidth bytesFor at *
  split <;> omega

theorem toBigEndian_ushiftRight_mul (w : Word) {n : Nat} (hn : n ≤ 64) (k : Nat) :
    w.toBigEndian n >>> (8 * k) = w.toBigEndian (n - 8 * k) := by
  induction k with
  | zero => simp
  | succ k ih =>
    rw [Nat.mul_succ, BitVec.shiftRight_add, ih, toBigEndian_ushiftRight w (by omega), Nat.sub_sub]

/-- The chunks of a window by address are those of the number from the top. -/
theorem chunk_toBigEndian (v : Word) {n k : Nat} (hn : n ≤ 64) (hk : k < bytesFor n) :
    (v.toBigEndian n).chunk n k = v.highChunk n k := by
  rw [chunk, highChunk, toBigEndian_ushiftRight_mul v hn, chunkWidth_eq hk, low_toBigEndian]

/-! ## Runs of the loops -/

variable {n k : Nat}

/-- A step of gathering keeps the invariant: the number so far is above what is still to come
from the window. -/
theorem gatherChunk?_step (window number : Word) (hn : n ≤ 64) (hk : k < bytesFor n)
    (h : number <<< (n - 8 * k) ||| ofBigEndian (window >>> (8 * k)) (n - 8 * k) =
      window.ofBigEndian n) :
    ∃ number', window.gatherChunk? n number k = some number' ∧
      number' <<< (n - 8 * (k + 1)) ||| ofBigEndian (window >>> (8 * (k + 1))) (n - 8 * (k + 1)) =
        window.ofBigEndian n := by
  have hwidth := chunkWidth_eq hk
  have hstart := eight_mul_lt hk
  have hshifts : chunkWidth n k < 64 ∧ 8 * k < 64 := by omega
  refine ⟨_, if_pos hshifts, ?_⟩
  have hleft : n - 8 * k - min 8 (n - 8 * k) = n - 8 * (k + 1) := by omega
  have hsum : n - 8 * k = min 8 (n - 8 * k) + (n - 8 * (k + 1)) := by omega
  rw [ofBigEndian_eq, hleft, ← BitVec.shiftRight_add, ← Nat.mul_succ, ← BitVec.or_assoc] at h
  rw [← h, chunk, hwidth, BitVec.shiftLeft_or_distrib, ← BitVec.shiftLeft_add, ← hsum]

/-- The loop over the chunks of a window comes to the number of the recursion. -/
theorem gatherChunks?_eq (window : Word) (hn : n ≤ 64) :
    window.gatherChunks? n = some (window.ofBigEndian n) := by
  obtain ⟨number, hrun, hinv⟩ := foldlM_range_eq_some (a := (0 : Word))
    (fun k number hk => window.gatherChunk?_step (k := k) number hn hk) (by simp)
  have hnumber : number = window.ofBigEndian n := by simpa [sub_eight_mul_bytesFor] using hinv
  rw [gatherChunks?, hrun, hnumber]

/-- A step of laying keeps the invariant: the window so far is below what is still to come
from the number. -/
theorem layChunk?_step (number : Word) (laid : Word × Nat) (hn : n ≤ 64) (hk : k < bytesFor n)
    (h : laid.2 = n - 8 * k ∧
      laid.1 ||| toBigEndian number (n - 8 * k) <<< (8 * k) = number.toBigEndian n) :
    ∃ laid', number.layChunk? n laid k = some laid' ∧ laid'.2 = n - 8 * (k + 1) ∧
      laid'.1 ||| toBigEndian number (n - 8 * (k + 1)) <<< (8 * (k + 1)) =
        number.toBigEndian n := by
  obtain ⟨window, left⟩ := laid
  obtain ⟨rfl, h⟩ := h
  have hwidth := chunkWidth_eq hk
  have hleft : n - 8 * k - min 8 (n - 8 * k) = n - 8 * (k + 1) := by omega
  have hstart := eight_mul_lt hk
  have hshifts : chunkWidth n k ≤ n - 8 * k ∧ n - 8 * k - chunkWidth n k < 64 ∧ 8 * k < 64 := by
    omega
  refine ⟨_, if_pos hshifts, by rw [hwidth, hleft], ?_⟩
  rw [toBigEndian_eq, hleft, BitVec.shiftLeft_or_distrib, ← BitVec.shiftLeft_add,
    Nat.add_comm 8 (8 * k), ← Nat.mul_succ, ← BitVec.or_assoc] at h
  rw [← h, hwidth, hleft]

/-- The loop over the chunks of a number comes to the window of the recursion. -/
theorem layChunks?_eq (number : Word) (hn : n ≤ 64) :
    number.layChunks? n = some (number.toBigEndian n) := by
  obtain ⟨⟨window, left⟩, hrun, -, hinv⟩ := foldlM_range_eq_some (a := ((0 : Word), n))
    (fun k laid hk => number.layChunk?_step laid hn hk) (by simp)
  have hwindow : window = number.toBigEndian n := by simpa [sub_eight_mul_bytesFor] using hinv
  rw [layChunks?, hrun, Option.map_some, hwindow]

end Word

namespace NumberCoding

/-- The chunks of a window and of a number in big-endian order, for every width and every
number that has it. Either loop ends without a shift by a whole word, and comes to what the
recursion yields; where the window consists of whole bytes, any coding that keeps to what it
documents comes to the same. One way is the inverse of the other, both stay within the width,
and the chunks of the window by address are those of the number from the top. -/
theorem chunks_of_documented {c : NumberCoding} (hc : c.Documented) {n : Nat} (hpos : 1 ≤ n)
    (hn : n ≤ 64) {v : Word} (hv : v.toNat < 2 ^ n) :
    ∃ window number, window = v.toBigEndian n ∧ number = v.ofBigEndian n ∧
      v.layChunks? n = some window ∧ c.windowOf v n = some window ∧
      window.gatherChunks? n = some v ∧ c.numberOf window n = some v ∧
      v.gatherChunks? n = some number ∧ c.numberOf v n = some number ∧
      number.layChunks? n = some v ∧ c.windowOf number n = some v ∧
      window.toNat < 2 ^ n ∧ number.toNat < 2 ^ n ∧
      ∀ k < bytesFor n, window.chunk n k = v.highChunk n k := by
  have hfits : ∀ w : Word, w.low n = w ↔ w.toNat < 2 ^ n := fun w => by
    rw [← BitVec.toNat_inj, Word.toNat_low, Nat.mod_eq_iff_lt (Nat.ne_of_gt (Nat.two_pow_pos n))]
  have hlow := (hfits v).mpr hv
  have hwindow : (v.toBigEndian n).low n = v.toBigEndian n :=
    (Word.low_eq_self_iff _ _).mpr (Word.getLsbD_toBigEndian_of_ge v n)
  have hnumber : (v.ofBigEndian n).low n = v.ofBigEndian n :=
    (Word.low_eq_self_iff _ _).mpr (Word.getLsbD_ofBigEndian_of_ge v n)
  have hback : (v.toBigEndian n).ofBigEndian n = v := by
    rw [Word.ofBigEndian_toBigEndian v hn, hlow]
  have hforth : (v.ofBigEndian n).toBigEndian n = v := by
    rw [Word.toBigEndian_ofBigEndian v hn, hlow]
  refine ⟨_, _, rfl, rfl, Word.layChunks?_eq v hn, hc.windowOf_eq hpos hn hlow, ?_, ?_,
    Word.gatherChunks?_eq v hn, hc.numberOf_eq hpos hn hlow, ?_, ?_, (hfits _).mp hwindow,
    (hfits _).mp hnumber, fun k => Word.chunk_toBigEndian v hn⟩
  · rw [Word.gatherChunks?_eq _ hn, hback]
  · rw [hc.numberOf_eq hpos hn hwindow, hback]
  · rw [Word.layChunks?_eq _ hn, hforth]
  · rw [hc.windowOf_eq hpos hn hnumber, hforth]

/-- A number of twelve bits has its short chunk at the higher address. One of three bytes is
turned around by the coding and by the loop alike. -/
theorem chunks_of_documented_plain : plain.Documented ∧
    Word.layChunks? 0xABC 12 = some 0xCAB ∧ Word.gatherChunks? 0xCAB 12 = some 0xABC ∧
    Word.chunk 0xCAB 12 1 = 0xC ∧
    plain.windowOf 0x123456 24 = some 0x563412 ∧ Word.layChunks? 0x123456 24 = some 0x563412 ∧
    plain.numberOf 0x563412 24 = some 0x123456 := by
  obtain ⟨window, -, hwindow, -, hlay, -, hgather, -, -, -, -, -, -, -, hchunks⟩ :=
    chunks_of_documented documented_plain (n := 12) (by decide) (by decide)
      (v := 0xABC) (by decide)
  obtain ⟨bytes, -, hbytes, -, hlay', hcode, -, hcode', -⟩ :=
    chunks_of_documented documented_plain (n := 24) (by decide) (by decide)
      (v := 0x123456) (by decide)
  obtain rfl : window = 0xCAB := hwindow.trans (by decide)
  obtain rfl : bytes = 0x563412 := hbytes.trans (by decide)
  refine ⟨documented_plain, hlay, hgather, ?_, hcode, hlay', hcode'⟩
  rw [hchunks 1 (by decide)]
  decide

end NumberCoding

end WireRecord
