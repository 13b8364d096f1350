/-
WireRecord.Proofs.CursorTheorems — windows of bits by way of a cursor.

`Bytes.readBits` and `Bytes.writeBits` go along the string. A buffer in memory is
indexed instead: a cursor keeps how many bits of the window are done and where the next
one is, a step handles what the window and the byte at the cursor have in common, and
the loop goes on until all bits are done. That it ends has to be shown, and so has that
no step indexes beyond the string or shifts a word by its whole width: `Cursor.walk?`
yields nothing where one does.

The invariant of either loop is a window as well. After `done` bits the word is the
window of `done` bits, and the string is the one in which the window of `done` bits is
replaced. So one step is a fact about windows, that one of `m + n` bits is one of `m` bits
and behind it one of `n` bits (`readBits_add`, `writeBits_add`), and about a window within
one byte.
-/
import WireRecord.Proofs.WindowTheorems

namespace WireRecord

/-! ## The loop -/

/-- Where a loop over the bits of a window stands. -/
structure Cursor where
  /-- The number of bits done. -/
  done : Nat
  /-- The next bit of the string. -/
  pos : Nat
deriving DecidableEq, Repr

namespace Cursor

/-- The bits that a window of `size` bits and the byte at the cursor have in common. -/
def take (c : Cursor) (size : Nat) : Nat := min (8 - c.pos % 8) (size - c.done)

/-- The cursor behind these bits. -/
def advance (c : Cursor) (size : Nat) : Cursor := ⟨c.done + c.take size, c.pos + c.take size⟩

theorem take_pos {c : Cursor} {size : Nat} (h : c.done < size) : 0 < c.take size := by
  unfold take
  omega

theorem done_add_take_le {done pos size : Nat} (h : done ≤ size) :
    done + take ⟨done, pos⟩ size ≤ size := by
  simp only [take]
  omega

/-- Takes steps until a window of `size` bits is done; nothing, if a step yields nothing. -/
def walk? {α : Type} (size : Nat) (step : Cursor → α → Option α) (c : Cursor) (a : α) :
    Option α :=
  if _h : c.done < size then (step c a).bind (walk? size step (c.advance size)) else some a
termination_by size - c.done
decreasing_by
  have := take_pos _h
  simp only [advance]
  omega

/-- Adds the bits at the cursor to a word. -/
def read? (b : Bytes) (size : Nat) (c : Cursor) (word : Word) : Option Word := do
  let x ← b[c.pos / 8]?
  let bits := Word.low ((x.toBitVec >>> (c.pos % 8)).setWidth 64) (c.take size)
  if c.done < 64 then some (word ||| bits <<< c.done) else none

/-- Replaces the bits at the cursor by those of a word. -/
def write? (w : Word) (size : Nat) (c : Cursor) (b : Bytes) : Option Bytes := do
  let x ← b[c.pos / 8]?
  if c.done < 64 then
    some (b.set (c.pos / 8) (Bytes.spliceByte x (c.pos % 8) (c.take size) (w >>> c.done)))
  else none

end Cursor

namespace Bytes

/-- The window of `size` bits at `offset`, by way of a cursor. -/
def scan? (b : Bytes) (offset size : Nat) : Option Word :=
  Cursor.walk? size (Cursor.read? b size) ⟨0, offset⟩ 0

/-- Replaces the window of `size` bits at `offset`, by way of a cursor. -/
def fill? (b : Bytes) (offset size : Nat) (w : Word) : Option Bytes :=
  Cursor.walk? size (Cursor.write? w size) ⟨0, offset⟩ b

/-! ## Windows behind one another -/

/-- A window is its first bits, and the others above them. -/
theorem readBits_add (b : Bytes) (offset : Nat) {m n : Nat} (h : m + n ≤ 64) :
    b.readBits offset (m + n) = b.readBits offset m ||| b.readBits (offset + m) n <<< m := by
  refine BitVec.eq_of_getLsbD_eq fun i hi => ?_
  rw [BitVec.getLsbD_or, BitVec.getLsbD_shiftLeft, getLsbD_readBits _ _ _ _ h,
    getLsbD_readBits _ _ _ _ (by omega), getLsbD_readBits _ _ _ _ (by omega)]
  by_cases hm : i < m
  · have hn : i < m + n := by omega
    simp [hm, hn]
  · have hback : offset + m + (i - m) = offset + i := by omega
    have hiff : i - m < n ↔ i < m + n := by omega
    simp [hm, hi, hback, hiff]

/-- Replacing a window is replacing its first bits, and then the others. -/
theorem writeBits_add {b : Bytes} {offset m n : Nat} (w : Word)
    (h : offset + (m + n) ≤ 8 * b.length) :
    (b.writeBits offset m w).writeBits (offset + m) n (w >>> m) = b.writeBits offset (m + n) w := by
  refine eq_of_bit (by simp) fun j => ?_
  rw [bit_writeBits _ _ _ _ _ h, bit_writeBits _ _ _ _ _ (by rw [length_writeBits]; omega),
    bit_writeBits _ _ _ _ _ (by omega), BitVec.getLsbD_ushiftRight]
  by_cases hsecond : offset + m ≤ j ∧ j < offset + m + n
  · have hin : offset ≤ j ∧ j < offset + (m + n) := by omega
    have hback : m + (j - (offset + m)) = j - offset := by omega
    rw [if_pos hsecond, if_pos hin, hback]
  · have hiff : (offset ≤ j ∧ j < offset + m) ↔ (offset ≤ j ∧ j < offset + (m + n)) := by omega
    rw [if_neg hsecond]
    simp only [hiff]

/-! ## Windows within one byte -/

/-- The bits of a string in one byte. -/
theorem bit_of_getElem? {b : Bytes} {k : Nat} {x : UInt8} (hx : b[k]? = some x) {i : Nat}
    (hi : i < 8) : b.bit (8 * k + i) = x.toBitVec.getLsbD i := by
  have hd : (8 * k + i) / 8 = k := by omega
  have hm : (8 * k + i) % 8 = i := by omega
  simp [bit, hd, hm, hx]

theorem readBits_of_getElem? {b : Bytes} {offset n : Nat} {x : UInt8}
    (hx : b[offset / 8]? = some x) (hn : offset % 8 + n ≤ 8) :
    b.readBits offset n = Word.low ((x.toBitVec >>> (offset % 8)).setWidth 64) n := by
  refine BitVec.eq_of_getLsbD_eq fun i hi64 => ?_
  rw [getLsbD_readBits _ _ _ _ (by omega), Word.getLsbD_low, BitVec.getLsbD_setWidth,
    BitVec.getLsbD_ushiftRight]
  by_cases hi : i < n
  · have hplace : offset + i = 8 * (offset / 8) + (offset % 8 + i) := by omega
    rw [hplace, bit_of_getElem? hx (by omega)]
    simp [hi, hi64]
  · simp [hi]

theorem writeBits_of_getElem? {b : Bytes} {offset n : Nat} {x : UInt8} (w : Word)
    (hx : b[offset / 8]? = some x) (hn : offset % 8 + n ≤ 8) :
    b.writeBits offset n w = b.set (offset / 8) (spliceByte x (offset % 8) n w) := by
  obtain ⟨hlt, rfl⟩ := List.getElem?_eq_some_iff.mp hx
  refine eq_of_bit (by simp) fun j => ?_
  rw [bit_writeBits _ _ _ _ _ (by omega)]
  by_cases hj : j / 8 = offset / 8
  · -- the bit is in the byte at hand
    have hset : (b.set (offset / 8) (spliceByte b[offset / 8] (offset % 8) n w))[offset / 8]? =
        some (spliceByte b[offset / 8] (offset % 8) n w) := by simp [hlt]
    have hplace : j = 8 * (offset / 8) + j % 8 := by omega
    have hsame : b.bit j = b[offset / 8].toBitVec.getLsbD (j % 8) := by
      rw [hplace, bit_of_getElem? hx (by omega)]
      congr 1
      omega
    have hspliced := bit_of_getElem? hset (i := j % 8) (by omega)
    rw [← hplace, getLsbD_spliceByte _ _ _ _ _ hn] at hspliced
    have hiff : (offset ≤ j ∧ j < offset + n) ↔
        (offset % 8 ≤ j % 8 ∧ j % 8 < offset % 8 + n) := by omega
    have hback : j - offset = j % 8 - offset % 8 := by omega
    rw [hspliced, hsame, hback]
    simp only [hiff]
  · have hout : ¬ (offset ≤ j ∧ j < offset + n) := by omega
    rw [if_neg hout]
    simp [bit, Ne.symm hj]

end Bytes

/-! ## Steps and runs -/

namespace Cursor

/-- A loop whose steps keep an invariant establishes it for the whole window. -/
theorem walk?_eq_some {α : Type} {size offset : Nat} {step : Cursor → α → Option α}
    {inv : Nat → α → Prop}
    (hstep : ∀ done a, done < size → inv done a → ∃ a', step ⟨done, offset + done⟩ a = some a' ∧
      inv (done + take ⟨done, offset + done⟩ size) a')
    {done : Nat} {a : α} (hdone : done ≤ size) (h : inv done a) :
    ∃ a', walk? size step ⟨done, offset + done⟩ a = some a' ∧ inv size a' := by
  induction hk : size - done using Nat.strongRecOn generalizing done a with
  | ind k ih =>
    rw [walk?]
    by_cases hlt : done < size
    · obtain ⟨a', ha', hnext⟩ := hstep done a hlt h
      have hpos : 0 < take ⟨done, offset + done⟩ size := take_pos hlt
      have hle : done + take ⟨done, offset + done⟩ size ≤ size := done_add_take_le hdone
      obtain ⟨last, hlast, hinv⟩ := ih _ (by omega) hle hnext rfl
      refine ⟨last, ?_, hinv⟩
      rw [dif_pos hlt, ha', Option.bind_some, advance, Nat.add_assoc]
      exact hlast
    · obtain rfl : done = size := by omega
      exact ⟨a, dif_neg hlt, h⟩

variable {b : Bytes} {offset size : Nat}

/-- The byte at the cursor is in the string as long as bits are to be done. -/
theorem exists_getElem? (h : offset + size ≤ 8 * b.length) {done : Nat} (hdone : done < size) :
    ∃ x, b[(offset + done) / 8]? = some x :=
  ⟨_, List.getElem?_eq_getElem (by omega)⟩

theorem mod_add_take_le (c : Cursor) (size : Nat) : c.pos % 8 + c.take size ≤ 8 := by
  unfold take
  omega

/-- A step of reading goes from one window to a longer one. -/
theorem read?_step (hn : size ≤ 64) (h : offset + size ≤ 8 * b.length) {done : Nat}
    (hdone : done < size) : read? b size ⟨done, offset + done⟩ (b.readBits offset done) =
      some (b.readBits offset (done + take ⟨done, offset + done⟩ size)) := by
  obtain ⟨x, hx⟩ := exists_getElem? h hdone
  have h64 : done < 64 := by omega
  have hle : done + take ⟨done, offset + done⟩ size ≤ size := done_add_take_le (Nat.le_of_lt hdone)
  rw [Bytes.readBits_add b offset (Nat.le_trans hle hn),
    Bytes.readBits_of_getElem? hx (mod_add_take_le ⟨done, offset + done⟩ size)]
  simp [read?, hx, h64]

/-- A step of writing replaces a window for a shorter one. -/
theorem write?_step (hn : size ≤ 64) (h : offset + size ≤ 8 * b.length) (w : Word) {done : Nat}
    (hdone : done < size) : write? w size ⟨done, offset + done⟩ (b.writeBits offset done w) =
      some (b.writeBits offset (done + take ⟨done, offset + done⟩ size) w) := by
  have hlength : offset + size ≤ 8 * (b.writeBits offset done w).length := by
    rw [Bytes.length_writeBits]
    exact h
  obtain ⟨x, hx⟩ := exists_getElem? hlength hdone
  have h64 : done < 64 := by omega
  have hle : done + take ⟨done, offset + done⟩ size ≤ size := done_add_take_le (Nat.le_of_lt hdone)
  rw [← Bytes.writeBits_add w (Nat.le_trans (Nat.add_le_add_left hle offset) h),
    Bytes.writeBits_of_getElem? _ hx (mod_add_take_le ⟨done, offset + done⟩ size)]
  simp [write?, hx, h64]

end Cursor

namespace Bytes

variable {b : Bytes} {offset size : Nat}

/-- Reading by way of a cursor ends with the window. -/
theorem scan?_eq (hn : size ≤ 64) (h : offset + size ≤ 8 * b.length) :
    b.scan? offset size = some (b.readBits offset size) := by
  have hstart : b.readBits offset 0 = 0 := by
    refine BitVec.eq_of_getLsbD_eq fun i _ => ?_
    rw [getLsbD_readBits _ _ _ _ (by omega)]
    simp
  have hstep : ∀ done word, done < size → word = b.readBits offset done →
      ∃ word', Cursor.read? b size ⟨done, offset + done⟩ word = some word' ∧
        word' = b.readBits offset (done + Cursor.take ⟨done, offset + done⟩ size) :=
    fun done word hdone hword => ⟨_, hword ▸ Cursor.read?_step hn h hdone, rfl⟩
  obtain ⟨word, hword, rfl⟩ := Cursor.walk?_eq_some hstep (Nat.zero_le size) rfl
  rw [hstart] at hword
  exact hword

/-- Writing by way of a cursor ends with the window replaced. -/
theorem fill?_eq (hn : size ≤ 64) (h : offset + size ≤ 8 * b.length) (w : Word) :
    b.fill? offset size w = some (b.writeBits offset size w) := by
  have hstart : b.writeBits offset 0 w = b := by
    refine eq_of_bit (by simp) fun j => ?_
    rw [bit_writeBits _ _ _ _ _ (by omega), if_neg (by omega)]
  have hstep : ∀ done b', done < size → b' = b.writeBits offset done w →
      ∃ b'', Cursor.write? w size ⟨done, offset + done⟩ b' = some b'' ∧
        b'' = b.writeBits offset (done + Cursor.take ⟨done, offset + done⟩ size) w :=
    fun done b' hdone hb' => ⟨_, hb' ▸ Cursor.write?_step hn h w hdone, rfl⟩
  obtain ⟨b', hb', rfl⟩ := Cursor.walk?_eq_some hstep (Nat.zero_le size) rfl
  rw [hstart] at hb'
  exact hb'

/-- A window of at most 64 bits in a string, against the stream of bits. Both loops end
without a step beyond the string, and come to the window. Its bits are those of the stream.
Writing replaces just them, so that what was written is read, as far as the window holds it,
and what was read changes nothing where it is written. -/
theorem window_of_stream (hn : size ≤ 64) (h : offset + size ≤ 8 * b.length) (w : Word) :
    b.scan? offset size = some (b.readBits offset size) ∧
    (∀ i, (b.readBits offset size).getLsbD i = (decide (i < size) && b.bit (offset + i))) ∧
    b.fill? offset size w = some (b.writeBits offset size w) ∧
    (b.writeBits offset size w).length = b.length ∧
    (∀ i < size, (b.writeBits offset size w).bit (offset + i) = w.getLsbD i) ∧
    (∀ j, j < offset ∨ offset + size ≤ j → (b.writeBits offset size w).bit j = b.bit j) ∧
    (b.writeBits offset size w).readBits offset size = w &&& Word.lowMask size ∧
    b.writeBits offset size (b.readBits offset size) = b := by
  refine ⟨scan?_eq hn h, fun i => getLsbD_readBits b offset size i hn, fill?_eq hn h w,
    length_writeBits b offset size w, fun i hi => ?_, fun j hj => ?_,
    readBits_writeBits b offset size w hn h, ?_⟩
  · have hin : offset ≤ offset + i ∧ offset + i < offset + size := by omega
    rw [bit_writeBits _ _ _ _ _ h, if_pos hin, Nat.add_sub_cancel_left]
  · rw [bit_writeBits _ _ _ _ _ h, if_neg (by omega)]
  · refine eq_of_bit (length_writeBits _ _ _ _) fun j => ?_
    rw [bit_writeBits _ _ _ _ _ h]
    split
    · rename_i hin
      have hi : j - offset < size := by omega
      have hback : offset + (j - offset) = j := by omega
      simp [getLsbD_readBits _ _ _ _ hn, hi, hback]
    · rfl

/-- All 64 bits of a word take up nine bytes behind the third bit of the first one, and the
five bits behind them stay set. -/
theorem window_of_stream_straddling : ∃ b : Bytes, fill? (List.replicate 9 0xFF) 3 64 2 = some b ∧
    b.scan? 3 64 = some 2 ∧ b.length = 9 ∧ b.bit 2 = true ∧ b.bit 3 = false ∧ b.bit 4 = true ∧
    b.bit 66 = false ∧ b.bit 67 = true := by
  have hfits : 3 + 64 ≤ 8 * (List.replicate 9 (0xFF : UInt8)).length := by decide
  obtain ⟨-, -, hfill, hlength, hin, hout, hread, -⟩ := window_of_stream (Nat.le_refl 64) hfits 2
  have hfits' := hfits
  rw [← hlength] at hfits'
  obtain ⟨hscan, -⟩ := window_of_stream (Nat.le_refl 64) hfits' 0
  refine ⟨_, hfill, ?_, hlength.trans rfl, ?_, ?_, ?_, ?_, ?_⟩
  · rw [hscan, hread]
    decide
  · rw [hout 2 (by decide)]
    decide
  · rw [hin 0 (by decide)]
    decide
  · rw [hin 1 (by decide)]
    decide
  · rw [hin 63 (by decide)]
    decide
  · rw [hout 67 (by decide)]
    decide

end Bytes

end WireRecord
