/-
WireRecord.Word — the 64-bit patterns that move between values and buffers.

Every field is at most 64 bits wide, so one word holds the bits of any value.
A field narrower than its type keeps the low bits of the word; `lowMask` cuts
them out and `signExtend` brings a negative number back from them.
-/

namespace WireRecord

/-- A 64-bit pattern. -/
abbrev Word := BitVec 64

namespace Word

/-- The word whose low `n` bits are set; from 64 on, all of them. -/
def lowMask (n : Nat) : Word := (BitVec.allOnes (min n 64)).setWidth 64

/-- The low `n` bits of a word, all others cleared. -/
def low (w : Word) (n : Nat) : Word := w &&& lowMask n

/-- The low `n` bits read as a two's-complement number. No bits, or all 64,
leave the word as it is. -/
def signExtend (w : Word) (n : Nat) : Word :=
  if n = 0 ∨ 64 ≤ n then w else (w.setWidth n).signExtend 64

end Word

end WireRecord
