/-
WireRecord.Arithmetic — sizes and places in the words of a machine.

Sizes and places are natural numbers, but a machine keeps them in words of 64 bits.
What happens to a number that no word holds depends on how the program was built: one
build stops there, the other keeps the low bits and goes on. Both divide by zero, and
stop, where eight times an alignment leaves no low bits.

Every computation of a size or a place takes an arithmetic. The exact one, which has no
words, is meant where none is given. Access to a field computes its end once more, which
is the same number in all arithmetics if a word holds it; and no buffer has more bits than
a word counts.
-/
import WireRecord.Extent
import WireRecord.Schema

namespace WireRecord

/-- How sizes and places are computed. -/
inductive Arithmetic where
  /-- As natural numbers. -/
  | exact
  /-- In words; where no word holds the result, the program stops. -/
  | checked
  /-- In words; where no word holds the result, its low bits are kept. -/
  | wrapping
deriving DecidableEq, Repr

namespace Arithmetic

/-- Puts a result into a word, if there are words. -/
def hold (m : Arithmetic) (fault : Fault) (n : Nat) : Except Error Nat :=
  let word : Word := .ofNat 64 n
  match m with
  | exact => .ok n
  | checked => if word.toNat = n then .ok n else .error (.stopped fault)
  | wrapping => .ok word.toNat

/-- The sum of two numbers. -/
def add (m : Arithmetic) (a b : Nat) : Except Error Nat := m.hold .sum (a + b)

/-- The product of two numbers. -/
def mul (m : Arithmetic) (a b : Nat) : Except Error Nat := m.hold .product (a * b)

/-- The quotient of two numbers, rounded up. It is never larger than the first. -/
def divUp (a b : Nat) : Except Error Nat :=
  if b = 0 then .error (.stopped .quotient) else .ok ((a + (b - 1)) / b)

/-- The next multiple of `alignment` bytes, for a position in bits. Alignments
of zero and one leave the position as it is. -/
def alignUp (m : Arithmetic) (position alignment : Nat) : Except Error Nat := do
  if alignment ≤ 1 then return position
  let step ← m.mul 8 alignment
  m.mul (← divUp position step) step

/-- The bit after the last one of a span. -/
def stop (m : Arithmetic) (s : Span) : Except Error Nat := m.add s.offset s.size

/-- The span moved up. -/
def shift (m : Arithmetic) (s : Span) (n : Nat) : Except Error Span := do
  return { s with offset := ← m.add s.offset n }

/-- The sum of two sizes or places, in both representations. -/
def advance (m : Arithmetic) (a b : Extent) : Except Error Extent := do
  return ⟨← m.add a.native b.native, ← m.add a.wire b.wire⟩

/-- The wire position behind a place. -/
def locate (m : Arithmetic) (base : Nat) (p : WirePosition) : Except Error Nat := do
  m.add (← m.add base (← m.mul 8 p.byte)) p.bit

/-- Moves the native side up to an alignment in bytes; the wire is packed. -/
def align (m : Arithmetic) (e : Extent) (alignment : Nat) : Except Error Extent := do
  return { e with native := ← m.alignUp e.native alignment }

/-! ## The exact arithmetic -/

@[simp] theorem exact_hold (fault : Fault) (n : Nat) : exact.hold fault n = .ok n := rfl

@[simp] theorem exact_add (a b : Nat) : exact.add a b = .ok (a + b) := rfl

@[simp] theorem exact_mul (a b : Nat) : exact.mul a b = .ok (a * b) := rfl

@[simp] theorem exact_alignUp (position alignment : Nat) :
    exact.alignUp position alignment = .ok (WireRecord.alignUp position alignment) := by
  unfold alignUp WireRecord.alignUp
  by_cases h : alignment ≤ 1
  · rw [if_pos h, if_pos h]
    rfl
  · have hstep : 8 * alignment ≠ 0 := by omega
    rw [if_neg h, if_neg h]
    show (divUp position (8 * alignment) >>= fun n => exact.mul n (8 * alignment)) = _
    rw [divUp, if_neg hstep]
    rfl

@[simp] theorem exact_stop (s : Span) : exact.stop s = .ok s.stop := rfl

@[simp] theorem exact_shift (s : Span) (n : Nat) : exact.shift s n = .ok (s.shift n) := rfl

@[simp] theorem exact_advance (a b : Extent) : exact.advance a b = .ok (a + b) := rfl

@[simp] theorem exact_locate (base : Nat) (p : WirePosition) :
    exact.locate base p = .ok (base + p.bits) :=
  congrArg Except.ok (Nat.add_assoc base (8 * p.byte) p.bit)

@[simp] theorem exact_align (e : Extent) (alignment : Nat) :
    exact.align e alignment = .ok (e.align alignment) := by
  rw [align, exact_alignUp]
  rfl

end Arithmetic

end WireRecord
