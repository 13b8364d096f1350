/-
WireRecord.Proofs.RawAccessTheorems — fields as native bytes.

The raw forms of access move a value as exactly the native bytes of its type, least
significant first. They are written here as a program performs them, through a coding of
numbers: `NumberCoding.setRaw` takes the number out of the bytes and writes the value it
stands for, `NumberCoding.getRaw` reads a value and puts its number into the bytes of the
caller. Both look at the number of bytes before anything else, so a refusal leaves the
buffer, or the bytes of the caller, alone.

The window may be narrower or wider than the bytes. A wider one gives back what it got.
A narrower one cuts off the upper bits, and reading fills them in again: with zeros, or
with the sign of what was left. The bits of a value that was read from `n` bits say so
(`Value.getLsbD_toWord_ofWord_uint`, `Value.getLsbD_toWord_ofWord_sint`).
-/
import WireRecord.Proofs.NumberCodingTheorems
import WireRecord.Proofs.WriteBackTheorems

namespace WireRecord

/-! ## Values read from some bits -/

namespace Value

/-- The bits of an unsigned value are the low bits of the word it was read from. -/
theorem getLsbD_toWord_ofWord_uint (k : Width) (raw : Word) (n : Nat) {j : Nat} (hj : j < k.bits) :
    (ofWord (.uint k) raw n).toWord.getLsbD j = raw.getLsbD j := by
  have h64 : j < 64 := Nat.lt_of_lt_of_le hj k.bits_le
  simp [ofWord, toWord, hj, h64]

/-- The bits of a signed value are those of the `n` bits it was read from, the highest of
which is repeated. -/
theorem getLsbD_toWord_ofWord_sint (k : Width) (raw : Word) {n j : Nat} (hn : 0 < n)
    (hj : j < k.bits) :
    (ofWord (.sint k) raw n).toWord.getLsbD j = raw.getLsbD (min j (n - 1)) := by
  have h64 : j < 64 := Nat.lt_of_lt_of_le hj k.bits_le
  rw [ofWord, toWord, BitVec.getLsbD_signExtend, BitVec.getLsbD_setWidth,
    Word.getLsbD_signExtend _ hn h64]
  simp [hj, h64]

/-- Bytes of a type other than a truth value are the native bytes of the value they spell. -/
theorem ofWord_toWord_ofWord {t : Scalar} {x : Bytes} (ht : t ≠ .bool) (hx : x.length = t.bytes) :
    Bytes.ofWord t.bytes (ofWord t x.toWord t.bits).toWord = x := by
  have hle : x.length ≤ 8 := by
    have := t.bits_le
    have := t.eight_mul_bytes
    omega
  have hlow : (ofWord t x.toWord t.bits).toWord.low t.bits = x.toWord.low t.bits :=
    low_toWord_ofWord (Nat.le_refl t.bits) fun hbool => absurd hbool ht
  rw [Word.low_eq_low_iff] at hlow
  refine Bytes.eq_of_bit (by simp [hx]) fun j => ?_
  rw [Bytes.bit_ofWord, t.eight_mul_bytes]
  by_cases hj : j < t.bits
  · simp [hj, hlow j hj, Bytes.getLsbD_toWord hle]
  · have hpast : 8 * x.length ≤ j := by
      rw [hx, t.eight_mul_bytes]
      exact Nat.le_of_not_lt hj
    simp [hj, Bytes.bit_of_ge hpast]

end Value

/-! ## Native bytes through a window -/

/-- The native bytes that are read back from a window of `n` bits, once some were written. -/
def Bytes.through (x : Bytes) (t : Scalar) (n : Nat) : Bytes :=
  .ofWord t.bytes (Value.ofWord t ((Value.ofWord t x.toWord t.bits).toWord.low n) n).toWord

namespace Bytes

variable {t : Scalar} {x : Bytes}

/-- A window with room for all bits gives the bytes back. -/
theorem through_of_bits_le (ht : t ≠ .bool) (hx : x.length = t.bytes) {n : Nat}
    (hn : t.bits ≤ n) : x.through t n = x := by
  have hsurvives := Value.survives_of_bits_le (v := .ofWord t x.toWord t.bits) (n := n)
    (by rwa [Value.type_ofWord])
  unfold Value.Survives at hsurvives
  rw [Value.type_ofWord] at hsurvives
  rw [through, hsurvives, Value.ofWord_toWord_ofWord ht hx]

/-- A narrower one leaves the low bits of an unsigned number. -/
theorem bit_through_uint {k : Width} {x : Bytes} (hx : x.length ≤ 8) (n : Nat) {j : Nat}
    (hj : j < k.bits) : (x.through (.uint k) n).bit j = (decide (j < n) && x.bit j) := by
  rw [through, bit_ofWord, Scalar.eight_mul_bytes, Value.getLsbD_toWord_ofWord_uint k _ n hj,
    Word.getLsbD_low, Value.getLsbD_toWord_ofWord_uint k _ _ hj, getLsbD_toWord hx]
  simp [Scalar.bits, hj]

/-- Of a signed number it leaves the low bits, and repeats the highest of them. -/
theorem bit_through_sint {k : Width} {x : Bytes} (hx : x.length ≤ 8) {n : Nat} (hn : 0 < n)
    (hle : n ≤ k.bits) {j : Nat} (hj : j < k.bits) :
    (x.through (.sint k) n).bit j = x.bit (min j (n - 1)) := by
  have hlow : min j (n - 1) < n := by omega
  have hbits : min j (n - 1) < k.bits := by omega
  rw [through, bit_ofWord, Scalar.eight_mul_bytes, Value.getLsbD_toWord_ofWord_sint k _ hn hj,
    Word.getLsbD_low, Value.getLsbD_toWord_ofWord_sint k _ (by simp [Scalar.bits]; omega) hbits,
    getLsbD_toWord hx]
  have hinner : min (min j (n - 1)) (k.bits - 1) = min j (n - 1) := by omega
  simp [Scalar.bits, hj, hlow, hinner]

end Bytes

/-! ## Raw access through a coding -/

namespace NumberCoding

variable (c : NumberCoding)

/-- Reads a field into bytes of the caller. The result is these bytes, together with the
reason if the field cannot be read. -/
def getRaw (f : Field) (r : Representation) (b out : Bytes) : Option (Except Error Unit × Bytes) :=
  match f.checkRaw out.length with
  | .error e => some (.error e, out)
  | .ok _ => do
    match ← c.get f r b with
    | .error e => return (.error e, out)
    | .ok v =>
      let n := f.type.bytes
      return (.ok (), ← c.writeUint .littleEndian out (v.toWord.low (8 * n)) n)

/-- Writes the value that some bytes stand for to a field. The result is the buffer, together
with the reason if they cannot be written. -/
def setRaw (f : Field) (r : Representation) (raw b : Bytes) :
    Option (Except Error Unit × Bytes) :=
  match f.checkRaw raw.length with
  | .error e => some (.error e, b)
  | .ok _ => do
    let n := f.type.bytes
    let w ← c.readUint .littleEndian raw n
    c.set f r (.ofWord f.type w (8 * n)) b

end NumberCoding

namespace Field

theorem bytes_pos (f : Field) : 1 ≤ f.type.bytes := by
  have := f.type.eight_le_bits
  have := f.type.eight_mul_bytes
  omega

theorem bytes_le (f : Field) : f.type.bytes ≤ 8 := by
  have := f.type.bits_le
  have := f.type.eight_mul_bytes
  omega

end Field

namespace NumberCoding.Documented

variable {c : NumberCoding} (hc : c.Documented)
include hc

/-- Reading native bytes through a coding is not stopped. It yields what is read from the
field, and leaves the bytes of the caller alone where nothing can be read. -/
theorem getRaw_eq (f : Field) (r : Representation) (b out : Bytes) :
    c.getRaw f r b out = some (match f.readRaw r b out.length with
      | .ok bytes => (.ok (), bytes)
      | .error e => (.error e, out)) := by
  rw [getRaw, Field.readRaw]
  by_cases hlength : out.length = f.type.bytes
  · rw [Field.checkRaw_of_eq hlength, hc.get_eq]
    cases hread : f.read r b with
    | error e => rfl
    | ok v =>
      have hfit : (v.toWord.low (8 * f.type.bytes)).low (8 * f.type.bytes) =
          v.toWord.low (8 * f.type.bytes) := by simp
      obtain ⟨bytes, hbytes, hsame, hnumber⟩ :=
        hc.exists_writeUint .littleEndian f.bytes_pos f.bytes_le hlength hfit
      -- bytes that spell the number have its bits
      have hspelled : bytes = .ofWord f.type.bytes v.toWord := by
        refine Bytes.eq_of_bit (by simp [hsame]) fun j => ?_
        rw [Bytes.bit_ofWord, ← ByteOrder.getLsbD_of_toNat_eq hnumber.symm, Word.getLsbD_low]
      simp [hbytes, hlength, hspelled, bind, Except.bind, pure, Except.pure]
  · rw [Field.checkRaw_of_ne hlength]
    rfl

/-- Nor is writing them. It writes what is written to the field, and leaves the buffer alone
where nothing can be written. -/
theorem setRaw_eq (f : Field) (r : Representation) (raw b : Bytes) :
    c.setRaw f r raw b = some (match f.writeRaw r b raw with
      | .ok b' => (.ok (), b')
      | .error e => (.error e, b)) := by
  rw [setRaw, Field.writeRaw]
  by_cases hlength : raw.length = f.type.bytes
  · obtain ⟨w, hw, hnumber⟩ := hc.exists_readUint .littleEndian f.bytes_pos f.bytes_le hlength
    have hword : w = raw.toWord := by
      have hle := f.bytes_le
      refine BitVec.eq_of_getLsbD_eq fun j _ => ?_
      rw [ByteOrder.getLsbD_of_toNat_eq hnumber, Bytes.getLsbD_toWord (by omega)]
    rw [Field.checkRaw_of_eq hlength, hlength]
    simp only [hw, hword]
    exact hc.set_eq f r _ b
  · rw [Field.checkRaw_of_ne hlength]
    rfl

end NumberCoding.Documented

namespace NumberCoding

/-- Native bytes to and from any field that can be accessed, through any coding that keeps to
what it documents. A number of bytes that is not that of the type is an invalid argument, in
both directions, and nothing changes. Otherwise the value that the bytes stand for is written
as it would be as a value, and reading yields the native bytes of what the window has kept of
it: the very same bytes where the window has room for the type, and the low bits with zeros or
the sign above them where it has not. -/
theorem getRaw_setRaw_of_documented {c : NumberCoding} (hc : c.Documented) {f : Field}
    {r : Representation} {b : Bytes} (h : f.Accessible r b.length) :
    (∀ n, n ≠ f.type.bytes → ∃ e, e.kind = .invalidArgument ∧
      (∀ x, x.length = n → f.writeRaw r b x = .error e ∧ c.setRaw f r x b = some (.error e, b)) ∧
      ∀ out, out.length = n →
        f.readRaw r b n = .error e ∧ c.getRaw f r b out = some (.error e, out)) ∧
    ∀ x, x.length = f.type.bytes → ∃ b' v y,
      f.writeRaw r b x = .ok b' ∧ f.write r b (.ofWord f.type x.toWord f.type.bits) = .ok b' ∧
      c.setRaw f r x b = some (.ok (), b') ∧
      v = .ofWord f.type ((Value.ofWord f.type x.toWord f.type.bits).toWord.low (f.span r).size)
        (f.span r).size ∧
      y = .ofWord f.type.bytes v.toWord ∧
      f.read r b' = .ok v ∧ f.readRaw r b' f.type.bytes = .ok y ∧
      (∀ out, out.length = f.type.bytes → c.getRaw f r b' out = some (.ok (), y)) ∧
      (f.type ≠ .bool → f.type.bits ≤ (f.span r).size → y = x) ∧
      (∀ k, f.type = .uint k → ∀ j < f.type.bits,
        y.bit j = (decide (j < (f.span r).size) && x.bit j)) ∧
      ∀ k, f.type = .sint k → (f.span r).size ≤ f.type.bits → ∀ j < f.type.bits,
        y.bit j = x.bit (min j ((f.span r).size - 1)) := by
  refine ⟨fun n hn => ⟨.rawLength f.name n f.type, rfl, fun x hx => ?_, fun out hout => ?_⟩,
    fun x hx => ?_⟩
  · subst hx
    have hrefused : f.writeRaw r b x = .error (.rawLength f.name x.length f.type) :=
      Field.writeRaw_of_ne hn
    exact ⟨hrefused, by rw [hc.setRaw_eq, hrefused]⟩
  · have hrefused : f.readRaw r b n = .error (.rawLength f.name n f.type) :=
      Field.readRaw_of_ne hn
    exact ⟨hrefused, by rw [hc.getRaw_eq, hout, hrefused]⟩
  · have hle : x.length ≤ 8 := hx ▸ f.bytes_le
    have hwrite := Field.writeRaw_eq h hx
    have hafter := h
    rw [← Field.length_store f r b (Value.ofWord f.type x.toWord f.type.bits).toWord] at hafter
    have hkept := Field.valueIn_store (Value.ofWord f.type x.toWord f.type.bits).toWord h
    have hread := Field.readRaw_eq hafter
    rw [hkept] at hread
    refine ⟨_, _, x.through f.type (f.span r).size, hwrite,
      Field.write_of_accessible h (Value.type_ofWord _ _ _), by rw [hc.setRaw_eq, hwrite], rfl, rfl,
      by rw [Field.read_of_accessible hafter, hkept], hread, fun out hout => ?_,
      fun ht hn => Bytes.through_of_bits_le ht hx hn, fun k hk j hj => ?_,
      fun k hk hn j hj => ?_⟩
    · rw [hc.getRaw_eq, hout, hread]
      rfl
    · rw [hk] at hj ⊢
      exact Bytes.bit_through_uint hle _ hj
    · rw [hk] at hn hj ⊢
      exact Bytes.bit_through_sint hle h.size_pos hn hj

/-- Four bytes go into a window of three. The fourth comes back as the sign of the third, and
three bytes are refused. -/
theorem getRaw_setRaw_of_documented_plain : plain.Documented ∧ straddling.Accessible .wire 5 ∧
    ∃ b', plain.setRaw straddling .wire [0x01, 0x02, 0x83, 0x04] [0xFF, 0xFF, 0x00, 0x00, 0xFF] =
        some (.ok (), b') ∧
      plain.getRaw straddling .wire b' [0, 0, 0, 0] = some (.ok (), [0x01, 0x02, 0x83, 0xFF]) ∧
      ∃ e, plain.setRaw straddling .wire [0x01, 0x02, 0x83] [0xFF, 0xFF, 0x00, 0x00, 0xFF] =
        some (.error e, [0xFF, 0xFF, 0x00, 0x00, 0xFF]) := by
  have haccessible : straddling.Accessible .wire 5 := ⟨by decide, by decide, by decide, by decide⟩
  obtain ⟨hrefused, hall⟩ := getRaw_setRaw_of_documented documented_plain
    (b := [0xFF, 0xFF, 0x00, 0x00, 0xFF]) haccessible
  obtain ⟨e, -, hshort, -⟩ := hrefused 3 (by decide)
  obtain ⟨b', v, y, -, -, hset, rfl, rfl, -, -, hget, -⟩ :=
    hall [0x01, 0x02, 0x83, 0x04] (by decide)
  refine ⟨documented_plain, haccessible, b', hset, ?_, e, (hshort _ rfl).2⟩
  rw [hget _ (by decide)]
  decide

end NumberCoding

end WireRecord
