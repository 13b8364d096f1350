/-
WireRecord.Proofs.NumberCodingTheorems — no assertion of a coding fails.

A field is accessed through a coding only when it has one to 64 bits inside the buffer,
so the coding gets one to eight bytes, and it gets no number but one that was cut to
them. Its assertions hold, whatever the coding does where they do not.

What comes out is what the loops over bits give. The bits of a number in little-endian
order are those of its bytes (`ByteOrder.testBit_number_littleEndian`); for big-endian
order one induction on the bytes follows the recursion of `Word.ofBigEndian`
(`ByteOrder.toNat_ofBigEndian`), and writing is settled by reading back. So `get` and
`set` are `Field.read` and `Field.write` (`NumberCoding.get_eq`, `NumberCoding.set_eq`).
-/
import WireRecord.Proofs.NumberCoding
import WireRecord.Proofs.StoreTheorems

namespace WireRecord

/-! ## Numbers in bytes -/

namespace Word

/-- A byte above `n` bits counts `2 ^ n` times. -/
theorem toNat_shiftLeft_or {x y : Word} {n : Nat} (hx : x.toNat < 2 ^ 8) (hn : n + 8 ≤ 64)
    (hy : y.toNat < 2 ^ n) : (x <<< n ||| y).toNat = 2 ^ n * x.toNat + y.toNat := by
  have hfits : x.toNat <<< n < 2 ^ 64 := by
    rw [Nat.shiftLeft_eq]
    calc x.toNat * 2 ^ n < 2 ^ 8 * 2 ^ n := Nat.mul_lt_mul_of_pos_right hx (Nat.two_pow_pos n)
      _ = 2 ^ (8 + n) := (Nat.pow_add 2 8 n).symm
      _ ≤ 2 ^ 64 := Nat.pow_le_pow_right (by decide) (by omega)
  rw [BitVec.toNat_or, BitVec.toNat_shiftLeft, Nat.mod_eq_of_lt hfits,
    ← Nat.shiftLeft_add_eq_or_of_lt hy, Nat.shiftLeft_eq, Nat.mul_comm]

/-- Bytes that a word fits bound its number. -/
theorem toNat_lt_of_low {w : Word} {n : Nat} (h : w.low (8 * n) = w) : w.toNat < 256 ^ n := by
  have hpow : 256 ^ n = 2 ^ (8 * n) := (Nat.pow_mul 2 8 n).symm
  rw [hpow, ← h, toNat_low]
  exact Nat.mod_lt _ (Nat.two_pow_pos _)

end Word

namespace ByteOrder

@[simp] theorem length_arrange (o : ByteOrder) (b : Bytes) : (o.arrange b).length = b.length := by
  cases o <;> simp [arrange]

@[simp] theorem arrange_arrange (o : ByteOrder) (b : Bytes) : o.arrange (o.arrange b) = b := by
  cases o <;> simp [arrange]

theorem number_eq_littleEndian (o : ByteOrder) (b : Bytes) :
    o.number b = littleEndian.number (o.arrange b) := rfl

theorem number_lt (o : ByteOrder) (b : Bytes) : o.number b < 2 ^ (8 * b.length) := by
  have hdigit : ∀ d ∈ (o.arrange b).map UInt8.toNat, d < 256 := by
    intro d hd
    obtain ⟨x, -, rfl⟩ := List.mem_map.mp hd
    exact x.toNat_lt
  have hlt := Nat.ofDigits_lt_base_pow_length (by decide : 1 < 256) hdigit
  rw [List.length_map, length_arrange] at hlt
  rw [Nat.pow_mul]
  exact hlt

theorem number_littleEndian_cons (x : UInt8) (rest : Bytes) :
    littleEndian.number (x :: rest) = 2 ^ 8 * littleEndian.number rest + x.toNat := by
  simp only [number, arrange, List.map_cons, Nat.ofDigits_cons]
  omega

theorem number_bigEndian_cons (x : UInt8) (rest : Bytes) :
    bigEndian.number (x :: rest) = 2 ^ (8 * rest.length) * x.toNat + bigEndian.number rest := by
  have hpow : 2 ^ (8 * rest.length) = 256 ^ rest.length := Nat.pow_mul 2 8 rest.length
  simp only [number, arrange, List.map_reverse, List.map_cons, Nat.ofDigits_reverse_cons,
    List.length_map, hpow]
  omega

/-- The bits of a number in little-endian order are those of its bytes. -/
theorem testBit_number_littleEndian (b : Bytes) (j : Nat) :
    (littleEndian.number b).testBit j = b.bit j := by
  induction b generalizing j with
  | nil =>
    have hnone : Bytes.bit [] j = false := Bytes.bit_of_ge (by simp)
    simp [number, arrange, hnone]
  | cons x rest ih =>
    rw [number_littleEndian_cons, Nat.testBit_two_pow_mul_add _ x.toNat_lt, Bytes.bit_cons]
    by_cases hj : j < 8
    · simp [hj, BitVec.getLsbD]
    · simp [hj, ih]

/-- A word that is the number of some bytes has their bits. -/
theorem getLsbD_of_toNat_eq {w : Word} {b : Bytes} (h : w.toNat = littleEndian.number b)
    (j : Nat) : w.getLsbD j = b.bit j := by
  rw [← testBit_number_littleEndian, ← h]
  rfl

/-- A word with the bits of some bytes is their number. -/
theorem toNat_eq_of_bit {w : Word} {b : Bytes} (h : ∀ j, w.getLsbD j = b.bit j) :
    w.toNat = littleEndian.number b := by
  refine Nat.eq_of_testBit_eq fun j => ?_
  rw [testBit_number_littleEndian, ← h]
  rfl

/-- The number that eight bytes at most spell in one order becomes the one they spell in
the other. -/
theorem toNat_ofBigEndian {b : Bytes} (hlength : b.length ≤ 8) {w : Word}
    (hw : w.toNat = littleEndian.number b) :
    (w.ofBigEndian (8 * b.length)).toNat = bigEndian.number b := by
  induction b generalizing w with
  | nil =>
    obtain rfl : w = 0 := BitVec.eq_of_toNat_eq hw
    rfl
  | cons x rest ih =>
    rw [number_littleEndian_cons] at hw
    have hbyte := x.toNat_lt
    have hfirst : (w.low 8).toNat = x.toNat := by
      rw [Word.toNat_low]
      omega
    have hrest : (w >>> 8).toNat = littleEndian.number rest := by
      rw [BitVec.toNat_ushiftRight, Nat.shiftRight_eq_div_pow]
      omega
    rw [List.length_cons] at hlength
    cases rest with
    | nil =>
      -- a single byte is the same number in both orders
      show (w.ofBigEndian 8).toNat = _
      rw [Word.ofBigEndian_of_le w (by decide), hfirst]
      simp [number, arrange]
    | cons y tail =>
      have hother := ih (by omega) hrest
      have hlt := number_lt bigEndian (y :: tail)
      have hbits : 8 * tail.length + 7 + 1 = 8 * (y :: tail).length := by
        rw [List.length_cons]
        omega
      have hstep : 8 * (x :: y :: tail).length = 8 * tail.length + 7 + 9 := by
        simp only [List.length_cons]
        omega
      rw [← hother] at hlt
      rw [hstep, Word.ofBigEndian_add_nine, hbits,
        Word.toNat_shiftLeft_or (by omega) (by omega) hlt, hfirst, hother, number_bigEndian_cons x]

end ByteOrder

/-! ## Whole bytes of a buffer -/

theorem Bytes.slice?_of_le {b : Bytes} {start n : Nat} (h : start + n ≤ b.length) :
    b.slice? start n = some ((b.drop start).take n) := if_pos h

theorem Bytes.length_slice {b : Bytes} {start n : Nat} (h : start + n ≤ b.length) :
    ((b.drop start).take n).length = n := by
  rw [List.length_take, List.length_drop]
  omega

/-- A window of whole bytes is their number. -/
theorem Bytes.toNat_readBits (b : Bytes) (start : Nat) {n : Nat} (hn : n ≤ 8) :
    (b.readBits (8 * start) (8 * n)).toNat =
      ByteOrder.littleEndian.number ((b.drop start).take n) := by
  refine ByteOrder.toNat_eq_of_bit fun j => ?_
  rw [getLsbD_readBits _ _ _ _ (by omega)]
  by_cases hj : j < 8 * n
  · simp [hj, bit_take hj, bit_drop]
  · have hpast : 8 * ((b.drop start).take n).length ≤ j := by
      rw [List.length_take]
      omega
    simp [hj, bit_of_ge hpast]

/-- Bytes in place of others are a window with their number. -/
theorem Bytes.writeBits_eq {b bytes : Bytes} {start n : Nat} {w : Word}
    (h : start + n ≤ b.length) (hlength : bytes.length = n)
    (hw : ByteOrder.littleEndian.number bytes = w.toNat) :
    b.writeBits (8 * start) (8 * n) w = b.take start ++ bytes ++ b.drop (start + n) := by
  have hbefore : (b.take start).length = start := List.length_take_of_le (by omega)
  have hwindow : 8 * start + 8 * n ≤ 8 * b.length := by omega
  refine eq_of_bit (by simp [hlength]; omega) fun j => ?_
  rw [bit_writeBits _ _ _ _ _ hwindow, bit_append, List.length_append, hbefore, hlength,
    bit_append, hbefore, bit_drop, ByteOrder.getLsbD_of_toNat_eq hw.symm]
  by_cases h1 : j < 8 * start
  · have hout : ¬ (8 * start ≤ j ∧ j < 8 * start + 8 * n) := by omega
    have hin : j < 8 * (start + n) := by omega
    rw [if_neg hout, if_pos hin, if_pos h1, bit_take h1]
  · by_cases h2 : j < 8 * (start + n)
    · have hin : 8 * start ≤ j ∧ j < 8 * start + 8 * n := by omega
      rw [if_pos hin, if_pos h2, if_neg h1]
    · have hout : ¬ (8 * start ≤ j ∧ j < 8 * start + 8 * n) := by omega
      have hback : 8 * (start + n) + (j - 8 * (start + n)) = j := by omega
      rw [if_neg hout, if_neg h2, hback]

theorem bytesFor_mul (n : Nat) : bytesFor (8 * n) = n := by
  unfold bytesFor
  omega

/-- The window of a native field that can be accessed is one to eight bytes. -/
theorem Field.Accessible.exists_bytes {f : Field} {length : Nat} (h : f.Accessible .native length) :
    ∃ start n, f.native = ⟨8 * start, 8 * n⟩ ∧ 1 ≤ n ∧ n ≤ 8 ∧ start + n ≤ length := by
  obtain ⟨haligned, hwhole⟩ := h.whole rfl
  have hoffset : f.native.offset % 8 = 0 := by simpa [Span.byteAligned, Field.span] using haligned
  have hsize : f.native.size % 8 = 0 := hwhole
  have hpos : 0 < f.native.size := h.size_pos
  have hle : f.native.size ≤ 64 := h.size_le
  have hstop : f.native.offset + f.native.size ≤ 8 * length := h.stop_le
  refine ⟨f.native.offset / 8, f.native.size / 8, ?_, by omega, by omega, by omega⟩
  rw [Nat.mul_div_cancel' (Nat.dvd_of_mod_eq_zero hoffset),
    Nat.mul_div_cancel' (Nat.dvd_of_mod_eq_zero hsize)]

@[simp] theorem NumberCoding.length_scratch : scratch.length = 8 := rfl

/-- A number that is read from a buffer of just its bytes. -/
theorem NumberCoding.exists_number_of_isSome {o : ByteOrder} {b : Bytes} {n : Nat}
    {x : Option Word} (hlength : b.length = n) (hsome : x.isSome)
    (hnumber : ∀ w, x = some w → w.toNat = o.number (b.take n)) :
    ∃ w, x = some w ∧ w.toNat = o.number b := by
  obtain ⟨w, hw⟩ := Option.isSome_iff_exists.mp hsome
  have hvalue := hnumber w hw
  rw [List.take_of_length_le (Nat.le_of_eq hlength)] at hvalue
  exact ⟨w, hw, hvalue⟩

/-- A number that is written to a buffer of just its bytes. -/
theorem NumberCoding.exists_spelling_of_isSome {o : ByteOrder} {b : Bytes} {n : Nat} {w : Word}
    {x : Option Bytes} (hlength : b.length = n) (hsome : x.isSome)
    (hspells : ∀ b', x = some b' → o.Spells n w b b') :
    ∃ b', x = some b' ∧ b'.length = n ∧ o.number b' = w.toNat := by
  obtain ⟨b', hb'⟩ := Option.isSome_iff_exists.mp hsome
  obtain ⟨hsame, -, hvalue⟩ := hspells b' hb'
  rw [hlength] at hsame
  rw [List.take_of_length_le (Nat.le_of_eq hsame)] at hvalue
  exact ⟨b', hb', hsame, hvalue⟩

namespace NumberCoding.Documented

variable {c : NumberCoding} (hc : c.Documented)
include hc

/-- Reading is not stopped when there are as many bytes. -/
theorem exists_readUint (o : ByteOrder) {b : Bytes} {n : Nat} (h1 : 1 ≤ n) (h8 : n ≤ 8)
    (hlength : b.length = n) : ∃ w, c.readUint o b n = some w ∧ w.toNat = o.number b :=
  exists_number_of_isSome hlength
    ((hc.readUint_isSome o b n).mpr ⟨h1, h8, Nat.le_of_eq hlength.symm⟩)
    (hc.readUint_toNat o b n)

/-- Nor is writing, when the number fits the bytes. -/
theorem exists_writeUint (o : ByteOrder) {b : Bytes} {n : Nat} {w : Word} (h1 : 1 ≤ n)
    (h8 : n ≤ 8) (hlength : b.length = n) (hw : w.low (8 * n) = w) :
    ∃ b', c.writeUint o b w n = some b' ∧ b'.length = n ∧ o.number b' = w.toNat :=
  exists_spelling_of_isSome hlength
    ((hc.writeUint_isSome o b w n).mpr
      ⟨h1, h8, Nat.le_of_eq hlength.symm, Word.toNat_lt_of_low hw⟩)
    (hc.writeUint_spells o b w n)

theorem exists_readU64 (o : ByteOrder) {b : Bytes} (hlength : b.length = 8) :
    ∃ w, c.readU64 o b = some w ∧ w.toNat = o.number b :=
  exists_number_of_isSome hlength ((hc.readU64_isSome o b).mpr (Nat.le_of_eq hlength.symm))
    (hc.readU64_toNat o b)

theorem exists_writeU64 (o : ByteOrder) {b : Bytes} (w : Word) (hlength : b.length = 8) :
    ∃ b', c.writeU64 o b w = some b' ∧ b'.length = 8 ∧ o.number b' = w.toNat :=
  exists_spelling_of_isSome hlength
    ((hc.writeU64_isSome o b w).mpr (Nat.le_of_eq hlength.symm)) (hc.writeU64_spells o b w)

/-! ## Windows and numbers in big-endian order -/

/-- A window of whole bytes is turned around by a scratch buffer. -/
theorem numberOf_eq {window : Word} {n : Nat} (h1 : 1 ≤ n) (h64 : n ≤ 64)
    (hfit : window.low n = window) : c.numberOf window n = some (window.ofBigEndian n) := by
  by_cases h8 : n % 8 = 0
  · obtain ⟨k, rfl⟩ : ∃ k, n = 8 * k := ⟨n / 8, by omega⟩
    obtain ⟨b, hb, hlength, hnumber⟩ :=
      hc.exists_writeU64 .littleEndian window length_scratch
    have hslice : b.slice? 0 k = some (b.take k) := Bytes.slice?_of_le (by omega)
    have hfront : (b.take k).length = k := List.length_take_of_le (by omega)
    obtain ⟨x, hx, hvalue⟩ := hc.exists_readUint .bigEndian (n := k) (by omega) (by omega) hfront
    -- the bytes behind the window are zero
    have hwindow : window.toNat = ByteOrder.littleEndian.number (b.take k) := by
      refine ByteOrder.toNat_eq_of_bit fun j => ?_
      by_cases hj : j < 8 * k
      · rw [Bytes.bit_take hj, ByteOrder.getLsbD_of_toNat_eq hnumber.symm]
      · rw [Bytes.bit_of_ge (by omega)]
        exact (Word.low_eq_self_iff _ _).mp hfit j (Nat.le_of_not_lt hj)
    have hback := ByteOrder.toNat_ofBigEndian (by omega) hwindow
    rw [hfront, ← hvalue] at hback
    rw [BitVec.eq_of_toNat_eq hback]
    simp [numberOf, bytesFor_mul, hb, hslice, hx]
  · rw [numberOf, if_neg h8]

/-- A number of whole bytes is turned around in the same way. -/
theorem windowOf_eq {number : Word} {n : Nat} (h1 : 1 ≤ n) (h64 : n ≤ 64)
    (hfit : number.low n = number) : c.windowOf number n = some (number.toBigEndian n) := by
  by_cases h8 : n % 8 = 0
  · obtain ⟨k, rfl⟩ : ∃ k, n = 8 * k := ⟨n / 8, by omega⟩
    have hscratch := length_scratch
    have hslice : scratch.slice? 0 k = some (scratch.take k) := Bytes.slice?_of_le (by omega)
    have htake : (scratch.take k).length = k := List.length_take_of_le (by omega)
    obtain ⟨front, hfront, hlength, hnumber⟩ :=
      hc.exists_writeUint .bigEndian (by omega) (by omega) htake hfit
    have hlong : (front ++ scratch.drop k).length = 8 := by
      rw [List.length_append, List.length_drop]
      omega
    obtain ⟨x, hx, hvalue⟩ := hc.exists_readU64 .littleEndian hlong
    -- the scratch buffer holds nothing but the number
    have hx' : x.toNat = ByteOrder.littleEndian.number front := by
      refine ByteOrder.toNat_eq_of_bit fun j => ?_
      rw [ByteOrder.getLsbD_of_toNat_eq hvalue, Bytes.bit_append, scratch, List.drop_replicate,
        Bytes.bit_replicate_zero]
      by_cases hj : j < 8 * front.length
      · rw [if_pos hj]
      · rw [if_neg hj, Bytes.bit_of_ge (Nat.le_of_not_lt hj)]
    have hxfit : x.low (8 * k) = x := (Word.low_eq_self_iff _ _).mpr fun j hj => by
      rw [ByteOrder.getLsbD_of_toNat_eq hx', Bytes.bit_of_ge (by omega)]
    have hback := ByteOrder.toNat_ofBigEndian (by omega) hx'
    rw [hlength, hnumber] at hback
    have hwindow := Word.toBigEndian_ofBigEndian x h64
    rw [BitVec.eq_of_toNat_eq hback, hxfit] at hwindow
    rw [hwindow]
    simp [windowOf, bytesFor_mul, hslice, hfront, hx]
  · rw [windowOf, if_neg h8]

/-! ## Fields -/

variable {f : Field} {r : Representation} {b : Bytes}

/-- What is loaded through a coding is the number in the window. -/
theorem load_eq (h : f.Accessible r b.length) : c.load f r b = some (f.load r b) := by
  cases r with
  | native =>
    obtain ⟨start, n, hspan, h1, h8, hstop⟩ := h.exists_bytes
    obtain ⟨w, hw, hvalue⟩ :=
      hc.exists_readUint .littleEndian h1 h8 (Bytes.length_slice hstop)
    rw [← Bytes.toNat_readBits b start h8] at hvalue
    have hload : f.load .native b = b.readBits (8 * start) (8 * n) := by
      simp [Field.load, Field.span, hspan, Field.orderIn, ByteOrder.decode]
    rw [hload, ← BitVec.eq_of_toNat_eq hvalue]
    simp [load, Field.span, hspan, Bytes.slice?_of_le hstop, hw]
  | wire =>
    have hnumber := hc.numberOf_eq h.size_pos h.size_le
      (Bytes.low_readBits b (f.span .wire).offset (f.span .wire).size h.size_le)
    rw [load, Field.load, Field.orderIn]
    cases f.order with
    | littleEndian => rfl
    | bigEndian => exact hnumber

/-- What is stored through a coding is the number in the window. -/
theorem store_eq (h : f.Accessible r b.length) (w : Word) :
    c.store f r b w = some (f.store r b w) := by
  cases r with
  | native =>
    obtain ⟨start, n, hspan, h1, h8, hstop⟩ := h.exists_bytes
    have hfit : (w.low (8 * n)).low (8 * n) = w.low (8 * n) := by simp
    obtain ⟨bytes, hbytes, hlength, hvalue⟩ :=
      hc.exists_writeUint .littleEndian h1 h8 (Bytes.length_slice hstop) hfit
    have hstore : f.store .native b w = b.writeBits (8 * start) (8 * n) (w.low (8 * n)) := by
      simp [Field.store, Field.span, hspan, Field.orderIn, ByteOrder.encode]
    rw [hstore, Bytes.writeBits_eq hstop hlength hvalue]
    simp [store, Field.span, hspan, Bytes.slice?_of_le hstop, hbytes]
  | wire =>
    have hfit : (w.low (f.span .wire).size).low (f.span .wire).size =
        w.low (f.span .wire).size := by simp
    have hwindow := hc.windowOf_eq h.size_pos h.size_le hfit
    rw [store, Field.store, Field.orderIn]
    cases f.order with
    | littleEndian => rfl
    | bigEndian =>
      simp only [hwindow]
      rfl

/-- Reading through a coding is not stopped, and reads what the field reads. -/
theorem get_eq (f : Field) (r : Representation) (b : Bytes) : c.get f r b = some (f.read r b) := by
  cases hcheck : f.checkWindow r b.length with
  | error e => simp [get, Field.read, hcheck, bind, Except.bind]
  | ok u =>
    have h := (Field.checkWindow_eq_ok_iff f r b.length).mp hcheck
    rw [get, hcheck, hc.load_eq h, Field.read_of_accessible h]
    rfl

/-- Writing through a coding is not stopped. It writes what is written to the field, and
leaves a buffer alone that cannot be written to. -/
theorem set_eq (f : Field) (r : Representation) (v : Value) (b : Bytes) :
    c.set f r v b = some (match f.write r b v with
      | .ok b' => (.ok (), b')
      | .error e => (.error e, b)) := by
  cases hcheck : f.checkWindow r b.length with
  | error e => simp [set, Field.write, hcheck, bind, Except.bind]
  | ok u =>
    have h := (Field.checkWindow_eq_ok_iff f r b.length).mp hcheck
    rw [set, hcheck, hc.store_eq h, Field.write_eq h]
    rfl

end NumberCoding.Documented

/-- The bytes of a word that fits them spell it. -/
theorem Bytes.number_ofWord {n : Nat} {w : Word} (h : w.toNat < 256 ^ n) :
    ByteOrder.littleEndian.number (.ofWord n w) = w.toNat := by
  refine (ByteOrder.toNat_eq_of_bit fun j => ?_).symm
  rw [bit_ofWord]
  by_cases hj : j < 8 * n
  · simp [hj]
  · have hhigh : w.toNat.testBit j = false := by
      refine Nat.testBit_lt_two_pow (Nat.lt_of_lt_of_le h ?_)
      rw [← Nat.pow_mul 2 8 n]
      exact Nat.pow_le_pow_right (by decide) (Nat.le_of_not_lt hj)
    simp only [hj, decide_false, Bool.false_and]
    exact hhigh

namespace NumberCoding

/-- The bytes of a word in front of a buffer replace as many. -/
theorem spells_ofWord (o : ByteOrder) {b : Bytes} {n : Nat} {w : Word} (hlength : n ≤ b.length)
    (hw : w.toNat < 256 ^ n) : o.Spells n w b (o.arrange (.ofWord n w) ++ b.drop n) := by
  have hfront : (o.arrange (Bytes.ofWord n w)).length = n := by simp
  refine ⟨?_, List.drop_left' hfront, ?_⟩
  · rw [List.length_append, hfront, List.length_drop]
    omega
  · rw [List.take_left' hfront, ByteOrder.number_eq_littleEndian, ByteOrder.arrange_arrange,
      Bytes.number_ofWord hw]

/-- The number of eight bytes at most is a word. -/
theorem toNat_ofNat_number (o : ByteOrder) (b : Bytes) {n : Nat} (hn : n ≤ 8) :
    (BitVec.ofNat 64 (o.number (b.take n))).toNat = o.number (b.take n) := by
  have hbits : 8 * (b.take n).length ≤ 64 := by
    rw [List.length_take]
    omega
  rw [BitVec.toNat_ofNat]
  exact Nat.mod_eq_of_lt
    (Nat.lt_of_lt_of_le (o.number_lt _) (Nat.pow_le_pow_right (by decide) hbits))

theorem documented_plain : plain.Documented where
  readUint_isSome o b n := by simp [plain]
  readUint_toNat o b n w h := by
    obtain ⟨⟨-, h8, -⟩, hw⟩ := Option.ite_none_right_eq_some.mp h
    rw [← Option.some.inj hw, toNat_ofNat_number o b h8]
  writeUint_isSome o b w n := by simp [plain]
  writeUint_spells o b w n b' h := by
    obtain ⟨⟨-, -, hlength, hw⟩, hb'⟩ := Option.ite_none_right_eq_some.mp h
    rw [← Option.some.inj hb']
    exact spells_ofWord o hlength hw
  readU64_isSome o b := by simp [plain]
  readU64_toNat o b w h := by
    obtain ⟨-, hw⟩ := Option.ite_none_right_eq_some.mp h
    rw [← Option.some.inj hw, toNat_ofNat_number o b (Nat.le_refl 8)]
  writeU64_isSome o b w := by simp [plain]
  writeU64_spells o b w b' h := by
    obtain ⟨hlength, hb'⟩ := Option.ite_none_right_eq_some.mp h
    rw [← Option.some.inj hb']
    exact spells_ofWord o hlength w.isLt

/-! ## Fields, whatever their windows -/

/-- Access to any field, through any coding that keeps to what it documents. No assertion
of the coding fails. Reading and writing succeed under the same condition, and a buffer
that cannot be written to stays as it is. What was written is read back as far as the
window has room for it, and nothing changes outside the window. -/
theorem get_set_of_documented {c : NumberCoding} (hc : c.Documented) (f : Field)
    (r : Representation) :
    (∀ b, c.get f r b = some (f.read r b) ∧
      ((∃ x, f.read r b = .ok x) ↔ f.Accessible r b.length)) ∧
    ∀ b v, ((∃ b', f.write r b v = .ok b') ↔ f.Accessible r b.length) ∧
      (∀ e, f.write r b v = .error e → c.set f r v b = some (.error e, b)) ∧
      ∀ b', f.write r b v = .ok b' → c.set f r v b = some (.ok (), b') ∧
        f.read r b' = .ok (.ofWord f.type ((v.convert f.type).toWord.low (f.span r).size)
          (f.span r).size) ∧
        b'.length = b.length ∧ ∀ j, ¬ f.Covers r j → b'.bit j = b.bit j := by
  refine ⟨fun b => ⟨hc.get_eq f r b, ?_⟩, fun b v => ⟨?_, fun e he => ?_, fun b' hb' => ?_⟩⟩
  · constructor
    · rintro ⟨x, hx⟩
      exact (Field.read_eq_ok hx).1
    · intro h
      exact ⟨_, Field.read_of_accessible h⟩
  · constructor
    · rintro ⟨b', hb'⟩
      exact (Field.write_eq_ok hb').1
    · intro h
      exact ⟨_, Field.write_eq h v⟩
  · rw [hc.set_eq, he]
  · obtain ⟨h, hstore⟩ := Field.write_eq_ok hb'
    have hlength : b'.length = b.length := by rw [hstore, Field.length_store]
    have haccessible : f.Accessible r b'.length := hlength.symm ▸ h
    refine ⟨?_, ?_, hlength, fun j hj => ?_⟩
    · rw [hc.set_eq, hb']
    · rw [Field.read_of_accessible haccessible, hstore, Field.valueIn_store _ h]
    · unfold Field.Covers at hj
      rw [hstore, Field.bit_store_of_outside _ h (by omega)]

/-- A number of three bytes in big-endian order that starts and ends within a byte. -/
def straddling : Field :=
  { name := "number", type := .sint .w32, table := none, native := ⟨0, 32⟩, wire := ⟨12, 24⟩
    order := .bigEndian, constant := none }

/-- Minus two is read back with its sign, and the bits at both ends stay set. -/
theorem get_set_of_documented_plain : plain.Documented ∧ ∃ b',
    plain.set straddling .wire (.sint .w32 (-2)) [0xFF, 0xFF, 0x00, 0x00, 0xFF] =
      some (.ok (), b') ∧
    plain.get straddling .wire b' = some (.ok (.sint .w32 (-2))) ∧ b'.length = 5 ∧
    b'.bit 11 = true ∧ b'.bit 36 = true := by
  obtain ⟨hget, hset⟩ := get_set_of_documented documented_plain straddling .wire
  obtain ⟨hok, -, hwritten⟩ := hset [0xFF, 0xFF, 0x00, 0x00, 0xFF] (.sint .w32 (-2))
  obtain ⟨b', hb'⟩ := hok.mpr ⟨by decide, by decide, by decide, by decide⟩
  obtain ⟨hrun, hread, hlength, hout⟩ := hwritten b' hb'
  have hvalue : Value.ofWord (.sint .w32)
      (((Value.sint .w32 (-2)).convert (.sint .w32)).toWord.low 24) 24 = .sint .w32 (-2) := by decide
  refine ⟨documented_plain, b', hrun, ?_, hlength, ?_, ?_⟩
  · rw [(hget b').1, hread]
    exact congrArg (fun v => some (Except.ok v)) hvalue
  · rw [hout 11 (by decide)]
    decide
  · rw [hout 36 (by decide)]
    decide

end NumberCoding

end WireRecord
