/-
# Golomb-Rice coding

The bit writer and the bit reader of `golomb.c`, and the code of a number as its quotient in unary
and its remainder in `P` bits.

* `Writes`, `Reads` : a writer and a reader by their strings of bits;
* `golombRiceDecode_of_bits` : the code of a number in front of any bits is read as the number.
-/
import Libdogecoin.BitString
import Libdogecoin.Serialize

namespace Libdogecoin

open BitString

/-- The bits of bytes, the highest of each byte first. -/
def bitsOf (data : Bytes) : List Bool := data.flatMap fun b => toBits 8 b.toNat

/-! ## The writer -/

/-- `gcs_bitwriter`. -/
structure GcsBitwriter where
  data : Bytes
  accumulator : UInt8
  nBits : ℕ

namespace GcsBitwriter

/-- `gcs_bitwriter_init`. -/
def init : GcsBitwriter := ⟨[], 0, 0⟩

/-- `gcs_bitwriter_write_bit`. -/
def writeBit (writer : GcsBitwriter) (bit : UInt8) : GcsBitwriter :=
  let accumulator := writer.accumulator ||| (bit &&& 1) <<< (7 - writer.nBits).toUInt8
  let nBits := writer.nBits + 1
  if nBits = 8 then ⟨writer.data ++ [accumulator], 0, 0⟩ else ⟨writer.data, accumulator, nBits⟩

/-- `gcs_bitwriter_write_bits_be`. -/
def writeBitsBe (writer : GcsBitwriter) (value : UInt64) : ℕ → GcsBitwriter
  | 0 => writer
  | nBits + 1 => writeBitsBe (writer.writeBit (value >>> nBits.toUInt64 &&& 1).toUInt8) value nBits

/-- `gcs_bitwriter_flush`, and the bytes behind it. -/
def flush (writer : GcsBitwriter) : Bytes :=
  if 0 < writer.nBits then writer.data ++ [writer.accumulator] else writer.data

/-- The ones of a quotient. -/
def writeOnes (writer : GcsBitwriter) : ℕ → GcsBitwriter
  | 0 => writer
  | quotient + 1 => writeOnes (writer.writeBit 1) quotient

/-- The bits that were written, while the free bits of the accumulator are zero. -/
structure Writes (writer : GcsBitwriter) (bits : List Bool) : Prop where
  lt : writer.nBits < 8
  bits : bits = bitsOf writer.data ++ (toBits 8 writer.accumulator.toNat).take writer.nBits
  free : ∀ b < 8 - writer.nBits, writer.accumulator.toNat.testBit b = false

end GcsBitwriter

/-- `golomb_rice_encode`. -/
def golombRiceEncode (writer : GcsBitwriter) (value : UInt64) (P : ℕ) : GcsBitwriter :=
  let quotient := value >>> P.toUInt64
  let remainder := value &&& ((1 <<< P.toUInt64) - 1)
  ((writer.writeOnes quotient.toNat).writeBit 0).writeBitsBe remainder P

/-! ## The reader -/

/-- `gcs_bitreader`. -/
structure GcsBitreader where
  data : Bytes
  accumulator : UInt8
  nBits : ℕ

namespace GcsBitreader

/-- `gcs_bitreader_init`. -/
def init (data : Bytes) : GcsBitreader := ⟨data, 0, 0⟩

/-- `gcs_bitreader_read_bit`. -/
def readBit (reader : GcsBitreader) : Option (UInt8 × GcsBitreader) :=
  match reader.nBits with
  | 0 =>
    match reader.data with
    | [] => none
    | b :: data => some (b >>> 7 &&& 1, ⟨data, b, 7⟩)
  | nBits + 1 => some (reader.accumulator >>> nBits.toUInt8 &&& 1,
      ⟨reader.data, reader.accumulator, nBits⟩)

/-- `gcs_bitreader_read_bits_be`. -/
def readBitsBe (reader : GcsBitreader) : ℕ → UInt64 → Option (UInt64 × GcsBitreader)
  | 0, result => some (result, reader)
  | nBits + 1, result =>
    reader.readBit.bind fun (bit, reader) => reader.readBitsBe nBits (result <<< 1 ||| bit.toUInt64)

/-- The bits that are left. -/
def bits (reader : GcsBitreader) : List Bool :=
  toBits reader.nBits reader.accumulator.toNat ++ bitsOf reader.data

/-- The ones of a quotient, with at most as many turns as there are bits left. -/
def readOnes : ℕ → GcsBitreader → UInt64 → Option (UInt64 × GcsBitreader)
  | 0, _, _ => none
  | fuel + 1, reader, quotient =>
    reader.readBit.bind fun (bit, reader) =>
      if bit = 0 then some (quotient, reader) else readOnes fuel reader (quotient + 1)

end GcsBitreader

/-- `golomb_rice_decode`. -/
def golombRiceDecode (reader : GcsBitreader) (P : ℕ) : Option (UInt64 × GcsBitreader) :=
  (reader.readOnes (8 * reader.data.length + reader.nBits + 1) 0).bind fun (quotient, reader) =>
    (reader.readBitsBe P 0).map fun (remainder, reader) =>
      (quotient <<< P.toUInt64 ||| remainder, reader)

/-! ## What is written -/

theorem length_bitsOf (data : Bytes) : (bitsOf data).length = 8 * data.length := by
  induction data with
  | nil => rfl
  | cons b data ih =>
    rw [bitsOf, List.flatMap_cons, List.length_append, length_toBits, ← bitsOf, ih,
      List.length_cons]
    omega

theorem bitsOf_append (data data' : Bytes) : bitsOf (data ++ data') = bitsOf data ++ bitsOf data' :=
  List.flatMap_append

namespace GcsBitwriter

theorem writes_init : Writes init [] where
  lt := by decide
  bits := rfl
  free := fun b _ => Nat.zero_testBit b

/-- The accumulator with one more bit. -/
theorem testBit_accumulator (accumulator bit : UInt8) {n : ℕ} (hn : n < 8) {i : ℕ} (hi : i < 8) :
    (accumulator ||| (bit &&& 1) <<< (7 - n).toUInt8).toNat.testBit i =
      (accumulator.toNat.testBit i || (decide (i = 7 - n) && bit.toNat.testBit 0)) := by
  have hshift : (7 - n).toUInt8.toNat % 8 = 7 - n := by
    have hsmall : (7 - n).toUInt8.toNat = 7 - n := by
      rw [Nat.toUInt8, UInt8.toNat_ofNat']
      omega
    omega
  rw [UInt8.toNat_or, UInt8.toNat_shiftLeft, hshift, UInt8.toNat_and, Nat.testBit_or,
    Nat.testBit_mod_two_pow,
    Nat.testBit_shiftLeft, Nat.testBit_and, decide_eq_true hi, Bool.true_and]
  congr 1
  rcases Nat.lt_trichotomy i (7 - n) with hlt | heq | hgt
  · rw [decide_eq_false (by omega), decide_eq_false (by omega), Bool.false_and, Bool.false_and]
  · subst heq
    rw [Nat.sub_self, UInt8.toNat_one, Nat.testBit_one_zero, Bool.and_true,
      decide_eq_true (le_refl _), decide_eq_true rfl]
  · have hone : Nat.testBit 1 (i - (7 - n)) = false := by
      rw [Bool.eq_false_iff]
      intro h
      have hzero := Nat.testBit_one_eq_true_iff_self_eq_zero.mp h
      omega
    rw [UInt8.toNat_one, hone, Bool.and_false, Bool.and_false, decide_eq_false (by omega),
      Bool.false_and]

variable {writer : GcsBitwriter} {bits : List Bool}

/-- **One bit** is written behind the others. -/
theorem Writes.writeBit (h : Writes writer bits) (bit : UInt8) :
    Writes (writer.writeBit bit) (bits ++ [bit.toNat.testBit 0]) := by
  have hlt := h.lt
  have hacc := fun i (hi : i < 8) => testBit_accumulator writer.accumulator bit hlt hi
  -- the first bits are kept, and the next one was free
  have htake : (toBits 8 (writer.accumulator ||| (bit &&& 1) <<<
    (7 - writer.nBits).toUInt8).toNat).take
      (writer.nBits + 1) = (toBits 8 writer.accumulator.toNat).take writer.nBits ++
        [bit.toNat.testBit 0] := by
    apply List.ext_getElem?
    intro j
    rcases Nat.lt_trichotomy j writer.nBits with hj | rfl | hj
    · rw [List.getElem?_take_of_lt (by omega), getElem?_toBits _ (by omega), hacc _ (by omega),
        List.getElem?_append_left (by rw [List.length_take, length_toBits]; omega),
          List.getElem?_take_of_lt hj,
        getElem?_toBits _ (by omega), decide_eq_false (by omega), Bool.false_and, Bool.or_false]
    · have hlen : ((toBits 8 writer.accumulator.toNat).take writer.nBits).length =
        writer.nBits := by
        rw [List.length_take, length_toBits]
        omega
      rw [List.getElem?_take_of_lt (by omega), getElem?_toBits _ (by omega), hacc _ (by omega),
        List.getElem?_append_right (by omega), hlen, Nat.sub_self,
          h.free _ (by omega), Bool.false_or,
        decide_eq_true (by omega), Bool.true_and]
      rfl
    · rw [List.getElem?_eq_none (by rw [List.length_take, length_toBits]; omega),
        List.getElem?_eq_none (by
          rw [List.length_append, List.length_take, length_toBits, List.length_singleton]; omega)]
  unfold GcsBitwriter.writeBit
  dsimp only
  split
  next hfull =>
    rw [hfull, List.take_of_length_le (by rw [length_toBits])] at htake
    refine ⟨Nat.zero_lt_succ 7, ?_, fun b _ => Nat.zero_testBit b⟩
    rw [h.bits, bitsOf_append, List.append_assoc, ← htake]
    simp [bitsOf]
  next hfull =>
    have hroom : writer.nBits + 1 < 8 := by omega
    refine ⟨hroom, ?_, ?_⟩
    · rw [h.bits, List.append_assoc, ← htake]
    · intro b hb
      dsimp only at hb
      rw [hacc b (by omega), h.free b (by omega), decide_eq_false (by omega),
        Bool.false_and, Bool.false_or]

theorem Writes.writeOnes (h : Writes writer bits) (quotient : ℕ) :
    Writes (writer.writeOnes quotient) (bits ++ List.replicate quotient true) := by
  induction quotient generalizing writer bits with
  | zero =>
    rw [List.replicate_zero, List.append_nil]
    exact h
  | succ quotient ih =>
    rw [List.replicate_succ, List.append_cons]
    exact ih (h.writeBit 1)

theorem Writes.writeBitsBe (h : Writes writer bits) (value : UInt64) {nBits : ℕ} (hn : nBits ≤ 64) :
    Writes (writer.writeBitsBe value nBits) (bits ++ toBits nBits value.toNat) := by
  induction nBits generalizing writer bits with
  | zero =>
    rw [toBits_zero, List.append_nil]
    exact h
  | succ nBits ih =>
    have hbit : ((value >>> nBits.toUInt64 &&& 1).toUInt8).toNat.testBit 0 =
      value.toNat.testBit nBits := by
      have hshift : nBits.toUInt64.toNat % 64 = nBits := by
        rw [Nat.toUInt64, UInt64.toNat_ofNat']
        omega
      rw [UInt64.toNat_toUInt8, UInt64.toNat_and, UInt64.toNat_shiftRight, hshift,
        Nat.testBit_mod_two_pow,
        Nat.testBit_and, Nat.testBit_shiftRight, UInt64.toNat_one, Nat.testBit_one_zero,
          Nat.add_zero, Bool.and_true]
      rfl
    rw [toBits_succ, List.append_cons, ← hbit]
    exact ih (h.writeBit _) (by omega)

/-- Behind the bits the last byte is filled up. -/
theorem Writes.flush (h : Writes writer bits) : ∃ pad, bitsOf writer.flush = bits ++ pad := by
  unfold GcsBitwriter.flush
  split
  · refine ⟨(toBits 8 writer.accumulator.toNat).drop writer.nBits, ?_⟩
    rw [h.bits, bitsOf_append, List.append_assoc, List.take_append_drop]
    simp [bitsOf]
  next hzero =>
    have hnone : writer.nBits = 0 := by omega
    refine ⟨[], ?_⟩
    rw [h.bits, hnone, List.take_zero, List.append_nil, List.append_nil]

end GcsBitwriter

/-- The code of a number. -/
def riceBits (P value : ℕ) : List Bool := List.replicate
    (value / 2 ^ P) true ++ false :: toBits P value

/-- **The encoder** writes the code behind the others. -/
theorem golombRiceEncode_writes {writer : GcsBitwriter} {bits : List Bool} (h : writer.Writes bits)
    (value : UInt64) {P : ℕ} (hP : P < 64) :
    (golombRiceEncode writer value P).Writes (bits ++ riceBits P value.toNat) := by
  have hshift : P.toUInt64.toNat % 64 = P := by
    rw [Nat.toUInt64, UInt64.toNat_ofNat']
    omega
  have hquotient : (value >>> P.toUInt64).toNat = value.toNat / 2 ^ P := by
    rw [UInt64.toNat_shiftRight, hshift, Nat.shiftRight_eq_div_pow]
  have hremainder : toBits P (value &&& ((1 <<< P.toUInt64) - 1)).toNat = toBits P value.toNat := by
    have hpow : ((1 : UInt64) <<< P.toUInt64).toNat = 2 ^ P := by
      rw [UInt64.toNat_shiftLeft, hshift, UInt64.toNat_one, Nat.one_shiftLeft]
      exact Nat.mod_eq_of_lt (Nat.pow_lt_pow_right (by decide) hP)
    have hmask : (((1 : UInt64) <<< P.toUInt64) - 1).toNat = 2 ^ P - 1 := by
      rw [UInt64.toNat_sub_of_le _ _ (UInt64.le_iff_toNat_le.mpr ?_), hpow, UInt64.toNat_one]
      rw [hpow, UInt64.toNat_one]
      exact Nat.one_le_two_pow
    apply toBits_congr
    intro b hb
    rw [UInt64.toNat_and, hmask, Nat.testBit_and, Nat.testBit_two_pow_sub_one,
      decide_eq_true hb, Bool.and_true]
  unfold golombRiceEncode
  dsimp only
  have hwrites := ((h.writeOnes (value >>> P.toUInt64).toNat).writeBit 0).writeBitsBe
    (value &&& ((1 <<< P.toUInt64) - 1)) (le_of_lt hP)
  rw [hquotient, hremainder] at hwrites
  have hcode : bits ++ List.replicate (value.toNat / 2 ^ P) true ++ [(0 : UInt8).toNat.testBit 0] ++
      toBits P value.toNat = bits ++ riceBits P value.toNat := by
    rw [riceBits]
    simp
  rw [hcode] at hwrites
  rwa [hquotient]

/-! ## What is read -/

namespace GcsBitreader

theorem length_bits (reader : GcsBitreader) :
    reader.bits.length = 8 * reader.data.length + reader.nBits := by
  rw [bits, List.length_append, length_toBits, length_bitsOf]
  omega

/-- The bit of a byte that is shifted down to the lowest one. -/
theorem shiftRight_and_one (b : UInt8) {n : ℕ} (hn : n < 8) :
    b >>> n.toUInt8 &&& 1 = if b.toNat.testBit n then 1 else 0 := by
  have hshift : n.toUInt8.toNat % 8 = n := by
    have hsmall : n.toUInt8.toNat = n := by
      rw [Nat.toUInt8, UInt8.toNat_ofNat']
      omega
    omega
  apply UInt8.toNat_inj.mp
  rw [UInt8.toNat_and, UInt8.toNat_shiftRight, hshift, UInt8.toNat_one, Nat.and_one_is_mod]
  have hbit := Nat.toNat_testBit b.toNat n
  rw [Nat.shiftRight_eq_div_pow, ← hbit]
  cases b.toNat.testBit n
  · rfl
  · rfl

variable {reader : GcsBitreader} {rest : List Bool}

/-- **One bit** is taken off the others. -/
theorem readBit_of_bits {b : Bool} (h : reader.bits = b :: rest) (hlt : reader.nBits ≤ 8) :
    ∃ reader', reader.readBit = some (if b then 1 else 0, reader') ∧ reader'.bits = rest ∧
    reader'.nBits ≤ 8 := by
  obtain ⟨data, accumulator, nBits⟩ := reader
  cases nBits with
  | zero =>
    cases data with
    | nil => cases h
    | cons byte data =>
      have hcons : toBits 8 byte.toNat ++ bitsOf data = b :: rest := h
      rw [toBits_succ, List.cons_append] at hcons
      obtain ⟨hb, hrest⟩ := List.cons.inj hcons
      refine ⟨⟨data, byte, 7⟩, ?_, hrest, Nat.le_succ 7⟩
      show some (byte >>> 7 &&& 1, _) = _
      rw [← hb, ← shiftRight_and_one byte (by decide)]
      rfl
  | succ nBits =>
    have hcons : toBits (nBits + 1) accumulator.toNat ++ bitsOf data = b :: rest := h
    rw [toBits_succ, List.cons_append] at hcons
    obtain ⟨hb, hrest⟩ := List.cons.inj hcons
    have hn : nBits < 8 := hlt
    refine ⟨⟨data, accumulator, nBits⟩, ?_, hrest, le_of_lt hn⟩
    show some (accumulator >>> nBits.toUInt8 &&& 1, _) = _
    rw [shiftRight_and_one accumulator hn, hb]

theorem readBitsBe_of_bits {bs : List Bool} (h : reader.bits = bs ++ rest) (hlt : reader.nBits ≤ 8)
    {result : UInt64} (hfits : result.toNat * 2 ^ bs.length + ofBits bs < 2 ^ 64) :
    ∃ value reader', reader.readBitsBe bs.length result = some (value, reader') ∧
      value.toNat = result.toNat * 2 ^ bs.length + ofBits bs ∧ reader'.bits = rest ∧
      reader'.nBits ≤ 8 := by
  induction bs generalizing reader result with
  | nil => exact ⟨result, reader, rfl, by simp [ofBits], h, hlt⟩
  | cons b bs ih =>
    obtain ⟨reader', hread, hbits, hlt'⟩ := readBit_of_bits h hlt
    rw [ofBits_cons, List.length_cons, pow_succ] at hfits
    have hpos : 0 < 2 ^ bs.length := Nat.two_pow_pos _
    have hnext : (result <<< 1 ||| (if b then 1 else 0 : UInt8).toUInt64).toNat =
      2 * result.toNat + b.toNat := by
      have hsmall : 2 * result.toNat < 2 ^ 64 := by
        have hle : 2 * result.toNat ≤ result.toNat * (2 ^ bs.length * 2) := by nlinarith
        omega
      have hdouble : (result <<< 1).toNat = result.toNat <<< 1 := by
        rw [UInt64.toNat_shiftLeft]
        show result.toNat <<< 1 % 2 ^ 64 = _
        rw [Nat.shiftLeft_eq, pow_one, Nat.mod_eq_of_lt (by omega)]
      have hbyte : (if b then 1 else 0 : UInt8).toUInt64.toNat = b.toNat := by
        cases b
        · rfl
        · rfl
      rw [UInt64.toNat_or, hdouble, hbyte, ← Nat.shiftLeft_add_eq_or_of_lt (by cases b <;> decide),
        Nat.shiftLeft_eq, pow_one, Nat.mul_comm]
    have hsum : (2 * result.toNat + b.toNat) * 2 ^ bs.length + ofBits bs =
        result.toNat * (2 ^ bs.length * 2) + (b.toNat * 2 ^ bs.length + ofBits bs) := by ring
    rw [← hsum, ← hnext] at hfits
    obtain ⟨value, reader'', hreads, hvalue, hrest, hlt''⟩ := ih hbits hlt' hfits
    refine ⟨value, reader'', ?_, ?_, hrest, hlt''⟩
    · rw [List.length_cons, readBitsBe, hread, Option.bind_some]
      exact hreads
    · rw [hvalue, hnext, hsum, ofBits_cons, List.length_cons, pow_succ]

/-- The ones in front of a zero are counted. -/
theorem readOnes_of_bits {n fuel : ℕ} (h : reader.bits = List.replicate n true ++ false :: rest)
    (hlt : reader.nBits ≤ 8) (hfuel : n < fuel) (quotient : UInt64) :
    ∃ reader', reader.readOnes fuel quotient = some (quotient + UInt64.ofNat n, reader') ∧
    reader'.bits = rest ∧
      reader'.nBits ≤ 8 := by
  induction n generalizing reader fuel quotient with
  | zero =>
    obtain ⟨fuel, rfl⟩ := Nat.exists_eq_succ_of_ne_zero (Nat.ne_of_gt hfuel)
    obtain ⟨reader', hread, hbits, hlt'⟩ := readBit_of_bits h hlt
    refine ⟨reader', ?_, hbits, hlt'⟩
    rw [readOnes, hread, Option.bind_some]
    dsimp only
    rw [if_neg Bool.false_ne_true, if_pos rfl]
    exact congrArg (fun q => some (q, reader')) (UInt64.add_zero quotient).symm
  | succ n ih =>
    obtain ⟨fuel, rfl⟩ := Nat.exists_eq_succ_of_ne_zero (Nat.ne_of_gt (Nat.zero_lt_of_lt hfuel))
    obtain ⟨reader', hread, hbits, hlt'⟩ := readBit_of_bits h hlt
    obtain ⟨reader'', hones, hrest, hlt''⟩ :=
      ih hbits hlt' (Nat.lt_of_succ_lt_succ hfuel) (quotient + 1)
    refine ⟨reader'', ?_, hrest, hlt''⟩
    rw [readOnes, hread, Option.bind_some]
    dsimp only
    rw [if_pos rfl, if_neg (by decide), hones, UInt64.add_assoc, UInt64.ofNat_add,
      UInt64.add_comm 1]
    rfl

end GcsBitreader

/-- **The decoder** reads the code of a number in front of any bits. -/
theorem golombRiceDecode_of_bits {reader : GcsBitreader} {value : UInt64} {P : ℕ}
    {rest : List Bool} (hP : P < 64) (h : reader.bits = riceBits P value.toNat ++ rest)
    (hlt : reader.nBits ≤ 8) :
    ∃ reader', golombRiceDecode reader P = some (value, reader') ∧ reader'.bits = rest ∧
    reader'.nBits ≤ 8 := by
  have hword := value.toNat_lt
  have hlength := GcsBitreader.length_bits reader
  rw [riceBits, List.append_assoc, List.cons_append] at h
  have hfuel : value.toNat / 2 ^ P < 8 * reader.data.length + reader.nBits + 1 := by
    rw [← hlength, h, List.length_append, List.length_replicate]
    omega
  obtain ⟨reader₁, hones, hbits₁, hlt₁⟩ := GcsBitreader.readOnes_of_bits h hlt hfuel 0
  have hremainder : ofBits (toBits P value.toNat) < 2 ^ P := by
    have hof := ofBits_lt (toBits P value.toNat)
    rwa [length_toBits] at hof
  have hpow : 2 ^ P < 2 ^ 64 := Nat.pow_lt_pow_right (by decide) hP
  have hfits : (0 : UInt64).toNat * 2 ^ (toBits P value.toNat).length +
    ofBits (toBits P value.toNat) < 2 ^ 64 := by
    rw [UInt64.toNat_zero, Nat.zero_mul]
    omega
  obtain ⟨remainder, reader₂, hreads, hvalue, hbits₂, hlt₂⟩ :=
    GcsBitreader.readBitsBe_of_bits hbits₁ hlt₁ hfits
  rw [length_toBits] at hreads hvalue
  refine ⟨reader₂, ?_, hbits₂, hlt₂⟩
  rw [golombRiceDecode, hones, Option.bind_some]
  dsimp only
  rw [hreads, Option.map_some]
  dsimp only
  -- the quotient is shifted above the remainder
  have hquotient : (0 + UInt64.ofNat (value.toNat / 2 ^ P)).toNat = value.toNat / 2 ^ P := by
    rw [UInt64.zero_add]
    exact UInt64.toNat_ofNat_of_lt' (lt_of_le_of_lt (Nat.div_le_self _ _) hword)
  have hshift : P.toUInt64.toNat % 64 = P := by
    rw [Nat.toUInt64, UInt64.toNat_ofNat']
    omega
  have hsmall : value.toNat / 2 ^ P * 2 ^ P < 2 ^ 64 :=
    lt_of_le_of_lt (Nat.div_mul_le_self _ _) hword
  have hjoin : ((0 + UInt64.ofNat (value.toNat / 2 ^ P)) <<< P.toUInt64 ||| remainder) = value := by
    apply UInt64.toNat_inj.mp
    rw [UInt64.toNat_or, UInt64.toNat_shiftLeft, hshift, hquotient, Nat.shiftLeft_eq,
      Nat.mod_eq_of_lt hsmall,
      hvalue, UInt64.toNat_zero, Nat.zero_mul, Nat.zero_add, ofBits_toBits, ← Nat.shiftLeft_eq,
      ← Nat.shiftLeft_add_eq_or_of_lt (Nat.mod_lt _ (Nat.two_pow_pos P)), Nat.shiftLeft_eq]
    exact Nat.div_add_mod' _ _
  rw [hjoin]

end Libdogecoin
