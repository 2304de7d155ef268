/-
# Base58 with a checksum

`base58.c` : a payload is written with the first four bytes of its double hash behind it as a base58
string, and is read back. A string is the list of its characters in front of the NUL.

* `base58Encode_eq` : the digits that are written, and what they spell;
* `decodeDigits_eq` : the number that is read fits into the words after the first, or reading fails;
* `base58DecodeCheck_encodeCheck_iff` : when a payload is read back.
-/
import Mathlib.Data.List.GetD
import Mathlib.Data.List.TakeWhile
import Mathlib.Tactic.NormNum
import Libdogecoin.Radix
import Libdogecoin.Serialize

namespace Libdogecoin

namespace Base58

open Radix (value mulAdd value_mulAdd value_mulAdd_of_lt)

/-! ## Encoding -/

/-- `b58digits_ordered`. -/
def b58digitsOrdered : Bytes :=
  [49, 50, 51, 52, 53, 54, 55, 56, 57, 65, 66, 67, 68, 69, 70, 71, 72, 74, 75, 76, 77, 78, 80,
    81, 82, 83, 84, 85, 86, 87, 88, 89, 90, 97, 98, 99, 100, 101, 102, 103, 104, 105, 106, 107, 109,
    110, 111, 112, 113, 114, 115, 116, 117, 118, 119, 120, 121, 122]

/-- The character of a digit. -/
def b58digit (d : ℕ) : UInt8 := b58digitsOrdered.getD d 0

/-- The loop over `j` for one byte, from an index downwards. The last index that is reached, and the
digits. -/
def encodeByte (high : ℕ) : ℕ → ℕ → List ℕ → ℕ × List ℕ
  | 0, carry, buf =>
    -- `if (!j) break`
    if 0 > high ∨ carry ≠ 0 then (0, buf.set 0 ((carry + 256 * buf.getD 0 0) % 58)) else (0, buf)
  | j + 1, carry, buf =>
    if j + 1 > high ∨ carry ≠ 0 then
      encodeByte high j ((carry + 256 * buf.getD (j + 1) 0) / 58)
        (buf.set (j + 1) ((carry + 256 * buf.getD (j + 1) 0) % 58))
    else (j + 1, buf)

/-- The loop over the bytes, on `high` and the digits. -/
def encodeBytes (size : ℕ) (bin : Bytes) (state : ℕ × List ℕ) : ℕ × List ℕ :=
  bin.foldl (fun s byte => encodeByte s.1 (size - 1) byte.toNat s.2) state

/-- `dogecoin_base58_encode` into a buffer of a size: the characters in front of the NUL, or the
size that is needed. -/
def base58Encode (b58sz : ℕ) (bin : Bytes) : Except ℕ Bytes :=
  let zcount := (bin.takeWhile (· = 0)).length
  let size := (bin.length - zcount) * 138 / 100 + 1
  let buf := (encodeBytes size (bin.drop zcount) (size - 1, List.replicate size 0)).2
  let j := (buf.takeWhile (· = 0)).length
  if b58sz ≤ zcount + size - j then .error (zcount + size - j + 1)
  else .ok (List.replicate zcount 49 ++ (buf.drop j).map b58digit)

/-- The four bytes of the double hash that go behind a payload. -/
def checksum (pf : Platform) (payload : Bytes) : Bytes := (pf.sha256d payload).1.take 4

/-- `dogecoin_base58_encode_check` : the characters in front of the NUL, or nothing where it returns
0. -/
def base58EncodeCheck (pf : Platform) (data : Bytes) (strsize : ℕ) : Option Bytes :=
  if data.length > 128 then none else (base58Encode strsize (data ++ checksum pf data)).toOption

/-! ## Decoding -/

/-- `b58digits_map`. -/
def b58digitsMap : List ℤ :=
  [-1, -1, -1, -1, -1, -1, -1, -1, -1, -1, -1, -1, -1, -1, -1, -1,
    -1, -1, -1, -1, -1, -1, -1, -1, -1, -1, -1, -1, -1, -1, -1, -1,
    -1, -1, -1, -1, -1, -1, -1, -1, -1, -1, -1, -1, -1, -1, -1, -1,
    -1, 0, 1, 2, 3, 4, 5, 6, 7, 8, -1, -1, -1, -1, -1, -1,
    -1, 9, 10, 11, 12, 13, 14, 15, 16, -1, 17, 18, 19, 20, 21, -1,
    22, 23, 24, 25, 26, 27, 28, 29, 30, 31, 32, -1, -1, -1, -1, -1,
    -1, 33, 34, 35, 36, 37, 38, 39, 40, 41, 42, 43, -1, 44, 45, 46,
    47, 48, 49, 50, 51, 52, 53, 54, 55, 56, 57, -1, -1, -1, -1, -1]

/-- The words to the right are done first, and the carry comes from them. -/
def mulAddWords : List UInt32 → UInt32 → List UInt32 × UInt32
  | [], c => ([], c)
  | w :: ws, c =>
    let low := mulAddWords ws c
    let t := w.toUInt64 * 58 + low.2.toUInt64
    (t.toUInt32 :: low.1, (t >>> 32).toUInt32)

/-- One character into `outi`. The loop over `j` ends in front of `outi[0]`. -/
def decodeDigit (zeromask : UInt32) (outi : List UInt32) (ch : UInt8) : Option (List UInt32) :=
  if ch &&& 0x80 ≠ 0 then none
  else if b58digitsMap.getD ch.toNat (-1) = -1 then none
  else
    let low := mulAddWords outi.tail (UInt32.ofNat (b58digitsMap.getD ch.toNat (-1)).toNat)
    if low.2 ≠ 0 then none
    else if outi.headD 0 &&& zeromask ≠ 0 then none
    else some (outi.headD 0 :: low.1)

/-- The low bytes of a word, the highest of them first. -/
def wordBytes (n : ℕ) (w : UInt32) : Bytes := (LittleEndian.toBytes n w.toNat).reverse

/-- `dogecoin_base58_decode` with a size: the bytes that are written, and the canonical size. -/
def base58Decode (binsz : ℕ) (b58 : Bytes) : Option (Bytes × ℕ) := do
  if binsz = 0 then none
  let outisz := (binsz + 3) / 4
  let bytesleft := binsz % 4
  let zeromask : UInt32 := if bytesleft ≠ 0 then 0xFFFFFFFF <<< UInt32.ofNat (bytesleft * 8) else 0
  let zerocount := (b58.takeWhile (· = 49)).length
  let outi ← (b58.drop zerocount).foldlM (decodeDigit zeromask) (List.replicate outisz 0)
  let bin := if bytesleft ≠ 0 then wordBytes bytesleft (outi.headD 0) ++
    outi.tail.flatMap (wordBytes 4) else outi.flatMap (wordBytes 4)
  let i := (bin.takeWhile (· = 0)).length
  if zerocount > i then none else some (bin, binsz - i + zerocount)

/-- The bytes at which the loop over the leading zeros ends, if it ends inside the data and the
string with its NUL. -/
def endOfZeros : Bytes → Bytes → Option (UInt8 × UInt8)
  | b :: binc, s :: base58str => if b = 0 ∧ s = 49 then endOfZeros binc base58str else some (b, s)
  | _, _ => none

/-- `dogecoin_b58check` on the start of a buffer. Nothing where bytes behind the buffer are read. -/
def b58check (pf : Platform) (buffer : Bytes) (binsz : ℕ) (base58str : Bytes) : Option ℤ :=
  if binsz < 4 then some (-4)
  else if (buffer.take binsz).drop (binsz - 4) ≠ checksum pf (buffer.take (binsz - 4)) then
    some (-1)
  else (endOfZeros buffer (base58str ++ [0])).map fun last =>
    if last.1 = 0 ∨ last.2 = 49 then -3 else (buffer.headD 0).toNat

/-- `dogecoin_base58_decode_check` into a buffer of a length: the size and the buffer, or nothing
where it returns 0. The outer `none` is a read behind the buffer. -/
def base58DecodeCheck (pf : Platform) (str : Bytes) (datalen : ℕ) : Option (Option (ℕ × Bytes)) :=
  let strl := min str.length 1024
  if strl > 128 ∨ datalen < strl then some none
  else
    let binhint := if strl + 4 > datalen then datalen else strl + 4
    match base58Decode binhint (str.take strl) with
    | none => some none
    | some (bin, binsize) =>
      let data := (bin.drop (binhint - binsize)).take binsize ++
        List.replicate (datalen - binsize) 0
      (b58check pf data binsize str).map fun ret => if ret < 0 then none else some (binsize, data)

/-! ## What the encoder writes -/

/-- The bytes behind the leading zeros. -/
def significant (bin : Bytes) : Bytes := bin.dropWhile (· = 0)

/-- The number a byte string spells, highest byte first. -/
def bytesValue (bin : Bytes) : ℕ := value 256 (bin.map UInt8.toNat)

variable {α : Type} {size d : ℕ} {bin : Bytes}

theorem drop_length_takeWhile (p : α → Bool) (l : List α) :
    l.drop (l.takeWhile p).length = l.dropWhile p := by
  have h := @List.drop_left _ (l.takeWhile p) (l.dropWhile p)
  rwa [List.takeWhile_append_dropWhile] at h

theorem length_takeWhile (p : α → Bool) (l : List α) :
    (l.takeWhile p).length + (l.dropWhile p).length = l.length := by
  rw [← List.length_append, List.takeWhile_append_dropWhile]

theorem takeWhile_zero (bin : Bytes) :
    bin.takeWhile (· = 0) = List.replicate (bin.takeWhile (· = 0)).length 0 := by
  refine List.eq_replicate_iff.mpr ⟨rfl, fun b hb => ?_⟩
  have h := List.mem_takeWhile_imp (p := fun b : UInt8 => decide (b = 0)) hb
  exact of_decide_eq_true h

theorem bytes_lt (bin : Bytes) : ∀ d ∈ bin.map UInt8.toNat, d < 256 := by
  intro d hd
  obtain ⟨b, -, rfl⟩ := List.mem_map.mp hd
  exact b.toNat_lt

theorem map_significant (bin : Bytes) :
    (significant bin).map UInt8.toNat = (bin.map UInt8.toNat).dropWhile (· = 0) := by
  have hzero : (fun b : UInt8 => decide (b = 0)) = (fun d : ℕ => decide (d = 0)) ∘ UInt8.toNat := by
    funext b
    exact decide_eq_decide.mpr UInt8.toNat_inj.symm
  rw [significant, hzero, List.dropWhile_map]

theorem bytesValue_significant (bin : Bytes) : bytesValue (significant bin) = bytesValue bin := by
  rw [bytesValue, map_significant, Radix.value_dropWhile, bytesValue]

theorem length_significant_le_iff (bin : Bytes) (k : ℕ) :
    (significant bin).length ≤ k ↔ bytesValue bin < 256 ^ k := by
  rw [← List.length_map (f := UInt8.toNat), map_significant,
    Radix.length_dropWhile_le_iff (by norm_num) (bytes_lt bin)]
  rfl

/-- The bytes behind the leading zeros are determined by the number. -/
theorem significant_eq_of_bytesValue {xs ys : Bytes} (h : bytesValue xs = bytesValue ys) :
    significant xs = significant ys := by
  apply List.map_injective_iff.mpr fun _ _ => UInt8.toNat_inj.mp
  rw [map_significant, map_significant, Radix.dropWhile_eq_digits (by norm_num) (bytes_lt xs),
    Radix.dropWhile_eq_digits (by norm_num) (bytes_lt ys)]
  exact congrArg (fun n => (Nat.digits 256 n).reverse) h

theorem getD_concat_self (xs : List ℕ) (d : ℕ) (ys : List ℕ) :
    ((xs ++ [d]) ++ ys).getD xs.length 0 = d := by
  rw [List.append_assoc, List.getD_append_right _ _ _ _ le_rfl, Nat.sub_self]
  rfl

theorem set_concat_self (xs : List ℕ) (d v : ℕ) (ys : List ℕ) :
    ((xs ++ [d]) ++ ys).set xs.length v = xs ++ v :: ys := by
  rw [List.append_assoc, List.set_append_right _ _ le_rfl, Nat.sub_self]
  rfl

/-- One byte: the digits up to an index are multiplied, and the digits up to the index that is left
stay zero as long as the first digit does. -/
theorem encodeByte_spec (high : ℕ) : ∀ (j carry : ℕ) (xs ys : List ℕ), xs.length = j + 1 →
    (∀ i ≤ high, xs.getD i 0 = 0) →
      (encodeByte high j carry (xs ++ ys)).2 = (mulAdd 58 256 xs carry).1 ++ ys ∧
      ((encodeByte high j carry (xs ++ ys)).2.getD 0 0 = 0 →
        ∀ i ≤ (encodeByte high j carry (xs ++ ys)).1,
          (encodeByte high j carry (xs ++ ys)).2.getD i 0 = 0) := by
  intro j
  induction j with
  | zero =>
    intro carry xs ys hlen hzero
    obtain ⟨d, rfl⟩ := List.length_eq_one_iff.mp hlen
    have hfirst : (encodeByte high 0 carry ([d] ++ ys)).1 = 0 := by
      unfold encodeByte
      split <;> rfl
    constructor
    · unfold encodeByte
      split
      · show ((carry + 256 * d) % 58) :: ys = (256 * d + carry) % 58 :: ys
        rw [Nat.add_comm]
      · rename_i hstop
        have hcarry : carry = 0 := by tauto
        have hd : d = 0 := hzero 0 (Nat.zero_le _)
        subst hcarry hd
        rfl
    · intro h i hi
      rw [hfirst, Nat.le_zero] at hi
      rw [hi]
      exact h
  | succ j ih =>
    intro carry xs ys hlen hzero
    obtain rfl | ⟨xs, d, rfl⟩ := List.eq_nil_or_concat xs
    · simp at hlen
    rw [List.concat_eq_append] at hlen hzero ⊢
    have hxs : xs.length = j + 1 := by simpa using hlen
    by_cases hstop : j + 1 > high ∨ carry ≠ 0
    · have hstep : encodeByte high (j + 1) carry ((xs ++ [d]) ++ ys) =
          encodeByte high j ((carry + 256 * d) / 58) (xs ++ (carry + 256 * d) % 58 :: ys) := by
        rw [encodeByte, if_pos hstop, ← hxs, getD_concat_self, set_concat_self]
      have hrest : ∀ i ≤ high, xs.getD i 0 = 0 := by
        intro i hi
        by_cases hlt : i < xs.length
        · rw [← List.getD_append xs [d] 0 i hlt]
          exact hzero i hi
        · exact List.getD_eq_default _ _ (by omega)
      rw [hstep, Radix.mulAdd_append]
      have hlow : mulAdd 58 256 [d] carry = ([(carry + 256 * d) % 58], (carry + 256 * d) / 58) := by
        rw [Nat.add_comm]
        rfl
      rw [hlow, List.append_assoc, List.singleton_append]
      exact ih _ xs _ hxs hrest
    · have hcarry : carry = 0 := by tauto
      have hhigh : j + 1 ≤ high := by omega
      have hall : ∀ x ∈ xs ++ [d], x = 0 := by
        intro x hx
        obtain ⟨i, hi, rfl⟩ := List.getElem_of_mem hx
        rw [← List.getD_eq_getElem _ 0 hi]
        exact hzero i (by omega)
      rw [encodeByte, if_neg hstop, hcarry, Radix.mulAdd_zeros _ hall]
      refine ⟨rfl, fun _ i hi => ?_⟩
      dsimp only at hi
      rw [List.getD_append _ _ _ _ (by omega)]
      exact hzero i (by omega)

/-- What holds of `high` and the digits after some bytes. -/
structure Encoded (size : ℕ) (bin : Bytes) (state : ℕ × List ℕ) : Prop where
  length : state.2.length = size
  digits : ∀ d ∈ state.2, d < 58
  value : value 58 state.2 = bytesValue bin
  zeros : ∀ i ≤ state.1, state.2.getD i 0 = 0

theorem bytesValue_concat (bin : Bytes) (b : UInt8) :
    bytesValue (bin ++ [b]) = 256 * bytesValue bin + b.toNat := by
  rw [bytesValue, List.map_append, List.map_singleton, Radix.value_concat, bytesValue]

/-- One more byte, as long as the number has room. -/
theorem Encoded.step {size : ℕ} {bin : Bytes} {state : ℕ × List ℕ} (h : Encoded size bin state)
    (hsize : 0 < size) {b : UInt8} (hfit : bytesValue (bin ++ [b]) < 58 ^ size) :
    (encodeByte state.1 (size - 1) b.toNat state.2).2 = (mulAdd 58 256 state.2 b.toNat).1 ∧
      Radix.value 58 (encodeByte state.1 (size - 1) b.toNat state.2).2 = bytesValue (bin ++ [b]) ∧
      (bytesValue (bin ++ [b]) < 58 ^ (size - 1) →
        Encoded size (bin ++ [b]) (encodeByte state.1 (size - 1) b.toNat state.2)) := by
  obtain ⟨hdigits, hzeros⟩ := encodeByte_spec state.1 (size - 1) b.toNat state.2 []
    (by rw [h.length]; omega) h.zeros
  rw [List.append_nil, List.append_nil] at hdigits
  rw [List.append_nil] at hzeros
  have hroom : 256 * Radix.value 58 state.2 + b.toNat < 58 ^ state.2.length := by
    rw [h.length, h.value, ← bytesValue_concat]
    exact hfit
  have hvalue : Radix.value 58 (encodeByte state.1 (size - 1) b.toNat state.2).2 =
    bytesValue (bin ++ [b]) := by
    rw [hdigits, (value_mulAdd_of_lt (by norm_num) hroom).2, h.value, bytesValue_concat]
  have hlength : (encodeByte state.1 (size - 1) b.toNat state.2).2.length = size := by
    rw [hdigits, Radix.length_mulAdd, h.length]
  refine ⟨hdigits, hvalue, fun hlt => ⟨hlength, ?_, hvalue, hzeros ?_⟩⟩
  · rw [hdigits]
    exact Radix.mulAdd_lt (by norm_num) _ _ _
  · generalize (encodeByte state.1 (size - 1) b.toNat state.2).2 = buf at hvalue hlength
    cases buf with
    | nil => rfl
    | cons d ds =>
      rw [Radix.value_cons] at hvalue
      have hds : ds.length = size - 1 := by rw [← hlength, List.length_cons, Nat.add_sub_cancel]
      rw [hds] at hvalue
      show d = 0
      by_contra hd
      have hle : 1 * 58 ^ (size - 1) ≤ d * 58 ^ (size - 1) :=
        Nat.mul_le_mul_right _ (Nat.one_le_iff_ne_zero.mpr hd)
      omega

theorem encoded_nil (size : ℕ) : Encoded size [] (size - 1, List.replicate size 0) where
  length := List.length_replicate
  digits := fun d hd => by rw [List.eq_of_mem_replicate hd]; norm_num
  value := Radix.value_replicate_zero size
  zeros := fun i _ => by
    rw [List.getD_eq_getElem?_getD, List.getElem?_replicate]
    split <;> rfl

theorem encodeBytes_concat (size : ℕ) (bin : Bytes) (b : UInt8) (state : ℕ × List ℕ) :
    encodeBytes size (bin ++ [b]) state =
      encodeByte (encodeBytes size bin state).1 (size - 1) b.toNat (encodeBytes size bin state).2 :=
  List.foldl_concat ..

/-- While the number has room behind the first digit, no digit is lost. -/
theorem encoded_encodeBytes (hsize : 0 < size) (bin : Bytes)
    (hfit : bytesValue bin < 58 ^ (size - 1)) :
    Encoded size bin (encodeBytes size bin (size - 1, List.replicate size 0)) := by
  induction bin using List.reverseRecOn with
  | nil => exact encoded_nil size
  | append_singleton bin b ih =>
    have hle : bytesValue bin ≤ bytesValue (bin ++ [b]) := by
      rw [bytesValue_concat]
      omega
    have hpow : 58 ^ (size - 1) ≤ 58 ^ size := Nat.pow_le_pow_right (by norm_num) (Nat.sub_le _ _)
    rw [encodeBytes_concat]
    exact ((ih (by omega)).step hsize (by omega)).2.2 hfit

/-- The estimated size has room for all bytes, and without its first digit for all but the last. -/
theorem size_bounds (n : ℕ) : 256 ^ n ≤ 58 ^ (n * 138 / 100 + 1) ∧
    (0 < n → 256 ^ (n - 1) ≤ 58 ^ (n * 138 / 100)) := by
  have hbase : 256 ^ 100 ≤ 58 ^ 138 := by norm_num
  have hpow : ∀ a k : ℕ, 138 * a ≤ 100 * k → 256 ^ a ≤ 58 ^ k := by
    intro a k hle
    have h : (256 ^ a) ^ 100 ≤ (58 ^ k) ^ 100 :=
      calc (256 ^ a) ^ 100 = (256 ^ 100) ^ a := Nat.pow_right_comm 256 a 100
        _ ≤ (58 ^ 138) ^ a := Nat.pow_le_pow_left hbase a
        _ = 58 ^ (138 * a) := (pow_mul 58 138 a).symm
        _ ≤ 58 ^ (k * 100) := Nat.pow_le_pow_right (by norm_num) (by omega)
        _ = (58 ^ k) ^ 100 := pow_mul 58 k 100
    exact (Nat.pow_le_pow_iff_left (by norm_num)).mp h
  exact ⟨hpow _ _ (by omega), fun hn => hpow _ _ (by omega)⟩

/-- **The digits.** All bytes together are written with their digits. -/
theorem encodeBytes_digits (bin : Bytes) (hsize : size = bin.length * 138 / 100 + 1) :
    (encodeBytes size bin (size - 1, List.replicate size 0)).2.length = size ∧
      (∀ d ∈ (encodeBytes size bin (size - 1, List.replicate size 0)).2, d < 58) ∧
      value 58 (encodeBytes size bin (size - 1, List.replicate size 0)).2 = bytesValue bin := by
  induction bin using List.reverseRecOn with
  | nil =>
    have h := encoded_nil size
    exact ⟨h.length, h.digits, h.value⟩
  | append_singleton init b _ =>
    obtain ⟨hall, hinit⟩ := size_bounds (init ++ [b]).length
    have hlength : (init ++ [b]).length = init.length + 1 := by simp
    have hpos : 0 < size := by omega
    have hinit_lt : bytesValue init < 58 ^ (size - 1) := by
      have hlt := Radix.value_lt (by norm_num) (bytes_lt init)
      have hle := hinit (by omega)
      rw [List.length_map] at hlt
      rw [show (init ++ [b]).length * 138 / 100 =
        size - 1 by omega, hlength, Nat.add_sub_cancel] at hle
      exact hlt.trans_le hle
    have hall_lt : bytesValue (init ++ [b]) < 58 ^ size := by
      have hlt := Radix.value_lt (by norm_num) (bytes_lt (init ++ [b]))
      rw [List.length_map] at hlt
      rw [← hsize] at hall
      exact hlt.trans_le hall
    have hencoded := encoded_encodeBytes hpos init hinit_lt
    obtain ⟨hdigits, hvalue, -⟩ := hencoded.step hpos hall_lt
    rw [encodeBytes_concat]
    refine ⟨?_, ?_, hvalue⟩
    · rw [hdigits, Radix.length_mulAdd, hencoded.length]
    · rw [hdigits]
      exact Radix.mulAdd_lt (by norm_num) _ _ _

/-- The digits of the number a byte string spells, without leading zeros. -/
def base58Digits (bin : Bytes) : List ℕ := (Nat.digits 58 (bytesValue bin)).reverse

/-- **Encoding.** A character for each leading zero byte, and a character for each digit. -/
theorem base58Encode_eq (b58sz : ℕ) (bin : Bytes) :
    base58Encode b58sz bin =
      if b58sz ≤ (bin.takeWhile (· = 0)).length + (base58Digits bin).length then
        .error ((bin.takeWhile (· = 0)).length + (base58Digits bin).length + 1)
      else .ok (List.replicate (bin.takeWhile (· = 0)).length 49 ++
        (base58Digits bin).map b58digit) := by
  obtain ⟨hlength, hdigits, hvalue⟩ := encodeBytes_digits (significant bin) rfl
  have hsplit := length_takeWhile (· = 0) bin
  have hsize : bin.length - (bin.takeWhile (· = 0)).length = (significant bin).length := by
    rw [significant]
    omega
  unfold base58Encode
  dsimp only
  rw [hsize, drop_length_takeWhile, ← significant]
  generalize (encodeBytes ((significant bin).length * 138 / 100 + 1) (significant bin)
    ((significant bin).length * 138 / 100 + 1 - 1,
      List.replicate ((significant bin).length * 138 / 100 + 1) 0)).2 = buf at *
  have hdrop : buf.drop (buf.takeWhile (· = 0)).length = base58Digits bin := by
    rw [drop_length_takeWhile, Radix.dropWhile_eq_digits (by norm_num) hdigits, hvalue,
      bytesValue_significant, base58Digits]
  have hcount := length_takeWhile (· = 0) buf
  rw [drop_length_takeWhile] at hdrop
  rw [drop_length_takeWhile, hdrop]
  rw [hdrop, hlength] at hcount
  have hneed : (bin.takeWhile (· = 0)).length + ((significant bin).length * 138 / 100 + 1) -
      (buf.takeWhile (· = 0)).length = (bin.takeWhile (· = 0)).length +
        (base58Digits bin).length := by omega
  rw [hneed]

/-! ## What the decoder reads -/

/-- Each digit has a character of its own, the zero alone has the character of a leading zero, and
no character is a NUL. -/
theorem b58digit_spec : ∀ d < 58, b58digit d &&& 0x80 = 0 ∧ b58digitsMap.getD
    (b58digit d).toNat (-1) = d ∧
    (b58digit d = 49 ↔ d = 0) := by
  decide

theorem mulAddWords_toNat (ws : List UInt32) (c : UInt32) :
    (mulAddWords ws c).1.map UInt32.toNat = (mulAdd (2 ^ 32) 58 (ws.map UInt32.toNat) c.toNat).1 ∧
      (mulAddWords ws c).2.toNat = (mulAdd (2 ^ 32) 58 (ws.map UInt32.toNat) c.toNat).2 := by
  induction ws with
  | nil => exact ⟨rfl, rfl⟩
  | cons w ws ih =>
    obtain ⟨hwords, hcarry⟩ := ih
    have hw := w.toNat_lt
    have hlow := (mulAddWords ws c).2.toNat_lt
    have ht : (w.toUInt64 * 58 + (mulAddWords ws c).2.toUInt64).toNat =
        58 * w.toNat + (mulAddWords ws c).2.toNat := by
      rw [UInt64.toNat_add, UInt64.toNat_mul, UInt32.toNat_toUInt64, UInt32.toNat_toUInt64]
      show (w.toNat * 58 % 2 ^ 64 + _) % 2 ^ 64 = _
      omega
    simp only [mulAddWords, List.map_cons, mulAdd]
    rw [hwords, ← hcarry, UInt64.toNat_toUInt32, UInt64.toNat_toUInt32, UInt64.toNat_shiftRight, ht]
    refine ⟨rfl, ?_⟩
    rw [show (32 : UInt64).toNat % 64 = 32 from rfl, Nat.shiftRight_eq_div_pow]
    exact Nat.mod_eq_of_lt (by omega)

/-- The number that words spell. -/
def wordsValue (ws : List UInt32) : ℕ := value (2 ^ 32) (ws.map UInt32.toNat)

theorem length_mulAddWords (ws : List UInt32) (c : UInt32) :
    (mulAddWords ws c).1.length = ws.length := by
  rw [← List.length_map (f := UInt32.toNat), (mulAddWords_toNat ws c).1, Radix.length_mulAdd,
    List.length_map]

/-- One digit is read if and only if the number still fits into the words after the first. -/
theorem decodeDigit_eq (zeromask : UInt32) (ws : List UInt32) (hd : d < 58) :
    decodeDigit zeromask (0 :: ws) (b58digit d) =
      if 58 * wordsValue ws + d < (2 ^ 32) ^ ws.length then
        some (0 :: (mulAddWords ws (UInt32.ofNat d)).1)
      else none := by
  obtain ⟨hhigh, hmap, -⟩ := b58digit_spec d hd
  have hdigit : (UInt32.ofNat d).toNat = d := UInt32.toNat_ofNat_of_lt' (show d < 2 ^ 32 by omega)
  have hcarry : (mulAddWords ws (UInt32.ofNat d)).2 = 0 ↔ 58 * wordsValue ws + d <
    (2 ^ 32) ^ ws.length := by
    rw [← UInt32.toNat_inj, (mulAddWords_toNat ws _).2, Radix.mulAdd_carry (by norm_num), hdigit,
      List.length_map]
    show _ / _ = 0 ↔ _
    rw [Nat.div_eq_zero_iff]
    exact or_iff_right (by positivity)
  unfold decodeDigit
  rw [if_neg (not_not.mpr hhigh), hmap, if_neg (by omega)]
  dsimp only
  rw [List.tail_cons, List.headD_cons, Int.toNat_natCast, UInt32.zero_and,
    if_neg (fun h : (0 : UInt32) ≠ 0 => h rfl)]
  by_cases hfits : 58 * wordsValue ws + d < (2 ^ 32) ^ ws.length
  · rw [if_neg (not_not.mpr (hcarry.mpr hfits)), if_pos hfits]
  · rw [if_pos fun h => hfits (hcarry.mp h), if_neg hfits]

/-- The number in the words after a digit that was read. -/
theorem wordsValue_mulAddWords {ws : List UInt32} (hd : d < 58)
    (hfits : 58 * wordsValue ws + d < (2 ^ 32) ^ ws.length) :
    wordsValue (mulAddWords ws (UInt32.ofNat d)).1 = 58 * wordsValue ws + d := by
  have hdigit : (UInt32.ofNat d).toNat = d := UInt32.toNat_ofNat_of_lt' (show d < 2 ^ 32 by omega)
  rw [wordsValue, (mulAddWords_toNat ws _).1, hdigit]
  exact (value_mulAdd_of_lt (by norm_num) (by rwa [List.length_map])).2

/-- **Reading digits.** The number that is read fits into the words after the first, or reading
fails. -/
theorem decodeDigits_eq (zeromask : UInt32) :
    ∀ (ds : List ℕ) (ws : List UInt32), (∀ d ∈ ds, d < 58) →
    if wordsValue ws * 58 ^ ds.length + value 58 ds < (2 ^ 32) ^ ws.length then
      ∃ ws', (ds.map b58digit).foldlM (decodeDigit zeromask) (0 :: ws) = some (0 :: ws') ∧
        ws'.length = ws.length ∧ wordsValue ws' = wordsValue ws * 58 ^ ds.length + value 58 ds
    else (ds.map b58digit).foldlM (decodeDigit zeromask) (0 :: ws) = none := by
  intro ds
  induction ds with
  | nil =>
    intro ws _
    have hlt : wordsValue ws < (2 ^ 32) ^ ws.length := by
      have h := @Radix.value_lt (2 ^ 32) (by norm_num) (ws.map UInt32.toNat) fun x hx => by
        obtain ⟨w, -, rfl⟩ := List.mem_map.mp hx
        exact w.toNat_lt
      rwa [List.length_map] at h
    rw [List.length_nil, pow_zero, Nat.mul_one, Radix.value_nil, Nat.add_zero, if_pos hlt]
    exact ⟨ws, rfl, rfl, rfl⟩
  | cons d ds ih =>
    intro ws hds
    have hd : d < 58 := hds d List.mem_cons_self
    have htotal : wordsValue ws * 58 ^ (d :: ds).length + value 58 (d :: ds) =
        (58 * wordsValue ws + d) * 58 ^ ds.length + value 58 ds := by
      rw [Radix.value_cons, List.length_cons, pow_succ]
      ring
    rw [htotal, List.map_cons, List.foldlM_cons, decodeDigit_eq zeromask ws hd]
    by_cases hfits : 58 * wordsValue ws + d < (2 ^ 32) ^ ws.length
    · rw [if_pos hfits]
      have hrest := ih (mulAddWords ws (UInt32.ofNat d)).1 fun x hx =>
        hds x (List.mem_cons_of_mem _ hx)
      rwa [wordsValue_mulAddWords hd hfits, length_mulAddWords] at hrest
    · have hlarge : ¬ (58 * wordsValue ws + d) * 58 ^ ds.length + value 58 ds <
        (2 ^ 32) ^ ws.length := by
        have hpos : 0 < 58 ^ ds.length := by positivity
        have hle : 58 * wordsValue ws + d ≤ (58 * wordsValue ws + d) * 58 ^ ds.length :=
          Nat.le_mul_of_pos_right _ hpos
        omega
      rw [if_neg hfits, if_neg hlarge]
      rfl

/-! ## The bytes of the words -/

theorem length_wordBytes (n : ℕ) (w : UInt32) : (wordBytes n w).length = n := by
  rw [wordBytes, List.length_reverse, LittleEndian.length_toBytes]

theorem wordBytes_zero (n : ℕ) : wordBytes n 0 = List.replicate n 0 := by
  have h : ∀ n, LittleEndian.toBytes n 0 = List.replicate n 0 := by
    intro n
    induction n with
    | zero => rfl
    | succ n ih => rw [LittleEndian.toBytes, Nat.zero_div, ih, List.replicate_succ]; rfl
  rw [wordBytes, UInt32.toNat_zero, h, List.reverse_replicate]

theorem bytesValue_flatMap (ws : List UInt32) :
    bytesValue (ws.flatMap (wordBytes 4)) = wordsValue ws := by
  rw [bytesValue, List.map_flatMap, wordsValue, show (2 : ℕ) ^ 32 = 256 ^ 4 by norm_num]
  apply Radix.value_flatMap UInt32.toNat (fun w => (wordBytes 4 w).map UInt8.toNat)
  · intro w
    rw [List.length_map, length_wordBytes]
  · intro w
    rw [value, wordBytes, ← List.map_reverse, List.reverse_reverse]
    exact LittleEndian.ofBytes_toBytes_of_lt w.toNat_lt

theorem bytesValue_zeros_append (n : ℕ) (bin : Bytes) :
    bytesValue (List.replicate n 0 ++ bin) = bytesValue bin := by
  rw [bytesValue, List.map_append, List.map_replicate, Radix.value_append]
  show value 256 (List.replicate n 0) * _ + _ = _
  rw [Radix.value_replicate_zero, Nat.zero_mul, Nat.zero_add, bytesValue]

/-- The bytes that are written for words whose first is zero. -/
theorem bytes_of_words {binsz : ℕ} {ws : List UInt32} (hws : ws.length + 1 = (binsz + 3) / 4) :
    let bin := if binsz % 4 ≠ 0 then wordBytes (binsz % 4) 0 ++ ws.flatMap (wordBytes 4)
      else (0 :: ws).flatMap (wordBytes 4)
    bin.length = binsz ∧ bytesValue bin = wordsValue ws := by
  have hlength : ∀ ws : List UInt32, (ws.flatMap (wordBytes 4)).length = 4 * ws.length := by
    intro ws
    rw [List.length_flatMap]
    simp only [length_wordBytes, List.map_const', List.sum_replicate_nat, Nat.mul_comm]
  intro bin
  by_cases hleft : binsz % 4 ≠ 0
  · have hbin : bin = List.replicate (binsz % 4) 0 ++ ws.flatMap (wordBytes 4) := by
      rw [← wordBytes_zero]
      exact if_pos hleft
    rw [hbin, List.length_append, List.length_replicate, hlength, bytesValue_zeros_append,
      bytesValue_flatMap]
    exact ⟨by omega, rfl⟩
  · have hbin : bin = List.replicate 4 0 ++ ws.flatMap (wordBytes 4) := by
      rw [← wordBytes_zero, ← List.flatMap_cons]
      exact if_neg hleft
    rw [hbin, List.length_append, List.length_replicate, hlength, bytesValue_zeros_append,
      bytesValue_flatMap]
    exact ⟨by omega, rfl⟩

/-! ## Reading back -/

theorem base58Digits_lt (bin : Bytes) : ∀ d ∈ base58Digits bin, d < 58 := fun _ hd =>
  Nat.digits_lt_base (by norm_num) (List.mem_reverse.mp hd)

theorem value_base58Digits (bin : Bytes) : value 58 (base58Digits bin) = bytesValue bin := by
  rw [base58Digits, value, List.reverse_reverse, Nat.ofDigits_digits]

/-- The first digit is not a zero, so its character is not that of a leading zero. -/
theorem base58Digits_head (bin : Bytes) :
    ∀ ch ∈ ((base58Digits bin).map b58digit).head?, ch ≠ 49 := by
  intro ch hch
  obtain ⟨d, hd, rfl⟩ := Option.mem_map.mp (List.head?_map .. ▸ hch)
  have hmem : d ∈ base58Digits bin := List.mem_of_mem_head? hd
  have hlast : d ∈ (Nat.digits 58 (bytesValue bin)).getLast? := by
    rwa [base58Digits, List.head?_reverse] at hd
  have hne : d ≠ 0 := by
    obtain ⟨hdigits, rfl⟩ := List.mem_getLast?_eq_getLast hlast
    exact Nat.getLast_digit_ne_zero 58 (Nat.digits_ne_nil_iff_ne_zero.mp hdigits)
  exact fun h => hne ((b58digit_spec d (base58Digits_lt bin d hmem)).2.2.mp h)

theorem takeWhile_replicate_append [DecidableEq α] (n : ℕ) (a : α) {l : List α}
    (hl : ∀ x ∈ l.head?, x ≠ a) :
    (List.replicate n a ++ l).takeWhile (· = a) = List.replicate n a := by
  have hall : ∀ x ∈ List.replicate n a, decide (x = a) = true := fun x hx =>
    decide_eq_true (List.eq_of_mem_replicate hx)
  rw [List.takeWhile_append_of_pos hall]
  cases l with
  | nil => exact List.append_nil _
  | cons x l =>
    have hx : x ≠ a := hl x rfl
    rw [List.takeWhile_cons, if_neg (by simpa using hx), List.append_nil]

/-- The number of base58 digits is at least the number of bytes. -/
theorem length_significant_le_digits (bin : Bytes) :
    (significant bin).length ≤ (base58Digits bin).length := by
  have hlt : bytesValue bin < 58 ^ (base58Digits bin).length := by
    rw [base58Digits, List.length_reverse, ← Nat.digits_length_le_iff (by norm_num)]
  exact (length_significant_le_iff bin _).mpr (hlt.trans_le (Nat.pow_le_pow_left (by norm_num) _))

/-- The string for bytes with their leading zeros. -/
def base58String (bin : Bytes) : Bytes :=
  List.replicate (bin.takeWhile (· = 0)).length 49 ++ (base58Digits bin).map b58digit

theorem length_base58String (bin : Bytes) :
    (base58String bin).length = (bin.takeWhile (· = 0)).length + (base58Digits bin).length := by
  rw [base58String, List.length_append, List.length_replicate, List.length_map]

theorem base58String_valid (bin : Bytes) : ∀ ch ∈ base58String bin, ch ∈ b58digitsOrdered := by
  have hdigit : ∀ d < 58, b58digit d ∈ b58digitsOrdered := by decide
  intro ch hch
  rcases List.mem_append.mp hch with hzero | hdigits
  · rw [List.eq_of_mem_replicate hzero]
    decide
  · obtain ⟨d, hd, rfl⟩ := List.mem_map.mp hdigits
    exact hdigit d (base58Digits_lt bin d hd)

/-- The string of 25 bytes of which the first is neither zero nor too large. -/
theorem length_base58String_le {b : UInt8} {rest : Bytes} (hb : b ≠ 0) (hle : b.toNat ≤ 113)
    (hrest : rest.length = 24) :
    (base58String (b :: rest)).length ≤ 34 := by
  have hvalue : bytesValue (b :: rest) = b.toNat * 256 ^ 24 + bytesValue rest := by
    unfold bytesValue
    rw [List.map_cons, Radix.value_cons, List.length_map, hrest]
  have hlt : bytesValue rest < 256 ^ 24 := by
    have h := Radix.value_lt (by norm_num) (bytes_lt rest)
    rwa [List.length_map, hrest] at h
  have hdigits : (base58Digits (b :: rest)).length ≤ 34 := by
    rw [base58Digits, List.length_reverse, Nat.digits_length_le_iff (by norm_num), hvalue]
    calc b.toNat * 256 ^ 24 + bytesValue rest < b.toNat * 256 ^ 24 + 256 ^ 24 := by omega
      _ ≤ 113 * 256 ^ 24 + 256 ^ 24 := Nat.add_le_add_right (Nat.mul_le_mul_right _ hle) _
      _ ≤ 58 ^ 34 := by norm_num
  rw [length_base58String, List.takeWhile_cons, if_neg (by simpa using hb)]
  simpa using hdigits

theorem length_le_base58String (bin : Bytes) : bin.length ≤ (base58String bin).length := by
  have hsplit := length_takeWhile (· = 0) bin
  have hdigits := length_significant_le_digits bin
  rw [length_base58String]
  rw [significant] at hdigits
  omega

/-- The bytes that were written spell the number with its size, and behind their zeros are the
significant ones. -/
theorem canonical_size {out : Bytes} (hroom : bin.length ≤ out.length)
    (hvalue : bytesValue out = bytesValue bin) :
    (if (bin.takeWhile (· = 0)).length > (out.takeWhile (· = 0)).length then none
      else some (out, out.length - (out.takeWhile (· = 0)).length +
        (bin.takeWhile (· = 0)).length)) =
      some (List.replicate (out.length - (significant bin).length) 0 ++ significant bin,
        bin.length) := by
  have hsignificant : significant out = significant bin := significant_eq_of_bytesValue hvalue
  have hbin := length_takeWhile (· = 0) bin
  have hout := length_takeWhile (· = 0) out
  rw [← significant] at hbin
  rw [← significant, hsignificant] at hout
  have hzeros : out.takeWhile (· = 0) =
    List.replicate (out.length - (significant bin).length) 0 := by
    rw [takeWhile_zero out]
    exact congrArg (List.replicate · 0) (by omega)
  have heq : List.replicate (out.length - (significant bin).length) 0 ++ significant bin = out := by
    rw [← hzeros, ← hsignificant, significant, List.takeWhile_append_dropWhile]
  have hsize : out.length - (out.takeWhile (· = 0)).length + (bin.takeWhile (· = 0)).length =
    bin.length := by omega
  rw [if_neg (by omega), hsize, heq]

/-- **Decoding.** The bytes are found again, behind zeros, if and only if those behind the leading
zeros fit into the words after the first. -/
theorem base58Decode_base58String {bin : Bytes} {binsz : ℕ} (hpos : 0 < binsz)
    (hroom : bin.length ≤ binsz) :
    base58Decode binsz (base58String bin) =
      if (significant bin).length ≤ 4 * ((binsz - 1) / 4) then
        some (List.replicate (binsz - (significant bin).length) 0 ++ significant bin, bin.length)
      else none := by
  have hcount : ((base58String bin).takeWhile (· = 49)).length =
    (bin.takeWhile (· = 0)).length := by
    rw [base58String, takeWhile_replicate_append _ _ (base58Digits_head bin), List.length_replicate]
  have hdrop : (base58String bin).drop (bin.takeWhile (· = 0)).length =
    (base58Digits bin).map b58digit := by
    have h := @List.drop_left _ (List.replicate (bin.takeWhile (· = 0)).length (49 : UInt8))
      ((base58Digits bin).map b58digit)
    rwa [List.length_replicate] at h
  have hsplit := length_takeWhile (· = 0) bin
  have hwords : (binsz + 3) / 4 = (binsz - 1) / 4 + 1 := by omega
  have hzero : wordsValue (List.replicate ((binsz - 1) / 4) 0) = 0 := by
    rw [wordsValue, List.map_replicate]
    exact Radix.value_replicate_zero _
  have hread := decodeDigits_eq
    (if binsz % 4 ≠ 0 then 0xFFFFFFFF <<< UInt32.ofNat (binsz % 4 * 8) else 0)
    (base58Digits bin) (List.replicate ((binsz - 1) / 4) 0) (base58Digits_lt bin)
  have hfits : (significant bin).length ≤ 4 * ((binsz - 1) / 4) ↔
    bytesValue bin < (2 ^ 32) ^ ((binsz - 1) / 4) := by
    rw [length_significant_le_iff, pow_mul, show (256 : ℕ) ^ 4 = 2 ^ 32 by norm_num]
  rw [hzero, Nat.zero_mul, Nat.zero_add, value_base58Digits, List.length_replicate] at hread
  unfold base58Decode
  rw [if_neg (by omega)]
  dsimp only
  rw [hcount, hdrop, hwords, List.replicate_succ]
  by_cases hlt : bytesValue bin < (2 ^ 32) ^ ((binsz - 1) / 4)
  · rw [if_pos hlt] at hread
    obtain ⟨ws, hfold, hlength, hvalue⟩ := hread
    obtain ⟨hbinsz, hbytes⟩ := @bytes_of_words binsz ws (by omega)
    rw [hfold, if_pos (hfits.mpr hlt), Option.bind_eq_bind, Option.bind_some]
    have hcanonical := canonical_size (hroom.trans_eq hbinsz.symm) (hbytes.trans hvalue)
    rw [hbinsz] at hcanonical
    exact hcanonical
  · rw [if_neg hlt] at hread
    rw [hread, if_neg fun h => hlt (hfits.mp h)]
    rfl

theorem endOfZeros_zeros (n : ℕ) (binc base58str : Bytes) :
    endOfZeros (List.replicate n 0 ++ binc) (List.replicate n 49 ++ base58str) =
      endOfZeros binc base58str := by
  induction n with
  | zero => rfl
  | succ n ih =>
    rw [List.replicate_succ, List.replicate_succ, List.cons_append, List.cons_append, endOfZeros,
      if_pos ⟨rfl, rfl⟩, ih]

theorem zeros_append_significant (bin : Bytes) :
    List.replicate (bin.takeWhile (· = 0)).length 0 ++ significant bin = bin := by
  rw [← takeWhile_zero, significant, List.takeWhile_append_dropWhile]

/-- The buffer is moved so that its zeros are those of the bytes. -/
theorem take_drop_zeros {binsz : ℕ} (hroom : bin.length ≤ binsz) :
    ((List.replicate (binsz - (significant bin).length) 0 ++ significant bin).drop
      (binsz - bin.length)).take bin.length = bin := by
  have hsplit := length_takeWhile (· = 0) bin
  rw [← significant] at hsplit
  have hskip : binsz - (significant bin).length =
      (binsz - bin.length) + (bin.takeWhile (· = 0)).length := by omega
  have hdrop := @List.drop_left _ (List.replicate (binsz - bin.length) (0 : UInt8))
    (List.replicate (bin.takeWhile (· = 0)).length 0 ++ significant bin)
  rw [List.length_replicate, zeros_append_significant] at hdrop
  rw [hskip, ← List.replicate_append_replicate, List.append_assoc, zeros_append_significant, hdrop,
    List.take_length]

theorem significant_head (bin : Bytes) : ∀ b ∈ (significant bin).head?, b ≠ 0 := by
  intro b hb hzero
  have h := List.head?_dropWhile_not (fun b : UInt8 => decide (b = 0)) bin
  rw [← significant, Option.mem_def.mp hb] at h
  simp [hzero] at h

/-- The count of the leading zeros, in a buffer that starts with the bytes and the string for them:
it is right if and only if there is a byte other than zero. -/
theorem endOfZeros_base58String (bin : Bytes) (k : ℕ) :
    (∃ last, endOfZeros (bin ++ List.replicate k 0) (base58String bin ++ [0]) = some last ∧
      ¬ (last.1 = 0 ∨ last.2 = 49)) ↔ significant bin ≠ [] := by
  have hbin : endOfZeros (bin ++ List.replicate k 0) (base58String bin ++ [0]) =
      endOfZeros (significant bin ++ List.replicate k 0)
        ((base58Digits bin).map b58digit ++ [0]) := by
    rw [base58String]
    nth_rewrite 1 [← zeros_append_significant bin]
    rw [List.append_assoc, List.append_assoc, endOfZeros_zeros]
  have hhead := significant_head bin
  have hdigits := base58Digits_head bin
  have hlength := length_significant_le_digits bin
  have hdigits_nil : significant bin = [] → base58Digits bin = [] := by
    intro h
    have hvalue := bytesValue_significant bin
    rw [h] at hvalue
    rw [base58Digits, ← hvalue]
    rfl
  rw [hbin]
  cases hsig : significant bin with
  | nil =>
    rw [hdigits_nil hsig]
    refine iff_of_false ?_ fun h => h rfl
    rintro ⟨last, hlast, hnot⟩
    cases k with
    | zero => cases hlast
    | succ k =>
      have hend : endOfZeros ([] ++ List.replicate (k + 1) 0) (([] : List ℕ).map b58digit ++ [0]) =
        some (0, 0) := rfl
      rw [hend] at hlast
      cases hlast
      exact hnot (Or.inl rfl)
  | cons b bs =>
    rw [hsig] at hhead hlength
    have hb : b ≠ 0 := hhead b rfl
    cases hds : (base58Digits bin).map b58digit with
    | nil =>
      rw [List.map_eq_nil_iff.mp hds] at hlength
      simp at hlength
    | cons ch chs =>
      rw [hds] at hdigits
      have hch : ch ≠ 49 := hdigits ch rfl
      refine iff_of_true ⟨(b, ch), ?_, fun h => h.elim hb hch⟩ (List.cons_ne_nil _ _)
      rw [List.cons_append, List.cons_append, endOfZeros, if_neg fun h => hb h.1]

/-- What `dogecoin_b58check` says about a payload that is followed by its checksum. -/
theorem b58check_iff (pf : Platform) (payload : Bytes) (k : ℕ) :
    (∃ ret, b58check pf (payload ++ checksum pf payload ++ List.replicate k 0) (payload.length + 4)
        (base58String (payload ++ checksum pf payload)) = some ret ∧ ¬ ret < 0) ↔
      significant (payload ++ checksum pf payload) ≠ [] := by
  have hchecksum : (checksum pf payload).length =
    4 := by rw [checksum, List.length_take, (pf.sha256d payload).2]; rfl
  have hlength : (payload ++ checksum pf payload).length =
    payload.length + 4 := by rw [List.length_append, hchecksum]
  have htake : (payload ++ checksum pf payload ++ List.replicate k 0).take (payload.length + 4) =
      payload ++ checksum pf payload := by rw [← hlength, List.take_left]
  have hpayload : (payload ++ checksum pf payload ++ List.replicate k 0).take payload.length =
    payload := by
    rw [List.append_assoc, List.take_left]
  rw [← endOfZeros_base58String _ k]
  unfold b58check
  rw [if_neg (by omega), Nat.add_sub_cancel, htake, hpayload, List.drop_left, if_neg fun h => h rfl]
  constructor
  · rintro ⟨ret, hret, hnonneg⟩
    obtain ⟨last, hlast, rfl⟩ := Option.map_eq_some_iff.mp hret
    refine ⟨last, hlast, fun h => hnonneg ?_⟩
    rw [if_pos h]
    norm_num
  · rintro ⟨last, hlast, hnot⟩
    refine ⟨_, by rw [hlast]; rfl, ?_⟩
    dsimp only
    rw [if_neg hnot]
    exact Int.not_lt.mpr (Int.natCast_nonneg _)

/-- **Reading a payload back.** The string is read back as the payload and its checksum if and only
if they are not all zero and the bytes behind their leading zeros fit into the words after the
first. -/
theorem base58DecodeCheck_encodeCheck_iff (pf : Platform) {payload str : Bytes}
    {strsize datalen : ℕ} (hstr : base58EncodeCheck pf payload strsize = some str)
    (hfits : str.length ≤ 128)
    (hdatalen : str.length ≤ datalen) :
    (∃ rest, base58DecodeCheck pf str datalen =
        some (some (payload.length + 4, payload ++ checksum pf payload ++ rest))) ↔
      significant (payload ++ checksum pf payload) ≠ [] ∧
        (significant (payload ++ checksum pf payload)).length ≤ 4 * ((datalen - 1) / 4) := by
  have hchecksum : (checksum pf payload).length =
    4 := by rw [checksum, List.length_take, (pf.sha256d payload).2]; rfl
  have hlength : (payload ++ checksum pf payload).length =
    payload.length + 4 := by rw [List.length_append, hchecksum]
  have hbase58 : str = base58String (payload ++ checksum pf payload) := by
    unfold base58EncodeCheck at hstr
    split at hstr
    · cases hstr
    · rw [base58Encode_eq] at hstr
      split at hstr
      · cases hstr
      · exact (Option.some.inj hstr).symm
  have hcheck := b58check_iff pf payload (datalen - (payload.length + 4))
  have hdigits := length_significant_le_digits (payload ++ checksum pf payload)
  have hsplit := length_takeWhile (· = 0) (payload ++ checksum pf payload)
  have hstrlen := length_base58String (payload ++ checksum pf payload)
  have hle := length_le_base58String (payload ++ checksum pf payload)
  rw [← significant] at hsplit
  rw [← hbase58] at hcheck hstrlen hle
  generalize payload ++ checksum pf payload = bin at *
  generalize hhint : (if str.length + 4 > datalen then datalen else str.length + 4) = binhint
  have hhint_pos : 0 < binhint ∧ bin.length ≤ binhint := by
    rw [← hhint]
    split <;> omega
  have hroom : (significant bin).length ≤ 4 * ((binhint - 1) / 4) ↔
      (significant bin).length ≤ 4 * ((datalen - 1) / 4) := by
    rw [← hhint]
    split <;> omega
  have hdecode := @base58Decode_base58String bin binhint hhint_pos.1 hhint_pos.2
  rw [← hbase58] at hdecode
  unfold base58DecodeCheck
  dsimp only
  rw [Nat.min_eq_left (by omega), if_neg (by omega), hhint, List.take_length, hdecode]
  by_cases hwords : (significant bin).length ≤ 4 * ((datalen - 1) / 4)
  · have hdata := take_drop_zeros hhint_pos.2
    rw [if_pos (hroom.mpr hwords)]
    dsimp only
    rw [hdata, hlength, and_iff_left hwords, ← hcheck]
    constructor
    · rintro ⟨rest, h⟩
      obtain ⟨ret, hret, hif⟩ := Option.map_eq_some_iff.mp h
      refine ⟨ret, hret, fun hneg => ?_⟩
      rw [if_pos hneg] at hif
      cases hif
    · rintro ⟨ret, hret, hnonneg⟩
      refine ⟨List.replicate (datalen - (payload.length + 4)) 0, ?_⟩
      rw [hret, Option.map_some, if_neg hnonneg]
  · rw [if_neg fun h => hwords (hroom.mp h)]
    refine iff_of_false ?_ fun h => hwords h.2
    rintro ⟨rest, h⟩
    cases h

/-- SHA-256 as far as the double hash of the byte 1 needs it. -/
def sampleHash : Platform where
  sha256Raw := fun bs =>
    if bs = [1] then
      ⟨[75, 245, 18, 47, 52, 69, 84, 197, 59, 222, 46, 187, 140, 210, 183, 227, 209, 96, 10, 214,
      49, 195, 133, 165, 215, 204, 226, 60, 119, 133, 69, 154], rfl⟩
    else
      ⟨[156, 18, 207, 220, 4, 199, 69, 132, 215, 135, 172, 61, 35, 119, 33, 50, 193, 133, 36, 188,
      122, 178, 141, 236, 66, 25, 184, 252, 91, 66, 95, 112], rfl⟩
  scrypt := fun _ => Uint256.zero
  pastEnd := fun _ _ => 0

/-- The payload of the byte 1, in a buffer of 10 bytes. -/
theorem base58DecodeCheck_encodeCheck_iff_sample :
    (∃ rest, base58DecodeCheck sampleHash [66, 88, 118, 68, 98, 72] 10 =
        some (some (([1] : Bytes).length + 4, [1] ++ checksum sampleHash [1] ++ rest))) ↔
      significant ([1] ++ checksum sampleHash [1]) ≠ [] ∧
        (significant ([1] ++ checksum sampleHash [1])).length ≤ 4 * ((10 - 1) / 4) :=
  @base58DecodeCheck_encodeCheck_iff sampleHash [1] [66, 88, 118, 68, 98, 72] 7 10 (by decide)
    (by decide) (by decide)

/-- The payload of the byte 1 is not read back into a buffer of the length of its string. -/
theorem not_base58DecodeCheck_encodeCheck :
    ¬ ∀ (pf : Platform) (payload str : Bytes) (strsize datalen : ℕ),
      base58EncodeCheck pf payload strsize = some str → str.length ≤ 128 → str.length ≤ datalen →
      ∃ rest, base58DecodeCheck pf str datalen =
        some (some (payload.length + 4, payload ++ checksum pf payload ++ rest)) := by
  intro hall
  obtain ⟨rest, hread⟩ := hall sampleHash [1] [66, 88, 118, 68, 98, 72] 7 6 (by decide)
    (by decide) (by decide)
  have hnone : base58DecodeCheck sampleHash [66, 88, 118, 68, 98, 72] 6 = some none := by decide
  rw [hnone] at hread
  cases hread

end Base58

end Libdogecoin
