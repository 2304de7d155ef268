/-
# Base58 strings are canonical

`dogecoin_base58_decode` takes a string apart into the characters `1` in front and base58 digits
that do not start with a zero. There are bytes that are written in this way, and they are the ones
that are found.

* `exists_base58String` : such a string is the string of some bytes;
* `base58DecodeCheck_eq_some` : what is read is a payload with its checksum, and the string is
  theirs;
* `base58EncodeCheck_of_decodeCheck` : the payload is written as the string that was read;
* `base58Read_eq_some_iff` : which strings are read;
* `base58Read_base58String` : what was written is read.
-/
import Libdogecoin.Base58

namespace Libdogecoin

namespace Base58

open Radix (value)

/-! ## The characters that are read -/

/-- Every byte is refused as a character, or is the character of its digit. -/
theorem b58digit_b58digitsMap :
    ∀ n < 256, UInt8.ofNat n &&& 0x80 ≠ 0 ∨ b58digitsMap.getD n (-1) = -1 ∨
    (b58digitsMap.getD n (-1)).toNat < 58 ∧ UInt8.ofNat n = b58digit
    (b58digitsMap.getD n (-1)).toNat := by
  decide +kernel

theorem exists_b58digit {zeromask : UInt32} {outi outi' : List UInt32} {ch : UInt8}
    (h : decodeDigit zeromask outi ch = some outi') : ∃ d < 58, ch = b58digit d := by
  have hbyte := b58digit_b58digitsMap ch.toNat ch.toNat_lt
  rw [UInt8.ofNat_toNat] at hbyte
  unfold decodeDigit at h
  rcases hbyte with hhigh | hinvalid | hdigit
  · rw [if_pos hhigh] at h
    cases h
  · rw [if_pos hinvalid, ite_self] at h
    cases h
  · exact ⟨_, hdigit⟩

theorem exists_digits {zeromask : UInt32} {chs : Bytes} {outi outi' : List UInt32}
    (h : chs.foldlM (decodeDigit zeromask) outi = some outi') :
    ∃ ds : List ℕ, (∀ d ∈ ds, d < 58) ∧ chs = ds.map b58digit := by
  induction chs generalizing outi with
  | nil => exact ⟨[], fun d hd => absurd hd List.not_mem_nil, rfl⟩
  | cons ch chs ih =>
    rw [List.foldlM_cons] at h
    obtain ⟨next, hch, hrest⟩ := Option.bind_eq_some_iff.mp h
    obtain ⟨d, hd, rfl⟩ := exists_b58digit hch
    obtain ⟨ds, hds, rfl⟩ := ih hrest
    refine ⟨d :: ds, ?_, rfl⟩
    intro x hx
    rcases List.mem_cons.mp hx with rfl | hx
    · exact hd
    · exact hds x hx

/-! ## The bytes of a string -/

/-- Every number is spelled by bytes without leading zeros. -/
theorem exists_significant (n : ℕ) :
    ∃ bin : Bytes, bytesValue bin = n ∧ ∀ b ∈ bin.head?, b ≠ 0 := by
  have hdigits : ((Nat.digits 256 n).reverse.map UInt8.ofNat).map UInt8.toNat =
    (Nat.digits 256 n).reverse := by
    rw [List.map_map]
    conv_rhs => rw [← List.map_id (Nat.digits 256 n).reverse]
    apply List.map_congr_left
    intro d hd
    exact UInt8.toNat_ofNat_of_lt' (Nat.digits_lt_base (by norm_num) (List.mem_reverse.mp hd))
  refine ⟨significant ((Nat.digits 256 n).reverse.map UInt8.ofNat), ?_, significant_head _⟩
  rw [bytesValue_significant, bytesValue, hdigits, value, List.reverse_reverse, Nat.ofDigits_digits]

/-- **Strings of bytes.** Characters `1` and digits that do not start with a zero are the string of
some bytes. -/
theorem exists_base58String (n : ℕ) {ds : List ℕ} (hds : ∀ d ∈ ds, d < 58)
    (hhead : ∀ d ∈ ds.head?, d ≠ 0) :
    ∃ bin, base58String bin = List.replicate n 49 ++ ds.map b58digit := by
  obtain ⟨bin, hvalue, hbin⟩ := exists_significant (value 58 ds)
  refine ⟨List.replicate n 0 ++ bin, ?_⟩
  -- digits without a leading zero are those of their number
  have hfirst : ds.dropWhile (· = 0) = ds := by
    cases ds with
    | nil => rfl
    | cons d ds => exact List.dropWhile_cons_of_neg fun h => hhead d rfl (of_decide_eq_true h)
  have hdigits : base58Digits (List.replicate n 0 ++ bin) = ds := by
    rw [base58Digits, bytesValue_zeros_append, hvalue,
      ← Radix.dropWhile_eq_digits (by norm_num) hds, hfirst]
  rw [base58String, hdigits, takeWhile_replicate_append _ _ hbin, List.length_replicate]

/-- What is decoded is the string of some bytes. -/
theorem exists_of_base58Decode {binsz size : ℕ} {b58 out : Bytes}
    (h : base58Decode binsz b58 = some (out, size)) :
    0 < binsz ∧ ∃ bin, base58String bin = b58 := by
  unfold base58Decode at h
  split at h
  · cases h
  rename_i hpos
  dsimp only at h
  obtain ⟨outi, hfold, -⟩ := Option.bind_eq_some_iff.mp h
  rw [drop_length_takeWhile] at hfold
  obtain ⟨ds, hds, hrest⟩ := exists_digits hfold
  refine ⟨Nat.pos_of_ne_zero hpos, ?_⟩
  have hhead : ∀ d ∈ ds.head?, d ≠ 0 := by
    intro d hd hzero
    have hmap : (b58.dropWhile (· = 49)).head? = some (b58digit d) := by
      rw [hrest, List.head?_map, Option.mem_def.mp hd, Option.map_some]
    have hnot := List.head?_dropWhile_not (fun b : UInt8 => decide (b = 49)) b58
    rw [hmap, hzero] at hnot
    exact absurd hnot (by decide)
  obtain ⟨bin, hbin⟩ := exists_base58String (b58.takeWhile (· = 49)).length hds hhead
  have hones : b58.takeWhile (· = 49) = List.replicate (b58.takeWhile (· = 49)).length 49 :=
    List.eq_replicate_iff.mpr ⟨rfl, fun b hb => of_decide_eq_true
      (List.mem_takeWhile_imp (p := fun b : UInt8 => decide (b = 49)) hb)⟩
  refine ⟨bin, ?_⟩
  rw [hbin, ← hrest, ← hones, List.takeWhile_append_dropWhile]

/-! ## Payloads -/

variable {pf : Platform} {bin str : Bytes} {datalen : ℕ}

/-- What passes the check is a payload and its checksum. -/
theorem checksum_of_b58check {rest : Bytes} {ret : ℤ}
    (h : b58check pf (bin ++ rest) bin.length str = some ret) (hret : ¬ ret < 0) :
    4 ≤ bin.length ∧ bin = bin.take (bin.length - 4) ++
      checksum pf (bin.take (bin.length - 4)) := by
  unfold b58check at h
  split at h
  · obtain rfl := Option.some.inj h
    exact absurd (by norm_num) hret
  rename_i hfour
  split at h
  · obtain rfl := Option.some.inj h
    exact absurd (by norm_num) hret
  rename_i hsum
  rw [not_not, List.take_left, List.take_append_of_le_length (by omega)] at hsum
  refine ⟨Nat.not_lt.mp hfour, ?_⟩
  rw [← hsum, List.take_append_drop]

/-- **What is read.** A payload, its checksum and zeros, and the string is that of the first two. -/
theorem base58DecodeCheck_eq_some {data : Bytes} {binsize : ℕ}
    (h : base58DecodeCheck pf str datalen = some (some (binsize, data))) :
    ∃ payload rest, data = payload ++ checksum pf payload ++ rest ∧ binsize = payload.length + 4 ∧
      str = base58String (payload ++ checksum pf payload) ∧ str.length ≤ 128 := by
  unfold base58DecodeCheck at h
  dsimp only at h
  split at h
  · cases h
  rename_i hsizes
  have hlen : str.length ≤ 128 ∧ str.length ≤ datalen := by omega
  generalize hhint : (if min str.length 1024 + 4 > datalen then datalen else min str.length 1024 +
    4) = binhint at h
  have hroom : str.length ≤ binhint := by
    rw [← hhint]
    split <;> omega
  rw [Nat.min_eq_left (by omega), List.take_length] at h
  cases hdecode : base58Decode binhint str with
  | none =>
    rw [hdecode] at h
    cases h
  | some read =>
    obtain ⟨out, size⟩ := read
    obtain ⟨hpos, bin, rfl⟩ := exists_of_base58Decode hdecode
    have hbin : bin.length ≤ binhint := (length_le_base58String bin).trans hroom
    -- the bytes that are read are those that the string was made of
    have hread := base58Decode_base58String hpos hbin
    rw [hdecode] at hread h
    split at hread
    · cases hread
      dsimp only at h
      rw [take_drop_zeros hbin] at h
      obtain ⟨ret, hcheck, hret⟩ := Option.map_eq_some_iff.mp h
      split at hret
      · cases hret
      rename_i hnonneg
      cases hret
      obtain ⟨hfour, hsum⟩ := checksum_of_b58check hcheck hnonneg
      refine ⟨bin.take (bin.length - 4), List.replicate (datalen - bin.length) 0,
        ?_, ?_, ?_, hlen.1⟩
      · rw [← hsum]
      · rw [List.length_take]
        omega
      · rw [← hsum]
    · cases hread

/-- **Base58 strings are canonical.** The payload that is read from a string is written as this
string, and is read from no other. -/
theorem base58EncodeCheck_of_decodeCheck (pf : Platform) {str data : Bytes} {datalen binsize : ℕ}
    (h : base58DecodeCheck pf str datalen = some (some (binsize, data))) :
    (∀ strsize, str.length < strsize → base58EncodeCheck pf (data.take (binsize - 4)) strsize =
      some str) ∧
      ∀ (str' data' : Bytes) (datalen' binsize' : ℕ),
        base58DecodeCheck pf str' datalen' = some (some (binsize', data')) →
          data'.take (binsize' - 4) = data.take (binsize - 4) → str' = str := by
  obtain ⟨payload, rest, rfl, rfl, hstr, hlen⟩ := base58DecodeCheck_eq_some h
  rw [Nat.add_sub_cancel, List.append_assoc, List.take_left]
  constructor
  · intro strsize hsize
    have hle := length_le_base58String (payload ++ checksum pf payload)
    rw [← hstr, List.length_append] at hle
    have hneed := length_base58String (payload ++ checksum pf payload)
    rw [← hstr] at hneed
    unfold base58EncodeCheck
    rw [if_neg (by omega), base58Encode_eq, if_neg (by omega), ← base58String, ← hstr]
    rfl
  · intro str' data' datalen' binsize' h' hsame
    obtain ⟨payload', rest', rfl, rfl, hstr', -⟩ := base58DecodeCheck_eq_some h'
    rw [Nat.add_sub_cancel, List.append_assoc, List.take_left] at hsame
    rw [hstr', hstr, hsame]

/-- The theorem on the string of the payload 1. -/
theorem base58EncodeCheck_of_decodeCheck_one :
    (∀ strsize, ([66, 88, 118, 68, 98, 72] : Bytes).length < strsize →
        base58EncodeCheck sampleHash (([1, 156, 18, 207, 220, 0, 0, 0, 0, 0] : Bytes).take (5 - 4))
          strsize =
          some [66, 88, 118, 68, 98, 72]) ∧
      ∀ (str' data' : Bytes) (datalen' binsize' : ℕ),
        base58DecodeCheck sampleHash str' datalen' = some (some (binsize', data')) →
          data'.take (binsize' - 4) = ([1, 156, 18, 207, 220, 0, 0, 0, 0, 0] : Bytes).take (5 - 4) →
            str' = [66, 88, 118, 68, 98, 72] :=
  @base58EncodeCheck_of_decodeCheck sampleHash [66, 88, 118, 68, 98, 72] [1, 156, 18, 207, 220, 0,
    0, 0, 0, 0] 10 5 (by decide)

/-! ## Reading into a buffer with some room -/

/-- The bytes that `dogecoin_base58_decode_check` returns, if it returns some. -/
def base58Read (pf : Platform) (str : Bytes) (datalen : ℕ) : Option Bytes :=
  (base58DecodeCheck pf str datalen).join.map fun r => r.2.take r.1

@[simp] theorem length_checksum (pf : Platform) (payload : Bytes) :
    (checksum pf payload).length = 4 := by
  rw [checksum, List.length_take, (pf.sha256d payload).2]
  rfl

theorem length_base58Digits_le_iff (bin : Bytes) (k : ℕ) :
    (base58Digits bin).length ≤ k ↔ bytesValue bin < 58 ^ k := by
  rw [base58Digits, List.length_reverse, ← Nat.digits_length_le_iff (by norm_num)]

/-- Four digits have less than three bytes. -/
theorem length_significant_le (bin : Bytes) :
    (significant bin).length ≤ (3 * (base58Digits bin).length + 3) / 4 := by
  rw [length_significant_le_iff]
  have hdigits := (length_base58Digits_le_iff bin (base58Digits bin).length).mp le_rfl
  calc bytesValue bin < 58 ^ (base58Digits bin).length := hdigits
    _ ≤ (2 ^ 6) ^ (base58Digits bin).length := Nat.pow_le_pow_left (by norm_num) _
    _ = 2 ^ (6 * (base58Digits bin).length) := (pow_mul 2 6 _).symm
    _ ≤ 2 ^ (8 * ((3 * (base58Digits bin).length + 3) / 4)) :=
      Nat.pow_le_pow_right (by norm_num) (by omega)
    _ = 256 ^ ((3 * (base58Digits bin).length + 3) / 4) := by
      rw [pow_mul]
      norm_num

/-- Without a zero in front the string has the digits only. -/
theorem length_base58String_of_le {n : ℕ} (hlen : bin.length = n + 1)
    (hfirst : 256 ^ n ≤ bytesValue bin) :
    (base58String bin).length = (base58Digits bin).length := by
  have hsplit := length_takeWhile (· = 0) bin
  rw [← significant] at hsplit
  have hall : ¬ (significant bin).length ≤ n := by
    rw [length_significant_le_iff]
    exact Nat.not_lt.mpr hfirst
  rw [length_base58String]
  omega

/-- What is written into enough room. -/
theorem base58EncodeCheck_eq {pf : Platform} {payload : Bytes} {strsize : ℕ}
    (hlen : payload.length ≤ 128) (hroom : (base58String (payload ++ checksum pf payload)).length <
      strsize) :
    base58EncodeCheck pf payload strsize =
      some (base58String (payload ++ checksum pf payload)) := by
  rw [length_base58String] at hroom
  unfold base58EncodeCheck
  rw [if_neg (by omega), base58Encode_eq, if_neg (by omega)]
  rfl

/-- **What is read** into a buffer of 22 bytes or more: the payload and its checksum of which the
string was made. -/
theorem base58Read_eq_some_iff (hroom : 22 ≤ datalen) (str bin : Bytes) :
    base58Read pf str datalen = some bin ↔
      (str.length ≤ 128 ∧ str.length ≤ datalen) ∧ significant bin ≠ [] ∧ str = base58String bin ∧
        ∃ payload, bin = payload ++ checksum pf payload := by
  unfold base58Read
  constructor
  · intro h
    obtain ⟨⟨size, data⟩, hjoin, rfl⟩ := Option.map_eq_some_iff.mp h
    rw [Option.join_eq_some_iff] at hjoin
    obtain ⟨payload, rest, rfl, rfl, hstr, hlen⟩ := base58DecodeCheck_eq_some hjoin
    have htake : (payload ++ checksum pf payload ++ rest).take (payload.length + 4) =
        payload ++ checksum pf payload :=
          List.take_left' (by rw [List.length_append, length_checksum])
    have hdatalen : str.length ≤ datalen := by
      by_contra hlong
      unfold base58DecodeCheck at hjoin
      dsimp only at hjoin
      rw [if_pos (by omega)] at hjoin
      cases hjoin
    have hwritten := @base58EncodeCheck_eq pf payload (str.length + 1)
      (by have hle := length_le_base58String (payload ++ checksum pf payload)
          rw [← hstr, List.length_append] at hle
          omega)
      (by rw [← hstr]; exact Nat.lt_succ_self _)
    rw [← hstr] at hwritten
    have hread := (base58DecodeCheck_encodeCheck_iff pf hwritten hlen hdatalen).mp ⟨rest, hjoin⟩
    rw [htake]
    exact ⟨⟨hlen, hdatalen⟩, hread.1, hstr, payload, rfl⟩
  · rintro ⟨⟨hlen, hdatalen⟩, hnonzero, hstr, payload, rfl⟩
    have hle := length_le_base58String (payload ++ checksum pf payload)
    have hsize := length_base58String (payload ++ checksum pf payload)
    have hfew := length_significant_le (payload ++ checksum pf payload)
    have hbytes := length_significant_le_digits (payload ++ checksum pf payload)
    rw [← hstr, List.length_append, length_checksum] at hle
    rw [← hstr] at hsize
    have hwritten := @base58EncodeCheck_eq pf payload (str.length + 1) (by omega)
      (by rw [← hstr]; exact Nat.lt_succ_self _)
    rw [← hstr] at hwritten
    obtain ⟨rest, hread⟩ := (base58DecodeCheck_encodeCheck_iff pf hwritten hlen hdatalen).mpr
      ⟨hnonzero, by omega⟩
    rw [hread]
    show some ((payload ++ checksum pf payload ++ rest).take (payload.length + 4)) = _
    rw [List.take_left' (by rw [List.length_append, length_checksum])]

theorem significant_append_checksum_ne_nil
    (hzeros : checksum pf (List.replicate payload.length 0) ≠ List.replicate 4 0) :
    significant (payload ++ checksum pf payload) ≠ [] := by
  intro hnil
  have hall := List.dropWhile_eq_nil_iff.mp hnil
  have hpayload : payload = List.replicate payload.length 0 := List.eq_replicate_iff.mpr
    ⟨rfl, fun b hb => of_decide_eq_true (hall b (List.mem_append_left _ hb))⟩
  rw [← hpayload] at hzeros
  exact hzeros (List.eq_replicate_iff.mpr ⟨length_checksum _ _, fun b hb =>
    of_decide_eq_true (hall b (List.mem_append_right _ hb))⟩)

/-- **What was written is read**, unless the payload and its checksum are zeros. -/
theorem base58Read_base58String (hroom : 22 ≤ datalen) (hmax : datalen ≤ 128)
    (hzeros : checksum pf (List.replicate payload.length 0) ≠ List.replicate 4 0)
    (hshort : (base58String (payload ++ checksum pf payload)).length ≤ datalen) :
    base58Read pf (base58String (payload ++ checksum pf payload)) datalen =
      some (payload ++ checksum pf payload) :=
  (base58Read_eq_some_iff hroom _ _).mpr
    ⟨⟨hshort.trans hmax, hshort⟩, significant_append_checksum_ne_nil hzeros, rfl, payload, rfl⟩

/-- A byte has at most two digits. -/
theorem length_base58String_le_two_mul (bin : Bytes) :
    (base58String bin).length ≤ 2 * bin.length := by
  have hsplit := length_takeWhile (· = 0) bin
  have hdigits : (base58Digits bin).length ≤ 2 * (significant bin).length := by
    rw [length_base58Digits_le_iff, pow_mul]
    calc bytesValue bin < 256 ^ (significant bin).length :=
          (length_significant_le_iff bin _).mp le_rfl
      _ ≤ (58 ^ 2) ^ (significant bin).length := Nat.pow_le_pow_left (by norm_num) _
  rw [length_base58String]
  rw [significant] at hdigits
  omega

end Base58

end Libdogecoin
