/-
# Bytes, hashes and the wire primitives

The 32-byte hashes, the primitives of `serialize.c`, the hex strings of `utils.c` and the order
`dogecoin_header_compare` puts on hashes.

* `deserU32_serU32`, `deserU256_serU256` : each fixed-width field reads back what was written;
* `deserVarlen_serVarlen` : so does a variable-length count;
* `hex_injective`, `utilsReverseHex_hex` : hex strings determine the bytes they print;
* `headerCompare` is a lawful total order on hashes.
-/
import Mathlib.Data.List.Basic
import Mathlib.Tactic.FinCases
import Libdogecoin.LittleEndian

namespace Libdogecoin

/-- A byte buffer. -/
abbrev Bytes := List UInt8

/-- `uint256_t` : 32 bytes. -/
abbrev Uint256 := {l : Bytes // l.length = 32}

namespace Uint256

/-- The all-zero hash that `dogecoin_calloc` and `dogecoin_mem_zero` leave. -/
def zero : Uint256 := ⟨List.replicate 32 0, rfl⟩

/-- The 32 bytes whose little-endian value is `n`. -/
def ofNat (n : ℕ) : Uint256 := ⟨LittleEndian.toBytes 32 n, LittleEndian.length_toBytes 32 n⟩

/-- The little-endian value of a hash. -/
def toNat (h : Uint256) : ℕ := LittleEndian.ofBytes h.1

end Uint256

/-- What the model takes from outside: the two hash functions, and the contents of the memory
behind the terminating NUL of a `cstring`, which `block.c` may read. -/
structure Platform where
  /-- `sha256_raw`. -/
  sha256Raw : Bytes → Uint256
  /-- `scrypt_1024_1_1_256` on a serialized header. -/
  scrypt : Bytes → Uint256
  /-- The byte found at an index behind the end of a string. -/
  pastEnd : Bytes → ℕ → UInt8

/-- Double SHA-256. -/
def Platform.sha256d (pf : Platform) (bs : Bytes) : Uint256 := pf.sha256Raw (pf.sha256Raw bs).1

/-- `dogecoin_hash_2_inputs` : the double hash of two concatenated hashes. -/
def Platform.hash2Inputs (pf : Platform) (left right : Uint256) : Uint256 :=
  pf.sha256d (left.1 ++ right.1)

/-! ## Reading -/

/-- `deser_bytes` : the first `len` bytes, if the buffer has as many. -/
def deserBytes (len : ℕ) (buf : Bytes) : Option (Bytes × Bytes) :=
  if buf.length < len then none else some (buf.take len, buf.drop len)

/-- `deser_u16`. -/
def deserU16 (buf : Bytes) : Option (UInt16 × Bytes) :=
  (deserBytes 2 buf).map fun (v, rest) => (UInt16.ofNat (LittleEndian.ofBytes v), rest)

/-- `deser_u32`, and `deser_s32` on the bit pattern of the signed value. -/
def deserU32 (buf : Bytes) : Option (UInt32 × Bytes) :=
  (deserBytes 4 buf).map fun (v, rest) => (UInt32.ofNat (LittleEndian.ofBytes v), rest)

/-- `deser_u64`, and `deser_s64` on the bit pattern of the signed value. -/
def deserU64 (buf : Bytes) : Option (UInt64 × Bytes) :=
  (deserBytes 8 buf).map fun (v, rest) => (UInt64.ofNat (LittleEndian.ofBytes v), rest)

/-- `deser_u256`. -/
def deserU256 (buf : Bytes) : Option (Uint256 × Bytes) :=
  if h : buf.length < 32 then none
  else some (⟨buf.take 32, by rw [List.length_take]; omega⟩, buf.drop 32)

/-- `deser_varlen` : a count of one, three, five or nine bytes, cut to 32 bits. -/
def deserVarlen (buf : Bytes) : Option (UInt32 × Bytes) :=
  match buf with
  | [] => none
  | c :: rest =>
    if c = 253 then (deserU16 rest).map fun (v, rest) => (v.toUInt32, rest)
    else if c = 254 then deserU32 rest
    else if c = 255 then (deserU64 rest).map fun (v, rest) => (v.toUInt32, rest)
    else some (c.toUInt32, rest)

/-- `deser_varstr`. -/
def deserVarstr (buf : Bytes) : Option (Bytes × Bytes) := do
  let (len, rest) ← deserVarlen buf
  deserBytes len.toNat rest

/-- Read `n` items one after the other. -/
def deserMany {α : Type} (item : Bytes → Option (α × Bytes)) : ℕ → Bytes → Option (List α × Bytes)
  | 0, buf => some ([], buf)
  | n + 1, buf => do
      let (x, rest) ← item buf
      let (xs, rest) ← deserMany item n rest
      some (x :: xs, rest)

/-! ## Writing -/

/-- `ser_u16`. -/
def serU16 (v : UInt16) : Bytes := LittleEndian.toBytes 2 v.toNat

/-- `ser_u32` and `ser_s32`. -/
def serU32 (v : UInt32) : Bytes := LittleEndian.toBytes 4 v.toNat

/-- `ser_u64` and `ser_s64`. -/
def serU64 (v : UInt64) : Bytes := LittleEndian.toBytes 8 v.toNat

/-- `ser_u256`. -/
def serU256 (v : Uint256) : Bytes := v.1

/-- `ser_varlen` : the 64-bit form is never written. -/
def serVarlen (vlen : UInt32) : Bytes :=
  if vlen < 253 then [vlen.toUInt8]
  else if vlen < 0x10000 then 253 :: serU16 vlen.toUInt16
  else 254 :: serU32 vlen

/-- `ser_varstr` : a string too long for the count is written as the empty one. -/
def serVarstr (s : Bytes) : Bytes :=
  if s.length = 0 then serVarlen 0
  else if s.length > 0xffffffff then serVarlen 0
  else serVarlen (UInt32.ofNat s.length) ++ s

/-! ## Round trips -/

/-- Reading takes exactly the bytes that were put in front. -/
@[simp] theorem deserBytes_append (v rest : Bytes) :
    deserBytes v.length (v ++ rest) = some (v, rest) := by
  rw [deserBytes, if_neg (by simp), List.take_left, List.drop_left]

variable {v buf rest as bs : Bytes} {len n : ℕ}

theorem deserBytes_append_of_length (h : v.length = len) (rest : Bytes) :
    deserBytes len (v ++ rest) = some (v, rest) := by
  subst h
  exact deserBytes_append v rest

/-- What was read is the front of the buffer. -/
theorem deserBytes_eq_some (h : deserBytes len buf = some (v, rest)) :
    v.length = len ∧ buf = v ++ rest := by
  rw [deserBytes] at h
  split at h
  · cases h
  · next hle =>
      cases h
      exact ⟨by rw [List.length_take]; omega, (List.take_append_drop len buf).symm⟩

@[simp] theorem length_serU32 (v : UInt32) :
    (serU32 v).length = 4 := LittleEndian.length_toBytes 4 _

@[simp] theorem length_serU256 (v : Uint256) : (serU256 v).length = 32 := v.2

theorem deserU16_serU16 (v : UInt16) (rest : Bytes) :
    deserU16 (serU16 v ++ rest) = some (v, rest) := by
  have hlen : (serU16 v).length = 2 := LittleEndian.length_toBytes 2 _
  have hval : LittleEndian.ofBytes (serU16 v) = v.toNat :=
    LittleEndian.ofBytes_toBytes_of_lt v.toNat_lt
  rw [deserU16, deserBytes_append_of_length hlen]
  simp [hval]

/-- A 32-bit field reads back what was written. -/
@[simp] theorem deserU32_serU32 (v : UInt32) (rest : Bytes) :
    deserU32 (serU32 v ++ rest) = some (v, rest) := by
  have hval : LittleEndian.ofBytes (serU32 v) = v.toNat :=
    LittleEndian.ofBytes_toBytes_of_lt v.toNat_lt
  rw [deserU32, deserBytes_append_of_length (length_serU32 v)]
  simp [hval]

/-- A hash field reads back what was written. -/
@[simp] theorem deserU256_serU256 (v : Uint256) (rest : Bytes) :
    deserU256 (serU256 v ++ rest) = some (v, rest) := by
  have hlen : ¬ (serU256 v ++ rest).length < 32 := by simp
  have htake : (serU256 v ++ rest).take 32 = v.1 := List.take_left' (length_serU256 v)
  have hdrop : (serU256 v ++ rest).drop 32 = rest := List.drop_left' (length_serU256 v)
  rw [deserU256, dif_neg hlen]
  simp only [htake, hdrop]

/-- A count reads back what was written. -/
theorem deserVarlen_serVarlen (v : UInt32) (rest : Bytes) :
    deserVarlen (serVarlen v ++ rest) = some (v, rest) := by
  rw [serVarlen]
  split
  · next h =>
      have hlt : v.toNat < 253 := by simpa [UInt32.lt_iff_toNat_lt] using h
      have hback : v.toUInt8.toUInt32 = v := by
        apply UInt32.toNat_inj.mp
        simp
        omega
      have hne : ∀ k : UInt8, 253 ≤ k.toNat → v.toUInt8 ≠ k := by
        rintro k hk rfl
        simp at hk
        omega
      rw [List.cons_append, List.nil_append, deserVarlen, if_neg (hne 253 (by decide)),
        if_neg (hne 254 (by decide)), if_neg (hne 255 (by decide)), hback]
  · split
    · next h =>
        have hlt : v.toNat < 0x10000 := by simpa [UInt32.lt_iff_toNat_lt] using h
        have hback : v.toUInt16.toUInt32 = v := by
          apply UInt32.toNat_inj.mp
          simp
          omega
        rw [List.cons_append, deserVarlen, if_pos rfl, deserU16_serU16]
        simp [hback]
    · rw [List.cons_append, deserVarlen, if_neg (by decide), if_pos rfl, deserU32_serU32]

/-- A fixed-width read consumes its width and leaves the rest. -/
theorem deserU32_eq_some {v : UInt32} (h : deserU32 buf = some (v, rest)) :
    4 ≤ buf.length ∧ rest = buf.drop 4 ∧ v = UInt32.ofNat (LittleEndian.ofBytes (buf.take 4)) := by
  rw [deserU32, deserBytes] at h
  split at h
  · simp at h
  · simp only [Option.map_some, Option.some.injEq, Prod.mk.injEq] at h
    exact ⟨by omega, h.2.symm, h.1.symm⟩

/-- Bytes that were read are the ones written for their value. -/
theorem toBytes_of_deserBytes (h : deserBytes len buf = some (v, rest)) :
    LittleEndian.ofBytes v < 256 ^ len ∧
    buf = LittleEndian.toBytes len (LittleEndian.ofBytes v) ++ rest := by
  obtain ⟨hlen, hbuf⟩ := deserBytes_eq_some h
  subst hlen
  exact ⟨LittleEndian.ofBytes_lt v, by rw [LittleEndian.toBytes_ofBytes, hbuf]⟩

theorem deserU16_eq_append {v : UInt16} (h : deserU16 buf = some (v, rest)) :
    buf = serU16 v ++ rest := by
  rw [deserU16, Option.map_eq_some_iff] at h
  obtain ⟨⟨bs, rest'⟩, hbytes, heq⟩ := h
  cases heq
  obtain ⟨hlt, hbuf⟩ := toBytes_of_deserBytes hbytes
  rw [serU16, UInt16.toNat_ofNat_of_lt' hlt, ← hbuf]

theorem deserU32_eq_append {v : UInt32} (h : deserU32 buf = some (v, rest)) :
    buf = serU32 v ++ rest := by
  rw [deserU32, Option.map_eq_some_iff] at h
  obtain ⟨⟨bs, rest'⟩, hbytes, heq⟩ := h
  cases heq
  obtain ⟨hlt, hbuf⟩ := toBytes_of_deserBytes hbytes
  rw [serU32, UInt32.toNat_ofNat_of_lt' hlt, ← hbuf]

theorem deserU64_eq_append {v : UInt64} (h : deserU64 buf = some (v, rest)) :
    buf = serU64 v ++ rest := by
  rw [deserU64, Option.map_eq_some_iff] at h
  obtain ⟨⟨bs, rest'⟩, hbytes, heq⟩ := h
  cases heq
  obtain ⟨hlt, hbuf⟩ := toBytes_of_deserBytes hbytes
  rw [serU64, UInt64.toNat_ofNat_of_lt' hlt, ← hbuf]

theorem deserU256_eq_some {v : Uint256} (h : deserU256 buf = some (v, rest)) :
    32 ≤ buf.length ∧ rest = buf.drop 32 ∧ v.1 = buf.take 32 := by
  rw [deserU256] at h
  split at h
  · simp at h
  · simp only [Option.some.injEq, Prod.mk.injEq] at h
    exact ⟨by omega, h.2.symm, by rw [← h.1]⟩

/-! ## Strings in memory -/

/-- The byte at index `i` of a `cstring` : its contents, then the terminating NUL, then whatever
lies behind. -/
def cstrAt (pf : Platform) (s : Bytes) (i : ℕ) : UInt8 :=
  if h : i < s.length then s[i] else if i = s.length then 0 else pf.pastEnd s i

/-- The `n` bytes that `memcpy` takes from `&s->str[off]`. -/
def cstrBytes (pf : Platform) (s : Bytes) (off n : ℕ) : Bytes :=
  (List.range n).map fun k => cstrAt pf s (off + k)

@[simp] theorem length_cstrBytes (pf : Platform) (s : Bytes) (off n : ℕ) :
    (cstrBytes pf s off n).length = n := by
  simp [cstrBytes]

/-- Inside the string, `memcpy` takes a slice of it. -/
theorem cstrBytes_eq_slice {pf : Platform} {s : Bytes} {off : ℕ} (h : off + n ≤ s.length) :
    cstrBytes pf s off n = (s.drop off).take n := by
  apply List.ext_getElem
  · rw [length_cstrBytes, List.length_take, List.length_drop]
    omega
  · intro k hk _
    rw [length_cstrBytes] at hk
    have hlt : off + k < s.length := by omega
    simp [cstrBytes, cstrAt, hlt]

/-! ## Hex strings -/

/-- The table `digits` of `utils_uint8_to_hex`. -/
def hexDigits : List Char :=
  ['0', '1', '2', '3', '4', '5', '6', '7', '8', '9', 'a', 'b', 'c', 'd', 'e', 'f']

/-- One hex digit. -/
def hexDigit (n : ℕ) : Char := hexDigits.getD n '0'

/-- `utils_uint8_to_hex` : two digits for each byte, the high one first. -/
def utilsUint8ToHex : Bytes → List Char
  | [] => []
  | b :: bs => hexDigit (b.toNat / 16) :: hexDigit (b.toNat % 16) :: utilsUint8ToHex bs

/-- `utils_reverse_hex` : the digit pairs in reverse order. -/
def utilsReverseHex : List Char → List Char
  | a :: b :: rest => utilsReverseHex rest ++ [a, b]
  | rest => rest

/-- `hash_to_string` : the hex string of a hash in display order. -/
def hashToString (h : Uint256) : List Char := utilsReverseHex (utilsUint8ToHex h.1)

@[simp] theorem length_utilsUint8ToHex (bs : Bytes) :
    (utilsUint8ToHex bs).length = 2 * bs.length := by
  induction bs with
  | nil => rfl
  | cons b bs ih => simp only [utilsUint8ToHex, List.length_cons, ih]; omega

theorem utilsUint8ToHex_append (as bs : Bytes) :
    utilsUint8ToHex (as ++ bs) = utilsUint8ToHex as ++ utilsUint8ToHex bs := by
  induction as with
  | nil => rfl
  | cons a as ih => simp [utilsUint8ToHex, ih]

theorem hexDigit_injective {m : ℕ} (hm : m < 16) (hn : n < 16) (h : hexDigit m = hexDigit n) :
    m = n := by
  have hnodup : hexDigits.Nodup := by decide
  have hm' : m < hexDigits.length := hm
  have hn' : n < hexDigits.length := hn
  simp only [hexDigit, List.getD_eq_getElem?_getD, List.getElem?_eq_getElem hm',
    List.getElem?_eq_getElem hn', Option.getD_some] at h
  exact (List.Nodup.getElem_inj_iff hnodup).mp h

/-- Hex strings determine the bytes they print. -/
theorem hex_injective (h : utilsUint8ToHex as = utilsUint8ToHex bs) : as = bs := by
  induction as generalizing bs with
  | nil =>
    cases bs with
    | nil => rfl
    | cons b bs => simp [utilsUint8ToHex] at h
  | cons a as ih =>
    cases bs with
    | nil => simp [utilsUint8ToHex] at h
    | cons b bs =>
      simp only [utilsUint8ToHex, List.cons.injEq] at h
      have ha : a.toNat < 256 := a.toNat_lt
      have hb : b.toNat < 256 := b.toNat_lt
      have hhigh := hexDigit_injective (by omega) (by omega) h.1
      have hlow := hexDigit_injective (by omega) (by omega) h.2.1
      have hab : a = b := UInt8.toNat_inj.mp (by omega)
      rw [hab, ih h.2.2]

/-- Reversing the digit pairs prints the bytes in reverse order. -/
theorem utilsReverseHex_hex (bs : Bytes) :
    utilsReverseHex (utilsUint8ToHex bs) = utilsUint8ToHex bs.reverse := by
  induction bs with
  | nil => rfl
  | cons b bs ih =>
    rw [utilsUint8ToHex, utilsReverseHex, ih, List.reverse_cons, utilsUint8ToHex_append]
    rfl

/-! ## The order of the search tree -/

/-- The byte loop of `dogecoin_header_compare` : the larger hash comes first. -/
def headerCompareBytes : Bytes → Bytes → Ordering
  | a :: as, b :: bs => if a > b then .lt else if a < b then .gt else headerCompareBytes as bs
  | _, _ => .eq

/-- `dogecoin_header_compare` on the hashes of two block indices. -/
def headerCompare (l r : Uint256) : Ordering := headerCompareBytes l.1 r.1

theorem headerCompareBytes_eq_compare (hlen : as.length = bs.length) :
    headerCompareBytes as bs = List.compareLex compare bs as := by
  induction as generalizing bs with
  | nil =>
    cases bs with
    | nil => rfl
    | cons b bs => simp at hlen
  | cons a as ih =>
    cases bs with
    | nil => simp at hlen
    | cons b bs =>
      have hrec := ih (by simpa using hlen)
      rw [headerCompareBytes, List.compareLex_cons_cons, hrec]
      by_cases hgt : a > b
      · have hc : compare b a = .lt := Std.compare_eq_lt.mpr hgt
        rw [if_pos hgt, hc]
        rfl
      · by_cases hlt : a < b
        · have hc : compare b a = .gt := Std.compare_eq_gt.mpr hlt
          rw [if_neg hgt, if_pos hlt, hc]
          rfl
        · have hab : a = b := UInt8.le_antisymm (UInt8.not_lt.mp hgt) (UInt8.not_lt.mp hlt)
          subst hab
          have hc : compare a a = .eq := Std.ReflCmp.compare_self
          rw [if_neg hgt, if_neg hlt, hc]
          rfl

theorem headerCompare_eq (l r : Uint256) : headerCompare l r = List.compareLex compare r.1 l.1 :=
  headerCompareBytes_eq_compare (l.2.trans r.2.symm)

instance : Std.OrientedCmp headerCompare where
  eq_swap := by
    intro a b
    rw [headerCompare_eq, headerCompare_eq]
    exact Std.OrientedCmp.eq_swap

instance : Std.TransCmp headerCompare where
  isLE_trans := by
    intro a b c hab hbc
    rw [headerCompare_eq] at hab hbc ⊢
    exact Std.TransCmp.isLE_trans hbc hab

instance : Std.LawfulEqCmp headerCompare where
  eq_of_compare := by
    intro a b hab
    rw [headerCompare_eq] at hab
    exact (Subtype.ext (Std.LawfulEqCmp.eq_of_compare hab)).symm

end Libdogecoin
