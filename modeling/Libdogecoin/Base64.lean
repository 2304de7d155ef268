/-
# Base64

`base64_encode` and `base64_decode` of `utils.c`, on byte strings. The encoder reads three bytes at
a time, the decoder four characters; characters behind the last full group are ignored.

* `base64Decode_encode` : decoding gives back what was encoded;
* `length_base64Decode_le`, `le_length_base64Decode` : four characters are one to three bytes.
-/
import Libdogecoin.Serialize

namespace Libdogecoin

/-- `base64_char`. -/
def base64Char : Bytes :=
  "ABCDEFGHIJKLMNOPQRSTUVWXYZabcdefghijklmnopqrstuvwxyz0123456789+/".toList.map
    fun ch => UInt8.ofNat ch.toNat

/-- The character of a six-bit value. -/
def base64Digit (n : ℕ) : UInt8 := base64Char.getD n 0

/-- `base64_int`. -/
def base64Int (ch : UInt8) : ℕ :=
  let ch := ch.toNat
  if ch = 43 then 62
  else if ch = 47 then 63
  else if ch = 61 then 64
  else if 47 < ch ∧ ch < 58 then ch + 4
  else if 64 < ch ∧ ch < 91 then ch - 65
  else if 96 < ch ∧ ch < 123 then ch - 97 + 26
  else 0

/-- `base64_encode`. -/
def base64Encode : Bytes → Bytes
  | a :: b :: c :: rest =>
    base64Digit ((a.toNat &&& 255) >>> 2) ::
      base64Digit (((a.toNat &&& 0x03) <<< 4) + ((b.toNat &&& 0xF0) >>> 4)) ::
      base64Digit (((b.toNat &&& 0x0F) <<< 2) + ((c.toNat &&& 0xC0) >>> 6)) ::
      base64Digit (c.toNat &&& 0x3F) :: base64Encode rest
  | [a, b] =>
    [base64Digit ((a.toNat &&& 255) >>> 2),
      base64Digit (((a.toNat &&& 0x03) <<< 4) + ((b.toNat &&& 0xF0) >>> 4)),
      base64Digit ((b.toNat &&& 0x0F) <<< 2), 61]
  | [a] => [base64Digit ((a.toNat &&& 255) >>> 2), base64Digit ((a.toNat &&& 0x03) <<< 4), 61, 61]
  | [] => []

/-- The bytes of four characters. -/
def base64Group (s0 s1 s2 s3 : ℕ) : Bytes :=
  UInt8.ofNat (((s0 &&& 255) <<< 2) + ((s1 &&& 0x30) >>> 4)) ::
    if s2 ≠ 64 then
      UInt8.ofNat (((s1 &&& 0x0F) <<< 4) + ((s2 &&& 0x3C) >>> 2)) ::
        if s3 ≠ 64 then [UInt8.ofNat (((s2 &&& 0x03) <<< 6) + s3)] else []
    else []

/-- `base64_decode`. -/
def base64Decode : Bytes → Bytes
  | a :: b :: c :: d :: rest =>
    base64Group (base64Int a) (base64Int b) (base64Int c) (base64Int d) ++ base64Decode rest
  | _ => []

/-- `base64_decoded_size` : the product is cut to 32 bits. -/
def base64DecodedSize (inSize : UInt32) : UInt32 := 3 * inSize / 4

/-! ## Lengths -/

/-- Four characters are at most three bytes. -/
theorem length_base64Decode_le (bs : Bytes) : (base64Decode bs).length ≤ 3 * (bs.length / 4) := by
  fun_induction base64Decode bs with
  | case1 a b c d rest ih =>
    have hgroup : (base64Group (base64Int a) (base64Int b) (base64Int c)
      (base64Int d)).length ≤ 3 := by
      unfold base64Group
      split_ifs <;> simp
    simp only [List.length_append, List.length_cons]
    omega
  | case2 => exact Nat.zero_le _

/-- Four characters are at least one byte. -/
theorem le_length_base64Decode (bs : Bytes) : bs.length / 4 ≤ (base64Decode bs).length := by
  fun_induction base64Decode bs with
  | case1 a b c d rest ih =>
    have hgroup : 1 ≤ (base64Group (base64Int a) (base64Int b) (base64Int c)
      (base64Int d)).length := by
      unfold base64Group
      exact Nat.succ_le_succ (Nat.zero_le _)
    simp only [List.length_append, List.length_cons]
    omega
  | case2 bs hshort =>
    have hlen : bs.length < 4 := by
      match bs, hshort with
      | [], _ | [_], _ | [_, _], _ | [_, _, _], _ => simp
      | a :: b :: c :: d :: rest, hshort => exact absurd rfl (hshort a b c d rest)
    rw [Nat.div_eq_of_lt hlen]
    exact Nat.zero_le _

/-! ## Round trip -/

/-- The digits of the alphabet are read back. -/
theorem base64Int_digit {n : ℕ} (h : n < 64) : base64Int (base64Digit n) = n := by
  have hall : ∀ n < 64, base64Int (base64Digit n) = n := by decide +kernel
  exact hall n h

variable {x : ℕ} {a : UInt8}

/-- The parts of a byte that go into different characters. -/
theorem base64_masks (h : x < 256) :
    (x &&& 255) >>> 2 = x / 4 ∧ (x &&& 0x03) <<< 4 = x % 4 * 16 ∧ (x &&& 0xF0) >>> 4 = x / 16 ∧
      (x &&& 0x0F) <<< 2 = x % 16 * 4 ∧ (x &&& 0xC0) >>> 6 = x / 64 ∧ x &&& 0x3F = x % 64 := by
  have hall : ∀ x < 256, (x &&& 255) >>> 2 = x / 4 ∧ (x &&& 0x03) <<< 4 = x % 4 * 16 ∧
      (x &&& 0xF0) >>> 4 = x / 16 ∧ (x &&& 0x0F) <<< 2 = x % 16 * 4 ∧ (x &&& 0xC0) >>> 6 = x / 64 ∧
      x &&& 0x3F = x % 64 := by
    decide +kernel
  exact hall x h

/-- The parts of a six-bit value that go into different bytes. -/
theorem base64_parts {s : ℕ} (h : s < 64) :
    (s &&& 255) <<< 2 = s * 4 ∧ (s &&& 0x30) >>> 4 = s / 16 ∧ (s &&& 0x0F) <<< 4 = s % 16 * 16 ∧
      (s &&& 0x3C) >>> 2 = s / 4 ∧ (s &&& 0x03) <<< 6 = s % 4 * 64 := by
  have hall : ∀ s < 64, (s &&& 255) <<< 2 = s * 4 ∧ (s &&& 0x30) >>> 4 = s / 16 ∧
      (s &&& 0x0F) <<< 4 = s % 16 * 16 ∧ (s &&& 0x3C) >>> 2 = s / 4 ∧ (s &&& 0x03) <<< 6 =
        s % 4 * 64 := by
    decide +kernel
  exact hall s h

theorem uint8_ofNat_of_eq {n : ℕ} (h : n = a.toNat) : UInt8.ofNat n = a := by
  rw [h]
  exact UInt8.ofNat_toNat

/-- The first byte is in the first two characters. -/
theorem base64_byte0 (hx : x < 16) :
    UInt8.ofNat (((a.toNat / 4 &&& 255) <<< 2) + ((a.toNat % 4 * 16 + x &&& 0x30) >>> 4)) = a := by
  have ha := a.toNat_lt
  rw [(base64_parts (s := a.toNat / 4) (by omega)).1,
    (base64_parts (s := a.toNat % 4 * 16 + x) (by omega)).2.1]
  exact uint8_ofNat_of_eq (by omega)

/-- The second byte is in the second and the third character. -/
theorem base64_byte1 {b : UInt8} {y : ℕ} (hx : x < 4) (hy : y < 4) :
    UInt8.ofNat (((x * 16 + b.toNat / 16 &&& 0x0F) <<< 4) +
      ((b.toNat % 16 * 4 + y &&& 0x3C) >>> 2)) = b := by
  have hb := b.toNat_lt
  rw [(base64_parts (s := x * 16 + b.toNat / 16) (by omega)).2.2.1,
    (base64_parts (s := b.toNat % 16 * 4 + y) (by omega)).2.2.2.1]
  exact uint8_ofNat_of_eq (by omega)

/-- The third byte is in the last two characters. -/
theorem base64_byte2 {c : UInt8} (hx : x < 16) :
    UInt8.ofNat (((x * 4 + c.toNat / 64 &&& 0x03) <<< 6) + c.toNat % 64) = c := by
  have hc := c.toNat_lt
  rw [(base64_parts (s := x * 4 + c.toNat / 64) (by omega)).2.2.2.2]
  exact uint8_ofNat_of_eq (by omega)

/-- **Round trip.** -/
theorem base64Decode_encode (bs : Bytes) : base64Decode (base64Encode bs) = bs := by
  induction bs using base64Encode.induct with
  | case1 a b c rest ih =>
    have ha := a.toNat_lt
    have hb := b.toNat_lt
    have hc := c.toNat_lt
    obtain ⟨ha1, ha2, -⟩ := base64_masks ha
    obtain ⟨-, -, hb1, hb2, -⟩ := base64_masks hb
    obtain ⟨-, -, -, -, hc1, hc2⟩ := base64_masks hc
    rw [base64Encode, base64Decode, ih, ha1, ha2, hb1, hb2, hc1, hc2, base64Int_digit (by omega),
      base64Int_digit (by omega), base64Int_digit (by omega), base64Int_digit (by omega),
        base64Group,
      if_pos (by omega), if_pos (by omega), base64_byte0 (by omega),
        base64_byte1 (by omega) (by omega),
      base64_byte2 (by omega)]
    rfl
  | case2 a b =>
    have ha := a.toNat_lt
    have hb := b.toNat_lt
    obtain ⟨ha1, ha2, -⟩ := base64_masks ha
    obtain ⟨-, -, hb1, hb2, -⟩ := base64_masks hb
    have hpad : base64Int 61 = 64 := rfl
    have hbyte := base64_byte1 (b := b) (x := a.toNat % 4) (y := 0) (by omega) (by omega)
    rw [Nat.add_zero] at hbyte
    rw [base64Encode, base64Decode, base64Decode, ha1, ha2, hb1, hb2, base64Int_digit (by omega),
      base64Int_digit (by omega), base64Int_digit (by omega), hpad, base64Group, if_pos (by omega),
      if_neg (by omega), base64_byte0 (by omega), hbyte]
    · rfl
    · intro _ _ _ _ _ h
      cases h
  | case3 a =>
    have ha := a.toNat_lt
    obtain ⟨ha1, ha2, -⟩ := base64_masks ha
    have hpad : base64Int 61 = 64 := rfl
    have hbyte := base64_byte0 (a := a) (x := 0) (by omega)
    rw [Nat.add_zero] at hbyte
    rw [base64Encode, base64Decode, base64Decode, ha1, ha2, base64Int_digit (by omega),
      base64Int_digit (by omega), hpad, base64Group, if_neg (by omega), hbyte]
    · rfl
    · intro _ _ _ _ _ h
      cases h
  | case4 => rfl

example : base64Encode [77, 97] = [84, 87, 69, 61] := by decide

/-! ## Strings -/

/-- The digits of the alphabet are no NUL. -/
theorem zero_notMem_base64Encode (bs : Bytes) : 0 ∉ base64Encode bs := by
  have hdigit : ∀ n < 64, (0 : UInt8) ≠ base64Digit n := by decide +kernel
  have hpad : (0 : UInt8) ≠ 61 := by decide
  induction bs using base64Encode.induct with
  | case1 a b c rest ih =>
    have ha := a.toNat_lt
    have hb := b.toNat_lt
    have hc := c.toNat_lt
    obtain ⟨ha1, ha2, -⟩ := base64_masks ha
    obtain ⟨-, -, hb1, hb2, -⟩ := base64_masks hb
    obtain ⟨-, -, -, -, hc1, hc2⟩ := base64_masks hc
    rw [base64Encode, ha1, ha2, hb1, hb2, hc1, hc2]
    simp only [List.mem_cons, not_or]
    exact ⟨hdigit _ (by omega), hdigit _ (by omega), hdigit _ (by omega), hdigit _ (by omega), ih⟩
  | case2 a b =>
    have ha := a.toNat_lt
    have hb := b.toNat_lt
    obtain ⟨ha1, ha2, -⟩ := base64_masks ha
    obtain ⟨-, -, hb1, hb2, -⟩ := base64_masks hb
    rw [base64Encode, ha1, ha2, hb1, hb2]
    simp only [List.mem_cons, not_or]
    exact ⟨hdigit _ (by omega), hdigit _ (by omega), hdigit _ (by omega), hpad, List.not_mem_nil⟩
  | case3 a =>
    have ha := a.toNat_lt
    obtain ⟨ha1, ha2, -⟩ := base64_masks ha
    rw [base64Encode, ha1, ha2]
    simp only [List.mem_cons, not_or]
    exact ⟨hdigit _ (by omega), hdigit _ (by omega), hpad, hpad, List.not_mem_nil⟩
  | case4 => exact List.not_mem_nil

/-- Four characters for every three bytes begun. -/
theorem length_base64Encode (bs : Bytes) :
    (base64Encode bs).length = 4 * ((bs.length + 2) / 3) := by
  induction bs using base64Encode.induct with
  | case1 a b c rest ih =>
    simp only [base64Encode, List.length_cons]
    omega
  | case2 a b => simp [base64Encode]
  | case3 a => simp [base64Encode]
  | case4 => rfl

theorem length_base64Encode_le (bs : Bytes) :
    3 * (base64Encode bs).length ≤ 4 * (bs.length + 2) := by
  rw [length_base64Encode]
  omega

end Libdogecoin
