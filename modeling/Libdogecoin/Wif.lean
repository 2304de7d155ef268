/-
# Private keys as strings

`dogecoin_privkey_encode_wif` and `dogecoin_privkey_decode_wif` of `key.c`, and
`dogecoin_bip38_private_key_to_wif` and `dogecoin_bip38_wif_to_private_key` of `bip38.c`, over the
Base58Check of `base58.c`. The first decoder checks the prefix alone, the second also the number of
bytes, and neither the byte behind a compressed key.

* `decodeWif_eq_some_iff`, `wifToPrivateKey_eq_some_iff` : the strings that are read, and the keys
  in them;
* `wif_iff` : exactly when both decoders read a string as the format has it, and the round trips.
-/
import Libdogecoin.HdNodeText
import Libdogecoin.TransactionHex

namespace Libdogecoin

namespace Wif

open Base58 (base58String base58Read bytesValue checksum significant)

/-- `PRIVKEYWIFLEN`. -/
def PRIVKEYWIFLEN : ℕ := 53

/-- `b58prefix_secret_address` of the regtest chain. -/
def secretAddressRegtest : UInt8 := 0xef

/-- The values of `b58prefix_secret_address`. -/
def secretAddresses : List UInt8 := [secretAddressMain, secretAddressTest, secretAddressRegtest]

variable (kp : KeyPlatform) {key rest : Bytes}

/-- `dogecoin_privkey_encode_wif` : it always writes compressed keys, and nothing where the size
becomes 0. -/
def privkeyEncodeWif (privkey : Bytes) (secretAddress : UInt8) (strsize : ℕ) : Option Bytes :=
  Base58.base58EncodeCheck kp.toPlatform (secretAddress :: privkey ++ [1]) strsize

/-- `dogecoin_bip38_private_key_to_wif`. -/
def privateKeyToWif (privateKey : Bytes) (secretAddress : UInt8) (compressed : Bool) (wifSize : ℕ) :
    Option Bytes :=
  Base58.base58EncodeCheck kp.toPlatform (secretAddress :: privateKey ++ if compressed then
    [1] else []) wifSize

/-- `dogecoin_bip38_wif_to_private_key` through `bip38_decode_wif_payload` : the key and
`compressed`. -/
def wifToPrivateKey (wif : Bytes) (secretAddress : UInt8) : Option (Bytes × Bool) :=
  if wif.length < 46 then none
  else
    match base58Read kp.toPlatform wif (wif.length + 1) with
    | none => none
    | some payload =>
      if payload.length ≠ 37 ∧ payload.length ≠ 38 then none
      else if payload.head? ≠ some secretAddress then none
      else some ((payload.drop 1).take 32, payload.length = 38 && payload.getD 33 0 = 1)

/-- `dogecoin_privkey_decode_wif` over `base58.c`. -/
def privkeyDecodeWif (privkeyWif : Bytes) (secretAddress : UInt8) : Option Bytes :=
  decodeWif (kp.withBase58 HDKEYLEN) privkeyWif secretAddress

/-! ## The format -/

/-- The bytes of a key in the format. -/
def wifPayload (secretAddress : UInt8) (key : Bytes) (compressed : Bool) : Bytes :=
  secretAddress :: key ++ if compressed then [1] else []

/-- The string of a key of 32 bytes. -/
structure IsWif (secretAddress : UInt8) (str key : Bytes) (compressed : Bool) : Prop where
  length_key : key.length = 32
  text : str = base58String (wifPayload secretAddress key compressed ++
    checksum kp.toPlatform (wifPayload secretAddress key compressed))

/-- Both decoders read a string as the format has it. -/
structure WifRight (secretAddress : UInt8) (str : Bytes) : Prop where
  decode : ∀ key, privkeyDecodeWif kp str secretAddress = some key ↔ ∃ compressed,
    IsWif kp secretAddress str key compressed
  toPrivateKey : ∀ key compressed, wifToPrivateKey kp str secretAddress = some (key, compressed) ↔
    IsWif kp secretAddress str key compressed

/-- A string of 50 to 128 characters that is made of the prefix and other bytes is made of a key. -/
def OnlyWif (secretAddress : UInt8) (str : Bytes) : Prop :=
  50 ≤ str.length → str.length ≤ 128 → ∀ rest,
    str = base58String (secretAddress :: rest ++ checksum kp.toPlatform (secretAddress :: rest)) →
      rest.length = 32 ∨ ∃ key : Bytes, key.length = 32 ∧ rest = key ++ [1]

variable {kp} {secretAddress : UInt8}

theorem le_secretAddress (h : secretAddress ∈ secretAddresses) : 0x9e ≤ secretAddress.toNat := by
  have hall : ∀ s ∈ secretAddresses, 0x9e ≤ s.toNat := by decide +kernel
  exact hall _ h

/-! ## The lengths of strings -/

theorem bytesValue_cons (b : UInt8) (bs : Bytes) :
    bytesValue (b :: bs) = b.toNat * 256 ^ bs.length + bytesValue bs := by
  unfold bytesValue
  rw [List.map_cons, Radix.value_cons, List.length_map]

/-- The string of some bytes has as many characters as their number has digits. -/
theorem length_base58String_cons {b : UInt8} (hb : 0 < b.toNat) (bs : Bytes) (k : ℕ) :
    (base58String (b :: bs)).length ≤ k ↔ b.toNat * 256 ^ bs.length + bytesValue bs < 58 ^ k := by
  have hfirst : 256 ^ bs.length ≤ bytesValue (b :: bs) := by
    rw [bytesValue_cons]
    calc 256 ^ bs.length ≤ b.toNat * 256 ^ bs.length := Nat.le_mul_of_pos_left _ hb
      _ ≤ _ := Nat.le_add_right _ _
  rw [Base58.length_base58String_of_le List.length_cons hfirst, Base58.length_base58Digits_le_iff,
    bytesValue_cons]

/-- Strings of 33 bytes and more behind the prefix have at least 50 characters, and less than 35
bytes at most 52. -/
theorem length_base58String_wif (hsecret : secretAddress ∈ secretAddresses) (bs : Bytes) :
    (36 ≤ bs.length → 50 ≤ (base58String (secretAddress :: bs)).length) ∧
      (bs.length ≤ 37 → (base58String (secretAddress :: bs)).length ≤ 52) := by
  have hle := le_secretAddress hsecret
  have hpos : 0 < secretAddress.toNat := by omega
  constructor
  · intro hlen
    by_contra hshort
    have hlt := (length_base58String_cons hpos bs 49).mp (by omega)
    have hpow : 256 ^ 36 ≤ 256 ^ bs.length := Nat.pow_le_pow_right (by norm_num) hlen
    have hmul : 0x9e * 256 ^ 36 ≤ secretAddress.toNat * 256 ^ bs.length := Nat.mul_le_mul hle hpow
    have hlarge : 58 ^ 49 ≤ 0x9e * 256 ^ 36 := by norm_num
    omega
  · intro hlen
    rw [length_base58String_cons hpos]
    have hvalue := Radix.value_lt (by norm_num) (Base58.bytes_lt bs)
    rw [List.length_map] at hvalue
    calc secretAddress.toNat * 256 ^ bs.length + bytesValue bs
        < secretAddress.toNat * 256 ^ bs.length + 256 ^ bs.length := Nat.add_lt_add_left hvalue _
      _ = (secretAddress.toNat + 1) * 256 ^ bs.length := (Nat.succ_mul _ _).symm
      _ ≤ 256 * 256 ^ 37 := Nat.mul_le_mul secretAddress.toNat_lt
        (Nat.pow_le_pow_right (by norm_num) hlen)
      _ < 58 ^ 52 := by norm_num

/-- The string of a checksum alone is short. -/
theorem length_base58String_checksum (payload : Bytes) :
    (base58String (checksum kp.toPlatform payload)).length ≤ 10 := by
  have hlen := Base58.length_checksum kp.toPlatform payload
  have hzeros := (List.takeWhile_sublist (fun b : UInt8 => decide (b = 0))
    (l := checksum kp.toPlatform payload)).length_le
  have hdigits : (Base58.base58Digits (checksum kp.toPlatform payload)).length ≤ 6 := by
    have hvalue := Radix.value_lt (by norm_num) (Base58.bytes_lt (checksum kp.toPlatform payload))
    rw [List.length_map, hlen] at hvalue
    exact (Base58.length_base58Digits_le_iff _ _).mpr (hvalue.trans (by norm_num))
  rw [Base58.length_base58String]
  omega

/-! ## What is read -/

/-- **What is decoded** of a string whose first byte is the prefix. -/
theorem base58Read_wif_iff (hsecret : secretAddress ∈ secretAddresses) {datalen : ℕ}
    (hroom : 22 ≤ datalen) {str : Bytes} (hlong : 46 ≤ str.length) (hdatalen : str.length ≤ datalen)
    (bin : Bytes) :
    (base58Read kp.toPlatform str datalen = some bin ∧ bin.head? = some secretAddress) ↔
      str.length ≤ 128 ∧ ∃ rest, bin = secretAddress ::
        rest ++ checksum kp.toPlatform (secretAddress :: rest) ∧
        str = base58String bin := by
  rw [Base58.base58Read_eq_some_iff hroom]
  constructor
  · rintro ⟨⟨⟨hlen, -⟩, -, hstr, payload, rfl⟩, hhead⟩
    cases payload with
    | nil =>
      have hshort := @length_base58String_checksum kp []
      rw [List.nil_append] at hstr
      rw [← hstr] at hshort
      omega
    | cons b rest =>
      obtain rfl := Option.some.inj hhead
      exact ⟨hlen, rest, rfl, hstr⟩
  · rintro ⟨hlen, rest, rfl, hstr⟩
    refine ⟨⟨⟨hlen, hdatalen⟩, ?_, hstr, secretAddress :: rest, rfl⟩, rfl⟩
    intro hnil
    have hzero := Base58.bytesValue_significant (secretAddress ::
      rest ++ checksum kp.toPlatform (secretAddress :: rest))
    rw [hnil, List.cons_append, bytesValue_cons] at hzero
    have hpos : 0 < secretAddress.toNat *
      256 ^ (rest ++ checksum kp.toPlatform (secretAddress :: rest)).length :=
      Nat.mul_pos (by have := le_secretAddress hsecret; omega) (Nat.pow_pos (by norm_num))
    have hnone : bytesValue [] = 0 := rfl
    omega

/-- **The strings that `dogecoin_privkey_decode_wif` reads,** whatever the number of bytes is. -/
theorem decodeWif_eq_some_iff (hsecret : secretAddress ∈ secretAddresses) (str key : Bytes) :
    privkeyDecodeWif kp str secretAddress = some key ↔
      50 ≤ str.length ∧ str.length ≤ 128 ∧ ∃ rest,
        str = base58String (secretAddress ::
          rest ++ checksum kp.toPlatform (secretAddress :: rest)) ∧
        key = (rest ++ checksum kp.toPlatform (secretAddress :: rest) ++
          List.replicate 32 0).take 32 := by
  unfold privkeyDecodeWif decodeWif
  by_cases hshort : str.length < 50
  · rw [if_pos hshort]
    exact iff_of_false (fun h => nomatch h) fun h => absurd h.1 (Nat.not_le.mpr hshort)
  · rw [if_neg hshort, and_iff_right (Nat.not_lt.mp hshort)]
    show (match base58Read kp.toPlatform str str.length with
      | none => none
      | some privkeyData => _) = some key ↔ _
    have hread := @base58Read_wif_iff kp _ hsecret str.length (by omega) str (by omega) le_rfl
    constructor
    · intro h
      cases hbin : base58Read kp.toPlatform str str.length with
      | none =>
        rw [hbin] at h
        cases h
      | some bin =>
        rw [hbin] at h
        dsimp only at h
        split at h
        · cases h
        next hhead =>
          obtain ⟨hlen, rest, rfl, hstr⟩ := (hread bin).mp ⟨hbin, not_not.mp hhead⟩
          exact ⟨hlen, rest, hstr, (Option.some.inj h).symm⟩
    · rintro ⟨hlen, rest, hstr, rfl⟩
      obtain ⟨hbin, hhead⟩ := (hread _).mpr ⟨hlen, rest, rfl, hstr⟩
      rw [hbin]
      dsimp only
      rw [if_neg (not_not.mpr hhead)]
      rfl

/-- **The strings that `dogecoin_bip38_wif_to_private_key` reads.** -/
theorem wifToPrivateKey_eq_some_iff (hsecret : secretAddress ∈ secretAddresses) (str key : Bytes)
    (compressed : Bool) :
    wifToPrivateKey kp str secretAddress = some (key, compressed) ↔
      ∃ rest, (rest.length = 32 ∨ rest.length = 33) ∧
        str = base58String (secretAddress ::
          rest ++ checksum kp.toPlatform (secretAddress :: rest)) ∧
        key = rest.take 32 ∧ compressed = (rest.getD 32 0 == 1 && rest.length == 33) := by
  have hchecksum : ∀ rest, (checksum kp.toPlatform (secretAddress :: rest)).length = 4 :=
    fun rest =>
    Base58.length_checksum _ _
  -- what the decoder makes of the bytes behind the prefix
  have hkey : ∀ rest : Bytes, rest.length = 32 ∨ rest.length = 33 →
      ((((secretAddress :: rest ++ checksum kp.toPlatform (secretAddress :: rest)).drop 1).take 32,
        decide ((secretAddress :: rest ++
          checksum kp.toPlatform (secretAddress :: rest)).length = 38) &&
          decide ((secretAddress :: rest ++ checksum kp.toPlatform (secretAddress :: rest)).getD 33
            0 = 1)) : Bytes × Bool) =
        (rest.take 32, (rest.getD 32 0 == 1 && rest.length == 33)) := by
    intro rest hrest
    have hlen : (secretAddress :: rest ++ checksum kp.toPlatform (secretAddress :: rest)).length =
      rest.length + 5 := by
      rw [List.length_append, hchecksum, List.length_cons]
    rw [hlen]
    apply Prod.ext
    · show (rest ++ _).take 32 = _
      rw [List.take_append_of_le_length (by omega)]
    · show (decide (rest.length + 5 = 38) && decide ((rest ++ _).getD 32 0 = 1)) = _
      rcases hrest with h | h
      · rw [h]
        simp
      · rw [List.getD_append _ _ _ _ (by omega), h]
        simp only [decide_true, Bool.true_and, beq_self_eq_true, Bool.and_true]
        rfl
  unfold wifToPrivateKey
  constructor
  · intro h
    split at h
    · cases h
    next hlong =>
      cases hbin : base58Read kp.toPlatform str (str.length + 1) with
      | none =>
        rw [hbin] at h
        cases h
      | some bin =>
        rw [hbin] at h
        dsimp only at h
        split at h
        · cases h
        next hcount =>
          split at h
          · cases h
          next hhead =>
            obtain ⟨-, rest, rfl, hstr⟩ :=
              (@base58Read_wif_iff kp _ hsecret (str.length + 1) (by omega) str
              (by omega) (by omega) bin).mp ⟨hbin, not_not.mp hhead⟩
            have hlen : (secretAddress :: rest ++
              checksum kp.toPlatform (secretAddress :: rest)).length = rest.length + 5 := by
              rw [List.length_append, hchecksum, List.length_cons]
            have hrest : rest.length = 32 ∨ rest.length = 33 := by omega
            rw [hkey rest hrest] at h
            obtain ⟨hk, hc⟩ := Prod.mk.inj (Option.some.inj h)
            exact ⟨rest, hrest, hstr, hk.symm, hc.symm⟩
  · rintro ⟨rest, hrest, hstr, rfl, rfl⟩
    have hlen : (rest ++ checksum kp.toPlatform (secretAddress :: rest)).length =
      rest.length + 4 := by
      rw [List.length_append, hchecksum]
    obtain ⟨hlow, hhigh⟩ := length_base58String_wif hsecret
      (rest ++ checksum kp.toPlatform (secretAddress :: rest))
    rw [← List.cons_append, ← hstr] at hlow hhigh
    have hlow := hlow (by omega)
    have hhigh := hhigh (by omega)
    obtain ⟨hbin, hhead⟩ := (@base58Read_wif_iff kp _ hsecret (str.length + 1) (by omega) str
      (by omega) (by omega) _).mpr ⟨by omega, rest, rfl, hstr⟩
    rw [if_neg (by omega), hbin]
    dsimp only
    rw [if_neg (by rw [List.cons_append, List.length_cons]; omega), if_neg (not_not.mpr hhead),
      hkey rest hrest]

/-! ## Keys -/

variable {str : Bytes}

/-- The string of a key is read by both decoders, with its key and its form. -/
theorem IsWif.decode (hsecret : secretAddress ∈ secretAddresses) {compressed : Bool}
    (h : IsWif kp secretAddress str key compressed) :
    privkeyDecodeWif kp str secretAddress = some key ∧
      wifToPrivateKey kp str secretAddress = some (key, compressed) := by
  have hkey := h.length_key
  have htext := h.text
  unfold wifPayload at htext
  rw [List.cons_append] at htext
  generalize hchk : checksum kp.toPlatform (secretAddress ::
    (key ++ if compressed then [1] else [])) = chk at htext
  have hchecksum : chk.length = 4 := by rw [← hchk, Base58.length_checksum]
  obtain ⟨hlow, hhigh⟩ := length_base58String_wif hsecret
    (key ++ (if compressed then [1] else []) ++ chk)
  rw [List.cons_append] at htext
  rw [← htext] at hlow hhigh
  have hlen : (key ++ (if compressed then [1] else []) ++ chk).length =
    36 + if compressed then 1 else 0 := by
    rw [List.length_append, List.length_append, hchecksum, hkey]
    cases compressed with
    | false => rfl
    | true => rfl
  rw [hlen] at hlow hhigh
  have hlow := hlow (Nat.le_add_right _ _)
  have hhigh := hhigh (by split <;> omega)
  rw [← List.cons_append, ← hchk] at htext
  constructor
  · rw [decodeWif_eq_some_iff hsecret]
    refine ⟨hlow, by omega, key ++ (if compressed then [1] else []), htext, ?_⟩
    rw [List.append_assoc, List.append_assoc, List.take_left' hkey]
  · rw [wifToPrivateKey_eq_some_iff hsecret]
    refine ⟨key ++ (if compressed then [1] else []), ?_, htext, (List.take_left' hkey).symm, ?_⟩
    · rw [List.length_append, hkey]
      cases compressed with
      | false => exact Or.inl rfl
      | true => exact Or.inr rfl
    · rw [List.length_append, List.getD_append_right _ _ _ _ (by omega), hkey]
      cases compressed with
      | false => rfl
      | true => rfl

/-- A string has one payload. -/
theorem payload_inj {datalen : ℕ} (hsecret : secretAddress ∈ secretAddresses) (hroom : 22 ≤ datalen)
    (hlong : 46 ≤ str.length) (hshort : str.length ≤ 128) (hdatalen : str.length ≤ datalen)
    {rest' : Bytes}
    (h : str = base58String (secretAddress ::
      rest ++ checksum kp.toPlatform (secretAddress :: rest)))
    (h' : str = base58String (secretAddress ::
      rest' ++ checksum kp.toPlatform (secretAddress :: rest'))) :
    rest = rest' := by
  have hread := @base58Read_wif_iff kp _ hsecret datalen hroom str hlong hdatalen
  have hsame := ((hread _).mpr ⟨hshort, rest, rfl, h⟩).1.symm.trans
    ((hread _).mpr ⟨hshort, rest', rfl, h'⟩).1
  have happend := Option.some.inj hsame
  have hpayload := (List.append_inj' happend
    (by rw [Base58.length_checksum, Base58.length_checksum])).1
  exact (List.cons.inj hpayload).2

/-- What a string of the format is, by the bytes behind the prefix. -/
theorem isWif_of_rest
    (hstr : str = base58String (secretAddress ::
      rest ++ checksum kp.toPlatform (secretAddress :: rest)))
    (hrest : rest.length = 32 ∨ ∃ key : Bytes, key.length = 32 ∧ rest = key ++ [1]) :
    IsWif kp secretAddress str (rest.take 32) (rest.getD 32 0 == 1 && rest.length == 33) := by
  rcases hrest with hlen | ⟨key, hkey, rfl⟩
  · have hflag : (rest.getD 32 0 == 1 && rest.length == 33) = false := by
      rw [hlen]
      exact Bool.and_false _
    rw [hflag, List.take_of_length_le hlen.le]
    refine ⟨hlen, ?_⟩
    unfold wifPayload
    simpa using hstr
  · have hflag : ((key ++ [1]).getD 32 0 == 1 && (key ++ [1]).length == 33) = true := by
      rw [List.getD_append_right _ _ _ _ hkey.le, List.length_append, hkey]
      rfl
    rw [hflag, List.take_left' hkey]
    exact ⟨hkey, hstr⟩

/-- **Which strings are read as the format has it.** -/
theorem wifRight_iff (hsecret : secretAddress ∈ secretAddresses) (str : Bytes) :
    WifRight kp secretAddress str ↔ OnlyWif kp secretAddress str := by
  constructor
  · intro h hlong hshort rest hstr
    obtain ⟨compressed, hwif⟩ := (h.decode _).mp ((decodeWif_eq_some_iff hsecret str _).mpr
      ⟨hlong, hshort, rest, hstr, rfl⟩)
    have hsame := payload_inj hsecret (by omega) (by omega) hshort le_rfl hstr hwif.text
    rw [hsame]
    cases compressed with
    | false =>
      left
      exact (congrArg List.length (List.append_nil _)).trans hwif.length_key
    | true => exact Or.inr ⟨_, hwif.length_key, rfl⟩
  · intro h
    refine ⟨?_, ?_⟩
    · intro key
      constructor
      · intro hdecode
        obtain ⟨hlong, hshort, rest, hstr, rfl⟩ :=
          (decodeWif_eq_some_iff hsecret str key).mp hdecode
        have hrest := h hlong hshort rest hstr
        refine ⟨rest.getD 32 0 == 1 && rest.length == 33, ?_⟩
        rw [List.append_assoc, List.take_append_of_le_length]
        · exact isWif_of_rest hstr hrest
        · rcases hrest with hlen | ⟨key, hkey, rfl⟩
          · exact hlen.ge
          · rw [List.length_append, hkey]
            exact Nat.le_succ _
      · rintro ⟨compressed, hwif⟩
        exact (hwif.decode hsecret).1
    · intro key compressed
      constructor
      · intro hdecode
        obtain ⟨rest, hrest, hstr, rfl, rfl⟩ :=
          (wifToPrivateKey_eq_some_iff hsecret str key compressed).mp hdecode
        have hchecksum := Base58.length_checksum kp.toPlatform (secretAddress :: rest)
        obtain ⟨hlow, hhigh⟩ := length_base58String_wif hsecret
          (rest ++ checksum kp.toPlatform (secretAddress :: rest))
        rw [← List.cons_append, ← hstr, List.length_append, hchecksum] at hlow hhigh
        have hhigh := hhigh (by omega)
        exact isWif_of_rest hstr (h (hlow (by omega)) (by omega) rest hstr)
      · exact fun hwif => (hwif.decode hsecret).2

/-- What an encoder writes is the string of the key. -/
theorem isWif_of_encodeCheck {key str : Bytes} {compressed : Bool} {strsize : ℕ}
    (hkey : key.length = 32) (h : Base58.base58EncodeCheck kp.toPlatform
      (wifPayload secretAddress key compressed) strsize =
      some str) :
    IsWif kp secretAddress str key compressed := by
  unfold Base58.base58EncodeCheck at h
  split at h
  · cases h
  · rw [Base58.base58Encode_eq] at h
    split at h
    · cases h
    · exact ⟨hkey, (Option.some.inj h).symm⟩

/-- A buffer of `PRIVKEYWIFLEN` bytes holds every key. -/
theorem isSome_encodeCheck (hsecret : secretAddress ∈ secretAddresses) (hkey : key.length = 32)
    (compressed : Bool) {strsize : ℕ} (hstrsize : PRIVKEYWIFLEN ≤ strsize) :
    (Base58.base58EncodeCheck kp.toPlatform (wifPayload secretAddress key compressed)
      strsize).isSome := by
  have hrest : (key ++ (if compressed then [1] else ([] : Bytes))).length ≤ 33 := by
    rw [List.length_append, hkey]
    cases compressed with
    | false => exact Nat.le_succ _
    | true => exact le_rfl
  have hchecksum := Base58.length_checksum kp.toPlatform (wifPayload secretAddress key compressed)
  have hhigh := (length_base58String_wif hsecret (key ++ (if compressed then [1] else []) ++
    checksum kp.toPlatform (wifPayload secretAddress key compressed))).2
    (by rw [List.length_append, hchecksum]; omega)
  unfold PRIVKEYWIFLEN at hstrsize
  rw [Base58.base58EncodeCheck_eq]
  · rfl
  · unfold wifPayload
    rw [List.cons_append, List.length_cons]
    omega
  · exact Nat.lt_of_le_of_lt hhigh (by omega)

/-- Both decoders give back the key and the form of what an encoder wrote. -/
structure RoundTrip (kp : KeyPlatform) (secretAddress : UInt8) (key : Bytes) : Prop where
  encodeWif : ∀ strsize str, privkeyEncodeWif kp key secretAddress strsize = some str →
    privkeyDecodeWif kp str secretAddress = some key ∧ wifToPrivateKey kp str secretAddress =
      some (key, true)
  toWif : ∀ compressed strsize str, privateKeyToWif kp key secretAddress compressed strsize =
    some str →
    privkeyDecodeWif kp str secretAddress = some key ∧ wifToPrivateKey kp str secretAddress =
      some (key, compressed)
  encodes : ∀ strsize, PRIVKEYWIFLEN ≤ strsize →
    (privkeyEncodeWif kp key secretAddress strsize).isSome ∧
    ∀ compressed, (privateKeyToWif kp key secretAddress compressed strsize).isSome

/-- **Private keys as strings.** Both decoders read a string as the format has it if and only if it
is made of no other bytes behind the prefix; every key is read back from what the encoders write. -/
theorem wif_iff (hsecret : secretAddress ∈ secretAddresses) :
    (∀ str, WifRight kp secretAddress str ↔ OnlyWif kp secretAddress str) ∧
      ∀ key : Bytes, key.length = 32 → RoundTrip kp secretAddress key := by
  refine ⟨wifRight_iff hsecret, fun key hkey => ⟨?_, ?_, ?_⟩⟩
  · intro strsize str h
    exact (@isWif_of_encodeCheck kp secretAddress key str true strsize hkey h).decode hsecret
  · intro compressed strsize str h
    exact (isWif_of_encodeCheck hkey h).decode hsecret
  · intro strsize hstrsize
    exact ⟨isSome_encodeCheck hsecret hkey true hstrsize,
      fun compressed => isSome_encodeCheck hsecret hkey compressed hstrsize⟩

/-- The equivalences and the round trips for one string and one key of the main chain. -/
theorem wif_main : (WifRight sampleKeys secretAddressMain [81] ↔
    OnlyWif sampleKeys secretAddressMain [81]) ∧
    RoundTrip sampleKeys secretAddressMain (List.replicate 32 7) := by
  have h := @wif_iff sampleKeys secretAddressMain (by decide)
  exact ⟨h.1 [81], h.2 _ List.length_replicate⟩

/-- A key with the byte 2 behind it is read by both decoders, by the second as an uncompressed
one. -/
theorem not_wifRight : ¬ ∀ (kp : KeyPlatform) (secretAddress : UInt8),
    secretAddress ∈ secretAddresses →
    ∀ str, WifRight kp secretAddress str := by
  intro hall
  have hright := hall sampleKeys secretAddressMain (by decide)
    (base58String (secretAddressMain :: (List.replicate 32 7 ++ [2]) ++
      checksum sampleKeys.toPlatform (secretAddressMain :: (List.replicate 32 7 ++ [2]))))
  have hrest := (wifRight_iff (by decide) _).mp hright (by decide +kernel) (by decide +kernel) _ rfl
  rcases hrest with hlen | ⟨key, hkey, heq⟩
  · exact absurd hlen (by decide)
  · have hlast := congrArg List.getLast? heq
    rw [List.getLast?_append, List.getLast?_append] at hlast
    exact absurd (Option.some.inj hlast) (by decide)

end Wif

end Libdogecoin
