/-
# Opening encrypted keys

What is assumed of the parts, how payloads are taken apart, and a key under a passphrase.

* `Bip38Platform.decode_encode_of_base58` : what is assumed of Base58Check is true of `base58.c`;
* `decryptEx_encrypt` : what is encrypted under a passphrase is opened with it.
-/
import Libdogecoin.Base58Canonical
import Libdogecoin.Bip38

namespace Libdogecoin

open MaskedCipher

/-! ## What is assumed -/

/-- What is documented of multiplication: it is commutative, it is associative with the
multiplication of the base point, it leads from valid scalars to valid ones, and a serialized point
is parsed. -/
structure CurvePoints.Laws (cv : CurvePoints) (valid : Bytes → Bool) : Prop where
  exists_create : ∀ {key : Bytes}, valid key = true → ∃ point, cv.pubkeyCreate key = some point
  length_serialize : ∀ {key point : Bytes} (compressed : Bool), cv.pubkeyCreate key = some point →
    (cv.pubkeySerialize point compressed).length = if compressed then 33 else 65
  parse_serialize : ∀ {key point : Bytes} (compressed : Bool), cv.pubkeyCreate key = some point →
    cv.pubkeyParse (cv.pubkeySerialize point compressed) = some point
  exists_mul : ∀ {a b : Bytes}, valid a = true → valid b = true →
    ∃ c, cv.privkeyTweakMul a b = some c ∧ valid c = true
  mul_comm : ∀ {a b : Bytes}, valid a = true → valid b = true → cv.privkeyTweakMul a b =
    cv.privkeyTweakMul b a
  mul_create : ∀ {a b c point : Bytes}, valid a = true → valid b = true →
    cv.privkeyTweakMul a b = some c →
    cv.pubkeyCreate a = some point → cv.pubkeyTweakMul point b = cv.pubkeyCreate c

/-- What is documented of the parts. -/
structure Bip38Platform.Laws (bp : Bip38Platform) : Prop where
  points : bp.points.Laws bp.curve.seckeyVerify
  aes256 : bp.aes256.Lawful 16
  decode_encode : ∀ {payload : Bytes}, payload.length ≤ Bip38.confirmationPayloadLen →
    bp.base58DecodeCheck (bp.base58EncodeCheck payload) Bip38.base58DecodeBuflen =
      some (payload ++ (bp.sha256d payload).1.take 4)

/-- What is relied on of Base58Check is true of the strings of `base58.c`, if no zeros have the
checksum zero. -/
theorem Bip38Platform.decode_encode_of_base58 {bp : Bip38Platform} (hencode : ∀ payload : Bytes,
      bp.base58EncodeCheck payload =
        Base58.base58String (payload ++ Base58.checksum bp.toPlatform payload))
    (hdecode : bp.base58DecodeCheck = Base58.base58Read bp.toPlatform)
    (hzeros : ∀ n ≤ Bip38.confirmationPayloadLen,
      Base58.checksum bp.toPlatform (List.replicate n 0) ≠ List.replicate 4 0)
    {payload : Bytes} (hlen : payload.length ≤ Bip38.confirmationPayloadLen) :
    bp.base58DecodeCheck (bp.base58EncodeCheck payload) Bip38.base58DecodeBuflen =
      some (payload ++ (bp.sha256d payload).1.take 4) := by
  rw [hencode, hdecode]
  apply Base58.base58Read_base58String (by decide) le_rfl (hzeros _ hlen)
  have hle := Base58.length_base58String_le_two_mul
    (payload ++ Base58.checksum bp.toPlatform payload)
  rw [List.length_append, Base58.length_checksum] at hle
  unfold Bip38.confirmationPayloadLen at hlen
  omega

namespace CurvePoints

variable {cv : CurvePoints} {valid : Bytes → Bool} {a b c : Bytes}

theorem eccGetPubkey_eq {key point : Bytes} (h : cv.pubkeyCreate key = some point)
    (compressed : Bool) :
    cv.eccGetPubkey key compressed = cv.pubkeySerialize point compressed := by
  unfold eccGetPubkey
  rw [h]

theorem length_eccGetPubkey (h : cv.Laws valid) (key : Bytes) (compressed : Bool) :
    (cv.eccGetPubkey key compressed).length = if compressed then 33 else 65 := by
  unfold eccGetPubkey
  cases hpoint : cv.pubkeyCreate key with
  | none => exact List.length_replicate
  | some point => exact h.length_serialize compressed hpoint

/-- Multiplying the point is multiplying the scalar. -/
theorem eccPublicKeyTweakMul_eq (h : cv.Laws valid) (ha : valid a = true) (hb : valid b = true)
    (hc : cv.privkeyTweakMul a b = some c) :
    cv.eccPublicKeyTweakMul (cv.eccGetPubkey a true) b = some (cv.eccGetPubkey c true) := by
  obtain ⟨point, hpoint⟩ := h.exists_create ha
  obtain ⟨c', hc', hvalid⟩ := h.exists_mul ha hb
  obtain rfl := Option.some.inj (hc.symm.trans hc')
  obtain ⟨product, hproduct⟩ := h.exists_create hvalid
  unfold eccPublicKeyTweakMul
  rw [eccGetPubkey_eq hpoint, eccGetPubkey_eq hproduct, h.parse_serialize true hpoint]
  show (cv.pubkeyTweakMul point b).bind _ = _
  rw [h.mul_create ha hb hc hpoint, hproduct]
  rfl

/-- A point is serialized anew. -/
theorem eccPointSerialize_eq (h : cv.Laws valid) (hc : valid c = true) (compressed : Bool) :
    cv.eccPointSerialize (cv.eccGetPubkey c true) compressed =
      some (cv.eccGetPubkey c compressed) := by
  obtain ⟨point, hpoint⟩ := h.exists_create hc
  unfold eccPointSerialize
  rw [eccGetPubkey_eq hpoint, eccGetPubkey_eq hpoint, h.parse_serialize true hpoint]
  rfl

end CurvePoints

namespace Bip38

variable {bp : Bip38Platform} {flagByte : UInt8} {passphrase e : Bytes} {compressed : Bool}

/-! ## Slices and blocks -/

/-- A part of known length behind a part of known length. -/
theorem slice_eq (front mid rest : Bytes) {off len : ℕ} (hoff : front.length = off)
    (hlen : mid.length = len) :
    slice (front ++ (mid ++ rest)) off len = mid := by
  rw [slice, List.drop_left' hoff, List.take_left' hlen]

theorem length_slice {bs : Bytes} {off len : ℕ} (h : off + len ≤ bs.length) :
    (slice bs off len).length = len := by
  rw [slice, List.length_take, List.length_drop]
  omega

theorem length_addressHash (address : Bytes) : (addressHash bp address).length = 4 := by
  rw [addressHash, List.length_take, (bp.sha256d address).2]
  rfl

/-- A block is read back. -/
theorem aes256DecryptBlock_encryptBlock (h : bp.Laws) (derived : BytesOf 64)
    {plain : Bytes} {off : ℕ} (hoff : off + 16 ≤ 64) (hplain : 16 ≤ plain.length) :
    aes256DecryptBlock bp derived.1 (aes256EncryptBlock bp derived.1 plain off) off =
      plain.take 16 ∧
      (aes256EncryptBlock bp derived.1 plain off).length = 16 := by
  have hmask : (slice derived.1 off 16).length = 16 := length_slice (by rw [derived.2]; exact hoff)
  have htake : (plain.take 16).length = 16 := List.length_take_of_le hplain
  have hlen : (aes256EncryptBlock bp derived.1 plain off).length = 16 :=
    BlockCipher.length_maskEncrypt h.aes256 hmask htake
  refine ⟨?_, hlen⟩
  unfold aes256DecryptBlock
  rw [List.take_of_length_le (le_of_eq hlen)]
  exact BlockCipher.maskDecrypt_maskEncrypt h.aes256 hmask htake

variable {privateKey : Bytes} {size : ℕ}

/-- Two halves are read back. -/
theorem decryptHalves_encryptHalves (h : bp.Laws) (derived : BytesOf 64)
    (hkey : privateKey.length = 32) :
    decryptHalves bp (encryptHalves bp privateKey derived.1) derived.1 = privateKey ∧
      (encryptHalves bp privateKey derived.1).length = 32 := by
  obtain ⟨hfirst, hlen1⟩ := @aes256DecryptBlock_encryptBlock bp h derived privateKey 0
    (by decide) (by omega)
  obtain ⟨hsecond, hlen2⟩ := @aes256DecryptBlock_encryptBlock bp h derived
    (privateKey.drop 16) 16 (by decide) (by rw [List.length_drop]; omega)
  have hfront : aes256DecryptBlock bp derived.1 (encryptHalves bp privateKey derived.1) 0 =
      aes256DecryptBlock bp derived.1 (aes256EncryptBlock bp derived.1 privateKey 0) 0 := by
    unfold aes256DecryptBlock encryptHalves
    rw [List.take_left' hlen1, List.take_of_length_le (le_of_eq hlen1)]
  have hback : (encryptHalves bp privateKey derived.1).drop 16 =
      aes256EncryptBlock bp derived.1 (privateKey.drop 16) 16 := List.drop_left' hlen1
  constructor
  · unfold decryptHalves
    rw [hfront, hback, hfirst, hsecond, List.take_of_length_le (l := privateKey.drop 16)
      (by rw [List.length_drop]; omega), List.take_append_drop]
  · rw [encryptHalves, List.length_append, hlen1, hlen2]

/-! ## Payloads -/

theorem base58EncodeInto_eq_some {payload str : Bytes}
    (h : base58EncodeInto bp payload size = some str) :
    str = bp.base58EncodeCheck payload := by
  unfold base58EncodeInto at h
  dsimp only at h
  split_ifs at h
  exact (Option.some.inj h).symm

/-- The flags of a compressed key, and those with a lot and a sequence. -/
def flags (compressed hasLotSequence : Bool) : UInt8 :=
  (if compressed then compressedFlag else 0) ||| (if hasLotSequence then lotSequenceFlag else 0)

theorem flags_spec (compressed hasLotSequence : Bool) :
    validateFlags typeEcMultiplied (flags compressed hasLotSequence) = true ∧
      decide (flags compressed hasLotSequence &&& compressedFlag ≠ 0) = compressed ∧
      decide (flags compressed hasLotSequence &&& lotSequenceFlag ≠ 0) = hasLotSequence := by
  cases compressed <;> cases hasLotSequence <;> decide

theorem nonEcFlags_spec (compressed : Bool) :
    validateFlags typeNonEc (flagBase ||| (if compressed then compressedFlag else 0)) = true ∧
      decide ((flagBase ||| (if compressed then compressedFlag else 0)) &&& compressedFlag ≠ 0) =
        compressed := by
  cases compressed <;> decide

/-- What is written as an encrypted key is decoded. -/
theorem decodeEncryptedPayload_eq (h : bp.Laws) {typeByte flagByte : UInt8} {body : Bytes}
    (hbody : body.length = 36) (htype : typeByte = typeNonEc ∨ typeByte = typeEcMultiplied)
    (hflags : validateFlags typeByte flagByte = true) :
    decodeEncryptedPayload bp (bp.base58EncodeCheck ([magicByte, typeByte, flagByte] ++ body)) =
      some ([magicByte, typeByte, flagByte] ++ body ++
        (bp.sha256d ([magicByte, typeByte, flagByte] ++ body)).1.take 4) := by
  have hlen : ([magicByte, typeByte, flagByte] ++ body).length = payloadLen := by
    rw [List.length_append, hbody]
    rfl
  have hchecksum : ((bp.sha256d ([magicByte, typeByte, flagByte] ++ body)).1.take
    4).length = 4 := by
    rw [List.length_take, (bp.sha256d _).2]
    rfl
  have htype' : ¬ (typeByte ≠ typeNonEc ∧ typeByte ≠ typeEcMultiplied) := by
    rcases htype with rfl | rfl <;> decide
  unfold decodeEncryptedPayload
  rw [h.decode_encode (by rw [hlen]; decide)]
  dsimp only [Option.bind_eq_bind, Option.bind_some]
  rw [if_neg (by rw [List.length_append, hlen, hchecksum]; decide)]
  simp only [List.cons_append, List.nil_append, List.getD_cons_zero, List.getD_cons_succ, ne_eq,
    not_true_eq_false, if_false, hflags]
  rw [if_neg htype', if_neg (by decide)]

/-- The type byte says who decrypts. -/
theorem decryptDecoded_nonEc (hflags : validateFlags typeNonEc flagByte = true)
    (rest passphrase : Bytes) (passphraseLen : ℕ) (mode : AddressMatch) :
    decryptDecoded bp ([magicByte, typeNonEc, flagByte] ++ rest) passphrase passphraseLen mode =
      decryptNonEcBytes bp ([magicByte, typeNonEc, flagByte] ++ rest) passphrase
        passphraseLen mode := by
  unfold decryptDecoded
  simp only [List.cons_append, List.nil_append, List.getD_cons_zero, List.getD_cons_succ, ne_eq,
    not_true_eq_false, if_false, hflags, if_true, Bool.true_eq_false]

@[inherit_doc decryptDecoded_nonEc]
theorem decryptDecoded_ecMultiplied (hflags : validateFlags typeEcMultiplied flagByte = true)
    (rest passphrase : Bytes) (passphraseLen : ℕ) (mode : AddressMatch) :
    decryptDecoded bp ([magicByte, typeEcMultiplied, flagByte] ++ rest) passphrase
      passphraseLen mode =
      decryptEcMultipliedBytes bp ([magicByte, typeEcMultiplied, flagByte] ++ rest)
        passphrase passphraseLen
        mode := by
  have htype : typeEcMultiplied ≠ typeNonEc := by decide
  unfold decryptDecoded
  simp only [List.cons_append, List.nil_append, List.getD_cons_zero, List.getD_cons_succ, ne_eq,
    not_true_eq_false, if_false, hflags, if_true, Bool.true_eq_false, htype]

/-! ## A key under a passphrase -/

/-- The length in front of the NUL is the one that is taken without a length. -/
theorem passphraseAcquireBytes_strlen (passphrase : Bytes) :
    passphraseAcquireBytes bp passphrase (strlen passphrase) =
      passphraseAcquireBytes bp passphrase 0 := by
  unfold passphraseAcquireBytes
  rw [if_pos rfl]
  split_ifs <;> rfl

/-- An address of the main network is found in every mode. -/
theorem privkeyMatchesAddresshash_main (privateKey : Bytes) (compressed : Bool)
    (mode : AddressMatch) :
    privkeyMatchesAddresshash bp privateKey compressed
      (addressHash bp (bp.pubkeyGetaddrP2pkh (bp.points.eccGetPubkey privateKey compressed)
        keyParamsMain))
      mode = true := by
  unfold privkeyMatchesAddresshash pubkeyFindMatchingAddress
  dsimp only
  rw [if_pos rfl]
  rfl

/-- What `encrypt` writes. -/
theorem encrypt_eq_some {address : Bytes}
    (h : encrypt bp privateKey passphrase address compressed size = some e) :
    ∃ derived, deriveKeyBytes bp passphrase 0 (addressHash bp address) = some derived ∧
      e = bp.base58EncodeCheck ([magicByte, typeNonEc,
        flagBase ||| (if compressed then compressedFlag else 0)] ++
        (addressHash bp address ++ encryptHalves bp privateKey derived.1)) := by
  unfold encrypt encryptNonEcBytes at h
  dsimp only at h
  rw [if_pos rfl] at h
  generalize flagBase ||| (if compressed then compressedFlag else 0) = flagByte at *
  split_ifs at h
  obtain ⟨derived, hderived, hencode⟩ := Option.bind_eq_some_iff.mp h
  refine ⟨derived, ?_, ?_⟩
  · rw [← hderived]
    unfold deriveKeyBytes
    rw [passphraseAcquireBytes_strlen]
  · rw [← List.append_assoc]
    exact base58EncodeInto_eq_some hencode

/-- **A key that is encrypted with its own address is decrypted.** -/
theorem decryptEx_encrypt (h : bp.Laws) (hkey : privateKey.length = 32)
    (hencrypt : encrypt bp privateKey passphrase
      (bp.pubkeyGetaddrP2pkh (bp.points.eccGetPubkey privateKey compressed) keyParamsMain)
      compressed size = some e)
    (mode : AddressMatch) : decryptEx bp e passphrase mode = some (privateKey, compressed) := by
  obtain ⟨derived, hderived, rfl⟩ := encrypt_eq_some hencrypt
  obtain ⟨hhalves, hlen⟩ := decryptHalves_encryptHalves h derived hkey
  obtain ⟨hflags, hcompressed⟩ := nonEcFlags_spec compressed
  have hhash := @length_addressHash bp
    (bp.pubkeyGetaddrP2pkh (bp.points.eccGetPubkey privateKey compressed) keyParamsMain)
  have hmatch := @privkeyMatchesAddresshash_main bp privateKey compressed mode
  generalize haddress : bp.pubkeyGetaddrP2pkh (bp.points.eccGetPubkey privateKey compressed)
    keyParamsMain =
    address at *
  generalize flagBase ||| (if compressed then compressedFlag else 0) = flagByte at *
  have hdecode := @decodeEncryptedPayload_eq bp h typeNonEc flagByte
    (addressHash bp address ++ encryptHalves bp privateKey derived.1)
    (by rw [List.length_append, hhash, hlen]) (Or.inl rfl) hflags
  generalize ((bp.sha256d _).1.take 4) = checksum at hdecode
  rw [List.append_assoc, List.append_assoc] at hdecode
  have hsalt := @slice_eq [magicByte, typeNonEc, flagByte] (addressHash bp address)
    (encryptHalves bp privateKey derived.1 ++ checksum) 3 4 rfl hhash
  have hbody := @slice_eq ([magicByte, typeNonEc, flagByte] ++ addressHash bp address)
    (encryptHalves bp privateKey derived.1) checksum 7 32
      (by rw [List.length_append, hhash]; rfl) hlen
  rw [List.append_assoc] at hbody
  unfold decryptEx
  rw [hdecode]
  dsimp only [Option.bind_eq_bind, Option.bind_some]
  rw [decryptDecoded_nonEc hflags]
  unfold decryptNonEcBytes
  rw [hsalt, hbody, hderived]
  dsimp only [Option.bind_eq_bind, Option.bind_some]
  show (if privkeyMatchesAddresshash bp
    (decryptHalves bp (encryptHalves bp privateKey derived.1) derived.1)
    (decide (flagByte &&& compressedFlag ≠ 0)) (addressHash bp address) mode = false then none
    else some (decryptHalves bp (encryptHalves bp privateKey derived.1) derived.1,
      decide (flagByte &&& compressedFlag ≠ 0))) = _
  rw [hhalves, hcompressed, hmatch]
  rfl

end Bip38

end Libdogecoin
