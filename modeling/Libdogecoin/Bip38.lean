/-
# Encrypted keys

`bip38.c` : a key is encrypted under a passphrase, or it is made from a passphrase of its owner and
a seed of somebody who never learns it. Strings are the bytes in front of the NUL. Normalization,
scrypt, AES, Base58Check and the multiplications of `secp256k1` stand as parameters; a failing call
has no result.
-/
import Libdogecoin.MaskedCipher
import Libdogecoin.Wallet

namespace Libdogecoin

open MaskedCipher

/-- A memory area of a size. -/
abbrev BytesOf (n : ℕ) := {bs : Bytes // bs.length = n}

/-- The functions of the curve that multiply. A point is what a `secp256k1_pubkey` holds. -/
structure CurvePoints where
  /-- `secp256k1_ec_pubkey_create`. -/
  pubkeyCreate : Bytes → Option Bytes
  /-- `secp256k1_ec_pubkey_serialize`, compressed or not. -/
  pubkeySerialize : Bytes → Bool → Bytes
  /-- `secp256k1_ec_pubkey_parse`. -/
  pubkeyParse : Bytes → Option Bytes
  /-- `secp256k1_ec_privkey_tweak_mul`. -/
  privkeyTweakMul : Bytes → Bytes → Option Bytes
  /-- `secp256k1_ec_pubkey_tweak_mul`. -/
  pubkeyTweakMul : Bytes → Bytes → Option Bytes

namespace CurvePoints

variable (cv : CurvePoints)

/-- `dogecoin_ecc_get_pubkey` : zeros if there is no public key. -/
def eccGetPubkey (privateKey : Bytes) (compressed : Bool) : Bytes :=
  match cv.pubkeyCreate privateKey with
  | none => List.replicate (if compressed then 33 else 65) 0
  | some point => cv.pubkeySerialize point compressed

/-- `dogecoin_ecc_public_key_tweak_mul`. -/
def eccPublicKeyTweakMul (publicKey tweak : Bytes) : Option Bytes := do
  let point ← cv.pubkeyParse publicKey
  let point ← cv.pubkeyTweakMul point tweak
  some (cv.pubkeySerialize point true)

/-- `dogecoin_ecc_point_serialize`. -/
def eccPointSerialize (point : Bytes) (compressed : Bool) : Option Bytes :=
  (cv.pubkeyParse point).map fun pubkey => cv.pubkeySerialize pubkey compressed

end CurvePoints

/-- What encrypted keys take from outside. -/
structure Bip38Platform extends WalletPlatform where
  points : CurvePoints
  /-- `utf8proc_map` with the options of `bip38.c`. -/
  utf8procMap : Bytes → Option Bytes
  /-- `dogecoin_scrypt_rfc7914` : password, salt, `N`, `r`, `p` and the length of the result. -/
  scryptRfc7914 : Bytes → Bytes → ℕ → ℕ → ℕ → (buflen : ℕ) → Option (BytesOf buflen)
  /-- `AES256_encrypt` and `AES256_decrypt` on one block. -/
  aes256 : BlockCipher

namespace Bip38

/-! ## Constants -/

/-- `BIP38_MAGIC_BYTE`. -/
def magicByte : UInt8 := 0x01
/-- `BIP38_TYPE_NON_EC`. -/
def typeNonEc : UInt8 := 0x42
/-- `BIP38_TYPE_EC_MULTIPLIED`. -/
def typeEcMultiplied : UInt8 := 0x43
/-- `BIP38_FLAG_BASE`. -/
def flagBase : UInt8 := 0xC0
/-- `BIP38_FLAG_RESERVED_BIT`. -/
def flagReservedBit : UInt8 := 0x10
/-- `BIP38_COMPRESSED_FLAG`. -/
def compressedFlag : UInt8 := 0x20
/-- `BIP38_LOT_SEQUENCE_FLAG`. -/
def lotSequenceFlag : UInt8 := 0x04
/-- `BIP38_HAS_LOT_SEQUENCE_FLAG`. -/
def hasLotSequenceFlag : UInt8 := 0x08
/-- `BIP38_LOT_MAX`. -/
def lotMax : UInt32 := 1048575
/-- `BIP38_SEQUENCE_MAX`. -/
def sequenceMax : UInt32 := 4095
/-- `BIP38_PAYLOAD_LEN`. -/
def payloadLen : ℕ := 39
/-- `BIP38_INTERMEDIATE_PAYLOAD_LEN`. -/
def intermediatePayloadLen : ℕ := 49
/-- `BIP38_CONFIRMATION_PAYLOAD_LEN`. -/
def confirmationPayloadLen : ℕ := 51
/-- `BIP38_BASE58_DECODE_BUFLEN`. -/
def base58DecodeBuflen : ℕ := 128
/-- `BIP38_ENCRYPTED_KEY_LENGTH`. -/
def encryptedKeyLength : ℕ := 58
/-- `BIP38_INTERMEDIATE_CODE_MAXLEN`. -/
def intermediateCodeMaxlen : ℕ := 73
/-- `BIP38_CONFIRMATION_CODE_MAXLEN`. -/
def confirmationCodeMaxlen : ℕ := 76
/-- `P2PKHLEN`. -/
def p2pkhlen : ℕ := 35
/-- `BIP38_INTERMEDIATE_MAGIC_LOT`. -/
def intermediateMagicLot : Bytes := [0x2C, 0xE9, 0xB3, 0xE1, 0xFF, 0x39, 0xE2, 0x51]
/-- `BIP38_INTERMEDIATE_MAGIC_NOLOT`. -/
def intermediateMagicNolot : Bytes := [0x2C, 0xE9, 0xB3, 0xE1, 0xFF, 0x39, 0xE2, 0x53]
/-- `BIP38_CONFIRMATION_MAGIC`. -/
def confirmationMagic : Bytes := [0x64, 0x3B, 0xF6, 0xA8, 0x9A]

/-- `BIP38_ADDRESS_MATCH_MAINNET` and `BIP38_ADDRESS_MATCH_INTEROP`. -/
inductive AddressMatch where
  | mainnet
  | interop
  deriving DecidableEq

/-! ## Parts -/

/-- Some bytes from an offset on. -/
def slice (bs : Bytes) (off len : ℕ) : Bytes := (bs.drop off).take len

/-- `strlen`. -/
def strlen (s : Bytes) : ℕ := (s.takeWhile (· ≠ 0)).length

variable (bp : Bip38Platform)

/-- `bip38_passphrase_acquire_bytes` : the passphrase itself where it is no text. -/
def passphraseAcquireBytes (passphrase : Bytes) (passphraseLen : ℕ) : Bytes :=
  let passphraseLen := if passphraseLen = 0 then strlen passphrase else passphraseLen
  (bp.utf8procMap (passphrase.take passphraseLen)).getD (passphrase.take passphraseLen)

/-- `bip38_passphrase_acquire`. -/
def passphraseAcquire (passphrase : Bytes) : Bytes := passphraseAcquireBytes bp passphrase 0

/-- `bip38_validate_flags`. -/
def validateFlags (typeByte flagByte : UInt8) : Bool :=
  if typeByte = typeNonEc then
    if flagByte ≠ flagBase ∧ flagByte ≠ flagBase ||| compressedFlag then false
    else if flagByte &&& lotSequenceFlag ≠ 0 then false
    else if flagByte &&& hasLotSequenceFlag ≠ 0 then false
    else true
  else if typeByte = typeEcMultiplied then
    if flagByte &&& flagReservedBit ≠ 0 then false
    else if flagByte &&& hasLotSequenceFlag ≠ 0 then false
    else if flagByte &&& ~~~(compressedFlag ||| lotSequenceFlag) ≠ 0 then false
    else true
  else false

/-- `dogecoin_base58_encode_check` into a buffer of a size. -/
def base58EncodeInto (payload : Bytes) (size : ℕ) : Option Bytes :=
  let str := bp.base58EncodeCheck payload
  if size ≤ str.length then none else some str

/-- `bip38_decode_encrypted_payload`. -/
def decodeEncryptedPayload (encryptedKey : Bytes) : Option Bytes := do
  let decoded ← bp.base58DecodeCheck encryptedKey base58DecodeBuflen
  if decoded.length ≠ payloadLen + 4 then none
  else if decoded.getD 0 0 ≠ magicByte then none
  else if decoded.getD 1 0 ≠ typeNonEc ∧ decoded.getD 1 0 ≠ typeEcMultiplied then none
  else if validateFlags (decoded.getD 1 0) (decoded.getD 2 0) = false then none
  else some decoded

/-- `bip38_address_hash`. -/
def addressHash (address : Bytes) : Bytes := (bp.sha256d address).1.take 4

/-- `bip38_derive_key_bytes`. -/
def deriveKeyBytes (passphrase : Bytes) (passphraseLen : ℕ) (salt : Bytes) : Option (BytesOf 64) :=
  let norm := passphraseAcquireBytes bp passphrase passphraseLen
  if norm.length = 0 then none else bp.scryptRfc7914 norm salt 16384 8 8 64

/-- `bip38_aes256_encrypt_block`. -/
def aes256EncryptBlock (derived plain : Bytes) (derivedhalf1Offset : ℕ) : Bytes :=
  bp.aes256.maskEncrypt (slice derived 32 32) (slice derived derivedhalf1Offset 16) (plain.take 16)

/-- `bip38_aes256_decrypt_block`. -/
def aes256DecryptBlock (derived cipher : Bytes) (derivedhalf1Offset : ℕ) : Bytes :=
  bp.aes256.maskDecrypt (slice derived 32 32) (slice derived derivedhalf1Offset 16) (cipher.take 16)

/-- `bip38_encrypt_halves`. -/
def encryptHalves (privateKey derived : Bytes) : Bytes :=
  aes256EncryptBlock bp derived privateKey 0 ++
    aes256EncryptBlock bp derived (privateKey.drop 16) 16

/-- `bip38_decrypt_halves`. -/
def decryptHalves (encrypted derived : Bytes) : Bytes :=
  aes256DecryptBlock bp derived encrypted 0 ++ aes256DecryptBlock bp derived (encrypted.drop 16) 16

/-- `bip38_factorb_from_seedb`. -/
def factorbFromSeedb (seedb : Bytes) : Bytes := (bp.sha256d seedb).1

/-- `bip38_chain_from_address_hint`. -/
def chainFromAddressHint (address : Option Bytes) : Option KeyParams :=
  match (address.getD []).head? with
  | none => none
  | some first =>
    if Char.ofNat first.toNat = 'D' then some keyParamsMain
    else if Char.ofNat first.toNat = 'n' ∨ Char.ofNat first.toNat = 'm' then some keyParamsTest
    else none

/-- `bip38_pubkey_to_address` : without a chain, an address with the version 0. -/
def pubkeyToAddress (pubkey : Bytes) (chain : Option KeyParams) : Option Bytes :=
  match chain with
  | some chain => some (bp.pubkeyGetaddrP2pkh pubkey chain)
  | none => base58EncodeInto bp (0 :: (bp.getHash160 pubkey).1) p2pkhlen

/-- `bip38_ec_derived_key`. -/
def ecDerivedKey (passpoint addresshash ownerentropy : Bytes) : Option (BytesOf 64) :=
  bp.scryptRfc7914 passpoint (addresshash ++ ownerentropy) 1024 1 1 64

/-- The four bytes of a lot and a sequence number. -/
def lotSequenceBytes (lot sequence : UInt32) : Bytes :=
  let lotsequence := lot * 4096 + sequence
  [(lotsequence >>> 24).toUInt8, (lotsequence >>> 16).toUInt8, (lotsequence >>> 8).toUInt8,
    lotsequence.toUInt8]

/-- The number in the last four bytes of an owner entropy. -/
def lotsequenceOf (ownerentropy : Bytes) : UInt32 :=
  ((ownerentropy.getD 4 0).toUInt32 <<< 24) ||| ((ownerentropy.getD 5 0).toUInt32 <<< 16) |||
    ((ownerentropy.getD 6 0).toUInt32 <<< 8) ||| (ownerentropy.getD 7 0).toUInt32

/-- `bip38_ownerentropy_generate`. -/
def ownerentropyGenerate (random : (n : ℕ) → Option (BytesOf n)) (useLotSequence : Bool)
    (lot sequence : UInt32) : Option (BytesOf 8) :=
  if useLotSequence then
    (random 4).map fun salt => ⟨salt.1 ++ lotSequenceBytes lot sequence, by
      rw [List.length_append, salt.2]
      rfl⟩
  else random 8

/-! ## Codes -/

/-- What is in an intermediate code. -/
structure Intermediate where
  ownerentropy : Bytes
  passpoint : Bytes
  hasLotSequence : Bool

/-- `bip38_parse_intermediate_code`. -/
def parseIntermediateCode (intermediateCode : Bytes) : Option Intermediate := do
  let decoded ← bp.base58DecodeCheck intermediateCode base58DecodeBuflen
  if decoded.length ≠ intermediatePayloadLen + 4 then none
  else
    let parsed := fun hasLotSequence =>
      Intermediate.mk (slice decoded 8 8) (slice decoded 16 33) hasLotSequence
    if decoded.take 8 = intermediateMagicLot then some (parsed true)
    else if decoded.take 8 = intermediateMagicNolot then some (parsed false)
    else none

/-- `bip38_confirmation_encode`. -/
def confirmationEncode (flagbyte : UInt8) (addresshash ownerentropy factorb derived : Bytes)
    (confirmationCodeSize : ℕ) : Option Bytes :=
  if confirmationCodeSize < confirmationCodeMaxlen then none
  else
    let pointb := bp.points.eccGetPubkey factorb true
    let encryptedpointb := (pointb.getD 0 0 ^^^ (derived.getD 63 0 &&& 0x01)) ::
      (aes256EncryptBlock bp derived (pointb.drop 1) 0 ++
        aes256EncryptBlock bp derived (pointb.drop 17) 16)
    base58EncodeInto bp (confirmationMagic ++ [flagbyte] ++ addresshash ++ ownerentropy ++
      encryptedpointb) confirmationCodeSize

/-- What `bip38_encrypt_ec_core` writes. -/
structure EcEncrypted where
  privateKey : Option Bytes
  encryptedKey : Bytes
  confirmationCode : Option Bytes

/-- The key in `bip38_encrypt_ec_core` : by way of the private key, or from the point alone. -/
def ecCoreKey (passpoint factorb : Bytes) (compressed : Bool) (passfactorOptional : Option Bytes) :
    Option (Option Bytes × Bytes) :=
  match passfactorOptional with
  | some passfactor => (bp.points.privkeyTweakMul passfactor factorb).map fun priv =>
    (some priv, bp.points.eccGetPubkey priv compressed)
  | none => do
      let passpointWork ← bp.points.eccPublicKeyTweakMul passpoint factorb
      let pubkeyBuf ← bp.points.eccPointSerialize passpointWork compressed
      some (none, pubkeyBuf)

/-- `bip38_encrypt_ec_core`. -/
def encryptEcCore (passpoint ownerentropy : Bytes) (hasLotSequence compressed : Bool)
    (seedb : Bytes) (chain : Option KeyParams) (passfactorOptional : Option Bytes)
    (encryptedKeySize : ℕ)
    (confirmationCodeSize : Option ℕ) : Option EcEncrypted :=
  if encryptedKeySize < encryptedKeyLength + 1 then none
  else do
    let factorb := factorbFromSeedb bp seedb
    let (privateKey, pubkeyBuf) ← ecCoreKey bp passpoint factorb compressed passfactorOptional
    let generatedAddress ← pubkeyToAddress bp pubkeyBuf chain
    let addresshash := addressHash bp generatedAddress
    let derived ← ecDerivedKey bp passpoint addresshash ownerentropy
    let encryptedpart1 := aes256EncryptBlock bp derived.1 seedb 0
    let block2 := slice encryptedpart1 8 8 ++ slice seedb 16 8
    let encryptedpart2 := aes256EncryptBlock bp derived.1 block2 16
    let flagbyte := (if compressed then compressedFlag else 0) |||
      (if hasLotSequence then lotSequenceFlag else 0)
    let payload := [magicByte, typeEcMultiplied, flagbyte] ++ addresshash ++ ownerentropy ++
      encryptedpart1.take 8 ++ encryptedpart2
    let encryptedKey ← base58EncodeInto bp payload encryptedKeySize
    let confirmationCode ←
      match confirmationCodeSize with
      | none => some none
      | some size =>
        (confirmationEncode bp flagbyte addresshash ownerentropy factorb derived.1 size).map some
    some { privateKey := privateKey, encryptedKey := encryptedKey,
           confirmationCode := confirmationCode }

/-- `bip38_derive_passfactor_buf`. -/
def derivePassfactorBuf (norm ownerentropy : Bytes) (hasLotSequence : Bool) : Option Bytes :=
  let ownersaltLen := if hasLotSequence then 4 else 8
  if norm.length = 0 then none
  else
    (bp.scryptRfc7914 norm (ownerentropy.take ownersaltLen) 16384 8 8 32).map fun prefactor =>
      if hasLotSequence then (bp.sha256d (prefactor.1 ++ ownerentropy)).1 else prefactor.1

/-- `bip38_derive_passfactor`. -/
def derivePassfactor (passphrase ownerentropy : Bytes) (hasLotSequence : Bool) : Option Bytes :=
  derivePassfactorBuf bp (passphraseAcquire bp passphrase) ownerentropy hasLotSequence

/-- `bip38_derive_passfactor_bytes`. -/
def derivePassfactorBytes (passphrase : Bytes) (passphraseLen : ℕ) (ownerentropy : Bytes)
    (hasLotSequence : Bool) : Option Bytes :=
  derivePassfactorBuf bp (passphraseAcquireBytes bp passphrase passphraseLen)
    ownerentropy hasLotSequence

/-! ## Checking an address -/

/-- `bip38_pubkey_find_matching_address`. -/
def pubkeyFindMatchingAddress (pubkey expectedHash : Bytes) (addressMatchMode : AddressMatch) :
    Option Bytes :=
  let address := bp.pubkeyGetaddrP2pkh pubkey keyParamsMain
  if addressHash bp address = expectedHash then some address
  else if addressMatchMode ≠ .interop then none
  else
    let matching := [keyParamsTest, keyParamsRegtest].findSome? fun chain =>
      let address := bp.pubkeyGetaddrP2pkh pubkey chain
      if addressHash bp address = expectedHash then some address else none
    match matching with
    | some address => some address
    | none =>
      match base58EncodeInto bp (0 :: (bp.getHash160 pubkey).1) p2pkhlen with
      | some address => if addressHash bp address = expectedHash then some address else none
      | none => none

/-- `bip38_privkey_matches_addresshash`. -/
def privkeyMatchesAddresshash (privateKey : Bytes) (compressed : Bool) (expectedHash : Bytes)
    (addressMatchMode : AddressMatch) : Bool :=
  (pubkeyFindMatchingAddress bp (bp.points.eccGetPubkey privateKey compressed) expectedHash
    addressMatchMode).isSome

/-! ## Decryption -/

/-- `bip38_decrypt_non_ec_bytes`. -/
def decryptNonEcBytes (decoded passphrase : Bytes) (passphraseLen : ℕ)
    (addressMatchMode : AddressMatch) :
    Option (Bytes × Bool) := do
  let derived ← deriveKeyBytes bp passphrase passphraseLen (slice decoded 3 4)
  let privateKey := decryptHalves bp (slice decoded 7 32) derived.1
  let compressed := decide (decoded.getD 2 0 &&& compressedFlag ≠ 0)
  if privkeyMatchesAddresshash bp privateKey compressed (slice decoded 3 4) addressMatchMode =
    false then none
  else some (privateKey, compressed)

/-- `bip38_decrypt_ec_multiplied_bytes`. -/
def decryptEcMultipliedBytes (decoded passphrase : Bytes) (passphraseLen : ℕ)
    (addressMatchMode : AddressMatch) : Option (Bytes × Bool) := do
  let flagbyte := decoded.getD 2 0
  let addresshash := slice decoded 3 4
  let ownerentropy := slice decoded 7 8
  let hasLotSequence := decide (flagbyte &&& lotSequenceFlag ≠ 0)
  let passfactor ← derivePassfactorBytes bp passphrase passphraseLen ownerentropy hasLotSequence
  let passpoint := bp.points.eccGetPubkey passfactor true
  let derived ← bp.scryptRfc7914 passpoint (addresshash ++ ownerentropy) 1024 1 1 64
  let decrypted2 := aes256DecryptBlock bp derived.1 (slice decoded 23 16) 16
  let encryptedpart1Full := slice decoded 15 8 ++ decrypted2.take 8
  let seedb := aes256DecryptBlock bp derived.1 encryptedpart1Full 0 ++ slice decrypted2 8 8
  let factorb := (bp.sha256d seedb).1
  let privateKey ← bp.points.privkeyTweakMul passfactor factorb
  let compressed := decide (flagbyte &&& compressedFlag ≠ 0)
  if privkeyMatchesAddresshash bp privateKey compressed addresshash addressMatchMode =
    false then none
  else some (privateKey, compressed)

/-- `bip38_decrypt_decoded`. -/
def decryptDecoded (decoded passphrase : Bytes) (passphraseLen : ℕ)
    (addressMatchMode : AddressMatch) :
    Option (Bytes × Bool) :=
  if decoded.getD 0 0 ≠ magicByte then none
  else if validateFlags (decoded.getD 1 0) (decoded.getD 2 0) = false then none
  else if decoded.getD 1 0 = typeNonEc then
    decryptNonEcBytes bp decoded passphrase passphraseLen addressMatchMode
  else if decoded.getD 1 0 = typeEcMultiplied then
    decryptEcMultipliedBytes bp decoded passphrase passphraseLen addressMatchMode
  else none

/-- `dogecoin_bip38_decrypt_ex`. -/
def decryptEx (encryptedKey passphrase : Bytes) (addressMatchMode : AddressMatch) :
    Option (Bytes × Bool) := do
  let decoded ← decodeEncryptedPayload bp encryptedKey
  decryptDecoded bp decoded passphrase 0 addressMatchMode

/-- `dogecoin_bip38_decrypt`. -/
def decrypt (encryptedKey passphrase : Bytes) : Option (Bytes × Bool) :=
  decryptEx bp encryptedKey passphrase .mainnet

/-- `dogecoin_bip38_get_address_hash`. -/
def getAddressHash (encryptedKey : Bytes) : Option Bytes :=
  (decodeEncryptedPayload bp encryptedKey).map fun decoded => slice decoded 3 4

/-- `dogecoin_bip38_get_flag_byte`. -/
def getFlagByte (encryptedKey : Bytes) : Option UInt8 :=
  (decodeEncryptedPayload bp encryptedKey).map fun decoded => decoded.getD 2 0

/-- `dogecoin_bip38_has_lot_sequence`. -/
def hasLotSequence (encryptedKey : Bytes) : Bool :=
  match getFlagByte bp encryptedKey with
  | none => false
  | some flagByte => decide (flagByte &&& lotSequenceFlag ≠ 0)

/-- `dogecoin_bip38_is_ec_multiplied`. -/
def isEcMultiplied (encryptedKey : Bytes) : Bool :=
  match bp.base58DecodeCheck encryptedKey base58DecodeBuflen with
  | none => false
  | some decoded =>
    if decoded.length ≠ payloadLen + 4 then false
    else decide (decoded.getD 0 0 = magicByte ∧ decoded.getD 1 0 = typeEcMultiplied)

/-- What a decryption gives, or what a confirmation gives. -/
structure Opened (α : Type) where
  value : α
  compressed : Bool
  lot : UInt32
  sequence : UInt32
  deriving DecidableEq

/-- `dogecoin_bip38_decrypt_with_lot_sequence_ex`. -/
def decryptWithLotSequenceEx (encryptedKey passphrase : Bytes) (addressMatchMode : AddressMatch) :
    Option (Opened Bytes) := do
  let (privateKey, compressed) ← decryptEx bp encryptedKey passphrase addressMatchMode
  if isEcMultiplied bp encryptedKey && hasLotSequence bp encryptedKey then do
    let decoded ← decodeEncryptedPayload bp encryptedKey
    let lotsequence := lotsequenceOf (decoded.drop 7)
    some ⟨privateKey, compressed, lotsequence / 4096, lotsequence % 4096⟩
  else some ⟨privateKey, compressed, 0, 0⟩

/-! ## Encryption -/

/-- `bip38_encrypt_non_ec_bytes`. -/
def encryptNonEcBytes (privateKey passphrase : Bytes) (passphraseLen : ℕ) (address : Bytes)
    (compressed : Bool) (encryptedKeySize : ℕ) : Option Bytes :=
  let passphraseLen := if passphraseLen = 0 then strlen passphrase else passphraseLen
  if passphraseLen = 0 then none
  else if encryptedKeySize < encryptedKeyLength + 1 then none
  else do
    let derived ← deriveKeyBytes bp passphrase passphraseLen (addressHash bp address)
    let encrypted := encryptHalves bp privateKey derived.1
    let payload := [magicByte, typeNonEc,
      flagBase ||| (if compressed then compressedFlag else 0)] ++
      addressHash bp address ++ encrypted
    base58EncodeInto bp payload encryptedKeySize

/-- `dogecoin_bip38_encrypt`. -/
def encrypt (privateKey passphrase address : Bytes) (compressed : Bool) (encryptedKeySize : ℕ) :
    Option Bytes :=
  encryptNonEcBytes bp privateKey passphrase 0 address compressed encryptedKeySize

/-- The check of lot and sequence in front of a generation. -/
def lotSequenceOk (useLotSequence : Bool) (lot sequence : UInt32) : Bool :=
  !(useLotSequence && (lot = 0 || lot > lotMax || sequence > sequenceMax))

/-- `bip38_encrypt_ec_with_passphrase`. -/
def encryptEcWithPassphrase (random : (n : ℕ) → Option (BytesOf n)) (passphrase : Bytes)
    (useLotSequence : Bool) (lot sequence : UInt32) (compressed : Bool)
    (ownerentropyOverride : Option (BytesOf 8)) (seedbOverride : Option (BytesOf 24))
    (addressHint : Option Bytes) (encryptedKeySize : ℕ) (confirmationCodeSize : Option ℕ) :
    Option EcEncrypted :=
  if lotSequenceOk useLotSequence lot sequence = false then none
  else do
    let ownerentropy ← ownerentropyOverride <|> ownerentropyGenerate random
      useLotSequence lot sequence
    let passfactor ← derivePassfactor bp passphrase ownerentropy.1 useLotSequence
    let passpoint := bp.points.eccGetPubkey passfactor true
    let seedb ← seedbOverride <|> random 24
    encryptEcCore bp passpoint ownerentropy.1 useLotSequence compressed seedb.1
      (chainFromAddressHint addressHint) (some passfactor) encryptedKeySize confirmationCodeSize

/-- `dogecoin_bip38_encrypt_ec_multiplied`. -/
def encryptEcMultiplied (random : (n : ℕ) → Option (BytesOf n)) (passphrase : Bytes)
    (compressed useLotSequence : Bool) (lot sequence : UInt32) (addressChainHint : Option Bytes)
    (encryptedKeySize : ℕ) (confirmationCodeSize : Option ℕ) : Option EcEncrypted :=
  encryptEcWithPassphrase bp random passphrase useLotSequence lot sequence compressed none none
    addressChainHint encryptedKeySize confirmationCodeSize

/-- `dogecoin_bip38_generate_intermediate_code`. -/
def generateIntermediateCode (random : (n : ℕ) → Option (BytesOf n)) (passphrase : Bytes)
    (useLotSequence : Bool) (lot sequence : UInt32) (ownerentropyOverride : Option (BytesOf 8))
    (intermediateCodeSize : ℕ) : Option Bytes :=
  if lotSequenceOk useLotSequence lot sequence = false then none
  else if intermediateCodeSize < intermediateCodeMaxlen then none
  else do
    let ownerentropy ← ownerentropyOverride <|> ownerentropyGenerate random
      useLotSequence lot sequence
    let passfactor ← derivePassfactor bp passphrase ownerentropy.1 useLotSequence
    let passpoint := bp.points.eccGetPubkey passfactor true
    let payload := (if useLotSequence then intermediateMagicLot else intermediateMagicNolot) ++
      ownerentropy.1 ++
      passpoint
    base58EncodeInto bp payload intermediateCodeSize

/-- `dogecoin_bip38_encrypt_from_intermediate`. -/
def encryptFromIntermediate (random : (n : ℕ) → Option (BytesOf n)) (intermediateCode : Bytes)
    (compressed : Bool) (seedbOverride : Option (BytesOf 24)) (addressChainHint : Option Bytes)
    (encryptedKeySize : ℕ) (confirmationCodeSize : Option ℕ) : Option EcEncrypted := do
  let code ← parseIntermediateCode bp intermediateCode
  let seedb ← seedbOverride <|> random 24
  encryptEcCore bp code.passpoint code.ownerentropy code.hasLotSequence compressed seedb.1
    (chainFromAddressHint addressChainHint) none encryptedKeySize confirmationCodeSize

/-! ## Confirmation -/

/-- `dogecoin_bip38_confirm_passphrase_ex` : the address, and what else it writes. -/
def confirmPassphraseEx (passphrase confirmationCode : Bytes) (addressMatchMode : AddressMatch)
    (addressSize : ℕ) : Option (Opened Bytes) :=
  if addressSize < p2pkhlen then none
  else do
    let decoded ← bp.base58DecodeCheck confirmationCode base58DecodeBuflen
    if decoded.length ≠ confirmationPayloadLen + 4 then none
    else if decoded.take 5 ≠ confirmationMagic then none
    else
      let flagbyte := decoded.getD 5 0
      if validateFlags typeEcMultiplied flagbyte = false then none
      else do
        let addresshash := slice decoded 6 4
        let ownerentropy := slice decoded 10 8
        let encryptedpointb := decoded.drop 18
        let hasLotSequence := decide (flagbyte &&& lotSequenceFlag ≠ 0)
        let compressed := decide (flagbyte &&& compressedFlag ≠ 0)
        let passfactor ← derivePassfactor bp passphrase ownerentropy hasLotSequence
        let passpoint := bp.points.eccGetPubkey passfactor true
        let derived ← ecDerivedKey bp passpoint addresshash ownerentropy
        let pointb := (encryptedpointb.getD 0 0 ^^^ (derived.1.getD 63 0 &&& 0x01)) ::
          (aes256DecryptBlock bp derived.1 (encryptedpointb.drop 1) 0 ++
            aes256DecryptBlock bp derived.1 (encryptedpointb.drop 17) 16)
        let passfactor ← derivePassfactor bp passphrase ownerentropy hasLotSequence
        let pointb ← bp.points.eccPublicKeyTweakMul pointb passfactor
        let pubkeyBuf ← bp.points.eccPointSerialize pointb compressed
        let address ← pubkeyFindMatchingAddress bp pubkeyBuf addresshash addressMatchMode
        if hasLotSequence then
          let lotsequence := lotsequenceOf ownerentropy
          some ⟨address, compressed, lotsequence / 4096, lotsequence % 4096⟩
        else some ⟨address, compressed, 0, 0⟩

end Bip38

end Libdogecoin
