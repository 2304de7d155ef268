/-
# Keys of two factors

The key is the product of a factor of the owner and a factor of the seed. The printer multiplies the
point of the owner, the owner multiplies the scalars, and both come to the same public key. The seed
goes into two blocks that overlap.

* `encryptEcCore_eq_some` : what is written is such a key, by both ways;
* `TwoFactor.decryptWithLotSequenceEx_encryptedKey` : it is opened with the passphrase;
* `TwoFactor.confirmPassphraseEx_confirmationCode` : so is its confirmation.
-/
import Libdogecoin.Bip38Roundtrip

namespace Libdogecoin

open MaskedCipher

namespace Bip38

variable {bp : Bip38Platform} {pubkey address : Bytes} {size : ℕ}

/-! ## The seed in two blocks -/

/-- The seed, as `bip38_encrypt_ec_core` writes it. -/
def seedBlocks (bp : Bip38Platform) (derived seedb : Bytes) : Bytes × Bytes :=
  let encryptedpart1 := aes256EncryptBlock bp derived seedb 0
  let block2 := slice encryptedpart1 8 8 ++ slice seedb 16 8
  (encryptedpart1.take 8, aes256EncryptBlock bp derived block2 16)

theorem seedBlocks_eq_overlapEncrypt (h : bp.Laws) (derived : BytesOf 64) (seedb : BytesOf 24) :
    seedBlocks bp derived.1 seedb.1 =
      bp.aes256.overlapEncrypt 16 8 (slice derived.1 32 32) (slice derived.1 0 16)
        (slice derived.1 16 16)
        seedb.1 := by
  have hpart1 := (@aes256DecryptBlock_encryptBlock bp h derived seedb.1 0 (by decide)
    (by rw [seedb.2]; decide)).2
  have htail : slice (aes256EncryptBlock bp derived.1 seedb.1 0) 8 8 =
      (aes256EncryptBlock bp derived.1 seedb.1 0).drop 8 := by
    rw [slice, List.take_of_length_le (by rw [List.length_drop, hpart1])]
  have hrest : slice seedb.1 16 8 = seedb.1.drop 16 := by
    rw [slice, List.take_of_length_le (by rw [List.length_drop, seedb.2])]
  have hblock2 : ((aes256EncryptBlock bp derived.1 seedb.1 0).drop 8 ++ seedb.1.drop 16).take 16 =
      (aes256EncryptBlock bp derived.1 seedb.1 0).drop 8 ++ seedb.1.drop 16 := by
    apply List.take_of_length_le
    rw [List.length_append, List.length_drop, List.length_drop, hpart1, seedb.2]
  unfold seedBlocks
  dsimp only
  rw [htail, hrest]
  unfold BlockCipher.overlapEncrypt aes256EncryptBlock at *
  rw [hblock2]

/-- The blocks have the lengths of the payload, and they give the seed. -/
theorem seedBlocks_spec (h : bp.Laws) (derived : BytesOf 64) (seedb : BytesOf 24) :
    (seedBlocks bp derived.1 seedb.1).1.length = 8 ∧
    (seedBlocks bp derived.1 seedb.1).2.length = 16 ∧
      (let decrypted2 := aes256DecryptBlock bp derived.1 (seedBlocks bp derived.1 seedb.1).2 16
       aes256DecryptBlock bp derived.1 ((seedBlocks bp derived.1 seedb.1).1 ++
         decrypted2.take 8) 0 ++
        slice decrypted2 8 8) = seedb.1 := by
  have hpart1 := (@aes256DecryptBlock_encryptBlock bp h derived seedb.1 0 (by decide)
    (by rw [seedb.2]; decide)).2
  have hblock2 : (slice (aes256EncryptBlock bp derived.1 seedb.1 0) 8 8 ++
    slice seedb.1 16 8).length = 16 := by
    rw [List.length_append, length_slice (by rw [hpart1]), length_slice (by rw [seedb.2])]
  obtain ⟨hdecrypted2, hpart2⟩ := @aes256DecryptBlock_encryptBlock bp h derived
    (slice (aes256EncryptBlock bp derived.1 seedb.1 0) 8 8 ++ slice seedb.1 16 8) 16 (by decide)
      (by rw [hblock2])
  have hfirst : (seedBlocks bp derived.1 seedb.1).1.length = 8 := by
    show ((aes256EncryptBlock bp derived.1 seedb.1 0).take 8).length = 8
    rw [List.length_take, hpart1]
    rfl
  have hsecond : (seedBlocks bp derived.1 seedb.1).2.length = 16 := hpart2
  have hlen : (aes256DecryptBlock bp derived.1 (seedBlocks bp derived.1 seedb.1).2 16).length =
    16 := by
    show (aes256DecryptBlock bp derived.1 (aes256EncryptBlock bp derived.1 _ 16) 16).length = 16
    rw [hdecrypted2, List.take_of_length_le (by rw [hblock2]), hblock2]
  have hopen := @BlockCipher.overlapDecrypt_overlapEncrypt bp.aes256 16 8 (slice derived.1 32 32)
    (slice derived.1 0 16) (slice derived.1 16 16) seedb.1 h.aes256
      (length_slice (by rw [derived.2]; decide))
    (length_slice (by rw [derived.2]; decide)) (by decide) (by rw [seedb.2])
  rw [← seedBlocks_eq_overlapEncrypt h] at hopen
  refine ⟨hfirst, hsecond, ?_⟩
  dsimp only
  generalize seedBlocks bp derived.1 seedb.1 = blocks at *
  have hrest : slice (aes256DecryptBlock bp derived.1 blocks.2 16) 8 8 =
      (aes256DecryptBlock bp derived.1 blocks.2 16).drop 8 := by
    rw [slice, List.take_of_length_le (by rw [List.length_drop, hlen])]
  have hjoined : (blocks.1 ++ (aes256DecryptBlock bp derived.1 blocks.2 16).take 8).take 16 =
      blocks.1 ++ (aes256DecryptBlock bp derived.1 blocks.2 16).take 8 := by
    apply List.take_of_length_le
    rw [List.length_append, List.length_take, hfirst]
    omega
  rw [hrest]
  unfold BlockCipher.overlapDecrypt at hopen
  unfold aes256DecryptBlock at *
  rw [hjoined, List.take_of_length_le (le_of_eq hsecond)]
  exact hopen

/-! ## The addresses of a key -/

/-- The addresses that are tried, in their order. -/
def networkAddresses (bp : Bip38Platform) (pubkey : Bytes) : List Bytes :=
  [keyParamsMain, keyParamsTest, keyParamsRegtest].map (bp.pubkeyGetaddrP2pkh pubkey) ++
    (base58EncodeInto bp (0 :: (bp.getHash160 pubkey).1) p2pkhlen).toList

/-- The four bytes of one key's addresses differ. -/
def NetworksDiffer (bp : Bip38Platform) (pubkey : Bytes) : Prop :=
  ((networkAddresses bp pubkey).map (addressHash bp)).Nodup

instance (bp : Bip38Platform) (pubkey : Bytes) : Decidable (NetworksDiffer bp pubkey) :=
  inferInstanceAs (Decidable (List.Nodup _))

theorem pubkeyFindMatchingAddress_interop (pubkey expectedHash : Bytes) :
    pubkeyFindMatchingAddress bp pubkey expectedHash .interop =
      (networkAddresses bp pubkey).find? fun address =>
      decide (addressHash bp address = expectedHash) := by
  unfold pubkeyFindMatchingAddress networkAddresses
  dsimp only
  cases base58EncodeInto bp (0 :: (bp.getHash160 pubkey).1) p2pkhlen with
  | none =>
    simp only [List.map_cons, List.map_nil, Option.toList, List.append_nil,
      List.find?_cons, List.find?_nil, List.findSome?_cons, List.findSome?_nil]
    split_ifs <;> simp_all
  | some address =>
    simp only [List.map_cons, List.map_nil, Option.toList, List.cons_append, List.nil_append,
      List.find?_cons, List.find?_nil, List.findSome?_cons, List.findSome?_nil]
    split_ifs <;> simp_all

variable {hint : Option Bytes}

/-- The address that is made under a hint is one of them. -/
theorem pubkeyToAddress_mem (h : pubkeyToAddress bp pubkey (chainFromAddressHint hint) =
    some address) :
    address ∈ networkAddresses bp pubkey := by
  have hchain : chainFromAddressHint hint = none ∨ chainFromAddressHint hint = some keyParamsMain ∨
      chainFromAddressHint hint = some keyParamsTest := by
    unfold chainFromAddressHint
    split
    · left; rfl
    · split_ifs
      · right; left; rfl
      · right; right; rfl
      · left; rfl
  unfold networkAddresses
  rcases hchain with hchain | hchain | hchain <;> rw [hchain] at h
  · have hlegacy : base58EncodeInto bp (0 :: (bp.getHash160 pubkey).1) p2pkhlen = some address := h
    rw [hlegacy]
    simp
  · obtain rfl := Option.some.inj h
    simp
  · obtain rfl := Option.some.inj h
    simp

/-- Where the hashes differ, the hash of an address finds it. -/
theorem find?_of_nodup_map {α β : Type} [DecidableEq β] {f : α → β} {l : List α} {a : α}
    (h : (l.map f).Nodup) (ha : a ∈ l) : (l.find? fun b => decide (f b = f a)) = some a := by
  induction l with
  | nil => cases ha
  | cons b l ih =>
    rw [List.map_cons, List.nodup_cons] at h
    rw [List.find?_cons]
    by_cases hb : f b = f a
    · rw [decide_eq_true hb]
      rcases List.mem_cons.mp ha with rfl | ha
      · rfl
      · exact absurd (hb ▸ List.mem_map_of_mem ha) h.1
    · rw [decide_eq_false hb]
      rcases List.mem_cons.mp ha with rfl | ha
      · exact absurd rfl hb
      · exact ih h.2 ha

/-- The address under a hint is found again. -/
theorem find_pubkeyToAddress (hdiffer : NetworksDiffer bp pubkey)
    (h : pubkeyToAddress bp pubkey (chainFromAddressHint hint) = some address) :
    pubkeyFindMatchingAddress bp pubkey (addressHash bp address) .interop = some address := by
  rw [pubkeyFindMatchingAddress_interop]
  exact find?_of_nodup_map hdiffer (pubkeyToAddress_mem h)

/-! ## Keys of two factors -/

/-- The parts of a key of two factors, as they belong together. -/
structure TwoFactor (bp : Bip38Platform) where
  passphrase : Bytes
  ownerentropy : BytesOf 8
  hasLotSequence : Bool
  seedb : BytesOf 24
  compressed : Bool
  hint : Option Bytes
  passfactor : Bytes
  privateKey : Bytes
  address : Bytes
  derived : BytesOf 64
  derivePassfactor_eq : derivePassfactor bp passphrase ownerentropy.1 hasLotSequence =
    some passfactor
  valid_passfactor : bp.curve.seckeyVerify passfactor = true
  valid_factorb : bp.curve.seckeyVerify (factorbFromSeedb bp seedb.1) = true
  tweakMul_eq : bp.points.privkeyTweakMul passfactor (factorbFromSeedb bp seedb.1) = some privateKey
  address_eq : pubkeyToAddress bp (bp.points.eccGetPubkey privateKey compressed)
    (chainFromAddressHint hint) =
    some address
  derived_eq : ecDerivedKey bp (bp.points.eccGetPubkey passfactor true) (addressHash bp address)
    ownerentropy.1 =
    some derived

namespace TwoFactor

variable (t : TwoFactor bp)

def flagByte : UInt8 := flags t.compressed t.hasLotSequence

/-- What stands behind the flags of an encrypted key. -/
def body : Bytes :=
  addressHash bp t.address ++ (t.ownerentropy.1 ++
    ((seedBlocks bp t.derived.1 t.seedb.1).1 ++ (seedBlocks bp t.derived.1 t.seedb.1).2))

def encryptedKey : Bytes := bp.base58EncodeCheck
    ([magicByte, typeEcMultiplied, t.flagByte] ++ t.body)

/-- The point of the seed, as `bip38_confirmation_encode` writes it. -/
def encryptedPointb : Bytes :=
  let pointb := bp.points.eccGetPubkey (factorbFromSeedb bp t.seedb.1) true
  (pointb.getD 0 0 ^^^ (t.derived.1.getD 63 0 &&& 0x01)) ::
    (aes256EncryptBlock bp t.derived.1 (pointb.drop 1) 0 ++
      aes256EncryptBlock bp t.derived.1 (pointb.drop 17) 16)

def confirmationCode : Bytes :=
  bp.base58EncodeCheck (confirmationMagic ++ [t.flagByte] ++ addressHash bp t.address ++
    t.ownerentropy.1 ++
    t.encryptedPointb)

def lot : UInt32 := if t.hasLotSequence then lotsequenceOf t.ownerentropy.1 / 4096 else 0

def sequence : UInt32 := if t.hasLotSequence then lotsequenceOf t.ownerentropy.1 % 4096 else 0

theorem flagByte_spec : validateFlags typeEcMultiplied t.flagByte = true ∧
    decide (t.flagByte &&& compressedFlag ≠ 0) = t.compressed ∧
      decide (t.flagByte &&& lotSequenceFlag ≠ 0) = t.hasLotSequence :=
  flags_spec t.compressed t.hasLotSequence

theorem valid_privateKey (h : bp.Laws) : bp.curve.seckeyVerify t.privateKey = true := by
  obtain ⟨c, hc, hvalid⟩ := h.points.exists_mul t.valid_passfactor t.valid_factorb
  obtain rfl := Option.some.inj (hc.symm.trans t.tweakMul_eq)
  exact hvalid

theorem length_body (h : bp.Laws) : t.body.length = 36 := by
  obtain ⟨hfirst, hsecond, -⟩ := seedBlocks_spec h t.derived t.seedb
  unfold body
  simp only [List.length_append, length_addressHash, t.ownerentropy.2, hfirst, hsecond]

/-- What is decoded from the encrypted key. -/
theorem exists_decoded (h : bp.Laws) : ∃ checksum : Bytes, checksum.length = 4 ∧
    bp.base58DecodeCheck t.encryptedKey base58DecodeBuflen =
      some ([magicByte, typeEcMultiplied, t.flagByte] ++ (t.body ++ checksum)) ∧
    decodeEncryptedPayload bp t.encryptedKey =
      some ([magicByte, typeEcMultiplied, t.flagByte] ++ (t.body ++ checksum)) := by
  have hlen : ([magicByte, typeEcMultiplied, t.flagByte] ++ t.body).length ≤
    confirmationPayloadLen := by
    rw [List.length_append, t.length_body h]
    show 3 + 36 ≤ 51
    decide
  have hdecode := h.decode_encode hlen
  have hpayload := decodeEncryptedPayload_eq h (t.length_body h) (Or.inr rfl) t.flagByte_spec.1
  rw [List.append_assoc] at hdecode hpayload
  refine ⟨_, ?_, hdecode, hpayload⟩
  rw [List.length_take, (bp.sha256d _).2]
  rfl

/-- The parts are where they are read. -/
theorem slices (h : bp.Laws) (checksum : Bytes) :
    let decoded := [magicByte, typeEcMultiplied, t.flagByte] ++ (t.body ++ checksum)
    slice decoded 3 4 = addressHash bp t.address ∧ slice decoded 7 8 = t.ownerentropy.1 ∧
      slice decoded 15 8 = (seedBlocks bp t.derived.1 t.seedb.1).1 ∧
      slice decoded 23 16 = (seedBlocks bp t.derived.1 t.seedb.1).2 ∧
      ∃ rest, decoded.drop 7 = t.ownerentropy.1 ++ rest := by
  obtain ⟨hfirst, hsecond, -⟩ := seedBlocks_spec h t.derived t.seedb
  have hhash := @length_addressHash bp t.address
  have hentropy := t.ownerentropy.2
  dsimp only
  unfold body
  generalize seedBlocks bp t.derived.1 t.seedb.1 = blocks at *
  generalize addressHash bp t.address = hash at *
  generalize t.ownerentropy.1 = entropy at *
  have hfront1 : ([magicByte, typeEcMultiplied, t.flagByte] ++ hash).length = 7 := by
    rw [List.length_append, hhash]
    rfl
  have hfront2 : ([magicByte, typeEcMultiplied, t.flagByte] ++ hash ++ entropy).length = 15 := by
    rw [List.length_append, hfront1, hentropy]
  have hfront3 : ([magicByte, typeEcMultiplied, t.flagByte] ++ hash ++ entropy ++ blocks.1).length =
    23 := by
    rw [List.length_append, hfront2, hfirst]
  simp only [List.append_assoc]
  refine ⟨slice_eq _ _ _ rfl hhash, ?_, ?_, ?_, blocks.1 ++ (blocks.2 ++ checksum), ?_⟩
  · rw [← List.append_assoc]
    exact slice_eq _ _ _ hfront1 hentropy
  · rw [← List.append_assoc, ← List.append_assoc]
    exact slice_eq _ _ _ hfront2 hfirst
  · rw [← List.append_assoc, ← List.append_assoc, ← List.append_assoc]
    exact slice_eq _ _ _ hfront3 hsecond
  · rw [← List.append_assoc]
    exact List.drop_left' hfront1

/-- **The encrypted key is opened.** -/
theorem decryptEx_encryptedKey (h : bp.Laws)
    (hdiffer : NetworksDiffer bp (bp.points.eccGetPubkey t.privateKey t.compressed)) :
    decryptEx bp t.encryptedKey t.passphrase .interop = some (t.privateKey, t.compressed) := by
  obtain ⟨checksum, -, -, hdecode⟩ := t.exists_decoded h
  obtain ⟨hhash, hentropy, hpart1, hpart2, -⟩ := t.slices h checksum
  obtain ⟨-, -, hseed⟩ := seedBlocks_spec h t.derived t.seedb
  obtain ⟨hflags, hcompressed, hlot⟩ := t.flagByte_spec
  have hmatch : privkeyMatchesAddresshash bp t.privateKey t.compressed (addressHash bp t.address)
    .interop = true := by
    unfold privkeyMatchesAddresshash
    rw [find_pubkeyToAddress hdiffer t.address_eq]
    rfl
  have hpassfactor : derivePassfactorBytes bp t.passphrase 0 t.ownerentropy.1 t.hasLotSequence =
    some t.passfactor :=
    t.derivePassfactor_eq
  have hderived : bp.scryptRfc7914 (bp.points.eccGetPubkey t.passfactor true)
      (addressHash bp t.address ++ t.ownerentropy.1) 1024 1 1 64 = some t.derived := t.derived_eq
  unfold decryptEx
  rw [hdecode]
  dsimp only [Option.bind_eq_bind, Option.bind_some]
  rw [decryptDecoded_ecMultiplied hflags]
  unfold decryptEcMultipliedBytes
  rw [hhash, hentropy, hpart1, hpart2]
  have hflag : ([magicByte, typeEcMultiplied, t.flagByte] ++ (t.body ++ checksum)).getD 2 0 =
    t.flagByte := rfl
  dsimp only at hseed ⊢
  rw [hflag, hlot, hcompressed, hpassfactor]
  dsimp only [Option.bind_eq_bind, Option.bind_some]
  rw [hderived]
  dsimp only [Option.bind_eq_bind, Option.bind_some]
  rw [hseed]
  have htweak : bp.points.privkeyTweakMul t.passfactor (bp.sha256d t.seedb.1).1 =
    some t.privateKey := t.tweakMul_eq
  rw [htweak]
  dsimp only [Option.bind_eq_bind, Option.bind_some]
  rw [hmatch]
  rfl

theorem getAddressHash_encryptedKey (h : bp.Laws) :
    getAddressHash bp t.encryptedKey = some (addressHash bp t.address) := by
  obtain ⟨checksum, -, -, hdecode⟩ := t.exists_decoded h
  unfold getAddressHash
  rw [hdecode, Option.map_some, (t.slices h checksum).1]

/-- The number is read from the first eight bytes. -/
theorem lotsequenceOf_append (rest : Bytes) :
    lotsequenceOf (t.ownerentropy.1 ++ rest) = lotsequenceOf t.ownerentropy.1 := by
  have hlen := t.ownerentropy.2
  unfold lotsequenceOf
  rw [List.getD_append _ _ _ _ (by omega), List.getD_append _ _ _ _ (by omega),
    List.getD_append _ _ _ _ (by omega), List.getD_append _ _ _ _ (by omega)]

/-- The lot and the sequence of the owner entropy are read back. -/
theorem decryptWithLotSequenceEx_encryptedKey (h : bp.Laws)
    (hdiffer : NetworksDiffer bp (bp.points.eccGetPubkey t.privateKey t.compressed)) :
    decryptWithLotSequenceEx bp t.encryptedKey t.passphrase .interop =
      some ⟨t.privateKey, t.compressed, t.lot, t.sequence⟩ := by
  obtain ⟨checksum, hchecksum, hbase58, hdecode⟩ := t.exists_decoded h
  obtain ⟨-, -, hlotflag⟩ := t.flagByte_spec
  have hec : isEcMultiplied bp t.encryptedKey = true := by
    have hlen : ([magicByte, typeEcMultiplied, t.flagByte] ++ (t.body ++ checksum)).length =
      payloadLen + 4 := by
      rw [List.length_append, List.length_append, t.length_body h, hchecksum]
      rfl
    unfold isEcMultiplied
    rw [hbase58]
    dsimp only
    rw [if_neg (not_not_intro hlen)]
    rfl
  have hlot : Bip38.hasLotSequence bp t.encryptedKey = t.hasLotSequence := by
    unfold Bip38.hasLotSequence getFlagByte
    rw [hdecode]
    exact hlotflag
  unfold decryptWithLotSequenceEx
  rw [t.decryptEx_encryptedKey h hdiffer]
  dsimp only [Option.bind_eq_bind, Option.bind_some]
  rw [hec, hlot, hdecode, Bool.true_and]
  dsimp only [Option.bind_some]
  obtain ⟨rest, hrest⟩ := (t.slices h checksum).2.2.2.2
  rw [hrest, t.lotsequenceOf_append]
  unfold lot sequence
  split_ifs <;> rfl

/-! ### Confirmation -/

theorem length_encryptedPointb (h : bp.Laws) : t.encryptedPointb.length = 33 := by
  have hpoint := CurvePoints.length_eccGetPubkey h.points (factorbFromSeedb bp t.seedb.1) true
  rw [if_pos rfl] at hpoint
  unfold encryptedPointb
  dsimp only
  rw [List.length_cons, List.length_append,
    (aes256DecryptBlock_encryptBlock h t.derived (by decide) (by rw [List.length_drop]; omega)).2,
    (aes256DecryptBlock_encryptBlock h t.derived (by decide) (by rw [List.length_drop]; omega)).2]

/-- The point of the seed is read back. -/
theorem decrypt_encryptedPointb (h : bp.Laws) (checksum : Bytes) :
    (((t.encryptedPointb ++ checksum).getD 0 0 ^^^ (t.derived.1.getD 63 0 &&& 0x01)) ::
      (aes256DecryptBlock bp t.derived.1 ((t.encryptedPointb ++ checksum).drop 1) 0 ++
        aes256DecryptBlock bp t.derived.1 ((t.encryptedPointb ++ checksum).drop 17) 16)) =
      bp.points.eccGetPubkey (factorbFromSeedb bp t.seedb.1) true := by
  have hpoint := CurvePoints.length_eccGetPubkey h.points (factorbFromSeedb bp t.seedb.1) true
  unfold encryptedPointb
  dsimp only
  generalize bp.points.eccGetPubkey (factorbFromSeedb bp t.seedb.1) true = pointb at *
  rw [if_pos rfl] at hpoint
  obtain ⟨hfirst, hlen1⟩ := @aes256DecryptBlock_encryptBlock bp h t.derived
    (pointb.drop 1) 0 (by decide) (by rw [List.length_drop]; omega)
  obtain ⟨hsecond, hlen2⟩ := @aes256DecryptBlock_encryptBlock bp h t.derived
    (pointb.drop 17) 16 (by decide) (by rw [List.length_drop]; omega)
  have htake : ∀ (block rest : Bytes) (off : ℕ), block.length = 16 →
      aes256DecryptBlock bp t.derived.1 (block ++ rest) off =
        aes256DecryptBlock bp t.derived.1 block off := by
    intro block rest off hblock
    unfold aes256DecryptBlock
    rw [List.take_left' hblock, List.take_of_length_le (le_of_eq hblock)]
  generalize aes256EncryptBlock bp t.derived.1 (pointb.drop 1) 0 = block1 at *
  generalize aes256EncryptBlock bp t.derived.1 (pointb.drop 17) 16 = block2 at *
  generalize t.derived.1.getD 63 0 &&& 0x01 = bit
  rw [List.cons_append, List.getD_cons_zero, List.drop_succ_cons, List.drop_zero,
    List.drop_succ_cons,
    List.append_assoc, List.drop_left' hlen1, htake block1 _ 0 hlen1, htake block2 _ 16 hlen2,
      hfirst, hsecond]
  cases pointb with
  | nil => cases hpoint
  | cons first point =>
    rw [List.length_cons] at hpoint
    have hbyte : first ^^^ bit ^^^ bit = first := by
      rw [UInt8.xor_assoc, UInt8.xor_self, UInt8.xor_zero]
    have hrest : (point.drop 16).take 16 = point.drop 16 :=
      List.take_of_length_le (by rw [List.length_drop]; omega)
    rw [List.getD_cons_zero, hbyte, List.drop_succ_cons, List.drop_zero, List.drop_succ_cons, hrest,
      List.take_append_drop]

/-- What is decoded from the confirmation code, and where its parts are. -/
theorem exists_confirmation (h : bp.Laws) : ∃ decoded checksum : Bytes,
    bp.base58DecodeCheck t.confirmationCode base58DecodeBuflen = some decoded ∧
      decoded.length = confirmationPayloadLen + 4 ∧ decoded.take 5 = confirmationMagic ∧
      decoded.getD 5 0 = t.flagByte ∧ slice decoded 6 4 = addressHash bp t.address ∧
      slice decoded 10 8 = t.ownerentropy.1 ∧ decoded.drop 18 = t.encryptedPointb ++ checksum := by
  have hhash := @length_addressHash bp t.address
  have hentropy := t.ownerentropy.2
  have hpointb := t.length_encryptedPointb h
  have hlen : (confirmationMagic ++ [t.flagByte] ++ addressHash bp t.address ++ t.ownerentropy.1 ++
      t.encryptedPointb).length = confirmationPayloadLen := by
    simp only [List.length_append, hhash, hentropy, hpointb]
    rfl
  have hdecode := h.decode_encode (le_of_eq hlen)
  have hchecksum : ((bp.sha256d (confirmationMagic ++ [t.flagByte] ++ addressHash bp t.address ++
      t.ownerentropy.1 ++ t.encryptedPointb)).1.take 4).length = 4 := by
    rw [List.length_take, (bp.sha256d _).2]
    rfl
  generalize (bp.sha256d _).1.take 4 = checksum at hdecode hchecksum
  refine ⟨_, checksum, hdecode, ?_⟩
  generalize addressHash bp t.address = hash at *
  generalize t.ownerentropy.1 = entropy at *
  generalize t.encryptedPointb = pointb at *
  have hfront1 : (confirmationMagic ++ [t.flagByte] ++ hash).length = 10 := by
    rw [List.length_append, hhash]
    rfl
  have hfront2 : (confirmationMagic ++ [t.flagByte] ++ hash ++ entropy).length = 18 := by
    rw [List.length_append, hfront1, hentropy]
  refine ⟨?_, rfl, rfl, ?_, ?_, ?_⟩
  · rw [List.length_append, hlen, hchecksum]
  · rw [List.append_assoc, List.append_assoc, List.append_assoc (confirmationMagic ++ [t.flagByte])]
    exact slice_eq _ _ _ rfl hhash
  · rw [List.append_assoc, List.append_assoc]
    exact slice_eq _ _ _ hfront1 hentropy
  · rw [List.append_assoc]
    exact List.drop_left' hfront2

/-- **The confirmation code is accepted.** -/
theorem confirmPassphraseEx_confirmationCode (h : bp.Laws)
    (hdiffer : NetworksDiffer bp (bp.points.eccGetPubkey t.privateKey t.compressed))
    {addressSize : ℕ}
    (hsize : p2pkhlen ≤ addressSize) :
    confirmPassphraseEx bp t.passphrase t.confirmationCode .interop addressSize =
      some ⟨t.address, t.compressed, t.lot, t.sequence⟩ := by
  obtain ⟨hflags, hcompressed, hlot⟩ := t.flagByte_spec
  obtain ⟨decoded, checksum, hdecode, hlen, hmagic, hflag, hhash, hentropy, hrest⟩ :=
    t.exists_confirmation h
  -- The factors are multiplied in the other order.
  have htweak : bp.points.eccPublicKeyTweakMul
    (bp.points.eccGetPubkey (factorbFromSeedb bp t.seedb.1) true)
      t.passfactor = some (bp.points.eccGetPubkey t.privateKey true) := by
    apply CurvePoints.eccPublicKeyTweakMul_eq h.points t.valid_factorb t.valid_passfactor
    rw [h.points.mul_comm t.valid_factorb t.valid_passfactor, t.tweakMul_eq]
  have hfind := find_pubkeyToAddress hdiffer t.address_eq
  have hserialize := CurvePoints.eccPointSerialize_eq h.points (t.valid_privateKey h) t.compressed
  have hpoint := t.decrypt_encryptedPointb h checksum
  unfold confirmPassphraseEx
  rw [if_neg (Nat.not_lt.mpr hsize), hdecode]
  dsimp only [Option.bind_eq_bind, Option.bind_some]
  rw [if_neg (not_not_intro hlen), if_neg (not_not_intro hmagic), hflag, hflags, if_neg (by decide),
    hhash, hentropy, hrest, hlot, hcompressed, t.derivePassfactor_eq]
  dsimp only [Option.bind_some]
  rw [t.derived_eq]
  dsimp only [Option.bind_some]
  rw [hpoint, htweak]
  dsimp only [Option.bind_some]
  rw [hserialize]
  dsimp only [Option.bind_some]
  rw [hfind]
  dsimp only [Option.bind_some]
  unfold lot sequence
  split_ifs <;> rfl

/-! ### Encryption -/

/-- By both ways the key is the product of the factors. -/
theorem ecCoreKey_eq_some (h : bp.Laws) {passfactor factorb : Bytes} {compressed : Bool}
    {passfactorOptional : Option Bytes} {privateKey : Option Bytes} {pubkeyBuf : Bytes}
    (hpassfactor : bp.curve.seckeyVerify passfactor = true)
    (hfactorb : bp.curve.seckeyVerify factorb = true)
    (hoptional : ∀ pf ∈ passfactorOptional, pf = passfactor)
    (hkey : ecCoreKey bp (bp.points.eccGetPubkey passfactor true) factorb compressed
      passfactorOptional =
      some (privateKey, pubkeyBuf)) :
    ∃ priv, bp.points.privkeyTweakMul passfactor factorb = some priv ∧
      pubkeyBuf = bp.points.eccGetPubkey priv compressed ∧ ∀ key ∈ privateKey, key = priv := by
  obtain ⟨priv, hpriv, hvalid⟩ := h.points.exists_mul hpassfactor hfactorb
  refine ⟨priv, hpriv, ?_⟩
  unfold ecCoreKey at hkey
  cases hpf : passfactorOptional with
  | some pf =>
    obtain rfl := hoptional pf hpf
    rw [hpf] at hkey
    dsimp only at hkey
    rw [hpriv, Option.map_some] at hkey
    obtain ⟨hprivate, hpubkey⟩ := Prod.mk.inj (Option.some.inj hkey)
    refine ⟨hpubkey.symm, ?_⟩
    intro key hmem
    rw [← hprivate] at hmem
    exact (Option.some.inj hmem).symm
  | none =>
    rw [hpf] at hkey
    dsimp only at hkey
    rw [CurvePoints.eccPublicKeyTweakMul_eq h.points hpassfactor hfactorb hpriv] at hkey
    dsimp only [Option.bind_eq_bind, Option.bind_some] at hkey
    rw [CurvePoints.eccPointSerialize_eq h.points hvalid] at hkey
    obtain ⟨hprivate, hpubkey⟩ := Prod.mk.inj (Option.some.inj hkey)
    refine ⟨hpubkey.symm, ?_⟩
    intro key hmem
    rw [← hprivate] at hmem
    cases hmem

end TwoFactor

theorem confirmationEncode_eq_some {flagbyte : UInt8}
    {addresshash ownerentropy factorb derived code : Bytes}
    (h : confirmationEncode bp flagbyte addresshash ownerentropy factorb derived size = some code) :
    let pointb := bp.points.eccGetPubkey factorb true
    code = bp.base58EncodeCheck (confirmationMagic ++ [flagbyte] ++ addresshash ++ ownerentropy ++
      ((pointb.getD 0 0 ^^^ (derived.getD 63 0 &&& 0x01)) ::
        (aes256EncryptBlock bp derived (pointb.drop 1) 0 ++
          aes256EncryptBlock bp derived (pointb.drop 17) 16))) := by
  unfold confirmationEncode at h
  split_ifs at h
  exact base58EncodeInto_eq_some h

/-- **What `bip38_encrypt_ec_core` writes is a key of two factors**, with its confirmation. -/
theorem encryptEcCore_eq_some (h : bp.Laws) {passphrase : Bytes} {ownerentropy : BytesOf 8}
    {hasLotSequence compressed : Bool} {seedb : BytesOf 24} {passfactor : Bytes}
    {passfactorOptional : Option Bytes} {confirmationSize : Option ℕ} {out : EcEncrypted}
    (hpassfactor : derivePassfactor bp passphrase ownerentropy.1 hasLotSequence = some passfactor)
    (hvalid : bp.curve.seckeyVerify passfactor = true)
    (hfactorb : bp.curve.seckeyVerify (factorbFromSeedb bp seedb.1) = true)
    (hoptional : ∀ pf ∈ passfactorOptional, pf = passfactor)
    (hcore : encryptEcCore bp (bp.points.eccGetPubkey passfactor true) ownerentropy.1
      hasLotSequence compressed seedb.1 (chainFromAddressHint hint) passfactorOptional size
        confirmationSize = some out) :
    ∃ t : TwoFactor bp, t.passphrase = passphrase ∧ t.ownerentropy = ownerentropy ∧
      t.hasLotSequence = hasLotSequence ∧ t.seedb = seedb ∧ t.compressed = compressed ∧
      t.hint = hint ∧
      t.passfactor = passfactor ∧ out.encryptedKey = t.encryptedKey ∧
      (∀ key ∈ out.privateKey, key = t.privateKey) ∧
      (∀ code ∈ out.confirmationCode, code = t.confirmationCode) ∧
      out.confirmationCode.isSome = confirmationSize.isSome := by
  unfold encryptEcCore at hcore
  by_cases hsize : size < encryptedKeyLength + 1
  · rw [if_pos hsize] at hcore
    cases hcore
  rw [if_neg hsize] at hcore
  dsimp only at hcore
  obtain ⟨⟨privateKey, pubkeyBuf⟩, hkey, hcore⟩ := Option.bind_eq_some_iff.mp hcore
  obtain ⟨priv, hpriv, rfl, hprivate⟩ :=
    TwoFactor.ecCoreKey_eq_some h hvalid hfactorb hoptional hkey
  obtain ⟨address, haddress, hcore⟩ := Option.bind_eq_some_iff.mp hcore
  obtain ⟨derived, hderived, hcore⟩ := Option.bind_eq_some_iff.mp hcore
  obtain ⟨encryptedKey, hencrypted, hcore⟩ := Option.bind_eq_some_iff.mp hcore
  obtain ⟨confirmationCode, hconfirmation, hsome, rfl⟩ : ∃ confirmationCode,
      (∀ code ∈ confirmationCode, ∃ size, confirmationEncode bp (flags compressed hasLotSequence)
        (addressHash bp address) ownerentropy.1 (factorbFromSeedb bp seedb.1) derived.1 size =
          some code) ∧
      confirmationCode.isSome = confirmationSize.isSome ∧
        out = ⟨privateKey, encryptedKey, confirmationCode⟩ := by
    cases confirmationSize with
    | none =>
      refine ⟨none, ?_, rfl, (Option.some.inj hcore).symm⟩
      intro code hcode
      cases hcode
    | some confirmationSize =>
      obtain ⟨confirmationCode, hconfirmation, hcore⟩ := Option.bind_eq_some_iff.mp hcore
      obtain ⟨code, hcode, rfl⟩ := Option.map_eq_some_iff.mp hconfirmation
      refine ⟨some code, ?_, rfl, (Option.some.inj hcore).symm⟩
      intro code' hmem
      obtain rfl := Option.some.inj hmem
      exact ⟨confirmationSize, hcode⟩
  refine ⟨⟨passphrase, ownerentropy, hasLotSequence, seedb, compressed, hint, passfactor, priv,
    address, derived,
    hpassfactor, hvalid, hfactorb, hpriv, haddress, hderived⟩, rfl, rfl, rfl, rfl, rfl, rfl, rfl,
      ?_, hprivate, ?_, hsome⟩
  · rw [base58EncodeInto_eq_some hencrypted]
    unfold TwoFactor.encryptedKey TwoFactor.body seedBlocks
    simp only [List.append_assoc]
    rfl
  · intro code hcode
    obtain ⟨confirmationSize, hencode⟩ := hconfirmation code hcode
    exact confirmationEncode_eq_some hencode

end Bip38

end Libdogecoin
