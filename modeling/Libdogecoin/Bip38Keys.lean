/-
# Making keys of two factors

One party alone, or the owner of a passphrase and a printer who has only an intermediate code. Lot
and sequence are in the last four bytes of the owner entropy; where the entropy is given, they are
whatever stands there.

* `encryptEcMultiplied_opens`, `encryptFromIntermediate_opens` : what either makes is opened;
* `bip38_roundtrip` : all together.
-/
import Libdogecoin.Bip38TwoFactor

namespace Libdogecoin

open MaskedCipher

namespace Bip38

variable {bp : Bip38Platform}

/-! ## Lot and sequence -/

/-- The four bytes of a number. -/
theorem or_bytes (x : UInt32) :
    ((x >>> 24).toUInt8.toUInt32 <<< 24) ||| ((x >>> 16).toUInt8.toUInt32 <<< 16) |||
      ((x >>> 8).toUInt8.toUInt32 <<< 8) ||| x.toUInt8.toUInt32 = x := by
  have h256 : (256 : ℕ) = 2 ^ 8 := by decide
  have h24 : UInt32.toNat 24 % 32 = 24 := rfl
  have h16 : UInt32.toNat 16 % 32 = 16 := rfl
  have h8 : UInt32.toNat 8 % 32 = 8 := rfl
  apply UInt32.toNat_inj.mp
  apply Nat.eq_of_testBit_eq
  intro i
  have hhigh : 32 ≤ i → x.toNat.testBit i = false := by
    intro hi
    apply Nat.testBit_lt_two_pow
    calc x.toNat < 2 ^ 32 := x.toNat_lt
      _ ≤ 2 ^ i := Nat.pow_le_pow_right (by decide) hi
  have hback24 : 24 ≤ i → 24 + (i - 24) = i := by omega
  have hback16 : 16 ≤ i → 16 + (i - 16) = i := by omega
  have hback8 : 8 ≤ i → 8 + (i - 8) = i := by omega
  simp only [UInt32.toNat_or, UInt32.toNat_shiftLeft, UInt8.toNat_toUInt32, UInt32.toNat_toUInt8,
    UInt32.toNat_shiftRight, Nat.testBit_or, Nat.testBit_mod_two_pow, Nat.testBit_shiftLeft,
    Nat.testBit_shiftRight, h24, h16, h8]
  grind

theorem lotsequenceOf_lotSequenceBytes {salt : Bytes} (hsalt : salt.length = 4)
    (lot sequence : UInt32) :
    lotsequenceOf (salt ++ lotSequenceBytes lot sequence) = lot * 4096 + sequence := by
  have hget : ∀ i, (salt ++ lotSequenceBytes lot sequence).getD (4 + i) 0 =
      (lotSequenceBytes lot sequence).getD i 0 := by
    intro i
    rw [List.getD_append_right _ _ _ _ (by omega), hsalt, Nat.add_sub_cancel_left]
  unfold lotsequenceOf
  rw [hget 0, hget 1, hget 2, hget 3]
  exact or_bytes (lot * 4096 + sequence)

/-- Lot and sequence in range come apart again. -/
theorem lotsequence_div_mod {lot sequence : UInt32} (hok : lotSequenceOk true lot sequence = true) :
    (lot * 4096 + sequence) / 4096 = lot ∧ (lot * 4096 + sequence) % 4096 = sequence := by
  have hlot : lot.toNat ≤ 1048575 := by
    by_contra hlot
    have hgt : lot > lotMax := UInt32.lt_iff_toNat_lt.mpr (not_le.mp hlot)
    simp [lotSequenceOk, hgt] at hok
  have hsequence : sequence.toNat ≤ 4095 := by
    by_contra hsequence
    have hgt : sequence > sequenceMax := UInt32.lt_iff_toNat_lt.mpr (not_le.mp hsequence)
    simp [lotSequenceOk, hgt] at hok
  have h4096 : UInt32.toNat 4096 = 4096 := rfl
  have hsum : (lot * 4096 + sequence).toNat = lot.toNat * 4096 + sequence.toNat := by
    rw [UInt32.toNat_add, UInt32.toNat_mul, h4096]
    omega
  constructor
  · apply UInt32.toNat_inj.mp
    rw [UInt32.toNat_div, hsum, h4096]
    omega
  · apply UInt32.toNat_inj.mp
    rw [UInt32.toNat_mod, hsum, h4096]
    omega

/-- The lot and the sequence of an owner entropy. -/
def lotOf (hasLotSequence : Bool) (ownerentropy : BytesOf 8) : UInt32 × UInt32 :=
  if hasLotSequence then (lotsequenceOf ownerentropy.1 / 4096, lotsequenceOf ownerentropy.1 % 4096)
  else (0, 0)

/-- A generated entropy holds what it was generated for. -/
theorem lotOf_ownerentropyGenerate {random : (n : ℕ) → Option (BytesOf n)} {useLotSequence : Bool}
    {lot sequence : UInt32} {ownerentropy : BytesOf 8}
    (hok : lotSequenceOk useLotSequence lot sequence = true)
    (h : ownerentropyGenerate random useLotSequence lot sequence = some ownerentropy) :
    lotOf useLotSequence ownerentropy = if useLotSequence then (lot, sequence) else (0, 0) := by
  cases useLotSequence with
  | false => rfl
  | true =>
    obtain ⟨salt, hsalt, rfl⟩ := Option.map_eq_some_iff.mp h
    obtain ⟨hdiv, hmod⟩ := lotsequence_div_mod hok
    show (lotsequenceOf (salt.1 ++ lotSequenceBytes lot sequence) / 4096,
      lotsequenceOf (salt.1 ++ lotSequenceBytes lot sequence) % 4096) = (lot, sequence)
    rw [lotsequenceOf_lotSequenceBytes salt.2, hdiv, hmod]

/-! ## What is opened -/

/-- What is assumed of one key of two factors: the factors are proper keys, and the addresses of the
key differ in their four bytes. -/
structure EcAssumptions (bp : Bip38Platform) (passphrase : Bytes) (ownerentropy : BytesOf 8)
    (hasLotSequence : Bool) (seedb : BytesOf 24) (compressed : Bool) : Prop where
  passfactor : ∀ passfactor, derivePassfactor bp passphrase ownerentropy.1 hasLotSequence =
    some passfactor →
    bp.curve.seckeyVerify passfactor = true
  factorb : bp.curve.seckeyVerify (factorbFromSeedb bp seedb.1) = true
  networks : ∀ passfactor privateKey,
    derivePassfactor bp passphrase ownerentropy.1 hasLotSequence = some passfactor →
    bp.points.privkeyTweakMul passfactor (factorbFromSeedb bp seedb.1) = some privateKey →
    NetworksDiffer bp (bp.points.eccGetPubkey privateKey compressed)

/-- What is made is opened with the passphrase: the key is the one of the address whose hash is in
it, and the confirmation code, where one is asked for, gives that address. -/
def Opens (bp : Bip38Platform) (passphrase : Bytes) (compressed : Bool)
    (lotSequence : UInt32 × UInt32) (hint : Option Bytes) (confirmationSize : Option ℕ)
    (out : EcEncrypted) : Prop :=
  out.confirmationCode.isSome = confirmationSize.isSome ∧ ∃ privateKey address,
    pubkeyToAddress bp (bp.points.eccGetPubkey privateKey compressed) (chainFromAddressHint hint) =
      some address ∧
    (∀ key ∈ out.privateKey, key = privateKey) ∧
    getAddressHash bp out.encryptedKey = some (addressHash bp address) ∧
    decryptEx bp out.encryptedKey passphrase .interop = some (privateKey, compressed) ∧
    decryptWithLotSequenceEx bp out.encryptedKey passphrase .interop =
      some ⟨privateKey, compressed, lotSequence.1, lotSequence.2⟩ ∧
    ∀ code ∈ out.confirmationCode, ∀ addressSize, p2pkhlen ≤ addressSize →
      confirmPassphraseEx bp passphrase code .interop addressSize =
        some ⟨address, compressed, lotSequence.1, lotSequence.2⟩

/-- What the core writes is opened. -/
theorem encryptEcCore_opens (h : bp.Laws) {passphrase : Bytes} {ownerentropy : BytesOf 8}
    {hasLotSequence compressed : Bool} {seedb : BytesOf 24} {hint : Option Bytes}
    {passfactor : Bytes}
    {passfactorOptional : Option Bytes} {size : ℕ} {confirmationSize : Option ℕ} {out : EcEncrypted}
    (hassume : EcAssumptions bp passphrase ownerentropy hasLotSequence seedb compressed)
    (hpassfactor : derivePassfactor bp passphrase ownerentropy.1 hasLotSequence = some passfactor)
    (hoptional : ∀ pf ∈ passfactorOptional, pf = passfactor)
    (hcore : encryptEcCore bp (bp.points.eccGetPubkey passfactor true) ownerentropy.1
      hasLotSequence compressed seedb.1 (chainFromAddressHint hint) passfactorOptional size
        confirmationSize = some out) :
    Opens bp passphrase compressed (lotOf hasLotSequence ownerentropy) hint
      confirmationSize out := by
  obtain ⟨t, rfl, rfl, rfl, rfl, rfl, rfl, rfl, hencrypted, hprivate, hconfirmation, hsome⟩ :=
    encryptEcCore_eq_some h hpassfactor (hassume.passfactor _ hpassfactor)
      hassume.factorb hoptional hcore
  have hdiffer := hassume.networks _ _ hpassfactor t.tweakMul_eq
  have hlot : lotOf t.hasLotSequence t.ownerentropy = (t.lot, t.sequence) := by
    unfold lotOf TwoFactor.lot TwoFactor.sequence
    split_ifs <;> rfl
  rw [hlot]
  refine ⟨hsome, t.privateKey, t.address, t.address_eq, hprivate, ?_, ?_, ?_, ?_⟩
  · rw [hencrypted]
    exact t.getAddressHash_encryptedKey h
  · rw [hencrypted]
    exact t.decryptEx_encryptedKey h hdiffer
  · rw [hencrypted]
    exact t.decryptWithLotSequenceEx_encryptedKey h hdiffer
  · intro code hcode addressSize hsize
    rw [hconfirmation code hcode]
    exact t.confirmPassphraseEx_confirmationCode h hdiffer hsize

/-! ## One party -/

/-- What one party makes is opened. -/
theorem encryptEcMultiplied_opens (h : bp.Laws) {random : (n : ℕ) → Option (BytesOf n)}
    {passphrase : Bytes} {compressed useLotSequence : Bool} {lot sequence : UInt32}
    {hint : Option Bytes} {size : ℕ}
    {confirmationSize : Option ℕ} {out : EcEncrypted}
    (hassume : ∀ ownerentropy seedb, ownerentropyGenerate random useLotSequence lot sequence =
      some ownerentropy →
      random 24 = some seedb → EcAssumptions bp passphrase ownerentropy useLotSequence
        seedb compressed)
    (hout : encryptEcMultiplied bp random passphrase compressed useLotSequence lot
      sequence hint size confirmationSize = some out) :
    Opens bp passphrase compressed (if useLotSequence then (lot, sequence) else (0, 0)) hint
      confirmationSize
      out := by
  unfold encryptEcMultiplied encryptEcWithPassphrase at hout
  by_cases hok : lotSequenceOk useLotSequence lot sequence = false
  · rw [if_pos hok] at hout
    cases hout
  rw [if_neg hok] at hout
  obtain ⟨ownerentropy, hentropy, hout⟩ := Option.bind_eq_some_iff.mp hout
  obtain ⟨passfactor, hpassfactor, hout⟩ := Option.bind_eq_some_iff.mp hout
  obtain ⟨seedb, hseedb, hcore⟩ := Option.bind_eq_some_iff.mp hout
  rw [← lotOf_ownerentropyGenerate (Bool.eq_true_of_not_eq_false hok) hentropy]
  apply encryptEcCore_opens h (hassume ownerentropy seedb hentropy hseedb) hpassfactor _ hcore
  intro pf hpf
  exact (Option.some.inj hpf).symm

/-! ## Two parties -/

/-- An intermediate code is parsed: the entropy and the point of the owner. -/
theorem parseIntermediateCode_eq (h : bp.Laws) (ownerentropy : BytesOf 8) {passpoint : Bytes}
    (hpasspoint : passpoint.length = 33) (useLotSequence : Bool) :
    parseIntermediateCode bp (bp.base58EncodeCheck
      ((if useLotSequence then intermediateMagicLot else intermediateMagicNolot) ++
        ownerentropy.1 ++ passpoint)) =
      some ⟨ownerentropy.1, passpoint, useLotSequence⟩ := by
  have hmagic : (if useLotSequence then intermediateMagicLot else
    intermediateMagicNolot).length = 8 := by
    cases useLotSequence <;> rfl
  have hparsed : (if useLotSequence then intermediateMagicLot else intermediateMagicNolot) =
    intermediateMagicLot ↔ useLotSequence = true := by
    cases useLotSequence <;> decide
  generalize hif : (if useLotSequence then intermediateMagicLot else intermediateMagicNolot) =
    magic at *
  have hentropy := ownerentropy.2
  have hlen : (magic ++ ownerentropy.1 ++ passpoint).length = intermediatePayloadLen := by
    rw [List.length_append, List.length_append, hmagic, hentropy, hpasspoint]
    rfl
  have hdecode := h.decode_encode
    (show (magic ++ ownerentropy.1 ++ passpoint).length ≤ confirmationPayloadLen by
    rw [hlen]
    decide)
  have hchecksum : ((bp.sha256d (magic ++ ownerentropy.1 ++ passpoint)).1.take 4).length = 4 := by
    rw [List.length_take, (bp.sha256d _).2]
    rfl
  generalize (bp.sha256d _).1.take 4 = checksum at hdecode hchecksum
  have hslice1 := slice_eq magic ownerentropy.1 (passpoint ++ checksum) hmagic hentropy
  have hslice2 := @slice_eq (magic ++ ownerentropy.1) passpoint checksum 16 33
    (by rw [List.length_append, hmagic, hentropy]) hpasspoint
  have htake : (magic ++ ownerentropy.1 ++ passpoint ++ checksum).take 8 = magic := by
    rw [List.append_assoc, List.append_assoc]
    exact List.take_left' hmagic
  unfold parseIntermediateCode
  rw [hdecode]
  dsimp only [Option.bind_eq_bind, Option.bind_some]
  rw [if_neg (by rw [List.length_append, hlen, hchecksum]; decide), htake]
  rw [← List.append_assoc] at hslice1 hslice2
  rw [← List.append_assoc] at hslice1
  rw [hslice1, hslice2]
  cases useLotSequence with
  | true => rw [if_pos (hparsed.mpr rfl)]
  | false =>
    rw [if_neg (fun h => Bool.false_ne_true (hparsed.mp h))]
    exact if_pos hif.symm

/-- The lot and the sequence of an intermediate code: those of a given entropy, or the given
ones. -/
def codeLot (ownerentropyOverride : Option (BytesOf 8)) (useLotSequence : Bool)
    (lot sequence : UInt32) :
    UInt32 × UInt32 :=
  match ownerentropyOverride with
  | some ownerentropy => lotOf useLotSequence ownerentropy
  | none => if useLotSequence then (lot, sequence) else (0, 0)

/-- What the printer makes of an intermediate code is opened by its owner. -/
theorem encryptFromIntermediate_opens (h : bp.Laws) {random random' : (n : ℕ) → Option (BytesOf n)}
    {passphrase code : Bytes} {useLotSequence : Bool} {lot sequence : UInt32}
    {ownerentropyOverride : Option (BytesOf 8)} {codeSize : ℕ} {compressed : Bool}
    {seedbOverride : Option (BytesOf 24)} {hint : Option Bytes} {size : ℕ}
    {confirmationSize : Option ℕ}
    {out : EcEncrypted}
    (hassume : ∀ ownerentropy seedb,
      (ownerentropyOverride <|> ownerentropyGenerate random useLotSequence lot sequence) =
      some ownerentropy →
      (seedbOverride <|> random' 24) = some seedb →
        EcAssumptions bp passphrase ownerentropy useLotSequence seedb compressed)
    (hcode : generateIntermediateCode bp random passphrase useLotSequence lot sequence
      ownerentropyOverride codeSize =
      some code)
    (hout : encryptFromIntermediate bp random' code compressed seedbOverride hint size
      confirmationSize = some out) :
    Opens bp passphrase compressed (codeLot ownerentropyOverride useLotSequence lot sequence) hint
      confirmationSize
      out := by
  unfold generateIntermediateCode at hcode
  by_cases hok : lotSequenceOk useLotSequence lot sequence = false
  · rw [if_pos hok] at hcode
    cases hcode
  rw [if_neg hok] at hcode
  by_cases hsize : codeSize < intermediateCodeMaxlen
  · rw [if_pos hsize] at hcode
    cases hcode
  rw [if_neg hsize] at hcode
  obtain ⟨ownerentropy, hentropy, hcode⟩ := Option.bind_eq_some_iff.mp hcode
  obtain ⟨passfactor, hpassfactor, hcode⟩ := Option.bind_eq_some_iff.mp hcode
  obtain rfl := base58EncodeInto_eq_some hcode
  have hpasspoint := CurvePoints.length_eccGetPubkey h.points passfactor true
  unfold encryptFromIntermediate at hout
  rw [parseIntermediateCode_eq h ownerentropy hpasspoint] at hout
  dsimp only [Option.bind_eq_bind, Option.bind_some] at hout
  obtain ⟨seedb, hseedb, hcore⟩ := Option.bind_eq_some_iff.mp hout
  have hlot : codeLot ownerentropyOverride useLotSequence lot sequence =
    lotOf useLotSequence ownerentropy := by
    cases ownerentropyOverride with
    | some given =>
      obtain rfl := Option.some.inj hentropy
      rfl
    | none => exact (lotOf_ownerentropyGenerate (Bool.eq_true_of_not_eq_false hok) hentropy).symm
  rw [hlot]
  apply encryptEcCore_opens h (hassume ownerentropy seedb hentropy hseedb) hpassfactor _ hcore
  intro pf hpf
  cases hpf

/-! ## All together -/

/-- **Encrypted keys are opened with their passphrases** : a key that is encrypted with its own
address, a key that one party makes, and a key that is made from an intermediate code, with what is
assumed of these keys. -/
theorem bip38_roundtrip (bp : Bip38Platform) (h : bp.Laws) :
    (∀ (privateKey : BytesOf 32) (passphrase : Bytes) (compressed : Bool) (size : ℕ) (e : Bytes),
      encrypt bp privateKey.1 passphrase
        (bp.pubkeyGetaddrP2pkh (bp.points.eccGetPubkey privateKey.1 compressed) keyParamsMain)
        compressed size =
        some e →
      decrypt bp e passphrase = some (privateKey.1, compressed) ∧
        ∀ mode, decryptEx bp e passphrase mode = some (privateKey.1, compressed)) ∧
    (∀ (random : (n : ℕ) → Option (BytesOf n)) (passphrase : Bytes)
      (compressed useLotSequence : Bool) (lot sequence : UInt32) (hint : Option Bytes) (size : ℕ)
      (confirmationSize : Option ℕ)
      (out : EcEncrypted),
      (∀ ownerentropy seedb, ownerentropyGenerate random useLotSequence lot sequence =
        some ownerentropy →
        random 24 = some seedb → EcAssumptions bp passphrase ownerentropy useLotSequence
          seedb compressed) →
      encryptEcMultiplied bp random passphrase compressed useLotSequence lot sequence hint size
        confirmationSize =
        some out →
      Opens bp passphrase compressed (if useLotSequence then (lot, sequence) else (0, 0)) hint
        confirmationSize out) ∧
    (∀ (random random' : (n : ℕ) → Option (BytesOf n)) (passphrase code : Bytes)
      (useLotSequence : Bool) (lot sequence : UInt32) (ownerentropyOverride : Option (BytesOf 8))
      (codeSize : ℕ)
      (compressed : Bool)
      (seedbOverride : Option (BytesOf 24)) (hint : Option Bytes) (size : ℕ)
      (confirmationSize : Option ℕ)
      (out : EcEncrypted),
      (∀ ownerentropy seedb,
        (ownerentropyOverride <|> ownerentropyGenerate random useLotSequence lot sequence) =
        some ownerentropy →
        (seedbOverride <|> random' 24) = some seedb →
          EcAssumptions bp passphrase ownerentropy useLotSequence seedb compressed) →
      generateIntermediateCode bp random passphrase useLotSequence lot sequence
        ownerentropyOverride codeSize =
        some code →
      encryptFromIntermediate bp random' code compressed seedbOverride hint size confirmationSize =
        some out →
      Opens bp passphrase compressed (codeLot ownerentropyOverride useLotSequence lot sequence) hint
        confirmationSize out) := by
  refine ⟨?_, ?_, ?_⟩
  · intro privateKey passphrase compressed size e hencrypt
    have hopen := decryptEx_encrypt h privateKey.2 hencrypt
    exact ⟨hopen .mainnet, hopen⟩
  · intro random passphrase compressed useLotSequence lot sequence hint size confirmationSize
      out hassume hout
    exact encryptEcMultiplied_opens h hassume hout
  · intro random random' passphrase code useLotSequence lot sequence ownerentropyOverride
      codeSize compressed seedbOverride hint size confirmationSize out hassume hcode hout
    exact encryptFromIntermediate_opens h hassume hcode hout

/-! ## A platform for runs on fixed inputs -/

/-- Points are keys, and multiplication adds bit by bit. -/
def samplePoints : CurvePoints where
  pubkeyCreate := fun key => if key.length = 32 then some key else none
  pubkeySerialize := fun point compressed => if compressed then 2 :: point else 4 ::
    (point ++ List.replicate 32 0)
  pubkeyParse := fun bs => if bs.length = 33 ∨ bs.length = 65 then
    some ((bs.drop 1).take 32) else none
  privkeyTweakMul := fun key tweak =>
    if key.length = 32 ∧ tweak.length = 32 then some (xorBytes key tweak) else none
  pubkeyTweakMul := fun point tweak =>
    if point.length = 32 ∧ tweak.length = 32 then some (xorBytes point tweak) else none

/-- The surroundings of encrypted keys for runs on fixed inputs. -/
def sampleBip38 : Bip38Platform where
  toWalletPlatform := { sampleWallet with
    curve := { sampleWalletCurve with seckeyVerify := fun key => decide (key.length = 32) } }
  points := samplePoints
  utf8procMap := some
  scryptRfc7914 := fun passwd salt _ _ _ buflen =>
    some ⟨(passwd ++ salt ++ List.replicate buflen 1).take buflen, by
      rw [List.length_take, List.length_append, List.length_replicate]
      omega⟩
  aes256 := ⟨fun _ block => block.reverse, fun _ block => block.reverse⟩

theorem samplePoints_laws : samplePoints.Laws fun key => decide (key.length = 32) := by
  have hcreate : ∀ {key : Bytes}, key.length = 32 → samplePoints.pubkeyCreate key = some key :=
    fun h => if_pos h
  have hpoint : ∀ {key point : Bytes}, samplePoints.pubkeyCreate key = some point →
    point.length = 32 := by
    intro key point h
    unfold samplePoints at h
    dsimp only at h
    split_ifs at h with hlen
    rw [← Option.some.inj h]
    exact hlen
  have hmul : ∀ {a b : Bytes}, a.length = 32 → b.length = 32 →
      samplePoints.privkeyTweakMul a b = some (xorBytes a b) := fun ha hb => if_pos ⟨ha, hb⟩
  have hlength : ∀ {a b : Bytes}, a.length = 32 → b.length = 32 → (xorBytes a b).length = 32 := by
    intro a b ha hb
    rw [length_xorBytes, ha, hb]
    rfl
  refine ⟨?_, ?_, ?_, ?_, ?_, ?_⟩
  · intro key hkey
    exact ⟨key, hcreate (of_decide_eq_true hkey)⟩
  · intro key point compressed h
    have hlen := hpoint h
    cases compressed
    · show (4 :: (point ++ List.replicate 32 0)).length = 65
      rw [List.length_cons, List.length_append, hlen, List.length_replicate]
    · show (2 :: point).length = 33
      rw [List.length_cons, hlen]
  · intro key point compressed h
    have hlen := hpoint h
    cases compressed
    · have hserialized : (4 :: (point ++ List.replicate 32 0)).length = 65 := by
        rw [List.length_cons, List.length_append, hlen, List.length_replicate]
      refine (if_pos (Or.inr hserialized)).trans ?_
      show some ((point ++ List.replicate 32 0).take 32) = some point
      rw [List.take_left' hlen]
    · have hserialized : (2 :: point).length = 33 := by rw [List.length_cons, hlen]
      refine (if_pos (Or.inl hserialized)).trans ?_
      show some (point.take 32) = some point
      rw [List.take_of_length_le (le_of_eq hlen)]
  · intro a b ha hb
    exact ⟨_, hmul (of_decide_eq_true ha) (of_decide_eq_true hb),
      decide_eq_true (hlength (of_decide_eq_true ha) (of_decide_eq_true hb))⟩
  · intro a b ha hb
    rw [hmul (of_decide_eq_true ha) (of_decide_eq_true hb),
      hmul (of_decide_eq_true hb) (of_decide_eq_true ha), xorBytes_comm]
  · intro a b c point ha hb hc hpoint'
    have ha := of_decide_eq_true ha
    have hb := of_decide_eq_true hb
    rw [hmul ha hb] at hc
    rw [hcreate ha] at hpoint'
    obtain rfl := Option.some.inj hc
    obtain rfl := Option.some.inj hpoint'
    rw [hcreate (hlength ha hb)]
    exact if_pos ⟨ha, hb⟩

theorem sampleBip38_laws : sampleBip38.Laws := by
  refine ⟨samplePoints_laws, ⟨?_, ?_⟩, ?_⟩
  · intro key block h
    exact (List.length_reverse).trans h
  · intro key block _
    exact List.reverse_reverse block
  · intro payload h
    have hle := length_base64Encode_le payload
    have hlen : (sampleBip38.base58EncodeCheck payload).length =
      (base64Encode payload).length + 1 := rfl
    have hlt : (sampleBip38.base58EncodeCheck payload).length < base58DecodeBuflen := by
      rw [hlen]
      unfold confirmationPayloadLen at h
      unfold base58DecodeBuflen
      omega
    have hpayload : base64Decode ((sampleBip38.base58EncodeCheck payload).drop 1) = payload :=
      base64Decode_encode payload
    show (if (sampleBip38.base58EncodeCheck payload).length < base58DecodeBuflen then
      some _ else none) = _
    rw [if_pos hlt, hpayload]
    rfl

/-- Random bytes for runs on fixed inputs. -/
def sampleBytes (n : ℕ) : Option (BytesOf n) := some ⟨List.replicate n 7, List.length_replicate⟩

/-- What is assumed of a key can be computed. -/
def ecCheck (bp : Bip38Platform) (passphrase : Bytes) (ownerentropy : BytesOf 8)
    (hasLotSequence : Bool) (seedb : BytesOf 24) (compressed : Bool) : Bool :=
  bp.curve.seckeyVerify (factorbFromSeedb bp seedb.1) &&
    (derivePassfactor bp passphrase ownerentropy.1 hasLotSequence).all fun passfactor =>
      bp.curve.seckeyVerify passfactor &&
        (bp.points.privkeyTweakMul passfactor (factorbFromSeedb bp seedb.1)).all fun privateKey =>
          decide (NetworksDiffer bp (bp.points.eccGetPubkey privateKey compressed))

theorem ecAssumptions_of_check {passphrase : Bytes} {ownerentropy : BytesOf 8}
    {hasLotSequence : Bool} {seedb : BytesOf 24} {compressed : Bool}
    (h : ecCheck bp passphrase ownerentropy hasLotSequence seedb compressed = true) :
    EcAssumptions bp passphrase ownerentropy hasLotSequence seedb compressed := by
  unfold ecCheck at h
  obtain ⟨hfactorb, hpassfactor⟩ := Bool.and_eq_true_iff.mp h
  refine ⟨?_, hfactorb, ?_⟩
  · intro passfactor hderive
    rw [hderive] at hpassfactor
    exact (Bool.and_eq_true_iff.mp hpassfactor).1
  · intro passfactor privateKey hderive htweak
    rw [hderive] at hpassfactor
    have hprivate := (Bool.and_eq_true_iff.mp hpassfactor).2
    rw [htweak] at hprivate
    exact of_decide_eq_true hprivate

/-- An entropy that is given, for runs on fixed inputs. -/
def sampleEntropy : BytesOf 8 := ⟨List.replicate 8 0, rfl⟩

/-- The entropy that is made for a lot and a sequence, for runs on fixed inputs. -/
def sampleLotEntropy (lot sequence : UInt32) :
    BytesOf 8 := ⟨List.replicate 4 7 ++ lotSequenceBytes lot sequence, rfl⟩

/-- A seed for runs on fixed inputs. -/
def sampleSeed : BytesOf 24 := ⟨List.replicate 24 7, rfl⟩

theorem bip38_roundtrip_sample :
    (∃ e, encrypt sampleBip38 (List.replicate 32 5) [112, 119] (sampleBip38.pubkeyGetaddrP2pkh
        (sampleBip38.points.eccGetPubkey (List.replicate 32 5) true) keyParamsMain) true 59 =
          some e ∧
      decrypt sampleBip38 e [112, 119] = some (List.replicate 32 5, true)) ∧
    (∃ out, encryptEcMultiplied sampleBip38 sampleBytes [112, 119] false true 3 4
      (some [68]) 59 (some 76) =
        some out ∧
      Opens sampleBip38 [112, 119] false (3, 4) (some [68]) (some 76) out) ∧
    ∃ code out, generateIntermediateCode sampleBip38 sampleBytes [112, 119] true 3 4 none 73 =
      some code ∧
      encryptFromIntermediate sampleBip38 sampleBytes code true none none 59 (some 76) = some out ∧
      Opens sampleBip38 [112, 119] true (3, 4) none (some 76) out := by
  obtain ⟨hkey, hmultiplied, hintermediate⟩ := bip38_roundtrip sampleBip38 sampleBip38_laws
  refine ⟨?_, ?_, ?_⟩
  · obtain ⟨e, hencrypt⟩ := Option.isSome_iff_exists.mp
      (show (encrypt sampleBip38 (List.replicate 32 5) [112, 119]
      (sampleBip38.pubkeyGetaddrP2pkh (sampleBip38.points.eccGetPubkey (List.replicate 32 5) true)
        keyParamsMain)
      true 59).isSome = true by decide +kernel)
    exact ⟨e, hencrypt, (hkey ⟨List.replicate 32 5, rfl⟩ [112, 119] true 59 e hencrypt).1⟩
  · obtain ⟨out, hout⟩ := Option.isSome_iff_exists.mp
      (show (encryptEcMultiplied sampleBip38 sampleBytes [112, 119]
      false true 3 4 (some [68]) 59 (some 76)).isSome = true by decide +kernel)
    refine ⟨out, hout, hmultiplied sampleBytes [112, 119] false true 3 4 (some [68]) 59
      (some 76) out ?_ hout⟩
    intro ownerentropy seedb hentropy hseedb
    obtain rfl : sampleLotEntropy 3 4 = ownerentropy := Option.some.inj hentropy
    obtain rfl : sampleSeed = seedb := Option.some.inj hseedb
    exact ecAssumptions_of_check (by decide +kernel)
  · obtain ⟨code, hcode, hsome⟩ :=
      (Option.any_eq_true (fun code => (encryptFromIntermediate sampleBip38 sampleBytes
      code true none none 59 (some 76)).isSome)
        (generateIntermediateCode sampleBip38 sampleBytes [112, 119] true 3 4
        none 73)).mp (by decide +kernel)
    obtain ⟨out, hout⟩ := Option.isSome_iff_exists.mp hsome
    refine ⟨code, out, hcode, hout,
      hintermediate sampleBytes sampleBytes [112, 119] code true 3 4 none 73 true none none
      59 (some 76) out ?_ hcode hout⟩
    intro ownerentropy seedb hentropy hseedb
    obtain rfl : sampleLotEntropy 3 4 = ownerentropy := Option.some.inj hentropy
    obtain rfl : sampleSeed = seedb := Option.some.inj hseedb
    exact ecAssumptions_of_check (by decide +kernel)

/-- An entropy that is given with a lot and a sequence holds others: lot 1 and sequence 1 are asked
for, and 0 and 0 are opened. -/
theorem not_lot_of_override :
    sampleBip38.Laws ∧ EcAssumptions sampleBip38 [112, 119] sampleEntropy true sampleSeed true ∧
      ∃ code out privateKey,
        generateIntermediateCode sampleBip38 sampleBytes [112,
          119] true 1 1 (some sampleEntropy) 73 = some code ∧
        encryptFromIntermediate sampleBip38 sampleBytes code true (some sampleSeed) none 59 none =
          some out ∧
        decryptWithLotSequenceEx sampleBip38 out.encryptedKey [112, 119] .interop =
          some ⟨privateKey, true, 0, 0⟩ := by
  have hassume : EcAssumptions sampleBip38 [112, 119] sampleEntropy true sampleSeed true :=
    ecAssumptions_of_check (by decide +kernel)
  refine ⟨sampleBip38_laws, hassume, ?_⟩
  obtain ⟨code, hcode, hsome⟩ :=
    (Option.any_eq_true (fun code => (encryptFromIntermediate sampleBip38 sampleBytes
    code true (some sampleSeed) none 59 none).isSome)
      (generateIntermediateCode sampleBip38 sampleBytes [112, 119] true
      1 1 (some sampleEntropy) 73)).mp (by decide +kernel)
  obtain ⟨out, hout⟩ := Option.isSome_iff_exists.mp hsome
  have hgiven : ∀ ownerentropy seedb,
      (some sampleEntropy <|> ownerentropyGenerate sampleBytes true 1 1) = some ownerentropy →
      (some sampleSeed <|> sampleBytes 24) = some seedb →
        EcAssumptions sampleBip38 [112, 119] ownerentropy true seedb true := by
    intro ownerentropy seedb hentropy hseedb
    obtain rfl : sampleEntropy = ownerentropy := Option.some.inj hentropy
    obtain rfl : sampleSeed = seedb := Option.some.inj hseedb
    exact hassume
  obtain ⟨-, privateKey, -, -, -, -, -, hopen, -⟩ :=
    encryptFromIntermediate_opens sampleBip38_laws hgiven hcode hout
  exact ⟨code, out, privateKey, hcode, hout, hopen⟩

end Bip38

end Libdogecoin
