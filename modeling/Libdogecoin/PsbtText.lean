/-
# Partially signed transactions as text

What the rules of the format allow is written and read back as it was, in bytes, in hex digits and
in base64. Lengths are kept in 32 bits, and so are the sizes of the buffers for base64.

* `psbt_roundtrip` : round trips within these sizes;
* `not_psbt_roundtrip` : and none for scripts beyond them.
-/
import Libdogecoin.PsbtReread

namespace Libdogecoin

/-! ## The rules of the format -/

/-- Different keys of 33 bytes. -/
def KeypathsAllowed (keypaths : List PsbtKeypath) : Prop :=
  (∀ kp ∈ keypaths, kp.pubkey.1.length = 33) ∧ (keypaths.map PsbtKeypath.pubkey).Nodup

/-- Different keys of types that are not understood. -/
def UnknownsAllowed (types : List UInt8) (unknowns : List PsbtUnknown) : Prop :=
  (∀ u ∈ unknowns, UnknownKey types u.key) ∧ (unknowns.map PsbtUnknown.key).Nodup

/-- A map of an input by the rules of the format. -/
structure PsbtInput.WellFormed (input : PsbtInput) : Prop where
  nonWitnessUtxo : ∀ tx ∈ input.nonWitnessUtxo, tx.vin ≠ []
  partialSigs : TidySigs input.partialSigs
  redeemScript : ∀ script ∈ input.redeemScript, script ≠ []
  finalScriptSig : ∀ script ∈ input.finalScriptSig, script ≠ []
  keypaths : KeypathsAllowed input.keypaths
  unknowns : UnknownsAllowed psbtInTypes input.unknowns

/-- A map of an output by the rules of the format. -/
structure PsbtOutput.WellFormed (output : PsbtOutput) : Prop where
  redeemScript : ∀ script ∈ output.redeemScript, script ≠ []
  keypaths : KeypathsAllowed output.keypaths
  unknowns : UnknownsAllowed psbtOutTypes output.unknowns

/-- A partially signed transaction by the rules of the format. -/
structure Psbt.WellFormed (psbt : Psbt) : Prop where
  unsigned : ∀ txIn ∈ psbt.tx.vin, txIn.scriptSig = []
  xpubs : (psbt.xpubs.map PsbtXpub.xpub).Nodup
  unknowns : UnknownsAllowed psbtGlobalTypes psbt.unknowns
  numInputs : psbt.inputs.length = psbt.tx.vin.length
  numOutputs : psbt.outputs.length = psbt.tx.vout.length
  inputs : ∀ input ∈ psbt.inputs, input.WellFormed
  outputs : ∀ output ∈ psbt.outputs, output.WellFormed

/-! ## Sizes -/

/-- The lengths in a transaction, and its own, fit into 32 bits. -/
def Tx.Fits (tx : Tx) : Prop := tx.Sized ∧ (txSerialize tx).length < 2 ^ 32

/-- The value of every derivation path fits its count. -/
def KeypathsFit (keypaths : List PsbtKeypath) : Prop :=
  ∀ kp ∈ keypaths, (serPsbtPath kp.fingerprint kp.path).length < 2 ^ 32

/-- Keys and values fit their counts. -/
def UnknownsFit (unknowns : List PsbtUnknown) : Prop := ∀ u ∈ unknowns, FitsCounts (u.key, u.value)

/-- Everything in the map of an input fits its count. -/
structure PsbtInput.Fits (input : PsbtInput) : Prop where
  nonWitnessUtxo : ∀ tx ∈ input.nonWitnessUtxo, tx.Fits
  redeemScript : ∀ script ∈ input.redeemScript, script.length < 2 ^ 32
  finalScriptSig : ∀ script ∈ input.finalScriptSig, script.length < 2 ^ 32
  keypaths : KeypathsFit input.keypaths
  unknowns : UnknownsFit input.unknowns

/-- Everything in the map of an output fits its count. -/
structure PsbtOutput.Fits (output : PsbtOutput) : Prop where
  redeemScript : ∀ script ∈ output.redeemScript, script.length < 2 ^ 32
  keypaths : KeypathsFit output.keypaths
  unknowns : UnknownsFit output.unknowns

/-- Everything fits its count. -/
structure Psbt.Fits (psbt : Psbt) : Prop where
  tx : psbt.tx.Fits
  xpubs : ∀ x ∈ psbt.xpubs, (serPsbtPath x.fingerprint x.path).length < 2 ^ 32
  unknowns : UnknownsFit psbt.unknowns
  inputs : ∀ input ∈ psbt.inputs, input.Fits
  outputs : ∀ output ∈ psbt.outputs, output.Fits

/-! ## Round trip in bytes -/

theorem KeypathsAllowed.tidy {keypaths : List PsbtKeypath} (h : KeypathsAllowed keypaths)
    (hfit : KeypathsFit keypaths) : TidyKeypaths keypaths where
  pubkey := h.1
  path := hfit
  nodup := h.2

theorem UnknownsAllowed.tidy {types : List UInt8} {unknowns : List PsbtUnknown}
    (h : UnknownsAllowed types unknowns) (hfit : UnknownsFit unknowns) :
    TidyUnknowns types unknowns where
  key := h.1
  size := hfit
  nodup := h.2

variable {input : PsbtInput} {psbt : Psbt} {n : ℕ} {output : PsbtOutput}

theorem PsbtInput.WellFormed.tidy (h : input.WellFormed) (hfit : input.Fits) : input.Tidy where
  partialSigs := h.partialSigs
  redeemScript := hfit.redeemScript
  finalScriptSig := hfit.finalScriptSig
  keypaths := h.keypaths.tidy hfit.keypaths
  unknowns := h.unknowns.tidy hfit.unknowns

theorem PsbtOutput.WellFormed.tidy (h : output.WellFormed) (hfit : output.Fits) : output.Tidy where
  redeemScript := hfit.redeemScript
  keypaths := h.keypaths.tidy hfit.keypaths
  unknowns := h.unknowns.tidy hfit.unknowns

theorem Psbt.WellFormed.tidy (h : psbt.WellFormed) (hfit : psbt.Fits) : psbt.Tidy where
  unsigned := h.unsigned
  xpubs := { path := hfit.xpubs, nodup := h.xpubs }
  unknowns := h.unknowns.tidy hfit.unknowns
  numInputs := h.numInputs
  numOutputs := h.numOutputs
  inputs := fun input hinput => (h.inputs input hinput).tidy (hfit.inputs input hinput)
  outputs := fun output houtput => (h.outputs output houtput).tidy (hfit.outputs output houtput)

theorem rereadScript_of_ne_nil {script : Option Bytes} (h : ∀ s ∈ script, s ≠ []) :
    rereadScript script = script := by
  cases script with
  | none => rfl
  | some s =>
    have hpos : s.length > 0 := List.length_pos_iff.mpr (h s rfl)
    rw [rereadScript, Option.filter_some, if_pos (decide_eq_true hpos)]

theorem PsbtInput.WellFormed.utxoReads (h : input.WellFormed) (hfit : input.Fits) :
    input.UtxoReads := by
  intro tx htx
  obtain ⟨hsized, hsize⟩ := hfit.nonWitnessUtxo tx htx
  rw [Tx.reread_of_sized hsized (h.nonWitnessUtxo tx htx)]
  exact ⟨rfl, hsize⟩

theorem PsbtInput.WellFormed.reread_eq (h : input.WellFormed) (hfit : input.Fits) :
    input.reread = input := by
  have hutxo : input.nonWitnessUtxo.bind Tx.reread = input.nonWitnessUtxo := by
    cases hcase : input.nonWitnessUtxo with
    | none => rfl
    | some tx =>
      exact Tx.reread_of_sized (hfit.nonWitnessUtxo tx hcase).1 (h.nonWitnessUtxo tx hcase)
  unfold PsbtInput.reread
  rw [hutxo, rereadScript_of_ne_nil h.redeemScript, rereadScript_of_ne_nil h.finalScriptSig]

theorem PsbtOutput.WellFormed.reread_eq (h : output.WellFormed) : output.reread = output := by
  unfold PsbtOutput.reread
  rw [rereadScript_of_ne_nil h.redeemScript]

/-- **Round trip in bytes.** -/
theorem Psbt.WellFormed.deserialize_serialize (h : psbt.WellFormed) (hfit : psbt.Fits) :
    psbtDeserialize (psbtSerialize psbt) = some psbt := by
  have hreads : psbt.Reads := {
    sized := hfit.tx.1
    size := hfit.tx.2
    utxo := fun input hinput => (h.inputs input hinput).utxoReads (hfit.inputs input hinput) }
  have hinputs : psbt.inputs.map PsbtInput.reread = psbt.inputs :=
    (List.map_congr_left fun input hinput =>
      (h.inputs input hinput).reread_eq (hfit.inputs input hinput)).trans (List.map_id _)
  have houtputs : psbt.outputs.map PsbtOutput.reread = psbt.outputs :=
    (List.map_congr_left fun output houtput => (h.outputs output houtput).reread_eq).trans
      (List.map_id _)
  rw [psbtDeserialize_psbtSerialize (h.tidy hfit) hreads, Psbt.reread, hinputs, houtputs]

/-! ## Text -/

/-- `base64_encoded_size`, in 32 bits. -/
def base64EncodedSize (inSize : UInt32) : UInt32 := UInt32.ofNat (4 * ((inSize.toNat + 2) / 3))

/-- `dogecoin_psbt_to_base64` : nothing where it writes behind its buffer. -/
def psbtToBase64 (psbt : Psbt) : Option Bytes :=
  let raw := psbtSerialize psbt
  let rawLen := UInt32.ofNat raw.length
  let outLen := base64EncodedSize rawLen + 1
  let b64 := base64Encode (raw.take rawLen.toNat)
  -- the encoder ends its output with a NUL
  if b64.length + 1 > outLen.toNat then none else some (b64.takeWhile (· ≠ 0))

/-- `dogecoin_psbt_from_base64` on the characters of a string: nothing where it writes behind its
buffer. -/
def psbtFromBase64 (b64 : Bytes) : Option (Option Psbt) :=
  let b64len := UInt32.ofNat b64.length
  let binLen := base64DecodedSize b64len
  let bin := base64Decode (b64.take b64len.toNat)
  -- there is a place for the NUL of the decoder besides
  if bin.length > binLen.toNat then none
  else some (psbtDeserialize (bin.take (UInt32.ofNat bin.length).toNat))

/-- `dogecoin_psbt_to_hex`. -/
def psbtToHex (psbt : Psbt) : List Char := utilsUint8ToHex (psbtSerialize psbt)

/-- `dogecoin_psbt_from_hex` on the characters of a string. Every pair of them is counted:
`actual_len` is `bin_len`. -/
def psbtFromHex (hex : List Char) : Option Psbt :=
  if hex.length % 2 ≠ 0 then none else psbtDeserialize (utilsHexToBin hex)

/-- Hex digits give back the bytes. -/
theorem psbtFromHex_psbtToHex (psbt : Psbt) :
    psbtFromHex (psbtToHex psbt) = psbtDeserialize (psbtSerialize psbt) := by
  have heven : ¬ (utilsUint8ToHex (psbtSerialize psbt)).length % 2 ≠ 0 := by
    rw [length_utilsUint8ToHex]
    omega
  rw [psbtFromHex, psbtToHex, if_neg heven, utilsHexToBin_utilsUint8ToHex]

/-- The encoded string has no NUL inside. -/
theorem takeWhile_base64Encode (bs : Bytes) :
    (base64Encode bs).takeWhile (· ≠ 0) = base64Encode bs := by
  refine List.takeWhile_eq_self_iff.mpr fun c hc => decide_eq_true fun hzero => ?_
  rw [hzero] at hc
  exact zero_notMem_base64Encode _ hc

/-- Below `2 ^ 30` bytes the buffers for base64 are large enough. -/
theorem psbtFromBase64_psbtToBase64 (h : (psbtSerialize psbt).length < 2 ^ 30) :
    (psbtToBase64 psbt).bind psbtFromBase64 = some (psbtDeserialize (psbtSerialize psbt)) := by
  have hraw : (UInt32.ofNat (psbtSerialize psbt).length).toNat = (psbtSerialize psbt).length :=
    UInt32.toNat_ofNat_of_lt' (Nat.lt_trans h (by decide))
  have hlen := length_base64Encode (psbtSerialize psbt)
  have hsize : (base64EncodedSize (UInt32.ofNat (psbtSerialize psbt).length) + 1).toNat =
      (base64Encode (psbtSerialize psbt)).length + 1 := by
    rw [base64EncodedSize, hraw, ← hlen, UInt32.toNat_add, UInt32.toNat_ofNat]
    show (_ % 2 ^ 32 + 1) % 2 ^ 32 = _
    omega
  have hb64 : (UInt32.ofNat (base64Encode (psbtSerialize psbt)).length).toNat =
      (base64Encode (psbtSerialize psbt)).length :=
        UInt32.toNat_ofNat_of_lt' (show _ < 2 ^ 32 by omega)
  have hdecoded : (psbtSerialize psbt).length ≤
      (base64DecodedSize (UInt32.ofNat (base64Encode (psbtSerialize psbt)).length)).toNat := by
    rw [base64DecodedSize, UInt32.toNat_div, UInt32.toNat_mul, hb64]
    show _ ≤ 3 * _ % 2 ^ 32 / 4
    omega
  have hwrite : psbtToBase64 psbt = some (base64Encode (psbtSerialize psbt)) := by
    unfold psbtToBase64
    dsimp only
    rw [hraw, List.take_length, if_neg (by omega), takeWhile_base64Encode]
  rw [hwrite, Option.bind_some]
  unfold psbtFromBase64
  dsimp only
  rw [hb64, List.take_length, base64Decode_encode, if_neg (Nat.not_lt.mpr hdecoded), hraw,
    List.take_length]

/-- From `2 ^ 30` bytes on the size of the buffer for the decoded bytes wraps, and it is too
small. -/
theorem psbtFromBase64_of_wraps {psbt : Psbt} (h : 2 ^ 30 ≤ (psbtSerialize psbt).length)
    (hlong : (psbtSerialize psbt).length ≤ 3 * (2 ^ 30 - 1)) :
    (psbtToBase64 psbt).bind psbtFromBase64 = none := by
  cases hwrite : psbtToBase64 psbt with
  | none => rfl
  | some b64 =>
    have hraw : (UInt32.ofNat (psbtSerialize psbt).length).toNat = (psbtSerialize psbt).length :=
      UInt32.toNat_ofNat_of_lt' (Nat.lt_of_le_of_lt hlong (by decide))
    have hlen := length_base64Encode (psbtSerialize psbt)
    obtain rfl : base64Encode (psbtSerialize psbt) = b64 := by
      unfold psbtToBase64 at hwrite
      dsimp only at hwrite
      rw [hraw, List.take_length, Option.ite_none_left_eq_some, Option.some.injEq] at hwrite
      rw [← hwrite.2, takeWhile_base64Encode]
    have hb64 : (UInt32.ofNat (base64Encode (psbtSerialize psbt)).length).toNat =
        (base64Encode (psbtSerialize psbt)).length :=
          UInt32.toNat_ofNat_of_lt' (show _ < 2 ^ 32 by omega)
    have hsmall : (base64DecodedSize
      (UInt32.ofNat (base64Encode (psbtSerialize psbt)).length)).toNat <
        (psbtSerialize psbt).length := by
      rw [base64DecodedSize, UInt32.toNat_div, UInt32.toNat_mul, hb64]
      show 3 * _ % 2 ^ 32 / 4 < _
      omega
    rw [Option.bind_some]
    unfold psbtFromBase64
    dsimp only
    rw [hb64, List.take_length, base64Decode_encode, if_pos hsmall]

/-! ## Round trip -/

/-- **Round trip** in bytes, in hex digits and, below `2 ^ 30` bytes, in base64. -/
theorem psbt_roundtrip {psbt : Psbt} (h : psbt.WellFormed) (hfit : psbt.Fits) :
    psbtDeserialize (psbtSerialize psbt) = some psbt ∧ psbtFromHex (psbtToHex psbt) = some psbt ∧
      ((psbtSerialize psbt).length < 2 ^ 30 → (psbtToBase64 psbt).bind psbtFromBase64 =
        some (some psbt)) := by
  have hbytes := h.deserialize_serialize hfit
  refine ⟨hbytes, ?_, fun hshort => ?_⟩
  · rw [psbtFromHex_psbtToHex, hbytes]
  · rw [psbtFromBase64_psbtToBase64 hshort, hbytes]

/-- A transaction with a single input. -/
def oneInputTx : Tx where
  version := 1
  vin := [{ prevout := { hash := Uint256.zero, n := 0 }, scriptSig := [], sequence := 0xffffffff }]
  vout := []
  locktime := 0

/-- An input and an output with an entry of every kind. -/
def fullPsbt : Psbt where
  tx := { oneInputTx with vout := [{ value := 6, scriptPubkey := [0x51] }] }
  version := 2
  xpubs := [{ xpub := ⟨List.replicate 78 4, rfl⟩, fingerprint := 7, path := [0x8000002c, 3] }]
  inputs := [{
    nonWitnessUtxo := some oneInputTx
    redeemScript := some [0x51]
    finalScriptSig := some [0x00]
    sighashType := some 1
    partialSigs := [{ pubkey := ⟨List.replicate 33 2, by decide⟩, sig := ⟨[0x30, 1], by decide⟩ }]
    keypaths := [{ pubkey := ⟨List.replicate 33 3, by decide⟩, fingerprint := 9, path := [1] }]
    unknowns := [{ key := [0x20], value := [] }] }]
  outputs := [{
    redeemScript := some [0x52]
    keypaths := [{ pubkey := ⟨List.replicate 33 3, by decide⟩, fingerprint := 8, path := [2, 0] }]
    unknowns := [{ key := [0x21], value := [4] }] }]
  unknowns := [{ key := [0x0a, 1], value := [5] }]

theorem psbt_roundtrip_fullPsbt :
    psbtDeserialize (psbtSerialize fullPsbt) = some fullPsbt ∧
    psbtFromHex (psbtToHex fullPsbt) = some fullPsbt ∧
      ((psbtSerialize fullPsbt).length < 2 ^ 30 → (psbtToBase64 fullPsbt).bind psbtFromBase64 =
        some (some fullPsbt)) := by
  have htx : oneInputTx.Fits := ⟨by decide, by decide⟩
  have htx' : fullPsbt.tx.Fits := ⟨by decide, by decide⟩
  refine psbt_roundtrip ⟨by decide, by decide, ⟨by decide, by decide⟩, rfl, rfl, ?_, ?_⟩
    ⟨htx', by decide, ?_, ?_, ?_⟩
  · refine List.forall_mem_singleton.mpr ⟨?_, ⟨by decide, by decide, by decide⟩, ?_, ?_,
      ⟨by decide, by decide⟩, ⟨by decide, by decide⟩⟩
    · intro tx h
      cases h
      decide
    · intro script h
      cases h
      decide
    · intro script h
      cases h
      decide
  · refine List.forall_mem_singleton.mpr ⟨?_, ⟨by decide, by decide⟩, ⟨by decide, by decide⟩⟩
    intro script h
    cases h
    decide
  · exact List.forall_mem_singleton.mpr ⟨by decide, by decide⟩
  · refine List.forall_mem_singleton.mpr ⟨?_, ?_, ?_, ?_, ?_⟩
    · intro tx h
      cases h
      exact htx
    · intro script h
      cases h
      decide
    · intro script h
      cases h
      decide
    · exact List.forall_mem_singleton.mpr (by decide)
    · exact List.forall_mem_singleton.mpr ⟨by decide, by decide⟩
  · refine List.forall_mem_singleton.mpr ⟨?_, List.forall_mem_singleton.mpr (by decide),
      List.forall_mem_singleton.mpr ⟨by decide, by decide⟩⟩
    intro script h
    cases h
    decide

/-- An input that has a redeem script of so many bytes. -/
def scriptPsbt (n : ℕ) : Psbt where
  tx := oneInputTx
  version := 0
  xpubs := []
  inputs := [{ redeemScript := some (List.replicate n 0) }]
  outputs := []
  unknowns := []

theorem scriptPsbt_wellFormed (h : 0 < n) : (scriptPsbt n).WellFormed := by
  have hunsigned : ∀ txIn ∈ oneInputTx.vin, txIn.scriptSig = [] := by decide
  refine ⟨hunsigned, List.nodup_nil, ⟨List.forall_mem_nil _, List.nodup_nil⟩, rfl, rfl, ?_,
    List.forall_mem_nil _⟩
  refine List.forall_mem_singleton.mpr ⟨?_, tidySigs_nil, ?_, ?_,
    ⟨List.forall_mem_nil _, List.nodup_nil⟩, ⟨List.forall_mem_nil _, List.nodup_nil⟩⟩
  · intro tx htx
    cases htx
  · intro script hscript
    cases hscript
    rw [← List.length_pos_iff, List.length_replicate]
    exact h
  · intro script hscript
    cases hscript

theorem scriptPsbt_fits (h : n < 2 ^ 32) : (scriptPsbt n).Fits := by
  have htx : oneInputTx.Fits := ⟨by decide, by decide⟩
  refine ⟨htx, List.forall_mem_nil _, List.forall_mem_nil _, ?_, List.forall_mem_nil _⟩
  refine List.forall_mem_singleton.mpr ⟨?_, ?_, ?_, List.forall_mem_nil _, List.forall_mem_nil _⟩
  · intro tx htx
    cases htx
  · intro script hscript
    cases hscript
    rwa [List.length_replicate]
  · intro script hscript
    cases hscript

theorem length_psbtSerialize_scriptPsbt (h : 0 < n) :
    (psbtSerialize (scriptPsbt n)).length = 63 + (serVarlen (UInt32.ofNat n)).length + n := by
  have hlen : (List.replicate n (0 : UInt8)).length > 0 := by rwa [List.length_replicate]
  have hglobal : (psbtMagic ++ psbtGlobalSerialize (scriptPsbt n)).length = 60 := by
    show (psbtMagic ++ psbtGlobalSerialize (scriptPsbt 0)).length = 60
    decide
  have hinput : psbtInputSerialize { redeemScript := some (List.replicate n 0) } =
      serPsbtKv [psbtInRedeemScript] (List.replicate n 0) ++ serPsbtSep := by
    simp only [psbtInputSerialize, serPsbtScript, serPsbtKeypaths, serPsbtUnknowns, if_pos hlen,
      List.flatMap_nil, List.nil_append, List.append_nil]
  have hall : psbtSerialize (scriptPsbt n) = psbtMagic ++ psbtGlobalSerialize (scriptPsbt n) ++
      (serPsbtKv [psbtInRedeemScript] (List.replicate n 0) ++ serPsbtSep) := by
    rw [← hinput]
    simp [psbtSerialize, scriptPsbt]
  rw [hall, List.length_append, hglobal, serPsbtKv, List.length_replicate]
  simp only [List.length_append, List.length_replicate, serPsbtSep, List.length_singleton]
  show 60 + (1 + 1 + _ + n + 1) = _
  omega

/-- A script that does not fit its count is not read back, and one of `2 ^ 30` bytes not from
base64. -/
theorem not_psbt_roundtrip :
    ¬ (∀ psbt : Psbt, psbt.WellFormed → psbtDeserialize (psbtSerialize psbt) = some psbt) ∧
      ¬ ∀ psbt : Psbt, psbt.WellFormed → psbt.Fits → (psbtToBase64 psbt).bind psbtFromBase64 =
        some (some psbt) := by
  constructor
  · intro hall
    have htidy := psbtDeserialize_tidy (hall _ (scriptPsbt_wellFormed (Nat.two_pow_pos 32)))
    have hsize := (htidy.inputs _ (List.mem_singleton_self _)).redeemScript _ rfl
    rw [List.length_replicate] at hsize
    exact Nat.lt_irrefl _ hsize
  · intro hall
    have hcount : (serVarlen (UInt32.ofNat (2 ^ 30))).length = 5 := by decide
    have hlen := length_psbtSerialize_scriptPsbt (Nat.two_pow_pos 30)
    rw [hcount] at hlen
    have hnone := @psbtFromBase64_of_wraps (scriptPsbt (2 ^ 30)) (by omega) (by omega)
    have hsome := hall _ (scriptPsbt_wellFormed (Nat.two_pow_pos 30)) (scriptPsbt_fits (by decide))
    rw [hnone] at hsome
    cases hsome

end Libdogecoin
