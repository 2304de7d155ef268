/-
# Partially signed transactions

The records of `psbt.c`, and how they are written and read: a global map, one map for each input and
one for each output, every map a row of pairs of a key and a value that ends with an empty key.

* `deserMap_eq` : the loop over a map reads all its pairs and takes them up one after the other.
-/
import Libdogecoin.TransactionHex

namespace Libdogecoin

/-! ## Key types -/

/-- `PSBT_MAGIC_BYTES`. -/
def psbtMagic : Bytes := [0x70, 0x73, 0x62, 0x74, 0xff]

/-- `PSBT_GLOBAL_UNSIGNED_TX`. -/
def psbtGlobalUnsignedTx : UInt8 := 0x00
/-- `PSBT_GLOBAL_XPUB`. -/
def psbtGlobalXpub : UInt8 := 0x01
/-- `PSBT_GLOBAL_VERSION`. -/
def psbtGlobalVersion : UInt8 := 0xFB

/-- `PSBT_IN_NON_WITNESS_UTXO`. -/
def psbtInNonWitnessUtxo : UInt8 := 0x00
/-- `PSBT_IN_PARTIAL_SIG`. -/
def psbtInPartialSig : UInt8 := 0x02
/-- `PSBT_IN_SIGHASH_TYPE`. -/
def psbtInSighashType : UInt8 := 0x03
/-- `PSBT_IN_REDEEM_SCRIPT`. -/
def psbtInRedeemScript : UInt8 := 0x04
/-- `PSBT_IN_BIP32_DERIVATION`. -/
def psbtInBip32Derivation : UInt8 := 0x06
/-- `PSBT_IN_FINAL_SCRIPTSIG`. -/
def psbtInFinalScriptsig : UInt8 := 0x07

/-- `PSBT_OUT_REDEEM_SCRIPT`. -/
def psbtOutRedeemScript : UInt8 := 0x00
/-- `PSBT_OUT_BIP32_DERIVATION`. -/
def psbtOutBip32Derivation : UInt8 := 0x02

/-- `PSBT_VERSION_0`. -/
def psbtVersion0 : UInt32 := 0

/-- `PSBT_MAX_PUBKEY_LEN`. -/
def psbtMaxPubkeyLen : ℕ := 33
/-- `PSBT_MAX_SIG_LEN`. -/
def psbtMaxSigLen : ℕ := 74

/-! ## Records -/

/-- The part in use of a buffer for a public key. -/
abbrev PsbtPubkey := {l : Bytes // l.length ≤ psbtMaxPubkeyLen}

/-- The part in use of a buffer for a signature with its hash type. -/
abbrev PsbtSig := {l : Bytes // l.length ≤ psbtMaxSigLen}

/-- The bytes of an extended public key. -/
abbrev PsbtXpubKey := {l : Bytes // l.length = 78}

/-- `dogecoin_psbt_partialsig`. -/
structure PsbtPartialsig where
  pubkey : PsbtPubkey
  sig : PsbtSig
  deriving DecidableEq

/-- `dogecoin_psbt_keypath`. -/
structure PsbtKeypath where
  pubkey : PsbtPubkey
  fingerprint : UInt32
  path : List UInt32
  deriving DecidableEq

/-- `dogecoin_psbt_xpub`. -/
structure PsbtXpub where
  xpub : PsbtXpubKey
  fingerprint : UInt32
  path : List UInt32
  deriving DecidableEq

/-- `dogecoin_psbt_unknown`. -/
structure PsbtUnknown where
  key : Bytes
  value : Bytes
  deriving DecidableEq

/-- `dogecoin_psbt_input` : a null pointer is nothing, and so is a hash type that is not set. -/
structure PsbtInput where
  nonWitnessUtxo : Option Tx := none
  redeemScript : Option Bytes := none
  finalScriptSig : Option Bytes := none
  sighashType : Option UInt32 := none
  partialSigs : List PsbtPartialsig := []
  keypaths : List PsbtKeypath := []
  unknowns : List PsbtUnknown := []
  deriving DecidableEq

/-- `dogecoin_psbt_output`. -/
structure PsbtOutput where
  redeemScript : Option Bytes := none
  keypaths : List PsbtKeypath := []
  unknowns : List PsbtUnknown := []
  deriving DecidableEq

/-- `dogecoin_psbt`. -/
structure Psbt where
  tx : Tx
  version : UInt32
  xpubs : List PsbtXpub
  inputs : List PsbtInput
  outputs : List PsbtOutput
  unknowns : List PsbtUnknown
  deriving DecidableEq

/-! ## Writing -/

/-- `ser_psbt_kv` : both lengths are cut to 32 bits. -/
def serPsbtKv (key val : Bytes) : Bytes :=
  serVarlen (UInt32.ofNat key.length) ++ key ++ serVarlen (UInt32.ofNat val.length) ++ val

/-- `ser_psbt_sep`. -/
def serPsbtSep : Bytes := [0]

/-- The value of a derivation path: a fingerprint and the components. -/
def serPsbtPath (fingerprint : UInt32) (path : List UInt32) : Bytes :=
  serU32 fingerprint ++ path.flatMap serU32

/-- A script is written if it is there and not empty. -/
def serPsbtScript (type : UInt8) (script : Option Bytes) : Bytes :=
  match script with
  | some script => if script.length > 0 then serPsbtKv [type] script else []
  | none => []

/-- The derivation paths of an input or an output. -/
def serPsbtKeypaths (type : UInt8) (keypaths : List PsbtKeypath) : Bytes :=
  keypaths.flatMap fun kp => serPsbtKv (type :: kp.pubkey.1) (serPsbtPath kp.fingerprint kp.path)

/-- The pairs that were not understood. -/
def serPsbtUnknowns (unknowns : List PsbtUnknown) : Bytes :=
  unknowns.flatMap fun u => serPsbtKv u.key u.value

/-- The global map in `dogecoin_psbt_serialize`. -/
def psbtGlobalSerialize (psbt : Psbt) : Bytes :=
  serPsbtKv [psbtGlobalUnsignedTx] (txSerialize psbt.tx) ++
    psbt.xpubs.flatMap (fun x => serPsbtKv (psbtGlobalXpub :: x.xpub.1)
      (serPsbtPath x.fingerprint x.path)) ++
    (if psbt.version ≠ psbtVersion0 then
      serPsbtKv [psbtGlobalVersion] (serU32 psbt.version) else []) ++
    serPsbtUnknowns psbt.unknowns ++ serPsbtSep

/-- The map of an input in `dogecoin_psbt_serialize`. -/
def psbtInputSerialize (input : PsbtInput) : Bytes :=
  (match input.nonWitnessUtxo with
    | some tx => serPsbtKv [psbtInNonWitnessUtxo] (txSerialize tx)
    | none => []) ++
    input.partialSigs.flatMap (fun ps => serPsbtKv (psbtInPartialSig :: ps.pubkey.1) ps.sig.1) ++
    (match input.sighashType with
    | some sh => serPsbtKv [psbtInSighashType] (serU32 sh)
    | none => []) ++
    serPsbtScript psbtInRedeemScript input.redeemScript ++
    serPsbtKeypaths psbtInBip32Derivation input.keypaths ++
    serPsbtScript psbtInFinalScriptsig input.finalScriptSig ++
    serPsbtUnknowns input.unknowns ++ serPsbtSep

/-- The map of an output in `dogecoin_psbt_serialize`. -/
def psbtOutputSerialize (output : PsbtOutput) : Bytes :=
  serPsbtScript psbtOutRedeemScript output.redeemScript ++
    serPsbtKeypaths psbtOutBip32Derivation output.keypaths ++
    serPsbtUnknowns output.unknowns ++ serPsbtSep

/-- `dogecoin_psbt_serialize`. -/
def psbtSerialize (psbt : Psbt) : Bytes :=
  psbtMagic ++ psbtGlobalSerialize psbt ++ psbt.inputs.flatMap psbtInputSerialize ++
    psbt.outputs.flatMap psbtOutputSerialize

/-! ## Reading -/

/-- `deser_psbt_kv` : an empty key is the end of a map and has no value. -/
def deserPsbtKv (buf : Bytes) : Option ((Bytes × Bytes) × Bytes) := do
  let (klen, buf) ← deserVarlen buf
  if klen = 0 then some (([], []), buf)
  else
    let (key, buf) ← deserBytes klen.toNat buf
    let (vlen, buf) ← deserVarlen buf
    let (val, buf) ← deserBytes vlen.toNat buf
    some ((key, val), buf)

/-- The loop over the pairs of one map, on a buffer that is not longer than the fuel. -/
def deserMap {σ : Type} (entry : σ → Bytes → Bytes → Option σ) : ℕ → σ → Bytes → Option (σ × Bytes)
  | 0, _, _ => none
  | fuel + 1, s, buf => do
      let ((key, val), buf) ← deserPsbtKv buf
      if key = [] then some (s, buf)
      else
        let s ← entry s key val
        deserMap entry fuel s buf

/-- The value of a derivation path: bytes behind the last full component are not looked at. -/
def deserPsbtPath (val : Bytes) : Option (UInt32 × List UInt32) := do
  let (fingerprint, components) ← deserU32 val
  let (path, _) ← deserMany deserU32 (components.length / 4) components
  some (fingerprint, path)

/-- A pair that is not understood is kept, unless its key is there. -/
def addPsbtUnknown (unknowns : List PsbtUnknown) (key val : Bytes) : Option (List PsbtUnknown) :=
  if unknowns.any fun u => u.key = key then none
  else some (unknowns ++ [{ key := key, value := val }])

/-- A derivation path is added, unless there is one of its key. -/
def addPsbtKeypath (keypaths : List PsbtKeypath) (pubkey : PsbtPubkey) (val : Bytes) :
    Option (List PsbtKeypath) := do
  let (fingerprint, path) ← deserPsbtPath val
  if keypaths.any fun kp => kp.pubkey = pubkey then none
  else some (keypaths ++ [{ pubkey := pubkey, fingerprint := fingerprint, path := path }])

/-- The hash type or the version: four bytes. -/
def deserPsbtU32 (val : Bytes) : Option UInt32 :=
  if val.length ≠ 4 then none else some (UInt32.ofNat (LittleEndian.ofBytes val))

/-- What the global map has given so far: the transaction and the version once they were read. -/
structure PsbtGlobal where
  tx : Option Tx := none
  version : Option UInt32 := none
  xpubs : List PsbtXpub := []
  unknowns : List PsbtUnknown := []
  deriving DecidableEq

/-- The value of the unsigned transaction: nothing behind it, and no script in an input. -/
def deserPsbtUnsignedTx (val : Bytes) : Option Tx := do
  let (tx, rest) ← txDeserializeEx val false
  -- the length of the value is compared with what was consumed
  if rest.length ≠ 0 then none
  if tx.vin.any fun txIn => txIn.scriptSig.length > 0 then none
  some tx

/-- One pair of the global map. -/
def psbtGlobalEntry (s : PsbtGlobal) (key val : Bytes) : Option PsbtGlobal :=
  match key with
  | [] => none
  | type :: data =>
    if type = psbtGlobalUnsignedTx ∧ data.length = 0 then
      if s.tx.isSome ∨ val.length = 0 then none
      else (deserPsbtUnsignedTx val).map fun tx => { s with tx := some tx }
    else if type = psbtGlobalVersion ∧ data.length = 0 then
      if s.version.isSome then none
      else (deserPsbtU32 val).map fun version => { s with version := some version }
    else if h : type = psbtGlobalXpub ∧ data.length = 78 then do
      let (fingerprint, path) ← deserPsbtPath val
      if s.xpubs.any fun x => x.xpub.1 = data then none
      else
        some { s with xpubs := s.xpubs ++
          [{ xpub := ⟨data, h.2⟩, fingerprint := fingerprint, path := path }] }
    else if type = psbtGlobalUnsignedTx ∨ type = psbtGlobalXpub ∨ type = psbtGlobalVersion then none
    else (addPsbtUnknown s.unknowns (type :: data) val).map fun unknowns =>
      { s with unknowns := unknowns }

/-- One pair of the map of an input. -/
def psbtInputEntry (s : PsbtInput) (key val : Bytes) : Option PsbtInput :=
  match key with
  | [] => none
  | type :: data =>
    if type = psbtInNonWitnessUtxo ∧ data.length = 0 then
      if s.nonWitnessUtxo.isSome ∨ val.length = 0 then none
      -- bytes behind the transaction are not looked at
      else (txDeserialize val).map fun (tx, _) => { s with nonWitnessUtxo := some tx }
    else if h : type = psbtInPartialSig ∧ data.length = 33 then
      if hval : val.length = 0 ∨ val.length > psbtMaxSigLen then none
      else if s.partialSigs.any fun ps => ps.pubkey.1 = data then none
      else
        some { s with partialSigs := s.partialSigs ++
          [{ pubkey := ⟨data, h.2.le⟩
             sig := ⟨val, Nat.not_lt.mp fun hlong => hval (Or.inr hlong)⟩ }] }
    else if type = psbtInSighashType ∧ data.length = 0 then
      if s.sighashType.isSome then none
      else (deserPsbtU32 val).map fun sh => { s with sighashType := some sh }
    else if type = psbtInRedeemScript ∧ data.length = 0 then
      if s.redeemScript.isSome then none else some { s with redeemScript := some val }
    else if h : type = psbtInBip32Derivation ∧ data.length = 33 then
      (addPsbtKeypath s.keypaths ⟨data, h.2.le⟩ val).map fun keypaths =>
        { s with keypaths := keypaths }
    else if type = psbtInFinalScriptsig ∧ data.length = 0 then
      if s.finalScriptSig.isSome then none else some { s with finalScriptSig := some val }
    else if type = psbtInNonWitnessUtxo ∨ type = psbtInPartialSig ∨ type = psbtInSighashType ∨
        type = psbtInRedeemScript ∨ type = psbtInBip32Derivation ∨
          type = psbtInFinalScriptsig then none
    else (addPsbtUnknown s.unknowns (type :: data) val).map fun unknowns =>
      { s with unknowns := unknowns }

/-- One pair of the map of an output. -/
def psbtOutputEntry (s : PsbtOutput) (key val : Bytes) : Option PsbtOutput :=
  match key with
  | [] => none
  | type :: data =>
    if type = psbtOutRedeemScript ∧ data.length = 0 then
      if s.redeemScript.isSome then none else some { s with redeemScript := some val }
    else if h : type = psbtOutBip32Derivation ∧ data.length = 33 then
      (addPsbtKeypath s.keypaths ⟨data, h.2.le⟩ val).map fun keypaths =>
        { s with keypaths := keypaths }
    else if type = psbtOutRedeemScript ∨ type = psbtOutBip32Derivation then none
    else (addPsbtUnknown s.unknowns (type :: data) val).map fun unknowns =>
      { s with unknowns := unknowns }

/-- The map of an input in `dogecoin_psbt_deserialize`. -/
def psbtInputDeserialize (buf : Bytes) : Option (PsbtInput × Bytes) :=
  deserMap psbtInputEntry buf.length {} buf

/-- The map of an output in `dogecoin_psbt_deserialize`. -/
def psbtOutputDeserialize (buf : Bytes) : Option (PsbtOutput × Bytes) :=
  deserMap psbtOutputEntry buf.length {} buf

/-- `dogecoin_psbt_deserialize` : what stands behind the last map is not looked at. -/
def psbtDeserialize (data : Bytes) : Option Psbt := do
  if data.length < psbtMagic.length + 1 then none
  if data.take psbtMagic.length ≠ psbtMagic then none
  let buf := data.drop psbtMagic.length
  let (global, buf) ← deserMap psbtGlobalEntry buf.length {} buf
  let tx ← global.tx
  let (inputs, buf) ← deserMany psbtInputDeserialize tx.vin.length buf
  let (outputs, _) ← deserMany psbtOutputDeserialize tx.vout.length buf
  some { tx := tx, version := global.version.getD psbtVersion0, xpubs := global.xpubs
         inputs := inputs, outputs := outputs, unknowns := global.unknowns }

/-! ## The loop over a map -/

/-- The pairs of a map up to its end, as they stand in the buffer. -/
def deserPairs : ℕ → Bytes → Option (List (Bytes × Bytes) × Bytes)
  | 0, _ => none
  | fuel + 1, buf => do
      let ((key, val), buf) ← deserPsbtKv buf
      if key = [] then some ([], buf)
      else
        let (kvs, buf) ← deserPairs fuel buf
        some ((key, val) :: kvs, buf)

variable {buf rest : Bytes}

theorem deserBytes_length {len : ℕ} {v : Bytes} (h : deserBytes len buf = some (v, rest)) :
    v.length = len ∧ rest.length + len = buf.length := by
  unfold deserBytes at h
  split_ifs at h with hlen
  obtain ⟨rfl, rfl⟩ := Prod.mk.inj (Option.some.inj h)
  rw [List.length_take, List.length_drop]
  omega

theorem deserVarlen_length {v : UInt32} (h : deserVarlen buf = some (v, rest)) :
    rest.length < buf.length := by
  cases buf with
  | nil => cases h
  | cons c buf =>
    rw [List.length_cons]
    dsimp only [deserVarlen] at h
    split_ifs at h
    · obtain ⟨⟨w, rest'⟩, hread, heq⟩ := Option.map_eq_some_iff.mp h
      cases heq
      rw [deserU16_eq_append hread, List.length_append]
      exact Nat.lt_succ_of_le (Nat.le_add_left _ _)
    · rw [deserU32_eq_append h, List.length_append]
      omega
    · obtain ⟨⟨w, rest'⟩, hread, heq⟩ := Option.map_eq_some_iff.mp h
      cases heq
      rw [deserU64_eq_append hread, List.length_append]
      exact Nat.lt_succ_of_le (Nat.le_add_left _ _)
    · cases h
      omega

/-- A pair that was read is shorter than the buffer, and so are its lengths than the counts. -/
theorem deserPsbtKv_length {key val : Bytes} (h : deserPsbtKv buf = some ((key, val), rest)) :
    rest.length < buf.length ∧ key.length < 2 ^ 32 ∧ val.length < 2 ^ 32 := by
  unfold deserPsbtKv at h
  simp only [Option.bind_eq_bind, Option.bind_eq_some_iff] at h
  obtain ⟨⟨klen, buf₁⟩, hklen, h⟩ := h
  have hbuf₁ := deserVarlen_length hklen
  split_ifs at h with hzero
  · cases h
    exact ⟨hbuf₁, Nat.two_pow_pos 32, Nat.two_pow_pos 32⟩
  · simp only [Option.bind_eq_some_iff] at h
    obtain ⟨⟨key', buf₂⟩, hkey, ⟨vlen, buf₃⟩, hvlen, ⟨val', buf₄⟩, hval, heq⟩ := h
    cases heq
    obtain ⟨hkeyLen, hbuf₂⟩ := deserBytes_length hkey
    obtain ⟨hvalLen, hbuf₃⟩ := deserBytes_length hval
    have hbuf₄ := deserVarlen_length hvlen
    have hk := klen.toNat_lt
    have hv := vlen.toNat_lt
    dsimp only at hkeyLen hbuf₂ hbuf₃ hvalLen hbuf₄ ⊢
    omega

/-- **The loop over a map** reads its pairs and takes them up one after the other. -/
theorem deserMap_eq {σ : Type} (entry : σ → Bytes → Bytes → Option σ) (fuel : ℕ)
    (s : σ) (buf : Bytes) :
    deserMap entry fuel s buf =
      (deserPairs fuel buf).bind fun (kvs, rest) =>
        (kvs.foldlM (fun s kv => entry s kv.1 kv.2) s).map fun s => (s, rest) := by
  induction fuel generalizing s buf with
  | zero => rfl
  | succ fuel ih =>
    rw [deserMap, deserPairs]
    cases hkv : deserPsbtKv buf with
    | none => rfl
    | some out =>
      obtain ⟨⟨key, val⟩, rest⟩ := out
      simp only [Option.bind_eq_bind, Option.bind_some]
      by_cases hkey : key = []
      · rw [if_pos hkey, if_pos hkey]
        rfl
      · rw [if_neg hkey, if_neg hkey]
        cases hpairs : deserPairs fuel rest with
        | none =>
          rw [Option.bind_none, Option.bind_none]
          cases entry s key val with
          | none => rfl
          | some s' => rw [Option.bind_some, ih, hpairs]; rfl
        | some read =>
          obtain ⟨kvs, rest'⟩ := read
          simp only [Option.bind_some, List.foldlM_cons, Option.bind_eq_bind]
          cases entry s key val with
          | none => rfl
          | some s' => rw [Option.bind_some, ih, hpairs, Option.bind_some]; rfl

end Libdogecoin
