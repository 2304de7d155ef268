/-
# Signing an input

`dogecoin_tx_sign_input`, with the curve as a parameter. The signature is written into the script of
the input: behind what is there for a payment to a key, in the middle of a script that is taken
apart and written again for a multisig payment.

* `txSignInput_cases` : what a call does to the transaction;
* `txSignInput_multisig` : what a call that signs for a multisig script does to it.
-/
import Libdogecoin.ScriptOps
import Libdogecoin.Sighash

namespace Libdogecoin

/-- What signing takes from outside. -/
structure SignPlatform extends KeyPlatform where
  /-- `secp256k1_ec_pubkey_parse` accepts the key. -/
  pubkeyParse : Bytes → Bool
  /-- `secp256k1_ecdsa_sign` in its compact form, for a key that was verified. -/
  ecdsaSign : Bytes → Uint256 → Bytes
  /-- `secp256k1_ecdsa_signature_parse_compact`, `secp256k1_ecdsa_signature_normalize` and
  `secp256k1_ecdsa_signature_serialize_der` into 74 bytes. -/
  compactToDerNormalized : Bytes → Option Bytes

/-- `dogecoin_tx_sign_result`. -/
inductive TxSignResult where
  | invalidKey
  | noKeyMatch
  | sighashFailed
  | unknownScriptType
  | inputindexOutOfRange
  | invalidDer
  | ok
  deriving DecidableEq

/-- What a call leaves behind: the result, the transaction, and what was written to `sigcompact_out`
and `sigder_out`. -/
structure SignedInput where
  result : TxSignResult
  tx : Tx
  sigcompact : Option Bytes
  sigder : Option Bytes

/-! ## The script of the input -/

/-- The script of a payment to the hash of a key, behind what the input carries. -/
def p2pkhScriptSig (scriptSig sigder pubkey : Bytes) : Bytes :=
  scriptSig ++ serVarlen (UInt32.ofNat sigder.length) ++ sigder ++
    serVarlen (UInt32.ofNat pubkey.length) ++ pubkey

/-- The signatures in the script of a multisig payment: its operations without the `OP_0` in front
and without the push of the script behind. -/
def existingSigs (scriptSig script : Bytes) : List ScriptOp :=
  -- the operations in front of a break count as well
  let existingOps := (scriptGetOps scriptSig).1
  let start := match existingOps.head? with
    | none => 0
    | some first => if first.op = op0 ∧ first.data.length = 0 then 1 else 0
  let stop := match existingOps.getLast? with
    | none => 0
    | some last =>
      if existingOps.length > start ∧ last.data = script then existingOps.length - 1
      else existingOps.length
  ((existingOps.take stop).drop start).filter fun op => op.data.length > 0

/-- A length and the data, as `ser_varlen` and `ser_bytes` write them. -/
def serData (data : Bytes) : Bytes := serVarlen (UInt32.ofNat data.length) ++ data

/-- The script of a multisig payment with one more signature. -/
def multisigScriptSig (scriptSig sigder script : Bytes) : Bytes :=
  [op0] ++ ((existingSigs scriptSig script).map ScriptOp.data).flatMap serData ++
    serData sigder ++ serData script

/-! ## The call -/

/-- `dogecoin_tx_sign_input`. -/
def txSignInput (sp : SignPlatform) (tx : Tx) (script privkey : Bytes) (inputindex : ℕ)
    (sighashtype : UInt32) : SignedInput :=
  match tx.vin[inputindex]? with
  | none => ⟨.inputindexOutOfRange, tx, none, none⟩
  | some txIn =>
    let pubkey := sp.curve.eccGetPubkey privkey
    if sp.curve.eccVerifyPrivatekey privkey = false then ⟨.invalidKey, tx, none, none⟩
    else if sp.pubkeyParse pubkey = false then ⟨.invalidKey, tx, none, none⟩
    else
      let (type, scriptPushes) := scriptClassify script
      let res : TxSignResult :=
        if type = .pubkeyhash ∧ scriptPushes.length = 1 then
          if scriptPushes.head? = some (sp.getHash160 pubkey).1 then .ok else .noKeyMatch
        else if type ≠ .multisig then .unknownScriptType
        else .ok
      match txSighash sp.toPlatform tx script inputindex sighashtype with
      | none => ⟨.sighashFailed, tx, none, none⟩
      | some sighash =>
        let sig := sp.ecdsaSign privkey sighash
        match sp.compactToDerNormalized sig with
        | none => ⟨.invalidDer, tx, some sig, none⟩
        | some sigder =>
          if sigder.length = 0 ∨ sigder.length > 72 then ⟨.invalidDer, tx, some sig, none⟩
          else
            let sigder := sigder ++ [sighashtype.toUInt8]
            if type = .pubkeyhash then
              ⟨res, tx.setScriptSig inputindex (p2pkhScriptSig txIn.scriptSig sigder pubkey),
                some sig, some sigder⟩
            else if type = .multisig then
              ⟨.ok, tx.setScriptSig inputindex (multisigScriptSig txIn.scriptSig sigder script),
                some sig, some sigder⟩
            else ⟨.unknownScriptType, tx, some sig, some sigder⟩

/-- **What a call does** : the transaction stays and the call does not return that all is well, or a
signature is put into the script of the input, as the type of the signed script says. -/
theorem txSignInput_cases (sp : SignPlatform) (tx : Tx) (script privkey : Bytes) (inputindex : ℕ)
    (sighashtype : UInt32) :
    (txSignInput sp tx script privkey inputindex sighashtype).result ≠ .ok ∧
        (txSignInput sp tx script privkey inputindex sighashtype).tx = tx ∨
      ∃ scriptSig sigder, tx.scriptSigAt inputindex = some scriptSig ∧
        sp.curve.eccVerifyPrivatekey privkey = true ∧
        (txSignInput sp tx script privkey inputindex sighashtype).sigder = some sigder ∧
        2 ≤ sigder.length ∧ sigder.length ≤ 73 ∧
        ((scriptClassify script).1 = .pubkeyhash ∧
            (txSignInput sp tx script privkey inputindex sighashtype).tx =
              tx.setScriptSig inputindex (p2pkhScriptSig scriptSig sigder
                (sp.curve.eccGetPubkey privkey)) ∨
          (scriptClassify script).1 = .multisig ∧
            (txSignInput sp tx script privkey inputindex sighashtype).tx =
              tx.setScriptSig inputindex (multisigScriptSig scriptSig sigder script)) := by
  unfold txSignInput Tx.scriptSigAt
  cases hvin : tx.vin[inputindex]? with
  | none => exact Or.inl ⟨TxSignResult.noConfusion, rfl⟩
  | some txIn =>
    dsimp only
    by_cases hkey : sp.curve.eccVerifyPrivatekey privkey = false
    · rw [if_pos hkey]
      exact Or.inl ⟨TxSignResult.noConfusion, rfl⟩
    rw [if_neg hkey]
    have hvalid := Bool.of_not_eq_false hkey
    by_cases hpubkey : sp.pubkeyParse (sp.curve.eccGetPubkey privkey) = false
    · rw [if_pos hpubkey]
      exact Or.inl ⟨TxSignResult.noConfusion, rfl⟩
    rw [if_neg hpubkey]
    cases hsighash : txSighash sp.toPlatform tx script inputindex sighashtype with
    | none => exact Or.inl ⟨TxSignResult.noConfusion, rfl⟩
    | some sighash =>
      dsimp only
      cases hder : sp.compactToDerNormalized (sp.ecdsaSign privkey sighash) with
      | none => exact Or.inl ⟨TxSignResult.noConfusion, rfl⟩
      | some der =>
        dsimp only
        by_cases hlen : der.length = 0 ∨ der.length > 72
        · rw [if_pos hlen]
          exact Or.inl ⟨TxSignResult.noConfusion, rfl⟩
        rw [if_neg hlen]
        have hsigder : (der ++ [sighashtype.toUInt8]).length = der.length + 1 := List.length_append
        by_cases hp2pkh : (scriptClassify script).1 = .pubkeyhash
        · rw [if_pos hp2pkh]
          exact Or.inr ⟨txIn.scriptSig, _, rfl, hvalid,
            rfl, by omega, by omega, Or.inl ⟨hp2pkh, rfl⟩⟩
        rw [if_neg hp2pkh]
        by_cases htype : (scriptClassify script).1 = .multisig
        · rw [if_pos htype]
          exact Or.inr ⟨txIn.scriptSig, _, rfl, hvalid,
            rfl, by omega, by omega, Or.inr ⟨htype, rfl⟩⟩
        · rw [if_neg htype]
          exact Or.inl ⟨TxSignResult.noConfusion, rfl⟩

/-- A call that signs, and not for a payment to the hash of a key, puts its signature into the
script of a multisig payment. -/
theorem txSignInput_multisig {sp : SignPlatform} {tx : Tx} {script privkey : Bytes} {inputindex : ℕ}
    {sighashtype : UInt32} (hclassify : (scriptClassify script).1 ≠ .pubkeyhash)
    (hok : (txSignInput sp tx script privkey inputindex sighashtype).result = .ok) :
    ∃ scriptSig sigder, tx.scriptSigAt inputindex = some scriptSig ∧
      (txSignInput sp tx script privkey inputindex sighashtype).sigder = some sigder ∧
      2 ≤ sigder.length ∧ sigder.length ≤ 73 ∧
      (txSignInput sp tx script privkey inputindex sighashtype).tx =
        tx.setScriptSig inputindex (multisigScriptSig scriptSig sigder script) := by
  rcases txSignInput_cases sp tx script privkey inputindex sighashtype with ⟨hnot, -⟩ | hsigns
  · exact absurd hok hnot
  · obtain ⟨scriptSig, sigder, hscriptSig, -, hsigder, hlow, hhigh, ⟨htype, -⟩ | ⟨-, htx⟩⟩ := hsigns
    · exact absurd htype hclassify
    · exact ⟨scriptSig, sigder, hscriptSig, hsigder, hlow, hhigh, htx⟩

/-- A call with a good key for a multisig script signs. -/
theorem txSignInput_eq_ok {sp : SignPlatform} {tx : Tx} {script privkey der : Bytes}
    {inputindex : ℕ} {sighashtype : UInt32} {sighash : Uint256} {scriptSig : Bytes}
    (hscriptSig : tx.scriptSigAt inputindex = some scriptSig)
    (hkey : sp.curve.eccVerifyPrivatekey privkey = true)
    (hpubkey : sp.pubkeyParse (sp.curve.eccGetPubkey privkey) = true)
    (hclassify : (scriptClassify script).1 = .multisig)
    (hsighash : txSighash sp.toPlatform tx script inputindex sighashtype = some sighash)
    (hder : sp.compactToDerNormalized (sp.ecdsaSign privkey sighash) = some der)
    (hlow : der.length ≠ 0) (hhigh : der.length ≤ 72) :
    txSignInput sp tx script privkey inputindex sighashtype =
      ⟨.ok, tx.setScriptSig inputindex
          (multisigScriptSig scriptSig (der ++ [sighashtype.toUInt8]) script),
        some (sp.ecdsaSign privkey sighash), some (der ++ [sighashtype.toUInt8])⟩ := by
  obtain ⟨txIn, hvin, rfl⟩ := Option.map_eq_some_iff.mp hscriptSig
  have hlen : ¬ (der.length = 0 ∨ der.length > 72) := by omega
  have hp2pkh : ¬ (scriptClassify script).1 = .pubkeyhash := by
    rw [hclassify]
    exact TxOutType.noConfusion
  unfold txSignInput
  rw [hvin]
  dsimp only
  rw [hkey, hpubkey, if_neg (by decide), if_neg (by decide), hsighash]
  dsimp only
  rw [hder]
  dsimp only
  rw [if_neg hlen, if_neg hp2pkh, if_pos hclassify]

end Libdogecoin
