/-
# The roles of a partially signed transaction

The calls of `psbt.c` that make one and change one: the creator, the updaters, the signer and the
finalizer. A call gives what it leaves behind and what it returns, and nothing where the behaviour
is not defined.

* `psbtSignInput_eq_some` : a signer puts one signature under its key, or changes nothing;
* `psbtFinalizeInput_eq_some` : a finalizer clears one input around its script, or changes nothing.
-/
import Libdogecoin.PsbtCombine

namespace Libdogecoin

/-! ## Creator -/

/-- `dogecoin_psbt_create` : no input may have a script. -/
def psbtCreate (tx : Tx) : Option Psbt :=
  if tx.vin.any fun txIn => txIn.scriptSig.length > 0 then none
  else some { tx := tx, version := psbtVersion0, xpubs := []
              inputs := List.replicate tx.vin.length {}
              outputs := List.replicate tx.vout.length {}, unknowns := [] }

/-! ## Updaters -/

/-- Another map for one input. -/
def Psbt.modifyInput (psbt : Psbt) (idx : ℕ) (f : PsbtInput → PsbtInput) : Psbt :=
  { psbt with inputs := psbt.inputs.modify idx f }

/-- Another map for one output. -/
def Psbt.modifyOutput (psbt : Psbt) (idx : ℕ) (f : PsbtOutput → PsbtOutput) : Psbt :=
  { psbt with outputs := psbt.outputs.modify idx f }

/-- An updater of an input fails if there is no such input. -/
def updateInput (psbt : Psbt) (idx : ℕ) (f : PsbtInput → PsbtInput) : Psbt × Bool :=
  if idx ≥ psbt.inputs.length then (psbt, false) else (psbt.modifyInput idx f, true)

/-- An updater of an output fails if there is no such output. -/
def updateOutput (psbt : Psbt) (idx : ℕ) (f : PsbtOutput → PsbtOutput) : Psbt × Bool :=
  if idx ≥ psbt.outputs.length then (psbt, false) else (psbt.modifyOutput idx f, true)

/-- `dogecoin_psbt_input_set_utxo`. -/
def psbtInputSetUtxo (psbt : Psbt) (idx : ℕ) (utxo : Tx) : Psbt × Bool :=
  updateInput psbt idx fun input => { input with nonWitnessUtxo := some utxo }

/-- `dogecoin_psbt_input_set_redeemscript`. -/
def psbtInputSetRedeemscript (psbt : Psbt) (idx : ℕ) (script : Bytes) : Psbt × Bool :=
  updateInput psbt idx fun input => { input with redeemScript := some script }

/-- `dogecoin_psbt_input_set_sighash`. -/
def psbtInputSetSighash (psbt : Psbt) (idx : ℕ) (sighashType : UInt32) : Psbt × Bool :=
  updateInput psbt idx fun input => { input with sighashType := some sighashType }

/-- `dogecoin_psbt_input_add_keypath` : the key has to fit its buffer. -/
def psbtInputAddKeypath (psbt : Psbt) (idx : ℕ) (pubkey : Bytes) (fingerprint : UInt32)
    (path : List UInt32) :
    Psbt × Bool :=
  if h : pubkey.length > psbtMaxPubkeyLen then (psbt, false)
  else
    updateInput psbt idx fun input =>
      { input with keypaths := input.keypaths ++ [⟨⟨pubkey, Nat.not_lt.mp h⟩, fingerprint, path⟩] }

/-- `dogecoin_psbt_output_set_redeemscript`. -/
def psbtOutputSetRedeemscript (psbt : Psbt) (idx : ℕ) (script : Bytes) : Psbt × Bool :=
  updateOutput psbt idx fun output => { output with redeemScript := some script }

/-- `dogecoin_psbt_output_add_keypath` : the key has to fit its buffer. -/
def psbtOutputAddKeypath (psbt : Psbt) (idx : ℕ) (pubkey : Bytes) (fingerprint : UInt32)
    (path : List UInt32) :
    Psbt × Bool :=
  if h : pubkey.length > psbtMaxPubkeyLen then (psbt, false)
  else
    updateOutput psbt idx fun output =>
      { output with
        keypaths := output.keypaths ++ [⟨⟨pubkey, Nat.not_lt.mp h⟩, fingerprint, path⟩] }

/-! ## Signer -/

/-- `SIGHASH_ALL`. -/
def sighashAll : UInt32 := 1

/-- The 33 bytes that `dogecoin_pubkey_from_key` leaves of a compressed key in its buffer. -/
def pubkeyFromKey (cv : Secp256k1) (privkey : Bytes) : {l : Bytes // l.length = 33} :=
  ⟨(cv.eccGetPubkey privkey ++ List.replicate 33 0).take 33, by
    rw [List.length_take, List.length_append, List.length_replicate]
    exact Nat.min_eq_left (Nat.le_add_left _ _)⟩

/-- A script of a payment to the hash of a script, with nothing in front or behind. -/
def isPlainScripthash (spk : Bytes) : Bool :=
  spk.length = 23 ∧ spk.getD 0 0 = opHash160 ∧ spk.getD 1 0 = 20 ∧ spk.getD 22 0 = opEqual

/-- `psbt_get_script_for_input` : nothing defined if there is no such input. -/
def psbtGetScriptForInput (kp : KeyPlatform) (psbt : Psbt) (i : ℕ) : Option (Option Bytes) :=
  match psbt.inputs[i]?, psbt.tx.vin[i]? with
  | some input, some txIn =>
    match input.nonWitnessUtxo with
    | none => some none
    | some utxo =>
      if txHash kp.toPlatform utxo ≠ txIn.prevout.hash then some none
      else
        match utxo.vout[txIn.prevout.n.toNat]?, input.redeemScript with
        | none, _ => some none
        | some txOut, none => some (some txOut.scriptPubkey)
        | some txOut, some redeemScript =>
          if isPlainScripthash txOut.scriptPubkey = false then some none
          else if (kp.getHash160 redeemScript).1 ≠ (txOut.scriptPubkey.drop 2).take 20 then
            some none
          else some (some redeemScript)
  | _, _ => none

/-- The first signature of the key is replaced, or there is one more. -/
def putPartialSig (ps : PsbtPartialsig) : List PsbtPartialsig → List PsbtPartialsig
  | [] => [ps]
  | d :: sigs => if d.pubkey = ps.pubkey then { d with sig := ps.sig } :: sigs else d ::
      putPartialSig ps sigs

/-- `dogecoin_psbt_sign_input` : nothing defined if there is no signature, or no room for it in its
buffer. -/
def psbtSignInput (sp : SignPlatform) (psbt : Psbt) (idx : ℕ) (privkey : Bytes) :
    Option (Psbt × Bool) :=
  match psbt.inputs[idx]? with
  | none => some (psbt, false)
  | some input =>
    if input.finalScriptSig.isSome then some (psbt, true)
    else
      match psbtGetScriptForInput sp.toKeyPlatform psbt idx with
      | none => none
      | some none => some (psbt, false)
      | some (some script) =>
        let pubkey := pubkeyFromKey sp.curve privkey
        let sighash := input.sighashType.getD sighashAll
        if sp.pubkeyParse pubkey.1 = false then some (psbt, false)
        else
          match txSighash sp.toPlatform psbt.tx script idx sighash with
          | none => some (psbt, false)
          | some sighashBytes =>
            -- what the conversion returns is not looked at
            match sp.compactToDerNormalized (sp.ecdsaSign privkey sighashBytes) with
            | none => none
            | some sigder =>
              if h : (sigder ++ [sighash.toUInt8]).length ≤ psbtMaxSigLen then
                let ps : PsbtPartialsig := ⟨⟨pubkey.1, pubkey.2.le⟩,
                  ⟨sigder ++ [sighash.toUInt8], h⟩⟩
                some (psbt.modifyInput idx fun input =>
                  { input with partialSigs := putPartialSig ps input.partialSigs }, true)
              else none

variable {psbt psbt' : Psbt} {idx : ℕ} {input : PsbtInput} {ss script : Bytes}
  {pubkeys : List Bytes}

/-- **A signer** that returns true has put one signature under its key, or changed nothing. -/
theorem psbtSignInput_eq_some {sp : SignPlatform} {privkey : Bytes}
    (h : psbtSignInput sp psbt idx privkey = some (psbt', true)) :
    psbt' = psbt ∨ ∃ ps : PsbtPartialsig, ps.pubkey.1.length = 33 ∧ ps.sig.1 ≠ [] ∧
      psbt' = psbt.modifyInput idx fun input =>
        { input with partialSigs := putPartialSig ps input.partialSigs } := by
  unfold psbtSignInput at h
  cases hinput : psbt.inputs[idx]? with
  | none =>
    rw [hinput] at h
    cases h
  | some input =>
    simp only [hinput] at h
    by_cases hfinal : input.finalScriptSig.isSome
    · rw [if_pos hfinal] at h
      cases h
      exact Or.inl rfl
    rw [if_neg hfinal] at h
    cases hscript : psbtGetScriptForInput sp.toKeyPlatform psbt idx with
    | none =>
      rw [hscript] at h
      cases h
    | some found =>
      cases found with
      | none =>
        rw [hscript] at h
        cases h
      | some script =>
        simp only [hscript] at h
        by_cases hparse : sp.pubkeyParse (pubkeyFromKey sp.curve privkey).1 = false
        · rw [if_pos hparse] at h
          cases h
        rw [if_neg hparse] at h
        cases hsighash : txSighash sp.toPlatform psbt.tx script idx
          (input.sighashType.getD sighashAll) with
        | none =>
          rw [hsighash] at h
          cases h
        | some sighashBytes =>
          simp only [hsighash] at h
          cases hder : sp.compactToDerNormalized (sp.ecdsaSign privkey sighashBytes) with
          | none =>
            rw [hder] at h
            cases h
          | some sigder =>
            simp only [hder] at h
            split_ifs at h with hlen
            cases h
            refine Or.inr ⟨_, (pubkeyFromKey sp.curve privkey).2, ?_, rfl⟩
            exact List.append_ne_nil_of_right_ne_nil _ (List.cons_ne_nil _ _)

/-! ## Finalizer -/

/-- `ser_script_push` : from 65536 bytes on the length is cut to 16 bits. -/
def serScriptPush (data : Bytes) : Bytes :=
  if data.length ≤ 75 then UInt8.ofNat data.length :: data
  else if data.length ≤ 255 then opPushdata1 :: UInt8.ofNat data.length :: data
  else opPushdata2 :: (serU16 (UInt16.ofNat data.length) ++ data)

/-- The loop over the keys in `psbt_parse_multisig`, with the keys that still have room. -/
def psbtMultisigKeys : ℕ → Bytes → Option (List Bytes × Bytes)
  | _, [] => some ([], [])
  | slots, pklen :: rest =>
    if pklen ≠ 0x21 then some ([], pklen :: rest)
    else
      match slots with
      | 0 => none
      | slots + 1 =>
        if rest.length < 33 then none
        else (psbtMultisigKeys slots (rest.drop 33)).map fun (pubkeys, last) =>
          (rest.take 33 :: pubkeys, last)

/-- An opcode for a number from 1 to 16. -/
def isOpN (op : UInt8) : Bool := 0x51 ≤ op ∧ op ≤ 0x60

/-- `psbt_parse_multisig` : the number of signatures and the keys. -/
def psbtParseMultisig (script : Bytes) : Option (ℕ × List Bytes) :=
  match script with
  | [] => none
  | opM :: rest =>
    if script.length < 3 ∨ isOpN opM = false then none
    else
      match psbtMultisigKeys 16 rest with
      | some (pubkeys, [opN, last]) =>
        if pubkeys = [] ∨ isOpN opN = false ∨ opN.toNat - 0x50 ≠ pubkeys.length ∨
          last ≠ opCheckmultisig ∨
            opM.toNat - 0x50 > pubkeys.length then none
        else some (opM.toNat - 0x50, pubkeys)
      | _ => none

/-- The script of a multisig payment in `dogecoin_psbt_finalize_input` : a signature for each key
that has one, up to the number that is needed. -/
def psbtMultisigScriptSig (partialSigs : List PsbtPartialsig) (redeemScript : Bytes) :
    Option Bytes :=
  match psbtParseMultisig redeemScript with
  | none => none
  | some (m, pubkeys) =>
    let found := pubkeys.filterMap fun pubkey => partialSigs.find? fun ps => ps.pubkey.1 = pubkey
    if partialSigs.length < m ∨ found.length < m then none
    else some (op0 :: (found.take m).flatMap (fun ps => serScriptPush ps.sig.1) ++
      serScriptPush redeemScript)

/-- The script that `dogecoin_psbt_finalize_input` gives an input whose previous output has a
script. -/
def psbtFinalScriptSig (input : PsbtInput) (scriptPubkey : Bytes) : Option Bytes :=
  match (scriptClassify scriptPubkey).1, input.redeemScript with
  | .pubkeyhash, _ =>
    match input.partialSigs with
    | [ps] => some (serScriptPush ps.sig.1 ++ serScriptPush ps.pubkey.1)
    | _ => none
  | .scripthash, some redeemScript =>
    match (scriptClassify redeemScript).1 with
    | .pubkeyhash =>
      match input.partialSigs with
      | [ps] => some (serScriptPush ps.sig.1 ++ serScriptPush ps.pubkey.1 ++
          serScriptPush redeemScript)
      | _ => none
    | .multisig => psbtMultisigScriptSig input.partialSigs redeemScript
    | _ => none
  | _, _ => none

/-- The script of a payment to the hash of a key, and the two of a payment to the hash of a
script. -/
theorem psbtFinalScriptSig_eq_some {spk : Bytes} (h : psbtFinalScriptSig input spk = some ss) :
    ((scriptClassify spk).1 = .pubkeyhash ∧ ∃ ps, input.partialSigs = [ps] ∧
        ss = serScriptPush ps.sig.1 ++ serScriptPush ps.pubkey.1) ∨
      (scriptClassify spk).1 = .scripthash ∧ ∃ redeemScript, input.redeemScript =
      some redeemScript ∧
        (((scriptClassify redeemScript).1 = .pubkeyhash ∧ ∃ ps, input.partialSigs = [ps] ∧
            ss = serScriptPush ps.sig.1 ++ serScriptPush ps.pubkey.1 ++
              serScriptPush redeemScript) ∨
          (scriptClassify redeemScript).1 = .multisig ∧
            psbtMultisigScriptSig input.partialSigs redeemScript = some ss) := by
  unfold psbtFinalScriptSig at h
  split at h
  · -- a payment to the hash of a key
    rename_i htype
    split at h
    · rename_i ps hsigs
      cases h
      exact Or.inl ⟨htype, ps, hsigs, rfl⟩
    · cases h
  · -- a payment to the hash of a script
    rename_i redeemScript htype hredeem
    refine Or.inr ⟨htype, redeemScript, hredeem, ?_⟩
    split at h
    · rename_i hinner
      split at h
      · rename_i ps hsigs
        cases h
        exact Or.inl ⟨hinner, ps, hsigs, rfl⟩
      · cases h
    · rename_i hinner
      exact Or.inr ⟨hinner, h⟩
    · cases h
  · cases h

/-- A dummy, as many signatures as are needed and the script. -/
theorem psbtMultisigScriptSig_eq_some {partialSigs : List PsbtPartialsig} {redeemScript : Bytes}
    (h : psbtMultisigScriptSig partialSigs redeemScript = some ss) :
    ∃ (m : ℕ) (pubkeys : List Bytes) (sigs : List PsbtPartialsig),
      psbtParseMultisig redeemScript = some (m, pubkeys) ∧ sigs.length = m ∧
      (∀ ps ∈ sigs, ps ∈ partialSigs) ∧
      ss = op0 :: sigs.flatMap (fun ps => serScriptPush ps.sig.1) ++
        serScriptPush redeemScript := by
  unfold psbtMultisigScriptSig at h
  cases hparse : psbtParseMultisig redeemScript with
  | none =>
    rw [hparse] at h
    cases h
  | some parsed =>
    obtain ⟨m, pubkeys⟩ := parsed
    simp only [hparse] at h
    split_ifs at h with hfew
    cases h
    obtain ⟨-, hfound⟩ := not_or.mp hfew
    refine ⟨m, pubkeys, _, rfl, List.length_take_of_le (Nat.not_lt.mp hfound),
      fun ps hps => ?_, rfl⟩
    obtain ⟨pubkey, -, hfind⟩ := List.mem_filterMap.mp (List.mem_of_mem_take hps)
    exact List.mem_of_find?_eq_some hfind

/-- `psbt_input_finalized_clear`. -/
def psbtInputFinalizedClear (input : PsbtInput) : PsbtInput :=
  { input with partialSigs := [], sighashType := none, redeemScript := none, keypaths := [] }

/-- `dogecoin_psbt_finalize_input` : nothing defined if the transaction has no such input. -/
def psbtFinalizeInput (psbt : Psbt) (idx : ℕ) : Option (Psbt × Bool) :=
  match psbt.inputs[idx]? with
  | none => some (psbt, false)
  | some input =>
    if input.finalScriptSig.isSome then some (psbt, true)
    else
      match input.nonWitnessUtxo, psbt.tx.vin[idx]? with
      | none, _ => some (psbt, false)
      | some _, none => none
      | some utxo, some txIn =>
        match utxo.vout[txIn.prevout.n.toNat]? with
        | none => some (psbt, false)
        | some txOut =>
          match psbtFinalScriptSig input txOut.scriptPubkey with
          | none => some (psbt, false)
          | some ss =>
            some (psbt.modifyInput idx fun input =>
              psbtInputFinalizedClear { input with finalScriptSig := some ss }, true)

/-- **A finalizer** of an input without a script gives it the one for its previous output, or
changes nothing and returns false. -/
theorem psbtFinalizeInput_eq_some {ok : Bool} (hinput : psbt.inputs[idx]? = some input)
    (hnew : input.finalScriptSig = none) (h : psbtFinalizeInput psbt idx = some (psbt', ok)) :
    (psbt' = psbt ∧ ok = false) ∨
      ∃ utxo txIn txOut ss, input.nonWitnessUtxo = some utxo ∧ psbt.tx.vin[idx]? = some txIn ∧
        utxo.vout[txIn.prevout.n.toNat]? = some txOut ∧
        psbtFinalScriptSig input txOut.scriptPubkey = some ss ∧
        psbt' = psbt.modifyInput idx fun input =>
          psbtInputFinalizedClear { input with finalScriptSig := some ss } := by
  unfold psbtFinalizeInput at h
  rw [hinput] at h
  simp only [hnew, Option.isSome_none, Bool.false_eq_true, if_false] at h
  cases hutxo : input.nonWitnessUtxo with
  | none =>
    rw [hutxo] at h
    cases h
    exact Or.inl ⟨rfl, rfl⟩
  | some utxo =>
    cases hvin : psbt.tx.vin[idx]? with
    | none =>
      rw [hutxo, hvin] at h
      cases h
    | some txIn =>
      simp only [hutxo, hvin] at h
      cases hvout : utxo.vout[txIn.prevout.n.toNat]? with
      | none =>
        rw [hvout] at h
        cases h
        exact Or.inl ⟨rfl, rfl⟩
      | some txOut =>
        simp only [hvout] at h
        cases hss : psbtFinalScriptSig input txOut.scriptPubkey with
        | none =>
          rw [hss] at h
          cases h
          exact Or.inl ⟨rfl, rfl⟩
        | some ss =>
          rw [hss] at h
          cases h
          exact Or.inr ⟨utxo, txIn, txOut, ss, rfl, rfl, hvout, hss, rfl⟩

theorem psbtFinalizeInput_of_script {utxo : Tx} {txIn : TxIn} {txOut : TxOut}
    (hinput : psbt.inputs[idx]? = some input) (hnew : input.finalScriptSig = none)
    (hutxo : input.nonWitnessUtxo = some utxo) (hvin : psbt.tx.vin[idx]? = some txIn)
    (hvout : utxo.vout[txIn.prevout.n.toNat]? = some txOut)
    (hss : psbtFinalScriptSig input txOut.scriptPubkey = some ss) :
    psbtFinalizeInput psbt idx = some (psbt.modifyInput idx fun input =>
      psbtInputFinalizedClear { input with finalScriptSig := some ss }, true) := by
  unfold psbtFinalizeInput
  simp only [hinput, hnew, Option.isSome_none, Bool.false_eq_true, if_false, hutxo,
    hvin, hvout, hss]

/-- With a script already there nothing changes. -/
theorem psbtFinalizeInput_of_final (hinput : psbt.inputs[idx]? = some input)
    (hfinal : input.finalScriptSig.isSome) : psbtFinalizeInput psbt idx = some (psbt, true) := by
  unfold psbtFinalizeInput
  rw [hinput]
  exact if_pos hfinal

/-! ## Sizes of what the finalizer writes -/

@[simp] theorem length_serU16 (v : UInt16) :
    (serU16 v).length = 2 := LittleEndian.length_toBytes 2 _

theorem serScriptPush_of_le {data : Bytes} (h : data.length ≤ 75) :
    serScriptPush data = UInt8.ofNat data.length :: data := if_pos h

theorem length_serScriptPush_le (data : Bytes) : (serScriptPush data).length ≤ data.length + 3 := by
  unfold serScriptPush
  split_ifs
  · rw [List.length_cons]
    omega
  · rw [List.length_cons, List.length_cons]
    omega
  · rw [List.length_cons, List.length_append, length_serU16]
    omega

theorem length_psbtMultisigKeys {slots : ℕ} {last : Bytes}
    (h : psbtMultisigKeys slots script = some (pubkeys, last)) :
    pubkeys.length ≤ slots ∧ script.length = 34 * pubkeys.length + last.length := by
  induction slots generalizing script pubkeys with
  | zero =>
    cases script with
    | nil =>
      cases h
      exact ⟨le_rfl, rfl⟩
    | cons pklen rest =>
      rw [psbtMultisigKeys] at h
      split_ifs at h with hne
      cases h
      exact ⟨le_rfl, by rw [List.length_nil, Nat.mul_zero, Nat.zero_add]⟩
  | succ slots ih =>
    cases script with
    | nil =>
      cases h
      exact ⟨Nat.zero_le _, rfl⟩
    | cons pklen rest =>
      rw [psbtMultisigKeys] at h
      split_ifs at h with hne hshort
      · cases h
        exact ⟨Nat.zero_le _, by rw [List.length_nil, Nat.mul_zero, Nat.zero_add]⟩
      · obtain ⟨⟨keys, tail⟩, hread, heq⟩ := Option.map_eq_some_iff.mp h
        cases heq
        obtain ⟨hslots, hlen⟩ := ih hread
        rw [List.length_drop] at hlen
        rw [List.length_cons, List.length_cons]
        omega

/-- A script with 16 keys at most, each a byte and 33 more, and three opcodes. -/
theorem length_of_psbtParseMultisig {m : ℕ} (h : psbtParseMultisig script = some (m, pubkeys)) :
    script.length ≤ 547 ∧ m ≤ 16 := by
  cases script with
  | nil => cases h
  | cons opM rest =>
    rw [psbtParseMultisig] at h
    split_ifs at h with hfirst
    split at h
    · rename_i keys opN last hkeys
      split_ifs at h with hbad
      cases h
      obtain ⟨hslots, hlen⟩ := length_psbtMultisigKeys hkeys
      rw [List.length_cons]
      simp only [List.length_cons, List.length_nil] at hlen
      simp only [not_or, not_lt] at hbad
      omega
    · cases h

end Libdogecoin
