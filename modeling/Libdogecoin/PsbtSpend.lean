/-
# What a finalized input spends

The finalizer builds the script of an input from what stands in its map, and looks at none of the
hashes that the signer checks: not at that of the previous transaction, nor at those of the redeem
script and of the key.

* `psbtFinalizeInput_spends_iff` : the script can spend the previous output just where they all are
  right.
-/
import Libdogecoin.MultisigSpend
import Libdogecoin.PsbtRoles
import Libdogecoin.PsbtText

namespace Libdogecoin

/-! ## Scripts of pushes -/

/-- A script that does nothing but push these items, one after the other. -/
inductive Pushes : Bytes → List Bytes → Prop
  | nil : Pushes [] []
  | cons {opcode : UInt8} {buf data rest : Bytes} {items : List Bytes} :
      pushLength opcode buf = some (some (data.length, data ++ rest)) → Pushes rest items →
      Pushes (opcode :: buf) (data :: items)

variable {rest script data spk : Bytes} {items : List Bytes} {prevout : TxOutpoint} {utxo : Tx}
  {input : PsbtInput} {ps : PsbtPartialsig}

theorem pushLength_length {opcode : UInt8} {buf : Bytes} {dataLen : ℕ}
    (h : pushLength opcode buf = some (some (dataLen, rest))) : rest.length ≤ buf.length := by
  have hdata : (List.replicate dataLen (0 : UInt8)).length = dataLen := List.length_replicate
  obtain ⟨-, hscript⟩ := pushLength_eq_push h hdata
  obtain ⟨lenBytes, hheader⟩ := ScriptOp.header_eq_cons ⟨opcode, List.replicate dataLen 0⟩
  rw [hheader, List.cons_append] at hscript
  rw [(List.cons.inj hscript).2, List.length_append]
  exact Nat.le_add_left _ _

/-- Every item is shorter than the script that pushes it. -/
theorem Pushes.length_lt (h : Pushes script items) :
    ∀ item ∈ items, item.length < script.length := by
  induction h with
  | nil => exact List.forall_mem_nil _
  | cons hpush _ ih =>
    have hlen := pushLength_length hpush
    rw [List.length_append] at hlen
    refine List.forall_mem_cons.mpr ⟨?_, fun item hitem => ?_⟩
    · rw [List.length_cons]
      omega
    · have hitem := ih item hitem
      rw [List.length_cons]
      omega

/-- Up to 65535 bytes it is the push that `dogecoin_script_append_pushdata` writes. -/
theorem serScriptPush_eq (h : data.length ≤ 0xffff) :
    serScriptPush data = scriptAppendPushdata [] data := by
  have hshort : data.length < opPushdata1.toNat ↔ data.length ≤ 75 := Nat.lt_succ_iff
  unfold serScriptPush scriptAppendPushdata
  by_cases h1 : data.length ≤ 75
  · rw [if_pos h1, if_pos (hshort.mpr h1)]
    rfl
  · rw [if_neg h1, if_neg (mt hshort.mp h1)]
    by_cases h2 : data.length ≤ 255
    · rw [if_pos h2, if_pos h2]
      rfl
    · rw [if_neg h2, if_neg h2, if_pos h]
      rfl

/-- What is read where a push was written. -/
theorem pushLength_serScriptPush (h : data.length ≤ 0xffff) (rest : Bytes) :
    ∃ opcode buf, serScriptPush data ++ rest = opcode :: buf ∧
      pushLength opcode buf = some (some (data.length, data ++ rest)) := by
  obtain ⟨hfits, hscript⟩ := scriptAppendPushdata_eq [] (h.trans_lt (by decide : 0xffff < 2 ^ 32))
  obtain ⟨buf, hbuf, hread⟩ := pushLength_header hfits (isPushdata_pushOf data) (data ++ rest)
  refine ⟨(pushOf data).op, buf, ?_, hread⟩
  rw [serScriptPush_eq h, hscript, List.nil_append, ScriptOp.wire, List.append_assoc]
  exact hbuf

theorem Pushes.push (hrest : Pushes rest items) (h : data.length ≤ 0xffff) :
    Pushes (serScriptPush data ++ rest) (data :: items) := by
  obtain ⟨opcode, buf, hscript, hread⟩ := pushLength_serScriptPush h rest
  rw [hscript]
  exact .cons hread hrest

/-- A push that was written is the first one that is read. -/
theorem Pushes.of_push (hpushes : Pushes (serScriptPush data ++ rest) items)
    (h : data.length ≤ 0xffff) :
    ∃ items', items = data :: items' ∧ Pushes rest items' := by
  obtain ⟨opcode, buf, hscript, hread⟩ := pushLength_serScriptPush h rest
  rw [hscript] at hpushes
  cases hpushes with
  | cons hread' hrest =>
    rw [hread] at hread'
    obtain ⟨hlen, heq⟩ := Prod.mk.inj (Option.some.inj (Option.some.inj hread'))
    obtain ⟨rfl, rfl⟩ := List.append_inj heq hlen
    exact ⟨_, rfl, hrest⟩

/-- From 65536 bytes on the data itself is nowhere pushed. -/
theorem Pushes.length_lt_of_long (hpushes : Pushes (serScriptPush data) items)
    (h : 0xffff < data.length) :
    ∀ item ∈ items, item.length < data.length := by
  have hscript : serScriptPush data = opPushdata2 ::
    (serU16 (UInt16.ofNat data.length) ++ data) := by
    rw [serScriptPush, if_neg (by omega), if_neg (by omega)]
  have hread : pushLength opPushdata2 (serU16 (UInt16.ofNat data.length) ++ data) =
      some (some ((UInt16.ofNat data.length).toNat, data)) := by
    unfold pushLength
    rw [if_neg (by decide), if_neg (by decide), if_pos rfl, deserU16_serU16]
    rfl
  rw [hscript] at hpushes
  cases hpushes with
  | cons hread' hrest =>
    rw [hread] at hread'
    obtain ⟨hlen, heq⟩ := Prod.mk.inj (Option.some.inj (Option.some.inj hread'))
    have hcut := (UInt16.ofNat data.length).toNat_lt
    have hsum := congrArg List.length heq
    rw [List.length_append] at hsum
    refine List.forall_mem_cons.mpr ⟨by omega, fun item hitem => ?_⟩
    have hitem := hrest.length_lt item hitem
    omega

theorem length_sig_le (sig : PsbtSig) : sig.1.length ≤ 0xffff := sig.2.trans (by decide)

theorem length_pubkey_le (pubkey : PsbtPubkey) :
    pubkey.1.length ≤ 0xffff := pubkey.2.trans (by decide)

/-- Signatures one after the other, and more behind them. -/
theorem Pushes.sigs (hrest : Pushes rest items) (sigs : List PsbtPartialsig) :
    Pushes (sigs.flatMap (fun ps => serScriptPush ps.sig.1) ++ rest)
      (sigs.map (fun ps => ps.sig.1) ++ items) := by
  induction sigs with
  | nil => exact hrest
  | cons ps sigs ih =>
    rw [List.flatMap_cons, List.append_assoc]
    exact ih.push (length_sig_le ps.sig)

/-! ## Spending an output -/

variable (kp : KeyPlatform)

/-- A script that pays to the hash of a key. -/
def PaysToKey (script pubkey : Bytes) : Prop :=
  scriptIsPubkeyhash (scriptGetOps script).1 = some (kp.getHash160 pubkey).1

/-- A script that pays to the hash of another one. -/
def PaysToScript (spk script : Bytes) : Prop :=
  scriptIsScripthash (scriptGetOps spk).1 = some (kp.getHash160 script).1

/-- As far as hashes go, a script of an input can spend an output with the script `spk` of a
transaction `utxo`. -/
structure SpendsOutput (prevout : TxOutpoint) (utxo : Tx) (redeemScript : Option Bytes)
    (spk ss : Bytes) : Prop where
  txid : txHash kp.toPlatform utxo = prevout.hash
  pubkeyhash : (scriptClassify spk).1 = .pubkeyhash → ∃ sig pubkey, Pushes ss [sig, pubkey] ∧
    PaysToKey kp spk pubkey
  scripthash : (scriptClassify spk).1 = .scripthash → ∃ items script, redeemScript = some script ∧
    Pushes ss (items ++ [script]) ∧ PaysToScript kp spk script ∧
    ((scriptClassify script).1 = .pubkeyhash → ∃ sig pubkey, items = [sig, pubkey] ∧
      PaysToKey kp script pubkey)

/-- The hashes in the map of an input are right, and its redeem script can be pushed. -/
structure HashesRight (prevout : TxOutpoint) (utxo : Tx) (input : PsbtInput) (spk : Bytes) :
    Prop where
  txid : txHash kp.toPlatform utxo = prevout.hash
  pubkeyhash : (scriptClassify spk).1 = .pubkeyhash → ∀ ps ∈ input.partialSigs,
    PaysToKey kp spk ps.pubkey.1
  scripthash : (scriptClassify spk).1 = .scripthash → ∀ script ∈ input.redeemScript,
    PaysToScript kp spk script ∧
    ((scriptClassify script).1 = .pubkeyhash →
      script.length ≤ 0xffff ∧ ∀ ps ∈ input.partialSigs, PaysToKey kp script ps.pubkey.1)

variable {kp}

/-- The script for the hash of a key: a signature and the key. -/
theorem spendsOutput_pubkeyhash_iff (hspk : (scriptClassify spk).1 = .pubkeyhash)
    (hsigs : input.partialSigs = [ps]) :
    SpendsOutput kp prevout utxo input.redeemScript spk (serScriptPush ps.sig.1 ++
      serScriptPush ps.pubkey.1) ↔
      HashesRight kp prevout utxo input spk := by
  have hnot : (scriptClassify spk).1 ≠ .scripthash := by
    rw [hspk]
    decide
  have hends : Pushes (serScriptPush ps.sig.1 ++ serScriptPush ps.pubkey.1) [ps.sig.1,
    ps.pubkey.1] := by
    have hkey := Pushes.nil.push (length_pubkey_le ps.pubkey)
    rw [List.append_nil] at hkey
    exact hkey.push (length_sig_le ps.sig)
  constructor
  · intro h
    refine ⟨h.txid, fun _ => ?_, fun hscripthash => absurd hscripthash hnot⟩
    obtain ⟨sig, pubkey, hpushes, hpays⟩ := h.pubkeyhash hspk
    obtain ⟨items, heq, hrest⟩ := hpushes.of_push (length_sig_le ps.sig)
    cases heq
    rw [← List.append_nil (serScriptPush ps.pubkey.1)] at hrest
    obtain ⟨items, heq, -⟩ := hrest.of_push (length_pubkey_le ps.pubkey)
    cases heq
    rw [hsigs]
    exact List.forall_mem_singleton.mpr hpays
  · intro h
    refine ⟨h.txid, fun _ => ⟨_, _, hends, ?_⟩, fun hscripthash => absurd hscripthash hnot⟩
    exact h.pubkeyhash hspk ps (hsigs ▸ List.mem_singleton_self ps)

/-- The script for the hash of a script that pays to the hash of a key: a signature, the key and the
script. -/
theorem spendsOutput_scripthash_pubkeyhash_iff (hspk : (scriptClassify spk).1 = .scripthash)
    (hredeem : input.redeemScript = some script) (hinner : (scriptClassify script).1 = .pubkeyhash)
    (hsigs : input.partialSigs = [ps]) :
    SpendsOutput kp prevout utxo input.redeemScript spk
        (serScriptPush ps.sig.1 ++ serScriptPush ps.pubkey.1 ++ serScriptPush script) ↔
      HashesRight kp prevout utxo input spk := by
  have hnot : (scriptClassify spk).1 ≠ .pubkeyhash := by
    rw [hspk]
    decide
  rw [List.append_assoc]
  constructor
  · intro h
    refine ⟨h.txid, fun hpubkeyhash => absurd hpubkeyhash hnot, fun _ script' hscript' => ?_⟩
    obtain rfl : script = script' := Option.some.inj (hredeem.symm.trans hscript')
    obtain ⟨items, script', hscript', hpushes, hpays, hkey⟩ := h.scripthash hspk
    obtain rfl : script = script' := Option.some.inj (hredeem.symm.trans hscript')
    obtain ⟨sig, pubkey, rfl, hpaysKey⟩ := hkey hinner
    obtain ⟨items, heq, hkeyPush⟩ := hpushes.of_push (length_sig_le ps.sig)
    cases heq
    obtain ⟨items, heq, hlast⟩ := hkeyPush.of_push (length_pubkey_le ps.pubkey)
    cases heq
    refine ⟨hpays, fun _ => ⟨?_, ?_⟩⟩
    · -- what is pushed of a longer script is shorter than it
      by_contra hlong
      exact absurd (hlast.length_lt_of_long (Nat.not_le.mp hlong) script
        (List.mem_singleton_self _)) (lt_irrefl _)
    · rw [hsigs]
      exact List.forall_mem_singleton.mpr hpaysKey
  · intro h
    obtain ⟨hpays, hkey⟩ := h.scripthash hspk script hredeem
    obtain ⟨hlen, hpaysKey⟩ := hkey hinner
    have hscript := Pushes.nil.push hlen
    rw [List.append_nil] at hscript
    have hpushes := (hscript.push (length_pubkey_le ps.pubkey)).push (length_sig_le ps.sig)
    refine ⟨h.txid, fun hpubkeyhash => absurd hpubkeyhash hnot,
      fun _ => ⟨[_, _], script, hredeem, hpushes, hpays, fun _ => ⟨_, _, rfl, ?_⟩⟩⟩
    exact hpaysKey ps (hsigs ▸ List.mem_singleton_self ps)

/-- The script for the hash of a multisig script: signatures and the script. -/
theorem spendsOutput_scripthash_multisig_iff {ss : Bytes}
    (hspk : (scriptClassify spk).1 = .scripthash) (hredeem : input.redeemScript = some script)
    (hinner : (scriptClassify script).1 = .multisig)
    (hss : psbtMultisigScriptSig input.partialSigs script = some ss) :
    SpendsOutput kp prevout utxo input.redeemScript spk ss ↔
    HashesRight kp prevout utxo input spk := by
  have hnot : (scriptClassify spk).1 ≠ .pubkeyhash := by
    rw [hspk]
    decide
  have hnotInner : (scriptClassify script).1 ≠ .pubkeyhash := by
    rw [hinner]
    decide
  constructor
  · intro h
    refine ⟨h.txid, fun hpubkeyhash => absurd hpubkeyhash hnot, fun _ script' hscript' => ?_⟩
    obtain rfl : script = script' := Option.some.inj (hredeem.symm.trans hscript')
    obtain ⟨items, script', hscript', -, hpays, -⟩ := h.scripthash hspk
    obtain rfl : script = script' := Option.some.inj (hredeem.symm.trans hscript')
    exact ⟨hpays, fun hpubkeyhash => absurd hpubkeyhash hnotInner⟩
  · intro h
    obtain ⟨m, pubkeys, sigs, hparse, -, -, rfl⟩ := psbtMultisigScriptSig_eq_some hss
    have hlen := (length_of_psbtParseMultisig hparse).1
    have hscript := Pushes.nil.push (hlen.trans (by decide : 547 ≤ 0xffff))
    rw [List.append_nil] at hscript
    have hpushes : Pushes (op0 :: (sigs.flatMap (fun ps => serScriptPush ps.sig.1) ++
      serScriptPush script))
        (([] :: sigs.map fun ps => ps.sig.1) ++ [script]) := .cons rfl (hscript.sigs sigs)
    refine ⟨h.txid, fun hpubkeyhash => absurd hpubkeyhash hnot,
      fun _ => ⟨_, script, hredeem, hpushes, ?_, fun hpubkeyhash => absurd hpubkeyhash hnotInner⟩⟩
    exact (h.scripthash hspk script hredeem).1

/-- **A script that the finalizer sets** can spend the previous output just where the hashes in the
map of the input are right. -/
theorem psbtFinalizeInput_spends_iff {psbt psbt' : Psbt} {idx : ℕ} {ok : Bool}
    {input : PsbtInput} {ss : Bytes} (hinput : psbt.inputs[idx]? = some input)
    (hnew : input.finalScriptSig = none)
    (hcall : psbtFinalizeInput psbt idx = some (psbt', ok))
    (hset : psbt'.inputs[idx]?.bind PsbtInput.finalScriptSig = some ss) :
    ∃ utxo txIn txOut, input.nonWitnessUtxo = some utxo ∧ psbt.tx.vin[idx]? = some txIn ∧
      utxo.vout[txIn.prevout.n.toNat]? = some txOut ∧
      (SpendsOutput kp txIn.prevout utxo input.redeemScript txOut.scriptPubkey ss ↔
        HashesRight kp txIn.prevout utxo input txOut.scriptPubkey) := by
  rcases psbtFinalizeInput_eq_some hinput hnew hcall with
    ⟨rfl, -⟩ | ⟨utxo, txIn, txOut, ss', hutxo, hvin, hvout, hss, rfl⟩
  · rw [hinput, Option.bind_some, hnew] at hset
    cases hset
  · obtain rfl : ss' = ss := by
      rw [Psbt.modifyInput, List.getElem?_modify_eq, hinput] at hset
      exact Option.some.inj hset
    refine ⟨utxo, txIn, txOut, hutxo, hvin, hvout, ?_⟩
    rcases psbtFinalScriptSig_eq_some hss with
      ⟨hspk, ps, hsigs, rfl⟩ | ⟨hspk, script, hredeem,
        ⟨hinner, ps, hsigs, rfl⟩ | ⟨hinner, hmultisig⟩⟩
    · exact spendsOutput_pubkeyhash_iff hspk hsigs
    · exact spendsOutput_scripthash_pubkeyhash_iff hspk hredeem hinner hsigs
    · exact spendsOutput_scripthash_multisig_iff hspk hredeem hinner hmultisig

/-- A signature by the key of bytes 1. -/
def keySig : PsbtPartialsig :=
  ⟨⟨2 :: List.replicate 32 1, Nat.le_of_ble_eq_true rfl⟩, ⟨[0x30, 1], Nat.le_of_ble_eq_true rfl⟩⟩

/-- An input with this signature, for an output to the hash of a key. -/
def signedInput (hash : Uint160) : PsbtInput where
  nonWitnessUtxo := some ⟨1, [], [⟨1, p2pkhScript hash⟩], 0⟩
  partialSigs := [keySig]

/-- A transaction with this input. -/
def signedPsbt (hash : Uint160) : Psbt where
  tx := oneInputTx
  version := 0
  xpubs := []
  inputs := [signedInput hash]
  outputs := []
  unknowns := []

/-- The signature and the key. -/
def signedScriptSig : Bytes := serScriptPush keySig.sig.1 ++ serScriptPush keySig.pubkey.1

/-- The transaction with the input finalized. -/
def finalizedPsbt (hash : Uint160) : Psbt :=
  (signedPsbt hash).modifyInput 0 fun input =>
    psbtInputFinalizedClear { input with finalScriptSig := some signedScriptSig }

theorem psbtFinalizeInput_signedPsbt (hash : Uint160) :
    psbtFinalizeInput (signedPsbt hash) 0 = some (finalizedPsbt hash, true) := by
  have hss : psbtFinalScriptSig (signedInput hash) (p2pkhScript hash) = some signedScriptSig := by
    unfold psbtFinalScriptSig
    rw [scriptClassify_p2pkhScript]
    rfl
  exact psbtFinalizeInput_of_script rfl rfl rfl rfl rfl hss

/-- The output pays to the key of the signature, and is one of the transaction that the input
names. -/
theorem psbtFinalizeInput_spends_iff_signedPsbt :
    ∃ utxo txIn txOut, (signedInput ⟨List.replicate 20 0, rfl⟩).nonWitnessUtxo = some utxo ∧
      oneInputTx.vin[0]? = some txIn ∧ utxo.vout[txIn.prevout.n.toNat]? = some txOut ∧
      SpendsOutput sampleKeys txIn.prevout utxo none txOut.scriptPubkey signedScriptSig := by
  obtain ⟨utxo, txIn, txOut, hutxo, hvin, hvout, hiff⟩ :=
    @psbtFinalizeInput_spends_iff sampleKeys _ _ 0 true _ _ rfl rfl
    (psbtFinalizeInput_signedPsbt ⟨List.replicate 20 0, rfl⟩) rfl
  refine ⟨utxo, txIn, txOut, hutxo, hvin, hvout, hiff.mpr ?_⟩
  obtain rfl := Option.some.inj hutxo
  obtain rfl := Option.some.inj hvin
  obtain rfl := Option.some.inj hvout
  have hspk := congrArg Prod.fst (scriptClassify_p2pkhScript ⟨List.replicate 20 0, rfl⟩)
  refine ⟨by decide, fun _ => List.forall_mem_singleton.mpr ?_, fun hscripthash => ?_⟩
  · rw [PaysToKey, scriptGetOps_p2pkhScript]
    decide
  · exact absurd (hspk.symm.trans hscripthash) (by decide)

/-- A signature by another key is taken for an output to the hash of a key. -/
theorem not_psbtFinalizeInput_spends :
    ¬ ∀ (kp : KeyPlatform) (psbt psbt' : Psbt) (idx : ℕ) (ok : Bool) (input : PsbtInput)
      (utxo : Tx) (txIn : TxIn) (txOut : TxOut) (ss : Bytes), psbt.inputs[idx]? = some input →
      input.finalScriptSig = none →
      psbtFinalizeInput psbt idx = some (psbt', ok) →
      psbt'.inputs[idx]?.bind PsbtInput.finalScriptSig = some ss →
      input.nonWitnessUtxo = some utxo →
      psbt.tx.vin[idx]? = some txIn → utxo.vout[txIn.prevout.n.toNat]? = some txOut →
      SpendsOutput kp txIn.prevout utxo input.redeemScript txOut.scriptPubkey ss := by
  intro h
  have hspends := h sampleKeys _ _ 0 true _ _ _ _ _ rfl rfl
    (psbtFinalizeInput_signedPsbt ⟨List.replicate 20 1, rfl⟩) rfl rfl rfl rfl
  have hspk := congrArg Prod.fst (scriptClassify_p2pkhScript ⟨List.replicate 20 1, rfl⟩)
  have hsigs : (signedInput ⟨List.replicate 20 1, rfl⟩).partialSigs = [keySig] := rfl
  have hright := (spendsOutput_pubkeyhash_iff hspk hsigs).mp hspends
  have hpays := hright.pubkeyhash hspk _ (List.mem_singleton_self _)
  rw [PaysToKey, scriptGetOps_p2pkhScript] at hpays
  exact absurd hpays (by decide)

end Libdogecoin
