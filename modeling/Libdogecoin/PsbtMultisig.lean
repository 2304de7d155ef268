/-
# Finalizing a multisig input

The finalizer of an input that is paid to the hash of a multisig script: which scripts it takes, and
which signatures it collects for them.

* `psbtParseMultisig_eq` : a script that is accepted is a multisig script with keys of 33 bytes;
* `scriptClassify_of_parse` : it is known as one if the keys begin with the byte for their length;
* `psbtFinalizeInput_multisig` : when the finalizer succeeds, and what it leaves behind.
-/
import Libdogecoin.PsbtSpend

namespace Libdogecoin

/-! ## Scripts that are accepted -/

theorem wire_pushOf_key {key : Bytes} (h : key.length = 33) : (pushOf key).wire = 0x21 :: key := by
  have hshort : key.length < 76 := by omega
  have hdata : (pushOf key).data = key := rfl
  rw [ScriptOp.wire, header_pushOf_short hshort, h, hdata]
  rfl

variable {script : Bytes} {pubkeys : List Bytes} {m : ℕ}

/-- The loop over the keys reads pushes of 33 bytes. -/
theorem psbtMultisigKeys_eq {slots : ℕ} {last : Bytes}
    (h : psbtMultisigKeys slots script = some (pubkeys, last)) :
    script = (pubkeys.map pushOf).flatMap ScriptOp.wire ++ last ∧ ∀ key ∈ pubkeys,
      key.length = 33 := by
  induction slots generalizing script pubkeys with
  | zero =>
    cases script with
    | nil =>
      cases h
      exact ⟨rfl, List.forall_mem_nil _⟩
    | cons pklen rest =>
      rw [psbtMultisigKeys] at h
      split_ifs at h with hne
      cases h
      exact ⟨rfl, List.forall_mem_nil _⟩
  | succ slots ih =>
    cases script with
    | nil =>
      cases h
      exact ⟨rfl, List.forall_mem_nil _⟩
    | cons pklen rest =>
      rw [psbtMultisigKeys] at h
      split_ifs at h with hne hshort
      · cases h
        exact ⟨rfl, List.forall_mem_nil _⟩
      -- one more key behind its length
      · obtain ⟨⟨keys, tail⟩, hread, heq⟩ := Option.map_eq_some_iff.mp h
        cases heq
        obtain ⟨hrest, hkeys⟩ := ih hread
        have hkey : (rest.take 33).length = 33 := List.length_take_of_le (Nat.not_lt.mp hshort)
        refine ⟨?_, List.forall_mem_cons.mpr ⟨hkey, hkeys⟩⟩
        rw [List.map_cons, List.flatMap_cons, wire_pushOf_key hkey, List.append_assoc, ← hrest,
          List.cons_append, List.take_append_drop, not_not.mp hne]

theorem encodeOpN_of_isOpN {op : UInt8} (h : isOpN op = true) :
    op.toNat - 0x50 ≠ 0 ∧ op.toNat - 0x50 ≤ 16 ∧ encodeOpN (op.toNat - 0x50) = op := by
  obtain ⟨hlow, hhigh⟩ := of_decide_eq_true h
  rw [UInt8.le_iff_toNat_le] at hlow hhigh
  have hlow' : 81 ≤ op.toNat := hlow
  have hhigh' : op.toNat ≤ 96 := hhigh
  refine ⟨by omega, by omega, ?_⟩
  apply UInt8.toNat_inj.mp
  rw [toNat_encodeOpN (by omega) (by omega)]
  omega

/-- **A script that is accepted** is a multisig script with keys of 33 bytes. -/
theorem psbtParseMultisig_eq (h : psbtParseMultisig script = some (m, pubkeys)) :
    m ≠ 0 ∧ m ≤ pubkeys.length ∧ pubkeys.length ≤ 16 ∧ (∀ key ∈ pubkeys, key.length = 33) ∧
      script = (keyedMultisigOps m pubkeys).flatMap ScriptOp.wire := by
  cases script with
  | nil => cases h
  | cons opM rest =>
    rw [psbtParseMultisig] at h
    split_ifs at h with hfirst
    split at h
    · rename_i keys opN last hkeys
      split_ifs at h with hbad
      cases h
      simp only [not_or, not_lt, Bool.not_eq_false, ne_eq, not_not] at hfirst hbad
      obtain ⟨-, hopM⟩ := hfirst
      obtain ⟨-, hopN, hcount, hlast, hle⟩ := hbad
      -- both numbers are written as the opcodes that they are read from
      obtain ⟨hm, hm16, hencM⟩ := encodeOpN_of_isOpN hopM
      obtain ⟨hn, hn16, hencN⟩ := encodeOpN_of_isOpN hopN
      obtain ⟨hrest, h33⟩ := psbtMultisigKeys_eq hkeys
      refine ⟨hm, hle, by omega, h33, ?_⟩
      rw [keyedMultisigOps, List.flatMap_cons, List.flatMap_append,
        wire_alone (isPushdata_encodeOpN hm hm16), hencM, hrest, hlast, ← hcount]
      show _ = _ ++ (_ ++ ((ScriptOp.mk (encodeOpN (opN.toNat - 0x50)) []).wire ++ _))
      rw [wire_alone (isPushdata_encodeOpN hn hn16), hencN]
      rfl
    · cases h

/-- A key of 33 bytes that begins with the byte for its length. -/
def CompressedKey (key : Bytes) : Prop := key.head? = some 2 ∨ key.head? = some 3

theorem isOpPubkey_pushOf_iff {key : Bytes} (h : key.length = 33) :
    (pushOf key).isOpPubkey = true ↔ CompressedKey key := by
  cases key with
  | nil => cases h
  | cons first key =>
    have hdata : (pushOf (first :: key)).data = first :: key := rfl
    rw [ScriptOp.isOpPubkey, isPushdata_pushOf, hdata, h, List.headD_cons, CompressedKey,
      List.head?_cons]
    simp only [Bool.true_and, Option.some.injEq, decide_true, Bool.true_or,
      ScriptOp.isOpPubkey.pubkeyGetLength]
    split_ifs with h2 h4
    · simp [h2]
    · simp [h2]
    · simp [h2]

/-- Such a script is known as a multisig script if its keys are compressed ones, and pays to no hash
of a key. -/
theorem scriptClassify_of_parse (h : psbtParseMultisig script = some (m, pubkeys)) :
    (scriptClassify script).1 ≠ .pubkeyhash ∧
      ((scriptClassify script).1 = .multisig ↔ ∀ key ∈ pubkeys, CompressedKey key) := by
  obtain ⟨hm, hle, hn16, h33, rfl⟩ := psbtParseMultisig_eq h
  have hshort : ∀ key ∈ pubkeys, key.length < 2 ^ 32 := by
    intro key hkey
    rw [h33 key hkey]
    decide
  obtain ⟨hne, hiff⟩ := scriptClassify_keyedMultisigOps hm (by omega) (by omega) hn16 hshort
  refine ⟨hne, hiff.trans ?_⟩
  exact forall₂_congr fun key hkey => isOpPubkey_pushOf_iff (h33 key hkey)

/-! ## The signatures that are collected -/

/-- The signature for a key: the first one under it. -/
def sigFor (partialSigs : List PsbtPartialsig) (pubkey : Bytes) : Option Bytes :=
  (partialSigs.find? fun ps => ps.pubkey.1 = pubkey).map fun ps => ps.sig.1

/-- The signatures for the first keys that have one, in the order of the keys. -/
def firstSigs (partialSigs : List PsbtPartialsig) (pubkeys : List Bytes) (m : ℕ) : List Bytes :=
  (pubkeys.filterMap (sigFor partialSigs)).take m

/-- How many keys of the script have a signature, a key that stands there twice counted twice. -/
def signedPositions (partialSigs : List PsbtPartialsig) (pubkeys : List Bytes) : ℕ :=
  pubkeys.countP fun pubkey => partialSigs.any fun ps => ps.pubkey.1 = pubkey

theorem length_found (partialSigs : List PsbtPartialsig) (pubkeys : List Bytes) :
    (pubkeys.filterMap fun pubkey => partialSigs.find? fun ps => ps.pubkey.1 = pubkey).length =
      signedPositions partialSigs pubkeys := by
  rw [List.length_filterMap_eq_countP, signedPositions]
  congr 1
  funext pubkey
  rw [Bool.eq_iff_iff, List.find?_isSome, List.any_eq_true]

theorem map_take_found (partialSigs : List PsbtPartialsig) (pubkeys : List Bytes) (m : ℕ) :
    ((pubkeys.filterMap fun pubkey => partialSigs.find? fun ps => ps.pubkey.1 = pubkey).take m).map
      (fun ps => ps.sig.1) = firstSigs partialSigs pubkeys m := by
  rw [List.map_take, List.map_filterMap]
  rfl

/-- A push for each signature and one for the script is what the finalizer writes. -/
theorem wire_spendOps {sigs : List PsbtPartialsig} (hscript : script.length ≤ 0xffff) :
    op0 :: sigs.flatMap (fun ps => serScriptPush ps.sig.1) ++ serScriptPush script =
      (spendOps (sigs.map fun ps => ps.sig.1) script).flatMap ScriptOp.wire := by
  have hpush : ∀ data : Bytes, data.length ≤ 0xffff → serScriptPush data = (pushOf data).wire := by
    intro data hdata
    rw [serScriptPush_eq hdata, (scriptAppendPushdata_eq [] (hdata.trans_lt (by decide))).2,
      List.nil_append]
  rw [flatMap_spendOps, hpush script hscript, List.cons_append]
  congr 2
  rw [List.map_map, List.flatMap_map]
  congr 1
  funext ps
  exact hpush _ (length_sig_le ps.sig)

/-- **The script of a multisig payment** is there if there are as many signatures as are needed, and
as many keys with one. -/
theorem psbtMultisigScriptSig_cases {partialSigs : List PsbtPartialsig} {script : Bytes} {m : ℕ}
    {pubkeys : List Bytes} (hparse : psbtParseMultisig script = some (m, pubkeys)) :
    (m ≤ partialSigs.length ∧ m ≤ signedPositions partialSigs pubkeys →
      ∃ ss, psbtMultisigScriptSig partialSigs script = some ss ∧
        MultisigSpend ss (firstSigs partialSigs pubkeys m) script) ∧
      (¬ (m ≤ partialSigs.length ∧ m ≤ signedPositions partialSigs pubkeys) →
        psbtMultisigScriptSig partialSigs script = none) := by
  have hlen := (length_of_psbtParseMultisig hparse).1
  have hne : script ≠ [] := by
    rintro rfl
    cases hparse
  unfold psbtMultisigScriptSig
  rw [hparse]
  dsimp only
  rw [length_found]
  constructor
  · rintro ⟨hfew, hpositions⟩
    rw [if_neg (by omega), wire_spendOps (by omega), map_take_found]
    refine ⟨_, rfl, multisigSpend_spendOps ?_ (by omega) hne⟩
    intro sig hsig
    rw [← map_take_found] at hsig
    obtain ⟨ps, -, rfl⟩ := List.mem_map.mp hsig
    exact (length_sig_le ps.sig).trans_lt (by decide)
  · intro hnot
    rw [if_pos (by omega)]

/-! ## The finalizer -/

theorem modifyInput_eq_set {psbt : Psbt} {idx : ℕ} {input : PsbtInput}
    (hinput : psbt.inputs[idx]? = some input) (f : PsbtInput → PsbtInput) :
    psbt.modifyInput idx f = { psbt with inputs := psbt.inputs.set idx (f input) } := by
  obtain ⟨hlt, hget⟩ := List.getElem?_eq_some_iff.mp hinput
  have hset : psbt.inputs.modify idx f = psbt.inputs.set idx (f input) := by
    apply List.ext_getElem?
    intro i
    rw [List.getElem?_set]
    by_cases hi : idx = i
    · subst hi
      rw [if_pos rfl, if_pos hlt, List.getElem?_modify_eq, hinput]
      rfl
    · rw [if_neg hi, List.getElem?_modify_ne f _ hi]
  rw [Psbt.modifyInput, hset]

/-- An input after it was finalized with a script. -/
def finalizedInput (input : PsbtInput) (ss : Bytes) : PsbtInput where
  nonWitnessUtxo := input.nonWitnessUtxo
  redeemScript := none
  finalScriptSig := some ss
  sighashType := none
  partialSigs := []
  keypaths := []
  unknowns := input.unknowns

/-- There are as many signatures as are needed, as many keys of the script have one, and all its
keys are compressed. -/
structure CanFinalize (partialSigs : List PsbtPartialsig) (m : ℕ) (pubkeys : List Bytes) :
    Prop where
  enough : m ≤ partialSigs.length
  positions : m ≤ signedPositions partialSigs pubkeys
  compressed : ∀ key ∈ pubkeys, CompressedKey key

/-- **Finalizing a multisig input.** The finalizer succeeds if and only if there are enough
signatures and the keys are compressed; the script then pushes the signatures of the first keys that
have one, and the rest of the map is cleared. Otherwise nothing changes. An input with a script is
left as it is. -/
theorem psbtFinalizeInput_multisig {psbt : Psbt} {idx : ℕ} {input : PsbtInput} {utxo : Tx}
    {txIn : TxIn} {txOut : TxOut} {script : Bytes} {m : ℕ} {pubkeys : List Bytes}
    (hinput : psbt.inputs[idx]? = some input)
    (hutxo : input.nonWitnessUtxo = some utxo) (hvin : psbt.tx.vin[idx]? = some txIn)
    (hvout : utxo.vout[txIn.prevout.n.toNat]? = some txOut)
    (hspk : (scriptClassify txOut.scriptPubkey).1 = .scripthash)
    (hredeem : input.redeemScript = some script)
    (hparse : psbtParseMultisig script = some (m, pubkeys)) :
    (input.finalScriptSig.isSome → psbtFinalizeInput psbt idx = some (psbt, true)) ∧
    (input.finalScriptSig = none →
      (CanFinalize input.partialSigs m pubkeys →
        ∃ ss, psbtFinalizeInput psbt idx =
            some ({ psbt with inputs := psbt.inputs.set idx (finalizedInput input ss) }, true) ∧
          MultisigSpend ss (firstSigs input.partialSigs pubkeys m) script ∧
          (firstSigs input.partialSigs pubkeys m).length = m) ∧
      (¬ CanFinalize input.partialSigs m pubkeys → psbtFinalizeInput psbt idx =
        some (psbt, false))) := by
  obtain ⟨hnothash, hmultisig⟩ := scriptClassify_of_parse hparse
  obtain ⟨hsome, hnone⟩ := @psbtMultisigScriptSig_cases input.partialSigs _ _ _ hparse
  refine ⟨psbtFinalizeInput_of_final hinput, fun hnew => ⟨?_, ?_⟩⟩
  · rintro ⟨henough, hpositions, hcompressed⟩
    obtain ⟨ss, hss, hspend⟩ := hsome ⟨henough, hpositions⟩
    have hfinal : psbtFinalScriptSig input txOut.scriptPubkey = some ss := by
      unfold psbtFinalScriptSig
      rw [hspk, hredeem]
      dsimp only
      rw [hmultisig.mpr hcompressed]
      exact hss
    refine ⟨ss, ?_, hspend, ?_⟩
    · rw [psbtFinalizeInput_of_script hinput hnew hutxo hvin hvout hfinal,
        modifyInput_eq_set hinput]
      rfl
    · rw [← map_take_found, List.length_map, List.length_take, length_found]
      exact Nat.min_eq_left hpositions
  · intro hcannot
    have hfinal : psbtFinalScriptSig input txOut.scriptPubkey = none := by
      unfold psbtFinalScriptSig
      rw [hspk, hredeem]
      dsimp only
      -- the script that is redeemed is classified in its turn
      split
      · next htype => exact absurd htype hnothash
      · next htype =>
          apply hnone
          rintro ⟨henough, hpositions⟩
          exact hcannot ⟨henough, hpositions, hmultisig.mp htype⟩
      · rfl
    unfold psbtFinalizeInput
    simp only [hinput, hnew, Option.isSome_none, Bool.false_eq_true, if_false, hutxo,
      hvin, hvout, hfinal]

/-- An input for an output to the hash of a script. -/
def multisigInput (script : Bytes) (partialSigs : List PsbtPartialsig) (final : Option Bytes) :
    PsbtInput where
  nonWitnessUtxo := some {
    version := 1, vin := []
    vout := [{ value := 1, scriptPubkey := [opHash160, 20] ++ List.replicate 20 0 ++ [opEqual] }],
      locktime := 0 }
  redeemScript := some script
  partialSigs := partialSigs
  finalScriptSig := final

/-- A transaction with this input. -/
def multisigPsbt (script : Bytes) (partialSigs : List PsbtPartialsig) (final : Option Bytes) :
    Psbt where
  tx := oneInputTx
  version := 0
  xpubs := []
  inputs := [multisigInput script partialSigs final]
  outputs := []
  unknowns := []

/-- Two signatures are needed, by a key that stands there twice. -/
def repeatedScript : Bytes := 0x52 :: 0x21 :: keySig.pubkey.1 ++ 0x21 :: keySig.pubkey.1 ++
    [0x52, opCheckmultisig]

/-- A signature under a key that begins with another byte. -/
def strangeSig : PsbtPartialsig :=
  ⟨⟨5 :: List.replicate 32 1, Nat.le_of_ble_eq_true rfl⟩, keySig.sig⟩

/-- One signature is needed, by this key. -/
def strangeScript : Bytes := 0x51 :: 0x21 :: strangeSig.pubkey.1 ++ [0x51, opCheckmultisig]

/-- One signature is needed, by either of two keys. -/
def eitherScript : Bytes := 0x51 :: 0x21 :: (3 :: List.replicate 32 1) ++ 0x21 :: keySig.pubkey.1 ++
    [0x52, opCheckmultisig]

theorem psbtFinalizeInput_multisig_either :
    ∃ ss, psbtFinalizeInput (multisigPsbt eitherScript [keySig] none) 0 =
        some ({ multisigPsbt eitherScript [keySig] none with
          inputs := [finalizedInput (multisigInput eitherScript [keySig] none) ss] }, true) ∧
      MultisigSpend ss [keySig.sig.1] eitherScript := by
  have hparse : psbtParseMultisig eitherScript =
    some (1, [3 :: List.replicate 32 1, keySig.pubkey.1]) := by
    decide +kernel
  have hcan : CanFinalize [keySig] 1 [3 :: List.replicate 32 1, keySig.pubkey.1] :=
    ⟨by decide, by decide,
      List.forall_mem_cons.mpr ⟨Or.inr rfl, List.forall_mem_singleton.mpr (Or.inl rfl)⟩⟩
  obtain ⟨-, hnew⟩ := @psbtFinalizeInput_multisig (multisigPsbt eitherScript [keySig] none) 0 _ _ _
    _ _ _ _ rfl rfl rfl rfl (by decide +kernel) rfl hparse
  obtain ⟨ss, hrun, hspend, -⟩ := (hnew rfl).1 hcan
  exact ⟨ss, hrun, hspend⟩

/-- A key that stands there twice counts for both of its places, but one signature is fewer than
two; a script with another key is accepted, but is not known as a multisig script; and an input with
a script needs no signature. -/
theorem not_psbtFinalizeInput_multisig :
    (psbtParseMultisig repeatedScript = some (2, [keySig.pubkey.1, keySig.pubkey.1]) ∧
      signedPositions [keySig] [keySig.pubkey.1, keySig.pubkey.1] = 2 ∧
      psbtFinalizeInput (multisigPsbt repeatedScript [keySig] none) 0 =
        some (multisigPsbt repeatedScript [keySig] none, false)) ∧
    (psbtParseMultisig strangeScript = some (1, [strangeSig.pubkey.1]) ∧
      signedPositions [strangeSig] [strangeSig.pubkey.1] = 1 ∧
      psbtFinalizeInput (multisigPsbt strangeScript [strangeSig] none) 0 =
        some (multisigPsbt strangeScript [strangeSig] none, false)) ∧
    (signedPositions [] [keySig.pubkey.1, keySig.pubkey.1] = 0 ∧
      psbtFinalizeInput (multisigPsbt repeatedScript [] (some [])) 0 =
        some (multisigPsbt repeatedScript [] (some []), true)) := by
  decide +kernel

end Libdogecoin
