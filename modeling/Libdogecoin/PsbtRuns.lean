/-
# Runs of updaters, signers, combiners and finalizers

A partially signed transaction starts from the creator and goes through calls that return true. What
is written of it can be read as long as no updater has added a key path that the reader refuses, and
nothing is too long.

* `psbtRuns_accepted` : what every run of such calls leaves can be read where it is written.
-/
import Libdogecoin.MultisigSpend
import Libdogecoin.PsbtMerge
import Libdogecoin.PsbtRoles
import Libdogecoin.PsbtText
import Libdogecoin.Transition

namespace Libdogecoin

/-! ## Transactions as they are written -/

/-- A string too long for the count is written as the empty one. -/
def writtenScript (script : Bytes) : Bytes := if script.length > 0xffffffff then [] else script

/-- A transaction as it is written. -/
def Tx.written (tx : Tx) : Tx :=
  { tx with
    vin := tx.vin.map fun txIn => { txIn with scriptSig := writtenScript txIn.scriptSig }
    vout := tx.vout.map fun txOut =>
      { txOut with scriptPubkey := writtenScript txOut.scriptPubkey } }

theorem serVarstr_writtenScript (script : Bytes) :
    serVarstr (writtenScript script) = serVarstr script := by
  unfold writtenScript
  by_cases hlong : script.length > 0xffffffff
  · have hne : ¬ script.length = 0 := by omega
    rw [if_pos hlong, serVarstr, serVarstr, if_neg hne, if_pos hlong]
    rfl
  · rw [if_neg hlong]

theorem length_writtenScript_lt (script : Bytes) : (writtenScript script).length < 2 ^ 32 := by
  unfold writtenScript
  split_ifs with hlong
  · exact Nat.two_pow_pos 32
  · omega

theorem txSerialize_written (tx : Tx) : txSerialize tx.written = txSerialize tx := by
  unfold txSerialize Tx.written
  simp only [List.length_map, List.flatMap_map, txInSerialize, txOutSerialize,
    serVarstr_writtenScript]
  rfl

variable {tx : Tx} {psbt psbt' : Psbt} {idx : ℕ} {ps : PsbtPartialsig} {sigs : List PsbtPartialsig}
  {sp : SignPlatform} {keypaths : List PsbtKeypath} {input : PsbtInput} {f : PsbtInput → PsbtInput}
  {ss : Bytes}

/-- A transaction that is written in fewer than 2^32 bytes has no more inputs and outputs than a
count says. -/
theorem Tx.sized_written (h : (txSerialize tx).length < 2 ^ 32) : tx.written.Sized := by
  have hin : ∀ txIn, txInSerialize txIn ≠ [] := by
    intro txIn hnil
    have hlast := (List.append_eq_nil_iff.mp hnil).2
    exact absurd (congrArg List.length hlast) (by rw [length_serU32]; decide)
  have hout : ∀ txOut, txOutSerialize txOut ≠ [] := by
    intro txOut hnil
    have hfirst := (List.append_eq_nil_iff.mp hnil).1
    exact absurd (congrArg List.length hfirst) (by rw [serU64, LittleEndian.length_toBytes]; decide)
  have hvin := length_le_length_flatMap hin tx.vin
  have hvout := length_le_length_flatMap hout tx.vout
  unfold txSerialize at h
  simp only [List.length_append] at h
  refine ⟨?_, ?_, fun txIn hmem => ?_, fun txOut hmem => ?_⟩
  · rw [Tx.written, List.length_map]
    omega
  · rw [Tx.written, List.length_map]
    omega
  · obtain ⟨txIn', -, rfl⟩ := List.mem_map.mp hmem
    exact length_writtenScript_lt _
  · obtain ⟨txOut', -, rfl⟩ := List.mem_map.mp hmem
    exact length_writtenScript_lt _

/-! ## What can be read where it is written -/

/-- A map of an input that can be read where it is written. -/
structure PsbtInput.Loads (input : PsbtInput) : Prop where
  tidy : input.Tidy
  utxo : input.UtxoReads

/-- Maps that can be read where they are written. -/
structure Psbt.Loads (psbt : Psbt) : Prop where
  unsigned : ∀ txIn ∈ psbt.tx.vin, txIn.scriptSig = []
  size : (txSerialize psbt.tx).length < 2 ^ 32
  xpubs : TidyXpubs psbt.xpubs
  unknowns : TidyUnknowns psbtGlobalTypes psbt.unknowns
  numInputs : psbt.inputs.length = psbt.tx.vin.length
  numOutputs : psbt.outputs.length = psbt.tx.vout.length
  inputs : ∀ input ∈ psbt.inputs, input.Loads
  outputs : ∀ output ∈ psbt.outputs, output.Tidy

/-- The reader accepts what is written of it. -/
def Psbt.Accepted (psbt : Psbt) : Prop := (psbtDeserialize (psbtSerialize psbt)).isSome

theorem Psbt.Loads.accepted (h : psbt.Loads) : psbt.Accepted := by
  let psbt' : Psbt := { psbt with tx := psbt.tx.written }
  have hsame : psbtSerialize psbt' = psbtSerialize psbt := by
    unfold psbtSerialize psbtGlobalSerialize
    rw [show psbt'.tx = psbt.tx.written from rfl, txSerialize_written]
  have hsize : (txSerialize psbt'.tx).length < 2 ^ 32 := by
    rw [show psbt'.tx = psbt.tx.written from rfl, txSerialize_written]
    exact h.size
  have htidy : psbt'.Tidy := by
    refine ⟨?_, h.xpubs, h.unknowns, ?_, ?_, fun input hmem => (h.inputs input hmem).tidy,
      h.outputs⟩
    · intro txIn hmem
      obtain ⟨txIn', hmem', rfl⟩ := List.mem_map.mp hmem
      show writtenScript txIn'.scriptSig = []
      rw [h.unsigned txIn' hmem']
      rfl
    · rw [h.numInputs]
      exact (List.length_map _).symm
    · rw [h.numOutputs]
      exact (List.length_map _).symm
  have hreads : psbt'.Reads := ⟨Tx.sized_written h.size, hsize, fun input hmem =>
    (h.inputs input hmem).utxo⟩
  unfold Psbt.Accepted
  rw [← hsame, psbtDeserialize_psbtSerialize htidy hreads]
  rfl

/-! ## Combiner -/

/-- An item of an input that can be read where it is written. -/
def PsbtInputItem.Loads : PsbtInputItem → Prop
  | .nonWitnessUtxo tx => tx.reread.isSome ∧ (txSerialize tx).length < 2 ^ 32
  | .redeemScript script => script.length < 2 ^ 32
  | .finalScriptSig script => script.length < 2 ^ 32
  | .sighashType _ => True
  | .partialSig ps => ps.pubkey.1.length = 33 ∧ ps.sig.1 ≠ []
  | .keypath kp => kp.pubkey.1.length = 33 ∧ (serPsbtPath kp.fingerprint kp.path).length < 2 ^ 32
  | .unknown u => UnknownKey psbtInTypes u.key ∧ u.key.length < 2 ^ 32 ∧ u.value.length < 2 ^ 32

/-- An item of an output that can be read where it is written. -/
def PsbtOutputItem.Loads : PsbtOutputItem → Prop
  | .redeemScript script => script.length < 2 ^ 32
  | .keypath kp => kp.pubkey.1.length = 33 ∧ (serPsbtPath kp.fingerprint kp.path).length < 2 ^ 32
  | .unknown u => UnknownKey psbtOutTypes u.key ∧ u.key.length < 2 ^ 32 ∧ u.value.length < 2 ^ 32

/-- An item that can be read where it is written. -/
def PsbtItem.Loads : PsbtItem → Prop
  | .input _ e => e.Loads
  | .output _ e => e.Loads
  | .xpub x => (serPsbtPath x.fingerprint x.path).length < 2 ^ 32
  | .unknown u => UnknownKey psbtGlobalTypes u.key ∧ u.key.length < 2 ^ 32 ∧ u.value.length < 2 ^ 32

theorem tidyKeypaths_iff :
    TidyKeypaths keypaths ↔ (keypaths.map PsbtKeypath.pubkey).Nodup ∧
      ∀ kp ∈ keypaths, kp.pubkey.1.length = 33 ∧ (serPsbtPath kp.fingerprint kp.path).length <
        2 ^ 32 := by
  constructor
  · intro h
    exact ⟨h.nodup, fun kp hkp => ⟨h.pubkey kp hkp, h.path kp hkp⟩⟩
  · rintro ⟨hnodup, hall⟩
    exact ⟨fun kp hkp => (hall kp hkp).1, fun kp hkp => (hall kp hkp).2, hnodup⟩

theorem tidyUnknowns_iff {types : List UInt8} {unknowns : List PsbtUnknown} :
    TidyUnknowns types unknowns ↔ (unknowns.map PsbtUnknown.key).Nodup ∧
      ∀ u ∈ unknowns, UnknownKey types u.key ∧ u.key.length < 2 ^ 32 ∧ u.value.length < 2 ^ 32 := by
  constructor
  · intro h
    exact ⟨h.nodup, fun u hu => ⟨h.key u hu, h.size u hu⟩⟩
  · rintro ⟨hnodup, hall⟩
    exact ⟨fun u hu => (hall u hu).1, fun u hu => (hall u hu).2, hnodup⟩

/-- A map of an input can be read if its items can, and no key stands twice. -/
theorem PsbtInput.loads_iff : input.Loads ↔ input.DupFree ∧ ∀ e, input.Has e → e.Loads := by
  constructor
  · intro h
    obtain ⟨hkeypaths, hkeypath⟩ := tidyKeypaths_iff.mp h.tidy.keypaths
    obtain ⟨hunknowns, hunknown⟩ := tidyUnknowns_iff.mp h.tidy.unknowns
    refine ⟨⟨h.tidy.partialSigs.nodup, hkeypaths, hunknowns⟩, fun e he => ?_⟩
    cases e with
    | nonWitnessUtxo tx => exact h.utxo tx he
    | redeemScript script => exact h.tidy.redeemScript script he
    | finalScriptSig script => exact h.tidy.finalScriptSig script he
    | sighashType sh => trivial
    | partialSig ps => exact ⟨h.tidy.partialSigs.pubkey ps he, h.tidy.partialSigs.sig ps he⟩
    | keypath kp => exact hkeypath kp he
    | unknown u => exact hunknown u he
  · rintro ⟨hdup, hall⟩
    refine ⟨⟨⟨fun ps hps => ?_, fun ps hps => ?_, hdup.partialSigs⟩, fun script hscript => ?_,
      fun script hscript => ?_, ?_, ?_⟩, fun tx htx => ?_⟩
    · exact (hall (.partialSig ps) hps).1
    · exact (hall (.partialSig ps) hps).2
    · exact hall (.redeemScript script) hscript
    · exact hall (.finalScriptSig script) hscript
    · exact tidyKeypaths_iff.mpr ⟨hdup.keypaths, fun kp hkp => hall (.keypath kp) hkp⟩
    · exact tidyUnknowns_iff.mpr ⟨hdup.unknowns, fun u hu => hall (.unknown u) hu⟩
    · exact hall (.nonWitnessUtxo tx) htx

/-- A map of an output can be read if its items can, and no key stands twice. -/
theorem PsbtOutput.tidy_iff {output : PsbtOutput} :
    output.Tidy ↔ output.DupFree ∧ ∀ e, output.Has e → e.Loads := by
  constructor
  · intro h
    obtain ⟨hkeypaths, hkeypath⟩ := tidyKeypaths_iff.mp h.keypaths
    obtain ⟨hunknowns, hunknown⟩ := tidyUnknowns_iff.mp h.unknowns
    refine ⟨⟨hkeypaths, hunknowns⟩, fun e he => ?_⟩
    cases e with
    | redeemScript script => exact h.redeemScript script he
    | keypath kp => exact hkeypath kp he
    | unknown u => exact hunknown u he
  · rintro ⟨hdup, hall⟩
    refine ⟨fun script hscript => ?_, ?_, ?_⟩
    · exact hall (.redeemScript script) hscript
    · exact tidyKeypaths_iff.mpr ⟨hdup.keypaths, fun kp hkp => hall (.keypath kp) hkp⟩
    · exact tidyUnknowns_iff.mpr ⟨hdup.unknowns, fun u hu => hall (.unknown u) hu⟩

theorem Psbt.Loads.dupFree (h : psbt.Loads) : psbt.DupFree where
  xpubs := h.xpubs.nodup
  unknowns := h.unknowns.nodup
  inputs := fun input hmem => (PsbtInput.loads_iff.mp (h.inputs input hmem)).1
  outputs := fun output hmem => (PsbtOutput.tidy_iff.mp (h.outputs output hmem)).1

theorem Psbt.Loads.item (h : psbt.Loads) {e : PsbtItem} (he : e ∈ psbt.items) : e.Loads := by
  have hhas := Psbt.mem_items.mp he
  cases e with
  | input i e =>
    obtain ⟨input, hinput, he⟩ := hhas
    exact (PsbtInput.loads_iff.mp (h.inputs input (List.mem_of_getElem? hinput))).2 e
      (PsbtInput.mem_items.mp he)
  | output i e =>
    obtain ⟨output, houtput, he⟩ := hhas
    exact (PsbtOutput.tidy_iff.mp (h.outputs output (List.mem_of_getElem? houtput))).2 e
      (PsbtOutput.mem_items.mp he)
  | xpub x => exact h.xpubs.path x hhas
  | unknown u => exact (tidyUnknowns_iff.mp h.unknowns).2 u hhas

/-- Other items for the same transaction. -/
theorem Psbt.Loads.of_items (h : psbt.Loads) (hframe : psbt.SameFrame psbt') (hdup : psbt'.DupFree)
    (hall : ∀ e ∈ psbt'.items, e.Loads) : psbt'.Loads := by
  have hhas : ∀ e, psbt'.Has e → e.Loads := fun e he => hall e (Psbt.mem_items.mpr he)
  refine ⟨?_, ?_, ⟨fun x hx => hhas (.xpub x) hx, hdup.xpubs⟩,
    tidyUnknowns_iff.mpr ⟨hdup.unknowns, fun u hu => hhas (.unknown u) hu⟩, ?_, ?_,
      fun input hmem => ?_,
    fun output hmem => ?_⟩
  · rw [hframe.tx]
    exact h.unsigned
  · rw [hframe.tx]
    exact h.size
  · rw [hframe.tx, hframe.inputs]
    exact h.numInputs
  · rw [hframe.tx, hframe.outputs]
    exact h.numOutputs
  · obtain ⟨i, hi⟩ := List.getElem?_of_mem hmem
    refine PsbtInput.loads_iff.mpr ⟨hdup.inputs input hmem, fun e he => ?_⟩
    exact hhas (.input i e) ⟨input, hi, PsbtInput.mem_items.mpr he⟩
  · obtain ⟨i, hi⟩ := List.getElem?_of_mem hmem
    refine PsbtOutput.tidy_iff.mpr ⟨hdup.outputs output hmem, fun e he => ?_⟩
    exact hhas (.output i e) ⟨output, hi, PsbtOutput.mem_items.mpr he⟩

/-- **A combiner** takes from both what can be read. -/
theorem Psbt.Loads.combine {dst src : Psbt} (hdst : dst.Loads) (hsrc : src.Loads)
    (hok : (psbtCombine dst src).2 = true) :
    (psbtCombine dst src).1.Loads := by
  obtain ⟨hcombined, -⟩ := psbtCombine_combined hdst.dupFree hok
  refine hdst.of_items hcombined.frame hcombined.dupFree fun e he => ?_
  rcases hcombined.only e he with hold | ⟨hnew, -⟩
  · exact hdst.item hold
  · exact hsrc.item hnew

/-! ## Creator and updaters -/

theorem psbtCreate_loads (h : psbtCreate tx = some psbt)
    (hsize : (txSerialize tx).length < 2 ^ 32) :
    psbt.Loads := by
  unfold psbtCreate at h
  split_ifs at h with hscripts
  cases h
  refine ⟨?_, hsize, tidyXpubs_nil, tidyUnknowns_nil _, List.length_replicate,
    List.length_replicate, ?_, ?_⟩
  · simpa using hscripts
  · intro input hmem
    rw [List.eq_of_mem_replicate hmem]
    exact ⟨PsbtInput.tidy_empty, fun _ h => by cases h⟩
  · intro output hmem
    rw [List.eq_of_mem_replicate hmem]
    exact PsbtOutput.tidy_empty

/-- Another map for one input, that can be read as well. -/
theorem Psbt.Loads.modifyInput (h : psbt.Loads)
    (hf : ∀ input, psbt.inputs[idx]? = some input → input.Loads → (f input).Loads) :
    (psbt.modifyInput idx f).Loads :=
  { h with
    numInputs := (List.length_modify _ _ _).trans h.numInputs
    inputs := forall_mem_modify h.inputs fun input hinput =>
      hf input hinput (h.inputs input (List.mem_of_getElem? hinput)) }

/-- Another map for one output, that can be read as well. -/
theorem Psbt.Loads.modifyOutput (h : psbt.Loads) {f : PsbtOutput → PsbtOutput}
    (hf : ∀ output, psbt.outputs[idx]? = some output → output.Tidy → (f output).Tidy) :
    (psbt.modifyOutput idx f).Loads :=
  { h with
    numOutputs := (List.length_modify _ _ _).trans h.numOutputs
    outputs := forall_mem_modify h.outputs fun output houtput =>
      hf output houtput (h.outputs output (List.mem_of_getElem? houtput)) }

theorem updateInput_eq_true (h : updateInput psbt idx f = (psbt', true)) :
    psbt' = psbt.modifyInput idx f := by
  unfold updateInput at h
  split_ifs at h
  · cases (Prod.mk.inj h).2
  · exact (Prod.mk.inj h).1.symm

theorem updateOutput_eq_true {f : PsbtOutput → PsbtOutput}
    (h : updateOutput psbt idx f = (psbt', true)) :
    psbt' = psbt.modifyOutput idx f := by
  unfold updateOutput at h
  split_ifs at h
  · cases (Prod.mk.inj h).2
  · exact (Prod.mk.inj h).1.symm

/-- A key path that the reader takes behind others: a key of 33 bytes that none of them has. -/
structure KeypathFits (keypaths : List PsbtKeypath) (pubkey : Bytes) (path : List UInt32) :
    Prop where
  length : pubkey.length = 33
  new : ∀ kp ∈ keypaths, kp.pubkey.1 ≠ pubkey
  size : 4 + 4 * path.length < 2 ^ 32

theorem TidyKeypaths.concat_of_fits (h : TidyKeypaths keypaths) {pubkey : PsbtPubkey}
    {fingerprint : UInt32} {path : List UInt32} (hfits : KeypathFits keypaths pubkey.1 path) :
    TidyKeypaths (keypaths ++ [⟨pubkey, fingerprint, path⟩]) := by
  refine h.concat hfits.length ?_ fun kp hkp heq => hfits.new kp hkp (congrArg Subtype.val heq)
  rw [length_serPsbtPath]
  exact hfits.size

/-! ## Signer -/

theorem mem_putPartialSig {d : PsbtPartialsig} (h : d ∈ putPartialSig ps sigs) :
    d = ps ∨ d ∈ sigs := by
  induction sigs with
  | nil => exact Or.inl (List.mem_singleton.mp h)
  | cons first sigs ih =>
    rw [putPartialSig] at h
    split_ifs at h with hkey
    · rcases List.mem_cons.mp h with rfl | hmem
      · exact Or.inl (by rw [hkey])
      · exact Or.inr (List.mem_cons_of_mem _ hmem)
    · rcases List.mem_cons.mp h with rfl | hmem
      · exact Or.inr List.mem_cons_self
      · exact (ih hmem).imp_right (List.mem_cons_of_mem _)

theorem nodup_putPartialSig (h : (sigs.map PsbtPartialsig.pubkey).Nodup) :
    ((putPartialSig ps sigs).map PsbtPartialsig.pubkey).Nodup := by
  induction sigs with
  | nil => exact List.nodup_singleton _
  | cons first sigs ih =>
    rw [putPartialSig]
    split_ifs with hkey
    · exact h
    · obtain ⟨hfirst, hrest⟩ := List.nodup_cons.mp h
      refine List.nodup_cons.mpr ⟨fun hmem => ?_, ih hrest⟩
      obtain ⟨d, hd, heq⟩ := List.mem_map.mp hmem
      rcases mem_putPartialSig hd with rfl | hd
      · exact hkey heq.symm
      · exact hfirst (List.mem_map.mpr ⟨d, hd, heq⟩)

theorem TidySigs.put (h : TidySigs sigs) (hpubkey : ps.pubkey.1.length = 33)
    (hsig : ps.sig.1 ≠ []) :
    TidySigs (putPartialSig ps sigs) := by
  refine ⟨fun d hd => ?_, fun d hd => ?_, nodup_putPartialSig h.nodup⟩
  · rcases mem_putPartialSig hd with rfl | hd
    · exact hpubkey
    · exact h.pubkey d hd
  · rcases mem_putPartialSig hd with rfl | hd
    · exact hsig
    · exact h.sig d hd

/-- **A signer** puts a signature that can be read. -/
theorem Psbt.Loads.sign (h : psbt.Loads) {privkey : Bytes}
    (hsign : psbtSignInput sp psbt idx privkey = some (psbt', true)) : psbt'.Loads := by
  rcases psbtSignInput_eq_some hsign with rfl | ⟨ps, hpubkey, hsig, rfl⟩
  · exact h
  · exact h.modifyInput fun input _ hinput =>
      ⟨{ hinput.tidy with partialSigs := hinput.tidy.partialSigs.put hpubkey hsig }, hinput.utxo⟩

/-! ## Finalizer -/

/-- Whatever is signed, the script that the finalizer writes is no longer than a count says. -/
def FinalFits (input : PsbtInput) : Prop :=
  ∀ redeemScript ∈ input.redeemScript, ∀ ps ∈ input.partialSigs,
    (ps.sig.1.length + 1) + (ps.pubkey.1.length + 1) + (redeemScript.length + 3) < 2 ^ 32

theorem length_serScriptPush_sig (sig : PsbtSig) :
    (serScriptPush sig.1).length = sig.1.length + 1 := by
  rw [serScriptPush_of_le (sig.2.trans (by decide)), List.length_cons]

theorem length_serScriptPush_pubkey (pubkey : PsbtPubkey) :
    (serScriptPush pubkey.1).length = pubkey.1.length + 1 := by
  rw [serScriptPush_of_le (pubkey.2.trans (by decide)), List.length_cons]

theorem length_psbtMultisigScriptSig_lt {partialSigs : List PsbtPartialsig} {redeemScript : Bytes}
    (h : psbtMultisigScriptSig partialSigs redeemScript = some ss) : ss.length < 2 ^ 32 := by
  obtain ⟨m, pubkeys, sigs, hparse, hlen, -, rfl⟩ := psbtMultisigScriptSig_eq_some h
  obtain ⟨hscript, hm⟩ := length_of_psbtParseMultisig hparse
  have hpush := length_serScriptPush_le redeemScript
  have hsigs : (sigs.flatMap fun ps => serScriptPush ps.sig.1).length ≤ sigs.length * 75 := by
    rw [List.length_flatMap]
    refine (List.sum_le_card_nsmul _ 75 fun n hn => ?_).trans_eq (by rw [List.length_map]; rfl)
    obtain ⟨ps, -, rfl⟩ := List.mem_map.mp hn
    rw [length_serScriptPush_sig]
    exact Nat.succ_le_succ ps.sig.2
  rw [List.cons_append, List.length_cons, List.length_append]
  omega

theorem length_psbtFinalScriptSig_lt {spk : Bytes} (hfits : FinalFits input)
    (h : psbtFinalScriptSig input spk = some ss) : ss.length < 2 ^ 32 := by
  rcases psbtFinalScriptSig_eq_some h with
    ⟨-, ps, -, rfl⟩ | ⟨-, redeemScript, hredeem, ⟨-, ps, hsigs, rfl⟩ | ⟨-, hmultisig⟩⟩
  · have hsig : ps.sig.1.length ≤ 74 := ps.sig.2
    have hpubkey : ps.pubkey.1.length ≤ 33 := ps.pubkey.2
    rw [List.length_append, length_serScriptPush_sig, length_serScriptPush_pubkey]
    omega
  · have hall := hfits redeemScript hredeem ps (hsigs ▸ List.mem_singleton_self ps)
    have hpush := length_serScriptPush_le redeemScript
    rw [List.length_append, List.length_append, length_serScriptPush_sig,
      length_serScriptPush_pubkey]
    omega
  · exact length_psbtMultisigScriptSig_lt hmultisig

/-- **A finalizer** gives an input a script that can be read. -/
theorem Psbt.Loads.finalize (h : psbt.Loads)
    (hfits : ∀ input, psbt.inputs[idx]? = some input → FinalFits input)
    (hfinal : psbtFinalizeInput psbt idx = some (psbt', true)) : psbt'.Loads := by
  cases hinput : psbt.inputs[idx]? with
  | none =>
    unfold psbtFinalizeInput at hfinal
    rw [hinput] at hfinal
    cases hfinal
  | some input =>
    cases hscript : input.finalScriptSig with
    | some script =>
      rw [psbtFinalizeInput_of_final hinput (by rw [hscript]; rfl)] at hfinal
      cases hfinal
      exact h
    | none =>
      rcases psbtFinalizeInput_eq_some hinput hscript hfinal with
        ⟨-, hfalse⟩ | ⟨_, _, _, ss, _, _, _, hss, rfl⟩
      · cases hfalse
      have hlen := length_psbtFinalScriptSig_lt (hfits input hinput) hss
      refine h.modifyInput fun input _ hloads => ⟨?_, hloads.utxo⟩
      exact {
        partialSigs := tidySigs_nil
        redeemScript := fun _ hnone => by cases hnone
        finalScriptSig := fun _ hsome => Option.some.inj hsome ▸ hlen
        keypaths := tidyKeypaths_nil
        unknowns := hloads.tidy.unknowns }

/-! ## Runs -/

/-- The calls that change a partially signed transaction. -/
inductive PsbtCall where
  | inputSetUtxo (idx : ℕ) (utxo : Tx)
  | inputSetRedeemscript (idx : ℕ) (script : Bytes)
  | inputSetSighash (idx : ℕ) (sighashType : UInt32)
  | inputAddKeypath (idx : ℕ) (pubkey : Bytes) (fingerprint : UInt32) (path : List UInt32)
  | outputSetRedeemscript (idx : ℕ) (script : Bytes)
  | outputAddKeypath (idx : ℕ) (pubkey : Bytes) (fingerprint : UInt32) (path : List UInt32)
  | signInput (idx : ℕ) (privkey : Bytes)
  | combine (src : Psbt)
  | finalizeInput (idx : ℕ)

/-- What a call leaves behind and returns. -/
def psbtCall (sp : SignPlatform) (psbt : Psbt) : PsbtCall → Option (Psbt × Bool)
  | .inputSetUtxo idx utxo => some (psbtInputSetUtxo psbt idx utxo)
  | .inputSetRedeemscript idx script => some (psbtInputSetRedeemscript psbt idx script)
  | .inputSetSighash idx sighashType => some (psbtInputSetSighash psbt idx sighashType)
  | .inputAddKeypath idx pubkey fingerprint path =>
    some (psbtInputAddKeypath psbt idx pubkey fingerprint path)
  | .outputSetRedeemscript idx script => some (psbtOutputSetRedeemscript psbt idx script)
  | .outputAddKeypath idx pubkey fingerprint path =>
    some (psbtOutputAddKeypath psbt idx pubkey fingerprint path)
  | .signInput idx privkey => psbtSignInput sp psbt idx privkey
  | .combine src => some (psbtCombine psbt src)
  | .finalizeInput idx => psbtFinalizeInput psbt idx

/-- The runs of calls that return true, from what the creator makes of a transaction. -/
def psbtRuns (sp : SignPlatform) (tx : Tx) : TransitionSystem Psbt PsbtCall where
  init := fun psbt => psbtCreate tx = some psbt
  step := fun psbt call => (psbtCall sp psbt call).bind fun (psbt', ok) =>
    if ok then some psbt' else none

/-- Nothing too long, no key path that the reader refuses, and only sources that can be read
themselves. -/
def PsbtCall.Fits (psbt : Psbt) : PsbtCall → Prop
  | .inputSetUtxo _ utxo => utxo.reread.isSome ∧ (txSerialize utxo).length < 2 ^ 32
  | .inputSetRedeemscript _ script => script.length < 2 ^ 32
  | .inputSetSighash _ _ => True
  | .inputAddKeypath idx pubkey _ path =>
    ∀ input, psbt.inputs[idx]? = some input → KeypathFits input.keypaths pubkey path
  | .outputSetRedeemscript _ script => script.length < 2 ^ 32
  | .outputAddKeypath idx pubkey _ path =>
    ∀ output, psbt.outputs[idx]? = some output → KeypathFits output.keypaths pubkey path
  | .signInput _ _ => True
  | .combine src => src.Loads
  | .finalizeInput idx => ∀ input, psbt.inputs[idx]? = some input → FinalFits input

theorem psbtRuns_step {call : PsbtCall} (h : (psbtRuns sp tx).step psbt call = some psbt') :
    psbtCall sp psbt call = some (psbt', true) := by
  obtain ⟨⟨left, ok⟩, hcall, hok⟩ := Option.bind_eq_some_iff.mp h
  cases ok with
  | false => cases hok
  | true =>
    cases hok
    exact hcall

/-- **One call** that returns true keeps what can be read. -/
theorem Psbt.Loads.call {call : PsbtCall} (h : psbt.Loads) (hfits : call.Fits psbt)
    (hcall : psbtCall sp psbt call = some (psbt', true)) : psbt'.Loads := by
  cases call with
  | inputSetUtxo idx utxo =>
    rw [updateInput_eq_true (Option.some.inj hcall)]
    exact h.modifyInput fun input _ hinput =>
      ⟨{ hinput.tidy with }, fun tx htx => Option.some.inj htx ▸ hfits⟩
  | inputSetRedeemscript idx script =>
    rw [updateInput_eq_true (Option.some.inj hcall)]
    exact h.modifyInput fun input _ hinput =>
      ⟨{ hinput.tidy with redeemScript := fun s hs => Option.some.inj hs ▸ hfits }, hinput.utxo⟩
  | inputSetSighash idx sighashType =>
    rw [updateInput_eq_true (Option.some.inj hcall)]
    exact h.modifyInput fun input _ hinput => ⟨{ hinput.tidy with }, hinput.utxo⟩
  | inputAddKeypath idx pubkey fingerprint path =>
    have hadd := Option.some.inj hcall
    unfold psbtInputAddKeypath at hadd
    split_ifs at hadd with hlong
    · cases hadd
    · rw [updateInput_eq_true hadd]
      exact h.modifyInput fun input hinput hloads =>
        ⟨{ hloads.tidy with keypaths := hloads.tidy.keypaths.concat_of_fits (hfits input hinput) },
          hloads.utxo⟩
  | outputSetRedeemscript idx script =>
    rw [updateOutput_eq_true (Option.some.inj hcall)]
    exact h.modifyOutput fun output _ houtput =>
      { houtput with redeemScript := fun s hs => Option.some.inj hs ▸ hfits }
  | outputAddKeypath idx pubkey fingerprint path =>
    have hadd := Option.some.inj hcall
    unfold psbtOutputAddKeypath at hadd
    split_ifs at hadd with hlong
    · cases hadd
    · rw [updateOutput_eq_true hadd]
      exact h.modifyOutput fun output houtput htidy =>
        { htidy with keypaths := htidy.keypaths.concat_of_fits (hfits output houtput) }
  | signInput idx privkey => exact h.sign hcall
  | combine src =>
    obtain ⟨hleft, hok⟩ := Prod.mk.inj (Option.some.inj hcall)
    rw [← hleft]
    exact h.combine hfits hok
  | finalizeInput idx => exact h.finalize hfits hcall

/-- **Every run** of calls that fit leaves something that can be read where it is written. -/
theorem psbtRuns_accepted {sp : SignPlatform} {tx : Tx} (hsize : (txSerialize tx).length < 2 ^ 32)
    {psbt : Psbt} (h : (psbtRuns sp tx).Reach (fun psbt call => call.Fits psbt) psbt) : psbt.Loads ∧
    psbt.Accepted := by
  have hloads : psbt.Loads := h.invariant (fun _ hinit => psbtCreate_loads hinit hsize)
    fun _ _ _ hloads hfits hstep => hloads.call hfits (psbtRuns_step hstep)
  exact ⟨hloads, hloads.accepted⟩

/-- A key path for the first input. -/
def keypathCall : PsbtCall := .inputAddKeypath 0 (2 :: List.replicate 32 1) 0 []

/-- One input with a hash type, and a number of key paths of one key. -/
def keypathPsbt (sighashType : Option UInt32) (n : ℕ) : Psbt where
  tx := oneInputTx
  version := 0
  xpubs := []
  inputs := [{ sighashType := sighashType
               keypaths := List.replicate n ⟨⟨2 :: List.replicate 32 1, by decide⟩, 0, []⟩ }]
  outputs := []
  unknowns := []

theorem psbtRuns_init_keypathPsbt :
    (psbtRuns sampleSigner oneInputTx).init (keypathPsbt none 0) := rfl

theorem psbtRuns_accepted_keypathPsbt :
    (keypathPsbt (some 1) 1).Loads ∧ (keypathPsbt (some 1) 1).Accepted := by
  have hrun : (psbtRuns sampleSigner oneInputTx).run (keypathPsbt none 0) [keypathCall,
    .inputSetSighash 0 1] =
      some (keypathPsbt (some 1) 1) := rfl
  have hmeets : (psbtRuns sampleSigner oneInputTx).Meets (fun psbt call => call.Fits psbt)
    (keypathPsbt none 0) [keypathCall, .inputSetSighash 0 1] := by
    refine ⟨fun input hinput => ?_, fun _ _ => ⟨trivial, fun _ _ => trivial⟩⟩
    cases hinput
    exact ⟨by decide, List.forall_mem_nil _, by decide⟩
  exact psbtRuns_accepted (by decide) (.of_run (.init psbtRuns_init_keypathPsbt) hmeets hrun)

/-- A key path can be added twice. -/
theorem not_psbtRuns_accepted :
    ¬ ∀ (sp : SignPlatform) (tx : Tx) (psbt : Psbt), (psbtRuns sp tx).Reachable psbt →
    psbt.Accepted := by
  intro h
  have hrun : (psbtRuns sampleSigner oneInputTx).run (keypathPsbt none 0) [keypathCall,
    keypathCall] =
      some (keypathPsbt none 2) := rfl
  have haccepted := h _ _ _ (TransitionSystem.reachable_of_run psbtRuns_init_keypathPsbt hrun)
  have hrefused : psbtDeserialize (psbtSerialize (keypathPsbt none 2)) = none := by decide +kernel
  rw [Psbt.Accepted, hrefused] at haccepted
  cases haccepted

end Libdogecoin
