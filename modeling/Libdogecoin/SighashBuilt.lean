/-
# The signature hash of a transaction as it was built

`dogecoin_tx_sighash` empties the script of every input of its copy, without asking if there is one,
and `dogecoin_psbt_sign_input` hashes the transaction that `dogecoin_psbt_create` copied.

* `txSighash_isSome_iff` : the hash of an input in range comes to its end if and only if every input
  has its script;
* `ends_psbtCreate` : a creator takes the inputs that have no script as they are;
* `built_isSome_iff` : both, for every history of constructors.
-/
import Libdogecoin.SighashMemory
import Libdogecoin.TxConstruction
import Libdogecoin.PsbtRoles

namespace Libdogecoin

namespace TxMemory

open HeapProg

variable {h m : Heap MemCell} {p inNum i : ℕ} {fp : Set ℕ} {tx : BuiltTx} {newScript : Bytes}

/-! ## The loop over the scripts -/

variable {txIn : BuiltIn}

theorem stops_sighashScript (hat : builtInLayout.At h p txIn fp) (hnull : ¬ txIn.scriptSig ≠ none) :
    Stops (sighashScript newScript inNum i p) h := by
  cases hat with
  | null hcell hscript => exact Ends.bind_stops (ends_readAs hcell rfl (Stops.bind stops_deref))
  | script hcell hread hscript =>
    exact absurd hscript (by rw [not_not.mp hnull]; exact (Option.some_ne_none _).symm)

/-- **An input without a script stops the loop.** -/
theorem stops_scripts {vin : ℕ} {ins : List BuiltIn} (hat : VectorAt builtInLayout h vin ins fp)
    (hnull : ∃ txIn ∈ ins, ¬ txIn.scriptSig ≠ none) :
    Stops (vectorForEach (sighashScript newScript inNum) vin) h := by
  obtain ⟨hcell, hrow, -⟩ := hat
  refine Ends.bind_stops (ends_readAs hcell rfl ?_)
  refine stops_forEach (fun i h p txIn fp hat hscript => ?_) (fun i h p txIn fp hat =>
    stops_sighashScript hat) hrow hnull 0
  obtain ⟨str, hstr⟩ := Option.ne_none_iff_exists'.mp hscript
  refine (changes_sighashScript newScript inNum i (txInAt_of_builtInAt hat hstr)).mono
    fun _ h' hend => ?_
  obtain ⟨fp', -, hmoves⟩ := hend
  exact ⟨fp', hmoves⟩

/-! ## The call -/

/-- The transaction as it is written. -/
def writtenTx (tx : BuiltTx) : Tx :=
  { version := tx.version, vin := tx.vin.map BuiltIn.written, vout := tx.vout
    locktime := tx.locktime }

/-- A transaction whose inputs have their scripts lies as a parsed one does. -/
theorem txHolds_of_built (hholds : TxOverHolds builtInLayout m p tx) (hscripts : HasScripts tx) :
    TxHolds m p (writtenTx tx) := by
  obtain ⟨vin, vout, ins, outs, hcell, hvin, hins, hvout, houts⟩ := hholds
  obtain ⟨hlen, hzip⟩ := List.forall₂_iff_zip.mp hins
  have hwritten : List.Forall₂ (fun q txIn => txInLayout.Holds m q txIn.written) ins tx.vin := by
    refine List.forall₂_iff_zip.mpr ⟨hlen, fun {q txIn} hmem => ?_⟩
    obtain ⟨fp, hat⟩ := hzip hmem
    obtain ⟨str, hstr⟩ := Option.ne_none_iff_exists'.mp (hscripts txIn (List.of_mem_zip hmem).2)
    rw [BuiltIn.written, hstr]
    exact ⟨fp, txInAt_of_builtInAt hat hstr⟩
  exact ⟨vin, vout, ins, outs, hcell, hvin, List.forall₂_map_right_iff.mpr hwritten, hvout, houts⟩

theorem txSighash_isSome_iff {pf : Platform} {fromPubKey : ℕ} {script : Bytes} {hashtype : UInt32}
    (hholds : TxOverHolds builtInLayout m p tx)
    (hscript : m.read fromPubKey = some (.cstr script)) :
    (txSighash pf p fromPubKey inNum hashtype m).isSome = true ↔
    (inNum < tx.vin.length → HasScripts tx) := by
  have hkeep := hholds
  obtain ⟨vin, vout, ins, outs, hcell, hvin, hins, hvout, houts⟩ := hkeep
  by_cases hn : inNum < tx.vin.length
  · by_cases hscripts : HasScripts tx
    · have hgiven : TxGiven m p (writtenTx tx) true := .outputs (txHolds_of_built hholds hscripts)
      exact iff_of_true (ends_txSighash hgiven hscript).isSome fun _ => hscripts
    · refine iff_of_false (Stops.not_isSome ?_) fun h => hscripts (h hn)
      obtain ⟨txIn, hnot⟩ := not_forall.mp hscripts
      obtain ⟨hmem, hnull⟩ := Classical.not_imp.mp hnot
      refine Ends.bind_stops (ends_readAs hcell rfl
        (Ends.bind_stops (ends_pure (Ends.bind_stops (ends_readAs hvin rfl ?_)))))
      rw [if_neg (by rw [hins.length_eq]; simp [hn])]
      -- the copy has the same null pointer, and the loop over its inputs comes to it
      refine Ends.bind_stops ((ends_txNew_over builtInLayout).mono fun q h₁ hend => ?_)
      obtain ⟨fq, hat₁, hmoves₁⟩ := hend
      refine Ends.bind_stops ((ends_txCopy_over frees_builtIn copies_builtIn hholds hat₁
        hmoves₁).mono fun _ h₂ hend => ?_)
      obtain ⟨fq₂, hat₂, hmoves₂⟩ := hend
      have hown := hmoves₁.trans hmoves₂
      refine Ends.bind_stops (ends_readAs (hown.read_eq hscript) rfl ?_)
      refine Ends.bind_stops ((ends_cstrNewBuf _).mono fun new h₃ hend => ?_)
      obtain ⟨hnew, hmoves₃⟩ := hend
      refine Ends.bind_stops (ends_readAs hnew rfl (Stops.bind ?_))
      obtain ⟨hcell₃, hvin₃, -, -, -⟩ := builtTxLayout.frame hat₂ hmoves₃ (Set.empty_disjoint _)
      refine Ends.bind_stops (ends_readAs hcell₃ rfl (Ends.bind_stops (ends_pure ?_)))
      exact stops_scripts hvin₃ ⟨txIn, hmem, hnull⟩
  · have hstop : inNum ≥ ins.length := by rw [hins.length_eq]; exact Nat.not_lt.mp hn
    -- an index out of range is refused before anything is copied
    have hends : Ends (txSighash pf p fromPubKey inNum hashtype) m fun _ _ => True := by
      refine Ends.bind (ends_readAs hcell rfl
        (Ends.bind (ends_pure (Ends.bind (ends_readAs hvin rfl ?_)))))
      rw [if_pos (Or.inl hstop)]
      exact ends_pure trivial
    exact iff_of_true hends.isSome fun h => absurd h hn

/-! ## Signers of partially signed transactions -/

/-- `dogecoin_psbt_input` in memory: what a signer reads of it. -/
structure PsbtInputCell where
  nonWitnessUtxo : Option ℕ := none
  redeemScript : Option ℕ := none
  finalScriptSig : Option ℕ := none
  sighashType : Option UInt32 := none
  partialSigs : List PsbtPartialsig := []

/-- `dogecoin_psbt` in memory: its transaction and its inputs. -/
structure PsbtCell where
  tx : ℕ
  inputs : List PsbtInputCell

/-- The script of an input is a null pointer or empty. -/
def txInUnsigned (p : ℕ) : TxProg Bool := do
  let txIn ← readAs MemCell.asTxIn p
  let script ← scriptBytes txIn.scriptSig
  pure (decide (script.length = 0))

/-- `dogecoin_psbt_create`. -/
def psbtCreate (tx : ℕ) : TxProg (Option PsbtCell) := do
  let cell ← readAs MemCell.asTx tx
  if cell.vin = none ∨ cell.vout = none then pure none
  else do
    let vin ← deref cell.vin
    let items ← readAs MemCell.asVector vin
    let unsigned ← readEach txInUnsigned items
    -- a script of an input that is not empty is a signature
    if unsigned.all id = false then pure none
    else do
      let new ← txNew
      txCopy new tx
      pure (some ⟨new, List.replicate items.length {}⟩)

/-- The script of an output of the transaction that is spent, if there is such an output and it has
one. -/
def utxoScript (utxo n : ℕ) : TxProg (Option ℕ) := do
  let cell ← readAs MemCell.asTx utxo
  match cell.vout with
  | none => pure none
  | some vout => do
      let items ← readAs MemCell.asVector vout
      match items[n]? with
      | none => pure none
      | some q => do
          let txOut ← readAs MemCell.asTxOut q
          pure txOut.scriptPubkey

/-- The outpoint of an input of a transaction. -/
def txPrevout (tx i : ℕ) : TxProg TxOutpoint := do
  let cell ← readAs MemCell.asTx tx
  let vin ← deref cell.vin
  let items ← readAs MemCell.asVector vin
  let p ← deref items[i]?
  let txIn ← readAs MemCell.asTxIn p
  pure txIn.prevout

/-- `psbt_get_script_for_input`. -/
def psbtGetScriptForInput (kp : KeyPlatform) (psbt : PsbtCell) (input : PsbtInputCell) (i : ℕ) :
    TxProg (Option ℕ) := match input.nonWitnessUtxo with
  | none => pure none
  | some utxo => do
      let prevout ← txPrevout psbt.tx i
      let spent ← txValue utxo
      if txHash kp.toPlatform spent ≠ prevout.hash then pure none
      else do
        let script ← utxoScript utxo prevout.n.toNat
        match script, input.redeemScript with
        | none, _ => pure none
        | some spk, none => pure (some spk)
        | some spk, some redeemScript => do
            let spkBytes ← readAs MemCell.asCstr spk
            -- only a payment to the hash of a script is redeemed with one
            if isPlainScripthash spkBytes = false then pure none
            else do
              let redeemBytes ← readAs MemCell.asCstr redeemScript
              if (kp.getHash160 redeemBytes).1 ≠ (spkBytes.drop 2).take 20 then pure none
              else pure (some redeemScript)

theorem length_pubkeyFromKey_le (sp : SignPlatform) (privkey : Bytes) :
    (pubkeyFromKey sp.curve privkey).1.length ≤ psbtMaxPubkeyLen := Nat.le_of_eq
    (pubkeyFromKey sp.curve privkey).2

/-- A signer puts its signature into the input: nothing defined if there is none, or no room for it
in its buffer. -/
def putSignature (sp : SignPlatform) (psbt : PsbtCell) (idx : ℕ) (privkey : Bytes)
    (sighash : UInt32) (sighashBytes : Uint256) : Option (PsbtCell × Bool) :=
  let pubkey := pubkeyFromKey sp.curve privkey
  match sp.compactToDerNormalized (sp.ecdsaSign privkey sighashBytes) with
  | none => none
  | some sigder =>
    if h : (sigder ++ [sighash.toUInt8]).length ≤ psbtMaxSigLen then
      let ps : PsbtPartialsig := ⟨⟨pubkey.1, length_pubkeyFromKey_le sp privkey⟩,
        ⟨sigder ++ [sighash.toUInt8], h⟩⟩
      some ({ psbt with inputs := psbt.inputs.modify idx fun input =>
        { input with partialSigs := putPartialSig ps input.partialSigs } }, true)
    else none

/-- `dogecoin_psbt_sign_input`. -/
def psbtSignInput (sp : SignPlatform) (psbt : PsbtCell) (idx : ℕ) (privkey : Bytes) :
    TxProg (Option (PsbtCell × Bool)) := match psbt.inputs[idx]? with
  | none => pure (some (psbt, false))
  | some input =>
    if input.finalScriptSig.isSome then pure (some (psbt, true))
    else do
      let script ← psbtGetScriptForInput sp.toKeyPlatform psbt input idx
      match script with
      | none => pure (some (psbt, false))
      | some script =>
        if sp.pubkeyParse (pubkeyFromKey sp.curve privkey).1 = false then pure (some (psbt, false))
        else do
          let sighash := input.sighashType.getD sighashAll
          let hash ← txSighash sp.toPlatform psbt.tx script idx sighash
          match hash with
          | none => pure (some (psbt, false))
          | some (_, sighashBytes) => pure (putSignature sp psbt idx privkey sighash sighashBytes)

/-! ## What a signer looks at -/

theorem ends_txInUnsigned (hholds : builtInLayout.Holds h p txIn) :
    Ends (txInUnsigned p) h fun unsigned h' => unsigned =
      decide ((txIn.scriptSig.getD []).length = 0) ∧ h' = h := by
  obtain ⟨fp, hat⟩ := hholds
  cases hat with
  | null hcell hnull =>
    refine Ends.bind (ends_readAs hcell rfl (Ends.bind (ends_pure (ends_pure ⟨?_, rfl⟩))))
    rw [hnull]
    rfl
  | script hcell hread hscript =>
    refine Ends.bind (ends_readAs hcell rfl
      (Ends.bind (ends_readAs hread rfl (ends_pure ⟨?_, rfl⟩))))
    rw [hscript]
    rfl

theorem ends_txInValue_built (hholds : builtInLayout.Holds h p txIn) :
    Ends (txInValue p) h fun value h' => value = txIn.written ∧ h' = h := by
  obtain ⟨fp, hat⟩ := hholds
  cases hat with
  | null hcell hnull =>
    refine Ends.bind (ends_readAs hcell rfl (Ends.bind (ends_pure (ends_pure ⟨?_, rfl⟩))))
    rw [BuiltIn.written, hnull]
    rfl
  | script hcell hread hscript =>
    refine Ends.bind (ends_readAs hcell rfl
      (Ends.bind (ends_readAs hread rfl (ends_pure ⟨?_, rfl⟩))))
    rw [BuiltIn.written, hscript]
    rfl

/-- A transaction is written in the same way with a script that is empty and without one. -/
theorem ends_txValue_built (hholds : TxOverHolds builtInLayout h p tx) :
    Ends (txValue p) h fun value h' => value = writtenTx tx ∧ h' = h := by
  obtain ⟨vin, vout, ins, outs, hcell, hvin, hins, hvout, houts⟩ := hholds
  refine Ends.bind (ends_readAs hcell rfl (Ends.bind (Ends.bind (ends_readAs hvin rfl ?_))))
  refine (ends_readEach_map (fun _ _ _ => ends_txInValue_built) hins).mono fun values h₁ hend => ?_
  obtain ⟨rfl, rfl⟩ := hend
  refine Ends.bind (Ends.bind (ends_readAs hvout rfl ?_))
  refine (ends_readEach reads_txOutValue houts).mono fun values h₂ hend => ends_pure ?_
  obtain ⟨rfl, rfl⟩ := hend
  exact ⟨rfl, rfl⟩

theorem ends_txPrevout (hholds : TxOverHolds builtInLayout h p tx) (hi : i < tx.vin.length) :
    Ends (txPrevout p i) h fun _ h' => h' = h := by
  obtain ⟨vin, vout, ins, outs, hcell, hvin, hins, -, -⟩ := hholds
  obtain ⟨hlen, hget⟩ := List.forall₂_iff_get.mp hins
  have hlt : i < ins.length := hlen ▸ hi
  refine Ends.bind (ends_readAs hcell rfl
    (Ends.bind (ends_pure (Ends.bind (ends_readAs hvin rfl ?_)))))
  rw [List.getElem?_eq_getElem hlt]
  refine Ends.bind (ends_pure ?_)
  obtain ⟨fp, hat⟩ := hget i hlt hi
  cases hat with
  | null hread hnull => exact Ends.bind (ends_readAs hread rfl (ends_pure rfl))
  | script hread hstr hscript => exact Ends.bind (ends_readAs hread rfl (ends_pure rfl))

theorem ends_utxoScript (hholds : TxOverHolds builtInLayout h p tx) (n : ℕ) :
    Ends (utxoScript p n) h fun script h' => h' = h ∧ ∀ s, script = some s → ∃ str,
      h.read s = some (.cstr str) := by
  obtain ⟨vin, vout, ins, outs, hcell, -, -, hvout, houts⟩ := hholds
  refine Ends.bind (ends_readAs hcell rfl (Ends.bind (ends_readAs hvout rfl ?_)))
  cases hout : outs[n]? with
  | none => exact ends_pure ⟨rfl, fun s heq => absurd heq (Option.some_ne_none s).symm⟩
  | some q =>
    obtain ⟨hlt, rfl⟩ := List.getElem?_eq_some_iff.mp hout
    obtain ⟨hlen, hget⟩ := List.forall₂_iff_get.mp houts
    obtain ⟨fp, hat⟩ := hget n hlt (hlen ▸ hlt)
    cases hat with
    | null hread hempty =>
      refine Ends.bind (ends_readAs hread rfl (ends_pure ⟨rfl, fun s heq => ?_⟩))
      exact absurd heq (Option.some_ne_none s).symm
    | script hread hstr =>
      refine Ends.bind (ends_readAs hread rfl (ends_pure ⟨rfl, fun s heq => ?_⟩))
      exact ⟨_, (Option.some.inj heq) ▸ hstr⟩

/-- The objects of a partially signed transaction: there are as many inputs as its transaction has,
and what they point to is there. -/
structure PsbtHolds (h : Heap MemCell) (psbt : PsbtCell) (tx : BuiltTx) : Prop where
  built : TxOverHolds builtInLayout h psbt.tx tx
  length : psbt.inputs.length = tx.vin.length
  utxo : ∀ input ∈ psbt.inputs, ∀ p, input.nonWitnessUtxo = some p → ∃ spent,
    TxOverHolds builtInLayout h p spent
  redeemScript : ∀ input ∈ psbt.inputs, ∀ p, input.redeemScript = some p → ∃ str,
    h.read p = some (.cstr str)

/-- The script of an input is looked for without changing anything, and it is there if it is
found. -/
theorem ends_psbtGetScriptForInput {kp : KeyPlatform} {psbt : PsbtCell}
    {input : PsbtInputCell} {idx : ℕ} (hholds : PsbtHolds h psbt tx)
    (hinput : psbt.inputs[idx]? = some input) :
    Ends (psbtGetScriptForInput kp psbt input idx) h fun script h' =>
      h' = h ∧ ∀ s, script = some s → ∃ str, h.read s = some (.cstr str) := by
  obtain ⟨hlt, hget⟩ := List.getElem?_eq_some_iff.mp hinput
  have hmem : input ∈ psbt.inputs := hget ▸ List.getElem_mem hlt
  have hnone : ∀ s : ℕ, none = some s → ∃ str, h.read s = some (.cstr str) := fun s heq =>
    absurd heq (Option.some_ne_none s).symm
  unfold psbtGetScriptForInput
  cases hutxo : input.nonWitnessUtxo with
  | none => exact ends_pure ⟨rfl, hnone⟩
  | some utxo =>
    obtain ⟨spent, hspent⟩ := hholds.utxo input hmem utxo hutxo
    refine Ends.bind ((ends_txPrevout hholds.built (hholds.length ▸ hlt)).mono
      fun prevout h₁ hsame => ?_)
    subst hsame
    refine Ends.bind ((ends_txValue_built hspent).mono fun value h₂ hend => ?_)
    obtain ⟨rfl, rfl⟩ := hend
    by_cases hhash : txHash kp.toPlatform (writtenTx spent) ≠ prevout.hash
    · rw [if_pos hhash]
      exact ends_pure ⟨rfl, hnone⟩
    · rw [if_neg hhash]
      refine Ends.bind ((ends_utxoScript hspent _).mono fun script h₃ hend => ?_)
      obtain ⟨rfl, hscript⟩ := hend
      cases script with
      | none => exact ends_pure ⟨rfl, hnone⟩
      | some spk =>
        cases hredeem : input.redeemScript with
        | none => exact ends_pure ⟨rfl, hscript⟩
        | some redeemScript =>
          obtain ⟨spkBytes, hspk⟩ := hscript spk rfl
          obtain ⟨redeemBytes, hbytes⟩ := hholds.redeemScript input hmem redeemScript hredeem
          refine Ends.bind (ends_readAs hspk rfl ?_)
          split
          · exact ends_pure ⟨rfl, hnone⟩
          · refine Ends.bind (ends_readAs hbytes rfl ?_)
            split
            · exact ends_pure ⟨rfl, hnone⟩
            · exact ends_pure ⟨rfl, fun s heq => ⟨redeemBytes, (Option.some.inj heq) ▸ hbytes⟩⟩

/-- A signer comes to the hash: the input is not final, it has a script to be signed, and the key is
valid. -/
def Hashes (sp : SignPlatform) (psbt : PsbtCell) (idx : ℕ) (privkey : Bytes)
    (h : Heap MemCell) : Prop :=
  ∃ input script h', psbt.inputs[idx]? = some input ∧ input.finalScriptSig = none ∧
    psbtGetScriptForInput sp.toKeyPlatform psbt input idx h = some (some script, h') ∧
    sp.pubkeyParse (pubkeyFromKey sp.curve privkey).1 = true

/-- **A signer** comes to its end if and only if every input has its script, or nothing is
hashed. -/
theorem psbtSignInput_isSome_iff {sp : SignPlatform} {psbt : PsbtCell} {idx : ℕ} {privkey : Bytes}
    (hholds : PsbtHolds h psbt tx) :
    (psbtSignInput sp psbt idx privkey h).isSome = true ↔
    (Hashes sp psbt idx privkey h → HasScripts tx) := by
  unfold psbtSignInput
  cases hinput : psbt.inputs[idx]? with
  | none =>
    refine iff_of_true rfl ?_
    rintro ⟨input, script, h', hsome, -⟩
    rw [hinput] at hsome
    cases hsome
  | some input =>
    have hhashes : ∀ script h', psbtGetScriptForInput sp.toKeyPlatform psbt input idx h =
      some (script, h') →
        Hashes sp psbt idx privkey h → script.isSome = true ∧ input.finalScriptSig = none ∧
          sp.pubkeyParse (pubkeyFromKey sp.curve privkey).1 = true := by
      rintro script h' hrun ⟨input', script', h'', hsome, hfinal, hfound, hvalid⟩
      rw [hinput] at hsome
      obtain rfl := Option.some.inj hsome
      obtain ⟨rfl, rfl⟩ := Prod.mk.inj (Option.some.inj (hrun.symm.trans hfound))
      exact ⟨rfl, hfinal, hvalid⟩
    obtain ⟨script, h', hrun, rfl, hread⟩ :=
      @ends_psbtGetScriptForInput _ _ sp.toKeyPlatform _ _ _ hholds hinput
    have hhashes := hhashes script _ hrun
    dsimp only
    by_cases hfinal : input.finalScriptSig.isSome
    · rw [if_pos hfinal]
      -- an input that is final is not hashed
      refine iff_of_true rfl fun h => ?_
      rw [(hhashes h).2.1] at hfinal
      cases hfinal
    rw [if_neg hfinal, bind_run hrun]
    cases script with
    | none => exact iff_of_true rfl fun h => absurd (hhashes h).1 Bool.false_ne_true
    | some script =>
      dsimp only
      by_cases hvalid : sp.pubkeyParse (pubkeyFromKey sp.curve privkey).1 = false
      · rw [if_pos hvalid]
        refine iff_of_true rfl fun h => ?_
        rw [(hhashes h).2.2] at hvalid
        cases hvalid
      -- here the signer comes to the hash
      · have hgoes : Hashes sp psbt idx privkey h' :=
          ⟨input, script, h', hinput, Option.not_isSome_iff_eq_none.mp hfinal, hrun,
            Bool.of_not_eq_false hvalid⟩
        obtain ⟨hlt, -⟩ := List.getElem?_eq_some_iff.mp hinput
        obtain ⟨str, hstr⟩ := hread script rfl
        rw [if_neg hvalid, isSome_bind, txSighash_isSome_iff hholds.built hstr, imp_iff_right hgoes,
          imp_iff_right (hholds.length ▸ hlt)]
        intro hash h''
        cases hash with
        | none => rfl
        | some hash => rfl

/-! ## Creators -/

/-- **A creator** takes a transaction if and only if no input has a script with anything in it, and
copies it as it is. -/
theorem ends_psbtCreate (hholds : TxOverHolds builtInLayout m p tx) :
    Ends (psbtCreate p) m fun out h => if ∀ txIn ∈ tx.vin, (txIn.scriptSig.getD []).length = 0 then
      ∃ psbt fq, out = some psbt ∧ PsbtHolds h psbt tx ∧ Moves m ∅ h fq
      else out = none ∧ h = m := by
  have hkeep := hholds
  obtain ⟨vin, vout, ins, outs, hcell, hvin, hins, hvout, houts⟩ := hkeep
  have hnot : ¬ (some vin = none ∨ some vout = none) := by
    rintro (hnull | hnull)
    · cases hnull
    · cases hnull
  refine Ends.bind (ends_readAs hcell rfl ?_)
  rw [if_neg hnot]
  refine Ends.bind (ends_pure (Ends.bind (ends_readAs hvin rfl (Ends.bind ?_))))
  refine (ends_readEach_map (fun _ _ _ => ends_txInUnsigned) hins).mono fun unsigned h₁ hend => ?_
  obtain ⟨rfl, rfl⟩ := hend
  by_cases hempty : ∀ txIn ∈ tx.vin, (txIn.scriptSig.getD []).length = 0
  · have hall : ((tx.vin.map fun txIn => decide ((txIn.scriptSig.getD []).length = 0)).all id) =
      true := by
      rw [List.all_map, List.all_eq_true]
      exact fun txIn hmem => decide_eq_true (hempty txIn hmem)
    rw [if_neg (by rw [hall]; exact Bool.noConfusion)]
    refine Ends.bind ((ends_txNew_over builtInLayout).mono fun q h₂ hend => ?_)
    obtain ⟨fq, hat₂, hmoves₂⟩ := hend
    refine Ends.bind ((ends_txCopy_over frees_builtIn copies_builtIn hholds hat₂ hmoves₂).mono
      fun _ h₃ hend => ends_pure ?_)
    obtain ⟨fq₃, hat₃, hmoves₃⟩ := hend
    rw [if_pos hempty]
    refine ⟨_, fq₃, rfl, ⟨hat₃.holds, ?_, ?_, ?_⟩, hmoves₂.trans hmoves₃⟩
    · rw [List.length_replicate, hins.length_eq]
    · intro input hmem utxo hsome
      rw [List.eq_of_mem_replicate hmem] at hsome
      cases hsome
    · intro input hmem redeemScript hsome
      rw [List.eq_of_mem_replicate hmem] at hsome
      cases hsome
  · have hall : ((tx.vin.map fun txIn => decide ((txIn.scriptSig.getD []).length = 0)).all id) =
      false := by
      rw [List.all_map, List.all_eq_false]
      obtain ⟨txIn, hnot⟩ := not_forall.mp hempty
      obtain ⟨hmem, hlen⟩ := Classical.not_imp.mp hnot
      exact ⟨txIn, hmem, fun h => hlen (of_decide_eq_true h)⟩
    rw [if_pos hall]
    refine ends_pure ?_
    rw [if_neg hempty]
    exact ⟨rfl, rfl⟩

/-- The updaters and signers behind the creator: the transaction stays, and the inputs may point to
more objects. -/
structure Updated (h : Heap MemCell) (psbt : PsbtCell) (h' : Heap MemCell) (psbt' : PsbtCell) :
    Prop where
  tx : psbt'.tx = psbt.tx
  length : psbt'.inputs.length = psbt.inputs.length
  utxo : ∀ input ∈ psbt'.inputs, ∀ p, input.nonWitnessUtxo = some p → ∃ spent,
    TxOverHolds builtInLayout h' p spent
  redeemScript : ∀ input ∈ psbt'.inputs, ∀ p, input.redeemScript = some p → ∃ str,
    h'.read p = some (.cstr str)
  moves : ∃ fp, Moves h ∅ h' fp

theorem Updated.holds {psbt psbt' : PsbtCell} {h' : Heap MemCell}
    (hupdated : Updated h psbt h' psbt') (hholds : PsbtHolds h psbt tx) :
    PsbtHolds h' psbt' tx := by
  obtain ⟨fp, hmoves⟩ := hupdated.moves
  refine ⟨?_, hupdated.length.trans hholds.length, hupdated.utxo, hupdated.redeemScript⟩
  rw [hupdated.tx]
  exact hholds.built.keep hmoves

/-! ## Histories -/

/-- **Every transaction that is built** can be hashed at an input in range, and signed where a
signer comes to the hash, if and only if every input was added with its script. -/
theorem built_isSome_iff (pf : Platform) (sp : SignPlatform) (c : Construction) (m : Heap MemCell) :
    ∃ p h, c.run m = some (p, h) ∧
      (∀ h' fq, Moves h ∅ h' fq → ∀ fromPubKey script, h'.read fromPubKey = some (.cstr script) →
        ∀ inNum hashtype, ((txSighash pf p fromPubKey inNum hashtype h').isSome = true ↔
          (inNum < c.value.vin.length → c.WithScripts))) ∧
      (∀ psbt h', psbtCreate p h = some (some psbt, h') → ∀ psbt' h'', Updated h' psbt h'' psbt' →
        ∀ idx privkey, ((psbtSignInput sp psbt' idx privkey h'').isSome = true ↔
          (Hashes sp psbt' idx privkey h'' → c.WithScripts))) := by
  obtain ⟨p, h, hrun, fp, hat, -⟩ := @Construction.ends_run m c
  refine ⟨p, h, hrun, fun h' fq hmoves fromPubKey script hscript inNum hashtype => ?_,
    fun psbt h' hcreate psbt' h'' hupdated idx privkey => ?_⟩
  · rw [txSighash_isSome_iff (hat.holds.keep hmoves) hscript, c.hasScripts_iff]
  · obtain ⟨out, h₁, hrun', hend⟩ := ends_psbtCreate hat.holds
    obtain ⟨rfl, rfl⟩ := Prod.mk.inj (Option.some.inj (hrun'.symm.trans hcreate))
    split at hend
    · obtain ⟨psbt₁, fq, heq, hholds, -⟩ := hend
      obtain rfl := Option.some.inj heq
      rw [psbtSignInput_isSome_iff (hupdated.holds hholds), c.hasScripts_iff]
    · cases hend.1

/-- The hash of a transaction with one input of `add_utxo_ts` does not come to its end. -/
theorem not_built_isSome : ¬ ∀ (pf : Platform) (c : Construction) (m : Heap MemCell) (p : ℕ)
    (h : Heap MemCell), c.run m = some (p, h) → ∀ fromPubKey script, h.read fromPubKey =
    some (.cstr script) →
      ∀ inNum hashtype, (txSighash pf p fromPubKey inNum hashtype h).isSome = true := by
  intro hall
  have hstop := hall samplePlatform (.addUtxo .new ⟨Uint256.zero, 0⟩) ⟨[some (.cstr [0x51])]⟩ 3 _
    rfl 0 [0x51] rfl 0 1
  exact absurd hstop Bool.false_ne_true

end TxMemory

end Libdogecoin
