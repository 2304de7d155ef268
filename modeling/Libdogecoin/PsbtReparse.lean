/-
# Writing what was read

Bytes that were read as a partially signed transaction are read again after writing it. The second
reading gives the same unless the first one has found a script without bytes, a previous transaction
without inputs, or a transaction that its own count does not hold any more.

* `psbt_reparse_iff` : exactly then something is lost, in terms of the pairs that were read.
-/
import Libdogecoin.PsbtText
import Libdogecoin.TxReadSize

namespace Libdogecoin

/-! ## What a map has of a kind of pair -/

variable {σ α β : Type} {key val buf rest rest' data : Bytes} {s s' input : PsbtInput} {psbt : Psbt}
  {entry : σ → Bytes → Bytes → Option σ} {fuel : ℕ} {tx : Tx}

/-- Where each pair adds to a field by itself, a row of pairs adds what its members add. -/
theorem foldlM_field {step : σ → β → Option σ} (get : σ → Option α) (adds : β → α → Prop)
    (hstep : ∀ s kv s', step s kv = some s' → ∀ v, get s' = some v ↔ get s = some v ∨ adds kv v)
    {kvs : List β}
    {s s' : σ} (h : kvs.foldlM step s = some s') (v : α) :
    get s' = some v ↔ get s = some v ∨ ∃ kv ∈ kvs, adds kv v := by
  induction kvs generalizing s with
  | nil =>
    cases h
    simp
  | cons kv kvs ih =>
    rw [List.foldlM_cons, Option.bind_eq_bind, Option.bind_eq_some_iff] at h
    obtain ⟨s₁, hfirst, hrest⟩ := h
    rw [ih hrest, hstep s kv s₁ hfirst v, List.exists_mem_cons_iff, or_assoc]

/-- A key of a known type is not one of a pair that is not understood. -/
theorem UnknownKey.ne_cons {types : List UInt8} (h : UnknownKey types key) {type : UInt8}
    (hmem : type ∈ types) :
    key ≠ type :: data := by
  rintro rfl
  exact UnknownKey.cons_iff.mp h hmem

theorem PsbtInput.Takes.redeemScript_iff (h : s.Takes key val s') (v : Bytes) :
    s'.redeemScript = some v ↔ s.redeemScript = some v ∨
    (key, val) = ([psbtInRedeemScript], v) := by
  cases h with
  | redeemScript hnone => simp [hnone]
  | unknown hkey => simp [hkey.ne_cons (show psbtInRedeemScript ∈ psbtInTypes by decide)]
  | _ => simp [psbtInRedeemScript, psbtInNonWitnessUtxo, psbtInPartialSig, psbtInSighashType,
      psbtInBip32Derivation, psbtInFinalScriptsig]

theorem PsbtInput.Takes.finalScriptSig_iff (h : s.Takes key val s') (v : Bytes) :
    s'.finalScriptSig = some v ↔ s.finalScriptSig = some v ∨
    (key, val) = ([psbtInFinalScriptsig], v) := by
  cases h with
  | finalScriptSig hnone => simp [hnone]
  | unknown hkey => simp [hkey.ne_cons (show psbtInFinalScriptsig ∈ psbtInTypes by decide)]
  | _ => simp [psbtInRedeemScript, psbtInNonWitnessUtxo, psbtInPartialSig, psbtInSighashType,
      psbtInBip32Derivation, psbtInFinalScriptsig]

theorem PsbtInput.Takes.nonWitnessUtxo_iff (h : s.Takes key val s') (tx : Tx) :
    s'.nonWitnessUtxo = some tx ↔
      s.nonWitnessUtxo = some tx ∨ key = [psbtInNonWitnessUtxo] ∧ ∃ rest, txDeserialize val =
        some (tx, rest) := by
  cases h with
  | nonWitnessUtxo hnone _ hread => simp [hnone, hread]
  | unknown hkey => simp [hkey.ne_cons (show psbtInNonWitnessUtxo ∈ psbtInTypes by decide)]
  | _ => simp [psbtInRedeemScript, psbtInNonWitnessUtxo, psbtInPartialSig, psbtInSighashType,
      psbtInBip32Derivation, psbtInFinalScriptsig]

theorem PsbtOutput.Takes.redeemScript_iff {s s' : PsbtOutput} (h : s.Takes key val s') (v : Bytes) :
    s'.redeemScript = some v ↔ s.redeemScript = some v ∨
    (key, val) = ([psbtOutRedeemScript], v) := by
  cases h with
  | redeemScript hnone => simp [hnone]
  | keypath => simp [psbtOutRedeemScript, psbtOutBip32Derivation]
  | unknown hkey => simp [hkey.ne_cons (show psbtOutRedeemScript ∈ psbtOutTypes by decide)]

theorem PsbtGlobal.Takes.tx_iff {s s' : PsbtGlobal} (h : s.Takes key val s') (tx : Tx) :
    s'.tx = some tx ↔ s.tx = some tx ∨ key = [psbtGlobalUnsignedTx] ∧
    deserPsbtUnsignedTx val = some tx := by
  cases h with
  | unsignedTx hnone _ hread => simp [hnone, hread]
  | unknown hkey => simp [hkey.ne_cons (show psbtGlobalUnsignedTx ∈ psbtGlobalTypes by decide)]
  | _ => simp [psbtGlobalUnsignedTx, psbtGlobalVersion, psbtGlobalXpub]

section

variable {kvs : List (Bytes × Bytes)}

variable {s s' : PsbtInput}

theorem input_redeemScript_iff (h : kvs.foldlM (fun s kv => psbtInputEntry s kv.1 kv.2) s = some s')
    (v : Bytes) :
    s'.redeemScript = some v ↔ s.redeemScript = some v ∨ ([psbtInRedeemScript], v) ∈ kvs := by
  rw [foldlM_field PsbtInput.redeemScript (fun kv v => kv = ([psbtInRedeemScript], v))
    (fun s kv s' hstep v => (psbtInputEntry_iff.mp hstep).redeemScript_iff v) h v, exists_eq_right]

theorem input_finalScriptSig_iff
    (h : kvs.foldlM (fun s kv => psbtInputEntry s kv.1 kv.2) s = some s') (v : Bytes) :
    s'.finalScriptSig = some v ↔ s.finalScriptSig = some v ∨
    ([psbtInFinalScriptsig], v) ∈ kvs := by
  rw [foldlM_field PsbtInput.finalScriptSig (fun kv v => kv = ([psbtInFinalScriptsig], v))
    (fun s kv s' hstep v => (psbtInputEntry_iff.mp hstep).finalScriptSig_iff v) h v,
      exists_eq_right]

theorem input_nonWitnessUtxo_iff
    (h : kvs.foldlM (fun s kv => psbtInputEntry s kv.1 kv.2) s = some s') (tx : Tx) :
    s'.nonWitnessUtxo = some tx ↔ s.nonWitnessUtxo = some tx ∨
      ∃ kv ∈ kvs, kv.1 = [psbtInNonWitnessUtxo] ∧ ∃ rest, txDeserialize kv.2 = some (tx, rest) :=
  foldlM_field PsbtInput.nonWitnessUtxo
    (fun kv tx => kv.1 = [psbtInNonWitnessUtxo] ∧ ∃ rest, txDeserialize kv.2 = some (tx, rest))
    (fun _ _ _ hstep tx => (psbtInputEntry_iff.mp hstep).nonWitnessUtxo_iff tx) h tx

theorem output_redeemScript_iff {s s' : PsbtOutput}
    (h : kvs.foldlM (fun s kv => psbtOutputEntry s kv.1 kv.2) s = some s') (v : Bytes) :
    s'.redeemScript = some v ↔ s.redeemScript = some v ∨ ([psbtOutRedeemScript], v) ∈ kvs := by
  rw [foldlM_field PsbtOutput.redeemScript (fun kv v => kv = ([psbtOutRedeemScript], v))
    (fun s kv s' hstep v => (psbtOutputEntry_iff.mp hstep).redeemScript_iff v) h v, exists_eq_right]

theorem global_tx_iff {s s' : PsbtGlobal}
    (h : kvs.foldlM (fun s kv => psbtGlobalEntry s kv.1 kv.2) s = some s') (tx : Tx) :
    s'.tx = some tx ↔ s.tx = some tx ∨
      ∃ kv ∈ kvs, kv.1 = [psbtGlobalUnsignedTx] ∧ deserPsbtUnsignedTx kv.2 = some tx :=
  foldlM_field PsbtGlobal.tx (fun kv tx => kv.1 = [psbtGlobalUnsignedTx] ∧
    deserPsbtUnsignedTx kv.2 = some tx)
    (fun _ _ _ hstep tx => (psbtGlobalEntry_iff.mp hstep).tx_iff tx) h tx

end

/-! ## Nothing is lost -/

/-- Nothing is lost of a transaction that was read with a witness allowed. -/
def Tx.Rereads (tx : Tx) : Prop := tx.vin ≠ [] ∧ (txSerialize tx).length < 2 ^ 32

/-- Nothing is lost of an input. -/
structure PsbtInput.Lossless (input : PsbtInput) : Prop where
  redeemScript : input.redeemScript ≠ some []
  finalScriptSig : input.finalScriptSig ≠ some []
  nonWitnessUtxo : ∀ tx ∈ input.nonWitnessUtxo, tx.Rereads

/-- Nothing is lost of an output. -/
def PsbtOutput.Lossless (output : PsbtOutput) : Prop := output.redeemScript ≠ some []

/-- Nothing is lost of a partially signed transaction. -/
structure Psbt.Lossless (psbt : Psbt) : Prop where
  size : (txSerialize psbt.tx).length < 2 ^ 32
  inputs : ∀ input ∈ psbt.inputs, input.Lossless
  outputs : ∀ output ∈ psbt.outputs, output.Lossless

theorem rereadScript_eq_self_iff {script : Option Bytes} :
    rereadScript script = script ↔ script ≠ some [] := by
  cases script with
  | none => simp [rereadScript]
  | some s =>
    cases s with
    | nil => simp [rereadScript, Option.filter]
    | cons c s => simp [rereadScript, Option.filter]

/-- The transactions that were read have counts for everything in them. -/
theorem psbtInputDeserialize_sized (h : psbtInputDeserialize buf = some (input, rest)) :
    ∀ tx ∈ input.nonWitnessUtxo, tx.Sized := by
  intro tx htx
  obtain ⟨kvs, -, hfold⟩ := deserMap_eq_some.mp h
  rcases (input_nonWitnessUtxo_iff hfold tx).mp htx with hnone | ⟨kv, -, -, rest', hread⟩
  · cases hnone
  · exact sized_of_txDeserializeEx hread

theorem psbtDeserialize_sized (h : psbtDeserialize data = some psbt) :
    psbt.tx.Sized ∧ ∀ input ∈ psbt.inputs, ∀ tx ∈ input.nonWitnessUtxo, tx.Sized := by
  obtain ⟨-, global, buf₁, inputs, buf₂, outputs, buf₃, hglobal, htx, hinputs, -, heq⟩ :=
    psbtDeserialize_eq_some.mp h
  obtain ⟨kvs, -, hfold⟩ := deserMap_eq_some.mp hglobal
  constructor
  · rcases (global_tx_iff hfold psbt.tx).mp htx with hnone | ⟨kv, -, -, hread⟩
    · cases hnone
    · exact sized_of_txDeserializeEx (deserPsbtUnsignedTx_eq_some.mp hread).1
  · rw [heq]
    exact forall_of_deserMany hinputs fun _ _ _ => psbtInputDeserialize_sized

/-! ## A transaction that its count does not hold -/

/-- The first pair of a map has the part of its value that is left of its length. -/
theorem deserPsbtKv_serPsbtKv_cut (type : UInt8) (val rest : Bytes) :
    deserPsbtKv (serPsbtKv [type] val ++ rest) =
      some (([type], val.take (val.length % 2 ^ 32)), val.drop (val.length % 2 ^ 32) ++ rest) := by
  have hle : val.length % 2 ^ 32 ≤ val.length := Nat.mod_le _ _
  have hbytes : deserBytes (UInt32.ofNat val.length).toNat (val ++ rest) =
      some (val.take (val.length % 2 ^ 32), val.drop (val.length % 2 ^ 32) ++ rest) := by
    have hlen : (UInt32.ofNat val.length).toNat = val.length % 2 ^ 32 := UInt32.toNat_ofNat
    rw [hlen, deserBytes, if_neg (by rw [List.length_append]; omega),
      List.take_append_of_le_length hle, List.drop_append_of_le_length hle]
  have hkey : deserBytes (1 : UInt32).toNat
    ([type] ++ (serVarlen (UInt32.ofNat val.length) ++ (val ++ rest))) =
      some ([type], serVarlen (UInt32.ofNat val.length) ++ (val ++ rest)) :=
        deserBytes_append [type] _
  have hone : ¬ (1 : UInt32) = 0 := by decide
  unfold deserPsbtKv serPsbtKv
  rw [List.length_singleton]
  simp only [List.append_assoc, deserVarlen_serVarlen, Option.bind_eq_bind, Option.bind_some]
  show (if (1 : UInt32) = 0 then _ else (deserBytes (1 : UInt32).toNat _).bind _) = _
  rw [if_neg hone, hkey]
  simp only [deserVarlen_serVarlen, Option.bind_some, hbytes]

/-- The first pair is taken up first. -/
theorem deserMap_first {s s' : σ} (hkv : deserPsbtKv buf = some ((key, val), rest))
    (hkey : key ≠ []) (h : deserMap entry fuel s buf = some (s', rest')) :
    ∃ s₁, ∃ kvs : List (Bytes × Bytes), entry s key val = some s₁ ∧
    kvs.foldlM (fun s kv => entry s kv.1 kv.2) s₁ = some s' := by
  obtain ⟨kvs, hpairs, hfold⟩ := deserMap_eq_some.mp h
  cases fuel with
  | zero => cases hpairs
  | succ fuel =>
    simp only [deserPairs, hkv, Option.bind_eq_bind, Option.bind_some, hkey, if_false,
      Option.bind_eq_some_iff] at hpairs
    obtain ⟨⟨kvs', rest''⟩, -, heq⟩ := hpairs
    cases heq
    rw [List.foldlM_cons, Option.bind_eq_bind, Option.bind_eq_some_iff] at hfold
    obtain ⟨s₁, hfirst, hrest⟩ := hfold
    exact ⟨s₁, kvs', hfirst, hrest⟩

/-- What was read of a part of the bytes of a transaction is that transaction only if the part is
the whole. -/
theorem length_lt_of_reads_cut {allowWitness : Bool}
    (h : txDeserializeEx ((txSerialize tx).take ((txSerialize tx).length % 2 ^ 32)) allowWitness =
      some (tx, rest)) :
    (txSerialize tx).length < 2 ^ 32 := by
  have hlen := length_txSerialize_le h
  rw [List.length_take] at hlen
  omega

/-- A first pair of this key sets the transaction. -/
theorem psbtInputEntry_nonWitnessUtxo (h : psbtInputEntry {} [psbtInNonWitnessUtxo] val = some s) :
    ∃ tx rest, txDeserialize val = some (tx, rest) ∧ s.nonWitnessUtxo = some tx := by
  simp only [psbtInputEntry, List.length_nil, and_self, if_true, Option.isSome_none,
    Bool.false_eq_true, false_or, Option.ite_none_left_eq_some, Option.map_eq_some_iff] at h
  obtain ⟨-, ⟨tx, rest⟩, hread, rfl⟩ := h
  exact ⟨tx, rest, hread, rfl⟩

theorem psbtGlobalEntry_unsignedTx {s : PsbtGlobal}
    (h : psbtGlobalEntry {} [psbtGlobalUnsignedTx] val = some s) :
    ∃ tx, deserPsbtUnsignedTx val = some tx ∧ s.tx = some tx := by
  simp only [psbtGlobalEntry, List.length_nil, and_self, if_true, Option.isSome_none,
    Bool.false_eq_true, false_or, Option.ite_none_left_eq_some, Option.map_eq_some_iff] at h
  obtain ⟨-, tx, hread, rfl⟩ := h
  exact ⟨tx, hread, rfl⟩

/-- A map of an input is read back as it was only if nothing is lost of it. -/
theorem lossless_of_input_reparse (htidy : input.Tidy)
    (hsized : ∀ tx ∈ input.nonWitnessUtxo, tx.Sized)
    (h : psbtInputDeserialize (psbtInputSerialize input ++ rest) = some (input, rest')) :
    input.Lossless ∧ rest' = rest := by
  have hutxo : ∀ tx ∈ input.nonWitnessUtxo, tx.Rereads := by
    intro tx htx
    obtain ⟨more, hmore⟩ : ∃ more, psbtInputSerialize input ++ rest =
        serPsbtKv [psbtInNonWitnessUtxo] (txSerialize tx) ++ more := by
      obtain ⟨kvs, hkvs⟩ : ∃ kvs, psbtInputPairs input =
        ([psbtInNonWitnessUtxo], txSerialize tx) :: kvs :=
        ⟨_, by rw [psbtInputPairs, htx]; rfl⟩
      rw [psbtInputSerialize_eq, hkvs]
      simp only [serPairs, List.flatMap_cons, List.append_assoc]
      exact ⟨_, rfl⟩
    have hfirst := deserPsbtKv_serPsbtKv_cut psbtInNonWitnessUtxo (txSerialize tx) more
    rw [← hmore] at hfirst
    obtain ⟨s₁, kvs, hentry, hfold⟩ := deserMap_first hfirst (List.cons_ne_nil _ _) h
    obtain ⟨tx', r, hread, hset⟩ := psbtInputEntry_nonWitnessUtxo hentry
    -- no later pair changes the transaction
    have hkept := (input_nonWitnessUtxo_iff hfold tx').mpr (Or.inl hset)
    obtain rfl : tx = tx' := Option.some.inj (htx.symm.trans hkept)
    have hsize := length_lt_of_reads_cut hread
    refine ⟨fun hvin => ?_, hsize⟩
    rw [Nat.mod_eq_of_lt hsize, List.take_length] at hread
    have hshort := length_txSerialize_lt hread hvin
    omega
  have hreads : input.UtxoReads := by
    intro tx htx
    obtain ⟨hvin, hsize⟩ := hutxo tx htx
    rw [Tx.reread_of_sized (hsized tx htx) hvin]
    exact ⟨rfl, hsize⟩
  rw [psbtInputDeserialize_serialize htidy hreads rest] at h
  obtain ⟨heq, hrest⟩ := Prod.mk.inj (Option.some.inj h)
  refine ⟨⟨?_, ?_, hutxo⟩, hrest.symm⟩
  · exact rereadScript_eq_self_iff.mp (congrArg PsbtInput.redeemScript heq)
  · exact rereadScript_eq_self_iff.mp (congrArg PsbtInput.finalScriptSig heq)

/-- The maps of inputs, one after the other. -/
theorem lossless_of_inputs_reparse {inputs : List PsbtInput} (htidy : ∀ input ∈ inputs, input.Tidy)
    (hsized : ∀ input ∈ inputs, ∀ tx ∈ input.nonWitnessUtxo, tx.Sized)
    (h : deserMany psbtInputDeserialize inputs.length (inputs.flatMap psbtInputSerialize ++ rest) =
      some (inputs, rest')) :
    (∀ input ∈ inputs, input.Lossless) ∧ rest' = rest := by
  induction inputs with
  | nil =>
    cases h
    exact ⟨List.forall_mem_nil _, rfl⟩
  | cons input inputs ih =>
    obtain ⟨htidyHead, htidyTail⟩ := List.forall_mem_cons.mp htidy
    obtain ⟨hsizedHead, hsizedTail⟩ := List.forall_mem_cons.mp hsized
    rw [List.length_cons, List.flatMap_cons, List.append_assoc] at h
    simp only [deserMany, Option.bind_eq_bind, Option.bind_eq_some_iff] at h
    obtain ⟨⟨input', buf⟩, hread, ⟨inputs', rest''⟩, hrest, heq⟩ := h
    cases heq
    obtain ⟨hhead, hbuf⟩ := lossless_of_input_reparse htidyHead hsizedHead hread
    dsimp only at hrest
    rw [hbuf] at hrest
    obtain ⟨htail, hend⟩ := ih htidyTail hsizedTail hrest
    exact ⟨List.forall_mem_cons.mpr ⟨hhead, htail⟩, hend⟩

/-- The transaction is read back from its own pair, and only if it is held by the count. -/
theorem size_of_global_reparse {s : PsbtGlobal}
    (h : deserMap psbtGlobalEntry fuel {} (psbtGlobalSerialize psbt ++ rest) = some (s, rest'))
    (htx : s.tx = some psbt.tx) : (txSerialize psbt.tx).length < 2 ^ 32 := by
  obtain ⟨more, hmore⟩ : ∃ more, psbtGlobalSerialize psbt ++ rest =
      serPsbtKv [psbtGlobalUnsignedTx] (txSerialize psbt.tx) ++ more := by
    unfold psbtGlobalSerialize
    simp only [List.append_assoc]
    exact ⟨_, rfl⟩
  have hfirst := deserPsbtKv_serPsbtKv_cut psbtGlobalUnsignedTx (txSerialize psbt.tx) more
  rw [← hmore] at hfirst
  obtain ⟨s₁, kvs, hentry, hfold⟩ := deserMap_first hfirst (List.cons_ne_nil _ _) h
  obtain ⟨tx', hread, hset⟩ := psbtGlobalEntry_unsignedTx hentry
  have hkept := (global_tx_iff hfold tx').mpr (Or.inl hset)
  obtain rfl : psbt.tx = tx' := Option.some.inj (htx.symm.trans hkept)
  exact length_lt_of_reads_cut (deserPsbtUnsignedTx_eq_some.mp hread).1

theorem Psbt.Lossless.reads (h : psbt.Lossless) (hsized : psbt.tx.Sized)
    (hutxo : ∀ input ∈ psbt.inputs, ∀ tx ∈ input.nonWitnessUtxo, tx.Sized) : psbt.Reads where
  sized := hsized
  size := h.size
  utxo := by
    intro input hinput tx htx
    obtain ⟨hvin, hsize⟩ := (h.inputs input hinput).nonWitnessUtxo tx htx
    rw [Tx.reread_of_sized (hutxo input hinput tx htx) hvin]
    exact ⟨rfl, hsize⟩

theorem PsbtInput.Lossless.reread_eq (h : input.Lossless)
    (hsized : ∀ tx ∈ input.nonWitnessUtxo, tx.Sized) :
    input.reread = input := by
  have hutxo : input.nonWitnessUtxo.bind Tx.reread = input.nonWitnessUtxo := by
    cases hcase : input.nonWitnessUtxo with
    | none => rfl
    | some tx => exact Tx.reread_of_sized (hsized tx hcase) (h.nonWitnessUtxo tx hcase).1
  unfold PsbtInput.reread
  rw [hutxo, rereadScript_eq_self_iff.mpr h.redeemScript,
    rereadScript_eq_self_iff.mpr h.finalScriptSig]

/-- What is read back of tidy maps is the same just where nothing is lost. -/
theorem Psbt.Tidy.reparse_iff (h : psbt.Tidy) (hsized : psbt.tx.Sized)
    (hutxo : ∀ input ∈ psbt.inputs, ∀ tx ∈ input.nonWitnessUtxo, tx.Sized) :
    psbtDeserialize (psbtSerialize psbt) = some psbt ↔ psbt.Lossless := by
  constructor
  · intro hback
    obtain ⟨-, global, buf₁, inputs, buf₂, outputs, buf₃, hglobal, htx, hinputs, houtputs, heq⟩ :=
      psbtDeserialize_eq_some.mp hback
    have hdata : psbtSerialize psbt = psbtMagic ++ (psbtGlobalSerialize psbt ++
        (psbt.inputs.flatMap psbtInputSerialize ++ psbt.outputs.flatMap psbtOutputSerialize)) := by
      simp only [psbtSerialize, List.append_assoc]
    rw [hdata, List.length_append, Nat.add_sub_cancel_left, List.drop_left] at hglobal
    have hsize := size_of_global_reparse hglobal htx
    have hsync := deserMap_serPairs (readsBack_psbtGlobalPairs h hsize)
      (foldlM_psbtGlobalPairs h hsized)
      (psbt.inputs.flatMap psbtInputSerialize ++ psbt.outputs.flatMap psbtOutputSerialize)
    rw [← psbtGlobalSerialize_eq, hglobal] at hsync
    obtain ⟨-, rfl⟩ := Prod.mk.inj (Option.some.inj hsync)
    obtain rfl : psbt.inputs = inputs := congrArg Psbt.inputs heq
    obtain rfl : psbt.outputs = outputs := congrArg Psbt.outputs heq
    rw [← h.numInputs] at hinputs
    obtain ⟨hin, rfl⟩ := lossless_of_inputs_reparse h.inputs hutxo hinputs
    refine ⟨hsize, hin, fun output houtput => ?_⟩
    have hback := deserMany_flatMap_map (fun output houtput rest =>
      psbtOutputDeserialize_serialize (h.outputs output houtput) rest) []
    rw [h.numOutputs, List.append_nil, houtputs] at hback
    have hsame : psbt.outputs.map PsbtOutput.reread = psbt.outputs :=
      (Prod.mk.inj (Option.some.inj hback)).1.symm
    have hfix := List.map_inj_left.mp (hsame.trans (List.map_id _).symm) output houtput
    exact rereadScript_eq_self_iff.mp (congrArg PsbtOutput.redeemScript hfix)
  · intro hlossless
    have hinputs : psbt.inputs.map PsbtInput.reread = psbt.inputs :=
      (List.map_congr_left fun input hinput =>
        (hlossless.inputs input hinput).reread_eq (hutxo input hinput)).trans (List.map_id _)
    have houtputs : psbt.outputs.map PsbtOutput.reread = psbt.outputs := by
      refine (List.map_congr_left fun output houtput => ?_).trans (List.map_id _)
      unfold PsbtOutput.reread
      rw [rereadScript_eq_self_iff.mpr (hlossless.outputs output houtput)]
      rfl
    rw [psbtDeserialize_psbtSerialize h (hlossless.reads hsized hutxo), Psbt.reread,
      hinputs, houtputs]

/-! ## In terms of the pairs that were read -/

/-- The pairs of all maps, as they stand in the buffer. -/
structure PsbtMaps where
  global : List (Bytes × Bytes)
  inputs : List (List (Bytes × Bytes))
  outputs : List (List (Bytes × Bytes))

/-- The unsigned transaction in the pairs of a global map. -/
def unsignedTxOf (kvs : List (Bytes × Bytes)) : Option Tx :=
  kvs.findSome? fun kv => if kv.1 = [psbtGlobalUnsignedTx] then deserPsbtUnsignedTx kv.2 else none

/-- One map of a buffer. -/
def psbtMap (buf : Bytes) : Option (List (Bytes × Bytes) × Bytes) := deserPairs buf.length buf

/-- The pairs of a partially signed transaction: as many maps as its transaction has inputs and
outputs. -/
def psbtMaps (data : Bytes) : Option PsbtMaps := do
  let (global, buf) ← psbtMap (data.drop psbtMagic.length)
  let tx ← unsignedTxOf global
  let (inputs, buf) ← deserMany psbtMap tx.vin.length buf
  let (outputs, _) ← deserMany psbtMap tx.vout.length buf
  some { global := global, inputs := inputs, outputs := outputs }

/-- Nothing is lost of the map of an input: no script is empty, and the previous transaction has
inputs. -/
structure InputMapLossless (kvs : List (Bytes × Bytes)) : Prop where
  redeemScript : ([psbtInRedeemScript], []) ∉ kvs
  finalScriptSig : ([psbtInFinalScriptsig], []) ∉ kvs
  nonWitnessUtxo : ∀ val tx rest, ([psbtInNonWitnessUtxo], val) ∈ kvs → txDeserialize val =
    some (tx, rest) → tx.Rereads

/-- Nothing is lost of the maps. -/
structure PsbtMaps.Lossless (maps : PsbtMaps) : Prop where
  size : ∀ val tx, ([psbtGlobalUnsignedTx], val) ∈ maps.global → deserPsbtUnsignedTx val = some tx →
    (txSerialize tx).length < 2 ^ 32
  inputs : ∀ kvs ∈ maps.inputs, InputMapLossless kvs
  outputs : ∀ kvs ∈ maps.outputs, ([psbtOutRedeemScript], []) ∉ kvs

/-- Maps that are read have their pairs. -/
theorem deserMany_psbtMap {init : σ} {n : ℕ} {xs : List σ}
    (h : deserMany (fun buf => deserMap entry buf.length init buf) n buf = some (xs, rest)) :
    ∃ maps, deserMany psbtMap n buf = some (maps, rest) ∧
      List.Forall₂ (fun kvs x => kvs.foldlM (fun s kv => entry s kv.1 kv.2) init =
        some x) maps xs := by
  induction n generalizing buf xs with
  | zero =>
    cases h
    exact ⟨[], rfl, .nil⟩
  | succ n ih =>
    simp only [deserMany, Option.bind_eq_bind, Option.bind_eq_some_iff] at h
    obtain ⟨⟨x, mid⟩, hx, ⟨ys, rest'⟩, hys, heq⟩ := h
    cases heq
    obtain ⟨kvs, hpairs, hfold⟩ := deserMap_eq_some.mp hx
    obtain ⟨maps, hmaps, hall⟩ := ih hys
    refine ⟨kvs :: maps, ?_, .cons hfold hall⟩
    simp only [deserMany, psbtMap, hpairs, Option.bind_eq_bind, Option.bind_some]
    show (deserMany psbtMap n mid).bind _ = _
    rw [hmaps]
    rfl

/-- The transaction that was read is the one in the pairs. -/
theorem unsignedTxOf_eq {kvs : List (Bytes × Bytes)} {s : PsbtGlobal}
    (h : kvs.foldlM (fun s kv => psbtGlobalEntry s kv.1 kv.2) {} = some s) (htx : s.tx = some tx) :
    unsignedTxOf kvs = some tx := by
  have hiff := global_tx_iff h
  cases hfind : unsignedTxOf kvs with
  | none =>
    rcases (hiff tx).mp htx with hnone | ⟨kv, hkv, hkey, hread⟩
    · cases hnone
    · have hall := List.findSome?_eq_none_iff.mp hfind kv hkv
      rw [if_pos hkey, hread] at hall
      cases hall
  | some tx' =>
    obtain ⟨kv, hkv, hread⟩ := List.exists_of_findSome?_eq_some hfind
    rw [Option.ite_none_right_eq_some] at hread
    exact congrArg some (Option.some.inj
      (((hiff tx').mpr (Or.inr ⟨kv, hkv, hread⟩)).symm.trans htx))

/-- What was read of a map loses nothing just where its pairs say so. -/
theorem input_lossless_iff {kvs : List (Bytes × Bytes)}
    (h : kvs.foldlM (fun s kv => psbtInputEntry s kv.1 kv.2) {} = some input) :
    input.Lossless ↔ InputMapLossless kvs := by
  have hredeem := input_redeemScript_iff h []
  have hfinal := input_finalScriptSig_iff h []
  have hutxo := input_nonWitnessUtxo_iff h
  simp only [reduceCtorEq, false_or] at hredeem hfinal hutxo
  constructor
  · intro hlossless
    refine ⟨mt hredeem.mpr hlossless.redeemScript, mt hfinal.mpr hlossless.finalScriptSig, ?_⟩
    intro val tx rest hmem hread
    exact hlossless.nonWitnessUtxo tx ((hutxo tx).mpr ⟨_, hmem, rfl, rest, hread⟩)
  · intro hlossless
    refine ⟨mt hredeem.mp hlossless.redeemScript, mt hfinal.mp hlossless.finalScriptSig, ?_⟩
    intro tx htx
    obtain ⟨⟨key, val⟩, hmem, rfl, rest, hread⟩ := (hutxo tx).mp htx
    exact hlossless.nonWitnessUtxo val tx rest hmem hread

theorem output_lossless_iff {kvs : List (Bytes × Bytes)} {output : PsbtOutput}
    (h : kvs.foldlM (fun s kv => psbtOutputEntry s kv.1 kv.2) {} = some output) :
    output.Lossless ↔ ([psbtOutRedeemScript], []) ∉ kvs := by
  have hredeem := output_redeemScript_iff h []
  simp only [reduceCtorEq, false_or] at hredeem
  exact not_congr hredeem

theorem forall_mem_iff_of_forall₂ {R : α → β → Prop} {P : α → Prop} {Q : β → Prop}
    {xs : List α} {ys : List β} (h : List.Forall₂ R xs ys) (hR : ∀ x y, R x y → (Q y ↔ P x)) :
    (∀ y ∈ ys, Q y) ↔ ∀ x ∈ xs, P x := by
  induction h with
  | nil => simp
  | cons hhead _ ih => rw [List.forall_mem_cons, List.forall_mem_cons, hR _ _ hhead, ih]

/-- **Exactly what is lost** by writing what was read. -/
theorem psbt_reparse_iff {data : Bytes} {psbt : Psbt} (h : psbtDeserialize data = some psbt) :
    ∃ maps, psbtMaps data = some maps ∧
    (psbtDeserialize (psbtSerialize psbt) = some psbt ↔ maps.Lossless) := by
  obtain ⟨hsized, hutxo⟩ := psbtDeserialize_sized h
  have hcore := (psbtDeserialize_tidy h).reparse_iff hsized hutxo
  obtain ⟨-, global, buf₁, inputs, buf₂, outputs, buf₃, hglobal, htx, hinputs, houtputs, heq⟩ :=
    psbtDeserialize_eq_some.mp h
  obtain ⟨kvs, hpairs, hfold⟩ := deserMap_eq_some.mp hglobal
  obtain ⟨ins, hins, hinsFold⟩ := deserMany_psbtMap hinputs
  obtain ⟨outs, houts, houtsFold⟩ := deserMany_psbtMap houtputs
  obtain rfl : psbt.inputs = inputs := congrArg Psbt.inputs heq
  obtain rfl : psbt.outputs = outputs := congrArg Psbt.outputs heq
  rw [← List.length_drop] at hpairs
  refine ⟨⟨kvs, ins, outs⟩, ?_, hcore.trans ?_⟩
  · simp only [psbtMaps, psbtMap, hpairs, unsignedTxOf_eq hfold htx, Option.bind_eq_bind,
      Option.bind_some]
    show (deserMany psbtMap _ _).bind _ = _
    rw [hins, Option.bind_some]
    show (deserMany psbtMap _ _).bind _ = _
    rw [houts]
    rfl
  · have hin := forall_mem_iff_of_forall₂ hinsFold fun _ _ hmap => input_lossless_iff hmap
    have hout := forall_mem_iff_of_forall₂ houtsFold fun _ _ hmap => output_lossless_iff hmap
    have hiff := global_tx_iff hfold
    simp only [reduceCtorEq, false_or] at hiff
    constructor
    · intro hlossless
      refine ⟨?_, hin.mp hlossless.inputs, hout.mp hlossless.outputs⟩
      intro val tx hmem hread
      have hsame := (hiff tx).mpr ⟨_, hmem, rfl, hread⟩
      rw [htx] at hsame
      rw [← Option.some.inj hsame]
      exact hlossless.size
    · intro hlossless
      obtain ⟨⟨key, val⟩, hmem, rfl, hread⟩ := (hiff psbt.tx).mp htx
      exact ⟨hlossless.size val psbt.tx hmem hread, hin.mpr hlossless.inputs,
        hout.mpr hlossless.outputs⟩

theorem psbt_reparse_iff_fullPsbt :
    ∃ maps, psbtMaps (psbtSerialize fullPsbt) = some maps ∧
      (psbtDeserialize (psbtSerialize fullPsbt) = some fullPsbt ↔ maps.Lossless) :=
  psbt_reparse_iff (by decide +kernel)

/-- An input with a final script of no bytes. -/
def emptyFinalScript : Bytes :=
  psbtMagic ++ serPsbtKv [psbtGlobalUnsignedTx] (txSerialize oneInputTx) ++ serPsbtSep ++
    serPsbtKv [psbtInFinalScriptsig] [] ++ serPsbtSep

/-- The input is finalized where it was read, and not where it is read again. -/
theorem not_psbt_reparse :
    ∃ psbt, psbtDeserialize emptyFinalScript = some psbt ∧
    psbt.inputs.map PsbtInput.finalScriptSig = [some []] ∧
      (psbtDeserialize (psbtSerialize psbt)).map
      (fun psbt => psbt.inputs.map PsbtInput.finalScriptSig) = some [none] := by
  refine ⟨⟨oneInputTx, 0, [], [{ finalScriptSig := some [] }], [], []⟩, ?_, ?_, ?_⟩
  · decide +kernel
  · rfl
  · decide +kernel

end Libdogecoin
