/-
# Reading back a partially signed transaction

A tidy map is written as a row of pairs that its reader takes up one after the other. What is lost
on the way are scripts that are empty, and a previous transaction is read as its bytes tell.

* `psbtDeserialize_psbtSerialize` : what is read back of tidy maps.
-/
import Libdogecoin.PsbtTidy

namespace Libdogecoin

/-! ## The pairs that are written -/

/-- The pair of a script, if there is one that is not empty. -/
def scriptPairs (type : UInt8) (script : Option Bytes) : List (Bytes × Bytes) :=
  (script.filter (·.length > 0)).toList.map fun script => ([type], script)

/-- The pairs of derivation paths. -/
def keypathPairs (type : UInt8) (keypaths : List PsbtKeypath) : List (Bytes × Bytes) :=
  keypaths.map fun kp => (type :: kp.pubkey.1, serPsbtPath kp.fingerprint kp.path)

/-- The pairs that were not understood, as they are. -/
def unknownPairs (unknowns : List PsbtUnknown) : List (Bytes × Bytes) :=
  unknowns.map fun u => (u.key, u.value)

/-- The pairs of the global map. -/
def psbtGlobalPairs (psbt : Psbt) : List (Bytes × Bytes) :=
  [([psbtGlobalUnsignedTx], txSerialize psbt.tx)] ++
    (psbt.xpubs.map (fun x => (psbtGlobalXpub :: x.xpub.1, serPsbtPath x.fingerprint x.path)) ++
    ((if psbt.version ≠ psbtVersion0 then [([psbtGlobalVersion], serU32 psbt.version)] else []) ++
    unknownPairs psbt.unknowns))

/-- The pairs of an input. -/
def psbtInputPairs (input : PsbtInput) : List (Bytes × Bytes) :=
  input.nonWitnessUtxo.toList.map (fun tx => ([psbtInNonWitnessUtxo], txSerialize tx)) ++
    (input.partialSigs.map (fun ps => (psbtInPartialSig :: ps.pubkey.1, ps.sig.1)) ++
    (input.sighashType.toList.map (fun sh => ([psbtInSighashType], serU32 sh)) ++
    (scriptPairs psbtInRedeemScript input.redeemScript ++
    (keypathPairs psbtInBip32Derivation input.keypaths ++
    (scriptPairs psbtInFinalScriptsig input.finalScriptSig ++ unknownPairs input.unknowns)))))

/-- The pairs of an output. -/
def psbtOutputPairs (output : PsbtOutput) : List (Bytes × Bytes) :=
  scriptPairs psbtOutRedeemScript output.redeemScript ++
    (keypathPairs psbtOutBip32Derivation output.keypaths ++ unknownPairs output.unknowns)

/-- Pairs are written one behind the other. -/
def serPairs (kvs : List (Bytes × Bytes)) : Bytes := kvs.flatMap fun kv => serPsbtKv kv.1 kv.2

@[simp] theorem serPairs_append (kvs kvs' : List (Bytes × Bytes)) :
    serPairs (kvs ++ kvs') = serPairs kvs ++ serPairs kvs' := List.flatMap_append

variable {α σ β : Type} {type : UInt8} {input : PsbtInput} {output : PsbtOutput} {psbt : Psbt}
  {kvs : List (Bytes × Bytes)} {entry : σ → Bytes → Bytes → Option σ} {s : σ}
  {step : σ → β → Option σ}
  {pair : α → β} {xs acc : List α} {x : α} {keypaths : List PsbtKeypath} {types : List UInt8}
  {unknowns : List PsbtUnknown}

theorem serPairs_map (pair : α → Bytes × Bytes) (xs : List α) :
    serPairs (xs.map pair) = xs.flatMap fun x => serPsbtKv (pair x).1 (pair x).2 :=
  List.flatMap_map _ _ _

theorem serPairs_scriptPairs (type : UInt8) (script : Option Bytes) :
    serPairs (scriptPairs type script) = serPsbtScript type script := by
  cases script with
  | none => rfl
  | some script =>
    by_cases h : script.length > 0
    · simp [scriptPairs, serPsbtScript, serPairs, Option.filter, h]
    · simp [scriptPairs, serPsbtScript, serPairs, Option.filter, h]

theorem psbtGlobalSerialize_eq (psbt : Psbt) :
    psbtGlobalSerialize psbt = serPairs (psbtGlobalPairs psbt) ++ serPsbtSep := by
  unfold psbtGlobalSerialize psbtGlobalPairs
  simp only [serPairs_append, serPairs_map, unknownPairs, serPsbtUnknowns, List.append_assoc]
  congr 1
  · exact (List.append_nil _).symm
  · congr 2
    split_ifs
    · exact (List.append_nil _).symm
    · rfl

theorem psbtInputSerialize_eq (input : PsbtInput) :
    psbtInputSerialize input = serPairs (psbtInputPairs input) ++ serPsbtSep := by
  unfold psbtInputSerialize psbtInputPairs
  simp only [serPairs_append, serPairs_map, serPairs_scriptPairs, keypathPairs,
    serPsbtKeypaths, unknownPairs, serPsbtUnknowns, List.append_assoc]
  cases input.nonWitnessUtxo with
  | none =>
    cases input.sighashType with
    | none => rfl
    | some sh => simp
  | some tx =>
    cases input.sighashType with
    | none => simp
    | some sh => simp

theorem psbtOutputSerialize_eq (output : PsbtOutput) :
    psbtOutputSerialize output = serPairs (psbtOutputPairs output) ++ serPsbtSep := by
  unfold psbtOutputSerialize psbtOutputPairs
  simp only [serPairs_append, serPairs_map, serPairs_scriptPairs, keypathPairs,
    serPsbtKeypaths, unknownPairs, serPsbtUnknowns, List.append_assoc]

/-! ## Pairs are read back -/

/-- A pair that is read back: its key is not the end of the map. -/
def ReadsBack (kv : Bytes × Bytes) : Prop := kv.1 ≠ [] ∧ FitsCounts kv

theorem deserPsbtKv_serPsbtKv {kv : Bytes × Bytes} (h : ReadsBack kv) (rest : Bytes) :
    deserPsbtKv (serPsbtKv kv.1 kv.2 ++ rest) = some (kv, rest) := by
  obtain ⟨hne, hkey, hval⟩ := h
  have hklen : (UInt32.ofNat kv.1.length).toNat = kv.1.length := UInt32.toNat_ofNat_of_lt' hkey
  have hvlen : (UInt32.ofNat kv.2.length).toNat = kv.2.length := UInt32.toNat_ofNat_of_lt' hval
  have hzero : ¬ UInt32.ofNat kv.1.length = 0 := by
    intro hzero
    rw [hzero] at hklen
    exact hne (List.length_eq_zero_iff.mp hklen.symm)
  unfold deserPsbtKv serPsbtKv
  simp only [List.append_assoc, deserVarlen_serVarlen, Option.bind_eq_bind, Option.bind_some, hzero,
    if_false, hklen, deserBytes_append, hvlen]

theorem deserPairs_serPairs (h : ∀ kv ∈ kvs, ReadsBack kv) {fuel : ℕ} (hfuel : kvs.length < fuel)
    (rest : Bytes) :
    deserPairs fuel (serPairs kvs ++ serPsbtSep ++ rest) = some (kvs, rest) := by
  induction kvs generalizing fuel with
  | nil =>
    obtain ⟨fuel, rfl⟩ : ∃ fuel', fuel = fuel' + 1 :=
      ⟨fuel - 1, by rw [List.length_nil] at hfuel; omega⟩
    rfl
  | cons kv kvs ih =>
    obtain ⟨fuel, rfl⟩ : ∃ fuel', fuel = fuel' + 1 :=
      ⟨fuel - 1, by rw [List.length_cons] at hfuel; omega⟩
    have hkv := h kv List.mem_cons_self
    have hrest := ih (fun kv' hkv' => h kv' (List.mem_cons_of_mem _ hkv'))
      (Nat.lt_of_succ_lt_succ hfuel)
    have hread := deserPsbtKv_serPsbtKv hkv (serPairs kvs ++ serPsbtSep ++ rest)
    have hcons : serPairs (kv :: kvs) ++ serPsbtSep ++ rest =
        serPsbtKv kv.1 kv.2 ++ (serPairs kvs ++ serPsbtSep ++ rest) := by
      simp only [serPairs, List.flatMap_cons, List.append_assoc]
    rw [hcons, deserPairs]
    simp only [hread, Option.bind_eq_bind, Option.bind_some, hkv.1, if_false, hrest]

/-- A map whose pairs are all taken up is read. -/
theorem deserMap_serPairs {s' : σ} (h : ∀ kv ∈ kvs, ReadsBack kv)
    (hfold : kvs.foldlM (fun s kv => entry s kv.1 kv.2) s = some s') (rest : Bytes) :
    deserMap entry (serPairs kvs ++ serPsbtSep ++ rest).length s
      (serPairs kvs ++ serPsbtSep ++ rest) =
      some (s', rest) := by
  have hlen : kvs.length ≤ (serPairs kvs).length := by
    refine length_le_length_flatMap (fun kv hnil => ?_) kvs
    have hlen := congrArg List.length (List.append_eq_nil_iff.mp (List.append_eq_nil_iff.mp
      (List.append_eq_nil_iff.mp hnil).1).1).1
    have hread := deserVarlen_length (deserVarlen_serVarlen (UInt32.ofNat kv.1.length) [])
    rw [List.append_nil, hlen] at hread
    exact Nat.not_lt_zero _ hread
  refine deserMap_eq_some.mpr ⟨kvs, deserPairs_serPairs h ?_ rest, hfold⟩
  simp only [List.length_append, serPsbtSep, List.length_singleton]
  omega

/-! ## Items are taken up one after the other -/

theorem foldlM_append_of {s₁ s₂ : σ} {l₁ l₂ : List β} (h₁ : l₁.foldlM step s = some s₁)
    (h₂ : l₂.foldlM step s₁ = some s₂) : (l₁ ++ l₂).foldlM step s = some s₂ := by
  rw [List.foldlM_append, h₁]
  exact h₂

/-- Every item of a row finds what the items before it have left. -/
theorem foldlM_map_of_prefix (f : List α → σ)
    (h : ∀ acc x, acc ++ [x] <+: xs → step (f acc) (pair x) = some (f (acc ++ [x]))) :
    (xs.map pair).foldlM step (f []) = some (f xs) := by
  have hfrom : ∀ rest acc, acc ++ rest = xs → (rest.map pair).foldlM step (f acc) =
    some (f xs) := by
    intro rest
    induction rest with
    | nil =>
      intro acc hacc
      rw [List.append_nil] at hacc
      rw [hacc]
      rfl
    | cons x rest ih =>
      intro acc hacc
      have hpre : acc ++ [x] <+: xs :=
        ⟨rest, by rw [List.append_assoc, List.singleton_append, hacc]⟩
      rw [List.map_cons, List.foldlM_cons, h acc x hpre, Option.bind_eq_bind, Option.bind_some]
      exact ih (acc ++ [x]) (by rw [List.append_assoc, List.singleton_append, hacc])
  exact hfrom xs [] rfl

theorem mem_of_prefix_concat (h : acc ++ [x] <+: xs) : x ∈ xs :=
  h.subset (List.mem_append_right _ (List.mem_singleton_self x))

/-- Where keys differ, none of the items before has the key. -/
theorem new_of_prefix_concat {κ : Type} {key : α → κ} (h : acc ++ [x] <+: xs)
    (hnodup : (xs.map key).Nodup) :
    ∀ y ∈ acc, key y ≠ key x := by
  intro y hy
  have hsub := (h.map key).sublist.nodup hnodup
  rw [List.map_append, List.map_singleton] at hsub
  exact (List.nodup_append.mp hsub).2.2 (key y) (List.mem_map_of_mem hy) (key x)
    (List.mem_singleton_self _)

/-- An item that may be missing. -/
theorem foldlM_toList (f : Option α → σ) {o : Option α}
    (h : ∀ x ∈ o, step (f none) (pair x) = some (f (some x))) :
    (o.toList.map pair).foldlM step (f none) = some (f o) := by
  cases o with
  | none => rfl
  | some x =>
    rw [Option.toList_some, List.map_singleton, List.foldlM_cons, h x rfl]
    rfl

/-! ## What is read back -/

/-- What is read of a transaction where it was written. -/
def Tx.reread (tx : Tx) : Option Tx := (txDeserialize (txSerialize tx)).map Prod.fst

/-- A transaction with an input is read back as it was. -/
theorem Tx.reread_of_sized {tx : Tx} (hsized : tx.Sized) (hvin : tx.vin ≠ []) :
    tx.reread = some tx := by
  have hread := @txDeserializeEx_serialize _ hsized true (fun _ => hvin) []
  rw [List.append_nil] at hread
  rw [Tx.reread, txDeserialize, hread]
  rfl

/-- A script that is empty is not read back. -/
def rereadScript (script : Option Bytes) : Option Bytes := script.filter (·.length > 0)

/-- What is read back of an input. -/
def PsbtInput.reread (input : PsbtInput) : PsbtInput :=
  { input with
    nonWitnessUtxo := input.nonWitnessUtxo.bind Tx.reread
    redeemScript := rereadScript input.redeemScript
    finalScriptSig := rereadScript input.finalScriptSig }

/-- What is read back of an output. -/
def PsbtOutput.reread (output : PsbtOutput) : PsbtOutput :=
  { output with redeemScript := rereadScript output.redeemScript }

/-- What is read back of a partially signed transaction. -/
def Psbt.reread (psbt : Psbt) : Psbt :=
  { psbt with
    inputs := psbt.inputs.map PsbtInput.reread, outputs := psbt.outputs.map PsbtOutput.reread }

/-- The previous transaction of an input can be read, and fits its pair. -/
def PsbtInput.UtxoReads (input : PsbtInput) : Prop :=
  ∀ tx ∈ input.nonWitnessUtxo, tx.reread.isSome ∧ (txSerialize tx).length < 2 ^ 32

/-- Transactions that can be read where they are written. -/
structure Psbt.Reads (psbt : Psbt) : Prop where
  sized : psbt.tx.Sized
  size : (txSerialize psbt.tx).length < 2 ^ 32
  utxo : ∀ input ∈ psbt.inputs, input.UtxoReads

theorem txSerialize_ne_nil (tx : Tx) : txSerialize tx ≠ [] := by
  intro hnil
  have hlast := (List.append_eq_nil_iff.mp hnil).2
  exact absurd (congrArg List.length hlast) (by rw [serU32, LittleEndian.length_toBytes]; decide)

theorem foldlM_keypaths (h : TidyKeypaths keypaths) (f : List PsbtKeypath → σ)
    (hentry : ∀ acc kp, kp.pubkey.1.length = 33 → (∀ kp' ∈ acc, kp'.pubkey ≠ kp.pubkey) →
      entry (f acc) (type ::
      kp.pubkey.1) (serPsbtPath kp.fingerprint kp.path) = some (f (acc ++ [kp]))) :
    (keypathPairs type keypaths).foldlM (fun s kv => entry s kv.1 kv.2)
    (f []) = some (f keypaths) :=
  foldlM_map_of_prefix f fun acc kp hpre =>
    hentry acc kp (h.pubkey kp (mem_of_prefix_concat hpre)) (new_of_prefix_concat hpre h.nodup)

theorem foldlM_unknowns (h : TidyUnknowns types unknowns) (f : List PsbtUnknown → σ)
    (hentry : ∀ acc u, UnknownKey types u.key → (∀ u' ∈ acc, u'.key ≠ u.key) →
      entry (f acc) u.key u.value =
      some (f (acc ++ [u]))) :
    (unknownPairs unknowns).foldlM (fun s kv => entry s kv.1 kv.2) (f []) = some (f unknowns) :=
  foldlM_map_of_prefix f fun acc u hpre =>
    hentry acc u (h.key u (mem_of_prefix_concat hpre)) (new_of_prefix_concat hpre h.nodup)

/-- The pairs of an input are all taken up. -/
theorem foldlM_psbtInputPairs (h : input.Tidy) (hutxo : input.UtxoReads) :
    (psbtInputPairs input).foldlM (fun s kv => psbtInputEntry s kv.1 kv.2)
    {} = some input.reread := by
  let s₁ : PsbtInput := { nonWitnessUtxo := input.nonWitnessUtxo.bind Tx.reread }
  let s₂ := { s₁ with partialSigs := input.partialSigs }
  let s₃ := { s₂ with sighashType := input.sighashType }
  let s₄ := { s₃ with redeemScript := rereadScript input.redeemScript }
  let s₅ := { s₄ with keypaths := input.keypaths }
  let s₆ := { s₅ with finalScriptSig := rereadScript input.finalScriptSig }
  have hs₁ : (input.nonWitnessUtxo.toList.map fun tx =>
    ([psbtInNonWitnessUtxo], txSerialize tx)).foldlM
      (fun s kv => psbtInputEntry s kv.1 kv.2) {} = some s₁ := by
    refine foldlM_toList (fun o => ({ nonWitnessUtxo := o.bind Tx.reread } : PsbtInput))
      fun tx htx => ?_
    obtain ⟨tx', hreread⟩ := Option.isSome_iff_exists.mp (hutxo tx htx).1
    obtain ⟨⟨tx'', rest⟩, hread, rfl⟩ := Option.map_eq_some_iff.mp hreread
    dsimp only [Option.bind_some]
    rw [hreread]
    exact psbtInputEntry_iff.mpr (.nonWitnessUtxo rfl (txSerialize_ne_nil tx) hread)
  have hs₂ : (input.partialSigs.map fun ps => (psbtInPartialSig :: ps.pubkey.1, ps.sig.1)).foldlM
      (fun s kv => psbtInputEntry s kv.1 kv.2) s₁ = some s₂ :=
    foldlM_map_of_prefix (fun sigs => { s₁ with partialSigs := sigs }) fun acc ps hpre =>
      psbtInputEntry_iff.mpr (.partialSig (h.partialSigs.pubkey ps (mem_of_prefix_concat hpre))
        (h.partialSigs.sig ps (mem_of_prefix_concat hpre))
          (new_of_prefix_concat hpre h.partialSigs.nodup))
  have hs₃ : (input.sighashType.toList.map fun sh => ([psbtInSighashType], serU32 sh)).foldlM
      (fun s kv => psbtInputEntry s kv.1 kv.2) s₂ = some s₃ :=
    foldlM_toList (fun o => { s₂ with sighashType := o }) fun sh _ =>
      psbtInputEntry_iff.mpr (.sighashType rfl (deserPsbtU32_serU32 sh))
  have hs₄ : (scriptPairs psbtInRedeemScript input.redeemScript).foldlM
      (fun s kv => psbtInputEntry s kv.1 kv.2) s₃ = some s₄ :=
    foldlM_toList (fun o => { s₃ with redeemScript := o }) fun script _ =>
      psbtInputEntry_iff.mpr (.redeemScript rfl)
  have hs₅ : (keypathPairs psbtInBip32Derivation input.keypaths).foldlM
      (fun s kv => psbtInputEntry s kv.1 kv.2) s₄ = some s₅ :=
    foldlM_keypaths h.keypaths (fun keypaths => { s₄ with keypaths := keypaths })
      fun acc kp hpubkey hnew =>
      psbtInputEntry_iff.mpr (.keypath hpubkey (deserPsbtPath_serPsbtPath _ _) hnew)
  have hs₆ : (scriptPairs psbtInFinalScriptsig input.finalScriptSig).foldlM
      (fun s kv => psbtInputEntry s kv.1 kv.2) s₅ = some s₆ :=
    foldlM_toList (fun o => { s₅ with finalScriptSig := o }) fun script _ =>
      psbtInputEntry_iff.mpr (.finalScriptSig rfl)
  have hs₇ : (unknownPairs input.unknowns).foldlM (fun s kv => psbtInputEntry s kv.1 kv.2) s₆ =
    some input.reread :=
    foldlM_unknowns h.unknowns (fun unknowns => { s₆ with unknowns := unknowns })
      fun acc u hkey hnew =>
      psbtInputEntry_iff.mpr (.unknown hkey hnew)
  exact foldlM_append_of hs₁ (foldlM_append_of hs₂ (foldlM_append_of hs₃ (foldlM_append_of hs₄
    (foldlM_append_of hs₅ (foldlM_append_of hs₆ hs₇)))))

/-- The pairs of an output are all taken up. -/
theorem foldlM_psbtOutputPairs (h : output.Tidy) :
    (psbtOutputPairs output).foldlM (fun s kv => psbtOutputEntry s kv.1 kv.2)
    {} = some output.reread := by
  let s₁ : PsbtOutput := { redeemScript := rereadScript output.redeemScript }
  let s₂ := { s₁ with keypaths := output.keypaths }
  have hs₁ : (scriptPairs psbtOutRedeemScript output.redeemScript).foldlM
      (fun s kv => psbtOutputEntry s kv.1 kv.2) {} = some s₁ :=
    foldlM_toList (fun o => ({ redeemScript := o } : PsbtOutput)) fun script _ =>
      psbtOutputEntry_iff.mpr (.redeemScript rfl)
  have hs₂ : (keypathPairs psbtOutBip32Derivation output.keypaths).foldlM
      (fun s kv => psbtOutputEntry s kv.1 kv.2) s₁ = some s₂ :=
    foldlM_keypaths h.keypaths (fun keypaths => { s₁ with keypaths := keypaths })
      fun acc kp hpubkey hnew =>
      psbtOutputEntry_iff.mpr (.keypath hpubkey (deserPsbtPath_serPsbtPath _ _) hnew)
  have hs₃ : (unknownPairs output.unknowns).foldlM (fun s kv => psbtOutputEntry s kv.1 kv.2) s₂ =
    some output.reread :=
    foldlM_unknowns h.unknowns (fun unknowns => { s₂ with unknowns := unknowns })
      fun acc u hkey hnew =>
      psbtOutputEntry_iff.mpr (.unknown hkey hnew)
  exact foldlM_append_of hs₁ (foldlM_append_of hs₂ hs₃)

/-- The global map that is read back: a version of zero is not written. -/
def Psbt.rereadGlobal (psbt : Psbt) : PsbtGlobal where
  tx := some psbt.tx
  version := if psbt.version ≠ psbtVersion0 then some psbt.version else none
  xpubs := psbt.xpubs
  unknowns := psbt.unknowns

/-- The pairs of the global map are all taken up. -/
theorem foldlM_psbtGlobalPairs (h : psbt.Tidy) (hsized : psbt.tx.Sized) :
    (psbtGlobalPairs psbt).foldlM (fun s kv => psbtGlobalEntry s kv.1 kv.2)
    {} = some psbt.rereadGlobal := by
  let s₁ : PsbtGlobal := { tx := some psbt.tx }
  let s₂ := { s₁ with xpubs := psbt.xpubs }
  let s₃ := { s₂ with version := if psbt.version ≠ psbtVersion0 then some psbt.version else none }
  have hs₁ : [([psbtGlobalUnsignedTx], txSerialize psbt.tx)].foldlM
      (fun s kv => psbtGlobalEntry s kv.1 kv.2) {} = some s₁ := by
    have hread := @txDeserializeEx_serialize _ hsized false (fun hallow => by cases hallow) []
    rw [List.append_nil] at hread
    have htx := deserPsbtUnsignedTx_eq_some.mpr ⟨hread, h.unsigned⟩
    rw [List.foldlM_cons, psbtGlobalEntry_iff.mpr (.unsignedTx rfl (txSerialize_ne_nil _) htx)]
    rfl
  have hs₂ : (psbt.xpubs.map fun x =>
    (psbtGlobalXpub :: x.xpub.1, serPsbtPath x.fingerprint x.path)).foldlM
      (fun s kv => psbtGlobalEntry s kv.1 kv.2) s₁ = some s₂ :=
    foldlM_map_of_prefix (fun xpubs => { s₁ with xpubs := xpubs }) fun acc x hpre =>
      psbtGlobalEntry_iff.mpr (.xpub (deserPsbtPath_serPsbtPath _ _)
        (new_of_prefix_concat hpre h.xpubs.nodup))
  have hs₃ : (if psbt.version ≠ psbtVersion0 then [([psbtGlobalVersion], serU32 psbt.version)] else
    []).foldlM (fun s kv => psbtGlobalEntry s kv.1 kv.2) s₂ = some s₃ := by
    by_cases hversion : psbt.version ≠ psbtVersion0
    · simp only [s₃, if_pos hversion]
      rw [List.foldlM_cons, psbtGlobalEntry_iff.mpr (.version rfl (deserPsbtU32_serU32 _))]
      rfl
    · simp only [s₃, if_neg hversion]
      rfl
  have hs₄ : (unknownPairs psbt.unknowns).foldlM (fun s kv => psbtGlobalEntry s kv.1 kv.2) s₃ =
      some psbt.rereadGlobal :=
    foldlM_unknowns h.unknowns (fun unknowns => { s₃ with unknowns := unknowns })
      fun acc u hkey hnew =>
      psbtGlobalEntry_iff.mpr (.unknown hkey hnew)
  exact foldlM_append_of hs₁ (foldlM_append_of hs₂ (foldlM_append_of hs₃ hs₄))

/-! ## Every pair is read back -/

theorem readsBack_cons {data val : Bytes} (hdata : data.length ≤ 78) (hval : val.length < 2 ^ 32) :
    ReadsBack (type :: data, val) :=
  ⟨List.cons_ne_nil _ _, by rw [List.length_cons]; omega, hval⟩

theorem readsBack_scriptPairs {script : Option Bytes} (h : ∀ s ∈ script, s.length < 2 ^ 32) :
    ∀ kv ∈ scriptPairs type script, ReadsBack kv := by
  intro kv hkv
  obtain ⟨s, hs, rfl⟩ := List.mem_map.mp hkv
  have hmem : script = some s := (Option.filter_eq_some_iff.mp (Option.mem_toList.mp hs)).1
  exact readsBack_cons (Nat.zero_le _) (h s hmem)

theorem readsBack_keypathPairs (h : TidyKeypaths keypaths) :
    ∀ kv ∈ keypathPairs type keypaths, ReadsBack kv := by
  intro kv hkv
  obtain ⟨kp, hkp, rfl⟩ := List.mem_map.mp hkv
  exact readsBack_cons (by rw [h.pubkey kp hkp]; decide) (h.path kp hkp)

theorem readsBack_unknownPairs (h : TidyUnknowns types unknowns) :
    ∀ kv ∈ unknownPairs unknowns, ReadsBack kv := by
  intro kv hkv
  obtain ⟨u, hu, rfl⟩ := List.mem_map.mp hkv
  obtain ⟨type, data, hkey, -⟩ := h.key u hu
  refine ⟨?_, h.size u hu⟩
  rw [hkey]
  exact List.cons_ne_nil _ _

theorem readsBack_psbtInputPairs (h : input.Tidy) (hutxo : input.UtxoReads) :
    ∀ kv ∈ psbtInputPairs input, ReadsBack kv := by
  intro kv hkv
  simp only [psbtInputPairs, List.mem_append] at hkv
  rcases hkv with hkv | hkv | hkv | hkv | hkv | hkv | hkv
  · obtain ⟨tx, htx, rfl⟩ := List.mem_map.mp hkv
    exact readsBack_cons (Nat.zero_le _) (hutxo tx (Option.mem_toList.mp htx)).2
  · obtain ⟨ps, hps, rfl⟩ := List.mem_map.mp hkv
    have hsig : ps.sig.1.length ≤ 74 := ps.sig.2
    exact readsBack_cons (by rw [h.partialSigs.pubkey ps hps]; decide) (by omega)
  · obtain ⟨sh, -, rfl⟩ := List.mem_map.mp hkv
    exact readsBack_cons (Nat.zero_le _) (by rw [length_serU32]; decide)
  · exact readsBack_scriptPairs h.redeemScript kv hkv
  · exact readsBack_keypathPairs h.keypaths kv hkv
  · exact readsBack_scriptPairs h.finalScriptSig kv hkv
  · exact readsBack_unknownPairs h.unknowns kv hkv

theorem readsBack_psbtOutputPairs (h : output.Tidy) :
    ∀ kv ∈ psbtOutputPairs output, ReadsBack kv := by
  intro kv hkv
  simp only [psbtOutputPairs, List.mem_append] at hkv
  rcases hkv with hkv | hkv | hkv
  · exact readsBack_scriptPairs h.redeemScript kv hkv
  · exact readsBack_keypathPairs h.keypaths kv hkv
  · exact readsBack_unknownPairs h.unknowns kv hkv

theorem readsBack_psbtGlobalPairs (h : psbt.Tidy) (hsize : (txSerialize psbt.tx).length < 2 ^ 32) :
    ∀ kv ∈ psbtGlobalPairs psbt, ReadsBack kv := by
  intro kv hkv
  simp only [psbtGlobalPairs, List.mem_append, List.mem_singleton] at hkv
  rcases hkv with rfl | hkv | hkv | hkv
  · exact readsBack_cons (Nat.zero_le _) hsize
  · obtain ⟨x, hx, rfl⟩ := List.mem_map.mp hkv
    exact readsBack_cons x.xpub.2.le (h.xpubs.path x hx)
  · split_ifs at hkv
    · rw [List.mem_singleton.mp hkv]
      exact readsBack_cons (Nat.zero_le _) (by rw [length_serU32]; decide)
    · cases hkv
  · exact readsBack_unknownPairs h.unknowns kv hkv

/-! ## The maps one behind the other -/

/-- A map of an input is read back. -/
theorem psbtInputDeserialize_serialize (h : input.Tidy) (hutxo : input.UtxoReads) (rest : Bytes) :
    psbtInputDeserialize (psbtInputSerialize input ++ rest) = some (input.reread, rest) := by
  rw [psbtInputSerialize_eq]
  exact deserMap_serPairs (readsBack_psbtInputPairs h hutxo) (foldlM_psbtInputPairs h hutxo) rest

/-- A map of an output is read back. -/
theorem psbtOutputDeserialize_serialize (h : output.Tidy) (rest : Bytes) :
    psbtOutputDeserialize (psbtOutputSerialize output ++ rest) = some (output.reread, rest) := by
  rw [psbtOutputSerialize_eq]
  exact deserMap_serPairs (readsBack_psbtOutputPairs h) (foldlM_psbtOutputPairs h) rest

/-- **What is read back of tidy maps.** -/
theorem psbtDeserialize_psbtSerialize (h : psbt.Tidy) (hreads : psbt.Reads) :
    psbtDeserialize (psbtSerialize psbt) = some psbt.reread := by
  have hglobal := deserMap_serPairs (readsBack_psbtGlobalPairs h hreads.size)
    (foldlM_psbtGlobalPairs h hreads.sized)
    (psbt.inputs.flatMap psbtInputSerialize ++ psbt.outputs.flatMap psbtOutputSerialize)
  have hinputs := deserMany_flatMap_map (fun input hinput rest =>
    psbtInputDeserialize_serialize (h.inputs input hinput) (hreads.utxo input hinput) rest)
    (psbt.outputs.flatMap psbtOutputSerialize)
  have houtputs := deserMany_flatMap_map (fun output houtput rest =>
    psbtOutputDeserialize_serialize (h.outputs output houtput) rest) []
  rw [h.numInputs] at hinputs
  rw [h.numOutputs, List.append_nil] at houtputs
  rw [← psbtGlobalSerialize_eq] at hglobal
  have hdata : psbtSerialize psbt = psbtMagic ++ (psbtGlobalSerialize psbt ++
      (psbt.inputs.flatMap psbtInputSerialize ++ psbt.outputs.flatMap psbtOutputSerialize)) := by
    simp only [psbtSerialize, List.append_assoc]
  have hversion : (psbt.rereadGlobal.version).getD psbtVersion0 = psbt.version := by
    unfold Psbt.rereadGlobal
    by_cases hne : psbt.version ≠ psbtVersion0
    · simp [hne]
    · simp [not_not.mp hne]
  refine psbtDeserialize_eq_some.mpr ⟨?_, psbt.rereadGlobal, _, _, _, _, _, ?_, rfl,
    hinputs, houtputs, ?_⟩
  · rw [hdata, List.take_left]
  · rw [hdata, List.length_append, Nat.add_sub_cancel_left, List.drop_left]
    exact hglobal
  · rw [hversion]
    rfl

end Libdogecoin
