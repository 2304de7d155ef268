/-
# What reading a partially signed transaction gives

A map that was read is tidy: no key stands in it twice, keys have the length of their type, and
nothing is longer than a count says.

* `psbtDeserialize_tidy` : whatever the bytes were, what was read is tidy.
-/
import Libdogecoin.PsbtEntry

namespace Libdogecoin

/-! ## Tidy maps -/

/-- Derivation paths of different keys of 33 bytes. -/
structure TidyKeypaths (keypaths : List PsbtKeypath) : Prop where
  pubkey : ∀ kp ∈ keypaths, kp.pubkey.1.length = 33
  path : ∀ kp ∈ keypaths, (serPsbtPath kp.fingerprint kp.path).length < 2 ^ 32
  nodup : (keypaths.map PsbtKeypath.pubkey).Nodup

/-- Pairs of different keys of none of the types. -/
structure TidyUnknowns (types : List UInt8) (unknowns : List PsbtUnknown) : Prop where
  key : ∀ u ∈ unknowns, UnknownKey types u.key
  size : ∀ u ∈ unknowns, u.key.length < 2 ^ 32 ∧ u.value.length < 2 ^ 32
  nodup : (unknowns.map PsbtUnknown.key).Nodup

/-- Extended keys that differ. -/
structure TidyXpubs (xpubs : List PsbtXpub) : Prop where
  path : ∀ x ∈ xpubs, (serPsbtPath x.fingerprint x.path).length < 2 ^ 32
  nodup : (xpubs.map PsbtXpub.xpub).Nodup

/-- Signatures that are not empty, of different keys of 33 bytes. -/
structure TidySigs (sigs : List PsbtPartialsig) : Prop where
  pubkey : ∀ ps ∈ sigs, ps.pubkey.1.length = 33
  sig : ∀ ps ∈ sigs, ps.sig.1 ≠ []
  nodup : (sigs.map PsbtPartialsig.pubkey).Nodup

/-- A tidy map of an input. -/
structure PsbtInput.Tidy (input : PsbtInput) : Prop where
  partialSigs : TidySigs input.partialSigs
  redeemScript : ∀ script ∈ input.redeemScript, script.length < 2 ^ 32
  finalScriptSig : ∀ script ∈ input.finalScriptSig, script.length < 2 ^ 32
  keypaths : TidyKeypaths input.keypaths
  unknowns : TidyUnknowns psbtInTypes input.unknowns

/-- A tidy map of an output. -/
structure PsbtOutput.Tidy (output : PsbtOutput) : Prop where
  redeemScript : ∀ script ∈ output.redeemScript, script.length < 2 ^ 32
  keypaths : TidyKeypaths output.keypaths
  unknowns : TidyUnknowns psbtOutTypes output.unknowns

/-- Tidy maps, as many as the transaction has inputs and outputs. -/
structure Psbt.Tidy (psbt : Psbt) : Prop where
  unsigned : ∀ txIn ∈ psbt.tx.vin, txIn.scriptSig = []
  xpubs : TidyXpubs psbt.xpubs
  unknowns : TidyUnknowns psbtGlobalTypes psbt.unknowns
  numInputs : psbt.inputs.length = psbt.tx.vin.length
  numOutputs : psbt.outputs.length = psbt.tx.vout.length
  inputs : ∀ input ∈ psbt.inputs, input.Tidy
  outputs : ∀ output ∈ psbt.outputs, output.Tidy

/-! ## One more item -/

variable {α σ : Type} {fuel : ℕ} {buf rest key val data : Bytes} {xs : List α} {x : α}
  {s : PsbtGlobal}
  {psbt : Psbt}

theorem nodup_map_concat {κ : Type} {key : α → κ} (h : (xs.map key).Nodup)
    (hnew : ∀ y ∈ xs, key y ≠ key x) :
    ((xs ++ [x]).map key).Nodup := by
  rw [List.map_append, List.map_singleton]
  refine List.nodup_append.mpr ⟨h, List.nodup_singleton _, fun a ha b hb => ?_⟩
  obtain ⟨y, hy, rfl⟩ := List.mem_map.mp ha
  rw [List.mem_singleton.mp hb]
  exact hnew y hy

theorem forall_mem_concat {p : α → Prop} (h : ∀ y ∈ xs, p y) (hx : p x) : ∀ y ∈ xs ++ [x], p y := by
  intro y hy
  rcases List.mem_append.mp hy with hmem | hmem
  · exact h y hmem
  · rw [List.mem_singleton.mp hmem]
    exact hx

theorem TidyKeypaths.concat {keypaths : List PsbtKeypath} {kp : PsbtKeypath}
    (h : TidyKeypaths keypaths) (hpubkey : kp.pubkey.1.length = 33)
    (hpath : (serPsbtPath kp.fingerprint kp.path).length < 2 ^ 32)
    (hnew : ∀ kp' ∈ keypaths, kp'.pubkey ≠ kp.pubkey) : TidyKeypaths (keypaths ++ [kp]) where
  pubkey := forall_mem_concat h.pubkey hpubkey
  path := forall_mem_concat h.path hpath
  nodup := nodup_map_concat h.nodup hnew

theorem TidyUnknowns.concat {types : List UInt8} {unknowns : List PsbtUnknown} {u : PsbtUnknown}
    (h : TidyUnknowns types unknowns) (hkey : UnknownKey types u.key)
    (hsize : u.key.length < 2 ^ 32 ∧ u.value.length < 2 ^ 32)
    (hnew : ∀ u' ∈ unknowns, u'.key ≠ u.key) :
    TidyUnknowns types (unknowns ++ [u]) where
  key := forall_mem_concat h.key hkey
  size := forall_mem_concat h.size hsize
  nodup := nodup_map_concat h.nodup hnew

theorem TidyXpubs.concat {xpubs : List PsbtXpub} {x : PsbtXpub} (h : TidyXpubs xpubs)
    (hpath : (serPsbtPath x.fingerprint x.path).length < 2 ^ 32)
    (hnew : ∀ x' ∈ xpubs, x'.xpub ≠ x.xpub) :
    TidyXpubs (xpubs ++ [x]) where
  path := forall_mem_concat h.path hpath
  nodup := nodup_map_concat h.nodup hnew

theorem TidySigs.concat {sigs : List PsbtPartialsig} {ps : PsbtPartialsig} (h : TidySigs sigs)
    (hpubkey : ps.pubkey.1.length = 33) (hsig : ps.sig.1 ≠ [])
    (hnew : ∀ ps' ∈ sigs, ps'.pubkey ≠ ps.pubkey) :
    TidySigs (sigs ++ [ps]) where
  pubkey := forall_mem_concat h.pubkey hpubkey
  sig := forall_mem_concat h.sig hsig
  nodup := nodup_map_concat h.nodup hnew

theorem tidyKeypaths_nil : TidyKeypaths [] where
  pubkey := List.forall_mem_nil _
  path := List.forall_mem_nil _
  nodup := List.nodup_nil

theorem tidyUnknowns_nil (types : List UInt8) : TidyUnknowns types [] where
  key := List.forall_mem_nil _
  size := List.forall_mem_nil _
  nodup := List.nodup_nil

theorem tidyXpubs_nil : TidyXpubs [] where
  path := List.forall_mem_nil _
  nodup := List.nodup_nil

theorem tidySigs_nil : TidySigs [] where
  pubkey := List.forall_mem_nil _
  sig := List.forall_mem_nil _
  nodup := List.nodup_nil

/-- No pair was read yet. -/
theorem PsbtInput.tidy_empty : PsbtInput.Tidy {} where
  partialSigs := tidySigs_nil
  redeemScript := fun _ h => by cases h
  finalScriptSig := fun _ h => by cases h
  keypaths := tidyKeypaths_nil
  unknowns := tidyUnknowns_nil _

theorem PsbtOutput.tidy_empty : PsbtOutput.Tidy {} where
  redeemScript := fun _ h => by cases h
  keypaths := tidyKeypaths_nil
  unknowns := tidyUnknowns_nil _

/-! ## One more pair -/

/-- A pair of a buffer: the lengths are those of counts. -/
def FitsCounts (kv : Bytes × Bytes) : Prop := kv.1.length < 2 ^ 32 ∧ kv.2.length < 2 ^ 32

theorem fitsCounts_of_deserPairs {kvs : List (Bytes × Bytes)}
    (h : deserPairs fuel buf = some (kvs, rest)) :
    ∀ kv ∈ kvs, FitsCounts kv := by
  induction fuel generalizing buf kvs with
  | zero => cases h
  | succ fuel ih =>
    simp only [deserPairs, Option.bind_eq_bind, Option.bind_eq_some_iff] at h
    obtain ⟨⟨⟨key, val⟩, buf'⟩, hkv, h⟩ := h
    split_ifs at h
    · cases h
      exact List.forall_mem_nil _
    · obtain ⟨⟨kvs', rest'⟩, hrest, heq⟩ := Option.bind_eq_some_iff.mp h
      cases heq
      exact List.forall_mem_cons.mpr ⟨(deserPsbtKv_length hkv).2, ih hrest⟩

/-- A map that is read by steps that keep a property has it at the end. -/
theorem foldlM_invariant {β : Type} {step : σ → β → Option σ} {P : σ → Prop}
    {kvs : List β} {s s' : σ} (h : kvs.foldlM step s = some s') (hs : P s)
    (hstep : ∀ kv ∈ kvs, ∀ s s', P s → step s kv = some s' → P s') :
    P s' := by
  induction kvs generalizing s with
  | nil =>
    cases h
    exact hs
  | cons kv kvs ih =>
    rw [List.foldlM_cons, Option.bind_eq_bind, Option.bind_eq_some_iff] at h
    obtain ⟨s₁, hfirst, hrest⟩ := h
    exact ih hrest (hstep kv List.mem_cons_self s s₁ hs hfirst) fun kv' hkv' =>
      hstep kv' (List.mem_cons_of_mem _ hkv')

theorem PsbtInput.Takes.tidy {s s' : PsbtInput} (h : s.Takes key val s')
    (hfits : FitsCounts (key, val)) (hs : s.Tidy) : s'.Tidy := by
  cases h with
  | nonWitnessUtxo => exact { hs with }
  | partialSig hpubkey hsig hnew =>
    exact { hs with partialSigs := hs.partialSigs.concat hpubkey hsig hnew }
  | sighashType => exact { hs with }
  | redeemScript =>
    refine { hs with redeemScript := fun script hscript => ?_ }
    cases hscript
    exact hfits.2
  | keypath hpubkey hpath hnew =>
    have hlen := length_serPsbtPath_le hpath
    exact { hs with keypaths := hs.keypaths.concat hpubkey (Nat.lt_of_le_of_lt hlen hfits.2) hnew }
  | finalScriptSig =>
    refine { hs with finalScriptSig := fun script hscript => ?_ }
    cases hscript
    exact hfits.2
  | unknown hkey hnew => exact { hs with unknowns := hs.unknowns.concat hkey hfits hnew }

theorem PsbtOutput.Takes.tidy {s s' : PsbtOutput} (h : s.Takes key val s')
    (hfits : FitsCounts (key, val)) (hs : s.Tidy) : s'.Tidy := by
  cases h with
  | redeemScript =>
    refine { hs with redeemScript := fun script hscript => ?_ }
    cases hscript
    exact hfits.2
  | keypath hpubkey hpath hnew =>
    have hlen := length_serPsbtPath_le hpath
    exact { hs with keypaths := hs.keypaths.concat hpubkey (Nat.lt_of_le_of_lt hlen hfits.2) hnew }
  | unknown hkey hnew => exact { hs with unknowns := hs.unknowns.concat hkey hfits hnew }

/-- What the global map has given so far is tidy. -/
structure PsbtGlobal.Tidy (s : PsbtGlobal) : Prop where
  unsigned : ∀ tx ∈ s.tx, ∀ txIn ∈ tx.vin, txIn.scriptSig = []
  xpubs : TidyXpubs s.xpubs
  unknowns : TidyUnknowns psbtGlobalTypes s.unknowns

theorem PsbtGlobal.tidy_empty : PsbtGlobal.Tidy {} where
  unsigned := fun _ h => by cases h
  xpubs := tidyXpubs_nil
  unknowns := tidyUnknowns_nil _

theorem deserPsbtUnsignedTx_eq_some {tx : Tx} :
    deserPsbtUnsignedTx val = some tx ↔
      txDeserializeEx val false = some (tx, []) ∧ ∀ txIn ∈ tx.vin, txIn.scriptSig = [] := by
  unfold deserPsbtUnsignedTx
  simp only [Option.bind_eq_bind, Option.bind_eq_some_iff]
  constructor
  · rintro ⟨⟨tx', rest⟩, hread, h⟩
    by_cases hrest : rest.length = 0
    · by_cases hany : (tx'.vin.any fun txIn => txIn.scriptSig.length > 0) = true
      · simp [hrest, hany] at h
      · simp only [hrest, ne_eq, not_true_eq_false, if_false, hany, Bool.false_eq_true] at h
        obtain rfl : tx' = tx := by simpa using h
        refine ⟨by rw [hread, List.length_eq_zero_iff.mp hrest], fun txIn htxIn => ?_⟩
        by_contra hne
        exact hany (List.any_eq_true.mpr ⟨txIn, htxIn,
          decide_eq_true (List.length_pos_iff.mpr hne)⟩)
    · simp [hrest] at h
  · rintro ⟨hread, hempty⟩
    refine ⟨(tx, []), hread, ?_⟩
    have hany : ¬ (tx.vin.any fun txIn => txIn.scriptSig.length > 0) = true := by simpa using hempty
    simp [hany]

theorem PsbtGlobal.Takes.tidy {s' : PsbtGlobal} (h : s.Takes key val s')
    (hfits : FitsCounts (key, val)) (hs : s.Tidy) : s'.Tidy := by
  cases h with
  | unsignedTx _ _ hread =>
    refine { hs with unsigned := fun tx htx => ?_ }
    cases htx
    exact (deserPsbtUnsignedTx_eq_some.mp hread).2
  | version => exact { hs with }
  | xpub hpath hnew =>
    have hlen := length_serPsbtPath_le hpath
    exact { hs with xpubs := hs.xpubs.concat (Nat.lt_of_le_of_lt hlen hfits.2) hnew }
  | unknown hkey hnew => exact { hs with unknowns := hs.unknowns.concat hkey hfits hnew }

/-! ## All of it -/

theorem deserMap_eq_some {entry : σ → Bytes → Bytes → Option σ} {s s' : σ} :
    deserMap entry fuel s buf = some (s', rest) ↔
      ∃ kvs, deserPairs fuel buf = some (kvs, rest) ∧ kvs.foldlM (fun s kv => entry s kv.1 kv.2) s =
        some s' := by
  rw [deserMap_eq]
  simp [Option.bind_eq_some_iff, Option.map_eq_some_iff]

theorem forall_of_deserMany {item : Bytes → Option (α × Bytes)} {P : α → Prop} {n : ℕ}
    (h : deserMany item n buf = some (xs, rest))
    (hitem : ∀ buf x rest, item buf = some (x, rest) → P x) :
    ∀ x ∈ xs, P x := by
  induction n generalizing buf xs with
  | zero =>
    cases h
    exact List.forall_mem_nil _
  | succ n ih =>
    simp only [deserMany, Option.bind_eq_bind, Option.bind_eq_some_iff] at h
    obtain ⟨⟨x, buf'⟩, hx, ⟨ys, rest'⟩, hys, heq⟩ := h
    cases heq
    exact List.forall_mem_cons.mpr ⟨hitem buf x buf' hx, ih hys⟩

theorem psbtInputDeserialize_tidy {input : PsbtInput}
    (h : psbtInputDeserialize buf = some (input, rest)) :
    input.Tidy := by
  obtain ⟨kvs, hpairs, hfold⟩ := deserMap_eq_some.mp h
  exact foldlM_invariant hfold PsbtInput.tidy_empty fun kv hkv s s' hs hstep =>
    (psbtInputEntry_iff.mp hstep).tidy (fitsCounts_of_deserPairs hpairs kv hkv) hs

theorem psbtOutputDeserialize_tidy {output : PsbtOutput}
    (h : psbtOutputDeserialize buf = some (output, rest)) :
    output.Tidy := by
  obtain ⟨kvs, hpairs, hfold⟩ := deserMap_eq_some.mp h
  exact foldlM_invariant hfold PsbtOutput.tidy_empty fun kv hkv s s' hs hstep =>
    (psbtOutputEntry_iff.mp hstep).tidy (fitsCounts_of_deserPairs hpairs kv hkv) hs

theorem psbtGlobal_tidy (h : deserMap psbtGlobalEntry fuel {} buf = some (s, rest)) : s.Tidy := by
  obtain ⟨kvs, hpairs, hfold⟩ := deserMap_eq_some.mp h
  exact foldlM_invariant hfold PsbtGlobal.tidy_empty fun kv hkv s s' hs hstep =>
    (psbtGlobalEntry_iff.mp hstep).tidy (fitsCounts_of_deserPairs hpairs kv hkv) hs

/-- The three kinds of maps, one behind the other. -/
theorem psbtDeserialize_eq_some :
    psbtDeserialize data = some psbt ↔
      data.take psbtMagic.length = psbtMagic ∧ ∃ global buf₁ inputs buf₂ outputs buf₃,
        deserMap psbtGlobalEntry (data.length - psbtMagic.length) {} (data.drop psbtMagic.length) =
          some (global, buf₁) ∧
        global.tx = some psbt.tx ∧ deserMany psbtInputDeserialize psbt.tx.vin.length buf₁ =
          some (inputs, buf₂) ∧
        deserMany psbtOutputDeserialize psbt.tx.vout.length buf₂ = some (outputs, buf₃) ∧
        psbt = { tx := psbt.tx, version := global.version.getD psbtVersion0, xpubs := global.xpubs,
                 inputs := inputs, outputs := outputs, unknowns := global.unknowns } := by
  constructor
  · intro h
    unfold psbtDeserialize at h
    by_cases hshort : data.length < psbtMagic.length + 1
    · simp [hshort] at h
    · by_cases hmagic : data.take psbtMagic.length = psbtMagic
      · simp only [hshort, if_false, hmagic, ne_eq, not_true_eq_false, Option.bind_eq_bind,
          Option.bind_eq_some_iff, List.length_drop] at h
        obtain ⟨⟨global, buf₁⟩, hglobal, tx, htx, ⟨inputs, buf₂⟩, hinputs, ⟨outputs, buf₃⟩,
          houtputs, heq⟩ := h
        cases heq
        exact ⟨hmagic, global, buf₁, inputs, buf₂, outputs, buf₃, hglobal, htx,
          hinputs, houtputs, rfl⟩
      · simp [hshort, hmagic] at h
  · rintro ⟨hmagic, global, buf₁, inputs, buf₂, outputs, buf₃, hglobal, htx, hinputs, houtputs, heq⟩
    -- with nothing behind the magic bytes the global map has no end
    have hlong : ¬ data.length < psbtMagic.length + 1 := by
      intro hshort
      rw [Nat.sub_eq_zero_of_le (Nat.le_of_lt_succ hshort)] at hglobal
      cases hglobal
    unfold psbtDeserialize
    rw [heq]
    simp [hlong, hmagic, hglobal, htx, hinputs, houtputs]

/-- **What was read is tidy.** -/
theorem psbtDeserialize_tidy (h : psbtDeserialize data = some psbt) : psbt.Tidy := by
  obtain ⟨-, global, buf₁, inputs, buf₂, outputs, buf₃, hglobal, htx, hinputs, houtputs, heq⟩ :=
    psbtDeserialize_eq_some.mp h
  have htidy := psbtGlobal_tidy hglobal
  rw [heq]
  exact {
    unsigned := htidy.unsigned psbt.tx htx
    xpubs := htidy.xpubs
    unknowns := htidy.unknowns
    numInputs := length_of_deserMany hinputs
    numOutputs := length_of_deserMany houtputs
    inputs := forall_of_deserMany hinputs fun _ _ _ => psbtInputDeserialize_tidy
    outputs := forall_of_deserMany houtputs fun _ _ _ => psbtOutputDeserialize_tidy }

end Libdogecoin
