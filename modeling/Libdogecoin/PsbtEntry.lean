/-
# The pairs of a partially signed transaction

What a single pair of a key and a value can do to a map that is being read, said once for each of
the three kinds of maps.

* `psbtGlobalEntry_iff`, `psbtInputEntry_iff`, `psbtOutputEntry_iff` : these steps and no others.
-/
import Libdogecoin.Psbt

namespace Libdogecoin

/-! ## Values -/

theorem length_flatMap_serU32 (path : List UInt32) :
    (path.flatMap serU32).length = path.length * 4 := by
  induction path with
  | nil => rfl
  | cons c path ih =>
    rw [List.flatMap_cons, List.length_append, ih, List.length_cons, serU32,
      LittleEndian.length_toBytes]
    omega

/-- A derivation path is read back. -/
@[simp] theorem deserPsbtPath_serPsbtPath (fingerprint : UInt32) (path : List UInt32) :
    deserPsbtPath (serPsbtPath fingerprint path) = some (fingerprint, path) := by
  have hlen := length_flatMap_serU32 path
  have hread : deserMany deserU32 path.length (path.flatMap serU32 ++ []) = some (path, []) :=
    deserMany_flatMap (fun c _ rest => deserU32_serU32 c rest) []
  rw [List.append_nil] at hread
  unfold deserPsbtPath serPsbtPath
  simp only [deserU32_serU32, Option.bind_eq_bind, Option.bind_some, hlen,
    Nat.mul_div_cancel _ (Nat.succ_pos 3), hread]

theorem length_serPsbtPath (fingerprint : UInt32) (path : List UInt32) :
    (serPsbtPath fingerprint path).length = 4 + 4 * path.length := by
  rw [serPsbtPath, List.length_append, length_flatMap_serU32, serU32, LittleEndian.length_toBytes,
    Nat.mul_comm]

theorem length_of_deserMany {α : Type} {item : Bytes → Option (α × Bytes)} {n : ℕ}
    {buf rest : Bytes} {xs : List α} (h : deserMany item n buf = some (xs, rest)) :
    xs.length = n := by
  induction n generalizing buf xs with
  | zero => cases h; rfl
  | succ n ih =>
    simp only [deserMany, Option.bind_eq_bind, Option.bind_eq_some_iff] at h
    obtain ⟨⟨x, buf'⟩, -, ⟨ys, rest'⟩, hys, heq⟩ := h
    cases heq
    rw [List.length_cons, ih hys]

variable {val key : Bytes} {unknowns : List PsbtUnknown} {keypaths : List PsbtKeypath}

/-- Components are not longer than the value that holds them. -/
theorem length_serPsbtPath_le {fingerprint : UInt32} {path : List UInt32}
    (h : deserPsbtPath val = some (fingerprint, path)) : (serPsbtPath fingerprint path).length ≤
    val.length := by
  simp only [deserPsbtPath, Option.bind_eq_bind, Option.bind_eq_some_iff] at h
  obtain ⟨⟨fp, components⟩, hfp, ⟨cs, rest⟩, hcs, heq⟩ := h
  cases heq
  have hval := deserU32_eq_append hfp
  have hlen := length_of_deserMany hcs
  rw [length_serPsbtPath, hlen, hval, List.length_append, serU32, LittleEndian.length_toBytes]
  exact Nat.add_le_add_left (Nat.mul_div_le _ _) _

/-- Four bytes are read back. -/
@[simp] theorem deserPsbtU32_serU32 (v : UInt32) : deserPsbtU32 (serU32 v) = some v := by
  have hlen : (serU32 v).length = 4 := LittleEndian.length_toBytes 4 _
  have hval : LittleEndian.ofBytes (serU32 v) = v.toNat :=
    LittleEndian.ofBytes_toBytes_of_lt v.toNat_lt
  rw [deserPsbtU32, if_neg (not_not_intro hlen), hval, UInt32.ofNat_toNat]

/-! ## Pairs that are not understood -/

/-- A key of none of the types. -/
def UnknownKey (types : List UInt8) (key : Bytes) :
    Prop := ∃ type data, key = type :: data ∧ type ∉ types

instance (types : List UInt8) : DecidablePred (UnknownKey types)
  | [] => .isFalse fun ⟨_, _, h, _⟩ => List.cons_ne_nil _ _ h.symm
  | type :: data =>
    decidable_of_iff (type ∉ types)
      ⟨fun h => ⟨type, data, rfl, h⟩, fun ⟨_, _, h, hmem⟩ => (List.cons.inj h).1 ▸ hmem⟩

theorem UnknownKey.cons_iff {types : List UInt8} {type : UInt8} {data : Bytes} :
    UnknownKey types (type :: data) ↔ type ∉ types := by
  constructor
  · rintro ⟨type', data', heq, hmem⟩
    cases heq
    exact hmem
  · intro h
    exact ⟨type, data, rfl, h⟩

/-- The types of the global map. -/
def psbtGlobalTypes : List UInt8 := [psbtGlobalUnsignedTx, psbtGlobalXpub, psbtGlobalVersion]

/-- The types of the map of an input. -/
def psbtInTypes : List UInt8 :=
  [psbtInNonWitnessUtxo, psbtInPartialSig, psbtInSighashType, psbtInRedeemScript,
    psbtInBip32Derivation, psbtInFinalScriptsig]

/-- The types of the map of an output. -/
def psbtOutTypes : List UInt8 := [psbtOutRedeemScript, psbtOutBip32Derivation]

theorem addPsbtUnknown_eq_some {unknowns' : List PsbtUnknown} :
    addPsbtUnknown unknowns key val = some unknowns' ↔
      (∀ u ∈ unknowns, u.key ≠ key) ∧ unknowns ++ [{ key := key, value := val }] = unknowns' := by
  unfold addPsbtUnknown
  rw [Option.ite_none_left_eq_some, Option.some.injEq]
  simp

theorem addPsbtKeypath_eq_some {keypaths' : List PsbtKeypath} {pubkey : PsbtPubkey} :
    addPsbtKeypath keypaths pubkey val = some keypaths' ↔
      ∃ kp : PsbtKeypath, kp.pubkey = pubkey ∧ deserPsbtPath val = some (kp.fingerprint, kp.path) ∧
        (∀ kp' ∈ keypaths, kp'.pubkey ≠ pubkey) ∧ keypaths ++ [kp] = keypaths' := by
  unfold addPsbtKeypath
  simp only [Option.bind_eq_bind, Option.bind_eq_some_iff, Option.ite_none_left_eq_some,
    Option.some.injEq]
  constructor
  · rintro ⟨⟨fingerprint, path⟩, hpath, hnew, heq⟩
    exact ⟨⟨pubkey, fingerprint, path⟩, rfl, hpath, by simpa using hnew, heq⟩
  · rintro ⟨⟨pubkey', fingerprint, path⟩, rfl, hpath, hnew, heq⟩
    exact ⟨⟨fingerprint, path⟩, hpath, by simpa using hnew, heq⟩

theorem addPsbtUnknown_new {u : PsbtUnknown} (h : ∀ u' ∈ unknowns, u'.key ≠ u.key) :
    addPsbtUnknown unknowns u.key u.value = some (unknowns ++ [u]) :=
  addPsbtUnknown_eq_some.mpr ⟨h, rfl⟩

theorem addPsbtKeypath_new {kp : PsbtKeypath}
    (hpath : deserPsbtPath val = some (kp.fingerprint, kp.path))
    (h : ∀ kp' ∈ keypaths, kp'.pubkey ≠ kp.pubkey) :
    addPsbtKeypath keypaths kp.pubkey val = some (keypaths ++ [kp]) :=
  addPsbtKeypath_eq_some.mpr ⟨kp, rfl, hpath, h, rfl⟩

/-! ## What a pair can do -/

/-- What a pair can do to the global map. -/
inductive PsbtGlobal.Takes (s : PsbtGlobal) : Bytes → Bytes → PsbtGlobal → Prop
  | unsignedTx {val : Bytes} {tx : Tx} : s.tx = none → val ≠ [] →
      deserPsbtUnsignedTx val = some tx →
      s.Takes [psbtGlobalUnsignedTx] val { s with tx := some tx }
  | version {val : Bytes} {version : UInt32} : s.version = none → deserPsbtU32 val = some version →
      s.Takes [psbtGlobalVersion] val { s with version := some version }
  | xpub {val : Bytes} {x : PsbtXpub} : deserPsbtPath val = some (x.fingerprint, x.path) →
      (∀ x' ∈ s.xpubs, x'.xpub ≠ x.xpub) →
      s.Takes (psbtGlobalXpub :: x.xpub.1) val { s with xpubs := s.xpubs ++ [x] }
  | unknown {u : PsbtUnknown} : UnknownKey psbtGlobalTypes u.key →
      (∀ u' ∈ s.unknowns, u'.key ≠ u.key) →
      s.Takes u.key u.value { s with unknowns := s.unknowns ++ [u] }

/-- What a pair can do to the map of an input. -/
inductive PsbtInput.Takes (s : PsbtInput) : Bytes → Bytes → PsbtInput → Prop
  | nonWitnessUtxo {val rest : Bytes} {tx : Tx} : s.nonWitnessUtxo = none → val ≠ [] →
      txDeserialize val = some (tx, rest) →
      s.Takes [psbtInNonWitnessUtxo] val { s with nonWitnessUtxo := some tx }
  | partialSig {ps : PsbtPartialsig} : ps.pubkey.1.length = 33 → ps.sig.1 ≠ [] →
      (∀ ps' ∈ s.partialSigs, ps'.pubkey ≠ ps.pubkey) →
      s.Takes (psbtInPartialSig :: ps.pubkey.1) ps.sig.1
        { s with partialSigs := s.partialSigs ++ [ps] }
  | sighashType {val : Bytes} {sh : UInt32} : s.sighashType = none → deserPsbtU32 val = some sh →
      s.Takes [psbtInSighashType] val { s with sighashType := some sh }
  | redeemScript {val : Bytes} : s.redeemScript = none →
      s.Takes [psbtInRedeemScript] val { s with redeemScript := some val }
  | keypath {val : Bytes} {kp : PsbtKeypath} : kp.pubkey.1.length = 33 →
      deserPsbtPath val = some (kp.fingerprint, kp.path) →
      (∀ kp' ∈ s.keypaths, kp'.pubkey ≠ kp.pubkey) →
      s.Takes (psbtInBip32Derivation :: kp.pubkey.1) val { s with keypaths := s.keypaths ++ [kp] }
  | finalScriptSig {val : Bytes} : s.finalScriptSig = none →
      s.Takes [psbtInFinalScriptsig] val { s with finalScriptSig := some val }
  | unknown {u : PsbtUnknown} : UnknownKey psbtInTypes u.key → (∀ u' ∈ s.unknowns, u'.key ≠ u.key) →
      s.Takes u.key u.value { s with unknowns := s.unknowns ++ [u] }

/-- What a pair can do to the map of an output. -/
inductive PsbtOutput.Takes (s : PsbtOutput) : Bytes → Bytes → PsbtOutput → Prop
  | redeemScript {val : Bytes} : s.redeemScript = none →
      s.Takes [psbtOutRedeemScript] val { s with redeemScript := some val }
  | keypath {val : Bytes} {kp : PsbtKeypath} : kp.pubkey.1.length = 33 →
      deserPsbtPath val = some (kp.fingerprint, kp.path) →
      (∀ kp' ∈ s.keypaths, kp'.pubkey ≠ kp.pubkey) →
      s.Takes (psbtOutBip32Derivation :: kp.pubkey.1) val { s with keypaths := s.keypaths ++ [kp] }
  | unknown {u : PsbtUnknown} : UnknownKey psbtOutTypes u.key →
      (∀ u' ∈ s.unknowns, u'.key ≠ u.key) →
      s.Takes u.key u.value { s with unknowns := s.unknowns ++ [u] }

/-- **The global map takes up a pair** as said, or reading fails. -/
theorem psbtGlobalEntry_iff {s s' : PsbtGlobal} :
    psbtGlobalEntry s key val = some s' ↔ s.Takes key val s' := by
  constructor
  · intro h
    cases key with
    | nil => cases h
    | cons type data =>
      unfold psbtGlobalEntry at h
      dsimp only at h
      split_ifs at h with htx hdup hver hvdup hxpub hxdup hknown
      · obtain ⟨tx, hread, rfl⟩ := Option.map_eq_some_iff.mp h
        obtain ⟨rfl, hdata⟩ := htx
        rw [List.length_eq_zero_iff.mp hdata]
        push Not at hdup
        exact .unsignedTx (Option.not_isSome_iff_eq_none.mp hdup.1)
          (List.length_pos_iff.mp (by omega)) hread
      · obtain ⟨version, hread, rfl⟩ := Option.map_eq_some_iff.mp h
        obtain ⟨rfl, hdata⟩ := hver
        rw [List.length_eq_zero_iff.mp hdata]
        exact .version (Option.not_isSome_iff_eq_none.mp hvdup) hread
      · obtain ⟨_, -, hnone⟩ := Option.bind_eq_some_iff.mp h
        cases hnone
      · obtain ⟨⟨fingerprint, path⟩, hpath, heq⟩ := Option.bind_eq_some_iff.mp h
        cases heq
        obtain ⟨rfl, hdata⟩ := hxpub
        refine @PsbtGlobal.Takes.xpub s val ⟨⟨data, hdata⟩, fingerprint, path⟩ hpath
          fun x' hx' heq => hxdup ?_
        exact List.any_eq_true.mpr ⟨x', hx', by rw [heq]; exact decide_eq_true rfl⟩
      · obtain ⟨unknowns, hadd, rfl⟩ := Option.map_eq_some_iff.mp h
        obtain ⟨hnew, rfl⟩ := addPsbtUnknown_eq_some.mp hadd
        refine @PsbtGlobal.Takes.unknown s ⟨type :: data, val⟩ (UnknownKey.cons_iff.mpr fun hmem =>
          hknown ?_) hnew
        simpa [psbtGlobalTypes] using hmem
  · rintro (⟨hnone, hval, hread⟩ | ⟨hnone, hread⟩ | @⟨_, x, hpath, hnew⟩ | @⟨⟨key, value⟩,
      ⟨type, data, rfl, hmem⟩, hnew⟩)
    · simp [psbtGlobalEntry, hnone, hval, hread]
    · simp [psbtGlobalEntry, psbtGlobalVersion, psbtGlobalUnsignedTx, hnone, hread]
    · have hall : ¬ s.xpubs.any (fun x' => x'.xpub.1 = x.xpub.1) = true := by
        simpa [Subtype.ext_iff] using hnew
      simp [psbtGlobalEntry, psbtGlobalXpub, psbtGlobalVersion, psbtGlobalUnsignedTx,
        hpath, x.xpub.2, hall]
    · simp only [psbtGlobalTypes, List.mem_cons, List.not_mem_nil, or_false, not_or] at hmem
      have hadd := addPsbtUnknown_new hnew
      simp [psbtGlobalEntry, hmem, hadd]

/-- **The map of an input takes up a pair** as said, or reading fails. -/
theorem psbtInputEntry_iff {s s' : PsbtInput} :
    psbtInputEntry s key val = some s' ↔ s.Takes key val s' := by
  constructor
  · intro h
    cases key with
    | nil => cases h
    | cons type data =>
      unfold psbtInputEntry at h
      dsimp only at h
      split_ifs at h with hutxo hdup hsig hlong hsdup hsh hshdup hredeem hrdup hpath
        hfinal hfdup hknown
      · obtain ⟨⟨tx, rest⟩, hread, rfl⟩ := Option.map_eq_some_iff.mp h
        obtain ⟨rfl, hdata⟩ := hutxo
        rw [List.length_eq_zero_iff.mp hdata]
        push Not at hdup
        exact .nonWitnessUtxo (Option.not_isSome_iff_eq_none.mp hdup.1)
          (List.length_pos_iff.mp (by omega)) hread
      · cases h
        obtain ⟨rfl, hdata⟩ := hsig
        push Not at hlong
        refine @PsbtInput.Takes.partialSig s ⟨⟨data, hdata.le⟩, ⟨val, hlong.2⟩⟩ hdata
          (List.length_pos_iff.mp (Nat.pos_of_ne_zero hlong.1)) fun ps' hps' heq => hsdup ?_
        exact List.any_eq_true.mpr ⟨ps', hps', by rw [heq]; exact decide_eq_true rfl⟩
      · obtain ⟨sh, hread, rfl⟩ := Option.map_eq_some_iff.mp h
        obtain ⟨rfl, hdata⟩ := hsh
        rw [List.length_eq_zero_iff.mp hdata]
        exact .sighashType (Option.not_isSome_iff_eq_none.mp hshdup) hread
      · cases h
        obtain ⟨rfl, hdata⟩ := hredeem
        rw [List.length_eq_zero_iff.mp hdata]
        exact .redeemScript (Option.not_isSome_iff_eq_none.mp hrdup)
      · obtain ⟨keypaths, hadd, rfl⟩ := Option.map_eq_some_iff.mp h
        obtain ⟨rfl, hdata⟩ := hpath
        obtain ⟨kp, hpubkey, hread, hnew, rfl⟩ := addPsbtKeypath_eq_some.mp hadd
        rw [← hpubkey] at hnew
        have htakes := @PsbtInput.Takes.keypath s val kp (by rw [hpubkey]; exact hdata) hread hnew
        rwa [hpubkey] at htakes
      · cases h
        obtain ⟨rfl, hdata⟩ := hfinal
        rw [List.length_eq_zero_iff.mp hdata]
        exact .finalScriptSig (Option.not_isSome_iff_eq_none.mp hfdup)
      · obtain ⟨unknowns, hadd, rfl⟩ := Option.map_eq_some_iff.mp h
        obtain ⟨hnew, rfl⟩ := addPsbtUnknown_eq_some.mp hadd
        refine @PsbtInput.Takes.unknown s ⟨type :: data, val⟩ (UnknownKey.cons_iff.mpr fun hmem =>
          hknown ?_) hnew
        simpa [psbtInTypes] using hmem
  · rintro (⟨hnone, hval, hread⟩ | @⟨ps, hpubkey, hsig, hnew⟩ |
      ⟨hnone, hread⟩ | hnone | @⟨_, kp, hpubkey, hpath, hnew⟩ |
      hnone | @⟨⟨key, value⟩, ⟨type, data, rfl, hmem⟩, hnew⟩)
    · simp [psbtInputEntry, hnone, hval, hread]
    · have hall : ¬ s.partialSigs.any (fun ps' => ps'.pubkey.1 = ps.pubkey.1) = true := by
        simpa [Subtype.ext_iff] using hnew
      have hlen : ¬ (ps.sig.1.length = 0 ∨ ps.sig.1.length > psbtMaxSigLen) := by
        rintro (hzero | hlong)
        · exact hsig (List.length_eq_zero_iff.mp hzero)
        · exact Nat.not_lt.mpr ps.sig.2 hlong
      have hne : ¬ psbtInPartialSig = psbtInNonWitnessUtxo := by decide
      simp only [psbtInputEntry, hne, false_and, if_false, hpubkey, and_self, dif_pos, hlen,
        not_false_eq_true, dif_neg, hall, Bool.false_eq_true]
    · simp [psbtInputEntry, psbtInSighashType, psbtInNonWitnessUtxo, psbtInPartialSig, hnone, hread]
    · simp [psbtInputEntry, psbtInRedeemScript, psbtInSighashType, psbtInNonWitnessUtxo,
        psbtInPartialSig, hnone]
    · have hadd := addPsbtKeypath_new hpath hnew
      simp [psbtInputEntry, psbtInBip32Derivation, psbtInRedeemScript, psbtInSighashType,
        psbtInNonWitnessUtxo, psbtInPartialSig, hpubkey, hadd]
    · simp [psbtInputEntry, psbtInFinalScriptsig, psbtInBip32Derivation, psbtInRedeemScript,
        psbtInSighashType, psbtInNonWitnessUtxo, psbtInPartialSig, hnone]
    · simp only [psbtInTypes, List.mem_cons, List.not_mem_nil, or_false, not_or] at hmem
      have hadd := addPsbtUnknown_new hnew
      simp [psbtInputEntry, hmem, hadd]

/-- **The map of an output takes up a pair** as said, or reading fails. -/
theorem psbtOutputEntry_iff {s s' : PsbtOutput} :
    psbtOutputEntry s key val = some s' ↔ s.Takes key val s' := by
  constructor
  · intro h
    cases key with
    | nil => cases h
    | cons type data =>
      unfold psbtOutputEntry at h
      dsimp only at h
      split_ifs at h with hredeem hrdup hpath hknown
      · cases h
        obtain ⟨rfl, hdata⟩ := hredeem
        rw [List.length_eq_zero_iff.mp hdata]
        exact .redeemScript (Option.not_isSome_iff_eq_none.mp hrdup)
      · obtain ⟨keypaths, hadd, rfl⟩ := Option.map_eq_some_iff.mp h
        obtain ⟨rfl, hdata⟩ := hpath
        obtain ⟨kp, hpubkey, hread, hnew, rfl⟩ := addPsbtKeypath_eq_some.mp hadd
        rw [← hpubkey] at hnew
        have htakes := @PsbtOutput.Takes.keypath s val kp (by rw [hpubkey]; exact hdata) hread hnew
        rwa [hpubkey] at htakes
      · obtain ⟨unknowns, hadd, rfl⟩ := Option.map_eq_some_iff.mp h
        obtain ⟨hnew, rfl⟩ := addPsbtUnknown_eq_some.mp hadd
        refine @PsbtOutput.Takes.unknown s ⟨type :: data, val⟩ (UnknownKey.cons_iff.mpr fun hmem =>
          hknown ?_) hnew
        simpa [psbtOutTypes] using hmem
  · rintro (hnone | @⟨_, kp, hpubkey, hpath, hnew⟩ | @⟨⟨key, value⟩, ⟨type, data, rfl, hmem⟩, hnew⟩)
    · simp [psbtOutputEntry, hnone]
    · have hadd := addPsbtKeypath_new hpath hnew
      simp [psbtOutputEntry, psbtOutBip32Derivation, psbtOutRedeemScript, hpubkey, hadd]
    · simp only [psbtOutTypes, List.mem_cons, List.not_mem_nil, or_false, not_or] at hmem
      have hadd := addPsbtUnknown_new hnew
      simp [psbtOutputEntry, hmem, hadd]

end Libdogecoin
