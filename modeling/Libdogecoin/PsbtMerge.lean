/-
# What combining gives

What `dogecoin_psbt_combine` leaves in the destination, when it returns true and when it returns
false.

* `psbtCombine_merges` : the union of the entries by key, once for each key, in any order of the
  sources;
* `psbtCombine_unchanged_iff` : which calls that fail have left the destination as it was.
-/
import Libdogecoin.PsbtCombine

namespace Libdogecoin

open KeyedMerge

/-! ## Calls that fail -/

variable {α β κ : Type} {psbt dst base src : Psbt} {e : PsbtItem} {input : PsbtInput}
  {output : PsbtOutput}
  {xs : List α} {key : α → κ} {x : α} {f : α → β} {k : PsbtKey}

theorem mem_mapIdx_flatten {f : ℕ → α → List β} {y : β} :
    y ∈ (xs.mapIdx f).flatten ↔ ∃ i x, xs[i]? = some x ∧ y ∈ f i x := by
  rw [List.mem_flatten]
  constructor
  · rintro ⟨l, hl, hy⟩
    obtain ⟨i, hi, rfl⟩ := List.mem_mapIdx.mp hl
    exact ⟨i, xs[i], List.getElem?_eq_getElem hi, hy⟩
  · rintro ⟨i, x, hx, hy⟩
    obtain ⟨hi, rfl⟩ := List.getElem?_eq_some_iff.mp hx
    exact ⟨_, List.mem_mapIdx.mpr ⟨i, hi, rfl⟩, hy⟩

/-- An item stands in one of the maps. -/
def Psbt.Has (psbt : Psbt) : PsbtItem → Prop
  | .input i e => ∃ input, psbt.inputs[i]? = some input ∧ e ∈ input.items
  | .output i e => ∃ output, psbt.outputs[i]? = some output ∧ e ∈ output.items
  | .xpub x => x ∈ psbt.xpubs
  | .unknown u => u ∈ psbt.unknowns

theorem Psbt.mem_items : e ∈ psbt.items ↔ psbt.Has e := by
  simp only [Psbt.items, List.mem_append, mem_mapIdx_flatten, List.mem_map]
  cases e with
  | input i e => simp [Psbt.Has]
  | output i e => simp [Psbt.Has]
  | xpub x => simp [Psbt.Has]
  | unknown u => simp [Psbt.Has]

/-- The destination has a map for everything of a source with the same transaction. -/
theorem fitAll_of_sameHeader (h : SameHeader dst src) : FitAll keyedPsbt dst src.items := by
  intro e he
  have hmem := Psbt.mem_items.mp he
  cases e with
  | input i e =>
    obtain ⟨input, hinput, -⟩ := hmem
    show i < dst.inputs.length
    rw [h.1]
    exact (List.getElem?_eq_some_iff.mp hinput).1
  | output i e =>
    obtain ⟨output, houtput, -⟩ := hmem
    show i < dst.outputs.length
    rw [h.2.1]
    exact (List.getElem?_eq_some_iff.mp houtput).1
  | xpub x => trivial
  | unknown u => trivial

/-- **A call that fails leaves the destination as it was** just where the transactions differ, no
item of the source clashes, or the first of them that the destination does not have as it is stands
there with another value. -/
theorem psbtCombine_unchanged_iff (dst src : Psbt) :
    ((psbtCombine dst src).2 = false → (psbtCombine dst src).1 = dst) ↔
      (SameHeader dst src →
        (∀ before e after, src.items = before ++ e :: after → ¬ Clashes keyedPsbt dst before e) ∨
          ClashesFirst keyedPsbt dst src.items) := by
  by_cases hheader : SameHeader dst src
  · rw [psbtCombine_eq hheader, eq_of_run_fails_iff (fitAll_of_sameHeader hheader)]
    exact ⟨fun h _ => h, fun h => h hheader⟩
  · have hsame : psbtCombine dst src = (dst, false) := if_pos hheader
    rw [hsame]
    exact iff_of_true (fun _ => rfl) fun h => absurd h hheader

/-- An input with nothing but a hash type and, maybe, a redeem script. -/
def sighashPsbt (sh : UInt32) (redeemScript : Option Bytes) : Psbt where
  tx := ⟨1, [⟨⟨Uint256.zero, 0⟩, [], 0⟩], [], 0⟩
  version := 0
  xpubs := []
  inputs := [{ sighashType := some sh, redeemScript := redeemScript }]
  outputs := []
  unknowns := []

/-- The redeem script is there before the hash types are found to differ. -/
theorem not_psbtCombine_unchanged :
    (psbtCombine (sighashPsbt 1 none) (sighashPsbt 2 (some [0x51]))).2 = false ∧
      (psbtCombine (sighashPsbt 1 none) (sighashPsbt 2 (some [0x51]))).1 = sighashPsbt 1
      (some [0x51]) ∧
      sighashPsbt 1 (some [0x51]) ≠ sighashPsbt 1 none := by
  decide

/-! ## Entries once for each key -/

/-- No two entries of an input have the same key. -/
structure PsbtInput.DupFree (input : PsbtInput) : Prop where
  partialSigs : (input.partialSigs.map PsbtPartialsig.pubkey).Nodup
  keypaths : (input.keypaths.map PsbtKeypath.pubkey).Nodup
  unknowns : (input.unknowns.map PsbtUnknown.key).Nodup

/-- No two entries of an output have the same key. -/
structure PsbtOutput.DupFree (output : PsbtOutput) : Prop where
  keypaths : (output.keypaths.map PsbtKeypath.pubkey).Nodup
  unknowns : (output.unknowns.map PsbtUnknown.key).Nodup

/-- No two entries of a map have the same key. -/
structure Psbt.DupFree (psbt : Psbt) : Prop where
  xpubs : (psbt.xpubs.map PsbtXpub.xpub).Nodup
  unknowns : (psbt.unknowns.map PsbtUnknown.key).Nodup
  inputs : ∀ input ∈ psbt.inputs, input.DupFree
  outputs : ∀ output ∈ psbt.outputs, output.DupFree

theorem nodup_concat_of_find? [DecidableEq κ] (h : (xs.map key).Nodup) {f : α → β}
    (hnone : (xs.find? fun y => key y = key x).map f = none) : ((xs ++ [x]).map key).Nodup := by
  rw [List.map_append, List.map_singleton]
  refine List.nodup_append.mpr ⟨h, List.nodup_singleton _, fun a ha b hb => ?_⟩
  obtain ⟨y, hy, rfl⟩ := List.mem_map.mp ha
  rw [List.mem_singleton.mp hb]
  simpa using List.find?_eq_none.mp (Option.map_eq_none_iff.mp hnone) y hy

theorem PsbtInput.DupFree.add (h : input.DupFree) {e : PsbtInputItem}
    (hnone : input.lookup e.key = none) :
    (input.add e).DupFree := by
  cases e with
  | partialSig ps => exact { h with partialSigs := nodup_concat_of_find? h.partialSigs hnone }
  | keypath kp => exact { h with keypaths := nodup_concat_of_find? h.keypaths hnone }
  | unknown u => exact { h with unknowns := nodup_concat_of_find? h.unknowns hnone }
  | _ => exact { h with }

theorem PsbtOutput.DupFree.add (h : output.DupFree) {e : PsbtOutputItem}
    (hnone : output.lookup e.key = none) :
    (output.add e).DupFree := by
  cases e with
  | redeemScript script => exact { h with }
  | keypath kp => exact { h with keypaths := nodup_concat_of_find? h.keypaths hnone }
  | unknown u => exact { h with unknowns := nodup_concat_of_find? h.unknowns hnone }

theorem forall_mem_modify {P : α → Prop} {i : ℕ} {f : α → α} (h : ∀ x ∈ xs, P x)
    (hf : ∀ x, xs[i]? = some x → P (f x)) : ∀ x ∈ xs.modify i f, P x := by
  intro y hy
  obtain ⟨j, hj⟩ := List.getElem?_of_mem hy
  by_cases hij : i = j
  · rw [hij, List.getElem?_modify_eq] at hj
    obtain ⟨x, hx, rfl⟩ := Option.map_eq_some_iff.mp hj
    exact hf x (hij ▸ hx)
  · rw [List.getElem?_modify_ne _ _ hij] at hj
    exact h y (List.mem_of_getElem? hj)

theorem Psbt.DupFree.add (h : psbt.DupFree) (hnone : psbt.lookup e.key = none) :
    (psbt.add e).DupFree := by
  cases e with
  | input i e =>
    refine { h with inputs := forall_mem_modify h.inputs fun input hinput => ?_ }
    have hlookup : (psbt.inputs[i]?.bind fun input => (input.lookup e.key).map (PsbtItem.input i)) =
      none := hnone
    rw [hinput, Option.bind_some, Option.map_eq_none_iff] at hlookup
    exact (h.inputs input (List.mem_of_getElem? hinput)).add hlookup
  | output i e =>
    refine { h with outputs := forall_mem_modify h.outputs fun output houtput => ?_ }
    have hlookup : (psbt.outputs[i]?.bind fun output =>
      (output.lookup e.key).map (PsbtItem.output i)) = none := hnone
    rw [houtput, Option.bind_some, Option.map_eq_none_iff] at hlookup
    exact (h.outputs output (List.mem_of_getElem? houtput)).add hlookup
  | xpub x => exact { h with xpubs := nodup_concat_of_find? h.xpubs hnone }
  | unknown u => exact { h with unknowns := nodup_concat_of_find? h.unknowns hnone }

/-! ## Entries and what is found -/

/-- In a row without duplicates an entry is the one that is found under its key. -/
theorem mem_iff_find? [DecidableEq κ] (h : (xs.map key).Nodup) :
    x ∈ xs ↔ xs.find? (fun y => key y = key x) = some x := by
  constructor
  · intro hx
    cases hfind : xs.find? fun y => key y = key x with
    | none => exact absurd (decide_eq_true rfl) (List.find?_eq_none.mp hfind x hx)
    | some y =>
      have hkey : key y = key x := by simpa using List.find?_some hfind
      rw [List.inj_on_of_nodup_map h (List.mem_of_find?_eq_some hfind) hx hkey]
  · intro hfind
    exact List.mem_of_find?_eq_some hfind

theorem eq_some_iff_map {o : Option α} (hf : Function.Injective f) :
    o = some x ↔ o.map f = some (f x) := by
  rw [← Option.map_some]
  exact (Option.map_injective hf).eq_iff.symm

theorem mem_iff_map_find? [DecidableEq κ] (h : (xs.map key).Nodup) (hf : Function.Injective f) :
    x ∈ xs ↔ (xs.find? fun y => key y = key x).map f = some (f x) := by
  rw [mem_iff_find? h, eq_some_iff_map hf]

/-- An item stands in the map of an input. -/
def PsbtInput.Has (input : PsbtInput) : PsbtInputItem → Prop
  | .nonWitnessUtxo tx => input.nonWitnessUtxo = some tx
  | .redeemScript script => input.redeemScript = some script
  | .finalScriptSig script => input.finalScriptSig = some script
  | .sighashType sh => input.sighashType = some sh
  | .partialSig ps => ps ∈ input.partialSigs
  | .keypath kp => kp ∈ input.keypaths
  | .unknown u => u ∈ input.unknowns

/-- An item stands in the map of an output. -/
def PsbtOutput.Has (output : PsbtOutput) : PsbtOutputItem → Prop
  | .redeemScript script => output.redeemScript = some script
  | .keypath kp => kp ∈ output.keypaths
  | .unknown u => u ∈ output.unknowns

theorem PsbtInput.mem_items {e : PsbtInputItem} : e ∈ input.items ↔ input.Has e := by
  simp only [PsbtInput.items, List.mem_append, List.mem_map, Option.mem_toList]
  cases e <;> simp [PsbtInput.Has]

theorem PsbtOutput.mem_items {e : PsbtOutputItem} : e ∈ output.items ↔ output.Has e := by
  simp only [PsbtOutput.items, List.mem_append, List.mem_map, Option.mem_toList]
  cases e <;> simp [PsbtOutput.Has]

/-- An item of an input is the one that is found under its key. -/
theorem PsbtInput.DupFree.mem_items_iff (h : input.DupFree) {e : PsbtInputItem} :
    e ∈ input.items ↔ input.lookup e.key = some e := by
  rw [PsbtInput.mem_items]
  cases e with
  | nonWitnessUtxo tx => exact eq_some_iff_map fun _ _ => PsbtInputItem.nonWitnessUtxo.inj
  | redeemScript script => exact eq_some_iff_map fun _ _ => PsbtInputItem.redeemScript.inj
  | finalScriptSig script => exact eq_some_iff_map fun _ _ => PsbtInputItem.finalScriptSig.inj
  | sighashType sh => exact eq_some_iff_map fun _ _ => PsbtInputItem.sighashType.inj
  | partialSig ps => exact mem_iff_map_find? h.partialSigs fun _ _ => PsbtInputItem.partialSig.inj
  | keypath kp => exact mem_iff_map_find? h.keypaths fun _ _ => PsbtInputItem.keypath.inj
  | unknown u => exact mem_iff_map_find? h.unknowns fun _ _ => PsbtInputItem.unknown.inj

theorem PsbtOutput.DupFree.mem_items_iff (h : output.DupFree) {e : PsbtOutputItem} :
    e ∈ output.items ↔ output.lookup e.key = some e := by
  rw [PsbtOutput.mem_items]
  cases e with
  | redeemScript script => exact eq_some_iff_map fun _ _ => PsbtOutputItem.redeemScript.inj
  | keypath kp => exact mem_iff_map_find? h.keypaths fun _ _ => PsbtOutputItem.keypath.inj
  | unknown u => exact mem_iff_map_find? h.unknowns fun _ _ => PsbtOutputItem.unknown.inj

/-- An item is the one that is found under its key. -/
theorem Psbt.DupFree.mem_items_iff (h : psbt.DupFree) :
    e ∈ psbt.items ↔ psbt.lookup e.key = some e := by
  rw [Psbt.mem_items]
  cases e with
  | input i e =>
    show _ ↔ (psbt.inputs[i]?.bind fun input => (input.lookup e.key).map (PsbtItem.input i)) = _
    rw [Option.bind_eq_some_iff]
    refine exists_congr fun input => and_congr_right fun hinput => ?_
    rw [(h.inputs input (List.mem_of_getElem? hinput)).mem_items_iff]
    simp
  | output i e =>
    show _ ↔ (psbt.outputs[i]?.bind fun output => (output.lookup e.key).map (PsbtItem.output i)) = _
    rw [Option.bind_eq_some_iff]
    refine exists_congr fun output => and_congr_right fun houtput => ?_
    rw [(h.outputs output (List.mem_of_getElem? houtput)).mem_items_iff]
    simp
  | xpub x => exact mem_iff_map_find? h.xpubs fun _ _ => PsbtItem.xpub.inj
  | unknown u => exact mem_iff_map_find? h.unknowns fun _ _ => PsbtItem.unknown.inj

theorem PsbtInput.key_of_lookup {k : PsbtInputKey} {e : PsbtInputItem}
    (h : input.lookup k = some e) :
    e.key = k := by
  cases k with
  | partialSig pubkey =>
    obtain ⟨ps, hfind, rfl⟩ := Option.map_eq_some_iff.mp h
    exact congrArg PsbtInputKey.partialSig (by simpa using List.find?_some hfind)
  | keypath pubkey =>
    obtain ⟨kp, hfind, rfl⟩ := Option.map_eq_some_iff.mp h
    exact congrArg PsbtInputKey.keypath (by simpa using List.find?_some hfind)
  | unknown key =>
    obtain ⟨u, hfind, rfl⟩ := Option.map_eq_some_iff.mp h
    exact congrArg PsbtInputKey.unknown (by simpa using List.find?_some hfind)
  | _ =>
    obtain ⟨x, -, rfl⟩ := Option.map_eq_some_iff.mp h
    rfl

theorem PsbtOutput.key_of_lookup {k : PsbtOutputKey} {e : PsbtOutputItem}
    (h : output.lookup k = some e) :
    e.key = k := by
  cases k with
  | redeemScript =>
    obtain ⟨x, -, rfl⟩ := Option.map_eq_some_iff.mp h
    rfl
  | keypath pubkey =>
    obtain ⟨kp, hfind, rfl⟩ := Option.map_eq_some_iff.mp h
    exact congrArg PsbtOutputKey.keypath (by simpa using List.find?_some hfind)
  | unknown key =>
    obtain ⟨u, hfind, rfl⟩ := Option.map_eq_some_iff.mp h
    exact congrArg PsbtOutputKey.unknown (by simpa using List.find?_some hfind)

/-- What is found under a key has the key. -/
theorem Psbt.key_of_lookup (h : psbt.lookup k = some e) : e.key = k := by
  cases k with
  | input i key =>
    obtain ⟨input, -, hlookup⟩ := Option.bind_eq_some_iff.mp h
    obtain ⟨e, hfind, rfl⟩ := Option.map_eq_some_iff.mp hlookup
    exact congrArg (PsbtKey.input i) (PsbtInput.key_of_lookup hfind)
  | output i key =>
    obtain ⟨output, -, hlookup⟩ := Option.bind_eq_some_iff.mp h
    obtain ⟨e, hfind, rfl⟩ := Option.map_eq_some_iff.mp hlookup
    exact congrArg (PsbtKey.output i) (PsbtOutput.key_of_lookup hfind)
  | xpub xpub =>
    obtain ⟨x, hfind, rfl⟩ := Option.map_eq_some_iff.mp h
    exact congrArg PsbtKey.xpub (by simpa using List.find?_some hfind)
  | unknown key =>
    obtain ⟨u, hfind, rfl⟩ := Option.map_eq_some_iff.mp h
    exact congrArg PsbtKey.unknown (by simpa using List.find?_some hfind)

theorem Psbt.DupFree.mem_of_lookup (h : psbt.DupFree) (hlookup : psbt.lookup k = some e) :
    e ∈ psbt.items := by
  rw [h.mem_items_iff, Psbt.key_of_lookup hlookup]
  exact hlookup

/-! ## The union -/

/-- The frame of the maps: what no entry changes. -/
structure Psbt.SameFrame (psbt psbt' : Psbt) : Prop where
  tx : psbt'.tx = psbt.tx
  version : psbt'.version = psbt.version
  inputs : psbt'.inputs.length = psbt.inputs.length
  outputs : psbt'.outputs.length = psbt.outputs.length

theorem Psbt.sameFrame_add {psbt' : Psbt} (h : psbt.SameFrame psbt') (e : PsbtItem) :
    psbt.SameFrame (psbt'.add e) := by
  cases e with
  | input i e => exact { h with inputs := (List.length_modify _ _ _).trans h.inputs }
  | output i e => exact { h with outputs := (List.length_modify _ _ _).trans h.outputs }
  | _ => exact { h with }

theorem sameFrame_psbtCombine (dst src : Psbt) : dst.SameFrame (psbtCombine dst src).1 := by
  have hrefl : dst.SameFrame dst := ⟨rfl, rfl, rfl, rfl⟩
  by_cases hheader : SameHeader dst src
  · rw [psbtCombine_eq hheader]
    exact run_invariant (K := keyedPsbt) (P := dst.SameFrame) (fun _ e h _ =>
      Psbt.sameFrame_add h e) hrefl _
  · rw [psbtCombine, if_pos hheader]
    exact hrefl

theorem Psbt.DupFree.combine (h : dst.DupFree) (src : Psbt) : (psbtCombine dst src).1.DupFree := by
  by_cases hheader : SameHeader dst src
  · rw [psbtCombine_eq hheader]
    exact run_invariant (K := keyedPsbt) (P := Psbt.DupFree) (fun _ _ h hnone => h.add hnone) h _
  · rw [psbtCombine, if_pos hheader]
    exact h

/-- What the destination is after a source was combined into it. -/
structure Psbt.Combined (dst src dst' : Psbt) : Prop where
  old : ∀ e ∈ dst.items, e ∈ dst'.items
  new : ∀ e ∈ src.items, ∃ d ∈ dst'.items, d.key = e.key
  only : ∀ e ∈ dst'.items, e ∈ dst.items ∨ e ∈ src.items ∧ dst.lookup e.key = none
  dupFree : dst'.DupFree
  frame : dst.SameFrame dst'

/-- Combining to the end is the union of the entries by key. -/
theorem psbtCombine_combined (hdst : dst.DupFree) (h : (psbtCombine dst src).2 = true) :
    dst.Combined src (psbtCombine dst src).1 ∧ psbtCombine (psbtCombine dst src).1 src =
      ((psbtCombine dst src).1, true) := by
  have hdup := hdst.combine src
  have hframe := sameFrame_psbtCombine dst src
  have hheader : SameHeader dst src := by
    by_contra hheader
    rw [psbtCombine, if_pos hheader] at h
    cases h
  have hagain : SameHeader (psbtCombine dst src).1 src := by
    unfold SameHeader
    rw [hframe.tx, hframe.inputs, hframe.outputs]
    exact hheader
  have hfit := fitAll_of_sameHeader hheader
  rw [psbtCombine_eq hagain]
  rw [psbtCombine_eq hheader] at h hdup hframe ⊢
  have hlookup := lookup_run hfit h
  refine ⟨{ old := ?_, new := ?_, only := ?_, dupFree := hdup, frame := hframe }, run_run hfit h⟩
  · intro e he
    exact hdup.mem_items_iff.mpr (lookup_run_of_some hfit (hdst.mem_items_iff.mp he))
  · intro e he
    obtain ⟨d, hd, -⟩ := agree_of_run hfit h e he
    exact ⟨d, hdup.mem_of_lookup hd, Psbt.key_of_lookup hd⟩
  · intro e he
    have hfound := hdup.mem_items_iff.mp he
    rw [show (run keyedPsbt dst src.items).1.lookup e.key = _ from hlookup e.key] at hfound
    rcases Option.or_eq_some_iff.mp hfound with hold | ⟨hnone, hfirst⟩
    · exact Or.inl (hdst.mem_items_iff.mpr hold)
    · exact Or.inr ⟨(mem_of_first hfirst).1, hnone⟩

/-! ## Any order -/

/-- Sources are combined one after the other. -/
def psbtCombineAll (base : Psbt) (srcs : List Psbt) :
    Psbt := srcs.foldl (fun dst src => (psbtCombine dst src).1) base

/-- No two of them have different entries under a key. -/
def AgreeByKey (psbts : List Psbt) : Prop :=
  ∀ p ∈ psbts, ∀ q ∈ psbts, ∀ k d e, p.lookup k = some d → q.lookup k = some e → d = e

/-- It is enough to compare the items themselves. -/
theorem AgreeByKey.of_items {psbts : List Psbt} (hdup : ∀ p ∈ psbts, p.DupFree)
    (h : ∀ p ∈ psbts, ∀ q ∈ psbts, ∀ d ∈ p.items, ∀ e ∈ q.items, d.key = e.key → d = e) :
    AgreeByKey psbts := by
  intro p hp q hq k d e hd he
  have hkey : d.key = e.key := (Psbt.key_of_lookup hd).trans (Psbt.key_of_lookup he).symm
  exact h p hp q hq d ((hdup p hp).mem_of_lookup hd) e ((hdup q hq).mem_of_lookup he) hkey

/-- Sources with another transaction are passed over. -/
theorem psbtCombineAll_eq (h : base.SameFrame dst) (srcs : List Psbt) :
    psbtCombineAll dst srcs = runAll keyedPsbt dst
      ((srcs.filter fun src => SameHeader base src).map Psbt.items) := by
  induction srcs generalizing dst with
  | nil => rfl
  | cons src srcs ih =>
    have hframe := sameFrame_psbtCombine dst src
    have hnext : base.SameFrame (psbtCombine dst src).1 := {
      tx := hframe.tx.trans h.tx
      version := hframe.version.trans h.version
      inputs := hframe.inputs.trans h.inputs
      outputs := hframe.outputs.trans h.outputs }
    have hiff : SameHeader dst src ↔ SameHeader base src := by
      unfold SameHeader
      rw [h.tx, h.inputs, h.outputs]
    have hstep : psbtCombineAll dst (src :: srcs) =
      psbtCombineAll (psbtCombine dst src).1 srcs := rfl
    rw [hstep, ih hnext]
    by_cases hheader : SameHeader base src
    · rw [List.filter_cons_of_pos (p := fun src => decide (SameHeader base src))
        (decide_eq_true hheader), List.map_cons, psbtCombine_eq (hiff.mpr hheader)]
      rfl
    · rw [List.filter_cons_of_neg (p := fun src => decide (SameHeader base src))
        (by simpa using hheader), psbtCombine, if_pos (mt hiff.mp hheader)]

theorem psbtCombineAll_dupFree (h : base.DupFree) (srcs : List Psbt) :
    (psbtCombineAll base srcs).DupFree := by
  induction srcs generalizing base with
  | nil => exact h
  | cons src srcs ih => exact ih (h.combine src)

/-- **Sources that agree can be combined in any order.** -/
theorem psbtCombineAll_perm {srcs srcs' : List Psbt} (hdup : ∀ psbt ∈ base :: srcs, psbt.DupFree)
    (hagree : AgreeByKey (base :: srcs)) (hperm : srcs.Perm srcs') (e : PsbtItem) :
    e ∈ (psbtCombineAll base srcs).items ↔ e ∈ (psbtCombineAll base srcs').items := by
  obtain ⟨hbase, hsrcs⟩ := List.forall_mem_cons.mp hdup
  have hframe : base.SameFrame base := ⟨rfl, rfl, rfl, rfl⟩
  let ess := (srcs.filter fun src => SameHeader base src).map Psbt.items
  have hmem : ∀ e ∈ ess.flatten, ∃ src ∈ srcs, SameHeader base src ∧ e ∈ src.items := by
    intro e he
    obtain ⟨es, hes, he⟩ := List.mem_flatten.mp he
    obtain ⟨src, hsrc, rfl⟩ := List.mem_map.mp hes
    obtain ⟨hsrc, hheader⟩ := List.mem_filter.mp hsrc
    exact ⟨src, hsrc, of_decide_eq_true hheader, he⟩
  have hfound : ∀ e ∈ ess.flatten, ∃ src ∈ srcs, src.lookup e.key = some e := by
    intro e he
    obtain ⟨src, hsrc, -, he⟩ := hmem e he
    exact ⟨src, hsrc, (hsrcs src hsrc).mem_items_iff.mp he⟩
  have hfit : FitAll keyedPsbt base ess.flatten := by
    intro e he
    obtain ⟨src, -, hheader, he⟩ := hmem e he
    exact fitAll_of_sameHeader hheader e he
  have hagreeing : Agreeing keyedPsbt base ess := by
    constructor
    · intro e he e' he' hkey
      obtain ⟨src, hsrc, hlookup⟩ := hfound e he
      obtain ⟨src', hsrc', hlookup'⟩ := hfound e' he'
      rw [show e.key = e'.key from hkey] at hlookup
      exact hagree src (List.mem_cons_of_mem _ hsrc) src' (List.mem_cons_of_mem _ hsrc') _ e e'
        hlookup hlookup'
    · intro e he d hd
      obtain ⟨src, hsrc, hlookup⟩ := hfound e he
      exact hagree base List.mem_cons_self src (List.mem_cons_of_mem _ hsrc) _ d e hd hlookup
  have hsame := lookup_runAll_perm hfit hagreeing ((hperm.filter _).map _) e.key
  rw [← psbtCombineAll_eq hframe, ← psbtCombineAll_eq hframe] at hsame
  rw [(psbtCombineAll_dupFree hbase srcs).mem_items_iff,
    (psbtCombineAll_dupFree hbase srcs').mem_items_iff]
  exact Eq.congr_left hsame

/-- **Combining is a union by key**, in any order. -/
theorem psbtCombine_merges :
    (∀ dst src : Psbt, dst.DupFree → src.DupFree → (psbtCombine dst src).2 = true →
      dst.Combined src (psbtCombine dst src).1 ∧
        psbtCombine (psbtCombine dst src).1 src = ((psbtCombine dst src).1, true)) ∧
    (∀ (base : Psbt) (srcs srcs' : List Psbt), (∀ psbt ∈ base :: srcs, psbt.DupFree) →
      AgreeByKey (base :: srcs) →
      srcs.Perm srcs' → ∀ e, e ∈ (psbtCombineAll base srcs).items ↔
      e ∈ (psbtCombineAll base srcs').items) :=
  ⟨fun _ _ hdst _ h => psbtCombine_combined hdst h,
    fun _ _ _ hdup hagree hperm e => psbtCombineAll_perm hdup hagree hperm e⟩

/-- What a signer hands on: a signature, the path of the key and an entry of its own. -/
def signerPsbt (n : UInt8) : Psbt :=
  { sighashPsbt 1 none with
    inputs := [{
      sighashType := some 1
      partialSigs := [⟨⟨2 :: List.replicate 32 n, Nat.le_of_ble_eq_true rfl⟩,
        ⟨[0x30, n], Nat.le_of_ble_eq_true rfl⟩⟩]
      keypaths := [⟨⟨3 :: List.replicate 32 0, by decide⟩, 7, [1]⟩]
      unknowns := [{ key := [0x20, n], value := [n] }] }] }

theorem signerPsbt_dupFree (n : UInt8) : (signerPsbt n).DupFree where
  xpubs := List.nodup_nil
  unknowns := List.nodup_nil
  inputs := List.forall_mem_singleton.mpr ⟨List.nodup_singleton _, List.nodup_singleton _,
    List.nodup_singleton _⟩
  outputs := List.forall_mem_nil _

/-- Two signers: their signatures and entries come together, whoever comes first. -/
theorem psbtCombine_merges_signerPsbt :
    (signerPsbt 1).Combined (signerPsbt 2) (psbtCombine (signerPsbt 1) (signerPsbt 2)).1 ∧
      ∀ e, e ∈ (psbtCombineAll (signerPsbt 0) [signerPsbt 1, signerPsbt 2]).items ↔
        e ∈ (psbtCombineAll (signerPsbt 0) [signerPsbt 2, signerPsbt 1]).items := by
  have hdup : ∀ psbt ∈ [signerPsbt 0, signerPsbt 1, signerPsbt 2], psbt.DupFree := by
    intro psbt hpsbt
    simp only [List.mem_cons, List.not_mem_nil, or_false] at hpsbt
    rcases hpsbt with rfl | rfl | rfl <;> exact signerPsbt_dupFree _
  have hagree := AgreeByKey.of_items hdup (by decide)
  have hunion := psbtCombine_merges.1 (signerPsbt 1) (signerPsbt 2) (signerPsbt_dupFree 1)
    (signerPsbt_dupFree 2) (by decide)
  exact ⟨hunion.1, psbtCombine_merges.2 _ _ _ hdup hagree (List.Perm.swap _ _ _)⟩

end Libdogecoin
