/-
# Combining partially signed transactions

`dogecoin_psbt_combine` merges the maps of a source into those of a destination with the same
transaction, place by place and entry by entry. What stands in the maps is a collection of items
with keys, and the merge takes up the items of the source in the order in which it walks its maps.

* `psbtCombine_eq` : the merge of the maps is the merge of the items.
-/
import Libdogecoin.Psbt
import Libdogecoin.KeyedMerge

namespace Libdogecoin

open KeyedMerge

/-! ## The merge -/

/-- A field of a record is merged. -/
def mergeInto {σ α : Type} (set : α → σ) (merged : α × Bool) : σ × Bool := merged.map set id

/-- Two transactions are written with the same bytes. -/
def sameTx (d s : Tx) : Bool := txSerialize d = txSerialize s

/-- Partial signatures, derivation paths and extended keys are kept as they are where their key is
there. -/
def keepOld {α : Type} (_ _ : α) : Bool := true

/-- Pairs that are not understood have to have the same value. -/
def sameValue (d s : PsbtUnknown) : Bool := d.value = s.value

/-- The merge of an input in `dogecoin_psbt_combine`. -/
def psbtCombineInput (dst src : PsbtInput) : PsbtInput × Bool :=
  mergeThen
    (fun dst => mergeInto (fun f => { dst with nonWitnessUtxo := f })
      (mergeField sameTx dst.nonWitnessUtxo src.nonWitnessUtxo)) (mergeThen
    (fun dst => mergeInto (fun f => { dst with redeemScript := f })
      (mergeField (fun d s => d = s) dst.redeemScript src.redeemScript)) (mergeThen
    (fun dst => mergeInto (fun f => { dst with finalScriptSig := f })
      (mergeField (fun d s => d = s) dst.finalScriptSig src.finalScriptSig)) (mergeThen
    (fun dst => mergeInto (fun f => { dst with sighashType := f })
      (mergeField (fun d s => d = s) dst.sighashType src.sighashType)) (mergeThen
    (fun dst => mergeInto (fun l => { dst with partialSigs := l })
      (mergeRow (fun d s => d.pubkey = s.pubkey) keepOld dst.partialSigs src.partialSigs))
        (mergeThen
    (fun dst => mergeInto (fun l => { dst with keypaths := l })
      (mergeRow (fun d s => d.pubkey = s.pubkey) keepOld dst.keypaths src.keypaths))
    (fun dst => mergeInto (fun l => { dst with unknowns := l })
      (mergeRow (fun d s => d.key = s.key) sameValue dst.unknowns src.unknowns))))))) dst

/-- The merge of an output in `dogecoin_psbt_combine`. -/
def psbtCombineOutput (dst src : PsbtOutput) : PsbtOutput × Bool :=
  mergeThen
    (fun dst => mergeInto (fun f => { dst with redeemScript := f })
      (mergeField (fun d s => d = s) dst.redeemScript src.redeemScript)) (mergeThen
    (fun dst => mergeInto (fun l => { dst with keypaths := l })
      (mergeRow (fun d s => d.pubkey = s.pubkey) keepOld dst.keypaths src.keypaths))
    (fun dst => mergeInto (fun l => { dst with unknowns := l })
      (mergeRow (fun d s => d.key = s.key) sameValue dst.unknowns src.unknowns))) dst

/-- Both have maps for as many inputs and outputs, and the same unsigned transaction. -/
def SameHeader (dst src : Psbt) : Prop :=
  dst.inputs.length = src.inputs.length ∧ dst.outputs.length = src.outputs.length ∧
    txSerialize dst.tx = txSerialize src.tx

instance (dst src : Psbt) : Decidable (SameHeader dst src) := inferInstanceAs (Decidable (_ ∧ _))

/-- `dogecoin_psbt_combine` : the destination as the call leaves it, and what it returns. -/
def psbtCombine (dst src : Psbt) : Psbt × Bool :=
  if ¬ SameHeader dst src then (dst, false)
  else
    mergeThen
      (fun dst => mergeInto (fun l => { dst with inputs := l })
        (mergeMany psbtCombineInput dst.inputs src.inputs))
      (mergeThen
      (fun dst => mergeInto (fun l => { dst with outputs := l })
        (mergeMany psbtCombineOutput dst.outputs src.outputs))
      (mergeThen
      (fun dst => mergeInto (fun l => { dst with xpubs := l })
        (mergeRow (fun d s => d.xpub = s.xpub) keepOld dst.xpubs src.xpubs))
      (fun dst => mergeInto (fun l => { dst with unknowns := l })
        (mergeRow (fun d s => d.key = s.key) sameValue dst.unknowns src.unknowns)))) dst

/-! ## Items and their keys -/

/-- What may stand in the map of an input. -/
inductive PsbtInputItem where
  | nonWitnessUtxo (tx : Tx)
  | redeemScript (script : Bytes)
  | finalScriptSig (script : Bytes)
  | sighashType (sh : UInt32)
  | partialSig (ps : PsbtPartialsig)
  | keypath (kp : PsbtKeypath)
  | unknown (u : PsbtUnknown)
  deriving DecidableEq

/-- The keys of an input. -/
inductive PsbtInputKey where
  | nonWitnessUtxo
  | redeemScript
  | finalScriptSig
  | sighashType
  | partialSig (pubkey : PsbtPubkey)
  | keypath (pubkey : PsbtPubkey)
  | unknown (key : Bytes)
  deriving DecidableEq

namespace PsbtInputItem

def key : PsbtInputItem → PsbtInputKey
  | nonWitnessUtxo _ => .nonWitnessUtxo
  | redeemScript _ => .redeemScript
  | finalScriptSig _ => .finalScriptSig
  | sighashType _ => .sighashType
  | partialSig ps => .partialSig ps.pubkey
  | keypath kp => .keypath kp.pubkey
  | unknown u => .unknown u.key

/-- What the merge compares where the key is there. -/
def agree : PsbtInputItem → PsbtInputItem → Bool
  | nonWitnessUtxo d, nonWitnessUtxo s => sameTx d s
  | redeemScript d, redeemScript s => d = s
  | finalScriptSig d, finalScriptSig s => d = s
  | sighashType d, sighashType s => d = s
  | unknown d, unknown s => sameValue d s
  | _, _ => true

end PsbtInputItem

namespace PsbtInput

def lookup (input : PsbtInput) : PsbtInputKey → Option PsbtInputItem
  | .nonWitnessUtxo => input.nonWitnessUtxo.map .nonWitnessUtxo
  | .redeemScript => input.redeemScript.map .redeemScript
  | .finalScriptSig => input.finalScriptSig.map .finalScriptSig
  | .sighashType => input.sighashType.map .sighashType
  | .partialSig pubkey => (input.partialSigs.find? fun ps => ps.pubkey = pubkey).map .partialSig
  | .keypath pubkey => (input.keypaths.find? fun kp => kp.pubkey = pubkey).map .keypath
  | .unknown key => (input.unknowns.find? fun u => u.key = key).map .unknown

def add (input : PsbtInput) : PsbtInputItem → PsbtInput
  | .nonWitnessUtxo tx => { input with nonWitnessUtxo := some tx }
  | .redeemScript script => { input with redeemScript := some script }
  | .finalScriptSig script => { input with finalScriptSig := some script }
  | .sighashType sh => { input with sighashType := some sh }
  | .partialSig ps => { input with partialSigs := input.partialSigs ++ [ps] }
  | .keypath kp => { input with keypaths := input.keypaths ++ [kp] }
  | .unknown u => { input with unknowns := input.unknowns ++ [u] }

/-- The items of an input, in the order of the merge. -/
def items (input : PsbtInput) : List PsbtInputItem :=
  input.nonWitnessUtxo.toList.map .nonWitnessUtxo ++ (input.redeemScript.toList.map .redeemScript ++
    (input.finalScriptSig.toList.map .finalScriptSig ++
      (input.sighashType.toList.map .sighashType ++
    (input.partialSigs.map .partialSig ++
      (input.keypaths.map .keypath ++ input.unknowns.map .unknown)))))

end PsbtInput

theorem sameTx_refl (tx : Tx) : sameTx tx tx = true := decide_eq_true rfl

theorem sameValue_refl (u : PsbtUnknown) : sameValue u u = true := decide_eq_true rfl

variable {α κ ε : Type}

theorem keepOld_refl (x : α) : keepOld x x = true := rfl

theorem decide_eq_refl [DecidableEq α] (x : α) : decide (x = x) = true := decide_eq_true rfl

theorem PsbtInputItem.agree_refl (e : PsbtInputItem) : e.agree e = true := by
  cases e with
  | nonWitnessUtxo tx => exact sameTx_refl tx
  | unknown u => exact sameValue_refl u
  | partialSig => rfl
  | keypath => rfl
  | _ => exact decide_eq_true rfl

/-- What is found in a row behind one that was added. -/
theorem find?_concat {β : Type} [DecidableEq κ] {key : α → κ} {xs : List α} {x : α} {f : α → β}
    (h : (xs.find? fun y => key y = key x).map f = none) (k : κ) :
    ((xs ++ [x]).find? fun y => key y = k).map f =
      if k = key x then some (f x) else (xs.find? fun y => key y = k).map f := by
  have hadd := (row key (fun _ _ => true) fun _ => rfl).lookup_add (s := xs) (e := x) trivial
    (Option.map_eq_none_iff.mp h) k
  have hlookup : (xs ++ [x]).find? (fun y => key y = k) = if k = key x then some x else
    xs.find? fun y => key y = k := hadd
  rw [hlookup]
  split_ifs <;> rfl

/-- An input holds its items by their keys. -/
def keyedInput : Keyed PsbtInput PsbtInputItem PsbtInputKey where
  key := PsbtInputItem.key
  lookup := PsbtInput.lookup
  add := PsbtInput.add
  agree := PsbtInputItem.agree
  Fits _ _ := True
  lookup_add {s e} _ hnone k := by
    cases e with
    | partialSig ps =>
      cases k with
      | partialSig pubkey =>
        simp only [PsbtInputItem.key, PsbtInputKey.partialSig.injEq]
        exact find?_concat hnone pubkey
      | _ => rfl
    | keypath kp =>
      cases k with
      | keypath pubkey =>
        simp only [PsbtInputItem.key, PsbtInputKey.keypath.injEq]
        exact find?_concat hnone pubkey
      | _ => rfl
    | unknown u =>
      cases k with
      | unknown key =>
        simp only [PsbtInputItem.key, PsbtInputKey.unknown.injEq]
        exact find?_concat hnone key
      | _ => rfl
    | _ => cases k <;> rfl
  fits_add _ := trivial
  agree_refl := PsbtInputItem.agree_refl

/-- What may stand in the map of an output. -/
inductive PsbtOutputItem where
  | redeemScript (script : Bytes)
  | keypath (kp : PsbtKeypath)
  | unknown (u : PsbtUnknown)
  deriving DecidableEq

/-- The keys of an output. -/
inductive PsbtOutputKey where
  | redeemScript
  | keypath (pubkey : PsbtPubkey)
  | unknown (key : Bytes)
  deriving DecidableEq

namespace PsbtOutputItem

def key : PsbtOutputItem → PsbtOutputKey
  | redeemScript _ => .redeemScript
  | keypath kp => .keypath kp.pubkey
  | unknown u => .unknown u.key

/-- What the merge compares where the key is there. -/
def agree : PsbtOutputItem → PsbtOutputItem → Bool
  | redeemScript d, redeemScript s => d = s
  | unknown d, unknown s => sameValue d s
  | _, _ => true

theorem agree_refl (e : PsbtOutputItem) : e.agree e = true := by
  cases e with
  | redeemScript script => exact decide_eq_true rfl
  | keypath => rfl
  | unknown u => exact sameValue_refl u

end PsbtOutputItem

namespace PsbtOutput

def lookup (output : PsbtOutput) : PsbtOutputKey → Option PsbtOutputItem
  | .redeemScript => output.redeemScript.map .redeemScript
  | .keypath pubkey => (output.keypaths.find? fun kp => kp.pubkey = pubkey).map .keypath
  | .unknown key => (output.unknowns.find? fun u => u.key = key).map .unknown

def add (output : PsbtOutput) : PsbtOutputItem → PsbtOutput
  | .redeemScript script => { output with redeemScript := some script }
  | .keypath kp => { output with keypaths := output.keypaths ++ [kp] }
  | .unknown u => { output with unknowns := output.unknowns ++ [u] }

/-- The items of an output, in the order of the merge. -/
def items (output : PsbtOutput) : List PsbtOutputItem :=
  output.redeemScript.toList.map .redeemScript ++
    (output.keypaths.map .keypath ++ output.unknowns.map .unknown)

end PsbtOutput

/-- An output holds its items by their keys. -/
def keyedOutput : Keyed PsbtOutput PsbtOutputItem PsbtOutputKey where
  key := PsbtOutputItem.key
  lookup := PsbtOutput.lookup
  add := PsbtOutput.add
  agree := PsbtOutputItem.agree
  Fits _ _ := True
  lookup_add {s e} _ hnone k := by
    cases e with
    | redeemScript => cases k <;> rfl
    | keypath kp =>
      cases k with
      | keypath pubkey =>
        simp only [PsbtOutputItem.key, PsbtOutputKey.keypath.injEq]
        exact find?_concat hnone pubkey
      | _ => rfl
    | unknown u =>
      cases k with
      | unknown key =>
        simp only [PsbtOutputItem.key, PsbtOutputKey.unknown.injEq]
        exact find?_concat hnone key
      | _ => rfl
  fits_add _ := trivial
  agree_refl := PsbtOutputItem.agree_refl

/-- What may stand in the maps of a partially signed transaction. -/
inductive PsbtItem where
  | input (i : ℕ) (item : PsbtInputItem)
  | output (i : ℕ) (item : PsbtOutputItem)
  | xpub (x : PsbtXpub)
  | unknown (u : PsbtUnknown)
  deriving DecidableEq

/-- The keys of a partially signed transaction, each in its map. -/
inductive PsbtKey where
  | input (i : ℕ) (key : PsbtInputKey)
  | output (i : ℕ) (key : PsbtOutputKey)
  | xpub (xpub : PsbtXpubKey)
  | unknown (key : Bytes)
  deriving DecidableEq

namespace PsbtItem

def key : PsbtItem → PsbtKey
  | input i e => .input i e.key
  | output i e => .output i e.key
  | xpub x => .xpub x.xpub
  | unknown u => .unknown u.key

/-- What the merge compares where the key is there. -/
def agree : PsbtItem → PsbtItem → Bool
  | input _ d, input _ s => d.agree s
  | output _ d, output _ s => d.agree s
  | unknown d, unknown s => sameValue d s
  | _, _ => true

theorem agree_refl (e : PsbtItem) : e.agree e = true := by
  cases e with
  | input i e => exact e.agree_refl
  | output i e => exact e.agree_refl
  | xpub => rfl
  | unknown u => exact sameValue_refl u

end PsbtItem

namespace Psbt

def lookup (psbt : Psbt) : PsbtKey → Option PsbtItem
  | .input i key => psbt.inputs[i]?.bind fun input => (input.lookup key).map (.input i)
  | .output i key => psbt.outputs[i]?.bind fun output => (output.lookup key).map (.output i)
  | .xpub xpub => (psbt.xpubs.find? fun x => x.xpub = xpub).map .xpub
  | .unknown key => (psbt.unknowns.find? fun u => u.key = key).map .unknown

def add (psbt : Psbt) : PsbtItem → Psbt
  | .input i e => { psbt with inputs := psbt.inputs.modify i fun input => input.add e }
  | .output i e => { psbt with outputs := psbt.outputs.modify i fun output => output.add e }
  | .xpub x => { psbt with xpubs := psbt.xpubs ++ [x] }
  | .unknown u => { psbt with unknowns := psbt.unknowns ++ [u] }

/-- There is a map for the item. -/
def HasMap (psbt : Psbt) : PsbtItem → Prop
  | .input i _ => i < psbt.inputs.length
  | .output i _ => i < psbt.outputs.length
  | _ => True

/-- The items of the maps, in the order of the merge. -/
def items (psbt : Psbt) : List PsbtItem :=
  (psbt.inputs.mapIdx fun i input => input.items.map (PsbtItem.input i)).flatten ++
    ((psbt.outputs.mapIdx fun i output => output.items.map (PsbtItem.output i)).flatten ++
    (psbt.xpubs.map .xpub ++ psbt.unknowns.map .unknown))

end Psbt

/-- What is found in a place behind a change in one of them. -/
theorem lookup_modify {β : Type} [DecidableEq κ] {K : Keyed α ε κ} {xs : List α} {i : ℕ}
    (hi : i < xs.length) {e : ε} (hfits : ∀ x, K.Fits x e) {f : ℕ → ε → β}
    (hnone : (xs[i]?.bind fun x => (K.lookup x (K.key e)).map (f i)) = none) (j : ℕ) (k : κ) :
    ((xs.modify i fun x => K.add x e)[j]?.bind fun x => (K.lookup x k).map (f j)) =
      if j = i ∧ k = K.key e then some (f i e) else xs[j]?.bind fun x =>
        (K.lookup x k).map (f j) := by
  rw [List.getElem?_modify]
  by_cases hj : i = j
  · subst hj
    rw [List.getElem?_eq_getElem hi, Option.bind_some, Option.map_eq_none_iff] at hnone
    rw [List.getElem?_eq_getElem hi]
    simp only [Option.map_eq_map, Option.map_some, if_true, Option.bind_some, true_and,
      K.lookup_add (hfits _) hnone]
    split_ifs <;> rfl
  · simp only [if_neg hj, if_neg fun h : j = i ∧ k = K.key e => hj h.1.symm]
    cases xs[j]? <;> rfl

/-- A partially signed transaction holds its items by their keys. -/
def keyedPsbt : Keyed Psbt PsbtItem PsbtKey where
  key := PsbtItem.key
  lookup := Psbt.lookup
  add := Psbt.add
  agree := PsbtItem.agree
  Fits := Psbt.HasMap
  lookup_add {s e} hfits hnone k := by
    cases e with
    | input i e =>
      cases k with
      | input j key =>
        simp only [PsbtItem.key, PsbtKey.input.injEq]
        exact lookup_modify (K := keyedInput) hfits (fun _ => trivial) hnone j key
      | _ => rfl
    | output i e =>
      cases k with
      | output j key =>
        simp only [PsbtItem.key, PsbtKey.output.injEq]
        exact lookup_modify (K := keyedOutput) hfits (fun _ => trivial) hnone j key
      | _ => rfl
    | xpub x =>
      cases k with
      | xpub xpub =>
        simp only [PsbtItem.key, PsbtKey.xpub.injEq]
        exact find?_concat hnone xpub
      | _ => rfl
    | unknown u =>
      cases k with
      | unknown key =>
        simp only [PsbtItem.key, PsbtKey.unknown.injEq]
        exact find?_concat hnone key
      | _ => rfl
  fits_add {s e e'} hfits := by
    cases e' with
    | input i e' =>
      cases e with
      | input j e => exact Nat.lt_of_lt_of_eq hfits (List.length_modify _ _ _).symm
      | _ => exact hfits
    | output i e' =>
      cases e with
      | output j e => exact Nat.lt_of_lt_of_eq hfits (List.length_modify _ _ _).symm
      | _ => exact hfits
    | _ => trivial
  agree_refl := PsbtItem.agree_refl

/-! ## The merge of the maps is the merge of the items -/

/-- A field of a record is merged as its items. -/
theorem mergeInto_field {σ : Type} [DecidableEq κ] {K : Keyed σ ε κ} {agree : α → α → Bool}
    (hrefl : ∀ x, agree x x = true) {set : Option α → σ} {g : α → ε}
    (hpart : PartOf (field agree hrefl) K set g) (dst src : Option α) :
    mergeInto set (mergeField agree dst src) = run K (set dst) (src.toList.map g) := by
  rw [hpart.run, mergeInto, mergeField_eq hrefl]

/-- A row of a record is merged as its items. -/
theorem mergeInto_row {σ κ' : Type} [DecidableEq κ] [DecidableEq κ'] {K : Keyed σ ε κ}
    {agree : α → α → Bool} (hrefl : ∀ x, agree x x = true) {key : α → κ'} {set : List α → σ}
    {g : α → ε} (hpart : PartOf (row key agree hrefl) K set g) (dst src : List α) :
    mergeInto set (mergeRow (fun d s => key d = key s) agree dst src) =
      run K (set dst) (src.map g) := by
  rw [hpart.run, mergeInto, mergeRow_eq key hrefl]

theorem psbtCombineInput_eq (dst src : PsbtInput) :
    psbtCombineInput dst src = run keyedInput dst src.items := by
  unfold psbtCombineInput PsbtInput.items
  simp only [run_append]
  congr 1
  · funext dst
    refine mergeInto_field sameTx_refl ?_ _ _
    exact ⟨fun _ _ => rfl, fun _ _ => rfl, fun _ _ => rfl⟩
  congr 1
  · funext dst
    refine mergeInto_field decide_eq_refl ?_ _ _
    exact ⟨fun _ _ => rfl, fun _ _ => rfl, fun _ _ => rfl⟩
  congr 1
  · funext dst
    refine mergeInto_field decide_eq_refl ?_ _ _
    exact ⟨fun _ _ => rfl, fun _ _ => rfl, fun _ _ => rfl⟩
  congr 1
  · funext dst
    refine mergeInto_field decide_eq_refl ?_ _ _
    exact ⟨fun _ _ => rfl, fun _ _ => rfl, fun _ _ => rfl⟩
  congr 1
  · funext dst
    refine mergeInto_row keepOld_refl ?_ _ _
    exact ⟨fun _ _ => rfl, fun _ _ => rfl, fun _ _ => rfl⟩
  congr 1
  · funext dst
    refine mergeInto_row keepOld_refl ?_ _ _
    exact ⟨fun _ _ => rfl, fun _ _ => rfl, fun _ _ => rfl⟩
  · funext dst
    refine mergeInto_row sameValue_refl ?_ _ _
    exact ⟨fun _ _ => rfl, fun _ _ => rfl, fun _ _ => rfl⟩

theorem psbtCombineOutput_eq (dst src : PsbtOutput) :
    psbtCombineOutput dst src = run keyedOutput dst src.items := by
  unfold psbtCombineOutput PsbtOutput.items
  simp only [run_append]
  congr 1
  · funext dst
    refine mergeInto_field decide_eq_refl ?_ _ _
    exact ⟨fun _ _ => rfl, fun _ _ => rfl, fun _ _ => rfl⟩
  congr 1
  · funext dst
    refine mergeInto_row keepOld_refl ?_ _ _
    exact ⟨fun _ _ => rfl, fun _ _ => rfl, fun _ _ => rfl⟩
  · funext dst
    refine mergeInto_row sameValue_refl ?_ _ _
    exact ⟨fun _ _ => rfl, fun _ _ => rfl, fun _ _ => rfl⟩

theorem modify_append_length (before after : List α) (x : α) (f : α → α) :
    (before ++ x :: after).modify before.length f = before ++ f x :: after := by
  induction before with
  | nil => rfl
  | cons b before ih =>
    rw [List.cons_append, List.length_cons, List.modify_succ_cons, ih]
    rfl

/-- An input in its place is a part of the whole. -/
theorem partOf_input (psbt : Psbt) (before after : List PsbtInput) :
    PartOf keyedInput keyedPsbt (fun x => { psbt with inputs := before ++ x :: after })
      (PsbtItem.input before.length) where
  lookup s e := by
    show ((before ++ s :: after)[before.length]?.bind fun input => (input.lookup e.key).map _) = _
    rw [List.getElem?_append_right (Nat.le_refl _), Nat.sub_self]
    rfl
  add s e := by
    show { psbt with
      inputs := (before ++ s :: after).modify before.length fun input => input.add e } = _
    rw [modify_append_length]
    rfl
  agree _ _ := rfl

/-- An output in its place is a part of the whole. -/
theorem partOf_output (psbt : Psbt) (before after : List PsbtOutput) :
    PartOf keyedOutput keyedPsbt (fun x => { psbt with outputs := before ++ x :: after })
      (PsbtItem.output before.length) where
  lookup s e := by
    show ((before ++ s :: after)[before.length]?.bind fun output => (output.lookup e.key).map _) = _
    rw [List.getElem?_append_right (Nat.le_refl _), Nat.sub_self]
    rfl
  add s e := by
    show { psbt with
      outputs := (before ++ s :: after).modify before.length fun output => output.add e } = _
    rw [modify_append_length]
    rfl
  agree _ _ := rfl

/-- **The merge of the maps** is the merge of the items of the source, one after the other. -/
theorem psbtCombine_eq {dst src : Psbt} (h : SameHeader dst src) :
    psbtCombine dst src = run keyedPsbt dst src.items := by
  have hinputs := @mergeMany_eq _ _ _ _ _ _ _ _ keyedInput keyedPsbt psbtCombineInput
    PsbtInput.items psbtCombineInput_eq
    (fun l => { dst with inputs := l }) PsbtItem.input (partOf_input dst) _ _ h.1 []
  have hrest := fun inputs => @mergeMany_eq _ _ _ _ _ _ _ _ keyedOutput keyedPsbt psbtCombineOutput
    PsbtOutput.items
    psbtCombineOutput_eq (fun l => { dst with inputs := inputs, outputs := l }) PsbtItem.output
    (partOf_output { dst with inputs := inputs }) _ _ h.2.1 []
  simp only [List.nil_append, List.length_nil, Nat.zero_add] at hinputs hrest
  rw [psbtCombine, if_neg (not_not_intro h), Psbt.items, run_append]
  refine mergeThen_congr hinputs.symm ?_
  rw [run_append]
  refine mergeThen_congr (hrest _).symm ?_
  rw [run_append]
  refine mergeThen_congr ?_ ?_
  · refine mergeInto_row keepOld_refl ?_ _ _
    exact ⟨fun _ _ => rfl, fun _ _ => rfl, fun _ _ => rfl⟩
  · refine mergeInto_row sameValue_refl ?_ _ _
    exact ⟨fun _ _ => rfl, fun _ _ => rfl, fun _ _ => rfl⟩

end Libdogecoin
