/-
# What a signature hash is the hash of

The message of a signature in words of the transaction that is signed: which inputs and outputs are
left, and what they carry. `dogecoin_tx_sighash` gets there by clearing and cutting a copy.

* `sighashTx_eq` : the copy at the end is the transaction of the message.
-/
import Libdogecoin.Sighash

namespace Libdogecoin

/-- What a signature commits to besides its own input. -/
inductive SighashBase where
  | all
  | none
  | single
  deriving DecidableEq

/-- The five low bits of the hash type. -/
def sighashBase (hashtype : UInt32) : SighashBase :=
  if hashtype &&& 0x1f = sighashNone then .none
  else if hashtype &&& 0x1f = sighashSingle then .single
  else .all

/-- `SIGHASH_ANYONECANPAY` is set. -/
def anyoneCanPay (hashtype : UInt32) : Bool := hashtype &&& sighashAnyonecanpay ≠ 0

namespace SighashBase

/-- The input at an index, as it is signed by the input `inNum`. -/
def input (base : SighashBase) (code : Bytes) (inNum i : ℕ) (txIn : TxIn) : TxIn where
  prevout := txIn.prevout
  scriptSig := if i = inNum then code else []
  sequence := if i ≠ inNum ∧ base ≠ .all then 0 else txIn.sequence

/-- The outputs that are signed by the input `inNum`. -/
def outputs (base : SighashBase) (inNum : ℕ) (vout : List TxOut) : List TxOut :=
  match base with
  | .all => vout
  | .none => []
  | .single => List.replicate inNum { value := 0xffffffffffffffff, scriptPubkey := [] } ++
      vout[inNum]?.toList

/-- There is an output for the signature of the input `inNum`. -/
def HasOutput (base : SighashBase) (inNum : ℕ) (vout : List TxOut) : Prop :=
  base = .single → inNum < vout.length

instance (base : SighashBase) (inNum : ℕ) (vout : List TxOut) :
    Decidable (base.HasOutput inNum vout) :=
  inferInstanceAs (Decidable (_ → _))

end SighashBase

/-- The transaction that a signature of the input `inNum` commits to. -/
def preimageTx (tx : Tx) (code : Bytes) (inNum : ℕ) (hashtype : UInt32) : Tx where
  version := tx.version
  vin :=
    let signed := tx.vin.mapIdx ((sighashBase hashtype).input code inNum)
    if anyoneCanPay hashtype then signed[inNum]?.toList else signed
  vout := (sighashBase hashtype).outputs inNum tx.vout
  locktime := tx.locktime

/-- The message of a signature of the input `inNum`. -/
def legacyPreimage (tx : Tx) (code : Bytes) (inNum : ℕ) (hashtype : UInt32) : Bytes :=
  txSerialize (preimageTx tx code inNum hashtype) ++ serU32 hashtype

theorem take_one_drop {α : Type} (l : List α) (i : ℕ) : (l.drop i).take 1 = l[i]?.toList := by
  rw [List.take_one, List.head?_drop]

/-- The scripts first, and the sequences after them. -/
theorem sighashSequences_sighashInputs (code : Bytes) (inNum : ℕ) (vin : List TxIn)
    {base : SighashBase} (hbase : base ≠ .all) :
    sighashSequences inNum (sighashInputs code inNum vin) = vin.mapIdx (base.input code inNum) := by
  unfold sighashSequences sighashInputs
  rw [List.mapIdx_mapIdx]
  congr 1
  funext i txIn
  by_cases hi : i = inNum
  · simp [SighashBase.input, hi]
  · simp [SighashBase.input, hi, hbase]

theorem sighashInputs_eq (code : Bytes) (inNum : ℕ) (vin : List TxIn) :
    sighashInputs code inNum vin = vin.mapIdx (SighashBase.all.input code inNum) := by
  unfold sighashInputs
  congr 1
  funext i txIn
  simp [SighashBase.input]

/-- The outputs up to the one of the input, with nothing in those before it. -/
theorem single_outputs {vout : List TxOut} {inNum : ℕ} (h : inNum < vout.length) :
    ((vout.take (inNum + 1)).mapIdx fun i txOut =>
      if i < inNum then { value := 0xffffffffffffffff, scriptPubkey := [] } else txOut) =
      SighashBase.single.outputs inNum vout := by
  unfold SighashBase.outputs
  rw [List.take_add_one, List.mapIdx_append, List.getElem?_eq_getElem h,
    List.length_take_of_le (Nat.le_of_lt h)]
  congr 1
  · apply List.ext_getElem?
    intro i
    rw [List.getElem?_mapIdx, List.getElem?_take, List.getElem?_replicate]
    by_cases hi : i < inNum
    · rw [if_pos hi, if_pos hi, List.getElem?_eq_getElem (Nat.lt_trans hi h),
        Option.map_some, if_pos hi]
    · rw [if_neg hi, if_neg hi]
      rfl
  · show [if 0 + inNum < inNum then _ else _] = [_]
    rw [if_neg (by omega)]

/-- The copy before inputs are removed from it. -/
def sighashTmp (tx : Tx) (code : Bytes) (inNum : ℕ) : SighashBase → Option Tx
  | .none =>
    some { tx with vin := sighashSequences inNum (sighashInputs code inNum tx.vin), vout := [] }
  | .single =>
    if inNum ≥ tx.vout.length then none
    else
      let vout := (tx.vout.take (inNum + 1)).mapIdx fun i txOut =>
        if i < inNum then { value := 0xffffffffffffffff, scriptPubkey := [] } else txOut
      some { tx with vin := sighashSequences inNum (sighashInputs code inNum tx.vin), vout := vout }
  | .all => some { tx with vin := sighashInputs code inNum tx.vin }

/-- The copy is cleared by its base type, and then cut. -/
theorem sighashTx_steps {tx : Tx} {inNum : ℕ} (h : inNum < tx.vin.length) (script : Bytes)
    (hashtype : UInt32) :
    sighashTx tx script inNum hashtype =
      (sighashTmp tx (scriptCopyWithoutOpCodeseperator script).1 inNum (sighashBase hashtype)).map
      fun tmp =>
        if anyoneCanPay hashtype then { tmp with vin := (tmp.vin.drop inNum).take 1 } else tmp := by
  have hin : ¬ inNum ≥ tx.vin.length := Nat.not_le.mpr h
  have hne : ¬ sighashSingle = sighashNone := by decide
  unfold sighashTx sighashBase anyoneCanPay
  by_cases hany : hashtype &&& sighashAnyonecanpay = 0
  · by_cases hnone : hashtype &&& 0x1f = sighashNone
    · simp [hin, hnone, sighashTmp, hany]
    · by_cases hsingle : hashtype &&& 0x1f = sighashSingle
      · by_cases hout : inNum ≥ tx.vout.length
        · simp [hin, hsingle, hne, sighashTmp, hout]
        · simp [hin, hsingle, hne, sighashTmp, hout, hany]
      · simp [hin, hnone, hsingle, sighashTmp, hany]
  · by_cases hnone : hashtype &&& 0x1f = sighashNone
    · simp [hin, hnone, sighashTmp, hany]
    · by_cases hsingle : hashtype &&& 0x1f = sighashSingle
      · by_cases hout : inNum ≥ tx.vout.length
        · simp [hin, hsingle, hne, sighashTmp, hout]
        · simp [hin, hsingle, hne, sighashTmp, hout, hany]
      · simp [hin, hnone, hsingle, sighashTmp, hany]

/-- **The copy ends as the transaction of the message.** -/
theorem sighashTx_eq (tx : Tx) (script : Bytes) (inNum : ℕ) (hashtype : UInt32) :
    sighashTx tx script inNum hashtype =
      if inNum < tx.vin.length ∧ (sighashBase hashtype).HasOutput inNum tx.vout then
        some (preimageTx tx (scriptCopyWithoutOpCodeseperator script).1 inNum hashtype)
      else none := by
  by_cases hin : inNum < tx.vin.length
  · rw [sighashTx_steps hin]
    unfold preimageTx
    cases hbase : sighashBase hashtype with
    | all =>
      have hhas : SighashBase.all.HasOutput inNum tx.vout := by
        intro h
        cases h
      rw [if_pos ⟨hin, hhas⟩, sighashTmp, sighashInputs_eq, Option.map_some]
      simp only [take_one_drop]
      split_ifs
      · rfl
      · rfl
    | none =>
      have hhas : SighashBase.none.HasOutput inNum tx.vout := by
        intro h
        cases h
      rw [if_pos ⟨hin, hhas⟩, sighashTmp, @sighashSequences_sighashInputs _ _ _ .none (by decide),
        Option.map_some]
      simp only [take_one_drop]
      split_ifs
      · rfl
      · rfl
    | single =>
      by_cases hout : inNum < tx.vout.length
      · have hboth : inNum < tx.vin.length ∧ SighashBase.single.HasOutput inNum tx.vout :=
          ⟨hin, fun _ => hout⟩
        rw [if_pos hboth, sighashTmp, if_neg (Nat.not_le.mpr hout), single_outputs hout,
          @sighashSequences_sighashInputs _ _ _ .single (by decide), Option.map_some]
        simp only [take_one_drop]
        split_ifs
        · rfl
        · rfl
      · have hnot : ¬ (inNum < tx.vin.length ∧ SighashBase.single.HasOutput inNum tx.vout) :=
          fun h => hout (h.2 rfl)
        rw [if_neg hnot, sighashTmp, if_pos (Nat.not_lt.mp hout)]
        rfl
  · rw [if_neg fun h => hin h.1]
    unfold sighashTx
    rw [if_pos (Nat.not_lt.mp hin)]
    rfl

end Libdogecoin
