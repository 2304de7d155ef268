/-
# Signature hashes

`dogecoin_tx_sighash` and the copy of a script that it hashes. What an input of the transaction
carries as its script has no part in the hash.
-/
import Libdogecoin.Script

namespace Libdogecoin

/-- `OP_CODESEPARATOR`. -/
def opCodeseparator : UInt8 := 0xab

/-- `SIGHASH_NONE`. -/
def sighashNone : UInt32 := 2
/-- `SIGHASH_SINGLE`. -/
def sighashSingle : UInt32 := 3
/-- `SIGHASH_ANYONECANPAY`. -/
def sighashAnyonecanpay : UInt32 := 0x80

/-! ## The script without separators -/

/-- What is written for an opcode before its data, the length of the data, and the script behind.
Nothing if the length breaks off, and nothing inside if the opcode is left out. -/
def copyHeader (opcode : UInt8) (buf : Bytes) : Option (Option (Bytes × ℕ × Bytes)) :=
  if opcode < opPushdata1 ∧ opcode > op0 then some (some ([opcode], opcode.toNat, buf))
  else if opcode = opPushdata1 then
    match buf with
    | [] => none
    | v8 :: rest => some (some ([opcode, v8], v8.toNat, rest))
  else if opcode = opPushdata2 then
    (deserU16 buf).map fun (v16, rest) => some (opcode :: serU16 v16, v16.toNat, rest)
  else if opcode = opPushdata4 then
    (deserU32 buf).map fun (v32, rest) => some (opcode :: serU32 v32, v32.toNat, rest)
  else if opcode = opCodeseparator then some none
  else some (some ([], 0, buf))

/-- The loop over a script that is not longer than the fuel: what was copied, and whether it ended
well. -/
def copyOps : ℕ → Bytes → Bytes × Bool
  | _, [] => ([], true)
  | 0, _ :: _ => ([], false)
  | fuel + 1, opcode :: rest =>
    match copyHeader opcode rest with
    | none => ([], false)
    | some none => copyOps fuel rest
    | some (some (header, dataLen, rest)) =>
      if dataLen > 0 then
        if dataLen > rest.length then (header, false)
        else
          let (copied, ok) := copyOps fuel (rest.drop dataLen)
          (header ++ rest.take dataLen ++ copied, ok)
      else
        -- also behind the header of an `OP_PUSHDATA` without data, which has its opcode already
        let (copied, ok) := copyOps fuel rest
        (header ++ [opcode] ++ copied, ok)

/-- `dogecoin_script_copy_without_op_codeseperator`. -/
def scriptCopyWithoutOpCodeseperator (scriptIn : Bytes) : Bytes × Bool :=
  if scriptIn.length = 0 then ([], false) else copyOps scriptIn.length scriptIn

/-! ## The hash -/

/-- The inputs with the script in the place of the signed one, and no script elsewhere. -/
def sighashInputs (newScript : Bytes) (inNum : ℕ) (vin : List TxIn) : List TxIn :=
  vin.mapIdx fun i txIn => { txIn with scriptSig := if i = inNum then newScript else [] }

/-- No sequence but that of the signed input. -/
def sighashSequences (inNum : ℕ) (vin : List TxIn) : List TxIn :=
  vin.mapIdx fun i txIn => if i = inNum then txIn else { txIn with sequence := 0 }

/-- The transaction that is hashed. -/
def sighashTx (txTo : Tx) (fromPubKey : Bytes) (inNum : ℕ) (hashtype : UInt32) : Option Tx := do
  if inNum ≥ txTo.vin.length then none
  -- the result of the copy is not looked at
  let vin := sighashInputs (scriptCopyWithoutOpCodeseperator fromPubKey).1 inNum txTo.vin
  let tx ←
    if hashtype &&& 0x1f = sighashNone then
      some { txTo with vin := sighashSequences inNum vin, vout := [] }
    else if hashtype &&& 0x1f = sighashSingle then
      if inNum ≥ txTo.vout.length then none
      else
        let vout := (txTo.vout.take (inNum + 1)).mapIdx fun i txOut =>
          if i < inNum then { value := 0xffffffffffffffff, scriptPubkey := [] } else txOut
        some { txTo with vin := sighashSequences inNum vin, vout := vout }
    else some { txTo with vin := vin }
  if hashtype &&& sighashAnyonecanpay ≠ 0 then some { tx with vin := (tx.vin.drop inNum).take 1 }
  else some tx

/-- `dogecoin_tx_sighash` : nothing where it returns false. -/
def txSighash (pf : Platform) (txTo : Tx) (fromPubKey : Bytes) (inNum : ℕ) (hashtype : UInt32) :
    Option Uint256 :=
  (sighashTx txTo fromPubKey inNum hashtype).map fun tx =>
    pf.sha256d (txSerialize tx ++ serU32 hashtype)

/-! ## Scripts of inputs -/

/-- A transaction with another script in one of its inputs. -/
def Tx.setScriptSig (tx : Tx) (index : ℕ) (scriptSig : Bytes) : Tx :=
  { tx with vin := tx.vin.modify index fun txIn => { txIn with scriptSig := scriptSig } }

/-- The script in an input, if there is the input. -/
def Tx.scriptSigAt (tx : Tx) (index : ℕ) : Option Bytes := tx.vin[index]?.map TxIn.scriptSig

variable {tx : Tx} {index : ℕ}

theorem Tx.lt_of_scriptSigAt {scriptSig : Bytes} (h : tx.scriptSigAt index = some scriptSig) :
    index < tx.vin.length := by
  obtain ⟨txIn, htxIn, -⟩ := Option.map_eq_some_iff.mp h
  exact (List.getElem?_eq_some_iff.mp htxIn).1

theorem Tx.scriptSigAt_setScriptSig (h : index < tx.vin.length) (scriptSig : Bytes) :
    (tx.setScriptSig index scriptSig).scriptSigAt index = some scriptSig := by
  rw [scriptSigAt, setScriptSig, List.getElem?_modify_eq, List.getElem?_eq_getElem h]
  rfl

theorem Tx.scriptSigAt_setScriptSig_of_ne {i : ℕ} (h : i ≠ index) (scriptSig : Bytes) :
    (tx.setScriptSig index scriptSig).scriptSigAt i = tx.scriptSigAt i := by
  simp [scriptSigAt, setScriptSig, h.symm]

end Libdogecoin
