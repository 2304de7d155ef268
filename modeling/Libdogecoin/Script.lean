/-
# Output scripts

`script.c` : the operations of a script and the four templates of an output script. A script that
breaks off is classified by the operations in front of the break.

* `scriptGetOps_p2pkhScript` : the operations of a pay-to-public-key-hash script;
* `scriptClassify_p2pkhScript` : the data that is found in one.
-/
import Libdogecoin.Keys

namespace Libdogecoin

/-! ## Opcodes -/

/-- `OP_0`. -/
def op0 : UInt8 := 0x00
/-- `OP_PUSHDATA1`. -/
def opPushdata1 : UInt8 := 0x4c
/-- `OP_PUSHDATA2`. -/
def opPushdata2 : UInt8 := 0x4d
/-- `OP_PUSHDATA4`. -/
def opPushdata4 : UInt8 := 0x4e
/-- `OP_1`. -/
def op1 : UInt8 := 0x51
/-- `OP_16`. -/
def op16 : UInt8 := 0x60
/-- `OP_DUP`. -/
def opDup : UInt8 := 0x76
/-- `OP_EQUAL`. -/
def opEqual : UInt8 := 0x87
/-- `OP_EQUALVERIFY`. -/
def opEqualverify : UInt8 := 0x88
/-- `OP_HASH160`. -/
def opHash160 : UInt8 := 0xa9
/-- `OP_CHECKSIG`. -/
def opChecksig : UInt8 := 0xac
/-- `OP_CHECKMULTISIG`. -/
def opCheckmultisig : UInt8 := 0xae

/-- `dogecoin_script_op`. -/
structure ScriptOp where
  op : UInt8
  data : Bytes
  deriving DecidableEq

/-! ## Reading a script -/

/-- What an opcode pushes: no data, or a number of bytes and the script behind the number. Nothing
if the number breaks off. -/
def pushLength (opcode : UInt8) (buf : Bytes) : Option (Option (ℕ × Bytes)) :=
  if opcode < opPushdata1 then some (some (opcode.toNat, buf))
  else if opcode = opPushdata1 then
    match buf with
    | [] => none
    | v8 :: rest => some (some (v8.toNat, rest))
  else if opcode = opPushdata2 then (deserU16 buf).map fun (v16, rest) => some (v16.toNat, rest)
  else if opcode = opPushdata4 then (deserU32 buf).map fun (v32, rest) => some (v32.toNat, rest)
  else some none

/-- The loop over a script that is not longer than the fuel: the operations, and whether it ended
well. -/
def getOps : ℕ → Bytes → List ScriptOp × Bool
  | _, [] => ([], true)
  | 0, _ :: _ => ([], false)
  | fuel + 1, opcode :: rest =>
    match pushLength opcode rest with
    | none => ([], false)
    | some none =>
      let (ops, ok) := getOps fuel rest
      ({ op := opcode, data := [] } :: ops, ok)
    | some (some (dataLen, rest)) =>
      if rest.length = 0 ∨ dataLen > rest.length then ([], false)
      else
        let (ops, ok) := getOps fuel (rest.drop dataLen)
        ({ op := opcode, data := rest.take dataLen } :: ops, ok)

/-- `dogecoin_script_get_ops`. -/
def scriptGetOps (script : Bytes) : List ScriptOp × Bool :=
  if script.length = 0 then ([], false) else getOps script.length script

/-! ## Templates -/

namespace ScriptOp

/-- `dogecoin_script_is_pushdata`. -/
def isPushdata (op : ScriptOp) : Bool := op.op ≤ opPushdata4

/-- `dogecoin_script_is_op_pubkey`. -/
def isOpPubkey (op : ScriptOp) : Bool :=
  op.isPushdata && (op.data.length = 33 || op.data.length = 65) &&
    pubkeyGetLength (op.data.headD 0) = op.data.length
where
  /-- `dogecoin_pubkey_get_length`. -/
  pubkeyGetLength (chHeader : UInt8) : ℕ :=
    if chHeader = 2 ∨ chHeader = 3 then 33
    else if chHeader = 4 ∨ chHeader = 6 ∨ chHeader = 7 then 65
    else 0

/-- `dogecoin_script_is_op_pubkeyhash`. -/
def isOpPubkeyhash (op : ScriptOp) : Bool := op.isPushdata && op.data.length = 20

/-- `dogecoin_script_is_op_smallint`. -/
def isOpSmallint (op : ScriptOp) : Bool := op.op = op0 || (op1 ≤ op.op && op.op ≤ op16)

end ScriptOp

/-- `dogecoin_script_is_pubkey`, with the key. -/
def scriptIsPubkey : List ScriptOp → Option Bytes
  | [pubkey, checksig] =>
    if checksig.op = opChecksig ∧ pubkey.isOpPubkey = true then some pubkey.data else none
  | _ => none

/-- `dogecoin_script_is_pubkeyhash`, with the hash. -/
def scriptIsPubkeyhash : List ScriptOp → Option Bytes
  | [dup, hash160, pubkeyhash, equalverify, checksig] =>
    if dup.op = opDup ∧ hash160.op = opHash160 ∧ pubkeyhash.isOpPubkeyhash = true ∧
        equalverify.op = opEqualverify ∧ checksig.op = opChecksig then some pubkeyhash.data
    else none
  | _ => none

/-- `dogecoin_script_is_scripthash`, with the hash. -/
def scriptIsScripthash : List ScriptOp → Option Bytes
  | [hash160, scripthash, equal] =>
    if hash160.op = opHash160 ∧ scripthash.isOpPubkeyhash = true ∧ equal.op = opEqual then
      some scripthash.data
    else none
  | _ => none

/-- `dogecoin_script_is_multisig`. -/
def scriptIsMultisig (ops : List ScriptOp) : Bool :=
  match ops with
  | first :: rest =>
    match rest.reverse with
    | checkmultisig :: last :: keys =>
      ops.length ≤ 16 + 3 && first.isOpSmallint && last.isOpSmallint &&
        checkmultisig.op = opCheckmultisig && keys.all ScriptOp.isOpPubkey
    | _ => false
  | [] => false

/-- `dogecoin_tx_out_type`, as far as `dogecoin_script_classify` tells types apart. -/
inductive TxOutType where
  | nonstandard
  | pubkey
  | pubkeyhash
  | scripthash
  | multisig
  deriving DecidableEq

/-- `dogecoin_script_classify` : the type, and the keys and hashes that were found. -/
def scriptClassify (script : Bytes) : TxOutType × List Bytes :=
  let ops := (scriptGetOps script).1
  let type := if scriptIsMultisig ops then .multisig
    else if (scriptIsPubkey ops).isSome then .pubkey
    else if (scriptIsScripthash ops).isSome then .scripthash
    else if (scriptIsPubkeyhash ops).isSome then .pubkeyhash
    else .nonstandard
  (type, (scriptIsPubkeyhash ops).toList ++ (scriptIsScripthash ops).toList ++
    (scriptIsPubkey ops).toList)

/-! ## Pay to public key hash -/

/-- The script that pays to the hash of a public key. -/
def p2pkhScript (hash : Uint160) : Bytes :=
  [opDup, opHash160, 20] ++ hash.1 ++ [opEqualverify, opChecksig]

theorem length_p2pkhScript (hash : Uint160) : (p2pkhScript hash).length = 25 := by
  simp [p2pkhScript, hash.2]

theorem scriptGetOps_p2pkhScript (hash : Uint160) :
    scriptGetOps (p2pkhScript hash) =
      ([⟨opDup, []⟩, ⟨opHash160, []⟩, ⟨20, hash.1⟩, ⟨opEqualverify, []⟩, ⟨opChecksig, []⟩],
        true) := by
  have hlen : ¬ ((hash.1 ++ [opEqualverify, opChecksig]).length = 0 ∨
      (20 : UInt8).toNat > (hash.1 ++ [opEqualverify, opChecksig]).length) := by
    simp [hash.2]
  have htake : (hash.1 ++ [opEqualverify, opChecksig]).take (20 : UInt8).toNat = hash.1 :=
    List.take_left' hash.2
  have hdrop : (hash.1 ++ [opEqualverify, opChecksig]).drop (20 : UInt8).toNat =
      [opEqualverify, opChecksig] := List.drop_left' hash.2
  have hpush : pushLength 20 (hash.1 ++ [opEqualverify, opChecksig]) =
      some (some ((20 : UInt8).toNat, hash.1 ++ [opEqualverify, opChecksig])) := rfl
  unfold scriptGetOps
  rw [length_p2pkhScript, if_neg (by decide)]
  show getOps 25 (opDup :: opHash160 :: 20 :: (hash.1 ++ [opEqualverify, opChecksig])) = _
  have hrest : getOps 23 (20 :: (hash.1 ++ [opEqualverify, opChecksig])) =
      ([⟨20, hash.1⟩, ⟨opEqualverify, []⟩, ⟨opChecksig, []⟩], true) := by
    rw [getOps, hpush]
    dsimp only
    rw [if_neg hlen, htake, hdrop]
    rfl
  rw [getOps]
  show (_ :: (getOps 24 (opHash160 :: 20 :: (hash.1 ++ [opEqualverify, opChecksig]))).1, _) = _
  rw [getOps]
  show (_ :: _ :: (getOps 23 (20 :: (hash.1 ++ [opEqualverify, opChecksig]))).1,
    (getOps 23 (20 :: (hash.1 ++ [opEqualverify, opChecksig]))).2) = _
  rw [hrest]

/-- The data that is found in a script that pays to a hash is the hash. -/
theorem scriptClassify_p2pkhScript (hash : Uint160) :
    scriptClassify (p2pkhScript hash) = (.pubkeyhash, [hash.1]) := by
  have hhash : ScriptOp.isOpPubkeyhash ⟨20, hash.1⟩ = true := by
    unfold ScriptOp.isOpPubkeyhash
    rw [hash.2]
    rfl
  unfold scriptClassify
  rw [scriptGetOps_p2pkhScript]
  simp [scriptIsPubkeyhash, scriptIsScripthash, scriptIsPubkey, scriptIsMultisig, hhash,
    ScriptOp.isOpSmallint, opDup, op0, op1, op16]

end Libdogecoin
