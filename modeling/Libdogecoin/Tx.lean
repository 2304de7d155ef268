/-
# Transactions

The transaction records of `tx.c` with their wire form and hash. A deserialized input always owns
its `script_sig`, so the pointer is modelled by the string itself; an input without one is written
as if the string were empty.
-/
import Libdogecoin.Serialize

namespace Libdogecoin

/-- `dogecoin_tx_outpoint`. -/
structure TxOutpoint where
  hash : Uint256
  n : UInt32
  deriving DecidableEq

/-- `dogecoin_tx_in`. -/
structure TxIn where
  prevout : TxOutpoint
  scriptSig : Bytes
  sequence : UInt32
  deriving DecidableEq

/-- `dogecoin_tx_out`, with the bit pattern of its signed value. -/
structure TxOut where
  value : UInt64
  scriptPubkey : Bytes
  deriving DecidableEq

/-- `dogecoin_tx`, with the bit pattern of its signed version. -/
structure Tx where
  version : UInt32
  vin : List TxIn
  vout : List TxOut
  locktime : UInt32
  deriving DecidableEq

/-- `dogecoin_tx_in_deserialize`. The result of reading the previous hash is not checked: on a
buffer that is too short the hash stays zero and nothing is consumed. -/
def txInDeserialize (buf : Bytes) : Option (TxIn × Bytes) := do
  let (hash, rest) := (deserU256 buf).getD (Uint256.zero, buf)
  let (n, rest) ← deserU32 rest
  let (scriptSig, rest) ← deserVarstr rest
  let (sequence, rest) ← deserU32 rest
  some ({ prevout := { hash := hash, n := n }, scriptSig := scriptSig, sequence := sequence }, rest)

/-- `dogecoin_tx_out_deserialize`. -/
def txOutDeserialize (buf : Bytes) : Option (TxOut × Bytes) := do
  let (value, rest) ← deserU64 buf
  let (scriptPubkey, rest) ← deserVarstr rest
  some ({ value := value, scriptPubkey := scriptPubkey }, rest)

/-- The witness items of one input, read and dropped. -/
def witnessDeserialize (buf : Bytes) : Option (Unit × Bytes) := do
  let (vlen, rest) ← deserVarlen buf
  let (_, rest) ← deserMany deserVarstr vlen.toNat rest
  some ((), rest)

/-- The count of inputs after an optional dummy count and flag byte, with the flags. -/
def vinCountDeserialize (allowWitness : Bool) (buf : Bytes) : Option (UInt32 × UInt8 × Bytes) := do
  let (vlen, rest) ← deserVarlen buf
  if vlen = 0 ∧ allowWitness then
    -- the flag byte is read without a check; a missing one leaves the flags zero
    match rest with
    | [] => some (vlen, 0, rest)
    | flags :: rest =>
      if flags ≠ 0 then do
        let (vlen, rest) ← deserVarlen rest
        some (vlen, flags, rest)
      else some (vlen, flags, rest)
  else some (vlen, 0, rest)

/-- `dogecoin_tx_deserialize_ex`, with the unread rest of the buffer. -/
def txDeserializeEx (buf : Bytes) (allowWitness : Bool) : Option (Tx × Bytes) := do
  let (version, rest) ← deserU32 buf
  let (vlen, flags, rest) ← vinCountDeserialize allowWitness rest
  let (vin, rest) ← deserMany txInDeserialize vlen.toNat rest
  let (vlen, rest) ← deserVarlen rest
  let (vout, rest) ← deserMany txOutDeserialize vlen.toNat rest
  let (_, rest) ← if flags &&& 1 ≠ 0 then deserMany witnessDeserialize vin.length rest
    else some ([], rest)
  let flags := if flags &&& 1 ≠ 0 then flags ^^^ 1 else flags
  if flags ≠ 0 then none
  else do
    let (locktime, rest) ← deserU32 rest
    some ({ version := version, vin := vin, vout := vout, locktime := locktime }, rest)

/-- `dogecoin_tx_deserialize`. -/
def txDeserialize (buf : Bytes) : Option (Tx × Bytes) := txDeserializeEx buf true

/-- `dogecoin_tx_in_serialize`. -/
def txInSerialize (i : TxIn) : Bytes :=
  serU256 i.prevout.hash ++ serU32 i.prevout.n ++ serVarstr i.scriptSig ++ serU32 i.sequence

/-- `dogecoin_tx_out_serialize`. -/
def txOutSerialize (o : TxOut) : Bytes := serU64 o.value ++ serVarstr o.scriptPubkey

/-- `dogecoin_tx_serialize` : without witnesses. -/
def txSerialize (tx : Tx) : Bytes :=
  serU32 tx.version ++
    serVarlen (UInt32.ofNat tx.vin.length) ++ tx.vin.flatMap txInSerialize ++
    serVarlen (UInt32.ofNat tx.vout.length) ++ tx.vout.flatMap txOutSerialize ++
    serU32 tx.locktime

/-- `dogecoin_tx_hash`. -/
def txHash (pf : Platform) (tx : Tx) : Uint256 := pf.sha256d (txSerialize tx)

/-! ## Round trip -/

/-- Items that are read back one by one, with a change, are read back all. -/
theorem deserMany_flatMap_map {α β : Type} {item : Bytes → Option (β × Bytes)}
    {ser : α → Bytes} {f : α → β} {xs : List α}
    (h : ∀ x ∈ xs, ∀ rest, item (ser x ++ rest) = some (f x, rest)) (rest : Bytes) :
    deserMany item xs.length (xs.flatMap ser ++ rest) = some (xs.map f, rest) := by
  induction xs with
  | nil => rfl
  | cons x xs ih =>
    have hrest := ih fun y hy => h y (List.mem_cons_of_mem _ hy)
    rw [List.length_cons, List.flatMap_cons, List.append_assoc, deserMany]
    simp only [Option.bind_eq_bind, Option.bind_some, h x List.mem_cons_self, hrest, List.map_cons]

theorem deserMany_flatMap {α : Type} {item : Bytes → Option (α × Bytes)}
    {ser : α → Bytes} {xs : List α} (h : ∀ x ∈ xs, ∀ rest, item (ser x ++ rest) = some (x, rest))
    (rest : Bytes) :
    deserMany item xs.length (xs.flatMap ser ++ rest) = some (xs, rest) := by
  simpa using deserMany_flatMap_map (f := id) h rest

theorem deserU64_serU64 (v : UInt64) (rest : Bytes) :
    deserU64 (serU64 v ++ rest) = some (v, rest) := by
  have hlen : (serU64 v).length = 8 := LittleEndian.length_toBytes 8 _
  have hval : LittleEndian.ofBytes (serU64 v) = v.toNat :=
    LittleEndian.ofBytes_toBytes_of_lt v.toNat_lt
  rw [deserU64, deserBytes_append_of_length hlen]
  simp [hval]

/-- A string reads back, if its length fits the count. -/
theorem deserVarstr_serVarstr {str : Bytes} (h : str.length < 2 ^ 32) (rest : Bytes) :
    deserVarstr (serVarstr str ++ rest) = some (str, rest) := by
  unfold deserVarstr serVarstr
  split_ifs with hempty hlong
  · rw [List.length_eq_zero_iff.mp hempty, deserVarlen_serVarlen]
    rfl
  · omega
  · have hcount : (UInt32.ofNat str.length).toNat = str.length := UInt32.toNat_ofNat_of_lt' h
    rw [List.append_assoc, deserVarlen_serVarlen]
    show deserBytes (UInt32.ofNat str.length).toNat (str ++ rest) = _
    rw [hcount, deserBytes_append]

/-- What has to fit into 32 bits. -/
structure Tx.Sized (tx : Tx) : Prop where
  vin : tx.vin.length < 2 ^ 32
  vout : tx.vout.length < 2 ^ 32
  scriptSig : ∀ txIn ∈ tx.vin, txIn.scriptSig.length < 2 ^ 32
  scriptPubkey : ∀ txOut ∈ tx.vout, txOut.scriptPubkey.length < 2 ^ 32

instance (tx : Tx) : Decidable tx.Sized :=
  decidable_of_iff (tx.vin.length < 2 ^ 32 ∧ tx.vout.length < 2 ^ 32 ∧
      (∀ txIn ∈ tx.vin, txIn.scriptSig.length < 2 ^ 32) ∧
      ∀ txOut ∈ tx.vout, txOut.scriptPubkey.length < 2 ^ 32)
    ⟨fun ⟨hvin, hvout, hsig, hpubkey⟩ => ⟨hvin, hvout, hsig, hpubkey⟩, fun h =>
      ⟨h.vin, h.vout, h.scriptSig, h.scriptPubkey⟩⟩

theorem txInDeserialize_serialize {txIn : TxIn} (h : txIn.scriptSig.length < 2 ^ 32)
    (rest : Bytes) :
    txInDeserialize (txInSerialize txIn ++ rest) = some (txIn, rest) := by
  unfold txInDeserialize txInSerialize
  rw [List.append_assoc, List.append_assoc, List.append_assoc]
  simp only [deserU256_serU256, Option.getD_some, deserU32_serU32, deserVarstr_serVarstr h,
    Option.bind_eq_bind, Option.bind_some]

theorem txOutDeserialize_serialize {txOut : TxOut} (h : txOut.scriptPubkey.length < 2 ^ 32)
    (rest : Bytes) :
    txOutDeserialize (txOutSerialize txOut ++ rest) = some (txOut, rest) := by
  unfold txOutDeserialize txOutSerialize
  rw [List.append_assoc]
  simp only [deserU64_serU64, deserVarstr_serVarstr h, Option.bind_eq_bind, Option.bind_some]

/-- **Round trip of a transaction.** Where a witness is allowed, no inputs read as a mark of one. -/
theorem txDeserializeEx_serialize {tx : Tx} (h : tx.Sized) {allowWitness : Bool}
    (hvin : allowWitness = true → tx.vin ≠ []) (rest : Bytes) :
    txDeserializeEx (txSerialize tx ++ rest) allowWitness = some (tx, rest) := by
  have hin : (UInt32.ofNat tx.vin.length).toNat = tx.vin.length := UInt32.toNat_ofNat_of_lt' h.vin
  have hout : (UInt32.ofNat tx.vout.length).toNat = tx.vout.length :=
    UInt32.toNat_ofNat_of_lt' h.vout
  have hcount : ∀ rest, vinCountDeserialize allowWitness
    (serVarlen (UInt32.ofNat tx.vin.length) ++ rest) =
      some (UInt32.ofNat tx.vin.length, 0, rest) := by
    intro rest
    have hmark : ¬ (UInt32.ofNat tx.vin.length = 0 ∧ allowWitness = true) := by
      rintro ⟨hzero, hallow⟩
      rw [hzero] at hin
      exact hvin hallow (List.length_eq_zero_iff.mp hin.symm)
    unfold vinCountDeserialize
    simp only [deserVarlen_serVarlen, Option.bind_eq_bind, Option.bind_some, if_neg hmark]
  have hvinBack := fun rest => deserMany_flatMap
    (fun txIn htxIn rest => txInDeserialize_serialize (h.scriptSig txIn htxIn) rest) rest
  have hvoutBack := fun rest => deserMany_flatMap
    (fun txOut htxOut rest => txOutDeserialize_serialize (h.scriptPubkey txOut htxOut) rest) rest
  unfold txDeserializeEx txSerialize
  simp only [List.append_assoc]
  simp only [deserU32_serU32, hcount, hin, hvinBack, deserVarlen_serVarlen, hout, hvoutBack,
    Option.bind_eq_bind, Option.bind_some]
  rfl

end Libdogecoin
