/-
# Watched addresses and mempool transactions

`smpv.c` : a client keeps the addresses it watches and the mempool transactions that pay to them in
two arrays. A table of positions belongs to each array, and a second one to the transactions. Memory
is taken to be there; clock times are left out, since no function reads them. The keys in a table
point to the strings of the items: between the free of an address and the table that is built again
no key is read.

* `inv_step` : every call keeps the tables and the counters right;
* `consistent_of_reach` : after any calls the tables are exact, and a search finds what a scan
  finds.
-/
import Libdogecoin.PositionIndex
import Libdogecoin.TransactionHex
import Libdogecoin.Transition

namespace Libdogecoin

open PositionIndex (Index Exact)

/-! ## The client -/

/-- The counters of `dogecoin_smpv_tx` that are filled when a transaction is decoded. -/
structure SmpvTxStats where
  vinCount : UInt32
  voutCount : UInt32
  p2pkhOut : UInt32
  p2shOut : UInt32
  pubkeyOut : UInt32
  multisigOut : UInt32
  opreturnOut : UInt32
  nonstandardOut : UInt32
  totalOutputValue : UInt64
  isCoinbase : Bool

/-- `dogecoin_smpv_tx`. -/
structure SmpvTx where
  txid : List Char
  rawHex : List Char
  decodedTx : Option Tx
  size : ℕ
  isConfirmed : Bool
  confirmations : UInt32
  blockHash : Option (List Char)
  blockHeight : UInt32
  stats : SmpvTxStats

/-- `dogecoin_smpv_watcher`. -/
structure SmpvWatcher where
  address : Bytes
  totalReceived : UInt64
  totalSent : UInt64
  balance : UInt64
  txCount : UInt32
  isActive : Bool

/-- `dogecoin_smpv_client`. The counts of the arrays are their lengths. -/
structure SmpvClient where
  chainParams : KeyParams
  watchers : List SmpvWatcher
  mempoolTxs : List SmpvTx
  txLookup : Index (List Char)
  totalBytes : UInt64
  confirmedCount : UInt32
  unconfirmedCount : UInt32
  watcherIndex : Index Bytes
  txIndex : Index (List Char)

/-- A counter goes up, unless it is at `UINT32_MAX`. -/
def countUp (n : UInt32) : UInt32 := if n < 0xffffffff then n + 1 else n

/-- A counter goes down, unless it is zero. -/
def countDown (n : UInt32) : UInt32 := if n > 0 then n - 1 else n

/-- `P2PKHLEN`, with the terminator. -/
def p2pkhLen : ℕ := 35

/-- `DOGECOIN_MAX_TX_HEX_LEN`, with the terminator. -/
def maxTxHexLen : ℕ := 200001

/-- `VALID_BASE58_CHARS`. -/
def validBase58Chars : Bytes :=
  "123456789ABCDEFGHJKLMNPQRSTUVWXYZabcdefghijkmnopqrstuvwxyz".toList.map fun c =>
    UInt8.ofNat c.toNat

/-- `OP_RETURN`. -/
def opReturn : UInt8 := 0x6a

/-- A string of Base58 characters that fits into the buffer of an address. -/
def isAddressString (address : Bytes) : Bool :=
  address.length ≠ 0 && address.length < p2pkhLen && address.all (· ∈ validBase58Chars)

/-- Whole bytes in hex, and not too many of them. -/
def isRawTxHex (rawTxHex : List Char) : Bool :=
  2 ≤ rawTxHex.length && rawTxHex.length % 2 = 0 && rawTxHex.length ≤ maxTxHexLen - 1 &&
    rawTxHex.all isHexChar

/-- `dogecoin_smpv_decode_tx`. -/
def smpvDecodeTx (rawTxHex : List Char) : Option Tx :=
  if isRawTxHex rawTxHex then (txDeserialize (utilsHexToBin rawTxHex)).map (·.1) else none

/-- `OP_RETURN`, or `OP_FALSE OP_RETURN`. -/
def isOpret (script : Bytes) : Bool :=
  match scriptGetOps script with
  | (opA :: rest, true) => opA.op =
      opReturn || (opA.op = op0 && (rest.head?.any fun opB => opB.op = opReturn))
  | _ => false

/-- The loop over the outputs of a decoded transaction. -/
def SmpvTxStats.countOut (s : SmpvTxStats) (o : TxOut) : SmpvTxStats :=
  let s := { s with totalOutputValue := s.totalOutputValue + o.value }
  if o.scriptPubkey.length > 0 then
    if isOpret o.scriptPubkey then { s with opreturnOut := s.opreturnOut + 1 }
    else
      match (scriptClassify o.scriptPubkey).1 with
      | .pubkey => { s with pubkeyOut := s.pubkeyOut + 1 }
      | .pubkeyhash => { s with p2pkhOut := s.p2pkhOut + 1 }
      | .scripthash => { s with p2shOut := s.p2shOut + 1 }
      | .multisig => { s with multisigOut := s.multisigOut + 1 }
      | .nonstandard => { s with nonstandardOut := s.nonstandardOut + 1 }
  else s

/-- The statistics of a transaction, which are zero where it is not decoded. -/
def smpvTxStats (tx : Option Tx) : SmpvTxStats :=
  match tx with
  | none => ⟨0, 0, 0, 0, 0, 0, 0, 0, 0, false⟩
  | some tx =>
    tx.vout.foldl SmpvTxStats.countOut
      ⟨UInt32.ofNat tx.vin.length, UInt32.ofNat tx.vout.length, 0, 0, 0, 0, 0, 0, 0,
        Wallet.txIsCoinbase tx⟩

namespace SmpvClient

/-- `dogecoin_smpv_client_new`. -/
def new (chainParams : KeyParams) : SmpvClient where
  chainParams := chainParams
  watchers := []
  mempoolTxs := []
  txLookup := []
  totalBytes := 0
  confirmedCount := 0
  unconfirmedCount := 0
  watcherIndex := []
  txIndex := []

/-- The addresses in the array of watchers. -/
def addresses (c : SmpvClient) : List Bytes := c.watchers.map SmpvWatcher.address

/-- The transaction ids in the array of transactions. -/
def txids (c : SmpvClient) : List (List Char) := c.mempoolTxs.map SmpvTx.txid

/-- `dogecoin_smpv_get_watcher` : the position of the watcher. -/
def getWatcher (c : SmpvClient) (address : Bytes) : Option ℕ :=
  PositionIndex.lookup c.addresses c.watcherIndex address

/-- `dogecoin_smpv_get_tx` : the position of the transaction. -/
def getTx (c : SmpvClient) (txid : List Char) :
    Option ℕ := PositionIndex.lookup c.txids c.txIndex txid

/-- `dogecoin_smpv_add_watcher`. -/
def addWatcher (c : SmpvClient) (address : Bytes) : SmpvClient × Bool :=
  let watching := if c.watcherIndex ≠ [] then (PositionIndex.find c.watcherIndex address).isSome
    else (PositionIndex.scan c.addresses address).isSome
  if watching then (c, true)
  else if !isAddressString address then (c, false)
  else
    let watcher : SmpvWatcher := ⟨address, 0, 0, 0, 0, true⟩
    ({ c with
      watchers := c.watchers ++ [watcher]
      watcherIndex := PositionIndex.assign c.watcherIndex address c.watchers.length }, true)

/-- The position of the watcher that is removed. -/
def watcherToRemove (c : SmpvClient) (address : Bytes) : Option ℕ :=
  if c.watcherIndex ≠ [] then
    (PositionIndex.find c.watcherIndex address).filter fun idx => c.addresses[idx]? = some address
  else PositionIndex.scan c.addresses address

/-- `dogecoin_smpv_remove_watcher` : the watchers behind it move up, and the table is built
again. -/
def removeWatcher (c : SmpvClient) (address : Bytes) : SmpvClient × Bool :=
  match c.watcherToRemove address with
  | none => (c, false)
  | some idx =>
    let watchers := c.watchers.eraseIdx idx
    ({ c with
      watchers := watchers
      watcherIndex := PositionIndex.rebuild (watchers.map SmpvWatcher.address) }, true)

/-- `smpv_tx_find_relevant_watcher_address` and `dogecoin_smpv_is_tx_relevant`, whose check of the
address stands behind the search. -/
def relevantAddress (kp : KeyPlatform) (c : SmpvClient) (tx : Tx) : Option Bytes :=
  let isMainnet := c.chainParams.b58prefixPubkeyAddress = keyParamsMain.b58prefixPubkeyAddress
  let found := tx.vout.findSome? fun out =>
    if out.scriptPubkey.length = 0 then none
    else
      (txOutPubkeyHashToP2pkhAddress kp out isMainnet).bind fun outAddress =>
        if c.watcherIndex ≠ [] then
          ((PositionIndex.find c.watcherIndex outAddress).bind fun idx => c.watchers[idx]?).bind
            fun w =>
            if w.isActive then some w.address else none
        else (c.watchers.find? fun w => w.isActive && w.address =
          outAddress).map SmpvWatcher.address
  found.filter isAddressString

/-- One more transaction of a watcher. -/
def SmpvWatcher.countTx (w : SmpvWatcher) : SmpvWatcher := { w with txCount := countUp w.txCount }

/-- A transaction that pays to a watched address is stored. -/
def storeTx (c : SmpvClient) (smpvTx : SmpvTx) (address : Bytes) : SmpvClient :=
  let idx := c.mempoolTxs.length
  let c := { c with
    mempoolTxs := c.mempoolTxs ++ [smpvTx]
    txLookup := (smpvTx.txid, idx) :: c.txLookup
    txIndex := PositionIndex.assign c.txIndex smpvTx.txid idx
    totalBytes := c.totalBytes + UInt64.ofNat smpvTx.size
    unconfirmedCount := countUp c.unconfirmedCount }
  match c.getWatcher address with
  | none => c
  | some i => { c with watchers := c.watchers.modify i SmpvWatcher.countTx }

/-- The transaction in a hex string, as it is first seen. -/
def newTx (kp : KeyPlatform) (rawTxHex : List Char) : SmpvTx where
  txid := hashToString (kp.sha256d (utilsHexToBin rawTxHex))
  rawHex := rawTxHex
  decodedTx := smpvDecodeTx rawTxHex
  size := (utilsHexToBin rawTxHex).length
  isConfirmed := false
  confirmations := 0
  blockHash := none
  blockHeight := 0
  stats := smpvTxStats (smpvDecodeTx rawTxHex)

/-- `dogecoin_smpv_process_tx` : the client, whether it returns `true`, and what the callback is
called with. -/
def processTx (kp : KeyPlatform) (c : SmpvClient) (rawTxHex : List Char) :
    SmpvClient × Bool × Option (SmpvTx × Bytes) :=
  if !isRawTxHex rawTxHex then (c, false, none)
  else
    let smpvTx := newTx kp rawTxHex
    if (c.getTx smpvTx.txid).isSome then (c, true, none)
    else
      match smpvTx.decodedTx.bind (c.relevantAddress kp) with
      | none => (c, false, none)
      | some address =>
        if (c.getTx smpvTx.txid).isSome then (c, false, none)
        else (c.storeTx smpvTx address, true, some (smpvTx, address))

/-- The fields that tell where a transaction is confirmed. -/
def SmpvTx.setStatus (confirmed : Bool) (blockHash : Option (List Char))
    (blockHeight : UInt32) (tx : SmpvTx) :
    SmpvTx :=
  if confirmed then
    { tx with
      isConfirmed := true, blockHeight := blockHeight, confirmations := 1, blockHash := blockHash }
  else { tx with isConfirmed := false, confirmations := 0, blockHeight := 0, blockHash := none }

/-- `dogecoin_smpv_update_tx_status`. -/
def updateTxStatus (c : SmpvClient) (txid : List Char) (confirmed : Bool)
    (blockHash : Option (List Char)) (blockHeight : UInt32) : SmpvClient :=
  match (c.getTx txid).bind fun i => (c.mempoolTxs[i]?).map fun tx => (i, tx) with
  | none => c
  | some (i, tx) =>
    let (confirmedCount, unconfirmedCount) :=
      if !tx.isConfirmed && confirmed then
        (countUp c.confirmedCount, countDown c.unconfirmedCount)
      else if tx.isConfirmed && !confirmed then
        (countDown c.confirmedCount, countUp c.unconfirmedCount)
      else (c.confirmedCount, c.unconfirmedCount)
    { c with
      mempoolTxs := c.mempoolTxs.set i (SmpvTx.setStatus confirmed blockHash blockHeight tx)
      confirmedCount := confirmedCount
      unconfirmedCount := unconfirmedCount }

/-- The confirmations of a transaction under a tip. -/
def SmpvTx.atTip (tipHeight : UInt32) (tx : SmpvTx) : SmpvTx :=
  if !tx.isConfirmed || tx.blockHeight = 0 then tx
  else if tipHeight ≥ tx.blockHeight then
    { tx with confirmations := tipHeight - tx.blockHeight + 1 }
  else { tx with confirmations := 0 }

/-- `dogecoin_smpv_tip_update`. -/
def tipUpdate (c : SmpvClient) (tipHeight : UInt32) : SmpvClient :=
  { c with mempoolTxs := c.mempoolTxs.map (SmpvTx.atTip tipHeight) }

/-! ## Runs -/

/-- A call on the client. -/
inductive Call where
  | addWatcher (address : Bytes)
  | removeWatcher (address : Bytes)
  | processTx (rawTxHex : List Char)
  | updateTxStatus (txid : List Char) (confirmed : Bool) (blockHash : Option (List Char))
      (blockHeight : UInt32)
  | tipUpdate (tipHeight : UInt32)

/-- The client after a call. -/
def call (kp : KeyPlatform) (c : SmpvClient) : Call → SmpvClient
  | .addWatcher address => (c.addWatcher address).1
  | .removeWatcher address => (c.removeWatcher address).1
  | .processTx rawTxHex => (c.processTx kp rawTxHex).1
  | .updateTxStatus txid confirmed blockHash blockHeight =>
    c.updateTxStatus txid confirmed blockHash blockHeight
  | .tipUpdate tipHeight => c.tipUpdate tipHeight

/-- A client in use. -/
def system (kp : KeyPlatform) : TransitionSystem SmpvClient Call where
  init c := ∃ chainParams, c = new chainParams
  step c call := some (c.call kp call)

/-- The arrays can be counted in 32 bits. -/
def Fits (c : SmpvClient) : Prop := c.watchers.length < 2 ^ 32 ∧ c.mempoolTxs.length < 2 ^ 32

/-- The calls that leave fewer than 2^32 watchers and transactions. -/
def Counted (kp : KeyPlatform) (c : SmpvClient) (call : Call) : Prop := (c.call kp call).Fits

/-- The tables and the counters are right. -/
structure Inv (c : SmpvClient) : Prop where
  watchers : Exact c.addresses c.watcherIndex
  txs : Exact c.txids c.txIndex
  lookup : Exact c.txids c.txLookup
  confirmed : c.confirmedCount.toNat = c.mempoolTxs.countP SmpvTx.isConfirmed
  unconfirmed : c.unconfirmedCount.toNat = c.mempoolTxs.countP fun tx => !tx.isConfirmed

theorem inv_new (chainParams : KeyParams) :
    (new chainParams).Inv := ⟨Exact.nil, Exact.nil, Exact.nil, rfl, rfl⟩

theorem toNat_countUp {n : UInt32} (h : n.toNat < 2 ^ 32 - 1) :
    (countUp n).toNat = n.toNat + 1 := by
  unfold countUp
  rw [if_pos (UInt32.lt_iff_toNat_lt.mpr h), UInt32.toNat_add]
  exact Nat.mod_eq_of_lt (by show n.toNat + 1 < 2 ^ 32; omega)

theorem toNat_countDown {n : UInt32} (h : 0 < n.toNat) : (countDown n).toNat = n.toNat - 1 := by
  have hpos : n > 0 := UInt32.lt_iff_toNat_lt.mpr h
  unfold countDown
  rw [if_pos hpos, UInt32.toNat_sub_of_le _ _ (UInt32.le_iff_toNat_le.mpr (by exact h))]
  rfl

/-! ## Watchers -/

variable {c : SmpvClient}

/-- A watcher is added at the end, if its address is not watched. -/
theorem inv_addWatcher (hc : c.Inv) (address : Bytes) : (c.addWatcher address).1.Inv := by
  have hfound : (if c.watcherIndex ≠ [] then (PositionIndex.find c.watcherIndex address).isSome
      else (PositionIndex.scan c.addresses address).isSome) =
        (PositionIndex.find c.watcherIndex address).isSome := by
    rw [← hc.watchers.find_eq_scan, ite_self]
  unfold addWatcher
  dsimp only
  rw [hfound]
  split
  · exact hc
  next hwatching =>
    split
    · exact hc
    · have hnew : address ∉ c.addresses := by
        rw [← hc.watchers.find_eq_none_iff]
        simpa using hwatching
      have hlen : c.addresses.length = c.watchers.length := List.length_map _
      have happend := PositionIndex.exact_append hc.watchers hnew
      refine ⟨?_, hc.txs, hc.lookup, hc.confirmed, hc.unconfirmed⟩
      show Exact ((c.watchers ++ [_]).map SmpvWatcher.address)
        (PositionIndex.assign c.watcherIndex address _)
      rw [hc.watchers.assign_eq hnew, List.map_append, ← hlen]
      exact happend

/-- The table of the watchers is built again when one is removed. -/
theorem inv_removeWatcher (hc : c.Inv) (address : Bytes) : (c.removeWatcher address).1.Inv := by
  unfold removeWatcher
  split
  · exact hc
  next idx _ =>
    refine ⟨PositionIndex.exact_rebuild ?_, hc.txs, hc.lookup, hc.confirmed, hc.unconfirmed⟩
    exact hc.watchers.distinct.sublist ((List.eraseIdx_sublist _ _).map _)

/-! ## Transactions -/

/-- A transaction more on a watcher leaves its address. -/
theorem addresses_countTx (watchers : List SmpvWatcher) (i : ℕ) :
    (watchers.modify i SmpvWatcher.countTx).map SmpvWatcher.address =
    watchers.map SmpvWatcher.address := by
  apply List.ext_getElem?
  intro j
  rw [List.getElem?_map, List.getElem?_map, List.getElem?_modify]
  cases watchers[j]? with
  | none => rfl
  | some w =>
    show some (SmpvWatcher.address (if i = j then SmpvWatcher.countTx w else w)) = some w.address
    split
    · rfl
    · rfl

theorem inv_countTx (hc : c.Inv) (i : ℕ) :
    Inv { c with watchers := c.watchers.modify i SmpvWatcher.countTx } := by
  refine ⟨?_, hc.txs, hc.lookup, hc.confirmed, hc.unconfirmed⟩
  show Exact ((c.watchers.modify i SmpvWatcher.countTx).map SmpvWatcher.address) c.watcherIndex
  rw [addresses_countTx]
  exact hc.watchers

/-- A new transaction is unconfirmed, and enters both tables. -/
theorem inv_storeTx (hc : c.Inv) {smpvTx : SmpvTx} (hnew : smpvTx.txid ∉ c.txids)
    (hunconfirmed : smpvTx.isConfirmed = false) (hfits : c.mempoolTxs.length + 1 < 2 ^ 32)
    (address : Bytes) :
    (c.storeTx smpvTx address).Inv := by
  have hlen : c.txids.length = c.mempoolTxs.length := List.length_map _
  have hcount : c.unconfirmedCount.toNat ≤ c.mempoolTxs.length :=
    hc.unconfirmed ▸ List.countP_le_length
  have happend := PositionIndex.exact_append hc.txs hnew
  have happend' := PositionIndex.exact_append hc.lookup hnew
  have hstored : Inv { c with
      mempoolTxs := c.mempoolTxs ++ [smpvTx]
      txLookup := (smpvTx.txid, c.mempoolTxs.length) :: c.txLookup
      txIndex := PositionIndex.assign c.txIndex smpvTx.txid c.mempoolTxs.length
      totalBytes := c.totalBytes + UInt64.ofNat smpvTx.size
      unconfirmedCount := countUp c.unconfirmedCount } := by
    rw [hlen] at happend happend'
    refine ⟨hc.watchers, ?_, ?_, ?_, ?_⟩
    · show Exact ((c.mempoolTxs ++ [smpvTx]).map SmpvTx.txid) _
      rw [hc.txs.assign_eq hnew, List.map_append]
      exact happend
    · show Exact ((c.mempoolTxs ++ [smpvTx]).map SmpvTx.txid) _
      rw [List.map_append]
      exact happend'
    · show c.confirmedCount.toNat = _
      rw [List.countP_append, hc.confirmed, List.countP_singleton, hunconfirmed]
      rfl
    · show (countUp c.unconfirmedCount).toNat = _
      rw [toNat_countUp (by omega), List.countP_append, ← hc.unconfirmed,
        List.countP_singleton, hunconfirmed]
      rfl
  unfold storeTx
  dsimp only
  split
  · exact hstored
  · exact inv_countTx hstored _

theorem length_storeTx (c : SmpvClient) (smpvTx : SmpvTx) (address : Bytes) :
    (c.storeTx smpvTx address).mempoolTxs.length = c.mempoolTxs.length + 1 := by
  unfold storeTx
  dsimp only
  split
  · rw [List.length_append, List.length_singleton]
  · rw [List.length_append, List.length_singleton]

/-- What `process_tx` can do: nothing, or store a transaction that is not found. -/
theorem processTx_cases (kp : KeyPlatform) (c : SmpvClient) (rawTxHex : List Char) :
    (c.processTx kp rawTxHex).1 = c ∨
      ∃ address, c.getTx (newTx kp rawTxHex).txid = none ∧
        (newTx kp rawTxHex).decodedTx.bind (c.relevantAddress kp) = some address ∧
        (c.processTx kp rawTxHex).1 = c.storeTx (newTx kp rawTxHex) address := by
  unfold processTx
  split
  · exact Or.inl rfl
  dsimp only
  cases hseen : c.getTx (newTx kp rawTxHex).txid with
  | some i => exact Or.inl rfl
  | none =>
    cases (newTx kp rawTxHex).decodedTx.bind (c.relevantAddress kp) with
    | none => exact Or.inl rfl
    | some address => exact Or.inr ⟨address, rfl, rfl, rfl⟩

theorem inv_processTx (kp : KeyPlatform) (hc : c.Inv) (rawTxHex : List Char)
    (hfits : (c.processTx kp rawTxHex).1.Fits) : (c.processTx kp rawTxHex).1.Inv := by
  rcases processTx_cases kp c rawTxHex with hsame | ⟨address, hseen, -, hstore⟩
  · rw [hsame]
    exact hc
  · rw [hstore] at hfits ⊢
    have hnew : (newTx kp rawTxHex).txid ∉ c.txids := by
      rw [← hc.txs.find_eq_none_iff, hc.txs.find_eq_scan, ← hc.txs.lookup_eq_scan]
      exact hseen
    have hlen := hfits.2
    rw [length_storeTx] at hlen
    exact inv_storeTx hc hnew rfl hlen address

/-- What `update_tx_status` can do: nothing, or give a transaction a new state and move the counters
by its old and its new flag. -/
theorem updateTxStatus_cases (c : SmpvClient) (txid : List Char) (confirmed : Bool)
    (blockHash : Option (List Char)) (blockHeight : UInt32) :
    c.updateTxStatus txid confirmed blockHash blockHeight = c ∨
      ∃ i tx, c.mempoolTxs[i]? = some tx ∧
        c.updateTxStatus txid confirmed blockHash blockHeight = { c with
          mempoolTxs := c.mempoolTxs.set i (SmpvTx.setStatus confirmed blockHash blockHeight tx)
          confirmedCount := if tx.isConfirmed = confirmed then c.confirmedCount
            else if confirmed then countUp c.confirmedCount else countDown c.confirmedCount
          unconfirmedCount := if tx.isConfirmed = confirmed then c.unconfirmedCount
            else if confirmed then countDown c.unconfirmedCount
              else countUp c.unconfirmedCount } := by
  unfold updateTxStatus
  split
  · exact Or.inl rfl
  next i tx hfound =>
    obtain ⟨j, -, hread⟩ := Option.bind_eq_some_iff.mp hfound
    obtain ⟨tx', htx, hpair⟩ := Option.map_eq_some_iff.mp hread
    obtain ⟨rfl, rfl⟩ := Prod.mk.inj hpair
    refine Or.inr ⟨j, tx', htx, ?_⟩
    -- the four transitions of the flag
    cases tx'.isConfirmed <;> cases confirmed
    all_goals rfl

theorem txid_setStatus (confirmed : Bool) (blockHash : Option (List Char))
    (blockHeight : UInt32) (tx : SmpvTx) :
    (SmpvTx.setStatus confirmed blockHash blockHeight tx).txid = tx.txid := by
  unfold SmpvTx.setStatus
  split <;> rfl

theorem isConfirmed_setStatus (confirmed : Bool) (blockHash : Option (List Char))
    (blockHeight : UInt32) (tx : SmpvTx) :
    (SmpvTx.setStatus confirmed blockHash blockHeight tx).isConfirmed = confirmed := by
  unfold SmpvTx.setStatus
  split
  next h => exact h.symm
  next h => exact (Bool.not_eq_true _ ▸ h).symm

/-- A transaction that takes the place of one with its identifier. -/
theorem map_txid_set {i : ℕ} {tx tx' : SmpvTx} (htx : c.mempoolTxs[i]? = some tx)
    (hid : tx'.txid = tx.txid) :
    (c.mempoolTxs.set i tx').map SmpvTx.txid = c.txids := by
  apply List.ext_getElem?
  intro j
  rw [List.getElem?_map, List.getElem?_set]
  by_cases hj : i = j
  · subst hj
    rw [if_pos rfl, if_pos (List.getElem?_eq_some_iff.mp htx).1, txids, List.getElem?_map, htx]
    exact congrArg some hid
  · rw [if_neg hj, txids, List.getElem?_map]

/-- The two counters together. -/
theorem Inv.length_eq (hc : c.Inv) :
    c.mempoolTxs.length = c.confirmedCount.toNat + c.unconfirmedCount.toNat := by
  rw [hc.confirmed, hc.unconfirmed, List.length_eq_countP_add_countP SmpvTx.isConfirmed]
  congr 2
  funext tx
  cases tx.isConfirmed <;> rfl

/-- **A counter that follows the flag of one transaction.** It counts those that `p` says, and moves
by what `p` says of the transaction before and after. -/
theorem toNat_moved {l : List SmpvTx} {p : SmpvTx → Bool} {i : ℕ} {tx tx' : SmpvTx} {n : UInt32}
    (htx : l[i]? = some tx) (hn : n.toNat = l.countP p)
    (hroom : p tx = false → n.toNat + 1 < 2 ^ 32) :
    (if p tx = p tx' then n else if p tx' then countUp n else countDown n).toNat =
    (l.set i tx').countP p := by
  obtain ⟨hlt, rfl⟩ := List.getElem?_eq_some_iff.mp htx
  have hmem : (if p l[i] then 1 else 0) ≤ l.countP p := List.boole_getElem_le_countP hlt
  rw [List.countP_set hlt]
  rw [← hn] at hmem ⊢
  cases hold : p l[i] with
  | false =>
    cases p tx' with
    | false => rfl
    | true => exact toNat_countUp (Nat.lt_sub_of_add_lt (hroom hold))
  | true =>
    rw [hold] at hmem
    simp only [if_true] at hmem
    cases p tx' with
    | false => exact toNat_countDown (by omega)
    | true =>
      show n.toNat = n.toNat - 1 + 1
      omega

/-- The flag of one transaction is set, and the counters follow it. -/
theorem inv_updateTxStatus (hc : c.Inv) (hfits : c.mempoolTxs.length < 2 ^ 32) (txid : List Char)
    (confirmed : Bool) (blockHash : Option (List Char)) (blockHeight : UInt32) :
    (c.updateTxStatus txid confirmed blockHash blockHeight).Inv := by
  rcases updateTxStatus_cases c txid confirmed blockHash blockHeight with hsame | ⟨i, tx, htx, heq⟩
  · rw [hsame]
    exact hc
  have htotal := hc.length_eq
  -- where a transaction of the other kind is left, a counter has room
  have hother : ∀ p : SmpvTx → Bool, p tx = true → 1 ≤ c.mempoolTxs.countP p := by
    intro p hp
    obtain ⟨hlt, rfl⟩ := List.getElem?_eq_some_iff.mp htx
    exact List.countP_pos_iff.mpr ⟨_, List.getElem_mem hlt, hp⟩
  rw [heq]
  refine ⟨hc.watchers, ?_, ?_, ?_, ?_⟩
  · show Exact ((c.mempoolTxs.set i _).map SmpvTx.txid) c.txIndex
    rw [map_txid_set htx (txid_setStatus _ _ _ tx)]
    exact hc.txs
  · show Exact ((c.mempoolTxs.set i _).map SmpvTx.txid) c.txLookup
    rw [map_txid_set htx (txid_setStatus _ _ _ tx)]
    exact hc.lookup
  · have hmoved := @toNat_moved _ SmpvTx.isConfirmed i tx
      (SmpvTx.setStatus confirmed blockHash blockHeight tx)
      c.confirmedCount htx hc.confirmed fun hold => by
        have hleft := hother (fun tx => !tx.isConfirmed) (by rw [hold]; rfl)
        rw [← hc.unconfirmed] at hleft
        omega
    rw [isConfirmed_setStatus] at hmoved
    exact hmoved
  · have hmoved := @toNat_moved _ (fun tx => !tx.isConfirmed) i tx
      (SmpvTx.setStatus confirmed blockHash blockHeight tx) c.unconfirmedCount htx hc.unconfirmed
        fun hold => by
        have hleft := hother SmpvTx.isConfirmed (by simpa using hold)
        rw [← hc.confirmed] at hleft
        omega
    rw [isConfirmed_setStatus] at hmoved
    refine Eq.trans ?_ hmoved
    -- the other flag says the opposite
    show (if tx.isConfirmed = confirmed then c.unconfirmedCount
      else if confirmed then countDown c.unconfirmedCount else countUp c.unconfirmedCount).toNat = _
    cases tx.isConfirmed <;> cases confirmed
    all_goals rfl

/-- The confirmations are counted again, and nothing else. -/
theorem inv_tipUpdate (hc : c.Inv) (tipHeight : UInt32) : (c.tipUpdate tipHeight).Inv := by
  have htxid : SmpvTx.txid ∘ SmpvTx.atTip tipHeight = SmpvTx.txid := by
    funext tx
    show (SmpvTx.atTip tipHeight tx).txid = tx.txid
    unfold SmpvTx.atTip
    split_ifs <;> rfl
  have hflag : SmpvTx.isConfirmed ∘ SmpvTx.atTip tipHeight = SmpvTx.isConfirmed := by
    funext tx
    show (SmpvTx.atTip tipHeight tx).isConfirmed = tx.isConfirmed
    unfold SmpvTx.atTip
    split_ifs <;> rfl
  have htxids : (c.tipUpdate tipHeight).txids = c.txids := by
    show (c.mempoolTxs.map (SmpvTx.atTip tipHeight)).map SmpvTx.txid = _
    rw [List.map_map, htxid]
    rfl
  have hcount : ∀ p : Bool → Bool,
      (c.mempoolTxs.map (SmpvTx.atTip tipHeight)).countP (fun tx => p tx.isConfirmed) =
        c.mempoolTxs.countP fun tx => p tx.isConfirmed := by
    intro p
    rw [List.countP_map]
    congr 1
    funext tx
    exact congrArg p (congrFun hflag tx)
  refine ⟨hc.watchers, ?_, ?_, ?_, ?_⟩
  · rw [htxids]
    exact hc.txs
  · rw [htxids]
    exact hc.lookup
  · exact hc.confirmed.trans (hcount id).symm
  · exact hc.unconfirmed.trans (hcount not).symm

/-! ## All calls -/

/-- **One call.** -/
theorem inv_step (kp : KeyPlatform) {call : Call} (hc : c.Inv) (hfits : c.Fits)
    (hcounted : c.Counted kp call) :
    (c.call kp call).Inv := by
  cases call with
  | addWatcher address => exact inv_addWatcher hc address
  | removeWatcher address => exact inv_removeWatcher hc address
  | processTx rawTxHex => exact inv_processTx kp hc rawTxHex hcounted
  | updateTxStatus txid confirmed blockHash blockHeight =>
    exact inv_updateTxStatus hc hfits.2 txid confirmed blockHash blockHeight
  | tipUpdate tipHeight => exact inv_tipUpdate hc tipHeight

/-- **Any calls.** -/
theorem inv_of_reach {kp : KeyPlatform} (h : (system kp).Reach (Counted kp) c) :
    c.Inv ∧ c.Fits := by
  apply h.invariant
  · rintro s ⟨chainParams, rfl⟩
    exact ⟨inv_new chainParams, Nat.two_pow_pos 32, Nat.two_pow_pos 32⟩
  · rintro s call s' ⟨hs, hfits⟩ hcounted hstep
    obtain rfl := Option.some.inj hstep
    exact ⟨inv_step kp hs hfits hcounted, hcounted⟩

/-- What the tables and the counters of a client say about its arrays. -/
structure Consistent (c : SmpvClient) : Prop where
  addressesDistinct : c.addresses.Nodup
  watcherIndex : c.watcherIndex.Perm c.addresses.zipIdx
  txidsDistinct : c.txids.Nodup
  txIndex : c.txIndex.Perm c.txids.zipIdx
  txLookup : c.txLookup.Perm c.txids.zipIdx
  confirmedCount : c.confirmedCount.toNat = c.mempoolTxs.countP SmpvTx.isConfirmed
  unconfirmedCount : c.unconfirmedCount.toNat = c.mempoolTxs.countP fun tx => !tx.isConfirmed
  getWatcher : ∀ address, c.getWatcher address = PositionIndex.scan c.addresses address
  getTx : ∀ txid, c.getTx txid = PositionIndex.scan c.txids txid

/-- **After any calls** that leave fewer than 2^32 items, every table maps exactly the keys of its
array to their positions, the counters count, and searches find what scans find. -/
theorem consistent_of_reach {kp : KeyPlatform} {c : SmpvClient}
    (h : (system kp).Reach (Counted kp) c) :
    c.Consistent := by
  have hc := (inv_of_reach h).1
  exact {
    addressesDistinct := hc.watchers.distinct
    watcherIndex := hc.watchers.entries
    txidsDistinct := hc.txs.distinct
    txIndex := hc.txs.entries
    txLookup := hc.lookup.entries
    confirmedCount := hc.confirmed
    unconfirmedCount := hc.unconfirmed
    getWatcher := hc.watchers.lookup_eq_scan
    getTx := hc.txs.lookup_eq_scan }

/-- A list of calls after any of which the arrays can be counted. -/
theorem reach_foldl {kp : KeyPlatform} {c : SmpvClient} (calls : List Call)
    (hc : (system kp).Reach (Counted kp) c)
    (h : ∀ n < calls.length, ((calls.take (n + 1)).foldl (call kp) c).Fits) :
    (system kp).Reach (Counted kp) (calls.foldl (call kp) c) := by
  induction calls generalizing c with
  | nil => exact hc
  | cons next calls ih =>
    exact ih (.step hc (h 0 (Nat.succ_pos _)) rfl) fun n hn => h (n + 1) (Nat.succ_lt_succ hn)

/-- The text of an address under `sampleKeys`. -/
def paidAddress : Bytes := keyParamsTest.b58prefixPubkeyAddress :: List.replicate 20 65

/-- A transaction that pays to this address. -/
def paidTxHex : List Char :=
  utilsUint8ToHex (txSerialize ⟨1, [⟨⟨Uint256.zero, 3⟩, [], 0⟩],
    [⟨5, p2pkhScript ⟨List.replicate 20 65, rfl⟩⟩], 0⟩)

/-- A client that watches two addresses, then only the second of them, and sees a payment to it
confirmed. -/
def watchedClient : SmpvClient :=
  [.addWatcher [66], .addWatcher paidAddress, .removeWatcher [66], .processTx paidTxHex,
    .updateTxStatus (List.replicate 64 '0') true none 7, .tipUpdate 9].foldl (call sampleKeys)
      (new keyParamsTest)

/-- The theorem on a run: the table of the second address was built again, and the payment was
counted. -/
theorem consistent_of_reach_watched :
    watchedClient.Consistent ∧ watchedClient.watcherIndex = [(paidAddress, 0)] ∧
    watchedClient.txLookup = [(List.replicate 64 '0', 0)] ∧ watchedClient.confirmedCount = 1 :=
  ⟨consistent_of_reach (reach_foldl _ (.init ⟨keyParamsTest, rfl⟩)
    (by unfold Fits; decide +kernel)), by decide +kernel, by decide +kernel, by decide +kernel⟩

end SmpvClient

end Libdogecoin
