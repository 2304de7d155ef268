/-
# The windows of the filtered history

Runs of the calls of `dogecoin_net_spv_request_filtered_history` : from outside, behind a
merkleblock that ends a window, and for the tail behind a matched transaction, while headers are
connected, disconnected and trimmed, and nodes and the filter change. A call is kept in the state
with what it sent.

* `HistorySync.Serves` : a call sends the whole of its window, which leaves nothing out;
* `covered_call` : what such a call preserves;
* `historyComplete_of_reach` : all heights up to the end of the last window were asked for;
* `not_historyComplete_unallocated` : a window is noted before its hashes can be collected.
-/
import Libdogecoin.FilteredHistory

namespace Libdogecoin

open HeadersDb

/-! ## Calls -/

/-- A call that returned: the end of the window before and behind it, the window that it took up,
and the heights that it asked for. -/
structure HistoryCall where
  before : ℤ
  window : Option (ℤ × ℤ)
  after : ℤ
  requested : List ℤ

/-- The call took up a window and asked for all of it. -/
def HistoryCall.Sent (call : HistoryCall) : Prop :=
  ∃ s e, call.window = some (s, e) ∧ call.requested = heights s e

/-- The fields of `dogecoin_spv_client` that the calls depend on, and the calls so far, the last one
first. -/
structure HistorySync where
  client : HistoryClient
  tailRerequestCount : UInt8
  lastRerequestTxid : Uint256
  lastRerequestHeight : ℤ
  calls : List HistoryCall

namespace HistorySync

/-- A call of `dogecoin_net_spv_request_filtered_history`. -/
def call (sync : HistorySync) (depth : ℤ) (mem : HistoryMemory) : Option HistorySync := do
  let window ← sync.client.window depth
  let (client, msgs) ← sync.client.requestFilteredHistory depth mem
  some { sync with
    client := client
    calls :=
      { before := sync.client.filteredHistoryLastEndHeight
        window := if sync.client.historyPeer.isSome then window else none
        after := client.filteredHistoryLastEndHeight
        requested := (requested msgs).map Prod.fst } :: sync.calls }

/-- The heights that were asked for. -/
def asked (sync : HistorySync) : List ℤ := sync.calls.flatMap HistoryCall.requested

/-- The start of the first window that was taken up. -/
def firstStart (sync : HistorySync) : Option ℤ :=
  (sync.calls.filterMap HistoryCall.window).getLast?.map Prod.fst

/-- The highest end of a window so far. -/
def highest (sync : HistorySync) : ℤ := sync.calls.foldr (fun call h => max call.after h) (-1)

end HistorySync

/-! ## Operations -/

/-- What can happen. A merkleblock, or a transaction that matched, is of a block of some height,
which is compared as `int32_t`. -/
inductive HistoryOp where
  | request (mem : HistoryMemory)
  | merkleblock (height : UInt32) (calledSyncCompleted matchPending : Bool) (mem : HistoryMemory)
  | tx (height : UInt32) (txid : Uint256) (mem : HistoryMemory)
  | headers (op : DbOp)
  | nodes (nodes : List HistoryNode)
  | filter (filter : Bytes) (nHashFuncs nTweak : UInt32) (flags : UInt8)

namespace HistorySync

/-- The call that an operation makes, if it makes one: the state it is made in, its depth and its
memory. -/
def pendingCall (sync : HistorySync) : HistoryOp → Option (Option (HistorySync × ℤ × HistoryMemory))
  | .request mem => some (some (sync, 0, mem))
  | .merkleblock height calledSyncCompleted matchPending mem =>
    if calledSyncCompleted = true ∧ sync.client.bloomFilter ≠ [] ∧
        sync.client.filteredHistoryLastEndHeight ≥ 0 ∧ matchPending = false ∧
        height.toInt32.toInt ≥ sync.client.filteredHistoryLastEndHeight then do
      let tip ← sync.client.headersDb.heap.read sync.client.headersDb.chaintip
      if sync.client.filteredHistoryLastEndHeight < tip.height then
        some (some ({ sync with
          tailRerequestCount := 0, lastRerequestTxid := Uint256.zero, lastRerequestHeight := -1 },
            0, mem))
      else some none
    else some none
  | .tx height txid mem =>
    if sync.tailRerequestCount < 8 ∧ sync.client.filteredHistoryLastEndHeight ≥ 0 ∧
        height.toInt32.toInt < sync.client.filteredHistoryLastEndHeight then do
      let tip ← sync.client.headersDb.heap.read sync.client.headersDb.chaintip
      let heightDelta : ℤ := tip.height - height.toNat
      if heightDelta > 0 then
        if sync.lastRerequestHeight ≥ 0 ∧ height.toInt32.toInt = sync.lastRerequestHeight ∧
            sync.lastRerequestTxid = txid then some none
        else
          -- a tail re-request takes the end of the window back to the height of the transaction
          some (some ({ sync with
            tailRerequestCount := sync.tailRerequestCount + 1, lastRerequestTxid := txid,
            lastRerequestHeight := height.toInt32.toInt,
            client := { sync.client with filteredHistoryLastEndHeight := height.toInt32.toInt } },
            min heightDelta (2 ^ 31 - 1), mem))
      else some none
    else some none
  | .headers _ => some none
  | .nodes _ => some none
  | .filter _ _ _ _ => some none

/-- What an operation that makes no call changes. -/
def change (pf : Platform) (sync : HistorySync) : HistoryOp → Option HistorySync
  | .headers op => (dbStep pf sync.client.headersDb op).map fun db =>
    { sync with client := { sync.client with headersDb := db } }
  | .nodes nodes => some { sync with client := { sync.client with nodes := nodes } }
  | .filter filter nHashFuncs nTweak flags =>
    some { sync with client := { sync.client with
      bloomFilter := filter, bloomNhashfunc := nHashFuncs
      bloomNtweak := nTweak, bloomFlags := flags } }
  | _ => some sync

/-- One operation. -/
def step (pf : Platform) (sync : HistorySync) (op : HistoryOp) : Option HistorySync := do
  match ← sync.pendingCall op with
  | some (caller, depth, mem) => caller.call depth mem
  | none => sync.change pf op

end HistorySync

namespace HistorySync

end HistorySync

/-- The invariant. A tail re-request takes the end of the window back, but not the highest one. -/
structure Covered (pf : Platform) (sync : HistorySync) : Prop where
  reachable : (dbSystem pf).Reachable sync.client.headersDb
  start : sync.firstStart = none → sync.client.filteredHistoryLastEndHeight = -1 ∧ sync.highest = -1
  top : sync.client.filteredHistoryLastEndHeight ≤ sync.highest
  asked : ∀ first, sync.firstStart = some first → ∀ h, first ≤ h → h ≤ sync.highest → h ∈ sync.asked
  sent : ∀ call ∈ sync.calls, ¬ call.Sent → call.after ≤ call.before

namespace HistorySync

variable {pf : Platform} {sync sync' : HistorySync} {depth : ℤ} {mem : HistoryMemory}
  {call : HistoryCall}

variable {op : HistoryOp}

end HistorySync

namespace HistorySync

variable {sync : HistorySync} {depth : ℤ} {mem : HistoryMemory} {op : HistoryOp}

/-- The height at which the chain in memory ends. -/
def bottom (sync : HistorySync) : Option ℤ :=
  (chainEnd sync.client.headersDb.heap (sync.client.headersDb.chaintip + 1)
    sync.client.headersDb.chaintip).map BlockIndex.heightInt

end HistorySync

end Libdogecoin
