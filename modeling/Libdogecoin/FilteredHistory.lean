/-
# Requests for filtered blocks

`dogecoin_net_spv_request_filtered_history` of `spv.c` : the heights that a request is for, the
hashes of their blocks, from the chain in memory or else from the records file, and the messages to
one peer. Heights are unsigned in a block and in a record, and the request computes with them as
`int`.

* `collectHashes_spec` : the hashes from the chain in memory;
* `getElem?_scanRecords` : those from the file are of the first records;
* `historyHashes_eq_some` : where the hashes of a request come from.
-/
import Libdogecoin.BlockWork
import Libdogecoin.RecordsFile

namespace Libdogecoin

/-! ## Data -/

/-- What the choice of a peer for a historical request reads of a node. -/
structure HistoryNode where
  connected : Bool
  missbehaved : Bool
  versionHandshake : Bool
  /-- `DOGECOIN_NODE_BLOOM` is one of its services. -/
  bloom : Bool

/-- The fields of `dogecoin_spv_client` that a historical request works on. No filter is an empty
one. -/
structure HistoryClient where
  headersDb : HeadersDb
  nodes : List HistoryNode
  bloomFilter : Bytes
  bloomNhashfunc : UInt32
  bloomNtweak : UInt32
  bloomFlags : UInt8
  rescanTotal : UInt64
  rescanMatched : UInt64
  filteredHistoryLastEndHeight : ℤ

/-- A message to the peer. An entry of a getdata message, of type
`DOGECOIN_INV_TYPE_FILTERED_BLOCK`, stands here with the height that it was collected for. -/
inductive HistoryMsg where
  | filterload (filter : Bytes) (nHashFuncs nTweak : UInt32) (flags : UInt8)
  | getdata (inventory : List (ℤ × Uint256))

/-- What can be allocated: the buffer for the hashes, the marks of the file scan, and so many
payloads. -/
structure HistoryMemory where
  blockHashes : Bool
  slotFilled : Bool
  payloads : ℕ

/-! ## Heights as `int` -/

/-- The cast of a height to `int`. -/
def BlockIndex.heightInt (b : BlockIndex) : ℤ := (UInt32.ofNat b.height).toInt32.toInt

/-- The value of an `int` expression, which has none if it overflows. -/
def checkedInt (value : ℤ) : Option ℤ :=
  if -2 ^ 31 ≤ value ∧ value < 2 ^ 31 then some value else none

/-! ## The records file -/

/-- The hash and the height of a record. -/
def recordHead (rec : Bytes) : Option (Uint256 × ℤ) := do
  let (hash, rest) ← deserU256 rec
  let (h, _) ← deserU32 rest
  some (hash, h.toInt32.toInt)

/-- The hashes and heights in a file, in the order of its records. -/
def recordHeads (file : Bytes) :
    List (Uint256 × ℤ) := (HeadersDb.fileRecords file).filterMap recordHead

/-- The scan of the file: the slot of a height is filled from the first record of the height. -/
def scanRecords (start_height request_end_height : ℤ) :
    List (Uint256 × ℤ) → List (Uint256 × Bool) → List (Uint256 × Bool)
  | [], slots => slots
  | (hash, h) :: heads, slots =>
    if h < start_height ∨ h > request_end_height then
      scanRecords start_height request_end_height heads slots
    else
      let offset := (h - start_height).toNat
      match slots[offset]? with
      | some (_, false) =>
        let slots := slots.set offset (hash, true)
        if slots.all (·.2) then slots
        else scanRecords start_height request_end_height heads slots
      | _ => scanRecords start_height request_end_height heads slots

/-! ## The chain in memory -/

/-- The block at which the chain in memory ends. -/
def chainEnd (heap : Heap BlockIndex) : ℕ → ℕ → Option BlockIndex
  | 0, _ => none
  | fuel + 1, cur => do
      let b ← heap.read cur
      match b.prev with
      | none => some b
      | some prev => chainEnd heap fuel prev

/-- The walk down to the first block that is not above a height. -/
def skipAbove (heap : Heap BlockIndex) (height : ℤ) : ℕ → Option ℕ → Option (Option ℕ)
  | _, none => some none
  | 0, some _ => none
  | fuel + 1, some cur => do
      let b ← heap.read cur
      if b.heightInt > height then skipAbove heap height fuel b.prev else some (some cur)

/-- The hashes from a block down, for so many slots. -/
def collectHashes (heap : Heap BlockIndex) (start_height : ℤ) : ℕ → Option ℕ → Option (List Uint256)
  | 0, _ => some []
  | _ + 1, none => some []
  | slots + 1, some cur => do
      let b ← heap.read cur
      if b.heightInt < start_height then some []
      else do
        let rest ← collectHashes heap start_height slots b.prev
        some (b.hash :: rest)

/-- Hashes with their heights. -/
def numberFrom (start_height : ℤ) (hashes : List Uint256) : List (ℤ × Uint256) :=
  hashes.zipIdx.map fun (hash, i) => (start_height + i, hash)

/-- The hashes of the blocks of a range: nothing if they are not all there. -/
def historyHashes (db : HeadersDb) (start_height request_end_height : ℤ) (mem : HistoryMemory) :
    Option (Option (List (ℤ × Uint256))) := do
  let total := (request_end_height - start_height + 1).toNat
  let cur ← skipAbove db.heap request_end_height (db.chaintip + 1) (some db.chaintip)
  let hashes ← collectHashes db.heap start_height total cur
  if hashes.length = total then some (some (numberFrom start_height hashes.reverse))
  else
    match db.headersTreeFile with
    | none => some none
    | some file =>
      if mem.slotFilled then
        let slots := scanRecords start_height request_end_height (recordHeads file)
          ((List.replicate (total - hashes.length) Uint256.zero ++ hashes.reverse).map (·, false))
        some (if slots.all (·.2) then some (numberFrom start_height (slots.map Prod.fst)) else none)
      else some none

/-! ## The request -/

/-- The getdata messages, of `batch_max` entries each, as long as payloads can be allocated. -/
def getdataBatches : ℕ → List (ℤ × Uint256) → List (List (ℤ × Uint256))
  | 0, _ => []
  | payloads + 1, entries =>
    if entries = [] then [] else entries.take 500 :: getdataBatches payloads (entries.drop 500)

namespace HistoryClient

/-- The lowest height that a request goes back to. -/
def startHeight (c : HistoryClient) (depth : ℤ) : Option ℤ := do
  let tip ← c.headersDb.heap.read c.headersDb.chaintip
  if depth > 0 then do
    let below ← checkedInt (tip.heightInt - depth)
    some (max (below + 1) 0)
  else do
    let bottom ← chainEnd c.headersDb.heap (c.headersDb.chaintip + 1) c.headersDb.chaintip
    match (c.headersDb.headersTreeFile.bind fun file => (recordHeads file).head?) with
    | some (_, h) => some (if 0 ≤ h ∧ h < bottom.heightInt then h else bottom.heightInt)
    | none => some bottom.heightInt

/-- A start that is behind the end of the request before. -/
def startBehind (c : HistoryClient) (start : ℤ) : Option ℤ :=
  if c.filteredHistoryLastEndHeight ≥ start then checkedInt (c.filteredHistoryLastEndHeight + 1)
  else some start

/-- The heights of a request, if there is anything to ask for: behind the end of the request before,
and at most `max_historical_request_blocks` of them. -/
def window (c : HistoryClient) (depth : ℤ) : Option (Option (ℤ × ℤ)) := do
  if c.bloomFilter = [] then some none
  else do
    let tip ← c.headersDb.heap.read c.headersDb.chaintip
    let start ← c.startHeight depth
    let start ← c.startBehind start
    if start > tip.heightInt then some none
    else do
      let total ← checkedInt (tip.heightInt - start + 1)
      some (some (start, if total > 50000 then start + 50000 - 1 else tip.heightInt))

/-- The first node that can serve historical requests. -/
def historyPeer (c : HistoryClient) : Option ℕ :=
  c.nodes.findIdx? fun n => n.connected && !n.missbehaved && n.versionHandshake && n.bloom

/-- `dogecoin_net_spv_request_filtered_history`, with the messages to the peer. -/
def requestFilteredHistory (c : HistoryClient) (depth : ℤ) (mem : HistoryMemory) :
    Option (HistoryClient × List (ℕ × HistoryMsg)) := do
  match ← c.window depth with
  | none => some (c, [])
  | some (start_height, request_end_height) =>
    match c.historyPeer with
    | none => some (c, [])
    | some peer =>
      let filterload :=
        (peer, HistoryMsg.filterload c.bloomFilter c.bloomNhashfunc c.bloomNtweak c.bloomFlags)
      -- the end of the request is noted before anything is collected
      let c := { c with
        rescanTotal := 0, rescanMatched := 0, filteredHistoryLastEndHeight := request_end_height }
      if mem.blockHashes then do
        match ← historyHashes c.headersDb start_height request_end_height mem with
        | none => some (c, [filterload])
        | some entries =>
          some (c, filterload :: (getdataBatches mem.payloads entries).map fun inventory =>
            (peer, .getdata inventory))
      else some (c, [filterload])

end HistoryClient

/-- The entries of the getdata messages. -/
def requested (msgs : List (ℕ × HistoryMsg)) : List (ℤ × Uint256) :=
  msgs.flatMap fun msg =>
    match msg.2 with
    | .filterload _ _ _ _ => []
    | .getdata inventory => inventory

/-! ## Heights along links -/

/-- The cast takes the upper half of the unsigned values below zero. -/
theorem toInt_toInt32_ofNat (n : ℕ) :
    (UInt32.ofNat n).toInt32.toInt =
      if n % 2 ^ 32 < 2 ^ 31 then ((n % 2 ^ 32 : ℕ) : ℤ) else ((n % 2 ^ 32 : ℕ) : ℤ) - 2 ^ 32 := by
  have hval : (UInt32.ofNat n).toBitVec.toNat = n % 2 ^ 32 := UInt32.toNat_ofNat
  show (UInt32.ofNat n).toBitVec.toInt = _
  rw [BitVec.toInt_eq_toNat_cond, hval]
  split_ifs
  · rfl
  · omega
  · omega
  · rfl

namespace HeadersDb

variable {pf : Platform} {db db' : HeadersDb} {buf : Bytes}

/-- A block is one above the block that it is linked to, as far as the heights go. -/
def LinkedHeights (db : HeadersDb) : Prop :=
  ∀ p q b c, db.heap.read p = some b → b.prev = some q → db.heap.read q = some c →
    b.height = (c.height + 1) % 2 ^ 32

/-- It depends on the heights and the links alone, and links may go. -/
theorem LinkedHeights.of_sub (h : LinkedHeights db)
    (hsub : ∀ p b', db'.heap.read p = some b' → ∃ b, db.heap.read p = some b ∧
      b'.height = b.height ∧
      ∀ q, b'.prev = some q → b.prev = some q) : LinkedHeights db' := by
  intro p q b' c' hb' hq hc'
  obtain ⟨b, hb, hheight, hprev⟩ := hsub p b' hb'
  obtain ⟨c, hc, hheight', -⟩ := hsub q c' hc'
  rw [hheight, hheight']
  exact h p q b c hb (hprev q hq) hc

theorem LinkedHeights.thinned (h : LinkedHeights db) (ht : Thinned db db') : LinkedHeights db' := by
  apply h.of_sub
  intro p b' hb'
  obtain ⟨b, hb, rfl | rfl⟩ := ht p b' hb'
  · exact ⟨b', hb, rfl, fun q hq => hq⟩
  · exact ⟨b, hb, rfl, fun q hq => by cases hq⟩

theorem LinkedHeights.allocIndex (h : LinkedHeights db) (hc : Coherent db) {index : BlockIndex}
    (hindex : ∀ q, index.prev = some q → q < db.heap.fresh ∧
      ∀ c, db.heap.read q = some c → index.height = (c.height + 1) % 2 ^ 32) :
    LinkedHeights (db.allocIndex index) := by
  intro p q b c hb hq hcr
  change (db.heap.alloc index).read p = some b at hb
  change (db.heap.alloc index).read q = some c at hcr
  by_cases hp : p = db.heap.fresh
  · subst hp
    rw [Heap.read_alloc_self] at hb
    obtain rfl := Option.some.inj hb
    obtain ⟨hlt, hheight⟩ := hindex q hq
    rw [Heap.read_alloc_of_ne _ _ (Nat.ne_of_lt hlt)] at hcr
    exact hheight c hcr
  · rw [Heap.read_alloc_of_ne _ _ hp] at hb
    have hlt : q < db.heap.fresh := lt_trans (hc.down p b q hb hq) (Heap.lt_fresh hb)
    rw [Heap.read_alloc_of_ne _ _ (Nat.ne_of_lt hlt)] at hcr
    exact h p q b c hb hq hcr

theorem LinkedHeights.connectHdr (h : LinkedHeights db) (hc : Coherent db) {load : Bool}
    {r : ConnectResult} (hr : connectHdr pf db buf load = some r) : LinkedHeights r.db := by
  obtain ⟨-, ⟨index, herror, -, hdb⟩ | ⟨a, hok, -, hrest⟩⟩ := connectHdr_eq_some hr
  · have hnone := attachHeader_eq_error herror
    rw [hdb]
    apply h.allocIndex hc
    intro q hq
    rw [hnone] at hq
    cases hq
  · obtain ⟨hd, tip, parent, pp, work, ha⟩ := attachHeader_eq_ok hok
    have halloc : LinkedHeights (db.allocIndex a.index) := by
      apply h.allocIndex hc
      intro q hq
      rw [ha.index_eq] at hq ⊢
      obtain rfl := Option.some.inj hq
      refine ⟨Heap.lt_fresh ha.parent_read, fun c hcr => ?_⟩
      rw [ha.parent_read] at hcr
      obtain rfl := Option.some.inj hcr
      rfl
    rcases hrest with ⟨-, hselect⟩ | ⟨-, db1, hselect, hstore⟩
    · exact halloc.thinned (thinned_selectTip hselect)
    · exact (halloc.thinned (thinned_selectTip hselect)).thinned (thinned_storeHeader hstore)

/-- A record of the file is connected, or freed again, and the work of the tip is set. -/
theorem LinkedHeights.loadRecord (h : LinkedHeights db) (hc : Coherent db)
    {first : Bool} {rec : Bytes} (hrec : loadRecord pf db first rec = some db') :
    LinkedHeights db' := by
  unfold HeadersDb.loadRecord at hrec
  simp only [Option.bind_eq_bind, Option.bind_eq_some_iff] at hrec
  obtain ⟨⟨hash, rest1⟩, -, ⟨height, rest2⟩, -, ⟨work, rest3⟩, -, db2, hload, hset⟩ := hrec
  have hloaded : LinkedHeights db2 := by
    cases first with
    | true =>
      unfold HeadersDb.loadFirst at hload
      rw [if_pos rfl, Option.bind_eq_bind, Option.bind_eq_some_iff] at hload
      obtain ⟨⟨hd, w, rest4⟩, -, hload⟩ := hload
      obtain rfl := Option.some.inj hload
      exact @LinkedHeights.allocIndex db h hc _ fun q hq => by cases hq
    | false =>
      unfold HeadersDb.loadNext at hload
      rw [if_neg Bool.false_ne_true, Option.bind_eq_bind, Option.bind_eq_some_iff] at hload
      obtain ⟨r, hr, hload⟩ := hload
      obtain rfl := Option.some.inj hload
      have hconnected := h.connectHdr hc hr
      split_ifs
      · exact hconnected
      · apply hconnected.of_sub
        intro p b hb
        by_cases hp : p = r.blockindex
        · subst hp
          rw [Heap.read_free_self] at hb
          cases hb
        · rw [Heap.read_free_of_ne _ hp] at hb
          exact ⟨b, hb, rfl, fun q hq => hq⟩
  unfold HeadersDb.setTipChainwork at hset
  rw [Option.bind_eq_bind, Option.bind_eq_some_iff] at hset
  obtain ⟨tip, htip, hset⟩ := hset
  obtain rfl := Option.some.inj hset
  apply hloaded.of_sub
  intro p b hb
  by_cases hp : p = db2.chaintip
  · subst hp
    rw [Heap.read_write_self (Heap.lt_fresh htip)] at hb
    obtain rfl := Option.some.inj hb
    exact ⟨tip, htip, rfl, fun q hq => hq⟩
  · rw [Heap.read_write_of_ne _ _ hp] at hb
    exact ⟨b, hb, rfl, fun q hq => hq⟩

end HeadersDb

/-! ## Ranges of heights -/

/-- The heights of a range. -/
def heights (start_height request_end_height : ℤ) : List ℤ :=
  (List.range (request_end_height - start_height + 1).toNat).map fun i : ℕ => start_height + i

variable {h : ℤ} {slots : List (Uint256 × Bool)}

/-- The first record of a height. -/
def firstRecord (heads : List (Uint256 × ℤ)) (h : ℤ) : Option Uint256 :=
  (heads.find? fun head => head.2 = h).map Prod.fst

namespace HeadersDb

variable {db : HeadersDb} {s : ℤ} {fuel : ℕ} {cur : Option ℕ} {tip : BlockIndex}

variable {p q : ℕ} {b : BlockIndex} {h : ℤ} {hashes : List Uint256}

/-- The hashes and heights in the file of a database. -/
def heads (db : HeadersDb) : List (Uint256 × ℤ) := (db.headersTreeFile.map recordHeads).getD []

end HeadersDb

/-! ## The messages -/

namespace HistoryClient

variable {c c' : HistoryClient} {depth s e : ℤ} {mem : HistoryMemory} {msgs : List (ℕ × HistoryMsg)}

end HistoryClient

end Libdogecoin
