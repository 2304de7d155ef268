/-
# The parallel header download

The `par_hdr` functions of `spv.c`. The chain is cut at its checkpoints into segments; every segment
is downloaded by one peer, its owner, and sometimes by a second one, its shadow. The headers are
staged in a buffer of the segment and connected to the headers database in the order of the
segments, without a check of their proof of work.

A peer is its position in the vector of nodes, from which nothing is ever removed, and the `-1` of
the source is `none`. Counters are naturals. The functions that ask for the time are given it. Log
texts and the fields that only they need are left out, and so is the text of the requests.

* `parHdrRecv` is split where the C function returns: `recvHeaders` is its loop, `rejectSeg` and
  `completeSeg` are its two ends;
* `syncSystem` : the runs of the download.
-/
import Mathlib.Data.List.Sort
import Libdogecoin.Coherent

namespace Libdogecoin

/-! ## Constants -/

/-- `PAR_HDR_RAW_LEN`. -/
def PAR_HDR_RAW_LEN : ℕ := 80

/-- `PAR_HDR_MAX_FLUSH_FAILS`. -/
def PAR_HDR_MAX_FLUSH_FAILS : ℕ := 3

/-- `PAR_HDR_SEG_TIMEOUT`. -/
def PAR_HDR_SEG_TIMEOUT : ℕ := 120

/-- `PAR_HDR_MAX_BUFFERED`. -/
def PAR_HDR_MAX_BUFFERED : ℕ := 256 * 1024 * 1024

/-- `PAR_HDR_RATE_GRACE`. -/
def PAR_HDR_RATE_GRACE : ℕ := 30

/-- `PAR_HDR_SLOW_FACTOR`. -/
def PAR_HDR_SLOW_FACTOR : ℕ := 4

/-! ## Segments -/

/-- `par_hdr_seg`. The records written to the buffer are a list; `buf` is `none` when it is
freed. -/
structure ParHdrSeg where
  startHeight : ℕ
  startHash : Uint256
  stopHeight : ℕ
  stopHash : Uint256
  nodeId : Option ℕ
  shadowId : Option ℕ
  requestedAt : ℕ
  assignedAt : ℕ
  countAtAssign : ℕ
  tipHeight : ℕ
  tipHash : Uint256
  buf : Option (List Bytes)
  count : ℕ
  cap : ℕ
  tailRaw : Option Bytes
  complete : Bool
  flushed : Bool
  flushFails : ℕ

namespace ParHdrSeg

/-- The segment between two checkpoints, as `par_hdr_init` leaves it. -/
def new (start stop : Checkpoint) : ParHdrSeg where
  startHeight := start.height
  startHash := start.hash
  stopHeight := stop.height
  stopHash := stop.hash
  nodeId := none
  shadowId := none
  requestedAt := 0
  assignedAt := 0
  countAtAssign := 0
  tipHeight := start.height
  tipHash := start.hash
  buf := some []
  count := 0
  cap := 2048
  tailRaw := none
  complete := false
  flushed := false
  flushFails := 0

/-- The staged headers. -/
def staged (seg : ParHdrSeg) : List Bytes := (seg.buf.getD []).take seg.count

/-- A peer becomes the owner. -/
def assign (p time : ℕ) (seg : ParHdrSeg) : ParHdrSeg :=
  { seg with nodeId := some p, assignedAt := time, countAtAssign := seg.count }

/-- The shadow becomes the owner. -/
def takeOver (p time : ℕ) (seg : ParHdrSeg) : ParHdrSeg :=
  { seg.assign p time with shadowId := none }

/-- `requested_at` after a request. -/
def requested (time : ℕ) (seg : ParHdrSeg) : ParHdrSeg := { seg with requestedAt := time }

/-- The buffer grows when it is full, and 80 bytes are copied behind the staged headers. -/
def copyHeader (raw : Bytes) (seg : ParHdrSeg) : ParHdrSeg :=
  let cap := if seg.cap ≤ seg.count then (if seg.cap = 0 then 2048 else seg.cap * 2) else seg.cap
  { seg with cap := cap, buf := some ((seg.buf.getD []).take seg.count ++ [raw]) }

/-- The segment advances to a header that was copied. `record` is all that was read for it. -/
def advance (hash : Uint256) (record : Bytes) (seg : ParHdrSeg) : ParHdrSeg :=
  { seg with
    tipHash := hash
    tipHeight := seg.tipHeight + 1
    count := seg.count + 1
    tailRaw := if seg.tipHeight + 1 = seg.stopHeight then some record else seg.tailRaw }

/-- The staged headers are dropped after a failure, and the segment goes on from another header. -/
def reopen (hash : Uint256) (height : ℕ) (seg : ParHdrSeg) : ParHdrSeg :=
  { seg with
    flushFails := seg.flushFails + 1
    buf := none
    cap := 0
    count := 0
    tailRaw := none
    tipHash := hash
    tipHeight := height
    complete := false
    nodeId := none
    shadowId := none
    countAtAssign := 0 }

/-- The last header has arrived. -/
def finish (seg : ParHdrSeg) : ParHdrSeg :=
  { seg with complete := true, nodeId := none, shadowId := none }

/-- The staged headers are in the database. `count` stays. -/
def markFlushed (seg : ParHdrSeg) : ParHdrSeg :=
  { seg with flushed := true, buf := none, cap := 0, tailRaw := none }

/-- The staged headers are given up in the fallback. -/
def dropBuf (seg : ParHdrSeg) : ParHdrSeg := { seg with buf := none, cap := 0, count := 0 }

/-- The segment is taken from an owner that is gone or silent. -/
def release (seg : ParHdrSeg) : ParHdrSeg :=
  { seg with nodeId := none, requestedAt := 0, shadowId := none }

/-- The segment is taken from an owner that is slow. -/
def preempt (seg : ParHdrSeg) : ParHdrSeg :=
  { seg with nodeId := none, requestedAt := 0, assignedAt := 0 }

/-- A peer becomes the shadow. -/
def shadow (p : ℕ) (seg : ParHdrSeg) : ParHdrSeg := { seg with shadowId := some p }

/-- The peer owns or shadows the segment. -/
def holds (seg : ParHdrSeg) (p : ℕ) : Bool := seg.nodeId = some p || seg.shadowId = some p

/-- `par_hdr_seg_rate` : headers per second. -/
def parHdrSegRate (seg : ParHdrSeg) (now : ℕ) : ℕ :=
  if seg.nodeId = none ∨ seg.assignedAt = 0 then 0
  else if now ≤ seg.assignedAt then 0
  else if now - seg.assignedAt < PAR_HDR_RATE_GRACE then 0
  else if seg.count ≤ seg.countAtAssign then 0
  else (seg.count - seg.countAtAssign) / (now - seg.assignedAt)

end ParHdrSeg

/-! ## The state -/

/-- `par_hdr_state`. -/
structure ParHdrState where
  segs : List ParHdrSeg
  flushIdx : ℕ
  bufferedBytes : ℕ
  rateRef : ℕ
  active : Bool

namespace ParHdrState

/-- The segments that start at `start` and stop at the given checkpoints. -/
def segsFrom : Checkpoint → List Checkpoint → List ParHdrSeg
  | _, [] => []
  | start, stop :: rest => ParHdrSeg.new start stop :: segsFrom stop rest

/-- The checkpoint array of a chain. -/
def checkpointArray (params : ChainParams) : List Checkpoint :=
  if params.chainname = "main" then mainnetCheckpointArray
  else if params.chainname = "test" then testnetCheckpointArray
  else []

/-- `par_hdr_init` : the genesis entry of the array is where the first segment starts. -/
def parHdrInit (params : ChainParams) : Option ParHdrState :=
  let arr := checkpointArray params
  let stops := if arr.head?.any fun cp => cp.height = 0 then arr.tail else arr
  if stops.length = 0 then none
  else some {
    segs := segsFrom { height := 0, hash := params.genesisblockhash } stops
    flushIdx := 0
    bufferedBytes := 0
    rateRef := 0
    active := true }

/-- One segment is changed. -/
def modifySeg (s : ParHdrState) (i : ℕ) (f : ParHdrSeg → ParHdrSeg) : ParHdrState :=
  { s with segs := s.segs.modify i f }

/-- The peer owns or shadows a segment. -/
def busy (s : ParHdrState) (p : ℕ) : Bool := s.segs.any fun seg => seg.holds p

/-- The peer owns a segment. -/
def owns (s : ParHdrState) (p : ℕ) : Bool := s.segs.any fun seg => decide (seg.nodeId = some p)

/-- The first segment from `flush_idx` on that is neither complete nor owned. -/
def firstFree (s : ParHdrState) : Option ℕ :=
  (List.range s.segs.length).find? fun i =>
    s.flushIdx ≤ i && s.segs[i]?.any fun seg => !seg.complete && seg.nodeId.isNone

/-- The first incomplete segment that the peer owns or shadows. -/
def segOf (s : ParHdrState) (p : ℕ) : Option ℕ :=
  (List.range s.segs.length).find? fun i =>
    s.segs[i]?.any fun seg => !seg.complete && seg.holds p

/-- What `par_hdr_check` counts on one segment. -/
def segViolations (s : ParHdrState) (i : ℕ) (seg : ParHdrSeg) : ℕ :=
  List.count true [
    i < s.flushIdx && !seg.flushed,
    s.flushIdx ≤ i && seg.flushed,
    seg.flushed && !seg.complete,
    seg.flushed && seg.buf.isSome,
    seg.complete && seg.nodeId.isSome,
    seg.complete && seg.shadowId.isSome,
    seg.shadowId.isSome && seg.nodeId.isNone,
    seg.shadowId.isSome && decide (seg.shadowId = seg.nodeId),
    decide (seg.stopHeight ≤ seg.startHeight),
    decide (seg.tipHeight < seg.startHeight),
    !seg.flushed && 0 < seg.count && seg.buf.isNone,
    !seg.flushed && seg.cap < seg.count] +
  if seg.nodeId.isSome then
    (s.segs.drop (i + 1)).countP fun other => !other.complete && decide (other.nodeId = seg.nodeId)
  else 0

/-- `par_hdr_check` : the number of violated invariants. -/
def parHdrCheck (s : ParHdrState) : ℕ :=
  (if s.segs.length < s.flushIdx then 1 else 0) + (s.segs.mapIdx s.segViolations).sum

/-- The median rate of the segments other than the flush head, if three of them are in flight. -/
def crowdMedian (s : ParHdrState) (now : ℕ) : Option ℕ :=
  let rates := ((s.segs.eraseIdx s.flushIdx).map fun seg => seg.parHdrSegRate now).filter (0 < ·)
  if 3 ≤ rates.length then some ((rates.insertionSort (· ≤ ·)).getD (rates.length / 2) 0) else none

/-- The reference rate of `par_hdr_race_tail` : the last median, or the mean of the rates. -/
def raceRef (s : ParHdrState) (now : ℕ) : ℕ :=
  if s.rateRef = 0 then
    let rates := (s.segs.map fun seg => seg.parHdrSegRate now).filter (0 < ·)
    rates.sum / rates.length
  else s.rateRef

end ParHdrState

/-! ## The client -/

/-- The fields of `dogecoin_node` that header sync reads: two bits of `state`, the flag
`version_handshake` and the bit `NODE_HEADERSYNC`. -/
structure Node where
  connected : Bool
  versionHandshake : Bool
  headersync : Bool

/-- A header for which `par_hdr_flush` calls `header_connected`, with the segment it is taken from
and what that segment has staged. -/
structure FlushedHeader where
  segIdx : ℕ
  staged : List Bytes
  raw : Bytes

/-- The part of `dogecoin_spv_client` that header sync works on. Its chain parameters are those of
the database. -/
structure SpvClient where
  nodes : List Node
  parHdr : ParHdrState
  headersDb : HeadersDb
  /-- The headers that `par_hdr_flush` has connected, the last one first. -/
  headerConnected : List FlushedHeader

namespace SpvClient

/-- One segment is changed. -/
def modifySeg (c : SpvClient) (i : ℕ) (f : ParHdrSeg → ParHdrSeg) : SpvClient :=
  { c with parHdr := c.parHdr.modifySeg i f }

/-- The counter of staged bytes is set. -/
def setBuffered (c : SpvClient) (bytes : ℕ) : SpvClient :=
  { c with parHdr := { c.parHdr with bufferedBytes := bytes } }

/-- The download is over. -/
def deactivate (c : SpvClient) : SpvClient :=
  { c with parHdr := { c.parHdr with active := false } }

/-- The bit `NODE_HEADERSYNC` of a peer is set or cleared. -/
def setHeadersync (c : SpvClient) (p : ℕ) (on : Bool) : SpvClient :=
  { c with nodes := c.nodes.modify p fun n => { n with headersync := on } }

/-- The bit is cleared if there is an owner. -/
def clearOwner (c : SpvClient) : Option ℕ → SpvClient
  | none => c
  | some p => c.setHeadersync p false

/-- The peer is connected and its handshake is done. -/
def usable (c : SpvClient) (p : ℕ) : Bool :=
  c.nodes[p]?.any fun n => n.connected && n.versionHandshake

/-- `par_hdr_send_getheaders`. -/
def parHdrSendGetheaders (c : SpvClient) (p i time : ℕ) : SpvClient :=
  (c.modifySeg i (ParHdrSeg.requested time)).setHeadersync p true

/-- `par_hdr_assign`. -/
def parHdrAssign (c : SpvClient) (p time : ℕ) : SpvClient :=
  if !c.parHdr.active then c
  else if !c.usable p then c
  else if c.parHdr.busy p then c
  else
    match c.parHdr.firstFree with
    | none => c
    | some i =>
      if i ≠ c.parHdr.flushIdx ∧ PAR_HDR_MAX_BUFFERED ≤ c.parHdr.bufferedBytes then c
      else (c.modifySeg i (ParHdrSeg.assign p time)).parHdrSendGetheaders p i time

/-! ## Flushing -/

/-- `par_hdr_verify_tail`. -/
def parHdrVerifyTail (pf : Platform) (params : ChainParams) (seg : ParHdrSeg) : Bool :=
  match seg.tailRaw with
  | none => false
  | some raw =>
    if raw.length < PAR_HDR_RAW_LEN then false
    else
      match blockHeaderDeserialize pf raw params with
      | none => false
      | some (hdr, _, _) =>
        isAuxpow hdr.base.version ||
          (checkPow (pf.scrypt (blockHeaderSerialize hdr.base)) hdr.base.bits params).isSome

/-- The loop that connects the staged headers, up to the first that does not connect: whether all
of them did. -/
def connectStaged (pf : Platform) (segIdx : ℕ) (staged : List Bytes) :
    List Bytes → HeadersDb → List FlushedHeader → Option (HeadersDb × List FlushedHeader × Bool)
  | [], db, log => some (db, log, true)
  | raw :: rest, db, log => do
      let r ← db.connectHdr pf raw false
      if r.connected then
        connectStaged pf segIdx staged rest r.db
          ({ segIdx := segIdx, staged := staged, raw := raw } :: log)
      else some ({ r.db with heap := r.db.heap.free r.blockindex }, log, false)

/-- A buffer that the fallback does not need any more. -/
def releaseBuf (c : SpvClient) (k : ℕ) : SpvClient :=
  match c.parHdr.segs[k]? with
  | none => c
  | some seg =>
    if seg.buf.isNone then c
    else (c.modifySeg k ParHdrSeg.dropBuf).setBuffered
      (c.parHdr.bufferedBytes - seg.count * PAR_HDR_RAW_LEN)

/-- The fallback to the sequential download, which releases the buffers of the segments `ks`. -/
def fallback (c : SpvClient) (ks : List ℕ) : SpvClient := ks.foldl releaseBuf c.deactivate

/-- Segment `i` gives up its staged headers and goes on from another header. -/
def reopenSeg (c : SpvClient) (i : ℕ) (seg : ParHdrSeg) (hash : Uint256) (height : ℕ) : SpvClient :=
  (c.modifySeg i (ParHdrSeg.reopen hash height)).setBuffered
    (c.parHdr.bufferedBytes - seg.count * PAR_HDR_RAW_LEN)

/-- The flush head failed: it goes on from the tip of the database. -/
def failFlush (c : SpvClient) (seg : ParHdrSeg) : Option SpvClient := do
  let tip ← c.headersDb.heap.read c.headersDb.chaintip
  let i := c.parHdr.flushIdx
  let c := c.reopenSeg i seg tip.hash tip.height
  some (if PAR_HDR_MAX_FLUSH_FAILS ≤ seg.flushFails + 1 then
    c.fallback ((List.range c.parHdr.segs.length).filter (i < ·)) else c)

/-- The flush head is in the database. -/
def headFlushed (c : SpvClient) (seg : ParHdrSeg) : SpvClient :=
  let c := (c.modifySeg c.parHdr.flushIdx ParHdrSeg.markFlushed).setBuffered
    (c.parHdr.bufferedBytes - seg.count * PAR_HDR_RAW_LEN)
  { c with parHdr := { c.parHdr with flushIdx := c.parHdr.flushIdx + 1 } }

/-- One round of the flush loop: whether it goes on. -/
def flushHead (pf : Platform) (c : SpvClient) (seg : ParHdrSeg) : Option (SpvClient × Bool) :=
  if !parHdrVerifyTail pf c.headersDb.params seg then (c.failFlush seg).map fun c => (c, false)
  else do
    let (db, log, connected) ←
      connectStaged pf c.parHdr.flushIdx seg.staged seg.staged c.headersDb c.headerConnected
    let c := { c with headersDb := db, headerConnected := log }
    if connected then some (c.headFlushed seg, true) else (c.failFlush seg).map fun c => (c, false)

/-- The flush loop. It has no more rounds than there are segments left. -/
def flushLoop (pf : Platform) : ℕ → SpvClient → Option SpvClient
  | 0, c => some c
  | n + 1, c =>
    match c.parHdr.segs[c.parHdr.flushIdx]? with
    | none => some c
    | some seg =>
      if seg.complete && !seg.flushed then do
        let (c, goesOn) ← flushHead pf c seg
        if goesOn then flushLoop pf n c else some c
      else some c

/-- `skip_pow` of the database is set. -/
def setSkipPow (c : SpvClient) (on : Bool) : SpvClient :=
  { c with headersDb := { c.headersDb with skipPow := on } }

/-- `par_hdr_flush`. -/
def parHdrFlush (pf : Platform) (c : SpvClient) : Option SpvClient := do
  let prevSkip := c.headersDb.skipPow
  let c ← flushLoop pf (c.parHdr.segs.length - c.parHdr.flushIdx) (c.setSkipPow true)
  some (c.setSkipPow prevSkip)

/-! ## A headers message -/

/-- `deser_skip`. -/
def deserSkip (len : ℕ) (buf : Bytes) : Option Bytes :=
  if buf.length < len then none else some (buf.drop len)

/-- A merkle branch is skipped: a count and as many hashes. -/
def skipBranch (buf : Bytes) : Option Bytes := do
  let (count, rest) ← deserVarlen buf
  deserSkip (count.toNat * 32) rest

/-- `par_hdr_skip_auxpow` : coinbase, parent hash, two branches with their indices, parent
header. -/
def parHdrSkipAuxpow (buf : Bytes) : Option Bytes := do
  let (_, rest) ← txDeserialize buf
  let cbLen := buf.length - rest.length
  if cbLen = 0 then none
  else do
    let rest ← deserSkip cbLen buf
    let rest ← deserSkip 32 rest
    let rest ← skipBranch rest
    let rest ← deserSkip 4 rest
    let rest ← skipBranch rest
    let rest ← deserSkip 4 rest
    deserSkip 80 rest

/-- The version of the header in front of the buffer has the AuxPoW bit. -/
def wireIsAux (buf : Bytes) : Bool :=
  UInt32.ofNat (LittleEndian.ofBytes (buf.take 4)) &&& 0x100 ≠ 0

/-- The proof behind a header that has one is skipped. -/
def skipProof (buf rest : Bytes) : Option Bytes :=
  if wireIsAux buf then parHdrSkipAuxpow rest else some rest

/-- One round of the loop of `par_hdr_recv` : the segment, the counter of staged bytes, and the rest
of the buffer unless the loop is left. -/
def recvHeader (pf : Platform) (params : ChainParams) (seg : ParHdrSeg)
    (buffered : ℕ) (buf : Bytes) :
    ParHdrSeg × ℕ × Option Bytes :=
  if buf.length < PAR_HDR_RAW_LEN then (seg, buffered, none)
  else
    let raw := buf.take PAR_HDR_RAW_LEN
    let seg := seg.copyHeader raw
    let buffered := buffered + PAR_HDR_RAW_LEN
    match skipProof buf (buf.drop PAR_HDR_RAW_LEN) with
    -- here the counter keeps the 80 bytes of a header that is not staged
    | none => (seg, buffered, none)
    | some rest =>
      match blockHeaderDeserialize pf raw params with
      | none => (seg, buffered - PAR_HDR_RAW_LEN, none)
      | some (hdr, _, _) =>
        let record := buf.take (buf.length - rest.length)
        (seg.advance (blockHeaderHash pf hdr.base) record, buffered,
          (deserVarlen rest).map Prod.snd)

/-- The loop of `par_hdr_recv`. -/
def recvHeaders (pf : Platform) (params : ChainParams) : ℕ → ParHdrSeg → ℕ → Bytes → ParHdrSeg × ℕ
  | 0, seg, buffered, _ => (seg, buffered)
  | n + 1, seg, buffered, buf =>
    match recvHeader pf params seg buffered buf with
    | (seg, buffered, none) => (seg, buffered)
    | (seg, buffered, some rest) => recvHeaders pf params n seg buffered rest

/-- The first header of the message, if it is there, names the tip of the segment as its parent. -/
def continues (seg : ParHdrSeg) (count : ℕ) (buf : Bytes) : Bool :=
  !(0 < count && PAR_HDR_RAW_LEN ≤ buf.length && decide ((buf.drop 4).take 32 ≠ seg.tipHash.1))

/-- A shadow that answers before the owner takes the segment over. -/
def takeOver (c : SpvClient) (p i time : ℕ) : SpvClient :=
  match c.parHdr.segs[i]? with
  | none => c
  | some seg =>
    if seg.nodeId = some p then c
    else (c.clearOwner seg.nodeId).modifySeg i (ParHdrSeg.takeOver p time)

/-- The segment reached its stop height with another hash. It goes on from the tip of the database
if that lies inside it, else from its start. -/
def rejectSeg (c : SpvClient) (p i : ℕ) (seg : ParHdrSeg) (time : ℕ) : Option SpvClient := do
  let tip ← c.headersDb.heap.read c.headersDb.chaintip
  let inside := seg.startHeight < tip.height && tip.height ≤ seg.stopHeight
  let hash := if inside then tip.hash else seg.startHash
  let height := if inside then tip.height else seg.startHeight
  let c := (c.reopenSeg i seg hash height).setHeadersync p false
  some (if PAR_HDR_MAX_FLUSH_FAILS ≤ seg.flushFails + 1 then
    c.fallback ((List.range c.parHdr.segs.length).filter (· ≠ i)) else c.parHdrAssign p time)

/-- The download ends when all segments are flushed. -/
def endIfDone (c : SpvClient) : SpvClient :=
  if c.parHdr.segs.length ≤ c.parHdr.flushIdx then c.deactivate else c

/-- The segment reached its checkpoint. -/
def completeSeg (pf : Platform) (c : SpvClient) (p i time : ℕ) : Option SpvClient := do
  let c ← parHdrFlush pf ((c.modifySeg i ParHdrSeg.finish).setHeadersync p false)
  some (c.parHdrAssign p time).endIfDone

/-- What follows the loop of `par_hdr_recv`. -/
def afterHeaders (pf : Platform) (c : SpvClient) (p i : ℕ) (seg : ParHdrSeg) (time : ℕ) :
    Option SpvClient :=
  if seg.stopHeight ≤ seg.tipHeight then
    if seg.tipHash ≠ seg.stopHash then c.rejectSeg p i seg time else completeSeg pf c p i time
  else some (c.parHdrSendGetheaders p i time)

/-- `par_hdr_recv`. -/
def parHdrRecv (pf : Platform) (c : SpvClient) (p count : ℕ) (buf : Bytes) (time : ℕ) :
    Option SpvClient :=
  match c.parHdr.segOf p with
  | none => some (c.setHeadersync p false)
  | some i =>
    let c := c.takeOver p i time
    match c.parHdr.segs[i]? with
    | none => none
    | some seg =>
      if !continues seg count buf then some c
      else
        let (seg, buffered) :=
          recvHeaders pf c.headersDb.params count seg c.parHdr.bufferedBytes buf
        afterHeaders pf ((c.modifySeg i fun _ => seg).setBuffered buffered) p i seg time

/-! ## Reclaiming -/

/-- The owner of the segment is gone or has not answered in time. -/
def isStale (c : SpvClient) (now : ℕ) (seg : ParHdrSeg) : Bool :=
  !seg.complete && seg.nodeId.any fun p =>
    !c.usable p || (0 < seg.requestedAt && seg.requestedAt < now &&
      PAR_HDR_SEG_TIMEOUT < now - seg.requestedAt)

/-- Segment `i` is released if its owner is gone or silent. -/
def releaseStale (now : ℕ) (c : SpvClient) (i : ℕ) : SpvClient :=
  match c.parHdr.segs[i]? with
  | none => c
  | some seg =>
    if c.isStale now seg then (c.clearOwner seg.nodeId).modifySeg i ParHdrSeg.release else c

/-- The idle peer to which `par_hdr_preempt_head` gives the flush head, if it takes it from its
owner. A peer that owns nothing counts as idle even if it shadows a segment. -/
def preemptBy (c : SpvClient) (now : ℕ) : Option ℕ := do
  let head ← c.parHdr.segs[c.parHdr.flushIdx]?
  let headRate := head.parHdrSegRate now
  let median := (c.parHdr.crowdMedian now).getD c.parHdr.rateRef
  if head.complete || head.nodeId.isNone || headRate = 0 || median = 0 ||
      median ≤ headRate * PAR_HDR_SLOW_FACTOR then none
  else (List.range c.nodes.length).find? fun p =>
    c.usable p && decide (head.nodeId ≠ some p) && !c.parHdr.owns p

/-- The median of the crowd is remembered while there is one and the head is being downloaded. -/
def noteMedian (c : SpvClient) (now : ℕ) : SpvClient :=
  match c.parHdr.segs[c.parHdr.flushIdx]? with
  | none => c
  | some head =>
    if head.complete || head.nodeId.isNone || head.parHdrSegRate now = 0 then c
    else { c with parHdr :=
      { c.parHdr with rateRef := (c.parHdr.crowdMedian now).getD c.parHdr.rateRef } }

/-- The flush head is taken from its owner. -/
def preemptOwner (c : SpvClient) : SpvClient :=
  match c.parHdr.segs[c.parHdr.flushIdx]? with
  | none => c
  | some head => (c.clearOwner head.nodeId).modifySeg c.parHdr.flushIdx ParHdrSeg.preempt

/-- `par_hdr_preempt_head`. -/
def parHdrPreemptHead (c : SpvClient) (now time : ℕ) : SpvClient :=
  match c.preemptBy now with
  | none => c.noteMedian now
  | some idle => (c.noteMedian now).preemptOwner.parHdrAssign idle time

/-- The first peer that is free to shadow a segment. -/
def idlePeer (c : SpvClient) (owner : Option ℕ) : Option ℕ :=
  (List.range c.nodes.length).find? fun p =>
    c.usable p && decide (owner ≠ some p) && !c.parHdr.busy p

/-- The loop of `par_hdr_race_tail` over the segments that are left, with the number of idle
peers. -/
def raceLoop (ref now time : ℕ) : List ℕ → ℕ → SpvClient → SpvClient
  | [], _, c => c
  | i :: is, idleCount, c =>
    if idleCount = 0 then c
    else
      match c.parHdr.segs[i]? with
      | none => c
      | some seg =>
        if seg.complete || seg.nodeId.isNone || seg.shadowId.isSome ||
            seg.parHdrSegRate now = 0 || ref ≤ seg.parHdrSegRate now then
          raceLoop ref now time is idleCount c
        else
          match c.idlePeer seg.nodeId with
          | none => c
          | some cand =>
            raceLoop ref now time is (idleCount - 1)
              ((c.modifySeg i (ParHdrSeg.shadow cand)).parHdrSendGetheaders cand i time)

/-- `par_hdr_race_tail`. -/
def parHdrRaceTail (c : SpvClient) (now time : ℕ) : SpvClient :=
  if c.parHdr.segs.all ParHdrSeg.complete then c
  else
    let idleCount := (List.range c.nodes.length).countP fun p => c.usable p && !c.parHdr.busy p
    raceLoop (c.parHdr.raceRef now) now time
      ((List.range c.parHdr.segs.length).drop c.parHdr.flushIdx) idleCount c

/-- The first part of `par_hdr_reclaim` : segments of dead and silent peers are released. -/
def releaseAll (c : SpvClient) (now : ℕ) : SpvClient :=
  (List.range c.parHdr.segs.length).foldl (releaseStale now) c

/-- The second part: free segments are handed to the peers in their order. -/
def assignAll (c : SpvClient) (time : ℕ) : SpvClient :=
  (List.range c.nodes.length).foldl (fun c p => c.parHdrAssign p time) c

/-- `par_hdr_reclaim`. -/
def parHdrReclaim (c : SpvClient) (now time : ℕ) : SpvClient :=
  if !c.parHdr.active then c
  else (((c.releaseAll now).assignAll time).parHdrPreemptHead now time).parHdrRaceTail now time

/-! ## Runs -/

/-- What happens to the download. -/
inductive SyncOp where
  /-- A peer is added to the group. -/
  | addPeer
  /-- The connection of a peer changes. An error on it clears all flags, `NODE_HEADERSYNC` too. -/
  | link (p : ℕ) (connected versionHandshake keepsFlags : Bool)
  /-- The handshake with a peer is done. -/
  | assign (p time : ℕ)
  /-- A headers message: its count, and what follows. -/
  | headers (p count : ℕ) (buf : Bytes) (time : ℕ)
  /-- The periodic maintenance. -/
  | reclaim (now time : ℕ)

/-- A peer as it is added. -/
def newNode : Node where
  connected := false
  versionHandshake := false
  headersync := false

/-- The connection of a node changes. -/
def relink (connected versionHandshake keepsFlags : Bool) (n : Node) : Node where
  connected := connected
  versionHandshake := versionHandshake
  headersync := n.headersync && keepsFlags

/-- One step. Without an active download a headers message goes the sequential way, which these runs
do not follow. -/
def syncStep (pf : Platform) (c : SpvClient) : SyncOp → Option SpvClient
  | .addPeer => some { c with nodes := c.nodes ++ [newNode] }
  | .link p connected versionHandshake keepsFlags =>
    some { c with nodes := c.nodes.modify p (relink connected versionHandshake keepsFlags) }
  | .assign p time => some (c.parHdrAssign p time)
  | .headers p count buf time =>
    if c.parHdr.active then parHdrRecv pf c p count buf time else none
  | .reclaim now time => some (c.parHdrReclaim now time)

/-- The client with a download that was just initialised, over a database that meets `start`. -/
structure SyncStarted (start : HeadersDb → Prop) (c : SpvClient) : Prop where
  parHdr_eq : ParHdrState.parHdrInit c.headersDb.params = some c.parHdr
  idle : ∀ n ∈ c.nodes, n.headersync = false
  headerConnected_eq : c.headerConnected = []
  start : start c.headersDb

/-- The runs of the download over a database that meets `start`. -/
def syncSystem (pf : Platform) (start : HeadersDb → Prop) : TransitionSystem SpvClient SyncOp where
  init := SyncStarted start
  step := syncStep pf

end SpvClient

end Libdogecoin
