/-
# The headers database

`headersdb_file.c` : block indices in memory with their `prev` pointers, the search tree over
their hashes, the chain tip, and the file of records. A pointer is an address of a heap whose
address `0` is the embedded genesis index; a function that would follow a freed or foreign pointer,
or that would not return, has no result.

The block tree is always in use (`use_binary_tree` is set by `dogecoin_headers_db_new` and never
cleared), and `batch_write` only decides when the file is flushed, so neither is modelled.

* `connectHdr` is split at the places where the C function returns: `attachHeader` up to the
  attached index, `selectTip` for the reorganisation, `storeHeader` for file, tree and trimming.
-/
import Libdogecoin.Block
import Libdogecoin.Heap
import Libdogecoin.SearchTree

namespace Libdogecoin

/-- `dogecoin_blockindex`. The height is that of a `uint32_t`. -/
structure BlockIndex where
  height : ℕ
  hash : Uint256
  chainwork : ArithUint256
  header : FullHeader
  prev : Option ℕ
  deriving DecidableEq

/-- The header `dogecoin_calloc` leaves in a fresh index. -/
def emptyHeader : FullHeader where
  base := { version := 0, prevBlock := Uint256.zero, merkleRoot := Uint256.zero, timestamp := 0,
            bits := 0, nonce := 0 }
  auxpowIs := false
  auxpowPayload := none

/-- `dogecoin_headers_db`. -/
structure HeadersDb where
  params : ChainParams
  readWriteFile : Bool
  maxHdrInMem : ℕ
  heap : Heap BlockIndex
  treeRoot : SearchTree Uint256 ℕ headerCompare
  chaintip : ℕ
  chainbottom : ℕ
  /-- The contents of the open records file. -/
  headersTreeFile : Option Bytes
  skipPow : Bool

namespace HeadersDb

/-- The address of the embedded genesis index. -/
def genesis : ℕ := 0

/-- The embedded genesis index. Its header stays zeroed. -/
def genesisIndex (params : ChainParams) : BlockIndex where
  height := 0
  hash := params.genesisblockhash
  chainwork := uintToArith params.genesisblockchainwork
  header := emptyHeader
  prev := none

/-- `dogecoin_headers_db_new`. -/
def new (params : ChainParams) (inmemOnly : Bool) : HeadersDb where
  params := params
  readWriteFile := !inmemOnly
  maxHdrInMem := 1440
  heap := ⟨[some (genesisIndex params)]⟩
  treeRoot := SearchTree.empty
  chaintip := genesis
  chainbottom := genesis
  headersTreeFile := none
  skipPow := false

/-- `dogecoin_headersdb_find`. -/
def find (db : HeadersDb) (hash : Uint256) : Option ℕ := db.treeRoot.find hash

/-- `dogecoin_headersdb_disconnect_tip` : whether there was a tip to disconnect. -/
def disconnectTip (db : HeadersDb) : Option (HeadersDb × Bool) := do
  let oldtip ← db.heap.read db.chaintip
  match oldtip.prev with
  | none => some (db, false)
  | some prev =>
    some ({ db with chaintip := prev, treeRoot := db.treeRoot.erase oldtip.hash,
                    heap := db.heap.free db.chaintip }, true)

/-- `dogecoin_headersdb_set_checkpoint_start`. -/
def setCheckpointStart (db : HeadersDb) (hash : Uint256) (height : UInt32)
    (chainwork : ArithUint256) :
    HeadersDb :=
  let chainbottom := db.heap.fresh
  { db with
    heap := db.heap.alloc
      { height := height.toNat, hash := hash, chainwork := chainwork,
        header := emptyHeader, prev := none }
    chainbottom := chainbottom
    chaintip := chainbottom
    treeRoot := db.treeRoot.insert hash chainbottom }

/-! ## Connecting a header -/

/-- What `dogecoin_block_header_deserialize` leaves of a header, and of the buffer, when it fails:
the header if only its proof was rejected, else the 80 bytes if the buffer had as many. Nobody
reads on in a buffer that did not parse, so it is left where its proof starts. -/
def partialParse (buf : Bytes) : FullHeader × Bytes :=
  match blockHeaderParse buf with
  | some parsed => parsed
  | none =>
    match baseHeaderDeserialize buf with
    | some (base, rest) => ({ base := base, auxpowIs := false, auxpowPayload := none }, rest)
    | none => (emptyHeader, buf)

/-- A header that passed every test before the chain is touched: its index, already attached to
its parent, whether the parent is not the tip, and the unread rest of the buffer. -/
structure Attached where
  index : BlockIndex
  forkFromBlock : Bool
  rest : Bytes

/-- The block the header names as its parent, and whether it is one other than the tip. -/
def connectAt (db : HeadersDb) (tip : BlockIndex) (prevBlock : Uint256) : Option (ℕ × Bool) :=
  if prevBlock = tip.hash then some (db.chaintip, false)
  else (db.find prevBlock).map fun p => (p, true)

/-- The work to add for a header: the work of the AuxPoW check that deserialization made, or that
of the check on the header itself, unless it is skipped. -/
def headerWork (pf : Platform) (db : HeadersDb) (h : FullHeader) (work : ArithUint256) :
    Option ArithUint256 :=
  if isAuxpow h.base.version then some work
  else if db.skipPow then some work
  else checkPow (pf.scrypt (blockHeaderSerialize h.base)) h.base.bits db.params

/-- `dogecoin_headers_db_connect_hdr` up to the attached index. An error carries the index that is
returned unconnected and the unread rest of the buffer. -/
def attachHeader (pf : Platform) (db : HeadersDb) (buf : Bytes) :
    Option (Except (BlockIndex × Bytes) Attached) :=
  match blockHeaderDeserialize pf buf db.params with
  | none =>
    let (h, rest) := partialParse buf
    some (.error ({ height := 0, hash := Uint256.zero, chainwork := initArithUint256,
                    header := h, prev := none }, rest))
  | some (h, work, rest) => do
      let index : BlockIndex := { height := 0, hash := blockHeaderHash pf h.base, chainwork := work,
                                  header := h, prev := none }
      if (db.find index.hash).isSome then some (.error (index, rest))
      else do
        let tip ← db.heap.read db.chaintip
        match db.connectAt tip h.base.prevBlock with
        | none => some (.error (index, rest))
        | some (connectAt, fork) =>
          match headerWork pf db h work with
          | none => some (.error (index, rest))
          | some work => do
              let parent ← db.heap.read connectAt
              some (.ok {
                index := { index with
                  prev := some connectAt
                  height := (parent.height + 1) % 2 ^ 32
                  chainwork := addArithUint256 parent.chainwork work }
                forkFromBlock := fork
                rest := rest })

/-- The work test of the reorganisation: more work, or as much work and a later timestamp. -/
def overtakes (index tip : BlockIndex) : Bool :=
  arithUint256GreaterThan index.chainwork tip.chainwork ||
    (arithUint256Equal index.chainwork tip.chainwork &&
      index.header.base.timestamp > tip.header.base.timestamp)

/-- The search for the common ancestor: nothing if a chain ends first. -/
def commonAncestor (heap : Heap BlockIndex) : ℕ → ℕ → ℕ → Option (Option ℕ)
  | 0, _, _ => none
  | fuel + 1, ancestor, fork => do
      let a ← heap.read ancestor
      let f ← heap.read fork
      if a.hash = f.hash then some (some ancestor)
      else if a.height > f.height then
        match a.prev with
        | none => some none
        | some p => commonAncestor heap fuel p fork
      else
        match f.prev with
        | none => some none
        | some p => commonAncestor heap fuel ancestor p

/-- Disconnect the tip until its hash is that of the common ancestor. -/
def disconnectTo (ancestor : ℕ) : ℕ → HeadersDb → Option HeadersDb
  | 0, _ => none
  | fuel + 1, db => do
      let tip ← db.heap.read db.chaintip
      let a ← db.heap.read ancestor
      if tip.hash = a.hash then some db
      else do
        let (db, _) ← db.disconnectTip
        disconnectTo ancestor fuel db

/-- The walk down the new chain, which moves the tip along. Reports whether it met the common
ancestor; if it did not, the last block of the walk is put in the tree. -/
def connectWalk (blockindex ancestor : ℕ) : ℕ → ℕ → HeadersDb → Option (HeadersDb × Bool)
  | 0, _, _ => none
  | fuel + 1, current, db => do
      let c ← db.heap.read current
      let a ← db.heap.read ancestor
      if c.hash = a.hash then some (db, true)
      else
        match c.prev with
        | none =>
          let db := if current ≠ blockindex then
            { db with treeRoot := db.treeRoot.insert c.hash current } else db
          some (db, false)
        | some p => connectWalk blockindex ancestor fuel p { db with chaintip := p }

/-- The chain reorganisation to the block at `blockindex`. Reports whether the caller goes on. -/
def reorganise (db : HeadersDb) (blockindex : ℕ) : Option (HeadersDb × Bool) := do
  match ← commonAncestor db.heap (db.chaintip + blockindex + 1) db.chaintip blockindex with
  | none => some (db, false)
  | some ancestor => do
      let db ← disconnectTo ancestor (db.chaintip + 1) db
      let (db, found) ← connectWalk blockindex ancestor (blockindex + 1) blockindex db
      some (if found then { db with chaintip := blockindex } else db, found)

/-- The choice of the tip after the block at `blockindex` was attached. -/
def selectTip (db : HeadersDb) (blockindex : ℕ) (index : BlockIndex) (forkFromBlock : Bool) :
    Option (HeadersDb × Bool) := do
  let tip ← db.heap.read db.chaintip
  if forkFromBlock && index.height > tip.height && overtakes index tip then
    db.reorganise blockindex
  else if index.height > tip.height then some ({ db with chaintip := blockindex }, true)
  else some (db, true)

/-- The record of an index: hash, height, chainwork and the 80 bytes. -/
def record (index : BlockIndex) : Bytes :=
  serU256 index.hash ++ serU32 (UInt32.ofNat index.height) ++
    serU256 (arithToUint256 index.chainwork) ++ blockHeaderSerialize index.header.base

/-- `dogecoin_headers_db_write` : undefined without an open file. -/
def write (db : HeadersDb) (index : BlockIndex) : Option HeadersDb :=
  db.headersTreeFile.map fun file => { db with headersTreeFile := some (file ++ record index) }

/-- The scan down from the tip with `k` more links to go before the link at which a block is
trimmed: the block below is freed unless it is the genesis index. -/
def trimScan : ℕ → ℕ → HeadersDb → Option HeadersDb
  | 0, scanTip, db => do
      let b ← db.heap.read scanTip
      match b.prev with
      | none => some db
      | some s =>
        if s = genesis then some db
        else do
          let sb ← db.heap.read s
          match sb.prev with
          | none => some db
          | some f =>
            if f = genesis then some db
            else do
              let fb ← db.heap.read f
              some { db with
                treeRoot := db.treeRoot.erase fb.hash
                heap := (db.heap.free f).write s { sb with prev := none }
                chainbottom := s }
  | k + 1, scanTip, db => do
      let b ← db.heap.read scanTip
      match b.prev with
      | none => some db
      | some s => trimScan k s db

/-- The removal of a header that is no longer required. -/
def trim (db : HeadersDb) : Option HeadersDb :=
  if db.maxHdrInMem > 0 then trimScan db.maxHdrInMem db.chaintip db else some db

/-- The write of a connected header, which a load and a database in memory skip. -/
def writeRecord (db : HeadersDb) (index : BlockIndex) (loadProcess : Bool) : Option HeadersDb :=
  if !loadProcess && db.readWriteFile then db.write index else some db

/-- File, tree and trimming after the tip was chosen. -/
def storeHeader (db : HeadersDb) (blockindex : ℕ) (index : BlockIndex) (loadProcess : Bool) :
    Option HeadersDb := do
  let db ← db.writeRecord index loadProcess
  let db := { db with treeRoot := db.treeRoot.insert index.hash blockindex }
  if !loadProcess then db.trim else some db

/-- What `dogecoin_headers_db_connect_hdr` leaves: the database with the returned index in its
heap, the address of the index, `*connected` and the unread rest of the buffer. -/
structure ConnectResult where
  db : HeadersDb
  blockindex : ℕ
  connected : Bool
  rest : Bytes

/-- `dogecoin_headers_db_connect_hdr`. -/
def connectHdr (pf : Platform) (db : HeadersDb) (buf : Bytes) (loadProcess : Bool) :
    Option ConnectResult := do
  let blockindex := db.heap.fresh
  match ← attachHeader pf db buf with
  | .error (index, rest) =>
    some { db := { db with heap := db.heap.alloc index }, blockindex := blockindex,
           connected := false, rest := rest }
  | .ok a => do
      let db := { db with heap := db.heap.alloc a.index }
      let (db, goesOn) ← db.selectTip blockindex a.index a.forkFromBlock
      if !goesOn then
        some { db := db, blockindex := blockindex, connected := false, rest := a.rest }
      else do
        let db ← db.storeHeader blockindex a.index loadProcess
        some { db := db, blockindex := blockindex, connected := true, rest := a.rest }

/-! ## The records file -/

/-- `file_hdr_magic`. -/
def fileHdrMagic : Bytes := [0xA8, 0xF0, 0x11, 0xC5]

/-- `current_version`. -/
def currentVersion : UInt32 := 3

/-- `SPV_HEADERS_FILE_REC_LEN`. -/
def SPV_HEADERS_FILE_REC_LEN : ℕ := 148

/-- The head of a new file. -/
def fileHead : Bytes := fileHdrMagic ++ serU32 currentVersion

/-- Set the chainwork of the chain tip, as the load loop does after every record. -/
def setTipChainwork (db : HeadersDb) (chainwork : ArithUint256) : Option HeadersDb := do
  let tip ← db.heap.read db.chaintip
  some { db with heap := db.heap.write db.chaintip { tip with chainwork := chainwork } }

/-- The first record of the file becomes the tip, whatever it hangs on. The 80 bytes of a record
always deserialize, so the error path of the source is not reached. -/
def loadFirst (pf : Platform) (db : HeadersDb) (height : UInt32) (buf : Bytes) :
    Option HeadersDb := do
  let (h, work, _) ← blockHeaderDeserialize pf buf db.params
  let chainheader := db.heap.fresh
  let index : BlockIndex := { height := height.toNat, hash := blockHeaderHash pf h.base,
                              chainwork := work, header := h, prev := none }
  some { db with
    heap := db.heap.alloc index
    chaintip := chainheader
    treeRoot := db.treeRoot.insert index.hash chainheader }

/-- A later record is connected; a header that is not connected is freed. -/
def loadNext (pf : Platform) (db : HeadersDb) (buf : Bytes) : Option HeadersDb := do
  let r ← connectHdr pf db buf true
  some (if r.connected then r.db else { r.db with heap := r.db.heap.free r.blockindex })

/-- One record of the file. -/
def loadRecord (pf : Platform) (db : HeadersDb) (firstblock : Bool) (rec : Bytes) :
    Option HeadersDb := do
  let (_, rest) ← deserU256 rec
  let (height, rest) ← deserU32 rest
  let (chainwork, rest) ← deserU256 rest
  let loaded := if firstblock then loadFirst pf db height rest else loadNext pf db rest
  loaded.bind fun db => db.setTipChainwork (uintToArith chainwork)

/-- The load loop over the file behind its head, for at most `n` records. An incomplete record at
the end is not read. -/
def loadRecords (pf : Platform) : ℕ → Bool → Bytes → HeadersDb → Option HeadersDb
  | 0, _, _, db => some db
  | n + 1, firstblock, file, db =>
    if file.length < SPV_HEADERS_FILE_REC_LEN then some db
    else do
      let db ← loadRecord pf db firstblock (file.take SPV_HEADERS_FILE_REC_LEN)
      loadRecords pf n false (file.drop SPV_HEADERS_FILE_REC_LEN) db

/-- `dogecoin_headers_db_load` without a prompt, on the file that exists or, if there is none, on a
new one. Of the stored version only the first byte is compared. -/
def load (pf : Platform) (db : HeadersDb) (existing : Option Bytes) : Option (HeadersDb × Bool) :=
  if !db.readWriteFile then some (db, true)
  else
    match existing with
    | none => some ({ db with headersTreeFile := some fileHead }, true)
    | some file =>
      let closed := { db with headersTreeFile := none }
      if file.length < fileHead.length ∨ file.take 4 ≠ fileHdrMagic then some (closed, false)
      else if (file.getD 4 0).toNat > currentVersion.toNat then some (closed, false)
      else do
        let db ← loadRecords pf file.length true (file.drop fileHead.length)
          { db with headersTreeFile := some file }
        some (db, true)

end HeadersDb

end Libdogecoin
