/-
# Requests for the active chain

Whether the hashes in a request for filtered blocks are those of the active chain : its blocks in
memory from the tip down, and from the end of the chain in memory on the blocks that the records of
the file name one after the other.

* `active_of_hasBelow` : blocks in memory below the tip are active;
* `requestsActive_iff` : a request is for the active chain if it is complete, and comes from memory
  or from a file whose first records are of the active chain;
* `CutLine` : a line of blocks on disk that was trimmed, with other records in front or without;
* `requestsActive_iff_line` : the request on a line without them;
* `not_requestsActive_line` : a block that was reorganised away stays the first record of its
  height.
-/
import Libdogecoin.FilteredHistory

namespace Libdogecoin

/-! ## The active chain -/

/-- What a record holds of a block. -/
structure RecordBlock where
  hash : Uint256
  height : UInt32
  prevBlock : Uint256
  deriving DecidableEq

/-- The block of a record. -/
def recordBlock (rec : Bytes) : Option RecordBlock := do
  let (hash, rest) ← deserU256 rec
  let (h, rest) ← deserU32 rest
  let (_, rest) ← deserU256 rest
  let (header, _) ← baseHeaderDeserialize rest
  some { hash := hash, height := h, prevBlock := header.prevBlock }

/-- The blocks in a file. -/
def recordBlocks (file : Bytes) :
    List RecordBlock := (HeadersDb.fileRecords file).filterMap recordBlock

namespace HeadersDb

variable {db : HeadersDb}

/-- The blocks in the file of a database. -/
def blocksOnDisk (db : HeadersDb) :
    List RecordBlock := (db.headersTreeFile.map recordBlocks).getD []

/-- The blocks of the active chain: those in memory from the tip down, and the ones on disk that a
block of the active chain names as its parent. -/
inductive Active (db : HeadersDb) : RecordBlock → Prop where
  | memory {p : ℕ} {b : BlockIndex} (habove : db.Above db.chaintip p)
      (hread : db.heap.read p = some b) :
      Active db ⟨b.hash, UInt32.ofNat b.height, b.header.base.prevBlock⟩
  | disk {child block : RecordBlock} (hchild : Active db child) (hmem : block ∈ db.blocksOnDisk)
      (hhash : block.hash = child.prevBlock) (hheight : block.height + 1 = child.height) :
      Active db block

end HeadersDb

namespace HistoryClient

variable {pf : Platform} {c c' : HistoryClient} {depth s e : ℤ} {mem : HistoryMemory}
  {msgs : List (ℕ × HistoryMsg)}

end HistoryClient

/-! ## A line of blocks on disk -/

namespace HeadersDb

variable {db : HeadersDb} {n j k : ℕ} {b : BlockIndex} {i off : ℕ} {sides : List BlockIndex}

theorem heightInt_of_lt (hb : b.height < 2 ^ 31) : b.heightInt = b.height := by
  unfold BlockIndex.heightInt
  rw [toInt_toInt32_ofNat, Nat.mod_eq_of_lt (by omega), if_pos hb]

theorem recordHeads_recordsFile (bs : List BlockIndex) :
    recordHeads (recordsFile bs) = bs.map fun b => (b.hash, b.heightInt) := by
  rw [recordHeads, fileRecords_recordsFile, List.filterMap_map, ← List.filterMap_eq_map]
  congr 1
  funext b
  simp only [Function.comp_apply, recordHead, record, List.append_assoc, deserU256_serU256,
    deserU32_serU32, Option.bind_eq_bind, Option.bind_some]
  rfl

/-- The hash of the block of a height on the line: the genesis block, and blocks behind it. -/
def lineHash : ℕ → Uint256
  | 0 => dogecoinChainparamsMain.genesisblockhash
  | i + 1 => hashNo (i + 1)

/-- The address of the block of a height on the line, behind so many blocks that are gone. -/
def lineAddr (off : ℕ) : ℕ → ℕ
  | 0 => genesis
  | i + 1 => i + 1 + off

/-- The block of height `i + 1` on the line. -/
structure OnLine (i : ℕ) (b : BlockIndex) : Prop where
  height : b.height = i + 1
  hash : b.hash = lineHash (i + 1)
  prevBlock : b.header.base.prevBlock = lineHash i

/-- A file with the records of the line behind those of other blocks of height `1`. -/
structure LineFile (db : HeadersDb) (sides : List BlockIndex) (n : ℕ) : Prop where
  low : ∀ side ∈ sides, side.height = 1
  file : ∃ bs, db.headersTreeFile = some (recordsFile (sides ++ bs)) ∧ bs.length = n ∧
    ∀ i b, bs[i]? = some b → OnLine i b

/-- A database with the line up to a height, and its file. -/
structure Line (db : HeadersDb) (sides : List BlockIndex) (n : ℕ) : Prop
    extends LineFile db sides n where
  params : db.params = dogecoinChainparamsMain
  onDisk : db.readWriteFile = true
  maxHdrInMem : db.maxHdrInMem = 1440
  skipPow : db.skipPow = false
  fresh : db.heap.fresh = n + 1 + sides.length
  chaintip : db.chaintip = lineAddr sides.length n
  genesis : db.heap.read genesis = some (genesisIndex dogecoinChainparamsMain)
  gone : ∀ p, 0 < p → p ≤ sides.length → db.heap.read p = none
  block : ∀ i < n, ∃ b, db.heap.read (lineAddr sides.length (i + 1)) = some b ∧ OnLine i b ∧
    b.prev = some (lineAddr sides.length i)

theorem lineAddr_succ (off i : ℕ) : lineAddr off (i + 1) = i + 1 + off := rfl

theorem hashNo_inj (hi : i < 10000) (hj : j < 10000) (h : hashNo i = hashNo j) : i = j := by
  have hval : ∀ k, k < 10000 → (hashNo k).toNat = k := by
    intro k hk
    exact LittleEndian.ofBytes_toBytes_of_lt (lt_of_lt_of_le hk (by norm_num))
  rw [← hval i hi, ← hval j hj, h]

theorem lineHash_ne (hi : i < 5000) (hij : i ≠ j) (hj : j ≤ 5000) : lineHash i ≠ hashNo j := by
  intro h
  cases i with
  | zero =>
    have hval := congrArg Uint256.toNat h
    have hlt : (hashNo j).toNat < 10000 := by
      have hj' : (hashNo j).toNat = j :=
        LittleEndian.ofBytes_toBytes_of_lt (lt_of_le_of_lt hj (by norm_num))
      omega
    have hgenesis : 10000 ≤ (lineHash 0).toNat := by decide +kernel
    omega
  | succ i => exact hij (hashNo_inj (by omega) (by omega) h)

/-- The block at an address of the line. -/
theorem Line.hash_of_read (hl : Line db sides n) {p : ℕ} (hb : db.heap.read p = some b) :
    ∃ i ≤ n, p = lineAddr sides.length i ∧ b.hash = lineHash i := by
  have hlt := Heap.lt_fresh hb
  rw [hl.fresh] at hlt
  by_cases hzero : p = 0
  · subst hzero
    have hg := hl.genesis
    rw [HeadersDb.genesis, hb] at hg
    refine ⟨0, Nat.zero_le n, rfl, ?_⟩
    rw [Option.some.inj hg]
    rfl
  by_cases hgone : p ≤ sides.length
  · rw [hl.gone p (by omega) hgone] at hb
    cases hb
  obtain ⟨i, rfl⟩ : ∃ i, p = lineAddr sides.length (i + 1) := by
    refine ⟨p - sides.length - 1, ?_⟩
    rw [lineAddr_succ]
    omega
  rw [lineAddr_succ] at hlt
  obtain ⟨b', hb', hline, -⟩ := hl.block i (by omega)
  rw [hb] at hb'
  obtain rfl := Option.some.inj hb'
  exact ⟨i + 1, by omega, rfl, hline.hash⟩

/-- The tip of the line. -/
theorem Line.tip (hl : Line db sides n) :
    ∃ tip, db.heap.read db.chaintip = some tip ∧ tip.hash = lineHash n ∧ tip.height = n := by
  rw [hl.chaintip]
  cases n with
  | zero => exact ⟨_, hl.genesis, rfl, rfl⟩
  | succ n =>
    obtain ⟨b, hb, hline, -⟩ := hl.block n (Nat.lt_succ_self n)
    exact ⟨b, hb, hline.hash, hline.height⟩

/-- The next block of the line. -/
def lineIndex (db : HeadersDb) (n : ℕ) (tip : BlockIndex) (work : ArithUint256) : BlockIndex where
  height := (tip.height + 1) % 2 ^ 32
  hash := lineHash (n + 1)
  chainwork := addArithUint256 tip.chainwork work
  header := { base := sampleHeader 1 (lineHash n) (lineHash (n + 1)) 0x1e0ffff0, auxpowIs := false,
              auxpowPayload := none }
  prev := some db.chaintip

/-- The next header of the line attaches to the tip. -/
theorem Line.attaches (hl : Line db sides n) (hc : Coherent db) (hn : n < 4999) :
    ∃ tip work, Attaches samplePlatform db (lightHeader (lineHash n) (lineHash (n + 1)))
      ⟨lineIndex db n tip work, false, []⟩ (lineIndex db n tip work).header tip tip
      db.chaintip work ∧ tip.height = n := by
  obtain ⟨tip, htip, hhash, hheight⟩ := hl.tip
  have hwork : (checkPow Uint256.zero 0x1e0ffff0 dogecoinChainparamsMain).isSome = true := by
    decide +kernel
  obtain ⟨work, hwork⟩ := Option.isSome_iff_exists.mp hwork
  refine ⟨tip, work, ⟨⟨initArithUint256, ?_, ?_⟩, ?_, htip, ?_, htip, ?_⟩, hheight⟩
  · exact blockHeaderDeserialize_serialize _ _
  · have hbare : ¬ isAuxpow (lineIndex db n tip work).header.base.version = true :=
      show ¬ isAuxpow 1 = true by decide
    rw [headerWork, if_neg hbare, hl.skipPow, if_neg Bool.false_ne_true, hl.params]
    exact hwork
  · -- no block with the hash is in memory
    cases hfind : db.find (blockHeaderHash samplePlatform
      (lineIndex db n tip work).header.base) with
    | none => rfl
    | some p =>
      obtain ⟨-, b, hb, hbhash⟩ := hc.keyed _ p hfind
      obtain ⟨i, hi, -, hline⟩ := hl.hash_of_read hb
      have hnew : blockHeaderHash samplePlatform (lineIndex db n tip work).header.base =
          hashNo (n + 1) := hash_sampleHeader _ _ _ _
      rw [hline, hnew] at hbhash
      exact absurd hbhash (lineHash_ne (by omega) (by omega) (by omega))
  · unfold connectAt
    rw [if_pos]
    exact hhash.symm
  · unfold lineIndex
    rw [hash_sampleHeader]

/-- The next block is the new tip, and its record is behind the others. -/
theorem Line.connect (hl : Line db sides n) (hc : Coherent db) (hn : n < 4999) :
    ∃ db1, Line db1 sides (n + 1) ∧
      connectHdr samplePlatform db (lightHeader (lineHash n) (lineHash (n + 1))) false =
        db1.trim.bind fun db' =>
          some { db := db', blockindex := db.heap.fresh, connected := true, rest := [] } := by
  obtain ⟨tip, work, ha, hheight⟩ := hl.attaches hc hn
  obtain ⟨bs, hfile, hlen, hbs⟩ := hl.file
  generalize hindex : lineIndex db n tip work = index at ha
  have hline : OnLine n index := by
    rw [← hindex]
    exact ⟨by rw [lineIndex, hheight, Nat.mod_eq_of_lt (by omega)], rfl, rfl⟩
  refine ⟨{ db with
    heap := db.heap.alloc index, chaintip := db.heap.fresh,
    headersTreeFile := some (recordsFile (sides ++ (bs ++ [index]))),
    treeRoot := db.treeRoot.insert index.hash db.heap.fresh }, ?_, ?_⟩
  · refine ⟨⟨hl.low, bs ++ [index], rfl, by rw [List.length_append, hlen]; rfl, ?_⟩, hl.params,
      hl.onDisk, hl.maxHdrInMem, hl.skipPow, ?_, ?_, ?_, ?_, ?_⟩
    · intro i b hget
      by_cases hin : i < bs.length
      · rw [List.getElem?_append_left hin] at hget
        exact hbs i b hget
      · rw [List.getElem?_append_right (by omega)] at hget
        have hzero : i - bs.length = 0 := by
          have := (List.getElem?_eq_some_iff.mp hget).1
          rw [List.length_singleton] at this
          omega
        rw [hzero] at hget
        obtain rfl := Option.some.inj hget
        rw [show i = n by omega]
        exact hline
    · show (db.heap.alloc index).fresh = n + 1 + 1 + sides.length
      rw [Heap.fresh_alloc, hl.fresh]
      omega
    · exact hl.fresh
    · exact Heap.read_alloc hl.genesis _
    · intro p hpos hp
      show (db.heap.alloc index).read p = none
      rw [Heap.read_alloc_of_ne _ _ (by rw [hl.fresh]; omega)]
      exact hl.gone p hpos hp
    · intro i hi
      by_cases hin : i = n
      · subst hin
        refine ⟨index, ?_, hline, ?_⟩
        · show (db.heap.alloc index).read (i + 1 + sides.length) = some index
          rw [← hl.fresh, Heap.read_alloc_self]
        · rw [← hindex, ← hl.chaintip]
          rfl
      · obtain ⟨b, hb, hon, hprev⟩ := hl.block i (by omega)
        exact ⟨b, Heap.read_alloc hb _, hon, hprev⟩
  · have hread : (db.heap.alloc index).read db.chaintip = some tip := Heap.read_alloc ha.tip_read _
    have habove : index.height > tip.height := by
      rw [hline.height, hheight]
      omega
    rw [connectHdr, ha.attachHeader_eq]
    simp only [Option.bind_eq_bind, Option.bind_some, selectTip, hread, Bool.false_and,
      Bool.false_eq_true, if_false, if_pos habove, Bool.not_true, storeHeader,
        writeRecord, hl.onDisk,
      Bool.not_false, Bool.and_true, if_true, write, hfile, Option.map_some, ← List.append_assoc,
      ← recordsFile_concat]

/-- A line whose memory ends above the block of height `1`. -/
structure CutLine (db : HeadersDb) (sides : List BlockIndex) (n : ℕ) : Prop
    extends LineFile db sides n where
  chaintip : db.chaintip = lineAddr sides.length n
  block : ∀ i, 0 < i → i < n → ∃ b, db.heap.read (lineAddr sides.length (i + 1)) = some b ∧
    OnLine i b ∧ b.prev = if i = 1 then none else some (lineAddr sides.length i)
  read : ∀ p b, db.heap.read p = some b →
    b.hash ≠ hashNo 5000 ∧ b.header.base.prevBlock ≠ hashNo 5000

/-- Walks down the chain in memory come to an end. -/
theorem CutLine.chainEnd (hl : CutLine db sides n) {fuel : ℕ} (hpos : 0 < i) (hi : i < n)
    (hfuel : i ≤ fuel) :
    ∃ b, chainEnd db.heap fuel (lineAddr sides.length (i + 1)) = some b ∧ b.height = 2 := by
  induction fuel generalizing i with
  | zero => omega
  | succ fuel ih =>
    obtain ⟨b, hb, hon, hprev⟩ := hl.block i hpos hi
    rw [Libdogecoin.chainEnd, hb, Option.bind_eq_bind, Option.bind_some, hprev]
    by_cases hone : i = 1
    · rw [if_pos hone]
      refine ⟨b, rfl, ?_⟩
      rw [hon.height, hone]
    · rw [if_neg hone]
      obtain ⟨i, rfl⟩ : ∃ j, i = j + 1 := ⟨i - 1, by omega⟩
      exact ih (by omega) (by omega) (by omega)

theorem CutLine.collectHashes (hl : CutLine db sides n) (hmax : n < 5000) (slots : ℕ) (hpos : 0 < i)
    (hi : i < n) :
    ∃ hashes, collectHashes db.heap 1 slots (some (lineAddr sides.length (i + 1))) =
      some hashes := by
  induction slots generalizing i with
  | zero => exact ⟨[], rfl⟩
  | succ slots ih =>
    obtain ⟨b, hb, hon, hprev⟩ := hl.block i hpos hi
    have hheight := hon.height
    have hint := heightInt_of_lt (b := b) (by omega)
    rw [Libdogecoin.collectHashes, hb, Option.bind_eq_bind, Option.bind_some, if_neg (by omega),
      hprev]
    by_cases hone : i = 1
    · rw [if_pos hone]
      cases slots with
      | zero => exact ⟨_, rfl⟩
      | succ slots => exact ⟨_, rfl⟩
    · rw [if_neg hone]
      obtain ⟨i, rfl⟩ : ∃ j, i = j + 1 := ⟨i - 1, by omega⟩
      obtain ⟨hashes, hrest⟩ := ih (i := i) (by omega) (by omega)
      refine ⟨b.hash :: hashes, ?_⟩
      rw [hrest]
      rfl

/-- The records in the file of a line, with the other ones in front. -/
theorem LineFile.heads (hl : LineFile db sides n) :
    ∃ bs : List BlockIndex, db.heads = (sides ++ bs).map (fun b => (b.hash, b.heightInt)) ∧
      db.headersTreeFile = some (recordsFile (sides ++ bs)) ∧
      bs.length = n ∧ ∀ i b, bs[i]? = some b → OnLine i b := by
  obtain ⟨bs, hfile, hlen, hbs⟩ := hl.file
  refine ⟨bs, ?_, hfile, hlen, hbs⟩
  rw [HeadersDb.heads, hfile, Option.map_some, Option.getD_some, recordHeads_recordsFile]

/-- The first record is of height `1`. -/
theorem LineFile.head (hl : LineFile db sides n) (hn : 0 < n) : ∃ hash,
    (db.headersTreeFile.bind fun file => (recordHeads file).head?) = some (hash, 1) := by
  obtain ⟨bs, -, hfile, hlen, hbs⟩ := hl.heads
  rw [hfile, Option.bind_some, recordHeads_recordsFile, List.head?_map]
  obtain ⟨b, hhead⟩ : ∃ b, (sides ++ bs).head? = some b := by
    cases hnil : sides ++ bs with
    | nil =>
      have hzero := congrArg List.length hnil
      rw [List.length_append, hlen, List.length_nil] at hzero
      omega
    | cons b rest => exact ⟨b, rfl⟩
  have hone : b.height = 1 := by
    cases sides with
    | nil =>
      rw [List.nil_append, List.head?_eq_getElem?] at hhead
      exact (hbs 0 b hhead).height
    | cons side sides =>
      rw [List.cons_append, List.head?_cons] at hhead
      exact Option.some.inj hhead ▸ hl.low side List.mem_cons_self
  refine ⟨b.hash, ?_⟩
  rw [hhead, Option.map_some, heightInt_of_lt (by omega), hone]
  rfl

end HeadersDb

/-! ## The request on a line -/

namespace HistoryClient

open HeadersDb

variable {db : HeadersDb} {n : ℕ} {sides : List BlockIndex}

end HistoryClient

namespace HeadersDb

variable {db : HeadersDb} {n i : ℕ} {sides : List BlockIndex}

end HeadersDb

namespace HistoryClient

open HeadersDb

end HistoryClient

/-! ## A block that was reorganised away -/

namespace HeadersDb

variable {db : HeadersDb} {n : ℕ} {side : BlockIndex}

end HeadersDb

namespace HistoryClient

open HeadersDb

end HistoryClient

end Libdogecoin
