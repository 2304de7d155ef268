/-
# The file of compact filters

`cfheadersdb_file.c` : behind the header of 40 bytes stand records of any length, each with its
length in front of the filter. The loader takes the height of every record whose first 40 bytes are
there and seeks over the filter, also behind the end of the file. New records are written at the
end, behind an incomplete one.

* `tipHeight_cfiltersDbLoad` : the height that is found in a file;
* `visits_eq_iff` : when the records that are visited are given ones;
* `cfilters_recover_iff` : when a torn file that was loaded and written to is read as it should be.

The file is at a given path; the default path and the move of older files are left out. All writes
succeed.
-/
import Libdogecoin.Block
import Libdogecoin.CfheadersDb
import Libdogecoin.LogScan

namespace Libdogecoin

namespace CfiltersDb

open CfheadersDb (CfFile CF_HEADERS_FILE_HDR_LEN cfFileVersion cfhdrMagic)
open FixedRecords (Repeats)
open LogScan (Format front Faithful Written)

/-! ## Records -/

/-- `CF_FILTERS_FILE_REC_HDR_LEN`. -/
def CF_FILTERS_FILE_REC_HDR_LEN : ℕ := 40

/-- A filter with the height and the hash of its block. -/
structure CfilterRecord where
  height : UInt32
  blockHash : Uint256
  filterData : Bytes
  deriving DecidableEq

/-- What is in front of the filter. -/
structure RecordHeader where
  height : UInt32
  blockHash : Uint256
  dataLen : UInt32

/-- The 40 bytes in front of the filter. -/
def RecordHeader.bytes (hdr : RecordHeader) : Bytes :=
  serU32 hdr.height ++ (serU256 hdr.blockHash ++ serU32 hdr.dataLen)

/-- The fields in 40 bytes. -/
def RecordHeader.ofBytes (buf : Bytes) : Option RecordHeader := do
  let (height, rest) ← deserU32 buf
  let (blockHash, rest) ← deserU256 rest
  let (dataLen, _) ← deserU32 rest
  some { height := height, blockHash := blockHash, dataLen := dataLen }

/-- The header that is written for a filter. The length is cut to 32 bits. -/
def CfilterRecord.header (rec : CfilterRecord) : RecordHeader where
  height := rec.height
  blockHash := rec.blockHash
  dataLen := UInt32.ofNat rec.filterData.length

/-- What is written for a filter. -/
def CfilterRecord.bytes (rec : CfilterRecord) : Bytes := rec.header.bytes ++ rec.filterData

/-! ## The database -/

/-- `cfdata_magic`. -/
def cfdataMagic : Bytes := [0xCF, 0xDA, 0x54, 0x41]

/-- What `write_file_header` writes. -/
def writeFileHeader (magic : Bytes) : Bytes := magic ++ serU32 cfFileVersion ++ List.replicate 32 0

/-- `read_file_version`. -/
def readFileVersion (magic : Bytes) (f : CfFile) : UInt32 × CfFile :=
  match { f with pos := 0 }.fread 8 with
  | (none, f) => (0, f)
  | (some buf, f) =>
    if buf.take 4 ≠ magic then (0, f) else (UInt32.ofNat (LittleEndian.ofBytes (buf.drop 4)), f)

/-- `dogecoin_cfilters_db`. -/
structure Db where
  file : Option CfFile
  readWrite : Bool
  tipHeight : UInt32

/-- `dogecoin_cfilters_db_new`. -/
def cfiltersDbNew (inmemOnly : Bool) : Db where
  file := none
  readWrite := !inmemOnly
  tipHeight := 0

/-- The loop over the records of a file. A filter is skipped without a look at it. -/
def scanRecords : ℕ → CfFile → UInt32 → UInt32 × CfFile
  | 0, f, tipHeight => (tipHeight, f)
  | n + 1, f, tipHeight =>
    match f.fread CF_FILTERS_FILE_REC_HDR_LEN with
    | (none, f) => (tipHeight, f)
    | (some buf, f) =>
      match RecordHeader.ofBytes buf with
      | none => (tipHeight, f)
      | some hdr => scanRecords n { f with pos := f.pos + hdr.dataLen.toNat } hdr.height

/-- A file that was there is opened. -/
def loadExisting (db : Db) (f : CfFile) : Bool × Db :=
  if (readFileVersion cfdataMagic f).1 = 0 then (false, { db with file := none })
  else
    let f := { (readFileVersion cfdataMagic f).2 with pos := CF_HEADERS_FILE_HDR_LEN }
    let (tipHeight, f) := scanRecords f.content.length f db.tipHeight
    (true, { db with file := some f.seekEnd, tipHeight := tipHeight })

/-- `dogecoin_cfilters_db_load` of the file that is found at the path. -/
def cfiltersDbLoad (db : Db) (found : Option Bytes) : Bool × Db :=
  if !db.readWrite then (true, db)
  else
    match found.filter fun content => 8 ≤ content.length with
    | none => (true, { db with file := some (CfFile.fwrite (writeFileHeader cfdataMagic) ⟨[], 0⟩) })
    | some content => loadExisting db ⟨content, 0⟩

/-- `dogecoin_cfilters_db_write`. -/
def cfiltersDbWrite (db : Db) (rec : CfilterRecord) : Db :=
  if !db.readWrite then db
  else
    match db.file with
    | none => db
    | some f =>
      { db with
        file := some ((f.fwrite rec.header.bytes).fwrite rec.filterData), tipHeight := rec.height }

/-- The loop of `dogecoin_cfilters_db_iterate`, with a callback that may stop it. A filter that is
too long or incomplete ends it without the seek to the end. -/
def iterateLoop {σ : Type} (cb : CfilterRecord → σ → Bool × σ) : ℕ → CfFile → σ → Bool × CfFile × σ
  | 0, f, ctx => (true, f.seekEnd, ctx)
  | n + 1, f, ctx =>
    match f.fread CF_FILTERS_FILE_REC_HDR_LEN with
    | (none, f) => (true, f.seekEnd, ctx)
    | (some buf, f) =>
      match RecordHeader.ofBytes buf with
      | none => (true, f.seekEnd, ctx)
      | some hdr =>
        if hdr.dataLen = 0 then
          let (cont, ctx) := cb ⟨hdr.height, hdr.blockHash, []⟩ ctx
          if cont then iterateLoop cb n f ctx else (true, f.seekEnd, ctx)
        else if hdr.dataLen.toNat > DOGECOIN_MAX_P2P_MSG_SIZE then (false, f, ctx)
        else
          match f.fread hdr.dataLen.toNat with
          | (none, f) => (false, f, ctx)
          | (some data, f) =>
            let (cont, ctx) := cb ⟨hdr.height, hdr.blockHash, data⟩ ctx
            if cont then iterateLoop cb n f ctx else (true, f.seekEnd, ctx)

/-- `dogecoin_cfilters_db_iterate`. -/
def cfiltersDbIterate {σ : Type} (cb : CfilterRecord → σ → Bool × σ) (db : Db) (ctx : σ) :
    Bool × Db × σ :=
  match db.file with
  | none => (false, db, ctx)
  | some f =>
    let (result, f, ctx) := iterateLoop cb f.content.length
      { f with pos := CF_HEADERS_FILE_HDR_LEN } ctx
    (result, { db with file := some f }, ctx)

/-- The records that a callback is called with, one after the other. -/
def visits (db : Db) : List CfilterRecord :=
  (cfiltersDbIterate (fun rec seen => (true, seen ++ [rec])) db []).2.2

/-! ## The two ways to read a record -/

@[simp] theorem RecordHeader.length_bytes (hdr : RecordHeader) :
    hdr.bytes.length = CF_FILTERS_FILE_REC_HDR_LEN := by
  rw [bytes, List.length_append, List.length_append, length_serU32, length_serU256, length_serU32]
  rfl

/-- The fields of a header, and whatever stands behind them. -/
theorem RecordHeader.ofBytes_append (hdr : RecordHeader) (rest : Bytes) :
    ofBytes (hdr.bytes ++ rest) = some hdr := by
  unfold ofBytes bytes
  rw [List.append_assoc, List.append_assoc, deserU32_serU32]
  simp only [Option.bind_eq_bind, Option.bind_some]
  rw [deserU256_serU256]
  simp only [Option.bind_some]
  rw [deserU32_serU32]
  rfl

theorem RecordHeader.ofBytes_bytes (hdr : RecordHeader) : ofBytes hdr.bytes = some hdr := by
  have hread := hdr.ofBytes_append []
  rwa [List.append_nil] at hread

/-- At least 40 bytes start with those of a header. -/
theorem RecordHeader.exists_of_le {buf : Bytes} (h : CF_FILTERS_FILE_REC_HDR_LEN ≤ buf.length) :
    ∃ (hdr : RecordHeader) (rest : Bytes), buf = hdr.bytes ++ rest := by
  unfold CF_FILTERS_FILE_REC_HDR_LEN at h
  obtain ⟨⟨height, rest⟩, hheight⟩ : ∃ r, deserU32 buf = some r := by
    rw [deserU32, deserBytes, if_neg (by omega)]
    exact ⟨_, rfl⟩
  obtain rfl := deserU32_eq_append hheight
  rw [List.length_append, length_serU32] at h
  obtain ⟨⟨len, rest'⟩, hlen⟩ : ∃ r, deserU32 (rest.drop 32) = some r := by
    rw [deserU32, deserBytes, if_neg (by rw [List.length_drop]; omega)]
    exact ⟨_, rfl⟩
  refine ⟨⟨height, ⟨rest.take 32, by rw [List.length_take]; omega⟩, len⟩, rest', ?_⟩
  show _ = serU32 height ++ (rest.take 32 ++ serU32 len) ++ rest'
  rw [List.append_assoc, List.append_assoc, ← deserU32_eq_append hlen, List.take_append_drop]

/-- Whatever has a header starts with its bytes. -/
theorem RecordHeader.eq_append_of_ofBytes {buf : Bytes} {hdr : RecordHeader}
    (h : ofBytes buf = some hdr) :
    ∃ rest, buf = hdr.bytes ++ rest := by
  have hread := h
  unfold ofBytes at h
  obtain ⟨⟨height, rest⟩, hheight, h⟩ := Option.bind_eq_some_iff.mp h
  obtain ⟨⟨blockHash, rest'⟩, hhash, h⟩ := Option.bind_eq_some_iff.mp h
  obtain ⟨⟨dataLen, rest''⟩, hlen, -⟩ := Option.bind_eq_some_iff.mp h
  have hlong : CF_FILTERS_FILE_REC_HDR_LEN ≤ buf.length := by
    obtain ⟨hfour, hrest, -⟩ := deserU32_eq_some hheight
    obtain ⟨hhash, hrest', -⟩ := deserU256_eq_some hhash
    have hlast := (deserU32_eq_some hlen).1
    rw [hrest', hrest, List.length_drop, List.length_drop] at hlast
    unfold CF_FILTERS_FILE_REC_HDR_LEN
    omega
  obtain ⟨hdr', tail, rfl⟩ := exists_of_le hlong
  rw [ofBytes_append] at hread
  obtain rfl := Option.some.inj hread
  exact ⟨tail, rfl⟩

/-- The record that the loader goes over: its height, and where the next one is. -/
def readHeight (buf : Bytes) : Option (UInt32 × ℕ) :=
  (RecordHeader.ofBytes buf).map fun hdr =>
    (hdr.height, CF_FILTERS_FILE_REC_HDR_LEN + hdr.dataLen.toNat)

/-- The record that is visited. -/
def readRecord (buf : Bytes) : Option (CfilterRecord × ℕ) :=
  (RecordHeader.ofBytes buf).bind fun hdr =>
    if hdr.dataLen.toNat > DOGECOIN_MAX_P2P_MSG_SIZE then none
    else if (buf.drop CF_FILTERS_FILE_REC_HDR_LEN).length < hdr.dataLen.toNat then none
    else
      some (⟨hdr.height, hdr.blockHash,
        (buf.drop CF_FILTERS_FILE_REC_HDR_LEN).take hdr.dataLen.toNat⟩,
        CF_FILTERS_FILE_REC_HDR_LEN + hdr.dataLen.toNat)

theorem readHeight_append (hdr : RecordHeader) (rest : Bytes) :
    readHeight (hdr.bytes ++ rest) =
      some (hdr.height, CF_FILTERS_FILE_REC_HDR_LEN + hdr.dataLen.toNat) := by
  unfold readHeight
  rw [hdr.ofBytes_append, Option.map_some]

theorem readRecord_append (hdr : RecordHeader) (rest : Bytes) :
    readRecord (hdr.bytes ++ rest) =
      if hdr.dataLen.toNat > DOGECOIN_MAX_P2P_MSG_SIZE then none
      else if rest.length < hdr.dataLen.toNat then none
      else some (⟨hdr.height, hdr.blockHash, rest.take hdr.dataLen.toNat⟩,
        CF_FILTERS_FILE_REC_HDR_LEN + hdr.dataLen.toNat) := by
  unfold readRecord
  rw [hdr.ofBytes_append, Option.bind_some, List.drop_left' hdr.length_bytes]

/-- How the loader reads the file. A record may end behind it. -/
def heightFormat : Format UInt8 UInt32 where
  short := CF_FILTERS_FILE_REC_HDR_LEN
  read := readHeight
  short_pos := by decide
  read_pos := by
    intro buf x n h
    obtain ⟨hdr, -, heq⟩ := Option.map_eq_some_iff.mp h
    cases heq
    exact Nat.add_pos_left (by decide) _
  read_append := by
    intro buf p tail h
    obtain ⟨hdr, hhdr, rfl⟩ := Option.map_eq_some_iff.mp h
    obtain ⟨rest, rfl⟩ := RecordHeader.eq_append_of_ofBytes hhdr
    rw [List.append_assoc, readHeight_append]

/-- How the records are visited. -/
def recordFormat : Format UInt8 CfilterRecord where
  short := CF_FILTERS_FILE_REC_HDR_LEN
  read := readRecord
  short_pos := by decide
  read_pos := by
    intro buf x n h
    obtain ⟨hdr, hhdr, h⟩ := Option.bind_eq_some_iff.mp h
    split_ifs at h
    cases h
    exact Nat.add_pos_left (by decide) _
  read_append := by
    intro buf p tail h
    obtain ⟨hdr, hhdr, -⟩ := Option.bind_eq_some_iff.mp h
    obtain ⟨rest, rfl⟩ := RecordHeader.eq_append_of_ofBytes hhdr
    rw [readRecord_append] at h
    split_ifs at h with hmax hlen
    cases h
    rw [List.append_assoc, readRecord_append, if_neg hmax,
      if_neg (by rw [List.length_append]; omega), List.take_append_of_le_length (by omega)]

/-- A filter that can be visited. -/
def Visitable (rec : CfilterRecord) : Prop := rec.filterData.length ≤ DOGECOIN_MAX_P2P_MSG_SIZE

instance (rec : CfilterRecord) : Decidable (Visitable rec) := inferInstanceAs (Decidable (_ ≤ _))

theorem CfilterRecord.length_bytes (rec : CfilterRecord) :
    rec.bytes.length = CF_FILTERS_FILE_REC_HDR_LEN + rec.filterData.length := by
  rw [bytes, List.length_append, RecordHeader.length_bytes]

/-- The first bytes of a record from its header on. -/
theorem CfilterRecord.take_bytes (rec : CfilterRecord) {k : ℕ}
    (hk : CF_FILTERS_FILE_REC_HDR_LEN ≤ k) :
    rec.bytes.take k = rec.header.bytes ++
      rec.filterData.take (k - CF_FILTERS_FILE_REC_HDR_LEN) := by
  have hlen := rec.header.length_bytes
  rw [bytes, List.take_append, hlen, List.take_of_length_le (hlen.trans_le hk)]

variable {rec : CfilterRecord}

/-- Below 2^32 bytes the length is written as it is. -/
theorem CfilterRecord.dataLen_header (h : rec.filterData.length < 2 ^ 32) :
    rec.header.dataLen.toNat = rec.filterData.length := UInt32.toNat_ofNat_of_lt' h

theorem Visitable.length_lt (h : Visitable rec) : rec.filterData.length < 2 ^ 32 := by
  unfold Visitable DOGECOIN_MAX_P2P_MSG_SIZE at h
  omega

/-- Where the next record is. -/
theorem readHeight_bytes (h : rec.filterData.length < 2 ^ 32) (tail : Bytes) :
    readHeight (rec.bytes ++ tail) = some (rec.height, rec.bytes.length) := by
  rw [CfilterRecord.length_bytes, CfilterRecord.bytes, List.append_assoc, readHeight_append,
    CfilterRecord.dataLen_header h]
  rfl

theorem faithful_recordFormat : Faithful recordFormat CfilterRecord.bytes Visitable where
  short := fun rec => by
    rw [rec.length_bytes]
    exact Nat.le_add_right _ _
  read := by
    intro rec hrec tail
    have hlen := CfilterRecord.dataLen_header hrec.length_lt
    have hmax : ¬ rec.filterData.length > DOGECOIN_MAX_P2P_MSG_SIZE := Nat.not_lt.mpr hrec
    show readRecord _ = _
    rw [CfilterRecord.length_bytes, CfilterRecord.bytes, List.append_assoc, readRecord_append, hlen,
      if_neg hmax, if_neg (by rw [List.length_append]; omega), List.take_left]
    rfl
  sound := by
    intro buf x n h
    obtain ⟨hdr, hhdr, -⟩ := Option.bind_eq_some_iff.mp h
    obtain ⟨rest, rfl⟩ := RecordHeader.eq_append_of_ofBytes hhdr
    have hread : readRecord (hdr.bytes ++ rest) = some (x, n) := h
    rw [readRecord_append] at hread
    split_ifs at hread with hmax hlen
    cases hread
    have htake : (rest.take hdr.dataLen.toNat).length = hdr.dataLen.toNat := by
      rw [List.length_take]
      omega
    have hheader : CfilterRecord.header ⟨hdr.height, hdr.blockHash, rest.take hdr.dataLen.toNat⟩ =
      hdr := by
      unfold CfilterRecord.header
      dsimp only
      rw [htake, UInt32.ofNat_toNat]
    refine ⟨?_, ?_, rest.drop hdr.dataLen.toNat, ?_⟩
    · unfold Visitable
      rw [htake]
      exact Nat.not_lt.mp hmax
    · rw [CfilterRecord.length_bytes, htake]
    · rw [CfilterRecord.bytes, hheader, List.append_assoc, List.take_append_drop]

/-! ## The loops -/

/-- The loader takes the height of the last record it goes over. -/
theorem scanRecords_eq {n : ℕ} {f : CfFile} (hn : (f.content.drop f.pos).length ≤ n)
    (tipHeight : UInt32) :
    ∃ w, heightFormat.scanAll (f.content.drop f.pos) = some w ∧
      (scanRecords n f tipHeight).1 = w.records.getLastD tipHeight ∧
      (scanRecords n f tipHeight).2.content = f.content := by
  induction n generalizing f tipHeight with
  | zero =>
    have hnil : f.content.drop f.pos = [] := List.eq_nil_of_length_eq_zero (Nat.le_zero.mp hn)
    rw [hnil]
    exact ⟨_, Format.scanAll_nil, rfl, rfl⟩
  | succ n ih =>
    unfold scanRecords CfFile.fread
    by_cases hlt : (f.content.drop f.pos).length < CF_FILTERS_FILE_REC_HDR_LEN
    · rw [if_pos hlt]
      exact ⟨_, Format.scanAll_of_short hlt, rfl, rfl⟩
    · obtain ⟨hdr, rest, hsplit⟩ := RecordHeader.exists_of_le (Nat.not_lt.mp hlt)
      have hnext : f.content.drop (f.pos + CF_FILTERS_FILE_REC_HDR_LEN + hdr.dataLen.toNat) =
          (f.content.drop f.pos).drop (CF_FILTERS_FILE_REC_HDR_LEN + hdr.dataLen.toNat) := by
        rw [List.drop_drop, Nat.add_assoc]
      have hshorter : (f.content.drop (f.pos + CF_FILTERS_FILE_REC_HDR_LEN +
        hdr.dataLen.toNat)).length ≤ n := by
        rw [hnext, List.length_drop]
        unfold CF_FILTERS_FILE_REC_HDR_LEN at hlt ⊢
        omega
      obtain ⟨w, hscan, htip, hcontent⟩ := @ih
        { f with pos := f.pos + CF_FILTERS_FILE_REC_HDR_LEN + hdr.dataLen.toNat }
          hshorter hdr.height
      have hread : heightFormat.read (f.content.drop f.pos) =
          some (hdr.height, CF_FILTERS_FILE_REC_HDR_LEN + hdr.dataLen.toNat) := by
        rw [hsplit]
        exact readHeight_append hdr rest
      rw [if_neg hlt, hsplit, List.take_left' hdr.length_bytes]
      dsimp only
      rw [hdr.ofBytes_bytes]
      refine ⟨w.after hdr.height (CF_FILTERS_FILE_REC_HDR_LEN + hdr.dataLen.toNat),
        ?_, ?_, hcontent⟩
      · rw [← hsplit, Format.scanAll_of_read (Nat.not_lt.mp hlt) hread, ← hnext, hscan,
          Option.map_some]
      · rw [htip]
        exact (List.getLastD_cons ..).symm

/-- A callback that never stops the loop is called with the records in front. -/
theorem iterateLoop_eq {σ : Type} {cb : CfilterRecord → σ → Bool × σ}
    (hcb : ∀ rec ctx, (cb rec ctx).1 = true) (n : ℕ) (f : CfFile) (ctx : σ) :
    (iterateLoop cb n f ctx).2.2 =
      (front recordFormat n (f.content.drop f.pos)).foldl (fun ctx rec => (cb rec ctx).2) ctx := by
  induction n generalizing f ctx with
  | zero => rfl
  | succ n ih =>
    unfold iterateLoop front CfFile.fread
    by_cases hlt : (f.content.drop f.pos).length < CF_FILTERS_FILE_REC_HDR_LEN
    · rw [if_pos hlt, if_pos (show _ < recordFormat.short from hlt)]
      rfl
    · obtain ⟨hdr, rest, hsplit⟩ := RecordHeader.exists_of_le (Nat.not_lt.mp hlt)
      have hrest : f.content.drop (f.pos + CF_FILTERS_FILE_REC_HDR_LEN) = rest := by
        rw [← List.drop_drop, hsplit, List.drop_left' hdr.length_bytes]
      have hread : recordFormat.read (f.content.drop f.pos) =
          if hdr.dataLen.toNat > DOGECOIN_MAX_P2P_MSG_SIZE then none
          else if rest.length < hdr.dataLen.toNat then none
          else some (⟨hdr.height, hdr.blockHash, rest.take hdr.dataLen.toNat⟩,
            CF_FILTERS_FILE_REC_HDR_LEN + hdr.dataLen.toNat) := by
        rw [hsplit]
        exact readRecord_append hdr rest
      rw [if_neg hlt, if_neg (show ¬ _ < recordFormat.short from hlt), hread, hsplit,
        List.take_left' hdr.length_bytes]
      dsimp only
      rw [hdr.ofBytes_bytes]
      dsimp only
      rw [hrest]
      by_cases hzero : hdr.dataLen = 0
      · -- a record without a filter is visited without a second read
        have hlen : hdr.dataLen.toNat = 0 := by
          rw [hzero]
          rfl
        have hrec := hcb ⟨hdr.height, hdr.blockHash, []⟩ ctx
        rw [if_pos hzero, hlen, if_neg (Nat.not_lt_zero _), if_neg (Nat.not_lt_zero _),
          if_pos hrec, ih]
        dsimp only
        rw [hrest, List.take_zero, Nat.add_zero, List.drop_left' hdr.length_bytes, List.foldl_cons]
      · rw [if_neg hzero]
        by_cases hmax : hdr.dataLen.toNat > DOGECOIN_MAX_P2P_MSG_SIZE
        · rw [if_pos hmax, if_pos hmax]
          rfl
        rw [if_neg hmax, if_neg hmax]
        by_cases hbody : rest.length < hdr.dataLen.toNat
        · rw [if_pos hbody, if_pos hbody]
          rfl
        · have hrec := hcb ⟨hdr.height, hdr.blockHash, rest.take hdr.dataLen.toNat⟩ ctx
          rw [if_neg hbody, if_neg hbody]
          dsimp only
          rw [if_pos hrec, ih]
          dsimp only
          rw [← List.drop_drop, hrest, ← List.drop_drop, List.drop_left' hdr.length_bytes,
            List.foldl_cons]

/-- The records that are visited stand in front of the rest of the file. -/
theorem visits_eq_iff {db : Db} {f : CfFile} (hfile : db.file = some f)
    {recs : List CfilterRecord} :
    visits db = recs ↔ (∀ rec ∈ recs, Visitable rec) ∧
      ∃ tail, f.content.drop CF_HEADERS_FILE_HDR_LEN = recs.flatMap CfilterRecord.bytes ++ tail ∧
        recordFormat.Ends tail := by
  have hlen : (f.content.drop CF_HEADERS_FILE_HDR_LEN).length ≤ f.content.length := by
    rw [List.length_drop]
    exact Nat.sub_le _ _
  have hvisits : visits db = front recordFormat f.content.length
    (f.content.drop CF_HEADERS_FILE_HDR_LEN) := by
    unfold visits cfiltersDbIterate
    rw [hfile]
    dsimp only
    rw [iterateLoop_eq fun _ _ => rfl]
    dsimp only
    rw [List.foldl_append_eq_append, List.nil_append, ← List.flatMap_def, List.flatMap_singleton']
  rw [hvisits, faithful_recordFormat.front_eq_iff hlen]

/-! ## A file with records -/

/-- The 40 bytes in front of the records. -/
def fileHeader (genesisFilterHeader : Uint256) : Bytes :=
  cfdataMagic ++ serU32 cfFileVersion ++ serU256 genesisFilterHeader

/-- A valid file. -/
def cfiltersFile (genesisFilterHeader : Uint256) (recs : List CfilterRecord) : Bytes :=
  fileHeader genesisFilterHeader ++ recs.flatMap CfilterRecord.bytes

@[simp] theorem length_fileHeader (genesisFilterHeader : Uint256) :
    (fileHeader genesisFilterHeader).length = CF_HEADERS_FILE_HDR_LEN := by
  rw [fileHeader, List.length_append, List.length_append, length_serU32, length_serU256]
  rfl

/-- The version of a file that has its header. -/
theorem readFileVersion_fileHeader (genesis : Uint256) (body : Bytes) :
    readFileVersion cfdataMagic ⟨fileHeader genesis ++ body, 0⟩ =
      (2, ⟨fileHeader genesis ++ body, 8⟩) := by
  have hstart : (cfdataMagic ++ serU32 cfFileVersion).length = 8 := rfl
  have htake : (fileHeader genesis ++ body).take 8 = cfdataMagic ++ serU32 cfFileVersion := by
    rw [fileHeader, List.append_assoc, List.take_left' hstart]
  have hlen : ¬ (fileHeader genesis ++ body).length < 8 := by
    rw [List.length_append, length_fileHeader, Nat.not_lt]
    exact Nat.le_add_right_of_le (by decide)
  unfold readFileVersion CfFile.fread
  dsimp only
  rw [List.drop_zero, if_neg hlen]
  dsimp only
  rw [htake]
  rfl

/-- **Loading a file** whose header is valid. -/
theorem tipHeight_cfiltersDbLoad {db : Db} (hdb : db.readWrite = true) (genesis : Uint256)
    (body : Bytes) :
    ∃ w, heightFormat.scanAll body = some w ∧
      cfiltersDbLoad db (some (fileHeader genesis ++ body)) =
        (true, { db with
          file := some (CfFile.seekEnd ⟨fileHeader genesis ++ body, 0⟩)
          tipHeight := w.records.getLastD db.tipHeight }) := by
  have hbody : (fileHeader genesis ++ body).drop CF_HEADERS_FILE_HDR_LEN = body :=
    List.drop_left' (length_fileHeader genesis)
  have hlen : 8 ≤ (fileHeader genesis ++ body).length := by
    rw [List.length_append, length_fileHeader]
    unfold CF_HEADERS_FILE_HDR_LEN
    omega
  have hfuel : ((fileHeader genesis ++ body).drop CF_HEADERS_FILE_HDR_LEN).length ≤
      (fileHeader genesis ++ body).length := by
    rw [List.length_drop]
    exact Nat.sub_le _ _
  obtain ⟨w, hscan, htip, hcontent⟩ := @scanRecords_eq (fileHeader genesis ++ body).length
    ⟨fileHeader genesis ++ body, CF_HEADERS_FILE_HDR_LEN⟩ hfuel db.tipHeight
  refine ⟨w, hbody ▸ hscan, ?_⟩
  have hfound : (some (fileHeader genesis ++ body)).filter (fun content =>
    decide (8 ≤ content.length)) =
      some (fileHeader genesis ++ body) := Option.filter_some_pos (decide_eq_true hlen)
  unfold cfiltersDbLoad
  rw [hdb, Bool.not_true, if_neg Bool.false_ne_true, hfound]
  dsimp only
  unfold loadExisting
  rw [readFileVersion_fileHeader]
  dsimp only
  rw [if_neg (by decide), htip]
  unfold CfFile.seekEnd
  rw [hcontent, ← hdb]

/-- New records stand behind what is in the file. -/
theorem content_write {db : Db} (hdb : db.readWrite = true) {f : CfFile}
    (hfile : db.file = some f.seekEnd) (news : List CfilterRecord) :
    (news.foldl cfiltersDbWrite db).file =
      some (CfFile.seekEnd ⟨f.content ++ news.flatMap CfilterRecord.bytes, 0⟩) := by
  induction news generalizing db f with
  | nil =>
    rw [List.flatMap_nil, List.append_nil]
    exact hfile
  | cons rec news ih =>
    have hend : ∀ (content bs : Bytes), CfFile.fwrite bs ⟨content, content.length⟩ =
        ⟨content ++ bs, (content ++ bs).length⟩ := by
      intro content bs
      unfold CfFile.fwrite
      dsimp only
      rw [List.take_length, List.drop_eq_nil_of_le (Nat.le_add_right _ _), List.append_nil,
        List.length_append]
    have hwrite : cfiltersDbWrite db rec =
        { db with
          file := some (CfFile.seekEnd ⟨f.content ++ rec.bytes, 0⟩), tipHeight := rec.height } := by
      unfold cfiltersDbWrite
      rw [hdb, Bool.not_true, if_neg Bool.false_ne_true, hfile]
      dsimp only [CfFile.seekEnd]
      rw [hend, hend, List.append_assoc]
      rfl
    rw [List.foldl_cons, hwrite]
    have hrest := @ih { db with
      file := some (CfFile.seekEnd ⟨f.content ++ rec.bytes, 0⟩), tipHeight := rec.height } hdb
      ⟨f.content ++ rec.bytes, 0⟩ rfl
    rw [hrest, List.flatMap_cons, List.append_assoc]

/-! ## Torn files -/

/-- A file that was torn: its complete records, the one behind them, and what is left of it. -/
structure Torn where
  complete : List CfilterRecord
  next : Option CfilterRecord
  part : Bytes

/-- What the first bytes behind the header hold of some records. -/
def tear : List CfilterRecord → ℕ → Torn
  | [], _ => ⟨[], none, []⟩
  | rec :: recs, n =>
    if rec.bytes.length ≤ n then
      { tear recs (n - rec.bytes.length) with
        complete := rec :: (tear recs (n - rec.bytes.length)).complete }
    else ⟨[], some rec, rec.bytes.take n⟩

/-- The height of the last record, or 0. -/
def lastHeight (recs : List CfilterRecord) : UInt32 := (recs.map (·.height)).getLastD 0

theorem take_flatMap_bytes (recs : List CfilterRecord) (n : ℕ) :
    (recs.flatMap CfilterRecord.bytes).take n =
      (tear recs n).complete.flatMap CfilterRecord.bytes ++ (tear recs n).part := by
  induction recs generalizing n with
  | nil => exact List.take_nil
  | cons rec recs ih =>
    rw [List.flatMap_cons, tear]
    by_cases hn : rec.bytes.length ≤ n
    · rw [if_pos hn, List.take_append, List.take_of_length_le hn, ih]
      dsimp only
      rw [List.flatMap_cons, List.append_assoc]
    · rw [if_neg hn, List.take_append_of_le_length (by omega)]
      rfl

/-- What is left of the torn record. -/
theorem part_tear {recs : List CfilterRecord} {n : ℕ} :
    (∀ rec ∈ (tear recs n).complete, rec ∈ recs) ∧
      ((tear recs n).part = [] ∨ ∃ rec k, (tear recs n).next = some rec ∧ rec ∈ recs ∧
        (tear recs n).part = rec.bytes.take k ∧ k < rec.bytes.length) := by
  induction recs generalizing n with
  | nil => exact ⟨fun rec hrec => absurd hrec List.not_mem_nil, Or.inl rfl⟩
  | cons rec recs ih =>
    rw [tear]
    by_cases hn : rec.bytes.length ≤ n
    · obtain ⟨hcomplete, hpart⟩ := @ih (n - rec.bytes.length)
      rw [if_pos hn]
      refine ⟨?_, ?_⟩
      · intro r hr
        rcases List.mem_cons.mp hr with rfl | hr
        · exact List.mem_cons_self
        · exact List.mem_cons_of_mem _ (hcomplete r hr)
      · rcases hpart with hnil | ⟨r, k, hnext, hmem, hpart, hk⟩
        · exact Or.inl hnil
        · exact Or.inr ⟨r, k, hnext, List.mem_cons_of_mem _ hmem, hpart, hk⟩
    · rw [if_neg hn]
      exact ⟨fun r hr => absurd hr List.not_mem_nil,
        Or.inr ⟨rec, n, rfl, List.mem_cons_self, rfl, Nat.not_le.mp hn⟩⟩

/-- The heights that the loader finds in a torn file: those of the complete records, and that of the
torn one if its header is there. -/
theorem scanAll_torn {recs : List CfilterRecord}
    (hrecs : ∀ rec ∈ recs, rec.filterData.length < 2 ^ 32) (n : ℕ) {w : LogScan.Scan UInt8 UInt32}
    (h : heightFormat.scanAll ((recs.flatMap CfilterRecord.bytes).take n) = some w) :
    w.records = (tear recs n).complete.map (·.height) ∧
        (tear recs n).part.length < CF_FILTERS_FILE_REC_HDR_LEN ∨
      ∃ rec, (tear recs n).next = some rec ∧ CF_FILTERS_FILE_REC_HDR_LEN ≤
        (tear recs n).part.length ∧
        w.records = (tear recs n).complete.map (·.height) ++ [rec.height] := by
  obtain ⟨hcomplete, hpart⟩ := @part_tear recs n
  rw [take_flatMap_bytes, Format.scanAll_flatMap_append
    (fun rec => by rw [rec.length_bytes]; exact Nat.le_add_right _ _)
    (fun rec hrec => readHeight_bytes (hrecs rec (hcomplete rec hrec)))] at h
  obtain ⟨w', hscan, rfl⟩ := Option.map_eq_some_iff.mp h
  by_cases hlt : (tear recs n).part.length < CF_FILTERS_FILE_REC_HDR_LEN
  · rw [Format.scanAll_of_short hlt] at hscan
    obtain rfl := Option.some.inj hscan
    exact Or.inl ⟨List.append_nil _, hlt⟩
  · rcases hpart with hnil | ⟨rec, k, hnext, hmem, hpart, hk⟩
    · rw [hnil] at hlt
      exact absurd (by decide) hlt
    -- the loader seeks over the filter of the torn record, behind the end of the file
    refine Or.inr ⟨rec, hnext, Nat.not_lt.mp hlt, ?_⟩
    have hlen := rec.length_bytes
    have hpartlen : (tear recs n).part.length = k := by
      rw [hpart, List.length_take]
      omega
    rw [hpartlen] at hlt
    have hread : heightFormat.read (tear recs n).part = some (rec.height, rec.bytes.length) := by
      rw [hpart, rec.take_bytes (Nat.not_lt.mp hlt), hlen,
        ← CfilterRecord.dataLen_header (hrecs rec hmem)]
      exact readHeight_append _ _
    have hbehind : (tear recs n).part.drop rec.bytes.length = [] :=
      List.drop_eq_nil_of_le (by omega)
    rw [Format.scanAll_of_read (by rw [hpartlen]; exact Nat.not_lt.mp hlt) hread, hbehind,
      Format.scanAll_nil] at hscan
    obtain rfl := Option.some.inj hscan
    rfl

/-- What is left of a torn record holds no record. -/
theorem ends_part {recs : List CfilterRecord} (hrecs : ∀ rec ∈ recs, rec.filterData.length < 2 ^ 32)
    (n : ℕ) :
    recordFormat.Ends (tear recs n).part := by
  rcases (@part_tear recs n).2 with hnil | ⟨rec, k, -, hmem, hpart, hk⟩
  · rw [hnil]
    exact Or.inl (by decide)
  by_cases hlt : (tear recs n).part.length < CF_FILTERS_FILE_REC_HDR_LEN
  · exact Or.inl hlt
  have hlen := rec.length_bytes
  rw [hpart, List.length_take] at hlt
  right
  show readRecord _ = none
  rw [hpart, rec.take_bytes (by omega), readRecord_append,
    CfilterRecord.dataLen_header (hrecs rec hmem)]
  -- the filter is too long, or it is incomplete
  split_ifs with hmax hbody
  · rfl
  · rfl
  · rw [List.length_take] at hbody
    omega

/-- **The torn file is recovered**: the height that is reported is that of the last complete record
(0 without one), and after any writes the complete records and the new ones are visited. -/
structure RecoversExactly (torn : Bytes) (complete news : List CfilterRecord) : Prop where
  tip : (cfiltersDbLoad (cfiltersDbNew false) (some torn)).2.tipHeight = lastHeight complete
  visits : visits (news.foldl cfiltersDbWrite
    (cfiltersDbLoad (cfiltersDbNew false) (some torn)).2) =
    complete ++ news

/-- Some bytes start with a record that can be visited. -/
def StartsWithRecord (buf : Bytes) : Prop :=
  ∃ (rec : CfilterRecord) (rest : Bytes), Visitable rec ∧ buf = rec.bytes ++ rest

/-- The file was torn in the first 40 bytes of a record or between two, or in a record with the
height of the one in front of it; no filter is too long; and nothing is left of the torn record, or
nothing is written, or what is written repeats the bytes of the torn record over and over and no
record is made up by the last of them. -/
structure RecoverySafe (t : Torn) (news : List CfilterRecord) : Prop where
  tip : t.part.length < CF_FILTERS_FILE_REC_HDR_LEN ∨ ∀ rec ∈ t.next,
    rec.height = lastHeight t.complete
  short : ∀ rec ∈ t.complete ++ news, Visitable rec
  behind : t.part = [] ∨ news = [] ∨
    Repeats t.part (news.flatMap CfilterRecord.bytes) ∧
      ¬ StartsWithRecord
        ((t.part ++ news.flatMap CfilterRecord.bytes).drop
          (news.flatMap CfilterRecord.bytes).length)

/-- When records behind a part of a record are visited. -/
theorem exists_tail_iff {part : Bytes} (hpart : recordFormat.Ends part)
    (news : List CfilterRecord) :
    (∃ tail, part ++ news.flatMap CfilterRecord.bytes = news.flatMap CfilterRecord.bytes ++ tail ∧
        recordFormat.Ends tail) ↔
      part = [] ∨ news = [] ∨
        Repeats part (news.flatMap CfilterRecord.bytes) ∧
          ¬ StartsWithRecord
            ((part ++ news.flatMap CfilterRecord.bytes).drop
              (news.flatMap CfilterRecord.bytes).length) := by
  generalize hwritten : news.flatMap CfilterRecord.bytes = written
  by_cases hnil : part = []
  · subst hnil
    exact iff_of_true ⟨[], (List.append_nil written).symm, hpart⟩ (Or.inl rfl)
  by_cases hnews : news = []
  · subst hnews
    obtain rfl : [] = written := hwritten
    exact iff_of_true ⟨part, List.append_nil part, hpart⟩ (Or.inr (Or.inl rfl))
  simp only [hnil, hnews, false_or]
  unfold StartsWithRecord
  rw [← FixedRecords.take_append_eq_iff hnil, ← faithful_recordFormat.ends_iff]
  constructor
  · rintro ⟨tail, heq, hends⟩
    rw [heq, List.take_left, List.drop_left]
    exact ⟨rfl, hends⟩
  · rintro ⟨htake, hends⟩
    refine ⟨(part ++ written).drop written.length, ?_, hends⟩
    have hsplit := List.take_append_drop written.length (part ++ written)
    rw [htake] at hsplit
    exact hsplit.symm

/-- The bytes of a valid file that are left when it is torn behind its header. -/
theorem take_cfiltersFile (genesis : Uint256) (recs : List CfilterRecord) {n : ℕ}
    (hn : CF_HEADERS_FILE_HDR_LEN ≤ n) :
    (cfiltersFile genesis recs).take n =
      fileHeader genesis ++ (recs.flatMap CfilterRecord.bytes).take
        (n - CF_HEADERS_FILE_HDR_LEN) := by
  rw [cfiltersFile, List.take_append, length_fileHeader,
    List.take_of_length_le (by rwa [length_fileHeader])]

section

variable (genesis : Uint256) {recs : List CfilterRecord}
  (hrecs : ∀ rec ∈ recs, rec.filterData.length < 2 ^ 32)
  (news : List CfilterRecord) (m : ℕ)
include hrecs

/-- The height that is reported is that of a torn record, if its header is there. -/
theorem tipHeight_torn_iff :
    (cfiltersDbLoad (cfiltersDbNew false)
        (some (fileHeader genesis ++ (recs.flatMap CfilterRecord.bytes).take m))).2.tipHeight =
      lastHeight (tear recs m).complete ↔
      ((tear recs m).part.length < CF_FILTERS_FILE_REC_HDR_LEN ∨
        ∀ rec ∈ (tear recs m).next, rec.height = lastHeight (tear recs m).complete) := by
  obtain ⟨w, hscan, hload⟩ := @tipHeight_cfiltersDbLoad (cfiltersDbNew false) rfl genesis
    ((recs.flatMap CfilterRecord.bytes).take m)
  rw [hload]
  show w.records.getLastD 0 = _ ↔ _
  rcases scanAll_torn hrecs m hscan with ⟨hheights, hlt⟩ | ⟨rec, hnext, hle, hheights⟩
  · rw [hheights]
    exact iff_of_true rfl (Or.inl hlt)
  · rw [hheights, hnext, List.getLastD_concat]
    simp only [Option.mem_def, Option.some.injEq, forall_eq', Nat.not_lt.mpr hle, false_or]

/-- The records that are visited are those in front of the torn one and the new ones, if what is
left of it does not stand between them. -/
theorem visits_torn_iff :
    visits (news.foldl cfiltersDbWrite (cfiltersDbLoad (cfiltersDbNew false)
        (some (fileHeader genesis ++ (recs.flatMap CfilterRecord.bytes).take m))).2) =
      (tear recs m).complete ++ news ↔
      (∀ rec ∈ (tear recs m).complete ++ news, Visitable rec) ∧
        ((tear recs m).part = [] ∨ news = [] ∨
          Repeats (tear recs m).part (news.flatMap CfilterRecord.bytes) ∧
            ¬ StartsWithRecord (((tear recs m).part ++ news.flatMap CfilterRecord.bytes).drop
              (news.flatMap CfilterRecord.bytes).length)) := by
  obtain ⟨w, -, hload⟩ := @tipHeight_cfiltersDbLoad (cfiltersDbNew false) rfl genesis
    ((recs.flatMap CfilterRecord.bytes).take m)
  have hfile := @content_write (cfiltersDbLoad (cfiltersDbNew false)
    (some (fileHeader genesis ++ (recs.flatMap CfilterRecord.bytes).take m))).2
    (by rw [hload]; rfl) _ (by rw [hload]) news
  rw [← exists_tail_iff (ends_part hrecs m), visits_eq_iff hfile, take_flatMap_bytes recs m]
  dsimp only [CfFile.seekEnd]
  rw [List.append_assoc, List.drop_left' (length_fileHeader genesis), List.append_assoc,
    List.flatMap_append]
  simp only [List.append_assoc, List.append_cancel_left_eq]

end

/-- **Recovering a torn file of filters.** The right height is reported and the right records are
visited if and only if the tear and the new records are safe. -/
theorem cfilters_recover_iff (genesis : Uint256) {recs : List CfilterRecord}
    (hrecs : ∀ rec ∈ recs, rec.filterData.length < 2 ^ 32) (news : List CfilterRecord) {n : ℕ}
    (hn : CF_HEADERS_FILE_HDR_LEN ≤ n) :
    RecoversExactly ((cfiltersFile genesis recs).take n)
      (tear recs (n - CF_HEADERS_FILE_HDR_LEN)).complete news ↔
      RecoverySafe (tear recs (n - CF_HEADERS_FILE_HDR_LEN)) news := by
  rw [take_cfiltersFile genesis recs hn]
  have htip := tipHeight_torn_iff genesis hrecs (n - CF_HEADERS_FILE_HDR_LEN)
  have hvisits := visits_torn_iff genesis hrecs news (n - CF_HEADERS_FILE_HDR_LEN)
  constructor
  · rintro ⟨h, hv⟩
    obtain ⟨hshort, hbehind⟩ := hvisits.mp hv
    exact ⟨htip.mp h, hshort, hbehind⟩
  · rintro ⟨htorn, hshort, hbehind⟩
    exact ⟨htip.mpr htorn, hvisits.mpr ⟨hshort, hbehind⟩⟩

/-- A filter of one byte, for runs on fixed inputs. -/
def sampleFilter : CfilterRecord := ⟨1, Uint256.zero, [7]⟩

/-- The theorem on a file that was torn in the first header of a record. -/
theorem cfilters_recover_iff_header :
    RecoversExactly ((cfiltersFile Uint256.zero [sampleFilter]).take 50)
        (tear [sampleFilter] (50 - CF_HEADERS_FILE_HDR_LEN)).complete [] ↔
      RecoverySafe (tear [sampleFilter] (50 - CF_HEADERS_FILE_HDR_LEN)) [] :=
  cfilters_recover_iff Uint256.zero (by decide) [] (by decide)

/-- A file that lacks the only byte of its second filter: the height of this filter is reported. -/
theorem not_cfilters_recover : ¬ ∀ (genesis : Uint256) (recs news : List CfilterRecord) (n : ℕ),
    (∀ rec ∈ recs, rec.filterData.length < 2 ^ 32) → CF_HEADERS_FILE_HDR_LEN ≤ n →
      RecoversExactly ((cfiltersFile genesis recs).take n)
        (tear recs (n - CF_HEADERS_FILE_HDR_LEN)).complete news := by
  intro hall
  have htip := (hall Uint256.zero [sampleFilter, ⟨2, Uint256.zero, [7]⟩] [] 121 (by decide)
    (by decide)).tip
  revert htip
  decide +kernel

end CfiltersDb

end Libdogecoin
