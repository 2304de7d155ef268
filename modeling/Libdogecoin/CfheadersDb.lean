/-
# The file of compact filter headers

`cfheadersdb_file.c` : a header of 40 bytes and records of 36 bytes, which are read until one is
incomplete. New records are written at the end of the file, behind the incomplete one.

* `cfheadersDbLoad_eq` : what is loaded is what the records of the file say;
* `recoversExactly_iff` : when a torn file that was loaded and written to is loaded again as it
  should be.

The file is at a given path; the default path and the move of older files are left out. All writes
succeed.
-/
import Libdogecoin.FixedRecords
import Libdogecoin.Serialize

namespace Libdogecoin

namespace CfheadersDb

open FixedRecords

/-! ## Files -/

/-- An open file. -/
structure CfFile where
  content : Bytes
  pos : ℕ

/-- `fread` of one item of a length. An incomplete one is skipped. -/
def CfFile.fread (len : ℕ) (f : CfFile) : Option Bytes × CfFile :=
  if (f.content.drop f.pos).length < len then (none, { f with pos := f.content.length })
  else (some ((f.content.drop f.pos).take len), { f with pos := f.pos + len })

/-- `fwrite`. -/
def CfFile.fwrite (bs : Bytes) (f : CfFile) : CfFile where
  content := f.content.take f.pos ++ bs ++ f.content.drop (f.pos + bs.length)
  pos := f.pos + bs.length

/-- `fseek` to the end. -/
def CfFile.seekEnd (f : CfFile) : CfFile := { f with pos := f.content.length }

/-! ## Records -/

/-- A filter header with its height. -/
structure CfRecord where
  height : UInt32
  filterHeader : Uint256
  deriving DecidableEq

/-- The 36 bytes of a record. -/
def CfRecord.bytes (rec : CfRecord) : Bytes := serU32 rec.height ++ serU256 rec.filterHeader

/-- The record in 36 bytes. -/
def CfRecord.ofBytes (buf : Bytes) : Option CfRecord := do
  let (height, rest) ← deserU32 buf
  let (filterHeader, _) ← deserU256 rest
  some { height := height, filterHeader := filterHeader }

/-- `CF_HEADERS_FILE_HDR_LEN`. -/
def CF_HEADERS_FILE_HDR_LEN : ℕ := 40

/-- `CF_HEADERS_FILE_REC_LEN`. -/
def CF_HEADERS_FILE_REC_LEN : ℕ := 36

/-- `cfhdr_magic`. -/
def cfhdrMagic : Bytes := [0xCF, 0x68, 0x44, 0x52]

/-- `cf_file_version`. -/
def cfFileVersion : UInt32 := 2

/-- What `write_file_header` writes, with the filter header of the genesis block. -/
def fileHeader (genesisFilterHeader : Uint256) : Bytes :=
  cfhdrMagic ++ serU32 cfFileVersion ++ serU256 genesisFilterHeader

/-- `read_file_version`. -/
def readFileVersion (f : CfFile) : UInt32 × CfFile :=
  match { f with pos := 0 }.fread 8 with
  | (none, f) => (0, f)
  | (some buf, f) =>
    if buf.take 4 ≠ cfhdrMagic then (0, f)
    else (UInt32.ofNat (LittleEndian.ofBytes (buf.drop 4)), f)

/-- The loop over the records. -/
def readRecords : ℕ → CfFile → List CfRecord × CfFile
  | 0, f => ([], f)
  | n + 1, f =>
    match f.fread CF_HEADERS_FILE_REC_LEN with
    | (none, f) => ([], f)
    | (some buf, f) =>
      match CfRecord.ofBytes buf with
      | none => ([], f)
      | some rec => (rec :: (readRecords n f).1, (readRecords n f).2)

/-! ## The database -/

/-- `dogecoin_compact_filter_state`, as far as the file is loaded into it. -/
structure CompactFilterState where
  genesisFilterHeader : Uint256
  filterHeaders : List Uint256
  cfheadersTipHeight : UInt32
  cfheadersBaseHeight : UInt32
  cfheadersTipHash : Uint256

/-- `dogecoin_cfheaders_db`. -/
structure Db where
  file : Option CfFile
  readWrite : Bool
  tipHeight : UInt32
  tipHeader : Uint256

/-- `dogecoin_cfheaders_db_new`. -/
def cfheadersDbNew (inmemOnly : Bool) : Db where
  file := none
  readWrite := !inmemOnly
  tipHeight := 0
  tipHeader := Uint256.zero

/-- The tip is the last of the records. -/
def Db.enter (db : Db) (recs : List CfRecord) : Db :=
  recs.foldl (fun db rec => { db with tipHeight := rec.height, tipHeader := rec.filterHeader }) db

@[simp] theorem Db.readWrite_enter (db : Db) (recs : List CfRecord) :
    (db.enter recs).readWrite = db.readWrite := by
  unfold enter
  induction recs generalizing db with
  | nil => rfl
  | cons rec recs ih => exact ih _

/-- The filter headers of the records, and the heights of the first and the last one. -/
def CompactFilterState.enter (state : CompactFilterState) (db : Db) (recs : List CfRecord) :
    CompactFilterState :=
  match recs with
  | [] => state
  | first :: _ =>
    { state with
      filterHeaders := state.filterHeaders ++ recs.map (·.filterHeader)
      cfheadersTipHeight := (db.enter recs).tipHeight
      cfheadersBaseHeight := first.height
      cfheadersTipHash := (db.enter recs).tipHeader }

/-- A file of version 2 is loaded, up to a record that is incomplete. -/
def loadExisting (db : Db) (f : CfFile) (state : CompactFilterState) :
    Option (Db × CompactFilterState) :=
  if (readFileVersion f).1 < 2 then none
  else
    match (readFileVersion f).2.fread 32 with
    | (none, _) => none
    | (some genesis, f) =>
      match deserU256 genesis with
      | none => none
      | some (genesis, _) =>
        let (recs, f) := readRecords f.content.length f
        some ({ db.enter recs with file := some f.seekEnd },
          { state with genesisFilterHeader := genesis }.enter db recs)

/-- `dogecoin_cfheaders_db_load` of the file that is found at the path. -/
def cfheadersDbLoad (db : Db) (found : Option Bytes) (state : CompactFilterState) :
    Db × CompactFilterState :=
  if !db.readWrite then (db, state)
  else
    let opened := found.bind fun content =>
      if content.length < CF_HEADERS_FILE_HDR_LEN then none else loadExisting db ⟨content, 0⟩ state
    opened.getD ({ db with file := some (CfFile.fwrite (fileHeader Uint256.zero) ⟨[], 0⟩) }, state)

/-- `dogecoin_cfheaders_db_write`. -/
def cfheadersDbWrite (db : Db) (rec : CfRecord) : Db :=
  if !db.readWrite then db
  else
    match db.file with
    | none => db
    | some f =>
      { db with
        file := some (f.fwrite rec.bytes), tipHeight := rec.height, tipHeader := rec.filterHeader }

/-! ## A file with records -/

/-- A valid file. -/
def cfheadersFile (genesisFilterHeader : Uint256) (recs : List CfRecord) : Bytes :=
  fileHeader genesisFilterHeader ++ (recs.map CfRecord.bytes).flatten

@[simp] theorem CfRecord.length_bytes (rec : CfRecord) :
    rec.bytes.length = CF_HEADERS_FILE_REC_LEN := by
  rw [bytes, List.length_append, length_serU32, length_serU256]
  rfl

@[simp] theorem CfRecord.ofBytes_bytes (rec : CfRecord) : ofBytes rec.bytes = some rec := by
  have hheader : deserU256 (serU256 rec.filterHeader) = some (rec.filterHeader, []) := by
    have hread := deserU256_serU256 rec.filterHeader []
    rwa [List.append_nil] at hread
  unfold ofBytes bytes
  rw [deserU32_serU32]
  simp only [Option.bind_eq_bind, Option.bind_some]
  rw [hheader]
  rfl

/-- 36 bytes are those of their record. -/
theorem CfRecord.exists_of_length {buf : Bytes} (h : buf.length = CF_HEADERS_FILE_REC_LEN) :
    ∃ rec : CfRecord, rec.bytes = buf := by
  have hfour : ¬ buf.length < 4 := by
    rw [h]
    decide
  obtain ⟨⟨height, rest⟩, hread⟩ : ∃ r, deserU32 buf = some r := by
    rw [deserU32, deserBytes, if_neg hfour]
    exact ⟨_, rfl⟩
  have hbuf := deserU32_eq_append hread
  have hrest : rest.length = 32 := by
    have hlen := congrArg List.length hbuf
    rw [List.length_append, length_serU32, h] at hlen
    unfold CF_HEADERS_FILE_REC_LEN at hlen
    omega
  exact ⟨⟨height, ⟨rest, hrest⟩⟩, hbuf.symm⟩

theorem CfRecord.bytes_injective : Function.Injective CfRecord.bytes := by
  intro rec rec' h
  have hread := congrArg CfRecord.ofBytes h
  rw [ofBytes_bytes, ofBytes_bytes] at hread
  exact Option.some.inj hread

@[simp] theorem length_fileHeader (genesisFilterHeader : Uint256) :
    (fileHeader genesisFilterHeader).length = CF_HEADERS_FILE_HDR_LEN := by
  rw [fileHeader, List.length_append, List.length_append, length_serU32, length_serU256]
  rfl

theorem length_of_mem_bytes {recs : List CfRecord} :
    ∀ buf ∈ recs.map CfRecord.bytes, buf.length = CF_HEADERS_FILE_REC_LEN := by
  intro buf hbuf
  obtain ⟨rec, -, rfl⟩ := List.mem_map.mp hbuf
  exact rec.length_bytes

/-- The loop reads the whole blocks of the rest of the file. -/
theorem readRecords_eq (n : ℕ) (f : CfFile) :
    (readRecords n f).1.map CfRecord.bytes = blocks CF_HEADERS_FILE_REC_LEN n
    (f.content.drop f.pos) ∧
      (readRecords n f).2.content = f.content := by
  induction n generalizing f with
  | zero => exact ⟨rfl, rfl⟩
  | succ n ih =>
    unfold readRecords blocks CfFile.fread
    by_cases hlt : (f.content.drop f.pos).length < CF_HEADERS_FILE_REC_LEN
    · rw [if_pos hlt, if_pos hlt]
      exact ⟨rfl, rfl⟩
    · have hlen : ((f.content.drop f.pos).take CF_HEADERS_FILE_REC_LEN).length =
        CF_HEADERS_FILE_REC_LEN := by
        rw [List.length_take]
        omega
      obtain ⟨rec, hrec⟩ := CfRecord.exists_of_length hlen
      obtain ⟨hrecs, hcontent⟩ := ih { f with pos := f.pos + CF_HEADERS_FILE_REC_LEN }
      rw [if_neg hlt, if_neg hlt, ← hrec]
      dsimp only
      rw [CfRecord.ofBytes_bytes]
      dsimp only
      rw [List.map_cons, hrecs, List.drop_drop]
      exact ⟨rfl, hcontent⟩

/-- The records that are read from a file. -/
def recordsIn (content : Bytes) : List CfRecord :=
  (readRecords content.length ⟨content, CF_HEADERS_FILE_HDR_LEN⟩).1

/-- **Loading a file** whose header is valid. -/
theorem cfheadersDbLoad_eq {db : Db} (hdb : db.readWrite = true) (genesis : Uint256) (body : Bytes)
    (state : CompactFilterState) :
    cfheadersDbLoad db (some (fileHeader genesis ++ body)) state =
      ({ db.enter (recordsIn (fileHeader genesis ++ body)) with
          file := some (CfFile.seekEnd ⟨fileHeader genesis ++ body, 0⟩) },
        { state with genesisFilterHeader := genesis }.enter db
        (recordsIn (fileHeader genesis ++ body))) := by
  have hlen : ¬ (fileHeader genesis ++ body).length < CF_HEADERS_FILE_HDR_LEN := by
    rw [List.length_append, length_fileHeader]
    omega
  have height : ¬ (fileHeader genesis ++ body).length < 8 := by
    unfold CF_HEADERS_FILE_HDR_LEN at hlen
    omega
  have hstart : (cfhdrMagic ++ serU32 cfFileVersion).length = 8 := rfl
  have hversion : readFileVersion ⟨fileHeader genesis ++ body, 0⟩ =
    (2, ⟨fileHeader genesis ++ body, 8⟩) := by
    have htake : (fileHeader genesis ++ body).take 8 = cfhdrMagic ++ serU32 cfFileVersion := by
      rw [fileHeader, List.append_assoc, List.take_left' hstart]
    unfold readFileVersion CfFile.fread
    dsimp only
    rw [List.drop_zero, if_neg height]
    dsimp only
    rw [htake]
    rfl
  have hgenesis : (fileHeader genesis ++ body).drop 8 = genesis.1 ++ body := by
    rw [fileHeader, List.append_assoc, List.drop_left' hstart]
    rfl
  have hthirty : ¬ (genesis.1 ++ body).length < 32 := by
    rw [List.length_append, genesis.2]
    omega
  have hread : deserU256 genesis.1 = some (genesis, []) := by
    have hread := deserU256_serU256 genesis []
    rwa [List.append_nil] at hread
  have hfile := (readRecords_eq (fileHeader genesis ++ body).length
    ⟨fileHeader genesis ++ body, 40⟩).2
  unfold cfheadersDbLoad
  rw [hdb, Bool.not_true, if_neg Bool.false_ne_true, Option.bind_some, if_neg hlen,
    loadExisting, hversion]
  dsimp only
  rw [if_neg (by decide), CfFile.fread]
  dsimp only
  rw [hgenesis, if_neg hthirty]
  dsimp only
  rw [List.take_left' genesis.2, hread]
  dsimp only
  rw [Option.getD_some]
  unfold CfFile.seekEnd recordsIn CF_HEADERS_FILE_HDR_LEN
  rw [hfile]

/-- New records stand behind what is in the file. -/
theorem content_write {db : Db} (hdb : db.readWrite = true) {f : CfFile}
    (hfile : db.file = some f.seekEnd) (news : List CfRecord) :
    (news.foldl cfheadersDbWrite db).file =
      some (CfFile.seekEnd ⟨f.content ++ (news.map CfRecord.bytes).flatten, 0⟩) := by
  induction news generalizing db f with
  | nil =>
    rw [List.map_nil, List.flatten_nil, List.append_nil]
    exact hfile
  | cons rec news ih =>
    have hwrite : cfheadersDbWrite db rec =
        { db with
          file := some (CfFile.seekEnd ⟨f.content ++ rec.bytes, 0⟩), tipHeight := rec.height
          tipHeader := rec.filterHeader } := by
      unfold cfheadersDbWrite
      rw [hdb, Bool.not_true, if_neg Bool.false_ne_true, hfile]
      dsimp only [CfFile.seekEnd, CfFile.fwrite]
      rw [List.take_length, List.drop_eq_nil_of_le (Nat.le_add_right _ _), List.append_nil,
        List.length_append]
    rw [List.foldl_cons, hwrite]
    have hrest := @ih { db with
      file := some (CfFile.seekEnd ⟨f.content ++ rec.bytes, 0⟩), tipHeight := rec.height
      tipHeader := rec.filterHeader } hdb ⟨f.content ++ rec.bytes, 0⟩ rfl
    rw [hrest, List.map_cons, List.flatten_cons, List.append_assoc]

/-! ## Recovery -/

/-- What the file holds after it was loaded and written to. -/
def writtenOn (torn : Bytes) (state : CompactFilterState) (news : List CfRecord) : Option Bytes :=
  (news.foldl cfheadersDbWrite (cfheadersDbLoad (cfheadersDbNew false)
    (some torn) state).1).file.map (·.content)

/-- **The torn file is recovered**: after it was loaded and written to, the complete records and the
new ones are read from it, and are what is loaded. -/
structure RecoversExactly (genesis : Uint256) (torn : Bytes) (complete news : List CfRecord)
    (state : CompactFilterState) : Prop where
  reads : ∃ content, writtenOn torn state news = some content ∧ recordsIn content = complete ++ news
  loads : (cfheadersDbLoad (cfheadersDbNew false) (writtenOn torn state news) state).2 =
    { state with genesisFilterHeader := genesis }.enter (cfheadersDbNew false) (complete ++ news)

/-- The bytes behind the last complete record. -/
def tornPart (torn : Bytes) : Bytes :=
  torn.drop (torn.length - (torn.length - CF_HEADERS_FILE_HDR_LEN) % CF_HEADERS_FILE_REC_LEN)

/-- The file was torn between two records, or nothing is written to it, or what is written repeats
the bytes of the incomplete record over and over. -/
def RecoverySafe (torn : Bytes) (news : List CfRecord) : Prop :=
  (torn.length - CF_HEADERS_FILE_HDR_LEN) % CF_HEADERS_FILE_REC_LEN = 0 ∨ news = [] ∨
    Repeats (tornPart torn) (news.map CfRecord.bytes).flatten

instance (torn : Bytes) (news : List CfRecord) : Decidable (RecoverySafe torn news) := by
  unfold RecoverySafe
  infer_instance

/-- The number of complete records in a file. -/
def completeCount (content : Bytes) :
    ℕ := (content.length - CF_HEADERS_FILE_HDR_LEN) / CF_HEADERS_FILE_REC_LEN

/-- A torn file: its complete records, and a part of the next one. -/
theorem exists_torn (genesis : Uint256) (recs : List CfRecord) {n : ℕ}
    (hn : CF_HEADERS_FILE_HDR_LEN ≤ n) :
    ∃ part, (cfheadersFile genesis recs).take n = fileHeader genesis ++
        (((recs.take (completeCount ((cfheadersFile genesis recs).take n))).map
          CfRecord.bytes).flatten ++ part) ∧
      part.length = (((cfheadersFile genesis recs).take n).length - CF_HEADERS_FILE_HDR_LEN) %
        CF_HEADERS_FILE_REC_LEN := by
  have htake : (cfheadersFile genesis recs).take n = fileHeader genesis ++
      (recs.map CfRecord.bytes).flatten.take (n - CF_HEADERS_FILE_HDR_LEN) := by
    rw [cfheadersFile, List.take_append, length_fileHeader,
      List.take_of_length_le (by rwa [length_fileHeader])]
  have hlen : ((cfheadersFile genesis recs).take n).length - CF_HEADERS_FILE_HDR_LEN =
      ((recs.map CfRecord.bytes).flatten.take (n - CF_HEADERS_FILE_HDR_LEN)).length := by
    rw [htake, List.length_append, length_fileHeader, Nat.add_sub_cancel_left]
  have hw : 0 < CF_HEADERS_FILE_REC_LEN := by decide
  obtain ⟨part, hpart, hlength⟩ :=
    exists_take_flatten hw (@length_of_mem_bytes recs) (n - CF_HEADERS_FILE_HDR_LEN)
  refine ⟨part, ?_, ?_⟩
  · rw [completeCount, hlen, htake, List.map_take, ← hpart]
  · rw [hlen, hlength]

/-- The records in a file that was torn and written to. -/
theorem recordsIn_torn (genesis : Uint256) (complete news : List CfRecord) {part : Bytes}
    (hpart : part.length < CF_HEADERS_FILE_REC_LEN) :
    recordsIn (fileHeader genesis ++ ((complete.map CfRecord.bytes).flatten ++ part) ++
        (news.map CfRecord.bytes).flatten) = complete ++ news ↔
      part = [] ∨ news = [] ∨ Repeats part (news.map CfRecord.bytes).flatten := by
  have hinj : Function.Injective (List.map CfRecord.bytes) :=
    List.map_injective_iff.mpr CfRecord.bytes_injective
  have hbody : ∀ body : Bytes, (fileHeader genesis ++ body).drop CF_HEADERS_FILE_HDR_LEN = body :=
    fun body =>
    List.drop_left' (length_fileHeader genesis)
  have hnews := @length_of_mem_bytes news
  have hlen : news.length ≤ (news.map CfRecord.bytes).flatten.length := by
    rw [FixedRecords.length_flatten hnews, List.length_map]
    exact Nat.le_mul_of_pos_left _ (by decide)
  have hcomplete : complete.length ≤ (complete.map CfRecord.bytes).flatten.length := by
    rw [FixedRecords.length_flatten (@length_of_mem_bytes complete), List.length_map]
    exact Nat.le_mul_of_pos_left _ (by decide)
  rw [← hinj.eq_iff, recordsIn, (readRecords_eq _ _).1, List.append_assoc, hbody, List.append_assoc,
    blocks_flatten_append (@length_of_mem_bytes complete)
      (by rw [List.length_map, List.length_append, List.length_append]; omega),
    List.map_append, List.append_cancel_left_eq]
  have hn : (news.map CfRecord.bytes).length ≤
    (fileHeader genesis ++ ((complete.map CfRecord.bytes).flatten ++
      (part ++ (news.map CfRecord.bytes).flatten))).length -
        (complete.map CfRecord.bytes).length := by
    rw [List.length_map, List.length_map, List.length_append, List.length_append,
      List.length_append]
    omega
  by_cases hpart_nil : part = []
  · subst hpart_nil
    have hread := blocks_flatten_append_of_lt hnews hn
      (show ([] : Bytes).length < CF_HEADERS_FILE_REC_LEN by decide)
    rw [List.append_nil] at hread
    exact iff_of_true hread (Or.inl rfl)
  by_cases hnews_nil : news = []
  · subst hnews_nil
    refine iff_of_true ?_ (Or.inr (Or.inl rfl))
    rw [List.map_nil, List.flatten_nil, List.append_nil]
    exact blocks_of_lt hpart _
  · rw [blocks_part_append_iff hnews hn hpart_nil hpart]
    simp only [hpart_nil, hnews_nil, false_or]

/-- **Recovering a torn file.** After any further records, the complete records and these are loaded
again if and only if the file was torn between two records, nothing was written, or the new records
repeat the torn bytes. -/
theorem recoversExactly_iff (genesis : Uint256) (recs news : List CfRecord)
    (state : CompactFilterState) {n : ℕ} (hn : CF_HEADERS_FILE_HDR_LEN ≤ n) :
    RecoversExactly genesis ((cfheadersFile genesis recs).take n)
        (recs.take (completeCount ((cfheadersFile genesis recs).take n))) news state ↔
      RecoverySafe ((cfheadersFile genesis recs).take n) news := by
  obtain ⟨part, htorn, hlength⟩ := exists_torn genesis recs hn
  have hlt : part.length < CF_HEADERS_FILE_REC_LEN := by
    rw [hlength]
    exact Nat.mod_lt _ (by decide)
  have hpart : tornPart ((cfheadersFile genesis recs).take n) = part := by
    unfold tornPart
    rw [← hlength, htorn, ← List.append_assoc]
    apply List.drop_left'
    simp only [List.length_append]
    omega
  have hsafe : RecoverySafe ((cfheadersFile genesis recs).take n) news ↔
      part = [] ∨ news = [] ∨ Repeats part (news.map CfRecord.bytes).flatten := by
    unfold RecoverySafe
    rw [hpart, ← hlength, List.length_eq_zero_iff]
  generalize recs.take (completeCount ((cfheadersFile genesis recs).take n)) = complete at *
  rw [hsafe, htorn]
  have hwritten : writtenOn (fileHeader genesis ++ ((complete.map CfRecord.bytes).flatten ++ part))
    state news =
      some (fileHeader genesis ++ ((complete.map CfRecord.bytes).flatten ++ part) ++
        (news.map CfRecord.bytes).flatten) := by
    have hloaded := @cfheadersDbLoad_eq (cfheadersDbNew false) rfl genesis
      ((complete.map CfRecord.bytes).flatten ++ part) state
    have hopened := @content_write (cfheadersDbLoad (cfheadersDbNew false)
      (some (fileHeader genesis ++ ((complete.map CfRecord.bytes).flatten ++ part))) state).1
      (by rw [hloaded]; exact Db.readWrite_enter _ _) _ (by rw [hloaded]) news
    rw [writtenOn, hopened]
    rfl
  rw [← recordsIn_torn genesis complete news hlt]
  constructor
  · rintro ⟨⟨content, hcontent, hreads⟩, -⟩
    rw [hwritten] at hcontent
    rwa [Option.some.inj hcontent]
  · intro hreads
    refine ⟨⟨_, hwritten, hreads⟩, ?_⟩
    rw [hwritten, List.append_assoc, cfheadersDbLoad_eq rfl genesis, ← List.append_assoc, hreads]

/-- The first record of a file, for runs on fixed inputs. -/
def firstRecord : CfRecord := ⟨1, Uint256.zero⟩

/-- A state that nothing was loaded into. -/
def newState : CompactFilterState where
  genesisFilterHeader := Uint256.zero
  filterHeaders := []
  cfheadersTipHeight := 0
  cfheadersBaseHeight := 0
  cfheadersTipHash := Uint256.zero

/-- A file of two records. -/
def twoRecordsFile : Bytes := cfheadersFile Uint256.zero [firstRecord, ⟨2, Uint256.zero⟩]

/-- The theorem on a file of two records: a record is added where the second one was cut off whole,
or inside. -/
theorem recoversExactly_iff_second :
    RecoversExactly Uint256.zero (twoRecordsFile.take 76) [firstRecord]
      [⟨3, Uint256.zero⟩] newState ∧
      ¬ RecoversExactly Uint256.zero (twoRecordsFile.take 90) [firstRecord]
        [⟨3, Uint256.zero⟩] newState := by
  have hiff : ∀ n, CF_HEADERS_FILE_HDR_LEN ≤ n → completeCount (twoRecordsFile.take n) = 1 →
      (RecoversExactly Uint256.zero (twoRecordsFile.take n) [firstRecord]
        [⟨3, Uint256.zero⟩] newState ↔
        RecoverySafe (twoRecordsFile.take n) [⟨3, Uint256.zero⟩]) := by
    intro n hn hcount
    have h := recoversExactly_iff Uint256.zero [firstRecord, ⟨2, Uint256.zero⟩]
      [⟨3, Uint256.zero⟩] newState hn
    rwa [← twoRecordsFile, hcount] at h
  constructor
  · exact (hiff 76 (by decide) (by decide)).mpr (by decide)
  · exact (hiff 90 (by decide) (by decide)).not.mpr (by decide)

/-- One byte of a record is left of the file. The record that is written again is read from this
byte on. -/
theorem not_recoversExactly : ¬ ∀ (genesis : Uint256) (recs news : List CfRecord)
    (state : CompactFilterState) (n : ℕ), CF_HEADERS_FILE_HDR_LEN ≤ n →
      RecoversExactly genesis ((cfheadersFile genesis recs).take n)
        (recs.take (completeCount ((cfheadersFile genesis recs).take n))) news state := by
  intro hall
  obtain ⟨content, hwritten, hreads⟩ :=
    (hall Uint256.zero [firstRecord] [firstRecord] newState 41 (by decide)).reads
  have hcontent : content = (cfheadersFile Uint256.zero [firstRecord]).take 41 ++
    firstRecord.bytes :=
    (Option.some.inj hwritten).symm
  rw [hcontent] at hreads
  revert hreads
  decide

end CfheadersDb

end Libdogecoin
