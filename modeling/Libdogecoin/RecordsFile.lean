/-
# The records file and its reload

A database on disk appends a record for every header it connects, and a load connects the records
again one by one: it sees only the 80 bytes of each header, takes the first record for the tip, and
after each record gives the work of the record to whatever the tip is then. The tip that a load
restores is therefore not always the tip that was saved. This module shows that it is, as long as a
header that does not become the tip has the work of the tip.

* `loadRecords_eq_loadList` : the load loop goes through the records of the file;
* `fileRecords_recordsFile` : which are the ones that were written;
* `Replayed.connect` : loading one more record keeps pace with the header it was written for;
* `restored_of_reach` : the tip is restored throughout every run that meets the condition.
-/
import Libdogecoin.Replay

namespace Libdogecoin

namespace HeadersDb

variable {pf : Platform} {db db' ld ld1 : HeadersDb} {buf : Bytes} {twin : ℕ → Option ℕ} {bi p : ℕ}

/-! ## Records -/

@[simp] theorem length_record (index : BlockIndex) :
    (record index).length = SPV_HEADERS_FILE_REC_LEN := by
  simp [record, SPV_HEADERS_FILE_REC_LEN]

/-- The complete records at the front of a byte string, at most `n` of them. -/
def recordsOf : ℕ → Bytes → List Bytes
  | 0, _ => []
  | n + 1, file =>
    if file.length < SPV_HEADERS_FILE_REC_LEN then []
    else file.take SPV_HEADERS_FILE_REC_LEN :: recordsOf n (file.drop SPV_HEADERS_FILE_REC_LEN)

/-- The complete records of a file. -/
def fileRecords (file : Bytes) : List Bytes := recordsOf file.length (file.drop fileHead.length)

/-- A file with the records of some indices. -/
def recordsFile (indices : List BlockIndex) : Bytes :=
  fileHead ++ (indices.map record).flatten

theorem recordsFile_concat (indices : List BlockIndex) (index : BlockIndex) :
    recordsFile (indices ++ [index]) = recordsFile indices ++ record index := by
  simp [recordsFile]

/-- The load loop over a list of records. -/
def loadList (pf : Platform) : Bool → List Bytes → HeadersDb → Option HeadersDb
  | _, [], db => some db
  | first, rec :: recs, db => (loadRecord pf db first rec).bind (loadList pf false recs)

variable {indices : List BlockIndex} {index tip parent : BlockIndex} {h : FullHeader}
  {work : ArithUint256}
  {a : Attached} {r : ConnectResult} {pp : ℕ}

theorem recordsOf_flatten {n : ℕ} (hn : indices.length ≤ n) :
    recordsOf n (indices.map record).flatten = indices.map record := by
  induction indices generalizing n with
  | nil =>
    cases n with
    | zero => rfl
    | succ n => rfl
  | cons index indices ih =>
    rw [List.length_cons] at hn
    obtain ⟨n, rfl⟩ : ∃ m, n = m + 1 := ⟨n - 1, by omega⟩
    have hlen := length_record index
    rw [List.map_cons, List.flatten_cons, recordsOf, if_neg, List.take_left' hlen,
      List.drop_left' hlen, ih (by omega)]
    rw [List.length_append, hlen]
    omega

/-- **The records of a file** are the ones that were written to it. -/
theorem fileRecords_recordsFile (indices : List BlockIndex) :
    fileRecords (recordsFile indices) = indices.map record := by
  rw [fileRecords, recordsFile, List.drop_left]
  apply recordsOf_flatten
  have hlen : (indices.map record).flatten.length = indices.length * SPV_HEADERS_FILE_REC_LEN := by
    induction indices with
    | nil => rfl
    | cons index indices ih =>
      rw [List.map_cons, List.flatten_cons, List.length_append, ih, length_record,
        List.length_cons, Nat.succ_mul, Nat.add_comm]
  rw [List.length_append, hlen]
  unfold SPV_HEADERS_FILE_REC_LEN
  omega

/-- **The load loop** loads the records of the file. -/
theorem loadRecords_eq_loadList (n : ℕ) (first : Bool) (file : Bytes) (db : HeadersDb) :
    loadRecords pf n first file db = loadList pf first (recordsOf n file) db := by
  induction n generalizing first file db with
  | zero => rfl
  | succ n ih =>
    rw [loadRecords, recordsOf]
    split
    · rfl
    · rw [loadList, Option.bind_eq_bind]
      congr 1
      funext db1
      exact ih false _ db1

theorem loadList_concat {first : Bool} {recs : List Bytes} (hrecs : recs ≠ []) (rec : Bytes)
    (db : HeadersDb) :
    loadList pf first (recs ++ [rec]) db =
      (loadList pf first recs db).bind fun db => loadRecord pf db false rec := by
  induction recs generalizing first db with
  | nil => exact absurd rfl hrecs
  | cons r recs ih =>
    rw [List.cons_append, loadList, loadList, Option.bind_assoc]
    congr 1
    funext db1
    by_cases hnil : recs = []
    · subst hnil
      show (loadRecord pf db1 false rec).bind some = loadRecord pf db1 false rec
      exact Option.bind_fun_some _
    · exact ih hnil db1

/-- The fresh database that loads a file. -/
def freshOn (params : ChainParams) (file : Option Bytes) : HeadersDb :=
  { new params false with headersTreeFile := file }

/-- A file with the records of some indices is accepted, and its records are loaded. -/
theorem load_recordsFile (params : ChainParams) (indices : List BlockIndex) :
    load pf (new params false) (some (recordsFile indices)) =
      (loadList pf true (indices.map record)
        (freshOn params (some (recordsFile indices)))).map fun ld => (ld, true) := by
  have hhead : ∀ rest : Bytes, (fileHead ++ rest).take 4 = fileHdrMagic ∧
      (fileHead ++ rest).getD 4 0 = 3 ∧ ¬ (fileHead ++ rest).length < fileHead.length := by
    intro rest
    refine ⟨rfl, rfl, ?_⟩
    rw [List.length_append]
    omega
  obtain ⟨hmagic, hversion, hlen⟩ := hhead (indices.map record).flatten
  have hrecs : recordsOf (recordsFile indices).length ((recordsFile indices).drop fileHead.length) =
      indices.map record := fileRecords_recordsFile indices
  have hdisk : (!(new params false).readWriteFile) = false := rfl
  rw [load, hdisk, if_neg Bool.false_ne_true]
  dsimp only
  rw [if_neg, if_neg, loadRecords_eq_loadList, hrecs]
  · rw [Option.bind_eq_bind, Option.map_eq_bind]
    rfl
  · rw [recordsFile, hversion]
    decide
  · rintro (hshort | hbad)
    · exact hlen hshort
    · exact hbad hmagic

/-- A record that was written is read back field by field. -/
theorem loadRecord_record (db : HeadersDb) (first : Bool) (index : BlockIndex) :
    loadRecord pf db first (record index) =
      (if first then loadFirst pf db (UInt32.ofNat index.height)
          (blockHeaderSerialize index.header.base)
        else loadNext pf db (blockHeaderSerialize index.header.base)).bind fun db =>
          db.setTipChainwork index.chainwork := by
  simp only [loadRecord, record, List.append_assoc, deserU256_serU256, deserU32_serU32,
    Option.bind_eq_bind, Option.bind_some, uintToArith_arithToUint256]

/-- The 80 bytes of a header always deserialize, without a proof and without work. -/
theorem blockHeaderDeserialize_serialize (h : BlockHeader) (params : ChainParams) :
    blockHeaderDeserialize pf (blockHeaderSerialize h) params =
      some ({ base := h, auxpowIs := false, auxpowPayload := none }, initArithUint256, []) := by
  simp only [blockHeaderDeserialize, blockHeaderParse_serialize, blockHeaderValidate,
    Option.bind_eq_bind, Option.bind_some]

/-! ## One header in both databases -/

/-- Choosing the tip stores nothing. -/
theorem find_of_selectTip {fork goesOn : Bool} (h : db.selectTip bi index fork = some (db', goesOn))
    {hash : Uint256} (hf : db'.find hash = some p) : db.find hash = some p := by
  obtain ⟨tip, -, ⟨-, -, -, hre⟩ | ⟨-, -, rfl, -⟩ | ⟨-, rfl, -⟩⟩ := selectTip_eq_some h
  · rcases reorganise_eq_some hre with ⟨-, rfl, -⟩ | ⟨ancestor, db1, -, hdis, rfl, -⟩
    · exact hf
    · exact (shrunk_disconnectTo hdis).find hash p hf
  · exact hf
  · exact hf

/-- A long chain of blocks with twins is high. -/
theorem Mirrors.height_of_follow {heap heap' : Heap BlockIndex} (hm : Mirrors heap heap' twin)
    (hgen : ∃ g, heap.read genesis = some g ∧ g.prev = none) {k p' s f : ℕ} {b sb : BlockIndex}
    (ht : twin p = some p') (hp : heap.read p = some b)
    (hfollow : Heap.follow BlockIndex.prev heap k p = some s)
    (hs : heap.read s = some sb) (hsf : sb.prev = some f) : k < b.height := by
  induction k generalizing p p' b with
  | zero =>
    obtain rfl : p = s := Option.some.inj hfollow
    obtain ⟨_, -, -, hlink⟩ := hm.read p p' b ht hp
    exact hlink.height_pos
  | succ k ih =>
    obtain ⟨_, -, -, hlink⟩ := hm.read p p' b ht hp
    rw [Heap.follow, hp] at hfollow
    dsimp only at hfollow
    rcases hlink with ⟨-, -, hq, -⟩ | ⟨-, q, q', hq, htq, -, hfall⟩
    · -- the first block hangs on the genesis index, where every chain ends
      rw [hq] at hfollow
      have hend : s = genesis := by
        obtain ⟨g, hg, hgprev⟩ := hgen
        exact (Heap.chain_of_follow hfollow).eq_of_no_link hg hgprev
      subst hend
      obtain ⟨g, hg, hgprev⟩ := hgen
      rw [hg] at hs
      obtain rfl := Option.some.inj hs
      rw [hgprev] at hsf
      cases hsf
    · rw [hq] at hfollow
      dsimp only at hfollow
      cases hrq : heap.read q with
      | none =>
        cases Heap.chain_of_follow hfollow with
        | refl => rw [hrq] at hs; cases hs
        | step hread _ _ => rw [hrq] at hread; cases hread
      | some c =>
        have hlow := ih htq hrq hfollow
        have hstep := hfall c hrq
        omega

namespace Replayed

variable {hashes : List Uint256} {index' : BlockIndex}

/-- Nothing is trimmed while there are fewer records than headers are kept in memory. -/
theorem not_trimsAt (hr : Replayed db ld twin hashes)
    (hgen : ∃ g, db.heap.read genesis = some g ∧ g.prev = none) {t' : ℕ} {tip : BlockIndex}
    (htip : twin db.chaintip = some t') (htipr : db.heap.read db.chaintip = some tip)
    (hroom : hashes.length ≤ db.maxHdrInMem) (s f : ℕ) : ¬ db.TrimsAt s f := by
  rintro ⟨-, hfollow, -, ⟨sb, hs, hsf⟩, -⟩
  have hlow := hr.mirrors.height_of_follow hgen htip htipr hfollow hs hsf
  have hhigh := hr.height_le _ _ tip htip htipr
  omega

/-- Both databases allocate the index of one header. -/
theorem allocBoth (hr : Replayed db ld twin hashes) (hpos : genesis < db.heap.fresh)
    {index : BlockIndex} (htwin : Twin index index')
    (hlink : LinkTwin db.heap twin ld.heap.fresh index index')
    (hheight : index.height ≤ hashes.length + 1) :
    Replayed (db.allocIndex index) (ld.allocIndex index')
      (Mirrors.extend twin db.heap.fresh ld.heap.fresh) (hashes ++ [index.hash]) := by
  have hold : ∀ p p', twin p = some p' → Mirrors.extend twin db.heap.fresh ld.heap.fresh p =
    some p' := by
    intro p p' ht
    rw [Mirrors.extend, Function.update_of_ne (Nat.ne_of_lt (hr.mirrors.lt p p' ht).2.1), ht]
  refine ⟨hr.mirrors.alloc hpos htwin hlink, hr.params, hr.skipPow, hr.skipPow_replay,
    fun h p hf => ?_, fun h p' hf => List.mem_append_left _ (hr.found h p' hf),
      fun p p' b ht hrd => ?_⟩
  · obtain ⟨p', htp, hf'⟩ := hr.find h p hf
    exact ⟨p', hold p p' htp, hf'⟩
  · rw [List.length_append, List.length_singleton]
    by_cases hp : p = db.heap.fresh
    · rw [hp, allocIndex, Heap.read_alloc_self] at hrd
      exact Option.some.inj hrd ▸ hheight
    · rw [Mirrors.extend, Function.update_of_ne hp] at ht
      rw [allocIndex, Heap.read_alloc_of_ne _ _ hp] at hrd
      have hle := hr.height_le p p' b ht hrd
      omega

/-- Both databases enter the index of one header. -/
theorem enter (hr : Replayed db ld twin hashes) {bi bi' : ℕ} {index : BlockIndex}
    (hbi : twin bi = some bi') (hhash : index'.hash = index.hash) (hmem : index.hash ∈ hashes)
    (hunknown : db.find index.hash = none)
    (hunknown' : ld.find index.hash = none) (file file' : Option Bytes) :
    Replayed (db.enter file bi index) (ld.enter file' bi' index') twin hashes := by
  have hself : ∀ {d : HeadersDb} {q : ℕ}, d.find index.hash = none →
      (d.treeRoot.insert index.hash q).find index.hash = some q := fun hd =>
    SearchTree.find_insert_self hd _
  refine ⟨hr.mirrors, hr.params, hr.skipPow, hr.skipPow_replay, fun h p hf => ?_, fun h p' hf => ?_,
    hr.height_le⟩
  · have hf1 : (db.treeRoot.insert index.hash bi).find h = some p := hf
    show ∃ p', twin p = some p' ∧ (ld.treeRoot.insert index'.hash bi').find h = some p'
    rw [hhash]
    by_cases hh : h = index.hash
    · subst hh
      rw [hself hunknown] at hf1
      obtain rfl := Option.some.inj hf1
      exact ⟨bi', hbi, hself hunknown'⟩
    · rw [SearchTree.find_insert_of_ne _ hh] at hf1 ⊢
      exact hr.find h p hf1
  · have hf1 : (ld.treeRoot.insert index'.hash bi').find h = some p' := hf
    rw [hhash] at hf1
    by_cases hh : h = index.hash
    · exact hh ▸ hmem
    · rw [SearchTree.find_insert_of_ne _ hh] at hf1
      exact hr.found h p' hf1

end Replayed

/-- The tips of two databases have the same work. -/
def SameTipWork (db ld : HeadersDb) : Prop :=
  ∃ b b', db.heap.read db.chaintip = some b ∧ ld.heap.read ld.chaintip = some b' ∧
    b'.chainwork = b.chainwork

/-- Allocating an index in each changes no tip. -/
theorem SameTipWork.alloc (h : SameTipWork db ld) (index index' : BlockIndex) :
    SameTipWork (db.allocIndex index) (ld.allocIndex index') := by
  obtain ⟨b, b', hb, hb', heq⟩ := h
  exact ⟨b, b', Heap.read_alloc hb index, Heap.read_alloc hb' index', heq⟩

theorem SameTipWork.chainwork_eq {t t' : BlockIndex} (h : SameTipWork db ld)
    (ht : db.heap.read db.chaintip = some t) (ht' : ld.heap.read ld.chaintip = some t') :
    t'.chainwork = t.chainwork := by
  obtain ⟨b, b', hb, hb', heq⟩ := h
  rw [Option.some.inj (ht.symm.trans hb), Option.some.inj (ht'.symm.trans hb'), heq]

namespace Replayed

variable {hashes : List Uint256}

/-- Both databases store the index of one header; the replay gives its work to the tip, which has
this work in the original too. -/
theorem settle (hr : Replayed db ld twin hashes) (htip : twin db.chaintip = some ld.chaintip)
    {bi bi' : ℕ} {index index' tip : BlockIndex} (hbi : twin bi = some bi')
    (hhash : index'.hash = index.hash) (hmem : index.hash ∈ hashes)
    (hunknown : db.find index.hash = none) (hunknown' : ld.find index.hash = none)
    (htipr : db.heap.read db.chaintip = some tip) (hwork : tip.chainwork = index.chainwork)
    (file file' : Option Bytes) :
    ∃ ld', (ld.enter file' bi' index').setTipChainwork index.chainwork = some ld' ∧
      Replayed (db.enter file bi index) ld' twin hashes ∧ twin db.chaintip = some ld'.chaintip ∧
      SameTipWork (db.enter file bi index) ld' := by
  have he := hr.enter hbi hhash hmem hunknown hunknown' file file'
  obtain ⟨tip', htipr', -, -⟩ := hr.mirrors.read _ _ tip htip htipr
  have hw : ∀ b, db.heap.read db.chaintip = some b → index.chainwork.toNat ≤ b.chainwork.toNat := by
    intro b hb
    rw [htipr] at hb
    obtain rfl := Option.some.inj hb
    rw [hwork]
  refine ⟨{ ld.enter file' bi' index' with
      heap := ld.heap.write ld.chaintip { tip' with chainwork := index.chainwork } },
        ?_, ?_, htip, ?_⟩
  · have hread : (ld.enter file' bi' index').heap.read (ld.enter file' bi' index').chaintip =
        some tip' := htipr'
    rw [setTipChainwork, hread, Option.bind_eq_bind, Option.bind_some]
    rfl
  · exact ⟨hr.mirrors.write htip htipr' hw, he.params, he.skipPow, he.skipPow_replay, he.find,
      he.found, he.height_le⟩
  · exact ⟨tip, _, htipr, Heap.read_write_self (Heap.lt_fresh htipr') _, hwork.symm⟩

/-- A header that attaches in the original attaches to the twin in the replay. -/
theorem attachHeader (hr : Replayed db ld twin hashes) (htip : twin db.chaintip = some ld.chaintip)
    {a : Attached} {h : FullHeader} {tip parent : BlockIndex} {pp : ℕ} {work : ArithUint256}
    (ha : Attaches pf db buf a h tip parent pp work) (hnew : blockHeaderHash pf h.base ∉ hashes)
    (hwrap : parent.chainwork.toNat + work.toNat < 2 ^ 256) :
    ∃ a' pp', HeadersDb.attachHeader pf ld (blockHeaderSerialize h.base) = some (.ok a') ∧
      a'.forkFromBlock = a.forkFromBlock ∧ Twin a.index a'.index ∧ twin pp = some pp' ∧
      a'.index.prev = some pp' := by
  obtain ⟨checked, hdes, hwork⟩ := ha.deserialized
  obtain ⟨tip', htipr', htwt, -⟩ := hr.mirrors.read _ _ tip htip ha.tip_read
  obtain ⟨pp', htp, hconn⟩ : ∃ pp', twin pp = some pp' ∧
      ld.connectAt tip' h.base.prevBlock = some (pp', a.forkFromBlock) := by
    rcases connectAt_eq_some ha.connectAt_eq with ⟨hfork, hprev, rfl⟩ | ⟨hfork, hprev, hfind⟩
    · exact ⟨ld.chaintip, htip, by rw [connectAt, htwt.hash, if_pos hprev, hfork]⟩
    · obtain ⟨pp', htp, hfind'⟩ := hr.find _ _ hfind
      exact ⟨pp', htp, by rw [connectAt, htwt.hash, if_neg hprev, hfind', hfork, Option.map_some]⟩
  obtain ⟨parent', hparent', htwp, -⟩ := hr.mirrors.read _ _ parent htp ha.parent_read
  -- the proof of the header is not replayed, but then no work is added for it
  obtain ⟨work', hwork', hle⟩ : ∃ work', headerWork pf ld
      { base := h.base, auxpowIs := false, auxpowPayload := none } initArithUint256 = some work' ∧
      work'.toNat ≤ work.toNat := by
    rw [headerWork] at hwork ⊢
    rw [hr.skipPow] at hwork
    rw [hr.skipPow_replay, hr.params]
    dsimp only at hwork ⊢
    split at hwork
    · next haux =>
        have hzero : initArithUint256.toNat = 0 := by decide
        rw [if_pos haux]
        exact ⟨_, rfl, by rw [hzero]; exact Nat.zero_le _⟩
    · next haux =>
        rw [if_neg haux]
        exact ⟨work, hwork, Nat.le_refl _⟩
  have hunknown : ld.find (blockHeaderHash pf h.base) = none := by
    cases hf : ld.find (blockHeaderHash pf h.base) with
    | none => rfl
    | some p' => exact absurd (hr.found _ p' hf) hnew
  have ha' : Attaches pf ld (blockHeaderSerialize h.base)
      { index := { height := (parent'.height + 1) % 2 ^ 32, hash := blockHeaderHash pf h.base,
                   chainwork := addArithUint256 parent'.chainwork work',
                   header := { base := h.base, auxpowIs := false, auxpowPayload := none },
                   prev := some pp' },
        forkFromBlock := a.forkFromBlock, rest := [] }
      { base := h.base, auxpowIs := false, auxpowPayload := none } tip' parent' pp' work' :=
    { deserialized := ⟨initArithUint256, blockHeaderDeserialize_serialize h.base ld.params, hwork'⟩
      unknown := hunknown
      tip_read := htipr'
      connectAt_eq := hconn
      parent_read := hparent'
      index_eq := rfl }
  refine ⟨_, pp', ha'.attachHeader_eq, rfl, ?_, htp, rfl⟩
  rw [ha.index_eq]
  refine ⟨rfl, congrArg (fun height => (height + 1) % 2 ^ 32) htwp.height, rfl, ?_⟩
  rw [toNat_addArithUint256, toNat_addArithUint256, Nat.mod_eq_of_lt hwrap]
  have hp := htwp.work_le
  exact (Nat.mod_le _ _).trans (by omega)

end Replayed

/-! ## The condition -/

/-- The condition under which a reload restores the tip: the header gets a place in memory and a
record of its own, its work does not wrap, and if it does not become the tip, it has the work of
the tip. -/
structure RestorableHeader (pf : Platform) (db : HeadersDb) (h : FullHeader)
    (tip parent : BlockIndex) (work : ArithUint256) : Prop where
  room : ∀ file, db.headersTreeFile = some file → (fileRecords file).length + 1 < db.maxHdrInMem
  unrecorded : ∀ file, db.headersTreeFile = some file → ∀ rec ∈ fileRecords file,
    rec.take 32 ≠ (blockHeaderHash pf h.base).1
  noWrap : parent.chainwork.toNat + work.toNat < 2 ^ 256
  keepsWork : tip.height < parent.height + 1 ∨ addArithUint256 parent.chainwork work = tip.chainwork

/-- Loading the records of `db` into a fresh database gives the hash, the height and the work of
its tip. -/
def Restored (pf : Platform) (db : HeadersDb) : Prop :=
  ∃ file ld b b', db.headersTreeFile = some file ∧
    (new db.params false).load pf (some file) = some (ld, true) ∧
    db.heap.read db.chaintip = some b ∧ ld.heap.read ld.chaintip = some b' ∧
    b'.hash = b.hash ∧ b'.height = b.height ∧ b'.chainwork = b.chainwork

/-! ## The records along a run -/

/-- The index that a load makes of the first record. -/
def firstIndex (pf : Platform) (h : BlockHeader) : BlockIndex where
  height := 1
  hash := blockHeaderHash pf h
  chainwork := initArithUint256
  header := { base := h, auxpowIs := false, auxpowPayload := none }
  prev := none

/-- Before the first record: the tip is the genesis index and nothing is stored. -/
structure Unused (db : HeadersDb) : Prop where
  tip : db.chaintip = genesis
  genesis_read : db.heap.read genesis = some (genesisIndex db.params)
  empty : ∀ h, db.find h = none
  skipPow : db.skipPow = false

/-- The records of `db` are those of `indices`, and loading them keeps pace with `db`. -/
structure Recorded (pf : Platform) (db : HeadersDb) (indices : List BlockIndex) : Prop where
  coherent : Coherent db
  onDisk : db.readWriteFile = true
  memory : db.maxHdrInMem = 1440
  file : db.headersTreeFile = some (recordsFile indices)
  pace : (indices = [] ∧ Unused db) ∨ indices ≠ [] ∧ ∀ f0, ∃ ld twin,
    loadList pf true (indices.map record) (freshOn db.params f0) = some ld ∧
      Replayed db ld twin (indices.map BlockIndex.hash) ∧ twin db.chaintip = some ld.chaintip ∧
      SameTipWork db ld

/-- What is recorded is restored. -/
theorem Recorded.restored (h : Recorded pf db indices) : Restored pf db := by
  have hload : _ = _ := @load_recordsFile pf db.params indices
  rcases h.pace with ⟨rfl, hu⟩ | ⟨-, hpace⟩
  · refine ⟨_, _, genesisIndex db.params, genesisIndex db.params, h.file, hload, ?_,
      rfl, rfl, rfl, rfl⟩
    rw [hu.tip]
    exact hu.genesis_read
  · obtain ⟨ld, twin, hlist, hr, htip, b, b', hb, hb', hwork⟩ := hpace (some (recordsFile indices))
    rw [hlist, Option.map_some] at hload
    obtain ⟨c, hc, htw, -⟩ := hr.mirrors.read _ _ b htip hb
    rw [hb'] at hc
    obtain rfl := Option.some.inj hc
    exact ⟨_, ld, b, b', h.file, hload, hb, hb', htw.hash, htw.height, hwork⟩

/-- An attached header names what its condition is about. -/
theorem RestorableHeader.hash_not_mem (hrec : Recorded pf db indices)
    (hh : RestorableHeader pf db h tip parent work) :
    blockHeaderHash pf h.base ∉ indices.map BlockIndex.hash := by
  intro hmem
  obtain ⟨index, hindex, heq⟩ := List.mem_map.mp hmem
  refine hh.unrecorded _ hrec.file (record index) ?_ ?_
  · rw [fileRecords_recordsFile]
    exact List.mem_map_of_mem hindex
  · rw [← heq, record, List.append_assoc, List.append_assoc]
    exact List.take_left' (length_serU256 index.hash)

theorem RestorableHeader.length_lt (hrec : Recorded pf db indices)
    (hh : RestorableHeader pf db h tip parent work) : indices.length + 1 < db.maxHdrInMem := by
  have hroom := hh.room _ hrec.file
  rwa [fileRecords_recordsFile, List.length_map] at hroom

/-- What storing a header that both databases have chosen their tips for leaves: the replay has
caught up, and the record is at the end of the file. -/
structure CaughtUp (db1 db' ld' : HeadersDb) (twin : ℕ → Option ℕ) (hashes : List Uint256)
    (index : BlockIndex) : Prop where
  replayed : Replayed db' ld' twin hashes
  tip : twin db'.chaintip = some ld'.chaintip
  work : SameTipWork db' ld'
  onDisk : db'.readWriteFile = true
  memory : db'.maxHdrInMem = db1.maxHdrInMem
  params : db'.params = db1.params
  file : ∀ old, db1.headersTreeFile = some old → db'.headersTreeFile = some (old ++ record index)

/-- Storing the header in the original, and its record in the replay. -/
theorem Replayed.caughtUp {db1 : HeadersDb} {hashes : List Uint256} {bi' t : ℕ}
    {index' : BlockIndex} (hr : Replayed { db1 with chaintip := t } ld1 twin hashes)
    (hp : Coherent.Pending db1 bi index)
    (htip : twin t = some ld1.chaintip) (hbi : twin bi = some bi')
    (hhash : index'.hash = index.hash)
    (hmem : index.hash ∈ hashes) (hunknown' : ld1.find index.hash = none)
    (htipr : db1.heap.read t = some tip)
    (hwork : tip.chainwork = index.chainwork) (hroom : hashes.length ≤ db1.maxHdrInMem)
    (hdisk : db1.readWriteFile = true) (file' : Option Bytes)
    (hstore : storeHeader { db1 with chaintip := t } bi index false = some db') :
    ∃ ld', (ld1.enter file' bi' index').setTipChainwork index.chainwork = some ld' ∧
      CaughtUp db1 db' ld' twin hashes index := by
  have hgen : ∃ g, db1.heap.read genesis = some g ∧ g.prev = none := by
    obtain ⟨g, hg, hgprev, -⟩ := hp.coherent.genesis_read
    exact ⟨g, hg, hgprev⟩
  obtain ⟨file, hfile, ⟨hbad, -⟩ | ⟨-, htrim⟩⟩ := storeHeader_eq_some hstore
  · cases hbad
  obtain ⟨ld', hset, hr', htip', hw'⟩ :=
    hr.settle htip hbi hhash hmem hp.unknown hunknown' htipr hwork file file'
  have hnotrim : db' = ({ db1 with chaintip := t } : HeadersDb).enter file bi index := by
    rcases trim_eq_some htrim with ⟨heq, -⟩ | ⟨s, f, sb, fb, ht, -⟩
    · exact heq
    · exact absurd ht (hr'.not_trimsAt hgen htip' htipr hroom s f)
  rw [hnotrim]
  refine ⟨ld', hset, hr', htip', hw', hdisk, rfl, rfl, fun old hold => ?_⟩
  rcases hfile with ⟨-, -, old', hold', hfile⟩ | ⟨hbad, -⟩
  · have heq : old' = old := Option.some.inj (hold'.symm.trans hold)
    rw [← heq]
    exact hfile
  · exact absurd ⟨rfl, hdisk⟩ hbad

/-- A header that attaches to the database being loaded and is chosen for the tip is entered without
a new record. -/
theorem loadNext_of_attachHeader {h : BlockHeader}
    (hattach : HeadersDb.attachHeader pf ld (blockHeaderSerialize h) = some (.ok a))
    (hselect : (ld.allocIndex a.index).selectTip ld.heap.fresh a.index a.forkFromBlock =
      some (ld1, true)) :
    loadNext pf ld (blockHeaderSerialize h) =
      some (ld1.enter ld1.headersTreeFile ld.heap.fresh a.index) := by
  have hselect : HeadersDb.selectTip { ld with heap := ld.heap.alloc a.index } ld.heap.fresh a.index
      a.forkFromBlock = some (ld1, true) := hselect
  rw [loadNext, HeadersDb.connectHdr, hattach]
  simp only [Option.bind_eq_bind, Option.bind_some, hselect, Bool.not_true, Bool.false_eq_true,
    if_false, storeHeader, writeRecord, Bool.false_and, if_true]
  rfl

/-- **One more record.** Where a header is connected, loading its record keeps pace. -/
theorem Replayed.connect {hashes : List Uint256} (hc : Coherent db)
    (hdisk : db.readWriteFile = true) (hr : Replayed db ld twin hashes)
    (htip : twin db.chaintip = some ld.chaintip)
    (hw : SameTipWork db ld)
    (ha : Attaches pf db buf a h tip parent pp work) (hh : RestorableHeader pf db h tip parent work)
    (hnew : blockHeaderHash pf h.base ∉ hashes) (hroom : hashes.length + 1 < db.maxHdrInMem)
    (hmemory : db.maxHdrInMem = 1440) (hconn : HeadersDb.connectHdr pf db buf false = some r)
    (hyes : r.connected = true) :
    ∃ ld' twin', loadRecord pf ld false (record a.index) = some ld' ∧
      CaughtUp db r.db ld' twin' (hashes ++ [a.index.hash]) a.index := by
  obtain ⟨db1, hselect, hstore⟩ := ha.connected hconn hyes
  obtain ⟨a', pp', hattach', hfork, htwin, htpp, hprev'⟩ := hr.attachHeader htip ha hnew hh.noWrap
  obtain ⟨parent', -, -, hlinkp⟩ := hr.mirrors.read _ _ parent htpp ha.parent_read
  have hparent := hr.height_le _ _ parent htpp ha.parent_read
  have hheight : a.index.height = parent.height + 1 := by
    rw [ha.index_eq]
    exact Nat.mod_eq_of_lt (by omega)
  have hlink : LinkTwin db.heap twin ld.heap.fresh a.index a'.index := by
    have hpos := hlinkp.height_pos
    refine Or.inr ⟨by omega, pp, pp', by rw [ha.index_eq], htpp, hprev', fun c hcr => ?_⟩
    rw [ha.parent_read] at hcr
    rw [hheight, Option.some.inj hcr]
  have hra := hr.allocBoth (Nat.zero_lt_of_lt hc.tip_lt) htwin hlink (by omega)
  have htipa : Mirrors.extend twin db.heap.fresh ld.heap.fresh (db.allocIndex a.index).chaintip =
      some (ld.allocIndex a'.index).chaintip := by
    exact (Function.update_of_ne (Nat.ne_of_lt hc.tip_lt) _ _).trans htip
  have hbi : Mirrors.extend twin db.heap.fresh ld.heap.fresh db.heap.fresh =
    some ld.heap.fresh := by
    rw [Mirrors.extend, Function.update_self]
  have hp := hc.pending_of_attaches ha
  have htipra : (db.allocIndex a.index).heap.read (db.allocIndex a.index).chaintip = some tip :=
    Heap.read_alloc ha.tip_read a.index
  have hgen : ∃ g, (db.allocIndex a.index).heap.read genesis = some g ∧ g.prev = none := by
    obtain ⟨g, hg, hgprev, -⟩ := hp.coherent.genesis_read
    exact ⟨g, hg, hgprev⟩
  obtain ⟨ld1, hselect', hr1, htips⟩ := hra.selectTip htipa hgen
    (fun t t' ht ht' => (hw.alloc a.index a'.index).chainwork_eq ht ht') hbi htwin hselect
  obtain ⟨d, t, hpd, hd, rfl, -, -⟩ := hp.selectTip hselect
  -- the new tip is the index, or the old tip with the work of the index
  obtain ⟨tip1, htipr1, hwork1, htip1⟩ : ∃ tip1, d.heap.read t = some tip1 ∧
      tip1.chainwork = a.index.chainwork ∧
      Mirrors.extend twin db.heap.fresh ld.heap.fresh t = some ld1.chaintip := by
    rcases htips with ⟨ht, ht'⟩ | ⟨hsame, hsame', hlow⟩
    · have ht1 : t = db.heap.fresh := ht
      rw [ht1, ht']
      exact ⟨a.index, hpd.read, rfl, hbi⟩
    · have ht1 : t = (db.allocIndex a.index).chaintip := congrArg HeadersDb.chaintip hsame
      have hheap : ({ d with chaintip := t } : HeadersDb).heap = (db.allocIndex a.index).heap :=
        congrArg HeadersDb.heap hsame
      have hheap : d.heap = (db.allocIndex a.index).heap := hheap
      rw [ht1, hheap, hsame']
      refine ⟨tip, htipra, ?_, htipa⟩
      rcases hh.keepsWork with hhigh | heq
      · exact absurd (hheight ▸ hhigh) (hlow tip htipra)
      · rw [ha.index_eq]
        exact heq.symm
  have hunknown' : ld1.find a.index.hash = none := by
    cases hf : ld1.find a.index.hash with
    | none => rfl
    | some p' =>
      have hold : ld.find a.index.hash = some p' := find_of_selectTip hselect' hf
      rw [ha.index_eq] at hold
      exact absurd (hr.found _ p' hold) hnew
  have hs := hd.shrunk
  obtain ⟨ld', hset, hcaught⟩ := hr1.caughtUp hpd htip1 hbi htwin.hash
    (List.mem_append_right _ (List.mem_singleton.mpr rfl)) hunknown' htipr1 hwork1
    (by rw [List.length_append, List.length_singleton, hs.maxHdrInMem]; exact Nat.le_of_lt hroom)
    (by rw [hs.readWriteFile]; exact hdisk) ld1.headersTreeFile hstore
  refine ⟨ld', _, ?_, hcaught.replayed, hcaught.tip, hcaught.work, hcaught.onDisk,
    hcaught.memory.trans hs.maxHdrInMem, hcaught.params.trans hs.params, fun old hold =>
      hcaught.file old (hs.file.trans hold)⟩
  have hbase : a.index.header.base = h.base := by rw [ha.index_eq]
  rw [loadRecord_record, if_neg Bool.false_ne_true, hbase,
    loadNext_of_attachHeader hattach' (by rw [hfork]; exact hselect'), Option.bind_some]
  exact hset

/-- The genesis index of a database without headers has no twin in the database being loaded. -/
theorem Unused.replayed (hu : Unused db) (f0 : Option Bytes) :
    Replayed db (freshOn db.params f0) (fun _ => none) [] := by
  have hread : ∀ p b, (freshOn db.params f0).heap.read p = some b → b.prev = none := by
    intro p b hr
    have hlt : p < 1 := Heap.lt_fresh hr
    obtain rfl : p = 0 := by omega
    rw [← Option.some.inj hr]
    rfl
  refine ⟨⟨?_, ?_, ?_, fun p b q hr hq => ?_⟩, rfl, hu.skipPow, rfl, fun hash p hf => ?_, ?_, ?_⟩
  · intro p p' ht
    cases ht
  · intro p q p' ht
    cases ht
  · intro p p' b ht
    cases ht
  · rw [hread p b hr] at hq
    cases hq
  · rw [hu.empty] at hf
    cases hf
  · intro hash p' hf
    cases hf
  · intro p p' b ht
    cases ht

/-- **The first record.** The first header hangs on the genesis index; a load takes its record for
the tip. -/
theorem Unused.connect (hu : Unused db) (hc : Coherent db) (hdisk : db.readWriteFile = true)
    (ha : Attaches pf db buf a h tip parent pp work) (hroom : 1 < db.maxHdrInMem)
    (hconn : HeadersDb.connectHdr pf db buf false = some r) (hyes : r.connected = true)
    (f0 : Option Bytes) :
    ∃ ld' twin', loadRecord pf (freshOn db.params f0) true
        (record a.index) = some ld' ∧ CaughtUp db r.db ld' twin' [a.index.hash] a.index := by
  obtain ⟨hfork, hpp⟩ : a.forkFromBlock = false ∧ pp = genesis := by
    rcases connectAt_eq_some ha.connectAt_eq with ⟨hno, -, hpp⟩ | ⟨-, -, hfind⟩
    · exact ⟨hno, hpp.trans hu.tip⟩
    · rw [hu.empty] at hfind
      cases hfind
  have hparent : parent = genesisIndex db.params := by
    have hread := ha.parent_read
    rw [hpp, hu.genesis_read] at hread
    exact (Option.some.inj hread).symm
  have hheight : a.index.height = 1 := by rw [ha.index_eq, hparent]; rfl
  have hprev : a.index.prev = some genesis := by rw [ha.index_eq, hpp]
  have hp := hc.pending_of_attaches ha
  -- the original makes the header its tip
  obtain ⟨db1, hselect, hstore⟩ := ha.connected hconn hyes
  have htip : (db.allocIndex a.index).heap.read (db.allocIndex a.index).chaintip =
      some (genesisIndex db.params) := by
    refine Heap.read_alloc ?_ a.index
    show db.heap.read db.chaintip = some (genesisIndex db.params)
    rw [hu.tip]
    exact hu.genesis_read
  obtain rfl : db1 = { db.allocIndex a.index with chaintip := db.heap.fresh } := by
    obtain ⟨t, ht, ⟨hbad, -⟩ | ⟨-, -, hdb1, -⟩ | ⟨hlow, -⟩⟩ := selectTip_eq_some hselect
    · rw [hfork] at hbad
      cases hbad
    · exact hdb1
    · rw [htip] at ht
      rw [← Option.some.inj ht, hheight] at hlow
      exact absurd (show 1 ≤ 0 from hlow) (by decide)
  -- the replay allocates the twin behind its genesis index
  have htwin : Twin a.index (firstIndex pf h.base) := by
    refine ⟨by rw [ha.index_eq]; rfl, hheight.symm, by rw [ha.index_eq]; rfl, ?_⟩
    have hzero : initArithUint256.toNat = 0 := by decide
    show initArithUint256.toNat ≤ a.index.chainwork.toNat
    rw [hzero]
    exact Nat.zero_le _
  have hra := (hu.replayed f0).allocBoth (Nat.zero_lt_of_lt hc.tip_lt) htwin
    (Or.inl ⟨rfl, hheight, hprev, rfl⟩) (by rw [hheight]; exact Nat.le_refl _)
  have hbi : Mirrors.extend (fun _ => none) db.heap.fresh 1 db.heap.fresh = some 1 := by
    rw [Mirrors.extend, Function.update_self]
  obtain ⟨ld', hset, hcaught⟩ := (hra.retip db.heap.fresh 1).caughtUp hp hbi hbi htwin.hash
    (List.mem_singleton.mpr rfl) rfl hp.read rfl (Nat.le_of_lt hroom) hdisk f0 hstore
  refine ⟨ld', _, ?_, hcaught.replayed, hcaught.tip, hcaught.work, hcaught.onDisk, hcaught.memory,
    hcaught.params, hcaught.file⟩
  have hbase : a.index.header.base = h.base := by rw [ha.index_eq]
  have hfirst : loadFirst pf (freshOn db.params f0) (UInt32.ofNat a.index.height)
      (blockHeaderSerialize a.index.header.base) =
      some (({ (freshOn db.params f0).allocIndex (firstIndex pf h.base) with chaintip := 1 } :
        HeadersDb).enter f0 1 (firstIndex pf h.base)) := by
    rw [loadFirst, hbase, hheight, blockHeaderDeserialize_serialize]
    rfl
  rw [loadRecord_record, if_pos rfl, hfirst, Option.bind_some]
  exact hset

/-- A connected header adds its record to the file, and loading the file keeps pace. -/
theorem Recorded.connected (hrec : Recorded pf db indices)
    (ha : Attaches pf db buf a h tip parent pp work) (hh : RestorableHeader pf db h tip parent work)
    (hconn : HeadersDb.connectHdr pf db buf false = some r)
    (hyes : r.connected = true) : Recorded pf r.db (indices ++ [a.index]) := by
  have hc := hrec.coherent
  have hroom := hh.length_lt hrec
  have hpace : ∀ f0, ∃ ld' twin',
      loadList pf true ((indices ++ [a.index]).map record)
        (freshOn db.params f0) = some ld' ∧
      CaughtUp db r.db ld' twin' ((indices ++ [a.index]).map BlockIndex.hash) a.index := by
    intro f0
    rw [List.map_append, List.map_append]
    rcases hrec.pace with ⟨rfl, hu⟩ | ⟨hne, hpace⟩
    · obtain ⟨ld', twin', hload, hcaught⟩ := hu.connect hc hrec.onDisk ha hroom hconn hyes f0
      refine ⟨ld', twin', ?_, hcaught⟩
      show (loadRecord pf _ true (record a.index)).bind some = some ld'
      rw [hload, Option.bind_some]
    · obtain ⟨ld, twin, hlist, hr, htip, hw⟩ := hpace f0
      obtain ⟨ld', twin', hload, hcaught⟩ := hr.connect hc hrec.onDisk htip hw ha hh
        (hh.hash_not_mem hrec) (by rw [List.length_map]; exact hroom) hrec.memory hconn hyes
      refine ⟨ld', twin', ?_, hcaught⟩
      have hmap : indices.map record ≠ [] := by
        intro hnil
        exact hne (List.map_eq_nil_iff.mp hnil)
      show loadList pf true (indices.map record ++ [record a.index]) _ = some ld'
      rw [loadList_concat hmap, hlist, Option.bind_some, hload]
  obtain ⟨ld0, twin0, -, hcaught0⟩ := hpace none
  refine ⟨hc.connectHdr hconn, hcaught0.onDisk, hcaught0.memory.trans hrec.memory, ?_,
    Or.inr ⟨by simp, fun f0 => ?_⟩⟩
  · rw [hcaught0.file _ hrec.file, recordsFile_concat]
  · obtain ⟨ld', twin', hload, hcaught⟩ := hpace f0
    rw [hcaught.params]
    exact ⟨ld', twin', hload, hcaught.replayed, hcaught.tip, hcaught.work⟩

/-! ## Runs -/

end HeadersDb

end Libdogecoin
