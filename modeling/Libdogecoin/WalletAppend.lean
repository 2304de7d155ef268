/-
# Records behind a loaded wallet

`dogecoin_wallet_load` leaves the file open where its reading ended, and `wallet_write_record` goes
on there. Too few bytes for the magic of a record are taken for the end of the file, so the next
record is written behind them.

* `load_iff_scanFile` : a load applies the records of the file one by one;
* `foldlM_replay_isSome_iff` : when records can be applied to a wallet;
* `readsBack_iff` : when the records that are written behind a load are loaded again.
-/
import Libdogecoin.LogScan
import Libdogecoin.HeaderSpan
import Libdogecoin.P2pkhScan
import Libdogecoin.TxReadSize
import Libdogecoin.WalletReload

namespace Libdogecoin

open SpanRead LogScan

namespace Wallet

/-! ## The records of a file -/

/-- The magic of a record, the count of its bytes and its type. -/
def readHead (buf : Bytes) : Option ((UInt32 × UInt8) × Bytes) :=
  (deserBytes 4 buf).bind fun p =>
    if p.1 ≠ fileRecMagic then none
    else (deserVarlen p.2).bind fun q => (deserBytes 1 q.2).map fun r => ((q.1, r.1.headD 0), r.2)

/-- The two strings of a master key. -/
def readMasterpubkey (buf : Bytes) : Option (FileRecord × Bytes) :=
  (readString buf).bind fun p => (readString p.2).bind fun q =>
    if cstr p.1 ≠ cstr q.1 then none else some (.masterpubkey (cstr p.1), q.2)

/-- The record of an address. -/
def readAddress (buf : Bytes) : Option (FileRecord × Bytes) :=
  (deserBytes 26 buf).bind fun p =>
    match walletAddrDeserialize p.1 with
    | none => none
    | some waddr => some (.addr waddr, p.2)

/-- The record of a transaction. -/
def readTransaction (reclen : UInt32) (buf : Bytes) : Option (FileRecord × Bytes) :=
  if reclen = 0 ∨ reclen > 4000000 then none
  else
    (deserBytes reclen.toNat buf).bind fun p =>
      match walletWtxDeserialize p.1 with
      | none => none
      | some wtx => some (.tx wtx, p.2)

/-- A record of one of the three types. -/
def readBody (reclen : UInt32) (rectype : UInt8) (buf : Bytes) : Option (FileRecord × Bytes) :=
  if rectype = recTypeMasterpubkey then readMasterpubkey buf
  else if rectype = recTypeAddr then readAddress buf
  else readTransaction reclen buf

/-- One turn of the load loop: the record, none for a type that is not known, and how far the stream
went. A record of another type is skipped by its count, which may lead behind the end of the
file. -/
def readRecord (buf : Bytes) : Option (Option FileRecord × ℕ) :=
  (readHead buf).bind fun p =>
    if p.1.2 = recTypeMasterpubkey ∨ p.1.2 = recTypeAddr ∨ p.1.2 = recTypeTx then
      (readBody p.1.1 p.1.2 p.2).map fun q => (some q.1, buf.length - q.2.length)
    else some (none, buf.length - p.2.length + p.1.1.toNat)

variable {buf rest file tail : Bytes} {wtx : Wtx} {r : FileRecord} {fuel : ℕ}
  {w : Scan UInt8 (Option FileRecord)} {chain : WalletParams} {rs : List FileRecord}
  {α : Type} {s ld : Loaded}
  {type : UInt8}

/-- A reader leaves the end of a buffer. -/
theorem suffix_of_spans {read : Bytes → Option (α × Bytes)} (h : Spans 0 read) {x : α}
    (hread : read buf = some (x, rest)) : rest <:+ buf := by
  obtain ⟨span, rfl, -⟩ := h hread (Nat.zero_le _)
  exact List.suffix_append span rest

/-- Where it starts. -/
theorem drop_of_suffix (h : rest <:+ buf) : buf.drop (buf.length - rest.length) = rest :=
  (List.suffix_iff_eq_drop.mp h).symm

/-- More behind a buffer is left. -/
theorem read_append_of_spans {read : Bytes → Option (α × Bytes)} (h : Spans 0 read) {x : α}
    (hread : read buf = some (x, rest)) (tail : Bytes) : read (buf ++ tail) =
    some (x, rest ++ tail) := by
  obtain ⟨span, rfl, hspan⟩ := h hread (Nat.zero_le _)
  rw [List.append_assoc]
  exact hspan _

theorem spans_readString : Spans 0 readString := by
  have h : Spans 0 fun buf => (deserVarlen buf).bind fun p =>
      if p.1.toNat > 196 ∨ p.1 = 0 then none else deserBytes p.1.toNat p.2 :=
    spans_deserVarlen.bind fun len =>
      spans_none.ite (len.toNat > 196 ∨ len = 0) (spans_deserBytes len.toNat)
  exact h

theorem spans_readHead : Spans 0 readHead := by
  have hnext : ∀ magic, Spans 0 fun buf => if magic ≠ fileRecMagic then none
      else (deserVarlen buf).bind fun q => (deserBytes 1 q.2).map fun r =>
        ((q.1, r.1.headD 0), r.2) := fun magic =>
    spans_none.ite _ (spans_deserVarlen.bind fun reclen => (spans_deserBytes 1).map fun rectype =>
      (reclen, rectype.headD 0))
  exact (spans_deserBytes 4).bind hnext

theorem spans_readMasterpubkey : Spans 0 readMasterpubkey := by
  have hcheck : ∀ strbuf, Spans 0 fun buf => (readString buf).bind fun q =>
      if cstr strbuf ≠ cstr q.1 then none
      else some (FileRecord.masterpubkey (cstr strbuf), q.2) := by
    intro strbuf
    have hend : ∀ strbufCheck, Spans 0 fun buf : Bytes =>
        if cstr strbuf ≠ cstr strbufCheck then none
        else some (FileRecord.masterpubkey (cstr strbuf), buf) :=
      fun strbufCheck => spans_none.ite _ (spans_some _)
    exact spans_readString.bind hend
  exact spans_readString.bind hcheck

theorem spans_readAddress : Spans 0 readAddress := by
  have hend : ∀ record, Spans 0 fun buf : Bytes =>
      match walletAddrDeserialize record with
      | none => none
      | some waddr => some (FileRecord.addr waddr, buf) := by
    intro record
    cases walletAddrDeserialize record with
    | none => exact spans_none
    | some waddr => exact spans_some _
  exact (spans_deserBytes 26).bind hend

theorem spans_readTransaction (reclen : UInt32) : Spans 0 (readTransaction reclen) := by
  have hend : ∀ record, Spans 0 fun buf : Bytes =>
      match walletWtxDeserialize record with
      | none => none
      | some wtx => some (FileRecord.tx wtx, buf) := by
    intro record
    cases walletWtxDeserialize record with
    | none => exact spans_none
    | some wtx => exact spans_some _
  exact spans_none.ite _ ((spans_deserBytes reclen.toNat).bind hend)

theorem spans_readBody (reclen : UInt32) (rectype : UInt8) : Spans 0 (readBody reclen rectype) :=
  spans_readMasterpubkey.ite _ (spans_readAddress.ite _ (spans_readTransaction reclen))

/-- A head takes bytes. -/
theorem length_readHead {head : UInt32 × UInt8} (h : readHead buf = some (head, rest)) :
    rest.length < buf.length := by
  obtain ⟨span, rfl, hspan⟩ := spans_readHead h (Nat.zero_le _)
  cases span with
  | nil =>
    have hnil := hspan []
    cases hnil
  | cons b span =>
    rw [List.length_append, List.length_cons]
    omega

theorem readRecord_pos {x : Option FileRecord} {n : ℕ} (h : readRecord buf = some (x, n)) :
    0 < n := by
  obtain ⟨⟨⟨reclen, rectype⟩, rest⟩, hhead, hbody⟩ := Option.bind_eq_some_iff.mp h
  have hlen := length_readHead hhead
  dsimp only at hbody
  split_ifs at hbody
  · obtain ⟨⟨r, rest'⟩, hread, heq⟩ := Option.map_eq_some_iff.mp hbody
    have hle := (suffix_of_spans (spans_readBody reclen rectype) hread).length_le
    obtain ⟨-, rfl⟩ := Prod.mk.inj heq
    dsimp only
    omega
  · obtain ⟨-, rfl⟩ := Prod.mk.inj (Option.some.inj hbody)
    omega

theorem readRecord_append {p : Option FileRecord × ℕ} (tail : Bytes) (h : readRecord buf = some p) :
    readRecord (buf ++ tail) = some p := by
  obtain ⟨⟨⟨reclen, rectype⟩, rest⟩, hhead, hbody⟩ := Option.bind_eq_some_iff.mp h
  have hsame : ∀ rest : Bytes, (buf ++ tail).length - (rest ++ tail).length =
    buf.length - rest.length := by
    intro rest
    rw [List.length_append, List.length_append]
    omega
  rw [readRecord, read_append_of_spans spans_readHead hhead, Option.bind_some]
  dsimp only at hbody ⊢
  rw [hsame]
  split_ifs at hbody ⊢
  · obtain ⟨⟨r, rest'⟩, hread, rfl⟩ := Option.map_eq_some_iff.mp hbody
    rw [read_append_of_spans (spans_readBody reclen rectype) hread, Option.map_some]
    dsimp only
    rw [hsame]
  · exact hbody

/-- The records of the wallet file. -/
def walletFormat : Format UInt8 (Option FileRecord) where
  short := 4
  read := readRecord
  short_pos := by decide
  read_pos := readRecord_pos
  read_append := readRecord_append

/-- The records behind the header, and where the reading ends. -/
def scanFile (file : Bytes) : Option (Scan UInt8 (Option FileRecord)) :=
  walletFormat.scanAll (file.drop 40)

/-! ## The load loop -/

variable (wp : WalletPlatform)

/-- What a load makes of a record that it found. -/
def applyRecord (s : Loaded) : Option FileRecord → Option Loaded
  | none => some s
  | some r => r.replay wp s

variable {wp}

/-- A head in a buffer that is long enough for the magic. -/
theorem readHead_eq {buf : Bytes} (hlen : 4 ≤ buf.length) :
    readHead buf = if buf.take 4 ≠ fileRecMagic then none
      else match deserVarlen (buf.drop 4) with
        | some (reclen, rectype :: rest) => some ((reclen, rectype), rest)
        | _ => none := by
  rw [readHead, deserBytes, if_neg (by omega), Option.bind_some]
  split_ifs
  · rfl
  · cases deserVarlen (buf.drop 4) with
    | none => rfl
    | some p =>
      obtain ⟨reclen, rest⟩ := p
      cases rest with
      | nil => rfl
      | cons rectype rest => rfl

/-- A transaction that was read has no block. -/
theorem blockhash_walletWtxDeserialize (h : walletWtxDeserialize buf = some wtx) :
    replayed wtx = wtx := by
  unfold walletWtxDeserialize at h
  dsimp only at h
  obtain ⟨p, -, hsome⟩ := Option.bind_eq_some_iff.mp h
  obtain rfl := Option.some.inj hsome
  rfl

/-- A master key is loaded from the record that is read. -/
theorem loadMasterpubkey_eq (w : Wallet) (buf : Bytes) :
    w.loadMasterpubkey wp buf =
      match readMasterpubkey buf with
      | none => some none
      | some (.masterpubkey str, rest) =>
        if str.length ≥ 196 then none
        else some (some ({ w with
          masterkey := some ((hdnodeDeserialize wp str w.chain).getD HdNode.zero) }, rest))
      | some _ => some none := by
  unfold loadMasterpubkey readMasterpubkey
  cases readString buf with
  | none => rfl
  | some p =>
    obtain ⟨strbuf, rest⟩ := p
    rw [Option.bind_some]
    dsimp only
    cases readString rest with
    | none => rfl
    | some q =>
      rw [Option.bind_some]
      dsimp only
      by_cases hsame : cstr strbuf ≠ cstr q.1
      · rw [if_pos hsame, if_pos hsame]
      · rw [if_neg hsame, if_neg hsame]

/-- An address is. -/
theorem loadAddress_eq (w : Wallet) (buf : Bytes) :
    w.loadAddress buf = (readAddress buf).bind fun p =>
      match p.1 with
      | .addr waddr => some (w.enterWaddr waddr, p.2)
      | _ => none := by
  unfold loadAddress readAddress
  cases deserBytes 26 buf with
  | none => rfl
  | some p =>
    show ((walletAddrDeserialize p.1).bind _) =
      (match walletAddrDeserialize p.1 with
        | none => none
        | some waddr => some (FileRecord.addr waddr, p.2)).bind _
    cases walletAddrDeserialize p.1 with
    | none => rfl
    | some waddr => rfl

theorem readMasterpubkey_eq_some (h : readMasterpubkey buf = some (r, rest)) :
    ∃ str, r = .masterpubkey str := by
  obtain ⟨p, -, hnext⟩ := Option.bind_eq_some_iff.mp h
  obtain ⟨q, -, hcheck⟩ := Option.bind_eq_some_iff.mp hnext
  split_ifs at hcheck
  exact ⟨_, (Prod.mk.inj (Option.some.inj hcheck)).1.symm⟩

theorem readAddress_eq_some (h : readAddress buf = some (r, rest)) : ∃ waddr, r = .addr waddr := by
  obtain ⟨p, -, hnext⟩ := Option.bind_eq_some_iff.mp h
  cases hrecord : walletAddrDeserialize p.1 with
  | none =>
    rw [hrecord] at hnext
    cases hnext
  | some waddr =>
    rw [hrecord] at hnext
    exact ⟨waddr, (Prod.mk.inj (Option.some.inj hnext)).1.symm⟩

/-- **One turn** of the loop. -/
theorem loadRecords_step (hlen : 4 ≤ buf.length) :
    loadRecords wp (fuel + 1) buf s =
      match readRecord buf with
      | none => some .failed
      | some (r, n) => (applyRecord wp s r).bind (loadRecords wp fuel (buf.drop n)) := by
  rw [loadRecords, if_neg (by omega), readRecord, readHead_eq hlen]
  have hhead := @readHead_eq buf hlen
  split_ifs with hmagic
  · rfl
  rw [if_neg hmagic] at hhead
  cases hvar : deserVarlen (buf.drop 4) with
  | none => rfl
  | some p =>
    obtain ⟨reclen, rest⟩ := p
    cases rest with
    | nil => rfl
    | cons rectype rest =>
      rw [hvar] at hhead
      dsimp only at hhead ⊢
      have hsuffix := suffix_of_spans spans_readHead hhead
      rw [Option.bind_some]
      -- by the type of the record
      by_cases hkey : rectype = recTypeMasterpubkey
      · rw [if_pos hkey, if_pos (Or.inl hkey), readBody, if_pos hkey, loadMasterpubkey_eq]
        cases hread : readMasterpubkey rest with
        | none => rfl
        | some q =>
          obtain ⟨r, rest'⟩ := q
          obtain ⟨str, rfl⟩ := readMasterpubkey_eq_some hread
          dsimp only [Option.map_some, applyRecord]
          rw [FileRecord.replay, drop_of_suffix
            ((suffix_of_spans spans_readMasterpubkey hread).trans hsuffix)]
          split_ifs
          · rfl
          · rfl
      rw [if_neg hkey]
      by_cases haddr : rectype = recTypeAddr
      · rw [if_pos haddr, if_pos (Or.inr (Or.inl haddr)), readBody, if_neg hkey,
          if_pos haddr, loadAddress_eq]
        cases hread : readAddress rest with
        | none => rfl
        | some q =>
          obtain ⟨r, rest'⟩ := q
          obtain ⟨waddr, rfl⟩ := readAddress_eq_some hread
          show loadRecords wp fuel rest' _ =
            loadRecords wp fuel (buf.drop (buf.length - rest'.length)) _
          rw [drop_of_suffix ((suffix_of_spans spans_readAddress hread).trans hsuffix)]
      rw [if_neg haddr]
      by_cases htx : rectype = recTypeTx
      · rw [if_pos htx, if_pos (Or.inr (Or.inr htx)), readBody, if_neg hkey, if_neg haddr,
          readTransaction]
        by_cases hbounds : reclen = 0 ∨ reclen > 4000000
        · rw [if_pos hbounds, if_pos (by tauto)]
          rfl
        · rw [if_neg hbounds, deserBytes]
          by_cases hshort : rest.length < reclen.toNat
          · rw [if_pos hshort, if_pos (Or.inr (Or.inr hshort))]
            rfl
          · rw [if_neg hshort, if_neg (by tauto), Option.bind_some]
            dsimp only
            cases hread : walletWtxDeserialize (rest.take reclen.toNat) with
            | none => rfl
            | some wtx =>
              have hdrop := (List.drop_suffix reclen.toNat rest).trans hsuffix
              show (replayWtx wp s wtx).bind _ = (replayWtx wp s (replayed wtx)).bind _
              rw [blockhash_walletWtxDeserialize hread, drop_of_suffix hdrop]
      · rw [if_neg htx, if_neg (by tauto)]
        show loadRecords wp fuel (rest.drop reclen.toNat) s =
          loadRecords wp fuel (buf.drop (buf.length - rest.length + reclen.toNat)) s
        rw [← List.drop_drop, drop_of_suffix hsuffix]

/-- The loop applies the records of a file that can be read to its end. -/
theorem loadRecords_of_scan (hfuel : buf.length ≤ fuel) (h : walletFormat.scanAll buf = some w)
    (s : Loaded) :
    loadRecords wp fuel buf s = (w.records.foldlM (applyRecord wp) s).map .loaded := by
  induction fuel generalizing buf w s with
  | zero =>
    obtain rfl := List.eq_nil_of_length_eq_zero (Nat.le_zero.mp hfuel)
    obtain rfl := Option.some.inj (Format.scanAll_nil.symm.trans h)
    rfl
  | succ fuel ih =>
    rcases Format.scanAll_cases h with ⟨hshort, rfl⟩ | ⟨x, n, w', hlen, hread, hpos, hrest, rfl⟩
    · have hless : buf.length < 4 := hshort
      rw [loadRecords, if_pos hless]
      rfl
    · have hmagic : 4 ≤ buf.length := hlen
      have hrecord : readRecord buf = some (x, n) := hread
      rw [loadRecords_step hmagic, hrecord]
      show (applyRecord wp s x).bind _ =
        ((x :: w'.records).foldlM (applyRecord wp) s).map LoadResult.loaded
      rw [List.foldlM_cons]
      cases applyRecord wp s x with
      | none => rfl
      | some s' =>
        refine ih ?_ hrest s'
        rw [List.length_drop]
        omega

/-- A load that succeeds reads the file to its end. -/
theorem scan_of_loadRecords (hfuel : buf.length ≤ fuel)
    (h : loadRecords wp fuel buf s = some (.loaded ld)) :
    ∃ w, walletFormat.scanAll buf = some w := by
  induction fuel generalizing buf s with
  | zero =>
    obtain rfl := List.eq_nil_of_length_eq_zero (Nat.le_zero.mp hfuel)
    exact ⟨_, Format.scanAll_nil⟩
  | succ fuel ih =>
    by_cases hless : buf.length < 4
    · exact ⟨_, Format.scanAll_of_short hless⟩
    · have hmagic : 4 ≤ buf.length := by omega
      rw [loadRecords_step hmagic] at h
      cases hread : readRecord buf with
      | none =>
        rw [hread] at h
        cases h
      | some p =>
        obtain ⟨x, n⟩ := p
        rw [hread] at h
        obtain ⟨s', -, hrest⟩ := Option.bind_eq_some_iff.mp h
        have hpos := readRecord_pos hread
        obtain ⟨w, hw⟩ := ih (by rw [List.length_drop]; omega) hrest
        have hformat : walletFormat.read buf = some (x, n) := hread
        exact ⟨w.after x n, by rw [Format.scanAll_of_read hmagic hformat, hw, Option.map_some]⟩

/-- The header of a file fits the chain. -/
structure HeaderRight (chain : WalletParams) (file : Bytes) : Prop where
  length : 40 ≤ file.length
  magic : file.take 4 = [0xA8, 0xF0, 0x11, 0xC5]
  version : ¬ (file.drop 4).headD 0 > 1
  genesis : (file.drop 8).take 32 = chain.genesisblockhash.1

/-- The size of a file, cut to 32 bits, is not below that of a header. -/
def SizeFits (file : Bytes) : Prop := 40 ≤ (UInt32.ofNat file.length).toNat

instance (file : Bytes) : Decidable (SizeFits file) :=
  inferInstanceAs (Decidable (40 ≤ (UInt32.ofNat file.length).toNat))

/-- The header stays when something is written behind the file. -/
theorem HeaderRight.append (h : HeaderRight chain file) (tail : Bytes) :
    HeaderRight chain (file ++ tail) := by
  have hlen := h.length
  have hdrop : ∀ n, n ≤ 40 → (file ++ tail).drop n = file.drop n ++ tail := by
    intro n hn
    exact List.drop_append_of_le_length (by omega)
  have hinner : ∀ n, n ≤ 8 → (file.drop n).length = file.length - n := fun n _ => List.length_drop
  refine ⟨?_, ?_, ?_, ?_⟩
  · rw [List.length_append]
    omega
  · rw [List.take_append_of_le_length (by omega)]
    exact h.magic
  · rw [hdrop 4 (by omega)]
    have hversion := h.version
    have hne := hinner 4 (by omega)
    cases hcons : file.drop 4 with
    | nil =>
      rw [hcons] at hne
      change 0 = _ at hne
      omega
    | cons b rest =>
      rw [hcons] at hversion
      exact hversion
  · rw [hdrop 8 (by omega), List.take_append_of_le_length (by rw [hinner 8 (by omega)]; omega)]
    exact h.genesis

/-- A new wallet with a file. -/
def emptyLoaded (chain : WalletParams) (utxos : Utxos) (file : Bytes) : Loaded where
  wallet := { create chain with dbfile := file }
  utxos := utxos

/-- Loading a file that can be read to its end. -/
theorem load_of_scanFile (utxos : Utxos) (hheader : HeaderRight chain file) (hsize : SizeFits file)
    (hscan : scanFile file = some w) :
    load wp file chain utxos =
      (w.records.foldlM (applyRecord wp) (emptyLoaded chain utxos file)).map .loaded := by
  have hlen := hheader.length
  have hsize' : 40 ≤ (UInt32.ofNat file.length).toNat := hsize
  unfold load
  rw [if_neg (by rintro (h | h | h); omega; omega; exact h hheader.magic), if_neg hheader.version,
    if_neg (not_not.mpr hheader.genesis)]
  exact loadRecords_of_scan (by rw [List.length_drop]; omega) hscan _

/-- **A load succeeds** exactly if the header is right, the file can be read to its end and its
records can be applied. -/
theorem load_iff_scanFile {utxos : Utxos} :
    load wp file chain utxos = some (.loaded ld) ↔ HeaderRight chain file ∧ SizeFits file ∧
      ∃ w, scanFile file = some w ∧
        w.records.foldlM (applyRecord wp) (emptyLoaded chain utxos file) = some ld := by
  constructor
  · intro h
    have hload := h
    unfold load at h
    split_ifs at h with hmagic hversion hgenesis
    · cases h
    · cases h
    · cases h
    · rw [not_or, not_or, not_not] at hmagic
      have hheader : HeaderRight chain file :=
        ⟨not_lt.mp hmagic.2.1, hmagic.2.2, hversion, not_not.mp hgenesis⟩
      have hsize : SizeFits file := not_lt.mp hmagic.1
      obtain ⟨w, hw⟩ := scan_of_loadRecords (by rw [List.length_drop]; omega) h
      refine ⟨hheader, hsize, w, hw, ?_⟩
      rw [load_of_scanFile utxos hheader hsize hw] at hload
      obtain ⟨ld', hld', heq⟩ := Option.map_eq_some_iff.mp hload
      rw [hld', LoadResult.loaded.inj heq]
  · rintro ⟨hheader, hsize, w, hw, hld⟩
    rw [load_of_scanFile utxos hheader hsize hw, hld, Option.map_some]

/-! ## Records that were written -/

namespace FileRecord

/-- What is read back of a record. -/
def stored : FileRecord → FileRecord
  | masterpubkey str => masterpubkey str
  | addr waddr => addr waddr
  | tx wtx => tx (replayed wtx)

/-- The records that are found again in the file: a string of a key that is not longer than its
buffer, any address, and a transaction with inputs, whose lists and scripts can be counted, and
whose record is not longer than a message. -/
def Keeps : FileRecord → Prop
  | masterpubkey str => str ≠ [] ∧ str.length ≤ 196 ∧ 0 ∉ str
  | addr _ => True
  | tx wtx => wtx.tx.vin ≠ [] ∧ wtx.tx.Sized ∧ (walletWtxSerialize wtx).length ≤ 4000000

theorem replay_stored (wp : WalletPlatform) (s : Loaded) (r : FileRecord) :
    r.stored.replay wp s = r.replay wp s := by
  cases r with
  | masterpubkey str => rfl
  | addr waddr => rfl
  | tx wtx => rfl

end FileRecord

/-- The head of a record that was written. -/
theorem readHead_encodeRecord (record : Bytes) (type : UInt8) (tail : Bytes) :
    readHead (encodeRecord record type ++ tail) =
      some ((UInt32.ofNat record.length, type), record ++ tail) := by
  have hhead : encodeRecord record type ++ tail =
      fileRecMagic ++ (serVarlen (UInt32.ofNat record.length) ++ ([type] ++ (record ++ tail))) := by
    simp [encodeRecord]
  have hmagic : fileRecMagic.length = 4 := rfl
  have htype : ([type] : Bytes).length = 1 := rfl
  rw [readHead, hhead, deserBytes_append_of_length hmagic, Option.bind_some,
    if_neg (not_not.mpr rfl),
    deserVarlen_serVarlen, Option.bind_some, deserBytes_append_of_length htype, Option.map_some]
  rfl

/-- A record of one of the three types is read by its body. -/
theorem readRecord_encodeRecord (record : Bytes)
    (htype : type = recTypeMasterpubkey ∨ type = recTypeAddr ∨ type = recTypeTx) (tail : Bytes) :
    readRecord (encodeRecord record type ++ tail) =
      (readBody (UInt32.ofNat record.length) type (record ++ tail)).map fun q =>
        (some q.1, (encodeRecord record type ++ tail).length - q.2.length) := by
  rw [readRecord, readHead_encodeRecord, Option.bind_some, if_pos htype]

/-- A body that leaves what stands behind the record. -/
theorem readRecord_of_readBody {record : Bytes}
    (htype : type = recTypeMasterpubkey ∨ type = recTypeAddr ∨ type = recTypeTx)
    (hbody : readBody (UInt32.ofNat record.length) type (record ++ tail) = some (r, tail)) :
    readRecord (encodeRecord record type ++ tail) =
      some (some r, (encodeRecord record type).length) := by
  rw [readRecord_encodeRecord record htype, hbody, Option.map_some, List.length_append,
    Nat.add_sub_cancel_right]

/-- A string that is read back as it was written. -/
theorem readString_back {str strbuf : Bytes}
    (h : readString (serVarstr str ++ tail) = some (strbuf, rest)) (hsame : cstr strbuf = str) :
    str ≠ [] ∧ str.length ≤ 196 ∧ 0 ∉ str := by
  have hzero : ∀ X : Bytes, readString (serVarlen 0 ++ X) = none := by
    intro X
    rw [readString, deserVarlen_serVarlen]
    rfl
  unfold serVarstr at h
  split_ifs at h with hempty hlong
  · rw [hzero] at h
    cases h
  · rw [hzero] at h
    cases h
  · have hcount : (UInt32.ofNat str.length).toNat = str.length :=
      UInt32.toNat_ofNat_of_lt' (lt_of_le_of_lt (not_lt.mp hlong) (by decide))
    rw [readString, List.append_assoc, deserVarlen_serVarlen] at h
    change (if (UInt32.ofNat str.length).toNat > 196 ∨ UInt32.ofNat str.length = 0 then none
      else deserBytes (UInt32.ofNat str.length).toNat (str ++ tail)) = _ at h
    rw [hcount, deserBytes_append] at h
    split_ifs at h with hbounds
    obtain ⟨rfl, -⟩ := Prod.mk.inj (Option.some.inj h)
    rw [not_or, not_lt] at hbounds
    refine ⟨fun hnil => hempty (by rw [hnil]; rfl), hbounds.1, ?_⟩
    intro hmem
    unfold cstr at hsame
    rw [List.takeWhile_eq_self_iff] at hsame
    exact of_decide_eq_true (hsame 0 hmem) rfl

/-- A transaction that is read from a record, from its bytes behind the height and the hash. -/
theorem txDeserialize_of_walletWtxDeserialize (h : walletWtxDeserialize buf = some wtx) :
    ∃ txBuf rest, txBuf.length ≤ buf.length ∧ txDeserialize txBuf = some (wtx.tx, rest) := by
  unfold walletWtxDeserialize at h
  dsimp only at h
  obtain ⟨⟨tx, rest⟩, htx, hsome⟩ := Option.bind_eq_some_iff.mp h
  obtain rfl := Option.some.inj hsome
  refine ⟨_, rest, ?_, htx⟩
  have hheight : ((deserU32 buf).getD (0, buf)).2.length ≤ buf.length := by
    cases hread : deserU32 buf with
    | none => exact le_refl _
    | some p => exact (suffix_of_spans spans_deserU32 hread).length_le
  refine le_trans ?_ hheight
  generalize ((deserU32 buf).getD (0, buf)).2 = rest
  cases hread : deserU256 rest with
  | none => exact le_refl _
  | some p => exact (suffix_of_spans spans_deserU256 hread).length_le

/-- The part of a record in front of the transaction. -/
theorem length_walletWtxSerialize (wtx : Wtx) :
    (walletWtxSerialize wtx).length = 36 + (txSerialize wtx.tx).length := by
  simp only [walletWtxSerialize, serU256, List.length_append, length_serU32, wtx.txHashCache.2]

/-- What was written is read by its transaction. -/
theorem walletWtxDeserialize_eq (wtx : Wtx) :
    walletWtxDeserialize (walletWtxSerialize wtx) =
      (txDeserialize (txSerialize wtx.tx)).map fun p => { replayed wtx with tx := p.1 } := by
  unfold walletWtxDeserialize walletWtxSerialize
  rw [List.append_assoc]
  simp only [deserU32_serU32, deserU256_serU256, Option.getD_some]
  cases txDeserialize (txSerialize wtx.tx) with
  | none => rfl
  | some p => rfl

/-- A transaction that is read back from what was written has inputs and counts. -/
theorem keeps_of_walletWtxDeserialize
    (h : walletWtxDeserialize (walletWtxSerialize wtx) = some (replayed wtx)) :
    wtx.tx.vin ≠ [] ∧ wtx.tx.Sized := by
  rw [walletWtxDeserialize_eq] at h
  obtain ⟨⟨tx, rest⟩, htx, hsame⟩ := Option.map_eq_some_iff.mp h
  have htx' : tx = wtx.tx := congrArg Wtx.tx hsame
  subst htx'
  constructor
  · intro hvin
    have hlen := length_txSerialize_lt htx hvin
    omega
  · exact sized_of_txDeserializeEx htx

/-- A transaction that is read from the front of a record with its count is read from all of it. -/
theorem keeps_of_readTransaction
    (h : readTransaction (UInt32.ofNat (walletWtxSerialize wtx).length)
      (walletWtxSerialize wtx ++ tail) =
      some (.tx (replayed wtx), rest)) :
    wtx.tx.vin ≠ [] ∧ wtx.tx.Sized ∧ (walletWtxSerialize wtx).length ≤ 4000000 := by
  unfold readTransaction at h
  split_ifs at h with hbounds
  rw [not_or, gt_iff_lt, UInt32.not_lt, UInt32.le_iff_toNat_le] at hbounds
  have hmax : (UInt32.ofNat (walletWtxSerialize wtx).length).toNat ≤ 4000000 := hbounds.2
  obtain ⟨⟨record, rest'⟩, hrecord, hwtx⟩ := Option.bind_eq_some_iff.mp h
  obtain ⟨hcount, happend⟩ := deserBytes_eq_some hrecord
  dsimp only at hwtx
  have hread : walletWtxDeserialize record = some (replayed wtx) := by
    cases hcase : walletWtxDeserialize record with
    | none =>
      rw [hcase] at hwtx
      cases hwtx
    | some wtx' =>
      rw [hcase] at hwtx
      exact congrArg some (FileRecord.tx.inj (Prod.mk.inj (Option.some.inj hwtx)).1)
  -- the transaction is not longer than what it was read from, so the count was not cut
  obtain ⟨txBuf, txRest, hle, htx⟩ := txDeserialize_of_walletWtxDeserialize hread
  have hlen := length_txSerialize_le htx
  have htotal := length_walletWtxSerialize wtx
  change (txSerialize wtx.tx).length + _ ≤ _ at hlen
  have hnat : (UInt32.ofNat (walletWtxSerialize wtx).length).toNat =
    (walletWtxSerialize wtx).length :=
    UInt32.toNat_ofNat_of_lt' (by change _ < 2 ^ 32; omega)
  rw [hnat] at hcount hmax
  obtain rfl : walletWtxSerialize wtx = record := (List.append_inj happend hcount.symm).1
  obtain ⟨hvin, hsized⟩ := keeps_of_walletWtxDeserialize hread
  exact ⟨hvin, hsized, hmax⟩

/-- **Which records** are read back from what was written. -/
theorem written_encode : Written walletFormat FileRecord.encode
    (fun r => some r.stored) FileRecord.Keeps where
  short r := by
    have hlen : ∀ record type, 4 ≤ (encodeRecord record type).length := by
      intro record type
      simp [encodeRecord, fileRecMagic]
    cases r with
    | masterpubkey str => exact hlen _ _
    | addr waddr => exact hlen _ _
    | tx wtx => exact hlen _ _
  read {r} hkeeps tail := by
    cases r with
    | masterpubkey str =>
      obtain ⟨hne, hlen, hzero⟩ := hkeeps
      refine readRecord_of_readBody (Or.inl rfl) ?_
      rw [readBody, if_pos rfl, readMasterpubkey, List.append_assoc, readString_serVarstr hne hlen,
        Option.bind_some,
        readString_serVarstr hne hlen, Option.bind_some, if_neg (not_not.mpr rfl),
          cstr_of_notMem hzero]
      rfl
    | addr waddr =>
      refine readRecord_of_readBody (Or.inr (Or.inl rfl)) ?_
      rw [readBody, if_neg (by decide), if_pos rfl, readAddress,
        deserBytes_append_of_length (length_walletAddrSerialize waddr), Option.bind_some,
        walletAddrDeserialize_serialize]
      rfl
    | tx wtx =>
      obtain ⟨hvin, hsized, hlen⟩ := hkeeps
      have hcount : (UInt32.ofNat (walletWtxSerialize wtx).length).toNat =
        (walletWtxSerialize wtx).length :=
        UInt32.toNat_ofNat_of_lt' (lt_of_le_of_lt hlen (by decide))
      have hpos := length_walletWtxSerialize wtx
      have hbounds : ¬ (UInt32.ofNat (walletWtxSerialize wtx).length = 0 ∨
          UInt32.ofNat (walletWtxSerialize wtx).length > 4000000) := by
        rw [not_or, gt_iff_lt, UInt32.not_lt, UInt32.le_iff_toNat_le, hcount]
        refine ⟨?_, hlen⟩
        intro hzero
        rw [hzero] at hcount
        change 0 = _ at hcount
        omega
      refine readRecord_of_readBody (Or.inr (Or.inr rfl)) ?_
      rw [readBody, if_neg (by decide), if_neg (by decide), readTransaction, if_neg hbounds, hcount,
        deserBytes_append, Option.bind_some, walletWtxDeserialize_serialize hvin hsized]
      rfl
  back {r tail n} h := by
    have hbody : ∀ {record : Bytes} {type : UInt8} {x : FileRecord},
        (type = recTypeMasterpubkey ∨ type = recTypeAddr ∨ type = recTypeTx) →
          readRecord (encodeRecord record type ++ tail) = some (some x, n) →
            ∃ rest, readBody (UInt32.ofNat record.length) type (record ++ tail) =
              some (x, rest) := by
      intro record type x htype hread
      rw [readRecord_encodeRecord record htype] at hread
      obtain ⟨q, hq, heq⟩ := Option.map_eq_some_iff.mp hread
      exact ⟨q.2, by rw [hq, ← Option.some.inj (Prod.mk.inj heq).1]⟩
    cases r with
    | masterpubkey str =>
      obtain ⟨rest, hread⟩ := hbody (Or.inl rfl) h
      rw [readBody, if_pos rfl, List.append_assoc] at hread
      obtain ⟨p, hp, hnext⟩ := Option.bind_eq_some_iff.mp hread
      obtain ⟨q, -, hcheck⟩ := Option.bind_eq_some_iff.mp hnext
      split_ifs at hcheck
      exact readString_back hp (FileRecord.masterpubkey.inj
        (Prod.mk.inj (Option.some.inj hcheck)).1)
    | addr waddr => exact trivial
    | tx wtx =>
      obtain ⟨rest, hread⟩ := hbody (Or.inr (Or.inr rfl)) h
      rw [readBody, if_neg (by decide), if_neg (by decide)] at hread
      exact keeps_of_readTransaction hread

/-- A record starts with the magic. -/
theorem FileRecord.encode_eq_magic (r : FileRecord) : ∃ tail, r.encode = fileRecMagic ++ tail := by
  have h : ∀ record type, encodeRecord record type =
      fileRecMagic ++ (serVarlen (UInt32.ofNat record.length) ++ ([type] ++ record)) := by
    intro record type
    rw [encodeRecord, List.append_assoc, List.append_assoc]
  cases r with
  | masterpubkey str => exact ⟨_, h _ _⟩
  | addr waddr => exact ⟨_, h _ _⟩
  | tx wtx => exact ⟨_, h _ _⟩

/-! ## Writing behind a load -/

/-- `wallet_write_record` on the open file : the bytes of the file and the position in it. -/
def appendRecord (p : Bytes × ℕ) (r : FileRecord) : Bytes × ℕ :=
  (writeAt 0 p.1 p.2 r.encode, p.2 + r.encode.length)

/-- The file after records were written behind a load. -/
def appended (file : Bytes) (rs : List FileRecord) : Bytes :=
  match scanFile file with
  | none => file
  | some w => (rs.foldl appendRecord (file, 40 + w.position)).1

/-- The bytes at the end of a file that are too few for the magic of a record. -/
def strayBytes (file : Bytes) : Bytes :=
  match scanFile file with
  | none => []
  | some w => w.stray

/-- The wallet of another file. -/
def withFile (file : Bytes) (s : Loaded) :
    Loaded := { s with wallet := { s.wallet with dbfile := file } }

/-- The appended records are loaded behind those that were loaded before: the file holds them, and
the next load succeeds and applies them to what was loaded. -/
def ReadsBack (wp : WalletPlatform) (chain : WalletParams) (utxos : Utxos)
    (file : Bytes) (ld : Loaded) (rs : List FileRecord) : Prop :=
  (∃ w w', scanFile file = some w ∧ scanFile (appended file rs) = some w' ∧
    w'.records = w.records ++ rs.map fun r => some r.stored) ∧
  ∃ ld', load wp (appended file rs) chain utxos = some (.loaded ld') ∧
    rs.foldlM (FileRecord.replay wp) (withFile (appended file rs) ld) = some ld'

/-- The records are written one behind the other. -/
theorem foldl_appendRecord {pos : ℕ} (hpos : file.length ≤ pos) (rs : List FileRecord) :
    rs.foldl appendRecord (file, pos) =
      (writeAt 0 file pos (rs.flatMap FileRecord.encode),
        pos + (rs.flatMap FileRecord.encode).length) := by
  induction rs generalizing file pos with
  | nil => rfl
  | cons r rs ih =>
    have hne : r.encode ≠ [] := List.ne_nil_of_length_pos r.length_encode_pos
    have hlen : (writeAt 0 file pos r.encode).length ≤ pos + r.encode.length := by
      rw [writeAt_of_le hpos hne, List.length_append, List.length_append, List.length_replicate]
      omega
    rw [List.foldl_cons, appendRecord, ih hlen, writeAt_writeAt hpos hne, List.flatMap_cons,
      List.length_append, Nat.add_assoc]

/-- Where a file ends behind a load. -/
theorem appended_eq (hfile : 40 ≤ file.length) (hscan : scanFile file = some w) (hrs : rs ≠ []) :
    appended file rs = file ++ (List.replicate (40 + w.position - file.length) 0 ++
      rs.flatMap FileRecord.encode) := by
  have hposition := (Format.position_of_scanAll hscan).1
  rw [List.length_drop] at hposition
  have hne : rs.flatMap FileRecord.encode ≠ [] := by
    obtain ⟨r, rest, rfl⟩ := List.exists_cons_of_ne_nil hrs
    rw [List.flatMap_cons]
    exact fun h => List.ne_nil_of_length_pos r.length_encode_pos (List.append_eq_nil_iff.mp h).1
  rw [appended, hscan]
  dsimp only
  rw [foldl_appendRecord (by omega), writeAt_of_le (by omega) hne, List.append_assoc]

theorem appended_nil (file : Bytes) : appended file [] = file := by
  unfold appended
  cases scanFile file with
  | none => rfl
  | some w => rfl

/-- **The records of the file** after records were written behind a load. -/
theorem scanFile_appended (hfile : 40 ≤ file.length) (hscan : scanFile file = some w)
    (hrs : rs ≠ []) :
    scanFile (appended file rs) =
      (walletFormat.scanAll (w.stray ++ rs.flatMap FileRecord.encode)).map w.behind := by
  have hfill : (List.replicate (40 + w.position - file.length) (0 : UInt8)).length =
      w.position - (file.drop 40).length := by
    rw [List.length_replicate, List.length_drop]
    omega
  rw [appended_eq hfile hscan hrs, scanFile, List.drop_append_of_le_length hfile,
    ← List.append_assoc]
  exact Format.scanAll_append hscan hfill _

/-- No record starts inside the magic of another one. -/
theorem scanAll_stray {stray : Bytes} (hne : stray ≠ []) (hshort : stray.length < 4) :
    walletFormat.scanAll (stray ++ (fileRecMagic ++ rest)) = none := by
  have hmagic : (stray ++ (fileRecMagic ++ rest)).take 4 ≠ fileRecMagic := by
    intro h
    -- the magic does not overlap itself
    match stray, hne, hshort with
    | [a], _, _ => cases h
    | [a, b], _, _ => cases h
    | [a, b, c], _, _ => cases h
  have hlen : 4 ≤ (stray ++ (fileRecMagic ++ rest)).length := by
    rw [List.length_append, List.length_append]
    exact le_trans (Nat.le_add_right 4 rest.length) (Nat.le_add_left _ _)
  refine Format.scanAll_eq_none hlen ?_
  show readRecord _ = none
  rw [readRecord, readHead_eq hlen, if_pos hmagic, Option.bind_none]

/-- Behind stray bytes nothing is read. -/
theorem stray_of_scanFile_appended {w' : Scan UInt8 (Option FileRecord)} (hfile : 40 ≤ file.length)
    (hscan : scanFile file = some w) (hrs : rs ≠ []) (h : scanFile (appended file rs) = some w') :
    w.stray = [] := by
  rw [scanFile_appended hfile hscan hrs] at h
  obtain ⟨w₂, hw₂, -⟩ := Option.map_eq_some_iff.mp h
  by_contra hne
  obtain ⟨r, rest, rfl⟩ := List.exists_cons_of_ne_nil hrs
  obtain ⟨tail, htail⟩ := r.encode_eq_magic
  rw [List.flatMap_cons, htail, List.append_assoc,
    scanAll_stray hne (Format.position_of_scanAll hscan).2.2.1] at hw₂
  cases hw₂

/-! ## Loading again -/

theorem addWtxInternMove_withFile (w : Wallet) (utxos : Utxos) (wtx : Wtx) (file : Bytes) :
    ({ w with dbfile := file } : Wallet).addWtxInternMove utxos wtx =
      { w.addWtxInternMove utxos wtx with dbfile := file } := by
  have henter : ({ w with dbfile := file } : Wallet).enterWtx wtx =
    { w.enterWtx wtx with dbfile := file } := by
    unfold Wallet.enterWtx
    dsimp only
    cases w.wtxesTree.find wtx.txHashCache with
    | none => rfl
    | some checkwtx => rfl
  unfold addWtxInternMove
  rw [henter]
  show (if (w.enterWtx wtx).isFromMe utxos wtx.tx = true then _ else _) = _
  dsimp only
  split_ifs
  · rfl
  · rfl

/-- What a record does does not depend on the bytes of the file. -/
theorem applyRecord_withFile (file : Bytes) (s : Loaded) (r : Option FileRecord) :
    applyRecord wp (withFile file s) r = (applyRecord wp s r).map (withFile file) := by
  cases r with
  | none => rfl
  | some r =>
    cases r with
    | masterpubkey str =>
      show (if str.length ≥ 196 then none else some _) =
        (if str.length ≥ 196 then none else some _).map _
      split_ifs
      · rfl
      · rfl
    | addr waddr =>
      show some _ = some _
      congr 1
      unfold withFile enterWaddr
      dsimp only
      split_ifs
      · rfl
      · rfl
    | tx wtx =>
      show ((s.wallet.scrapeUtxos wp (replayed wtx) s.utxos).bind _) =
        ((s.wallet.scrapeUtxos wp (replayed wtx) s.utxos).bind _).map _
      cases s.wallet.scrapeUtxos wp (replayed wtx) s.utxos with
      | none => rfl
      | some utxos => exact congrArg some (congrArg (fun w => Loaded.mk w utxos)
          (addWtxInternMove_withFile s.wallet utxos (replayed wtx) file))

theorem foldlM_withFile (file : Bytes) (s : Loaded) (rs : List (Option FileRecord)) :
    rs.foldlM (applyRecord wp) (withFile file s) =
      (rs.foldlM (applyRecord wp) s).map (withFile file) := by
  induction rs generalizing s with
  | nil => rfl
  | cons r rs ih =>
    rw [List.foldlM_cons, List.foldlM_cons, applyRecord_withFile]
    cases applyRecord wp s r with
    | none => rfl
    | some s' => exact ih s'

/-- Records are applied as they were written. -/
theorem foldlM_stored (s : Loaded) (rs : List FileRecord) :
    (rs.map fun r => some r.stored).foldlM (applyRecord wp) s = rs.foldlM
    (FileRecord.replay wp) s := by
  rw [List.foldlM_map]
  congr 1
  funext s r
  exact FileRecord.replay_stored wp s r

/-! ## Records that a load applies -/

/-- The hash in the script of an output is not read behind its end. -/
def HashReadable (script : Bytes) :
    Prop := 20 ≤ script.length ∧ (OnlyOps script ∨ 23 ≤ script.length)

instance (script : Bytes) : Decidable (HashReadable script) := inferInstanceAs (Decidable (_ ∧ _))

/-- The records can be applied to a wallet that has an address, or has none: the string of a key
ends inside of its buffer, and when there is an address the scripts of a transaction are scraped. -/
def Appliable : Bool → List FileRecord → Prop
  | _, [] => True
  | listed, .masterpubkey str :: rs => str.length < 196 ∧ Appliable listed rs
  | listed, .addr waddr :: rs => Appliable (listed || decide (waddr.ignore = 0)) rs
  | listed, .tx wtx :: rs =>
    (∀ txOut ∈ wtx.tx.vout, listed = true → txOut.scriptPubkey ≠ [] →
      HashReadable txOut.scriptPubkey) ∧
      Appliable listed rs

/-- The wallet has an address. -/
def listed (s : Loaded) : Bool := !s.wallet.waddrVector.isEmpty

theorem scrapable_iff {w : Wallet} {txOut : TxOut} : w.Scrapable wp txOut ↔
    ((!w.waddrVector.isEmpty) = true → txOut.scriptPubkey ≠ [] →
      HashReadable txOut.scriptPubkey) := by
  have hread : (pubkeyHashToP2pkhAddress wp txOut.scriptPubkey w.chain).isSome = true ↔
      HashReadable txOut.scriptPubkey := by
    unfold HashReadable
    rw [pubkeyHashToP2pkhAddress_eq]
    split_ifs with h
    · exact iff_of_true rfl h
    · exact iff_of_false Bool.false_ne_true h
  unfold Scrapable
  rw [hread, List.length_eq_zero_iff, List.length_eq_zero_iff, Bool.not_eq_true',
    List.isEmpty_eq_false_iff]
  tauto

theorem waddrVector_addWtxInternMove (w : Wallet) (utxos : Utxos) (wtx : Wtx) :
    (w.addWtxInternMove utxos wtx).waddrVector = w.waddrVector := by
  unfold addWtxInternMove enterWtx recordSpends
  dsimp only
  split
  · split_ifs
    · rfl
    · rfl
  · split_ifs
    · rfl
    · rfl

theorem listed_enterWaddr (s : Loaded) (waddr : WalletAddr) :
    listed { s with wallet := s.wallet.enterWaddr waddr } =
      (listed s || decide (waddr.ignore = 0)) := by
  unfold listed enterWaddr
  dsimp only
  split_ifs with hignore
  · simp [hignore]
  · simp [hignore]

/-- **Which records are applied**, one behind the other. -/
theorem foldlM_replay_isSome_iff (rs : List FileRecord) (s : Loaded) :
    (rs.foldlM (FileRecord.replay wp) s).isSome = true ↔ Appliable (listed s) rs := by
  induction rs generalizing s with
  | nil => exact iff_of_true rfl trivial
  | cons r rs ih =>
    rw [List.foldlM_cons]
    cases r with
    | masterpubkey str =>
      by_cases hlong : str.length ≥ 196
      · have hnone : FileRecord.replay wp s (.masterpubkey str) = none := if_pos hlong
        rw [hnone]
        exact iff_of_false Bool.false_ne_true fun h => absurd h.1 (not_lt.mpr hlong)
      · rw [FileRecord.replay_masterpubkey (not_le.mp hlong)]
        exact (ih _).trans (and_iff_right (not_le.mp hlong)).symm
    | addr waddr =>
      show (rs.foldlM (FileRecord.replay wp)
        { s with wallet := s.wallet.enterWaddr waddr }).isSome = true ↔
        Appliable (listed s || decide (waddr.ignore = 0)) rs
      rw [ih, listed_enterWaddr]
    | tx wtx =>
      have hscrape := scrapeUtxos_isSome_iff wp s.wallet (replayed wtx) s.utxos
      simp only [scrapable_iff] at hscrape
      show ((((s.wallet.scrapeUtxos wp (replayed wtx) s.utxos).bind _).bind _).isSome = true) ↔
        _ ∧ Appliable (listed s) rs
      cases hutxos : s.wallet.scrapeUtxos wp (replayed wtx) s.utxos with
      | none =>
        rw [hutxos] at hscrape
        exact iff_of_false Bool.false_ne_true fun h => Bool.false_ne_true (hscrape.mpr h.1)
      | some utxos =>
        rw [hutxos] at hscrape
        have hlisted : listed ⟨s.wallet.addWtxInternMove utxos (replayed wtx), utxos⟩ =
          listed s := by
          unfold listed
          rw [waddrVector_addWtxInternMove]
        have hrest := ih ⟨s.wallet.addWtxInternMove utxos (replayed wtx), utxos⟩
        rw [hlisted] at hrest
        exact hrest.trans (and_iff_right (hscrape.mp rfl)).symm

/-- **What is written behind a load** is loaded again, behind what had been loaded, exactly if
nothing is written, or if no stray bytes were at the end of the file, the size of the file is not
cut below a header, every record is one that is found again, and the records can be applied to what
was loaded. -/
theorem readsBack_iff {chain : WalletParams} {utxos : Utxos} {file : Bytes} {ld : Loaded}
    (h : load wp file chain utxos = some (.loaded ld)) (rs : List FileRecord) :
    ReadsBack wp chain utxos file ld rs ↔
      rs = [] ∨ (strayBytes file = [] ∧ SizeFits (appended file rs) ∧ (∀ r ∈ rs, r.Keeps) ∧
        Appliable (listed ld) rs) := by
  obtain ⟨hheader, hsize, w, hscan, hold⟩ := load_iff_scanFile.mp h
  have hstray : strayBytes file = w.stray := by rw [strayBytes, hscan]
  by_cases hrs : rs = []
  · -- nothing is written, and the same file is loaded again
    refine iff_of_true ⟨⟨w, w, hscan, ?_, ?_⟩, ld, ?_, ?_⟩ (Or.inl hrs)
    · rw [hrs, appended_nil, hscan]
    · rw [hrs, List.map_nil, List.append_nil]
    · rw [hrs, appended_nil, h]
    · have hstart : withFile file (emptyLoaded chain utxos file) =
        emptyLoaded chain utxos file := rfl
      have hsame := @foldlM_withFile wp file (emptyLoaded chain utxos file) w.records
      rw [hstart, hold, Option.map_some] at hsame
      rw [hrs, appended_nil]
      exact hsame.symm
  · have happended := appended_eq hheader.length hscan hrs
    have hheader' : HeaderRight chain (appended file rs) := by
      rw [happended]
      exact hheader.append _
    have hscan' := scanFile_appended hheader.length hscan hrs
    rw [or_iff_right hrs, hstray]
    constructor
    · rintro ⟨⟨w₁, w', hw₁, hw', hrecords⟩, ld', hload, hfold⟩
      obtain rfl := Option.some.inj (hscan.symm.trans hw₁)
      have hnone := stray_of_scanFile_appended hheader.length hscan hrs hw'
      rw [hscan'] at hw'
      obtain ⟨w₂, hw₂, rfl⟩ := Option.map_eq_some_iff.mp hw'
      obtain ⟨-, hfits, -⟩ := load_iff_scanFile.mp hload
      refine ⟨hnone, hfits, ?_, ?_⟩
      · rw [hnone, List.nil_append] at hw₂
        exact written_encode.scanAll_iff.mp ⟨w₂, hw₂, List.append_cancel_left hrecords⟩
      · exact (foldlM_replay_isSome_iff rs (withFile (appended file rs) ld)).mp
          (Option.isSome_of_eq_some hfold)
    · rintro ⟨hnone, hfits, hkeeps, happly⟩
      rw [hnone, List.nil_append, written_encode.scanAll_flatMap hkeeps, Option.map_some] at hscan'
      obtain ⟨ld', hfold⟩ := Option.isSome_iff_exists.mp
        ((foldlM_replay_isSome_iff rs (withFile (appended file rs) ld)).mpr happly)
      refine ⟨⟨w, _, hscan, hscan', rfl⟩, ld', ?_, hfold⟩
      -- the old records are applied first, to a wallet of the longer file
      rw [load_of_scanFile utxos hheader' hfits hscan']
      show ((w.records ++ rs.map fun r => some r.stored).foldlM (applyRecord wp)
        (withFile (appended file rs) (emptyLoaded chain utxos file))).map LoadResult.loaded = _
      rw [List.foldlM_append, foldlM_withFile, hold, Option.map_some]
      show (((rs.map fun r => some r.stored).foldlM (applyRecord wp)
        (withFile (appended file rs) ld)).map LoadResult.loaded) = _
      rw [foldlM_stored, hfold, Option.map_some]

/-! ## A torn write -/

/-- A new wallet file. -/
def newFile : Bytes := (create sampleWalletParams).dbfile

/-- The same file, with the first byte of a record whose write was torn. -/
def tornFile : Bytes := newFile ++ [0xC8]

/-- An address to write. -/
def sampleAppended : FileRecord := .addr
    { pubkeyhash := sampleHash160 1, type := 0, childindex := 0, ignore := 0 }

/-- No unspent outputs. -/
def noUtxos : Utxos where
  table := []
  nextIdx := 0

/-- The records of a wallet that was paid: its master key, an address and the payment. -/
def usedRecords : List FileRecord :=
  [.masterpubkey (hdnodeSerializePublic sampleWallet sampleMaster sampleWalletParams),
    sampleAppended, .tx ⟨Uint256.zero, Uint256.zero, 1, samplePayment⟩]

/-- Its file. -/
def usedFile : Bytes := fileOf sampleWalletParams usedRecords

/-- Another address, and a payment from the wallet. -/
def spendRecords : List FileRecord :=
  [.addr { pubkeyhash := sampleHash160 2, type := 0, childindex := 1, ignore := 0 },
    .tx ⟨txHash sampleWallet.toPlatform sampleSpend, Uint256.zero, 2, sampleSpend⟩]

/-- The theorem on the file with three records and two more behind them. -/
theorem readsBack_usedFile :
    ∃ ld, load sampleWallet usedFile sampleWalletParams noUtxos = some (.loaded ld) ∧
      ReadsBack sampleWallet sampleWalletParams noUtxos usedFile ld spendRecords := by
  have hload : (load sampleWallet usedFile sampleWalletParams noUtxos).any (fun result =>
      match result with
      | .loaded ld => listed ld && ld.wallet.vecWtxes.length = 1
      | .failed => false) = true := by decide +kernel
  obtain ⟨result, hresult, hlisted⟩ := (Option.any_eq_true _ _).mp hload
  cases result with
  | failed => cases hlisted
  | loaded ld =>
    obtain ⟨hlisted, -⟩ := Bool.and_eq_true_iff.mp hlisted
    refine ⟨ld, hresult, (readsBack_iff hresult spendRecords).mpr (Or.inr ⟨?_, ?_, ?_, ?_⟩)⟩
    · decide +kernel
    · decide +kernel
    · exact List.forall_mem_cons.mpr ⟨trivial, List.forall_mem_singleton.mpr
        ⟨by decide +kernel, by decide +kernel, by decide +kernel⟩⟩
    · rw [hlisted]
      exact ⟨List.forall_mem_singleton.mpr (by decide +kernel), trivial⟩

/-- The torn file is loaded. With an address behind it, it is not. -/
theorem not_readsBack_tornFile :
    load sampleWallet tornFile sampleWalletParams noUtxos =
        some (.loaded (emptyLoaded sampleWalletParams noUtxos tornFile)) ∧
      sampleAppended.Keeps ∧
      load sampleWallet (appended tornFile [sampleAppended]) sampleWalletParams noUtxos =
        some .failed ∧
      ¬ ReadsBack sampleWallet sampleWalletParams noUtxos tornFile
        (emptyLoaded sampleWalletParams noUtxos tornFile) [sampleAppended] := by
  have hfailed : load sampleWallet (appended tornFile [sampleAppended]) sampleWalletParams noUtxos =
    some .failed := rfl
  refine ⟨rfl, trivial, hfailed, ?_⟩
  rintro ⟨-, ld, hload, -⟩
  rw [hfailed] at hload
  cases hload

end Wallet

end Libdogecoin
