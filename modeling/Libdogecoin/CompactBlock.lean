/-
# Compact blocks

The three messages of `compact_block.c` that carry a block by short ids: `cmpctblock`, `getblocktxn`
and `blocktxn`. Indices are written as differences, modulo 2^32 in both directions.

* `setHeaderRaw` : the header as it came over the wire, which is the only form that keeps a proof;
* `compactBlockDeserialize_serialize`, `getblocktxnDeserialize_serialize`,
  `blocktxnDeserialize_serialize` : each message is read back;
* `relay_roundTrip` : all three.
-/
import Libdogecoin.ChainRead
import Libdogecoin.HeaderSpan

namespace Libdogecoin

open ChainRead

/-! ## Records -/

/-- `SHORTTXID_LENGTH`. -/
def SHORTTXID_LENGTH : ℕ := 6

/-- `CMPCTBLOCK_HEADER_BASE_SIZE`. -/
def CMPCTBLOCK_HEADER_BASE_SIZE : ℕ := 80

/-- A short id. -/
abbrev ShortId := {id : Bytes // id.length = SHORTTXID_LENGTH}

/-- A count and a pointer to as many entries, which may be null. -/
structure Counted (α : Type) where
  count : UInt32
  data : Option (List α)
  length_data : ∀ xs, data = some xs → xs.length = count.toNat

/-- The entries behind the pointer. -/
def Counted.entries {α : Type} (a : Counted α) : List α := a.data.getD []

/-- A count of entries comes with the entries. -/
def Counted.Present {α : Type} (a : Counted α) : Prop := 0 < a.count → a.data.isSome

/-- No entries, before anything is read. -/
def Counted.empty (α : Type) : Counted α where
  count := 0
  data := none
  length_data := fun _ h => by cases h

/-- `dogecoin_prefilled_tx`. -/
structure PrefilledTx where
  index : UInt32
  tx : Option Tx

/-- The bytes that `dogecoin_compact_block_set_header_raw` accepts. -/
abbrev HeaderRaw :=
  {bytes : Bytes // CMPCTBLOCK_HEADER_BASE_SIZE ≤ bytes.length ∧
    bytes.length ≤ DOGECOIN_MAX_P2P_MSG_SIZE}

/-- `dogecoin_compact_block`. -/
structure CompactBlock where
  header : FullHeader
  headerRaw : Option HeaderRaw
  nonce : UInt64
  sipkeyK0 : UInt64
  sipkeyK1 : UInt64
  shortIds : Counted ShortId
  prefilledTxs : Counted PrefilledTx

/-- `dogecoin_getblocktxn`. -/
structure GetBlockTxn where
  blockhash : Uint256
  indices : Counted UInt32

/-- `dogecoin_blocktxn`. -/
structure BlockTxn where
  blockhash : Uint256
  txs : Counted (Option Tx)

/-- `dogecoin_compact_block_set_header_raw`. -/
def setHeaderRaw (bytes : Bytes) : Option HeaderRaw :=
  if h : CMPCTBLOCK_HEADER_BASE_SIZE ≤ bytes.length ∧ bytes.length ≤ DOGECOIN_MAX_P2P_MSG_SIZE then
    some ⟨bytes, h⟩
  else none

/-- `dogecoin_compact_block_derive_sipkeys_raw`. -/
def deriveSipkeysRaw (pf : Platform) (headerSer : Bytes) (nonce : UInt64) : UInt64 × UInt64 :=
  let hash := pf.sha256Raw (headerSer ++ serU64 nonce)
  (UInt64.ofNat (LittleEndian.ofBytes (hash.1.take 8)),
    UInt64.ofNat (LittleEndian.ofBytes ((hash.1.drop 8).take 8)))

/-! ## Differences -/

/-- What is written for an index behind the last one. -/
def diffOf (last : Option UInt32) (index : UInt32) : UInt32 :=
  match last with
  | none => index
  | some last => index - last - 1

/-- The index of a difference. -/
def indexOf (last : Option UInt32) (diff : UInt32) : UInt32 :=
  match last with
  | none => diff
  | some last => last + diff + 1

/-- The differences are undone, also where they wrap. -/
theorem indexOf_diffOf (last : Option UInt32) (index : UInt32) :
    indexOf last (diffOf last index) = index := by
  cases last with
  | none => rfl
  | some last =>
    show last + (index - last - 1) + 1 = index
    rw [UInt32.add_assoc, UInt32.sub_add_cancel, UInt32.add_comm, UInt32.sub_add_cancel]

/-! ## Reading and writing -/

/-- The entries of an array. -/
def deserEntries {α : Type} (item : Option α → Bytes → Option (α × Bytes))
    (count : UInt32) (buf : Bytes) :
    Option (Counted α × Bytes) :=
  match h : readChain item count.toNat none buf with
  | none => none
  | some (xs, rest) =>
    some ({ count := count, data := some xs
            length_data := fun _ heq => Option.some.inj heq ▸ length_of_readChain h }, rest)

/-- An array behind its count, which is at most the number of bytes that are left. -/
def deserCounted {α : Type} (item : Option α → Bytes → Option (α × Bytes)) (buf : Bytes) :
    Option (Counted α × Bytes) := do
  let (count, rest) ← deserVarlen buf
  if count = 0 then some (Counted.empty α, rest)
  else if count.toNat > rest.length then none
  else deserEntries item count rest

/-- One short id. -/
def deserShortId (buf : Bytes) : Option (ShortId × Bytes) :=
  if h : SHORTTXID_LENGTH ≤ buf.length then
    some (⟨buf.take SHORTTXID_LENGTH, by rw [List.length_take, Nat.min_eq_left h]⟩,
      buf.drop SHORTTXID_LENGTH)
  else none

/-- The short ids, if there are bytes for all of them. -/
def deserShortIds (buf : Bytes) : Option (Counted ShortId × Bytes) := do
  let (count, rest) ← deserVarlen buf
  if count = 0 then some (Counted.empty ShortId, rest)
  else if rest.length < count.toNat * SHORTTXID_LENGTH then none
  else deserEntries (fun _ => deserShortId) count rest

/-- A prefilled transaction behind the one before. -/
def serPrefilled (last : Option PrefilledTx) (ptx : PrefilledTx) : Option Bytes :=
  ptx.tx.bind fun tx => (txSerialized tx).map fun bytes =>
    serVarlen (diffOf (last.map PrefilledTx.index) ptx.index) ++ bytes

/-- The reverse of it. -/
def deserPrefilled (last : Option PrefilledTx) (buf : Bytes) : Option (PrefilledTx × Bytes) := do
  let (diff, rest) ← deserVarlen buf
  let (tx, rest) ← txDeserialize rest
  some ({ index := indexOf (last.map PrefilledTx.index) diff, tx := some tx }, rest)

/-- The header of a compact block, if it can be written. -/
def CompactBlock.wireHeader (cmpctblk : CompactBlock) : Option Bytes :=
  match cmpctblk.headerRaw.filter fun raw => CMPCTBLOCK_HEADER_BASE_SIZE ≤ raw.1.length with
  | some raw => some raw.1
  | none =>
    if cmpctblk.header.base.version &&& 0x100 = 0 then
      some (blockHeaderSerialize cmpctblk.header.base)
    else none

/-- `dogecoin_compact_block_serialize` : the bytes that are appended, or a refusal. The outer option
is the return from it, which needs all transactions. -/
def compactBlockSerialize (cmpctblk : CompactBlock) : Option (Option Bytes) :=
  if 0 < cmpctblk.shortIds.count ∧ cmpctblk.shortIds.data.isNone then some none
  else if 0 < cmpctblk.prefilledTxs.count ∧ cmpctblk.prefilledTxs.data.isNone then some none
  else
    match cmpctblk.wireHeader with
    | none => some none
    | some header =>
      (writeChain serPrefilled none cmpctblk.prefilledTxs.entries).map fun txs =>
        some (header ++ serU64 cmpctblk.nonce ++
          (serVarlen cmpctblk.shortIds.count ++ cmpctblk.shortIds.entries.flatMap Subtype.val) ++
          (serVarlen cmpctblk.prefilledTxs.count ++ txs))

/-- `dogecoin_compact_block_deserialize` into a new compact block, with the unread rest. -/
def compactBlockDeserialize (pf : Platform) (params : ChainParams) (buf : Bytes) :
    Option (CompactBlock × Bytes) :=
  if buf.length < CMPCTBLOCK_HEADER_BASE_SIZE then none
  else do
    let (header, _, rest) ← blockHeaderDeserialize pf buf params
    let headerRaw ← setHeaderRaw (buf.take (buf.length - rest.length))
    let (nonce, rest) ← deserU64 rest
    let keys := deriveSipkeysRaw pf headerRaw.1 nonce
    let (shortIds, rest) ← deserShortIds rest
    let (prefilledTxs, rest) ← deserCounted deserPrefilled rest
    some ({ header := header, headerRaw := some headerRaw, nonce := nonce, sipkeyK0 := keys.1
            sipkeyK1 := keys.2, shortIds := shortIds, prefilledTxs := prefilledTxs }, rest)

/-- An index of `getblocktxn` behind the one before. -/
def serIndex (last : Option UInt32) (index : UInt32) :
    Option Bytes := some (serVarlen (diffOf last index))

/-- The reverse of it. -/
def deserIndex (last : Option UInt32) (buf : Bytes) : Option (UInt32 × Bytes) :=
  (deserVarlen buf).map fun (diff, rest) => (indexOf last diff, rest)

/-- `dogecoin_getblocktxn_serialize`, which reads the indices without a check of the pointer. -/
def getblocktxnSerialize (req : GetBlockTxn) : Option Bytes :=
  if 0 < req.indices.count ∧ req.indices.data.isNone then none
  else (writeChain serIndex none req.indices.entries).map fun indices =>
    serU256 req.blockhash ++ (serVarlen req.indices.count ++ indices)

/-- `dogecoin_getblocktxn_deserialize`. -/
def getblocktxnDeserialize (buf : Bytes) : Option (GetBlockTxn × Bytes) := do
  let (blockhash, rest) ← deserU256 buf
  let (indices, rest) ← deserCounted deserIndex rest
  some ({ blockhash := blockhash, indices := indices }, rest)

/-- A transaction of `blocktxn` : a missing one is skipped. -/
def serTx (tx : Option Tx) : Option Bytes :=
  match tx with
  | none => some []
  | some tx => txSerialized tx

/-- `dogecoin_blocktxn_serialize`. -/
def blocktxnSerialize (resp : BlockTxn) : Option Bytes :=
  if 0 < resp.txs.count ∧ resp.txs.data.isNone then none
  else (writeChain (fun _ => serTx) none resp.txs.entries).map fun txs =>
    serU256 resp.blockhash ++ (serVarlen resp.txs.count ++ txs)

/-- `dogecoin_blocktxn_deserialize`. -/
def blocktxnDeserialize (buf : Bytes) : Option (BlockTxn × Bytes) := do
  let (blockhash, rest) ← deserU256 buf
  let (txs, rest) ← deserCounted (fun _ buf => (txDeserialize buf).map fun (tx, rest) =>
    (some tx, rest)) rest
  some ({ blockhash := blockhash, txs := txs }, rest)

/-! ## Arrays -/

theorem Counted.length_entries {α : Type} {a : Counted α} (h : a.Present) :
    a.entries.length = a.count.toNat := by
  unfold Counted.entries
  cases hdata : a.data with
  | none =>
    have hzero : ¬ 0 < a.count := fun hpos => by
      have hsome := h hpos
      rw [hdata] at hsome
      cases hsome
    rw [UInt32.lt_iff_toNat_lt, UInt32.toNat_zero] at hzero
    exact (Nat.eq_zero_of_not_pos hzero).symm
  | some xs => exact a.length_data xs hdata

theorem Counted.entries_eq_nil {α : Type} {a : Counted α} (h : a.Present) (hzero : a.count = 0) :
    a.entries = [] := by
  apply List.eq_nil_of_length_eq_zero
  rw [Counted.length_entries h, hzero]
  rfl

/-- No pointer is refused, where the entries are there. -/
theorem Counted.Present.not_isNone {α : Type} {a : Counted α} (h : a.Present) :
    ¬ (0 < a.count ∧ a.data.isNone = true) := by
  rintro ⟨hpos, hnone⟩
  have hsome := h hpos
  rw [Option.isNone_iff_eq_none.mp hnone] at hsome
  cases hsome

theorem deserEntries_of_readChain {α : Type} {item : Option α → Bytes → Option (α × Bytes)}
    {count : UInt32} {buf rest : Bytes} {xs : List α}
    (h : readChain item count.toNat none buf = some (xs, rest)) :
    ∃ a, deserEntries item count buf = some (a, rest) ∧ a.count = count ∧ a.entries = xs := by
  unfold deserEntries
  split
  next hnone =>
    rw [h] at hnone
    cases hnone
  next xs' rest' hsome =>
    rw [h] at hsome
    cases hsome
    exact ⟨_, rfl, rfl, rfl⟩

section

variable {α : Type} {item : Option α → Bytes → Option (α × Bytes)}
  {write : Option α → α → Option Bytes}
  {a : Counted α}

/-- **Arrays** are read back with their counts. -/
theorem deserCounted_writeChain (hpresent : a.Present)
    (hback : ∀ x ∈ a.entries, ReadBack item write x) :
    ∃ bytes, writeChain write none a.entries = some bytes ∧
      ∀ rest, ∃ a', deserCounted item (serVarlen a.count ++ bytes ++ rest) = some (a', rest) ∧
        a'.count = a.count ∧ a'.entries = a.entries := by
  have hlength := Counted.length_entries hpresent
  obtain ⟨bytes, hwrite, hlen, hread⟩ := readChain_writeChain hback none
  refine ⟨bytes, hwrite, fun rest => ?_⟩
  unfold deserCounted
  rw [List.append_assoc]
  simp only [deserVarlen_serVarlen, Option.bind_eq_bind, Option.bind_some]
  by_cases hzero : a.count = 0
  · rw [if_pos hzero]
    have hnil := Counted.entries_eq_nil hpresent hzero
    rw [hnil] at hwrite
    cases hwrite
    exact ⟨_, rfl, hzero.symm, hnil.symm⟩
  · rw [if_neg hzero, if_neg (by rw [List.length_append]; omega)]
    rw [hlength] at hread
    exact deserEntries_of_readChain (hread rest)

end

/-! ## Short ids -/

theorem readBack_shortId (id : ShortId) :
    ReadBack (fun _ => deserShortId) (fun _ id => some id.1) id := by
  intro prev
  refine ⟨id.1, rfl, ?_, fun rest => ?_⟩
  · intro hnil
    have hlen := id.2
    rw [hnil] at hlen
    cases hlen
  · have hle : SHORTTXID_LENGTH ≤ (id.1 ++ rest).length := by
      rw [List.length_append, id.2]
      exact Nat.le_add_right _ _
    dsimp only [deserShortId]
    rw [dif_pos hle]
    simp only [List.take_left' id.2, List.drop_left' id.2]

theorem writeChain_shortIds (ids : List ShortId) (prev : Option ShortId) :
    writeChain (fun _ id => some id.1) prev ids = some (ids.flatMap Subtype.val) := by
  induction ids generalizing prev with
  | nil => rfl
  | cons id ids ih =>
    rw [writeChain, Option.bind_some, ih, Option.map_some, List.flatMap_cons]

theorem length_flatMap_shortIds (ids : List ShortId) :
    (ids.flatMap Subtype.val).length = ids.length * SHORTTXID_LENGTH := by
  induction ids with
  | nil => exact (Nat.zero_mul _).symm
  | cons id ids ih => rw [List.flatMap_cons, List.length_append, ih, id.2,
      List.length_cons, Nat.succ_mul, Nat.add_comm]

theorem deserShortIds_serialize {a : Counted ShortId} (hpresent : a.Present) (rest : Bytes) :
    ∃ a', deserShortIds (serVarlen a.count ++ a.entries.flatMap Subtype.val ++ rest) =
      some (a', rest) ∧
      a'.count = a.count ∧ a'.entries = a.entries := by
  have hlength := Counted.length_entries hpresent
  obtain ⟨bytes, hwrite, -, hread⟩ :=
    readChain_writeChain (fun id (_ : id ∈ a.entries) => readBack_shortId id) none
  obtain rfl := Option.some.inj ((writeChain_shortIds _ _).symm.trans hwrite)
  unfold deserShortIds
  rw [List.append_assoc]
  simp only [deserVarlen_serVarlen, Option.bind_eq_bind, Option.bind_some]
  by_cases hzero : a.count = 0
  · rw [if_pos hzero]
    rw [Counted.entries_eq_nil hpresent hzero]
    exact ⟨_, rfl, hzero.symm, rfl⟩
  · rw [if_neg hzero, if_neg (by rw [List.length_append, length_flatMap_shortIds, hlength]; omega)]
    rw [hlength] at hread
    exact deserEntries_of_readChain (hread rest)

/-! ## Transactions and indices -/

/-- A transaction with an input, in the sizes of the wire. -/
def Carried (tx : Option Tx) : Prop := ∃ t, tx = some t ∧ t.Sized ∧ t.vin ≠ []

theorem serVarlen_ne_nil (v : UInt32) : serVarlen v ≠ [] := by
  unfold serVarlen
  split_ifs <;> simp

theorem txDeserialize_serialize {tx : Tx} (hsized : tx.Sized) (hvin : tx.vin ≠ []) (rest : Bytes) :
    txDeserialize (txSerialize tx ++ rest) = some (tx, rest) :=
  txDeserializeEx_serialize hsized (fun _ => hvin) rest

theorem readBack_prefilled {ptx : PrefilledTx} (h : Carried ptx.tx) :
    ReadBack deserPrefilled serPrefilled ptx := by
  obtain ⟨tx, htx, hsized, hvin⟩ := h
  intro prev
  have hwrite : serPrefilled prev ptx =
      some (serVarlen (diffOf (prev.map PrefilledTx.index) ptx.index) ++ txSerialize tx) := by
    rw [serPrefilled, htx, Option.bind_some, txSerialized_eq_some hsized.vin hsized.vout,
      Option.map_some]
  refine ⟨_, hwrite, fun hnil => serVarlen_ne_nil _ (List.append_eq_nil_iff.mp hnil).1,
    fun rest => ?_⟩
  unfold deserPrefilled
  rw [List.append_assoc]
  simp only [deserVarlen_serVarlen, txDeserialize_serialize hsized hvin, indexOf_diffOf,
    Option.bind_eq_bind, Option.bind_some, ← htx]

theorem readBack_index (index : UInt32) : ReadBack deserIndex serIndex index := by
  intro prev
  refine ⟨_, rfl, serVarlen_ne_nil _, fun rest => ?_⟩
  unfold deserIndex
  rw [deserVarlen_serVarlen, Option.map_some]
  dsimp only
  rw [indexOf_diffOf]

theorem readBack_tx {tx : Option Tx} (h : Carried tx) :
    ReadBack (fun _ buf => (txDeserialize buf).map fun (tx, rest) => (some tx, rest))
      (fun _ => serTx) tx := by
  obtain ⟨t, rfl, hsized, hvin⟩ := h
  intro prev
  refine ⟨_, txSerialized_eq_some hsized.vin hsized.vout, ?_, fun rest => ?_⟩
  · unfold txSerialize
    simp [serVarlen_ne_nil]
  · dsimp only
    rw [txDeserialize_serialize hsized hvin, Option.map_some]

/-! ## Headers -/

/-- The header that goes over the wire: one without a proof, or bytes that were read as a header
from a message that went on behind them. -/
def CompactBlock.HeaderIs (cmpctblk : CompactBlock) (pf : Platform) (params : ChainParams)
    (h : FullHeader) :
    Prop :=
  (cmpctblk.headerRaw = none ∧ isAuxpow cmpctblk.header.base.version = false ∧
      h = { base := cmpctblk.header.base, auxpowIs := false, auxpowPayload := none }) ∨
    ∃ raw rest work, cmpctblk.headerRaw = some raw ∧ rest ≠ [] ∧
      blockHeaderDeserialize pf (raw.1 ++ rest) params = some (h, work, rest)

/-- A header with a proof needs its message in the bounds of one. -/
def FitsMessage (h : FullHeader) (bytes : Bytes) : Prop :=
  isAuxpow h.base.version = true → bytes.length ≤ 80 + DOGECOIN_MAX_P2P_MSG_SIZE

theorem wireHeader_of_headerIs {cmpctblk : CompactBlock} {pf : Platform} {params : ChainParams}
    {h : FullHeader} (hheader : cmpctblk.HeaderIs pf params h) :
    ∃ header : HeaderRaw, cmpctblk.wireHeader = some header.1 ∧
      ∀ t, FitsMessage h (header.1 ++ t) →
        ∃ work, blockHeaderDeserialize pf (header.1 ++ t) params = some (h, work, t) := by
  rcases hheader with ⟨hraw, hplain, rfl⟩ | ⟨raw, rest, work, hraw, hrest, hdeser⟩
  · have hbit : ¬ cmpctblk.header.base.version &&& 0x100 ≠ 0 := by
      rw [← isAuxpow_iff, hplain]
      exact Bool.false_ne_true
    have hlength := length_blockHeaderSerialize cmpctblk.header.base
    refine ⟨⟨blockHeaderSerialize cmpctblk.header.base, by rw [hlength]; decide⟩, ?_, fun t _ => ?_⟩
    · rw [CompactBlock.wireHeader, hraw, Option.filter_none]
      exact if_pos (not_not.mp hbit)
    · have hcond : ¬ (cmpctblk.header.base.version &&& 0x100 ≠ 0 ∧ t.length ≠ 0) :=
        fun hboth => hbit hboth.1
      refine ⟨initArithUint256, ?_⟩
      simp only [blockHeaderDeserialize, blockHeaderParse, baseHeaderDeserialize_serialize,
        if_neg hcond, blockHeaderValidate, Option.bind_eq_bind, Option.bind_some]
  · obtain ⟨hparse, hvalidate⟩ := blockHeaderDeserialize_eq_some hdeser
    obtain ⟨span, hspan, -, hread⟩ := blockHeaderParse_span hparse hrest
    obtain rfl := List.append_cancel_right hspan
    refine ⟨raw, ?_, fun t ht => ⟨work, ?_⟩⟩
    · rw [CompactBlock.wireHeader, hraw, Option.filter_some, if_pos (decide_eq_true raw.2.1)]
    · simp only [blockHeaderDeserialize, hread t ht, hvalidate, Option.bind_eq_bind,
        Option.bind_some]

/-! ## Messages -/

/-- **`cmpctblock`** is read back behind its header. -/
theorem compactBlockDeserialize_serialize {cmpctblk : CompactBlock} {pf : Platform}
    {params : ChainParams} {h : FullHeader} (hheader : cmpctblk.HeaderIs pf params h)
    (hids : cmpctblk.shortIds.Present)
    (hpresent : cmpctblk.prefilledTxs.Present)
    (hcarried : ∀ ptx ∈ cmpctblk.prefilledTxs.entries, Carried ptx.tx) :
    ∃ bytes, compactBlockSerialize cmpctblk = some (some bytes) ∧
      ∀ rest, FitsMessage h (bytes ++ rest) →
        ∃ cmpctblk', compactBlockDeserialize pf params (bytes ++ rest) = some (cmpctblk', rest) ∧
          cmpctblk'.nonce = cmpctblk.nonce ∧
          cmpctblk'.shortIds.count = cmpctblk.shortIds.count ∧
          cmpctblk'.shortIds.entries = cmpctblk.shortIds.entries ∧
          cmpctblk'.prefilledTxs.count = cmpctblk.prefilledTxs.count ∧
          cmpctblk'.prefilledTxs.entries = cmpctblk.prefilledTxs.entries := by
  obtain ⟨header, hwire, hread⟩ := wireHeader_of_headerIs hheader
  obtain ⟨txs, hwrite, htxs⟩ := deserCounted_writeChain hpresent fun ptx hptx =>
    readBack_prefilled (hcarried ptx hptx)
  have hser : compactBlockSerialize cmpctblk = some (some (header.1 ++ serU64 cmpctblk.nonce ++
      (serVarlen cmpctblk.shortIds.count ++ cmpctblk.shortIds.entries.flatMap Subtype.val) ++
      (serVarlen cmpctblk.prefilledTxs.count ++ txs))) := by
    rw [compactBlockSerialize, if_neg hids.not_isNone, if_neg hpresent.not_isNone, hwire]
    dsimp only
    rw [hwrite, Option.map_some]
  refine ⟨_, hser, fun rest hfits => ?_⟩
  obtain ⟨prefilledTxs, hprefilled, hpcount, hpentries⟩ := htxs rest
  obtain ⟨shortIds, hshort, hcount, hentries⟩ := deserShortIds_serialize hids
    (serVarlen cmpctblk.prefilledTxs.count ++ txs ++ rest)
  simp only [List.append_assoc] at hfits hprefilled hshort ⊢
  obtain ⟨work, hdeser⟩ := hread _ hfits
  refine ⟨{ header := h, headerRaw := some header, nonce := cmpctblk.nonce
            sipkeyK0 := (deriveSipkeysRaw pf header.1 cmpctblk.nonce).1
            sipkeyK1 := (deriveSipkeysRaw pf header.1 cmpctblk.nonce).2
            shortIds := shortIds, prefilledTxs := prefilledTxs }, ?_, rfl, hcount, hentries,
              hpcount, hpentries⟩
  have hraw : ∀ t, setHeaderRaw ((header.1 ++ t).take ((header.1 ++ t).length - t.length)) =
    some header := by
    intro t
    rw [List.length_append, Nat.add_sub_cancel, List.take_left, setHeaderRaw, dif_pos header.2]
  have hlong : ∀ t, ¬ (header.1 ++ t).length < CMPCTBLOCK_HEADER_BASE_SIZE := by
    intro t
    have hbase := header.2.1
    rw [List.length_append]
    omega
  rw [compactBlockDeserialize, if_neg (hlong _)]
  simp only [hdeser, hraw, deserU64_serU64, hshort, hprefilled, Option.bind_eq_bind,
    Option.bind_some]

/-- **`getblocktxn`** is read back. -/
theorem getblocktxnDeserialize_serialize {req : GetBlockTxn} (hpresent : req.indices.Present) :
    ∃ bytes, getblocktxnSerialize req = some bytes ∧
      ∀ rest, ∃ req', getblocktxnDeserialize (bytes ++ rest) = some (req', rest) ∧
        req'.blockhash = req.blockhash ∧ req'.indices.count = req.indices.count ∧
        req'.indices.entries = req.indices.entries := by
  obtain ⟨indices, hwrite, hread⟩ := deserCounted_writeChain hpresent fun index _ =>
    readBack_index index
  have hser : getblocktxnSerialize req =
    some (serU256 req.blockhash ++ (serVarlen req.indices.count ++ indices)) := by
    rw [getblocktxnSerialize, if_neg hpresent.not_isNone, hwrite, Option.map_some]
  refine ⟨_, hser, fun rest => ?_⟩
  obtain ⟨array, harray, hcount, hentries⟩ := hread rest
  refine ⟨{ blockhash := req.blockhash, indices := array }, ?_, rfl, hcount, hentries⟩
  rw [getblocktxnDeserialize, List.append_assoc]
  simp only [deserU256_serU256, harray, Option.bind_eq_bind, Option.bind_some]

/-- **`blocktxn`** is read back. -/
theorem blocktxnDeserialize_serialize {resp : BlockTxn} (hpresent : resp.txs.Present)
    (hcarried : ∀ tx ∈ resp.txs.entries, Carried tx) :
    ∃ bytes, blocktxnSerialize resp = some bytes ∧
      ∀ rest, ∃ resp', blocktxnDeserialize (bytes ++ rest) = some (resp', rest) ∧
        resp'.blockhash = resp.blockhash ∧ resp'.txs.count = resp.txs.count ∧
        resp'.txs.entries = resp.txs.entries := by
  obtain ⟨txs, hwrite, hread⟩ := deserCounted_writeChain hpresent fun tx htx =>
    readBack_tx (hcarried tx htx)
  have hser : blocktxnSerialize resp =
    some (serU256 resp.blockhash ++ (serVarlen resp.txs.count ++ txs)) := by
    rw [blocktxnSerialize, if_neg hpresent.not_isNone, hwrite, Option.map_some]
  refine ⟨_, hser, fun rest => ?_⟩
  obtain ⟨array, harray, hcount, hentries⟩ := hread rest
  refine ⟨{ blockhash := resp.blockhash, txs := array }, ?_, rfl, hcount, hentries⟩
  rw [blocktxnDeserialize, List.append_assoc]
  simp only [deserU256_serU256, harray, Option.bind_eq_bind, Option.bind_some]

/-- **Relay.** Each of the three messages is read back from what is written for it, in front of any
rest: compact blocks with a plain header or a retained one, with any nonce and short ids; any
indices; and transactions with an input in the sizes of the wire. -/
theorem relay_roundTrip (pf : Platform) (params : ChainParams) :
    (∀ (cmpctblk : CompactBlock) (h : FullHeader), cmpctblk.HeaderIs pf params h →
      cmpctblk.shortIds.Present → cmpctblk.prefilledTxs.Present →
      (∀ ptx ∈ cmpctblk.prefilledTxs.entries, Carried ptx.tx) →
      ∃ bytes, compactBlockSerialize cmpctblk = some (some bytes) ∧
        ∀ rest, FitsMessage h (bytes ++ rest) →
          ∃ cmpctblk', compactBlockDeserialize pf params (bytes ++ rest) = some (cmpctblk', rest) ∧
            cmpctblk'.nonce = cmpctblk.nonce ∧
            cmpctblk'.shortIds.count = cmpctblk.shortIds.count ∧
            cmpctblk'.shortIds.entries = cmpctblk.shortIds.entries ∧
            cmpctblk'.prefilledTxs.count = cmpctblk.prefilledTxs.count ∧
            cmpctblk'.prefilledTxs.entries = cmpctblk.prefilledTxs.entries) ∧
    (∀ req : GetBlockTxn, req.indices.Present →
      ∃ bytes, getblocktxnSerialize req = some bytes ∧
        ∀ rest, ∃ req', getblocktxnDeserialize (bytes ++ rest) = some (req', rest) ∧
          req'.blockhash = req.blockhash ∧ req'.indices.count = req.indices.count ∧
          req'.indices.entries = req.indices.entries) ∧
    (∀ resp : BlockTxn, resp.txs.Present → (∀ tx ∈ resp.txs.entries, Carried tx) →
      ∃ bytes, blocktxnSerialize resp = some bytes ∧
        ∀ rest, ∃ resp', blocktxnDeserialize (bytes ++ rest) = some (resp', rest) ∧
          resp'.blockhash = resp.blockhash ∧ resp'.txs.count = resp.txs.count ∧
          resp'.txs.entries = resp.txs.entries) :=
  ⟨fun _ _ hheader hids hpresent hcarried =>
    compactBlockDeserialize_serialize hheader hids hpresent hcarried,
    fun _ hpresent => getblocktxnDeserialize_serialize hpresent,
    fun _ hpresent hcarried => blocktxnDeserialize_serialize hpresent hcarried⟩

/-- One entry. -/
def Counted.single {α : Type} (x : α) : Counted α where
  count := 1
  data := some [x]
  length_data := fun _ h => Option.some.inj h ▸ rfl

/-- A compact block with a plain header, one short id and one prefilled transaction. -/
def sampleCompactBlock (tx : Tx) : CompactBlock where
  header := ⟨sampleHeader 1 Uint256.zero Uint256.zero 0, false, none⟩
  headerRaw := none
  nonce := 7
  sipkeyK0 := 0
  sipkeyK1 := 0
  shortIds := Counted.single ⟨[1, 2, 3, 4, 5, 6], rfl⟩
  prefilledTxs := Counted.single ⟨0xffffffff, some tx⟩

/-- Two entries. -/
def Counted.pair {α : Type} (x y : α) : Counted α where
  count := 2
  data := some [x, y]
  length_data := fun _ h => Option.some.inj h ▸ rfl

/-- A transaction that spends and pays. -/
def carriedTx (n : UInt32) : Tx := ⟨1, [⟨⟨Uint256.zero, n⟩, [0x51], 0⟩], [⟨5, [0x52, 0x53]⟩], 0⟩

/-- A compact block with two short ids and two prefilled transactions, one of them at the last
index. -/
def relayedBlock : CompactBlock :=
  { sampleCompactBlock (carriedTx 0) with
    shortIds := Counted.pair ⟨[1, 2, 3, 4, 5, 6], rfl⟩ ⟨[6, 5, 4, 3, 2, 1], rfl⟩
    prefilledTxs := Counted.pair ⟨0, some (carriedTx 0)⟩ ⟨0xffffffff, some (carriedTx 1)⟩ }

/-- The theorem on this block, a request for the first and the last index, and the answer to it. -/
theorem relay_roundTrip_pair :
    (∃ bytes cmpctblk', compactBlockSerialize relayedBlock = some (some bytes) ∧
      compactBlockDeserialize samplePlatform dogecoinChainparamsMain bytes = some (cmpctblk', []) ∧
      cmpctblk'.nonce = 7 ∧ cmpctblk'.shortIds.entries = relayedBlock.shortIds.entries ∧
      cmpctblk'.prefilledTxs.entries = relayedBlock.prefilledTxs.entries) ∧
    (∃ bytes req', getblocktxnSerialize ⟨hashNo 1, Counted.pair 0 0xffffffff⟩ = some bytes ∧
      getblocktxnDeserialize bytes = some (req', []) ∧ req'.indices.entries = [0, 0xffffffff]) ∧
    ∃ bytes resp', blocktxnSerialize ⟨hashNo 1,
      Counted.pair (some (carriedTx 0)) (some (carriedTx 1))⟩ = some bytes ∧
      blocktxnDeserialize bytes = some (resp', []) ∧ resp'.txs.entries =
        [some (carriedTx 0), some (carriedTx 1)] := by
  obtain ⟨hblock, hreq, hresp⟩ := relay_roundTrip samplePlatform dogecoinChainparamsMain
  have hcarried : ∀ n ∈ ([0, 1] : List UInt32), Carried (some (carriedTx n)) :=
    List.forall_mem_cons.mpr ⟨⟨_, rfl, by decide, List.cons_ne_nil _ _⟩,
      List.forall_mem_singleton.mpr ⟨_, rfl, by decide, List.cons_ne_nil _ _⟩⟩
  refine ⟨?_, ?_, ?_⟩
  · obtain ⟨bytes, hser, hback⟩ :=
      hblock relayedBlock _ (Or.inl ⟨rfl, by decide, rfl⟩) (fun _ => rfl) (fun _ => rfl)
      (by simpa [relayedBlock, Counted.pair, Counted.entries] using hcarried)
    obtain ⟨cmpctblk', hread, hnonce, -, hids, -, hprefilled⟩ := hback [] fun haux =>
      absurd haux (by decide)
    rw [List.append_nil] at hread
    exact ⟨bytes, cmpctblk', hser, hread, hnonce, hids, hprefilled⟩
  · obtain ⟨bytes, hser, hback⟩ := hreq ⟨hashNo 1, Counted.pair 0 0xffffffff⟩ fun _ => rfl
    obtain ⟨req', hread, -, -, hentries⟩ := hback []
    rw [List.append_nil] at hread
    exact ⟨bytes, req', hser, hread, hentries⟩
  · obtain ⟨bytes, hser, hback⟩ :=
      hresp ⟨hashNo 1, Counted.pair (some (carriedTx 0)) (some (carriedTx 1))⟩
      (fun _ => rfl) (by simpa [Counted.pair, Counted.entries] using hcarried)
    obtain ⟨resp', hread, -, -, hentries⟩ := hback []
    rw [List.append_nil] at hread
    exact ⟨bytes, resp', hser, hread, hentries⟩

/-- With 2^32 outputs in a prefilled transaction `dogecoin_compact_block_serialize` does not
return. -/
theorem not_relay_roundTrip :
    ¬ ∀ (cmpctblk : CompactBlock) (h : FullHeader),
      cmpctblk.HeaderIs samplePlatform dogecoinChainparamsMain h →
      cmpctblk.shortIds.Present → cmpctblk.prefilledTxs.Present →
      (∀ ptx ∈ cmpctblk.prefilledTxs.entries, ∃ tx, ptx.tx = some tx ∧ tx.vin ≠ []) →
      ∃ bytes, compactBlockSerialize cmpctblk = some (some bytes) := by
  intro hall
  obtain ⟨bytes, hser⟩ := hall
    (sampleCompactBlock ⟨1, [⟨⟨Uint256.zero, 0⟩, [], 0⟩], List.replicate (2 ^ 32) ⟨0, []⟩, 0⟩) _
    (Or.inl ⟨rfl, by decide, rfl⟩) (fun _ => rfl) (fun _ => rfl) (fun ptx hptx => by
      rw [List.mem_singleton.mp hptx]
      exact ⟨_, rfl, List.cons_ne_nil _ _⟩)
  have hlong : txSerialized ⟨1, [⟨⟨Uint256.zero, 0⟩, [], 0⟩], List.replicate (2 ^ 32) ⟨0, []⟩, 0⟩ =
    none := by
    have hvector : serVector txOutSerialize (List.replicate (2 ^ 32) ⟨0, []⟩) = none := by
      rw [serVector, if_neg (by rw [List.length_replicate]; omega)]
    simp only [txSerialized, hvector, Option.bind_eq_bind, Option.bind_none, Option.bind_fun_none]
  have hchain : writeChain serPrefilled none (sampleCompactBlock
      ⟨1, [⟨⟨Uint256.zero, 0⟩, [], 0⟩], List.replicate (2 ^ 32) ⟨0, []⟩, 0⟩).prefilledTxs.entries =
        none := by
    show (serPrefilled none ⟨0xffffffff, some _⟩).bind _ = none
    rw [serPrefilled, Option.bind_some, hlong]
    rfl
  have hheader : (sampleCompactBlock
      ⟨1, [⟨⟨Uint256.zero, 0⟩, [], 0⟩], List.replicate (2 ^ 32) ⟨0, []⟩, 0⟩).wireHeader =
        some (blockHeaderSerialize (sampleHeader 1 Uint256.zero Uint256.zero 0)) := rfl
  rw [compactBlockSerialize, if_neg (fun h => Bool.false_ne_true h.2),
    if_neg (fun h => Bool.false_ne_true h.2), hheader] at hser
  dsimp only at hser
  rw [hchain] at hser
  cases hser

end Libdogecoin
