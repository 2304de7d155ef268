/-
# The headers of one message

What the loop of `par_hdr_recv` reads from a message does not depend on the segment: a list of
headers, and sometimes a last one whose AuxPoW blob cannot be skipped. `Batch.parse` reads them, and
`stageBatch` puts them into a segment.

* `recvHeaders_eq` : the loop parses the message and stages what it has read;
* `staged_stageBatch`, `tipHash_stageBatch` : what is staged behind the loop, and the new tip;
* `Batch.parse_copies` : a message of equal headers.
-/
import Libdogecoin.ParHdr

namespace Libdogecoin

variable {pf : Platform} {params : ChainParams} {h : BlockHeader}

/-! ## Raw headers -/

/-- The header in 80 bytes. -/
def rawHeader (raw : Bytes) : BlockHeader :=
  ((baseHeaderDeserialize raw).map Prod.fst).getD emptyHeader.base

/-- Its hash. -/
def rawHash (pf : Platform) (raw : Bytes) : Uint256 := blockHeaderHash pf (rawHeader raw)

@[simp] theorem rawHeader_serialize (h : BlockHeader) : rawHeader (blockHeaderSerialize h) = h := by
  have hbase := baseHeaderDeserialize_serialize h []
  rw [List.append_nil] at hbase
  rw [rawHeader, hbase]
  rfl

theorem deserU32_of_le {buf : Bytes} (h : 4 ≤ buf.length) :
    deserU32 buf = some (UInt32.ofNat (LittleEndian.ofBytes (buf.take 4)), buf.drop 4) := by
  rw [deserU32, deserBytes, if_neg (by omega)]
  rfl

theorem deserU256_of_le {buf : Bytes} (h : 32 ≤ buf.length) :
    ∃ v : Uint256, deserU256 buf = some (v, buf.drop 32) ∧ v.1 = buf.take 32 := by
  refine ⟨⟨buf.take 32, by rw [List.length_take]; omega⟩, ?_, rfl⟩
  rw [deserU256, dif_neg (by omega)]

/-- Eighty bytes are a header, whose parent is named from the fourth byte on. -/
theorem baseHeaderDeserialize_of_le {buf : Bytes} (h : 80 ≤ buf.length) :
    ∃ base : BlockHeader, baseHeaderDeserialize buf = some (base, buf.drop 80) ∧
      base.prevBlock.1 = (buf.drop 4).take 32 := by
  have h4 := @deserU32_of_le buf (by omega)
  obtain ⟨prev, hprev, hval⟩ := @deserU256_of_le (buf.drop 4) (by simp; omega)
  obtain ⟨root, hroot, -⟩ := @deserU256_of_le ((buf.drop 4).drop 32) (by simp; omega)
  have h72 := @deserU32_of_le (((buf.drop 4).drop 32).drop 32) (by simp; omega)
  have h76 := @deserU32_of_le ((((buf.drop 4).drop 32).drop 32).drop 4) (by simp; omega)
  have h80 := @deserU32_of_le (((((buf.drop 4).drop 32).drop 32).drop 4).drop 4)
    (by simp; omega)
  have hdrop : (((((buf.drop 4).drop 32).drop 32).drop 4).drop 4).drop 4 = buf.drop 80 := by
    simp only [List.drop_drop]
  simp only [baseHeaderDeserialize, h4, hprev, hroot, h72, h76, h80, hdrop, Option.bind_eq_bind,
    Option.bind_some]
  exact ⟨_, rfl, hval⟩

/-- Eighty bytes deserialize: no proof is looked for behind them. -/
theorem blockHeaderDeserialize_raw {raw : Bytes} (h : raw.length = 80) :
    blockHeaderDeserialize pf raw params =
      some ({ base := rawHeader raw, auxpowIs := false, auxpowPayload := none },
        initArithUint256, []) := by
  obtain ⟨base, hbase, -⟩ := baseHeaderDeserialize_of_le (Nat.le_of_eq h.symm)
  have hrest : raw.drop 80 = [] := List.drop_eq_nil_of_le (Nat.le_of_eq h)
  rw [hrest] at hbase
  have hraw : rawHeader raw = base := by
    rw [rawHeader, hbase]
    rfl
  simp [blockHeaderDeserialize, blockHeaderParse, hbase, blockHeaderValidate, hraw]

/-- The parent that the source compares with the tip is the parent of the first header. -/
theorem prevBlock_rawHeader {buf : Bytes} (h : 80 ≤ buf.length) :
    (rawHeader (buf.take 80)).prevBlock.1 = (buf.drop 4).take 32 := by
  obtain ⟨base, hbase, hprev⟩ := @baseHeaderDeserialize_of_le (buf.take 80) (by simp; omega)
  rw [rawHeader, hbase]
  show base.prevBlock.1 = _
  rw [hprev, List.drop_take, List.take_take]
  rfl

/-! ## Parsing a message -/

/-- A header of a message: its 80 bytes, and all that was read for it. -/
structure WireHeader where
  raw : Bytes
  record : Bytes

/-- The headers that the loop stages, and the one at whose proof it stops, if any. -/
structure Batch where
  headers : List WireHeader
  broken : Option Bytes

namespace Batch

/-- One more header in front. -/
def cons (w : WireHeader) (b : Batch) : Batch := { b with headers := w :: b.headers }

/-- What is read from a message that announces `n` headers. -/
def parse : ℕ → Bytes → Batch
  | 0, _ => { headers := [], broken := none }
  | n + 1, buf =>
    if buf.length < PAR_HDR_RAW_LEN then { headers := [], broken := none }
    else
      match SpvClient.skipProof buf (buf.drop PAR_HDR_RAW_LEN) with
      | none => { headers := [], broken := some (buf.take PAR_HDR_RAW_LEN) }
      | some rest =>
        let w : WireHeader :=
          { raw := buf.take PAR_HDR_RAW_LEN, record := buf.take (buf.length - rest.length) }
        match deserVarlen rest with
        | none => { headers := [w], broken := none }
        | some (_, rest) => (parse n rest).cons w

/-- What the counter of staged bytes grows by. -/
def bytes (b : Batch) : ℕ :=
  (b.headers.length + if b.broken.isSome then 1 else 0) * PAR_HDR_RAW_LEN

@[simp] theorem bytes_cons (w : WireHeader) (b : Batch) :
    (b.cons w).bytes = b.bytes + PAR_HDR_RAW_LEN := by
  rw [bytes, bytes, cons, List.length_cons, Nat.add_right_comm, Nat.add_one_mul]

end Batch

/-- One header is staged. -/
def stageHeader (pf : Platform) (seg : ParHdrSeg) (w : WireHeader) : ParHdrSeg :=
  (seg.copyHeader w.raw).advance (rawHash pf w.raw) w.record

/-- The headers of a message are staged. One at which the loop stops is copied, but not counted. -/
def stageBatch (pf : Platform) (b : Batch) (seg : ParHdrSeg) : ParHdrSeg :=
  let staged := b.headers.foldl (stageHeader pf) seg
  match b.broken with
  | none => staged
  | some raw => staged.copyHeader raw

/-- **The loop of `par_hdr_recv`.** -/
theorem recvHeaders_eq (n : ℕ) (seg : ParHdrSeg) (buffered : ℕ) (buf : Bytes) :
    SpvClient.recvHeaders pf params n seg buffered buf =
      (stageBatch pf (Batch.parse n buf) seg, buffered + (Batch.parse n buf).bytes) := by
  induction n generalizing seg buffered buf with
  | zero => rfl
  | succ n ih =>
    rw [SpvClient.recvHeaders, SpvClient.recvHeader, Batch.parse]
    by_cases hlen : buf.length < PAR_HDR_RAW_LEN
    · rw [if_pos hlen, if_pos hlen]
      rfl
    rw [if_neg hlen, if_neg hlen]
    have hraw : (buf.take PAR_HDR_RAW_LEN).length = 80 := by
      rw [List.length_take]
      exact Nat.min_eq_left (Nat.le_of_not_lt hlen)
    cases hskip : SpvClient.skipProof buf (buf.drop PAR_HDR_RAW_LEN) with
    | none =>
      simp only [stageBatch, Batch.bytes, List.foldl_nil, List.length_nil, Option.isSome_some,
        if_true, Nat.zero_add, Nat.one_mul]
    | some rest =>
      simp only [blockHeaderDeserialize_raw hraw]
      cases hvar : deserVarlen rest with
      | none =>
        simp only [Option.map_none, stageBatch, stageHeader, Batch.bytes, List.foldl_cons,
          List.foldl_nil, List.length_cons, List.length_nil, Option.isSome_none, rawHash,
          Bool.false_eq_true, if_false, Nat.zero_add, Nat.add_zero, Nat.one_mul]
      | some x =>
        obtain ⟨v, rest'⟩ := x
        simp only [Option.map_some, ih, Batch.bytes_cons]
        refine Prod.ext rfl ?_
        show buffered + PAR_HDR_RAW_LEN + _ = buffered + (_ + PAR_HDR_RAW_LEN)
        omega

/-! ## The staged segment -/

variable {seg : ParHdrSeg}

/-- What every staged and every copied header keeps holds behind the loop. -/
theorem stageBatch_induction {P : ParHdrSeg → Prop}
    (hstage : ∀ seg w, P seg → P (stageHeader pf seg w))
    (hcopy : ∀ seg raw, P seg → P (seg.copyHeader raw)) (b : Batch) (h : P seg) :
    P (stageBatch pf b seg) := by
  have hfold : ∀ (ws : List WireHeader) (seg : ParHdrSeg), P seg →
    P (ws.foldl (stageHeader pf) seg) := by
    intro ws
    induction ws with
    | nil => exact fun _ h => h
    | cons w ws ih => exact fun seg h => ih _ (hstage seg w h)
  unfold stageBatch
  cases b.broken with
  | none => exact hfold _ _ h
  | some raw => exact hcopy _ raw (hfold _ _ h)

/-- Staging changes the buffer and the tip, nothing else. -/
structure StagedFrom (seg seg' : ParHdrSeg) : Prop where
  startHeight : seg'.startHeight = seg.startHeight
  startHash : seg'.startHash = seg.startHash
  stopHeight : seg'.stopHeight = seg.stopHeight
  stopHash : seg'.stopHash = seg.stopHash
  nodeId : seg'.nodeId = seg.nodeId
  shadowId : seg'.shadowId = seg.shadowId
  complete : seg'.complete = seg.complete
  flushed : seg'.flushed = seg.flushed
  flushFails : seg'.flushFails = seg.flushFails

theorem stagedFrom_stageBatch (b : Batch) (seg : ParHdrSeg) :
    StagedFrom seg (stageBatch pf b seg) :=
  stageBatch_induction (P := StagedFrom seg)
    (fun _ _ h => ⟨h.1, h.2, h.3, h.4, h.5, h.6, h.7, h.8, h.9⟩)
    (fun _ _ h => ⟨h.1, h.2, h.3, h.4, h.5, h.6, h.7, h.8, h.9⟩) b
    ⟨rfl, rfl, rfl, rfl, rfl, rfl, rfl, rfl, rfl⟩

/-- The buffer of a segment has room for what is staged. -/
def Roomy (seg : ParHdrSeg) : Prop :=
  (0 < seg.count → seg.buf.isSome = true) ∧ seg.count ≤ seg.cap

theorem le_grown_cap (seg : ParHdrSeg) (raw : Bytes) (h : seg.count ≤ seg.cap) :
    seg.count + 1 ≤ (seg.copyHeader raw).cap := by
  unfold ParHdrSeg.copyHeader
  dsimp only
  split_ifs with hfull hzero
  · omega
  · omega
  · omega

theorem roomy_stageBatch (b : Batch) (h : Roomy seg) : Roomy (stageBatch pf b seg) := by
  refine stageBatch_induction (fun seg w hr => ?_) (fun seg raw hr => ?_) b h
  · exact ⟨fun _ => rfl, le_grown_cap seg w.raw hr.2⟩
  · exact ⟨fun _ => rfl, Nat.le_of_succ_le (le_grown_cap seg raw hr.2)⟩

/-- All staged headers are in the buffer. -/
def Full (seg : ParHdrSeg) : Prop := seg.count ≤ (seg.buf.getD []).length

theorem length_copyHeader (raw : Bytes) (h : Full seg) :
    ((seg.copyHeader raw).buf.getD []).length = seg.count + 1 := by
  show ((seg.buf.getD []).take seg.count ++ [raw]).length = seg.count + 1
  rw [List.length_append, List.length_take, Nat.min_eq_left h, List.length_singleton]

theorem full_stageHeader (w : WireHeader) (h : Full seg) : Full (stageHeader pf seg w) :=
  Nat.le_of_eq (length_copyHeader w.raw h).symm

theorem full_copyHeader (raw : Bytes) (h : Full seg) : Full (seg.copyHeader raw) := by
  show seg.count ≤ _
  rw [length_copyHeader raw h]
  exact Nat.le_succ _

theorem full_stageBatch (b : Batch) (h : Full seg) : Full (stageBatch pf b seg) :=
  stageBatch_induction (fun _ w hf => full_stageHeader w hf) (fun _ raw hf =>
    full_copyHeader raw hf) b h

theorem staged_stageHeader (w : WireHeader) (h : Full seg) :
    (stageHeader pf seg w).staged = seg.staged ++ [w.raw] := by
  show ((seg.buf.getD []).take seg.count ++ [w.raw]).take (seg.count + 1) = _
  rw [List.take_of_length_le]
  · rfl
  · exact Nat.le_of_eq (length_copyHeader w.raw h)

theorem staged_copyHeader (raw : Bytes) (h : Full seg) :
    (seg.copyHeader raw).staged = seg.staged := by
  show ((seg.buf.getD []).take seg.count ++ [raw]).take seg.count = _
  rw [List.take_append_of_le_length, List.take_take, Nat.min_self]
  · rfl
  · rw [List.length_take, Nat.min_eq_left h]

/-- The headers of the message are staged behind what is there. -/
theorem staged_stageBatch (b : Batch) {seg : ParHdrSeg} (h : Full seg) :
    (stageBatch pf b seg).staged = seg.staged ++ b.headers.map WireHeader.raw := by
  have hfold : ∀ (ws : List WireHeader) (seg : ParHdrSeg), Full seg →
      Full (ws.foldl (stageHeader pf) seg) ∧
        (ws.foldl (stageHeader pf) seg).staged = seg.staged ++ ws.map WireHeader.raw := by
    intro ws
    induction ws with
    | nil => exact fun seg h => ⟨h, (List.append_nil _).symm⟩
    | cons w ws ih =>
      intro seg h
      obtain ⟨hfull, hstaged⟩ := ih (stageHeader pf seg w) (full_stageHeader w h)
      refine ⟨hfull, ?_⟩
      rw [List.foldl_cons, hstaged, staged_stageHeader w h, List.append_assoc]
      rfl
  obtain ⟨hfull, hstaged⟩ := hfold b.headers seg h
  unfold stageBatch
  cases b.broken with
  | none => exact hstaged
  | some raw => rw [← hstaged]; exact staged_copyHeader raw hfull

/-- The segment advances by the number of headers in the message. -/
theorem count_stageBatch (b : Batch) (seg : ParHdrSeg) :
    (stageBatch pf b seg).count = seg.count + b.headers.length ∧
      (stageBatch pf b seg).tipHeight = seg.tipHeight + b.headers.length := by
  have hfold : ∀ (ws : List WireHeader) (seg : ParHdrSeg),
      (ws.foldl (stageHeader pf) seg).count = seg.count + ws.length ∧
        (ws.foldl (stageHeader pf) seg).tipHeight = seg.tipHeight + ws.length := by
    intro ws
    induction ws with
    | nil => exact fun seg => ⟨rfl, rfl⟩
    | cons w ws ih =>
      intro seg
      obtain ⟨hcount, htip⟩ := ih (stageHeader pf seg w)
      rw [List.foldl_cons, List.length_cons, hcount, htip]
      show seg.count + 1 + ws.length = _ ∧ seg.tipHeight + 1 + ws.length = _
      omega
  unfold stageBatch
  cases b.broken with
  | none => exact hfold _ _
  | some raw => exact hfold _ _

/-- The tip is the last header of the message, if there is one. -/
theorem tipHash_stageBatch (b : Batch) (seg : ParHdrSeg) :
    (stageBatch pf b seg).tipHash =
    (b.headers.getLast?.map fun w => rawHash pf w.raw).getD seg.tipHash := by
  have hfold : ∀ (ws : List WireHeader) (seg : ParHdrSeg),
      (ws.foldl (stageHeader pf) seg).tipHash =
        (ws.getLast?.map fun w => rawHash pf w.raw).getD seg.tipHash := by
    intro ws
    induction ws with
    | nil => exact fun _ => rfl
    | cons w ws ih =>
      intro seg
      rw [List.foldl_cons, ih, List.getLast?_cons]
      cases ws.getLast? with
      | none => rfl
      | some v => rfl
  unfold stageBatch
  cases b.broken with
  | none => exact hfold _ _
  | some raw => exact hfold _ _

/-! ## Messages of equal headers -/

/-- A message of `n` equal headers, behind its count. -/
def copies (n : ℕ) (h : BlockHeader) : Bytes :=
  (List.replicate n (blockHeaderSerialize h ++ [0])).flatten

theorem wireIsAux_serialize (h : BlockHeader) (rest : Bytes) :
    SpvClient.wireIsAux (blockHeaderSerialize h ++ rest) = isAuxpow h.version := by
  have hver : UInt32.ofNat (LittleEndian.ofBytes ((blockHeaderSerialize h ++ rest).take 4)) =
    h.version := by
    have hser : blockHeaderSerialize h ++ rest = serU32 h.version ++ (serU256 h.prevBlock ++
        serU256 h.merkleRoot ++ serU32 h.timestamp ++ serU32 h.bits ++ serU32 h.nonce ++ rest) := by
      simp only [blockHeaderSerialize, List.append_assoc]
    have hread := deserU32_serU32 h.version (serU256 h.prevBlock ++
        serU256 h.merkleRoot ++ serU32 h.timestamp ++ serU32 h.bits ++ serU32 h.nonce ++ rest)
    rw [← hser] at hread
    exact (deserU32_eq_some hread).2.2.symm
  rw [Bool.eq_iff_iff, isAuxpow_iff, SpvClient.wireIsAux, hver, decide_eq_true_iff]

/-- Equal headers without a proof in front of a message are all read. -/
theorem Batch.parse_copies_append (n m : ℕ) (haux : isAuxpow h.version = false) (rest : Bytes) :
    Batch.parse (n + m) (copies n h ++ rest) =
      { Batch.parse m rest with
        headers := List.replicate n ⟨blockHeaderSerialize h, blockHeaderSerialize h⟩ ++
          (Batch.parse m rest).headers } := by
  induction n with
  | zero =>
    rw [Nat.zero_add]
    rfl
  | succ n ih =>
    have hcopies : copies (n + 1) h ++ rest = blockHeaderSerialize h ++ 0 ::
      (copies n h ++ rest) := by
      rw [copies, List.replicate_succ, List.flatten_cons, List.append_assoc, List.append_assoc]
      rfl
    have hdrop : (blockHeaderSerialize h ++ 0 :: (copies n h ++ rest)).drop PAR_HDR_RAW_LEN =
        0 :: (copies n h ++ rest) := List.drop_left' (length_blockHeaderSerialize h)
    have htake : (blockHeaderSerialize h ++ 0 :: (copies n h ++ rest)).take PAR_HDR_RAW_LEN =
        blockHeaderSerialize h := List.take_left' (length_blockHeaderSerialize h)
    have hrec : (blockHeaderSerialize h ++ 0 :: (copies n h ++ rest)).take
        ((blockHeaderSerialize h ++ 0 :: (copies n h ++ rest)).length -
          (0 :: (copies n h ++ rest)).length) = blockHeaderSerialize h := by
      rw [List.length_append, Nat.add_sub_cancel, List.take_left]
    have hlen : ¬ (blockHeaderSerialize h ++ 0 :: (copies n h ++ rest)).length <
      PAR_HDR_RAW_LEN := by
      rw [List.length_append, length_blockHeaderSerialize]
      show ¬ _ < 80
      omega
    have hskip : SpvClient.skipProof (blockHeaderSerialize h ++ 0 :: (copies n h ++ rest))
        (0 :: (copies n h ++ rest)) = some (0 :: (copies n h ++ rest)) := by
      rw [SpvClient.skipProof, wireIsAux_serialize, haux]
      rfl
    have hvar : deserVarlen (0 :: (copies n h ++ rest)) = some (0, copies n h ++ rest) := rfl
    rw [hcopies, Nat.add_right_comm, Batch.parse, if_neg hlen, hdrop, hskip]
    simp only [hvar, htake, hrec, ih]
    rfl

/-- A message of equal headers without a proof. -/
theorem Batch.parse_copies (n : ℕ) (haux : isAuxpow h.version = false) :
    Batch.parse n (copies n h) =
      { headers := List.replicate n ⟨blockHeaderSerialize h, blockHeaderSerialize h⟩,
        broken := none } := by
  have happ := Batch.parse_copies_append n 0 haux []
  rw [List.append_nil] at happ
  exact happ.trans (by rw [Batch.parse, List.append_nil])

end Libdogecoin
