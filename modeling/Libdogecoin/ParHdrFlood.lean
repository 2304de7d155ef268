/-
# A peer that floods its segment

The first of two peers owns the first segment of the main chain and answers with messages of equal
headers. Only the first header of a message is compared with the tip of the segment, so the segment
advances by the length of the message.

* `recv_copies` : what such a message does;
* `flooded_advance`, `flooded_reject`, `flooded_fallback` : below the checkpoint, at it, and at it
  for the third time;
* `flooded_nine` : the ninth message ends the download while the other peer still carries its bit.
-/
import Libdogecoin.ParHdrSyncFlag

namespace Libdogecoin

namespace SpvClient

variable {pf : Platform} {c c' : SpvClient} {i p n time height fails : ℕ} {h : BlockHeader}
  {hash : Uint256}
  {seg : ParHdrSeg} {tip : BlockIndex}

/-- What is read from a message of equal headers. -/
def copiesBatch (n : ℕ) (h : BlockHeader) : Batch where
  headers := List.replicate n ⟨blockHeaderSerialize h, blockHeaderSerialize h⟩
  broken := none

/-- A peer with a part in an open segment answers this segment. -/
theorem segOf_of_holds (hs : Sound c) (hseg : c.parHdr.segs[i]? = some seg)
    (hopen : seg.complete = false) (hholds : Holds seg p) : c.parHdr.segOf p = some i := by
  have hbool : seg.holds p = true := by
    rw [ParHdrSeg.holds, Bool.or_eq_true, decide_eq_true_eq, decide_eq_true_eq]
    exact hholds
  unfold ParHdrState.segOf
  rw [List.find?_range_eq_some]
  refine ⟨?_, ?_, ?_⟩
  · rw [hseg, Option.any_some, hopen, hbool]
    rfl
  · rw [List.mem_range]
    exact (List.getElem?_eq_some_iff.mp hseg).1
  · intro j hj
    rw [Bool.not_eq_true', Bool.eq_false_iff]
    intro hfound
    obtain ⟨seg', hseg', hcond⟩ := (Option.any_eq_true _ _).mp hfound
    rw [Bool.and_eq_true, ParHdrSeg.holds, Bool.or_eq_true, decide_eq_true_eq,
      decide_eq_true_eq] at hcond
    exact absurd (hs.roles j i seg' seg p hseg' hseg hcond.2 hholds) (Nat.ne_of_lt hj)

/-- A message whose first header is `h` continues a segment whose tip is the parent of `h`. -/
theorem continues_copies (hprev : h.prevBlock = seg.tipHash) (count : ℕ) (rest : Bytes) :
    continues seg count (copies (n + 1) h ++ rest) = true := by
  have hfirst : copies (n + 1) h ++ rest = blockHeaderSerialize h ++
    ([0] ++ (copies n h ++ rest)) := by
    rw [copies, List.replicate_succ, List.flatten_cons, List.append_assoc, List.append_assoc]
    rfl
  have hle : 80 ≤ (copies (n + 1) h ++ rest).length := by
    rw [hfirst, List.length_append, length_blockHeaderSerialize]
    exact Nat.le_add_right _ _
  have htake : (copies (n + 1) h ++ rest).take 80 = blockHeaderSerialize h := by
    rw [hfirst]
    exact List.take_left' (length_blockHeaderSerialize h)
  have hparent := prevBlock_rawHeader hle
  rw [htake, rawHeader_serialize, hprev] at hparent
  simp [continues, ← hparent]

/-- A headers message from the owner of an open segment that continues it. -/
theorem recv_of_owner (hs : Sound c) (hactive : c.parHdr.active = true) {seg : ParHdrSeg}
    (hseg : c.parHdr.segs[i]? = some seg) (hopen : seg.complete = false)
    (howner : seg.nodeId = some p)
    {count : ℕ} {buf : Bytes} (hcont : continues seg count buf = true) :
    syncStep pf c (.headers p count buf time) =
      afterHeaders pf (received pf c i (Batch.parse count buf)) p i
        (stageBatch pf (Batch.parse count buf) seg) time := by
  have hof := segOf_of_holds hs hseg hopen (Or.inl howner)
  have htake : c.takeOver p i time = c := by
    unfold takeOver
    simp [hseg, howner]
  unfold syncStep
  dsimp only
  rw [if_pos hactive]
  unfold parHdrRecv
  rw [hof]
  dsimp only
  rw [htake, hseg]
  dsimp only
  rw [hcont, if_neg (by simp), recvHeaders_eq]
  dsimp only
  rw [modifySeg_const _ hseg]
  rfl

/-- A message of equal headers that continues the segment. -/
theorem recv_copies (hs : Sound c) (hactive : c.parHdr.active = true) {seg : ParHdrSeg}
    (hseg : c.parHdr.segs[i]? = some seg) (hopen : seg.complete = false)
    (howner : seg.nodeId = some p)
    (haux : isAuxpow h.version = false) (hprev : h.prevBlock = seg.tipHash) :
    syncStep pf c (.headers p (n + 1) (copies (n + 1) h) time) =
      afterHeaders pf (received pf c i (copiesBatch (n + 1) h)) p i
        (stageBatch pf (copiesBatch (n + 1) h) seg) time := by
  have hcont := continues_copies (n := n) hprev (n + 1) []
  rw [List.append_nil] at hcont
  rw [recv_of_owner hs hactive hseg hopen howner hcont, Batch.parse_copies _ haux]
  rfl

/-- The hash of the header is the new tip. -/
theorem tipHash_copies (seg : ParHdrSeg) :
    (stageBatch pf (copiesBatch (n + 1) h) seg).tipHash = blockHeaderHash pf h := by
  have hlast : (copiesBatch (n + 1) h).headers.getLast? =
      some ⟨blockHeaderSerialize h, blockHeaderSerialize h⟩ := by
    show (List.replicate (n + 1) _).getLast? = _
    rw [List.replicate_succ', List.getLast?_concat]
  rw [tipHash_stageBatch, hlast]
  show rawHash pf (blockHeaderSerialize h) = _
  rw [rawHash, rawHeader_serialize]

/-! ## The flooded segment -/

/-- The first peer owns the first segment, which has got to `height`, and has failed `fails`
times. -/
structure FloodedSeg (seg : ParHdrSeg) (height : ℕ) (hash : Uint256) (fails : ℕ) : Prop where
  complete : seg.complete = false
  owner : seg.nodeId = some 0
  shadow : seg.shadowId = none
  startHeight : seg.startHeight = 0
  startHash : seg.startHash = dogecoinChainparamsMain.genesisblockhash
  stopHeight : seg.stopHeight = 100000
  stopHash : some seg.stopHash = mainnetCheckpointArray[1]?.map Checkpoint.hash
  tipHeight : seg.tipHeight = height
  tipHash : seg.tipHash = hash
  flushFails : seg.flushFails = fails

/-- The first of two peers floods the first segment, over a database with some tip. -/
structure Flooded (c : SpvClient) (tip : BlockIndex) (height : ℕ) (hash : Uint256) (fails : ℕ) :
    Prop where
  sound : Sound c
  active : c.parHdr.active = true
  usable : c.usable 0 = true
  other : c.syncing 1
  flushIdx : c.parHdr.flushIdx = 0
  tip : c.headersDb.heap.read c.headersDb.chaintip = some tip
  seg : ∃ seg, c.parHdr.segs[0]? = some seg ∧ FloodedSeg seg height hash fails

/-- Where the first segment starts again: at the tip of the database if that lies inside it. -/
def restart (tip : BlockIndex) : Uint256 × ℕ :=
  if 0 < tip.height && tip.height ≤ 100000 then (tip.hash, tip.height)
  else (dogecoinChainparamsMain.genesisblockhash, 0)

/-- Steps keep the invariant. -/
theorem sound_of_step {op : SyncOp} (hs : Sound c) (hstep : syncStep pf c op = some c') :
    Sound c' :=
  Moves.invariant (fun _ _ hmove hs => sound_move hmove hs)
    (@moves_of_step pf c c' { stages := fun _ => True, orphans := True, losesShadow := True } op
      ⟨fun _ _ => trivial, fun _ => trivial, fun _ => trivial⟩ hstep) hs

/-- Every copy raises the tip of the segment. -/
theorem tipHeight_copies (seg : ParHdrSeg) :
    (stageBatch pf (copiesBatch (n + 1) h) seg).tipHeight = seg.tipHeight + (n + 1) := by
  rw [(count_stageBatch _ _).2]
  show seg.tipHeight + (List.replicate (n + 1) _).length = _
  rw [List.length_replicate]

/-- What the copies leave of the flooded segment: its tip moves, and nothing else. -/
theorem FloodedSeg.stage {seg : ParHdrSeg} (hfs : FloodedSeg seg height hash fails) :
    FloodedSeg (stageBatch pf (copiesBatch (n + 1) h) seg) (height + (n + 1))
      (blockHeaderHash pf h) fails := by
  have hframe : StagedFrom seg (stageBatch pf (copiesBatch (n + 1) h) seg) :=
    stagedFrom_stageBatch (copiesBatch (n + 1) h) seg
  have htip : (stageBatch pf (copiesBatch (n + 1) h) seg).tipHeight = height + (n + 1) := by
    rw [tipHeight_copies, hfs.tipHeight]
  exact ⟨hframe.complete.trans hfs.complete, hframe.nodeId.trans hfs.owner,
    hframe.shadowId.trans hfs.shadow, hframe.startHeight.trans hfs.startHeight,
      hframe.startHash.trans hfs.startHash,
    hframe.stopHeight.trans hfs.stopHeight,
      (congrArg some hframe.stopHash).trans hfs.stopHash, htip,
    tipHash_copies seg, hframe.flushFails.trans hfs.flushFails⟩

section Message

variable (hf : Flooded c tip height hash fails) (haux : isAuxpow h.version = false)
  (hprev : h.prevBlock = hash)
include hf haux hprev

/-- Below the checkpoint the segment advances by the length of the message. -/
theorem flooded_advance (hlow : height + (n + 1) < 100000) :
    ∃ c', syncStep pf c (.headers 0 (n + 1) (copies (n + 1) h) time) = some c' ∧
      Flooded c' tip (height + (n + 1)) (blockHeaderHash pf h) fails := by
  obtain ⟨seg, hseg, hfs⟩ := hf.seg
  have hstaged : FloodedSeg (stageBatch pf (copiesBatch (n + 1) h) seg) (height + (n + 1))
      (blockHeaderHash pf h) fails := hfs.stage
  have hstep := @recv_copies pf c 0 0 n time h hf.sound hf.active seg hseg hfs.complete
    hfs.owner haux (hprev.trans hfs.tipHash.symm)
  unfold afterHeaders at hstep
  rw [hstaged.stopHeight, hstaged.tipHeight, if_neg (Nat.not_le.mpr hlow)] at hstep
  refine ⟨_, hstep, sound_of_step hf.sound hstep, hf.active, ?_, ?_, hf.flushIdx, hf.tip, ?_⟩
  · show (SpvClient.setHeadersync _ 0 true).usable 0 = true
    rw [usable_setHeadersync]
    exact hf.usable
  · exact syncing_of_ne Nat.one_ne_zero hf.other
  · refine ⟨_, seg_modifySeg_self (seg_modifySeg_self hseg), ?_⟩
    exact ⟨hstaged.complete, hstaged.owner, hstaged.shadow, hstaged.startHeight, hstaged.startHash,
      hstaged.stopHeight, hstaged.stopHash, hstaged.tipHeight, hstaged.tipHash, hstaged.flushFails⟩

variable (hhigh : 100000 ≤ height + (n + 1))
  (hmiss : some (blockHeaderHash pf h) ≠ mainnetCheckpointArray[1]?.map Checkpoint.hash)
include hhigh hmiss

/-- At its stop height the segment misses its checkpoint and starts again. -/
theorem flooded_miss :
    ∃ seg d, FloodedSeg seg (height + (n + 1)) (blockHeaderHash pf h) fails ∧
      (received pf c 0 (copiesBatch (n + 1) h)).parHdr.segs[0]? = some seg ∧
      d = ((received pf c 0 (copiesBatch (n + 1) h)).reopenSeg 0 seg
        (restart tip).1 (restart tip).2).setHeadersync 0 false ∧
      syncStep pf c (.headers 0 (n + 1) (copies (n + 1) h) time) =
        some (if PAR_HDR_MAX_FLUSH_FAILS ≤ fails + 1 then
          d.fallback ((List.range d.parHdr.segs.length).filter (· ≠ 0)) else
            d.parHdrAssign 0 time) := by
  obtain ⟨seg, hseg, hfs⟩ := hf.seg
  have hstaged : FloodedSeg (stageBatch pf (copiesBatch (n + 1) h) seg) (height + (n + 1))
      (blockHeaderHash pf h) fails := hfs.stage
  have hstep := @recv_copies pf c 0 0 n time h hf.sound hf.active seg hseg hfs.complete
    hfs.owner haux (hprev.trans hfs.tipHash.symm)
  have hne : (stageBatch pf (copiesBatch (n + 1) h) seg).tipHash ≠
      (stageBatch pf (copiesBatch (n + 1) h) seg).stopHash := by
    rw [hstaged.tipHash]
    intro heq
    exact hmiss (by rw [heq]; exact hstaged.stopHash)
  have hdb : (received pf c 0 (copiesBatch (n + 1) h)).headersDb.heap.read
      (received pf c 0 (copiesBatch (n + 1) h)).headersDb.chaintip = some tip := hf.tip
  unfold afterHeaders at hstep
  rw [hstaged.stopHeight, hstaged.tipHeight, if_pos hhigh, if_pos hne, rejectSeg, hdb,
    Option.bind_eq_bind, Option.bind_some] at hstep
  dsimp only at hstep
  rw [hstaged.startHash, hstaged.startHeight, hstaged.stopHeight, hstaged.flushFails] at hstep
  refine ⟨_, _, hstaged, seg_modifySeg_self hseg, rfl, hstep.trans ?_⟩
  unfold restart
  split_ifs
  all_goals rfl

/-- The first and the second time, the segment goes to the same peer again. -/
theorem flooded_reject (hfails : fails + 1 < PAR_HDR_MAX_FLUSH_FAILS) :
    ∃ c', syncStep pf c (.headers 0 (n + 1) (copies (n + 1) h) time) = some c' ∧
      Flooded c' tip (restart tip).2 (restart tip).1 (fails + 1) := by
  obtain ⟨seg0, hseg0, hfs0⟩ := hf.seg
  obtain ⟨seg, d, hfs, hseg, hd, hstep⟩ :=
    @flooded_miss pf c n time height fails h hash tip hf haux hprev hhigh hmiss
  rw [if_neg (Nat.not_le.mpr hfails)] at hstep
  have hread : d.parHdr.segs[0]? = some (seg.reopen (restart tip).1 (restart tip).2) := by
    rw [hd]
    exact seg_modifySeg_self hseg
  have hidle : d.parHdr.busy 0 = false := by
    rw [ParHdrState.busy, List.any_eq_false]
    intro seg' hmem hholds
    obtain ⟨k, hk⟩ := List.mem_iff_getElem?.mp hmem
    rw [ParHdrSeg.holds, Bool.or_eq_true, decide_eq_true_eq, decide_eq_true_eq] at hholds
    by_cases hk0 : k = 0
    · subst hk0
      rw [hread] at hk
      obtain rfl := Option.some.inj hk
      exact hholds.elim (fun h => by cases h) (fun h => by cases h)
    · have hold : c.parHdr.segs[k]? = some seg' := by
        rw [hd] at hk
        change ((c.parHdr.segs.modify 0 _).modify 0 _)[k]? = some seg' at hk
        rw [List.getElem?_modify_ne _ _ (Ne.symm hk0),
          List.getElem?_modify_ne _ _ (Ne.symm hk0)] at hk
        exact hk
      exact hk0 (hf.sound.roles k 0 seg' seg0 0 hold hseg0 hholds (Or.inl hfs0.owner))
  have hidx : d.parHdr.flushIdx = 0 := by
    rw [hd]
    exact hf.flushIdx
  have hactive : d.parHdr.active = true := by
    rw [hd]
    exact hf.active
  have husable : d.usable 0 = true := by
    rw [hd, usable_setHeadersync]
    exact hf.usable
  have hother : d.syncing 1 := by
    rw [hd]
    exact syncing_of_ne Nat.one_ne_zero hf.other
  have htip : d.headersDb.heap.read d.headersDb.chaintip = some tip := by
    rw [hd]
    exact hf.tip
  have hfree := firstFree_of_head (c := d) (by rw [hidx]; exact hread) rfl rfl
  rw [parHdrAssign_of_head hactive husable hidle hfree, hidx] at hstep
  refine ⟨_, hstep, sound_of_step hf.sound hstep, hactive, ?_, ?_, hidx, htip, ?_⟩
  · show (SpvClient.setHeadersync _ 0 true).usable 0 = true
    rw [usable_setHeadersync]
    exact husable
  · exact syncing_of_ne Nat.one_ne_zero hother
  · refine ⟨_, seg_modifySeg_self (seg_modifySeg_self hread), ?_⟩
    exact ⟨rfl, rfl, rfl, hfs.startHeight, hfs.startHash, hfs.stopHeight, hfs.stopHash, rfl, rfl,
      congrArg (· + 1) hfs.flushFails⟩

/-- The third time, the download falls back, and the other peer keeps its bit. -/
theorem flooded_fallback (hfails : PAR_HDR_MAX_FLUSH_FAILS ≤ fails + 1) :
    ∃ c', syncStep pf c (.headers 0 (n + 1) (copies (n + 1) h) time) = some c' ∧
      c'.parHdr.active = false ∧ c'.syncing 1 := by
  obtain ⟨seg, d, hfs, hseg, hd, hstep⟩ :=
    @flooded_miss pf c n time height fails h hash tip hf haux hprev hhigh hmiss
  rw [if_pos hfails] at hstep
  refine ⟨_, hstep, ?_, ?_⟩
  · have hfold : ∀ (ks : List ℕ) (c : SpvClient), (ks.foldl releaseBuf c).parHdr.active =
        c.parHdr.active := fun ks c => active_foldl (fun c k => by
          unfold releaseBuf
          cases c.parHdr.segs[k]? with
          | none => rfl
          | some seg =>
            dsimp only
            split_ifs
            · rfl
            · rfl) ks c
    exact hfold _ d.deactivate
  · have hother : d.syncing 1 := by
      rw [hd]
      exact syncing_of_ne Nat.one_ne_zero hf.other
    unfold syncing
    rw [nodes_fallback]
    exact hother

end Message

/-- A headers message of the flooding peer closes no segment that has a shadow. -/
theorem not_losesShadow_of_flooded (hf : Flooded c tip height hash fails)
    {count : ℕ} {buf : Bytes} :
    ¬ LosesShadow c (.headers 0 count buf time) := by
  rintro ⟨i, seg, hi, hseg, -, hshadow, -, -⟩
  obtain ⟨seg0, hseg0, hfs⟩ := hf.seg
  have hof := segOf_of_holds hf.sound hseg0 hfs.complete (Or.inl hfs.owner)
  rw [hof] at hi
  obtain rfl := Option.some.inj hi
  rw [hseg0] at hseg
  obtain rfl := Option.some.inj hseg
  exact hshadow hfs.shadow

/-! ## Nine messages -/

/-- The runs on `samplePlatform` in which no segment is closed while it has a shadow. -/
abbrev SampleReach : SpvClient → Prop :=
  (syncSystem samplePlatform fun _ => True).Reach fun c op => ¬ LosesShadow c op

/-- Two peers connect. -/
def twoPeers : List SyncOp := joins 0 ++ joins 1

/-- What is evaluated of the client when both peers have a segment. -/
def twoPeersCheck (tip : BlockIndex) (c : SpvClient) : Bool :=
  c.parHdr.active && c.usable 0 && c.nodes[1]?.any Node.headersync &&
    decide (c.parHdr.flushIdx = 0) &&
    decide (c.headersDb.heap.read c.headersDb.chaintip = some tip) &&
    c.parHdr.segs[0]?.any fun seg =>
      !seg.complete && decide (seg.nodeId = some 0) && decide (seg.shadowId = none) &&
        decide (seg.startHeight = 0) &&
        decide (seg.startHash = dogecoinChainparamsMain.genesisblockhash) &&
        decide (seg.stopHeight = 100000) &&
        decide (some seg.stopHash = mainnetCheckpointArray[1]?.map Checkpoint.hash) &&
        decide (seg.tipHeight = 0) && decide (seg.tipHash =
          dogecoinChainparamsMain.genesisblockhash) &&
        decide (seg.flushFails = 0)

theorem flooded_of_check (hsound : Sound c) (hcheck : twoPeersCheck tip c = true) :
    Flooded c tip 0 dogecoinChainparamsMain.genesisblockhash 0 := by
  unfold twoPeersCheck at hcheck
  simp only [Bool.and_eq_true, decide_eq_true_eq] at hcheck
  obtain ⟨⟨⟨⟨⟨hactive, husable⟩, hother⟩, hidx⟩, htip⟩, hseg⟩ := hcheck
  obtain ⟨n, hn, hsync⟩ := (Option.any_eq_true _ _).mp hother
  obtain ⟨seg, hseg, hprops⟩ := (Option.any_eq_true _ _).mp hseg
  simp only [Bool.and_eq_true, Bool.not_eq_true', decide_eq_true_eq] at hprops
  obtain ⟨⟨⟨⟨⟨⟨⟨⟨⟨h1, h2⟩, h3⟩, h4⟩, h5⟩, h6⟩, h7⟩, h8⟩, h9⟩, h10⟩ := hprops
  exact ⟨hsound, hactive, husable, ⟨n, hn, hsync⟩, hidx, htip, seg, hseg,
    h1, h2, h3, h4, h5, h6, h7, h8, h9, h10⟩

/-- The tip of a new database. -/
abbrev mainGenesis : BlockIndex := HeadersDb.genesisIndex dogecoinChainparamsMain

/-- After the first maintenance the first peer may flood. -/
theorem flooded_twoPeers : ∃ c, SampleReach c ∧
    Flooded c mainGenesis 0 dogecoinChainparamsMain.genesisblockhash 0 := by
  have hrun : ((syncSystem samplePlatform fun _ => True).run mainClient twoPeers).any (fun c =>
      c.parHdr.segs.all (fun seg => seg.shadowId.isNone) &&
        (syncStep samplePlatform c (.reclaim 1 1)).any (twoPeersCheck mainGenesis)) = true := by
    decide +kernel
  obtain ⟨c0, hc0, hcheck⟩ := (Option.any_eq_true _ _).mp hrun
  rw [Bool.and_eq_true, List.all_eq_true] at hcheck
  obtain ⟨hnone, hcheck⟩ := hcheck
  obtain ⟨c, hc, hcheck⟩ := (Option.any_eq_true _ _).mp hcheck
  have hreach : SampleReach c := by
    refine .step (i := .reclaim 1 1) (.of_run (.init (mainClient_started trivial)) ?_ hc0) ?_ hc
    · exact ⟨fun h => h, fun _ _ => ⟨fun h => h, fun _ _ => ⟨fun h => h, fun _ _ => ⟨fun h => h,
        fun _ _ => trivial⟩⟩⟩⟩
    · rintro ⟨i, seg, -, hseg, -, hshadow⟩
      exact hshadow (Option.isNone_iff_eq_none.mp (hnone seg (List.mem_of_getElem? hseg)))
  have hsound : Sound c := @sound_of_reach _
    { stages := fun _ => True, orphans := True, losesShadow := True }
    _ _ (hreach.mono fun _ _ _ => ⟨fun _ _ => trivial, fun _ => trivial, fun _ => trivial⟩)
  exact ⟨c, hreach, flooded_of_check hsound hcheck⟩

/-- A header with a chosen hash on `samplePlatform`, without the AuxPoW bit. -/
def floodHeader (prevBlock hash : Uint256) : BlockHeader := sampleHeader 1 prevBlock hash 0x1e0ffff0

theorem hash_floodHeader (prevBlock hash : Uint256) :
    blockHeaderHash samplePlatform (floodHeader prevBlock hash) = hash :=
  hash_sampleHeader 1 prevBlock hash _

/-- A message of `40000` equal headers. -/
def flood (prevBlock hash : Uint256) : SyncOp :=
  .headers 0 40000 (copies 40000 (floodHeader prevBlock hash)) 1

/-- The first two messages of a round get the segment to height `80000`. -/
theorem flooded_round (hreach : SampleReach c)
    (hf : Flooded c mainGenesis 0 dogecoinChainparamsMain.genesisblockhash fails) :
    ∃ c', SampleReach c' ∧ Flooded c' mainGenesis 80000 (hashNo 2) fails := by
  obtain ⟨c1, h1, hf1⟩ := @flooded_advance samplePlatform _ 39999 1 _ _
    (floodHeader dogecoinChainparamsMain.genesisblockhash (hashNo 1)) _ _ hf rfl rfl (by decide)
  rw [hash_floodHeader] at hf1
  obtain ⟨c2, h2, hf2⟩ := @flooded_advance samplePlatform _ 39999 1 _ _
    (floodHeader (hashNo 1) (hashNo 2)) _ _ hf1 rfl rfl (by decide)
  rw [hash_floodHeader] at hf2
  exact ⟨c2, (hreach.step (not_losesShadow_of_flooded hf) h1).step
    (not_losesShadow_of_flooded hf1) h2, hf2⟩

/-- None of the hashes of the run is the one of the checkpoint. -/
theorem flood_misses : some (blockHeaderHash samplePlatform (floodHeader (hashNo 2) (hashNo 3))) ≠
    mainnetCheckpointArray[1]?.map Checkpoint.hash := by
  rw [hash_floodHeader]
  decide +kernel

/-- After two rounds and two messages, the next message ends the download. -/
theorem flooded_nine : ∃ c c', SampleReach c ∧ Flooded c mainGenesis 80000 (hashNo 2) 2 ∧
    syncStep samplePlatform c (flood (hashNo 2) (hashNo 3)) = some c' ∧
    c'.parHdr.active = false ∧ c'.syncing 1 := by
  obtain ⟨c0, hreach0, hf0⟩ := flooded_twoPeers
  have hround : ∀ {c : SpvClient} {fails : ℕ}, fails + 1 < PAR_HDR_MAX_FLUSH_FAILS → SampleReach c →
      Flooded c mainGenesis 0 dogecoinChainparamsMain.genesisblockhash fails →
      ∃ c', SampleReach c' ∧
        Flooded c' mainGenesis 0 dogecoinChainparamsMain.genesisblockhash (fails + 1) := by
    intro c fails hfails hreach hf
    obtain ⟨c1, hreach1, hf1⟩ := flooded_round hreach hf
    obtain ⟨c2, h2, hf2⟩ := @flooded_reject samplePlatform _ 39999 1 _ _
      (floodHeader (hashNo 2) (hashNo 3)) _ _ hf1 rfl rfl (by decide) flood_misses hfails
    exact ⟨c2, hreach1.step (not_losesShadow_of_flooded hf1) h2, hf2⟩
  obtain ⟨c1, hreach1, hf1⟩ := hround (by decide) hreach0 hf0
  obtain ⟨c2, hreach2, hf2⟩ := hround (by decide) hreach1 hf1
  obtain ⟨c3, hreach3, hf3⟩ := flooded_round hreach2 hf2
  obtain ⟨c4, h4, hdone, hsync⟩ := @flooded_fallback samplePlatform _ 39999 1 _ _
    (floodHeader (hashNo 2) (hashNo 3)) _ _ hf3 rfl rfl (by decide) flood_misses (by decide)
  exact ⟨c3, c4, hreach3, hf3, h4, hdone, hsync⟩

/-- The other peer still carries the bit when the download has ended. -/
theorem still_syncing_at_fallback :
    ¬ ∀ (pf : Platform) (c c' : SpvClient) (op : SyncOp),
      (syncSystem pf fun _ => True).Reachable c →
      syncStep pf c op = some c' → c.parHdr.active = true → c'.parHdr.active = false →
      ∀ q, ¬ c'.syncing q := by
  intro hall
  obtain ⟨c, c', hreach, hf, hstep, hdone, hsync⟩ := flooded_nine
  exact hall samplePlatform c c' _ hreach.reachable hstep hf.active hdone 1 hsync

/-- The theorem on this run. -/
theorem noSync_iff_flooded : ∃ c c', SampleReach c ∧
    syncStep samplePlatform c (flood (hashNo 2) (hashNo 3)) = some c' ∧ c'.parHdr.active = false ∧
    ((∀ q, ¬ c'.syncing q) ↔ ∀ (k : ℕ) (seg : ParHdrSeg) (q : ℕ), c.parHdr.segs[k]? = some seg →
      Holds seg q → c.syncing q → c.answered (flood (hashNo 2) (hashNo 3)) = some k) := by
  obtain ⟨c, c', hreach, hf, hstep, hdone, -⟩ := flooded_nine
  exact ⟨c, c', hreach, hstep, hdone,
    noSync_iff hreach (not_losesShadow_of_flooded hf) hstep hf.active hdone⟩

end SpvClient

end Libdogecoin
