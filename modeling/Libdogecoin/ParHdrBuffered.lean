/-
# The counter of staged bytes

`buffered_bytes` is to be 80 times the number of the headers that are staged in segments not yet
flushed. The loop of `par_hdr_recv` adds 80 bytes before it looks at the proof behind a header. If
the proof cannot be skipped, it leaves the loop without taking them back. Nothing else goes wrong.

* `accounted_move` : a move that stages no such header keeps the account;
* `bufferedBytes_eq` : so the counter is right in runs without such messages.
-/
import Mathlib.Algebra.Order.BigOperators.Group.List
import Libdogecoin.ParHdrSound

namespace Libdogecoin

/-- Changing one summand. -/
theorem sum_map_modify {α : Type} {l : List α} {i : ℕ} {a : α} (f : α → α) (g : α → ℕ)
    (h : l[i]? = some a) : ((l.modify i f).map g).sum + g a = (l.map g).sum + g (f a) := by
  induction l generalizing i with
  | nil => cases i <;> cases h
  | cons b l ih =>
    cases i with
    | zero =>
      obtain rfl := Option.some.inj h
      simp only [List.modify_zero_cons, List.map_cons, List.sum_cons]
      omega
    | succ i =>
      have hrest := ih (i := i) h
      simp only [List.modify_succ_cons, List.map_cons, List.sum_cons]
      omega

namespace SpvClient

variable {pf : Platform} {sc : Scope} {c c' : SpvClient} {i p time : ℕ} {f : ParHdrSeg → ParHdrSeg}

/-- The headers of a segment that are staged and not flushed. -/
def pendingCount (seg : ParHdrSeg) : ℕ := if seg.flushed then 0 else seg.count

variable {seg : ParHdrSeg}

theorem pendingCount_of_count (h : seg.count = 0) : pendingCount seg = 0 := by
  unfold pendingCount
  split_ifs
  · rfl
  · exact h

/-- The headers that are staged and not flushed. -/
def stagedCount (c : SpvClient) : ℕ := (c.parHdr.segs.map pendingCount).sum

/-- The step stages a header whose proof cannot be skipped. -/
def StagesBroken (c : SpvClient) (op : SyncOp) : Prop :=
  ∃ b, c.stagedBatch op = some b ∧ b.broken ≠ none

/-- The counter measures what is staged. -/
def Accounted (c : SpvClient) : Prop :=
  c.parHdr.bufferedBytes = PAR_HDR_RAW_LEN * c.stagedCount

theorem Accounted.of_eq (ha : Accounted c) (hsegs : c'.parHdr.segs = c.parHdr.segs)
    (hbytes : c'.parHdr.bufferedBytes = c.parHdr.bufferedBytes) : Accounted c' := by
  unfold Accounted stagedCount
  rw [hsegs, hbytes]
  exact ha

/-- The counter follows the change of one segment. -/
theorem Accounted.modify (ha : Accounted c) {bytes : ℕ} (hseg : c.parHdr.segs[i]? = some seg)
    (hbytes : bytes + PAR_HDR_RAW_LEN * pendingCount seg =
      c.parHdr.bufferedBytes + PAR_HDR_RAW_LEN * pendingCount (f seg)) :
    Accounted ((c.modifySeg i f).setBuffered bytes) := by
  have hsum := sum_map_modify f pendingCount hseg
  show bytes = PAR_HDR_RAW_LEN * ((c.parHdr.segs.modify i f).map pendingCount).sum
  have ha' : c.parHdr.bufferedBytes = PAR_HDR_RAW_LEN * (c.parHdr.segs.map pendingCount).sum := ha
  have hscaled : PAR_HDR_RAW_LEN * ((c.parHdr.segs.modify i f).map pendingCount).sum +
      PAR_HDR_RAW_LEN * pendingCount seg = PAR_HDR_RAW_LEN * (c.parHdr.segs.map pendingCount).sum +
        PAR_HDR_RAW_LEN * pendingCount (f seg) := by
    rw [← Nat.mul_add, ← Nat.mul_add, hsum]
  omega

/-- A change that leaves the staged headers alone. -/
theorem Accounted.modify_same (ha : Accounted c) (hseg : c.parHdr.segs[i]? = some seg)
    (hsame : pendingCount (f seg) = pendingCount seg) : Accounted (c.modifySeg i f) :=
  ha.modify hseg (congrArg (c.parHdr.bufferedBytes + PAR_HDR_RAW_LEN * ·) hsame.symm)

/-- What a segment has staged is part of the counter. -/
theorem Accounted.pending_le (ha : Accounted c) (hseg : c.parHdr.segs[i]? = some seg) :
    PAR_HDR_RAW_LEN * pendingCount seg ≤ c.parHdr.bufferedBytes := by
  rw [show c.parHdr.bufferedBytes = PAR_HDR_RAW_LEN * c.stagedCount from ha]
  exact Nat.mul_le_mul_left _ (List.single_le_sum (fun _ _ => Nat.zero_le _) _
    (List.mem_map.mpr ⟨seg, List.mem_of_getElem? hseg, rfl⟩))

/-- A segment that is not flushed gives up its staged headers. -/
theorem Accounted.drop (ha : Accounted c) (hseg : c.parHdr.segs[i]? = some seg)
    (hflushed : seg.flushed = false) (hnone : pendingCount (f seg) = 0) :
    Accounted ((c.modifySeg i f).setBuffered
      (c.parHdr.bufferedBytes - seg.count * PAR_HDR_RAW_LEN)) := by
  have hle := ha.pending_le hseg
  have hpending : pendingCount seg = seg.count := by
    unfold pendingCount
    rw [hflushed]
    rfl
  refine ha.modify hseg ?_
  rw [hnone, hpending]
  rw [hpending] at hle
  rw [Nat.mul_comm seg.count]
  omega

theorem Accounted.request (ha : Accounted c) (hseg : c.parHdr.segs[i]? = some seg) :
    Accounted (c.parHdrSendGetheaders p i time) :=
  (ha.modify_same (f := ParHdrSeg.requested time) hseg rfl).of_eq rfl rfl

/-- **A move that stages no broken header keeps the account.** -/
theorem accounted_move (h : Move pf sc c c') (hstages : ∀ b, sc.stages b → b.broken = none)
    (hs : Sound c) (ha : Accounted c) : Accounted c' := by
  cases h with
  | link h => exact ha.of_eq rfl rfl
  | rate r => exact ha.of_eq rfl rfl
  | skipPow on => exact ha.of_eq rfl rfl
  | stop => exact ha.of_eq rfl rfl
  | connect => exact ha.of_eq rfl rfl
  | give hseg hopen hfree hidle =>
    exact (ha.modify_same hseg rfl).request (seg_modifySeg_self hseg)
  | request hseg hopen howner => exact ha.request hseg
  | @takeOver i p time seg hseg hopen hshadow =>
    have ha' : Accounted (c.clearOwner seg.nodeId) :=
      ha.of_eq (by rw [parHdr_clearOwner]) (by rw [parHdr_clearOwner])
    have hseg' : (c.clearOwner seg.nodeId).parHdr.segs[i]? = some seg := by
      rw [parHdr_clearOwner]
      exact hseg
    exact ha'.modify_same hseg' rfl
  | @stage i seg b hseg hopen hok hhangs =>
    have hframe : StagedFrom seg (stageBatch pf b seg) := stagedFrom_stageBatch b seg
    have hnot := hs.not_flushed hseg hopen
    refine ha.modify hseg ?_
    unfold pendingCount
    rw [hframe.flushed, hnot, (count_stageBatch b seg).1, Batch.bytes, hstages b hok]
    simp only [Bool.false_eq_true, if_false, Option.isSome_none, Nat.add_zero]
    rw [Nat.mul_add, Nat.mul_comm b.headers.length]
    omega
  | @reject i p seg hash height hseg hopen howner hshadow hheight =>
    have hdrop := ha.drop (f := ParHdrSeg.reopen hash height) hseg (hs.not_flushed hseg hopen)
      (pendingCount_of_count rfl)
    exact hdrop.of_eq rfl rfl
  | finish hseg hopen howner hshadow htip =>
    exact (ha.modify_same (f := ParHdrSeg.finish) hseg rfl).of_eq rfl rfl
  | failed hseg hdone hflushed htip => exact ha.drop hseg hflushed (pendingCount_of_count rfl)
  | flushed hactive hseg hdone hflushed htail hconn =>
    exact (ha.drop (f := ParHdrSeg.markFlushed) hseg hflushed rfl).of_eq rfl rfl
  | dropBuf hactive hseg hbuf =>
    -- a flushed segment has no buffer left
    have hnot : ∀ b, ParHdrSeg.flushed _ = b → b = false := fun b hb => by
      cases b with
      | false => rfl
      | true =>
        rw [((hs.seg _ _ hseg).complete_of_flushed hb).2] at hbuf
        cases hbuf
    exact ha.drop hseg (hnot _ rfl) (pendingCount_of_count rfl)
  | @release i q seg hseg hopen howner hshadow =>
    have ha' : Accounted (c.setHeadersync q false) := ha.of_eq rfl rfl
    exact ha'.modify_same hseg rfl
  | @preempt q seg hseg hopen howner hshadow =>
    have ha' : Accounted (c.setHeadersync q false) := ha.of_eq rfl rfl
    exact ha'.modify_same hseg rfl
  | @handOver q p time seg hseg hopen howner hidle =>
    have ha' : Accounted (c.setHeadersync q false) := ha.of_eq rfl rfl
    have hpre := ha'.modify_same (f := ParHdrSeg.preempt) hseg rfl
    have hread := seg_modifySeg_self (c := c.setHeadersync q false) (f := ParHdrSeg.preempt) hseg
    exact (hpre.modify_same (f := ParHdrSeg.assign p time) hread rfl).request
      (seg_modifySeg_self hread)
  | shadow hseg hopen howner hnone hidle =>
    exact (ha.modify_same hseg rfl).request (seg_modifySeg_self hseg)

/-- Nothing is staged at the start. -/
theorem accounted_init {start : HeadersDb → Prop} (h : SyncStarted start c) : Accounted c := by
  obtain ⟨first, stops, -, -, hs⟩ := parHdrInit_eq_some h.parHdr_eq
  have hnone : ∀ (start : Checkpoint) (stops : List Checkpoint),
      ((ParHdrState.segsFrom start stops).map pendingCount).sum = 0 := by
    intro start stops
    induction stops generalizing start with
    | nil => rfl
    | cons stop rest ih =>
      rw [ParHdrState.segsFrom, List.map_cons, List.sum_cons, ih]
      rfl
  unfold Accounted stagedCount
  rw [hs, hnone]
  rfl

/-- **The counter of staged bytes.** It is right in every run that stages no header with a proof
that cannot be skipped. -/
theorem bufferedBytes_eq {start : HeadersDb → Prop}
    (h : (syncSystem pf start).Reach (fun c op => ¬ StagesBroken c op) c) :
    c.parHdr.bufferedBytes = PAR_HDR_RAW_LEN * c.stagedCount := by
  have hreach : (syncSystem pf start).Reach
      (Scope.Allows ⟨fun b => b.broken = none, True, True⟩) c :=
    h.mono fun c op hop =>
      ⟨fun b hb => not_not.mp fun hne => hop ⟨b, hb, hne⟩, fun _ => trivial, fun _ => trivial⟩
  have hboth : Sound c ∧ Accounted c :=
    invariant_of_reach (P := fun c => Sound c ∧ Accounted c)
      (fun _ hc => ⟨sound_init hc, accounted_init hc⟩)
      (fun _ _ hmove hc => ⟨sound_move hmove hc.1, accounted_move hmove (fun _ hb => hb) hc.1 hc.2⟩)
      hreach
  exact hboth.2

/-! ## A header without its proof -/

/-- Only a headers message can stage a broken header, and only if it holds one. -/
theorem not_stagesBroken_headers {count : ℕ} {buf : Bytes} (c : SpvClient)
    (h : (Batch.parse count buf).broken = none) : ¬ StagesBroken c (.headers p count buf time) := by
  rintro ⟨b, hb, hne⟩
  simp only [stagedBatch, Option.bind_eq_bind, Option.bind_eq_some_iff] at hb
  obtain ⟨i, -, seg, -, hb⟩ := hb
  split at hb
  · obtain rfl := Option.some.inj hb
    exact hne h
  · cases hb

/-- A header with the AuxPoW bit, its proof and a count of transactions, and a header without that
bit. -/
def twoHeaders : Bytes :=
  blockHeaderSerialize (sampleHeader 0x620104 dogecoinChainparamsMain.genesisblockhash
    (hashNo 1) 0x1e0ffff0) ++
    (txSerialize ⟨1, [⟨⟨Uint256.zero, 0⟩, [], 0⟩], [], 0⟩ ++ List.replicate 123 0) ++
    blockHeaderSerialize (sampleHeader 1 (hashNo 1) (hashNo 2) 0x1e0ffff0)

/-- The theorem on a run: both headers are staged, and their proof is not counted. -/
theorem bufferedBytes_eq_twoHeaders :
    ∃ c, (syncSystem samplePlatform fun _ => True).run mainClient
        (joins 0 ++ [.assign 0 1, .headers 0 2 twoHeaders 1]) = some c ∧ c.stagedCount = 2 ∧
      c.parHdr.bufferedBytes = PAR_HDR_RAW_LEN * c.stagedCount := by
  have hrun : ((syncSystem samplePlatform fun _ => True).run mainClient
      (joins 0 ++ [.assign 0 1, .headers 0 2 twoHeaders 1])).any (fun c => c.stagedCount = 2) =
        true := by
    decide +kernel
  obtain ⟨c, hc, hcount⟩ := (Option.any_eq_true _ _).mp hrun
  have hquiet : ∀ (c : SpvClient) (op : SyncOp), c.stagedBatch op = none → ¬ StagesBroken c op := by
    rintro c op hnone ⟨b, hb, -⟩
    rw [hnone] at hb
    cases hb
  refine ⟨c, hc, of_decide_eq_true hcount, @bufferedBytes_eq samplePlatform _ (fun _ => True)
    (.of_run (.init (mainClient_started trivial)) ?_ hc)⟩
  refine ⟨hquiet _ _ rfl, fun c1 _ =>
    ⟨hquiet _ _ rfl, fun c2 _ => ⟨hquiet _ _ rfl, fun c3 _ => ⟨?_, ?_⟩⟩⟩⟩
  · exact not_stagesBroken_headers c3 (by decide +kernel)
  · exact fun _ _ => trivial

/-- The first peer owns the first segment and answers with one header behind genesis, which has the
AuxPoW bit. -/
def brokenRun : List SyncOp :=
  joins 0 ++ [.assign 0 1, .headers 0 1 (blockHeaderSerialize
    (sampleHeader 0x620104 dogecoinChainparamsMain.genesisblockhash (hashNo 1) 0x1e0ffff0)) 1]

/-- A header with the AuxPoW bit and nothing behind it is counted, but not staged. -/
theorem not_bufferedBytes_eq :
    ¬ ∀ (pf : Platform) (c : SpvClient), (syncSystem pf fun _ => True).Reachable c →
      c.parHdr.bufferedBytes = PAR_HDR_RAW_LEN * c.stagedCount := by
  intro hall
  have hrun : ((syncSystem samplePlatform fun _ => True).run mainClient brokenRun).any
      (fun c => decide (c.parHdr.bufferedBytes ≠ PAR_HDR_RAW_LEN * c.stagedCount)) = true := by
    decide +kernel
  obtain ⟨c, hc, hne⟩ := (Option.any_eq_true _ _).mp hrun
  rw [decide_eq_true_eq] at hne
  exact hne (hall samplePlatform c
    (TransitionSystem.reachable_of_run (mainClient_started trivial) hc))

end SpvClient

end Libdogecoin
