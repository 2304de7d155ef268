/-
# Peers that carry `NODE_HEADERSYNC`

As long as a peer carries the bit, the sequential download asks nobody for headers. During the
parallel download a peer with the bit has a part in some segment, as long as no segment is closed
while it has a shadow: the shadow of a closed segment keeps the bit and answers for nothing. At the
end the sender of the last message loses its bit, and nobody else does. So the peers that are still
at work on other segments when the download falls back carry it on.

* `waiting_move` : a move that closes no shadowed segment keeps the bits in order;
* `syncing_of_end` : who carries the bit when the download ends;
* `noSync_iff` : when nobody does.
-/
import Libdogecoin.ParHdrSound

namespace Libdogecoin

namespace SpvClient

variable {pf : Platform} {sc : Scope} {c c' : SpvClient} {i p q time now : ℕ}
  {f g : ParHdrSeg → ParHdrSeg}

/-! ## During the download -/

/-- A peer with the bit owns or shadows a segment. -/
def Waiting (c : SpvClient) : Prop :=
  ∀ q, c.syncing q → ∃ (i : ℕ) (seg : ParHdrSeg), c.parHdr.segs[i]? = some seg ∧ Holds seg q

theorem Waiting.of_eq (hw : Waiting c) (hsegs : c'.parHdr.segs = c.parHdr.segs)
    (hsync : ∀ q, c'.syncing q → c.syncing q) : Waiting c' := by
  intro q hq
  rw [hsegs]
  exact hw q (hsync q hq)

variable {seg : ParHdrSeg}

/-- One segment changes. Whoever carries the bit then has a part in it, or carried it before and did
not lose a part in this segment. -/
theorem Waiting.modify (hw : Waiting c) (hseg : c.parHdr.segs[i]? = some seg)
    (hsegs : c'.parHdr.segs = c.parHdr.segs.modify i f)
    (hsync : ∀ q, c'.syncing q → Holds (f seg) q ∨
      (c.syncing q ∧ (Holds seg q → Holds (f seg) q))) :
    Waiting c' := by
  have hnew : c'.parHdr.segs[i]? = some (f seg) := by
    rw [hsegs, List.getElem?_modify_eq, hseg]
    rfl
  intro q hq
  rcases hsync q hq with hholds | ⟨hold, hkeep⟩
  · exact ⟨i, f seg, hnew, hholds⟩
  · obtain ⟨k, seg', hk, hholds⟩ := hw q hold
    by_cases hki : i = k
    · subst hki
      rw [hseg] at hk
      obtain rfl := Option.some.inj hk
      exact ⟨i, f seg, hnew, hkeep hholds⟩
    · refine ⟨k, seg', ?_, hholds⟩
      rw [hsegs, List.getElem?_modify_ne f _ hki]
      exact hk

/-- The bit after it was cleared for the owner, if there is one. -/
theorem syncing_clearOwner {owner : Option ℕ} (h : (c.clearOwner owner).syncing q) :
    c.syncing q ∧ owner ≠ some q := by
  cases owner with
  | none => exact ⟨h, fun hq => by cases hq⟩
  | some p =>
    rcases syncing_setHeadersync h with ⟨-, hon⟩ | ⟨hne, hsync⟩
    · cases hon
    · exact ⟨hsync, fun hq => hne (Option.some.inj hq).symm⟩

/-- A request leaves the segments as they are but for the time of the request. -/
theorem Waiting.request (hw : Waiting c) (hseg : c.parHdr.segs[i]? = some seg)
    (hholds : Holds seg p) :
    Waiting (c.parHdrSendGetheaders p i time) := by
  refine hw.modify (f := ParHdrSeg.requested time) hseg rfl fun q hq => ?_
  rcases syncing_setHeadersync hq with ⟨rfl, -⟩ | ⟨-, hsync⟩
  · exact Or.inl hholds
  · exact Or.inr ⟨hsync, fun h => h⟩

/-- A peer gets a part in a segment where nobody loses one. -/
theorem Waiting.hold (hw : Waiting c) (hseg : c.parHdr.segs[i]? = some seg)
    (hgain : Holds (f seg) p) (hkeep : ∀ q, Holds seg q → Holds (f seg) q) :
    Waiting ((c.modifySeg i f).parHdrSendGetheaders p i time) := by
  have hmod : Waiting (c.modifySeg i f) := hw.modify hseg rfl fun q hq => Or.inr ⟨hq, hkeep q⟩
  exact hmod.request (seg_modifySeg_self hseg) hgain

/-- A segment that nobody has a part in changes. -/
theorem Waiting.modify_idle (hw : Waiting c) (hseg : c.parHdr.segs[i]? = some seg)
    (hidle : ∀ q, ¬ Holds seg q) :
    Waiting (c.modifySeg i f) :=
  hw.modify hseg rfl fun q hq => Or.inr ⟨hq, fun hholds => absurd hholds (hidle q)⟩

/-- Segment `i` is closed for its owner, who loses the bit, and it has no shadow. -/
theorem Waiting.close (hw : Waiting c) (hseg : c.parHdr.segs[i]? = some seg)
    (howner : seg.nodeId = some p) (hshadow : seg.shadowId = none)
    (hsegs : c'.parHdr.segs = c.parHdr.segs.modify i f)
    (hsync : ∀ q, c'.syncing q → (c.setHeadersync p false).syncing q) : Waiting c' := by
  refine hw.modify hseg hsegs fun q hq => ?_
  rcases syncing_setHeadersync (hsync q hq) with ⟨-, hon⟩ | ⟨hne, hold⟩
  · cases hon
  · refine Or.inr ⟨hold, fun hholds => ?_⟩
    rcases hholds with hown | hsh
    · rw [howner] at hown
      exact absurd (Option.some.inj hown).symm hne
    · rw [hshadow] at hsh
      cases hsh

/-- The owner of a segment loses the bit and its part, which nobody else does. -/
theorem Waiting.preempt (hw : Waiting c) {seg : ParHdrSeg} (hseg : c.parHdr.segs[i]? = some seg)
    (howner : seg.nodeId = some p) :
    Waiting ((c.setHeadersync p false).modifySeg i ParHdrSeg.preempt) := by
  refine hw.modify (f := ParHdrSeg.preempt) hseg rfl fun q hq => ?_
  rcases syncing_setHeadersync (c := c) hq with ⟨-, hon⟩ | ⟨hne, hold⟩
  · cases hon
  · refine Or.inr ⟨hold, fun hholds => Or.inr (hholds.resolve_left fun hown => hne ?_)⟩
    rw [howner] at hown
    exact (Option.some.inj hown).symm

/-- A segment that is complete changes, in which nobody has a part. -/
theorem Waiting.modify_complete (hw : Waiting c) (hs : Sound c)
    (hseg : c.parHdr.segs[i]? = some seg) (hdone : seg.complete = true) :
    Waiting (c.modifySeg i f) := by
  obtain ⟨hnode, hshadow⟩ := (hs.seg _ _ hseg).idle_of_complete hdone
  exact hw.modify_idle hseg fun _ => not_holds_of_none hnode hshadow

/-- **A move that closes no shadowed segment keeps the bits in order.** -/
theorem waiting_move (h : Move pf sc c c') (hno : ¬ sc.losesShadow) (hs : Sound c)
    (hw : Waiting c) :
    Waiting c' := by
  cases h with
  | link h => exact hw.of_eq rfl h
  | rate r => exact hw.of_eq rfl fun _ hq => hq
  | skipPow on => exact hw.of_eq rfl fun _ hq => hq
  | stop => exact hw.of_eq rfl fun _ hq => hq
  | connect => exact hw.of_eq rfl fun _ hq => hq
  | give hseg hopen hfree hidle =>
    refine hw.hold hseg (Or.inl rfl) fun q hq => ?_
    rcases hq with hq | hq
    · rw [hfree] at hq
      cases hq
    · exact Or.inr hq
  | request hseg hopen howner => exact hw.request hseg (Or.inl howner)
  | @takeOver i p time seg hseg hopen hshadow =>
    refine hw.modify (f := ParHdrSeg.takeOver p time) hseg ?_ fun q hq => ?_
    · rw [segs_modifySeg, parHdr_clearOwner]
    · -- the old owner loses the bit, and the shadow is the new owner
      obtain ⟨hold, hne⟩ := syncing_clearOwner (q := q) hq
      refine Or.inr ⟨hold, fun hholds => ?_⟩
      have hqp : q = p := by
        have hsh := hholds.resolve_left hne
        rw [hshadow] at hsh
        exact (Option.some.inj hsh).symm
      exact Or.inl (by rw [hqp]; rfl)
  | @stage i seg b hseg hopen hok hhangs =>
    have hframe : StagedFrom seg (stageBatch pf b seg) := stagedFrom_stageBatch b seg
    refine hw.modify hseg rfl fun q hq => Or.inr ⟨hq, fun hholds => ?_⟩
    unfold Holds
    rw [hframe.nodeId, hframe.shadowId]
    exact hholds
  | @reject i p seg hash height hseg hopen howner hshadow hheight =>
    exact hw.close (f := ParHdrSeg.reopen hash height) hseg howner (hshadow.resolve_right hno) rfl
      fun _ hq => hq
  | finish hseg hopen howner hshadow htip =>
    exact hw.close hseg howner (hshadow.resolve_right hno) rfl fun _ hq => hq
  | failed hseg hdone hflushed htip =>
    exact (hw.modify_complete hs hseg hdone).of_eq rfl fun _ hq => hq
  | flushed hactive hseg hdone hflushed htail hconn =>
    exact (hw.modify_complete (f := ParHdrSeg.markFlushed) hs hseg hdone).of_eq rfl fun _ hq => hq
  | dropBuf hactive hseg hbuf =>
    exact hw.modify (f := ParHdrSeg.dropBuf) hseg rfl fun q hq => Or.inr ⟨hq, fun hholds => hholds⟩
  | release hseg hopen howner hshadow =>
    exact hw.close hseg howner (hshadow.resolve_right hno) rfl fun _ hq => hq
  | preempt hseg hopen howner hshadow => exact hw.preempt hseg howner
  | @handOver q p time seg hseg hopen howner hidle =>
    refine (hw.preempt hseg howner).hold (seg_modifySeg_self hseg) (Or.inl rfl) fun r hr => ?_
    exact hr.elim (fun h => by cases h) Or.inr
  | @shadow i q p time seg hseg hopen howner hnone hidle =>
    refine hw.hold hseg (Or.inr rfl) fun r hr => ?_
    rcases hr with hr | hr
    · exact Or.inl hr
    · rw [hnone] at hr
      cases hr

theorem waiting_init {start : HeadersDb → Prop} (h : SyncStarted start c) : Waiting c := by
  rintro q ⟨n, hn, hsync⟩
  rw [h.idle n (List.mem_of_getElem? hn)] at hsync
  cases hsync

/-! ## The end of the download -/

theorem nodes_fallback (c : SpvClient) (ks : List ℕ) : (c.fallback ks).nodes = c.nodes := by
  have hfold : ∀ (ks : List ℕ) (c : SpvClient), (ks.foldl releaseBuf c).nodes = c.nodes := by
    intro ks
    induction ks with
    | nil => exact fun _ => rfl
    | cons k ks ih =>
      intro c
      rw [List.foldl_cons, ih]
      unfold releaseBuf
      cases c.parHdr.segs[k]? with
      | none => rfl
      | some seg =>
        dsimp only
        split_ifs
        · rfl
        · rfl
  exact hfold ks c.deactivate

theorem nodes_failFlush (h : c.failFlush seg = some c') : c'.nodes = c.nodes := by
  rw [failFlush, Option.bind_eq_bind, Option.bind_eq_some_iff] at h
  obtain ⟨tip, -, h⟩ := h
  obtain rfl := Option.some.inj h
  split_ifs
  · exact nodes_fallback _ _
  · rfl

theorem nodes_flushHead {goesOn : Bool} (h : flushHead pf c seg = some (c', goesOn)) :
    c'.nodes = c.nodes := by
  unfold flushHead at h
  split at h
  · obtain ⟨d, hd, heq⟩ := Option.map_eq_some_iff.mp h
    obtain ⟨rfl, rfl⟩ := Prod.mk.inj heq
    exact nodes_failFlush hd
  rw [Option.bind_eq_bind, Option.bind_eq_some_iff] at h
  obtain ⟨⟨db, log, connected⟩, -, h⟩ := h
  dsimp only at h
  split at h
  · obtain ⟨rfl, rfl⟩ := Prod.mk.inj (Option.some.inj h)
    rfl
  · obtain ⟨d, hd, heq⟩ := Option.map_eq_some_iff.mp h
    obtain ⟨rfl, rfl⟩ := Prod.mk.inj heq
    have hnodes := nodes_failFlush hd
    exact hnodes

theorem nodes_flushLoop {n : ℕ} (h : flushLoop pf n c = some c') : c'.nodes = c.nodes := by
  induction n generalizing c with
  | zero =>
    obtain rfl := Option.some.inj h
    rfl
  | succ n ih =>
    unfold flushLoop at h
    split at h
    · obtain rfl := Option.some.inj h
      rfl
    split at h
    · rw [Option.bind_eq_bind, Option.bind_eq_some_iff] at h
      obtain ⟨⟨d, goesOn⟩, hround, h⟩ := h
      cases goesOn with
      | true => exact (ih h).trans (nodes_flushHead hround)
      | false =>
        obtain rfl := Option.some.inj h
        exact nodes_flushHead hround
    · obtain rfl := Option.some.inj h
      rfl

theorem nodes_parHdrFlush (h : parHdrFlush pf c = some c') : c'.nodes = c.nodes := by
  rw [parHdrFlush, Option.bind_eq_bind, Option.bind_eq_some_iff] at h
  obtain ⟨d, hloop, h⟩ := h
  obtain rfl := Option.some.inj h
  have hnodes := nodes_flushLoop hloop
  exact hnodes

/-- Nobody is assigned anything when the download is over, or about to be. -/
theorem parHdrAssign_of_over (h : c.parHdr.active = false ∨ c.parHdr.segs.length ≤
    c.parHdr.flushIdx) :
    c.parHdrAssign p time = c := by
  unfold parHdrAssign
  rcases h with hoff | hdone
  · simp [hoff]
  · have hnone : c.parHdr.firstFree = none := by
      unfold ParHdrState.firstFree
      rw [List.find?_eq_none]
      intro k hk
      rw [List.mem_range] at hk
      rw [decide_eq_false (by omega), Bool.false_and]
      exact Bool.false_ne_true
    rw [hnone]
    split_ifs
    · rfl
    · rfl
    · rfl
    · rfl

/-- Assigning a segment moves neither end of the array. -/
theorem bounds_parHdrAssign (c : SpvClient) (p time : ℕ) :
    (c.parHdrAssign p time).parHdr.segs.length = c.parHdr.segs.length ∧
      (c.parHdrAssign p time).parHdr.flushIdx = c.parHdr.flushIdx := by
  unfold parHdrAssign
  split_ifs
  · exact ⟨rfl, rfl⟩
  · exact ⟨rfl, rfl⟩
  · exact ⟨rfl, rfl⟩
  cases c.parHdr.firstFree with
  | none => exact ⟨rfl, rfl⟩
  | some i =>
    dsimp only
    split_ifs
    · exact ⟨rfl, rfl⟩
    · refine ⟨?_, rfl⟩
      show ((c.parHdr.segs.modify i _).modify i _).length = _
      rw [List.length_modify, List.length_modify]

/-- The message that ends the download costs its sender the bit, and an owner that it takes a
segment from. -/
theorem nodes_afterHeaders (hactive : c.parHdr.active = true) (hdone : c'.parHdr.active = false)
    (h : afterHeaders pf c p i seg time = some c') :
    c'.nodes = (c.setHeadersync p false).nodes := by
  unfold afterHeaders at h
  split at h
  · split at h
    · -- the segment is rejected for the last time
      rw [rejectSeg, Option.bind_eq_bind, Option.bind_eq_some_iff] at h
      obtain ⟨tip, -, h⟩ := h
      obtain rfl := Option.some.inj h
      split_ifs at hdone ⊢ with hfails
      all_goals first
        | exact nodes_fallback _ _
        | (rw [active_parHdrAssign] at hdone
           exact absurd (hactive.symm.trans hdone) (by simp))
    · -- the segment is complete, and the flush fails for the last time or comes to the end
      rw [completeSeg, Option.bind_eq_bind, Option.bind_eq_some_iff] at h
      obtain ⟨d, hflush, h⟩ := h
      obtain rfl := Option.some.inj h
      have hnodes := nodes_parHdrFlush hflush
      have hover : d.parHdr.active = false ∨ d.parHdr.segs.length ≤ d.parHdr.flushIdx := by
        by_contra hnot
        rw [not_or, Bool.not_eq_false, Nat.not_le] at hnot
        obtain ⟨hlen, hidx⟩ := bounds_parHdrAssign d p time
        unfold endIfDone at hdone
        rw [if_neg (by omega), active_parHdrAssign, hnot.1] at hdone
        cases hdone
      rw [parHdrAssign_of_over hover]
      unfold endIfDone
      split_ifs
      · exact hnodes
      · exact hnodes
  · obtain rfl := Option.some.inj h
    exact absurd (hactive.symm.trans hdone) (by simp)

theorem active_raceLoop (ref : ℕ) (is : List ℕ) (idleCount : ℕ) (c : SpvClient) :
    (raceLoop ref now time is idleCount c).parHdr.active = c.parHdr.active := by
  induction is generalizing idleCount c with
  | nil => rfl
  | cons i is ih =>
    unfold raceLoop
    split_ifs
    · rfl
    cases c.parHdr.segs[i]? with
    | none => rfl
    | some seg =>
      dsimp only
      split_ifs
      · exact ih _ _
      cases c.idlePeer seg.nodeId with
      | none => rfl
      | some cand => exact ih _ _

theorem active_preemptOwner (c : SpvClient) : c.preemptOwner.parHdr.active = c.parHdr.active := by
  unfold preemptOwner
  cases c.parHdr.segs[c.parHdr.flushIdx]? with
  | none => rfl
  | some head =>
    show (c.clearOwner head.nodeId).parHdr.active = c.parHdr.active
    rw [parHdr_clearOwner]

/-- The maintenance does not end the download. -/
theorem active_parHdrReclaim (c : SpvClient) (now time : ℕ) :
    (c.parHdrReclaim now time).parHdr.active = c.parHdr.active := by
  have hmid : ((c.releaseAll now).assignAll time).parHdr.active = c.parHdr.active := by
    unfold assignAll releaseAll
    rw [active_foldl (fun d x => active_parHdrAssign d x time), active_foldl active_releaseStale]
  have hpreempt : ∀ d : SpvClient, (d.parHdrPreemptHead now time).parHdr.active =
    d.parHdr.active := by
    intro d
    unfold parHdrPreemptHead
    cases d.preemptBy now with
    | none => exact (noteMedian_frame d now).2.2.1
    | some idle =>
      show ((d.noteMedian now).preemptOwner.parHdrAssign idle time).parHdr.active = _
      rw [active_parHdrAssign, active_preemptOwner]
      exact (noteMedian_frame d now).2.2.1
  unfold parHdrReclaim
  split_ifs
  · rfl
  · unfold parHdrRaceTail
    split_ifs
    · rw [hpreempt, hmid]
    · rw [active_raceLoop, hpreempt, hmid]

/-- The segment that a step answers. -/
def answered (c : SpvClient) : SyncOp → Option ℕ
  | .headers p _ _ _ => c.parHdr.segOf p
  | _ => none

theorem syncing_setHeadersync_false :
    (c.setHeadersync p false).syncing q ↔ c.syncing q ∧ q ≠ p := by
  constructor
  · intro h
    rcases syncing_setHeadersync h with ⟨-, hon⟩ | ⟨hne, hsync⟩
    · cases hon
    · exact ⟨hsync, hne⟩
  · rintro ⟨hsync, hne⟩
    exact syncing_of_ne hne hsync

/-- The bits after a takeover. -/
theorem syncing_takeOver (hseg : c.parHdr.segs[i]? = some seg) :
    (c.takeOver p i time).syncing q ↔ c.syncing q ∧ (seg.nodeId = some q → q = p) := by
  unfold takeOver
  rw [hseg]
  dsimp only
  split_ifs with howner
  · rw [howner]
    exact ⟨fun h => ⟨h, fun hq => (Option.some.inj hq).symm⟩, fun h => h.1⟩
  · show (c.clearOwner seg.nodeId).syncing q ↔ _
    cases hnode : seg.nodeId with
    | none => exact ⟨fun h => ⟨h, fun hq => by cases hq⟩, fun h => h.1⟩
    | some r =>
      show (c.setHeadersync r false).syncing q ↔ _
      rw [syncing_setHeadersync_false]
      refine and_congr_right fun _ => ⟨fun hne hq => ?_, fun hq hqr => ?_⟩
      · exact absurd (Option.some.inj hq).symm hne
      · subst hqr
        exact howner (hnode.trans (congrArg some (hq rfl)))

/-- **The end of the download.** The step that ends it is a headers message, and those who carry the
bit then are those who carried it before and had no part in the answered segment. -/
theorem syncing_of_end {op : SyncOp} (hkeeps : ¬ LosesShadow c op)
    (hstep : syncStep pf c op = some c') (hactive : c.parHdr.active = true)
    (hdone : c'.parHdr.active = false) :
    ∃ (i : ℕ) (seg : ParHdrSeg), c.answered op = some i ∧ c.parHdr.segs[i]? = some seg ∧
      ∀ q, c'.syncing q ↔ c.syncing q ∧ ¬ Holds seg q := by
  cases op with
  | addPeer =>
    obtain rfl := Option.some.inj hstep
    exact absurd (hactive.symm.trans hdone) (by simp)
  | link p connected versionHandshake keepsFlags =>
    obtain rfl := Option.some.inj hstep
    exact absurd (hactive.symm.trans hdone) (by simp)
  | assign p time =>
    obtain rfl := Option.some.inj hstep
    rw [active_parHdrAssign, hactive] at hdone
    cases hdone
  | reclaim now time =>
    obtain rfl := Option.some.inj hstep
    rw [active_parHdrReclaim, hactive] at hdone
    cases hdone
  | headers p count buf time =>
    unfold syncStep at hstep
    dsimp only at hstep
    rw [if_pos hactive] at hstep
    obtain ⟨-, rfl⟩ | ⟨i, seg, seg1, hi, hseg, hopen, hholds, hans, hrest⟩ :=
      parHdrRecv_eq_some hstep
    · exact absurd (hactive.symm.trans hdone) (by simp)
    obtain ⟨-, rfl⟩ | ⟨hcont, hafter⟩ := hrest
    · exact absurd ((hans.active.trans hactive).symm.trans hdone) (by simp)
    refine ⟨i, seg, hi, hseg, fun q => ?_⟩
    have hact : (received pf (c.takeOver p i time) i
      (Batch.parse count buf)).parHdr.active = true :=
      hans.active.trans hactive
    have hnodes := nodes_afterHeaders hact hdone hafter
    have hsync : c'.syncing q ↔ ((c.takeOver p i time).setHeadersync p false).syncing q := by
      unfold syncing
      rw [hnodes]
      exact Iff.rfl
    rw [hsync, syncing_setHeadersync_false, syncing_takeOver hseg, and_assoc]
    refine and_congr_right fun _ => ⟨fun h hq => ?_, fun hnot => ?_⟩
    · obtain ⟨hown, hne⟩ := h
      rcases hq with hq | hq
      · exact hne (hown hq)
      · -- a shadow other than the sender would be lost
        rcases hholds with howner | hshadow
        · have hstop : seg.stopHeight ≤ seg.tipHeight + (Batch.parse count buf).headers.length := by
            by_contra hlow
            have hframe : StagedFrom seg1 (stageBatch pf (Batch.parse count buf) seg1) :=
              stagedFrom_stageBatch (Batch.parse count buf) seg1
            have hnot : ¬ (stageBatch pf (Batch.parse count buf) seg1).stopHeight ≤
                (stageBatch pf (Batch.parse count buf) seg1).tipHeight := by
              rw [hframe.stopHeight, (count_stageBatch _ _).2, hans.stopHeight, hans.tipHeight]
              exact hlow
            unfold afterHeaders at hafter
            rw [if_neg hnot] at hafter
            obtain rfl := Option.some.inj hafter
            change (c.takeOver p i time).parHdr.active = false at hdone
            rw [hans.active, hactive] at hdone
            cases hdone
          have hsome : seg.shadowId ≠ none := fun hnone => by rw [hq] at hnone; cases hnone
          exact hkeeps ⟨i, seg, hi, hseg, howner, hsome, hcont, hstop⟩
        · rw [hshadow] at hq
          exact hne (Option.some.inj hq).symm
    · refine ⟨fun hown => absurd (Or.inl hown) hnot, ?_⟩
      rintro rfl
      exact hnot hholds

/-- **When the bit is gone.** In a run in which no segment is closed while it has a shadow, nobody
carries the bit at the end of the download if and only if, before the last message, nobody carried
it for another segment than the answered one. -/
theorem noSync_iff {start : HeadersDb → Prop} {op : SyncOp}
    (hreach : (syncSystem pf start).Reach (fun c op => ¬ LosesShadow c op) c)
    (hkeeps : ¬ LosesShadow c op) (hstep : syncStep pf c op = some c')
    (hactive : c.parHdr.active = true) (hdone : c'.parHdr.active = false) :
    (∀ q, ¬ c'.syncing q) ↔ ∀ (k : ℕ) (seg : ParHdrSeg) (q : ℕ), c.parHdr.segs[k]? = some seg →
      Holds seg q → c.syncing q → c.answered op = some k := by
  have hboth : Sound c ∧ Waiting c := by
    have hscope : (syncSystem pf start).Reach
        (Scope.Allows { stages := fun _ => True, orphans := True, losesShadow := False }) c :=
      hreach.mono fun _ _ hop => ⟨fun _ _ => trivial, fun _ => trivial, hop⟩
    exact invariant_of_reach (P := fun c => Sound c ∧ Waiting c)
      (fun _ hc => ⟨sound_init hc, waiting_init hc⟩)
      (fun _ _ hmove hc => ⟨sound_move hmove hc.1,
        waiting_move hmove (fun h => h) hc.1 hc.2⟩) hscope
  obtain ⟨hs, hw⟩ := hboth
  obtain ⟨i, seg, hi, hseg, hsync⟩ := syncing_of_end hkeeps hstep hactive hdone
  rw [hi]
  constructor
  · intro hnone k seg' q hk hholds hq
    have hin : Holds seg q := by
      by_contra hout
      exact hnone q ((hsync q).mpr ⟨hq, hout⟩)
    exact congrArg some (hs.roles i k seg seg' q hseg hk hin hholds)
  · intro honly q hq
    obtain ⟨hq, hout⟩ := (hsync q).mp hq
    obtain ⟨k, seg', hk, hholds⟩ := hw q hq
    obtain rfl := Option.some.inj (honly k seg' q hk hholds hq)
    rw [hseg] at hk
    obtain rfl := Option.some.inj hk
    exact hout hholds

end SpvClient

end Libdogecoin
