/-
# What the check of the download counts

`par_hdr_check` counts what a segment should not be. Most of it never happens, by `Sound`. Two kinds
of segments are left: those with a shadow and without an owner, and those that were reopened below
their start, at the tip of the database.

* `headOrphan_move` : only the flush head is without an owner while it has a shadow, and only
  `par_hdr_preempt_head` makes it so;
* `parHdrCheck_of_reach` : the check counts these two kinds of segments and nothing else.
-/
import Libdogecoin.ParHdrSound

namespace Libdogecoin

namespace ParHdrSeg

/-- The segment has a shadow and no owner. -/
def orphaned (seg : ParHdrSeg) : Bool := seg.shadowId.isSome && seg.nodeId.isNone

/-- The segment goes on from a header below its start. -/
def belowStart (seg : ParHdrSeg) : Bool := decide (seg.tipHeight < seg.startHeight)

theorem not_orphaned_of_owner {seg : ParHdrSeg} {p : ℕ} (h : seg.nodeId = some p) :
    ¬ seg.orphaned = true := by
  simp [orphaned, h]

theorem not_orphaned_of_shadow {seg : ParHdrSeg} (h : seg.shadowId = none) :
    ¬ seg.orphaned = true := by
  simp [orphaned, h]

end ParHdrSeg

namespace SpvClient

variable {pf : Platform} {sc : Scope} {c c' : SpvClient} {i p time : ℕ} {f : ParHdrSeg → ParHdrSeg}

/-! ## Shadows without an owner -/

/-- Only the flush head may have a shadow and no owner, and only where `orphans` holds. -/
def HeadOrphan (orphans : Prop) (c : SpvClient) : Prop :=
  ∀ (i : ℕ) (seg : ParHdrSeg), c.parHdr.segs[i]? = some seg → seg.orphaned = true →
    i = c.parHdr.flushIdx ∧ orphans

variable {orphans : Prop}

/-- The invariant looks at the segments and the flush index only. -/
theorem HeadOrphan.of_eq (ho : HeadOrphan orphans c) (hsegs : c'.parHdr.segs = c.parHdr.segs)
    (hidx : c'.parHdr.flushIdx = c.parHdr.flushIdx) : HeadOrphan orphans c' := by
  intro i seg hseg horphaned
  rw [hsegs] at hseg
  rw [hidx]
  exact ho i seg hseg horphaned

variable {seg : ParHdrSeg}

/-- One segment changes, and the flush index does not. -/
theorem HeadOrphan.modify (ho : HeadOrphan orphans c) (hseg : c.parHdr.segs[i]? = some seg)
    (hf : (f seg).orphaned = true → i = c.parHdr.flushIdx ∧ orphans)
    (hsegs : c'.parHdr.segs = (c.modifySeg i f).parHdr.segs)
    (hidx : c'.parHdr.flushIdx = c.parHdr.flushIdx) :
    HeadOrphan orphans c' := by
  intro k seg' hk horphaned
  rw [hsegs] at hk
  rw [hidx]
  by_cases hki : i = k
  · subst hki
    rw [seg_modifySeg_self hseg] at hk
    obtain rfl := Option.some.inj hk
    exact hf horphaned
  · rw [seg_modifySeg_of_ne hki] at hk
    exact ho k seg' hk horphaned

/-- A request is not about ownership. -/
theorem HeadOrphan.request (ho : HeadOrphan orphans c) (hseg : c.parHdr.segs[i]? = some seg) :
    HeadOrphan orphans (c.parHdrSendGetheaders p i time) :=
  ho.modify (f := ParHdrSeg.requested time) hseg (fun horphaned => ho i seg hseg horphaned) rfl rfl

/-- A segment that has an owner afterwards. -/
theorem HeadOrphan.own (ho : HeadOrphan orphans c) {q : ℕ} (hseg : c.parHdr.segs[i]? = some seg)
    (howner : (f seg).nodeId = some q) (hsegs : c'.parHdr.segs = (c.modifySeg i f).parHdr.segs)
    (hidx : c'.parHdr.flushIdx = c.parHdr.flushIdx) : HeadOrphan orphans c' :=
  ho.modify hseg (fun horphaned => absurd horphaned (ParHdrSeg.not_orphaned_of_owner howner))
    hsegs hidx

/-- A segment that has no shadow afterwards. -/
theorem HeadOrphan.unshadow (ho : HeadOrphan orphans c) (hseg : c.parHdr.segs[i]? = some seg)
    (hshadow : (f seg).shadowId = none) (hsegs : c'.parHdr.segs = (c.modifySeg i f).parHdr.segs)
    (hidx : c'.parHdr.flushIdx = c.parHdr.flushIdx) : HeadOrphan orphans c' :=
  ho.modify hseg (fun horphaned => absurd horphaned (ParHdrSeg.not_orphaned_of_shadow hshadow))
    hsegs hidx

/-- The next segment becomes the flush head. It was none, so it is not orphaned. -/
theorem HeadOrphan.headFlushed (ho : HeadOrphan orphans c)
    (hseg : c.parHdr.segs[c.parHdr.flushIdx]? = some seg) (hshadow : seg.shadowId = none) :
    HeadOrphan orphans (c.headFlushed seg) := by
  have hmarked : HeadOrphan orphans (c.modifySeg c.parHdr.flushIdx ParHdrSeg.markFlushed) :=
    ho.unshadow hseg hshadow rfl rfl
  intro k seg' hk horphaned
  obtain ⟨hidx, -⟩ := hmarked k seg' hk horphaned
  change k = c.parHdr.flushIdx at hidx
  subst hidx
  change (c.modifySeg c.parHdr.flushIdx ParHdrSeg.markFlushed).parHdr.segs[c.parHdr.flushIdx]? =
    some seg' at hk
  rw [seg_modifySeg_self hseg] at hk
  obtain rfl := Option.some.inj hk
  exact absurd horphaned (ParHdrSeg.not_orphaned_of_shadow hshadow)

/-- **Every move** keeps it. -/
theorem headOrphan_move (h : Move pf sc c c') (hs : Sound c) (ho : HeadOrphan sc.orphans c) :
    HeadOrphan sc.orphans c' := by
  cases h with
  | link h => exact ho.of_eq rfl rfl
  | rate r => exact ho.of_eq rfl rfl
  | skipPow on => exact ho.of_eq rfl rfl
  | stop => exact ho.of_eq rfl rfl
  | connect => exact ho.of_eq rfl rfl
  | @give i p time seg hseg hopen hfree hidle =>
    have hgiven : HeadOrphan sc.orphans (c.modifySeg i (ParHdrSeg.assign p time)) :=
      ho.own hseg rfl rfl rfl
    exact hgiven.request (seg_modifySeg_self hseg)
  | request hseg hopen howner => exact ho.request hseg
  | @takeOver i p time seg hseg hopen hshadow =>
    have hsame := parHdr_clearOwner c seg.nodeId
    have ho' : HeadOrphan sc.orphans (c.clearOwner seg.nodeId) :=
      ho.of_eq (by rw [hsame]) (by rw [hsame])
    exact ho'.own (by rw [hsame]; exact hseg) rfl rfl rfl
  | @stage i seg b hseg hopen hok hhangs =>
    have hframe : StagedFrom seg (stageBatch pf b seg) := stagedFrom_stageBatch b seg
    refine ho.modify (f := stageBatch pf b) hseg (fun horphaned => ho i seg hseg ?_) rfl rfl
    unfold ParHdrSeg.orphaned at horphaned
    rw [hframe.shadowId, hframe.nodeId] at horphaned
    exact horphaned
  | @reject i p seg hash height hseg hopen howner hshadow hheight =>
    exact ho.unshadow (f := ParHdrSeg.reopen hash height) hseg rfl rfl rfl
  | @finish i p seg hseg hopen howner hshadow htip =>
    exact ho.unshadow (f := ParHdrSeg.finish) hseg rfl rfl rfl
  | @failed seg tip hseg hdone hflushed htip =>
    exact ho.unshadow (f := ParHdrSeg.reopen tip.hash tip.height) hseg rfl rfl rfl
  | @flushed seg db log hactive hseg hdone hflushed htail hconn =>
    have hshadow := ((hs.seg _ seg hseg).idle_of_complete hdone).2
    have ho' : HeadOrphan sc.orphans { c with headersDb := db, headerConnected := log } :=
      ho.of_eq rfl rfl
    exact ho'.headFlushed hseg hshadow
  | @dropBuf k seg hactive hseg hbuf =>
    exact ho.modify (f := ParHdrSeg.dropBuf) hseg (fun horphaned => ho k seg hseg horphaned) rfl rfl
  | @release i q seg hseg hopen howner hshadow =>
    exact ho.unshadow (f := ParHdrSeg.release) hseg rfl rfl rfl
  | @preempt q seg hseg hopen howner hshadow =>
    -- the shadow stays
    refine ho.modify (f := ParHdrSeg.preempt) hseg (fun horphaned =>
      ⟨rfl, hshadow.resolve_left fun hnone => ?_⟩) rfl rfl
    exact @ParHdrSeg.not_orphaned_of_shadow seg.preempt hnone horphaned
  | @handOver q p time seg hseg hopen howner hidle =>
    -- nobody owns the head in between, but then the idle peer does
    have hgiven : HeadOrphan sc.orphans (((c.setHeadersync q false).modifySeg c.parHdr.flushIdx
        ParHdrSeg.preempt).modifySeg c.parHdr.flushIdx (ParHdrSeg.assign p time)) :=
      ho.own (f := ParHdrSeg.assign p time ∘ ParHdrSeg.preempt) hseg rfl
        (List.modify_modify_eq _ _ _ _) rfl
    exact hgiven.request (seg_modifySeg_self (seg_modifySeg_self hseg))
  | @shadow i q p time seg hseg hopen howner hnone hidle =>
    have hgiven : HeadOrphan sc.orphans (c.modifySeg i (ParHdrSeg.shadow p)) :=
      ho.own hseg howner rfl rfl
    exact hgiven.request (seg_modifySeg_self hseg)

theorem headOrphan_init {start : HeadersDb → Prop} (h : SyncStarted start c) :
    HeadOrphan orphans c := by
  obtain ⟨first, stops, -, -, hs⟩ := parHdrInit_eq_some h.parHdr_eq
  intro i seg hseg horphaned
  rw [hs] at hseg
  obtain ⟨a, b, -, -, rfl⟩ := segsFrom_getElem? hseg
  exact absurd horphaned (ParHdrSeg.not_orphaned_of_shadow rfl)

/-! ## What is counted -/

/-- The first violations in the list of a segment. -/
theorem count_violations (orphaned below : Bool) :
    List.count true [false, false, false, false, false, false, orphaned, false, false,
      below, false, false] =
      orphaned.toNat + below.toNat := by
  cases orphaned <;> cases below <;> rfl

/-- No other segment behind has the same owner. -/
theorem Sound.countP_owner (hs : Sound c) (hseg : c.parHdr.segs[i]? = some seg)
    (howner : seg.nodeId.isSome = true) :
    (c.parHdr.segs.drop (i + 1)).countP
    (fun other => !other.complete && decide (other.nodeId = seg.nodeId)) = 0 := by
  obtain ⟨p, hp⟩ := Option.isSome_iff_exists.mp howner
  rw [List.countP_eq_zero]
  intro other hmem hsame
  obtain ⟨k, hk⟩ := List.mem_iff_getElem?.mp hmem
  rw [List.getElem?_drop] at hk
  rw [Bool.and_eq_true, decide_eq_true_eq] at hsame
  have heq := hs.roles i (i + 1 + k) seg other p hseg hk (Or.inl hp) (Or.inl (hsame.2.trans hp))
  omega

/-- **One segment.** -/
theorem Sound.segViolations_eq (hs : Sound c) (hseg : c.parHdr.segs[i]? = some seg) :
    c.parHdr.segViolations i seg = seg.orphaned.toNat + seg.belowStart.toNat := by
  have h := hs.seg i seg hseg
  have hflushed : (decide (i < c.parHdr.flushIdx) && !seg.flushed) = false := by
    by_cases hi : i < c.parHdr.flushIdx
    · rw [h.flushed_iff.mpr hi, Bool.not_true, Bool.and_false]
    · rw [decide_eq_false hi, Bool.false_and]
  have hahead : (decide (c.parHdr.flushIdx ≤ i) && seg.flushed) = false := by
    by_cases hi : c.parHdr.flushIdx ≤ i
    · have hnot : seg.flushed = false := by
        rw [← Bool.not_eq_true]
        exact fun hf => absurd (h.flushed_iff.mp hf) (Nat.not_lt.mpr hi)
      rw [hnot, Bool.and_false]
    · rw [decide_eq_false hi, Bool.false_and]
  have hcomplete : (seg.flushed && !seg.complete) = false := by
    cases hf : seg.flushed with
    | false => rfl
    | true => rw [(h.complete_of_flushed hf).1]; rfl
  have hreleased : (seg.flushed && seg.buf.isSome) = false := by
    cases hf : seg.flushed with
    | false => rfl
    | true => rw [(h.complete_of_flushed hf).2]; rfl
  have howner : (seg.complete && seg.nodeId.isSome) = false := by
    cases hc : seg.complete with
    | false => rfl
    | true => rw [(h.idle_of_complete hc).1]; rfl
  have hshadow : (seg.complete && seg.shadowId.isSome) = false := by
    cases hc : seg.complete with
    | false => rfl
    | true => rw [(h.idle_of_complete hc).2]; rfl
  have hdistinct : (seg.shadowId.isSome && decide (seg.shadowId = seg.nodeId)) = false := by
    cases hsh : seg.shadowId with
    | none => rfl
    | some p => rw [decide_eq_false (fun heq => h.shadow_ne p hsh heq.symm), Bool.and_false]
  have hrange : decide (seg.stopHeight ≤ seg.startHeight) = false :=
    decide_eq_false (Nat.not_le.mpr h.range)
  have hbuffer : (!seg.flushed && decide (0 < seg.count) && seg.buf.isNone) = false := by
    cases hf : seg.flushed with
    | true => rfl
    | false =>
      by_cases hpos : 0 < seg.count
      · rw [Option.isNone_eq_false_iff.mpr ((h.roomy hf).1 hpos), Bool.and_false]
      · rw [decide_eq_false hpos, Bool.and_false, Bool.false_and]
  have hcap : (!seg.flushed && decide (seg.cap < seg.count)) = false := by
    cases hf : seg.flushed with
    | true => rfl
    | false => rw [decide_eq_false (Nat.not_lt.mpr (h.roomy hf).2), Bool.and_false]
  unfold ParHdrState.segViolations
  rw [hflushed, hahead, hcomplete, hreleased, howner, hshadow, hdistinct, hrange, hbuffer, hcap,
    count_violations]
  split_ifs with hsome
  · rw [hs.countP_owner hseg hsome]
    rfl
  · rfl

/-- Two counts as a sum. -/
theorem sum_map_toNat (l : List ParHdrSeg) (p q : ParHdrSeg → Bool) :
    (l.map fun seg => (p seg).toNat + (q seg).toNat).sum = l.countP p + l.countP q := by
  induction l with
  | nil => rfl
  | cons seg l ih =>
    rw [List.map_cons, List.sum_cons, ih, List.countP_cons, List.countP_cons]
    cases p seg <;> cases q seg <;> simp <;> omega

/-- **All segments.** -/
theorem Sound.parHdrCheck_eq (hs : Sound c) :
    c.parHdr.parHdrCheck =
      c.parHdr.segs.countP ParHdrSeg.orphaned + c.parHdr.segs.countP ParHdrSeg.belowStart := by
  have hsegs : c.parHdr.segs.mapIdx c.parHdr.segViolations =
      c.parHdr.segs.map fun seg => seg.orphaned.toNat + seg.belowStart.toNat := by
    apply List.ext_getElem?
    intro i
    rw [List.getElem?_mapIdx, List.getElem?_map]
    cases hseg : c.parHdr.segs[i]? with
    | none => rfl
    | some seg => exact congrArg some (hs.segViolations_eq hseg)
  rw [ParHdrState.parHdrCheck, if_neg (Nat.not_lt.mpr hs.idx_le), Nat.zero_add,
    hsegs, sum_map_toNat]

/-- Where only one place satisfies a predicate, at most one element does. -/
theorem countP_le_one {l : List ParHdrSeg} {p : ParHdrSeg → Bool} {k : ℕ}
    (h : ∀ (i : ℕ) (seg : ParHdrSeg), l[i]? = some seg → p seg = true → i = k) :
    l.countP p ≤ 1 := by
  induction l generalizing k with
  | nil => exact Nat.zero_le _
  | cons seg l ih =>
    rw [List.countP_cons]
    by_cases hp : p seg = true
    · -- then no element behind it does
      have hk := h 0 seg rfl hp
      have hrest : l.countP p = 0 := by
        rw [List.countP_eq_zero]
        intro seg' hmem hp'
        obtain ⟨i, hi⟩ := List.mem_iff_getElem?.mp hmem
        have hk' := h (i + 1) seg' hi hp'
        omega
      rw [hrest, if_pos hp]
    · rw [if_neg hp]
      refine ih (k := k - 1) fun i seg' hi hp' => ?_
      have hk' := h (i + 1) seg' hi hp'
      omega

/-- The check in runs in which the flush head may be orphaned where `orphans` holds. -/
theorem parHdrCheck_of_scope {start : HeadersDb → Prop}
    (h : (syncSystem pf start).Reach (fun c op => OrphansHead c op → orphans) c) :
    c.parHdr.parHdrCheck =
        c.parHdr.segs.countP ParHdrSeg.orphaned + c.parHdr.segs.countP ParHdrSeg.belowStart ∧
      ∀ (i : ℕ) (seg : ParHdrSeg), c.parHdr.segs[i]? = some seg → seg.orphaned = true →
        i = c.parHdr.flushIdx ∧ orphans := by
  have hscope : (syncSystem pf start).Reach
      (Scope.Allows { stages := fun _ => True, orphans := orphans, losesShadow := True }) c :=
    h.mono fun _ _ hop => ⟨fun _ _ => trivial, hop, fun _ => trivial⟩
  have hboth : Sound c ∧ HeadOrphan orphans c :=
    invariant_of_reach (P := fun c => Sound c ∧ HeadOrphan orphans c)
      (fun _ hc => ⟨sound_init hc, headOrphan_init hc⟩)
      (fun _ _ hmove hc => ⟨sound_move hmove hc.1, headOrphan_move hmove hc.1 hc.2⟩) hscope
  exact ⟨hboth.1.parHdrCheck_eq, hboth.2⟩

/-- **The check.** In every run it counts the segments that are below their start and, besides them,
at most one: the flush head, if it has a shadow and no owner. Unless a reclaim step gives the head
to a peer that shadows a segment, there is no such head. -/
theorem parHdrCheck_of_reach {start : HeadersDb → Prop} (h : (syncSystem pf start).Reachable c) :
    c.parHdr.parHdrCheck =
        c.parHdr.segs.countP ParHdrSeg.orphaned + c.parHdr.segs.countP ParHdrSeg.belowStart ∧
      c.parHdr.segs.countP ParHdrSeg.orphaned ≤ 1 ∧
      (∀ (i : ℕ) (seg : ParHdrSeg), c.parHdr.segs[i]? = some seg → seg.orphaned = true →
        i = c.parHdr.flushIdx) ∧
      ((syncSystem pf start).Reach (fun c op => ¬ OrphansHead c op) c →
        c.parHdr.parHdrCheck = c.parHdr.segs.countP ParHdrSeg.belowStart) := by
  have hweak : ∀ (c : SpvClient) (op : SyncOp), True → OrphansHead c op → True :=
    fun _ _ _ _ => trivial
  have hany : (syncSystem pf start).Reach (fun c op => OrphansHead c op → True) c := h.mono hweak
  obtain ⟨heq, ho⟩ := parHdrCheck_of_scope hany
  have hhead : ∀ (i : ℕ) (seg : ParHdrSeg), c.parHdr.segs[i]? = some seg → seg.orphaned = true →
      i = c.parHdr.flushIdx := fun i seg hseg horphaned => (ho i seg hseg horphaned).1
  refine ⟨heq, countP_le_one hhead, hhead, fun hkept => ?_⟩
  obtain ⟨-, hnone⟩ := @parHdrCheck_of_scope pf c False start hkept
  have hzero : c.parHdr.segs.countP ParHdrSeg.orphaned = 0 := by
    rw [List.countP_eq_zero]
    intro seg hmem horphaned
    obtain ⟨i, hseg⟩ := List.mem_iff_getElem?.mp hmem
    exact (hnone i seg hseg horphaned).2
  rw [heq, hzero, Nat.zero_add]

/-- Thirty headers from a peer. -/
def thirty (p : ℕ) (prevBlock hash : Uint256) : SyncOp :=
  .headers p 30 (copies 30 (sampleHeader 1 prevBlock hash 0x1e0ffff0)) 1

/-- The headers of a peer for the segment of its number, five messages of them. -/
def fiveTimesThirty (p : ℕ) : List SyncOp :=
  thirty p ((mainnetCheckpointArray[p]?.map Checkpoint.hash).getD Uint256.zero) (hashNo 1) ::
    List.replicate 4 (thirty p (hashNo 1) (hashNo 1))

/-- Every segment has an owner, and one peer has none. It shadows the flush head, which has a header
per second. When three others have five per second, the head is taken from its owner for this peer,
which is busy. -/
def orphanRun : List SyncOp :=
  ((List.range 89).flatMap fun p => joins p ++ [.assign p 1]) ++ joins 89 ++
    [thirty 0 dogecoinChainparamsMain.genesisblockhash (hashNo 1)] ++ fiveTimesThirty 1 ++
      [.reclaim 31 1] ++
    fiveTimesThirty 2 ++ fiveTimesThirty 3 ++ [.reclaim 31 1]

/-- The theorem on this run, in which the head is orphaned and counted. -/
theorem parHdrCheck_of_reach_orphan :
    ∃ c, (syncSystem samplePlatform fun _ => True).run mainClient orphanRun = some c ∧
    c.parHdr.parHdrCheck = 1 ∧
      c.parHdr.parHdrCheck =
        c.parHdr.segs.countP ParHdrSeg.orphaned + c.parHdr.segs.countP ParHdrSeg.belowStart ∧
      ∀ (i : ℕ) (seg : ParHdrSeg), c.parHdr.segs[i]? = some seg → seg.orphaned = true →
      i = c.parHdr.flushIdx := by
  have hrun : ((syncSystem samplePlatform fun _ => True).run mainClient orphanRun).any (fun c =>
      decide (c.parHdr.parHdrCheck = 1)) = true := by
    decide +kernel
  obtain ⟨c, hc, hone⟩ := (Option.any_eq_true _ _).mp hrun
  obtain ⟨heq, -, hhead, -⟩ := @parHdrCheck_of_reach samplePlatform c (fun _ => True)
    (TransitionSystem.reachable_of_run (mainClient_started trivial) hc)
  exact ⟨c, hc, of_decide_eq_true hone, heq, hhead⟩

end SpvClient

end Libdogecoin
