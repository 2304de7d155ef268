/-
# What holds in every run of the download

`Sound` holds whatever the peers do: the flushed segments are those below the flush index, a
complete segment belongs to nobody, buffers have room for what they hold, and no peer has two parts.

* `sound_move` : every move keeps it;
* `sound_of_reach` : it holds throughout every run.
-/
import Libdogecoin.ParHdrMoves

namespace Libdogecoin

namespace SpvClient

variable {pf : Platform} {sc : Scope} {c c' : SpvClient} {i j p q time now flushIdx : ℕ}
  {f g : ParHdrSeg → ParHdrSeg} {start : HeadersDb → Prop}

/-! ## The invariant -/

/-- What holds of segment `i`. -/
structure SegSound (flushIdx i : ℕ) (seg : ParHdrSeg) : Prop where
  flushed_iff : seg.flushed = true ↔ i < flushIdx
  complete_of_flushed : seg.flushed = true → seg.complete = true ∧ seg.buf = none
  idle_of_complete : seg.complete = true → seg.nodeId = none ∧ seg.shadowId = none
  shadow_ne : ∀ p, seg.shadowId = some p → seg.nodeId ≠ some p
  range : seg.startHeight < seg.stopHeight
  roomy : seg.flushed = false → Roomy seg

/-- The peer owns or shadows the segment. -/
def Holds (seg : ParHdrSeg) (p : ℕ) : Prop := seg.nodeId = some p ∨ seg.shadowId = some p

variable {seg : ParHdrSeg}

/-- Nobody has a part in the segment. -/
theorem not_holds_of_none (hnode : seg.nodeId = none) (hshadow : seg.shadowId = none) :
    ¬ Holds seg p := by
  rintro (hp | hp)
  · cases hnode.symm.trans hp
  · cases hshadow.symm.trans hp

/-- What holds in every run. -/
structure Sound (c : SpvClient) : Prop where
  idx_le : c.parHdr.flushIdx ≤ c.parHdr.segs.length
  seg : ∀ (i : ℕ) (seg : ParHdrSeg), c.parHdr.segs[i]? = some seg → SegSound c.parHdr.flushIdx i seg
  /-- No peer has a part in two segments. -/
  roles : ∀ (i j : ℕ) (seg seg' : ParHdrSeg) (p : ℕ), c.parHdr.segs[i]? = some seg →
    c.parHdr.segs[j]? = some seg' →
    Holds seg p → Holds seg' p → i = j

/-- A peer stays idle when it gets no part. -/
theorem idle_modifySeg (hidle : c.parHdr.busy p = false)
    (hf : ∀ seg, Holds (f seg) p → Holds seg p) :
    (c.modifySeg i f).parHdr.busy p = false := by
  rw [ParHdrState.busy, List.any_eq_false]
  intro seg' hmem hholds
  obtain ⟨k, hk⟩ := List.mem_iff_getElem?.mp hmem
  obtain ⟨seg, hseg, rfl⟩ := seg_modifySeg hk
  obtain ⟨hown, hshadow⟩ := not_holds_of_idle hidle hseg
  rw [ParHdrSeg.holds, Bool.or_eq_true, decide_eq_true_eq, decide_eq_true_eq] at hholds
  split_ifs at hholds
  · exact (hf seg hholds).elim hown hshadow
  · exact hholds.elim hown hshadow

/-- A segment below the flush index is not open. -/
theorem Sound.not_flushed (hs : Sound c) (hseg : c.parHdr.segs[i]? = some seg)
    (hopen : seg.complete = false) :
    seg.flushed = false := by
  by_contra hflushed
  rw [Bool.not_eq_false] at hflushed
  have hdone := ((hs.seg i seg hseg).complete_of_flushed hflushed).1
  rw [hopen] at hdone
  cases hdone

/-- The invariant looks at the segments and the flush index only. -/
theorem Sound.of_eq (hs : Sound c) (hsegs : c'.parHdr.segs = c.parHdr.segs)
    (hidx : c'.parHdr.flushIdx = c.parHdr.flushIdx) : Sound c' := by
  refine ⟨?_, ?_, ?_⟩
  · rw [hsegs, hidx]
    exact hs.idx_le
  · rw [hsegs, hidx]
    exact hs.seg
  · rw [hsegs]
    exact hs.roles

/-- One segment changes soundly, and whoever has a part in it had one before or had none at all. -/
theorem Sound.modify (hs : Sound c) (hseg : c.parHdr.segs[i]? = some seg)
    (hsound : SegSound c.parHdr.flushIdx i seg → SegSound c.parHdr.flushIdx i (f seg))
    (hroles : ∀ p, Holds (f seg) p → Holds seg p ∨ c.parHdr.busy p = false) :
    Sound (c.modifySeg i f) := by
  have hread : ∀ {k : ℕ} {seg' : ParHdrSeg}, (c.modifySeg i f).parHdr.segs[k]? = some seg' →
      (k = i ∧ seg' = f seg) ∨ (k ≠ i ∧ c.parHdr.segs[k]? = some seg') := by
    intro k seg' hk
    by_cases hki : i = k
    · subst hki
      rw [seg_modifySeg_self hseg] at hk
      exact Or.inl ⟨rfl, (Option.some.inj hk).symm⟩
    · rw [seg_modifySeg_of_ne hki] at hk
      exact Or.inr ⟨Ne.symm hki, hk⟩
  have hother : ∀ {k : ℕ} {seg' : ParHdrSeg} {p : ℕ}, k ≠ i → c.parHdr.segs[k]? = some seg' →
      Holds seg' p → ¬ Holds (f seg) p := by
    intro k seg' p hki hk hholds hnew
    rcases hroles p hnew with hold | hidle
    · exact hki (hs.roles k i seg' seg p hk hseg hholds hold)
    · obtain ⟨hown, hshadow⟩ := not_holds_of_idle hidle hk
      exact hholds.elim hown hshadow
  refine ⟨?_, ?_, ?_⟩
  · show _ ≤ (c.parHdr.segs.modify i f).length
    rw [List.length_modify]
    exact hs.idx_le
  · intro k seg' hk
    rcases hread hk with ⟨rfl, rfl⟩ | ⟨-, hk⟩
    · exact hsound (hs.seg _ seg hseg)
    · exact hs.seg k seg' hk
  · intro k l seg' seg'' p hk hl hp hp'
    rcases hread hk with ⟨rfl, rfl⟩ | ⟨hki, hk'⟩
    · rcases hread hl with ⟨rfl, rfl⟩ | ⟨hli, hl⟩
      · rfl
      · exact absurd hp (hother hli hl hp')
    · rcases hread hl with ⟨rfl, rfl⟩ | ⟨hli, hl⟩
      · exact absurd hp' (hother hki hk' hp)
      · exact hs.roles k l seg' seg'' p hk' hl hp hp'

/-! ## Moves -/

theorem Sound.setHeadersync (hs : Sound c) (p : ℕ) (on : Bool) : Sound (c.setHeadersync p on) :=
  hs.of_eq rfl rfl

theorem Sound.setBuffered (hs : Sound c) (n : ℕ) : Sound (c.setBuffered n) := hs.of_eq rfl rfl

/-- A request changes the time of the request and a bit. -/
theorem Sound.request (hs : Sound c) (hseg : c.parHdr.segs[i]? = some seg) :
    Sound (c.parHdrSendGetheaders p i time) :=
  (hs.modify hseg (fun h => ⟨h.1, h.2, h.3, h.4, h.5, h.6⟩) (fun _ h =>
    Or.inl h)).setHeadersync p true

/-- An idle peer gets an open segment as owner or as shadow. -/
theorem Sound.hold (hs : Sound c) (hseg : c.parHdr.segs[i]? = some seg)
    (hsound : SegSound c.parHdr.flushIdx i seg → SegSound c.parHdr.flushIdx i (f seg))
    (hidle : c.parHdr.busy p = false) (hroles : ∀ q, Holds (f seg) q → Holds seg q ∨ q = p) :
    Sound ((c.modifySeg i f).parHdrSendGetheaders p i time) := by
  refine (hs.modify hseg hsound fun q hq => ?_).request (seg_modifySeg_self hseg)
  rcases hroles q hq with hold | rfl
  · exact Or.inl hold
  · exact Or.inr hidle

/-- An open segment changes hands. -/
theorem SegSound.reassign (h : SegSound flushIdx i seg) (hopen : seg.complete = false)
    {owner shadow : Option ℕ} {requested assigned count : ℕ}
    (hne : ∀ p, shadow = some p → owner ≠ some p) :
    SegSound flushIdx i { seg with
      nodeId := owner
      shadowId := shadow
      requestedAt := requested
      assignedAt := assigned
      countAtAssign := count } where
  flushed_iff := h.flushed_iff
  complete_of_flushed := h.complete_of_flushed
  idle_of_complete := fun hdone => absurd (hopen.symm.trans hdone) Bool.false_ne_true
  shadow_ne := hne
  range := h.range
  roomy := h.roomy

/-- An idle peer becomes the owner of an open segment. -/
theorem Sound.assign (hs : Sound c) (hseg : c.parHdr.segs[i]? = some seg)
    (hopen : seg.complete = false) (hidle : c.parHdr.busy p = false) :
    Sound ((c.modifySeg i (ParHdrSeg.assign p time)).parHdrSendGetheaders p i time) := by
  refine hs.hold hseg (fun h => h.reassign hopen ?_) hidle fun q hq => ?_
  · intro q hq hown
    obtain rfl := Option.some.inj hown
    exact (not_holds_of_idle hidle hseg).2 hq
  · rcases hq with hq | hq
    · exact Or.inr (Option.some.inj hq).symm
    · exact Or.inl (Or.inr hq)

/-- The owner loses an open segment. -/
theorem Sound.preempt (hs : Sound c) {seg : ParHdrSeg} (hseg : c.parHdr.segs[i]? = some seg)
    (hopen : seg.complete = false) : Sound (c.modifySeg i ParHdrSeg.preempt) := by
  refine hs.modify hseg (fun h => h.reassign hopen ?_) fun q hq => ?_
  · intro q hq hown
    cases hown
  · rcases hq with hq | hq
    · cases hq
    · exact Or.inl (Or.inr hq)

theorem segSound_reopen (hash : Uint256) (height : ℕ) (h : SegSound flushIdx i seg)
    (hflushed : seg.flushed = false) :
    SegSound flushIdx i (seg.reopen hash height) where
  flushed_iff := h.flushed_iff
  complete_of_flushed := fun hf => absurd (hflushed.symm.trans hf) Bool.false_ne_true
  idle_of_complete := fun hdone => absurd hdone Bool.false_ne_true
  shadow_ne := fun p hp => by cases hp
  range := h.range
  roomy := fun _ => ⟨fun hpos => absurd hpos (Nat.lt_irrefl 0), Nat.le_refl 0⟩

theorem Sound.reopenSeg (hs : Sound c) (hash : Uint256) (height : ℕ)
    (hseg : c.parHdr.segs[i]? = some seg) (hflushed : seg.flushed = false) :
    Sound (c.reopenSeg i seg hash height) := by
  refine (hs.modify hseg (fun h => segSound_reopen hash height h hflushed) fun p hp =>
    ?_).setBuffered _
  exact absurd hp (not_holds_of_none rfl rfl)

/-- The flush index moves over the head. -/
theorem Sound.headFlushed (hs : Sound c) (hseg : c.parHdr.segs[c.parHdr.flushIdx]? = some seg)
    (hdone : seg.complete = true) : Sound (c.headFlushed seg) := by
  have hread : ∀ {k : ℕ} {seg' : ParHdrSeg}, (c.headFlushed seg).parHdr.segs[k]? = some seg' →
      (k = c.parHdr.flushIdx ∧ seg' = seg.markFlushed) ∨
        (k ≠ c.parHdr.flushIdx ∧ c.parHdr.segs[k]? = some seg') := by
    intro k seg' hk
    change (c.modifySeg c.parHdr.flushIdx ParHdrSeg.markFlushed).parHdr.segs[k]? = some seg' at hk
    by_cases hki : c.parHdr.flushIdx = k
    · rw [← hki, seg_modifySeg_self hseg] at hk
      exact Or.inl ⟨hki.symm, (Option.some.inj hk).symm⟩
    · rw [seg_modifySeg_of_ne hki] at hk
      exact Or.inr ⟨Ne.symm hki, hk⟩
  have hhead := hs.seg _ seg hseg
  obtain ⟨hnode, hshadow⟩ := hhead.idle_of_complete hdone
  have hnobody : ∀ p, ¬ Holds seg.markFlushed p := fun _ => not_holds_of_none hnode hshadow
  refine ⟨?_, ?_, ?_⟩
  · show c.parHdr.flushIdx + 1 ≤ (c.parHdr.segs.modify _ _).length
    rw [List.length_modify]
    exact (List.getElem?_eq_some_iff.mp hseg).1
  · intro k seg' hk
    show SegSound (c.parHdr.flushIdx + 1) k seg'
    rcases hread hk with ⟨rfl, rfl⟩ | ⟨hne, hk⟩
    · exact ⟨⟨fun _ => Nat.lt_succ_self _, fun _ => rfl⟩, fun _ => ⟨hdone, rfl⟩,
        fun _ => ⟨hnode, hshadow⟩, fun p hp => absurd (Or.inr hp) (hnobody p), hhead.range,
        fun hf => absurd hf.symm Bool.false_ne_true⟩
    · have h := hs.seg k seg' hk
      refine ⟨h.flushed_iff.trans ?_, h.2, h.3, h.4, h.5, h.6⟩
      omega
  · intro k l seg' seg'' p hk hl hp hp'
    rcases hread hk with ⟨rfl, rfl⟩ | ⟨-, hk⟩
    · exact absurd hp (hnobody p)
    rcases hread hl with ⟨rfl, rfl⟩ | ⟨-, hl⟩
    · exact absurd hp' (hnobody p)
    exact hs.roles k l seg' seg'' p hk hl hp hp'

/-- **Every move keeps the invariant.** -/
theorem sound_move (h : Move pf sc c c') (hs : Sound c) : Sound c' := by
  cases h with
  | link h => exact hs.of_eq rfl rfl
  | rate r => exact hs.of_eq rfl rfl
  | skipPow on => exact hs.of_eq rfl rfl
  | stop => exact hs.of_eq rfl rfl
  | connect => exact hs.of_eq rfl rfl
  | give hseg hopen hfree hidle => exact hs.assign hseg hopen hidle
  | request hseg hopen howner => exact hs.request hseg
  | @takeOver i p time seg hseg hopen hshadow =>
    have hs' : Sound (c.clearOwner seg.nodeId) := hs.of_eq (by rw [parHdr_clearOwner])
      (by rw [parHdr_clearOwner])
    have hseg' : (c.clearOwner seg.nodeId).parHdr.segs[i]? = some seg := by
      rw [parHdr_clearOwner]
      exact hseg
    refine hs'.modify hseg' (fun h => h.reassign hopen ?_) fun q hq => ?_
    · intro q hq
      cases hq
    · rcases hq with hq | hq
      · obtain rfl := Option.some.inj hq
        exact Or.inl (Or.inr hshadow)
      · cases hq
  | @stage i seg b hseg hopen hok hhangs =>
    have hframe : StagedFrom seg (stageBatch pf b seg) := stagedFrom_stageBatch b seg
    refine (hs.modify hseg (fun h => ⟨?_, ?_, ?_, ?_, ?_, ?_⟩) fun q hq => ?_).setBuffered _
    · rw [hframe.flushed]
      exact h.flushed_iff
    · intro hf
      rw [hframe.flushed, hs.not_flushed hseg hopen] at hf
      cases hf
    · intro hdone
      rw [hframe.complete, hopen] at hdone
      cases hdone
    · rw [hframe.shadowId, hframe.nodeId]
      exact h.shadow_ne
    · rw [hframe.startHeight, hframe.stopHeight]
      exact h.range
    · intro hf
      exact roomy_stageBatch b (h.roomy (hframe.flushed.symm.trans hf))
    · left
      unfold Holds at hq
      rw [hframe.nodeId, hframe.shadowId] at hq
      exact hq
  | reject hash hseg hopen howner hshadow hheight =>
    exact (hs.reopenSeg hash _ hseg (hs.not_flushed hseg hopen)).setHeadersync _ false
  | @finish i p seg hseg hopen howner hshadow htip =>
    have hnot := hs.not_flushed hseg hopen
    refine (hs.modify hseg (fun h => ⟨h.1, ?_, fun _ => ⟨rfl, rfl⟩, ?_, h.5, h.6⟩)
      fun q hq => absurd hq (not_holds_of_none rfl rfl)).setHeadersync p false
    · intro hf
      exact absurd (hnot.symm.trans hf) Bool.false_ne_true
    · intro q hq
      cases hq
  | failed hseg hdone hflushed htip => exact hs.reopenSeg _ _ hseg hflushed
  | @flushed seg db log hactive hseg hdone hflushed htail hconn =>
    have hs' : Sound { c with headersDb := db, headerConnected := log } := hs.of_eq rfl rfl
    exact hs'.headFlushed hseg hdone
  | @dropBuf k seg hactive hseg hbuf =>
    refine (hs.modify hseg (fun h => ⟨h.1, ?_, h.3, h.4, h.5, ?_⟩) fun q hq =>
      Or.inl hq).setBuffered _
    · intro hf
      exact ⟨(h.complete_of_flushed hf).1, rfl⟩
    · intro _
      exact ⟨fun hpos => absurd hpos (Nat.lt_irrefl 0), Nat.le_refl 0⟩
  | @release i q seg hseg hopen howner hshadow =>
    refine (hs.setHeadersync q false).modify hseg (fun h => h.reassign hopen ?_)
      fun r hr => absurd hr (not_holds_of_none rfl rfl)
    intro r hr
    cases hr
  | @preempt q seg hseg hopen howner hshadow => exact (hs.setHeadersync q false).preempt hseg hopen
  | @handOver q p time seg hseg hopen howner hidle =>
    have hpre : Sound ((c.setHeadersync q false).modifySeg c.parHdr.flushIdx ParHdrSeg.preempt) :=
      (hs.setHeadersync q false).preempt hseg hopen
    have hidle' := idle_modifySeg (c := c.setHeadersync q false) (i := c.parHdr.flushIdx)
      (f := ParHdrSeg.preempt) hidle (fun seg h => h.elim (fun h => by cases h) Or.inr)
    exact hpre.assign (seg_modifySeg_self hseg) hopen hidle'
  | @shadow i q p time seg hseg hopen howner hnone hidle =>
    refine hs.hold hseg (fun h => h.reassign hopen ?_) hidle fun r hr => ?_
    · intro r hr hown
      obtain rfl := Option.some.inj hr
      exact (not_holds_of_idle hidle hseg).1 hown
    · rcases hr with hr | hr
      · exact Or.inl (Or.inl hr)
      · exact Or.inr (Option.some.inj hr).symm

/-! ## The start of a run -/

/-- The array of checkpoints of a chain that has one. -/
theorem checkpointArray_cases (params : ChainParams) :
    (∃ first stops, ParHdrState.checkpointArray params = first :: stops ∧ first.height = 0 ∧
        stops.length ≠ 0 ∧ ((0 :: stops.map Checkpoint.height).IsChain (· < ·))) ∨
      ParHdrState.checkpointArray params = [] := by
  unfold ParHdrState.checkpointArray
  split_ifs with hmain htest
  · left
    refine ⟨_, _, rfl, rfl, by decide, ?_⟩
    exact mainnetCheckpointArray_increasing
  · left
    refine ⟨_, _, rfl, rfl, by decide, ?_⟩
    exact testnetCheckpointArray_increasing
  · exact Or.inr rfl

/-- What `par_hdr_init` builds. -/
theorem parHdrInit_eq_some {params : ChainParams} {s : ParHdrState}
    (h : ParHdrState.parHdrInit params = some s) :
    ∃ first stops, ParHdrState.checkpointArray params = first :: stops ∧
      ((0 :: stops.map Checkpoint.height).IsChain (· < ·)) ∧
      s = { segs := ParHdrState.segsFrom { height := 0, hash := params.genesisblockhash } stops
            flushIdx := 0, bufferedBytes := 0, rateRef := 0, active := true } := by
  rcases checkpointArray_cases params with ⟨first, stops, harr, hzero, hlen, hchain⟩ | hnil
  · refine ⟨first, stops, harr, hchain, ?_⟩
    simp only [ParHdrState.parHdrInit, harr, List.head?_cons, Option.any_some, hzero, decide_true,
      if_true, List.tail_cons, if_neg hlen, Option.some.injEq] at h
    exact h.symm
  · simp [ParHdrState.parHdrInit, hnil] at h

/-- Every segment lies between two neighbouring checkpoints. -/
theorem segsFrom_getElem? {start : Checkpoint} {stops : List Checkpoint}
    (h : (ParHdrState.segsFrom start stops)[i]? = some seg) :
    ∃ a b, (start :: stops)[i]? = some a ∧ stops[i]? = some b ∧ seg = ParHdrSeg.new a b := by
  induction stops generalizing start i with
  | nil => cases i <;> cases h
  | cons stop rest ih =>
    cases i with
    | zero => exact ⟨start, stop, rfl, rfl, (Option.some.inj h).symm⟩
    | succ i => exact ih h

theorem sound_init (h : SyncStarted start c) : Sound c := by
  obtain ⟨first, stops, -, hchain, hs⟩ := parHdrInit_eq_some h.parHdr_eq
  have hnew : ∀ (i : ℕ) (seg : ParHdrSeg), c.parHdr.segs[i]? = some seg →
      ∃ a b : Checkpoint, a.height < b.height ∧ seg = ParHdrSeg.new a b := by
    intro i seg hseg
    rw [hs] at hseg
    obtain ⟨a, b, ha, hb, rfl⟩ := segsFrom_getElem? hseg
    refine ⟨a, b, ?_, rfl⟩
    have hlt := List.isChain_iff_getElem.mp hchain i (by
      have hi := (List.getElem?_eq_some_iff.mp hb).1
      simpa using hi)
    have hb' : (stops.map Checkpoint.height)[i]? =
      some b.height := by rw [List.getElem?_map, hb]; rfl
    have ha' : (0 :: stops.map Checkpoint.height)[i]? = some a.height := by
      cases i with
      | zero =>
        obtain rfl := Option.some.inj ha
        rfl
      | succ i =>
        rw [List.getElem?_cons_succ, List.getElem?_map]
        rw [List.getElem?_cons_succ] at ha
        rw [ha]
        rfl
    obtain ⟨_, hga⟩ := List.getElem?_eq_some_iff.mp ha'
    obtain ⟨_, hgb⟩ := List.getElem?_eq_some_iff.mp hb'
    rw [List.getElem_cons_succ, hga, hgb] at hlt
    exact hlt
  refine ⟨?_, ?_, ?_⟩
  · rw [hs]
    exact Nat.zero_le _
  · intro i seg hseg
    obtain ⟨a, b, hlt, rfl⟩ := hnew i seg hseg
    have hidx : c.parHdr.flushIdx = 0 := by rw [hs]
    rw [hidx]
    refine ⟨⟨fun hf => ?_, fun hi => ?_⟩, fun hf => ?_, fun hdone => ?_, fun p hp => ?_,
      hlt, fun _ => ?_⟩
    · cases hf
    · exact absurd hi (Nat.not_lt_zero i)
    · cases hf
    · cases hdone
    · cases hp
    · exact ⟨fun _ => rfl, Nat.zero_le _⟩
  · intro i j seg seg' p hseg _ hp _
    obtain ⟨a, b, -, rfl⟩ := hnew i seg hseg
    exact absurd hp (not_holds_of_none rfl rfl)

/-- **The invariant holds throughout every run.** -/
theorem sound_of_reach {start : HeadersDb → Prop} (h : (syncSystem pf start).Reach sc.Allows c) :
    Sound c :=
  invariant_of_reach (fun _ hc => sound_init hc) (fun _ _ hmove hs => sound_move hmove hs) h

/-! ## The download of the main chain -/

/-- A client without peers that starts to download the main chain into memory. -/
def mainClient : SpvClient where
  nodes := []
  parHdr := { segs := ParHdrState.segsFrom
                { height := 0, hash := dogecoinChainparamsMain.genesisblockhash }
                  mainnetCheckpointArray.tail
              flushIdx := 0, bufferedBytes := 0, rateRef := 0, active := true }
  headersDb := HeadersDb.new dogecoinChainparamsMain true
  headerConnected := []

theorem mainClient_started (h : start (HeadersDb.new dogecoinChainparamsMain true)) :
    SyncStarted start mainClient :=
  ⟨rfl, fun _ hn => (List.not_mem_nil hn).elim, rfl, h⟩

/-- A peer connects. -/
def joins (p : ℕ) : List SyncOp := [.addPeer, .link p true true true]

end SpvClient

end Libdogecoin
