/-
# Headers that are connected without a check of their work

While `par_hdr_flush` connects the headers of a segment, the proof of work is not looked at: they
are to lie on a chain that ends in the checkpoint of the segment. `par_hdr_recv` compares the first
header of a message with the tip of the segment, and the last one of the segment with the
checkpoint. Nobody compares two headers of one message.

* `stagedLinked_move` : a move that stages linked messages keeps the staged headers on one chain;
* `leadsTo_of_reach` : so in runs of such messages every connected header leads to its checkpoint;
* `leadsTo_of_reach_late` : on a run that connects the last headers of a segment;
* `stray_header_connected` : a header in the middle of a message that does not.
-/
import Libdogecoin.ParHdrBuffered
import Libdogecoin.ParHdrFlood

namespace Libdogecoin

variable {pf : Platform}

/-- The first header is the parent of the second. -/
def Linked (pf : Platform) (a b : Bytes) : Prop := (rawHeader b).prevBlock = rawHash pf a

/-- From a header on, a chain of staged headers leads to a hash. -/
inductive LeadsTo (pf : Platform) (staged : List Bytes) (stop : Uint256) : Bytes → Prop where
  | last {raw : Bytes} (hstop : rawHash pf raw = stop) : LeadsTo pf staged stop raw
  | next {raw raw' : Bytes} (hmem : raw' ∈ staged) (hlink : Linked pf raw raw')
      (hrest : LeadsTo pf staged stop raw') :
      LeadsTo pf staged stop raw

/-- On a chain that ends in the hash, every header leads there. -/
theorem leadsTo_of_isChain {staged l : List Bytes} {stop : Uint256} (hsub : ∀ raw ∈ l, raw ∈ staged)
    (hchain : l.IsChain (Linked pf)) (hlast : ∀ raw ∈ l.getLast?, rawHash pf raw = stop) :
    ∀ raw ∈ l, LeadsTo pf staged stop raw := by
  induction l with
  | nil => exact fun raw hmem => (List.not_mem_nil hmem).elim
  | cons a l ih =>
    have hrest : ∀ raw ∈ l, LeadsTo pf staged stop raw := by
      refine ih (fun raw hmem => hsub raw (List.mem_cons_of_mem a hmem))
        (List.isChain_of_isChain_cons hchain) ?_
      intro raw hraw
      apply hlast
      rw [List.getLast?_cons, Option.mem_def.mp hraw]
      rfl
    intro raw hmem
    rcases List.mem_cons.mp hmem with rfl | hmem
    · cases l with
      | nil => exact .last (hlast raw rfl)
      | cons b l =>
        have hb : b ∈ b :: l := List.mem_cons_self
        exact .next (hsub b (List.mem_cons_of_mem _ hb)) (List.isChain_cons_cons.mp hchain).1
          (hrest b hb)
    · exact hrest raw hmem

/-- Each header of the message is the parent of the next one. -/
def Batch.LinkedHeaders (pf : Platform) (b : Batch) :
    Prop := (b.headers.map WireHeader.raw).IsChain (Linked pf)

instance (pf : Platform) (a b : Bytes) :
    Decidable (Linked pf a b) := inferInstanceAs (Decidable (_ = _))

instance (pf : Platform) (b : Batch) : Decidable (b.LinkedHeaders pf) :=
  inferInstanceAs (Decidable (List.IsChain _ _))

namespace SpvClient

variable {sc : Scope} {c c' : SpvClient} {i p time : ℕ} {f : ParHdrSeg → ParHdrSeg} {b : Batch}
  {db : HeadersDb}
  {log : List FlushedHeader} {all : Bool} {start : HeadersDb → Prop} {raw : Bytes}

/-- The step stages a message in which a header is not the parent of the next one. -/
def StagesUnlinked (pf : Platform) (c : SpvClient) (op : SyncOp) : Prop :=
  ∃ b, c.stagedBatch op = some b ∧ ¬ b.LinkedHeaders pf

/-- What a headers message stages is what is parsed from it. -/
theorem stagedBatch_headers {count : ℕ} {buf : Bytes}
    (h : c.stagedBatch (.headers p count buf time) = some b) :
    b = Batch.parse count buf := by
  simp only [stagedBatch, Option.bind_eq_bind, Option.bind_eq_some_iff] at h
  obtain ⟨i, -, seg, -, h⟩ := h
  split at h
  · exact (Option.some.inj h).symm
  · cases h

/-- A message whose headers are linked. -/
theorem not_stagesUnlinked {count : ℕ} {buf : Bytes}
    (h : (Batch.parse count buf).LinkedHeaders pf) :
    ¬ StagesUnlinked pf c (.headers p count buf time) := by
  rintro ⟨b, hb, hnot⟩
  rw [stagedBatch_headers hb] at hnot
  exact hnot h

/-! ## One segment -/

/-- The staged headers are a chain that ends in the tip, and the tip of a complete segment is its
checkpoint. -/
structure SegLinked (pf : Platform) (seg : ParHdrSeg) : Prop where
  full : Full seg
  chain : seg.staged.IsChain (Linked pf)
  tip : ∀ raw ∈ seg.staged.getLast?, rawHash pf raw = seg.tipHash
  stop : seg.complete = true → seg.tipHash = seg.stopHash

variable {seg : ParHdrSeg} {l : List Bytes}

/-- A segment that has staged nothing. -/
theorem segLinked_of_count (hcount : seg.count = 0)
    (hstop : seg.complete = true → seg.tipHash = seg.stopHash) :
    SegLinked pf seg := by
  have hnil : seg.staged = [] := by rw [ParHdrSeg.staged, hcount, List.take_zero]
  refine ⟨?_, ?_, ?_, hstop⟩
  · unfold Full
    rw [hcount]
    exact Nat.zero_le _
  · rw [hnil]
    exact .nil
  · rw [hnil]
    intro raw hraw
    cases hraw

/-- A message of linked headers that hang on the tip lengthens the chain. -/
theorem segLinked_stageBatch (hl : SegLinked pf seg) (hopen : seg.complete = false)
    (hb : b.LinkedHeaders pf) (hhangs : Hangs b seg) : SegLinked pf (stageBatch pf b seg) := by
  have hstaged := @staged_stageBatch pf b _ hl.full
  have htip := @tipHash_stageBatch pf b seg
  have hframe : StagedFrom seg (stageBatch pf b seg) := stagedFrom_stageBatch b seg
  refine ⟨full_stageBatch b hl.full, ?_, ?_, ?_⟩
  · rw [hstaged, List.isChain_append]
    refine ⟨hl.chain, hb, ?_⟩
    intro a ha raw hraw
    rw [List.head?_map] at hraw
    obtain ⟨w, hw, rfl⟩ := Option.map_eq_some_iff.mp hraw
    exact (hhangs w hw).trans (hl.tip a ha).symm
  · rw [hstaged, htip]
    intro raw hraw
    rw [List.getLast?_append, List.getLast?_map] at hraw
    cases hlast : b.headers.getLast? with
    | none =>
      rw [hlast] at hraw
      exact hl.tip raw hraw
    | some w =>
      rw [hlast] at hraw
      obtain rfl := Option.some.inj hraw
      rfl
  · intro hdone
    rw [hframe.complete, hopen] at hdone
    cases hdone

/-! ## The checkpoints -/

/-- The checkpoints of the segments. -/
def stops (c : SpvClient) : List Uint256 := c.parHdr.segs.map ParHdrSeg.stopHash

theorem stops_modifySeg (c : SpvClient) (i : ℕ) (hf : ∀ seg, (f seg).stopHash = seg.stopHash) :
    (c.modifySeg i f).stops = c.stops := by
  unfold stops
  rw [segs_modifySeg]
  apply List.ext_getElem?
  intro k
  rw [List.getElem?_map, List.getElem?_map, List.getElem?_modify]
  cases c.parHdr.segs[k]? with
  | none => rfl
  | some seg =>
    by_cases hik : i = k
    · simp [hik, hf]
    · simp [hik]

theorem stops_parHdrSendGetheaders (c : SpvClient) (p i time : ℕ) :
    (c.parHdrSendGetheaders p i time).stops = c.stops :=
  stops_modifySeg (f := ParHdrSeg.requested time) c i fun _ => rfl

/-- **No move changes a checkpoint.** -/
theorem stops_move (h : Move pf sc c c') : c'.stops = c.stops := by
  cases h with
  | link => rfl
  | rate => rfl
  | skipPow => rfl
  | stop => rfl
  | connect => rfl
  | @give i p time =>
    rw [stops_parHdrSendGetheaders]
    exact stops_modifySeg (f := ParHdrSeg.assign p time) c i fun _ => rfl
  | request => exact stops_parHdrSendGetheaders _ _ _ _
  | @takeOver i p time seg hseg hopen hshadow =>
    refine (stops_modifySeg (f := ParHdrSeg.takeOver p time) _ i fun _ => rfl).trans ?_
    unfold stops
    rw [parHdr_clearOwner]
  | @stage i seg b hseg hopen hok hhangs =>
    exact stops_modifySeg (f := stageBatch pf b) c i fun seg =>
      (stagedFrom_stageBatch b seg).stopHash
  | @reject i p seg hash height =>
    exact stops_modifySeg (f := ParHdrSeg.reopen hash height) c i fun _ => rfl
  | @finish i => exact stops_modifySeg (f := ParHdrSeg.finish) c i fun _ => rfl
  | @failed seg tip =>
    exact stops_modifySeg (f := ParHdrSeg.reopen tip.hash tip.height) c _ fun _ => rfl
  | flushed => exact stops_modifySeg (f := ParHdrSeg.markFlushed) c _ fun _ => rfl
  | @dropBuf k => exact stops_modifySeg (f := ParHdrSeg.dropBuf) c k fun _ => rfl
  | @release i => exact stops_modifySeg (f := ParHdrSeg.release) c i fun _ => rfl
  | preempt => exact stops_modifySeg (f := ParHdrSeg.preempt) c _ fun _ => rfl
  | @handOver q p time =>
    rw [stops_parHdrSendGetheaders]
    refine (stops_modifySeg (f := ParHdrSeg.assign p time) _ _ fun _ => rfl).trans ?_
    exact stops_modifySeg (f := ParHdrSeg.preempt) c _ fun _ => rfl
  | @shadow i q p time =>
    rw [stops_parHdrSendGetheaders]
    exact stops_modifySeg (f := ParHdrSeg.shadow p) c i fun _ => rfl

/-! ## The staged headers of all segments -/

/-- What is staged and not flushed is linked. -/
def StagedLinked (pf : Platform) (c : SpvClient) : Prop :=
  ∀ (i : ℕ) (seg : ParHdrSeg), c.parHdr.segs[i]? = some seg → seg.flushed = false → SegLinked pf seg

/-- One segment changes. -/
theorem StagedLinked.modify (hl : StagedLinked pf c) (hseg : c.parHdr.segs[i]? = some seg)
    (hsegs : c'.parHdr.segs = c.parHdr.segs.modify i f)
    (hlinked : (seg.flushed = false → SegLinked pf seg) → (f seg).flushed = false →
      SegLinked pf (f seg)) :
    StagedLinked pf c' := by
  intro k seg' hk hflushed
  rw [hsegs, List.getElem?_modify] at hk
  obtain ⟨old, hold, rfl⟩ := Option.map_eq_some_iff.mp hk
  by_cases hki : i = k
  · subst hki
    rw [hseg] at hold
    obtain rfl := Option.some.inj hold
    rw [if_pos rfl] at hflushed ⊢
    exact hlinked (hl _ _ hseg) hflushed
  · rw [if_neg hki] at hflushed ⊢
    exact hl k old hold hflushed

/-- The staged headers and the tip stay as they are. -/
theorem StagedLinked.modify_same (hl : StagedLinked pf c) (hseg : c.parHdr.segs[i]? = some seg)
    (hsegs : c'.parHdr.segs = c.parHdr.segs.modify i f) (hflushed : (f seg).flushed = seg.flushed)
    (hcount : (f seg).count = seg.count) (hbuf : (f seg).buf = seg.buf)
    (htip : (f seg).tipHash = seg.tipHash)
    (hstop : (f seg).stopHash = seg.stopHash) (hdone : (f seg).complete = seg.complete) :
    StagedLinked pf c' := by
  refine hl.modify hseg hsegs ?_
  intro hold hf
  obtain ⟨h1, h2, h3, h4⟩ := hold (hflushed.symm.trans hf)
  have hstaged : (f seg).staged = seg.staged := by
    unfold ParHdrSeg.staged
    rw [hcount, hbuf]
  refine ⟨?_, ?_, ?_, ?_⟩
  · unfold Full at *
    rw [hcount, hbuf]
    exact h1
  · rw [hstaged]
    exact h2
  · rw [hstaged, htip]
    exact h3
  · rw [hdone, htip, hstop]
    exact h4

theorem StagedLinked.request (hl : StagedLinked pf c) (hseg : c.parHdr.segs[i]? = some seg) :
    StagedLinked pf (c.parHdrSendGetheaders p i time) :=
  hl.modify_same (f := ParHdrSeg.requested time) hseg rfl rfl rfl rfl rfl rfl rfl

/-- A segment gives up what it has staged. -/
theorem StagedLinked.reopenSeg (hl : StagedLinked pf c) (hash : Uint256) (height : ℕ)
    (hseg : c.parHdr.segs[i]? = some seg) : StagedLinked pf (c.reopenSeg i seg hash height) := by
  refine hl.modify (f := ParHdrSeg.reopen hash height) hseg rfl fun _ _ => ?_
  apply segLinked_of_count rfl
  intro hdone
  cases hdone

/-- A move that stages linked messages keeps the chains. -/
theorem stagedLinked_move (h : Move pf sc c c') (hstages : ∀ b, sc.stages b → b.LinkedHeaders pf)
    (hl : StagedLinked pf c) : StagedLinked pf c' := by
  cases h with
  | link h => exact hl
  | rate r => exact hl
  | skipPow on => exact hl
  | stop => exact hl
  | connect => exact hl
  | @give i p time seg hseg hopen hfree hidle =>
    have hgiven : StagedLinked pf (c.modifySeg i (ParHdrSeg.assign p time)) :=
      hl.modify_same hseg rfl rfl rfl rfl rfl rfl rfl
    exact hgiven.request (seg_modifySeg_self hseg)
  | request hseg hopen howner => exact hl.request hseg
  | @takeOver i p time seg hseg hopen hshadow =>
    refine hl.modify_same (f := ParHdrSeg.takeOver p time) hseg ?_ rfl rfl rfl rfl rfl rfl
    rw [segs_modifySeg, parHdr_clearOwner]
  | @stage i seg b hseg hopen hok hhangs =>
    refine hl.modify (f := stageBatch pf b) hseg rfl ?_
    intro hold hf
    rw [(stagedFrom_stageBatch b seg).flushed] at hf
    exact segLinked_stageBatch (hold hf) hopen (hstages b hok) hhangs
  | @reject i p seg hash height hseg hopen howner hshadow hheight =>
    exact hl.reopenSeg hash height hseg
  | @finish i p seg hseg hopen howner hshadow htip =>
    refine hl.modify (f := ParHdrSeg.finish) hseg rfl ?_
    intro hold hf
    obtain ⟨h1, h2, h3, -⟩ := hold hf
    exact ⟨h1, h2, h3, fun _ => htip⟩
  | failed hseg hdone hflushed htip => exact hl.reopenSeg _ _ hseg
  | flushed hactive hseg hdone hflushed htail hconn =>
    refine hl.modify (f := ParHdrSeg.markFlushed) hseg rfl ?_
    intro _ hf
    cases hf
  | @dropBuf k seg hactive hseg hbuf =>
    refine hl.modify (f := ParHdrSeg.dropBuf) hseg rfl ?_
    intro hold hf
    exact segLinked_of_count rfl (hold hf).stop
  | release hseg hopen howner hshadow => exact hl.modify_same hseg rfl rfl rfl rfl rfl rfl rfl
  | preempt hseg hopen howner hshadow => exact hl.modify_same hseg rfl rfl rfl rfl rfl rfl rfl
  | @handOver q p time seg hseg hopen howner hidle =>
    have hpre : StagedLinked pf ((c.setHeadersync q false).modifySeg c.parHdr.flushIdx
      ParHdrSeg.preempt) :=
      hl.modify_same hseg rfl rfl rfl rfl rfl rfl rfl
    have hread := seg_modifySeg_self (c := c.setHeadersync q false) (f := ParHdrSeg.preempt) hseg
    have hgiven : StagedLinked pf (((c.setHeadersync q false).modifySeg c.parHdr.flushIdx
        ParHdrSeg.preempt).modifySeg c.parHdr.flushIdx (ParHdrSeg.assign p time)) :=
      hpre.modify_same hread rfl rfl rfl rfl rfl rfl rfl
    exact hgiven.request (seg_modifySeg_self hread)
  | @shadow i q p time seg hseg hopen howner hnone hidle =>
    have hshadowed : StagedLinked pf (c.modifySeg i (ParHdrSeg.shadow p)) :=
      hl.modify_same hseg rfl rfl rfl rfl rfl rfl rfl
    exact hshadowed.request (seg_modifySeg_self hseg)

/-! ## The connected headers -/

/-- What is connected is staged in its segment and leads to the checkpoint. -/
def ConnectedLead (pf : Platform) (c : SpvClient) : Prop :=
  ∀ fh ∈ c.headerConnected, ∃ stop, c.stops[fh.segIdx]? = some stop ∧ fh.raw ∈ fh.staged ∧
    LeadsTo pf fh.staged stop fh.raw

theorem ConnectedLead.of_eq (hc : ConnectedLead pf c) (hstops : c'.stops = c.stops)
    (hlog : c'.headerConnected = c.headerConnected) : ConnectedLead pf c' := by
  intro fh hfh
  rw [hlog] at hfh
  rw [hstops]
  exact hc fh hfh

/-- What the flush connects is taken from what it is given. -/
theorem connectStaged_log {segIdx : ℕ} {staged : List Bytes} {db' : HeadersDb}
    {log' : List FlushedHeader} (h : connectStaged pf segIdx staged l db log =
      some (db', log', all)) :
    ∀ fh ∈ log', fh ∈ log ∨ (fh.segIdx = segIdx ∧ fh.staged = staged ∧ fh.raw ∈ l) := by
  induction l generalizing db log with
  | nil =>
    obtain ⟨rfl, hrest⟩ := Prod.mk.inj (Option.some.inj h)
    obtain ⟨rfl, rfl⟩ := Prod.mk.inj hrest
    exact fun fh hfh => Or.inl hfh
  | cons raw rest ih =>
    unfold connectStaged at h
    obtain ⟨r, hr, h⟩ := Option.bind_eq_some_iff.mp h
    split at h
    · intro fh hfh
      rcases ih h fh hfh with hold | ⟨hidx, hstaged, hmem⟩
      · rcases List.mem_cons.mp hold with rfl | hold
        · exact Or.inr ⟨rfl, rfl, List.mem_cons_self⟩
        · exact Or.inl hold
      · exact Or.inr ⟨hidx, hstaged, List.mem_cons_of_mem _ hmem⟩
    · obtain ⟨-, hrest⟩ := Prod.mk.inj (Option.some.inj h)
      obtain ⟨rfl, -⟩ := Prod.mk.inj hrest
      exact fun fh hfh => Or.inl hfh

/-- A complete segment is connected, wholly or in part. -/
theorem ConnectedLead.connect (hc : ConnectedLead pf c) (hl : StagedLinked pf c)
    (hseg : c.parHdr.segs[c.parHdr.flushIdx]? = some seg) (hdone : seg.complete = true)
    (hflushed : seg.flushed = false)
    (hconn : connectStaged pf c.parHdr.flushIdx seg.staged seg.staged c.headersDb
      c.headerConnected = some (db, log, all)) :
    ConnectedLead pf { c with headersDb := db, headerConnected := log } := by
  have hlinked := hl _ seg hseg hflushed
  intro fh hfh
  rcases connectStaged_log hconn fh hfh with hold | ⟨hidx, hstaged, hmem⟩
  · exact hc fh hold
  · refine ⟨seg.stopHash, ?_, ?_, ?_⟩
    · show (c.parHdr.segs.map ParHdrSeg.stopHash)[fh.segIdx]? = some seg.stopHash
      rw [List.getElem?_map, hidx, hseg]
      rfl
    · rw [hstaged]
      exact hmem
    · rw [hstaged, ← hlinked.stop hdone]
      exact leadsTo_of_isChain (fun _ h => h) hlinked.chain hlinked.tip fh.raw hmem

/-- **A move keeps it that what is connected leads to a checkpoint.** -/
theorem connectedLead_move (h : Move pf sc c c') (hl : StagedLinked pf c)
    (hc : ConnectedLead pf c) :
    ConnectedLead pf c' := by
  have hstops := stops_move h
  cases h with
  | connect hseg hdone hflushed hconn => exact hc.connect hl hseg hdone hflushed hconn
  | flushed hactive hseg hdone hflushed htail hconn =>
    exact (hc.connect hl hseg hdone hflushed hconn).of_eq hstops rfl
  | @takeOver i p time seg hseg hopen hshadow =>
    refine hc.of_eq hstops ?_
    cases seg.nodeId with
    | none => rfl
    | some q => rfl
  | link | rate | skipPow | stop | give | request | stage | reject | finish | failed | dropBuf
    | release | preempt | handOver | shadow => exact hc.of_eq hstops rfl

/-! ## Runs -/

theorem linked_init (h : SyncStarted start c) : StagedLinked pf c ∧ ConnectedLead pf c := by
  obtain ⟨first, stops, -, -, hs⟩ := parHdrInit_eq_some h.parHdr_eq
  constructor
  · intro i seg hseg _
    rw [hs] at hseg
    obtain ⟨a, b, -, -, rfl⟩ := segsFrom_getElem? hseg
    apply segLinked_of_count rfl
    intro hdone
    cases hdone
  · intro fh hfh
    rw [h.headerConnected_eq] at hfh
    cases hfh

/-- **What is connected without a check of its work leads to a checkpoint**, in every run in which
each header of a staged message is the parent of the next one. -/
theorem leadsTo_of_reach {start : HeadersDb → Prop}
    (h : (syncSystem pf start).Reach (fun c op => ¬ StagesUnlinked pf c op) c) :
    ∀ fh ∈ c.headerConnected, ∃ seg, c.parHdr.segs[fh.segIdx]? = some seg ∧ fh.raw ∈ fh.staged ∧
      LeadsTo pf fh.staged seg.stopHash fh.raw := by
  have hreach : (syncSystem pf start).Reach
      (Scope.Allows { stages := Batch.LinkedHeaders pf, orphans := True, losesShadow := True }) c :=
    h.mono fun c op hop =>
      ⟨fun b hb => not_not.mp fun hne => hop ⟨b, hb, hne⟩, fun _ => trivial, fun _ => trivial⟩
  have hboth : StagedLinked pf c ∧ ConnectedLead pf c :=
    invariant_of_reach (P := fun c => StagedLinked pf c ∧ ConnectedLead pf c)
      (fun _ hc => linked_init hc)
      (fun _ _ hmove hc => ⟨stagedLinked_move hmove (fun _ hb => hb) hc.1,
        connectedLead_move hmove hc.1 hc.2⟩)
      hreach
  intro fh hfh
  obtain ⟨stop, hstop, hmem, hleads⟩ := hboth.2 fh hfh
  unfold stops at hstop
  rw [List.getElem?_map] at hstop
  obtain ⟨seg, hseg, rfl⟩ := Option.map_eq_some_iff.mp hstop
  exact ⟨seg, hseg, hmem, hleads⟩

/-! ## Runs on fixed inputs -/

/-- Nothing but connections and assignments. -/
def SyncOp.isQuiet : SyncOp → Bool
  | .addPeer => true
  | .link _ _ _ _ => true
  | .assign _ _ => true
  | .headers _ _ _ _ => false
  | .reclaim _ _ => false

theorem log_parHdrAssign (c : SpvClient) (p time : ℕ) :
    (c.parHdrAssign p time).headersDb = c.headersDb ∧
      (c.parHdrAssign p time).headerConnected = c.headerConnected := by
  unfold parHdrAssign
  split_ifs
  · exact ⟨rfl, rfl⟩
  · exact ⟨rfl, rfl⟩
  · exact ⟨rfl, rfl⟩
  cases c.parHdr.firstFree with
  | none => exact ⟨rfl, rfl⟩
  | some i =>
    dsimp only
    split_ifs
    · exact ⟨rfl, rfl⟩
    · exact ⟨rfl, rfl⟩

/-- Quiet steps connect nothing. -/
theorem log_of_quiet {ops : List SyncOp} (hquiet : ∀ op ∈ ops, op.isQuiet = true)
    (hrun : (syncSystem pf start).run c ops = some c') :
    c'.headersDb = c.headersDb ∧ c'.headerConnected = c.headerConnected := by
  induction ops generalizing c with
  | nil =>
    obtain rfl := Option.some.inj hrun
    exact ⟨rfl, rfl⟩
  | cons op ops ih =>
    rw [TransitionSystem.run, Option.bind_eq_some_iff] at hrun
    obtain ⟨d, hd, hrest⟩ := hrun
    obtain ⟨hdb, hlog⟩ := ih (fun op' hop => hquiet op' (List.mem_cons_of_mem _ hop)) hrest
    have hstep : d.headersDb = c.headersDb ∧ d.headerConnected = c.headerConnected := by
      have hop := hquiet op List.mem_cons_self
      cases op with
      | addPeer =>
        obtain rfl := Option.some.inj hd
        exact ⟨rfl, rfl⟩
      | link p connected versionHandshake keepsFlags =>
        obtain rfl := Option.some.inj hd
        exact ⟨rfl, rfl⟩
      | assign p time =>
        obtain rfl := Option.some.inj hd
        exact log_parHdrAssign c p time
      | headers p count buf time => cases hop
      | reclaim now time => cases hop
    exact ⟨hdb.trans hstep.1, hlog.trans hstep.2⟩

/-- The runs on `samplePlatform` whose messages are linked. -/
abbrev LinkedReach : SpvClient → Prop :=
  (syncSystem samplePlatform fun _ => True).Reach fun c op => ¬ StagesUnlinked samplePlatform c op

/-- Quiet steps stage nothing. -/
theorem meets_of_quiet {ops : List SyncOp} (hquiet : ∀ op ∈ ops, op.isQuiet = true) :
    (syncSystem pf start).Meets (fun c op => ¬ StagesUnlinked pf c op) c ops := by
  induction ops generalizing c with
  | nil => exact trivial
  | cons op ops ih =>
    refine ⟨?_, fun _ _ => ih fun op' hop => hquiet op' (List.mem_cons_of_mem _ hop)⟩
    rintro ⟨b, hb, -⟩
    have hop := hquiet op List.mem_cons_self
    cases op with
    | headers p count buf time => cases hop
    | addPeer => cases hb
    | link p connected versionHandshake keepsFlags => cases hb
    | assign p time => cases hb
    | reclaim now time => cases hb

/-- The checkpoints stay. -/
theorem stops_of_step {op : SyncOp} (hstep : syncStep pf c op = some c') : c'.stops = c.stops :=
  Moves.invariant (P := fun d => d.stops = c.stops) (fun _ _ hmove hd =>
    (stops_move hmove).trans hd)
    (@moves_of_step pf c c' { stages := fun _ => True, orphans := True, losesShadow := True } op
      ⟨fun _ _ => trivial, fun _ => trivial, fun _ => trivial⟩ hstep) rfl

/-- The checkpoint of the first segment. -/
def firstStop : Uint256 := (mainnetCheckpointArray[1]?.map Checkpoint.hash).getD Uint256.zero

/-- The first segment has staged some headers, the second one is open, and nothing is connected. -/
structure FloodStaged (c : SpvClient) (db : HeadersDb) (l : List Bytes) : Prop where
  db : c.headersDb = db
  log : c.headerConnected = []
  next : ∀ seg, c.parHdr.segs[1]? = some seg → seg.complete = false
  seg : ∃ seg, c.parHdr.segs[0]? = some seg ∧ Full seg ∧ seg.staged = l

theorem floodStaged_advance {height n time fails : ℕ} {hash : Uint256} {h : BlockHeader}
    (hf : Flooded c tip height hash fails) (hs : FloodStaged c db l)
    (haux : isAuxpow h.version = false)
    (hprev : h.prevBlock = hash) (hlow : height + (n + 1) < 100000)
    (hstep : syncStep pf c (.headers 0 (n + 1) (copies (n + 1) h) time) = some c') :
    FloodStaged c' db (l ++ List.replicate (n + 1) (blockHeaderSerialize h)) := by
  obtain ⟨seg, hseg, hfs⟩ := hf.seg
  obtain ⟨seg', hseg', hfull, hstaged⟩ := hs.seg
  rw [hseg] at hseg'
  obtain rfl := Option.some.inj hseg'
  have hseg_staged : FloodedSeg (stageBatch pf (copiesBatch (n + 1) h) seg) (height + (n + 1))
      (blockHeaderHash pf h) fails := hfs.stage
  have hrecv := @recv_copies pf c 0 0 n time h hf.sound hf.active seg hseg hfs.complete
    hfs.owner haux (hprev.trans hfs.tipHash.symm)
  unfold afterHeaders at hrecv
  rw [hstep, hseg_staged.stopHeight, hseg_staged.tipHeight, if_neg (Nat.not_le.mpr hlow)] at hrecv
  obtain rfl := Option.some.inj hrecv
  refine ⟨hs.db, hs.log, fun seg' hnext => ?_, _,
    seg_modifySeg_self (seg_modifySeg_self hseg), ?_, ?_⟩
  · obtain ⟨seg1, hseg1, rfl⟩ := seg_modifySeg hnext
    obtain ⟨seg2, hseg2, rfl⟩ := seg_modifySeg hseg1
    exact hs.next _ hseg2
  · exact full_stageBatch (copiesBatch (n + 1) h) hfull
  · show (stageBatch pf (copiesBatch (n + 1) h) seg).staged = _
    rw [staged_stageBatch _ hfull, hstaged]
    show l ++ (List.replicate (n + 1) _).map WireHeader.raw = _
    rw [List.map_replicate]

/-- The record of the header at the stop height is retained. -/
theorem tailRaw_stageBatch_concat {ws : List WireHeader} {w : WireHeader}
    (h : seg.tipHeight + ws.length + 1 = seg.stopHeight) :
    (stageBatch pf { headers := ws ++ [w], broken := none } seg).tailRaw = some w.record := by
  have hfront : StagedFrom seg (stageBatch pf { headers := ws, broken := none } seg) :=
    stagedFrom_stageBatch _ seg
  have htip := (@count_stageBatch pf { headers := ws, broken := none } seg).2
  have hlast : stageBatch pf { headers := ws ++ [w], broken := none } seg =
      stageHeader pf (stageBatch pf { headers := ws, broken := none } seg) w := by
    show (ws ++ [w]).foldl (stageHeader pf) seg = _
    rw [List.foldl_append]
    rfl
  rw [hlast]
  refine if_pos ?_
  show (stageBatch pf { headers := ws, broken := none } seg).tipHeight + 1 =
    (stageBatch pf { headers := ws, broken := none } seg).stopHeight
  rw [htip, hfront.stopHeight]
  exact h

/-- The header at the checkpoint, which names no parent. -/
def strayTail : BlockHeader := sampleHeader 1 Uint256.zero firstStop 0x1e0ffff0

/-- The last message: `19999` equal headers, and the one at the checkpoint. -/
def strayBuf : Bytes := copies 19999 (floodHeader (hashNo 2) (hashNo 3)) ++ copies 1 strayTail

/-- What is read from a message with some equal headers and another one. -/
def lastBatch (n : ℕ) (h last : BlockHeader) : Batch where
  headers := List.replicate n ⟨blockHeaderSerialize h, blockHeaderSerialize h⟩ ++
    [⟨blockHeaderSerialize last, blockHeaderSerialize last⟩]
  broken := none

theorem parse_lastBatch {n : ℕ} {h last : BlockHeader} (haux : isAuxpow h.version = false)
    (hauxLast : isAuxpow last.version = false) :
    Batch.parse (n + 1) (copies n h ++ copies 1 last) = lastBatch n h last := by
  have hfront := Batch.parse_copies_append n 1 haux (copies 1 last)
  rw [Batch.parse_copies 1 hauxLast] at hfront
  exact hfront

/-- What is read from the last message. -/
def strayBatch : Batch := lastBatch 19999 (floodHeader (hashNo 2) (hashNo 3)) strayTail

/-- The first header of the run. -/
def strayHeader : Bytes := blockHeaderSerialize
    (floodHeader dogecoinChainparamsMain.genesisblockhash (hashNo 1))

/-- The headers of the first two messages are followed by those of the last one. -/
def strayStaged : List Bytes :=
  List.replicate 40000 strayHeader ++
    List.replicate 40000 (blockHeaderSerialize (floodHeader (hashNo 1) (hashNo 2))) ++
    strayBatch.headers.map WireHeader.raw

/-- The database with `skip_pow` connects the first header, and not its copy. -/
theorem connectStaged_copies {db : HeadersDb}
    (hdb : db = { HeadersDb.new dogecoinChainparamsMain true with skipPow := true })
    (staged rest : List Bytes) :
    ∃ db' tip, connectStaged samplePlatform 0 staged (strayHeader :: strayHeader :: rest) db [] =
      some (db', [{ segIdx := 0, staged := staged, raw := strayHeader }], false) ∧
        db'.heap.read db'.chaintip = some tip := by
  have hcheck : ((HeadersDb.connectHdr samplePlatform db strayHeader false).any fun r =>
      r.connected && (HeadersDb.connectHdr samplePlatform r.db strayHeader false).any fun r' =>
        !r'.connected && ((r'.db.heap.free r'.blockindex).read r'.db.chaintip).isSome) = true := by
    rw [hdb]
    decide +kernel
  obtain ⟨r, hr, hcheck⟩ := (Option.any_eq_true _ _).mp hcheck
  obtain ⟨hconnected, hcheck⟩ := Bool.and_eq_true_iff.mp hcheck
  obtain ⟨r', hr', hcheck⟩ := (Option.any_eq_true _ _).mp hcheck
  obtain ⟨hnot, hread⟩ := Bool.and_eq_true_iff.mp hcheck
  obtain ⟨tip, htip⟩ := Option.isSome_iff_exists.mp hread
  rw [Bool.not_eq_true'] at hnot
  refine ⟨{ r'.db with heap := r'.db.heap.free r'.blockindex }, tip, ?_, htip⟩
  unfold connectStaged
  rw [hr]
  dsimp only [Option.bind_eq_bind, Option.bind_some]
  rw [hconnected, if_pos rfl]
  unfold connectStaged
  rw [hr']
  dsimp only [Option.bind_eq_bind, Option.bind_some]
  rw [hnot]
  rfl

theorem log_endIfDone (c : SpvClient) : c.endIfDone.headerConnected = c.headerConnected := by
  unfold endIfDone
  split_ifs
  · rfl
  · rfl

theorem seg_received (b : Batch) (hseg : c.parHdr.segs[i]? = some seg) :
    (received pf c i b).parHdr.segs[i]? = some (stageBatch pf b seg) :=
  seg_modifySeg_self (f := stageBatch pf b) hseg

/-- The first segment at its checkpoint is flushed: what becomes of its headers is up to its turn of
the loop. -/
theorem completeSeg_of_flushHead {seg : ParHdrSeg} {e : SpvClient} {ok : Bool}
    (hidx : c.parHdr.flushIdx = 0) (hseg : c.parHdr.segs[0]? = some seg)
    (hflushed : seg.flushed = false)
    (hhead : flushHead pf (((c.modifySeg 0 ParHdrSeg.finish).setHeadersync 0 false).setSkipPow true)
      seg.finish =
      some (e, ok))
    (hrest : ok = true → ∀ k, flushLoop pf k e = some e) :
    ∃ c', completeSeg pf c 0 0 time = some c' ∧ c'.headerConnected = e.headerConnected := by
  let d := ((c.modifySeg 0 ParHdrSeg.finish).setHeadersync 0 false).setSkipPow true
  have hread : d.parHdr.segs[d.parHdr.flushIdx]? = some seg.finish := by
    show (c.modifySeg 0 ParHdrSeg.finish).parHdr.segs[c.parHdr.flushIdx]? = _
    rw [hidx]
    exact seg_modifySeg_self hseg
  have hlen : d.parHdr.segs.length - d.parHdr.flushIdx = d.parHdr.segs.length - 1 + 1 := by
    have hlt := (List.getElem?_eq_some_iff.mp hread).1
    rw [show d.parHdr.flushIdx = 0 from hidx] at hlt ⊢
    omega
  have hflush : parHdrFlush pf ((c.modifySeg 0 ParHdrSeg.finish).setHeadersync 0 false) =
      some (e.setSkipPow c.headersDb.skipPow) := by
    unfold parHdrFlush
    show (flushLoop pf (d.parHdr.segs.length - d.parHdr.flushIdx) d).bind _ = _
    rw [hlen, flushLoop, hread]
    dsimp only
    rw [show (seg.finish.complete && !seg.finish.flushed) = true by
      show (true && !seg.flushed) = true; rw [hflushed]; rfl, if_pos rfl, hhead]
    dsimp only [Option.bind_eq_bind, Option.bind_some]
    cases ok with
    | true =>
      rw [if_pos rfl, hrest rfl]
      rfl
    | false => rfl
  refine ⟨((e.setSkipPow c.headersDb.skipPow).parHdrAssign 0 time).endIfDone, ?_, ?_⟩
  · unfold completeSeg
    rw [hflush]
    rfl
  · rw [log_endIfDone, (log_parHdrAssign _ 0 time).2]
    rfl

/-- Its turn fails at the second header. -/
theorem completeSeg_stray {seg : ParHdrSeg} (hidx : c.parHdr.flushIdx = 0)
    (hseg : c.parHdr.segs[0]? = some seg) (hflushed : seg.flushed = false)
    (hfails : seg.flushFails = 0) (hstaged : seg.staged = strayStaged)
    (htail : seg.tailRaw = some (blockHeaderSerialize strayTail))
    (hdb : c.headersDb = HeadersDb.new dogecoinChainparamsMain true)
    (hlog : c.headerConnected = []) :
    ∃ c', completeSeg samplePlatform c 0 0 time = some c' ∧
      c'.headerConnected = [{ segIdx := 0, staged := strayStaged, raw := strayHeader }] := by
  let d := ((c.modifySeg 0 ParHdrSeg.finish).setHeadersync 0 false).setSkipPow true
  have hlist : strayStaged = strayHeader :: strayHeader :: strayStaged.drop 2 := by
    unfold strayStaged
    rw [show 40000 = 39998 + 1 + 1 from rfl, List.replicate_succ, List.replicate_succ]
    rfl
  obtain ⟨db', tip, hconn, htip⟩ := @connectStaged_copies
    { c.headersDb with skipPow := true } (by rw [hdb]) strayStaged (strayStaged.drop 2)
  have hverify : parHdrVerifyTail samplePlatform d.headersDb.params seg.finish = true := by
    show parHdrVerifyTail samplePlatform c.headersDb.params seg = true
    unfold parHdrVerifyTail
    rw [htail]
    dsimp only
    rw [if_neg (by rw [length_blockHeaderSerialize]; decide),
      blockHeaderDeserialize_raw (length_blockHeaderSerialize _)]
    dsimp only
    rw [rawHeader_serialize, hdb]
    decide +kernel
  have hround : ∃ e, flushHead samplePlatform d seg.finish = some (e, false) ∧
      e.headerConnected = [{ segIdx := 0, staged := strayStaged, raw := strayHeader }] := by
    have hconn' : connectStaged samplePlatform d.parHdr.flushIdx seg.finish.staged seg.finish.staged
        d.headersDb d.headerConnected =
        some (db', [{ segIdx := 0, staged := strayStaged, raw := strayHeader }], false) := by
      show connectStaged samplePlatform c.parHdr.flushIdx seg.staged seg.staged { c.headersDb with
        skipPow := true }
        c.headerConnected = _
      rw [hidx, hstaged, hlog]
      refine Eq.trans ?_ hconn
      exact congrArg (fun l => connectStaged samplePlatform 0 strayStaged l { c.headersDb with
        skipPow := true } []) hlist
    unfold flushHead
    rw [hverify, hconn', if_neg (by decide)]
    dsimp only [Option.bind_eq_bind, Option.bind_some]
    rw [if_neg Bool.false_ne_true]
    unfold failFlush
    dsimp only
    rw [htip]
    dsimp only [Option.bind_eq_bind, Option.bind_some]
    rw [show seg.finish.flushFails = 0 from hfails, if_neg (by decide)]
    exact ⟨_, rfl, rfl⟩
  obtain ⟨e, hhead, helog⟩ := hround
  obtain ⟨c', hc', hlog'⟩ := @completeSeg_of_flushHead samplePlatform c time seg e false hidx
    hseg hflushed hhead fun hok => absurd hok Bool.false_ne_true
  exact ⟨c', hc', hlog'.trans helog⟩

/-- A message that brings the first segment to its checkpoint. -/
theorem recv_last {height n fails : ℕ} {hash : Uint256} {h last : BlockHeader} (time : ℕ)
    (hf : Flooded c tip height hash fails) (hs : FloodStaged c db l)
    (haux : isAuxpow h.version = false)
    (hauxLast : isAuxpow last.version = false) (hprev : h.prevBlock = hash)
    (hheight : height + (n + 1) + 1 = 100000)
    (hlast : rawHash samplePlatform (blockHeaderSerialize last) = firstStop) :
    ∃ seg, (received samplePlatform c 0 (lastBatch (n + 1) h last)).parHdr.segs[0]? = some seg ∧
      seg.flushed = false ∧ seg.flushFails = fails ∧
      seg.staged = l ++ (lastBatch (n + 1) h last).headers.map WireHeader.raw ∧
      seg.tailRaw = some (blockHeaderSerialize last) ∧
      syncStep samplePlatform c (.headers 0 (n + 1 + 1) (copies (n + 1) h ++ copies 1 last) time) =
        completeSeg samplePlatform (received samplePlatform c 0 (lastBatch (n + 1) h last)) 0 0
          time := by
  obtain ⟨seg, hseg, hfs⟩ := hf.seg
  obtain ⟨seg', hseg', hfull, hstaged⟩ := hs.seg
  rw [hseg] at hseg'
  obtain rfl := Option.some.inj hseg'
  have hcont := continues_copies (h := h) (n := n) (hprev.trans hfs.tipHash.symm)
    (n + 1 + 1) (copies 1 last)
  have hstep := @recv_of_owner samplePlatform _ _ _ time hf.sound hf.active _ hseg hfs.complete
    hfs.owner _ _ hcont
  rw [parse_lastBatch haux hauxLast] at hstep
  have hframe : StagedFrom seg (stageBatch samplePlatform (lastBatch (n + 1) h last) seg) :=
    stagedFrom_stageBatch _ seg
  have htip : (stageBatch samplePlatform (lastBatch (n + 1) h last) seg).tipHeight = 100000 := by
    rw [(count_stageBatch _ _).2, hfs.tipHeight, ← hheight]
    unfold lastBatch
    rw [List.length_append, List.length_replicate]
    rfl
  have hhash : (stageBatch samplePlatform (lastBatch (n + 1) h last) seg).tipHash =
      (stageBatch samplePlatform (lastBatch (n + 1) h last) seg).stopHash := by
    have hstop : firstStop = seg.stopHash := by
      unfold firstStop
      rw [← hfs.stopHash]
      rfl
    rw [hframe.stopHash, ← hstop, tipHash_stageBatch]
    unfold lastBatch
    rw [List.getLast?_concat]
    exact hlast
  unfold afterHeaders at hstep
  rw [hframe.stopHeight, hfs.stopHeight, htip, if_pos (le_refl _),
    if_neg (not_not.mpr hhash)] at hstep
  refine ⟨_, seg_received _ hseg, hframe.flushed.trans (hf.sound.not_flushed hseg hfs.complete),
    hframe.flushFails.trans hfs.flushFails, ?_, ?_, hstep⟩
  · rw [staged_stageBatch _ hfull, hstaged]
  · refine tailRaw_stageBatch_concat ?_
    rw [List.length_replicate, hfs.tipHeight, hfs.stopHeight, hheight]

/-- The third message completes the segment. -/
theorem stray_flushed (hf : Flooded c mainGenesis 80000 (hashNo 2) 0)
    (hs : FloodStaged c (HeadersDb.new dogecoinChainparamsMain true) l)
    (hl : l ++ strayBatch.headers.map WireHeader.raw = strayStaged) :
    ∃ c', syncStep samplePlatform c (.headers 0 20000 strayBuf 1) = some c' ∧
      c'.headerConnected = [{ segIdx := 0, staged := strayStaged, raw := strayHeader }] := by
  have hlast : rawHash samplePlatform (blockHeaderSerialize strayTail) = firstStop := by
    rw [rawHash, rawHeader_serialize]
    exact hash_sampleHeader _ _ _ _
  obtain ⟨seg, hseg, hflushed, hfails, hstaged, htail, hstep⟩ := recv_last (n := 19998)
    (h := floodHeader (hashNo 2) (hashNo 3)) 1 hf hs rfl rfl rfl rfl hlast
  obtain ⟨c', hc', hlog⟩ := @completeSeg_stray (received samplePlatform c 0 strayBatch) 1 seg
    hf.flushIdx hseg hflushed hfails (hstaged.trans hl) htail hs.db hs.log
  exact ⟨c', hstep.trans hc', hlog⟩

/-- Two peers connect and are given the first two segments. -/
def twoOwners : List SyncOp := joins 0 ++ joins 1 ++ [.assign 0 1, .assign 1 1]

/-- Nothing is staged in the first segment, and the second one is open. -/
def freshSegs (c : SpvClient) : Bool :=
  (c.parHdr.segs[0]?.any fun seg => decide (seg.count = 0)) &&
    c.parHdr.segs[1]?.all fun seg => !seg.complete

/-- The first segment may be flooded, and nothing is staged in it. -/
theorem floodStaged_twoOwners (tip : BlockIndex) (db : HeadersDb)
    (hparams : db.params = dogecoinChainparamsMain)
    (hrun : ((syncSystem samplePlatform fun _ => True).run { mainClient with headersDb := db }
      twoOwners).any (fun c => twoPeersCheck tip c && freshSegs c) = true) :
    ∃ c, LinkedReach c ∧ Flooded c tip 0 dogecoinChainparamsMain.genesisblockhash 0 ∧
      FloodStaged c db [] := by
  obtain ⟨c, hc, hcheck⟩ := (Option.any_eq_true _ _).mp hrun
  obtain ⟨hcheck, hfresh⟩ := Bool.and_eq_true_iff.mp hcheck
  obtain ⟨hempty, hnext⟩ := Bool.and_eq_true_iff.mp hfresh
  obtain ⟨seg, hseg, hcount⟩ := (Option.any_eq_true _ _).mp hempty
  have hcount : seg.count = 0 := of_decide_eq_true hcount
  have hquiet : ∀ op ∈ twoOwners, op.isQuiet = true := by decide
  have hstarted : SyncStarted (fun _ => True) { mainClient with headersDb := db } := by
    refine ⟨?_, fun _ hn => (List.not_mem_nil hn).elim, rfl, trivial⟩
    show ParHdrState.parHdrInit db.params = _
    rw [hparams]
    rfl
  have hreach : LinkedReach c := .of_run (.init hstarted) (meets_of_quiet hquiet) hc
  have hsound : Sound c :=
    @sound_of_reach _ { stages := fun _ => True, orphans := True, losesShadow := True }
      _ _ (hreach.mono fun _ _ _ => ⟨fun _ _ => trivial, fun _ => trivial, fun _ => trivial⟩)
  obtain ⟨hdb, hlog⟩ := log_of_quiet hquiet hc
  refine ⟨c, hreach, flooded_of_check hsound hcheck, hdb, hlog, ?_, seg, hseg, ?_, ?_⟩
  · intro seg1 hseg1
    rw [hseg1, Option.all_some, Bool.not_eq_true'] at hnext
    exact hnext
  · unfold Full
    rw [hcount]
    exact Nat.zero_le _
  · rw [ParHdrSeg.staged, hcount, List.take_zero]

/-! ### A segment that is connected -/

/-- An assignment touches no staged headers. -/
theorem seg_parHdrAssign {seg' : ParHdrSeg}
    (h : (c.parHdrAssign p time).parHdr.segs[i]? = some seg') :
    ∃ seg, c.parHdr.segs[i]? = some seg ∧ seg'.buf = seg.buf ∧ seg'.count = seg.count ∧
      seg'.complete = seg.complete := by
  unfold parHdrAssign at h
  split_ifs at h
  · exact ⟨seg', h, rfl, rfl, rfl⟩
  · exact ⟨seg', h, rfl, rfl, rfl⟩
  · exact ⟨seg', h, rfl, rfl, rfl⟩
  cases hfree : c.parHdr.firstFree with
  | none =>
    rw [hfree] at h
    exact ⟨seg', h, rfl, rfl, rfl⟩
  | some k =>
    rw [hfree] at h
    dsimp only at h
    split_ifs at h
    · exact ⟨seg', h, rfl, rfl, rfl⟩
    · obtain ⟨seg1, hseg1, rfl⟩ := seg_modifySeg h
      obtain ⟨seg2, hseg2, rfl⟩ := seg_modifySeg hseg1
      refine ⟨seg2, hseg2, ?_⟩
      split_ifs <;> exact ⟨rfl, rfl, rfl⟩

/-- A segment that starts again has nothing staged. -/
theorem floodStaged_reject {height n fails : ℕ} {hash : Uint256} {h : BlockHeader}
    (hf : Flooded c tip height hash fails) (hs : FloodStaged c db l)
    (haux : isAuxpow h.version = false) (hprev : h.prevBlock = hash)
    (hhigh : 100000 ≤ height + (n + 1))
    (hmiss : some (blockHeaderHash pf h) ≠ mainnetCheckpointArray[1]?.map Checkpoint.hash)
    (hfails : fails + 1 < PAR_HDR_MAX_FLUSH_FAILS)
    (hstep : syncStep pf c (.headers 0 (n + 1) (copies (n + 1) h) time) = some c') :
    FloodStaged c' db [] := by
  obtain ⟨seg, d, -, hseg, hd, hmissed⟩ :=
    @flooded_miss pf c n time height fails h hash tip hf haux hprev hhigh hmiss
  rw [if_neg (Nat.not_le.mpr hfails), hstep] at hmissed
  obtain rfl := Option.some.inj hmissed
  have hdb : d.headersDb = c.headersDb ∧ d.headerConnected = c.headerConnected := by
    rw [hd]
    exact ⟨rfl, rfl⟩
  obtain ⟨hdb', hlog'⟩ := log_parHdrAssign d 0 time
  obtain ⟨seg', hseg'⟩ : ∃ seg', (d.parHdrAssign 0 time).parHdr.segs[0]? = some seg' := by
    obtain ⟨c2, hc2, hf2⟩ :=
      @flooded_reject pf c n time height fails h hash tip hf haux hprev hhigh hmiss hfails
    rw [hstep] at hc2
    obtain rfl := Option.some.inj hc2
    obtain ⟨seg', hseg', -⟩ := hf2.seg
    exact ⟨seg', hseg'⟩
  obtain ⟨seg1, hseg1, -, hcount, -⟩ := seg_parHdrAssign hseg'
  have hzero : seg'.count = 0 := by
    rw [hd] at hseg1
    obtain ⟨seg2, -, rfl⟩ := seg_modifySeg hseg1
    rw [hcount, if_pos rfl]
    rfl
  refine ⟨hdb'.trans (hdb.1.trans hs.db), hlog'.trans (hdb.2.trans hs.log), ?_, seg', hseg', ?_, ?_⟩
  · intro seg3 hseg3
    obtain ⟨seg4, hseg4, -, -, hcomplete⟩ := seg_parHdrAssign hseg3
    rw [hd] at hseg4
    obtain ⟨seg5, hseg5, rfl⟩ := seg_modifySeg hseg4
    obtain ⟨seg6, hseg6, rfl⟩ := seg_modifySeg hseg5
    exact hcomplete.trans (hs.next _ hseg6)
  · unfold Full
    rw [hzero]
    exact Nat.zero_le _
  · rw [ParHdrSeg.staged, hzero, List.take_zero]

/-- A database whose chain starts two blocks below the first checkpoint. -/
def lateDb : HeadersDb :=
  (HeadersDb.new dogecoinChainparamsMain true).setCheckpointStart (hashNo 1) 99998 initArithUint256

/-- Its tip. -/
def lateTip : BlockIndex where
  height := 99998
  hash := hashNo 1
  chainwork := initArithUint256
  header := emptyHeader
  prev := none

/-- The last two headers of the first segment. -/
def lateBuf : Bytes :=
  copies 1 (floodHeader (hashNo 1) (hashNo 2)) ++ copies 1 (floodHeader (hashNo 2) firstStop)

/-- What is read from them. -/
def lateBatch : Batch := lastBatch 1 (floodHeader (hashNo 1) (hashNo 2))
    (floodHeader (hashNo 2) firstStop)

/-- The first segment at its checkpoint is flushed, if its headers connect. -/
theorem completeSeg_connected {seg : ParHdrSeg} {log : List FlushedHeader}
    (hidx : c.parHdr.flushIdx = 0) (hseg : c.parHdr.segs[0]? = some seg)
    (hflushed : seg.flushed = false)
    (hnext : ∀ seg, c.parHdr.segs[1]? = some seg → seg.complete = false)
    (hverify : parHdrVerifyTail pf c.headersDb.params seg = true)
    (hconn : connectStaged pf 0 seg.staged seg.staged { c.headersDb with skipPow := true }
      c.headerConnected = some (db, log, true)) :
    ∃ c', completeSeg pf c 0 0 time = some c' ∧ c'.headerConnected = log := by
  let d := ((c.modifySeg 0 ParHdrSeg.finish).setHeadersync 0 false).setSkipPow true
  let e := ({ d with headersDb := db, headerConnected := log } : SpvClient).headFlushed seg.finish
  have hhead : flushHead pf d seg.finish = some (e, true) := by
    have hconn' : connectStaged pf d.parHdr.flushIdx seg.finish.staged seg.finish.staged d.headersDb
        d.headerConnected = some (db, log, true) := by
      show connectStaged pf c.parHdr.flushIdx seg.staged seg.staged _ c.headerConnected = _
      rw [hidx]
      exact hconn
    have hverify' : parHdrVerifyTail pf d.headersDb.params seg.finish = true := hverify
    unfold flushHead
    rw [hverify', hconn']
    rfl
  -- behind the first segment the loop stops
  have hrest : ∀ k, flushLoop pf k e = some e := by
    intro k
    cases k with
    | zero => rfl
    | succ k =>
      unfold flushLoop
      cases hone : e.parHdr.segs[e.parHdr.flushIdx]? with
      | none => rfl
      | some seg1 =>
        have hindex : e.parHdr.flushIdx = 1 := congrArg (· + 1) hidx
        have hsame : e.parHdr.segs[1]? = c.parHdr.segs[1]? := by
          show ((c.parHdr.segs.modify 0 _).modify c.parHdr.flushIdx _)[1]? = _
          rw [hidx, List.getElem?_modify_ne _ _ Nat.zero_ne_one,
            List.getElem?_modify_ne _ _ Nat.zero_ne_one]
        rw [hindex, hsame] at hone
        dsimp only
        rw [hnext seg1 hone]
        rfl
  exact completeSeg_of_flushHead hidx hseg hflushed hhead fun _ => hrest

/-- The last two headers complete the segment, and are connected. -/
theorem late_flushed (hf : Flooded c lateTip 99998 (hashNo 1) 1) (hs : FloodStaged c lateDb []) :
    ∃ c', syncStep samplePlatform c (.headers 0 2 lateBuf 1) = some c' ∧
      c'.headerConnected.map FlushedHeader.raw =
        (lateBatch.headers.map WireHeader.raw).reverse := by
  have hlast : rawHash samplePlatform (blockHeaderSerialize (floodHeader (hashNo 2) firstStop)) =
    firstStop := by
    rw [rawHash, rawHeader_serialize]
    exact hash_floodHeader _ _
  obtain ⟨seg, hseg, hflushed, -, hstaged, htail, hstep⟩ := recv_last (n := 0)
    (h := floodHeader (hashNo 1) (hashNo 2)) 1 hf hs rfl rfl rfl rfl hlast
  have hverify : parHdrVerifyTail samplePlatform c.headersDb.params seg = true := by
    unfold parHdrVerifyTail
    rw [htail, hs.db]
    decide +kernel
  have hconnected : (connectStaged samplePlatform 0 (lateBatch.headers.map WireHeader.raw)
      (lateBatch.headers.map WireHeader.raw) { lateDb with skipPow := true } []).any (fun r =>
        r.2.2 && decide (r.2.1.map FlushedHeader.raw =
          (lateBatch.headers.map WireHeader.raw).reverse)) = true := by
    decide +kernel
  obtain ⟨⟨db, log, ok⟩, hconn, hcheck⟩ := (Option.any_eq_true _ _).mp hconnected
  obtain ⟨hok, hraws⟩ := Bool.and_eq_true_iff.mp hcheck
  obtain rfl : ok = true := hok
  have hnext : ∀ seg1, (received samplePlatform c 0 lateBatch).parHdr.segs[1]? = some seg1 →
      seg1.complete = false := by
    intro seg1 hseg1
    obtain ⟨seg2, hseg2, rfl⟩ := seg_modifySeg hseg1
    exact hs.next _ hseg2
  obtain ⟨c', hc', hlog⟩ := @completeSeg_connected samplePlatform
    (received samplePlatform c 0 lateBatch) 1 db _ log hf.flushIdx hseg hflushed hnext hverify (by
      rw [hstaged, List.nil_append]
      show connectStaged samplePlatform 0 _ _ { c.headersDb with skipPow := true }
        c.headerConnected = _
      rw [hs.db, hs.log]
      exact hconn)
  exact ⟨c', hstep.trans hc', by rw [hlog]; exact of_decide_eq_true hraws⟩

/-- The first segment misses its checkpoint with equal headers, goes on from the tip of the
database, and its last two headers are connected. -/
theorem leadsTo_of_reach_late :
    ∃ c, LinkedReach c ∧
      c.headerConnected.map FlushedHeader.raw = (lateBatch.headers.map WireHeader.raw).reverse ∧
      ∀ fh ∈ c.headerConnected, ∃ seg, c.parHdr.segs[fh.segIdx]? = some seg ∧ fh.raw ∈ fh.staged ∧
        LeadsTo samplePlatform fh.staged seg.stopHash fh.raw := by
  obtain ⟨c0, hreach0, hf0, hs0⟩ := floodStaged_twoOwners lateTip lateDb rfl (by decide +kernel)
  have hmiss : some (blockHeaderHash samplePlatform
    (floodHeader dogecoinChainparamsMain.genesisblockhash
      dogecoinChainparamsMain.genesisblockhash)) ≠
        mainnetCheckpointArray[1]?.map Checkpoint.hash := by
    rw [hash_floodHeader]
    decide +kernel
  obtain ⟨c1, h1, hf1⟩ := @flooded_reject samplePlatform _ 99999 1 _ _
    (floodHeader dogecoinChainparamsMain.genesisblockhash dogecoinChainparamsMain.genesisblockhash)
    _ _ hf0 rfl rfl (by decide) hmiss (by decide)
  have hs1 := floodStaged_reject hf0 hs0 rfl rfl (by decide) hmiss (by decide) h1
  have hlinked0 : ¬ StagesUnlinked samplePlatform c0 (.headers 0 (99999 + 1) (copies (99999 + 1)
      (floodHeader dogecoinChainparamsMain.genesisblockhash
        dogecoinChainparamsMain.genesisblockhash)) 1) := by
    apply not_stagesUnlinked
    rw [Batch.parse_copies _ rfl]
    unfold Batch.LinkedHeaders
    rw [List.map_replicate]
    refine List.isChain_replicate_of_rel _ ?_
    show (rawHeader _).prevBlock = rawHash samplePlatform _
    rw [rawHash, rawHeader_serialize]
    exact (hash_floodHeader _ _).symm
  obtain ⟨c2, h2, hraws⟩ := late_flushed hf1 hs1
  have hlinked1 : ¬ StagesUnlinked samplePlatform c1 (.headers 0 2 lateBuf 1) :=
    not_stagesUnlinked (by decide +kernel)
  have hreach2 : LinkedReach c2 := (hreach0.step hlinked0 h1).step hlinked1 h2
  exact ⟨c2, hreach2, hraws, leadsTo_of_reach hreach2⟩

/-! ### A header that leads nowhere -/

/-- After three messages, a header of the first one is in the database. -/
theorem stray_run : ∃ c, (syncSystem samplePlatform fun _ => True).Reachable c ∧
    c.stops[0]? = some firstStop ∧
    c.headerConnected = [{ segIdx := 0, staged := strayStaged, raw := strayHeader }] := by
  obtain ⟨c0, hlinked, hf0, hs0⟩ := floodStaged_twoOwners mainGenesis
    (HeadersDb.new dogecoinChainparamsMain true) rfl (by decide +kernel)
  have hreach0 := hlinked.reachable
  obtain ⟨c1, h1, hf1⟩ := @flooded_advance samplePlatform _ 39999 1 _ _
    (floodHeader dogecoinChainparamsMain.genesisblockhash (hashNo 1)) _ _ hf0 rfl rfl (by decide)
  have hs1 := floodStaged_advance hf0 hs0 rfl rfl (by decide) h1
  rw [hash_floodHeader] at hf1
  obtain ⟨c2, h2, hf2⟩ := @flooded_advance samplePlatform _ 39999 1 _ _
    (floodHeader (hashNo 1) (hashNo 2)) _ _ hf1 rfl rfl (by decide)
  have hs2 := floodStaged_advance hf1 hs1 rfl rfl (by decide) h2
  rw [hash_floodHeader] at hf2
  obtain ⟨c3, h3, hlog⟩ := stray_flushed hf2 hs2 rfl
  have hstop : c3.stops[0]? = some firstStop := by
    obtain ⟨seg, hseg, hfs⟩ := hf2.seg
    rw [stops_of_step h3, stops, List.getElem?_map, hseg]
    unfold firstStop
    rw [← hfs.stopHash]
    rfl
  have hreach1 := hreach0.step (i := flood dogecoinChainparamsMain.genesisblockhash (hashNo 1))
    trivial h1
  have hreach2 := hreach1.step (i := flood (hashNo 1) (hashNo 2)) trivial h2
  exact ⟨c3, hreach2.step (i := .headers 0 20000 strayBuf 1) trivial h3, hstop, hlog⟩

theorem rawHash_floodHeader (prevBlock hash : Uint256) :
    rawHash samplePlatform (blockHeaderSerialize (floodHeader prevBlock hash)) = hash := by
  rw [rawHash, rawHeader_serialize]
  exact hash_floodHeader prevBlock hash

theorem rawHash_of_mem_stray (hmem : raw ∈ strayStaged) :
    rawHash samplePlatform raw ∈ [hashNo 1, hashNo 2, hashNo 3] ∨ (rawHeader raw).prevBlock =
      Uint256.zero := by
  unfold strayStaged strayBatch lastBatch at hmem
  simp only [List.map_append, List.map_replicate, List.map_cons, List.map_nil,
    List.mem_append] at hmem
  rcases hmem with (hmem | hmem) | (hmem | hmem)
  · rw [List.eq_of_mem_replicate hmem, strayHeader, rawHash_floodHeader]
    exact Or.inl List.mem_cons_self
  · rw [List.eq_of_mem_replicate hmem, rawHash_floodHeader]
    exact Or.inl (by simp)
  · rw [List.eq_of_mem_replicate hmem, rawHash_floodHeader]
    exact Or.inl (by simp)
  · rw [List.mem_singleton.mp hmem, rawHeader_serialize]
    exact Or.inr rfl

/-- No chain of staged headers leads from the first three to the checkpoint: the header that has its
hash names another parent. -/
theorem not_leadsTo_stray (h : LeadsTo samplePlatform strayStaged firstStop raw) :
    rawHash samplePlatform raw ∉ [hashNo 1, hashNo 2, hashNo 3] := by
  have hstop : firstStop ∉ [hashNo 1, hashNo 2, hashNo 3] := by decide +kernel
  have hzero : Uint256.zero ∉ [hashNo 1, hashNo 2, hashNo 3] := by decide +kernel
  induction h with
  | last h =>
    rw [h]
    exact hstop
  | @next raw raw' hmem hlink hrest ih =>
    rcases rawHash_of_mem_stray hmem with hin | hprev
    · exact absurd hin ih
    · rw [← show (rawHeader raw').prevBlock = rawHash samplePlatform raw from hlink, hprev]
      exact hzero

/-- A header that does not lead to the checkpoint is connected without a check of its work. -/
theorem stray_header_connected :
    ¬ ∀ (pf : Platform) (c : SpvClient), (syncSystem pf fun _ => True).Reachable c →
    ∀ fh ∈ c.headerConnected,
      ∃ seg, c.parHdr.segs[fh.segIdx]? = some seg ∧ LeadsTo pf fh.staged seg.stopHash fh.raw := by
  intro hall
  obtain ⟨c, hreach, hstop, hlog⟩ := stray_run
  obtain ⟨seg, hseg, hleads⟩ := hall samplePlatform c hreach _
    (by rw [hlog]; exact List.mem_cons_self)
  rw [stops, List.getElem?_map, hseg] at hstop
  rw [Option.some.inj hstop] at hleads
  refine not_leadsTo_stray hleads ?_
  show rawHash samplePlatform strayHeader ∈ _
  rw [strayHeader, rawHash_floodHeader]
  exact List.mem_cons_self

end SpvClient

end Libdogecoin
