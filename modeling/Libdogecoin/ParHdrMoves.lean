/-
# What a step of the download does

A step of the download is a sequence of moves: a peer becomes the owner of a segment, a message is
staged, a segment is given up, and so on. A move says which segment, peer or database it changes and
what held before. The invariants of the later modules look at single moves only.

Three kinds of moves break one invariant or another. A `Scope` says which of them are considered,
and `Scope.Allows` says it of a step, by the state before it and the input.

* `moves_of_step` : a step that the scope allows is a sequence of moves in it;
* `invariant_of_reach` : what every move in the scope keeps holds throughout a run.
-/
import Mathlib.Logic.Relation
import Libdogecoin.ParHdrBatch

namespace Libdogecoin

namespace SpvClient

variable {pf : Platform} {c c' : SpvClient} {i j p time now q : ℕ} {f g : ParHdrSeg → ParHdrSeg}
  {on : Bool}
  {P : SpvClient → Prop}

/-! ## Changing one part of the client -/

@[simp] theorem segs_modifySeg (c : SpvClient) (i : ℕ) (f : ParHdrSeg → ParHdrSeg) :
    (c.modifySeg i f).parHdr.segs = c.parHdr.segs.modify i f := rfl

@[simp] theorem parHdr_clearOwner (c : SpvClient) (owner : Option ℕ) :
    (c.clearOwner owner).parHdr = c.parHdr := by
  cases owner with
  | none => rfl
  | some p => rfl

/-- The segment that is changed, and the others. -/
theorem seg_modifySeg {seg' : ParHdrSeg} (h : (c.modifySeg i f).parHdr.segs[j]? = some seg') :
    ∃ seg, c.parHdr.segs[j]? = some seg ∧ seg' = if i = j then f seg else seg := by
  rw [segs_modifySeg, List.getElem?_modify] at h
  obtain ⟨seg, hseg, rfl⟩ := Option.map_eq_some_iff.mp h
  exact ⟨seg, hseg, rfl⟩

variable {seg : ParHdrSeg} {count : ℕ} {buf : Bytes}

theorem seg_modifySeg_self (h : c.parHdr.segs[i]? = some seg) :
    (c.modifySeg i f).parHdr.segs[i]? = some (f seg) := by
  rw [segs_modifySeg, List.getElem?_modify_eq, h]
  rfl

theorem seg_modifySeg_of_ne (h : i ≠ j) :
    (c.modifySeg i f).parHdr.segs[j]? = c.parHdr.segs[j]? := by
  rw [segs_modifySeg, List.getElem?_modify_ne f _ h]

/-- Setting a segment to what a change makes of it is the change. -/
theorem modifySeg_const (f : ParHdrSeg → ParHdrSeg) (h : c.parHdr.segs[i]? = some seg) :
    (c.modifySeg i fun _ => f seg) = c.modifySeg i f := by
  have hsegs : (c.parHdr.segs.modify i fun _ => f seg) = c.parHdr.segs.modify i f := by
    apply List.ext_getElem?
    intro j
    rw [List.getElem?_modify, List.getElem?_modify]
    by_cases hij : i = j
    · subst hij
      rw [h]
      simp
    · simp [hij]
  unfold modifySeg ParHdrState.modifySeg
  rw [hsegs]

/-- The bit `NODE_HEADERSYNC` of a peer. -/
def syncing (c : SpvClient) (p : ℕ) : Prop := ∃ n, c.nodes[p]? = some n ∧ n.headersync = true

theorem syncing_setHeadersync (h : (c.setHeadersync p on).syncing q) :
    (q = p ∧ on = true) ∨ (q ≠ p ∧ c.syncing q) := by
  obtain ⟨n, hn, hsync⟩ := h
  change (c.nodes.modify p _)[q]? = some n at hn
  rw [List.getElem?_modify] at hn
  obtain ⟨n0, hn0, rfl⟩ := Option.map_eq_some_iff.mp hn
  by_cases hqp : p = q
  · rw [if_pos hqp] at hsync
    exact Or.inl ⟨hqp.symm, hsync⟩
  · rw [if_neg hqp] at hsync
    exact Or.inr ⟨Ne.symm hqp, n0, hn0, hsync⟩

theorem syncing_of_ne (hqp : q ≠ p) (h : c.syncing q) : (c.setHeadersync p on).syncing q := by
  obtain ⟨n, hn, hsync⟩ := h
  refine ⟨n, ?_, hsync⟩
  change (c.nodes.modify p _)[q]? = some n
  rw [List.getElem?_modify_ne _ _ (Ne.symm hqp), hn]

@[simp] theorem usable_setHeadersync (c : SpvClient) (p : ℕ) (on : Bool) (q : ℕ) :
    (c.setHeadersync p on).usable q = c.usable q := by
  show Option.any _ (c.nodes.modify p _)[q]? = _
  rw [List.getElem?_modify, usable]
  cases c.nodes[q]? with
  | none => rfl
  | some n =>
    by_cases hqp : p = q
    · simp [hqp]
    · simp [hqp]

@[simp] theorem usable_clearOwner (c : SpvClient) (owner : Option ℕ) (q : ℕ) :
    (c.clearOwner owner).usable q = c.usable q := by
  cases owner with
  | none => rfl
  | some p => exact usable_setHeadersync c p false q

/-! ## The scope of a run -/

/-- The moves that are considered: which messages are staged, whether the flush head may lose its
owner to a peer that then refuses it, and whether a segment may be closed while it has a shadow. -/
structure Scope where
  stages : Batch → Prop
  orphans : Prop
  losesShadow : Prop

/-- The message that a step stages: it is for a segment and continues it. -/
def stagedBatch (c : SpvClient) : SyncOp → Option Batch
  | .headers p count buf _ => do
      let i ← c.parHdr.segOf p
      let seg ← c.parHdr.segs[i]?
      if continues seg count buf then some (Batch.parse count buf) else none
  | _ => none

/-- The step reclaims a flush head with a shadow for an idle peer that shadows a segment. -/
def OrphansHead (c : SpvClient) : SyncOp → Prop
  | .reclaim now time =>
    let m := (c.releaseAll now).assignAll time
    ∃ head idle, c.parHdr.active = true ∧ m.parHdr.segs[m.parHdr.flushIdx]? = some head ∧
      head.shadowId ≠ none ∧ m.preemptBy now = some idle ∧ m.parHdr.busy idle = true
  | _ => False

/-- The step closes a segment that has a shadow: its owner brings it to its stop height, or it is
released. -/
def LosesShadow (c : SpvClient) : SyncOp → Prop
  | .headers p count buf _ =>
    ∃ (i : ℕ) (seg : ParHdrSeg), c.parHdr.segOf p = some i ∧ c.parHdr.segs[i]? = some seg ∧
    seg.nodeId = some p ∧
      seg.shadowId ≠ none ∧ continues seg count buf = true ∧
      seg.stopHeight ≤ seg.tipHeight + (Batch.parse count buf).headers.length
  | .reclaim now _ =>
    ∃ (i : ℕ) (seg : ParHdrSeg), c.parHdr.active = true ∧ c.parHdr.segs[i]? = some seg ∧
    c.isStale now seg = true ∧
      seg.shadowId ≠ none
  | _ => False

/-- The step stays in the scope. -/
def Scope.Allows (sc : Scope) (c : SpvClient) (op : SyncOp) : Prop :=
  (∀ b, c.stagedBatch op = some b → sc.stages b) ∧ (c.OrphansHead op → sc.orphans) ∧
    (c.LosesShadow op → sc.losesShadow)

/-! ## Moves -/

/-- The headers of a message hang on the tip of the segment. -/
def Hangs (b : Batch) (seg : ParHdrSeg) : Prop :=
  ∀ w, b.headers.head? = some w → (rawHeader w.raw).prevBlock = seg.tipHash

/-- One move of the download. -/
inductive Move (pf : Platform) (sc : Scope) (c : SpvClient) : SpvClient → Prop where
  /-- Connections change, and bits are cleared. -/
  | link {nodes : List Node} (h : ∀ q, syncing { c with nodes := nodes } q → c.syncing q) :
      Move pf sc c { c with nodes := nodes }
  | rate (r : ℕ) : Move pf sc c { c with parHdr := { c.parHdr with rateRef := r } }
  | skipPow (on : Bool) : Move pf sc c (c.setSkipPow on)
  /-- A free segment is given to an idle peer. -/
  | give {i p time : ℕ} {seg : ParHdrSeg} (hseg : c.parHdr.segs[i]? = some seg)
      (hopen : seg.complete = false) (hfree : seg.nodeId = none) (hidle : c.parHdr.busy p = false) :
      Move pf sc c ((c.modifySeg i (ParHdrSeg.assign p time)).parHdrSendGetheaders p i time)
  /-- The owner is asked for more. -/
  | request {i p time : ℕ} {seg : ParHdrSeg} (hseg : c.parHdr.segs[i]? = some seg)
      (hopen : seg.complete = false) (howner : seg.nodeId = some p) :
      Move pf sc c (c.parHdrSendGetheaders p i time)
  | takeOver {i p time : ℕ} {seg : ParHdrSeg} (hseg : c.parHdr.segs[i]? = some seg)
      (hopen : seg.complete = false) (hshadow : seg.shadowId = some p) :
      Move pf sc c ((c.clearOwner seg.nodeId).modifySeg i (ParHdrSeg.takeOver p time))
  | stage {i : ℕ} {seg : ParHdrSeg} {b : Batch} (hseg : c.parHdr.segs[i]? = some seg)
      (hopen : seg.complete = false) (hok : sc.stages b) (hhangs : Hangs b seg) :
      Move pf sc c ((c.modifySeg i (stageBatch pf b)).setBuffered
        (c.parHdr.bufferedBytes + b.bytes))
  /-- The segment misses its checkpoint. -/
  | reject {i p : ℕ} {seg : ParHdrSeg} (hash : Uint256) {height : ℕ}
      (hseg : c.parHdr.segs[i]? = some seg) (hopen : seg.complete = false)
      (howner : seg.nodeId = some p) (hshadow : seg.shadowId = none ∨ sc.losesShadow)
      (hheight : seg.startHeight ≤ height) :
      Move pf sc c ((c.reopenSeg i seg hash height).setHeadersync p false)
  /-- The segment reaches its checkpoint. -/
  | finish {i p : ℕ} {seg : ParHdrSeg} (hseg : c.parHdr.segs[i]? = some seg)
      (hopen : seg.complete = false) (howner : seg.nodeId = some p)
      (hshadow : seg.shadowId = none ∨ sc.losesShadow) (htip : seg.tipHash = seg.stopHash) :
      Move pf sc c ((c.modifySeg i ParHdrSeg.finish).setHeadersync p false)
  /-- The flush head is connected up to a header that is not. -/
  | connect {seg : ParHdrSeg} {db : HeadersDb} {log : List FlushedHeader}
      (hseg : c.parHdr.segs[c.parHdr.flushIdx]? = some seg) (hdone : seg.complete = true)
      (hflushed : seg.flushed = false)
      (hconn : connectStaged pf c.parHdr.flushIdx seg.staged seg.staged c.headersDb
        c.headerConnected = some (db, log, false)) :
      Move pf sc c { c with headersDb := db, headerConnected := log }
  | failed {seg : ParHdrSeg} {tip : BlockIndex}
      (hseg : c.parHdr.segs[c.parHdr.flushIdx]? = some seg) (hdone : seg.complete = true)
      (hflushed : seg.flushed = false)
      (htip : c.headersDb.heap.read c.headersDb.chaintip = some tip) :
      Move pf sc c (c.reopenSeg c.parHdr.flushIdx seg tip.hash tip.height)
  /-- The flush head is connected. -/
  | flushed {seg : ParHdrSeg} {db : HeadersDb} {log : List FlushedHeader}
      (hactive : c.parHdr.active = true) (hseg : c.parHdr.segs[c.parHdr.flushIdx]? = some seg)
      (hdone : seg.complete = true) (hflushed : seg.flushed = false)
      (htail : seg.tailRaw.isSome = true)
      (hconn : connectStaged pf c.parHdr.flushIdx seg.staged seg.staged c.headersDb
        c.headerConnected = some (db, log, true)) :
      Move pf sc c (headFlushed { c with headersDb := db, headerConnected := log } seg)
  | stop : Move pf sc c c.deactivate
  | dropBuf {k : ℕ} {seg : ParHdrSeg} (hactive : c.parHdr.active = false)
      (hseg : c.parHdr.segs[k]? = some seg) (hbuf : seg.buf.isSome = true) :
      Move pf sc c ((c.modifySeg k ParHdrSeg.dropBuf).setBuffered
        (c.parHdr.bufferedBytes - seg.count * PAR_HDR_RAW_LEN))
  /-- The segment of a dead or silent peer is released. -/
  | release {i q : ℕ} {seg : ParHdrSeg} (hseg : c.parHdr.segs[i]? = some seg)
      (hopen : seg.complete = false) (howner : seg.nodeId = some q)
      (hshadow : seg.shadowId = none ∨ sc.losesShadow) :
      Move pf sc c ((c.setHeadersync q false).modifySeg i ParHdrSeg.release)
  /-- The flush head is taken from its owner, and nobody gets it. -/
  | preempt {q : ℕ} {seg : ParHdrSeg} (hseg : c.parHdr.segs[c.parHdr.flushIdx]? = some seg)
      (hopen : seg.complete = false) (howner : seg.nodeId = some q)
      (hshadow : seg.shadowId = none ∨ sc.orphans) :
      Move pf sc c ((c.setHeadersync q false).modifySeg c.parHdr.flushIdx ParHdrSeg.preempt)
  /-- The flush head goes from its owner to an idle peer. -/
  | handOver {q p time : ℕ} {seg : ParHdrSeg} (hseg : c.parHdr.segs[c.parHdr.flushIdx]? = some seg)
      (hopen : seg.complete = false) (howner : seg.nodeId = some q)
      (hidle : c.parHdr.busy p = false) :
      Move pf sc c ((((c.setHeadersync q false).modifySeg c.parHdr.flushIdx
        ParHdrSeg.preempt).modifySeg c.parHdr.flushIdx
          (ParHdrSeg.assign p time)).parHdrSendGetheaders p c.parHdr.flushIdx time)
  /-- An idle peer shadows a segment. -/
  | shadow {i q p time : ℕ} {seg : ParHdrSeg} (hseg : c.parHdr.segs[i]? = some seg)
      (hopen : seg.complete = false) (howner : seg.nodeId = some q) (hnone : seg.shadowId = none)
      (hidle : c.parHdr.busy p = false) :
      Move pf sc c ((c.modifySeg i (ParHdrSeg.shadow p)).parHdrSendGetheaders p i time)

/-- A sequence of moves. -/
abbrev Moves (pf : Platform) (sc : Scope) : SpvClient → SpvClient → Prop :=
  Relation.ReflTransGen (Move pf sc)

variable {sc : Scope}

/-- What every move keeps, a sequence of moves keeps. -/
theorem Moves.invariant (hmove : ∀ c c', Move pf sc c c' → P c → P c')
    (h : Moves pf sc c c') (hc : P c) :
    P c' := by
  induction h with
  | refl => exact hc
  | tail _ hlast ih => exact hmove _ _ hlast ih

/-- A peer that is not busy has no part in a segment. -/
theorem not_holds_of_idle (hidle : c.parHdr.busy p = false) (hseg : c.parHdr.segs[i]? = some seg) :
    seg.nodeId ≠ some p ∧ seg.shadowId ≠ some p := by
  rw [ParHdrState.busy, List.any_eq_false] at hidle
  have hnot := hidle seg (List.mem_of_getElem? hseg)
  simp only [ParHdrSeg.holds, Bool.or_eq_true, decide_eq_true_eq, not_or] at hnot
  exact hnot

/-! ## Assigning -/

theorem firstFree_eq_some (h : c.parHdr.firstFree = some i) :
    ∃ seg, c.parHdr.segs[i]? = some seg ∧ seg.complete = false ∧ seg.nodeId = none := by
  have hfound := List.find?_some h
  rw [Bool.and_eq_true] at hfound
  obtain ⟨seg, hseg, hfree⟩ := (Option.any_eq_true _ _).mp hfound.2
  rw [Bool.and_eq_true, Bool.not_eq_true', Option.isNone_iff_eq_none] at hfree
  exact ⟨seg, hseg, hfree.1, hfree.2⟩

theorem moves_parHdrAssign (c : SpvClient) (p time : ℕ) :
    Moves pf sc c (c.parHdrAssign p time) := by
  unfold parHdrAssign
  split_ifs with hactive husable hbusy
  · exact .refl
  · exact .refl
  · exact .refl
  cases hfree : c.parHdr.firstFree with
  | none => exact .refl
  | some i =>
    dsimp only
    split_ifs with hbudget
    · exact .refl
    · obtain ⟨seg, hseg, hopen, hnone⟩ := firstFree_eq_some hfree
      exact .single (.give hseg hopen hnone (by simpa using hbusy))

theorem moves_foldl {f : SpvClient → ℕ → SpvClient} (hf : ∀ c x, Moves pf sc c (f c x))
    (l : List ℕ) (c : SpvClient) : Moves pf sc c (l.foldl f c) := by
  induction l generalizing c with
  | nil => exact .refl
  | cons x l ih => exact (hf c x).trans (ih _)

/-! ## Flushing -/

theorem moves_releaseBuf (hactive : c.parHdr.active = false) (k : ℕ) :
    Moves pf sc c (c.releaseBuf k) ∧ (c.releaseBuf k).parHdr.active = false := by
  unfold releaseBuf
  cases hseg : c.parHdr.segs[k]? with
  | none => exact ⟨.refl, hactive⟩
  | some seg =>
    dsimp only
    split_ifs with hbuf
    · exact ⟨.refl, hactive⟩
    · exact ⟨.single (.dropBuf hactive hseg (Option.isSome_iff_ne_none.mpr (by simpa using hbuf))),
        hactive⟩

theorem moves_fallback (c : SpvClient) (ks : List ℕ) : Moves pf sc c (c.fallback ks) := by
  have hfold : ∀ (ks : List ℕ) (c : SpvClient), c.parHdr.active = false →
      Moves pf sc c (ks.foldl releaseBuf c) := by
    intro ks
    induction ks with
    | nil => exact fun _ _ => .refl
    | cons k ks ih =>
      intro c hactive
      obtain ⟨hmoves, hstill⟩ := @moves_releaseBuf pf _ sc hactive k
      exact hmoves.trans (ih _ hstill)
  exact .head .stop (hfold ks _ rfl)

theorem moves_failFlush (hseg : c.parHdr.segs[c.parHdr.flushIdx]? = some seg)
    (hdone : seg.complete = true) (hflushed : seg.flushed = false) (h : c.failFlush seg = some c') :
    Moves pf sc c c' := by
  rw [failFlush, Option.bind_eq_bind, Option.bind_eq_some_iff] at h
  obtain ⟨tip, htip, h⟩ := h
  have hfailed : Moves pf sc c (c.reopenSeg c.parHdr.flushIdx seg tip.hash tip.height) :=
    .single (.failed hseg hdone hflushed htip)
  obtain rfl := Option.some.inj h
  split_ifs with hfails
  · exact hfailed.trans (moves_fallback _ _)
  · exact hfailed

/-- A round of the flush loop; the download stays active if the loop goes on. -/
theorem moves_flushHead {goesOn : Bool} (hactive : c.parHdr.active = true)
    (hseg : c.parHdr.segs[c.parHdr.flushIdx]? = some seg) (hdone : seg.complete = true)
    (hflushed : seg.flushed = false) (h : flushHead pf c seg = some (c', goesOn)) :
    Moves pf sc c c' ∧ (goesOn = true → c'.parHdr.active = true) := by
  unfold flushHead at h
  split at h
  · obtain ⟨d, hd, heq⟩ := Option.map_eq_some_iff.mp h
    obtain ⟨rfl, rfl⟩ := Prod.mk.inj heq
    exact ⟨moves_failFlush hseg hdone hflushed hd, fun hgo => by cases hgo⟩
  next hverify =>
  rw [Option.bind_eq_bind, Option.bind_eq_some_iff] at h
  obtain ⟨⟨db, log, connected⟩, hconn, h⟩ := h
  dsimp only at h
  cases connected with
  | true =>
    rw [if_pos rfl] at h
    obtain ⟨rfl, rfl⟩ := Prod.mk.inj (Option.some.inj h)
    have htail : seg.tailRaw.isSome = true := by
      unfold parHdrVerifyTail at hverify
      cases htail : seg.tailRaw with
      | none => rw [htail] at hverify; exact absurd rfl hverify
      | some raw => rfl
    exact ⟨.single (.flushed hactive hseg hdone hflushed htail hconn), fun _ => hactive⟩
  | false =>
    rw [if_neg Bool.false_ne_true] at h
    obtain ⟨d, hd, heq⟩ := Option.map_eq_some_iff.mp h
    obtain ⟨rfl, rfl⟩ := Prod.mk.inj heq
    refine ⟨.head (.connect hseg hdone hflushed hconn) ?_, fun hgo => by cases hgo⟩
    exact moves_failFlush (c := { c with headersDb := db, headerConnected := log }) hseg hdone
      hflushed hd

theorem moves_flushLoop {n : ℕ} (hactive : c.parHdr.active = true)
    (h : flushLoop pf n c = some c') : Moves pf sc c c' := by
  induction n generalizing c with
  | zero =>
    obtain rfl := Option.some.inj h
    exact .refl
  | succ n ih =>
    unfold flushLoop at h
    split at h
    · obtain rfl := Option.some.inj h
      exact .refl
    next seg hseg =>
    split at h
    · next hhead =>
        rw [Bool.and_eq_true, Bool.not_eq_true'] at hhead
        rw [Option.bind_eq_bind, Option.bind_eq_some_iff] at h
        obtain ⟨⟨d, goesOn⟩, hround, h⟩ := h
        obtain ⟨hmoves, hstill⟩ : Moves pf sc c d ∧ (goesOn = true → d.parHdr.active = true) :=
          moves_flushHead hactive hseg hhead.1 hhead.2 hround
        cases goesOn with
        | true => exact hmoves.trans (ih (hstill rfl) h)
        | false =>
          obtain rfl := Option.some.inj h
          exact hmoves
    · obtain rfl := Option.some.inj h
      exact .refl

theorem moves_parHdrFlush (hactive : c.parHdr.active = true) (h : parHdrFlush pf c = some c') :
    Moves pf sc c c' := by
  rw [parHdrFlush, Option.bind_eq_bind, Option.bind_eq_some_iff] at h
  obtain ⟨d, hloop, h⟩ := h
  obtain rfl := Option.some.inj h
  have hmoves : Moves pf sc (c.setSkipPow true) d := moves_flushLoop hactive hloop
  exact .head (.skipPow true) (hmoves.tail (.skipPow _))

/-! ## A headers message -/

theorem segOf_eq_some (h : c.parHdr.segOf p = some i) :
    ∃ seg, c.parHdr.segs[i]? = some seg ∧ seg.complete = false ∧
      (seg.nodeId = some p ∨ seg.shadowId = some p) := by
  have hfound := List.find?_some h
  obtain ⟨seg, hseg, hfound⟩ := (Option.any_eq_true _ _).mp hfound
  simp only [Bool.and_eq_true, Bool.not_eq_true', ParHdrSeg.holds, Bool.or_eq_true,
    decide_eq_true_eq] at hfound
  exact ⟨seg, hseg, hfound⟩

/-- What the answering peer finds: a segment that it owns, by now without a shadow if it was one. -/
structure Answered (c : SpvClient) (p i : ℕ) (seg : ParHdrSeg) (c1 : SpvClient) (seg1 : ParHdrSeg) :
    Prop where
  seg_read : c1.parHdr.segs[i]? = some seg1
  complete : seg1.complete = false
  owner : seg1.nodeId = some p
  shadow : seg1.shadowId = none ∨ (seg.nodeId = some p ∧ seg1.shadowId = seg.shadowId)
  startHeight : seg1.startHeight = seg.startHeight
  stopHeight : seg1.stopHeight = seg.stopHeight
  tipHeight : seg1.tipHeight = seg.tipHeight
  tipHash : seg1.tipHash = seg.tipHash
  headersDb : c1.headersDb = c.headersDb
  active : c1.parHdr.active = c.parHdr.active

theorem answered_takeOver (time : ℕ) (hseg : c.parHdr.segs[i]? = some seg)
    (hopen : seg.complete = false) :
    ∃ seg1, Answered c p i seg (c.takeOver p i time) seg1 := by
  unfold takeOver
  rw [hseg]
  dsimp only
  split_ifs with howner
  · exact ⟨seg, hseg, hopen, howner, Or.inr ⟨howner, rfl⟩, rfl, rfl, rfl, rfl, rfl, rfl⟩
  · have hdb : (c.clearOwner seg.nodeId).headersDb = c.headersDb := by
      cases seg.nodeId with
      | none => rfl
      | some q => rfl
    refine ⟨seg.takeOver p time, ?_, hopen, rfl, Or.inl rfl, rfl, rfl, rfl, rfl, hdb, ?_⟩
    · apply seg_modifySeg_self
      rw [parHdr_clearOwner]
      exact hseg
    · show (c.clearOwner seg.nodeId).parHdr.active = c.parHdr.active
      rw [parHdr_clearOwner]

theorem moves_takeOver (hseg : c.parHdr.segs[i]? = some seg) (hopen : seg.complete = false)
    (hholds : seg.nodeId = some p ∨ seg.shadowId = some p) :
    Moves pf sc c (c.takeOver p i time) := by
  unfold takeOver
  rw [hseg]
  dsimp only
  split_ifs with howner
  · exact .refl
  · exact .single (.takeOver hseg hopen (hholds.resolve_left howner))

/-- The answered segment with the headers of the message. -/
def received (pf : Platform) (c : SpvClient) (i : ℕ) (b : Batch) : SpvClient :=
  (c.modifySeg i (stageBatch pf b)).setBuffered (c.parHdr.bufferedBytes + b.bytes)

/-- What a headers message does: it is unsolicited, it is dropped, or its headers are staged. -/
theorem parHdrRecv_eq_some (h : parHdrRecv pf c p count buf time = some c') :
    (c.parHdr.segOf p = none ∧ c' = c.setHeadersync p false) ∨
      ∃ i seg seg1, c.parHdr.segOf p = some i ∧ c.parHdr.segs[i]? = some seg ∧
        seg.complete = false ∧ (seg.nodeId = some p ∨ seg.shadowId = some p) ∧
        Answered c p i seg (c.takeOver p i time) seg1 ∧
        ((continues seg count buf = false ∧ c' = c.takeOver p i time) ∨
          (continues seg count buf = true ∧
            afterHeaders pf (received pf (c.takeOver p i time) i (Batch.parse count buf)) p i
              (stageBatch pf (Batch.parse count buf) seg1) time = some c')) := by
  unfold parHdrRecv at h
  split at h
  · next hnone => exact Or.inl ⟨hnone, (Option.some.inj h).symm⟩
  next i hi =>
  obtain ⟨seg, hseg, hopen, hholds⟩ := segOf_eq_some hi
  obtain ⟨seg1, hans⟩ := answered_takeOver (p := p) time hseg hopen
  refine Or.inr ⟨i, seg, seg1, hi, hseg, hopen, hholds, hans, ?_⟩
  have hsame : continues seg count buf = continues seg1 count buf := by
    unfold continues
    rw [hans.tipHash]
  dsimp only at h
  rw [hans.seg_read] at h
  dsimp only at h
  rw [hsame]
  cases hcont : continues seg1 count buf with
  | false =>
    rw [hcont] at h
    exact Or.inl ⟨rfl, (Option.some.inj h).symm⟩
  | true =>
    rw [hcont, if_neg (by simp), recvHeaders_eq] at h
    dsimp only at h
    rw [modifySeg_const _ hans.seg_read] at h
    exact Or.inr ⟨rfl, h⟩

theorem hangs_of_continues (h : continues seg count buf = true) :
    Hangs (Batch.parse count buf) seg := by
  intro w hw
  cases count with
  | zero => simp [Batch.parse] at hw
  | succ n =>
    rw [Batch.parse] at hw
    by_cases hlen : buf.length < PAR_HDR_RAW_LEN
    · simp [if_pos hlen] at hw
    rw [if_neg hlen] at hw
    have hle : 80 ≤ buf.length := Nat.le_of_not_lt hlen
    have hraw : w.raw = buf.take 80 := by
      revert hw
      split
      · simp
      · split
        · intro hw
          simp only [List.head?_cons, Option.some.injEq] at hw
          rw [← hw]
          rfl
        · intro hw
          simp only [Batch.cons, List.head?_cons, Option.some.injEq] at hw
          rw [← hw]
          rfl
    have hprev : (buf.drop 4).take 32 = seg.tipHash.1 := by
      simpa [continues, PAR_HDR_RAW_LEN, hle] using h
    apply Subtype.ext
    rw [hraw, prevBlock_rawHeader hle, hprev]

theorem moves_endIfDone (c : SpvClient) : Moves pf sc c c.endIfDone := by
  unfold endIfDone
  split_ifs with hdone
  · exact .single .stop
  · exact .refl

section Closing

variable (hseg : c.parHdr.segs[i]? = some seg) (hopen : seg.complete = false)
  (howner : seg.nodeId = some p) (hshadow : seg.shadowId = none ∨ sc.losesShadow)
include hseg hopen howner hshadow

theorem moves_rejected {hash : Uint256} {height : ℕ} (ks : List ℕ)
    (hheight : seg.startHeight ≤ height) (fails : Prop) [Decidable fails] :
    Moves pf sc c (if fails then ((c.reopenSeg i seg hash height).setHeadersync p false).fallback ks
      else ((c.reopenSeg i seg hash height).setHeadersync p false).parHdrAssign p time) := by
  refine Relation.ReflTransGen.head (.reject hash hseg hopen howner hshadow hheight) ?_
  split_ifs with hfails
  · exact moves_fallback _ _
  · exact moves_parHdrAssign _ _ _

theorem moves_rejectSeg (h : c.rejectSeg p i seg time = some c') : Moves pf sc c c' := by
  rw [rejectSeg, Option.bind_eq_bind, Option.bind_eq_some_iff] at h
  obtain ⟨tip, htip, h⟩ := h
  obtain rfl := Option.some.inj h
  refine moves_rejected hseg hopen howner hshadow _ ?_ _
  split_ifs with hinside
  · rw [Bool.and_eq_true, decide_eq_true_eq] at hinside
    exact Nat.le_of_lt hinside.1
  · exact Nat.le_refl _

theorem moves_completeSeg (hactive : c.parHdr.active = true) (htip : seg.tipHash = seg.stopHash)
    (h : completeSeg pf c p i time = some c') : Moves pf sc c c' := by
  rw [completeSeg, Option.bind_eq_bind, Option.bind_eq_some_iff] at h
  obtain ⟨d, hflush, h⟩ := h
  obtain rfl := Option.some.inj h
  refine Relation.ReflTransGen.head (.finish hseg hopen howner hshadow htip) ?_
  have hmoves : Moves pf sc ((c.modifySeg i ParHdrSeg.finish).setHeadersync p false) d :=
    moves_parHdrFlush hactive hflush
  exact (hmoves.trans (moves_parHdrAssign d p time)).trans (moves_endIfDone _)

end Closing

/-- A headers message during an active download. -/
theorem moves_parHdrRecv (hactive : c.parHdr.active = true)
    (hallow : sc.Allows c (.headers p count buf time))
    (h : parHdrRecv pf c p count buf time = some c') : Moves pf sc c c' := by
  obtain ⟨-, rfl⟩ | ⟨i, seg, seg1, hi, hseg, hopen, hholds, hans, hrest⟩ := parHdrRecv_eq_some h
  · -- an unsolicited message
    refine .single (.link fun q hq => ?_)
    rcases syncing_setHeadersync hq with ⟨-, hon⟩ | ⟨-, hsync⟩
    · cases hon
    · exact hsync
  have htake : Moves pf sc c (c.takeOver p i time) := moves_takeOver hseg hopen hholds
  obtain ⟨-, rfl⟩ | ⟨hcont, hafter⟩ := hrest
  · exact htake
  have hstaged : c.stagedBatch (.headers p count buf time) = some (Batch.parse count buf) := by
    simp [stagedBatch, hi, hseg, hcont]
  have hhangs : Hangs (Batch.parse count buf) seg1 := by
    intro w hw
    rw [hans.tipHash]
    exact hangs_of_continues hcont w hw
  refine htake.trans (Relation.ReflTransGen.head
    (.stage hans.seg_read hans.complete (hallow.1 _ hstaged) hhangs) ?_)
  have hframe : StagedFrom seg1 (stageBatch pf (Batch.parse count buf) seg1) :=
    stagedFrom_stageBatch (Batch.parse count buf) seg1
  have hread : (received pf (c.takeOver p i time) i (Batch.parse count buf)).parHdr.segs[i]? =
      some (stageBatch pf (Batch.parse count buf) seg1) := seg_modifySeg_self hans.seg_read
  have hopen' := hframe.complete.trans hans.complete
  have howner' := hframe.nodeId.trans hans.owner
  unfold afterHeaders at hafter
  split at hafter
  · next hstop =>
      have hshadow : (stageBatch pf (Batch.parse count buf) seg1).shadowId = none ∨
        sc.losesShadow := by
        rw [hframe.shadowId]
        rcases hans.shadow with hnone | ⟨howner, hsh⟩
        · exact Or.inl hnone
        by_cases hnone : seg.shadowId = none
        · exact Or.inl (hsh.trans hnone)
        · right
          rw [hframe.stopHeight, (count_stageBatch _ _).2, hans.stopHeight, hans.tipHeight] at hstop
          exact hallow.2.2 ⟨i, seg, hi, hseg, howner, hnone, hcont, hstop⟩
      split at hafter
      · exact moves_rejectSeg hread hopen' howner' hshadow hafter
      · next htip =>
          exact moves_completeSeg hread hopen' howner' hshadow (hans.active.trans hactive)
            (not_not.mp htip) hafter
  · obtain rfl := Option.some.inj hafter
    exact .single (.request hread hopen' howner')

/-! ## Reclaiming -/

theorem isStale_releaseStale (c : SpvClient) (i : ℕ) (seg : ParHdrSeg) :
    (releaseStale now c i).isStale now seg = c.isStale now seg := by
  have husable : ∀ q, (releaseStale now c i).usable q = c.usable q := by
    intro q
    unfold releaseStale
    cases c.parHdr.segs[i]? with
    | none => rfl
    | some seg' =>
      dsimp only
      split_ifs with hstale
      · exact usable_clearOwner c seg'.nodeId q
      · rfl
  unfold isStale
  simp only [husable]

theorem moves_releaseStale (is : List ℕ) (hnodup : is.Nodup)
    (hshadow : ∀ i ∈ is, ∀ seg, c.parHdr.segs[i]? = some seg → c.isStale now seg = true →
      seg.shadowId = none ∨ sc.losesShadow) :
    Moves pf sc c (is.foldl (releaseStale now) c) := by
  induction is generalizing c with
  | nil => exact .refl
  | cons i is ih =>
    obtain ⟨hnot, hnodup'⟩ := List.nodup_cons.mp hnodup
    have hrest : ∀ j ∈ is, (releaseStale now c i).parHdr.segs[j]? = c.parHdr.segs[j]? := by
      intro j hj
      unfold releaseStale
      cases c.parHdr.segs[i]? with
      | none => rfl
      | some seg =>
        dsimp only
        split_ifs with hstale
        · rw [seg_modifySeg_of_ne (fun hij : i = j => hnot (hij ▸ hj)), parHdr_clearOwner]
        · rfl
    have htail : Moves pf sc (releaseStale now c i)
      (is.foldl (releaseStale now) (releaseStale now c i)) := by
      refine ih hnodup' fun j hj seg hseg hstale => ?_
      rw [hrest j hj] at hseg
      rw [isStale_releaseStale] at hstale
      exact hshadow j (List.mem_cons_of_mem _ hj) seg hseg hstale
    refine Relation.ReflTransGen.trans ?_ htail
    unfold releaseStale
    cases hseg : c.parHdr.segs[i]? with
    | none => exact .refl
    | some seg =>
      dsimp only
      split_ifs with hstale
      · have hsh := hshadow i List.mem_cons_self seg hseg hstale
        unfold isStale at hstale
        rw [Bool.and_eq_true, Bool.not_eq_true'] at hstale
        obtain ⟨q, howner, -⟩ := (Option.any_eq_true _ _).mp hstale.2
        rw [howner]
        exact .single (.release hseg hstale.1 howner hsh)
      · exact .refl

theorem moves_noteMedian (c : SpvClient) (now : ℕ) : Moves pf sc c (c.noteMedian now) := by
  unfold noteMedian
  cases c.parHdr.segs[c.parHdr.flushIdx]? with
  | none => exact .refl
  | some head =>
    dsimp only
    split_ifs with hidle
    · exact .refl
    · exact .single (.rate _)

/-- Remembering the median changes nothing that ownership depends on. -/
theorem noteMedian_frame (c : SpvClient) (now : ℕ) :
    (c.noteMedian now).parHdr.segs = c.parHdr.segs ∧
      (c.noteMedian now).parHdr.flushIdx = c.parHdr.flushIdx ∧
      (c.noteMedian now).parHdr.active = c.parHdr.active ∧ (c.noteMedian now).nodes = c.nodes := by
  unfold noteMedian
  cases c.parHdr.segs[c.parHdr.flushIdx]? with
  | none => exact ⟨rfl, rfl, rfl, rfl⟩
  | some head =>
    dsimp only
    split_ifs with hidle
    · exact ⟨rfl, rfl, rfl, rfl⟩
    · exact ⟨rfl, rfl, rfl, rfl⟩

/-- Who is preempted, and for whom. -/
theorem preemptBy_eq_some {idle : ℕ} (h : c.preemptBy now = some idle) :
    ∃ head q, c.parHdr.segs[c.parHdr.flushIdx]? = some head ∧ head.complete = false ∧
      head.nodeId = some q ∧ c.usable idle = true ∧ c.parHdr.owns idle = false := by
  rw [preemptBy, Option.bind_eq_bind, Option.bind_eq_some_iff] at h
  obtain ⟨head, hhead, h⟩ := h
  dsimp only at h
  split at h
  · cases h
  next hcond =>
  simp only [Bool.or_eq_true, not_or, Bool.not_eq_true] at hcond
  have hfound := List.find?_some h
  simp only [Bool.and_eq_true, Bool.not_eq_true'] at hfound
  obtain ⟨q, hq⟩ := Option.ne_none_iff_exists'.mp
    (fun hnone => by simp [hnone] at hcond : head.nodeId ≠ none)
  exact ⟨head, q, hhead, hcond.1.1.1.1, hq, hfound.1.1, hfound.2⟩

/-- The flush head is the first free segment once it has no owner. -/
theorem firstFree_of_head {head : ParHdrSeg} (hhead : c.parHdr.segs[c.parHdr.flushIdx]? = some head)
    (hopen : head.complete = false) (hfree : head.nodeId = none) :
    c.parHdr.firstFree = some c.parHdr.flushIdx := by
  unfold ParHdrState.firstFree
  rw [List.find?_range_eq_some]
  refine ⟨?_, ?_, ?_⟩
  · simp [hhead, hopen, hfree]
  · rw [List.mem_range]
    exact (List.getElem?_eq_some_iff.mp hhead).1
  · intro j hj
    rw [decide_eq_false (by omega), Bool.false_and]
    rfl

/-- An idle peer gets the flush head if it is free. -/
theorem parHdrAssign_of_head (hactive : c.parHdr.active = true) (husable : c.usable p = true)
    (hidle : c.parHdr.busy p = false) (hfree : c.parHdr.firstFree = some c.parHdr.flushIdx) :
    c.parHdrAssign p time = (c.modifySeg c.parHdr.flushIdx
      (ParHdrSeg.assign p time)).parHdrSendGetheaders p c.parHdr.flushIdx time := by
  unfold parHdrAssign
  simp [hactive, husable, hidle, hfree]

/-- A busy peer gets nothing. -/
theorem parHdrAssign_of_busy (hbusy : c.parHdr.busy p = true) : c.parHdrAssign p time = c := by
  unfold parHdrAssign
  simp [hbusy]

/-- A peer that owns nothing is as busy as before when a segment is taken from its owner. -/
theorem busy_preempt (howns : c.parHdr.owns p = false) :
    (c.modifySeg i ParHdrSeg.preempt).parHdr.busy p = c.parHdr.busy p := by
  have hnot := List.any_eq_false.mp howns
  have hshadows : ∀ seg ∈ c.parHdr.segs, seg.holds p = decide (seg.shadowId = some p) := by
    intro seg hseg
    have hno := hnot seg hseg
    simp only [decide_eq_true_eq] at hno
    simp [ParHdrSeg.holds, hno]
  rw [Bool.eq_iff_iff]
  simp only [ParHdrState.busy, List.any_eq_true]
  constructor
  · rintro ⟨seg', hmem, hholds⟩
    obtain ⟨k, hk⟩ := List.mem_iff_getElem?.mp hmem
    obtain ⟨seg, hseg, rfl⟩ := seg_modifySeg hk
    refine ⟨seg, List.mem_of_getElem? hseg, ?_⟩
    split_ifs at hholds
    · rw [ParHdrSeg.holds, Bool.or_eq_true] at hholds ⊢
      exact Or.inr (hholds.resolve_left (by simp [ParHdrSeg.preempt]))
    · exact hholds
  · -- the shadows stay
    rintro ⟨seg, hmem, hholds⟩
    obtain ⟨k, hk⟩ := List.mem_iff_getElem?.mp hmem
    rw [hshadows seg hmem] at hholds
    by_cases hki : i = k
    · subst hki
      refine ⟨_, List.mem_of_getElem? (seg_modifySeg_self hk), ?_⟩
      rw [ParHdrSeg.holds, Bool.or_eq_true]
      exact Or.inr hholds
    · refine ⟨seg, List.mem_of_getElem? ((seg_modifySeg_of_ne hki).trans hk), ?_⟩
      rw [ParHdrSeg.holds, Bool.or_eq_true]
      exact Or.inr hholds

theorem moves_parHdrPreemptHead (hactive : c.parHdr.active = true)
    (horphan : ∀ head idle, c.parHdr.segs[c.parHdr.flushIdx]? = some head → head.shadowId ≠ none →
      c.preemptBy now = some idle → c.parHdr.busy idle = true → sc.orphans) :
    Moves pf sc c (c.parHdrPreemptHead now time) := by
  unfold parHdrPreemptHead
  cases hby : c.preemptBy now with
  | none => exact moves_noteMedian c now
  | some idle =>
    dsimp only
    obtain ⟨head, q, hhead, hopen, howner, husable, howns⟩ := preemptBy_eq_some hby
    refine (moves_noteMedian c now).trans ?_
    obtain ⟨hsegs, hidx, hact, hnodes⟩ := noteMedian_frame c now
    generalize c.noteMedian now = d at hsegs hidx hact hnodes ⊢
    have hhead' : d.parHdr.segs[d.parHdr.flushIdx]? = some head := by rw [hsegs, hidx]; exact hhead
    have hbusyeq : d.parHdr.busy idle = c.parHdr.busy idle := by
      unfold ParHdrState.busy
      rw [hsegs]
    have hpre : d.preemptOwner = (d.setHeadersync q false).modifySeg d.parHdr.flushIdx
      ParHdrSeg.preempt := by
      unfold preemptOwner
      rw [hhead']
      dsimp only
      rw [howner]
      rfl
    have hread : ((d.setHeadersync q false).modifySeg d.parHdr.flushIdx
        ParHdrSeg.preempt).parHdr.segs[d.parHdr.flushIdx]? = some head.preempt :=
      seg_modifySeg_self hhead'
    have hfree := firstFree_of_head (c := (d.setHeadersync q false).modifySeg d.parHdr.flushIdx
      ParHdrSeg.preempt) hread hopen rfl
    have husable' : ((d.setHeadersync q false).modifySeg d.parHdr.flushIdx
        ParHdrSeg.preempt).usable idle = true := by
      show (d.setHeadersync q false).usable idle = true
      rw [usable_setHeadersync]
      unfold usable
      rw [hnodes]
      exact husable
    have hbusy : ((d.setHeadersync q false).modifySeg d.parHdr.flushIdx
        ParHdrSeg.preempt).parHdr.busy idle = c.parHdr.busy idle := by
      refine (busy_preempt (c := d.setHeadersync q false) ?_).trans hbusyeq
      show d.parHdr.segs.any _ = false
      rw [hsegs]
      exact howns
    rw [hpre]
    have hstill : ((d.setHeadersync q false).modifySeg d.parHdr.flushIdx
        ParHdrSeg.preempt).parHdr.active = true := hact.trans hactive
    cases hb : c.parHdr.busy idle with
    | true =>
      rw [parHdrAssign_of_busy (hbusy.trans hb)]
      refine .single (.preempt hhead' hopen howner ?_)
      by_cases hnone : head.shadowId = none
      · exact Or.inl hnone
      · exact Or.inr (horphan head idle hhead hnone hby hb)
    | false =>
      rw [parHdrAssign_of_head hstill husable' (hbusy.trans hb) hfree]
      exact .single (.handOver hhead' hopen howner (hbusyeq.trans hb))

theorem idlePeer_eq_some {owner : Option ℕ} (h : c.idlePeer owner = some p) :
    c.parHdr.busy p = false := by
  have hfound := List.find?_some h
  simp only [Bool.and_eq_true, Bool.not_eq_true'] at hfound
  exact hfound.2

theorem moves_raceLoop (ref now time : ℕ) (is : List ℕ) (idleCount : ℕ) (c : SpvClient) :
    Moves pf sc c (raceLoop ref now time is idleCount c) := by
  induction is generalizing idleCount c with
  | nil => exact .refl
  | cons i is ih =>
    unfold raceLoop
    split_ifs with hcount
    · exact .refl
    cases hseg : c.parHdr.segs[i]? with
    | none => exact .refl
    | some seg =>
      dsimp only
      split_ifs with hcond
      · exact ih _ _
      simp only [Bool.or_eq_true, not_or, Bool.not_eq_true] at hcond
      cases hcand : c.idlePeer seg.nodeId with
      | none => exact .refl
      | some cand =>
        dsimp only
        obtain ⟨q, hq⟩ := Option.ne_none_iff_exists'.mp
          (fun hnone => by simp [hnone] at hcond : seg.nodeId ≠ none)
        have hnone : seg.shadowId = none := by simpa using hcond.1.1.2
        exact Relation.ReflTransGen.head
          (.shadow hseg hcond.1.1.1.1 hq hnone (idlePeer_eq_some hcand)) (ih _ _)

theorem active_parHdrAssign (c : SpvClient) (p time : ℕ) :
    (c.parHdrAssign p time).parHdr.active = c.parHdr.active := by
  unfold parHdrAssign
  split_ifs
  · rfl
  · rfl
  · rfl
  cases c.parHdr.firstFree with
  | none => rfl
  | some i =>
    dsimp only
    split_ifs
    · rfl
    · rfl

theorem active_releaseStale (c : SpvClient) (i : ℕ) :
    (releaseStale now c i).parHdr.active = c.parHdr.active := by
  unfold releaseStale
  cases c.parHdr.segs[i]? with
  | none => rfl
  | some seg =>
    dsimp only
    split_ifs
    · show (c.clearOwner seg.nodeId).parHdr.active = _
      rw [parHdr_clearOwner]
    · rfl

theorem active_foldl {f : SpvClient → ℕ → SpvClient}
    (hf : ∀ c x, (f c x).parHdr.active = c.parHdr.active) (l : List ℕ) (c : SpvClient) :
    (l.foldl f c).parHdr.active = c.parHdr.active := by
  induction l generalizing c with
  | nil => rfl
  | cons x l ih => exact (ih _).trans (hf c x)

theorem moves_parHdrReclaim (hallow : sc.Allows c (.reclaim now time)) :
    Moves pf sc c (c.parHdrReclaim now time) := by
  unfold parHdrReclaim
  split_ifs with hactive
  · exact .refl
  have hactive : c.parHdr.active = true := by simpa using hactive
  have hrelease : Moves pf sc c (c.releaseAll now) := by
    refine moves_releaseStale _ List.nodup_range fun i _ seg hseg hstale => ?_
    by_cases hnone : seg.shadowId = none
    · exact Or.inl hnone
    · exact Or.inr (hallow.2.2 ⟨i, seg, hactive, hseg, hstale, hnone⟩)
  have hassign : Moves pf sc (c.releaseAll now) ((c.releaseAll now).assignAll time) :=
    moves_foldl (fun d x => moves_parHdrAssign d x time) _ _
  have hmid : ((c.releaseAll now).assignAll time).parHdr.active = true := by
    unfold assignAll releaseAll
    rw [active_foldl (fun d x => active_parHdrAssign d x time), active_foldl active_releaseStale]
    exact hactive
  have hpreempt : Moves pf sc ((c.releaseAll now).assignAll time)
      (((c.releaseAll now).assignAll time).parHdrPreemptHead now time) :=
    moves_parHdrPreemptHead hmid fun head idle hhead hne hby hbusy =>
      hallow.2.1 ⟨head, idle, hactive, hhead, hne, hby, hbusy⟩
  refine ((hrelease.trans hassign).trans hpreempt).trans ?_
  unfold parHdrRaceTail
  split_ifs with hall
  · exact .refl
  · exact moves_raceLoop _ _ _ _ _ _

/-! ## Steps and runs -/

/-- **Steps are moves.** -/
theorem moves_of_step {op : SyncOp} (hallow : sc.Allows c op) (h : syncStep pf c op = some c') :
    Moves pf sc c c' := by
  cases op with
  | addPeer =>
    obtain rfl := Option.some.inj h
    refine .single (.link fun q hq => ?_)
    obtain ⟨n, hn, hsync⟩ := hq
    change (c.nodes ++ [newNode])[q]? = some n at hn
    rw [List.getElem?_append] at hn
    split_ifs at hn with hlt
    · exact ⟨n, hn, hsync⟩
    · obtain rfl := List.mem_singleton.mp (List.mem_of_getElem? hn)
      cases hsync
  | link p connected versionHandshake keepsFlags =>
    obtain rfl := Option.some.inj h
    refine .single (.link fun q hq => ?_)
    obtain ⟨n, hn, hsync⟩ := hq
    change (c.nodes.modify p _)[q]? = some n at hn
    rw [List.getElem?_modify] at hn
    obtain ⟨n0, hn0, rfl⟩ := Option.map_eq_some_iff.mp hn
    refine ⟨n0, hn0, ?_⟩
    split_ifs at hsync
    · exact (Bool.and_eq_true _ _ ▸ hsync).1
    · exact hsync
  | assign p time =>
    obtain rfl := Option.some.inj h
    exact moves_parHdrAssign c p time
  | headers p count buf time =>
    unfold syncStep at h
    dsimp only at h
    split at h
    · next hactive => exact moves_parHdrRecv hactive hallow h
    · cases h
  | reclaim now time =>
    obtain rfl := Option.some.inj h
    exact moves_parHdrReclaim hallow

/-- **Invariants of runs.** -/
theorem invariant_of_reach {start : HeadersDb → Prop} (hinit : ∀ c, SyncStarted start c → P c)
    (hmove : ∀ c c', Move pf sc c c' → P c → P c')
    (h : (syncSystem pf start).Reach sc.Allows c) : P c :=
  TransitionSystem.Reach.invariant (P := P) hinit
    (fun _ _ _ hc hallow hstep => Moves.invariant hmove (moves_of_step hallow hstep) hc) h

end SpvClient

end Libdogecoin
