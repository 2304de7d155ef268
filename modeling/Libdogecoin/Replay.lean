/-
# Replaying the headers of a database

A database that connects the 80 bytes of the headers another one has connected ends up with twins
of its blocks: equal hashes and heights, links that lead to twins, and at most the work, since the
proof of a header is not replayed. It may keep blocks that the original has freed: a reorganisation
that is made for its work in the original may be a mere change of the tip in the replay.

* `Mirrors` : the twins of the blocks of a heap in another one;
* `Mirrors.commonAncestor` : two chains meet at twins in both heaps;
* `Replayed.selectTip` : the choice of the tip is the same in the original and in the replay.
-/
import Libdogecoin.Chainwork

namespace Libdogecoin

namespace HeadersDb

variable {pf : Platform} {db db' ld : HeadersDb} {buf : Bytes} {twin : ℕ → Option ℕ}

/-- `b'` is the index that a replay makes of the header of `b`. -/
structure Twin (b b' : BlockIndex) : Prop where
  hash : b'.hash = b.hash
  height : b'.height = b.height
  base : b'.header.base = b.header.base
  work_le : b'.chainwork.toNat ≤ b.chainwork.toNat

/-- How the link of a twin goes: the first block of the replay, at the address `1`, has none, and
any other one hangs on the twin of the parent. -/
def LinkTwin (heap : Heap BlockIndex) (twin : ℕ → Option ℕ) (p' : ℕ) (b b' : BlockIndex) : Prop :=
  (p' = 1 ∧ b.height = 1 ∧ b.prev = some genesis ∧ b'.prev = none) ∨
    (1 < b.height ∧ ∃ q q', b.prev = some q ∧ twin q = some q' ∧ b'.prev = some q' ∧
      ∀ c, heap.read q = some c → b.height = c.height + 1)

/-- The blocks of `heap` that have a twin in `heap'`. -/
structure Mirrors (heap heap' : Heap BlockIndex) (twin : ℕ → Option ℕ) : Prop where
  /-- The genesis index has no twin. -/
  lt : ∀ p p', twin p = some p' → genesis < p ∧ p < heap.fresh ∧ p' < heap'.fresh
  inj : ∀ p q p', twin p = some p' → twin q = some p' → p = q
  read : ∀ p p' b, twin p = some p' → heap.read p = some b →
    ∃ b', heap'.read p' = some b' ∧ Twin b b' ∧ LinkTwin heap twin p' b b'
  /-- Links of the replay point to older addresses. -/
  down : ∀ p b q, heap'.read p = some b → b.prev = some q → q < p

/-! ## Twins under updates -/

theorem LinkTwin.height_pos {heap : Heap BlockIndex} {p' : ℕ} {b b' : BlockIndex}
    (h : LinkTwin heap twin p' b b') : 1 ≤ b.height := by
  rcases h with ⟨-, hheight, -⟩ | ⟨hheight, -⟩
  · omega
  · omega

/-- A block above the height of the first one has a link, and so has its twin. -/
theorem LinkTwin.linked {heap : Heap BlockIndex} {p' : ℕ} {b b' : BlockIndex}
    (h : LinkTwin heap twin p' b b') (hheight : 1 < b.height) :
    ∃ q q', b.prev = some q ∧ twin q = some q' ∧ b'.prev = some q' ∧
      ∀ c, heap.read q = some c → b.height = c.height + 1 := by
  rcases h with ⟨-, hone, -⟩ | ⟨-, hlink⟩
  · omega
  · exact hlink

namespace Mirrors

variable {heap heap1 heap' : Heap BlockIndex} {p p' fuel ancestor fuel' : ℕ}

/-- The twin map with one more pair. -/
abbrev extend (twin : ℕ → Option ℕ) (p p' : ℕ) : ℕ → Option ℕ := Function.update twin p (some p')

/-- The original may lose blocks. -/
theorem shrink (hm : Mirrors heap heap' twin) (hfresh : heap1.fresh = heap.fresh)
    (hsub : ∀ p b, heap1.read p = some b → heap.read p = some b) : Mirrors heap1 heap' twin := by
  refine ⟨fun p p' ht => ?_, hm.inj, fun p p' b ht hr => ?_, hm.down⟩
  · rw [hfresh]
    exact hm.lt p p' ht
  · obtain ⟨b', hb', htw, hlink⟩ := hm.read p p' b ht (hsub p b hr)
    refine ⟨b', hb', htw, ?_⟩
    rcases hlink with hfirst | ⟨hheight, q, q', hq, htq, hq', hfall⟩
    · exact Or.inl hfirst
    · exact Or.inr ⟨hheight, q, q', hq, htq, hq', fun c hc => hfall c (hsub q c hc)⟩

/-- Both heaps allocate twins. -/
theorem alloc (hm : Mirrors heap heap' twin) (hpos : genesis < heap.fresh)
    {index index' : BlockIndex} (htwin : Twin index index')
    (hlink : LinkTwin heap twin heap'.fresh index index') :
    Mirrors (heap.alloc index) (heap'.alloc index') (extend twin heap.fresh heap'.fresh) := by
  have hold : ∀ q q', twin q = some q' → extend twin heap.fresh heap'.fresh q = some q' ∧
      (heap.alloc index).read q = heap.read q := by
    intro q q' hq
    have hne : q ≠ heap.fresh := Nat.ne_of_lt (hm.lt q q' hq).2.1
    exact ⟨by rw [extend, Function.update_of_ne hne, hq], Heap.read_alloc_of_ne _ _ hne⟩
  have hcases : ∀ p p', extend twin heap.fresh heap'.fresh p = some p' →
      (p = heap.fresh ∧ p' = heap'.fresh) ∨ twin p = some p' := by
    intro p p' ht
    by_cases hp : p = heap.fresh
    · rw [extend, hp, Function.update_self] at ht
      exact Or.inl ⟨hp, (Option.some.inj ht).symm⟩
    · rw [extend, Function.update_of_ne hp] at ht
      exact Or.inr ht
  have hlinks : ∀ p' b b', LinkTwin heap twin p' b b' →
      LinkTwin (heap.alloc index) (extend twin heap.fresh heap'.fresh) p' b b' := by
    intro p' b b' h
    rcases h with hfirst | ⟨hheight, q, q', hq, htq, hq', hfall⟩
    · exact Or.inl hfirst
    · obtain ⟨htq1, hread⟩ := hold q q' htq
      refine Or.inr ⟨hheight, q, q', hq, htq1, hq', fun c hc => hfall c ?_⟩
      rw [← hread]
      exact hc
  refine ⟨fun p p' ht => ?_, fun p q p' hp hq => ?_, fun p p' b ht hr => ?_, fun p b q hr hq => ?_⟩
  · rw [Heap.fresh_alloc, Heap.fresh_alloc]
    rcases hcases p p' ht with ⟨rfl, rfl⟩ | ht
    · exact ⟨hpos, by omega, by omega⟩
    · obtain ⟨h1, h2, h3⟩ := hm.lt p p' ht
      exact ⟨h1, by omega, by omega⟩
  · rcases hcases p p' hp with ⟨rfl, rfl⟩ | hp1
    · rcases hcases q _ hq with ⟨rfl, -⟩ | hq1
      · rfl
      · exact absurd (hm.lt q _ hq1).2.2 (Nat.lt_irrefl _)
    · rcases hcases q p' hq with ⟨rfl, rfl⟩ | hq1
      · exact absurd (hm.lt p _ hp1).2.2 (Nat.lt_irrefl _)
      · exact hm.inj p q p' hp1 hq1
  · rcases hcases p p' ht with ⟨rfl, rfl⟩ | ht
    · rw [Heap.read_alloc_self] at hr
      obtain rfl := Option.some.inj hr
      exact ⟨index', Heap.read_alloc_self _ _, htwin, hlinks _ _ _ hlink⟩
    · rw [(hold p p' ht).2] at hr
      obtain ⟨b', hb', htw, hl⟩ := hm.read p p' b ht hr
      exact ⟨b', Heap.read_alloc hb' index', htw, hlinks _ _ _ hl⟩
  · by_cases hp : p = heap'.fresh
    · subst hp
      rw [Heap.read_alloc_self] at hr
      obtain rfl := Option.some.inj hr
      rcases hlink with ⟨-, -, -, hnone⟩ | ⟨-, r, r', -, htr, hr', -⟩
      · rw [hnone] at hq
        cases hq
      · rw [hr'] at hq
        obtain rfl := Option.some.inj hq
        exact (hm.lt r _ htr).2.2
    · rw [Heap.read_alloc_of_ne _ _ hp] at hr
      exact hm.down p b q hr hq

/-- Both heaps free twins. -/
theorem free (hm : Mirrors heap heap' twin) (htp : twin p = some p') :
    Mirrors (heap.free p) (heap'.free p') twin := by
  have hsub : ∀ (h : Heap BlockIndex) r q b, (h.free r).read q = some b → q ≠ r ∧
    h.read q = some b := by
    intro h r q b hr
    by_cases hq : q = r
    · subst hq
      rw [Heap.read_free_self] at hr
      cases hr
    · rw [Heap.read_free_of_ne _ hq] at hr
      exact ⟨hq, hr⟩
  have hs : Mirrors (heap.free p) heap' twin :=
    hm.shrink (Heap.fresh_free _ _) fun q b hr => (hsub heap p q b hr).2
  refine ⟨fun q q' ht => ?_, hs.inj, fun q q' b ht hr => ?_, fun q b r hr hl => ?_⟩
  · rw [Heap.fresh_free heap']
    exact hs.lt q q' ht
  · obtain ⟨b', hb', htw, hlink⟩ := hs.read q q' b ht hr
    have hne : q' ≠ p' := by
      rintro rfl
      exact (hsub heap p q b hr).1 (hm.inj q p q' ht htp)
    exact ⟨b', by rw [Heap.read_free_of_ne _ hne]; exact hb', htw, hlink⟩
  · exact hs.down q b r (hsub heap' p' q b hr).2 hl

/-- The replay sets the work of a twin. -/
theorem write (hm : Mirrors heap heap' twin) {b' : BlockIndex} {w : ArithUint256}
    (htp : twin p = some p') (hb' : heap'.read p' = some b')
    (hw : ∀ b, heap.read p = some b → w.toNat ≤ b.chainwork.toNat) :
    Mirrors heap (heap'.write p' { b' with chainwork := w }) twin := by
  have hlt := Heap.lt_fresh hb'
  refine ⟨fun q q' ht => ?_, hm.inj, fun q q' b ht hr => ?_, fun q b r hr hl => ?_⟩
  · rw [Heap.fresh_write]
    exact hm.lt q q' ht
  · obtain ⟨c', hc', htw, hlink⟩ := hm.read q q' b ht hr
    by_cases hq : q' = p'
    · subst hq
      obtain rfl := hm.inj q p q' ht htp
      rw [hb'] at hc'
      obtain rfl := Option.some.inj hc'
      exact ⟨_, Heap.read_write_self hlt _, ⟨htw.hash, htw.height, htw.base, hw b hr⟩, hlink⟩
    · exact ⟨c', by rw [Heap.read_write_of_ne _ _ hq]; exact hc', htw, hlink⟩
  · by_cases hq : q = p'
    · subst hq
      rw [Heap.read_write_self hlt] at hr
      obtain rfl := Option.some.inj hr
      exact hm.down q b' r hb' hl
    · rw [Heap.read_write_of_ne _ _ hq] at hr
      exact hm.down q b r hr hl

/-! ## The common ancestor -/

/-- Two chains that meet do so at twins in both heaps. -/
theorem commonAncestor (hm : Mirrors heap heap' twin) {tip fork tip' fork' : ℕ}
    (htip : twin tip = some tip') (hfork : twin fork = some fork')
    (h : HeadersDb.commonAncestor heap fuel tip fork = some (some ancestor))
    (hfuel : tip' + fork' < fuel') :
    ∃ ancestor' f f' a b, twin ancestor = some ancestor' ∧
      HeadersDb.commonAncestor heap' fuel' tip' fork' = some (some ancestor') ∧
      Heap.Chain BlockIndex.prev heap tip ancestor ∧ Heap.Chain BlockIndex.prev heap fork f ∧
      twin f = some f' ∧ heap.read ancestor = some a ∧ heap.read f = some b ∧ b.hash = a.hash := by
  induction fuel generalizing tip fork tip' fork' fuel' with
  | zero => cases h
  | succ fuel ih =>
    obtain ⟨fuel', rfl⟩ : ∃ n, fuel' = n + 1 := ⟨fuel' - 1, by omega⟩
    obtain ⟨a, f, ha, hf, hcases⟩ := commonAncestor_succ h
    obtain ⟨a', ha', htwa, hlinka⟩ := hm.read tip tip' a htip ha
    obtain ⟨f', hf', htwf, hlinkf⟩ := hm.read fork fork' f hfork hf
    rw [HeadersDb.commonAncestor, ha', hf', Option.bind_eq_bind, Option.bind_some, Option.bind_some,
      htwa.hash, htwf.hash, htwa.height, htwf.height]
    have hposf := hlinkf.height_pos
    rcases hcases with ⟨heq, rfl⟩ | ⟨hne, hhigh, p, hp, hnext⟩ | ⟨hne, hlow, p, hp, hnext⟩
    · rw [if_pos heq]
      exact ⟨tip', fork, fork', a, f, htip, rfl, .refl _, .refl _, hfork, ha, hf, heq.symm⟩
    · obtain ⟨q, q', hq, htq, hq', -⟩ := hlinka.linked (by omega)
      have hlt := hm.down tip' a' q' ha' hq'
      rw [hq] at hp
      obtain rfl := Option.some.inj hp
      rw [if_neg hne, if_pos hhigh, hq']
      have hfuel' : q' + fork' < fuel' := by omega
      obtain ⟨x', g, g', a1, b1, hx, heq, hc1, hrest⟩ := ih htq hfork hnext hfuel'
      exact ⟨x', g, g', a1, b1, hx, heq, .step ha hq hc1, hrest⟩
    · -- two first blocks are one block
      have hhigh : 1 < f.height := by
        by_contra hle
        rcases hlinkf with ⟨hone, -⟩ | ⟨hbig, -⟩
        · rcases hlinka with ⟨hone', -⟩ | ⟨hbig, -⟩
          · subst hone hone'
            obtain rfl := hm.inj tip fork 1 htip hfork
            rw [ha] at hf
            exact hne (congrArg BlockIndex.hash (Option.some.inj hf))
          · omega
        · exact hle hbig
      obtain ⟨q, q', hq, htq, hq', -⟩ := hlinkf.linked hhigh
      have hlt := hm.down fork' f' q' hf' hq'
      rw [hq] at hp
      obtain rfl := Option.some.inj hp
      rw [if_neg hne, if_neg hlow, hq']
      have hfuel' : tip' + q' < fuel' := by omega
      obtain ⟨x', g, g', a1, b1, hx, heq, hc1, hc2, hrest⟩ := ih htip htq hnext hfuel'
      exact ⟨x', g, g', a1, b1, hx, heq, hc1, .step hf hq hc2, hrest⟩

/-- The walk down the new chain meets the ancestor in the replay too. -/
theorem connectWalk (hm : Mirrors db.heap ld.heap twin)
    (hgen : ∀ g, heap.read genesis = some g → g.prev = none)
    (hsub : ∀ p c, db.heap.read p = some c → heap.read p = some c)
    {bi ancestor' current current' f f' : ℕ}
    {a b : BlockIndex} {goesOn : Bool} (hanc : twin ancestor = some ancestor')
    (hcur : twin current = some current') (htf : twin f = some f')
    (hchain : Heap.Chain BlockIndex.prev heap current f) (ha : heap.read ancestor = some a)
    (hb : heap.read f = some b) (hhash : b.hash = a.hash)
    (h : HeadersDb.connectWalk bi ancestor fuel current db = some (db', goesOn)) (bi' : ℕ)
    (hfuel : current' < fuel') :
    ∃ t, HeadersDb.connectWalk bi' ancestor' fuel' current' ld =
      some ({ ld with chaintip := t }, true) := by
  induction fuel generalizing current current' db ld fuel' with
  | zero => cases h
  | succ fuel ih =>
    obtain ⟨fuel', rfl⟩ : ∃ n, fuel' = n + 1 := ⟨fuel' - 1, by omega⟩
    rw [HeadersDb.connectWalk, Option.bind_eq_bind, Option.bind_eq_some_iff] at h
    obtain ⟨c, hc, h⟩ := h
    rw [Option.bind_eq_some_iff] at h
    obtain ⟨a1, ha1, h⟩ := h
    obtain ⟨c', hc', htwc, hlinkc⟩ := hm.read current current' c hcur hc
    obtain ⟨a', ha', htwa, -⟩ := hm.read ancestor ancestor' a1 hanc ha1
    obtain rfl : a1 = a := Option.some.inj ((hsub _ _ ha1).symm.trans ha)
    rw [HeadersDb.connectWalk, hc', ha', Option.bind_eq_bind, Option.bind_some, Option.bind_some,
      htwc.hash, htwa.hash]
    split at h
    · next heq =>
        rw [if_pos heq]
        exact ⟨ld.chaintip, rfl⟩
    next hne =>
    rw [if_neg hne]
    -- the walk is not at `f` yet, so it is above the first block
    have hstep : ∀ q, c.prev = some q → Heap.Chain BlockIndex.prev heap q f := by
      intro q hq
      refine (hchain.cases_link (hsub _ _ hc) hq).resolve_left ?_
      rintro rfl
      rw [hsub _ _ hc] at hb
      rw [Option.some.inj hb] at hne
      exact hne hhash
    rcases hlinkc with ⟨-, -, hq, -⟩ | ⟨-, q, q', hq, htq, hq', -⟩
    · have hrest := hstep genesis hq
      have hpos := (hm.lt f f' htf).1
      cases hg : heap.read genesis with
      | none =>
        cases hrest with
        | refl => exact absurd hpos (Nat.lt_irrefl _)
        | step hread _ _ => rw [hg] at hread; cases hread
      | some g =>
        have hend := hrest.eq_of_no_link hg (hgen g hg)
        exact absurd hend (Nat.ne_of_gt hpos)
    · have hlt := hm.down current' c' q' hc' hq'
      have hfuel' : q' < fuel' := by omega
      rw [hq] at h
      rw [hq']
      have hm1 : Mirrors ({ db with chaintip := q } : HeadersDb).heap
          ({ ld with chaintip := q' } : HeadersDb).heap twin := hm
      obtain ⟨t, ht⟩ := ih hm1 hsub htq (hstep q hq) h hfuel'
      exact ⟨t, ht⟩

end Mirrors

/-! ## A replayed database -/

/-- The database `ld` has replayed headers of `db`, of which the records carry `hashes`. -/
structure Replayed (db ld : HeadersDb) (twin : ℕ → Option ℕ) (hashes : List Uint256) : Prop where
  mirrors : Mirrors db.heap ld.heap twin
  params : ld.params = db.params
  skipPow : db.skipPow = false
  skipPow_replay : ld.skipPow = false
  /-- What is stored in the original is stored in the replay. -/
  find : ∀ h p, db.find h = some p → ∃ p', twin p = some p' ∧ ld.find h = some p'
  found : ∀ h p', ld.find h = some p' → h ∈ hashes
  height_le : ∀ p p' b, twin p = some p' → db.heap.read p = some b → b.height ≤ hashes.length

namespace Replayed

variable {hashes : List Uint256} {bi bi' : ℕ} {index index' : BlockIndex}

/-- The original may free blocks that the replay keeps. -/
theorem shrunk (hr : Replayed db ld twin hashes) (hs : Shrunk db db') :
    Replayed db' ld twin hashes where
  mirrors := hr.mirrors.shrink hs.fresh hs.read
  params := by rw [hs.params, hr.params]
  skipPow := by rw [hs.skipPow, hr.skipPow]
  skipPow_replay := hr.skipPow_replay
  find := fun h p hf => hr.find h p (hs.find h p hf)
  found := hr.found
  height_le := fun p p' b ht hrd => hr.height_le p p' b ht (hs.read p b hrd)

/-- The tip is of no interest. -/
theorem retip (hr : Replayed db ld twin hashes) (t t' : ℕ) :
    Replayed { db with chaintip := t } { ld with chaintip := t' } twin hashes :=
  ⟨hr.mirrors, hr.params, hr.skipPow, hr.skipPow_replay, hr.find, hr.found, hr.height_le⟩

theorem disconnectTip (hr : Replayed db ld twin hashes) (htip : twin db.chaintip = some ld.chaintip)
    (hhigh : ∀ tip, db.heap.read db.chaintip = some tip → 1 < tip.height) {b : Bool}
    (h : db.disconnectTip = some (db', b)) :
    ∃ ld', ld.disconnectTip = some (ld', true) ∧ Replayed db' ld' twin hashes ∧
      twin db'.chaintip = some ld'.chaintip := by
  obtain ⟨tip, htipr, hcases⟩ := disconnectTip_eq_some h
  obtain ⟨tip', htipr', htw, hlink⟩ := hr.mirrors.read _ _ tip htip htipr
  obtain ⟨q, q', hq, htq, hq', -⟩ := hlink.linked (hhigh tip htipr)
  rcases hcases with ⟨hnone, -⟩ | ⟨prev, hprev, -, rfl⟩
  · rw [hnone] at hq
    cases hq
  obtain rfl : prev = q := Option.some.inj (hprev.symm.trans hq)
  refine ⟨{ ld with chaintip := q', treeRoot := ld.treeRoot.erase tip'.hash,
                    heap := ld.heap.free ld.chaintip }, ?_, ?_, htq⟩
  · rw [HeadersDb.disconnectTip, htipr', Option.bind_eq_bind, Option.bind_some, hq']
  · refine ⟨hr.mirrors.free htip, hr.params, hr.skipPow, hr.skipPow_replay, fun h p hf => ?_,
      fun h p' hf => hr.found h p' (find_erase_eq_some hf).2,
        (hr.shrunk (shrunk_disconnectTip h)).height_le⟩
    obtain ⟨hne, hf⟩ := find_erase_eq_some hf
    obtain ⟨p', htp, hf'⟩ := hr.find h p hf
    refine ⟨p', htp, ?_⟩
    rw [HeadersDb.find, SearchTree.find_erase, htw.hash, if_neg hne]
    exact hf'

/-- The disconnect loop frees twins. -/
theorem disconnectTo (hr : Replayed db ld twin hashes) (htip : twin db.chaintip = some ld.chaintip)
    {heap : Heap BlockIndex} (hgen : ∃ g, heap.read genesis = some g ∧ g.prev = none)
    (hsub : ∀ p c, db.heap.read p = some c → heap.read p = some c) {ancestor ancestor' fuel : ℕ}
    (hanc : twin ancestor = some ancestor')
    (habove : Heap.Chain BlockIndex.prev heap db.chaintip ancestor)
    (h : HeadersDb.disconnectTo ancestor fuel db = some db') {fuel' : ℕ}
    (hfuel : ld.chaintip < fuel') :
    ∃ ld', HeadersDb.disconnectTo ancestor' fuel' ld = some ld' ∧ Replayed db' ld' twin hashes ∧
      twin db'.chaintip = some ld'.chaintip := by
  induction fuel generalizing db ld fuel' with
  | zero => cases h
  | succ fuel ih =>
    obtain ⟨fuel', rfl⟩ : ∃ n, fuel' = n + 1 := ⟨fuel' - 1, by omega⟩
    obtain ⟨tip, a, htipr, ha, hcases⟩ := disconnectTo_succ h
    obtain ⟨tip', htipr', htw, hlink⟩ := hr.mirrors.read _ _ tip htip htipr
    obtain ⟨a', ha', htwa, -⟩ := hr.mirrors.read _ _ a hanc ha
    rw [HeadersDb.disconnectTo, htipr', ha', Option.bind_eq_bind, Option.bind_some,
      Option.bind_some, htw.hash, htwa.hash]
    rcases hcases with ⟨heq, rfl⟩ | ⟨hne, db1, b, hdis, hrest⟩
    · rw [if_pos heq]
      exact ⟨ld, rfl, hr, htip⟩
    rw [if_neg hne]
    -- the tip is not the ancestor yet, so the ancestor is below it
    have hbelow : ∀ q, tip.prev = some q → Heap.Chain BlockIndex.prev heap q ancestor := by
      intro q hq
      refine (habove.cases_link (hsub _ _ htipr) hq).resolve_left ?_
      rintro rfl
      rw [htipr] at ha
      rw [Option.some.inj ha] at hne
      exact hne rfl
    have hhigh : 1 < tip.height := by
      rcases hlink with ⟨-, -, hq, -⟩ | ⟨hhigh, -⟩
      · obtain ⟨g, hg, hgprev⟩ := hgen
        have hend := (hbelow genesis hq).eq_of_no_link hg hgprev
        exact absurd hend (Nat.ne_of_gt (hr.mirrors.lt _ _ hanc).1)
      · exact hhigh
    have hone : ∀ t, db.heap.read db.chaintip = some t → 1 < t.height := by
      intro t ht
      rw [htipr] at ht
      exact Option.some.inj ht ▸ hhigh
    obtain ⟨ld1, hdis', hr1, htip1⟩ := hr.disconnectTip htip hone hdis
    have hsub1 : ∀ p c, db1.heap.read p = some c → heap.read p = some c := fun p c hrd =>
      hsub p c ((shrunk_disconnectTip hdis).read p c hrd)
    have habove1 : Heap.Chain BlockIndex.prev heap db1.chaintip ancestor := by
      obtain ⟨t, ht, ⟨hnone, -⟩ | ⟨prev, hprev, -, rfl⟩⟩ := disconnectTip_eq_some hdis
      · rw [htipr] at ht
        obtain rfl := Option.some.inj ht
        obtain ⟨q, -, hq, -⟩ := hlink.linked hhigh
        rw [hnone] at hq
        cases hq
      · rw [htipr] at ht
        obtain rfl := Option.some.inj ht
        exact hbelow prev hprev
    have hfuel1 : ld1.chaintip < fuel' := by
      obtain ⟨t, ht, ⟨-, -, hbad⟩ | ⟨prev, hprev, -, rfl⟩⟩ := disconnectTip_eq_some hdis'
      · cases hbad
      · have hlt := hr.mirrors.down _ _ _ ht hprev
        dsimp only
        omega
    rw [hdis', Option.bind_eq_bind, Option.bind_some]
    exact ih hr1 htip1 hsub1 habove1 hrest hfuel1

/-- **The reorganisation** goes through in the replay where it does in the original. -/
theorem reorganise (hr : Replayed db ld twin hashes) (htip : twin db.chaintip = some ld.chaintip)
    (hgen : ∃ g, db.heap.read genesis = some g ∧ g.prev = none) (hbi : twin bi = some bi')
    (h : db.reorganise bi = some (db', true)) :
    ∃ ld', ld.reorganise bi' = some (ld', true) ∧ Replayed db' ld' twin hashes ∧
      db'.chaintip = bi ∧ ld'.chaintip = bi' := by
  rw [HeadersDb.reorganise, Option.bind_eq_bind, Option.bind_eq_some_iff] at h
  obtain ⟨found, hfound, h⟩ := h
  cases found with
  | none => simp at h
  | some ancestor =>
    dsimp only at h
    rw [Option.bind_eq_bind, Option.bind_eq_some_iff] at h
    obtain ⟨db1, hdis, h⟩ := h
    rw [Option.bind_eq_bind, Option.bind_eq_some_iff] at h
    obtain ⟨⟨db2, met⟩, hwalk, h⟩ := h
    obtain ⟨ancestor', f, f', a, b, hanc, hfound', hct, hcf, htf, ha, hb, hhash⟩ :=
      hr.mirrors.commonAncestor htip hbi hfound (Nat.lt_succ_self _)
    obtain ⟨ld1, hdis', hr1, -⟩ :=
      hr.disconnectTo htip hgen (fun _ _ h => h) hanc hct hdis (Nat.lt_succ_self _)
    have hgen1 : ∀ g, db.heap.read genesis = some g → g.prev = none := by
      intro g hg
      obtain ⟨g1, hg1, hprev⟩ := hgen
      rw [hg1] at hg
      exact Option.some.inj hg ▸ hprev
    obtain ⟨t', hwalk'⟩ := hr1.mirrors.connectWalk hgen1
      (shrunk_disconnectTo hdis).read hanc hbi htf hcf ha hb hhash hwalk bi' (Nat.lt_succ_self bi')
    have hmet : met = true := connectWalk_of_shared (shrunk_disconnectTo hdis).read hcf
      ha hb hhash hwalk
    subst hmet
    obtain ⟨t, rfl⟩ := connectWalk_eq_some hwalk
    simp only [if_true, Option.some.injEq, Prod.mk.injEq, and_true] at h
    subst h
    refine ⟨{ ld1 with chaintip := bi' }, ?_, ?_, rfl, rfl⟩
    · rw [HeadersDb.reorganise, hfound', Option.bind_eq_bind, Option.bind_some]
      dsimp only
      rw [hdis', Option.bind_eq_bind, Option.bind_some]
      rw [hwalk', Option.bind_eq_bind, Option.bind_some]
      rfl
    · exact hr1.retip bi bi'

/-! ## The choice of the tip -/

/-- A replay that overtakes does so in the original. -/
theorem overtakes_of_twin {tip tip' : BlockIndex} (hi : Twin index index') (ht : Twin tip tip')
    (hwork : tip'.chainwork = tip.chainwork) (h : overtakes index' tip' = true) :
    overtakes index tip = true := by
  have hle := hi.work_le
  rw [overtakes, Bool.or_eq_true, Bool.and_eq_true, arithUint256GreaterThan_iff,
    arithUint256Equal_iff, hwork, hi.base, ht.base] at h
  rw [overtakes, Bool.or_eq_true, Bool.and_eq_true, arithUint256GreaterThan_iff,
    arithUint256Equal_iff]
  rcases h with hmore | ⟨hsame, hlater⟩
  · left
    omega
  · rw [hsame] at hle
    rcases Nat.lt_or_eq_of_le hle with hlt | heq
    · exact Or.inl hlt
    · exact Or.inr ⟨(ArithUint256.toNat_injective heq).symm, hlater⟩

/-- **The choice of the tip** is the same in the original and in the replay, as long as the tip of
the replay has its full work. -/
theorem selectTip (hr : Replayed db ld twin hashes) (htip : twin db.chaintip = some ld.chaintip)
    (hgen : ∃ g, db.heap.read genesis = some g ∧ g.prev = none)
    (hwork : ∀ t t', db.heap.read db.chaintip = some t → ld.heap.read ld.chaintip = some t' →
      t'.chainwork =
      t.chainwork)
    {fork : Bool} (hbi : twin bi = some bi') (hindex : Twin index index')
    (h : db.selectTip bi index fork = some (db', true)) :
    ∃ ld', ld.selectTip bi' index' fork = some (ld', true) ∧ Replayed db' ld' twin hashes ∧
      ((db'.chaintip = bi ∧ ld'.chaintip = bi') ∨
        (db' = db ∧ ld' = ld ∧ ∀ t, db.heap.read db.chaintip = some t →
          ¬ t.height < index.height)) := by
  obtain ⟨tip, htipr, hcases⟩ := selectTip_eq_some h
  obtain ⟨tip', htipr', htw, -⟩ := hr.mirrors.read _ _ tip htip htipr
  have heq : ld.selectTip bi' index' fork =
      if fork && index.height > tip.height && overtakes index' tip' then ld.reorganise bi'
      else if index.height > tip.height then some ({ ld with chaintip := bi' }, true)
      else some (ld, true) := by
    rw [HeadersDb.selectTip, htipr', Option.bind_eq_bind, Option.bind_some,
      hindex.height, htw.height]
  -- the original may have freed blocks that the replay keeps
  have hmoved : ∀ db1, Shrunk db db1 → tip.height < index.height →
      ¬ (fork = true ∧ overtakes index' tip' = true) →
      ∃ ld', ld.selectTip bi' index' fork = some (ld', true) ∧
        Replayed { db1 with chaintip := bi } ld' twin hashes ∧ ld'.chaintip = bi' := by
    intro db1 hs hhigh hno
    refine ⟨{ ld with chaintip := bi' }, ?_, (hr.shrunk hs).retip bi bi', rfl⟩
    have hcond : ¬ (fork && index.height > tip.height && overtakes index' tip') = true := by
      intro hc
      simp only [Bool.and_eq_true] at hc
      exact hno ⟨hc.1.1, hc.2⟩
    rw [heq, if_neg hcond, if_pos hhigh]
  rcases hcases with ⟨hfork, hhigh, hover, hre⟩ | ⟨hno, hhigh, rfl, -⟩ | ⟨hlow, rfl, -⟩
  · by_cases hover' : overtakes index' tip' = true
    · obtain ⟨ld', hre', hr', ht, ht'⟩ := hr.reorganise htip hgen hbi hre
      refine ⟨ld', ?_, hr', Or.inl ⟨ht, ht'⟩⟩
      rw [heq, if_pos (by simp [hfork, hhigh, hover']), hre']
    · rcases reorganise_eq_some hre with ⟨-, -, hbad⟩ | ⟨ancestor, db1, -, hdis, rfl, -⟩
      · cases hbad
      obtain ⟨ld', hsel, hr', ht'⟩ := hmoved db1 (shrunk_disconnectTo hdis) hhigh fun h =>
        hover' h.2
      exact ⟨ld', hsel, hr', Or.inl ⟨rfl, ht'⟩⟩
  · have hno' : ¬ (fork = true ∧ overtakes index' tip' = true) := by
      rintro ⟨hfork, hover⟩
      exact hno ⟨hfork, hhigh, overtakes_of_twin hindex htw (hwork _ _ htipr htipr') hover⟩
    obtain ⟨ld', hsel, hr', ht'⟩ := hmoved db (Shrunk.refl db) hhigh hno'
    exact ⟨ld', hsel, hr', Or.inl ⟨rfl, ht'⟩⟩
  · have hnot : ¬ tip.height < index.height := by omega
    refine ⟨ld, ?_, hr, Or.inr ⟨rfl, rfl, fun t ht => ?_⟩⟩
    · rw [heq, if_neg (by simp [hnot]), if_neg hnot]
    · rw [htipr] at ht
      exact Option.some.inj ht ▸ hnot

end Replayed

end HeadersDb

end Libdogecoin
