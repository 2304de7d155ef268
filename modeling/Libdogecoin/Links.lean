/-
# The links of stored headers

Three places free block indices: the reorganisation, `disconnectTip` from outside and the trimming.
Side branches stay in the tree. `LinksHold` says that no stored index, nor the tip, is left with a
link to a freed or foreign index, and that heights and hashes agree along the links. It can fail:
nothing looks for side branches on the blocks that are freed. This module shows that this is the
only way it fails.

* `chain_of_common` : the search for the common ancestor does not go below a shared block;
* `freedDown_disconnectTo` : a reorganisation frees exactly the old blocks above where it stops;
* `linksHold_of_reach` : the links hold throughout every run in which no freed block has a side
  branch on it.
-/
import Libdogecoin.Coherent

namespace Libdogecoin

namespace HeadersDb

variable {pf : Platform} {db db' : HeadersDb} {buf : Bytes} {c index : BlockIndex}
  {heap : Heap BlockIndex}
  {f k : ℕ}

/-- Following links from `p` meets `q`. -/
abbrev Above (db : HeadersDb) (p q : ℕ) : Prop := Heap.Chain BlockIndex.prev db.heap p q

/-- Every stored index, and the tip, is allocated, and its link leads to a stored index, or the
genesis index, one lower that carries the hash its header names. -/
structure LinksHold (db : HeadersDb) : Prop where
  allocated : ∀ p, db.Known p → ∃ b, db.heap.read p = some b
  linked : ∀ p b q, db.Known p → db.heap.read p = some b → b.prev = some q →
    ∃ c, db.heap.read q = some c ∧ db.Stored q c ∧ b.height = c.height + 1 ∧
      b.header.base.prevBlock = c.hash

/-! ## Side branches on freed blocks -/

/-- The block at `p` is on the active chain, but not below the parent of a header that triggers a
reorganisation: it is abandoned. -/
def Abandoned (db : HeadersDb) (a : Attached) (tip : BlockIndex) (parentPtr p : ℕ) : Prop :=
  (a.forkFromBlock = true ∧ tip.height < a.index.height ∧ overtakes a.index tip = true) ∧
    db.Above db.chaintip p ∧ ¬ db.Above parentPtr p

/-- The block the active chain continues from after the header was attached: the parent of the new
tip, or the old tip. -/
def continuesFrom (db : HeadersDb) (a : Attached) (tip : BlockIndex) (parentPtr : ℕ) : ℕ :=
  if tip.height < a.index.height then parentPtr else db.chaintip

/-- The block at `p` is the one that trimming frees: its child on the active chain is one more than
`maxHdrInMem` links below the new tip. -/
def TrimmedBy (db : HeadersDb) (a : Attached) (tip : BlockIndex) (parentPtr : ℕ) (load : Bool)
    (p : ℕ) : Prop :=
  load = false ∧ 0 < db.maxHdrInMem ∧
    ∃ s sb, Heap.follow BlockIndex.prev db.heap
        (if tip.height < a.index.height then db.maxHdrInMem else db.maxHdrInMem + 1)
        (db.continuesFrom a tip parentPtr) = some s ∧
      s ≠ genesis ∧ db.heap.read s = some sb ∧ sb.prev = some p ∧ p ≠ genesis

/-- No block that the operation frees has a side branch on it: its stored children are freed with it
or lie on the active chain that remains, and the new header is not a side branch on it either. -/
def NoOrphans (pf : Platform) (db : HeadersDb) : DbOp → Prop
  | .connect buf load =>
    ∀ a h tip parent parentPtr work, Attaches pf db buf a h tip parent parentPtr work →
      ∀ p, (db.Abandoned a tip parentPtr p ∨ db.TrimmedBy a tip parentPtr load p) →
        (∀ q b, db.Known q → db.heap.read q = some b → b.prev = some p →
          db.Abandoned a tip parentPtr q ∨ db.Above (db.continuesFrom a tip parentPtr) q) ∧
        (parentPtr = p → tip.height < a.index.height)
  | .disconnect => ∀ tip prev, db.heap.read db.chaintip = some tip → tip.prev = some prev →
      ∀ q b, db.Known q → db.heap.read q = some b → b.prev ≠ some db.chaintip
  | .setSkipPow _ => True

/-- The height behind that of the parent has 32 bits. -/
def HeightFits (pf : Platform) (db : HeadersDb) : DbOp → Prop
  | .connect buf _ =>
    ∀ a h tip parent parentPtr work, Attaches pf db buf a h tip parent parentPtr work →
      parent.height + 1 < 2 ^ 32
  | _ => True

/-- The operation frees no block that has a side branch on it, and no height wraps. -/
structure KeepsLinks (pf : Platform) (db : HeadersDb) (op : DbOp) : Prop where
  noOrphans : NoOrphans pf db op
  heightFits : HeightFits pf db op

/-! ## The common ancestor -/

/-- Along every link from `p` on, the height drops by one. -/
def HeightsFall (db : HeadersDb) (p : ℕ) : Prop :=
  ∀ x b q c, db.Above p x → db.heap.read x = some b → b.prev = some q → db.heap.read q = some c →
    b.height = c.height + 1

variable {p q fuel ancestor : ℕ} {b : BlockIndex}

theorem HeightsFall.prev (h : HeightsFall db p) (hr : db.heap.read p = some b)
    (hq : b.prev = some q) :
    HeightsFall db q :=
  fun x c r d hx => h x c r d (.step hr hq hx)

/-- A block strictly below another one on a chain has a smaller height. -/
theorem height_lt (hfall : HeightsFall db p) (hpq : db.Above p q) (hne : q ≠ p)
    (hp : db.heap.read p = some b) (hq : db.heap.read q = some c) : c.height < b.height := by
  induction hpq generalizing b with
  | refl p => exact absurd rfl hne
  | @step p r q a hread hlink hrest ih =>
    rw [hp] at hread
    obtain rfl := Option.some.inj hread
    cases hr : db.heap.read r with
    | none =>
      cases hrest with
      | refl => rw [hr] at hq; cases hq
      | step hread' _ _ => rw [hr] at hread'; cases hread'
    | some d =>
      have hfirst := hfall p b r d (.refl p) hp hlink hr
      by_cases hqr : q = r
      · subst hqr
        rw [hr] at hq
        obtain rfl := Option.some.inj hq
        omega
      · have hlt := ih (hfall.prev hp hlink) hqr hr hq
        omega

/-- **The search for the common ancestor** ends at two blocks with one hash, neither of them below
a block that both chains share. -/
theorem chain_of_common (common : ℕ → Prop) {tip fork : ℕ} (htip : HeightsFall db tip)
    (hfork : HeightsFall db fork) (hcommon : ∀ z, common z → db.Above tip z ∧ db.Above fork z)
    (h : commonAncestor db.heap fuel tip fork = some (some ancestor)) :
    ∃ f a b, db.Above tip ancestor ∧ db.Above fork f ∧ db.heap.read ancestor = some a ∧
      db.heap.read f = some b ∧ a.hash = b.hash ∧
      ∀ z, common z → db.Above ancestor z ∧ db.Above f z := by
  induction fuel generalizing tip fork with
  | zero => cases h
  | succ fuel ih =>
    obtain ⟨a, f, ha, hf, ⟨heq, rfl⟩ | ⟨-, hhigh, p, hp, hnext⟩ | ⟨hne, hlow, p, hp, hnext⟩⟩ :=
      commonAncestor_succ h
    · exact ⟨fork, a, f, .refl _, .refl _, ha, hf, heq, hcommon⟩
    · have hshared : ∀ z, common z → db.Above p z ∧ db.Above fork z := by
        intro z hz
        obtain ⟨h1, h2⟩ := hcommon z hz
        refine ⟨(h1.cases_link ha hp).resolve_left ?_, h2⟩
        -- the higher side is not the shared block: the other side would be higher still
        rintro rfl
        by_cases hzf : z = fork
        · subst hzf
          rw [ha] at hf
          obtain rfl := Option.some.inj hf
          omega
        · have := height_lt hfork h2 hzf hf ha
          omega
      obtain ⟨g, a', b', h1, h2, hrest⟩ := ih (htip.prev ha hp) hfork hshared hnext
      exact ⟨g, a', b', .step ha hp h1, h2, hrest⟩
    · have hshared : ∀ z, common z → db.Above tip z ∧ db.Above p z := by
        intro z hz
        obtain ⟨h1, h2⟩ := hcommon z hz
        refine ⟨h1, (h2.cases_link hf hp).resolve_left ?_⟩
        rintro rfl
        by_cases hzt : z = tip
        · subst hzt
          rw [ha] at hf
          obtain rfl := Option.some.inj hf
          exact hne rfl
        · have := height_lt htip h1 hzt ha hf
          omega
      obtain ⟨g, a', b', h1, h2, hrest⟩ := ih htip (hfork.prev hf hp) hshared hnext
      exact ⟨g, a', b', h1, .step hf hp h2, hrest⟩

/-! ## What a reorganisation frees -/

/-- The blocks freed on the way from the tip of `db` down to that of `db'`. -/
structure FreedDown (db db' : HeadersDb) : Prop where
  disconnected : Coherent.Disconnected db db'
  /-- What is gone was on the chain, above where it stopped. -/
  gone : ∀ p b, db.heap.read p = some b → db'.heap.read p = some b ∨
    (db.Above db.chaintip p ∧ db.Above p db'.chaintip ∧ p ≠ db'.chaintip)
  /-- All of that is gone. -/
  all : ∀ p, db.Above db.chaintip p → db.Above p db'.chaintip → p ≠ db'.chaintip →
    db'.heap.read p = none

theorem FreedDown.step {db1 db2 : HeadersDb} {b : Bool} (hc : Coherent db) (h : FreedDown db db1)
    (hdis : db1.disconnectTip = some (db2, b)) : FreedDown db db2 := by
  have hd := h.disconnected
  have hs := hd.shrunk
  refine ⟨hd.step hdis, ?_, ?_⟩
  all_goals
    obtain ⟨tip, htip, ⟨-, rfl, -⟩ | ⟨prev, hprev, -, rfl⟩⟩ := disconnectTip_eq_some hdis
  · exact h.gone
  · have htip0 := hs.read _ _ htip
    intro p b hr
    rcases h.gone p b hr with hr1 | ⟨h1, h2, h3⟩
    · by_cases hp : p = db1.chaintip
      · subst hp
        have hlt := hc.down _ _ _ htip0 hprev
        exact Or.inr ⟨hs.tip, .single htip0 hprev, by dsimp only; omega⟩
      · exact Or.inl (by dsimp only; rw [Heap.read_free_of_ne _ hp]; exact hr1)
    · have hlt := hc.down _ _ _ htip0 hprev
      have hle := hc.chain_le h2
      exact Or.inr ⟨h1, h2.trans (.single htip0 hprev), by dsimp only; omega⟩
  · exact h.all
  · have htip0 := hs.read _ _ htip
    intro p h1 h2 h3
    dsimp only at h2 h3 ⊢
    by_cases hp : p = db1.chaintip
    · subst hp
      exact Heap.read_free_self _ _
    · rw [Heap.read_free_of_ne _ hp]
      rcases h1.linear hs.tip with h4 | h4
      · exact h.all p h1 h4 hp
      · rcases h4.cases_link htip0 hprev with h5 | h5
        · exact absurd h5 hp
        · have hle1 := hc.chain_le h5
          have hle2 := hc.chain_le h2
          exact absurd (Nat.le_antisymm hle1 hle2) h3

theorem freedDown_disconnectTo (hc : Coherent db) (h : disconnectTo ancestor fuel db = some db') :
    FreedDown db db' := by
  refine disconnectTo_induction (P := FreedDown db) (fun _ _ _ hf hdis => hf.step hc hdis) ?_ h
  refine ⟨⟨hc, Shrunk.refl db, Nat.le_refl _, fun _ _ => rfl, fun _ _ _ hf _ => hf⟩,
    fun p b hr => Or.inl hr, fun p h1 h2 h3 => ?_⟩
  exact absurd (Nat.le_antisymm (hc.chain_le h1) (hc.chain_le h2)) h3

/-- The disconnect loop does not go below the ancestor. -/
theorem above_of_disconnectTo (hsub : ∀ p b, db.heap.read p = some b → heap.read p = some b)
    (habove : Heap.Chain BlockIndex.prev heap db.chaintip ancestor)
    (h : disconnectTo ancestor fuel db = some db') :
    Heap.Chain BlockIndex.prev heap db'.chaintip ancestor := by
  induction fuel generalizing db with
  | zero => cases h
  | succ fuel ih =>
    obtain ⟨tip, a, htip, ha, ⟨-, rfl⟩ | ⟨hne, db1, b, hdis, hrest⟩⟩ := disconnectTo_succ h
    · exact habove
    refine ih (fun p c hr => hsub p c ((shrunk_disconnectTip hdis).read p c hr)) ?_ hrest
    obtain ⟨tip', htip', ⟨-, rfl, -⟩ | ⟨prev, hprev, -, rfl⟩⟩ := disconnectTip_eq_some hdis
    · exact habove
    · rw [htip] at htip'
      obtain rfl := Option.some.inj htip'
      refine (habove.cases_link (hsub _ _ htip) hprev).resolve_left ?_
      rintro rfl
      rw [htip] at ha
      obtain rfl := Option.some.inj ha
      exact hne rfl

/-! ## Keeping the links -/

/-- What a known block leads to is known, unless it is the genesis index. -/
theorem LinksHold.known_of_above (hl : LinksHold db) (hc : Coherent db) (hk : db.Known p)
    (h : db.Above p q) :
    q = genesis ∨ db.Known q := by
  induction h with
  | refl p => exact Or.inr hk
  | @step p q r b hread hlink hrest ih =>
    obtain ⟨c, hcr, hs, -, -⟩ := hl.linked p b q hk hread hlink
    by_cases hgen : q = genesis
    · subst hgen
      obtain ⟨g, hg, hgprev, -⟩ := hc.genesis_read
      exact Or.inl (hrest.eq_of_no_link hg hgprev)
    · exact ih (Coherent.known_of_stored hs hgen)

/-- Heights fall along the chain of a known block. -/
theorem LinksHold.heightsFall (hl : LinksHold db) (hc : Coherent db) (hk : db.Known p) :
    HeightsFall db p := by
  intro x b q c hx hr hq hcr
  rcases hl.known_of_above hc hk hx with hgen | hkx
  · subst hgen
    obtain ⟨g, hg, hgprev, -⟩ := hc.genesis_read
    rw [hg] at hr
    obtain rfl := Option.some.inj hr
    rw [hgprev] at hq
    cases hq
  · obtain ⟨d, hd, -, hheight, -⟩ := hl.linked x b q hkx hr hq
    rw [hcr] at hd
    obtain rfl := Option.some.inj hd
    exact hheight

/-- A fresh index that nothing leads to. -/
theorem LinksHold.allocIndex (hl : LinksHold db) (hc : Coherent db) (index : BlockIndex) :
    LinksHold (db.allocIndex index) := by
  have hread : ∀ p, db.Known p → (db.heap.alloc index).read p = db.heap.read p := fun p hk =>
    Heap.read_alloc_of_ne _ _ (Nat.ne_of_lt (hc.known_lt hk))
  refine ⟨fun p hk => ?_, fun p b q hk hr hq => ?_⟩
  · obtain ⟨b, hb⟩ := hl.allocated p hk
    exact ⟨b, Heap.read_alloc hb index⟩
  · have hr' : db.heap.read p = some b := (hread p hk).symm.trans hr
    obtain ⟨c, hcr, hs, hheight, hhash⟩ := hl.linked p b q hk hr' hq
    exact ⟨c, Heap.read_alloc hcr index, hs, hheight, hhash⟩

/-- Freeing the blocks above a new tip, if all their stored children lie above it too. -/
theorem LinksHold.freedDown (hl : LinksHold db) (hc : Coherent db) (hf : FreedDown db db')
    (htip : ∃ b, db'.heap.read db'.chaintip = some b)
    (hside : ∀ p q b, db.Above db.chaintip p → db.Above p db'.chaintip → p ≠ db'.chaintip →
      db.Known q → db.heap.read q = some b → b.prev = some p → db.Above db.chaintip q) :
    LinksHold db' := by
  have hd := hf.disconnected
  have hknown : ∀ p b, db'.Known p → db'.heap.read p = some b → p = genesis ∨ db.Known p := by
    rintro p b (rfl | ⟨h, hfind⟩) hr
    · exact hl.known_of_above hc (Or.inl rfl) hd.shrunk.tip
    · exact Or.inr (Or.inr ⟨h, hd.shrunk.find h p hfind⟩)
  refine ⟨fun p hk => ?_, fun p b q hk hr hq => ?_⟩
  · rcases hk with rfl | ⟨h, hfind⟩
    · exact htip
    · obtain ⟨-, b, hb, -⟩ := hd.coherent.keyed h p hfind
      exact ⟨b, hb⟩
  · have hr0 := hd.shrunk.read p b hr
    rcases hknown p b hk hr with hgen | hk0
    · subst hgen
      obtain ⟨g, hg, hgprev, -⟩ := hc.genesis_read
      rw [hg] at hr0
      obtain rfl := Option.some.inj hr0
      rw [hgprev] at hq
      cases hq
    obtain ⟨c, hcr, hs, hheight, hhash⟩ := hl.linked p b q hk0 hr0 hq
    rcases hf.gone q c hcr with hkept | ⟨h1, h2, h3⟩
    · exact ⟨c, hkept, hs.imp_right fun h => hd.keeps _ _ _ h hkept, hheight, hhash⟩
    · -- a child of a freed block lies above the new tip as well, so it is freed itself
      have hp1 := hside q p b h1 h2 h3 hk0 hr0 hq
      have hp2 : db.Above p db'.chaintip := .step hr0 hq h2
      have hlt := hc.down p b q hr0 hq
      have hle := hc.chain_le h2
      have hnone := hf.all p hp1 hp2 (by omega)
      rw [hr] at hnone
      cases hnone

/-- Entering a pending header whose parent is stored. -/
theorem LinksHold.enter (hl : LinksHold db) {bi t pp : ℕ} {parent : BlockIndex}
    (hp : Coherent.Pending db bi index) (hprev : index.prev = some pp)
    (hparent : db.heap.read pp = some parent)
    (hheight : index.height = parent.height + 1) (hhash : index.header.base.prevBlock = parent.hash)
    (ht : t = bi ∨ t = db.chaintip) (file : Option Bytes) :
    LinksHold ({ db with chaintip := t }.enter file bi index) := by
  have hkeep : ∀ {p : ℕ} {c : BlockIndex}, db.Stored p c →
      Stored ({ db with chaintip := t }.enter file bi index) p c := by
    rintro p c (hgen | hf)
    · exact Or.inl hgen
    · refine Or.inr ((SearchTree.find_insert_of_ne _ ?_ _).trans hf)
      intro heq
      have hun := hp.unknown
      rw [← heq] at hun
      exact absurd (hun.symm.trans hf) (by simp)
  have hknown : ∀ p, Known ({ db with chaintip := t }.enter file bi index) p → p = bi ∨
    db.Known p := by
    rintro p (hpt | ⟨h, hf⟩)
    · have hpt' : p = t := hpt
      rcases ht with rfl | rfl
      · exact Or.inl hpt'
      · exact Or.inr (Or.inl hpt')
    · have hf' : (db.treeRoot.insert index.hash bi).find h = some p := hf
      rw [SearchTree.find_insert] at hf'
      split at hf'
      · have hun : db.treeRoot.find index.hash = none := hp.unknown
        rw [hun] at hf'
        exact Or.inl (Option.some.inj hf').symm
      · exact Or.inr (Or.inr ⟨h, hf'⟩)
  refine ⟨fun p hk => ?_, fun p b q hk hr hq => ?_⟩
  · rcases hknown p hk with rfl | hk0
    · exact ⟨index, hp.read⟩
    · exact hl.allocated p hk0
  · have hr0 : db.heap.read p = some b := hr
    rcases hknown p hk with rfl | hk0
    · rw [hp.read] at hr0
      obtain rfl := Option.some.inj hr0
      rw [hprev] at hq
      obtain rfl := Option.some.inj hq
      exact ⟨parent, hparent, hkeep (hp.prev _ _ hprev hparent), hheight, hhash⟩
    · obtain ⟨c, hcr, hs, hrest⟩ := hl.linked p b q hk0 hr0 hq
      exact ⟨c, hcr, hkeep hs, hrest⟩

/-- Cutting the chain at a block whose only stored child is the one above the cut. -/
theorem LinksHold.cut (hl : LinksHold db) (hc : Coherent db) {s : ℕ} {sb fb : BlockIndex}
    (ht : db.TrimsAt s f) (hs : db.heap.read s = some sb) (hf : db.heap.read f = some fb)
    (hside : ∀ q b, db.Known q → db.heap.read q = some b → b.prev = some f → q = s) :
    LinksHold (db.cut s f sb fb) := by
  obtain ⟨-, hchainf, hfs, hstip⟩ := hc.of_trimsAt ht
  have hcc := hc.cut ht hs hf
  have hknown : ∀ p, (db.cut s f sb fb).Known p → db.Known p := by
    rintro p (hpt | ⟨h, hfind⟩)
    · exact Or.inl hpt
    · exact Or.inr ⟨h, (find_erase_eq_some hfind).2⟩
  have hforth : ∀ p b, p ≠ f → db.heap.read p = some b →
      ∃ b', (db.cut s f sb fb).heap.read p = some b' ∧ b'.hash = b.hash ∧ b'.height = b.height := by
    intro p b hpf hr
    by_cases hps : p = s
    · subst hps
      rw [hs] at hr
      obtain rfl := Option.some.inj hr
      exact ⟨_, Coherent.read_cut_self hs, rfl, rfl⟩
    · exact ⟨b, by rw [Coherent.read_cut_of_ne hpf hps]; exact hr, rfl, rfl⟩
  refine ⟨fun p hk => ?_, fun p b q hk hr hq => ?_⟩
  · obtain ⟨b, hb⟩ := hl.allocated p (hknown p hk)
    by_cases hpf : p = f
    · subst hpf
      rcases hk with hpt | ⟨h, hfind⟩
      · have hpt' : p = db.chaintip := hpt
        omega
      · obtain ⟨-, b', hb', -⟩ := hcc.keyed h p hfind
        exact ⟨b', hb'⟩
    · obtain ⟨b', hb', -⟩ := hforth p b hpf hb
      exact ⟨b', hb'⟩
  · obtain ⟨hpf, ⟨rfl, rfl⟩ | ⟨hps, hr0⟩⟩ := Coherent.read_cut hs hfs hr
    · cases hq
    obtain ⟨c, hcr, hst, hheight, hhash⟩ := hl.linked p b q (hknown p hk) hr0 hq
    have hqf : q ≠ f := by
      rintro rfl
      exact hps (hside p b (hknown p hk) hr0 hq)
    obtain ⟨c', hc', hh', hht'⟩ := hforth q c hqf hcr
    refine ⟨c', hc', ?_, by rw [hht']; exact hheight, by rw [hh']; exact hhash⟩
    exact hcc.prev_stored p b q c' hk hr hq hc'

/-! ## A reorganisation -/

/-- Chains between old blocks are not affected by an allocation. -/
theorem above_of_allocIndex (hc : Coherent db) (index : BlockIndex) (hp : p < db.heap.fresh)
    (h : (db.allocIndex index).Above p q) : db.Above p q := by
  induction h with
  | refl p => exact .refl p
  | @step p q r b hread hlink _ ih =>
    have hread' : db.heap.read p = some b :=
      (Heap.read_alloc_of_ne _ _ (Nat.ne_of_lt hp)).symm.trans hread
    have hlt := hc.down p b q hread' hlink
    exact .step hread' hlink (ih (by omega))

theorem above_allocIndex (index : BlockIndex) (h : db.Above p q) :
    (db.allocIndex index).Above p q :=
  h.of_agree fun _ _ _ _ hr => Heap.read_alloc hr index

/-- Two blocks on one chain with one link are the same. -/
theorem eq_of_same_prev (hc : Coherent db) {x : ℕ} (hp : db.Above x p) (hq : db.Above x q)
    (hrp : db.heap.read p = some b) (hrq : db.heap.read q = some c) (hbf : b.prev = some f)
    (hcf : c.prev = some f) : p = q := by
  have hpf := hc.down p b f hrp hbf
  have hqf := hc.down q c f hrq hcf
  rcases hp.linear hq with h | h
  · rcases h.cases_link hrp hbf with rfl | h
    · rfl
    · have := hc.chain_le h
      omega
  · rcases h.cases_link hrq hcf with rfl | h
    · rfl
    · have := hc.chain_le h
      omega

/-- A header that attaches, in a database whose links hold. -/
structure Attaching (pf : Platform) (db : HeadersDb) (buf : Bytes) (a : Attached) (h : FullHeader)
    (tip parent : BlockIndex) (pp : ℕ) (work : ArithUint256) : Prop where
  coherent : Coherent db
  links : LinksHold db
  attaches : Attaches pf db buf a h tip parent pp work
  height_lt : parent.height + 1 < 2 ^ 32

namespace Attaching

variable {a : Attached} {h : FullHeader} {tip parent : BlockIndex} {pp : ℕ} {work : ArithUint256}

section

variable (ha : Attaching pf db buf a h tip parent pp work)
include ha

theorem pending : Coherent.Pending (db.allocIndex a.index) db.heap.fresh a.index :=
  ha.coherent.pending_of_attaches ha.attaches

theorem links_alloc : LinksHold (db.allocIndex a.index) :=
  ha.links.allocIndex ha.coherent a.index

theorem prev_eq : a.index.prev = some pp := by
  rw [ha.attaches.index_eq]

theorem parent_lt : pp < db.heap.fresh :=
  Heap.lt_fresh ha.attaches.parent_read

theorem height_eq : a.index.height = parent.height + 1 := by
  rw [ha.attaches.index_eq]
  exact Nat.mod_eq_of_lt ha.height_lt

theorem known_parent : db.Known pp := by
  rcases connectAt_eq_some ha.attaches.connectAt_eq with ⟨-, -, hp⟩ | ⟨-, -, hf⟩
  · exact Or.inl hp
  · exact Or.inr ⟨_, hf⟩

/-- The header names its parent. -/
theorem prevBlock_eq : a.index.header.base.prevBlock = parent.hash := by
  rw [ha.attaches.index_eq]
  rcases connectAt_eq_some ha.attaches.connectAt_eq with ⟨-, hprev, hp⟩ | ⟨-, -, hf⟩
  · have hr := ha.attaches.parent_read
    rw [hp, ha.attaches.tip_read] at hr
    obtain rfl := Option.some.inj hr
    exact hprev
  · exact (ha.coherent.hash_of_find hf ha.attaches.parent_read).symm

/-- The new index reaches an old block through its parent. -/
theorem above_parent {p : ℕ}
    (hp : p < db.heap.fresh) (habove : (db.allocIndex a.index).Above db.heap.fresh p) :
    db.Above pp p := by
  have hread : (db.allocIndex a.index).heap.read db.heap.fresh = some a.index :=
    Heap.read_alloc_self _ _
  rcases habove.cases_link hread ha.prev_eq with heq | hrest
  · omega
  · exact above_of_allocIndex ha.coherent a.index ha.parent_lt hrest

/-- A block of the old chain that has the hash of a block of the new chain is on the new chain. -/
theorem above_parent_of_hash {f t : ℕ} {fb tb : BlockIndex}
    (hnf : (db.allocIndex a.index).Above db.heap.fresh f)
    (hfb : (db.allocIndex a.index).heap.read f = some fb) (hfpos : 0 < f)
    (htt : (db.allocIndex a.index).Above db.chaintip t)
    (htb : (db.allocIndex a.index).heap.read t = some tb) (htpos : 0 < t)
    (hhash : tb.hash = fb.hash) :
    db.Above pp t := by
  have hc0 := ha.pending.coherent
  have hgen : genesis = 0 := rfl
  -- both are stored under the hash
  have hstored : ∀ {p : ℕ} {b : BlockIndex}, (db.allocIndex a.index).Known p →
      (db.allocIndex a.index).heap.read p = some b → 0 < p → db.find b.hash = some p :=
        fun hk hr hp =>
    (hc0.stored_of_known hk hr).resolve_left (Nat.ne_of_gt hp)
  have hkt : (db.allocIndex a.index).Known t :=
    (ha.links_alloc.known_of_above hc0 (Or.inl rfl) htt).resolve_left (by omega)
  have hft := hstored hkt htb htpos
  rw [hhash] at hft
  -- the block of the new chain is not the new index, whose hash is unknown
  have hfnew : f ≠ db.heap.fresh := by
    intro heq
    have hunknown : db.find a.index.hash = none := ha.pending.unknown
    rw [heq, ha.pending.read] at hfb
    rw [Option.some.inj hfb, hft] at hunknown
    cases hunknown
  have hppf := ha.above_parent (lt_of_le_of_ne (hc0.chain_le hnf) hfnew) hnf
  have hkf : db.Known f := (ha.links.known_of_above ha.coherent ha.known_parent hppf).resolve_left
    (by omega)
  have hff := hstored hkf hfb hfpos
  rw [hft] at hff
  rwa [Option.some.inj hff]

theorem heightsFall_new : HeightsFall (db.allocIndex a.index) db.heap.fresh := by
  intro x b q c hx hr hq hcr
  have hread : (db.allocIndex a.index).heap.read db.heap.fresh = some a.index :=
    Heap.read_alloc_self _ _
  rcases hx.cases_link hread ha.prev_eq with rfl | hrest
  · rw [hread] at hr
    obtain rfl := Option.some.inj hr
    rw [ha.prev_eq] at hq
    obtain rfl := Option.some.inj hq
    have hpr : (db.allocIndex a.index).heap.read pp = some parent :=
      Heap.read_alloc ha.attaches.parent_read a.index
    rw [hpr] at hcr
    obtain rfl := Option.some.inj hcr
    exact ha.height_eq
  · exact ha.links_alloc.heightsFall ha.pending.coherent ha.known_parent x b q c hrest hr hq hcr

end

/-- What a reorganisation to the new header leaves: the links still hold, the parent survives, what
survives of the abandoned chain is at or below where it stopped, and where the two chains share a
block other than the genesis index it stopped on the new chain. -/
structure Reorganised (db db2 : HeadersDb) (pp : ℕ) (parent : BlockIndex) : Prop where
  links : LinksHold db2
  parent_read : db2.heap.read pp = some parent
  survivors : ∀ q b, db.Above db.chaintip q → db2.heap.read q = some b → db.Above db2.chaintip q
  shared : ∀ z, z ≠ genesis → db.Above db.chaintip z → db.Above pp z → db.Above pp db2.chaintip

theorem reorganised (ha : Attaching pf db buf a h tip parent pp work) {load : Bool}
    {db2 : HeadersDb} {fuel ancestor : ℕ} (hguard : NoOrphans pf db (.connect buf load))
    (hover : a.forkFromBlock = true ∧ tip.height < a.index.height ∧ overtakes a.index tip = true)
    (hfound : commonAncestor (db.allocIndex a.index).heap fuel db.chaintip db.heap.fresh =
      some (some ancestor))
    (hdis : disconnectTo ancestor (db.chaintip + 1) (db.allocIndex a.index) = some db2) :
    Reorganised db db2 pp parent := by
  have hc := ha.coherent
  have hc0 := ha.pending.coherent
  have hl0 := ha.links_alloc
  have hf := freedDown_disconnectTo hc0 hdis
  have htlt := hc.tip_lt
  have htip0 : (db.allocIndex a.index).chaintip = db.chaintip := rfl
  -- everything on the old chain is an old block
  have hold : ∀ {p : ℕ}, (db.allocIndex a.index).Above db.chaintip p → db.Above db.chaintip p :=
    fun hp => above_of_allocIndex hc a.index htlt hp
  obtain ⟨f, ca, fb, htca, hnf, hca, hfb, hhash, hshared⟩ :=
    chain_of_common (fun z => (db.allocIndex a.index).Above db.chaintip z ∧
      (db.allocIndex a.index).Above db.heap.fresh z) (hl0.heightsFall hc0 (Or.inl rfl))
        ha.heightsFall_new (fun _ hz => hz) hfound
  have hstop : (db.allocIndex a.index).Above db2.chaintip ancestor :=
    above_of_disconnectTo (fun _ _ hr => hr) htca hdis
  obtain ⟨tip2, anc2, htip2, hanc2, hhash2⟩ := tip_disconnectTo hdis
  have ht2above : (db.allocIndex a.index).Above db.chaintip db2.chaintip :=
    hf.disconnected.shrunk.tip
  have hnewabove : ∀ {p : ℕ}, db.Above pp p → (db.allocIndex a.index).Above db.heap.fresh p :=
    fun hp => .step (Heap.read_alloc_self _ _) ha.prev_eq (above_allocIndex a.index hp)
  -- a freed block is abandoned
  have hfreed : ∀ p, (db.allocIndex a.index).Above db.chaintip p →
      (db.allocIndex a.index).Above p db2.chaintip → p ≠ db2.chaintip →
      db.Abandoned a tip pp p := by
    intro p h1 h2 h3
    refine ⟨hover, hold h1, fun hpp => ?_⟩
    have h4 := (hshared p ⟨h1, hnewabove hpp⟩).1
    have le1 := hc0.chain_le h2
    have le2 := hc0.chain_le h4
    have le3 := hc0.chain_le hstop
    omega
  have hcont : db.continuesFrom a tip pp = pp := if_pos hover.2.1
  have hside : ∀ p q b, (db.allocIndex a.index).Above db.chaintip p →
      (db.allocIndex a.index).Above p db2.chaintip → p ≠ db2.chaintip →
      (db.allocIndex a.index).Known q → (db.allocIndex a.index).heap.read q = some b →
      b.prev = some p → (db.allocIndex a.index).Above db.chaintip q := by
    intro p q b h1 h2 h3 hk hr hp
    have hab := hfreed p h1 h2 h3
    have hkq : db.Known q := hk
    have hrq : db.heap.read q = some b :=
      (Heap.read_alloc_of_ne _ _ (Nat.ne_of_lt (hc.known_lt hkq))).symm.trans hr
    rcases (hguard a h tip parent pp work ha.attaches p (Or.inl hab)).1 q b hkq hrq hp with hq | hq
    · exact above_allocIndex a.index hq.2.1
    · rw [hcont] at hq
      exact absurd (hq.trans (.single hrq hp)) hab.2.2
  refine ⟨hl0.freedDown hc0 hf ⟨tip2, htip2⟩ hside, ?_, fun q b hq hr => ?_, fun z hz h1 h2 => ?_⟩
  · have hpr : (db.allocIndex a.index).heap.read pp = some parent :=
      Heap.read_alloc ha.attaches.parent_read a.index
    rcases hf.gone pp parent hpr with hkept | ⟨h1, h2, h3⟩
    · exact hkept
    · exact absurd (.refl pp) (hfreed pp h1 h2 h3).2.2
  · have hq0 := above_allocIndex a.index hq
    have ht2lt : db2.chaintip < db.heap.fresh := lt_of_le_of_lt hf.disconnected.tip_le htlt
    refine above_of_allocIndex hc a.index ht2lt ?_
    rcases hq0.linear ht2above with h1 | h1
    · by_cases heq : q = db2.chaintip
      · rw [heq]
        exact .refl _
      · rw [hf.all q hq0 h1 heq] at hr
        cases hr
    · exact h1
  · -- the two ends of the search and the stop are stored under one hash
    obtain ⟨hza, hzf⟩ := hshared z ⟨above_allocIndex a.index h1, hnewabove h2⟩
    have hzpos : 0 < z := Nat.pos_of_ne_zero hz
    have le1 := hc0.chain_le hza
    have le2 := hc0.chain_le hzf
    have le3 := hc0.chain_le hstop
    have htip20 := hf.disconnected.shrunk.read _ _ htip2
    have hanc20 := hf.disconnected.shrunk.read _ _ hanc2
    rw [hca] at hanc20
    obtain rfl := Option.some.inj hanc20
    exact ha.above_parent_of_hash hnf hfb (by omega) ht2above htip20 (by omega) (hhash2.trans hhash)

end Attaching

/-! ## Connecting a header -/

/-- Following links from an old block is not affected by an allocation. -/
theorem follow_of_allocIndex (hc : Coherent db) (hp : p < db.heap.fresh)
    (h : Heap.follow BlockIndex.prev (db.allocIndex index).heap k p = some q) :
    Heap.follow BlockIndex.prev db.heap k p = some q := by
  induction k generalizing p with
  | zero => exact h
  | succ k ih =>
    have hread : (db.allocIndex index).heap.read p = db.heap.read p :=
      Heap.read_alloc_of_ne _ _ (Nat.ne_of_lt hp)
    rw [Heap.follow, hread] at h
    rw [Heap.follow]
    cases hr : db.heap.read p with
    | none => rw [hr] at h; cases h
    | some b =>
      rw [hr] at h
      dsimp only at h ⊢
      cases hb : b.prev with
      | none => rw [hb] at h; cases h
      | some r =>
        rw [hb] at h
        have hlt := hc.down p b r hr hb
        exact ih (by omega) h

/-- Freed records only shorten the way one can follow links. -/
theorem follow_of_sub {heap' : Heap BlockIndex}
    (hsub : ∀ p b, heap'.read p = some b → heap.read p = some b)
    (h : Heap.follow BlockIndex.prev heap' k p = some q) :
    Heap.follow BlockIndex.prev heap k p = some q := by
  induction k generalizing p with
  | zero => exact h
  | succ k ih =>
    rw [Heap.follow] at h
    cases hr : heap'.read p with
    | none => rw [hr] at h; cases h
    | some b =>
      rw [hr] at h
      dsimp only at h
      rw [Heap.follow, hsub p b hr]
      dsimp only
      cases hb : b.prev with
      | none => rw [hb] at h; cases h
      | some r => rw [hb] at h; exact ih h

/-- What the choice of the tip leaves for a header that attaches: the links hold, the parent is
there, and the abandoned blocks that are left share no chain with the parent. -/
structure Selected (db : HeadersDb) (a : Attached) (tip parent : BlockIndex) (pp : ℕ)
    (db1 : HeadersDb) (t : ℕ) : Prop where
  pending : Coherent.Pending db1 db.heap.fresh a.index
  shrunk : Shrunk (db.allocIndex a.index) db1
  links : LinksHold db1
  parent_read : db1.heap.read pp = some parent
  tip_eq : (tip.height < a.index.height ∧ t = db.heap.fresh) ∨
    (¬ tip.height < a.index.height ∧ t = db1.chaintip ∧ t = db.chaintip)
  abandoned : ∀ q b f, db.Abandoned a tip pp q → db1.heap.read q = some b → b.prev = some f →
    f ≠ genesis → ¬ db.Above pp f

namespace Attaching

variable {a : Attached} {h : FullHeader} {tip parent : BlockIndex} {pp : ℕ}
  {work : ArithUint256} {load : Bool}

variable {db1 : HeadersDb} {t : ℕ}

theorem selected (ha : Attaching pf db buf a h tip parent pp work)
    (hguard : NoOrphans pf db (.connect buf load))
    (hselect : (db.allocIndex a.index).selectTip db.heap.fresh a.index a.forkFromBlock =
      some (db1, true)) :
    ∃ db2 t, db1 = { db2 with chaintip := t } ∧ Selected db a tip parent pp db2 t := by
  have hc := ha.coherent
  have hp := ha.pending
  have hpr : (db.allocIndex a.index).heap.read pp = some parent :=
    Heap.read_alloc ha.attaches.parent_read a.index
  have htip : (db.allocIndex a.index).heap.read (db.allocIndex a.index).chaintip = some tip :=
    Heap.read_alloc ha.attaches.tip_read a.index
  obtain ⟨tip', htip', hcases⟩ := selectTip_eq_some hselect
  rw [htip] at htip'
  obtain rfl := Option.some.inj htip'
  rcases hcases with ⟨hfork, hhigh, hover, hre⟩ | ⟨hno, hhigh, rfl, -⟩ | ⟨hlow, rfl, -⟩
  · rcases reorganise_eq_some hre with ⟨-, -, hbad⟩ | ⟨ancestor, db2, hfound, hdis, rfl, -⟩
    · cases hbad
    have hd := hp.coherent.disconnectTo hdis
    have hr := ha.reorganised hguard ⟨hfork, hhigh, hover⟩ hfound hdis
    refine ⟨db2, db.heap.fresh, rfl, hp.disconnected hd, hd.shrunk, hr.links, hr.parent_read,
      Or.inl ⟨hhigh, rfl⟩, fun q b f hab hq hf hfg hpf => ?_⟩
    have hq0 := hd.shrunk.read q b hq
    have hqlt : q < db.heap.fresh := lt_of_le_of_lt (hc.chain_le hab.2.1) hc.tip_lt
    have hqd : db.heap.read q = some b :=
      (Heap.read_alloc_of_ne _ _ (Nat.ne_of_lt hqlt)).symm.trans hq0
    -- the chains share `f`, so the stop is on the new chain, and `q` below it
    have hstop := hr.shared f hfg (hab.2.1.trans (.single hqd hf)) hpf
    exact hab.2.2 (hstop.trans (hr.survivors q b hab.2.1 hq))
  · refine ⟨db.allocIndex a.index, db.heap.fresh, rfl, hp, Shrunk.refl _, ha.links_alloc, hpr,
      Or.inl ⟨hhigh, rfl⟩, fun q b f hab _ _ _ _ => hno hab.1⟩
  · refine ⟨db.allocIndex a.index, db.chaintip, rfl, hp, Shrunk.refl _, ha.links_alloc, hpr,
      Or.inr ⟨Nat.not_lt.mpr hlow, rfl, rfl⟩, fun q b f hab _ _ _ _ => ?_⟩
    have hhigh := hab.1.2.1
    omega

/-- Where trimming looks from the chosen tip, it would have looked before the call. -/
theorem follow_continuesFrom (ha : Attaching pf db buf a h tip parent pp work) {s : ℕ}
    (hs : Selected db a tip parent pp db1 t)
    (hfollow : Heap.follow BlockIndex.prev db1.heap (db1.maxHdrInMem + 1) t = some s) :
    Heap.follow BlockIndex.prev db.heap
      (if tip.height < a.index.height then db.maxHdrInMem else db.maxHdrInMem + 1)
      (db.continuesFrom a tip pp) = some s := by
  have hf0 : Heap.follow BlockIndex.prev (db.allocIndex a.index).heap (db.maxHdrInMem + 1) t =
    some s :=
    hs.shrunk.maxHdrInMem ▸ follow_of_sub hs.shrunk.read hfollow
  rcases hs.tip_eq with ⟨hhigh, hteq⟩ | ⟨hlow, -, hteq⟩
  · rw [if_pos hhigh, continuesFrom, if_pos hhigh]
    rw [hteq, Heap.follow, ha.pending.read] at hf0
    dsimp only at hf0
    rw [ha.prev_eq] at hf0
    exact follow_of_allocIndex ha.coherent ha.parent_lt hf0
  · rw [if_neg hlow, continuesFrom, if_neg hlow]
    rw [hteq] at hf0
    exact follow_of_allocIndex ha.coherent ha.coherent.tip_lt hf0

theorem continuesFrom_lt (ha : Attaching pf db buf a h tip parent pp work) :
    db.continuesFrom a tip pp < db.heap.fresh := by
  rw [continuesFrom]
  split
  · exact ha.parent_lt
  · exact ha.coherent.tip_lt

/-- A block other than the new one that is known once the header is entered was known before. -/
theorem known_of_enter {q : ℕ} {file : Option Bytes} (hs : Selected db a tip parent pp db1 t)
    (hq : q ≠ db.heap.fresh)
    (hk : ({ db1 with chaintip := t }.enter file db.heap.fresh a.index).Known q) : db.Known q := by
  rcases hk with hqt | ⟨hh, hf⟩
  · have hqt' : q = t := hqt
    rcases hs.tip_eq with ⟨-, hteq⟩ | ⟨-, -, hteq⟩
    · exact absurd (hqt'.trans hteq) hq
    · exact Or.inl (hqt'.trans hteq)
  · have hf' : (db1.treeRoot.insert a.index.hash db.heap.fresh).find hh = some q := hf
    rw [SearchTree.find_insert] at hf'
    have hun : db1.treeRoot.find a.index.hash = none := hs.pending.unknown
    split at hf'
    · rw [hun] at hf'
      exact absurd (Option.some.inj hf').symm hq
    · exact Or.inr ⟨hh, hs.shrunk.find hh q hf'⟩

/-- The links hold once the header is stored. -/
theorem links_storeHeader (ha : Attaching pf db buf a h tip parent pp work)
    (hguard : NoOrphans pf db (.connect buf load)) (hs : Selected db a tip parent pp db1 t)
    (hstore : storeHeader { db1 with chaintip := t } db.heap.fresh a.index load = some db') :
    LinksHold db' := by
  have hc := ha.coherent
  have ht : t = db.heap.fresh ∨ t = db1.chaintip := hs.tip_eq.imp (fun h => h.2) (fun h => h.2.1)
  have henter : ∀ file, LinksHold ({ db1 with chaintip := t }.enter file db.heap.fresh a.index) :=
    fun file => hs.links.enter hs.pending ha.prev_eq hs.parent_read ha.height_eq
      ha.prevBlock_eq ht file
  obtain ⟨file, -, ⟨-, rfl⟩ | ⟨hload, htrim⟩⟩ := storeHeader_eq_some hstore
  · exact henter file
  have hce := hs.pending.entered ht file
  rcases trim_eq_some htrim with ⟨rfl, -⟩ | ⟨s, f, sb, fb, hta, hsb, hsf, hfb, rfl⟩
  · exact henter file
  refine (henter file).cut hce hta hsb hfb fun q b hk hrq hqf => ?_
  obtain ⟨hmax, hfollow, hsg, -, hfg⟩ := hta
  have hfs := hce.down s sb f hsb hsf
  -- back to the database before the call
  have hold : ∀ {p : ℕ} {c : BlockIndex}, p < db.heap.fresh → db1.heap.read p = some c →
      db.heap.read p = some c := fun hlt hr =>
    (Heap.read_alloc_of_ne _ _ (Nat.ne_of_lt hlt)).symm.trans (hs.shrunk.read _ _ hr)
  have hbase := ha.follow_continuesFrom hs hfollow
  have hsbase := Heap.chain_of_follow hbase
  have hslt : s < db.heap.fresh := lt_of_le_of_lt (hc.chain_le hsbase) ha.continuesFrom_lt
  have hsdb := hold hslt hsb
  have htrimmed : db.TrimmedBy a tip pp load f :=
    ⟨hload, hs.shrunk.maxHdrInMem ▸ hmax, s, sb, hbase, hsg, hsdb, hsf, hfg⟩
  obtain ⟨hchild, hnew⟩ := hguard a h tip parent pp work ha.attaches f (Or.inr htrimmed)
  by_cases hqn : q = db.heap.fresh
  · -- the new header hangs on the freed block only if it became the tip, and then it does not
    subst hqn
    have hread : some a.index = some b := hs.pending.read.symm.trans hrq
    obtain rfl := Option.some.inj hread
    have hppf : pp = f := Option.some.inj (ha.prev_eq.symm.trans hqf)
    have hbase_eq : db.continuesFrom a tip pp = pp := if_pos (hnew hppf)
    rw [hbase_eq] at hsbase
    have hle := hc.chain_le hsbase
    omega
  · have hqlt : q < db.heap.fresh := by
      have hlt : q < db1.heap.fresh := Heap.lt_fresh hrq
      have heq : db1.heap.fresh = db.heap.fresh + 1 := hs.shrunk.fresh.trans (Heap.fresh_alloc _ _)
      omega
    have hqdb := hold hqlt hrq
    have hkq : db.Known q := known_of_enter hs hqn hk
    rcases hchild q b hkq hqdb hqf with hab | hq
    · refine absurd ?_ (hs.abandoned q b f hab hrq hqf hfg)
      have hbase_eq : db.continuesFrom a tip pp = pp := if_pos hab.1.2.1
      rw [hbase_eq] at hsbase
      exact hsbase.trans (.single hsdb hsf)
    · exact eq_of_same_prev hc hq hsbase hqdb hsdb hqf hsf

end Attaching

/-- Connecting a header that orphans nothing keeps the links. -/
theorem LinksHold.connectHdr (hl : LinksHold db) (hc : Coherent db) {load : Bool}
    {r : ConnectResult} (hguard : KeepsLinks pf db (.connect buf load))
    (h : HeadersDb.connectHdr pf db buf load = some r) : LinksHold r.db := by
  cases hconn : r.connected with
  | false =>
    obtain ⟨index, hdb⟩ := hc.connectHdr_rejected h hconn
    rw [hdb]
    exact hl.allocIndex hc index
  | true =>
    obtain ⟨a, db1, hattach, hselect, hstore⟩ := connectHdr_connected h hconn
    obtain ⟨hd, tip, parent, pp, work, hat⟩ := attachHeader_eq_ok hattach
    have ha : Attaching pf db buf a hd tip parent pp work :=
      ⟨hc, hl, hat, hguard.heightFits a hd tip parent pp work hat⟩
    obtain ⟨db2, t, rfl, hs⟩ := ha.selected hguard.noOrphans hselect
    exact ha.links_storeHeader hguard.noOrphans hs hstore

/-- Disconnecting a tip on which no side branch hangs keeps the links. -/
theorem LinksHold.disconnectTip (hl : LinksHold db) (hc : Coherent db)
    (hguard : NoOrphans pf db .disconnect) {b : Bool} (h : db.disconnectTip = some (db', b)) :
    LinksHold db' := by
  have hinit : FreedDown db db := ⟨⟨hc, Shrunk.refl db, Nat.le_refl _, fun _ _ => rfl,
    fun _ _ _ hf _ => hf⟩, fun p b hr => Or.inl hr, fun p h1 h2 h3 =>
    absurd (Nat.le_antisymm (hc.chain_le h1) (hc.chain_le h2)) h3⟩
  have hf := hinit.step hc h
  obtain ⟨tip, htip, ⟨-, rfl, -⟩ | ⟨prev, hprev, -, hdb⟩⟩ := disconnectTip_eq_some h
  · exact hl
  obtain ⟨c, hcr, -⟩ := hl.linked _ tip prev (Or.inl rfl) htip hprev
  have hlt := hc.down _ _ _ htip hprev
  have htip' : db'.heap.read db'.chaintip = some c := by
    rw [hdb]
    dsimp only
    rw [Heap.read_free_of_ne _ (by omega)]
    exact hcr
  refine hl.freedDown hc hf ⟨c, htip'⟩ fun p q b' h1 h2 h3 hk hr hp => ?_
  -- the only block freed is the tip
  have hchain : prev = db'.chaintip := by rw [hdb]
  rw [← hchain] at h2 h3
  have hpt : p = db.chaintip := by
    rcases h1.cases_link htip hprev with heq | h4
    · exact heq
    · exact absurd (Nat.le_antisymm (hc.chain_le h4) (hc.chain_le h2)) h3
  rw [hpt] at hp
  exact absurd hp (hguard tip prev htip hprev q b' hk hr)

/-! ## Runs -/

/-- The runs from a new database, with or without a checkpoint to start from. -/
def startedSystem (pf : Platform) : TransitionSystem HeadersDb DbOp where
  init := Started
  step := dbStep pf

theorem linksHold_started (h : Started db) : LinksHold db := by
  have hnew : ∀ (params : ChainParams) (inmemOnly : Bool) p b,
      (new params inmemOnly).heap.read p = some b → b.prev = none := by
    intro params inmemOnly p b hr
    have hlt : p < 1 := Heap.lt_fresh hr
    obtain rfl : p = 0 := by omega
    rw [← Option.some.inj hr]
    rfl
  have hl : ∀ params inmemOnly, LinksHold (new params inmemOnly) := by
    intro params inmemOnly
    refine ⟨fun p hk => ?_, fun p b q hk hr hq => ?_⟩
    · rcases hk with rfl | ⟨h, hf⟩
      · exact ⟨genesisIndex params, rfl⟩
      · cases hf
    · rw [hnew params inmemOnly p b hr] at hq
      cases hq
  cases h with
  | new params inmemOnly => exact hl params inmemOnly
  | checkpoint params inmemOnly hash height work =>
    have hknown : ∀ p, Known ((new params inmemOnly).setCheckpointStart hash height work) p →
      p = 1 := by
      rintro p (hp | ⟨h, hf⟩)
      · exact hp
      · have hf' : ((new params inmemOnly).treeRoot.insert hash 1).find h = some p := hf
        rw [SearchTree.find_insert] at hf'
        split at hf'
        · exact (Option.some.inj hf').symm
        · cases hf'
    refine ⟨fun p hk => ?_, fun p b q hk hr hq => ?_⟩
    · obtain rfl := hknown p hk
      exact ⟨_, rfl⟩
    · obtain rfl := hknown p hk
      rw [← Option.some.inj hr] at hq
      cases hq

/-- One step. -/
theorem linksHold_step {op : DbOp} (hc : Coherent db) (hl : LinksHold db)
    (hguard : KeepsLinks pf db op) (hs : (startedSystem pf).step db op = some db') : Coherent db' ∧
    LinksHold db' := by
  cases op with
  | connect buf load =>
    obtain ⟨r, hr, rfl⟩ := Option.map_eq_some_iff.mp hs
    exact ⟨hc.connectHdr hr, hl.connectHdr hc hguard hr⟩
  | disconnect =>
    obtain ⟨⟨db1, b⟩, hr, rfl⟩ := Option.map_eq_some_iff.mp hs
    exact ⟨hc.disconnectTip hr, hl.disconnectTip hc hguard.noOrphans hr⟩
  | setSkipPow on =>
    obtain rfl := Option.some.inj hs
    exact ⟨hc.of_eq rfl rfl rfl rfl, ⟨hl.allocated, hl.linked⟩⟩

theorem coherent_linksHold_of_reach (h : (startedSystem pf).Reach (KeepsLinks pf) db) :
    Coherent db ∧ LinksHold db := by
  refine TransitionSystem.Reach.invariant (P := fun db => Coherent db ∧ LinksHold db)
    (fun s hs => ⟨?_, linksHold_started hs⟩) (fun s op s' hcl hguard hs => ?_) h
  · exact coherent_of_reachable (.init (S := dbSystem pf) (.started hs))
  · exact linksHold_step hcl.1 hcl.2 hguard hs

/-- **The links of stored headers.** In every run whose operations free no block that still has a
side branch on it, and in which no height wraps, the links of the stored headers and of the tip hold
in every state. -/
theorem linksHold_of_reach (h : (startedSystem pf).Reach (KeepsLinks pf) db) : LinksHold db :=
  (coherent_linksHold_of_reach h).2

/-! ## A run with a reorganisation -/

/-- The addresses on the chain from `p` on, by the links that were followed. -/
def chainFrom (db : HeadersDb) (p : ℕ) : List ℕ :=
  (List.range (p + 1)).filterMap fun k => Heap.follow BlockIndex.prev db.heap k p

theorem Coherent.mem_chainFrom (hc : Coherent db) (habove : db.Above p q) : q ∈ db.chainFrom p := by
  have hfollow : ∃ k ≤ p, Heap.follow BlockIndex.prev db.heap k p = some q := by
    induction habove with
    | refl p => exact ⟨0, Nat.zero_le _, rfl⟩
    | @step p q r b hread hlink _ ih =>
      obtain ⟨k, hk, hfollow⟩ := ih
      refine ⟨k + 1, by have := hc.down p b q hread hlink; omega, ?_⟩
      rw [Heap.follow, hread]
      dsimp only
      rw [hlink]
      exact hfollow
  obtain ⟨k, hk, hfollow⟩ := hfollow
  exact List.mem_filterMap.mpr ⟨k, List.mem_range.mpr (by omega), hfollow⟩

theorem above_of_mem_chainFrom (h : q ∈ db.chainFrom p) : db.Above p q := by
  obtain ⟨k, -, hfollow⟩ := List.mem_filterMap.mp h
  exact Heap.chain_of_follow hfollow

/-- No block links to `p`. -/
def childless (db : HeadersDb) (p : ℕ) : Bool :=
  (List.range db.heap.fresh).all fun q => (db.heap.read q).all fun b => b.prev ≠ some p

theorem prev_ne_of_childless (h : db.childless p = true) (hr : db.heap.read q = some b) :
    b.prev ≠ some p := by
  have hq := List.all_eq_true.mp h q (List.mem_range.mpr (Heap.lt_fresh hr))
  rw [hr] at hq
  exact of_decide_eq_true hq

/-- What the operation frees has no links to it, nothing is trimmed, and no height wraps: a stronger
condition that is computed. -/
def freesChildless (pf : Platform) (db : HeadersDb) : DbOp → Bool
  | .connect buf _ =>
    (attachHeader pf db buf).all fun r =>
      match r with
      | .error _ => true
      | .ok a =>
        a.index.prev.all fun parentPtr =>
          (db.heap.read parentPtr).all (fun parent => parent.height + 1 < 2 ^ 32) &&
          (Heap.follow BlockIndex.prev db.heap db.maxHdrInMem parentPtr).isNone &&
          (Heap.follow BlockIndex.prev db.heap (db.maxHdrInMem + 1) db.chaintip).isNone &&
          (db.chainFrom db.chaintip).all fun p =>
            p ∈ db.chainFrom parentPtr || db.childless p
  | .disconnect => db.childless db.chaintip
  | .setSkipPow _ => true

theorem keepsLinks_of_freesChildless (hc : Coherent db) {op : DbOp}
    (h : freesChildless pf db op = true) :
    KeepsLinks pf db op := by
  cases op with
  | setSkipPow on => exact ⟨trivial, trivial⟩
  | disconnect => exact ⟨fun _ _ _ _ q b _ hr => prev_ne_of_childless h hr, trivial⟩
  | connect buf load =>
    have hattaches : ∀ a hd tip parent pp work, Attaches pf db buf a hd tip parent pp work →
        parent.height + 1 < 2 ^ 32 ∧ Heap.follow BlockIndex.prev db.heap db.maxHdrInMem pp = none ∧
          Heap.follow BlockIndex.prev db.heap (db.maxHdrInMem + 1) db.chaintip = none ∧
          ∀ p ∈ db.chainFrom db.chaintip, p ∈ db.chainFrom pp ∨ db.childless p = true := by
      intro a hd tip parent pp work ha
      have hprev : a.index.prev = some pp := by rw [ha.index_eq]
      rw [freesChildless, ha.attachHeader_eq, Option.all_some] at h
      dsimp only at h
      rw [hprev, Option.all_some, ha.parent_read, Option.all_some, Bool.and_eq_true,
        Bool.and_eq_true,
        Bool.and_eq_true, Option.isNone_iff_eq_none, Option.isNone_iff_eq_none,
          List.all_eq_true] at h
      obtain ⟨⟨⟨hheight, hparent⟩, htip⟩, hchain⟩ := h
      refine ⟨of_decide_eq_true hheight, hparent, htip, fun p hp => ?_⟩
      have hp' := hchain p hp
      rw [Bool.or_eq_true, decide_eq_true_eq] at hp'
      exact hp'
    constructor
    · intro a hd tip parent pp work ha p hp
      obtain ⟨-, hparent, htip, hchain⟩ := hattaches a hd tip parent pp work ha
      rcases hp with hab | ⟨-, -, s, sb, hfollow, -⟩
      · obtain ⟨-, habove, hnot⟩ := hab
        have hleaf := (hchain p (hc.mem_chainFrom habove)).resolve_left fun hmem =>
          hnot (above_of_mem_chainFrom hmem)
        refine ⟨fun q b _ hr hq => absurd hq (prev_ne_of_childless hleaf hr), ?_⟩
        rintro rfl
        exact absurd (.refl _) hnot
      · unfold continuesFrom at hfollow
        split at hfollow
        · rw [hparent] at hfollow
          cases hfollow
        · rw [htip] at hfollow
          cases hfollow
    · exact fun a hd tip parent pp work ha => (hattaches a hd tip parent pp work ha).1

/-- Blocks 1 and 2 on the genesis block, block 3 beside block 2, block 4 on block 3, which frees
block 2, and a call that frees block 4. -/
def reorgRun : List DbOp :=
  [.connect (lightHeader dogecoinChainparamsMain.genesisblockhash (hashNo 1)) false,
   .connect (lightHeader (hashNo 1) (hashNo 2)) false,
   .connect (lightHeader (hashNo 1) (hashNo 3)) false,
   .connect (lightHeader (hashNo 3) (hashNo 4)) false,
   .disconnect]

/-- The theorem on this run, behind which blocks 1 and 3 are stored. -/
theorem linksHold_of_reach_reorg :
    ∃ db, (startedSystem samplePlatform).run (new dogecoinChainparamsMain true) reorgRun = some db ∧
      (List.range 5).map (fun n => (db.find (hashNo n)).isSome) =
      [false, true, false, true, false] ∧
      LinksHold db := by
  have hrun : ((startedSystem samplePlatform).run (new dogecoinChainparamsMain true) reorgRun).any
    (fun db =>
      (List.range 5).map (fun n => (db.find (hashNo n)).isSome) =
        [false, true, false, true, false]) = true := by
    decide +kernel
  obtain ⟨db, hdb, hfind⟩ := (Option.any_eq_true _ _).mp hrun
  have hmeets : (startedSystem samplePlatform).Meets (fun db op =>
    freesChildless samplePlatform db op = true) (new dogecoinChainparamsMain true) reorgRun := by
    decide +kernel
  have hreach := TransitionSystem.Reach.of_run (.init (Started.new _ _)) hmeets hdb
  refine ⟨db, hdb, of_decide_eq_true hfind,
    linksHold_of_reach (hreach.invariant (fun db hinit => .init hinit) ?_)⟩
  intro db op db' hdb hfrees hstep
  have hc := (coherent_linksHold_of_reach hdb).1
  exact .step hdb (keepsLinks_of_freesChildless hc hfrees) hstep

/-! ## A side branch on a disconnected block -/

/-- Blocks 1 and 2 on the genesis block, block 3 beside block 2, and the active chain disconnected
down to the genesis block. -/
def orphanRun : List DbOp :=
  [.connect (lightHeader dogecoinChainparamsMain.genesisblockhash (hashNo 1)) false,
   .connect (lightHeader (hashNo 1) (hashNo 2)) false,
   .connect (lightHeader (hashNo 1) (hashNo 3)) false,
   .disconnect, .disconnect]

/-- Block 3 stays stored with a link to the freed block 1. -/
theorem not_linksHold_orphanRun :
    ¬ ∀ (pf : Platform) (db : HeadersDb), (startedSystem pf).Reachable db → LinksHold db := by
  intro hall
  have hrun : ((startedSystem samplePlatform).run (new dogecoinChainparamsMain true) orphanRun).any
      (fun db => (db.find (hashNo 3)).any fun p => (db.heap.read p).any fun b => b.prev.any fun q =>
        (db.heap.read q).isNone) = true := by
    decide +kernel
  obtain ⟨db, hdb, hprops⟩ := (Option.any_eq_true _ _).mp hrun
  obtain ⟨p, hp, hprops⟩ := (Option.any_eq_true _ _).mp hprops
  obtain ⟨b, hb, hprops⟩ := (Option.any_eq_true _ _).mp hprops
  obtain ⟨q, hq, hnone⟩ := (Option.any_eq_true _ _).mp hprops
  have hlinks := hall _ db (TransitionSystem.reachable_of_run (.new _ _) hdb)
  obtain ⟨c, hc, -⟩ := hlinks.linked p b q (Or.inr ⟨_, hp⟩) hb hq
  rw [hc] at hnone
  cases hnone

end HeadersDb

end Libdogecoin
