/-
# The coherence invariant of the headers database

`Coherent` says that links point to older addresses, that the tree binds a hash to the index that
carries it, and that the tip and whatever a stored index hangs on are stored too. It holds in every
database a run of the operations can reach, whatever the headers are.

* `Coherent.stored_of_chain` : every block below the tip is the genesis index or stored;
* `Coherent.connectHdr`, `Coherent.disconnectTip`, `Coherent.load` : the operations keep it;
* `coherent_of_reachable` : it holds throughout every run.
-/
import Libdogecoin.HeadersDbInvariant
import Libdogecoin.Transition

namespace Libdogecoin

namespace HeadersDb

variable {pf : Platform} {db db' : HeadersDb} {buf : Bytes}

/-- The tip, or an index in the tree. -/
def Known (db : HeadersDb) (p : ℕ) : Prop := p = db.chaintip ∨ ∃ h, db.find h = some p

/-- An address is the genesis index or is stored under the hash it carries. -/
def Stored (db : HeadersDb) (p : ℕ) (b : BlockIndex) : Prop := p = genesis ∨ db.find b.hash = some p

/-- The invariant of the headers database. -/
structure Coherent (db : HeadersDb) : Prop where
  /-- Links point to older addresses. -/
  down : ∀ p b q, db.heap.read p = some b → b.prev = some q → q < p
  /-- The genesis index is never freed. -/
  genesis_read : ∃ g, db.heap.read genesis = some g ∧ g.prev = none ∧ g.height = 0 ∧
    g.hash = db.params.genesisblockhash
  /-- The tip was allocated once. -/
  tip_lt : db.chaintip < db.heap.fresh
  /-- The tree binds a hash to an allocated index that carries it. -/
  keyed : ∀ h p, db.find h = some p → p ≠ genesis ∧ ∃ b, db.heap.read p = some b ∧ b.hash = h
  /-- The tip is stored. -/
  tip_stored : ∀ b, db.heap.read db.chaintip = some b → db.Stored db.chaintip b
  /-- What the tip or a stored index hangs on is stored. -/
  prev_stored : ∀ p b q c, db.Known p → db.heap.read p = some b → b.prev = some q →
    db.heap.read q = some c → db.Stored q c

namespace Coherent

variable {p bi t s f : ℕ} {b index sb fb : BlockIndex}

/-- Addresses only decrease along a chain. -/
theorem chain_le (hc : Coherent db) {q : ℕ} (h : Heap.Chain BlockIndex.prev db.heap p q) :
    q ≤ p := h.le hc.down

/-- Two hashes never share an address. -/
theorem hash_of_find (hc : Coherent db) {h : Uint256} (hf : db.find h = some p)
    (hr : db.heap.read p = some b) :
    b.hash = h := by
  obtain ⟨-, c, hcr, hch⟩ := hc.keyed h p hf
  rw [hr] at hcr
  obtain rfl := Option.some.inj hcr
  exact hch

/-- A known block is stored. -/
theorem stored_of_known (hc : Coherent db) (hk : db.Known p) (hr : db.heap.read p = some b) :
    db.Stored p b := by
  rcases hk with rfl | ⟨h, hf⟩
  · exact hc.tip_stored b hr
  · exact Or.inr (hc.hash_of_find hf hr ▸ hf)

/-- A stored block other than the genesis index is known. -/
theorem known_of_stored (hs : db.Stored p b) (hp : p ≠ genesis) :
    db.Known p :=
  Or.inr ⟨b.hash, hs.resolve_left hp⟩

/-- Every block on the chain of a known one is stored. -/
theorem stored_of_chain (hc : Coherent db) {q : ℕ} (hk : db.Known p)
    (hchain : Heap.Chain BlockIndex.prev db.heap p q) (hr : db.heap.read q = some b) :
    db.Stored q b := by
  induction hchain with
  | refl p => exact hc.stored_of_known hk hr
  | @step p q r a hread hlink hrest ih =>
    cases hq : db.heap.read q with
    | none =>
      cases hrest with
      | refl => rw [hq] at hr; cases hr
      | step hread' _ _ => rw [hq] at hread'; cases hread'
    | some c =>
      have hs := hc.prev_stored p a q c hk hread hlink hq
      by_cases hgen : q = genesis
      · subst hgen
        obtain ⟨g, hg, hgprev, -⟩ := hc.genesis_read
        have hend := hrest.eq_of_no_link hg hgprev
        exact Or.inl hend
      · exact ih (known_of_stored hs hgen) hr

/-- Known addresses are allocated ones. -/
theorem known_lt (hc : Coherent db) (hk : db.Known p) : p < db.heap.fresh := by
  rcases hk with rfl | ⟨h, hf⟩
  · exact hc.tip_lt
  · obtain ⟨-, b, hb, -⟩ := hc.keyed h p hf
    exact Heap.lt_fresh hb

/-! ## Keeping the invariant -/

/-- A fresh index that nothing leads to. -/
theorem allocIndex (hc : Coherent db) {index : BlockIndex}
    (hprev : ∀ q, index.prev = some q → q < db.heap.fresh) : Coherent (db.allocIndex index) := by
  have hold : ∀ {p : ℕ}, p < db.heap.fresh → (db.heap.alloc index).read p = db.heap.read p :=
    fun hp => Heap.read_alloc_of_ne _ _ (Nat.ne_of_lt hp)
  refine ⟨fun p b q hr hl => ?_, ?_, ?_, fun h p hf => ?_, fun b hr => ?_,
    fun p b q c hk hr hl hq => ?_⟩
  · by_cases hp : p = db.heap.fresh
    · subst hp
      rw [HeadersDb.allocIndex, Heap.read_alloc_self] at hr
      obtain rfl := Option.some.inj hr
      exact hprev q hl
    · rw [HeadersDb.allocIndex, Heap.read_alloc_of_ne _ _ hp] at hr
      exact hc.down p b q hr hl
  · obtain ⟨g, hg, hrest⟩ := hc.genesis_read
    exact ⟨g, Heap.read_alloc hg index, hrest⟩
  · have h := hc.tip_lt
    rw [HeadersDb.allocIndex, Heap.fresh_alloc]
    dsimp only
    omega
  · obtain ⟨hp, b, hb, hh⟩ := hc.keyed h p hf
    exact ⟨hp, b, Heap.read_alloc hb index, hh⟩
  · exact hc.tip_stored b (by rwa [HeadersDb.allocIndex, hold hc.tip_lt] at hr)
  · have hlt : p < db.heap.fresh := hc.known_lt hk
    rw [HeadersDb.allocIndex, hold hlt] at hr
    have hql := hc.down p b q hr hl
    rw [HeadersDb.allocIndex, hold (by omega)] at hq
    exact hc.prev_stored p b q c hk hr hl hq

/-- Disconnecting the tip. -/
theorem disconnectTip (hc : Coherent db) {b : Bool} (h : db.disconnectTip = some (db', b)) :
    Coherent db' := by
  obtain ⟨tip, htip, ⟨-, rfl, -⟩ | ⟨prev, hprev, -, rfl⟩⟩ := disconnectTip_eq_some h
  · exact hc
  have hprevlt : prev < db.chaintip := hc.down _ _ _ htip hprev
  have hread : ∀ {p : ℕ} {c : BlockIndex}, (db.heap.free db.chaintip).read p = some c →
      p ≠ db.chaintip ∧ db.heap.read p = some c := by
    intro p c hr
    by_cases hp : p = db.chaintip
    · subst hp
      rw [Heap.read_free_self] at hr
      cases hr
    · exact ⟨hp, by rwa [Heap.read_free_of_ne _ hp] at hr⟩
  -- only the tip carries the erased hash
  have hkeep : ∀ {p : ℕ} {c : BlockIndex}, p ≠ db.chaintip → db.heap.read p = some c →
      db.Stored p c → p = genesis ∨ (db.treeRoot.erase tip.hash).find c.hash = some p := by
    rintro p c hp hr (hgen | hf)
    · exact Or.inl hgen
    · refine Or.inr ?_
      rw [SearchTree.find_erase, if_neg ?_]
      · exact hf
      · intro hh
        have htf : db.Stored db.chaintip tip := hc.tip_stored tip htip
        rcases htf with hgen | htf
        · have h0 : db.chaintip = 0 := hgen
          omega
        · rw [hh, htf] at hf
          exact hp (Option.some.inj hf).symm
  refine ⟨fun p c q hr hl => hc.down p c q (hread hr).2 hl, ?_, ?_, fun h p hf => ?_,
    fun c hr => ?_, fun p c q d hk hr hl hq => ?_⟩
  · obtain ⟨g, hg, hrest⟩ := hc.genesis_read
    have hne : genesis ≠ db.chaintip := by
      have : genesis = 0 := rfl
      omega
    exact ⟨g, by rw [Heap.read_free_of_ne _ hne]; exact hg, hrest⟩
  · have := hc.tip_lt
    rw [Heap.fresh_free]
    dsimp only
    omega
  · obtain ⟨hne, hf⟩ := find_erase_eq_some hf
    obtain ⟨hp, c, hcr, hch⟩ := hc.keyed h p hf
    have hpt : p ≠ db.chaintip := by
      rintro rfl
      rw [htip] at hcr
      obtain rfl := Option.some.inj hcr
      exact hne hch.symm
    exact ⟨hp, c, by rw [Heap.read_free_of_ne _ hpt]; exact hcr, hch⟩
  · obtain ⟨hne, hr⟩ := hread hr
    exact hkeep hne hr (hc.prev_stored _ tip prev c (Or.inl rfl) htip hprev hr)
  · obtain ⟨hne, hrp⟩ := hread hr
    obtain ⟨hqne, hrq⟩ := hread hq
    have hkp : db.Stored q d := by
      rcases hk with hpt | ⟨h, hf⟩
      · have hpt' : p = prev := hpt
        rw [hpt'] at hrp
        by_cases hgen : prev = genesis
        · obtain ⟨g, hg, hgprev, -⟩ := hc.genesis_read
          rw [hgen, hg] at hrp
          obtain rfl := Option.some.inj hrp
          rw [hgprev] at hl
          cases hl
        · have hs := hc.prev_stored _ tip prev c (Or.inl rfl) htip hprev hrp
          exact hc.prev_stored prev c q d (known_of_stored hs hgen) hrp hl hrq
      · exact hc.prev_stored p c q d (Or.inr ⟨h, (find_erase_eq_some hf).2⟩) hrp hl hrq
    exact hkeep hqne hrq hkp

/-- What the disconnect loop leaves alone: indices above the tip it started from, and the tree
entries of indices it does not free. -/
structure Disconnected (db db' : HeadersDb) : Prop where
  coherent : Coherent db'
  shrunk : Shrunk db db'
  tip_le : db'.chaintip ≤ db.chaintip
  above : ∀ p, db.chaintip < p → db'.heap.read p = db.heap.read p
  keeps : ∀ h p c, db.find h = some p → db'.heap.read p = some c → db'.find h = some p

theorem Disconnected.step {db1 db2 : HeadersDb} {b : Bool} (hd : Disconnected db db1)
    (hdis : db1.disconnectTip = some (db2, b)) : Disconnected db db2 := by
  have hc1 := hd.coherent
  obtain ⟨tip, htip, ⟨-, rfl, -⟩ | ⟨prev, hprev, -, hdb2⟩⟩ := disconnectTip_eq_some hdis
  · exact hd
  have hlt : prev < db1.chaintip := hc1.down _ _ _ htip hprev
  have hle := hd.tip_le
  refine ⟨hc1.disconnectTip hdis, hd.shrunk.trans (shrunk_disconnectTip hdis), ?_, fun p hp => ?_,
    fun h p c hf hr => ?_⟩
  · rw [hdb2]
    dsimp only
    omega
  · rw [hdb2]
    dsimp only
    rw [Heap.read_free_of_ne _ (by omega), hd.above p hp]
  · rw [hdb2] at hr ⊢
    by_cases hp : p = db1.chaintip
    · subst hp
      dsimp only at hr
      rw [Heap.read_free_self] at hr
      cases hr
    · dsimp only at hr
      rw [Heap.read_free_of_ne _ hp] at hr
      have hf1 := hd.keeps h p c hf hr
      have hne : h ≠ tip.hash := by
        rintro rfl
        rcases hc1.tip_stored tip htip with hgen | htf
        · have h0 : db1.chaintip = 0 := hgen
          omega
        · rw [htf] at hf1
          exact hp (Option.some.inj hf1).symm
      rw [HeadersDb.find, SearchTree.find_erase, if_neg hne]
      exact hf1

/-- The disconnect loop. -/
theorem disconnectTo (hc : Coherent db) {ancestor fuel : ℕ}
    (h : HeadersDb.disconnectTo ancestor fuel db = some db') : Disconnected db db' :=
  disconnectTo_induction (fun _ _ _ hd hdis => hd.step hdis)
    ⟨hc, Shrunk.refl db, Nat.le_refl _, fun _ _ => rfl, fun _ _ _ hf _ => hf⟩ h

/-- Entering an attached index into the tree, with or without making it the tip. -/
theorem enter (hc : Coherent db) {file : Option Bytes} (hread : db.heap.read bi = some index)
    (hbi : bi ≠ genesis) (hunknown : db.find index.hash = none)
    (hprev : ∀ q c, index.prev = some q → db.heap.read q = some c → db.Stored q c)
    (ht : t = bi ∨ t = db.chaintip) : Coherent ({ db with chaintip := t }.enter file bi index) := by
  have hne : ∀ {h : Uint256} {p : ℕ}, db.find h = some p → h ≠ index.hash := by
    rintro h p hf rfl
    rw [hunknown] at hf
    cases hf
  have hkeep : ∀ {p : ℕ} {c : BlockIndex}, db.Stored p c →
      Stored ({ db with chaintip := t }.enter file bi index) p c := by
    rintro p c (hgen | hf)
    · exact Or.inl hgen
    · exact Or.inr ((SearchTree.find_insert_of_ne _ (hne hf) _).trans hf)
  have hself : Stored ({ db with chaintip := t }.enter file bi index) bi index :=
    Or.inr (SearchTree.find_insert_self hunknown bi)
  refine ⟨hc.down, hc.genesis_read, ?_, fun h p hf => ?_, fun b hr => ?_,
    fun p b q c hk hr hl hq => ?_⟩
  · rcases ht with rfl | rfl
    · exact Heap.lt_fresh hread
    · exact hc.tip_lt
  · by_cases hh : h = index.hash
    · subst hh
      have hp : p = bi := by
        have hf' : (db.treeRoot.insert index.hash bi).find index.hash = some p := hf
        rw [SearchTree.find_insert_self hunknown] at hf'
        exact (Option.some.inj hf').symm
      subst hp
      exact ⟨hbi, index, hread, rfl⟩
    · have hf' : (db.treeRoot.insert index.hash bi).find h = some p := hf
      rw [SearchTree.find_insert_of_ne _ hh] at hf'
      exact hc.keyed h p hf'
  · have hr' : db.heap.read t = some b := hr
    rcases ht with rfl | rfl
    · rw [hread] at hr'
      obtain rfl := Option.some.inj hr'
      exact hself
    · exact hkeep (hc.tip_stored b hr')
  · have hr' : db.heap.read p = some b := hr
    have hq' : db.heap.read q = some c := hq
    by_cases hp : p = bi
    · subst hp
      rw [hread] at hr'
      obtain rfl := Option.some.inj hr'
      exact hkeep (hprev q c hl hq')
    · have hkold : db.Known p := by
        rcases hk with hpt | ⟨h, hf⟩
        · have hpt' : p = t := hpt
          rcases ht with rfl | rfl
          · exact absurd hpt' hp
          · exact Or.inl hpt'
        · have hf' : (db.treeRoot.insert index.hash bi).find h = some p := hf
          by_cases hh : h = index.hash
          · subst hh
            rw [SearchTree.find_insert_self hunknown] at hf'
            exact absurd (Option.some.inj hf').symm hp
          · rw [SearchTree.find_insert_of_ne _ hh] at hf'
            exact Or.inr ⟨h, hf'⟩
      exact hkeep (hc.prev_stored p b q c hkold hr' hl hq')

/-- The block below a cut is a stored one on the chain of the tip. -/
theorem of_trimsAt (hc : Coherent db) (ht : db.TrimsAt s f) :
    Heap.Chain BlockIndex.prev db.heap db.chaintip s ∧
      Heap.Chain BlockIndex.prev db.heap db.chaintip f ∧ f < s ∧ s ≤ db.chaintip := by
  obtain ⟨-, hfollow, -, ⟨sb, hsb, hf⟩, -⟩ := ht
  have hchain := Heap.chain_of_follow hfollow
  exact ⟨hchain, hchain.trans (.single hsb hf), hc.down s sb f hsb hf, hc.chain_le hchain⟩

/-- A read after a cut: the freed block is gone, and the block above it lost its link. -/
theorem read_cut {s f p : ℕ} {sb fb b : BlockIndex} (hs : db.heap.read s = some sb) (hfs : f < s)
    (hr : (db.cut s f sb fb).heap.read p = some b) :
    p ≠ f ∧ ((p = s ∧ b = { sb with prev := none }) ∨ (p ≠ s ∧ db.heap.read p = some b)) := by
  have hr' : ((db.heap.free f).write s { sb with prev := none }).read p = some b := hr
  by_cases hps : p = s
  · subst hps
    have hlt : p < (db.heap.free f).fresh := by
      rw [Heap.fresh_free]
      exact Heap.lt_fresh hs
    rw [Heap.read_write_self hlt] at hr'
    exact ⟨by omega, Or.inl ⟨rfl, (Option.some.inj hr').symm⟩⟩
  · rw [Heap.read_write_of_ne _ _ hps] at hr'
    by_cases hpf : p = f
    · subst hpf
      rw [Heap.read_free_self] at hr'
      cases hr'
    · rw [Heap.read_free_of_ne _ hpf] at hr'
      exact ⟨hpf, Or.inr ⟨hps, hr'⟩⟩

/-- Every other block survives a cut. -/
theorem read_cut_of_ne (hpf : p ≠ f) (hps : p ≠ s) :
    (db.cut s f sb fb).heap.read p = db.heap.read p := by
  rw [cut]
  dsimp only
  rw [Heap.read_write_of_ne _ _ hps, Heap.read_free_of_ne _ hpf]

/-- The block above a cut survives it without its link. -/
theorem read_cut_self (hs : db.heap.read s = some sb) :
    (db.cut s f sb fb).heap.read s = some { sb with prev := none } := by
  have hlt : s < (db.heap.free f).fresh := by
    rw [Heap.fresh_free]
    exact Heap.lt_fresh hs
  exact Heap.read_write_self hlt _

/-- Trimming. -/
theorem cut (hc : Coherent db) (ht : db.TrimsAt s f) (hs : db.heap.read s = some sb)
    (hf : db.heap.read f = some fb) : Coherent (db.cut s f sb fb) := by
  obtain ⟨hchains, hchainf, hfs, hstip⟩ := hc.of_trimsAt ht
  have hfg : f ≠ genesis := ht.2.2.2.2
  have hff : db.find fb.hash = some f :=
    (hc.stored_of_chain (Or.inl rfl) hchainf hf).resolve_left hfg
  -- what survived can be read back without the lost link
  have hback : ∀ {p : ℕ} {b : BlockIndex}, (db.cut s f sb fb).heap.read p = some b →
      p ≠ f ∧ ∃ b0, db.heap.read p = some b0 ∧ b0.hash = b.hash ∧ b0.height = b.height ∧
        (∀ q, b.prev = some q → b0.prev = some q) := by
    intro p b hr
    obtain ⟨hpf, ⟨rfl, rfl⟩ | ⟨-, hr⟩⟩ := read_cut hs hfs hr
    · exact ⟨hpf, sb, hs, rfl, rfl, fun q hq => by cases hq⟩
    · exact ⟨hpf, b, hr, rfl, rfl, fun q hq => hq⟩
  have hkeep : ∀ {p : ℕ} {b b0 : BlockIndex}, p ≠ f → b0.hash = b.hash → db.Stored p b0 →
      Stored (db.cut s f sb fb) p b := by
    rintro p b b0 hpf hh (hgen | hfind)
    · exact Or.inl hgen
    · refine Or.inr ?_
      rw [← hh, HeadersDb.find, HeadersDb.cut]
      dsimp only
      rw [SearchTree.find_erase, if_neg ?_]
      · exact hfind
      · intro heq
        rw [heq, hff] at hfind
        exact hpf (Option.some.inj hfind).symm
  refine ⟨fun p b q hr hl => ?_, ?_, ?_, fun h p hfind => ?_, fun b hr => ?_,
    fun p b q c hk hr hl hq => ?_⟩
  · obtain ⟨-, b0, hr0, -, -, hprev⟩ := hback hr
    exact hc.down p b0 q hr0 (hprev q hl)
  · obtain ⟨g, hg, hrest⟩ := hc.genesis_read
    have hsg : genesis ≠ s := fun h => ht.2.2.1 h.symm
    exact ⟨g, by rw [read_cut_of_ne (Ne.symm hfg) hsg]; exact hg, hrest⟩
  · have := hc.tip_lt
    rw [HeadersDb.cut]
    dsimp only
    rwa [Heap.fresh_write, Heap.fresh_free]
  · obtain ⟨hne, hfind⟩ := find_erase_eq_some hfind
    obtain ⟨hp, b, hb, hh⟩ := hc.keyed h p hfind
    have hpf : p ≠ f := by
      rintro rfl
      rw [hf] at hb
      obtain rfl := Option.some.inj hb
      exact hne hh.symm
    by_cases hps : p = s
    · subst hps
      rw [hs] at hb
      obtain rfl := Option.some.inj hb
      exact ⟨hp, _, read_cut_self hs, hh⟩
    · exact ⟨hp, b, by rw [read_cut_of_ne hpf hps]; exact hb, hh⟩
  · obtain ⟨hpf, b0, hr0, hh, -⟩ := hback hr
    exact hkeep hpf hh (hc.tip_stored b0 hr0)
  · obtain ⟨hpf, b0, hr0, -, -, hprev⟩ := hback hr
    obtain ⟨hqf, c0, hq0, hqh, -⟩ := hback hq
    have hkold : db.Known p := by
      rcases hk with hpt | ⟨h, hfind⟩
      · exact Or.inl hpt
      · exact Or.inr ⟨h, (find_erase_eq_some hfind).2⟩
    exact hkeep hqf hqh (hc.prev_stored p b0 q c0 hkold hr0 (hprev q hl) hq0)

theorem trim (hc : Coherent db) (h : db.trim = some db') : Coherent db' := by
  rcases trim_eq_some h with ⟨rfl, -⟩ | ⟨s, f, sb, fb, ht, hs, -, hf, rfl⟩
  · exact hc
  · exact hc.cut ht hs hf

/-- The parent a header attaches to is stored. -/
theorem parent_stored (hc : Coherent db) {a : Attached} {h : FullHeader} {tip parent : BlockIndex}
    {parentPtr : ℕ} {work : ArithUint256} (ha : Attaches pf db buf a h tip parent parentPtr work) :
    db.Stored parentPtr parent := by
  refine hc.stored_of_known ?_ ha.parent_read
  rcases connectAt_eq_some ha.connectAt_eq with ⟨-, -, hp⟩ | ⟨-, -, hf⟩
  · exact Or.inl hp
  · exact Or.inr ⟨_, hf⟩

/-- An attached header in its heap, before the tip is chosen: the index is allocated, unknown to
the tree, and hangs on a stored parent. -/
structure Pending (db : HeadersDb) (bi : ℕ) (index : BlockIndex) : Prop where
  coherent : Coherent db
  read : db.heap.read bi = some index
  tip_lt : db.chaintip < bi
  unknown : db.find index.hash = none
  prev : ∀ q c, index.prev = some q → db.heap.read q = some c → db.Stored q c

theorem pending_of_attaches (hc : Coherent db) {a : Attached} {h : FullHeader}
    {tip parent : BlockIndex} {pp : ℕ} {work : ArithUint256}
    (ha : Attaches pf db buf a h tip parent pp work) :
    Pending (db.allocIndex a.index) db.heap.fresh a.index := by
  have hprev : a.index.prev = some pp := by rw [ha.index_eq]
  have hpplt : pp < db.heap.fresh := Heap.lt_fresh ha.parent_read
  refine ⟨hc.allocIndex fun q hq => ?_, Heap.read_alloc_self _ _, hc.tip_lt, ?_,
    fun q c hq hr => ?_⟩
  · rw [hprev] at hq
    exact Option.some.inj hq ▸ hpplt
  · rw [ha.index_eq]
    exact ha.unknown
  · rw [hprev] at hq
    obtain rfl := Option.some.inj hq
    rw [HeadersDb.allocIndex, Heap.read_alloc ha.parent_read] at hr
    obtain rfl := Option.some.inj hr
    exact hc.parent_stored ha

/-- A pending header stays pending while the old chain is disconnected. -/
theorem Pending.disconnected (hp : Pending db bi index) (hd : Disconnected db db') :
    Pending db' bi index := by
  refine ⟨hd.coherent, (hd.above bi hp.tip_lt).trans hp.read,
    lt_of_le_of_lt hd.tip_le hp.tip_lt, ?_, fun q c hq hr => ?_⟩
  · cases hf : db'.find index.hash with
    | none => rfl
    | some p =>
      have hold := hd.shrunk.find _ _ hf
      rw [hp.unknown] at hold
      cases hold
  · exact (hp.prev q c hq (hd.shrunk.read q c hr)).imp_right fun hf => hd.keeps _ _ _ hf hr

/-- After the choice of the tip the header is still pending, and the tip is the header or the tip
of before. -/
theorem Pending.selectTip {fork goesOn : Bool} (hp : Pending db bi index)
    (h : HeadersDb.selectTip db bi index fork = some (db', goesOn)) :
    ∃ db1 t, Pending db1 bi index ∧ Disconnected db db1 ∧ db' = { db1 with chaintip := t } ∧
      (t = bi ∨ t = db1.chaintip) ∧ (goesOn = false → db' = db) := by
  have hself : Disconnected db db :=
    ⟨hp.coherent, Shrunk.refl db, Nat.le_refl _, fun _ _ => rfl, fun _ _ _ hf _ => hf⟩
  obtain ⟨tip, -, ⟨-, -, -, hre⟩ | ⟨-, -, rfl, rfl⟩ | ⟨-, rfl, rfl⟩⟩ := selectTip_eq_some h
  · rcases reorganise_eq_some hre with ⟨-, rfl, rfl⟩ | ⟨ancestor, db1, -, hdis, rfl, rfl⟩
    · exact ⟨db', db'.chaintip, hp, hself, rfl, Or.inr rfl, fun _ => rfl⟩
    · have hd := hp.coherent.disconnectTo hdis
      exact ⟨db1, bi, hp.disconnected hd, hd, rfl, Or.inl rfl, fun h => by cases h⟩
  · exact ⟨db, bi, hp, hself, rfl, Or.inl rfl, fun h => by cases h⟩
  · exact ⟨db', db'.chaintip, hp, hself, rfl, Or.inr rfl, fun h => by cases h⟩

/-- A pending header is entered. -/
theorem Pending.entered (hp : Pending db bi index) (ht : t = bi ∨ t = db.chaintip)
    (file : Option Bytes) :
    Coherent ({ db with chaintip := t }.enter file bi index) :=
  hp.coherent.enter hp.read (Nat.ne_of_gt (Nat.zero_lt_of_lt hp.tip_lt)) hp.unknown hp.prev ht

/-- A pending header is stored. -/
theorem Pending.storeHeader {load : Bool} (hp : Pending db bi index) (ht : t = bi ∨ t = db.chaintip)
    (h : HeadersDb.storeHeader { db with chaintip := t } bi index load = some db') :
    Coherent db' := by
  obtain ⟨file, -, ⟨-, rfl⟩ | ⟨-, htrim⟩⟩ := storeHeader_eq_some h
  · exact hp.entered ht file
  · exact (hp.entered ht file).trim htrim

/-- **Connecting a header** keeps the invariant. -/
theorem connectHdr (hc : Coherent db) {load : Bool} {r : ConnectResult}
    (h : HeadersDb.connectHdr pf db buf load = some r) : Coherent r.db := by
  obtain ⟨-, ⟨index, hattach, -, hdb⟩ | ⟨a, hattach, -, hrest⟩⟩ := connectHdr_eq_some h
  · rw [hdb]
    exact hc.allocIndex fun q hq => by rw [attachHeader_eq_error hattach] at hq; cases hq
  obtain ⟨hd, tip, parent, pp, work, ha⟩ := attachHeader_eq_ok hattach
  have hp := hc.pending_of_attaches ha
  rcases hrest with ⟨-, hselect⟩ | ⟨-, db1, hselect, hstore⟩
  · obtain ⟨db2, t, -, -, -, -, hsame⟩ := hp.selectTip hselect
    rw [hsame rfl]
    exact hp.coherent
  · obtain ⟨db2, t, hp2, -, rfl, ht, -⟩ := hp.selectTip hselect
    exact hp2.storeHeader ht hstore

/-! ## Starting and loading -/

/-- The invariant only speaks about parameters, heap, tree and tip. -/
theorem of_eq (hc : Coherent db) (hparams : db'.params = db.params) (hheap : db'.heap = db.heap)
    (htree : db'.treeRoot = db.treeRoot) (htip : db'.chaintip = db.chaintip) : Coherent db' := by
  cases db
  cases db'
  dsimp only at hparams hheap htree htip
  subst hparams hheap htree htip
  exact ⟨hc.down, hc.genesis_read, hc.tip_lt, hc.keyed, hc.tip_stored, hc.prev_stored⟩

/-- A fresh index without a link, entered under an unknown hash and made the tip. -/
theorem plant (hc : Coherent db) (hprev : index.prev = none) (hunknown : db.find index.hash = none)
    (file : Option Bytes) :
    Coherent ({ db.allocIndex index with chaintip := db.heap.fresh }.enter file
      db.heap.fresh index) := by
  have hca : Coherent (db.allocIndex index) := hc.allocIndex fun q hq => by
    rw [hprev] at hq
    cases hq
  have hbi : db.heap.fresh ≠ genesis := Nat.ne_of_gt (Nat.zero_lt_of_lt hc.tip_lt)
  exact hca.enter (Heap.read_alloc_self _ _) hbi hunknown
    (fun q c hq => by rw [hprev] at hq; cases hq) (Or.inl rfl)

/-- Freeing an index that nothing leads to. -/
theorem free (hc : Coherent db) (hp : p ≠ genesis) (hunknown : ¬ db.Known p) :
    Coherent { db with heap := db.heap.free p } := by
  have hread : ∀ {q : ℕ} {b : BlockIndex}, (db.heap.free p).read q = some b →
    db.heap.read q = some b := by
    intro q b hr
    by_cases hq : q = p
    · subst hq
      rw [Heap.read_free_self] at hr
      cases hr
    · rwa [Heap.read_free_of_ne _ hq] at hr
  refine ⟨fun q b r hr hl => hc.down q b r (hread hr) hl, ?_, ?_, fun h q hf => ?_,
    fun b hr => hc.tip_stored b (hread hr),
    fun q b r c hk hr hl hc' => hc.prev_stored q b r c hk (hread hr) hl (hread hc')⟩
  · obtain ⟨g, hg, hrest⟩ := hc.genesis_read
    exact ⟨g, by rw [Heap.read_free_of_ne _ (Ne.symm hp)]; exact hg, hrest⟩
  · rw [Heap.fresh_free]
    exact hc.tip_lt
  · obtain ⟨hq, b, hb, hh⟩ := hc.keyed h q hf
    have hqp : q ≠ p := by
      rintro rfl
      exact hunknown (Or.inr ⟨h, hf⟩)
    exact ⟨hq, b, by rw [Heap.read_free_of_ne _ hqp]; exact hb, hh⟩

/-- Setting the chainwork of the tip. -/
theorem setTipChainwork (hc : Coherent db) {w : ArithUint256}
    (h : HeadersDb.setTipChainwork db w = some db') : Coherent db' := by
  rw [HeadersDb.setTipChainwork, Option.bind_eq_bind, Option.bind_eq_some_iff] at h
  obtain ⟨tip, htip, h⟩ := h
  obtain rfl := Option.some.inj h
  have hself : (db.heap.write db.chaintip { tip with chainwork := w }).read db.chaintip =
      some { tip with chainwork := w } := Heap.read_write_self hc.tip_lt _
  have hread : ∀ {p : ℕ} {b : BlockIndex},
      (db.heap.write db.chaintip { tip with chainwork := w }).read p = some b →
      ∃ b0, db.heap.read p = some b0 ∧ b0.hash = b.hash ∧ b0.prev = b.prev := by
    intro p b hr
    by_cases hp : p = db.chaintip
    · subst hp
      rw [hself] at hr
      obtain rfl := Option.some.inj hr
      exact ⟨tip, htip, rfl, rfl⟩
    · rw [Heap.read_write_of_ne _ _ hp] at hr
      exact ⟨b, hr, rfl, rfl⟩
  have hforth : ∀ {p : ℕ} {b0 : BlockIndex}, db.heap.read p = some b0 →
      ∃ b, (db.heap.write db.chaintip { tip with chainwork := w }).read p = some b ∧
        b.hash = b0.hash ∧ b.prev = b0.prev ∧ b.height = b0.height := by
    intro p b0 hr
    by_cases hp : p = db.chaintip
    · subst hp
      rw [htip] at hr
      obtain rfl := Option.some.inj hr
      exact ⟨_, hself, rfl, rfl, rfl⟩
    · exact ⟨b0, by rw [Heap.read_write_of_ne _ _ hp]; exact hr, rfl, rfl, rfl⟩
  refine ⟨fun p b q hr hl => ?_, ?_, ?_, fun h p hf => ?_, fun b hr => ?_,
    fun p b q c hk hr hl hq => ?_⟩
  · obtain ⟨b0, hr0, -, hp0⟩ := hread hr
    exact hc.down p b0 q hr0 (hp0.trans hl)
  · obtain ⟨g, hg, hgprev, hgh, hghash⟩ := hc.genesis_read
    obtain ⟨g', hg', hh, hp, hht⟩ := hforth hg
    exact ⟨g', hg', hp.trans hgprev, hht.trans hgh, hh.trans hghash⟩
  · rw [Heap.fresh_write]
    exact hc.tip_lt
  · obtain ⟨hp, b, hb, hh⟩ := hc.keyed h p hf
    obtain ⟨b', hb', hh', -, -⟩ := hforth hb
    exact ⟨hp, b', hb', hh'.trans hh⟩
  · obtain ⟨b0, hr0, hh, -⟩ := hread hr
    exact (hc.tip_stored b0 hr0).imp_right fun hf => hh ▸ hf
  · obtain ⟨b0, hr0, -, hp0⟩ := hread hr
    obtain ⟨c0, hc0, hh, -⟩ := hread hq
    exact (hc.prev_stored p b0 q c0 hk hr0 (hp0.trans hl) hc0).imp_right fun hf => hh ▸ hf

/-- A call that does not connect leaves the database with one more index that nothing leads to. -/
theorem connectHdr_rejected (hc : Coherent db) {load : Bool} {r : ConnectResult}
    (h : HeadersDb.connectHdr pf db buf load = some r) (hr : r.connected = false) :
    ∃ index, r.db = db.allocIndex index := by
  obtain ⟨-, ⟨index, -, -, hdb⟩ | ⟨a, hattach, -, hrest⟩⟩ := connectHdr_eq_some h
  · exact ⟨index, hdb⟩
  obtain ⟨hd, tip, parent, pp, work, ha⟩ := attachHeader_eq_ok hattach
  rcases hrest with ⟨-, hselect⟩ | ⟨hconn, -⟩
  · obtain ⟨_, _, -, -, -, -, hsame⟩ := (hc.pending_of_attaches ha).selectTip hselect
    exact ⟨a.index, hsame rfl⟩
  · rw [hr] at hconn
    cases hconn

/-- One record of the file behind the first. -/
theorem loadNext (hc : Coherent db) (h : HeadersDb.loadNext pf db buf = some db') :
    Coherent db' := by
  rw [HeadersDb.loadNext, Option.bind_eq_bind, Option.bind_eq_some_iff] at h
  obtain ⟨r, hr, h⟩ := h
  obtain rfl := Option.some.inj h
  have hcr := hc.connectHdr hr
  cases hconn : r.connected with
  | true => simpa using hcr
  | false =>
    obtain ⟨index, hdb⟩ := hc.connectHdr_rejected hr hconn
    have hbi : r.blockindex = db.heap.fresh := (connectHdr_eq_some hr).1
    rw [if_neg Bool.false_ne_true]
    refine hcr.free ?_ ?_
    · rw [hbi]
      exact Nat.ne_of_gt (Nat.zero_lt_of_lt hc.tip_lt)
    · rw [hbi, hdb]
      intro hk
      exact Nat.lt_irrefl _ (hc.known_lt hk)

/-- One record of the file; before the first one the tree is empty. -/
theorem loadRecord (hc : Coherent db) {first : Bool} {rec : Bytes}
    (hempty : first = true → ∀ h, db.find h = none)
    (hrec : HeadersDb.loadRecord pf db first rec = some db') : Coherent db' := by
  simp only [HeadersDb.loadRecord, Option.bind_eq_bind, Option.bind_eq_some_iff] at hrec
  obtain ⟨⟨hash, rest1⟩, -, ⟨height, rest2⟩, -, ⟨work, rest3⟩, -, db2, hload, hset⟩ := hrec
  refine setTipChainwork ?_ hset
  cases first with
  | false => exact hc.loadNext hload
  | true =>
    rw [if_pos rfl, loadFirst, Option.bind_eq_bind, Option.bind_eq_some_iff] at hload
    obtain ⟨⟨hd, w, rest4⟩, -, hload⟩ := hload
    obtain rfl := Option.some.inj hload
    exact (hc.plant rfl (hempty rfl _) db.headersTreeFile).of_eq rfl rfl rfl rfl

/-- **The records of a file**, read one by one into a database whose tree is still empty. -/
theorem loadRecords_induction {P : HeadersDb → Prop}
    (hrecord : ∀ (db db' : HeadersDb) (first : Bool) (rec : Bytes), Coherent db → P db →
      HeadersDb.loadRecord pf db first rec = some db' → P db')
    {n : ℕ} {first : Bool} {file : Bytes} (hc : Coherent db) (hP : P db)
    (hempty : first = true → ∀ h, db.find h = none)
    (h : HeadersDb.loadRecords pf n first file db = some db') : Coherent db' ∧ P db' := by
  induction n generalizing first file db with
  | zero =>
    obtain rfl := Option.some.inj h
    exact ⟨hc, hP⟩
  | succ n ih =>
    rw [HeadersDb.loadRecords] at h
    split at h
    · obtain rfl := Option.some.inj h
      exact ⟨hc, hP⟩
    rw [Option.bind_eq_bind, Option.bind_eq_some_iff] at h
    obtain ⟨db1, hrec, h⟩ := h
    exact ih (hc.loadRecord hempty hrec) (hrecord db db1 first _ hc hP hrec)
      (fun hf => by cases hf) h

/-- **A load** goes through the records of a file, if it gets that far. -/
theorem load_induction {P : HeadersDb → Prop}
    (hrecord : ∀ (db db' : HeadersDb) (first : Bool) (rec : Bytes), Coherent db → P db →
      HeadersDb.loadRecord pf db first rec = some db' → P db')
    (hfile : ∀ file : Option Bytes, P { db with headersTreeFile := file }) (hP : P db)
    (hc : Coherent db) (hempty : ∀ h, db.find h = none) {existing : Option Bytes} {ok : Bool}
    (h : HeadersDb.load pf db existing = some (db', ok)) : Coherent db' ∧ P db' := by
  have hcfile : ∀ file : Option Bytes, Coherent { db with headersTreeFile := file } := fun _ =>
    hc.of_eq rfl rfl rfl rfl
  have hout : ∀ {d : HeadersDb × Bool}, some d = some (db', ok) → d.1 = db' := fun hd => by
    rw [Option.some.inj hd]
  rw [HeadersDb.load.eq_def] at h
  split at h
  · exact hout h ▸ ⟨hc, hP⟩
  split at h
  · exact hout h ▸ ⟨hcfile _, hfile _⟩
  dsimp only at h
  split at h
  · exact hout h ▸ ⟨hcfile _, hfile _⟩
  split at h
  · exact hout h ▸ ⟨hcfile _, hfile _⟩
  rw [Option.bind_eq_bind, Option.bind_eq_some_iff] at h
  obtain ⟨db1, hrec, h⟩ := h
  have hdb : db1 = db' := hout h
  exact hdb ▸ loadRecords_induction hrecord (hcfile (some _)) (hfile (some _)) (fun _ hash =>
    hempty hash) hrec

/-- A database loaded from a file or opened on a new one. -/
theorem load (hc : Coherent db) (hempty : ∀ h, db.find h = none)
    {existing : Option Bytes} {ok : Bool} (h : HeadersDb.load pf db existing = some (db', ok)) :
    Coherent db' :=
  (load_induction (P := fun _ => True) (fun _ _ _ _ _ _ _ => trivial) (fun _ =>
    trivial) trivial hc hempty h).1

end Coherent

/-- A new database is coherent. -/
theorem coherent_new (params : ChainParams) (inmemOnly : Bool) :
    Coherent (new params inmemOnly) := by
  have hread : ∀ p b, (new params inmemOnly).heap.read p = some b → p = 0 ∧
    b = genesisIndex params := by
    intro p b hr
    have hlt : p < 1 := Heap.lt_fresh hr
    obtain rfl : p = 0 := by omega
    exact ⟨rfl, (Option.some.inj hr).symm⟩
  have hlink : ∀ p b q, (new params inmemOnly).heap.read p = some b → b.prev = some q → False := by
    intro p b q hr hq
    rw [(hread p b hr).2] at hq
    cases hq
  refine ⟨fun p b q hr hq => (hlink p b q hr hq).elim, ⟨genesisIndex params, rfl, rfl, rfl, rfl⟩,
    Nat.zero_lt_one, fun h p hf => ?_, fun _ _ => Or.inl rfl,
    fun p b q c _ hr hq => (hlink p b q hr hq).elim⟩
  cases hf

/-- A new database that starts from a checkpoint is coherent. -/
theorem coherent_setCheckpointStart (params : ChainParams) (inmemOnly : Bool) (hash : Uint256)
    (height : UInt32) (chainwork : ArithUint256) :
    Coherent ((new params inmemOnly).setCheckpointStart hash height chainwork) :=
  by
  have hplant : Coherent _ := (coherent_new params inmemOnly).plant
    (show (BlockIndex.mk height.toNat hash chainwork emptyHeader none).prev = none from rfl)
      rfl none
  exact hplant.of_eq rfl rfl rfl rfl

/-! ## Runs -/

/-- The operations of a run. -/
inductive DbOp where
  | connect (buf : Bytes) (loadProcess : Bool)
  | disconnect
  | setSkipPow (on : Bool)

/-- One operation. -/
def dbStep (pf : Platform) (db : HeadersDb) : DbOp → Option HeadersDb
  | .connect buf loadProcess => (connectHdr pf db buf loadProcess).map ConnectResult.db
  | .disconnect => db.disconnectTip.map Prod.fst
  | .setSkipPow on => some { db with skipPow := on }

/-- A new database, or one that starts from a checkpoint. -/
inductive Started : HeadersDb → Prop where
  | new (params : ChainParams) (inmemOnly : Bool) : Started (new params inmemOnly)
  | checkpoint (params : ChainParams) (inmemOnly : Bool) (hash : Uint256) (height : UInt32)
      (chainwork : ArithUint256) :
      Started ((HeadersDb.new params inmemOnly).setCheckpointStart hash height chainwork)

/-- A started database, or one opened on a file. -/
inductive Opened (pf : Platform) : HeadersDb → Prop where
  | started {db : HeadersDb} (h : Started db) : Opened pf db
  | loaded {db : HeadersDb} (params : ChainParams) (inmemOnly : Bool) (existing : Option Bytes)
      (ok : Bool) (h : (HeadersDb.new params inmemOnly).load pf existing = some (db, ok)) :
      Opened pf db

/-- The runs of the operations from an opened database. -/
def dbSystem (pf : Platform) : TransitionSystem HeadersDb DbOp where
  init := Opened pf
  step := dbStep pf

/-- **Every reachable database is coherent.** -/
theorem coherent_of_reachable (h : (dbSystem pf).Reachable db) : Coherent db := by
  refine TransitionSystem.Reach.invariant (fun s hs => ?_) (fun s op s' hc _ hs => ?_) h
  · cases hs with
    | started hst =>
      cases hst with
      | new => exact coherent_new _ _
      | checkpoint => exact coherent_setCheckpointStart _ _ _ _ _
    | loaded params inmemOnly existing ok hload =>
      exact (coherent_new params inmemOnly).load (fun _ => rfl) hload
  · cases op with
    | connect buf load =>
      obtain ⟨r, hr, rfl⟩ := Option.map_eq_some_iff.mp hs
      exact hc.connectHdr hr
    | disconnect =>
      obtain ⟨⟨db1, b⟩, hr, rfl⟩ := Option.map_eq_some_iff.mp hs
      exact hc.disconnectTip hr
    | setSkipPow on =>
      obtain rfl := Option.some.inj hs
      exact hc.of_eq rfl rfl rfl rfl

end HeadersDb

end Libdogecoin
