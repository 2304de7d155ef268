/-
# What one operation on the headers database does

Inversion lemmas for the parts of `connectHdr` and for `disconnectTip`: each says everything the
operation can do, so that the invariants of later modules never unfold it.

* `attachHeader_eq_ok`, `connectHdr_eq_some`, `selectTip_eq_some`, `storeHeader_eq_some` :
  inversion of a call;
* `connectWalk_of_shared` : behind a found common ancestor the walk down the new chain succeeds;
* `reorganise_eq_some` : so a reorganisation gives up unchanged or goes through;
* `trim_eq_some` : trimming cuts the chain at one place or does nothing.
-/
import Libdogecoin.HeadersDb

namespace Libdogecoin

namespace HeadersDb

variable {pf : Platform} {db db' : HeadersDb} {buf : Bytes} {h : FullHeader} {parentPtr current : ℕ}
  {fork b : Bool}

/-! ## Inversion of a call -/

/-- The header in `buf` attaches: it is `h`, hangs on `parent` at `parentPtr` below the tip `tip`,
adds `work`, and becomes the index `a`. -/
structure Attaches (pf : Platform) (db : HeadersDb) (buf : Bytes) (a : Attached) (h : FullHeader)
    (tip parent : BlockIndex) (parentPtr : ℕ) (work : ArithUint256) : Prop where
  deserialized : ∃ checked, blockHeaderDeserialize pf buf db.params = some (h, checked, a.rest) ∧
    headerWork pf db h checked = some work
  unknown : db.find (blockHeaderHash pf h.base) = none
  tip_read : db.heap.read db.chaintip = some tip
  connectAt_eq : db.connectAt tip h.base.prevBlock = some (parentPtr, a.forkFromBlock)
  parent_read : db.heap.read parentPtr = some parent
  index_eq : a.index =
    { height := (parent.height + 1) % 2 ^ 32, hash := blockHeaderHash pf h.base,
      chainwork := addArithUint256 parent.chainwork work, header := h, prev := some parentPtr }

variable {a : Attached} {index tip parent : BlockIndex} {work : ArithUint256}
  {p blockindex ancestor fuel : ℕ}
  {load goesOn : Bool} {r : ConnectResult} {heap : Heap BlockIndex}

theorem attachHeader_eq_ok (heq : attachHeader pf db buf = some (.ok a)) :
    ∃ h tip parent parentPtr work, Attaches pf db buf a h tip parent parentPtr work := by
  rw [attachHeader] at heq
  split at heq
  · simp at heq
  next h checked rest hdes =>
  dsimp only at heq
  split at heq
  · simp at heq
  next hunknown =>
  rw [Option.bind_eq_bind, Option.bind_eq_some_iff] at heq
  obtain ⟨tip, htip, heq⟩ := heq
  split at heq
  · simp at heq
  next parentPtr fork hconn =>
  split at heq
  · simp at heq
  next work hwork =>
  rw [Option.bind_eq_some_iff] at heq
  obtain ⟨parent, hparent, heq⟩ := heq
  simp only [Option.some.injEq, Except.ok.injEq] at heq
  subst heq
  exact ⟨h, tip, parent, parentPtr, work, ⟨checked, hdes, hwork⟩, by simpa using hunknown, htip,
    hconn, hparent, rfl⟩

/-- An index that is returned without being attached has no link. -/
theorem attachHeader_eq_error {rest : Bytes}
    (heq : attachHeader pf db buf = some (.error (index, rest))) :
    index.prev = none := by
  have hout : ∀ i : BlockIndex × Bytes,
    some (Except.error i : Except (BlockIndex × Bytes) Attached) =
      some (.error (index, rest)) → i.1 = index := by
    intro i hi
    simp only [Option.some.injEq, Except.error.injEq] at hi
    rw [hi]
  rw [attachHeader] at heq
  split at heq
  · exact hout _ heq ▸ rfl
  dsimp only at heq
  split at heq
  · exact hout _ heq ▸ rfl
  rw [Option.bind_eq_bind, Option.bind_eq_some_iff] at heq
  obtain ⟨tip, -, heq⟩ := heq
  split at heq
  · exact hout _ heq ▸ rfl
  split at heq
  · exact hout _ heq ▸ rfl
  rw [Option.bind_eq_some_iff] at heq
  obtain ⟨parent, -, heq⟩ := heq
  simp at heq

/-- A header that attaches does so in the call. -/
theorem Attaches.attachHeader_eq (ha : Attaches pf db buf a h tip parent parentPtr work) :
    attachHeader pf db buf = some (.ok a) := by
  obtain ⟨⟨checked, hdes, hwork⟩, hunknown, htip, hconn, hparent, hindex⟩ := ha
  cases a with
  | mk index fork rest =>
    subst hindex
    simp [attachHeader, hdes, hunknown, htip, hconn, hwork, hparent]

/-- A header attaches in one way only. -/
theorem Attaches.unique {a' : Attached} {h' : FullHeader} {tip' parent' : BlockIndex} {pp pp' : ℕ}
    {work' : ArithUint256} (ha : Attaches pf db buf a h tip parent pp work)
    (ha' : Attaches pf db buf a' h' tip' parent' pp' work') :
    a = a' ∧ h = h' ∧ tip = tip' ∧ parent = parent' ∧ work = work' := by
  have haa : a = a' := by
    have heq := ha.attachHeader_eq
    rw [ha'.attachHeader_eq] at heq
    simpa using heq.symm
  subst haa
  obtain ⟨checked, hdes, hwork⟩ := ha.deserialized
  obtain ⟨checked', hdes', hwork'⟩ := ha'.deserialized
  rw [hdes] at hdes'
  obtain ⟨rfl, rfl, -⟩ : h = h' ∧ checked = checked' ∧ a.rest = a.rest := by simpa using hdes'
  have htip := ha.tip_read
  rw [ha'.tip_read] at htip
  obtain rfl := Option.some.inj htip
  have hconn := ha.connectAt_eq
  rw [ha'.connectAt_eq] at hconn
  obtain ⟨rfl, -⟩ := Prod.mk.inj (Option.some.inj hconn)
  have hparent := ha.parent_read
  rw [ha'.parent_read] at hparent
  obtain rfl := Option.some.inj hparent
  rw [hwork] at hwork'
  exact ⟨rfl, rfl, rfl, rfl, Option.some.inj hwork'⟩

/-- A parent other than the tip is found in the tree, and does not carry the hash of the tip. -/
theorem connectAt_eq_some {prevBlock : Uint256} (h : db.connectAt tip prevBlock = some (p, fork)) :
    (fork = false ∧ prevBlock = tip.hash ∧ p = db.chaintip) ∨
      (fork = true ∧ prevBlock ≠ tip.hash ∧ db.find prevBlock = some p) := by
  rw [connectAt] at h
  split at h
  · next heq =>
      simp only [Option.some.injEq, Prod.mk.injEq] at h
      exact Or.inl ⟨h.2.symm, heq, h.1.symm⟩
  · next hne =>
      rw [Option.map_eq_some_iff] at h
      obtain ⟨q, hq, heq⟩ := h
      simp only [Prod.mk.injEq] at heq
      exact Or.inr ⟨heq.2.symm, hne, heq.1 ▸ hq⟩

/-- The database with one more allocated index. -/
def allocIndex (db : HeadersDb) (index : BlockIndex) : HeadersDb :=
  { db with heap := db.heap.alloc index }

/-- A call that returns has rejected the header, or attached it and either given up in the
reorganisation or stored it. -/
theorem connectHdr_eq_some (h : connectHdr pf db buf load = some r) :
    r.blockindex = db.heap.fresh ∧
    ((∃ index, attachHeader pf db buf = some (.error (index, r.rest)) ∧ r.connected = false ∧
        r.db = db.allocIndex index) ∨
      ∃ a, attachHeader pf db buf = some (.ok a) ∧ r.rest = a.rest ∧
        ((r.connected = false ∧ (db.allocIndex a.index).selectTip db.heap.fresh a.index
            a.forkFromBlock = some (r.db, false)) ∨
          (r.connected = true ∧ ∃ db1, (db.allocIndex a.index).selectTip db.heap.fresh a.index
              a.forkFromBlock = some (db1, true) ∧
            db1.storeHeader db.heap.fresh a.index load = some r.db))) := by
  rw [connectHdr, Option.bind_eq_bind, Option.bind_eq_some_iff] at h
  obtain ⟨attached, hattach, h⟩ := h
  cases attached with
  | error e =>
    obtain ⟨index, rest⟩ := e
    obtain rfl := Option.some.inj h
    exact ⟨rfl, Or.inl ⟨index, hattach, rfl, rfl⟩⟩
  | ok a =>
    dsimp only at h
    rw [Option.bind_eq_bind, Option.bind_eq_some_iff] at h
    obtain ⟨⟨db1, goesOn⟩, hselect, h⟩ := h
    cases goesOn with
    | false =>
      obtain rfl := Option.some.inj h
      exact ⟨rfl, Or.inr ⟨a, hattach, rfl, Or.inl ⟨rfl, hselect⟩⟩⟩
    | true =>
      rw [Bool.not_true, if_neg Bool.false_ne_true, Option.bind_eq_bind,
        Option.bind_eq_some_iff] at h
      obtain ⟨db2, hstore, h⟩ := h
      obtain rfl := Option.some.inj h
      exact ⟨rfl, Or.inr ⟨a, hattach, rfl, Or.inr ⟨rfl, db1, hselect, hstore⟩⟩⟩

/-- A header that is connected was attached, and stored after the tip was chosen. -/
theorem connectHdr_connected (h : connectHdr pf db buf load = some r) (hyes : r.connected = true) :
    ∃ a db1, attachHeader pf db buf = some (.ok a) ∧
      (db.allocIndex a.index).selectTip db.heap.fresh a.index a.forkFromBlock = some (db1, true) ∧
      db1.storeHeader db.heap.fresh a.index load = some r.db := by
  obtain ⟨-, ⟨_, -, hno, -⟩ | ⟨a, hattach, -, ⟨hno, -⟩ | ⟨-, db1, hselect, hstore⟩⟩⟩ :=
    connectHdr_eq_some h
  · rw [hyes] at hno
    cases hno
  · rw [hyes] at hno
    cases hno
  · exact ⟨a, db1, hattach, hselect, hstore⟩

/-- The same for a header that is known to attach. -/
theorem Attaches.connected {hd : FullHeader}
    (ha : Attaches pf db buf a hd tip parent parentPtr work)
    (h : connectHdr pf db buf load = some r) (hyes : r.connected = true) :
    ∃ db1, (db.allocIndex a.index).selectTip db.heap.fresh a.index a.forkFromBlock =
      some (db1, true) ∧
      db1.storeHeader db.heap.fresh a.index load = some r.db := by
  obtain ⟨a1, db1, hattach, hselect, hstore⟩ := connectHdr_connected h hyes
  rw [ha.attachHeader_eq] at hattach
  obtain rfl : a = a1 := by simpa using hattach
  exact ⟨db1, hselect, hstore⟩

theorem disconnectTip_eq_some (h : db.disconnectTip = some (db', b)) :
    ∃ tip, db.heap.read db.chaintip = some tip ∧
      ((tip.prev = none ∧ db' = db ∧ b = false) ∨
        ∃ prev, tip.prev = some prev ∧ b = true ∧
          db' = { db with chaintip := prev, treeRoot := db.treeRoot.erase tip.hash,
                          heap := db.heap.free db.chaintip }) := by
  rw [disconnectTip, Option.bind_eq_bind, Option.bind_eq_some_iff] at h
  obtain ⟨tip, htip, h⟩ := h
  refine ⟨tip, htip, ?_⟩
  split at h
  · next hprev =>
      simp only [Option.some.injEq, Prod.mk.injEq] at h
      exact Or.inl ⟨hprev, h.1.symm, h.2.symm⟩
  · next prev hprev =>
      simp only [Option.some.injEq, Prod.mk.injEq] at h
      exact Or.inr ⟨prev, hprev, h.2.symm, h.1.symm⟩

/-- The three ways the tip is chosen. -/
theorem selectTip_eq_some (h : db.selectTip blockindex index fork = some (db', goesOn)) :
    ∃ tip, db.heap.read db.chaintip = some tip ∧
      ((fork = true ∧ tip.height < index.height ∧ overtakes index tip = true ∧
          db.reorganise blockindex = some (db', goesOn)) ∨
        (¬ (fork = true ∧ tip.height < index.height ∧ overtakes index tip = true) ∧
          tip.height < index.height ∧ db' = { db with chaintip := blockindex } ∧ goesOn = true) ∨
        (index.height ≤ tip.height ∧ db' = db ∧ goesOn = true)) := by
  rw [selectTip, Option.bind_eq_bind, Option.bind_eq_some_iff] at h
  obtain ⟨tip, htip, h⟩ := h
  refine ⟨tip, htip, ?_⟩
  split at h
  · next hcond =>
      simp only [Bool.and_eq_true, decide_eq_true_eq] at hcond
      exact Or.inl ⟨hcond.1.1, hcond.1.2, hcond.2, h⟩
  · next hcond =>
      split at h
      · next hhigh =>
          simp only [Option.some.injEq, Prod.mk.injEq] at h
          refine Or.inr (Or.inl ⟨?_, hhigh, h.1.symm, h.2.symm⟩)
          rintro ⟨h1, h2, h3⟩
          exact hcond (by simp [h1, h2, h3])
      · next hlow =>
          simp only [Option.some.injEq, Prod.mk.injEq] at h
          exact Or.inr (Or.inr ⟨Nat.le_of_not_lt hlow, h.1.symm, h.2.symm⟩)

/-! ## The reorganisation -/

/-- `db'` is `db` after some indices were freed from its tip downwards. -/
structure Shrunk (db db' : HeadersDb) : Prop where
  params : db'.params = db.params
  readWriteFile : db'.readWriteFile = db.readWriteFile
  maxHdrInMem : db'.maxHdrInMem = db.maxHdrInMem
  file : db'.headersTreeFile = db.headersTreeFile
  chainbottom : db'.chainbottom = db.chainbottom
  skipPow : db'.skipPow = db.skipPow
  fresh : db'.heap.fresh = db.heap.fresh
  read : ∀ p b, db'.heap.read p = some b → db.heap.read p = some b
  find : ∀ h p, db'.find h = some p → db.find h = some p
  tip : Heap.Chain BlockIndex.prev db.heap db.chaintip db'.chaintip

theorem Shrunk.refl (db : HeadersDb) : Shrunk db db :=
  ⟨rfl, rfl, rfl, rfl, rfl, rfl, rfl, fun _ _ h => h, fun _ _ h => h, .refl _⟩

/-- Freed records only shorten chains. -/
theorem chain_of_sub {heap' : Heap BlockIndex}
    (hsub : ∀ p b, heap'.read p = some b → heap.read p = some b) {q : ℕ}
    (hc : Heap.Chain BlockIndex.prev heap' p q) : Heap.Chain BlockIndex.prev heap p q :=
  hc.of_agree fun r a _ _ hr => hsub r a hr

theorem Shrunk.trans {db1 db2 db3 : HeadersDb} (h12 : Shrunk db1 db2) (h23 : Shrunk db2 db3) :
    Shrunk db1 db3 where
  params := h23.params.trans h12.params
  readWriteFile := h23.readWriteFile.trans h12.readWriteFile
  maxHdrInMem := h23.maxHdrInMem.trans h12.maxHdrInMem
  file := h23.file.trans h12.file
  chainbottom := h23.chainbottom.trans h12.chainbottom
  skipPow := h23.skipPow.trans h12.skipPow
  fresh := h23.fresh.trans h12.fresh
  read := fun p b h => h12.read p b (h23.read p b h)
  find := fun h p hp => h12.find h p (h23.find h p hp)
  tip := h12.tip.trans (chain_of_sub h12.read h23.tip)

theorem find_erase_eq_some {h h' : Uint256} (hf : (db.treeRoot.erase h).find h' = some p) :
    h' ≠ h ∧ db.find h' = some p := by
  rw [SearchTree.find_erase] at hf
  split at hf
  · cases hf
  · next hne => exact ⟨hne, hf⟩

theorem shrunk_disconnectTip (h : db.disconnectTip = some (db', b)) : Shrunk db db' := by
  obtain ⟨tip, htip, ⟨-, rfl, -⟩ | ⟨prev, hprev, -, rfl⟩⟩ := disconnectTip_eq_some h
  · exact Shrunk.refl db'
  · refine ⟨rfl, rfl, rfl, rfl, rfl, rfl, Heap.fresh_free _ _, fun p c hr => ?_, fun h p hp => ?_,
      .single htip hprev⟩
    · by_cases hp : p = db.chaintip
      · subst hp
        rw [Heap.read_free_self] at hr
        cases hr
      · rwa [Heap.read_free_of_ne _ hp] at hr
    · exact (find_erase_eq_some hp).2

/-- The disconnect loop stops at the hash of the ancestor, or disconnects the tip and goes on. -/
theorem disconnectTo_succ (h : disconnectTo ancestor (fuel + 1) db = some db') :
    ∃ tip a, db.heap.read db.chaintip = some tip ∧ db.heap.read ancestor = some a ∧
      ((tip.hash = a.hash ∧ db' = db) ∨
        (tip.hash ≠ a.hash ∧
          ∃ db1 b, db.disconnectTip = some (db1, b) ∧ disconnectTo ancestor fuel db1 =
            some db')) := by
  rw [disconnectTo, Option.bind_eq_bind, Option.bind_eq_some_iff] at h
  obtain ⟨tip, htip, h⟩ := h
  rw [Option.bind_eq_some_iff] at h
  obtain ⟨a, ha, h⟩ := h
  refine ⟨tip, a, htip, ha, ?_⟩
  split at h
  · next heq => exact Or.inl ⟨heq, (Option.some.inj h).symm⟩
  · next hne =>
      rw [Option.bind_eq_bind, Option.bind_eq_some_iff] at h
      obtain ⟨⟨db1, b⟩, hdis, h⟩ := h
      exact Or.inr ⟨hne, db1, b, hdis, h⟩

/-- An invariant that disconnecting a tip keeps holds after the disconnect loop. -/
theorem disconnectTo_induction {P : HeadersDb → Prop}
    (hstep : ∀ db db' b, P db → db.disconnectTip = some (db', b) → P db') (h0 : P db)
    (h : disconnectTo ancestor fuel db = some db') : P db' := by
  induction fuel generalizing db with
  | zero => cases h
  | succ fuel ih =>
    obtain ⟨_, _, -, -, ⟨-, rfl⟩ | ⟨-, db1, b, hdis, hrest⟩⟩ := disconnectTo_succ h
    · exact h0
    · exact ih (hstep _ _ _ h0 hdis) hrest

theorem shrunk_disconnectTo (h : disconnectTo ancestor fuel db = some db') :
    Shrunk db db' :=
  disconnectTo_induction (P := Shrunk db)
    (fun _ _ _ hs hd => hs.trans (shrunk_disconnectTip hd)) (Shrunk.refl db) h

/-- The disconnect loop stops at a tip with the hash of the ancestor. -/
theorem tip_disconnectTo (h : disconnectTo ancestor fuel db = some db') :
    ∃ tip a, db'.heap.read db'.chaintip = some tip ∧ db'.heap.read ancestor = some a ∧
    tip.hash = a.hash := by
  induction fuel generalizing db with
  | zero => cases h
  | succ fuel ih =>
    obtain ⟨tip, a, htip, ha, ⟨heq, rfl⟩ | ⟨-, db1, b, -, hrest⟩⟩ := disconnectTo_succ h
    · exact ⟨tip, a, htip, ha, heq⟩
    · exact ih hrest

/-- The search ends at equal hashes, or goes on below the higher of the two blocks. -/
theorem commonAncestor_succ {tip fork : ℕ}
    (h : commonAncestor heap (fuel + 1) tip fork = some (some ancestor)) :
    ∃ a f, heap.read tip = some a ∧ heap.read fork = some f ∧
      ((a.hash = f.hash ∧ ancestor = tip) ∨
        (a.hash ≠ f.hash ∧ a.height > f.height ∧
          ∃ p, a.prev = some p ∧ commonAncestor heap fuel p fork = some (some ancestor)) ∨
        (a.hash ≠ f.hash ∧ ¬ a.height > f.height ∧
          ∃ p, f.prev = some p ∧ commonAncestor heap fuel tip p = some (some ancestor))) := by
  rw [commonAncestor, Option.bind_eq_bind, Option.bind_eq_some_iff] at h
  obtain ⟨a, ha, h⟩ := h
  rw [Option.bind_eq_some_iff] at h
  obtain ⟨f, hf, h⟩ := h
  refine ⟨a, f, ha, hf, ?_⟩
  split at h
  · next heq => exact Or.inl ⟨heq, (Option.some.inj (Option.some.inj h)).symm⟩
  next hne =>
  split at h
  · next hhigh =>
      split at h
      · cases h
      · next p hp => exact Or.inr (Or.inl ⟨hne, hhigh, p, hp, h⟩)
  · next hlow =>
      split at h
      · cases h
      · next p hp => exact Or.inr (Or.inr ⟨hne, hlow, p, hp, h⟩)

/-- A common ancestor lies on both chains: it is above the tip of neither, and some block of the
new chain carries its hash. -/
theorem commonAncestor_eq_some {tip fork : ℕ}
    (h : commonAncestor heap fuel tip fork = some (some ancestor)) :
    Heap.Chain BlockIndex.prev heap tip ancestor ∧
      ∃ f a b, Heap.Chain BlockIndex.prev heap fork f ∧ heap.read ancestor = some a ∧
        heap.read f = some b ∧ b.hash = a.hash := by
  induction fuel generalizing tip fork with
  | zero => cases h
  | succ fuel ih =>
    obtain ⟨a, f, ha, hf, ⟨heq, rfl⟩ | ⟨-, -, p, hp, hrest⟩ | ⟨-, -, p, hp, hrest⟩⟩ :=
      commonAncestor_succ h
    · exact ⟨.refl _, fork, a, f, .refl _, ha, hf, heq.symm⟩
    · obtain ⟨hc, rest⟩ := ih hrest
      exact ⟨.step ha hp hc, rest⟩
    · obtain ⟨hc, f', a', b', hcf, ha', hb', hh⟩ := ih hrest
      exact ⟨hc, f', a', b', .step hf hp hcf, ha', hb', hh⟩

/-- The walk down the new chain changes nothing but the tip, if it reports success. -/
theorem connectWalk_eq_some (h : connectWalk blockindex ancestor fuel current db =
    some (db', true)) :
    ∃ t, db' = { db with chaintip := t } := by
  induction fuel generalizing current db with
  | zero => cases h
  | succ fuel ih =>
    rw [connectWalk, Option.bind_eq_bind, Option.bind_eq_some_iff] at h
    obtain ⟨c, -, h⟩ := h
    rw [Option.bind_eq_some_iff] at h
    obtain ⟨a, -, h⟩ := h
    split at h
    · simp only [Option.some.injEq, Prod.mk.injEq, and_true] at h
      exact ⟨db.chaintip, h ▸ rfl⟩
    · split at h
      · simp at h
      · next p hp =>
          obtain ⟨t, ht⟩ := ih h
          exact ⟨t, ht⟩

/-- Where the new chain leads to a block with the hash of the ancestor, the walk cannot run off
its end: the error path of the reorganisation loop is never taken. -/
theorem connectWalk_of_shared {f : ℕ} {a b : BlockIndex}
    (hsub : ∀ p c, db.heap.read p = some c → heap.read p = some c)
    (hchain : Heap.Chain BlockIndex.prev heap current f) (ha : heap.read ancestor = some a)
    (hb : heap.read f = some b) (hhash : b.hash = a.hash)
    (h : connectWalk blockindex ancestor fuel current db = some (db', goesOn)) : goesOn = true := by
  induction fuel generalizing current db with
  | zero => cases h
  | succ fuel ih =>
    rw [connectWalk, Option.bind_eq_bind, Option.bind_eq_some_iff] at h
    obtain ⟨c, hc, h⟩ := h
    rw [Option.bind_eq_some_iff] at h
    obtain ⟨a', ha', h⟩ := h
    have haa : a' = a := by
      have := hsub _ _ ha'
      rw [ha] at this
      exact (Option.some.inj this).symm
    subst haa
    split at h
    · simp only [Option.some.injEq, Prod.mk.injEq] at h
      exact h.2.symm
    · next hne =>
        have hcur := hsub _ _ hc
        split at h
        · next hprev =>
            have hend := hchain.eq_of_no_link hcur hprev
            subst hend
            rw [hcur] at hb
            obtain rfl := Option.some.inj hb
            exact absurd hhash hne
        · next p hp =>
            rcases hchain.cases_link hcur hp with hend | hrest
            · subst hend
              rw [hcur] at hb
              obtain rfl := Option.some.inj hb
              exact absurd hhash hne
            · refine ih ?_ hrest h
              exact hsub

/-- **The reorganisation** gives up without a change, or frees blocks from the tip down to the
hash of a common ancestor and makes the new block the tip. -/
theorem reorganise_eq_some (h : db.reorganise blockindex = some (db', goesOn)) :
    (commonAncestor db.heap (db.chaintip + blockindex + 1) db.chaintip blockindex = some none ∧
        db' = db ∧ goesOn = false) ∨
      ∃ ancestor db1,
        commonAncestor db.heap (db.chaintip + blockindex + 1) db.chaintip blockindex =
          some (some ancestor) ∧
        disconnectTo ancestor (db.chaintip + 1) db = some db1 ∧
        db' = { db1 with chaintip := blockindex } ∧ goesOn = true := by
  rw [reorganise, Option.bind_eq_bind, Option.bind_eq_some_iff] at h
  obtain ⟨found, hfound, h⟩ := h
  cases found with
  | none =>
    simp only [Option.some.injEq, Prod.mk.injEq] at h
    exact Or.inl ⟨hfound, h.1.symm, h.2.symm⟩
  | some ancestor =>
    dsimp only at h
    rw [Option.bind_eq_bind, Option.bind_eq_some_iff] at h
    obtain ⟨db1, hdis, h⟩ := h
    rw [Option.bind_eq_bind, Option.bind_eq_some_iff] at h
    obtain ⟨⟨db2, met⟩, hwalk, h⟩ := h
    obtain ⟨-, f, a, b, hcf, ha, hb, hhash⟩ := commonAncestor_eq_some hfound
    have hmet : met = true := connectWalk_of_shared (shrunk_disconnectTo hdis).read hcf
      ha hb hhash hwalk
    subst hmet
    obtain ⟨t, rfl⟩ := connectWalk_eq_some hwalk
    simp only [if_true, Option.some.injEq, Prod.mk.injEq] at h
    exact Or.inr ⟨ancestor, db1, hfound, hdis, h.1.symm, h.2.symm⟩

/-! ## File, tree and trimming -/

/-- The link at which trimming cuts the active chain, between `s` and `f` : the block `s` is one
more than `maxHdrInMem` links below the tip, and the block `f` below it is not the genesis index. -/
def TrimsAt (db : HeadersDb) (s f : ℕ) : Prop :=
  0 < db.maxHdrInMem ∧
    Heap.follow BlockIndex.prev db.heap (db.maxHdrInMem + 1) db.chaintip = some s ∧ s ≠ genesis ∧
    (∃ sb, db.heap.read s = some sb ∧ sb.prev = some f) ∧ f ≠ genesis

/-- The database after the cut. -/
def cut (db : HeadersDb) (s f : ℕ) (sb fb : BlockIndex) : HeadersDb :=
  { db with treeRoot := db.treeRoot.erase fb.hash,
            heap := (db.heap.free f).write s { sb with prev := none }, chainbottom := s }

theorem trimScan_eq_some {k scanTip : ℕ} (h : trimScan k scanTip db = some db') :
    (db' = db ∧ ∀ s, Heap.follow BlockIndex.prev db.heap (k + 1) scanTip = some s → s ≠ genesis →
        ∀ sb f, db.heap.read s = some sb → sb.prev = some f → f = genesis) ∨
      ∃ s f sb fb, Heap.follow BlockIndex.prev db.heap (k + 1) scanTip = some s ∧ s ≠ genesis ∧
        db.heap.read s = some sb ∧ sb.prev = some f ∧ f ≠ genesis ∧ db.heap.read f = some fb ∧
        db' = db.cut s f sb fb := by
  induction k generalizing scanTip with
  | zero =>
    rw [trimScan, Option.bind_eq_bind, Option.bind_eq_some_iff] at h
    obtain ⟨b, hb, h⟩ := h
    have hfollow : ∀ s, b.prev = some s → Heap.follow BlockIndex.prev db.heap (0 + 1) scanTip =
      some s := by
      intro s hs
      simp only [Heap.follow, hb, hs]
    split at h
    · next hprev =>
        obtain rfl := Option.some.inj h
        refine Or.inl ⟨rfl, fun s hs => ?_⟩
        simp [Heap.follow, hb, hprev] at hs
    next s hprev =>
    have hs := hfollow s hprev
    have huniq : ∀ s', Heap.follow BlockIndex.prev db.heap (0 + 1) scanTip = some s' → s' = s :=
      fun s' hs' => Option.some.inj (hs'.symm.trans hs)
    split at h
    · next hgen =>
        obtain rfl := Option.some.inj h
        exact Or.inl ⟨rfl, fun s' hs' hne => absurd ((huniq s' hs').trans hgen) hne⟩
    next hsg =>
    rw [Option.bind_eq_some_iff] at h
    obtain ⟨sb, hsb, h⟩ := h
    split at h
    · next hnone =>
        obtain rfl := Option.some.inj h
        refine Or.inl ⟨rfl, fun s' hs' _ sb' f hr hf => ?_⟩
        rw [huniq s' hs', hsb] at hr
        obtain rfl := Option.some.inj hr
        rw [hnone] at hf
        cases hf
    next f hf =>
    split at h
    · next hfg =>
        obtain rfl := Option.some.inj h
        refine Or.inl ⟨rfl, fun s' hs' _ sb' f' hr hf' => ?_⟩
        rw [huniq s' hs', hsb] at hr
        obtain rfl := Option.some.inj hr
        rw [hf] at hf'
        exact (Option.some.inj hf').symm.trans hfg
    next hfg =>
    rw [Option.bind_eq_some_iff] at h
    obtain ⟨fb, hfb, h⟩ := h
    exact Or.inr ⟨s, f, sb, fb, hs, hsg, hsb, hf, hfg, hfb, (Option.some.inj h).symm⟩
  | succ k ih =>
    rw [trimScan, Option.bind_eq_bind, Option.bind_eq_some_iff] at h
    obtain ⟨b, hb, h⟩ := h
    split at h
    · next hprev =>
        obtain rfl := Option.some.inj h
        refine Or.inl ⟨rfl, fun s hs => ?_⟩
        simp [Heap.follow, hb, hprev] at hs
    · next s hprev =>
        have hstep : ∀ n, Heap.follow BlockIndex.prev db.heap (n + 1) scanTip =
            Heap.follow BlockIndex.prev db.heap n s := by
          intro n
          simp only [Heap.follow, hb, hprev]
        rw [hstep]
        exact ih h

/-- **Trimming** cuts the chain where it is too long, and does nothing elsewhere. -/
theorem trim_eq_some (h : db.trim = some db') :
    (db' = db ∧ ∀ s f, ¬ db.TrimsAt s f) ∨
      ∃ s f sb fb, db.TrimsAt s f ∧ db.heap.read s = some sb ∧ sb.prev = some f ∧
        db.heap.read f = some fb ∧ db' = db.cut s f sb fb := by
  rw [trim] at h
  split at h
  · next hpos =>
      rcases trimScan_eq_some h with ⟨rfl, hno⟩ | ⟨s, f, sb, fb, hs, hsg, hsb, hf, hfg, hfb, rfl⟩
      · refine Or.inl ⟨rfl, ?_⟩
        rintro s f ⟨-, hs, hsg, ⟨sb, hsb, hf⟩, hfg⟩
        exact hfg (hno s hs hsg sb f hsb hf)
      · exact Or.inr ⟨s, f, sb, fb, ⟨hpos, hs, hsg, ⟨sb, hsb, hf⟩, hfg⟩, hsb, hf, hfb, rfl⟩
  · next hzero =>
      obtain rfl := Option.some.inj h
      exact Or.inl ⟨rfl, fun s f ht => hzero ht.1⟩

/-- The database with an index entered into the tree, before trimming. -/
def enter (db : HeadersDb) (file : Option Bytes) (blockindex : ℕ) (index : BlockIndex) :
    HeadersDb :=
  { db with headersTreeFile := file, treeRoot := db.treeRoot.insert index.hash blockindex }

/-- Storing a header writes its record, unless the file is being loaded, enters it into the tree
and trims. -/
theorem storeHeader_eq_some (h : db.storeHeader blockindex index load = some db') :
    ∃ file, ((load = false ∧ db.readWriteFile = true ∧
          ∃ old, db.headersTreeFile = some old ∧ file = some (old ++ record index)) ∨
        (¬ (load = false ∧ db.readWriteFile = true) ∧ file = db.headersTreeFile)) ∧
      ((load = true ∧ db' = db.enter file blockindex index) ∨
        (load = false ∧ (db.enter file blockindex index).trim = some db')) := by
  rw [storeHeader, Option.bind_eq_bind, Option.bind_eq_some_iff] at h
  obtain ⟨db1, hwrite, h⟩ := h
  have htail : (load = true ∧ db' =
    { db1 with treeRoot := db1.treeRoot.insert index.hash blockindex }) ∨
      (load = false ∧
        HeadersDb.trim { db1 with treeRoot := db1.treeRoot.insert index.hash blockindex } =
          some db') := by
    cases load with
    | true => exact Or.inl ⟨rfl, (Option.some.inj h).symm⟩
    | false => exact Or.inr ⟨rfl, h⟩
  rw [writeRecord] at hwrite
  split at hwrite
  · next hcond =>
      have hcond' : load = false ∧ db.readWriteFile = true := by simpa using hcond
      rw [HeadersDb.write, Option.map_eq_some_iff] at hwrite
      obtain ⟨old, hold, rfl⟩ := hwrite
      exact ⟨_, Or.inl ⟨hcond'.1, hcond'.2, old, hold, rfl⟩, htail⟩
  · next hcond =>
      obtain rfl := Option.some.inj hwrite
      exact ⟨_, Or.inr ⟨by simpa using hcond, rfl⟩, htail⟩

end HeadersDb

end Libdogecoin
