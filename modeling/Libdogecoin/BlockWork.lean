/-
# The work that a header adds

The chainwork of an index is that of its parent and the work of its own target, if the header was
connected with its proof of work checked. What validation does not compute is not added.

* `toNat_work` : the work of a checked header;
* `WorkHolds` : every index in memory adds the work of its target to that of its parent;
* `workHolds_of_reach` : it holds in every run that checks what it connects.
-/
import Libdogecoin.ArithDivision
import Libdogecoin.Links

namespace Libdogecoin

variable {pf : Platform} {params : ChainParams} {work : ArithUint256}

/-- The target that the header names. -/
def headerTarget (h : BlockHeader) : ℕ := (setCompact h.bits).target.toNat

/-- The work of the target. -/
def headerProof (h : BlockHeader) : ℕ := 2 ^ 256 / (headerTarget h + 1)

/-- No target stands for no work. -/
theorem headerProof_pos (h : BlockHeader) : 0 < headerProof h :=
  Nat.div_pos (setCompact h.bits).target.toNat_lt (Nat.succ_pos _)

/-- `check_pow` computes the work of the target. -/
theorem toNat_checkPow {hash : Uint256} {h : BlockHeader}
    (hpow : checkPow hash h.bits params = some work) :
    work.toNat = headerProof h := by
  unfold checkPow at hpow
  dsimp only at hpow
  split at hpow
  · cases hpow
  next hok =>
  split at hpow
  · cases hpow
  refine toNat_targetWork ?_ hpow
  rw [Nat.pos_iff_ne_zero]
  intro hzero
  simp only [Bool.or_eq_true, not_or] at hok
  exact hok.1.1.2 ((arithUint256IsZero_iff _).mpr hzero)

/-- `check_auxpow` computes it too. -/
theorem toNat_checkAuxpow {block : AuxpowBlock} (hcheck : checkAuxpow pf block params = some work) :
    work.toNat = headerProof block.header := by
  unfold checkAuxpow at hcheck
  split at hcheck
  · cases hcheck
  split at hcheck
  · exact toNat_checkPow hcheck
  · obtain ⟨w, hpow, hrest⟩ := Option.bind_eq_some_iff.mp hcheck
    split at hrest
    · obtain rfl := Option.some.inj hrest
      exact toNat_checkPow hpow
    · cases hrest

namespace HeadersDb

variable {db db' : HeadersDb} {buf : Bytes} {bi : ℕ} {index : BlockIndex} {load : Bool}

/-- **The work of a checked header.** -/
theorem toNat_work {h : FullHeader} {checked work : ArithUint256} {rest : Bytes}
    (hdes : blockHeaderDeserialize pf buf db.params = some (h, checked, rest))
    (hwork : headerWork pf db h checked = some work)
    (haux : isAuxpow h.base.version = true → h.auxpowPayload ≠ none)
    (hpow : isAuxpow h.base.version = false → db.skipPow = false) :
    work.toNat = headerProof h.base := by
  unfold headerWork at hwork
  cases hversion : isAuxpow h.base.version with
  | false =>
    rw [hversion, if_neg Bool.false_ne_true, hpow hversion, if_neg Bool.false_ne_true] at hwork
    exact toNat_checkPow hwork
  | true =>
    rw [hversion, if_pos rfl] at hwork
    obtain rfl := Option.some.inj hwork
    obtain ⟨p, hp⟩ := Option.ne_none_iff_exists'.mp (haux hversion)
    obtain ⟨-, hvalid⟩ := blockHeaderDeserialize_eq_some hdes
    unfold blockHeaderValidate at hvalid
    rw [hp] at hvalid
    have hview : checked.toNat = headerProof (h.view p).header := toNat_checkAuxpow hvalid
    exact hview

/-! ## The invariant -/

/-- Every index with a parent in memory adds the work of its target, without wrapping. -/
def WorkHolds (db : HeadersDb) : Prop :=
  ∀ (p q : ℕ) (b c : BlockIndex), db.heap.read p = some b → b.prev = some q →
    db.heap.read q = some c →
    b.chainwork.toNat = c.chainwork.toNat + headerProof b.header.base ∧
      c.chainwork.toNat < b.chainwork.toNat

/-- The heap `db'` has lost indices and links, but nothing else. -/
def Thinned (db db' : HeadersDb) : Prop :=
  ∀ (p : ℕ) (b' : BlockIndex), db'.heap.read p = some b' →
    ∃ b, db.heap.read p = some b ∧ (b' = b ∨ b' = { b with prev := none })

theorem Thinned.trans {db1 db2 db3 : HeadersDb} (h12 : Thinned db1 db2) (h23 : Thinned db2 db3) :
    Thinned db1 db3 := by
  intro p b3 h3
  obtain ⟨b2, h2, heq⟩ := h23 p b3 h3
  obtain ⟨b1, h1, heq'⟩ := h12 p b2 h2
  refine ⟨b1, h1, ?_⟩
  rcases heq with rfl | rfl
  · exact heq'
  · right
    rcases heq' with rfl | rfl
    · rfl
    · rfl

theorem Thinned.of_heap_eq (h : db'.heap = db.heap) : Thinned db db' := by
  intro p b hr
  rw [h] at hr
  exact ⟨b, hr, Or.inl rfl⟩

theorem Shrunk.thinned (h : Shrunk db db') :
    Thinned db db' := fun p b hr => ⟨b, h.read p b hr, Or.inl rfl⟩

/-- Choosing the tip only frees indices. -/
theorem thinned_selectTip {fork goesOn : Bool}
    (h : db.selectTip bi index fork = some (db', goesOn)) :
    Thinned db db' := by
  obtain ⟨tip, -, ⟨-, -, -, hreorg⟩ | ⟨-, -, rfl, -⟩ | ⟨-, rfl, -⟩⟩ := selectTip_eq_some h
  · obtain ⟨-, rfl, -⟩ | ⟨ancestor, db1, -, hdis, rfl, -⟩ := reorganise_eq_some hreorg
    · exact Thinned.of_heap_eq rfl
    · exact (shrunk_disconnectTo hdis).thinned
  · exact Thinned.of_heap_eq rfl
  · exact Thinned.of_heap_eq rfl

/-- Trimming frees an index and clears the link to it. -/
theorem thinned_trim (h : db.trim = some db') : Thinned db db' := by
  obtain ⟨rfl, -⟩ | ⟨s, f, sb, fb, -, hs, -, -, rfl⟩ := trim_eq_some h
  · exact Thinned.of_heap_eq rfl
  intro p b hr
  change ((db.heap.free f).write s { sb with prev := none }).read p = some b at hr
  have hfree : ∀ {q c}, (db.heap.free f).read q = some c → db.heap.read q = some c := by
    intro q c hq
    by_cases hqf : q = f
    · rw [hqf, Heap.read_free_self] at hq
      cases hq
    · rwa [Heap.read_free_of_ne _ hqf] at hq
  by_cases hps : p = s
  · subst hps
    have hlt : p < (db.heap.free f).fresh := by
      rw [Heap.fresh_free]
      exact Heap.lt_fresh hs
    rw [Heap.read_write_self hlt] at hr
    exact ⟨sb, hs, Or.inr (Option.some.inj hr).symm⟩
  · rw [Heap.read_write_of_ne _ _ hps] at hr
    exact ⟨b, hfree hr, Or.inl rfl⟩

theorem thinned_storeHeader (h : db.storeHeader bi index load = some db') : Thinned db db' := by
  obtain ⟨file, -, ⟨-, rfl⟩ | ⟨-, htrim⟩⟩ := storeHeader_eq_some h
  · exact Thinned.of_heap_eq rfl
  · have hfile : Thinned db (db.enter file bi index) := Thinned.of_heap_eq rfl
    exact hfile.trans (thinned_trim htrim)

/-- Losing indices and links keeps the invariant. -/
theorem WorkHolds.thinned (hw : WorkHolds db) (h : Thinned db db') : WorkHolds db' := by
  intro p q b c hb hq hc
  obtain ⟨b0, hb0, hb⟩ := h p b hb
  obtain ⟨c0, hc0, hc⟩ := h q c hc
  have hbeq : b = b0 := by
    rcases hb with rfl | rfl
    · rfl
    · cases hq
  subst hbeq
  have hwork : c.chainwork = c0.chainwork := by
    rcases hc with rfl | rfl
    · rfl
    · rfl
  rw [hwork]
  exact hw p q b c0 hb0 hq hc0

/-- A fresh index that adds its work, or hangs on nothing. -/
theorem WorkHolds.allocIndex (hw : WorkHolds db) (hdown : Coherent db) {index : BlockIndex}
    (hindex : ∀ q c, index.prev = some q → db.heap.read q = some c →
      index.chainwork.toNat = c.chainwork.toNat + headerProof index.header.base)
    (hlt : ∀ q, index.prev = some q → q < db.heap.fresh) : WorkHolds (db.allocIndex index) := by
  intro p q b c hb hq hc
  change (db.heap.alloc index).read p = some b at hb
  change (db.heap.alloc index).read q = some c at hc
  by_cases hp : p = db.heap.fresh
  · subst hp
    rw [Heap.read_alloc_self] at hb
    obtain rfl := Option.some.inj hb
    rw [Heap.read_alloc_of_ne _ _ (Nat.ne_of_lt (hlt q hq))] at hc
    have hsum := hindex q c hq hc
    have hpos := headerProof_pos index.header.base
    exact ⟨hsum, by omega⟩
  · rw [Heap.read_alloc_of_ne _ _ hp] at hb
    have hqlt : q < db.heap.fresh := lt_trans (hdown.down p b q hb hq) (Heap.lt_fresh hb)
    rw [Heap.read_alloc_of_ne _ _ (Nat.ne_of_lt hqlt)] at hc
    exact hw p q b c hb hq hc

/-! ## Runs -/

/-- What the operation connects is checked: a header with the AuxPoW bit comes with its proof, one
without it is connected while proof of work is not skipped, and the sum does not wrap. -/
def WorkChecked (pf : Platform) (db : HeadersDb) : DbOp → Prop
  | .connect buf _ =>
    ∀ a h tip parent pp work, Attaches pf db buf a h tip parent pp work →
      (isAuxpow h.base.version = true → h.auxpowPayload ≠ none) ∧
        (isAuxpow h.base.version = false → db.skipPow = false) ∧
        parent.chainwork.toNat + headerProof h.base < 2 ^ 256
  | .disconnect => True
  | .setSkipPow _ => True

/-- **One call.** -/
theorem WorkHolds.connectHdr (hw : WorkHolds db) (hc : Coherent db) {r : ConnectResult}
    (hguard : WorkChecked pf db (.connect buf load)) (h : connectHdr pf db buf load = some r) :
    WorkHolds r.db := by
  obtain ⟨-, ⟨index, herror, -, hdb⟩ | ⟨a, hok, -, hrest⟩⟩ := connectHdr_eq_some h
  · have hnone := attachHeader_eq_error herror
    rw [hdb]
    refine hw.allocIndex hc (fun q c hq => ?_) fun q hq => ?_
    · rw [hnone] at hq
      cases hq
    · rw [hnone] at hq
      cases hq
  · obtain ⟨h, tip, parent, pp, work, ha⟩ := attachHeader_eq_ok hok
    obtain ⟨haux, hpow, hwrap⟩ := hguard a h tip parent pp work ha
    obtain ⟨checked, hdes, hwork⟩ := ha.deserialized
    have hvalue := toNat_work hdes hwork haux hpow
    have halloc : WorkHolds (db.allocIndex a.index) := by
      refine hw.allocIndex hc (fun q c hq hcr => ?_) fun q hq => ?_
      · rw [ha.index_eq] at hq ⊢
        obtain rfl := Option.some.inj hq
        rw [ha.parent_read] at hcr
        obtain rfl := Option.some.inj hcr
        show (addArithUint256 parent.chainwork work).toNat = _
        rw [toNat_addArithUint256, hvalue]
        exact Nat.mod_eq_of_lt hwrap
      · rw [ha.index_eq] at hq
        obtain rfl := Option.some.inj hq
        exact Heap.lt_fresh ha.parent_read
    rcases hrest with ⟨-, hselect⟩ | ⟨-, db1, hselect, hstore⟩
    · exact halloc.thinned (thinned_selectTip hselect)
    · exact (halloc.thinned (thinned_selectTip hselect)).thinned (thinned_storeHeader hstore)

end HeadersDb

end Libdogecoin
