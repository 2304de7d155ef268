/-
# The registry of working transactions

Clients look entries up in a registry, hold them, and remove them while others still hold them. The
free of a removed entry is left to its last release. Every call holds the lock of the registry, and
is one step.

* `inv_step` : what the entries of the registry have to do with the references to them;
* `registryRight_of_reach` : no entry is freed while it is held, and none is freed or unlinked
  twice, as long as entries are only removed while they are linked.
-/
import Libdogecoin.Heap
import Libdogecoin.References
import Libdogecoin.Transition
import Libdogecoin.WorkingTransaction

namespace Libdogecoin

/-! ## The registry -/

/-- `working_transaction` with its lifetime fields. -/
structure RegistryEntry extends WorkingTransaction where
  refcount : ℕ
  pendingDelete : Bool

/-- `dogecoin_transaction_context` with the entries in memory. What is unlinked and freed is written
down, as are the ids that are handed out. -/
structure TxRegistry where
  heap : Heap RegistryEntry
  transactions : List ℕ
  nextIdx : UInt32
  minted : List UInt32
  unlinked : List ℕ
  freed : List ℕ

namespace TxRegistry

/-- `dogecoin_transaction_context_new`. -/
def new : TxRegistry := ⟨⟨[]⟩, [], 0, [], [], []⟩

/-- `dogecoin_free` of an entry and its transaction. -/
def freeEntry (r : TxRegistry) (p : ℕ) :
    TxRegistry := { r with heap := r.heap.free p, freed := r.freed ++ [p] }

/-- `new_transaction_locked`, if there is memory. -/
def newTransactionLocked (r : TxRegistry) : ℕ × TxRegistry :=
  (r.heap.fresh, { r with
    heap := r.heap.alloc
      { idx := r.nextIdx + 1, transaction := txNew, refcount := 0, pendingDelete := false }
    nextIdx := r.nextIdx + 1 })

/-- `find_transaction_locked` : the entry in the table with an id. -/
def findTransactionLocked (r : TxRegistry) (idx : UInt32) : Option ℕ :=
  r.transactions.find? fun p => (r.heap.read p).any fun e => e.idx = idx

/-- `add_transaction_locked` : an entry whose id is taken is not added. -/
def addTransactionLocked (r : TxRegistry) (p : ℕ) : Option TxRegistry := do
  let e ← r.heap.read p
  match r.findTransactionLocked e.idx with
  | none => some { r with transactions := r.transactions ++ [p] }
  | some _ => some r

/-- `HASH_DEL` : not defined for an entry that is not in the table, whose neighbours are not its own
any more. -/
def hashDel (r : TxRegistry) (p : ℕ) : Option TxRegistry :=
  if p ∈ r.transactions then
    some { r with transactions := r.transactions.erase p, unlinked := r.unlinked ++ [p] }
  else none

/-- `dispose_unlinked_transaction_locked`. -/
def disposeUnlinkedTransactionLocked (r : TxRegistry) (p : ℕ) : Option TxRegistry := do
  let e ← r.heap.read p
  if e.refcount > 0 then some { r with heap := r.heap.write p { e with pendingDelete := true } }
  else some (r.freeEntry p)

/-- `remove_transaction_locked`. -/
def removeTransactionLocked (r : TxRegistry) (p : ℕ) : Option TxRegistry := do
  let r ← r.hashDel p
  r.disposeUnlinkedTransactionLocked p

/-- `release_transaction_locked`. -/
def releaseTransactionLocked (r : TxRegistry) (p : ℕ) : Option TxRegistry := do
  let e ← r.heap.read p
  let refcount := if e.refcount > 0 then e.refcount - 1 else e.refcount
  let r := { r with heap := r.heap.write p { e with refcount := refcount } }
  if refcount = 0 ∧ e.pendingDelete = true then some (r.freeEntry p) else some r

/-- `start_transaction_ts` : the id that is returned is written down. -/
def startTransactionTs (r : TxRegistry) (memory : Bool) : Option TxRegistry :=
  if memory then do
    let (p, r) := r.newTransactionLocked
    let r ← r.addTransactionLocked p
    some { r with minted := r.minted ++ [r.nextIdx] }
  else some r

/-- `find_transaction_ts` : the count of references is an `int`. -/
def findTransactionTs (r : TxRegistry) (idx : UInt32) : Option (Option ℕ × TxRegistry) :=
  match r.findTransactionLocked idx with
  | none => some (none, r)
  | some p => do
      let e ← r.heap.read p
      if e.refcount < 0x7fffffff then
        some (some p, { r with heap := r.heap.write p { e with refcount := e.refcount + 1 } })
      else none

/-- `clear_transaction_ts`. -/
def clearTransactionTs (r : TxRegistry) (idx : UInt32) : Option TxRegistry :=
  match r.findTransactionLocked idx with
  | none => some r
  | some p => r.removeTransactionLocked p

/-- `remove_all_ts`. -/
def removeAllTs (r : TxRegistry) :
    Option TxRegistry := r.transactions.foldlM removeTransactionLocked r

end TxRegistry

/-! ## Clients -/

/-- A call of a client. -/
inductive RegistryCall
  | start (client : ℕ) (memory : Bool)
  | find (client : ℕ) (idx : UInt32)
  | release (client : ℕ) (entry : ℕ)
  | remove (client : ℕ) (entry : ℕ)
  | clear (client : ℕ) (idx : UInt32)
  | removeAll (client : ℕ)
  deriving DecidableEq

/-- The registry, and one pair of a client and an entry for each find that was not released yet. -/
structure RegistryState extends TxRegistry where
  holds : List (ℕ × ℕ)

namespace RegistryState

/-- The registry after a call. -/
def withRegistry (s : RegistryState) (r : TxRegistry) : RegistryState := { r with holds := s.holds }

/-- One call, by whichever client. -/
def step (s : RegistryState) : RegistryCall → Option RegistryState
  | .start _ memory => (s.startTransactionTs memory).map s.withRegistry
  | .find client idx => do
      let (entry, r) ← s.findTransactionTs idx
      match entry with
      | none => some (s.withRegistry r)
      | some p => some { r with holds := (client, p) :: s.holds }
  | .release client p => do
      let r ← s.releaseTransactionLocked p
      some { r with holds := s.holds.erase (client, p) }
  | .remove _ p => (s.removeTransactionLocked p).map s.withRegistry
  | .clear _ idx => (s.clearTransactionTs idx).map s.withRegistry
  | .removeAll _ => s.removeAllTs.map s.withRegistry

/-- Each client releases what it found, once, and removes only what it holds. -/
def Disciplined (s : RegistryState) : RegistryCall → Prop
  | .release client p => (client, p) ∈ s.holds
  | .remove client p => (client, p) ∈ s.holds
  | _ => True

instance (s : RegistryState) : (call : RegistryCall) → Decidable (s.Disciplined call)
  | .start _ _ => instDecidableTrue
  | .find _ _ => instDecidableTrue
  | .release client p => inferInstanceAs (Decidable ((client, p) ∈ s.holds))
  | .remove client p => inferInstanceAs (Decidable ((client, p) ∈ s.holds))
  | .clear _ _ => instDecidableTrue
  | .removeAll _ => instDecidableTrue

/-- The references to an entry. -/
def refs (s : RegistryState) (p : ℕ) : ℕ := (s.holds.map Prod.snd).count p

/-- An entry is removed by a holder while it is still linked, ids have not been used up, and there
is room in the count of references. -/
def Covered (s : RegistryState) : RegistryCall → Prop
  | .start _ memory => memory = true → s.minted.length < 2 ^ 32
  | .find _ idx => ∀ p, s.findTransactionLocked idx = some p → s.refs p < 2 ^ 31 - 1
  | .remove _ p => p ∈ s.transactions
  | _ => True

instance (s : RegistryState) : (call : RegistryCall) → Decidable (s.Covered call)
  | .start _ memory => inferInstanceAs (Decidable (memory = true → s.minted.length < 2 ^ 32))
  | .find _ idx => inferInstanceAs
      (Decidable (∀ p ∈ s.findTransactionLocked idx, s.refs p < 2 ^ 31 - 1))
  | .release _ _ => instDecidableTrue
  | .remove _ p => inferInstanceAs (Decidable (p ∈ s.transactions))
  | .clear _ _ => instDecidableTrue
  | .removeAll _ => instDecidableTrue

end RegistryState

/-- The registry and its clients. -/
def registrySystem : TransitionSystem RegistryState RegistryCall where
  init s := s = { TxRegistry.new with holds := [] }
  step := RegistryState.step

/-! ## The life of an entry -/

namespace TxRegistry

/-- An entry is not there yet, linked, unlinked and left to its holders, or freed. -/
inductive Life (r : TxRegistry) (refs : ℕ → ℕ) (p : ℕ) : Prop
  | absent : r.heap.fresh ≤ p → refs p = 0 → p ∉ r.transactions → p ∉ r.unlinked →
      p ∉ r.freed → Life r refs p
  | linked {e : RegistryEntry} : r.heap.read p = some e → e.refcount = refs p →
      e.pendingDelete = false →
      e.idx ∈ r.minted → p ∈ r.transactions → p ∉ r.unlinked → p ∉ r.freed → Life r refs p
  | pending {e : RegistryEntry} : r.heap.read p = some e → e.refcount = refs p →
      e.pendingDelete = true → 0 < refs p →
      p ∉ r.transactions → p ∈ r.unlinked → p ∉ r.freed → Life r refs p
  | freed : p < r.heap.fresh → r.heap.read p = none → refs p = 0 → p ∉ r.transactions →
      p ∈ r.unlinked → p ∈ r.freed →
      Life r refs p

/-- Every entry is at one place of its life, and nothing is written down twice. -/
structure Inv (r : TxRegistry) (refs : ℕ → ℕ) : Prop where
  life : ∀ p, r.Life refs p
  transactions : r.transactions.Nodup
  unlinked : r.unlinked.Nodup
  freed : r.freed.Nodup

variable {r r' : TxRegistry} {refs refs' : ℕ → ℕ} {p q : ℕ} {e : RegistryEntry}

theorem mem_append_singleton {l : List ℕ} (hne : q ≠ p) : q ∈ l ++ [p] ↔ q ∈ l := by
  rw [List.mem_append, List.mem_singleton, or_iff_left hne]

theorem nodup_append_singleton {l : List ℕ} (h : l.Nodup) (hp : p ∉ l) : (l ++ [p]).Nodup :=
  List.nodup_append_comm.mp (List.nodup_cons.mpr ⟨hp, h⟩)

/-- An entry beside the one that a step is about. -/
structure SameAt (r r' : TxRegistry) (q : ℕ) : Prop where
  fresh : q < r'.heap.fresh ↔ q < r.heap.fresh
  read : r'.heap.read q = r.heap.read q
  transactions : q ∈ r'.transactions ↔ q ∈ r.transactions
  unlinked : q ∈ r'.unlinked ↔ q ∈ r.unlinked
  freed : q ∈ r'.freed ↔ q ∈ r.freed
  minted : ∀ idx ∈ r.minted, idx ∈ r'.minted

theorem Life.of_same (h : r.Life refs q) (hsame : SameAt r r' q) (hrefs : refs' q = refs q) :
    r'.Life refs' q := by
  cases h with
  | absent hle hzero hlinked hun hfreed =>
    exact .absent (Nat.not_lt.mp (mt hsame.fresh.mp (Nat.not_lt.mpr hle))) (hrefs.trans hzero)
      (mt hsame.transactions.mp hlinked) (mt hsame.unlinked.mp hun) (mt hsame.freed.mp hfreed)
  | linked hread hcount hmark hid hlinked hun hfreed =>
    exact .linked (hsame.read.trans hread) (hcount.trans hrefs.symm) hmark (hsame.minted _ hid)
      (hsame.transactions.mpr hlinked) (mt hsame.unlinked.mp hun) (mt hsame.freed.mp hfreed)
  | pending hread hcount hmark hpos hlinked hun hfreed =>
    exact .pending (hsame.read.trans hread) (hcount.trans hrefs.symm) hmark (hrefs ▸ hpos)
      (mt hsame.transactions.mp hlinked) (hsame.unlinked.mpr hun) (mt hsame.freed.mp hfreed)
  | freed hlt hread hzero hlinked hun hfreed =>
    exact .freed (hsame.fresh.mpr hlt) (hsame.read.trans hread) (hrefs.trans hzero)
      (mt hsame.transactions.mp hlinked) (hsame.unlinked.mpr hun) (hsame.freed.mpr hfreed)

/-! ## Removing -/

/-- **A linked entry is removed**: at once if nobody holds it, and otherwise it is marked. -/
theorem removeTransactionLocked_of_linked (h : r.Inv refs) (hp : p ∈ r.transactions) :
    ∃ r', r.removeTransactionLocked p = some r' ∧ r'.Inv refs ∧
    r'.transactions = r.transactions.erase p ∧
      r'.minted = r.minted ∧ r'.nextIdx = r.nextIdx := by
  cases h.life p with
  | absent _ _ hlinked => exact absurd hp hlinked
  | pending _ _ _ _ hlinked => exact absurd hp hlinked
  | freed _ _ _ hlinked => exact absurd hp hlinked
  | @linked e hread hcount hmark hid hlinked hun hfreed =>
    have herase : p ∉ r.transactions.erase p := h.transactions.not_mem_erase
    have hmem : p ∈ r.unlinked ++ [p] := List.mem_append_right _ (List.mem_singleton_self p)
    have hunlinked := nodup_append_singleton h.unlinked hun
    unfold removeTransactionLocked hashDel
    rw [if_pos hp, Option.bind_eq_bind, Option.bind_some, disposeUnlinkedTransactionLocked]
    rw [Option.bind_eq_bind, hread, Option.bind_some]
    by_cases hheld : e.refcount > 0
    · -- the free is left to the last release
      rw [if_pos hheld]
      refine ⟨_, rfl, ⟨fun q => ?_, h.transactions.erase p, hunlinked, h.freed⟩, rfl, rfl, rfl⟩
      by_cases hqp : q = p
      · subst hqp
        exact .pending (Heap.read_write_self (Heap.lt_fresh hread) _) hcount rfl
          (hcount ▸ hheld) herase hmem hfreed
      · exact (h.life q).of_same ⟨by rw [Heap.fresh_write], Heap.read_write_of_ne _ _ hqp,
          List.mem_erase_of_ne hqp, mem_append_singleton hqp, Iff.rfl, fun _ hid => hid⟩ rfl
    · -- nobody holds it
      rw [if_neg hheld]
      refine ⟨_, rfl, ⟨fun q => ?_, h.transactions.erase p, hunlinked,
        nodup_append_singleton h.freed hfreed⟩, rfl, rfl, rfl⟩
      by_cases hqp : q = p
      · subst hqp
        exact .freed ((Heap.fresh_free _ _).symm ▸ Heap.lt_fresh hread) (Heap.read_free_self _ _)
          (by omega) herase hmem (List.mem_append_right _ (List.mem_singleton_self q))
      · exact (h.life q).of_same ⟨by rw [freeEntry, Heap.fresh_free], Heap.read_free_of_ne _ hqp,
          List.mem_erase_of_ne hqp, mem_append_singleton hqp, mem_append_singleton hqp,
            fun _ hid => hid⟩ rfl

variable {idx : UInt32}

/-- An entry that is found is linked, and has the id. -/
theorem findTransactionLocked_eq_some (hfind : r.findTransactionLocked idx = some p) :
    p ∈ r.transactions ∧ ∃ e, r.heap.read p = some e ∧ e.idx = idx := by
  have hany := List.find?_some hfind
  refine ⟨List.mem_of_find?_eq_some hfind, ?_⟩
  cases hread : r.heap.read p with
  | none =>
    rw [hread] at hany
    cases hany
  | some e =>
    rw [hread] at hany
    exact ⟨e, rfl, of_decide_eq_true hany⟩

theorem clearTransactionTs_of_inv (h : r.Inv refs) (idx : UInt32) :
    ∃ r', r.clearTransactionTs idx = some r' ∧ r'.Inv refs ∧ r'.minted = r.minted ∧
    r'.nextIdx = r.nextIdx := by
  unfold clearTransactionTs
  cases hfind : r.findTransactionLocked idx with
  | none => exact ⟨r, rfl, h, rfl, rfl⟩
  | some p =>
    obtain ⟨r', hrun, hinv, -, hminted, hnext⟩ :=
      removeTransactionLocked_of_linked h (findTransactionLocked_eq_some hfind).1
    exact ⟨r', hrun, hinv, hminted, hnext⟩

/-- The loop of `remove_all_ts` removes what is still linked. -/
theorem foldlM_removeTransactionLocked (ps : List ℕ) (h : r.Inv refs)
    (hsub : ∀ p ∈ ps, p ∈ r.transactions) (hnodup : ps.Nodup) :
    ∃ r', ps.foldlM removeTransactionLocked r = some r' ∧ r'.Inv refs ∧ r'.minted = r.minted ∧
      r'.nextIdx = r.nextIdx := by
  induction ps generalizing r with
  | nil => exact ⟨r, rfl, h, rfl, rfl⟩
  | cons p ps ih =>
    obtain ⟨hp, hps⟩ := List.nodup_cons.mp hnodup
    obtain ⟨r₁, hrun₁, hinv₁, htrans₁, hminted₁, hnext₁⟩ :=
      removeTransactionLocked_of_linked h (hsub p List.mem_cons_self)
    have hstill : ∀ q ∈ ps, q ∈ r₁.transactions := by
      intro q hq
      have hne : q ≠ p := by
        rintro rfl
        exact hp hq
      rw [htrans₁]
      exact (List.mem_erase_of_ne hne).mpr (hsub q (List.mem_cons_of_mem p hq))
    obtain ⟨r₂, hrun₂, hinv₂, hminted₂, hnext₂⟩ := ih hinv₁ hstill hps
    refine ⟨r₂, ?_, hinv₂, hminted₂.trans hminted₁, hnext₂.trans hnext₁⟩
    rw [List.foldlM_cons, hrun₁]
    exact hrun₂

theorem removeAllTs_of_inv (h : r.Inv refs) :
    ∃ r', r.removeAllTs = some r' ∧ r'.Inv refs ∧ r'.minted = r.minted ∧ r'.nextIdx = r.nextIdx :=
  foldlM_removeTransactionLocked r.transactions h (fun _ hp => hp) h.transactions

/-! ## Finding and releasing -/

/-- One more reference to an entry, or one less. -/
def addRef (refs : ℕ → ℕ) (p : ℕ) : ℕ → ℕ := fun q => if q = p then refs q + 1 else refs q

def dropRef (refs : ℕ → ℕ) (p : ℕ) : ℕ → ℕ := fun q => if q = p then refs q - 1 else refs q

/-- **A find holds an entry that is linked**, if there is room in its count. -/
theorem findTransactionTs_of_inv (h : r.Inv refs) (hfind : r.findTransactionLocked idx = some p) :
    (refs p < 2 ^ 31 - 1 → ∃ r', r.findTransactionTs idx = some (some p, r') ∧
      r'.Inv (addRef refs p) ∧
        r'.minted = r.minted ∧ r'.nextIdx = r.nextIdx) ∧
      (¬ refs p < 2 ^ 31 - 1 → r.findTransactionTs idx = none) := by
  obtain ⟨hp, e, hread, -⟩ := findTransactionLocked_eq_some hfind
  unfold findTransactionTs
  rw [hfind]
  dsimp only
  rw [Option.bind_eq_bind, hread, Option.bind_some]
  cases h.life p with
  | absent _ _ hlinked => exact absurd hp hlinked
  | pending _ _ _ _ hlinked => exact absurd hp hlinked
  | freed _ _ _ hlinked => exact absurd hp hlinked
  | @linked e' hread' hcount hmark hid hlinked hun hfreed =>
    obtain rfl := Option.some.inj (hread.symm.trans hread')
    constructor
    · intro hroom
      have hlt : e.refcount < 0x7fffffff := hcount.trans_lt hroom
      rw [if_pos hlt]
      refine ⟨_, rfl, ⟨fun q => ?_, h.transactions, h.unlinked, h.freed⟩, rfl, rfl⟩
      by_cases hqp : q = p
      · subst hqp
        refine .linked (Heap.read_write_self (Heap.lt_fresh hread) _) ?_ hmark hid
          hlinked hun hfreed
        rw [addRef, if_pos rfl, hcount]
      · exact (h.life q).of_same ⟨by rw [Heap.fresh_write], Heap.read_write_of_ne _ _ hqp, Iff.rfl,
          Iff.rfl, Iff.rfl, fun _ hid => hid⟩ (if_neg hqp)
    · intro hfull
      have hnot : ¬ e.refcount < 0x7fffffff := hcount ▸ hfull
      rw [if_neg hnot]

/-- **A release drops a reference**, and frees an entry that waited for it. -/
theorem releaseTransactionLocked_of_inv (h : r.Inv refs) (hheld : 0 < refs p) :
    ∃ r', r.releaseTransactionLocked p = some r' ∧ r'.Inv (dropRef refs p) ∧ r'.minted = r.minted ∧
      r'.nextIdx = r.nextIdx := by
  have hother := fun q (hqp : q ≠ p) (a : RegistryEntry) => Heap.read_write_of_ne r.heap a hqp
  have hdrop : dropRef refs p p = refs p - 1 := if_pos rfl
  unfold releaseTransactionLocked
  cases h.life p with
  | absent _ hzero => exact absurd hheld (by omega)
  | freed _ _ hzero => exact absurd hheld (by omega)
  | @linked e hread hcount hmark hid hlinked hun hfreed =>
    rw [Option.bind_eq_bind, hread, Option.bind_some]
    dsimp only
    have hsome : e.refcount > 0 := hcount ▸ hheld
    rw [if_pos hsome, if_neg fun hboth => Bool.noConfusion (hmark.symm.trans hboth.2)]
    refine ⟨_, rfl, ⟨fun q => ?_, h.transactions, h.unlinked, h.freed⟩, rfl, rfl⟩
    by_cases hqp : q = p
    · subst hqp
      refine .linked (Heap.read_write_self (Heap.lt_fresh hread) _) ?_ hmark hid hlinked hun hfreed
      rw [hdrop, ← hcount]
    · exact (h.life q).of_same ⟨by rw [Heap.fresh_write], hother q hqp _, Iff.rfl, Iff.rfl, Iff.rfl,
        fun _ hid => hid⟩ (if_neg hqp)
  | @pending e hread hcount hmark hpos hlinked hun hfreed =>
    have hlt := Heap.lt_fresh hread
    rw [Option.bind_eq_bind, hread, Option.bind_some]
    dsimp only
    have hsome : e.refcount > 0 := hcount ▸ hheld
    rw [if_pos hsome]
    by_cases hlast : e.refcount - 1 = 0
    · -- the last release
      rw [if_pos ⟨hlast, hmark⟩]
      refine ⟨_, rfl, ⟨fun q => ?_, h.transactions, h.unlinked,
        nodup_append_singleton h.freed hfreed⟩, rfl, rfl⟩
      by_cases hqp : q = p
      · subst hqp
        refine .freed ?_ (Heap.read_free_self _ _) ?_ hlinked hun
          (List.mem_append_right _ (List.mem_singleton_self q))
        · rw [freeEntry, Heap.fresh_free, Heap.fresh_write]
          exact hlt
        · rw [hdrop, ← hcount, hlast]
      · refine (h.life q).of_same ⟨?_, ?_, Iff.rfl, Iff.rfl, mem_append_singleton hqp, fun _ hid =>
          hid⟩ (if_neg hqp)
        · rw [freeEntry, Heap.fresh_free, Heap.fresh_write]
        · exact (Heap.read_free_of_ne _ hqp).trans (hother q hqp _)
    · rw [if_neg fun hboth => hlast hboth.1]
      refine ⟨_, rfl, ⟨fun q => ?_, h.transactions, h.unlinked, h.freed⟩, rfl, rfl⟩
      by_cases hqp : q = p
      · subst hqp
        refine .pending (Heap.read_write_self hlt _) ?_ hmark ?_ hlinked hun hfreed
        · rw [hdrop, ← hcount]
        · rw [hdrop, ← hcount]
          exact Nat.pos_of_ne_zero hlast
      · exact (h.life q).of_same ⟨by rw [Heap.fresh_write], hother q hqp _, Iff.rfl, Iff.rfl,
          Iff.rfl, fun _ hid => hid⟩ (if_neg hqp)

/-! ## Ids -/

/-- The ids that were handed out count from 1 on. -/
structure Counted (r : TxRegistry) : Prop where
  minted : r.minted = (List.range r.minted.length).map fun i => UInt32.ofNat (i + 1)
  next : r.nextIdx = UInt32.ofNat r.minted.length

theorem ofNat_inj {a b : ℕ} (ha : a < 2 ^ 32) (hb : b < 2 ^ 32)
    (heq : UInt32.ofNat (a + 1) = UInt32.ofNat (b + 1)) :
    a = b := by
  have hmod := congrArg UInt32.toNat heq
  rw [UInt32.toNat_ofNat', UInt32.toNat_ofNat'] at hmod
  omega

theorem Counted.nodup (h : r.Counted) (hle : r.minted.length ≤ 2 ^ 32) : r.minted.Nodup := by
  rw [h.minted]
  refine List.Nodup.map_on (fun i hi j hj heq => ?_) List.nodup_range
  exact ofNat_inj (lt_of_lt_of_le (List.mem_range.mp hi) hle)
    (lt_of_lt_of_le (List.mem_range.mp hj) hle) heq

theorem Counted.next_eq (h : r.Counted) : r.nextIdx + 1 = UInt32.ofNat (r.minted.length + 1) := by
  rw [h.next]
  apply UInt32.toNat_inj.mp
  rw [UInt32.toNat_add, UInt32.toNat_ofNat', UInt32.toNat_ofNat']
  show (r.minted.length % 2 ^ 32 + 1) % 2 ^ 32 = _
  omega

theorem Counted.mem_minted (h : r.Counted) :
    idx ∈ r.minted ↔ ∃ i < r.minted.length, UInt32.ofNat (i + 1) = idx := by
  have hmem : idx ∈ r.minted ↔ idx ∈ (List.range r.minted.length).map fun i =>
    UInt32.ofNat (i + 1) := by
    rw [← h.minted]
  rw [hmem, List.mem_map]
  simp only [List.mem_range]

/-- The next id is new exactly as long as there are ids left. -/
theorem Counted.next_notMem_iff (h : r.Counted) (hle : r.minted.length ≤ 2 ^ 32) :
    r.nextIdx + 1 ∉ r.minted ↔ r.minted.length < 2 ^ 32 := by
  rw [h.next_eq, h.mem_minted]
  constructor
  · intro hnew
    by_contra hfull
    have hlen : r.minted.length = 2 ^ 32 := Nat.le_antisymm hle (Nat.not_lt.mp hfull)
    refine hnew ⟨0, hlen ▸ Nat.two_pow_pos 32, ?_⟩
    apply UInt32.toNat_inj.mp
    rw [UInt32.toNat_ofNat', UInt32.toNat_ofNat', hlen]
    omega
  · rintro hlt ⟨i, hi, heq⟩
    exact absurd (ofNat_inj (hi.trans hlt) hlt heq) (Nat.ne_of_lt hi)

theorem Counted.of_same (h : r.Counted) (hminted : r'.minted = r.minted)
    (hnext : r'.nextIdx = r.nextIdx) :
    r'.Counted := by
  constructor
  · rw [hminted]
    exact h.minted
  · rw [hminted, hnext]
    exact h.next

theorem Counted.concat (h : r.Counted) (hminted : r'.minted = r.minted ++ [r.nextIdx + 1])
    (hnext : r'.nextIdx = r.nextIdx + 1) : r'.Counted := by
  have hlen : r'.minted.length =
    r.minted.length + 1 := by rw [hminted, List.length_append, List.length_singleton]
  constructor
  · rw [hlen, List.range_succ, List.map_append, List.map_singleton, ← h.next_eq,
      ← h.minted, hminted]
  · rw [hlen, hnext, h.next_eq]

theorem findTransactionLocked_eq_none (h : r.Inv refs) (hnew : idx ∉ r.minted) :
    r.findTransactionLocked idx = none := by
  cases hfind : r.findTransactionLocked idx with
  | none => rfl
  | some p =>
    obtain ⟨hp, e, hread, hid⟩ := findTransactionLocked_eq_some hfind
    cases h.life p with
    | absent _ _ hlinked => exact absurd hp hlinked
    | pending _ _ _ _ hlinked => exact absurd hp hlinked
    | freed _ _ _ hlinked => exact absurd hp hlinked
    | linked hread' _ _ hminted =>
      obtain rfl := Option.some.inj (hread.symm.trans hread')
      exact absurd (hid ▸ hminted) hnew

/-- **A transaction is started** under an id that nothing in the table has. -/
theorem startTransactionTs_of_inv (h : r.Inv refs) (hnew : r.nextIdx + 1 ∉ r.minted) :
    ∃ r', r.startTransactionTs true = some r' ∧ r'.Inv refs ∧
    r'.minted = r.minted ++ [r.nextIdx + 1] ∧
      r'.nextIdx = r.nextIdx + 1 := by
  obtain ⟨entry, hentry⟩ : ∃ entry : RegistryEntry, entry =
      { idx := r.nextIdx + 1, transaction := txNew, refcount := 0, pendingDelete := false } :=
    ⟨_, rfl⟩
  have hself := Heap.read_alloc_self r.heap entry
  have hother := fun q (hq : q ≠ r.heap.fresh) => Heap.read_alloc_of_ne r.heap entry hq
  obtain ⟨hzero, hlinked, hun, hfreed⟩ :
      refs r.heap.fresh = 0 ∧ r.heap.fresh ∉ r.transactions ∧ r.heap.fresh ∉ r.unlinked ∧
        r.heap.fresh ∉ r.freed := by
    cases h.life r.heap.fresh with
    | absent _ hzero hlinked hun hfreed => exact ⟨hzero, hlinked, hun, hfreed⟩
    | linked hread => exact absurd (Heap.lt_fresh hread) (lt_irrefl _)
    | pending hread => exact absurd (Heap.lt_fresh hread) (lt_irrefl _)
    | freed hlt => exact absurd hlt (lt_irrefl _)
  have hnone : { r with heap := r.heap.alloc entry, nextIdx := r.nextIdx + 1 }.findTransactionLocked
      (r.nextIdx + 1) = none := by
    refine List.find?_eq_none.mpr fun q hq => ?_
    have hold := List.find?_eq_none.mp (findTransactionLocked_eq_none h hnew) q hq
    have hne : q ≠ r.heap.fresh := fun heq => hlinked (heq ▸ hq)
    dsimp only
    rw [hother q hne]
    exact hold
  have hrun : r.startTransactionTs true = some { r with
      heap := r.heap.alloc entry, nextIdx := r.nextIdx + 1, minted := r.minted ++ [r.nextIdx + 1]
      transactions := r.transactions ++ [r.heap.fresh] } := by
    unfold startTransactionTs newTransactionLocked addTransactionLocked
    dsimp only
    rw [if_pos rfl, ← hentry, Option.bind_eq_bind, Option.bind_eq_bind, hself, Option.bind_some]
    have hid : entry.idx = r.nextIdx + 1 := by rw [hentry]
    rw [hid, hnone]
    rfl
  refine ⟨_, hrun, ⟨fun q => ?_, nodup_append_singleton h.transactions hlinked, h.unlinked,
    h.freed⟩, rfl, rfl⟩
  by_cases hq : q = r.heap.fresh
  · subst hq
    refine .linked hself ?_ ?_ ?_ (List.mem_append_right _ (List.mem_singleton_self _)) hun hfreed
    · rw [hentry, hzero]
    · rw [hentry]
    · rw [hentry]
      exact List.mem_append_right _ (List.mem_singleton_self _)
  · have hlt : q < r.heap.fresh + 1 ↔ q < r.heap.fresh := by omega
    refine (h.life q).of_same ⟨?_, hother q hq, mem_append_singleton hq, Iff.rfl, Iff.rfl, ?_⟩ rfl
    · rw [Heap.fresh_alloc]
      exact hlt
    · exact fun idx hid => List.mem_append_left _ hid

end TxRegistry

namespace RegistryState

/-- Ids are handed out once, entries unlinked and freed once, and only freed when they are unlinked
and nobody holds them; nobody holds a freed entry; with nothing held, what was unlinked is freed. -/
structure Right (s : RegistryState) : Prop where
  minted : s.minted.Nodup
  unlinked : s.unlinked.Nodup
  freed : s.freed.Nodup
  free : ∀ p ∈ s.freed, p ∈ s.unlinked ∧ s.refs p = 0
  held : ∀ client p, (client, p) ∈ s.holds → p ∉ s.freed ∧ (s.heap.read p).isSome
  all : s.holds = [] → ∀ p ∈ s.unlinked, p ∈ s.freed

/-! ## Runs -/

variable {s s' : RegistryState} {call : RegistryCall}

/-- What every run keeps whose steps are covered. -/
structure Inv (s : RegistryState) : Prop where
  entries : s.toTxRegistry.Inv s.refs
  ids : s.toTxRegistry.Counted
  count : s.minted.length ≤ 2 ^ 32

theorem refs_cons (s : RegistryState) (client p : ℕ) :
    refs { s with holds := (client, p) :: s.holds } = TxRegistry.addRef s.refs p := by
  funext q
  unfold TxRegistry.addRef
  by_cases hq : q = p
  · subst hq
    rw [if_pos rfl]
    exact References.refCount_cons_self s.holds client q
  · rw [if_neg hq]
    exact References.refCount_cons_of_ne s.holds client hq

theorem refs_erase {client p : ℕ} (hmem : (client, p) ∈ s.holds) :
    refs { s with holds := s.holds.erase (client, p) } = TxRegistry.dropRef s.refs p := by
  funext q
  unfold TxRegistry.dropRef
  by_cases hq : q = p
  · subst hq
    rw [if_pos rfl]
    exact Nat.eq_sub_of_add_eq (References.refCount_erase_self hmem)
  · rw [if_neg hq]
    exact References.refCount_erase_of_ne hmem hq

theorem refs_pos {client p : ℕ} (hmem : (client, p) ∈ s.holds) :
    0 < s.refs p := References.refCount_pos hmem

theorem right_of_inv (h : s.Inv) : s.Right := by
  refine ⟨h.ids.nodup h.count, h.entries.unlinked, h.entries.freed, fun p hp => ?_,
    fun client p hmem => ?_, fun hempty p hp => ?_⟩
  · cases h.entries.life p with
    | absent _ _ _ _ hnot => exact absurd hp hnot
    | linked _ _ _ _ _ _ hnot => exact absurd hp hnot
    | pending _ _ _ _ _ _ hnot => exact absurd hp hnot
    | freed _ _ hzero _ hun => exact ⟨hun, hzero⟩
  · have hpos := refs_pos hmem
    cases h.entries.life p with
    | absent _ hzero => exact absurd hpos (by omega)
    | freed _ _ hzero => exact absurd hpos (by omega)
    | linked hread _ _ _ _ _ hnot => exact ⟨hnot, by rw [hread]; rfl⟩
    | pending hread _ _ _ _ _ hnot => exact ⟨hnot, by rw [hread]; rfl⟩
  · have hzero : s.refs p = 0 := by
      unfold refs
      rw [hempty]
      rfl
    cases h.entries.life p with
    | absent _ _ _ hnot => exact absurd hp hnot
    | linked _ _ _ _ _ hnot => exact absurd hp hnot
    | pending _ _ _ hpos => exact absurd hpos (by omega)
    | freed _ _ _ _ _ hfreed => exact hfreed

theorem inv_withRegistry (h : s.Inv) {r : TxRegistry} (hinv : r.Inv s.refs)
    (hminted : r.minted = s.minted) (hnext : r.nextIdx = s.nextIdx) : (s.withRegistry r).Inv :=
  ⟨hinv, h.ids.of_same hminted hnext, hminted.symm ▸ h.count⟩

/-- **A covered call is defined, and keeps the invariant.** -/
theorem inv_step (h : s.Inv) (hdisc : s.Disciplined call) (hcov : s.Covered call) :
    ∃ s', s.step call = some s' ∧ s'.Inv := by
  cases call with
  | start client memory =>
    cases memory with
    | false => exact ⟨s, rfl, h⟩
    | true =>
      have hlt := hcov rfl
      obtain ⟨r, hrun, hinv, hminted, hnext⟩ :=
        TxRegistry.startTransactionTs_of_inv h.entries ((h.ids.next_notMem_iff h.count).mpr hlt)
      refine ⟨s.withRegistry r, ?_, hinv, h.ids.concat hminted hnext, ?_⟩
      · rw [step, hrun]
        rfl
      · show r.minted.length ≤ 2 ^ 32
        rw [hminted, List.length_append]
        exact hlt
  | find client idx =>
    cases hfind : s.findTransactionLocked idx with
    | none =>
      have hrun : s.findTransactionTs idx = some (none, s.toTxRegistry) := by
        unfold TxRegistry.findTransactionTs
        rw [hfind]
      refine ⟨s, ?_, h⟩
      rw [step, hrun]
      rfl
    | some p =>
      obtain ⟨r, hrun, hinv, hminted, hnext⟩ :=
        (TxRegistry.findTransactionTs_of_inv h.entries hfind).1 (hcov p hfind)
      refine ⟨{ r with holds := (client, p) :: s.holds }, ?_, ?_, h.ids.of_same hminted hnext,
        hminted.symm ▸ h.count⟩
      · rw [step, hrun]
        rfl
      · rw [← refs_cons s client p] at hinv
        exact hinv
  | release client p =>
    obtain ⟨r, hrun, hinv, hminted, hnext⟩ :=
      TxRegistry.releaseTransactionLocked_of_inv h.entries (refs_pos hdisc)
    refine ⟨{ r with holds := s.holds.erase (client, p) }, ?_, ?_, h.ids.of_same hminted hnext,
      hminted.symm ▸ h.count⟩
    · rw [step, hrun]
      rfl
    · rw [← refs_erase hdisc] at hinv
      exact hinv
  | remove client p =>
    obtain ⟨r, hrun, hinv, -, hminted, hnext⟩ :=
      TxRegistry.removeTransactionLocked_of_linked h.entries hcov
    refine ⟨s.withRegistry r, ?_, inv_withRegistry h hinv hminted hnext⟩
    rw [step, hrun]
    rfl
  | clear client idx =>
    obtain ⟨r, hrun, hinv, hminted, hnext⟩ := TxRegistry.clearTransactionTs_of_inv h.entries idx
    refine ⟨s.withRegistry r, ?_, inv_withRegistry h hinv hminted hnext⟩
    rw [step, hrun]
    rfl
  | removeAll client =>
    obtain ⟨r, hrun, hinv, hminted, hnext⟩ := TxRegistry.removeAllTs_of_inv h.entries
    refine ⟨s.withRegistry r, ?_, inv_withRegistry h hinv hminted hnext⟩
    rw [step, hrun]
    rfl

theorem inv_of_reach (h : registrySystem.Reach (fun s call => s.Disciplined call ∧
    s.Covered call) s) : s.Inv := by
  refine h.invariant (fun s hinit => ?_) fun s call s' hinv hguard hstep => ?_
  · obtain rfl := hinit
    refine ⟨⟨fun p => ?_, List.nodup_nil, List.nodup_nil, List.nodup_nil⟩,
      ⟨rfl, rfl⟩, Nat.zero_le _⟩
    exact .absent (Nat.zero_le p) rfl List.not_mem_nil List.not_mem_nil List.not_mem_nil
  · obtain ⟨t, ht, hinv'⟩ := inv_step hinv hguard.1 hguard.2
    obtain rfl := Option.some.inj (ht.symm.trans hstep)
    exact hinv'

theorem minted_startTransactionTs {r r' : TxRegistry} (hrun : r.startTransactionTs true = some r') :
    r'.minted = r.minted ++ [r.nextIdx + 1] := by
  unfold TxRegistry.startTransactionTs at hrun
  rw [if_pos rfl] at hrun
  dsimp only at hrun
  rw [Option.bind_eq_bind, Option.bind_eq_some_iff] at hrun
  obtain ⟨r₁, hadd, hrun⟩ := hrun
  obtain rfl := Option.some.inj hrun
  unfold TxRegistry.newTransactionLocked TxRegistry.addTransactionLocked at hadd
  rw [Option.bind_eq_bind, Option.bind_eq_some_iff] at hadd
  obtain ⟨e, hread, hadd⟩ := hadd
  split at hadd
  · obtain rfl := Option.some.inj hadd
    rfl
  · obtain rfl := Option.some.inj hadd
    rfl

/-- A call that is not covered is not defined, or hands out an id for the second time. -/
theorem not_right_of_not_covered (h : s.Inv) (hcov : ¬ s.Covered call) :
    ¬ ∃ s', s.step call = some s' ∧ s'.Right := by
  rintro ⟨s', hstep, hright⟩
  cases call with
  | start client memory =>
    obtain ⟨rfl, hfull⟩ := Classical.not_imp.mp hcov
    obtain ⟨r, hrun, rfl⟩ := Option.map_eq_some_iff.mp hstep
    have hmem := not_not.mp (mt (h.ids.next_notMem_iff h.count).mp hfull)
    have hnodup : r.minted.Nodup := hright.minted
    rw [minted_startTransactionTs hrun] at hnodup
    exact List.disjoint_of_nodup_append hnodup hmem (List.mem_singleton_self _)
  | find client idx =>
    obtain ⟨p, hp⟩ := not_forall.mp hcov
    obtain ⟨hfind, hfull⟩ := Classical.not_imp.mp hp
    rw [step, (TxRegistry.findTransactionTs_of_inv h.entries hfind).2 hfull] at hstep
    cases hstep
  | remove client p =>
    have hnot : p ∉ s.transactions := hcov
    rw [step, TxRegistry.removeTransactionLocked, TxRegistry.hashDel, if_neg hnot] at hstep
    cases hstep
  | release client p => exact hcov trivial
  | clear client idx => exact hcov trivial
  | removeAll client => exact hcov trivial

/-- **No entry is freed while it is held, and none is unlinked or freed twice**, in every run whose
calls are covered; and a disciplined call keeps that exactly if it is covered. -/
theorem registryRight_of_reach
    (h : registrySystem.Reach (fun s call => s.Disciplined call ∧ s.Covered call) s) :
    s.Right ∧ ∀ call, s.Disciplined call →
    ((∃ s', s.step call = some s' ∧ s'.Right) ↔ s.Covered call) := by
  have hinv := inv_of_reach h
  refine ⟨right_of_inv hinv, fun call hdisc => ⟨fun hdefined => ?_, fun hcov => ?_⟩⟩
  · by_contra hcov
    exact not_right_of_not_covered hinv hcov hdefined
  · obtain ⟨s', hstep, hinv'⟩ := inv_step hinv hdisc hcov
    exact ⟨s', hstep, right_of_inv hinv'⟩

/-- The registry before the first call. -/
def start : RegistryState := { TxRegistry.new with holds := [] }

/-- Two clients find an entry, and one of them removes it. -/
def heldRun : List RegistryCall := [.start 0 true, .find 1 1, .find 2 1, .remove 1 0]

theorem registryRight_of_reach_heldRun :
    ∃ s, registrySystem.run start heldRun = some s ∧ s.Right ∧
      ∀ call, s.Disciplined call → ((∃ s', s.step call = some s' ∧ s'.Right) ↔ s.Covered call) := by
  have hmeets : registrySystem.Meets (fun s call => s.Disciplined call ∧
    s.Covered call) start heldRun := by
    decide +kernel
  obtain ⟨s, hrun⟩ := Option.isSome_iff_exists.mp
    (by decide +kernel : (registrySystem.run start heldRun).isSome)
  exact ⟨s, hrun, registryRight_of_reach (.of_run (.init rfl) hmeets hrun)⟩

/-- The other one removes it, too. -/
theorem not_registryRight_of_reach :
    ¬ ∀ s, registrySystem.Reach RegistryState.Disciplined s →
      s.Right ∧ ∀ call, s.Disciplined call → ∃ s', s.step call = some s' ∧ s'.Right := by
  intro hall
  have hmeets : registrySystem.Meets RegistryState.Disciplined start heldRun := by decide +kernel
  have htwice : (registrySystem.run start heldRun).any fun s =>
      decide (s.Disciplined (.remove 2 0)) && (s.step (.remove 2 0)).isNone := by
    decide +kernel
  cases hrun : registrySystem.run start heldRun with
  | none =>
    rw [hrun] at htwice
    cases htwice
  | some s =>
    rw [hrun, Option.any_some, Bool.and_eq_true, decide_eq_true_eq,
      Option.isNone_iff_eq_none] at htwice
    obtain ⟨s', hstep, -⟩ := (hall s (.of_run (.init rfl) hmeets hrun)).2 _ htwice.1
    rw [htwice.2] at hstep
    cases hstep

end RegistryState

end Libdogecoin
