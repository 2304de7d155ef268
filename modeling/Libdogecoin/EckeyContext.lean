/-
# The registry of keys

The clients of `eckey.c` look keys up in a registry, hold them, and remove them while others still
hold them. The references to an entry are counted in a table beside the registry, and the free of a
removed entry is left to its last release. Every call is one step.

* `inv_step` : what the registry and the table have to do with the references;
* `keysRight_of_reach` : no entry is freed while it is held, and none is freed or unlinked twice, as
  long as entries are only removed while they are linked.

Checks of null pointers are left out, as are the texts of an entry that no call reads.
-/
import Libdogecoin.Heap
import Libdogecoin.References
import Libdogecoin.Serialize
import Libdogecoin.Transition

namespace Libdogecoin

open References

/-! ## The registry -/

/-- `eckey`. -/
structure Eckey where
  idx : UInt32
  privateKey : Bytes
  privateKeyWif : Bytes
  publicKey : Bytes

/-- `eckey_lifetime`. -/
structure EckeyLifetime where
  refcount : ℕ
  pendingDelete : Bool
  deriving DecidableEq

/-- `dogecoin_eckey_context` with the entries in memory, and the table of their lifetimes. What is
unlinked and freed is written down, the latter with what was in memory then. -/
structure EckeyContext where
  heap : Heap Eckey
  keys : List ℕ
  lifetimes : ℕ → Option EckeyLifetime
  nextIdx : UInt32
  unlinked : List ℕ
  freed : List (ℕ × Eckey)

/-- `dogecoin_privkey_cleanse` and `dogecoin_pubkey_cleanse`. The text of the private key stays. -/
def Eckey.cleanse (e : Eckey) : Eckey :=
  { e with
    privateKey := List.replicate e.privateKey.length 0
    publicKey := List.replicate e.publicKey.length 0 }

/-- Both keys are overwritten. -/
def Eckey.Cleansed (e : Eckey) : Prop := (∀ b ∈ e.privateKey, b = 0) ∧ ∀ b ∈ e.publicKey, b = 0

namespace EckeyContext

/-- `dogecoin_eckey_context_new`. -/
def new : EckeyContext := ⟨⟨[]⟩, [], fun _ => none, 0, [], []⟩

/-- `find_eckey_locked` : the entry in the table with an id. -/
def findEckeyLocked (r : EckeyContext) (idx : UInt32) : Option ℕ :=
  r.keys.find? fun p => (r.heap.read p).any fun e => e.idx = idx

/-- `add_eckey_locked` : an entry whose id is taken is not added. -/
def addEckeyLocked (r : EckeyContext) (p : ℕ) : Option EckeyContext := do
  let e ← r.heap.read p
  match r.findEckeyLocked e.idx with
  | none => some { r with keys := r.keys ++ [p] }
  | some _ => some r

/-- `HASH_DEL` : not defined for an entry that is not in the table, whose neighbours are not its own
any more. -/
def hashDel (r : EckeyContext) (p : ℕ) : Option EckeyContext :=
  if p ∈ r.keys then some { r with keys := r.keys.erase p, unlinked := r.unlinked ++ [p] } else none

/-- `get_or_create_lifetime_locked`, where memory may be short. -/
def getOrCreateLifetimeLocked (r : EckeyContext) (p : ℕ) (memory : Bool) :
    Option (EckeyLifetime × EckeyContext) :=
  match r.lifetimes p with
  | some lt => some (lt, r)
  | none =>
    if memory then
      let lt : EckeyLifetime := { refcount := 0, pendingDelete := false }
      some (lt, { r with lifetimes := Function.update r.lifetimes p (some lt) })
    else none

/-- `drop_lifetime_locked`. -/
def dropLifetimeLocked (r : EckeyContext) (p : ℕ) : EckeyContext :=
  { r with lifetimes := Function.update r.lifetimes p none }

/-- `dogecoin_key_free`. -/
def keyFree (r : EckeyContext) (p : ℕ) : Option EckeyContext := do
  let e ← r.heap.read p
  some { r with heap := r.heap.free p, freed := r.freed ++ [(p, e)] }

/-- `destroy_eckey_locked`. -/
def destroyEckeyLocked (r : EckeyContext) (p : ℕ) : Option EckeyContext := do
  let e ← r.heap.read p
  { r with heap := r.heap.write p e.cleanse }.keyFree p

/-- `dispose_unlinked_eckey_locked`. -/
def disposeUnlinkedEckeyLocked (r : EckeyContext) (p : ℕ) : Option EckeyContext :=
  match r.lifetimes p with
  | none => r.destroyEckeyLocked p
  | some lt =>
    if lt.refcount > 0 then
      some { r with
        lifetimes := Function.update r.lifetimes p (some { lt with pendingDelete := true }) }
    else (r.dropLifetimeLocked p).destroyEckeyLocked p

/-- `remove_eckey_locked`. -/
def removeEckeyLocked (r : EckeyContext) (p : ℕ) : Option EckeyContext := do
  -- the source does not ask whether the entry is still linked
  let r ← r.hashDel p
  r.disposeUnlinkedEckeyLocked p

/-- `release_eckey_locked`. -/
def releaseEckeyLocked (r : EckeyContext) (p : ℕ) : Option EckeyContext :=
  match r.lifetimes p with
  | none => some r
  | some lt =>
    -- the count does not go below zero
    let refcount := if lt.refcount > 0 then lt.refcount - 1 else lt.refcount
    if refcount = 0 then
      let r := r.dropLifetimeLocked p
      if lt.pendingDelete then r.destroyEckeyLocked p else some r
    else some { r with
      lifetimes := Function.update r.lifetimes p (some { lt with refcount := refcount }) }

/-- `new_eckey_ts`, if a key is generated; its id is assigned here. -/
def newEckeyTs (r : EckeyContext) (e : Eckey) : ℕ × EckeyContext :=
  (r.heap.fresh, { r with
    heap := r.heap.alloc { e with idx := r.nextIdx + 1 }, nextIdx := r.nextIdx + 1 })

/-- `start_key_ts`, with the key that is generated. -/
def startKeyTs (r : EckeyContext) (key : Option Eckey) : Option EckeyContext :=
  match key with
  | none => some r
  | some e => (r.newEckeyTs e).2.addEckeyLocked (r.newEckeyTs e).1

/-- `find_eckey_ts` : the count of references is an `int`. -/
def findEckeyTs (r : EckeyContext) (idx : UInt32) (memory : Bool) :
    Option (Option ℕ × EckeyContext) :=
  match r.findEckeyLocked idx with
  | none => some (none, r)
  | some p =>
    match r.getOrCreateLifetimeLocked p memory with
    | none => some (none, r)
    | some (lt, r) =>
      if lt.refcount < 0x7fffffff then
        let lt := { lt with refcount := lt.refcount + 1 }
        some (some p, { r with lifetimes := Function.update r.lifetimes p (some lt) })
      else none

end EckeyContext

/-! ## Clients -/

/-- A call of a client. -/
inductive EckeyCall
  | start (client : ℕ) (key : Option Eckey)
  | find (client : ℕ) (idx : UInt32) (memory : Bool)
  | release (client : ℕ) (entry : ℕ)
  | remove (client : ℕ) (entry : ℕ)

/-- The registry, and one pair of a client and an entry for each find that was not released yet. -/
structure EckeyState extends EckeyContext where
  holds : List (ℕ × ℕ)

namespace EckeyState

/-- One call, by whichever client. -/
def step (s : EckeyState) : EckeyCall → Option EckeyState
  | .start _ key => (s.startKeyTs key).map fun r => { r with holds := s.holds }
  | .find client idx memory => do
      let (entry, r) ← s.findEckeyTs idx memory
      match entry with
      | none => some { r with holds := s.holds }
      | some p => some { r with holds := (client, p) :: s.holds }
  | .release client p => (s.releaseEckeyLocked p).map fun r =>
    { r with holds := s.holds.erase (client, p) }
  | .remove _ p => (s.removeEckeyLocked p).map fun r => { r with holds := s.holds }

/-- Each client releases what it found, once, and removes only what it holds. -/
def Disciplined (s : EckeyState) : EckeyCall → Prop
  | .release client p => (client, p) ∈ s.holds
  | .remove client p => (client, p) ∈ s.holds
  | _ => True

instance (s : EckeyState) : (call : EckeyCall) → Decidable (s.Disciplined call)
  | .start _ _ => instDecidableTrue
  | .find _ _ _ => instDecidableTrue
  | .release client p => inferInstanceAs (Decidable ((client, p) ∈ s.holds))
  | .remove client p => inferInstanceAs (Decidable ((client, p) ∈ s.holds))

/-- An entry is removed by a holder while it is still linked, and there is room in the count of
references. -/
def Covered (s : EckeyState) : EckeyCall → Prop
  | .find _ idx _ => ∀ p, s.findEckeyLocked idx = some p → refCount s.holds p < 2 ^ 31 - 1
  | .remove _ p => p ∈ s.keys
  | _ => True

instance (s : EckeyState) : (call : EckeyCall) → Decidable (s.Covered call)
  | .start _ _ => instDecidableTrue
  | .find _ idx _ => inferInstanceAs
      (Decidable (∀ p ∈ s.findEckeyLocked idx, refCount s.holds p < 2 ^ 31 - 1))
  | .release _ _ => instDecidableTrue
  | .remove _ p => inferInstanceAs (Decidable (p ∈ s.keys))

/-- Entries are unlinked once, and freed once, with their keys overwritten; nobody holds a freed
entry; an entry that was removed and that nobody holds is not in memory. -/
structure Right (s : EckeyState) : Prop where
  unlinked : s.unlinked.Nodup
  freed : (s.freed.map Prod.fst).Nodup
  cleansed : ∀ f ∈ s.freed, f.2.Cleansed
  held : ∀ client p, (client, p) ∈ s.holds → p ∉ s.freed.map Prod.fst ∧ (s.heap.read p).isSome
  all : ∀ p ∈ s.unlinked, refCount s.holds p = 0 → p ∈ s.freed.map Prod.fst ∧ s.heap.read p = none

end EckeyState

/-- The registry and its clients. -/
def eckeySystem : TransitionSystem EckeyState EckeyCall where
  init s := s = { EckeyContext.new with holds := [] }
  step := EckeyState.step

/-! ## The invariant -/

namespace EckeyContext

/-- What the registry and the table of lifetimes have to do with the references to entries, where
the free of one entry may be due. -/
structure Inv (r : EckeyContext) (refs : ℕ → ℕ) (due : Option ℕ) : Prop where
  keys : r.keys.Nodup
  unlinked : r.unlinked.Nodup
  freed : (r.freed.map Prod.fst).Nodup
  cleansed : ∀ f ∈ r.freed, f.2.Cleansed
  disjoint : ∀ p ∈ r.keys, p ∉ r.unlinked
  known : ∀ p, p ∈ r.keys ∨ p ∈ r.unlinked → p < r.heap.fresh
  held : ∀ p, 0 < refs p → p ∈ r.keys ∨ p ∈ r.unlinked
  lifetime : ∀ p, r.lifetimes p = if refs p = 0 then none else
    some ⟨refs p, decide (p ∈ r.unlinked)⟩
  freed_iff : ∀ p, p ∈ r.freed.map Prod.fst ↔ p ∈ r.unlinked ∧ refs p = 0 ∧ due ≠ some p
  read : ∀ p, (r.heap.read p).isSome ↔ p < r.heap.fresh ∧ p ∉ r.freed.map Prod.fst

variable {r : EckeyContext} {refs refs' : ℕ → ℕ} {due : Option ℕ} {p q : ℕ}

theorem cleansed_cleanse (e : Eckey) : e.cleanse.Cleansed :=
  ⟨fun _ hb => List.eq_of_mem_replicate hb, fun _ hb => List.eq_of_mem_replicate hb⟩

theorem mem_concat_self (l : List ℕ) (p : ℕ) :
    p ∈ l ++ [p] := List.mem_append_right l (List.mem_singleton_self p)

theorem mem_concat_of_ne {l : List ℕ} (hne : q ≠ p) : q ∈ l ++ [p] ↔ q ∈ l := by
  rw [List.mem_append, List.mem_singleton, or_iff_left hne]

theorem nodup_concat {l : List ℕ} (h : l.Nodup) (hp : p ∉ l) : (l ++ [p]).Nodup :=
  List.nodup_append_comm.mp (List.nodup_cons.mpr ⟨hp, h⟩)

/-- What is not freed is in memory. -/
theorem Inv.exists_read (h : r.Inv refs due) (hlt : p < r.heap.fresh)
    (hfreed : p ∉ r.freed.map Prod.fst) :
    ∃ e, r.heap.read p = some e :=
  Option.isSome_iff_exists.mp ((h.read p).mpr ⟨hlt, hfreed⟩)

/-! ## Freeing -/

/-- **The free that is due**, with the keys overwritten. -/
theorem destroyEckeyLocked_of_due (h : r.Inv refs (some p)) (hun : p ∈ r.unlinked)
    (hzero : refs p = 0) :
    ∃ r', r.destroyEckeyLocked p = some r' ∧ r'.Inv refs none := by
  have hfreed : p ∉ r.freed.map Prod.fst := fun hmem => ((h.freed_iff p).mp hmem).2.2 rfl
  obtain ⟨e, hread⟩ := h.exists_read (h.known p (Or.inr hun)) hfreed
  have hrun : r.destroyEckeyLocked p = some { r with
      heap := (r.heap.write p e.cleanse).free p, freed := r.freed ++ [(p, e.cleanse)] } := by
    unfold destroyEckeyLocked
    rw [hread, Option.bind_eq_bind, Option.bind_some, keyFree,
      Heap.read_write_self (Heap.lt_fresh hread)]
    rfl
  have hmap : (r.freed ++ [(p, e.cleanse)]).map Prod.fst = r.freed.map Prod.fst ++ [p] :=
    List.map_append
  refine ⟨_, hrun, h.keys, h.unlinked, ?_, ?_, h.disjoint, ?_, h.held, h.lifetime, ?_, ?_⟩
  · dsimp only
    rw [hmap]
    exact nodup_concat h.freed hfreed
  · intro f hf
    rcases List.mem_append.mp hf with hf | hf
    · exact h.cleansed f hf
    · rw [List.mem_singleton.mp hf]
      exact cleansed_cleanse e
  · dsimp only
    rw [Heap.fresh_free, Heap.fresh_write]
    exact h.known
  · intro q
    dsimp only
    rw [hmap]
    by_cases hq : q = p
    · subst hq
      exact iff_of_true (mem_concat_self _ q) ⟨hun, hzero, Option.some_ne_none q |>.symm⟩
    · rw [mem_concat_of_ne hq, h.freed_iff q]
      simp [Ne.symm hq]
  · intro q
    dsimp only
    rw [hmap, Heap.fresh_free, Heap.fresh_write]
    by_cases hq : q = p
    · subst hq
      rw [Heap.read_free_self]
      exact iff_of_false Bool.false_ne_true fun hboth => hboth.2 (mem_concat_self _ q)
    · rw [Heap.read_free_of_ne _ hq, Heap.read_write_of_ne _ _ hq, h.read q, mem_concat_of_ne hq]

/-- Unlinking an entry makes its free due if nobody holds it, and otherwise its lifetime has to be
marked. -/
theorem inv_unlink (h : r.Inv refs none) (hp : p ∈ r.keys) (lifetimes : ℕ → Option EckeyLifetime)
    (hself : lifetimes p = if refs p = 0 then none else some ⟨refs p, true⟩)
    (hother : ∀ q, q ≠ p → lifetimes q = r.lifetimes q) :
    Inv { r with
        keys := r.keys.erase p, unlinked := r.unlinked ++ [p], lifetimes := lifetimes } refs
      (if refs p = 0 then some p else none) := by
  have hnot := h.disjoint p hp
  refine ⟨h.keys.erase p, nodup_concat h.unlinked hnot, h.freed, h.cleansed, ?_, ?_,
    ?_, ?_, ?_, h.read⟩
  · intro q hq
    obtain ⟨hne, hmem⟩ := h.keys.mem_erase_iff.mp hq
    rw [mem_concat_of_ne hne]
    exact h.disjoint q hmem
  · intro q hq
    by_cases hqp : q = p
    · subst hqp
      exact h.known q (Or.inl hp)
    · rw [List.mem_erase_of_ne hqp, mem_concat_of_ne hqp] at hq
      exact h.known q hq
  · intro q hq
    by_cases hqp : q = p
    · subst hqp
      exact Or.inr (mem_concat_self _ q)
    · rw [List.mem_erase_of_ne hqp, mem_concat_of_ne hqp]
      exact h.held q hq
  · intro q
    dsimp only
    by_cases hqp : q = p
    · subst hqp
      rw [hself, decide_eq_true (mem_concat_self _ q)]
    · rw [hother q hqp, h.lifetime q]
      simp only [mem_concat_of_ne hqp]
  · intro q
    dsimp only
    rw [h.freed_iff q]
    by_cases hqp : q = p
    · subst hqp
      rcases Nat.eq_zero_or_pos (refs q) with hzero | hpos
      · simp [hnot, hzero]
      · simp [hnot, Nat.pos_iff_ne_zero.mp hpos]
    · rw [mem_concat_of_ne hqp]
      split
      · simp [Ne.symm hqp]
      · rfl

/-- **A linked entry is removed**: at once if nobody holds it, and otherwise it is marked. -/
theorem removeEckeyLocked_of_linked (h : r.Inv refs none) (hp : p ∈ r.keys) :
    ∃ r', r.removeEckeyLocked p = some r' ∧ r'.Inv refs none := by
  have hlifetime := h.lifetime p
  unfold removeEckeyLocked hashDel disposeUnlinkedEckeyLocked
  rw [if_pos hp, Option.bind_eq_bind, Option.bind_some]
  dsimp only
  -- an entry has a lifetime exactly while somebody holds it
  rcases Nat.eq_zero_or_pos (refs p) with hzero | hpos
  · rw [if_pos hzero] at hlifetime
    have hinv := inv_unlink h hp r.lifetimes (by rw [hlifetime, if_pos hzero]) fun _ _ => rfl
    rw [if_pos hzero] at hinv
    rw [hlifetime]
    exact destroyEckeyLocked_of_due hinv (mem_concat_self _ p) hzero
  · have hne := Nat.pos_iff_ne_zero.mp hpos
    have hinv := inv_unlink h hp (Function.update r.lifetimes p (some ⟨refs p, true⟩))
      (by rw [Function.update_self, if_neg hne]) fun q hq => Function.update_of_ne hq _ _
    rw [if_neg hne] at hlifetime hinv
    rw [hlifetime]
    dsimp only
    rw [if_pos hpos]
    exact ⟨_, rfl, hinv⟩

/-! ## Finding and releasing -/

/-- A find and a release change the count of one entry. -/
theorem inv_count (h : r.Inv refs none) (hp : p ∈ r.keys ∨ p ∈ r.unlinked)
    (hrefs : ∀ q, q ≠ p → refs' q = refs q) (hpos : 0 < refs p ∨ p ∈ r.keys)
    (lifetimes : ℕ → Option EckeyLifetime)
    (hself : lifetimes p = if refs' p = 0 then none else some ⟨refs' p, decide (p ∈ r.unlinked)⟩)
    (hother : ∀ q, q ≠ p → lifetimes q = r.lifetimes q) :
    Inv { r with lifetimes := lifetimes } refs' (if refs' p = 0 ∧ p ∈ r.unlinked then
      some p else none) := by
  have hfreed : p ∉ r.freed.map Prod.fst := by
    intro hmem
    -- what is freed is unlinked and has no reference, so it is not found or released
    obtain ⟨hun, hzero, -⟩ := (h.freed_iff p).mp hmem
    rcases hpos with hpos | hlinked
    · omega
    · exact h.disjoint p hlinked hun
  refine ⟨h.keys, h.unlinked, h.freed, h.cleansed, h.disjoint, h.known, ?_, ?_, ?_, h.read⟩
  · intro q hq
    by_cases hqp : q = p
    · rw [hqp]
      exact hp
    · rw [hrefs q hqp] at hq
      exact h.held q hq
  · intro q
    by_cases hqp : q = p
    · rw [hqp]
      exact hself
    · dsimp only
      rw [hother q hqp, h.lifetime q, hrefs q hqp]
  · intro q
    by_cases hqp : q = p
    · subst hqp
      refine iff_of_false hfreed ?_
      rintro ⟨hun, hzero, hdue⟩
      exact hdue (if_pos ⟨hzero, hun⟩)
    · dsimp only
      rw [h.freed_iff q, hrefs q hqp]
      split
      · simp [Ne.symm hqp]
      · rfl

/-- **A find holds an entry that is linked**, if there is memory for its lifetime and room in its
count. -/
theorem findEckeyTs_of_inv (h : r.Inv refs none) {idx : UInt32}
    (hfind : r.findEckeyLocked idx = some p) (hroom : refs p < 2 ^ 31 - 1)
    (hself : refs' p = refs p + 1) (hother : ∀ q, q ≠ p → refs' q = refs q)
    (memory : Bool) :
    r.findEckeyTs idx memory = some (none, r) ∨
      ∃ r', r.findEckeyTs idx memory = some (some p, r') ∧ r'.Inv refs' none := by
  have hp : p ∈ r.keys := List.mem_of_find?_eq_some hfind
  have hlifetime := h.lifetime p
  have hnot := h.disjoint p hp
  have hinv := inv_count h (Or.inl hp) hother (Or.inr hp)
    (Function.update r.lifetimes p (some ⟨refs p + 1, false⟩))
    (by rw [Function.update_self, hself, if_neg (Nat.succ_ne_zero _), decide_eq_false hnot])
    fun q hq => Function.update_of_ne hq _ _
  rw [if_neg fun hboth => hnot hboth.2] at hinv
  unfold findEckeyTs getOrCreateLifetimeLocked
  rw [hfind]
  dsimp only
  -- the first holder makes the lifetime, for which memory may be short
  rcases Nat.eq_zero_or_pos (refs p) with hzero | hpos
  · rw [hlifetime, if_pos hzero]
    cases memory with
    | false => exact Or.inl rfl
    | true =>
      right
      refine ⟨_, rfl, ?_⟩
      rw [hzero] at hinv
      dsimp only
      rw [Function.update_idem]
      exact hinv
  · have hlt : refs p < 0x7fffffff := hroom
    right
    rw [hlifetime, if_neg (Nat.pos_iff_ne_zero.mp hpos), decide_eq_false hnot]
    dsimp only
    rw [if_pos hlt]
    exact ⟨_, rfl, hinv⟩

/-- There is no room for one more. -/
theorem findEckeyTs_of_full (h : r.Inv refs none) {idx : UInt32}
    (hfind : r.findEckeyLocked idx = some p) (hfull : ¬ refs p < 2 ^ 31 - 1) (memory : Bool) :
    r.findEckeyTs idx memory = none := by
  have hnot : ¬ refs p < 0x7fffffff := hfull
  have hne : refs p ≠ 0 := by omega
  unfold findEckeyTs getOrCreateLifetimeLocked
  rw [hfind]
  dsimp only
  rw [h.lifetime p, if_neg hne]
  dsimp only
  rw [if_neg hnot]

/-- **A release drops a reference**, and frees an entry that waited for it. -/
theorem releaseEckeyLocked_of_inv (h : r.Inv refs none) (hself : refs' p + 1 = refs p)
    (hother : ∀ q, q ≠ p → refs' q = refs q) :
    ∃ r', r.releaseEckeyLocked p = some r' ∧ r'.Inv refs' none := by
  have hpos : 0 < refs p := by omega
  have hsub : refs p - 1 = refs' p := by omega
  have hp := h.held p hpos
  unfold releaseEckeyLocked
  rw [h.lifetime p, if_neg (Nat.pos_iff_ne_zero.mp hpos)]
  dsimp only
  rw [if_pos hpos, hsub]
  by_cases hlast : refs' p = 0
  · -- the last release
    have hinv := inv_count h hp hother (Or.inl hpos) (Function.update r.lifetimes p none)
      (by rw [Function.update_self, if_pos hlast]) fun q hq => Function.update_of_ne hq _ _
    rw [if_pos hlast, dropLifetimeLocked]
    -- an entry that is still linked only loses its lifetime
    by_cases hun : p ∈ r.unlinked
    · rw [if_pos ⟨hlast, hun⟩] at hinv
      rw [decide_eq_true hun, if_pos rfl]
      exact destroyEckeyLocked_of_due hinv hun hlast
    · rw [if_neg fun hboth => hun hboth.2] at hinv
      rw [decide_eq_false hun, if_neg Bool.false_ne_true]
      exact ⟨_, rfl, hinv⟩
  · have hinv := inv_count h hp hother (Or.inl hpos)
      (Function.update r.lifetimes p (some ⟨refs' p, decide (p ∈ r.unlinked)⟩))
      (by rw [Function.update_self, if_neg hlast]) fun q hq => Function.update_of_ne hq _ _
    rw [if_neg fun hboth => hlast hboth.1] at hinv
    rw [if_neg hlast]
    exact ⟨_, rfl, hinv⟩

/-! ## Starting -/

/-- Nothing is known of what is not in memory yet. -/
theorem Inv.fresh_new (h : r.Inv refs due) : r.heap.fresh ∉ r.keys ∧ r.heap.fresh ∉ r.unlinked :=
  ⟨fun hmem => lt_irrefl _ (h.known _ (Or.inl hmem)), fun hmem =>
    lt_irrefl _ (h.known _ (Or.inr hmem))⟩

theorem inv_alloc (h : r.Inv refs none) (e : Eckey) (idx : UInt32) :
    Inv { r with heap := r.heap.alloc e, nextIdx := idx } refs none := by
  refine ⟨h.keys, h.unlinked, h.freed, h.cleansed, h.disjoint, ?_, h.held, h.lifetime,
    h.freed_iff, ?_⟩
  · intro q hq
    dsimp only
    rw [Heap.fresh_alloc]
    exact Nat.lt_succ_of_lt (h.known q hq)
  · intro q
    dsimp only
    rw [Heap.fresh_alloc]
    by_cases hq : q = r.heap.fresh
    · subst hq
      rw [Heap.read_alloc_self]
      refine iff_of_true rfl ⟨Nat.lt_succ_self _, fun hmem => ?_⟩
      exact h.fresh_new.2 ((h.freed_iff _).mp hmem).1
    · have hlt : q < r.heap.fresh + 1 ↔ q < r.heap.fresh := by omega
      rw [Heap.read_alloc_of_ne _ _ hq, h.read q, hlt]

theorem inv_add (h : r.Inv refs none) (hlt : p < r.heap.fresh) (hkeys : p ∉ r.keys)
    (hun : p ∉ r.unlinked) :
    Inv { r with keys := r.keys ++ [p] } refs none := by
  refine ⟨nodup_concat h.keys hkeys, h.unlinked, h.freed, h.cleansed, ?_, ?_, ?_, h.lifetime,
    h.freed_iff, h.read⟩
  · intro q hq
    rcases List.mem_append.mp hq with hq | hq
    · exact h.disjoint q hq
    · rwa [List.mem_singleton.mp hq]
  · rintro q (hq | hq)
    · rcases List.mem_append.mp hq with hq | hq
      · exact h.known q (Or.inl hq)
      · rwa [List.mem_singleton.mp hq]
    · exact h.known q (Or.inr hq)
  · intro q hq
    rcases h.held q hq with hq | hq
    · exact Or.inl (List.mem_append_left _ hq)
    · exact Or.inr hq

/-- **A key is started**; it is not linked if its id is taken. -/
theorem startKeyTs_of_inv (h : r.Inv refs none) (key : Option Eckey) :
    ∃ r', r.startKeyTs key = some r' ∧ r'.Inv refs none := by
  cases key with
  | none => exact ⟨r, rfl, h⟩
  | some e =>
    have hinv := inv_alloc h { e with idx := r.nextIdx + 1 } (r.nextIdx + 1)
    unfold startKeyTs newEckeyTs addEckeyLocked
    dsimp only
    rw [Heap.read_alloc_self, Option.bind_eq_bind, Option.bind_some]
    -- the id may be taken; the entry then stays in memory but is not linked
    split
    · refine ⟨_, rfl, inv_add hinv ?_ h.fresh_new.1 h.fresh_new.2⟩
      rw [Heap.fresh_alloc]
      exact Nat.lt_succ_self _
    · exact ⟨_, rfl, hinv⟩

end EckeyContext

/-! ## Runs -/

namespace EckeyState

variable {s : EckeyState} {call : EckeyCall}

/-- What every run keeps whose steps are covered. -/
def Inv (s : EckeyState) : Prop := s.toEckeyContext.Inv (refCount s.holds) none

theorem right_of_inv (h : s.Inv) : s.Right := by
  refine ⟨h.unlinked, h.freed, h.cleansed, ?_, ?_⟩
  · intro client p hmem
    have hpos := refCount_pos hmem
    have hfreed : p ∉ s.freed.map Prod.fst := by
      intro hfreed
      obtain ⟨-, hzero, -⟩ := (h.freed_iff p).mp hfreed
      omega
    exact ⟨hfreed, (h.read p).mpr ⟨h.known p (h.held p hpos), hfreed⟩⟩
  · intro p hun hzero
    have hfreed : p ∈ s.freed.map Prod.fst :=
      (h.freed_iff p).mpr ⟨hun, hzero, (Option.some_ne_none p).symm⟩
    refine ⟨hfreed, Option.not_isSome_iff_eq_none.mp fun hsome => ?_⟩
    exact ((h.read p).mp hsome).2 hfreed

/-- **A covered call is defined, and keeps the invariant.** -/
theorem inv_step (h : s.Inv) (hdisc : s.Disciplined call) (hcov : s.Covered call) :
    ∃ s', s.step call = some s' ∧ s'.Inv := by
  cases call with
  | start client key =>
    obtain ⟨r, hrun, hinv⟩ := EckeyContext.startKeyTs_of_inv h key
    refine ⟨{ r with holds := s.holds }, ?_, hinv⟩
    rw [step, hrun]
    rfl
  | find client idx memory =>
    cases hfind : s.findEckeyLocked idx with
    | none =>
      have hrun : s.findEckeyTs idx memory = some (none, s.toEckeyContext) := by
        unfold EckeyContext.findEckeyTs
        rw [hfind]
      refine ⟨s, ?_, h⟩
      rw [step, hrun]
      rfl
    | some p =>
      rcases EckeyContext.findEckeyTs_of_inv h hfind (hcov p hfind)
        (refCount_cons_self s.holds client p)
        (fun q hq => refCount_cons_of_ne s.holds client hq) memory with hrun | ⟨r, hrun, hinv⟩
      · refine ⟨s, ?_, h⟩
        rw [step, hrun]
        rfl
      · refine ⟨{ r with holds := (client, p) :: s.holds }, ?_, hinv⟩
        rw [step, hrun]
        rfl
  | release client p =>
    obtain ⟨r, hrun, hinv⟩ := EckeyContext.releaseEckeyLocked_of_inv h (refCount_erase_self hdisc)
      fun q hq => refCount_erase_of_ne hdisc hq
    refine ⟨{ r with holds := s.holds.erase (client, p) }, ?_, hinv⟩
    rw [step, hrun]
    rfl
  | remove client p =>
    obtain ⟨r, hrun, hinv⟩ := EckeyContext.removeEckeyLocked_of_linked h hcov
    refine ⟨{ r with holds := s.holds }, ?_, hinv⟩
    rw [step, hrun]
    rfl

theorem inv_of_reach (h : eckeySystem.Reach (fun s call => s.Disciplined call ∧ s.Covered call) s) :
    s.Inv := by
  refine h.invariant (fun s hinit => ?_) fun s call s' hinv hguard hstep => ?_
  -- nothing is linked, held or freed before the first call
  · obtain rfl := hinit
    refine ⟨List.nodup_nil, List.nodup_nil, List.nodup_nil, ?_, ?_, ?_, ?_, fun _ => rfl, ?_, ?_⟩
    · intro f hf
      cases hf
    · intro p hp
      cases hp
    · rintro p (hp | hp)
      · cases hp
      · cases hp
    · intro p hp
      cases hp
    · intro p
      exact iff_of_false List.not_mem_nil fun hboth => List.not_mem_nil hboth.1
    · intro p
      exact iff_of_false Bool.false_ne_true fun hboth => Nat.not_lt_zero p hboth.1
  · obtain ⟨t, ht, hinv'⟩ := inv_step hinv hguard.1 hguard.2
    obtain rfl := Option.some.inj (ht.symm.trans hstep)
    exact hinv'

/-- A disciplined call that is not covered is not defined. -/
theorem step_of_not_covered (h : s.Inv) (hcov : ¬ s.Covered call) : s.step call = none := by
  cases call with
  | start client key => exact absurd trivial hcov
  | find client idx memory =>
    obtain ⟨p, hp⟩ := not_forall.mp hcov
    obtain ⟨hfind, hfull⟩ := Classical.not_imp.mp hp
    rw [step, EckeyContext.findEckeyTs_of_full h hfind hfull]
    rfl
  | release client p => exact absurd trivial hcov
  | remove client p =>
    have hnot : p ∉ s.keys := hcov
    rw [step, EckeyContext.removeEckeyLocked, EckeyContext.hashDel, if_neg hnot]
    rfl

/-- **No key is freed while it is held, and none is unlinked or freed twice**, in every run whose
calls are covered; and a disciplined call keeps that exactly if it is covered. -/
theorem keysRight_of_reach (h : eckeySystem.Reach (fun s call => s.Disciplined call ∧
    s.Covered call) s) :
    s.Right ∧ ∀ call, s.Disciplined call →
    ((∃ s', s.step call = some s' ∧ s'.Right) ↔ s.Covered call) := by
  have hinv := inv_of_reach h
  refine ⟨right_of_inv hinv, fun call hdisc => ⟨?_, fun hcov => ?_⟩⟩
  · rintro ⟨s', hstep, -⟩
    by_contra hcov
    -- such a call has no result at all
    rw [step_of_not_covered hinv hcov] at hstep
    cases hstep
  · obtain ⟨s', hstep, hinv'⟩ := inv_step hinv hdisc hcov
    exact ⟨s', hstep, right_of_inv hinv'⟩

/-- The registry before the first call. -/
def start : EckeyState := { EckeyContext.new with holds := [] }

/-- Two clients find an entry, and one of them removes it. -/
def heldRun : List EckeyCall :=
  [.start 0 (some ⟨0, [1, 2], [3], [4, 5]⟩), .find 1 1 true, .find 2 1 true, .remove 1 0]

theorem keysRight_of_reach_heldRun :
    ∃ s, eckeySystem.run start heldRun = some s ∧ s.Right ∧
      ∀ call, s.Disciplined call → ((∃ s', s.step call = some s' ∧ s'.Right) ↔ s.Covered call) := by
  have hmeets : eckeySystem.Meets (fun s call => s.Disciplined call ∧
    s.Covered call) start heldRun := by
    decide +kernel
  obtain ⟨s, hrun⟩ := Option.isSome_iff_exists.mp
    (by decide +kernel : (eckeySystem.run start heldRun).isSome)
  exact ⟨s, hrun, keysRight_of_reach (.of_run (.init rfl) hmeets hrun)⟩

/-- The other one removes it, too. -/
theorem not_keysRight_of_reach :
    ¬ ∀ s, eckeySystem.Reach EckeyState.Disciplined s →
      s.Right ∧ ∀ call, s.Disciplined call → ∃ s', s.step call = some s' ∧ s'.Right := by
  intro hall
  have hmeets : eckeySystem.Meets EckeyState.Disciplined start heldRun := by decide +kernel
  have htwice : (eckeySystem.run start heldRun).any fun s =>
      decide (s.Disciplined (.remove 2 0)) && (s.step (.remove 2 0)).isNone := by
    decide +kernel
  cases hrun : eckeySystem.run start heldRun with
  | none =>
    rw [hrun] at htwice
    cases htwice
  | some s =>
    rw [hrun, Option.any_some, Bool.and_eq_true, decide_eq_true_eq,
      Option.isNone_iff_eq_none] at htwice
    obtain ⟨s', hstep, -⟩ := (hall s (.of_run (.init rfl) hmeets hrun)).2 _ htwice.1
    rw [htwice.2] at hstep
    cases hstep

end EckeyState

end Libdogecoin
