/-
# Reconstruction of a block

`dogecoin_compact_block_reconstruct` lays a block out from the prefilled transactions and those that
are known by their short ids, and `dogecoin_compact_block_fill_missing` puts the rest in.

* `placePrefilled_eq_some` : the prefilled transactions are in slots of their own;
* `matchShortIds_eq_put` : each short id decides the slot that belongs to it;
* `reconstruct_layout` : the layout that is left behind, and that it is filled as asked for.
-/
import Libdogecoin.CompactBlock
import Libdogecoin.SipHash
import Libdogecoin.Slots

namespace Libdogecoin

open Slots

/-- The part of `dogecoin_compact_block_state` that a reconstruction works on. -/
structure CompactBlockState where
  availableTxs : Option (List (Option Tx))
  availableTxsCount : UInt32
  missingIndices : Option (List UInt32)
  missingCount : UInt32

/-- The layout of an earlier compact block is dropped. -/
def CompactBlockState.reset (state : CompactBlockState) : CompactBlockState :=
  { state with
    availableTxs := none, availableTxsCount := 0, missingIndices := none, missingCount := 0 }

/-- No layout. -/
def CompactBlockState.IsEmpty (state : CompactBlockState) : Prop :=
  state.availableTxs = none ∧ state.availableTxsCount = 0 ∧ state.missingIndices = none ∧
    state.missingCount = 0

/-- `dogecoin_compact_block_compute_short_id`. -/
def computeShortId (k0 k1 : UInt64) (txhash : Uint256) : ShortId :=
  ⟨LittleEndian.toBytes SHORTTXID_LENGTH (siphashU256 k0 k1 txhash).toNat,
    LittleEndian.length_toBytes _ _⟩

/-- `&short_ids[j * SHORTTXID_LENGTH]`, whose index has 32 bits. -/
def shortIdAt (shortIds : Bytes) (j : ℕ) : Bytes :=
  (shortIds.drop (j * SHORTTXID_LENGTH % 2 ^ 32)).take SHORTTXID_LENGTH

/-- The prefilled transactions are placed. An index out of range or a slot that is taken ends it. -/
def placePrefilled (totalTxs : ℕ) : List PrefilledTx → List (Option Tx) → Option (List (Option Tx))
  | [], availableTxs => some availableTxs
  | ptx :: ptxs, availableTxs =>
    if ptx.index.toNat ≥ totalTxs then none
    else if (availableTxs.getD ptx.index.toNat none).isSome then none
    else placePrefilled totalTxs ptxs (availableTxs.set ptx.index.toNat ptx.tx)

/-- The first empty slots from slot `i` on, at most as many as there are short ids left. -/
def slotPositions : ℕ → List (Option Tx) → ℕ → List ℕ
  | _, [], _ => []
  | _, _ :: _, 0 => []
  | i, none :: slots, n + 1 => i :: slotPositions (i + 1) slots n
  | i, some _ :: slots, n + 1 => slotPositions (i + 1) slots (n + 1)

/-- `shortid_to_txpos`, with the zeros of its allocation. -/
def shortidToTxpos (shortIdsCount : ℕ) (availableTxs : List (Option Tx)) : List ℕ :=
  let positions := slotPositions 0 availableTxs shortIdsCount
  positions ++ List.replicate (shortIdsCount - positions.length) 0

/-- Two short ids are the same. -/
def hasDuplicate (shortIds : Bytes) (shortIdsCount : ℕ) : Bool :=
  (List.range shortIdsCount).any fun j =>
    (List.range' (j + 1) (shortIdsCount - (j + 1))).any fun j2 => shortIdAt shortIds j =
      shortIdAt shortIds j2

section

variable (pf : Platform) (k0 k1 : UInt64)

/-- The known transactions are searched for a short id: the match and whether it is ambiguous. -/
def matchKnown (target : Bytes) : Option Tx → List (Option Tx) → Option Tx × Bool
  | found, [] => (found, false)
  | found, none :: known => matchKnown target found known
  | found, some tx :: known =>
    if target = (computeShortId k0 k1 (txHash pf tx)).1 then
      if found.isSome then (found, true) else matchKnown target (some tx) known
    else matchKnown target found known

/-- One turn of the loop over the short ids. -/
def matchShortId (known : List (Option Tx)) (shortIds : Bytes) (txpos : List ℕ)
    (acc : List (Option Tx) × UInt32) (j : ℕ) : List (Option Tx) × UInt32 :=
  let found := matchKnown pf k0 k1 (shortIdAt shortIds j) none known
  if found.1.isSome && !found.2 then (acc.1.set (txpos.getD j 0) found.1, acc.2)
  else (acc.1, acc.2 + 1)

end

/-- Which allocations of a reconstruction succeed, by what they are for. -/
structure ReconstructAllocs where
  availableTxs : Bool
  shortidToTxpos : Bool
  missingIndices : Bool

/-- The part of `dogecoin_compact_block_reconstruct` behind the prefilled transactions. -/
def reconstructSlots (pf : Platform) (allocs : ReconstructAllocs) (cmpctblk : CompactBlock)
    (state : CompactBlockState) (known : List (Option Tx)) (totalTxs : UInt32)
    (availableTxs : List (Option Tx)) : Bool × CompactBlockState :=
  let shortIdsCount := cmpctblk.shortIds.count
  let shortIds := cmpctblk.shortIds.entries.flatMap Subtype.val
  if 0 < shortIdsCount && !allocs.shortidToTxpos then (false, state)
  else if hasDuplicate shortIds shortIdsCount.toNat then (false, state)
  else
    let txpos := shortidToTxpos shortIdsCount.toNat availableTxs
    let (availableTxs, missingCount) := (List.range shortIdsCount.toNat).foldl
      (matchShortId pf cmpctblk.sipkeyK0 cmpctblk.sipkeyK1 known shortIds txpos) (availableTxs, 0)
    if 0 < missingCount then
      if !allocs.missingIndices then (false, state)
      else
        (false, { state with
          availableTxs := some availableTxs
          availableTxsCount := totalTxs
          missingIndices := some (((List.range shortIdsCount.toNat).filter fun j =>
            (availableTxs.getD (txpos.getD j 0) none).isNone).map fun j =>
              UInt32.ofNat (txpos.getD j 0))
          missingCount := missingCount })
    else
      (true, { state with
        availableTxs := some availableTxs
        availableTxsCount := totalTxs })

/-- `dogecoin_compact_block_reconstruct`. -/
def reconstruct (pf : Platform) (allocs : ReconstructAllocs) (cmpctblk : CompactBlock)
    (state : CompactBlockState) (known : List (Option Tx)) : Bool × CompactBlockState :=
  if cmpctblk.shortIds.count > 0xffffffff - cmpctblk.prefilledTxs.count then (false, state.reset)
  else if cmpctblk.shortIds.count + cmpctblk.prefilledTxs.count = 0 then (false, state.reset)
  else if !allocs.availableTxs then (false, state.reset)
  else
    match placePrefilled (cmpctblk.shortIds.count + cmpctblk.prefilledTxs.count).toNat
      cmpctblk.prefilledTxs.entries
      (List.replicate (cmpctblk.shortIds.count + cmpctblk.prefilledTxs.count).toNat none) with
    | none => (false, state.reset)
    | some availableTxs =>
      reconstructSlots pf allocs cmpctblk state.reset known
        (cmpctblk.shortIds.count + cmpctblk.prefilledTxs.count) availableTxs

/-- The loop of `dogecoin_compact_block_fill_missing` over the transactions of the response. -/
def fillSlots (availableTxsCount : ℕ) : List (UInt32 × Option Tx) → List (Option Tx) →
    Bool × List (Option Tx)
  | [], availableTxs => (true, availableTxs)
  | (idx, tx) :: txs, availableTxs =>
    if idx.toNat ≥ availableTxsCount then (false, availableTxs)
    else fillSlots availableTxsCount txs (availableTxs.set idx.toNat tx)

/-- `dogecoin_compact_block_fill_missing`. -/
def fillMissing (state : CompactBlockState) (resp : BlockTxn) : Bool × CompactBlockState :=
  match state.availableTxs, state.missingIndices with
  | some availableTxs, some missingIndices =>
    if resp.txs.count ≠ state.missingCount then (false, state)
    else
      let (filled, availableTxs) := fillSlots state.availableTxsCount.toNat
        (missingIndices.zip resp.txs.entries) availableTxs
      if !filled then (false, { state with availableTxs := some availableTxs })
      else if (availableTxs.take state.availableTxsCount.toNat).any Option.isNone then
        (false, { state with availableTxs := some availableTxs })
      else (true, { state with availableTxs := some availableTxs, missingCount := 0 })
  | _, _ => (false, state)

/-! ## Prefilled transactions -/

/-- The positions and transactions of prefilled entries. -/
def prefilledPairs (ptxs : List PrefilledTx) : List (ℕ × Option Tx) :=
  ptxs.map fun ptx => (ptx.index.toNat, ptx.tx)

/-- **Prefilled transactions** that are placed are in different slots, which were empty. -/
theorem placePrefilled_eq_some {totalTxs : ℕ} {ptxs : List PrefilledTx}
    {slots slots' : List (Option Tx)} (hnull : ∀ ptx ∈ ptxs, ptx.tx ≠ none)
    (hlen : slots.length = totalTxs)
    (h : placePrefilled totalTxs ptxs slots = some slots') :
    slots' = put (prefilledPairs ptxs) slots ∧ ((prefilledPairs ptxs).map Prod.fst).Nodup ∧
      ∀ ptx ∈ ptxs, slots[ptx.index.toNat]? = some none := by
  induction ptxs generalizing slots with
  | nil =>
    cases h
    exact ⟨rfl, List.nodup_nil, fun _ hptx => by cases hptx⟩
  | cons ptx ptxs ih =>
    rw [placePrefilled] at h
    split at h
    · cases h
    next hlt =>
      split at h
      · cases h
      next hfree =>
        have hlt' : ptx.index.toNat < slots.length := by omega
        have hempty : slots[ptx.index.toNat]? = some none := by
          rw [List.getD_eq_getElem?_getD, List.getElem?_eq_getElem hlt', Option.getD_some,
            Option.not_isSome_iff_eq_none] at hfree
          rw [List.getElem?_eq_getElem hlt', hfree]
        obtain ⟨hput, hnodup, hothers⟩ :=
          ih (fun p hp => hnull p (List.mem_cons_of_mem _ hp)) (by rw [List.length_set, hlen]) h
        -- the slot of this entry is taken, so no later one has it
        have hne : ∀ p ∈ ptxs, ptx.index.toNat ≠ p.index.toNat := by
          intro p hp heq
          have hslot := hothers p hp
          rw [← heq, List.getElem?_set_self hlt'] at hslot
          exact hnull ptx List.mem_cons_self (Option.some.inj hslot)
        refine ⟨hput, ?_, ?_⟩
        · rw [prefilledPairs, List.map_cons, List.map_cons, List.nodup_cons]
          refine ⟨?_, hnodup⟩
          intro hmem
          rw [List.map_map, List.mem_map] at hmem
          obtain ⟨p, hp, heq⟩ := hmem
          exact hne p hp heq.symm
        · intro p hp
          rcases List.mem_cons.mp hp with rfl | hp
          · exact hempty
          · have hslot := hothers p hp
            rwa [List.getElem?_set_ne (hne p hp)] at hslot

/-- The slots without a prefilled transaction, in order. -/
def CompactBlock.freeSlots (cmpctblk : CompactBlock) : List ℕ :=
  (List.range (cmpctblk.shortIds.count.toNat + cmpctblk.prefilledTxs.count.toNat)).filter fun i =>
    cmpctblk.prefilledTxs.entries.all fun ptx => ptx.index.toNat ≠ i

/-- The number of positions in a list that are in range, or not. -/
theorem length_filter_not_mem {n : ℕ} {is : List ℕ} (hnodup : is.Nodup) (hlt : ∀ i ∈ is, i < n) :
    ((List.range n).filter fun i => i ∉ is).length + is.length = n := by
  have hsplit := List.length_eq_length_filter_add (l := List.range n) fun i => decide (i ∈ is)
  have hperm : ((List.range n).filter fun i => i ∈ is).Perm is := by
    rw [List.perm_ext_iff_of_nodup (List.nodup_range.filter _) hnodup]
    intro i
    rw [List.mem_filter, List.mem_range, decide_eq_true_iff]
    exact ⟨fun h => h.2, fun h => ⟨hlt i h, h⟩⟩
  have hnot : ((List.range n).filter fun i => i ∉ is) = (List.range n).filter fun i =>
    !decide (i ∈ is) :=
    List.filter_congr fun i _ => decide_not
  rw [List.length_range, hperm.length_eq] at hsplit
  rw [hnot]
  omega

/-- **The empty slots** behind the prefilled transactions are the free ones, one for each short
id. -/
theorem holes_of_placePrefilled {cmpctblk : CompactBlock} {slots : List (Option Tx)}
    (hpresent : cmpctblk.prefilledTxs.Present)
    (hnull : ∀ ptx ∈ cmpctblk.prefilledTxs.entries, ptx.tx ≠ none)
    (h : placePrefilled (cmpctblk.shortIds.count.toNat + cmpctblk.prefilledTxs.count.toNat)
      cmpctblk.prefilledTxs.entries
      (List.replicate (cmpctblk.shortIds.count.toNat + cmpctblk.prefilledTxs.count.toNat) none) =
      some slots) :
    holes slots = cmpctblk.freeSlots ∧ (holes slots).length = cmpctblk.shortIds.count.toNat ∧
      slots.length = cmpctblk.shortIds.count.toNat + cmpctblk.prefilledTxs.count.toNat ∧
      ∀ ptx ∈ cmpctblk.prefilledTxs.entries, slots[ptx.index.toNat]? = some ptx.tx := by
  obtain ⟨rfl, hnodup, hempty⟩ := placePrefilled_eq_some hnull List.length_replicate h
  have hrange : ∀ ptx ∈ cmpctblk.prefilledTxs.entries,
      ptx.index.toNat < cmpctblk.shortIds.count.toNat + cmpctblk.prefilledTxs.count.toNat := by
    intro ptx hptx
    obtain ⟨hlt, -⟩ := List.getElem?_eq_some_iff.mp (hempty ptx hptx)
    rwa [List.length_replicate] at hlt
  have hplaced : ∀ ptx ∈ cmpctblk.prefilledTxs.entries,
      (put (prefilledPairs cmpctblk.prefilledTxs.entries) (List.replicate
        (cmpctblk.shortIds.count.toNat + cmpctblk.prefilledTxs.count.toNat)
          none))[ptx.index.toNat]? =
          some ptx.tx := by
    intro ptx hptx
    exact getElem?_put_of_mem hnodup
      (List.mem_map_of_mem (f := fun ptx => (ptx.index.toNat, ptx.tx)) hptx)
      (by rw [List.length_replicate]; exact hrange ptx hptx)
  have hmem : ∀ i, i ∈ (prefilledPairs cmpctblk.prefilledTxs.entries).map Prod.fst ↔
      ∃ ptx ∈ cmpctblk.prefilledTxs.entries, ptx.index.toNat = i := by
    intro i
    rw [prefilledPairs, List.map_map, List.mem_map]
    rfl
  have hfree : cmpctblk.freeSlots =
      (List.range (cmpctblk.shortIds.count.toNat + cmpctblk.prefilledTxs.count.toNat)).filter
        fun i =>
        i ∉ (prefilledPairs cmpctblk.prefilledTxs.entries).map Prod.fst := by
    unfold CompactBlock.freeSlots
    apply List.filter_congr
    intro i _
    rw [Bool.eq_iff_iff, List.all_eq_true, decide_eq_true_iff, hmem]
    simp only [decide_eq_true_eq, not_exists, not_and]
  have hholes : holes (put (prefilledPairs cmpctblk.prefilledTxs.entries) (List.replicate
      (cmpctblk.shortIds.count.toNat + cmpctblk.prefilledTxs.count.toNat) none)) =
        cmpctblk.freeSlots := by
    rw [hfree, holes, length_put, List.length_replicate]
    apply List.filter_congr
    intro i hi
    by_cases htaken : i ∈ (prefilledPairs cmpctblk.prefilledTxs.entries).map Prod.fst
    · obtain ⟨ptx, hptx, rfl⟩ := (hmem i).mp htaken
      rw [List.getD_eq_getElem?_getD, hplaced ptx hptx, Option.getD_some,
        decide_eq_false (not_not.mpr htaken)]
      exact Option.isNone_eq_false_iff.mpr (Option.isSome_iff_ne_none.mpr (hnull ptx hptx))
    · rw [List.getD_eq_getElem?_getD, getElem?_put_of_not_mem htaken, List.getElem?_replicate,
        if_pos (List.mem_range.mp hi), decide_eq_true htaken]
      rfl
  refine ⟨hholes, ?_, by rw [length_put, List.length_replicate], hplaced⟩
  have hcount := length_filter_not_mem hnodup (n := cmpctblk.shortIds.count.toNat +
    cmpctblk.prefilledTxs.count.toNat) (fun i hi => by
      obtain ⟨ptx, hptx, rfl⟩ := (hmem i).mp hi
      exact hrange ptx hptx)
  have hpairs : ((prefilledPairs cmpctblk.prefilledTxs.entries).map Prod.fst).length =
      cmpctblk.prefilledTxs.count.toNat := by
    rw [List.length_map, prefilledPairs, List.length_map, Counted.length_entries hpresent]
  rw [hholes, hfree]
  omega

/-! ## Positions of short ids -/

theorem slotPositions_eq (i : ℕ) (slots : List (Option Tx)) (n : ℕ) :
    slotPositions i slots n = ((holes slots).map fun k => k + i).take n := by
  induction slots generalizing i n with
  | nil => rw [slotPositions, holes_nil, List.map_nil, List.take_nil]
  | cons x slots ih =>
    have hshift : (holes slots).map ((fun k => k + i) ∘ Nat.succ) = (holes slots).map fun k =>
      k + (i + 1) := by
      apply List.map_congr_left
      intro k _
      rw [Function.comp_apply]
      omega
    cases n with
    | zero => rw [slotPositions, List.take_zero]
    | succ n =>
      rw [holes_cons, List.map_append, List.map_map, hshift]
      cases x with
      | none =>
        rw [slotPositions, ih]
        simp
      | some tx =>
        rw [slotPositions, ih]
        simp

/-- With as many short ids as empty slots, each short id has the slot of its number. -/
theorem shortidToTxpos_eq {slots : List (Option Tx)} {n : ℕ} (h : (holes slots).length = n) :
    shortidToTxpos n slots = holes slots := by
  have hpositions : slotPositions 0 slots n = holes slots := by
    rw [slotPositions_eq, List.take_of_length_le (by rw [List.length_map, h])]
    exact List.map_id _
  unfold shortidToTxpos
  dsimp only
  rw [hpositions, h, Nat.sub_self, List.replicate_zero, List.append_nil]

/-- The bytes of the short id with a number, while its offset has 32 bits. -/
theorem shortIdAt_flatMap {ids : List ShortId} {j : ℕ} {id : ShortId} (h : ids[j]? = some id)
    (hoffset : j * SHORTTXID_LENGTH < 2 ^ 32) : shortIdAt (ids.flatMap Subtype.val) j = id.1 := by
  rw [shortIdAt, Nat.mod_eq_of_lt hoffset]
  clear hoffset
  induction ids generalizing j with
  | nil => cases h
  | cons first ids ih =>
    cases j with
    | zero =>
      cases h
      rw [Nat.zero_mul, List.drop_zero, List.flatMap_cons, List.take_left' id.2]
    | succ j =>
      have hdrop : (j + 1) * SHORTTXID_LENGTH = first.1.length + j * SHORTTXID_LENGTH := by
        rw [first.2, Nat.succ_mul, Nat.add_comm]
      rw [List.flatMap_cons, hdrop, ← List.drop_drop, List.drop_left]
      exact ih h

/-! ## Matching -/

section

variable (pf : Platform) (k0 k1 : UInt64)

/-- The known transactions with a short id. -/
def knownWith (known : List (Option Tx)) (target : Bytes) : List Tx :=
  known.filterMap fun tx => tx.filter fun tx => target = (computeShortId k0 k1 (txHash pf tx)).1

/-- The only known transaction with a short id. -/
def resolve (known : List (Option Tx)) (target : Bytes) : Option Tx :=
  match knownWith pf k0 k1 known target with
  | [tx] => some tx
  | _ => none

/-- The search stops at the second match. -/
theorem matchKnown_eq (target : Bytes) (found : Option Tx) (known : List (Option Tx)) :
    matchKnown pf k0 k1 target found known =
      ((found.toList ++ knownWith pf k0 k1 known target).head?,
        decide (2 ≤ (found.toList ++ knownWith pf k0 k1 known target).length)) := by
  induction known generalizing found with
  | nil =>
    cases found with
    | none => rfl
    | some tx => rfl
  | cons x known ih =>
    cases x with
    | none =>
      rw [matchKnown, ih]
      rfl
    | some tx =>
      by_cases htarget : target = (computeShortId k0 k1 (txHash pf tx)).1
      · have hcons : knownWith pf k0 k1 (some tx :: known) target = tx ::
          knownWith pf k0 k1 known target := by
          rw [knownWith, List.filterMap_cons_some]
          · rfl
          · rw [Option.filter_some, if_pos (decide_eq_true htarget)]
        rw [matchKnown, if_pos htarget, hcons]
        cases found with
        | none =>
          rw [Option.isSome_none, if_neg Bool.false_ne_true, ih]
          rfl
        | some first =>
          rw [Option.isSome_some, if_pos rfl]
          simp
      · have hcons : knownWith pf k0 k1 (some tx :: known) target =
          knownWith pf k0 k1 known target := by
          rw [knownWith, List.filterMap_cons_none]
          · rfl
          · rw [Option.filter_some, if_neg (by rw [decide_eq_true_iff]; exact htarget)]
        rw [matchKnown, if_neg htarget, hcons, ih]

/-- One short id decides its slot, or counts as missing. -/
theorem matchShortId_eq (known : List (Option Tx)) (shortIds : Bytes) (txpos : List ℕ)
    (acc : List (Option Tx) × UInt32) (j : ℕ) :
    matchShortId pf k0 k1 known shortIds txpos acc j =
      if (resolve pf k0 k1 known (shortIdAt shortIds j)).isSome then
        (acc.1.set (txpos.getD j 0) (resolve pf k0 k1 known (shortIdAt shortIds j)), acc.2)
      else (acc.1, acc.2 + 1) := by
  unfold matchShortId resolve
  rw [matchKnown_eq]
  cases knownWith pf k0 k1 known (shortIdAt shortIds j) with
  | nil => rfl
  | cons tx txs =>
    cases txs with
    | nil => rfl
    | cons tx' txs => simp

/-- What the short ids put into their slots. -/
def decided (known : List (Option Tx)) (shortIds : Bytes) (txpos : List ℕ) (n : ℕ) :
    List (ℕ × Option Tx) :=
  (List.range n).map fun j => (txpos.getD j 0, resolve pf k0 k1 known (shortIdAt shortIds j))

/-- **The loop over the short ids** puts what each of them decides into its slot and counts the
others. -/
theorem matchShortIds_eq_put (known : List (Option Tx)) (shortIds : Bytes)
    (slots : List (Option Tx)) {n : ℕ} (hn : n ≤ (holes slots).length) :
    (List.range n).foldl (matchShortId pf k0 k1 known shortIds (holes slots)) (slots, 0) =
      (put (decided pf k0 k1 known shortIds (holes slots) n) slots,
        UInt32.ofNat ((decided pf k0 k1 known shortIds (holes slots) n).filter fun p =>
          p.2.isNone).length) := by
  induction n with
  | zero => rfl
  | succ n ih =>
    have hlast : decided pf k0 k1 known shortIds (holes slots) (n + 1) =
        decided pf k0 k1 known shortIds (holes slots) n ++
          [((holes slots).getD n 0, resolve pf k0 k1 known (shortIdAt shortIds n))] := by
      rw [decided, List.range_succ, List.map_append]
      rfl
    rw [List.range_succ, List.foldl_append, ih (by omega), List.foldl_cons, List.foldl_nil,
      matchShortId_eq, hlast, put_append, List.filter_append, List.length_append]
    have hslot : (holes slots)[n]? = some ((holes slots).getD n 0) := by
      rw [List.getD_eq_getElem?_getD, List.getElem?_eq_getElem (by omega), Option.getD_some]
    cases hresolve : resolve pf k0 k1 known (shortIdAt shortIds n) with
    | some tx =>
      rw [Option.isSome_some, if_pos rfl]
      rfl
    | none =>
      -- the slot is still empty, since the earlier short ids have other slots
      have hother : (holes slots).getD n 0 ∉
          (decided pf k0 k1 known shortIds (holes slots) n).map Prod.fst := by
        intro hmem
        rw [decided, List.map_map, List.mem_map] at hmem
        obtain ⟨j, hj, heq⟩ := hmem
        have hj' := List.mem_range.mp hj
        have hslot' : (holes slots)[j]? = some ((holes slots).getD j 0) := by
          rw [List.getD_eq_getElem?_getD, List.getElem?_eq_getElem (by omega), Option.getD_some]
        have hsame : (holes slots)[j]? = (holes slots)[n]? := by
          rw [hslot, hslot']
          exact congrArg some heq
        have hindex := (List.getElem?_inj (by omega) (nodup_holes slots)).mp hsame
        omega
      have hempty : (put (decided pf k0 k1 known shortIds (holes slots) n)
        slots)[(holes slots).getD n 0]? = some none := by
        rw [getElem?_put_of_not_mem hother]
        exact mem_holes.mp (List.mem_of_getElem? hslot)
      rw [Option.isSome_none, if_neg Bool.false_ne_true]
      dsimp only [put]
      rw [set_none_of_hole hempty]
      rw [show (List.filter (fun p : ℕ × Option Tx => p.2.isNone)
        [((holes slots).getD n 0, none)]).length = 1 from rfl, UInt32.ofNat_add]
      rfl

end

/-! ## The layout -/

/-- A layout of the transactions of a compact block: each prefilled transaction is at its index, and
the free slots belong to the short ids in order, each of which has the only known transaction with
it, if there is one. -/
structure Layout (pf : Platform) (cmpctblk : CompactBlock) (known slots : List (Option Tx)) :
    Prop where
  length : slots.length = cmpctblk.shortIds.count.toNat + cmpctblk.prefilledTxs.count.toNat
  prefilled : ∀ ptx ∈ cmpctblk.prefilledTxs.entries, slots[ptx.index.toNat]? = some ptx.tx
  free : cmpctblk.freeSlots.length = cmpctblk.shortIds.count.toNat
  short : ∀ (j : ℕ) (id : ShortId), cmpctblk.shortIds.entries[j]? = some id →
    ∃ i, cmpctblk.freeSlots[j]? = some i ∧
      slots[i]? = some (resolve pf cmpctblk.sipkeyK0 cmpctblk.sipkeyK1 known id.1)

section

variable {pf : Platform} {cmpctblk : CompactBlock} {known slots : List (Option Tx)}

variable {n : ℕ}

/-- The pairs of the short ids are at the empty slots. -/
theorem map_fst_decided (k0 k1 : UInt64) (shortIds : Bytes) (hn : (holes slots).length = n) :
    (decided pf k0 k1 known shortIds (holes slots) n).map Prod.fst = holes slots := by
  rw [decided, List.map_map, ← hn]
  apply List.ext_getElem?
  intro j
  rw [List.getElem?_map]
  by_cases hj : j < (holes slots).length
  · rw [List.getElem?_range hj, List.getElem?_eq_getElem hj, Option.map_some, Function.comp_apply,
      List.getD_eq_getElem?_getD, List.getElem?_eq_getElem hj, Option.getD_some]
  · rw [List.getElem?_eq_none (by rw [List.length_range]; omega), List.getElem?_eq_none (by omega),
      Option.map_none]

/-- A slot has what its short id decides. -/
theorem getElem?_put_decided (k0 k1 : UInt64) (shortIds : Bytes) {j : ℕ}
    (hn : (holes slots).length = n) (hj : j < n) :
    (put (decided pf k0 k1 known shortIds (holes slots) n) slots)[(holes slots).getD j 0]? =
      some (resolve pf k0 k1 known (shortIdAt shortIds j)) := by
  have hmem : (holes slots).getD j 0 ∈ holes slots := by
    rw [List.getD_eq_getElem?_getD, List.getElem?_eq_getElem (by omega), Option.getD_some]
    exact List.getElem_mem _
  obtain ⟨hlt, -⟩ := List.getElem?_eq_some_iff.mp (mem_holes.mp hmem)
  have hnodup : ((decided pf k0 k1 known shortIds (holes slots) n).map Prod.fst).Nodup := by
    rw [map_fst_decided k0 k1 shortIds hn]
    exact nodup_holes slots
  exact getElem?_put_of_mem hnodup (List.mem_map.mpr ⟨j, List.mem_range.mpr hj, rfl⟩) hlt

/-- The slots that are listed as missing are the empty ones. -/
theorem missing_eq_holes (k0 k1 : UInt64) (shortIds : Bytes) (hn : (holes slots).length = n) :
    (((List.range n).filter fun j =>
        ((put (decided pf k0 k1 known shortIds (holes slots) n) slots).getD ((holes slots).getD j 0)
          none).isNone).map
      fun j => UInt32.ofNat ((holes slots).getD j 0)) =
      (holes (put (decided pf k0 k1 known shortIds (holes slots) n) slots)).map UInt32.ofNat := by
  rw [holes_put (map_fst_decided k0 k1 shortIds hn)]
  conv_rhs => rw [decided, List.filter_map, List.map_map, List.map_map]
  have hfilter : ((List.range n).filter fun j =>
      ((put (decided pf k0 k1 known shortIds (holes slots) n) slots).getD
        ((holes slots).getD j 0) none).isNone) =
      (List.range n).filter ((fun p : ℕ × Option Tx => p.2.isNone) ∘ fun j =>
        ((holes slots).getD j 0, resolve pf k0 k1 known (shortIdAt shortIds j))) := by
    apply List.filter_congr
    intro j hj
    rw [List.getD_eq_getElem?_getD, getElem?_put_decided k0 k1 shortIds hn (List.mem_range.mp hj),
      Option.getD_some, Function.comp_apply]
  rw [hfilter]
  rfl

/-- **The slots** behind the loop over the short ids are a layout. -/
theorem layout_put_decided (hshort : cmpctblk.shortIds.Present)
    (hpresent : cmpctblk.prefilledTxs.Present)
    (hnull : ∀ ptx ∈ cmpctblk.prefilledTxs.entries, ptx.tx ≠ none)
    (hbound : cmpctblk.shortIds.count.toNat ≤ 715827883)
    (h : placePrefilled (cmpctblk.shortIds.count.toNat + cmpctblk.prefilledTxs.count.toNat)
      cmpctblk.prefilledTxs.entries
      (List.replicate (cmpctblk.shortIds.count.toNat + cmpctblk.prefilledTxs.count.toNat) none) =
      some slots) :
    Layout pf cmpctblk known (put (decided pf cmpctblk.sipkeyK0 cmpctblk.sipkeyK1 known
      (cmpctblk.shortIds.entries.flatMap Subtype.val)
      (holes slots) cmpctblk.shortIds.count.toNat) slots) := by
  obtain ⟨hfree, hcount, hlength, hplaced⟩ := holes_of_placePrefilled hpresent hnull h
  refine ⟨by rw [length_put, hlength], ?_, by rw [← hfree, hcount], ?_⟩
  · intro ptx hptx
    have hnot : ptx.index.toNat ∉ (decided pf cmpctblk.sipkeyK0 cmpctblk.sipkeyK1 known
        (cmpctblk.shortIds.entries.flatMap Subtype.val)
          (holes slots) cmpctblk.shortIds.count.toNat).map Prod.fst := by
      rw [map_fst_decided _ _ _ hcount, mem_holes, hplaced ptx hptx]
      exact fun heq => hnull ptx hptx (Option.some.inj heq)
    rw [getElem?_put_of_not_mem hnot, hplaced ptx hptx]
  · intro j id hid
    have hj : j < cmpctblk.shortIds.count.toNat := by
      rw [← Counted.length_entries hshort]
      exact (List.getElem?_eq_some_iff.mp hid).1
    refine ⟨(holes slots).getD j 0, ?_, ?_⟩
    · rw [← hfree, List.getD_eq_getElem?_getD, List.getElem?_eq_getElem (by omega),
        Option.getD_some]
    · have hoffset : j * SHORTTXID_LENGTH < 2 ^ 32 := by
        unfold SHORTTXID_LENGTH
        omega
      rw [getElem?_put_decided _ _ _ hcount hj, shortIdAt_flatMap hid hoffset]

end

/-! ## Missing transactions -/

theorem fillSlots_eq {availableTxsCount : ℕ} {txs : List (UInt32 × Option Tx)}
    {slots : List (Option Tx)} (h : ∀ p ∈ txs, p.1.toNat < availableTxsCount) :
    fillSlots availableTxsCount txs slots =
      (true, put (txs.map fun p => (p.1.toNat, p.2)) slots) := by
  induction txs generalizing slots with
  | nil => rfl
  | cons p txs ih =>
    have hlt := h p List.mem_cons_self
    rw [fillSlots, if_neg (by omega), ih fun q hq => h q (List.mem_cons_of_mem _ hq)]
    rfl

/-- **The missing transactions** fill the slots that were listed, and no others. -/
theorem fillMissing_eq {state : CompactBlockState} {slots : List (Option Tx)} {resp : BlockTxn}
    (havailable : state.availableTxs = some slots)
    (hcount : state.availableTxsCount.toNat = slots.length)
    (hmissing : state.missingIndices = some ((holes slots).map UInt32.ofNat))
    (hmissingCount : state.missingCount.toNat = (holes slots).length) (hpresent : resp.txs.Present)
    (hresp : resp.txs.count = state.missingCount) (hnull : none ∉ resp.txs.entries) :
    ∃ filled, fillMissing state resp =
      (true, { state with availableTxs := some filled, missingCount := 0 }) ∧
      filled.length = slots.length ∧
      (∀ k i : ℕ, (holes slots)[k]? = some i → filled[i]? = resp.txs.entries[k]?) ∧
      ∀ i : ℕ, i ∉ holes slots → filled[i]? = slots[i]? := by
  have hlength : resp.txs.entries.length = (holes slots).length := by
    rw [Counted.length_entries hpresent, hresp, hmissingCount]
  have hlt : ∀ i ∈ holes slots, i < slots.length := fun i hi =>
    (List.getElem?_eq_some_iff.mp (mem_holes.mp hi)).1
  have hback : ∀ i ∈ holes slots, (UInt32.ofNat i).toNat = i := by
    intro i hi
    have hi' := hlt i hi
    have hword := state.availableTxsCount.toNat_lt
    have hi'' : i < 2 ^ 32 := by omega
    exact UInt32.toNat_ofNat_of_lt' hi''
  have hpairs : (((holes slots).map UInt32.ofNat).zip resp.txs.entries).map (fun p =>
    (p.1.toNat, p.2)) = (holes slots).zip resp.txs.entries := by
    rw [List.zip_map_left, List.map_map]
    conv_rhs => rw [← List.map_id ((holes slots).zip resp.txs.entries)]
    apply List.map_congr_left
    intro p hp
    obtain ⟨i, tx⟩ := p
    exact congrArg (fun k => (k, tx)) (hback i (List.of_mem_zip hp).1)
  have hrange : ∀ p ∈ ((holes slots).map UInt32.ofNat).zip resp.txs.entries,
      p.1.toNat < state.availableTxsCount.toNat := by
    intro p hp
    obtain ⟨idx, tx⟩ := p
    obtain ⟨i, hi, rfl⟩ := List.mem_map.mp (List.of_mem_zip hp).1
    rw [hback i hi, hcount]
    exact hlt i hi
  have hfull := none_notMem_put_holes hlength hnull
  have hall : ((put ((holes slots).zip resp.txs.entries) slots).take
    state.availableTxsCount.toNat).any Option.isNone = false := by
    rw [List.take_of_length_le (by rw [length_put, hcount]), List.any_eq_false]
    intro x hx hnone
    exact hfull (Option.isNone_iff_eq_none.mp hnone ▸ hx)
  refine ⟨put ((holes slots).zip resp.txs.entries) slots, ?_, length_put _ _,
    fun k i => getElem?_put_holes hlength, fun i hi => ?_⟩
  · unfold fillMissing
    rw [havailable, hmissing]
    dsimp only
    rw [if_neg (not_not.mpr hresp), fillSlots_eq hrange, hpairs]
    dsimp only
    rw [hall]
    rfl
  · exact getElem?_put_of_not_mem (by rwa [fst_zip_holes hlength]) slots

/-! ## Reconstruction -/

/-- **What a reconstruction leaves behind.** -/
structure Reconstructed (pf : Platform) (cmpctblk : CompactBlock) (known : List (Option Tx))
    (result : Bool × CompactBlockState) (slots : List (Option Tx)) : Prop where
  layout : Layout pf cmpctblk known slots
  available : result.2.availableTxs = some slots
  count : result.2.availableTxsCount.toNat = slots.length
  missing : (result.2.missingIndices.getD []).map UInt32.toNat = holes slots
  missingCount : result.2.missingCount.toNat = (holes slots).length
  complete : result.1 = true ↔ none ∉ slots
  fill : 0 < result.2.missingCount → ∀ resp : BlockTxn, resp.txs.Present →
    resp.txs.count = result.2.missingCount → none ∉ resp.txs.entries →
      ∃ filled, fillMissing result.2 resp =
          (true, { result.2 with availableTxs := some filled, missingCount := 0 }) ∧
        filled.length = slots.length ∧
        (∀ k i : ℕ, (holes slots)[k]? = some i → filled[i]? = resp.txs.entries[k]?) ∧
        ∀ i : ℕ, i ∉ holes slots → filled[i]? = slots[i]?

section

variable {pf : Platform} {allocs : ReconstructAllocs} {cmpctblk : CompactBlock}
  {state : CompactBlockState}
  {known : List (Option Tx)}

/-- A sum of counts that was checked before it is taken. -/
theorem toNat_add_of_room {a b : UInt32} (h : ¬ a > 0xffffffff - b) :
    (a + b).toNat = a.toNat + b.toNat := by
  have ha := a.toNat_lt
  have hb := b.toNat_lt
  have hmax : (0xffffffff : UInt32).toNat = 4294967295 := by simp
  have hle : b ≤ 0xffffffff := by
    rw [UInt32.le_iff_toNat_le, hmax]
    omega
  rw [gt_iff_lt, UInt32.lt_iff_toNat_lt, UInt32.toNat_sub_of_le _ _ hle, hmax] at h
  rw [UInt32.toNat_add]
  omega

/-- The result for slots: complete, or with a list of the empty ones. -/
def layoutResult (totalTxs : UInt32) (slots : List (Option Tx)) : Bool × CompactBlockState :=
  if 0 < UInt32.ofNat (holes slots).length then
    (false, ⟨some slots, totalTxs, some ((holes slots).map UInt32.ofNat),
      UInt32.ofNat (holes slots).length⟩)
  else (true, ⟨some slots, totalTxs, none, 0⟩)

/-- Behind the prefilled transactions a reconstruction gives up, or comes to its slots. -/
theorem reconstructSlots_cases {totalTxs : UInt32} {slots : List (Option Tx)}
    (hcount : (holes slots).length = cmpctblk.shortIds.count.toNat) :
    reconstructSlots pf allocs cmpctblk state.reset known totalTxs slots = (false, state.reset) ∨
      reconstructSlots pf allocs cmpctblk state.reset known totalTxs slots =
        layoutResult totalTxs (put (decided pf cmpctblk.sipkeyK0 cmpctblk.sipkeyK1 known
          (cmpctblk.shortIds.entries.flatMap Subtype.val)
          (holes slots) cmpctblk.shortIds.count.toNat) slots) := by
  have hlen : ((decided pf cmpctblk.sipkeyK0 cmpctblk.sipkeyK1 known
      (cmpctblk.shortIds.entries.flatMap Subtype.val)
        (holes slots) cmpctblk.shortIds.count.toNat).filter fun p => p.2.isNone).length =
      (holes (put (decided pf cmpctblk.sipkeyK0 cmpctblk.sipkeyK1 known
        (cmpctblk.shortIds.entries.flatMap Subtype.val) (holes slots) cmpctblk.shortIds.count.toNat)
          slots)).length := by
    rw [holes_put (map_fst_decided _ _ _ hcount), List.length_map]
  unfold reconstructSlots
  dsimp only
  rw [shortidToTxpos_eq hcount, matchShortIds_eq_put _ _ _ _ _ _ (le_of_eq hcount.symm)]
  dsimp only
  rw [missing_eq_holes _ _ _ hcount, hlen, layoutResult]
  split
  · exact Or.inl rfl
  split
  · exact Or.inl rfl
  split
  · split
    · exact Or.inl rfl
    · exact Or.inr rfl
  · exact Or.inr rfl

/-- A reconstruction gives up, with an empty state, or comes to its slots. -/
theorem reconstruct_cases (hpresent : cmpctblk.prefilledTxs.Present)
    (hnull : ∀ ptx ∈ cmpctblk.prefilledTxs.entries, ptx.tx ≠ none) :
    reconstruct pf allocs cmpctblk state known = (false, state.reset) ∨
      ∃ slots, placePrefilled (cmpctblk.shortIds.count.toNat + cmpctblk.prefilledTxs.count.toNat)
          cmpctblk.prefilledTxs.entries
          (List.replicate (cmpctblk.shortIds.count.toNat + cmpctblk.prefilledTxs.count.toNat)
            none) = some slots ∧
        (cmpctblk.shortIds.count + cmpctblk.prefilledTxs.count).toNat =
          cmpctblk.shortIds.count.toNat + cmpctblk.prefilledTxs.count.toNat ∧
        reconstruct pf allocs cmpctblk state known =
          layoutResult (cmpctblk.shortIds.count + cmpctblk.prefilledTxs.count)
            (put (decided pf cmpctblk.sipkeyK0 cmpctblk.sipkeyK1 known
              (cmpctblk.shortIds.entries.flatMap Subtype.val)
              (holes slots) cmpctblk.shortIds.count.toNat) slots) := by
  unfold reconstruct
  by_cases hsum : cmpctblk.shortIds.count > 0xffffffff - cmpctblk.prefilledTxs.count
  · exact Or.inl (if_pos hsum)
  have htotal := toNat_add_of_room hsum
  rw [if_neg hsum]
  by_cases hzero : cmpctblk.shortIds.count + cmpctblk.prefilledTxs.count = 0
  · exact Or.inl (if_pos hzero)
  rw [if_neg hzero]
  by_cases halloc : (!allocs.availableTxs) = true
  · exact Or.inl (if_pos halloc)
  rw [if_neg halloc, htotal]
  cases hplace : placePrefilled (cmpctblk.shortIds.count.toNat + cmpctblk.prefilledTxs.count.toNat)
      cmpctblk.prefilledTxs.entries
      (List.replicate (cmpctblk.shortIds.count.toNat + cmpctblk.prefilledTxs.count.toNat) none) with
  | none => exact Or.inl rfl
  | some slots =>
    obtain ⟨-, hcount, -, -⟩ := holes_of_placePrefilled hpresent hnull hplace
    rcases @reconstructSlots_cases pf allocs cmpctblk state known
      (cmpctblk.shortIds.count + cmpctblk.prefilledTxs.count) slots hcount with hfail | hslots
    · exact Or.inl hfail
    · exact Or.inr ⟨slots, rfl, rfl, hslots⟩

/-- A layout is left behind as it is. -/
theorem reconstructed_layoutResult {totalTxs : UInt32} {slots : List (Option Tx)}
    (hlayout : Layout pf cmpctblk known slots) (htotal : totalTxs.toNat = slots.length) :
    Reconstructed pf cmpctblk known (layoutResult totalTxs slots) slots := by
  have hword := totalTxs.toNat_lt
  have hlt : ∀ i ∈ holes slots, i < slots.length := fun i hi =>
    (List.getElem?_eq_some_iff.mp (mem_holes.mp hi)).1
  have hle : (holes slots).length ≤ slots.length := by
    have hfilter := List.length_filter_le (fun i => (slots.getD i none).isNone)
      (List.range slots.length)
    rwa [List.length_range] at hfilter
  have hlen : (UInt32.ofNat (holes slots).length).toNat = (holes slots).length := by
    have hsmall : (holes slots).length < 2 ^ 32 := by omega
    exact UInt32.toNat_ofNat_of_lt' hsmall
  have hback : ((holes slots).map UInt32.ofNat).map UInt32.toNat = holes slots := by
    rw [List.map_map]
    conv_rhs => rw [← List.map_id (holes slots)]
    apply List.map_congr_left
    intro i hi
    have hi' := hlt i hi
    have hsmall : i < 2 ^ 32 := by omega
    exact UInt32.toNat_ofNat_of_lt' hsmall
  by_cases hpos : 0 < (holes slots).length
  · have hpos' : 0 < UInt32.ofNat (holes slots).length := by
      rwa [UInt32.lt_iff_toNat_lt, hlen]
    rw [layoutResult, if_pos hpos']
    exact
      { layout := hlayout
        available := rfl
        count := htotal
        missing := hback
        missingCount := hlen
        complete := by
          rw [← holes_eq_nil_iff]
          exact iff_of_false Bool.false_ne_true (List.length_pos_iff.mp hpos)
        fill := fun _ _ hpresent hresp hnull =>
          fillMissing_eq rfl htotal rfl hlen hpresent hresp hnull }
  · have hnil : holes slots = [] := List.eq_nil_of_length_eq_zero (Nat.eq_zero_of_not_pos hpos)
    have hpos' : ¬ 0 < UInt32.ofNat (holes slots).length := by
      rwa [UInt32.lt_iff_toNat_lt, hlen]
    rw [layoutResult, if_neg hpos']
    exact
      { layout := hlayout
        available := rfl
        count := htotal
        missing := hnil.symm
        missingCount := by
          rw [hnil]
          rfl
        complete := iff_of_true rfl (holes_eq_nil_iff.mp hnil)
        fill := fun hmissing => absurd hmissing (lt_irrefl 0) }

/-- **Reconstruction.** For every earlier state, list of known transactions and outcome of the
allocations, the state behind a call is empty, or it is a layout that says which transactions are
missing, and that is filled with them. -/
theorem reconstruct_layout (hshort : cmpctblk.shortIds.Present)
    (hpresent : cmpctblk.prefilledTxs.Present)
    (hnull : ∀ ptx ∈ cmpctblk.prefilledTxs.entries, ptx.tx ≠ none)
    (hbound : cmpctblk.shortIds.count.toNat ≤ 715827883) :
    ((reconstruct pf allocs cmpctblk state known).1 = false ∧
        (reconstruct pf allocs cmpctblk state known).2.IsEmpty) ∨
      ∃ slots, Reconstructed pf cmpctblk known
        (reconstruct pf allocs cmpctblk state known) slots := by
  rcases @reconstruct_cases pf allocs cmpctblk state known hpresent hnull with
    hempty | ⟨slots, hplace, htotal, hresult⟩
  · rw [hempty]
    exact Or.inl ⟨rfl, rfl, rfl, rfl, rfl⟩
  · have hlayout := @layout_put_decided pf cmpctblk known slots hshort hpresent hnull hbound hplace
    refine Or.inr ⟨put (decided pf cmpctblk.sipkeyK0 cmpctblk.sipkeyK1 known
      (cmpctblk.shortIds.entries.flatMap Subtype.val) (holes slots) cmpctblk.shortIds.count.toNat)
        slots, ?_⟩
    rw [hresult]
    exact reconstructed_layoutResult hlayout (by rw [htotal, hlayout.length])

end

/-- A compact block with short ids and a prefilled transaction at the start. -/
def startCompactBlock (shortIds : Counted ShortId) : CompactBlock where
  header := ⟨sampleHeader 1 Uint256.zero Uint256.zero 0, false, none⟩
  headerRaw := none
  nonce := 7
  sipkeyK0 := 0
  sipkeyK1 := 0
  shortIds := shortIds
  prefilledTxs := Counted.single ⟨0, some ⟨1, [], [], 0⟩⟩

/-- The block with two short ids: that of a known transaction, and another one. -/
def knownBlock : CompactBlock :=
  startCompactBlock (Counted.pair (computeShortId 0 0 (txHash samplePlatform (carriedTx 0)))
    (computeShortId 1 0 (txHash samplePlatform (carriedTx 0))))

/-- The theorem on this block: behind the prefilled transaction stand the known one and an empty
slot. -/
theorem reconstruct_layout_knownBlock :
    Reconstructed samplePlatform knownBlock [none, some (carriedTx 0)]
      (reconstruct samplePlatform ⟨true, true, true⟩ knownBlock ⟨none, 0, none, 0⟩ [none,
        some (carriedTx 0)])
      [some ⟨1, [], [], 0⟩, some (carriedTx 0), none] := by
  have hnull : ∀ ptx ∈ knownBlock.prefilledTxs.entries, ptx.tx ≠ none := by
    intro ptx hptx
    rw [List.mem_singleton.mp hptx]
    exact Option.some_ne_none _
  have havailable : (reconstruct samplePlatform ⟨true, true, true⟩ knownBlock ⟨none, 0, none, 0⟩
      [none, some (carriedTx 0)]).2.availableTxs =
        some [some ⟨1, [], [], 0⟩, some (carriedTx 0), none] := by
    decide +kernel
  rcases @reconstruct_layout samplePlatform ⟨true, true, true⟩ knownBlock ⟨none, 0, none, 0⟩ [none,
    some (carriedTx 0)]
    (fun _ => rfl) (fun _ => rfl) hnull (by decide) with hempty | ⟨slots, hslots⟩
  · exact absurd (hempty.2.1.symm.trans havailable) nofun
  · obtain rfl := Option.some.inj (hslots.available.symm.trans havailable)
    exact hslots

/-- Where nothing is missing, `dogecoin_compact_block_fill_missing` refuses the empty response. -/
theorem not_fillMissing_reconstruct :
    ¬ ∀ (cmpctblk : CompactBlock) (state : CompactBlockState) (known : List (Option Tx))
      (resp : BlockTxn), (∀ ptx ∈ cmpctblk.prefilledTxs.entries, ptx.tx ≠ none) →
      (reconstruct samplePlatform ⟨true, true, true⟩ cmpctblk state known).2.availableTxs ≠ none →
      resp.txs.count = (reconstruct samplePlatform ⟨true, true,
        true⟩ cmpctblk state known).2.missingCount →
      none ∉ resp.txs.entries →
      (fillMissing (reconstruct samplePlatform ⟨true, true, true⟩ cmpctblk state known).2 resp).1 =
      true := by
  intro hall
  have hfilled := hall (startCompactBlock (Counted.empty _)) ⟨none, 0, none, 0⟩ [] ⟨Uint256.zero,
    Counted.empty _⟩ (fun ptx hptx => by
      rw [List.mem_singleton.mp hptx]
      exact Option.some_ne_none _)
    (fun h => by cases h) rfl List.not_mem_nil
  cases hfilled

end Libdogecoin
