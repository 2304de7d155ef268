/-
# The matches that wait for their transactions

The matches of a merkleblock are entered into a search tree while its partial tree is walked, and
counted. They stay there when the walk fails. Each of them is taken once, by its id.

* `matched_of_walkStep` : a turn of the walk reports at most one match, for a flag;
* `collects_reported`, `waiting_consume` : what the counter is, behind the walk and behind every
  call;
* `matchTree_counts` : a whole run.
-/
import Libdogecoin.Bip37Matches
import Libdogecoin.GcsCanonical
import Libdogecoin.SearchTree

namespace Libdogecoin

namespace Bip37

/-! ## The tree -/

/-- `bip37_merkle_match_cmp`. -/
def merkleMatchCmp (a b : Uint256) : Ordering := memcmp a.1 b.1

/-- `bip37_merkle_match` behind its id. -/
structure MerkleMatch where
  pos : ℕ
  consumed : Bool

theorem merkleMatchCmp_eq (a b : Uint256) : merkleMatchCmp a b = List.compareLex compare a.1 b.1 :=
  memcmp_eq_compareLex (a.2.trans b.2.symm)

instance : Std.OrientedCmp merkleMatchCmp where
  eq_swap := by
    intro a b
    rw [merkleMatchCmp_eq, merkleMatchCmp_eq]
    exact Std.OrientedCmp.eq_swap

instance : Std.TransCmp merkleMatchCmp where
  isLE_trans := by
    intro a b c hab hbc
    rw [merkleMatchCmp_eq] at hab hbc ⊢
    exact Std.TransCmp.isLE_trans hab hbc

instance : Std.LawfulEqCmp merkleMatchCmp where
  eq_of_compare := by
    intro a b h
    rw [merkleMatchCmp_eq] at h
    exact Subtype.ext (Std.LawfulEqCmp.eq_of_compare h)

/-- `match_tree` and `match_pending`. -/
structure MatchTree where
  tree : SearchTree Uint256 MerkleMatch merkleMatchCmp
  pending : UInt32

/-- Whether there is memory for a match, and for its node. -/
abbrev Memory := Uint256 × ℕ → Bool × Bool

/-- `bip37_merkle_collect_match` : its answer, and the tree behind it. -/
def merkleCollectMatch (memory : Memory) (s : MatchTree) (m : Uint256 × ℕ) : Bool × MatchTree :=
  if (memory m).1 = false then (false, s)
  else
    match s.tree.find m.1 with
    | some _ => (true, s)
    | none =>
      if (memory m).2 = false then (false, s)
      else
        (true, { tree := s.tree.insert m.1 { pos := m.2, consumed := false },
                 pending := s.pending + 1 })

/-- The tree behind some matches. -/
def collectAll (memory : Memory) (s : MatchTree) (matched : List (Uint256 × ℕ)) : MatchTree :=
  matched.foldl (fun s m => (merkleCollectMatch memory s m).2) s

/-- The answer to the last one of some matches, all of which were collected. -/
def collectAnswer (memory : Memory) (s : MatchTree) (matched : List (Uint256 × ℕ)) : Bool :=
  matched.getLast?.all fun m => (merkleCollectMatch memory
    (collectAll memory s matched.dropLast) m).1

/-! ## The extraction -/

/-- The state in which the loop ends, whether it is through or fails. -/
def walkLast (pf : Platform) (nTx : ℕ) (hashes : List Uint256) (flags : Bytes) (onMatch : OnMatch) :
    ℕ → Walk → Walk
  | 0, w => w
  | n + 1, w =>
    match w.stack with
    | [] => w
    | cur :: below =>
      match walkStep pf nTx hashes flags onMatch cur below w with
      | none => w
      | some w' => walkLast pf nTx hashes flags onMatch n w'

/-- The matches that the traversal has reported when it returns. -/
def reportedMatches (pf : Platform) (nTx : UInt32) (hashes : List Uint256) (flags : Bytes)
    (onMatch : OnMatch) :
    List (Uint256 × ℕ) :=
  if hashes = [] ∨ flags = [] then []
  else
    match treeHeight nTx.toNat 34 0 with
    | none => []
    | some height =>
      (walkLast pf nTx.toNat hashes flags onMatch (24 * flags.length + 1)
        (startWalk height)).matched

/-- `dogecoin_bip37_merkle_extract_match_tree`. -/
def merkleExtractMatchTree (pf : Platform) (memory : Memory) (nTx : UInt32)
    (hashes : List Uint256) (flags : Bytes) (headerMerkle : Bytes) (s : MatchTree) :
    Bool × MatchTree :=
  let start : MatchTree := { s with pending := 0 }
  let onMatch : OnMatch := some (collectAnswer memory start)
  ((traverseMerkleMatches pf nTx hashes flags headerMerkle onMatch).isSome,
    collectAll memory start (reportedMatches pf nTx hashes flags onMatch))

/-- `dogecoin_bip37_merkle_match_consume` : the position of the match, if it is there and was not
taken. -/
def merkleMatchConsume (s : MatchTree) (txid : Uint256) : Option ℕ × MatchTree :=
  match s.tree.find txid with
  | none => (none, s)
  | some m =>
    if m.consumed = true then (none, s)
    else
      (some m.pos,
        { tree := s.tree.modify txid fun m => { m with consumed := true }
          pending := if s.pending > 0 then s.pending - 1 else s.pending })

/-- Calls of it, one after the other. -/
def consumeAll (s : MatchTree) : List Uint256 → List (Option ℕ) × MatchTree
  | [] => ([], s)
  | txid :: txids =>
    let (answer, s') := merkleMatchConsume s txid
    let (answers, s'') := consumeAll s' txids
    (answer :: answers, s'')

/-! ## The walk -/

section

variable {pf : Platform} {nTx : ℕ} {hashes : List Uint256} {flags : Bytes} {onMatch : OnMatch}

variable {w w' : Walk}

/-- A hash that is taken is reported or not, and the callback takes what is. -/
theorem matched_of_takeHash {pos : ℕ} {leafMatch : Bool}
    (h : takeHash hashes onMatch pos leafMatch w = some w') :
    w'.matched = w.matched ∨ ∃ m, w'.matched = w.matched ++ [m] ∧
      ∀ answer, onMatch = some answer → answer (w.matched ++ [m]) = true := by
  unfold takeHash at h
  split at h
  · cases h
  obtain ⟨hash, -, h⟩ := Option.bind_eq_some_iff.mp h
  obtain ⟨matched, hreport, rfl⟩ := Option.map_eq_some_iff.mp h
  cases leafMatch with
  | false => exact Or.inl (Option.some.inj hreport).symm
  | true =>
    cases onMatch with
    | none => exact Or.inl (Option.some.inj hreport).symm
    | some answer =>
      change (if answer (w.matched ++ [(hash, pos)]) = true then _ else none) =
        some matched at hreport
      split at hreport
      next hanswer =>
        refine Or.inr ⟨(hash, pos), (Option.some.inj hreport).symm, fun answer' heq => ?_⟩
        rw [← Option.some.inj heq]
        exact hanswer
      · cases hreport

/-- **A turn of the walk** reports at most one match, and then it has read a flag. -/
theorem matched_of_walkStep {cur : TraverseState} {below : List TraverseState}
    (h : walkStep pf nTx hashes flags onMatch cur below w = some w') :
    (w'.matched = w.matched ∧ w'.bitsUsed = w.bitsUsed) ∨
      (w'.bitsUsed = w.bitsUsed + 1 ∧ w'.bitsUsed ≤ flags.length * 8 % 2 ^ 32 ∧
        (w'.matched = w.matched ∨ ∃ m, w'.matched = w.matched ++ [m] ∧
          ∀ answer, onMatch = some answer → answer (w.matched ++ [m]) = true)) := by
  unfold walkStep at h
  split at h
  · split at h
    · cases h
    next hbits =>
    dsimp only at h
    split at h
    · have hused := (takeHash_frame h).2
      have hmatched := matched_of_takeHash h
      dsimp only at hused hmatched
      exact Or.inr ⟨hused, by omega, hmatched⟩
    · split at h
      · cases h
      · obtain rfl := Option.some.inj h
        exact Or.inr ⟨rfl, by dsimp only; omega, Or.inl rfl⟩
  · rw [Option.bind_eq_bind, Option.bind_eq_some_iff] at h
    obtain ⟨left, -, h⟩ := h
    split at h
    · split at h
      · cases h
      · obtain rfl := Option.some.inj h
        exact Or.inl ⟨rfl, rfl⟩
    · obtain rfl := Option.some.inj h
      exact Or.inl ⟨rfl, rfl⟩
  · rw [Option.bind_eq_bind, Option.bind_eq_some_iff] at h
    obtain ⟨right, -, h⟩ := h
    obtain rfl := Option.some.inj h
    exact Or.inl ⟨rfl, rfl⟩
  · cases h

/-- What every turn of the walk keeps holds of its last state. -/
theorem walkLast_invariant {P : Walk → Prop}
    (hstep : ∀ cur below w w', P w → walkStep pf nTx hashes flags onMatch cur below w = some w' →
      P w') (n : ℕ)
    (h : P w) : P (walkLast pf nTx hashes flags onMatch n w) := by
  induction n generalizing w with
  | zero => exact h
  | succ n ih =>
    rw [walkLast]
    split
    · exact h
    next cur below hstack =>
      cases hw : walkStep pf nTx hashes flags onMatch cur below w with
      | none => exact h
      | some w' => exact ih (hstep cur below w w' h hw)

end

variable {matched : List (Uint256 × ℕ)} {s : MatchTree} {m : Uint256 × ℕ} {txid : Uint256}

/-! ## The counter -/

/-- The number of matches that were not taken. -/
def waiting (s : MatchTree) : ℕ := s.tree.bindings.countP fun b => !b.2.consumed

/-- The tree has the matches that were reported, none of them taken, and the counter their
number. -/
structure Collects (s : MatchTree) (matched : List (Uint256 × ℕ)) : Prop where
  counted : s.pending.toNat = waiting s
  few : s.pending.toNat ≤ matched.length
  stored : ∀ m ∈ matched, (s.tree.find m.1).isSome
  fresh : ∀ txid m, s.tree.find txid = some m → (txid, m.pos) ∈ matched ∧ m.consumed = false

theorem collects_empty : Collects { tree := SearchTree.empty, pending := 0 } [] where
  counted := rfl
  few := Nat.le_refl 0
  stored := fun _ hm => absurd hm List.not_mem_nil
  fresh := fun txid m h => by
    rw [SearchTree.find_empty] at h
    cases h

/-- A duplicate changes nothing. -/
theorem Collects.duplicate (h : Collects s matched) (hfind : (s.tree.find m.1).isSome) :
    Collects s (matched ++ [m]) where
  counted := h.counted
  few := by
    rw [List.length_append]
    exact Nat.le_add_right_of_le h.few
  stored := by
    intro m' hm'
    rcases List.mem_append.mp hm' with hm' | hm'
    · exact h.stored m' hm'
    · rw [List.mem_singleton.mp hm']
      exact hfind
  fresh := by
    intro txid m' hm'
    obtain ⟨hmem, hconsumed⟩ := h.fresh txid m' hm'
    exact ⟨List.mem_append_left _ hmem, hconsumed⟩

/-- A new match is counted. -/
theorem Collects.inserted (h : Collects s matched) (hfind : s.tree.find m.1 = none)
    (hlt : matched.length + 1 < 2 ^ 32) :
    Collects
      { tree := s.tree.insert m.1 { pos := m.2, consumed := false }, pending := s.pending + 1 }
      (matched ++ [m]) := by
  have hfew := h.few
  have hadd : (s.pending + 1).toNat = s.pending.toNat + 1 := by
    rw [UInt32.toNat_add, UInt32.toNat_one]
    omega
  have hself := SearchTree.find_insert_self hfind { pos := m.2, consumed := false : MerkleMatch }
  refine ⟨?_, ?_, ?_, ?_⟩
  · -- one binding more, and it waits
    obtain ⟨before, after, hold, hnew⟩ :=
      SearchTree.bindings_insert hfind { pos := m.2, consumed := false : MerkleMatch }
    have hcounted := h.counted
    rw [waiting, hold, List.countP_append] at hcounted
    rw [waiting, hadd, hcounted, hnew, List.countP_append, List.countP_cons_of_pos rfl]
    omega
  · rw [hadd, List.length_append, List.length_singleton]
    omega
  · intro m' hm'
    rw [SearchTree.find_insert]
    split
    · rfl
    next hne =>
      rcases List.mem_append.mp hm' with hm' | hm'
      · exact h.stored m' hm'
      · rw [List.mem_singleton.mp hm'] at hne
        exact absurd rfl hne
  · intro txid m' hm'
    by_cases heq : txid = m.1
    · rw [heq, hself] at hm'
      cases hm'
      exact ⟨List.mem_append_right _ (by rw [heq]; exact List.mem_singleton_self _), rfl⟩
    · rw [SearchTree.find_insert_of_ne _ heq] at hm'
      obtain ⟨hmem, hconsumed⟩ := h.fresh txid m' hm'
      exact ⟨List.mem_append_left _ hmem, hconsumed⟩

/-- **One match** that the callback takes. -/
theorem Collects.collect {memory : Memory} (h : Collects s matched)
    (hanswer : (merkleCollectMatch memory s m).1 = true) (hlt : matched.length + 1 < 2 ^ 32) :
    Collects (merkleCollectMatch memory s m).2 (matched ++ [m]) := by
  unfold merkleCollectMatch at hanswer ⊢
  split at hanswer
  · cases hanswer
  next hmemory =>
  rw [if_neg hmemory]
  cases hfind : s.tree.find m.1 with
  | some old => exact h.duplicate (by rw [hfind, Option.isSome_some])
  | none =>
    rw [hfind] at hanswer
    dsimp only at hanswer ⊢
    split at hanswer
    · cases hanswer
    next hnode =>
    rw [if_neg hnode]
    exact h.inserted hfind hlt

theorem collectAll_concat (memory : Memory) (s : MatchTree) (matched : List (Uint256 × ℕ))
    (m : Uint256 × ℕ) :
    collectAll memory s (matched ++ [m]) =
      (merkleCollectMatch memory (collectAll memory s matched) m).2 := by
  rw [collectAll, List.foldl_append]
  rfl

theorem collectAnswer_concat (memory : Memory) (s : MatchTree) (matched : List (Uint256 × ℕ))
    (m : Uint256 × ℕ) :
    collectAnswer memory s (matched ++ [m]) =
      (merkleCollectMatch memory (collectAll memory s matched) m).1 := by
  rw [collectAnswer, List.getLast?_concat, List.dropLast_concat]
  rfl

/-- **The walk** collects what it reports, also when it fails. There is a flag for each match, so
that they are fewer than 2^32. -/
theorem collects_reported (pf : Platform) (memory : Memory) (nTx : UInt32) (hashes : List Uint256)
    (flags : Bytes) :
    Collects (collectAll memory { tree := SearchTree.empty, pending := 0 }
        (reportedMatches pf nTx hashes flags
          (some (collectAnswer memory { tree := SearchTree.empty, pending := 0 }))))
      (reportedMatches pf nTx hashes flags
        (some (collectAnswer memory { tree := SearchTree.empty, pending := 0 }))) := by
  unfold reportedMatches
  split
  · exact collects_empty
  cases treeHeight nTx.toNat 34 0 with
  | none => exact collects_empty
  | some height =>
    dsimp only
    refine (walkLast_invariant (P := fun w => (w.matched.length ≤ w.bitsUsed ∧
        w.bitsUsed ≤ flags.length * 8 % 2 ^ 32) ∧
      Collects (collectAll memory { tree := SearchTree.empty, pending := 0 } w.matched)
        w.matched) ?_ _
      (w := startWalk height) ⟨⟨Nat.le_refl 0, Nat.zero_le _⟩, collects_empty⟩).2
    rintro cur below w w' ⟨⟨hlength, hbits⟩, hcollects⟩ hstep
    have hlimit : flags.length * 8 % 2 ^ 32 < 2 ^ 32 := Nat.mod_lt _ (by decide)
    rcases matched_of_walkStep hstep with ⟨hmatched, hused⟩ |
      ⟨hused, hle, hmatched | ⟨m, hmatched, hanswer⟩⟩
    · rw [hmatched, hused]
      exact ⟨⟨hlength, hbits⟩, hcollects⟩
    · rw [hmatched]
      exact ⟨⟨by omega, hle⟩, hcollects⟩
    · have htaken := hanswer _ rfl
      rw [collectAnswer_concat] at htaken
      rw [hmatched, collectAll_concat, List.length_append, List.length_singleton]
      exact ⟨⟨by omega, hle⟩, hcollects.collect htaken (by omega)⟩

/-! ## Calls -/

/-- **One call** keeps the counter right. -/
theorem waiting_consume (h : s.pending.toNat = waiting s) (txid : Uint256) :
    (merkleMatchConsume s txid).2.pending.toNat = waiting (merkleMatchConsume s txid).2 := by
  unfold merkleMatchConsume
  cases hfind : s.tree.find txid with
  | none => exact h
  | some m =>
    dsimp only
    split
    · exact h
    next hfresh =>
      obtain ⟨before, after, hold, hnew⟩ := SearchTree.bindings_modify hfind
        fun m => { m with consumed := true }
      have hwaits : (!(txid, m).2.consumed) = true := by
        rw [(Bool.not_eq_true _).mp hfresh]
        rfl
      rw [waiting, hold, List.countP_append, @List.countP_cons_of_pos _ _ (txid, m) _ hwaits] at h
      have hpos : s.pending > 0 := by
        rw [gt_iff_lt, UInt32.lt_iff_toNat_lt, UInt32.toNat_zero]
        omega
      have hone : (1 : UInt32) ≤ s.pending := by
        rw [UInt32.le_iff_toNat_le, UInt32.toNat_one]
        omega
      rw [if_pos hpos, waiting, hnew, List.countP_append, List.countP_cons_of_neg (by simp),
        UInt32.toNat_sub_of_le _ _ hone, UInt32.toNat_one]
      omega

/-- A match that was taken. -/
def Consumed (s : MatchTree) (txid : Uint256) :
    Prop := ∃ m, s.tree.find txid = some m ∧ m.consumed = true

theorem Consumed.consume (h : Consumed s txid) (txid' : Uint256) :
    Consumed (merkleMatchConsume s txid').2 txid := by
  obtain ⟨m, hm, hconsumed⟩ := h
  unfold merkleMatchConsume
  cases hfind : s.tree.find txid' with
  | none => exact ⟨m, hm, hconsumed⟩
  | some m' =>
    dsimp only
    split
    · exact ⟨m, hm, hconsumed⟩
    · rw [Consumed, SearchTree.find_modify]
      split
      · rw [hfind]
        exact ⟨_, rfl, rfl⟩
      · exact ⟨m, hm, hconsumed⟩

/-- A call that succeeds is about a match that was not taken, which is taken behind it. -/
theorem consumed_of_isSome (h : (merkleMatchConsume s txid).1.isSome) :
    ¬ Consumed s txid ∧ Consumed (merkleMatchConsume s txid).2 txid := by
  unfold merkleMatchConsume at h ⊢
  cases hfind : s.tree.find txid with
  | none =>
    rw [hfind] at h
    cases h
  | some m =>
    rw [hfind] at h
    dsimp only at h ⊢
    split at h
    · cases h
    next hfresh =>
      rw [if_neg hfresh]
      constructor
      · rintro ⟨m', hm', hconsumed⟩
        rw [hfind] at hm'
        cases hm'
        exact hfresh hconsumed
      · exact ⟨{ m with consumed := true },
          by rw [SearchTree.find_modify, if_pos rfl, hfind]; rfl, rfl⟩

/-- How often an id was taken in some calls. -/
def taken (txid : Uint256) (txids : List Uint256) (answers : List (Option ℕ)) : ℕ :=
  (txids.zip answers).countP fun p => p.1 = txid ∧ p.2.isSome

theorem waiting_consumeAll (h : s.pending.toNat = waiting s) (txids : List Uint256) :
    (consumeAll s txids).2.pending.toNat = waiting (consumeAll s txids).2 := by
  induction txids generalizing s with
  | nil => exact h
  | cons txid txids ih => exact ih (waiting_consume h txid)

/-- What was taken is not taken again. -/
theorem taken_eq_zero (h : Consumed s txid) (txids : List Uint256) :
    taken txid txids (consumeAll s txids).1 = 0 := by
  induction txids generalizing s with
  | nil => rfl
  | cons txid' txids ih =>
    have hrest := ih (h.consume txid')
    have hnow : ¬ (txid' = txid ∧ (merkleMatchConsume s txid').1.isSome) := by
      rintro ⟨rfl, hsome⟩
      exact (consumed_of_isSome hsome).1 h
    rw [taken] at hrest ⊢
    rw [consumeAll, List.zip_cons_cons,
      List.countP_cons_of_neg (by rw [decide_eq_true_eq]; exact hnow)]
    exact hrest

/-- **Each id** is taken at most once. -/
theorem taken_le_one (s : MatchTree) (txid : Uint256) (txids : List Uint256) :
    taken txid txids (consumeAll s txids).1 ≤ 1 := by
  induction txids generalizing s with
  | nil => exact Nat.zero_le 1
  | cons txid' txids ih =>
    have hrest := ih (merkleMatchConsume s txid').2
    rw [taken] at hrest ⊢
    rw [consumeAll, List.zip_cons_cons]
    by_cases hnow : txid' = txid ∧ (merkleMatchConsume s txid').1.isSome
    · obtain ⟨rfl, hsome⟩ := hnow
      have hzero := taken_eq_zero (consumed_of_isSome hsome).2 txids
      rw [taken] at hzero
      rw [List.countP_cons_of_pos (by rw [decide_eq_true_eq]; exact ⟨rfl, hsome⟩), hzero]
    · rw [List.countP_cons_of_neg (by rw [decide_eq_true_eq]; exact hnow)]
      exact hrest

/-! ## A run -/

/-- **Matches** : behind the extraction into an empty tree, whatever it returns, and any calls, the
counter is the number of matches that were not taken, each id is in the tree once, and each is taken
at most once. Behind the extraction the tree has the matches that were reported, and none of them is
taken. -/
theorem matchTree_counts (pf : Platform) (memory : Memory) (nTx : UInt32) (hashes : List Uint256)
    (flags headerMerkle : Bytes) (pending : UInt32) (txids : List Uint256) :
    let extracted := (merkleExtractMatchTree pf memory nTx hashes flags headerMerkle
      { tree := SearchTree.empty, pending := pending }).2
    let run := consumeAll extracted txids
    run.2.pending.toNat = waiting run.2 ∧ (run.2.tree.bindings.map Prod.fst).Nodup ∧
      (∀ txid, taken txid txids run.1 ≤ 1) ∧
      Collects extracted (reportedMatches pf nTx hashes flags
        (some (collectAnswer memory { tree := SearchTree.empty, pending := 0 }))) := by
  have hcollects := collects_reported pf memory nTx hashes flags
  exact ⟨waiting_consumeAll hcollects.counted txids, SearchTree.nodup_keys _, fun txid =>
    taken_le_one _ txid txids, hcollects⟩

/-- A match that is in the tree and counted, when the root is not the one of the header. -/
theorem not_cleared : ¬ ∀ (nTx : UInt32) (hashes : List Uint256) (flags headerMerkle : Bytes),
    (merkleExtractMatchTree samplePlatform (fun _ => (true, true)) nTx hashes flags headerMerkle
        { tree := SearchTree.empty, pending := 0 }).1 = false →
      (merkleExtractMatchTree samplePlatform (fun _ => (true, true)) nTx hashes flags headerMerkle
        { tree := SearchTree.empty, pending := 0 }).2.tree.bindings = [] ∧
      (merkleExtractMatchTree samplePlatform (fun _ => (true, true)) nTx hashes flags headerMerkle
        { tree := SearchTree.empty, pending := 0 }).2.pending = 0 := by
  intro hall
  have hzero := (hall 1 [Uint256.zero] [1] (List.replicate 32 1) rfl).2
  cases hzero

end Bip37

end Libdogecoin
