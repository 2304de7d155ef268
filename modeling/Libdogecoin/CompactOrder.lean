/-
# The order of the indices

The indices of `cmpctblock` and `getblocktxn` are differences on the wire, each of which leaves out
one index. They are added up in 32 bits, without a check.

* `isChain_undo_iff` : the indices behind one are increasing exactly where their sum fits;
* `pairwise_undo_iff` : the same for a whole list;
* `indices_increasing_iff` : both messages.
-/
import Libdogecoin.CompactBlock

namespace Libdogecoin

open ChainRead

/-! ## Differences on the wire -/

/-- The codes behind a count. -/
def wireList {γ : Type} (code : Bytes → Option (γ × Bytes)) (buf : Bytes) : List γ :=
  match deserVarlen buf with
  | none => []
  | some (count, rest) => ((readChain (fun _ => code) count.toNat none rest).map Prod.fst).getD []

/-- A difference and its transaction. -/
def wirePrefilled (buf : Bytes) : Option ((UInt32 × Tx) × Bytes) := do
  let (diff, rest) ← deserVarlen buf
  let (tx, rest) ← txDeserialize rest
  some ((diff, tx), rest)

/-- What is behind the header, the nonce and the short ids of `cmpctblock`. -/
def prefilledBytes (pf : Platform) (params : ChainParams) (buf : Bytes) : Option Bytes := do
  let (_, _, rest) ← blockHeaderDeserialize pf buf params
  let (_, rest) ← deserU64 rest
  let (_, rest) ← deserShortIds rest
  some rest

/-- The differences in `cmpctblock`. -/
def prefilledDiffs (pf : Platform) (params : ChainParams) (buf : Bytes) : List UInt32 :=
  (wireList wirePrefilled ((prefilledBytes pf params buf).getD [])).map Prod.fst

/-- The differences in `getblocktxn`, behind the block hash. -/
def requestDiffs (buf : Bytes) : List UInt32 := wireList deserVarlen (buf.drop 32)

/-- The number of indices that differences pass. -/
def indexSpan (diffs : List UInt32) : ℕ := (diffs.map fun diff => diff.toNat + 1).sum

/-! ## Adding up -/

@[simp] theorem indexSpan_cons (diff : UInt32) (diffs : List UInt32) :
    indexSpan (diff :: diffs) = diff.toNat + 1 + indexSpan diffs := by
  rw [indexSpan, List.map_cons, List.sum_cons]
  rfl

/-- An index behind another one is above it, if the sum fits into 32 bits. -/
theorem lt_indexOf_iff (last diff : UInt32) :
    last < indexOf (some last) diff ↔ last.toNat + diff.toNat + 1 < 2 ^ 32 := by
  have hlast := last.toNat_lt
  have hdiff := diff.toNat_lt
  rw [indexOf, UInt32.lt_iff_toNat_lt, UInt32.toNat_add, UInt32.toNat_add, UInt32.toNat_one]
  omega

theorem toNat_indexOf {last diff : UInt32} (h : last.toNat + diff.toNat + 1 < 2 ^ 32) :
    (indexOf (some last) diff).toNat = last.toNat + diff.toNat + 1 := by
  rw [indexOf, UInt32.toNat_add, UInt32.toNat_add, UInt32.toNat_one]
  omega

/-- **Behind an index** the next ones are increasing, if all they pass fits into 32 bits, and
otherwise the first that wraps is not above the one before it. -/
theorem isChain_undo_iff (last : UInt32) (diffs : List UInt32) :
    (last :: undo indexOf (some last) diffs).IsChain (· < ·) ↔
    last.toNat + indexSpan diffs < 2 ^ 32 := by
  induction diffs generalizing last with
  | nil =>
    have hlast := last.toNat_lt
    exact ⟨fun _ => hlast, fun _ => List.isChain_singleton last⟩
  | cons diff diffs ih =>
    rw [undo, List.isChain_cons_cons, lt_indexOf_iff, ih, indexSpan_cons]
    constructor
    · rintro ⟨hfits, hrest⟩
      rw [toNat_indexOf hfits] at hrest
      omega
    · intro hall
      have hfits : last.toNat + diff.toNat + 1 < 2 ^ 32 := by omega
      rw [toNat_indexOf hfits]
      omega

/-- **Indices** are strictly increasing exactly where they pass at most 2^32. -/
theorem pairwise_undo_iff (diffs : List UInt32) :
    (undo indexOf none diffs).Pairwise (· < ·) ↔ indexSpan diffs ≤ 2 ^ 32 := by
  cases diffs with
  | nil => exact ⟨fun _ => Nat.zero_le _, fun _ => List.Pairwise.nil⟩
  | cons diff diffs =>
    have hdiff := diff.toNat_lt
    rw [← List.isChain_iff_pairwise, undo, indexOf, isChain_undo_iff, indexSpan_cons]
    omega

/-! ## Messages -/

variable {buf rest : Bytes}

/-- The entries are those of the codes on the wire. -/
theorem entries_of_deserCounted {α γ : Type} {item : Option α → Bytes → Option (α × Bytes)}
    {code : Bytes → Option (γ × Bytes)} {f : Option α → γ → α}
    (hitem : ∀ prev buf, item prev buf = (code buf).map fun p => (f prev p.1, p.2)) {a : Counted α}
    (h : deserCounted item buf = some (a, rest)) : a.entries = undo f none (wireList code buf) := by
  unfold deserCounted at h
  obtain ⟨⟨count, mid⟩, hcount, hread⟩ := Option.bind_eq_some_iff.mp h
  rw [wireList, hcount]
  dsimp only at hread ⊢
  split at hread
  next hzero =>
    cases hread
    rw [hzero]
    rfl
  · split at hread
    · cases hread
    · unfold deserEntries at hread
      split at hread
      · cases hread
      next xs rest' hchain =>
        cases hread
        obtain ⟨ys, hys, rfl⟩ := readChain_undo hitem hchain
        rw [hys, Option.map_some, Option.getD_some]
        rfl

/-- The index of a prefilled transaction. -/
def prefilledOf (last : Option PrefilledTx) (code : UInt32 × Tx) : PrefilledTx where
  index := indexOf (last.map PrefilledTx.index) code.1
  tx := some code.2

theorem deserPrefilled_eq (last : Option PrefilledTx) (buf : Bytes) :
    deserPrefilled last buf = (wirePrefilled buf).map fun p => (prefilledOf last p.1, p.2) := by
  unfold deserPrefilled wirePrefilled
  cases deserVarlen buf with
  | none => rfl
  | some p =>
    obtain ⟨diff, rest⟩ := p
    simp only [Option.bind_eq_bind, Option.bind_some]
    cases txDeserialize rest with
    | none => rfl
    | some q => rfl

theorem map_index_undo (last : Option PrefilledTx) (codes : List (UInt32 × Tx)) :
    (undo prefilledOf last codes).map PrefilledTx.index =
      undo indexOf (last.map PrefilledTx.index) (codes.map Prod.fst) := by
  induction codes generalizing last with
  | nil => rfl
  | cons code codes ih =>
    rw [undo, List.map_cons, ih, List.map_cons, undo]
    rfl

/-- The indices of `cmpctblock` are those of its differences. -/
theorem prefilled_indices {pf : Platform} {params : ChainParams} {cmpctblk : CompactBlock}
    (h : compactBlockDeserialize pf params buf = some (cmpctblk, rest)) :
    cmpctblk.prefilledTxs.entries.map PrefilledTx.index =
      undo indexOf none (prefilledDiffs pf params buf) := by
  unfold compactBlockDeserialize at h
  split at h
  · cases h
  · obtain ⟨⟨header, work, rest₁⟩, hheader, h₁⟩ := Option.bind_eq_some_iff.mp h
    obtain ⟨headerRaw, -, h₂⟩ := Option.bind_eq_some_iff.mp h₁
    obtain ⟨⟨nonce, rest₂⟩, hnonce, h₃⟩ := Option.bind_eq_some_iff.mp h₂
    obtain ⟨⟨shortIds, rest₃⟩, hids, h₄⟩ := Option.bind_eq_some_iff.mp h₃
    obtain ⟨⟨prefilledTxs, rest₄⟩, hprefilled, h₅⟩ := Option.bind_eq_some_iff.mp h₄
    cases h₅
    have hbytes : prefilledBytes pf params buf = some rest₃ := by
      simp only [prefilledBytes, hheader, hnonce, hids, Option.bind_eq_bind, Option.bind_some]
    rw [prefilledDiffs, hbytes, Option.getD_some,
      entries_of_deserCounted deserPrefilled_eq hprefilled, map_index_undo]
    rfl

/-- The indices of `getblocktxn` are those of its differences. -/
theorem requested_indices {req : GetBlockTxn} (h : getblocktxnDeserialize buf = some (req, rest)) :
    req.indices.entries = undo indexOf none (requestDiffs buf) := by
  unfold getblocktxnDeserialize at h
  obtain ⟨⟨blockhash, mid⟩, hhash, h₁⟩ := Option.bind_eq_some_iff.mp h
  obtain ⟨⟨indices, rest'⟩, hindices, h₂⟩ := Option.bind_eq_some_iff.mp h₁
  cases h₂
  have hmid : mid = buf.drop 32 := by
    unfold deserU256 at hhash
    split at hhash
    · cases hhash
    · cases hhash
      rfl
  have hentries := entries_of_deserCounted (f := indexOf) (fun _ _ => rfl) hindices
  rw [hentries, hmid, requestDiffs]

/-- **Increasing indices.** The indices of an accepted message of either kind are strictly
increasing, if and only if its differences pass at most 2^32 indices, one for each difference and
one for each item. -/
theorem indices_increasing_iff (pf : Platform) (params : ChainParams) (buf rest : Bytes) :
    (∀ cmpctblk : CompactBlock, compactBlockDeserialize pf params buf = some (cmpctblk, rest) →
      ((cmpctblk.prefilledTxs.entries.map PrefilledTx.index).Pairwise (· < ·) ↔
        indexSpan (prefilledDiffs pf params buf) ≤ 2 ^ 32)) ∧
    ∀ req : GetBlockTxn, getblocktxnDeserialize buf = some (req, rest) →
      (req.indices.entries.Pairwise (· < ·) ↔ indexSpan (requestDiffs buf) ≤ 2 ^ 32) := by
  constructor
  · intro cmpctblk h
    rw [prefilled_indices h]
    exact pairwise_undo_iff _
  · intro req h
    rw [requested_indices h]
    exact pairwise_undo_iff _

/-- Both parts of the theorem, on a compact block with one prefilled transaction and on a request
for four. -/
theorem indices_increasing_iff_samples :
    (∃ bytes cmpctblk, compactBlockDeserialize samplePlatform dogecoinChainparamsMain bytes =
      some (cmpctblk, []) ∧
      ((cmpctblk.prefilledTxs.entries.map PrefilledTx.index).Pairwise (· < ·) ↔
        indexSpan (prefilledDiffs samplePlatform dogecoinChainparamsMain bytes) ≤ 2 ^ 32)) ∧
    ∃ bytes req, getblocktxnDeserialize bytes = some (req, []) ∧
    req.indices.entries = [0, 3, 5, 10] ∧
      (req.indices.entries.Pairwise (· < ·) ↔ indexSpan (requestDiffs bytes) ≤ 2 ^ 32) := by
  constructor
  · have hcarried : ∀ ptx ∈ (sampleCompactBlock ⟨1, [⟨⟨Uint256.zero, 0⟩, [], 0⟩], [],
      0⟩).prefilledTxs.entries, Carried ptx.tx := by
      intro ptx hptx
      rw [List.mem_singleton.mp hptx]
      exact ⟨_, rfl, by decide, by decide⟩
    obtain ⟨bytes, -, hback⟩ := @compactBlockDeserialize_serialize
      (sampleCompactBlock ⟨1, [⟨⟨Uint256.zero, 0⟩, [], 0⟩], [], 0⟩) samplePlatform
        dogecoinChainparamsMain _
      (Or.inl ⟨rfl, by decide, rfl⟩) (fun _ => rfl) (fun _ => rfl) hcarried
    obtain ⟨cmpctblk, hread, -⟩ := hback [] fun haux => absurd haux (by decide)
    rw [List.append_nil] at hread
    exact ⟨bytes, cmpctblk, hread,
      (indices_increasing_iff samplePlatform dogecoinChainparamsMain bytes []).1 _ hread⟩
  · obtain ⟨bytes, -, hback⟩ := @getblocktxnDeserialize_serialize ⟨Uint256.zero, 4,
      some [0, 3, 5, 10], by
      intro xs hxs
      cases hxs
      rfl⟩ fun _ => rfl
    obtain ⟨req, hread, -, -, hentries⟩ := hback []
    rw [List.append_nil] at hread
    exact ⟨bytes, req, hread, hentries,
      (indices_increasing_iff samplePlatform dogecoinChainparamsMain bytes []).2 _ hread⟩

/-- The indices 1 and 1 are what the differences 1 and 2^32 - 1 stand for. -/
theorem not_indices_increasing :
    ¬ ((∀ (pf : Platform) (params : ChainParams) (buf rest : Bytes) (cmpctblk : CompactBlock),
        compactBlockDeserialize pf params buf = some (cmpctblk, rest) →
        (cmpctblk.prefilledTxs.entries.map PrefilledTx.index).Pairwise (· < ·)) ∧
      (∀ (buf rest : Bytes) (req : GetBlockTxn), getblocktxnDeserialize buf = some (req, rest) →
        req.indices.entries.Pairwise (· < ·))) := by
  rintro ⟨-, hall⟩
  obtain ⟨bytes, -, hback⟩ := @getblocktxnDeserialize_serialize ⟨Uint256.zero, 2, some [1, 1], by
    intro xs hxs
    cases hxs
    rfl⟩ fun _ => rfl
  obtain ⟨req, hread, -, -, hentries⟩ := hback []
  have hpairwise := hall _ _ _ hread
  rw [hentries] at hpairwise
  exact absurd hpairwise (by decide)

end Libdogecoin
