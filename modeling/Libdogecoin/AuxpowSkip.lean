/-
# The proof behind a header, parsed and skipped

`parse_dogecoin_auxpow_fields` keeps the fields of a proof, `par_hdr_skip_auxpow` only moves behind
them. A reader is compared with a skip by what both leave of the buffer.

* `Skips.bind`, `Skips.many` : readers that are put together from such readers;
* `parseAuxpowFields_iff` : the parser leaves what the skip leaves, where both branches are short.
-/
import Libdogecoin.HeaderSpan
import Libdogecoin.ParHdr

namespace Libdogecoin

open SpanRead SpvClient

variable {α β : Type} {rest : Bytes}

/-! ## Readers and skips -/

/-- Where the reader has a value, the skip leaves the same rest, and both fail together. -/
def Skips (read : Bytes → Option (α × Bytes)) (skip : Bytes → Option Bytes) : Prop :=
  ∀ buf, (read buf).map Prod.snd = skip buf

/-- One reader after the other. -/
theorem Skips.bind {read : Bytes → Option (α × Bytes)} {skip next : Bytes → Option Bytes}
    {readNext : α → Bytes → Option (β × Bytes)} (h : Skips read skip)
    (hnext : ∀ x, Skips (readNext x) next) :
    Skips (fun buf => (read buf).bind fun p => readNext p.1 p.2) fun buf =>
      (skip buf).bind next := by
  intro buf
  dsimp only
  rw [← h buf]
  cases read buf with
  | none => rfl
  | some p =>
    rw [Option.bind_some, Option.map_some, Option.bind_some]
    exact hnext p.1 p.2

/-- The last reader only puts the value together. -/
theorem skips_some (x : α) : Skips (fun buf => some (x, buf)) some := fun _ => rfl

theorem skips_deserBytes (len : ℕ) : Skips (deserBytes len) (deserSkip len) := by
  intro buf
  unfold deserBytes deserSkip
  split_ifs
  · rfl
  · rfl

theorem skips_deserU32 : Skips deserU32 (deserSkip 4) := by
  intro buf
  rw [deserU32, Option.map_map]
  exact skips_deserBytes 4 buf

theorem skips_deserU256 : Skips deserU256 (deserSkip 32) := by
  intro buf
  unfold deserU256 deserSkip
  split_ifs
  · rfl
  · rfl

/-- Two skips are one. -/
theorem deserSkip_bind (m n : ℕ) (buf : Bytes) :
    (deserSkip m buf).bind (deserSkip n) = deserSkip (m + n) buf := by
  unfold deserSkip
  by_cases hm : buf.length < m
  · rw [if_pos hm, if_pos (by omega), Option.bind_none]
  · rw [if_neg hm, Option.bind_some, List.length_drop, List.drop_drop]
    by_cases hn : buf.length - m < n
    · rw [if_pos hn, if_pos (by omega)]
    · rw [if_neg hn, if_neg (by omega)]

theorem deserSkip_zero (buf : Bytes) : deserSkip 0 buf = some buf := by
  rw [deserSkip, if_neg (Nat.not_lt_zero _), List.drop_zero]

/-- A row of items of one length. -/
theorem Skips.many {item : Bytes → Option (α × Bytes)} {len : ℕ} (h : Skips item (deserSkip len))
    (n : ℕ) :
    Skips (deserMany item n) (deserSkip (n * len)) := by
  induction n with
  | zero =>
    intro buf
    rw [Nat.zero_mul, deserSkip_zero]
    rfl
  | succ n ih =>
    intro buf
    have hrow := h.bind fun x => ih.bind fun xs => skips_some (x :: xs)
    have hskip : (deserSkip len buf).bind (fun rest => (deserSkip (n * len) rest).bind some) =
        deserSkip ((n + 1) * len) buf := by
      rw [Nat.add_mul, Nat.one_mul, Nat.add_comm, ← deserSkip_bind]
      congr 1
      funext rest
      exact Option.bind_fun_some _
    exact (hrow buf).trans hskip

/-! ## The parts of a proof -/

/-- A merkle branch is skipped, if it has at most 255 hashes. -/
def skipShortBranch (buf : Bytes) : Option Bytes :=
  (deserVarlen buf).bind fun p => if p.1 > 0xff then none else deserSkip (p.1.toNat * 32) p.2

theorem skips_branchDeserialize : Skips branchDeserialize skipShortBranch := by
  intro buf
  unfold branchDeserialize skipShortBranch
  rw [Option.bind_eq_bind]
  cases deserVarlen buf with
  | none => rfl
  | some p =>
    rw [Option.bind_some, Option.bind_some]
    dsimp only
    split_ifs
    · rfl
    · exact skips_deserU256.many _ p.2

theorem skips_baseHeaderDeserialize : Skips baseHeaderDeserialize (deserSkip 80) := by
  intro buf
  have hfields := skips_deserU32.bind fun version => skips_deserU256.bind fun prevBlock =>
    skips_deserU256.bind fun merkleRoot => skips_deserU32.bind fun timestamp =>
      skips_deserU32.bind fun bits =>
      skips_deserU32.bind fun nonce =>
        skips_some (BlockHeader.mk version prevBlock merkleRoot timestamp bits nonce)
  have hskip : ((deserSkip 4 buf).bind fun r => (deserSkip 32 r).bind fun r =>
    (deserSkip 32 r).bind fun r =>
      (deserSkip 4 r).bind fun r => (deserSkip 4 r).bind fun r => (deserSkip 4 r).bind some) =
        deserSkip 80 buf := by
    simp only [Option.bind_fun_some, deserSkip_bind]
  exact (hfields buf).trans hskip

/-- What follows the coinbase of a proof, with a given way to skip a branch. -/
def skipFields (branch : Bytes → Option Bytes) (buf : Bytes) : Option Bytes :=
  (deserSkip 32 buf).bind fun r => (branch r).bind fun r => (deserSkip 4 r).bind fun r =>
    (branch r).bind fun r => (deserSkip 4 r).bind (deserSkip 80)

variable {buf : Bytes}

/-- The parser leaves what the skip of short branches leaves. -/
theorem skips_parseAuxpowFields (h : buf.length ≤ DOGECOIN_MAX_P2P_MSG_SIZE) :
    (parseAuxpowFields buf).map Prod.snd =
      (txDeserialize buf).bind fun p => skipFields skipShortBranch p.2 := by
  have hfields : ∀ tx, Skips (fun buf =>
      (deserU256 buf).bind fun parentHash =>
        (branchDeserialize parentHash.2).bind fun parentMerkle =>
        (deserU32 parentMerkle.2).bind fun parentIndex =>
          (branchDeserialize parentIndex.2).bind fun auxMerkle =>
          (deserU32 auxMerkle.2).bind fun auxIndex =>
            (baseHeaderDeserialize auxIndex.2).bind fun parent =>
            some (AuxpowPayload.mk tx parentHash.1 parentMerkle.1 parentIndex.1 auxMerkle.1
              auxIndex.1 parent.1, parent.2)) (skipFields skipShortBranch) := by
    intro tx buf
    have hread := skips_deserU256.bind fun parentHash =>
      skips_branchDeserialize.bind fun parentMerkle =>
      skips_deserU32.bind fun parentIndex => skips_branchDeserialize.bind fun auxMerkle =>
        skips_deserU32.bind fun auxIndex => skips_baseHeaderDeserialize.bind fun parent =>
          skips_some (AuxpowPayload.mk tx parentHash parentMerkle parentIndex auxMerkle
            auxIndex parent)
    simp only [Option.bind_fun_some] at hread
    exact hread buf
  rw [parseAuxpowFields, if_neg (Nat.not_lt.mpr h), Option.bind_eq_bind]
  cases txDeserialize buf with
  | none => rfl
  | some p => exact hfields p.1 p.2

/-- `par_hdr_skip_auxpow` goes on behind the coinbase. -/
theorem parHdrSkipAuxpow_eq (buf : Bytes) :
    parHdrSkipAuxpow buf = (txDeserialize buf).bind fun p => skipFields skipBranch p.2 := by
  unfold parHdrSkipAuxpow
  rw [Option.bind_eq_bind]
  cases htx : txDeserialize buf with
  | none => rfl
  | some p =>
    obtain ⟨tx, rest⟩ := p
    rw [Option.bind_some, Option.bind_some]
    dsimp only
    by_cases hlen : 32 ≤ rest.length
    · -- enough is left for the coinbase to be a span of the buffer
      obtain ⟨span, rfl, hspan⟩ := spans_txDeserializeEx true htx hlen
      have hne : span.length ≠ 0 := by
        intro h0
        obtain rfl := List.length_eq_zero_iff.mp h0
        cases hspan []
      have hcb : (span ++ rest).length - rest.length = span.length := by
        rw [List.length_append]
        omega
      have hskip : deserSkip span.length (span ++ rest) = some rest := by
        rw [deserSkip, List.length_append, if_neg (by omega), List.drop_left]
      rw [hcb, if_neg hne, hskip]
      rfl
    · have hfail : deserSkip 32 rest = none := by rw [deserSkip, if_pos (by omega)]
      have hnone : skipFields skipBranch rest = none := by
        rw [skipFields, hfail, Option.bind_none]
      rw [hnone]
      split_ifs with hzero
      · rfl
      · have hcut : deserSkip (buf.length - rest.length) buf =
            some (buf.drop (buf.length - rest.length)) := by
          rw [deserSkip, if_neg (by omega)]
        have hshort : deserSkip 32 (buf.drop (buf.length - rest.length)) = none := by
          rw [deserSkip, List.length_drop, if_pos (by omega)]
        rw [hcut, Option.bind_eq_bind, Option.bind_some, hshort]
        rfl

/-! ## The two counts -/

/-- The counts of the two branches that `par_hdr_skip_auxpow` reads. -/
def skipCounts (buf : Bytes) : Option (UInt32 × UInt32) := do
  let (_, rest) ← txDeserialize buf
  let rest ← deserSkip 32 rest
  let (merkleCount, rest) ← deserVarlen rest
  let rest ← deserSkip (merkleCount.toNat * 32) rest
  let rest ← deserSkip 4 rest
  let (auxCount, _) ← deserVarlen rest
  some (merkleCount, auxCount)

theorem skipShortBranch_iff :
    skipShortBranch buf = some rest ↔
      ∃ count mid, deserVarlen buf = some (count, mid) ∧ count.toNat ≤ 255 ∧
        deserSkip (count.toNat * 32) mid = some rest := by
  have hcount : ∀ count : UInt32, count > 0xff ↔ ¬count.toNat ≤ 255 := by
    intro count
    rw [gt_iff_lt, UInt32.lt_iff_toNat_lt, Nat.not_le]
    rfl
  unfold skipShortBranch
  rw [Option.bind_eq_some_iff, Prod.exists]
  constructor
  · rintro ⟨count, mid, hread, h⟩
    dsimp only at h
    split_ifs at h with hlarge
    rw [hcount, Decidable.not_not] at hlarge
    exact ⟨count, mid, hread, hlarge, h⟩
  · rintro ⟨count, mid, hread, hsmall, h⟩
    refine ⟨count, mid, hread, ?_⟩
    dsimp only
    rw [if_neg fun hlarge => (hcount count).mp hlarge hsmall, h]

theorem skipBranch_iff :
    skipBranch buf = some rest ↔
      ∃ count mid, deserVarlen buf = some (count, mid) ∧
      deserSkip (count.toNat * 32) mid = some rest := by
  unfold skipBranch
  rw [Option.bind_eq_bind, Option.bind_eq_some_iff, Prod.exists]

/-- **A proof is parsed exactly where it is skipped** and both branches have at most 255 hashes, and
the same bytes are left. -/
theorem parseAuxpowFields_iff (buf : Bytes) (h : buf.length ≤ DOGECOIN_MAX_P2P_MSG_SIZE)
    (rest : Bytes) :
    (∃ payload, parseAuxpowFields buf = some (payload, rest)) ↔
      parHdrSkipAuxpow buf = some rest ∧ ∃ merkleCount auxCount,
        skipCounts buf = some (merkleCount, auxCount) ∧ merkleCount.toNat ≤ 255 ∧
        auxCount.toNat ≤ 255 := by
  have hsnd : (∃ payload, parseAuxpowFields buf = some (payload, rest)) ↔
      (parseAuxpowFields buf).map Prod.snd = some rest := by
    rw [Option.map_eq_some_iff, Prod.exists]
    constructor
    · rintro ⟨payload, hp⟩
      exact ⟨payload, rest, hp, rfl⟩
    · rintro ⟨payload, _, hp, rfl⟩
      exact ⟨payload, hp⟩
  rw [hsnd, skips_parseAuxpowFields h, parHdrSkipAuxpow_eq]
  unfold skipCounts
  simp only [skipFields, Option.bind_eq_bind, Option.bind_eq_some_iff, Prod.exists,
    skipShortBranch_iff, skipBranch_iff, Option.some.injEq, Prod.mk.injEq]
  constructor
  · rintro ⟨tx, r₁, htx, r₂, h₂, r₃, ⟨m, s₂, hm, hm255, h₃⟩, r₄, h₄, r₅,
      ⟨a, s₄, ha, ha255, h₅⟩, r₆, h₆, h₇⟩
    refine ⟨⟨tx, r₁, htx, r₂, h₂, r₃, ⟨m, s₂, hm, h₃⟩, r₄, h₄, r₅, ⟨a, s₄, ha, h₅⟩, r₆, h₆, h₇⟩,
      m, a, ?_, hm255, ha255⟩
    exact ⟨tx, r₁, htx, r₂, h₂, m, s₂, hm, r₃, h₃, r₄, h₄, a, s₄, ha, rfl, rfl⟩
  · rintro ⟨⟨tx, r₁, htx, r₂, h₂, r₃, ⟨m, s₂, hm, h₃⟩, r₄, h₄, r₅, ⟨a, s₄, ha, h₅⟩, r₆, h₆, h₇⟩,
      m', a', hcounts, hm255, ha255⟩
    -- the counts are those that the skip went through
    obtain ⟨tx', r₁', htx', r₂', h₂', n, s₂', hn, r₃', h₃', r₄', h₄', b, s₄', hb,
      rfl, rfl⟩ := hcounts
    cases htx.symm.trans htx'
    cases h₂.symm.trans h₂'
    cases hm.symm.trans hn
    cases h₃.symm.trans h₃'
    cases h₄.symm.trans h₄'
    cases ha.symm.trans hb
    exact ⟨tx, r₁, htx, r₂, h₂, r₃, ⟨m, s₂, hm, hm255, h₃⟩, r₄, h₄, r₅,
      ⟨a, s₄, ha, ha255, h₅⟩, r₆, h₆, h₇⟩

/-- A coinbase with one input and no output, no branch, and a header of zeros. -/
def emptyProof : Bytes :=
  [1, 0, 0, 0, 1] ++ List.replicate 36 0 ++ [0, 0xff, 0xff, 0xff, 0xff, 0, 0, 0, 0, 0] ++
    List.replicate 32 0 ++ [0, 0, 0, 0, 0] ++ [0, 0, 0, 0, 0] ++ List.replicate 80 0

/-- It is parsed, and the byte behind it is left. -/
theorem parseAuxpowFields_emptyProof :
    ∃ payload, parseAuxpowFields (emptyProof ++ [7]) = some (payload, [7]) :=
  (parseAuxpowFields_iff (emptyProof ++ [7]) (by decide +kernel) [7]).mpr
    ⟨by decide +kernel, 0, 0, by decide +kernel, by decide, by decide⟩

end Libdogecoin
