/-
# The span of a header

A header with its proof is parsed in the same way in front of every other rest, as long as the
message stays in its bounds. A previous hash that is missing is no error, so this takes some bytes
behind a transaction.

* `spans_txDeserializeEx` : transactions with 32 bytes behind them;
* `blockHeaderParse_span` : headers with anything behind them.
-/
import Libdogecoin.SpanRead
import Libdogecoin.Block
import Libdogecoin.TxWire

namespace Libdogecoin

open SpanRead

/-! ## Fields -/

theorem spans_deserBytes (len : ℕ) : Spans 0 (deserBytes len) := by
  intro buf rest v h _
  obtain ⟨hlen, rfl⟩ := deserBytes_eq_some h
  exact ⟨v, rfl, fun t => deserBytes_append_of_length hlen t⟩

theorem spans_deserU16 : Spans 0 deserU16 :=
  (spans_deserBytes 2).map fun v => UInt16.ofNat (LittleEndian.ofBytes v)

theorem spans_deserU32 : Spans 0 deserU32 :=
  (spans_deserBytes 4).map fun v => UInt32.ofNat (LittleEndian.ofBytes v)

theorem spans_deserU64 : Spans 0 deserU64 :=
  (spans_deserBytes 8).map fun v => UInt64.ofNat (LittleEndian.ofBytes v)

theorem spans_deserU256 : Spans 0 deserU256 := by
  intro buf rest v h _
  obtain ⟨hlen, rfl, hv⟩ := deserU256_eq_some h
  refine ⟨serU256 v, ?_, deserU256_serU256 v⟩
  rw [serU256, hv]
  exact (List.take_append_drop 32 buf).symm

theorem spans_deserVarlen : Spans 0 deserVarlen := by
  intro buf rest v h hn
  cases buf with
  | nil => cases h
  | cons c tail =>
    have hread : Spans 0 fun buf =>
        if c = 253 then (deserU16 buf).map fun p => (p.1.toUInt32, p.2)
        else if c = 254 then deserU32 buf
        else if c = 255 then (deserU64 buf).map fun p => (p.1.toUInt32, p.2)
        else some (c.toUInt32, buf) :=
      (spans_deserU16.map _).ite _ (spans_deserU32.ite _
        ((spans_deserU64.map _).ite _ (spans_some _)))
    obtain ⟨span, rfl, hspan⟩ := hread h hn
    exact ⟨c :: span, rfl, hspan⟩

theorem spans_deserVarstr : Spans 0 deserVarstr := spans_deserVarlen.bind fun len =>
    spans_deserBytes len.toNat

theorem spans_deserMany {α : Type} {n : ℕ} {item : Bytes → Option (α × Bytes)}
    (h : Spans n item) (k : ℕ) :
    Spans n (deserMany item k) := by
  rw [deserMany_eq_readMany]
  exact h.many k

/-! ## Transactions -/

/-- The previous hash, where it is not missing. -/
theorem spans_deserPrevHash : Spans 32 deserPrevHash := by
  intro buf rest hash h hrest
  rw [deserPrevHash] at h
  cases hhash : deserU256 buf with
  | none =>
    rw [hhash] at h
    cases h
    rw [deserU256] at hhash
    split at hhash
    · omega
    · cases hhash
  | some p =>
    rw [hhash] at h
    cases h
    obtain ⟨span, rfl, hspan⟩ := spans_deserU256 hhash (Nat.zero_le _)
    refine ⟨span, rfl, fun t => ?_⟩
    rw [deserPrevHash, hspan]
    rfl

theorem spans_txInDeserialize : Spans 32 txInDeserialize :=
  spans_deserPrevHash.bind fun hash => (spans_deserU32.mono (by decide)).bind fun n =>
    (spans_deserVarstr.mono (by decide)).bind fun scriptSig =>
      (spans_deserU32.mono (by decide)).bind fun sequence =>
        spans_some (TxIn.mk ⟨hash, n⟩ scriptSig sequence)

theorem spans_txOutDeserialize : Spans 0 txOutDeserialize :=
  spans_deserU64.bind fun value => spans_deserVarstr.bind fun scriptPubkey =>
    spans_some (TxOut.mk value scriptPubkey)

theorem spans_witnessDeserialize : Spans 0 witnessDeserialize :=
  spans_deserVarlen.bind fun len => (spans_deserMany spans_deserVarstr len.toNat).bind fun _ =>
    spans_some ()

/-- The count of inputs, where something is behind it. -/
theorem spans_vinCountDeserialize (allowWitness : Bool) :
    Spans 1 fun buf => (vinCountDeserialize allowWitness buf).map fun p =>
      ((p.1, p.2.1), p.2.2) := by
  intro buf rest x h hrest
  obtain ⟨⟨vlen, flags, rest'⟩, hcount, hx⟩ := Option.map_eq_some_iff.mp h
  cases hx
  rw [vinCountDeserialize] at hcount
  obtain ⟨⟨v, mid⟩, hv, hflags⟩ := Option.bind_eq_some_iff.mp hcount
  obtain ⟨span, rfl, hspan⟩ := spans_deserVarlen hv (Nat.zero_le _)
  dsimp only at hflags
  by_cases hmark : v = 0 ∧ allowWitness = true
  · rw [if_pos hmark] at hflags
    cases mid with
    | nil =>
      cases hflags
      cases hrest
    | cons c mid =>
      dsimp only at hflags
      by_cases hc : c ≠ 0
      · rw [if_pos hc] at hflags
        obtain ⟨⟨v', mid'⟩, hv', hlast⟩ := Option.bind_eq_some_iff.mp hflags
        cases hlast
        obtain ⟨span', rfl, hspan'⟩ := spans_deserVarlen hv' (Nat.zero_le _)
        refine ⟨span ++ flags :: span', by simp, fun t => ?_⟩
        simp only [vinCountDeserialize, List.append_assoc, List.cons_append, hspan,
          hspan', if_pos hmark, if_pos hc, Option.bind_eq_bind, Option.bind_some, Option.map_some]
      · rw [if_neg hc] at hflags
        cases hflags
        refine ⟨span ++ [flags], by simp, fun t => ?_⟩
        simp only [vinCountDeserialize, List.append_assoc, List.cons_append, List.nil_append, hspan,
          if_pos hmark, if_neg hc, Option.bind_eq_bind, Option.bind_some, Option.map_some]
  · rw [if_neg hmark] at hflags
    cases hflags
    refine ⟨span, rfl, fun t => ?_⟩
    simp only [vinCountDeserialize, hspan, if_neg hmark, Option.bind_eq_bind, Option.bind_some,
      Option.map_some]

/-- What is left of a transaction behind its witnesses. -/
theorem spans_txEnd (version : UInt32) (vin : List TxIn) (vout : List TxOut) (flags : UInt8) :
    Spans 0 fun buf : Bytes => if flags ≠ 0 then none else
      (deserU32 buf).bind fun p => some (Tx.mk version vin vout p.1, p.2) :=
  spans_none.ite _ (spans_deserU32.bind fun locktime =>
    spans_some (Tx.mk version vin vout locktime))

/-- **Transactions.** They are read in the same way in front of every rest, where 32 bytes were
left. -/
theorem spans_txDeserializeEx (allowWitness : Bool) :
    Spans 32 fun buf => txDeserializeEx buf allowWitness := by
  have hrest : ∀ (version vlen : UInt32) (flags : UInt8), Spans 32 fun buf =>
      (deserMany txInDeserialize vlen.toNat buf).bind fun p =>
        (deserVarlen p.2).bind fun q =>
          (deserMany txOutDeserialize q.1.toNat q.2).bind fun r =>
            if flags &&& 1 ≠ 0 then
              (deserMany witnessDeserialize p.1.length r.2).bind fun w =>
                if (if flags &&& 1 ≠ 0 then flags ^^^ 1 else flags) ≠ 0 then none
                else (deserU32 w.2).bind fun l => some (Tx.mk version p.1 r.1 l.1, l.2)
            else
              if (if flags &&& 1 ≠ 0 then flags ^^^ 1 else flags) ≠ 0 then none
              else (deserU32 r.2).bind fun l => some (Tx.mk version p.1 r.1 l.1, l.2) := by
    intro version vlen flags
    have hend := fun vin vout =>
      (spans_txEnd version vin vout (if flags &&& 1 ≠ 0 then flags ^^^ 1 else flags)).mono
        (Nat.zero_le 32)
    have hwitness := fun k => (spans_deserMany spans_witnessDeserialize k).mono (Nat.zero_le 32)
    exact (spans_deserMany spans_txInDeserialize vlen.toNat).bind fun vin =>
      (spans_deserVarlen.mono (Nat.zero_le 32)).bind fun count =>
        ((spans_deserMany spans_txOutDeserialize count.toNat).mono (Nat.zero_le 32)).bind
          fun vout =>
          ((hwitness vin.length).bind fun _ => hend vin vout).ite _ (hend vin vout)
  intro buf rest tx h hlen
  obtain ⟨⟨version, buf₁⟩, hversion, hafter⟩ := Option.bind_eq_some_iff.mp h
  obtain ⟨⟨vlen, flags, buf₂⟩, hcount, hlast⟩ := Option.bind_eq_some_iff.mp hafter
  obtain ⟨span₃, rfl, hspan₃⟩ := hrest version vlen flags hlast hlen
  have hlen₂ : 1 ≤ (span₃ ++ rest).length := by
    rw [List.length_append]
    omega
  obtain ⟨span₂, rfl, hspan₂⟩ := spans_vinCountDeserialize allowWitness
    (Option.map_eq_some_iff.mpr ⟨_, hcount, rfl⟩) hlen₂
  obtain ⟨span₁, rfl, hspan₁⟩ := spans_deserU32 hversion (Nat.zero_le _)
  refine ⟨span₁ ++ (span₂ ++ span₃), by simp only [List.append_assoc], fun t => ?_⟩
  obtain ⟨⟨vlen', flags', rest'⟩, hcount', heq⟩ := Option.map_eq_some_iff.mp (hspan₂ (span₃ ++ t))
  cases heq
  simp only [txDeserializeEx, List.append_assoc, hspan₁, hcount', Option.bind_eq_bind,
    Option.bind_some]
  exact hspan₃ t

/-! ## Headers -/

theorem spans_baseHeaderDeserialize : Spans 0 baseHeaderDeserialize :=
  spans_deserU32.bind fun version => spans_deserU256.bind fun prevBlock =>
    spans_deserU256.bind fun merkleRoot =>
    spans_deserU32.bind fun timestamp => spans_deserU32.bind fun bits =>
      spans_deserU32.bind fun nonce =>
      spans_some (BlockHeader.mk version prevBlock merkleRoot timestamp bits nonce)

theorem spans_branchDeserialize : Spans 0 branchDeserialize :=
  spans_deserVarlen.bind fun count => spans_none.ite _ (spans_deserMany spans_deserU256 count.toNat)

/-- The proof behind a header, in messages that are not too long for it. -/
theorem parseAuxpowFields_span {buf rest : Bytes} {payload : AuxpowPayload}
    (h : parseAuxpowFields buf = some (payload, rest)) :
    ∃ span, buf = span ++ rest ∧ span ≠ [] ∧ ∀ t, (span ++ t).length ≤ DOGECOIN_MAX_P2P_MSG_SIZE →
      parseAuxpowFields (span ++ t) = some (payload, t) := by
  have hfields : ∀ tx, Spans 0 fun buf =>
      (deserU256 buf).bind fun parentHash =>
        (branchDeserialize parentHash.2).bind fun parentMerkle =>
        (deserU32 parentMerkle.2).bind fun parentIndex =>
          (branchDeserialize parentIndex.2).bind fun auxMerkle =>
          (deserU32 auxMerkle.2).bind fun auxIndex =>
            (baseHeaderDeserialize auxIndex.2).bind fun parent =>
            some (AuxpowPayload.mk tx parentHash.1 parentMerkle.1 parentIndex.1 auxMerkle.1
              auxIndex.1 parent.1, parent.2) := fun tx =>
    spans_deserU256.bind fun parentHash => spans_branchDeserialize.bind fun parentMerkle =>
      spans_deserU32.bind fun parentIndex => spans_branchDeserialize.bind fun auxMerkle =>
        spans_deserU32.bind fun auxIndex => spans_baseHeaderDeserialize.bind fun parent =>
          spans_some (AuxpowPayload.mk tx parentHash parentMerkle parentIndex auxMerkle
            auxIndex parent)
  rw [parseAuxpowFields] at h
  split at h
  · cases h
  next hlong =>
    obtain ⟨⟨tx, buf₁⟩, htx, hafter⟩ := Option.bind_eq_some_iff.mp h
    -- the parent hash behind the transaction has the bytes that its previous hashes need
    have hlen : 32 ≤ buf₁.length := by
      obtain ⟨⟨parentHash, buf₂⟩, hhash, -⟩ := Option.bind_eq_some_iff.mp hafter
      exact (deserU256_eq_some hhash).1
    obtain ⟨span₁, rfl, hspan₁⟩ := spans_txDeserializeEx true htx hlen
    obtain ⟨span₂, rfl, hspan₂⟩ := hfields tx hafter (Nat.zero_le _)
    have hne : span₁ ≠ [] := by
      rintro rfl
      cases hspan₁ []
    refine ⟨span₁ ++ span₂, (List.append_assoc _ _ _).symm, by simp [hne], fun t ht => ?_⟩
    have hread := hspan₁ (span₂ ++ t)
    dsimp only at hread
    rw [parseAuxpowFields, if_neg (by omega), List.append_assoc, txDeserialize, hread]
    exact hspan₂ t

/-- **Headers.** A header that something is behind is parsed in the same way in front of every other
rest, if it has no proof or the proof and the rest are not too long. -/
theorem blockHeaderParse_span {buf rest : Bytes} {h : FullHeader}
    (heq : blockHeaderParse buf = some (h, rest)) (hrest : rest ≠ []) :
    ∃ span, buf = span ++ rest ∧ 80 ≤ span.length ∧
      ∀ t, (isAuxpow h.base.version = true → (span ++ t).length ≤ 80 + DOGECOIN_MAX_P2P_MSG_SIZE) →
        blockHeaderParse (span ++ t) = some (h, t) := by
  obtain ⟨⟨base, mid⟩, hbase, hproof⟩ := Option.bind_eq_some_iff.mp heq
  have hlength := baseHeaderDeserialize_length hbase
  obtain ⟨span₁, rfl, hspan₁⟩ := spans_baseHeaderDeserialize hbase (Nat.zero_le _)
  rw [List.length_append] at hlength
  dsimp only at hproof
  by_cases hcond : base.version &&& 0x100 ≠ 0 ∧ mid.length ≠ 0
  · rw [if_pos hcond] at hproof
    obtain ⟨⟨payload, rest'⟩, hpayload, hlast⟩ := Option.bind_eq_some_iff.mp hproof
    cases hlast
    obtain ⟨span₂, rfl, hne, hspan₂⟩ := parseAuxpowFields_span hpayload
    refine ⟨span₁ ++ span₂, (List.append_assoc _ _ _).symm, by
      rw [List.length_append]; omega, fun t ht => ?_⟩
    have ht' := ht ((isAuxpow_iff _).mpr hcond.1)
    rw [List.append_assoc, List.length_append] at ht'
    have hmid : base.version &&& 0x100 ≠ 0 ∧ (span₂ ++ t).length ≠ 0 :=
      ⟨hcond.1, fun h0 => hne (List.append_eq_nil_iff.mp (List.length_eq_zero_iff.mp h0)).1⟩
    simp only [blockHeaderParse, List.append_assoc, hspan₁, if_pos hmid, hspan₂ t (by omega),
      Option.bind_eq_bind, Option.bind_some]
  · rw [if_neg hcond] at hproof
    cases hproof
    refine ⟨span₁, rfl, by omega, fun t _ => ?_⟩
    have hplain : ¬ (base.version &&& 0x100 ≠ 0 ∧ t.length ≠ 0) := fun ht =>
      hcond ⟨ht.1, fun h0 => hrest (List.length_eq_zero_iff.mp h0)⟩
    simp only [blockHeaderParse, hspan₁, if_neg hplain, Option.bind_eq_bind, Option.bind_some]

end Libdogecoin
