/-
# Headers with their proofs

`dogecoin_block_header_serialize_full` : the 80 bytes of a header and, behind them, its proof.

* `parseAuxpowFields_serialize` : a proof reads back, with anything behind it that fits into a
  message;
* `blockHeaderParse_serializeFull_iff` : so does a header.
-/
import Libdogecoin.Block

namespace Libdogecoin

/-- A merkle branch behind its count, which is held in a byte. -/
def branchSerialize (branch : List Uint256) : Bytes :=
  serVarlen (UInt8.ofNat branch.length).toUInt32 ++
    (branch.take (UInt8.ofNat branch.length).toNat).flatMap serU256

/-- `dogecoin_auxpow_payload_serialize`. -/
def auxpowPayloadSerialize (p : AuxpowPayload) : Bytes :=
  txSerialize p.parentCoinbase ++ serU256 p.parentHash ++ branchSerialize p.parentCoinbaseMerkle ++
    serU32 p.parentMerkleIndex ++ branchSerialize p.auxMerkleBranch ++ serU32 p.auxMerkleIndex ++
    blockHeaderSerialize p.parentHeader

/-- `dogecoin_block_header_serialize_full`. -/
def blockHeaderSerializeFull (h : FullHeader) : Bytes :=
  match h.auxpowPayload with
  | none => blockHeaderSerialize h.base
  | some p => blockHeaderSerialize h.base ++ auxpowPayloadSerialize p

/-- A proof whose coinbase has an input and whose counts and lengths fit their fields. -/
structure AuxpowPayload.Sized (p : AuxpowPayload) : Prop where
  coinbase : p.parentCoinbase.Sized
  vin : p.parentCoinbase.vin ≠ []
  parentCoinbaseMerkle : p.parentCoinbaseMerkle.length ≤ 255
  auxMerkleBranch : p.auxMerkleBranch.length ≤ 255

/-- A header with a proof has the AuxPoW bit, and one without has not. -/
def FullHeader.Marked (h : FullHeader) : Prop :=
  (h.base.version &&& 0x100 ≠ 0 ↔ h.auxpowPayload.isSome = true) ∧ ∀ p ∈ h.auxpowPayload, p.Sized

theorem branchDeserialize_serialize {branch : List Uint256} (h : branch.length ≤ 255)
    (rest : Bytes) :
    branchDeserialize (branchSerialize branch ++ rest) = some (branch, rest) := by
  have hbyte : (UInt8.ofNat branch.length).toNat = branch.length :=
    UInt8.toNat_ofNat_of_lt' (Nat.lt_succ_of_le h)
  have hcount : (UInt8.ofNat branch.length).toUInt32.toNat = branch.length := by
    rw [UInt8.toNat_toUInt32, hbyte]
  have hsmall : ¬ (UInt8.ofNat branch.length).toUInt32 > 0xff := by
    rw [gt_iff_lt, UInt32.lt_iff_toNat_lt, hcount]
    exact Nat.not_lt.mpr h
  have hback := deserMany_flatMap (fun (hash : Uint256) (_ : hash ∈ branch) rest =>
    deserU256_serU256 hash rest) rest
  unfold branchDeserialize branchSerialize
  rw [List.append_assoc, deserVarlen_serVarlen]
  simp only [Option.bind_eq_bind, Option.bind_some]
  rw [if_neg hsmall, hcount, hbyte, List.take_length, hback]

/-- **A proof reads back**, if it fits into a message with what stands behind it. -/
theorem parseAuxpowFields_serialize {p : AuxpowPayload} (h : p.Sized) {rest : Bytes}
    (hfits : (auxpowPayloadSerialize p ++ rest).length ≤ DOGECOIN_MAX_P2P_MSG_SIZE) :
    parseAuxpowFields (auxpowPayloadSerialize p ++ rest) = some (p, rest) := by
  have htx : ∀ rest, txDeserialize (txSerialize p.parentCoinbase ++ rest) =
    some (p.parentCoinbase, rest) :=
    fun rest => txDeserializeEx_serialize h.coinbase (fun _ => h.vin) rest
  rw [parseAuxpowFields, if_neg (Nat.not_lt.mpr hfits)]
  unfold auxpowPayloadSerialize
  simp only [List.append_assoc]
  simp only [htx, deserU256_serU256, branchDeserialize_serialize h.parentCoinbaseMerkle,
    deserU32_serU32,
    branchDeserialize_serialize h.auxMerkleBranch, baseHeaderDeserialize_serialize,
      Option.bind_eq_bind,
    Option.bind_some]

theorem length_auxpowPayloadSerialize_pos (p : AuxpowPayload) :
    0 < (auxpowPayloadSerialize p).length := by
  unfold auxpowPayloadSerialize
  rw [List.length_append, length_blockHeaderSerialize]
  omega

/-- A header with a proof is read as its 80 bytes, and then the proof. -/
theorem blockHeaderParse_of_payload {h : FullHeader} {p : AuxpowPayload}
    (hp : h.auxpowPayload = some p) (hbit : h.base.version &&& 0x100 ≠ 0) (rest : Bytes) :
    blockHeaderParse (blockHeaderSerializeFull h ++ rest) =
      (parseAuxpowFields (auxpowPayloadSerialize p ++ rest)).map fun (payload, rest) =>
        ({ base := h.base, auxpowIs := true, auxpowPayload := some payload }, rest) := by
  have hne : (auxpowPayloadSerialize p ++ rest).length ≠ 0 := by
    have hpos := length_auxpowPayloadSerialize_pos p
    rw [List.length_append]
    omega
  have his : (decide (h.base.version &&& 0x100 = 256)) = true :=
    (isAuxpow_iff h.base.version).mpr hbit
  unfold blockHeaderParse blockHeaderSerializeFull
  rw [hp]
  dsimp only
  rw [List.append_assoc, baseHeaderDeserialize_serialize]
  simp only [Option.bind_eq_bind, Option.bind_some]
  rw [if_pos ⟨hbit, hne⟩, his, Option.map_eq_bind]
  rfl

/-- **A header reads back** with anything behind it, exactly if its proof, where it has one, fits
into a message together with what stands behind it. -/
theorem blockHeaderParse_serializeFull_iff {h : FullHeader} (hmarked : h.Marked) (rest : Bytes) :
    blockHeaderParse (blockHeaderSerializeFull h ++ rest) =
        some ({ h with auxpowIs := h.auxpowPayload.isSome }, rest) ↔
      ∀ p ∈ h.auxpowPayload, (auxpowPayloadSerialize p ++ rest).length ≤
        DOGECOIN_MAX_P2P_MSG_SIZE := by
  obtain ⟨hbit, hsized⟩ := hmarked
  cases hpayload : h.auxpowPayload with
  | none =>
    have hplain : ¬ (h.base.version &&& 0x100 ≠ 0 ∧ rest.length ≠ 0) := by
      rw [hbit, hpayload]
      exact fun hboth => Bool.false_ne_true hboth.1
    refine iff_of_true ?_ (by simp)
    unfold blockHeaderParse blockHeaderSerializeFull
    rw [hpayload]
    dsimp only
    rw [baseHeaderDeserialize_serialize]
    simp only [Option.bind_eq_bind, Option.bind_some]
    rw [if_neg hplain]
    rfl
  | some p =>
    have hp : p.Sized := hsized p hpayload
    rw [blockHeaderParse_of_payload hpayload (hbit.mpr (by rw [hpayload]; rfl))]
    constructor
    · intro hparse p' hp'
      obtain rfl := Option.mem_some_iff.mp hp'
      by_contra hlong
      rw [parseAuxpowFields, if_pos (Nat.not_le.mp hlong)] at hparse
      cases hparse
    · intro hfits
      rw [parseAuxpowFields_serialize hp (hfits p (Option.mem_some_iff.mpr rfl))]
      rfl

/-- A coinbase for runs on fixed inputs. -/
def sampleCoinbase : Tx where
  version := 1
  vin := [{ prevout := { hash := Uint256.zero, n := 0xffffffff }, scriptSig := [], sequence := 0 }]
  vout := []
  locktime := 0

/-- A header with a proof, for runs on fixed inputs. -/
def sampleMergedHeader : FullHeader where
  base := sampleHeader 0x100 Uint256.zero Uint256.zero 0
  auxpowIs := true
  auxpowPayload := some
    { parentCoinbase := sampleCoinbase, parentHash := Uint256.zero,
      parentCoinbaseMerkle := [Uint256.zero]
      parentMerkleIndex := 0, auxMerkleBranch := [], auxMerkleIndex := 0
      parentHeader := sampleHeader 1 Uint256.zero Uint256.zero 0 }

theorem marked_sampleMergedHeader : sampleMergedHeader.Marked := by
  refine ⟨by decide, ?_⟩
  intro p hp
  obtain rfl := Option.mem_some_iff.mp hp
  exact ⟨by decide, by decide, by decide, by decide⟩

/-- The theorem on a header with a proof and one byte behind it. -/
theorem blockHeaderParse_serializeFull_iff_sample :
    blockHeaderParse (blockHeaderSerializeFull sampleMergedHeader ++ [0]) =
        some ({ sampleMergedHeader with
          auxpowIs := sampleMergedHeader.auxpowPayload.isSome }, [0]) ↔
      ∀ p ∈ sampleMergedHeader.auxpowPayload,
        (auxpowPayloadSerialize p ++ [0]).length ≤ DOGECOIN_MAX_P2P_MSG_SIZE :=
  blockHeaderParse_serializeFull_iff marked_sampleMergedHeader [0]

/-- A proof in front of as many bytes as a message may have is not read. -/
theorem not_blockHeaderParse_serializeFull : ¬ ∀ (h : FullHeader) (rest : Bytes), h.Marked →
    blockHeaderParse (blockHeaderSerializeFull h ++ rest) =
      some ({ h with auxpowIs := h.auxpowPayload.isSome }, rest) := by
  intro hall
  have hread := hall sampleMergedHeader (List.replicate DOGECOIN_MAX_P2P_MSG_SIZE 0)
    marked_sampleMergedHeader
  rw [blockHeaderParse_of_payload rfl (by decide)] at hread
  rw [parseAuxpowFields, if_pos] at hread
  · cases hread
  · rw [List.length_append, List.length_replicate]
    exact Nat.lt_add_of_pos_left (length_auxpowPayloadSerialize_pos _)

end Libdogecoin
