/-
# Block headers and merged mining

The header records of `block.h`, `auxpow.c`, `validation.c` and the functions of `block.c` that
read, write and check a header: `check`, `dogecoin_block_header_parse`, `_validate`,
`_deserialize`, `_serialize` and `_hash`.

* `blockHeaderParse_serialize` : the 80 bytes of a header read back as the header;
* `blockHeaderParse_eq_some` : what a successful parse has read.
-/
import Mathlib.Data.Nat.Bitwise
import Libdogecoin.Pow
import Libdogecoin.Tx

namespace Libdogecoin

/-! ## Records -/

/-- The 80-byte part of `dogecoin_block_header`, with the bit pattern of the signed version. -/
structure BlockHeader where
  version : UInt32
  prevBlock : Uint256
  merkleRoot : Uint256
  timestamp : UInt32
  bits : UInt32
  nonce : UInt32
  deriving DecidableEq

/-- `dogecoin_auxpow_payload`. The counts are the lengths of the branches. -/
structure AuxpowPayload where
  parentCoinbase : Tx
  parentHash : Uint256
  parentCoinbaseMerkle : List Uint256
  parentMerkleIndex : UInt32
  auxMerkleBranch : List Uint256
  auxMerkleIndex : UInt32
  parentHeader : BlockHeader
  deriving DecidableEq

/-- A header as it is held in memory: the 80 bytes, the flag `auxpow->is` and the proof. -/
structure FullHeader where
  base : BlockHeader
  auxpowIs : Bool
  auxpowPayload : Option AuxpowPayload
  deriving DecidableEq

/-- `dogecoin_auxpow_block` : a header together with the proof under validation. -/
structure AuxpowBlock extends AuxpowPayload where
  header : BlockHeader
  auxpowIs : Bool
  deriving DecidableEq

/-! ## Version predicates and the merged-mining index -/

/-- `get_chainid`. -/
def getChainid (version : UInt32) : UInt32 := version >>> 16

/-- `is_auxpow`. -/
def isAuxpow (version : UInt32) : Bool := version &&& 0x100 = 256

/-- `is_legacy`. -/
def isLegacy (version : UInt32) : Bool := version = 1 || (version = 2 && getChainid version = 0)

/-- `get_expected_index`, in wrapping 32-bit arithmetic. -/
def getExpectedIndex (nNonce nChainId : UInt32) (h : ℕ) : UInt32 :=
  let rand := nNonce * 1103515245 + 12345
  let rand := rand + nChainId
  let rand := rand * 1103515245 + 12345
  UInt32.ofNat (rand.toNat % 2 ^ h)

/-- The signed value of a 32-bit pattern. -/
def toInt (v : UInt32) : ℤ := if v.toNat < 2 ^ 31 then v.toNat else v.toNat - 2 ^ 32

/-- The loop of `check_merkle_branch`; the index is shifted arithmetically. -/
def merkleFold (pf : Platform) : Uint256 → List Uint256 → ℤ → Uint256
  | current, [], _ => current
  | current, next :: rest, index =>
    let hash := if index % 2 = 1 then pf.hash2Inputs next current else pf.hash2Inputs current next
    merkleFold pf hash rest (index / 2)

/-- `check_merkle_branch`. -/
def checkMerkleBranch (pf : Platform) (hash : Uint256) (branch : List Uint256) (index : ℤ) :
    Uint256 :=
  if index = -1 then Uint256.zero else merkleFold pf hash branch index

/-! ## The merged-mining check -/

/-- `pch_merged_mining_header`. -/
def pchMergedMiningHeader : Bytes := [0xfa, 0xbe, 0x6d, 0x6d]

/-- `needle_found` : the magic stands at index `idx` of the script. -/
def needleFound (pf : Platform) (script : Bytes) (idx : ℕ) : Bool :=
  cstrBytes pf script idx 4 = pchMergedMiningHeader

/-- What follows a magic at `idx` passes the three tests of the loop body: the first 32 digits of
the root, the size and the expected index. -/
def commitmentOk (pf : Platform) (script : Bytes) (vchRoothash : List Char) (chainid : UInt32)
    (merkleHeight : ℕ) (auxMerkleIndex : UInt32) (idx : ℕ) : Bool :=
  if vchRoothash.take 32 ≠ (utilsUint8ToHex (cstrBytes pf script (idx + 4) 32)).take 32 then false
  else
    let nSize := UInt32.ofNat (LittleEndian.ofBytes (cstrBytes pf script (idx + 4 + 32) 4))
    if nSize ≠ UInt32.ofNat (2 ^ merkleHeight) then false
    else
      let nNonce := UInt32.ofNat (LittleEndian.ofBytes (cstrBytes pf script (idx + 4 + 32 + 4) 4))
      auxMerkleIndex = getExpectedIndex nNonce chainid merkleHeight

/-- The scan of `check` over the remaining script indices, with the matches counted so far: the
final count, or nothing if a match fails its tests. -/
def scanScript (pf : Platform) (script : Bytes) (ok : ℕ → Bool) : List ℕ → ℕ → Option ℕ
  | [], count => some count
  | idx :: rest, count =>
    if needleFound pf script idx then
      if ok idx then scanScript pf script ok rest (count + 1) else none
    else scanScript pf script ok rest count

/-- The chain merkle root of a proof. -/
def chainMerkleRoot (pf : Platform) (block : AuxpowBlock) (hash : Uint256) : Uint256 :=
  checkMerkleBranch pf hash block.auxMerkleBranch (toInt block.auxMerkleIndex)

/-- The scan over the `script_sig` of the first coinbase input, and the test on the count. -/
def checkScript (pf : Platform) (block : AuxpowBlock) (vchRoothash : List Char) (chainid : UInt32)
    (script : Bytes) : Bool :=
  let ok := commitmentOk pf script vchRoothash chainid block.auxMerkleBranch.length
    block.auxMerkleIndex
  match scanScript pf script ok (List.range script.length) 0 with
  | none => false
  | some count => !decide (count > 1)

/-- `check` of `block.c`. -/
def check (pf : Platform) (block : AuxpowBlock) (hash : Uint256) (chainid : UInt32)
    (params : ChainParams) : Bool :=
  if block.parentMerkleIndex ≠ 0 then false
  else if params.strictId && getChainid block.parentHeader.version = chainid then false
  else if block.auxMerkleBranch.length > 30 then false
  else
    match block.parentCoinbase.vin with
    | [] => false
    | txIn :: _ =>
      let vchRoothash := hashToString (chainMerkleRoot pf block hash)
      let parentMerkleRoot := checkMerkleBranch pf (txHash pf block.parentCoinbase)
        block.parentCoinbaseMerkle (toInt block.parentMerkleIndex)
      if parentMerkleRoot ≠ block.parentHeader.merkleRoot then false
      else checkScript pf block vchRoothash chainid txIn.scriptSig

/-! ## Serialization -/

/-- `dogecoin_block_header_serialize` : the 80 bytes. -/
def blockHeaderSerialize (h : BlockHeader) : Bytes :=
  serU32 h.version ++ serU256 h.prevBlock ++ serU256 h.merkleRoot ++ serU32 h.timestamp ++
    serU32 h.bits ++ serU32 h.nonce

/-- `dogecoin_block_header_hash`. -/
def blockHeaderHash (pf : Platform) (h : BlockHeader) : Uint256 :=
  pf.sha256d (blockHeaderSerialize h)

/-- The six fields of a plain header. -/
def baseHeaderDeserialize (buf : Bytes) : Option (BlockHeader × Bytes) := do
  let (version, rest) ← deserU32 buf
  let (prevBlock, rest) ← deserU256 rest
  let (merkleRoot, rest) ← deserU256 rest
  let (timestamp, rest) ← deserU32 rest
  let (bits, rest) ← deserU32 rest
  let (nonce, rest) ← deserU32 rest
  some ({ version := version, prevBlock := prevBlock, merkleRoot := merkleRoot,
          timestamp := timestamp, bits := bits, nonce := nonce }, rest)

/-- A merkle branch: a count of at most 255 and as many hashes. -/
def branchDeserialize (buf : Bytes) : Option (List Uint256 × Bytes) := do
  let (count, rest) ← deserVarlen buf
  if count > 0xff then none else deserMany deserU256 count.toNat rest

/-- `DOGECOIN_MAX_P2P_MSG_SIZE`. -/
def DOGECOIN_MAX_P2P_MSG_SIZE : ℕ := 0x3D0900

/-- `parse_dogecoin_auxpow_fields`. -/
def parseAuxpowFields (buf : Bytes) : Option (AuxpowPayload × Bytes) :=
  if buf.length > DOGECOIN_MAX_P2P_MSG_SIZE then none
  else do
    let (parentCoinbase, rest) ← txDeserialize buf
    let (parentHash, rest) ← deserU256 rest
    let (parentCoinbaseMerkle, rest) ← branchDeserialize rest
    let (parentMerkleIndex, rest) ← deserU32 rest
    let (auxMerkleBranch, rest) ← branchDeserialize rest
    let (auxMerkleIndex, rest) ← deserU32 rest
    let (parentHeader, rest) ← baseHeaderDeserialize rest
    some ({ parentCoinbase := parentCoinbase, parentHash := parentHash,
            parentCoinbaseMerkle := parentCoinbaseMerkle, parentMerkleIndex := parentMerkleIndex,
            auxMerkleBranch := auxMerkleBranch, auxMerkleIndex := auxMerkleIndex,
            parentHeader := parentHeader }, rest)

/-- `dogecoin_block_header_parse` : a header with the AuxPoW bit is followed by its proof, unless
the buffer ends with the 80 bytes. -/
def blockHeaderParse (buf : Bytes) : Option (FullHeader × Bytes) := do
  let (base, rest) ← baseHeaderDeserialize buf
  if base.version &&& 0x100 ≠ 0 ∧ rest.length ≠ 0 then do
    let (payload, rest) ← parseAuxpowFields rest
    some ({ base := base, auxpowIs := base.version &&& 0x100 = 256,
            auxpowPayload := some payload }, rest)
  else some ({ base := base, auxpowIs := false, auxpowPayload := none }, rest)

/-! ## Validation -/

/-- `check_auxpow` : the work of the target when the proof is accepted. -/
def checkAuxpow (pf : Platform) (block : AuxpowBlock) (params : ChainParams) :
    Option ArithUint256 :=
  if !isLegacy block.header.version && params.strictId &&
      getChainid block.header.version ≠ params.auxpowId.toUInt32 then none
  else if !block.auxpowIs then
    checkPow (pf.scrypt (blockHeaderSerialize block.header)) block.header.bits params
  else do
    let work ← checkPow (pf.scrypt (blockHeaderSerialize block.parentHeader))
      block.header.bits params
    if check pf block (blockHeaderHash pf block.header) (getChainid block.header.version) params
    then some work else none

/-- The view `dogecoin_block_header_validate` builds for `check_auxpow`. -/
def FullHeader.view (h : FullHeader) (p : AuxpowPayload) : AuxpowBlock :=
  { p with header := h.base, auxpowIs := h.auxpowIs }

/-- `dogecoin_block_header_validate` : the work to store, zero without a proof. -/
def blockHeaderValidate (pf : Platform) (h : FullHeader) (params : ChainParams) :
    Option ArithUint256 :=
  match h.auxpowPayload with
  | none => some initArithUint256
  | some p => checkAuxpow pf (h.view p) params

/-- `dogecoin_block_header_deserialize` : the header, the work of its proof and the unread rest. -/
def blockHeaderDeserialize (pf : Platform) (buf : Bytes) (params : ChainParams) :
    Option (FullHeader × ArithUint256 × Bytes) := do
  let (h, rest) ← blockHeaderParse buf
  let work ← blockHeaderValidate pf h params
  some (h, work, rest)

/-! ## Round trip of the 80 bytes -/

@[simp] theorem length_blockHeaderSerialize (h : BlockHeader) :
    (blockHeaderSerialize h).length = 80 := by
  simp [blockHeaderSerialize]

/-- The 80 bytes of a header read back as the header. -/
theorem baseHeaderDeserialize_serialize (h : BlockHeader) (rest : Bytes) :
    baseHeaderDeserialize (blockHeaderSerialize h ++ rest) = some (h, rest) := by
  simp only [blockHeaderSerialize, List.append_assoc, baseHeaderDeserialize, deserU32_serU32,
    deserU256_serU256, Option.bind_eq_bind, Option.bind_some]

/-- A header that stands alone in its buffer parses without a proof. -/
theorem blockHeaderParse_serialize (h : BlockHeader) :
    blockHeaderParse (blockHeaderSerialize h) =
      some ({ base := h, auxpowIs := false, auxpowPayload := none }, []) := by
  have hbase := baseHeaderDeserialize_serialize h []
  rw [List.append_nil] at hbase
  simp [blockHeaderParse, hbase]

variable {buf rest : Bytes} {h : FullHeader}

/-- A plain header takes 80 bytes off the buffer. -/
theorem baseHeaderDeserialize_length {h : BlockHeader}
    (heq : baseHeaderDeserialize buf = some (h, rest)) :
    buf.length = rest.length + 80 := by
  simp only [baseHeaderDeserialize, Option.bind_eq_bind, Option.bind_eq_some_iff, Prod.exists,
    Option.some.injEq, Prod.mk.injEq] at heq
  obtain ⟨_, r1, h1, _, r2, h2, _, r3, h3, _, r4, h4, _, r5, h5, _, r6, h6, -, rfl⟩ := heq
  obtain ⟨l1, rfl, -⟩ := deserU32_eq_some h1
  obtain ⟨l2, rfl, -⟩ := deserU256_eq_some h2
  obtain ⟨l3, rfl, -⟩ := deserU256_eq_some h3
  obtain ⟨l4, rfl, -⟩ := deserU32_eq_some h4
  obtain ⟨l5, rfl, -⟩ := deserU32_eq_some h5
  obtain ⟨l6, rfl, -⟩ := deserU32_eq_some h6
  simp only [List.length_drop] at *
  omega

theorem isAuxpow_iff (version : UInt32) : isAuxpow version = true ↔ version &&& 0x100 ≠ 0 := by
  have hcases : version &&& 0x100 = 0 ∨ version &&& 0x100 = 0x100 := by
    have hbit : (version &&& 0x100).toNat = version.toNat &&& 2 ^ 8 := by
      rw [UInt32.toNat_and]
      rfl
    rw [Nat.and_two_pow] at hbit
    rcases hb : version.toNat.testBit 8 with _ | _
    · left
      apply UInt32.toNat_inj.mp
      simpa [hb] using hbit
    · right
      apply UInt32.toNat_inj.mp
      simpa [hb] using hbit
  rw [isAuxpow, decide_eq_true_iff]
  rcases hcases with h | h
  · rw [h]; decide
  · rw [h]; decide

/-- **Parsing.** A parsed header either carries a proof, which was read behind the 80 bytes of a
header with the AuxPoW bit, or it carries none, and then it has no such bit or ends its buffer. -/
theorem blockHeaderParse_eq_some (heq : blockHeaderParse buf = some (h, rest)) :
    ∃ rest', baseHeaderDeserialize buf = some (h.base, rest') ∧
      ((∃ p, h.auxpowPayload = some p ∧ h.auxpowIs = true ∧ isAuxpow h.base.version = true ∧
          rest'.length ≠ 0 ∧ parseAuxpowFields rest' = some (p, rest)) ∨
        (h.auxpowPayload = none ∧ h.auxpowIs = false ∧ rest = rest' ∧
          (isAuxpow h.base.version = false ∨ rest'.length = 0))) := by
  simp only [blockHeaderParse, Option.bind_eq_bind, Option.bind_eq_some_iff, Prod.exists] at heq
  obtain ⟨base, rest', hbase, heq⟩ := heq
  split at heq
  · next hcond =>
      simp only [Option.bind_eq_some_iff, Prod.exists, Option.some.injEq, Prod.mk.injEq] at heq
      obtain ⟨p, r, hp, rfl, rfl⟩ := heq
      have haux : isAuxpow base.version = true := (isAuxpow_iff _).mpr hcond.1
      refine ⟨rest', hbase, Or.inl ⟨p, rfl, ?_, haux, hcond.2, hp⟩⟩
      simpa [isAuxpow] using haux
  · next hcond =>
      simp only [Option.some.injEq, Prod.mk.injEq] at heq
      obtain ⟨rfl, rfl⟩ := heq
      refine ⟨rest', hbase, Or.inr ⟨rfl, rfl, rfl, ?_⟩⟩
      by_cases haux : isAuxpow base.version = true
      · right
        by_contra hlen
        exact hcond ⟨(isAuxpow_iff _).mp haux, hlen⟩
      · left
        simpa using haux

/-- A deserialized header parsed, and its proof, if it has one, was accepted. -/
theorem blockHeaderDeserialize_eq_some {pf : Platform} {params : ChainParams} {work : ArithUint256}
    (heq : blockHeaderDeserialize pf buf params = some (h, work, rest)) :
    blockHeaderParse buf = some (h, rest) ∧ blockHeaderValidate pf h params = some work := by
  simp only [blockHeaderDeserialize, Option.bind_eq_bind, Option.bind_eq_some_iff, Prod.exists,
    Option.some.injEq, Prod.mk.injEq] at heq
  obtain ⟨h', rest', hparse, work', hval, rfl, rfl, rfl⟩ := heq
  exact ⟨hparse, hval⟩

/-! ## A platform for runs on fixed inputs -/

/-- A hash function for which the double hash of a header is the merkle root it names. -/
def sampleSha256 (bs : Bytes) : Uint256 :=
  if h : bs.length = 80 then
    ⟨(bs.drop 36).take 32, by rw [List.length_take, List.length_drop, h]; rfl⟩
  else if h : bs.length = 32 then ⟨bs, h⟩
  else Uint256.zero

/-- The platform of the runs on fixed inputs: every scrypt hash meets every target. -/
def samplePlatform : Platform where
  sha256Raw := sampleSha256
  scrypt := fun _ => Uint256.zero
  pastEnd := fun _ _ => 0

/-- A header with a chosen hash on `samplePlatform`. -/
def sampleHeader (version : UInt32) (prevBlock hash : Uint256) (bits : UInt32) : BlockHeader where
  version := version
  prevBlock := prevBlock
  merkleRoot := hash
  timestamp := 0
  bits := bits
  nonce := 0

/-- A header has the chosen hash. -/
theorem hash_sampleHeader (version : UInt32) (prevBlock hash : Uint256) (bits : UInt32) :
    blockHeaderHash samplePlatform (sampleHeader version prevBlock hash bits) = hash := by
  have hroot : ((blockHeaderSerialize (sampleHeader version prevBlock hash bits)).drop 36).take 32 =
    hash.1 := by
    have hsplit : blockHeaderSerialize (sampleHeader version prevBlock hash bits) =
        (serU32 version ++ serU256 prevBlock) ++
          (serU256 hash ++ (serU32 0 ++ serU32 bits ++ serU32 0)) := by
      simp only [blockHeaderSerialize, sampleHeader, List.append_assoc]
    have hfront : (serU32 version ++ serU256 prevBlock).length = 36 := by
      rw [List.length_append, serU256, prevBlock.2]
      rfl
    rw [hsplit, List.drop_left' hfront]
    exact List.take_left' hash.2
  have houter : ∀ v : Uint256, sampleSha256 v.1 = v := by
    intro v
    unfold sampleSha256
    rw [dif_neg (by rw [v.2]; decide), dif_pos v.2]
  have hinner : sampleSha256 (blockHeaderSerialize (sampleHeader version prevBlock hash bits)) =
    hash := by
    unfold sampleSha256
    rw [dif_pos (length_blockHeaderSerialize _)]
    exact Subtype.ext hroot
  show sampleSha256 (sampleSha256 _).1 = hash
  rw [hinner, houter]

/-- A header with the least admissible work. -/
def lightHeader (prevBlock hash : Uint256) : Bytes :=
  blockHeaderSerialize (sampleHeader 1 prevBlock hash 0x1e0ffff0)

/-- The `n`-th hash of a run on fixed inputs. -/
abbrev hashNo (n : ℕ) : Uint256 := Uint256.ofNat n

end Libdogecoin
