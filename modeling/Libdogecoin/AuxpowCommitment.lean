/-
# What an accepted merged-mining proof commits to

A merged-mining proof commits to a block when the coinbase script of the parent block holds the
magic followed by the whole chain merkle root, the branch size and a nonce that selects the slot.
`check` scans the script for the magic; this module determines when its acceptance implies the
commitment.

* `scanScript_eq` : the scan accepts iff every match passes its tests, and counts the matches;
* `check_iff` : the acceptance condition of `check`, as tests before the scan and the matches;
* `check_commits_iff` : acceptance implies the commitment unless the script has no match at all,
  or its only match is a partial commitment.
-/
import Libdogecoin.Block

namespace Libdogecoin

/-! ## The commitment -/

/-- A slice of a script. -/
def slice (s : Bytes) (off n : ℕ) : Bytes := (s.drop off).take n

/-- The script holds at index `i` the magic, the byte-reversed root, the size `2 ^ height` and a
nonce whose expected index is `index`. -/
structure CommitmentAt (script : Bytes) (root : Uint256) (chainid : UInt32) (height : ℕ)
    (index : UInt32) (i : ℕ) : Prop where
  inside : i + 44 ≤ script.length
  magic : slice script i 4 = pchMergedMiningHeader
  root_eq : slice script (i + 4) 32 = root.1.reverse
  size_eq : LittleEndian.ofBytes (slice script (i + 36) 4) = 2 ^ height
  index_eq : getExpectedIndex (UInt32.ofNat
    (LittleEndian.ofBytes (slice script (i + 40) 4))) chainid height = index

/-- The proof commits to the block hash: the script of the first coinbase input holds a
commitment to its chain merkle root. -/
def Commits (pf : Platform) (block : AuxpowBlock) (hash : Uint256) (chainid : UInt32) : Prop :=
  ∃ txIn, block.parentCoinbase.vin.head? = some txIn ∧
    ∃ i, CommitmentAt txIn.scriptSig (chainMerkleRoot pf block hash) chainid
      block.auxMerkleBranch.length block.auxMerkleIndex i

/-! ## The tests before the scan -/

/-- The proof passes every test `check` makes before it scans `script`, the script of the first
coinbase input. -/
structure PassesBeforeScan (pf : Platform) (block : AuxpowBlock) (chainid : UInt32)
    (params : ChainParams) (script : Bytes) : Prop where
  generate : block.parentMerkleIndex = 0
  foreign : ¬ (params.strictId = true ∧ getChainid block.parentHeader.version = chainid)
  short : block.auxMerkleBranch.length ≤ 30
  input : block.parentCoinbase.vin.head?.map TxIn.scriptSig = some script
  parentRoot : checkMerkleBranch pf (txHash pf block.parentCoinbase) block.parentCoinbaseMerkle
    (toInt block.parentMerkleIndex) = block.parentHeader.merkleRoot

/-- `check` is the tests before the scan followed by the scan. -/
theorem check_eq_true (pf : Platform) (block : AuxpowBlock) (hash : Uint256) (chainid : UInt32)
    (params : ChainParams) :
    check pf block hash chainid params = true ↔
      ∃ script, PassesBeforeScan pf block chainid params script ∧
        checkScript pf block (hashToString (chainMerkleRoot pf block hash)) chainid script =
          true := by
  constructor
  · intro h
    rw [check] at h
    split at h
    · cases h
    next hgen =>
    split at h
    · cases h
    next hforeign =>
    split at h
    · cases h
    next hshort =>
    split at h
    · cases h
    next txIn rest hvin =>
    dsimp only at h
    split at h
    · cases h
    next hroot =>
    refine ⟨txIn.scriptSig, ⟨not_not.mp hgen, ?_, Nat.not_lt.mp hshort, ?_, not_not.mp hroot⟩, h⟩
    · simpa using hforeign
    · simp [hvin]
  · rintro ⟨script, ⟨hgen, hforeign, hshort, hinput, hroot⟩, hscan⟩
    cases hvin : block.parentCoinbase.vin with
    | nil => simp [hvin] at hinput
    | cons txIn rest =>
      have hscript : txIn.scriptSig = script := by simpa [hvin] using hinput
      rw [check, if_neg (not_not.mpr hgen), if_neg (by simpa using hforeign),
        if_neg (Nat.not_lt.mpr hshort)]
      simp only [hvin]
      rw [if_neg (not_not.mpr hroot), hscript, hscan]

/-! ## The scan -/

/-- The scan accepts iff every match passes its tests; its result counts the matches. -/
theorem scanScript_eq (pf : Platform) (script : Bytes) (ok : ℕ → Bool) (idxs : List ℕ)
    (count : ℕ) :
    scanScript pf script ok idxs count =
      if (idxs.filter (needleFound pf script)).all ok then
        some (count + (idxs.filter (needleFound pf script)).length)
      else none := by
  induction idxs generalizing count with
  | nil => simp [scanScript]
  | cons idx idxs ih =>
    rw [scanScript]
    by_cases hneedle : needleFound pf script idx = true
    · by_cases hok : ok idx = true
      · simp only [hneedle, hok, if_true, ih, List.filter_cons_of_pos hneedle, List.all_cons,
          Bool.true_and, List.length_cons]
        congr 2
        omega
      · simp [hneedle, hok]
    · simp [hneedle, ih]

/-- The positions of the script at which the scan finds the magic. -/
def magicPositions (pf : Platform) (script : Bytes) : List ℕ :=
  (List.range script.length).filter (needleFound pf script)

variable {pf : Platform} {script : Bytes} {i height : ℕ} {root : Uint256} {chainid index : UInt32}

theorem mem_magicPositions :
    i ∈ magicPositions pf script ↔ i < script.length ∧ needleFound pf script i = true := by
  rw [magicPositions, List.mem_filter, List.mem_range]

/-- The scan accepts iff there is at most one match and it passes its tests. -/
theorem checkScript_eq_true (pf : Platform) (block : AuxpowBlock) (vchRoothash : List Char)
    (chainid : UInt32) (script : Bytes) :
    checkScript pf block vchRoothash chainid script = true ↔
      (∀ i ∈ magicPositions pf script, commitmentOk pf script vchRoothash chainid
        block.auxMerkleBranch.length block.auxMerkleIndex i = true) ∧
      (magicPositions pf script).length ≤ 1 := by
  rw [checkScript, scanScript_eq, ← magicPositions]
  split
  · next hnone =>
      split at hnone
      · cases hnone
      · next hall =>
          rw [List.all_eq_true] at hall
          simp only [Bool.false_eq_true, false_iff, not_and]
          exact fun h => absurd h hall
  · next count hsome =>
      split at hsome
      · next hall =>
          rw [List.all_eq_true] at hall
          have hcount : count = (magicPositions pf script).length := by
            simpa using hsome.symm
          rw [hcount, Bool.not_eq_true', decide_eq_false_iff_not, Nat.not_lt]
          exact ⟨fun h => ⟨hall, h⟩, fun h => h.2⟩
      · cases hsome

/-! ## One match -/

/-- What the loop body tests at a match: the first 16 bytes of the reversed root, the size and the
expected index, read from memory. -/
structure PartialCommitment (pf : Platform) (script : Bytes) (root : Uint256) (chainid : UInt32)
    (height : ℕ) (index : UInt32) (i : ℕ) : Prop where
  half : (cstrBytes pf script (i + 4) 32).take 16 = root.1.reverse.take 16
  size_eq : UInt32.ofNat (LittleEndian.ofBytes (cstrBytes pf script (i + 36) 4)) =
    UInt32.ofNat (2 ^ height)
  index_eq : getExpectedIndex
    (UInt32.ofNat (LittleEndian.ofBytes (cstrBytes pf script (i + 40) 4))) chainid height = index

/-- The first 32 hex digits are those of the first 16 bytes. -/
theorem hex_take_eq_iff {as bs : Bytes} :
    (utilsUint8ToHex as).take 32 = (utilsUint8ToHex bs).take 32 ↔ as.take 16 = bs.take 16 := by
  have htake : ∀ l : Bytes, (utilsUint8ToHex l).take 32 = utilsUint8ToHex (l.take 16) := by
    intro l
    rcases Nat.le_total l.length 16 with hlen | hlen
    · rw [List.take_of_length_le hlen, List.take_of_length_le]
      rw [length_utilsUint8ToHex]
      omega
    · have hsplit : utilsUint8ToHex l = utilsUint8ToHex (l.take 16) ++
        utilsUint8ToHex (l.drop 16) := by
        rw [← utilsUint8ToHex_append, List.take_append_drop]
      have hfront : (utilsUint8ToHex (l.take 16)).length = 32 := by
        rw [length_utilsUint8ToHex, List.length_take]
        omega
      rw [hsplit, List.take_left' hfront]
  rw [htake, htake]
  exact ⟨hex_injective, fun h => by rw [h]⟩

/-- The three tests of the loop body establish a partial commitment and nothing more. -/
theorem commitmentOk_eq_true (pf : Platform) (script : Bytes) (root : Uint256) (chainid : UInt32)
    (height : ℕ) (index : UInt32) (i : ℕ) :
    commitmentOk pf script (hashToString root) chainid height index i = true ↔
      PartialCommitment pf script root chainid height index i := by
  have hroot : (hashToString root).take 32 =
      (utilsUint8ToHex (cstrBytes pf script (i + 4) 32)).take 32 ↔
      (cstrBytes pf script (i + 4) 32).take 16 = root.1.reverse.take 16 := by
    rw [hashToString, utilsReverseHex_hex, hex_take_eq_iff]
    exact eq_comm
  rw [commitmentOk]
  constructor
  · intro h
    split at h
    · cases h
    next hhalf =>
    dsimp only at h
    split at h
    · cases h
    next hsize =>
    exact ⟨hroot.mp (not_not.mp hhalf), not_not.mp hsize, (of_decide_eq_true h).symm⟩
  · rintro ⟨hhalf, hsize, hindex⟩
    rw [if_neg (not_not.mpr (hroot.mpr hhalf))]
    dsimp only
    rw [if_neg (not_not.mpr hsize)]
    exact decide_eq_true hindex.symm

/-- A commitment inside the script is found by the scan. -/
theorem CommitmentAt.mem_magicPositions (h : CommitmentAt script root chainid height index i) :
    i ∈ magicPositions pf script := by
  have hinside := h.inside
  refine Libdogecoin.mem_magicPositions.mpr ⟨by omega, ?_⟩
  rw [needleFound, decide_eq_true_iff, cstrBytes_eq_slice (by omega)]
  exact h.magic

/-- A match inside the script that passes the tests of the loop body is a commitment as soon as
the whole root follows the magic. -/
theorem PartialCommitment.commitmentAt (h : PartialCommitment pf script root chainid height index i)
    (hmatch : i ∈ magicPositions pf script) (hheight : height ≤ 30)
    (hinside : i + 44 ≤ script.length)
    (hroot : slice script (i + 4) 32 = root.1.reverse) :
    CommitmentAt script root chainid height index i := by
  have hmagic := (mem_magicPositions.mp hmatch).2
  rw [needleFound, decide_eq_true_iff, cstrBytes_eq_slice (by omega)] at hmagic
  have hsize := h.size_eq
  have hindex := h.index_eq
  rw [cstrBytes_eq_slice (by omega)] at hsize hindex
  refine ⟨hinside, hmagic, hroot, ?_, hindex⟩
  have hpow : 2 ^ height < 2 ^ 32 := Nat.pow_lt_pow_right (by decide) (by omega)
  have hbytes : LittleEndian.ofBytes (slice script (i + 36) 4) < 2 ^ 32 := by
    have hlt := LittleEndian.ofBytes_lt (slice script (i + 36) 4)
    have hlen : (slice script (i + 36) 4).length = 4 := by
      rw [slice, List.length_take, List.length_drop]
      omega
    rw [hlen] at hlt
    exact hlt
  have hval := congrArg UInt32.toNat hsize
  rw [UInt32.toNat_ofNat', UInt32.toNat_ofNat', Nat.mod_eq_of_lt hpow] at hval
  rwa [← slice, Nat.mod_eq_of_lt hbytes] at hval

/-! ## Acceptance and commitment -/

/-- The acceptance condition of `check`, with its tests spelled out. -/
theorem check_iff (pf : Platform) (block : AuxpowBlock) (hash : Uint256) (chainid : UInt32)
    (params : ChainParams) :
    check pf block hash chainid params = true ↔
      ∃ script, PassesBeforeScan pf block chainid params script ∧
        (∀ i ∈ magicPositions pf script, PartialCommitment pf script (chainMerkleRoot pf block hash)
          chainid block.auxMerkleBranch.length block.auxMerkleIndex i) ∧
        (magicPositions pf script).length ≤ 1 := by
  simp only [check_eq_true, checkScript_eq_true, commitmentOk_eq_true]

/-- The script has no commitment, and the scan does not notice: it finds no magic, or a single
one whose tests pass although the whole root does not follow it inside the script. -/
inductive UnnoticedGap (pf : Platform) (script : Bytes) (root : Uint256) (chainid : UInt32)
    (height : ℕ) (index : UInt32) : Prop where
  | noMagic (hnone : magicPositions pf script = [])
  | partialOnly (i : ℕ) (hone : magicPositions pf script = [i])
      (hpart : PartialCommitment pf script root chainid height index i)
      (hgap : ¬ (i + 44 ≤ script.length ∧ slice script (i + 4) 32 = root.1.reverse))

/-- **When acceptance implies the commitment.** An accepted proof commits to the block unless the
coinbase script, behind passed tests on the rest of the proof, has an unnoticed gap. -/
theorem check_commits_iff (pf : Platform) (block : AuxpowBlock) (hash : Uint256) (chainid : UInt32)
    (params : ChainParams) :
    (check pf block hash chainid params = true → Commits pf block hash chainid) ↔
      ¬ ∃ script, PassesBeforeScan pf block chainid params script ∧
        UnnoticedGap pf script (chainMerkleRoot pf block hash) chainid
          block.auxMerkleBranch.length block.auxMerkleIndex := by
  constructor
  · rintro himp ⟨script, hbefore, hgap⟩
    have hcommit : ∀ i, CommitmentAt script (chainMerkleRoot pf block hash) chainid
        block.auxMerkleBranch.length block.auxMerkleIndex i → False := by
      intro i hi
      have hmem : i ∈ magicPositions pf script := hi.mem_magicPositions
      cases hgap with
      | noMagic hnone =>
        rw [hnone] at hmem
        cases hmem
      | partialOnly j hone _ hgap =>
        rw [hone, List.mem_singleton] at hmem
        subst hmem
        exact hgap ⟨hi.inside, hi.root_eq⟩
    have haccept : check pf block hash chainid params = true := by
      refine (check_iff ..).mpr ⟨script, hbefore, ?_⟩
      cases hgap with
      | noMagic hnone => simp [hnone]
      | partialOnly j hone hpart _ => simpa [hone] using hpart
    obtain ⟨txIn, htx, i, hi⟩ := himp haccept
    have hscript : txIn.scriptSig = script := by simpa [htx] using hbefore.input
    exact hcommit i (hscript ▸ hi)
  · intro hno haccept
    obtain ⟨script, hbefore, hpart, hcount⟩ := (check_iff ..).mp haccept
    have hinput := hbefore.input
    rw [Option.map_eq_some_iff] at hinput
    obtain ⟨txIn, htx, hscript⟩ := hinput
    subst hscript
    match hpos : magicPositions pf txIn.scriptSig with
    | [] => exact absurd ⟨txIn.scriptSig, hbefore, .noMagic hpos⟩ hno
    | [i] =>
      have hmem : i ∈ magicPositions pf txIn.scriptSig := by simp [hpos]
      have hpart := hpart i hmem
      by_cases hfull : i + 44 ≤ txIn.scriptSig.length ∧
          slice txIn.scriptSig (i + 4) 32 = (chainMerkleRoot pf block hash).1.reverse
      · exact ⟨txIn, htx, i, hpart.commitmentAt hmem hbefore.short hfull.1 hfull.2⟩
      · exact absurd ⟨txIn.scriptSig, hbefore, .partialOnly i hpos hpart hfull⟩ hno
    | i :: j :: rest =>
      rw [hpos] at hcount
      simp at hcount

/-- A coinbase whose only input carries the script `OP_TRUE`. -/
def plainCoinbase : Tx where
  version := 1
  vin := [{ prevout := { hash := Uint256.zero, n := 0xffffffff }, scriptSig := [0x51],
            sequence := 0xffffffff }]
  vout := []
  locktime := 0

/-- A proof without branches whose parent block holds nothing but `plainCoinbase`. -/
def plainProof (pf : Platform) (header : BlockHeader) : AuxpowBlock where
  parentCoinbase := plainCoinbase
  parentHash := Uint256.zero
  parentCoinbaseMerkle := []
  parentMerkleIndex := 0
  auxMerkleBranch := []
  auxMerkleIndex := 0
  parentHeader :=
    { version := 1, prevBlock := Uint256.zero, merkleRoot := txHash pf plainCoinbase,
      timestamp := 0, bits := 0, nonce := 0 }
  header := header
  auxpowIs := true

/-- Whatever the hash functions, `check` accepts on the main chain a proof whose coinbase mentions
no merged mining at all. -/
theorem check_plainProof (pf : Platform) (header : BlockHeader) (hash : Uint256) :
    check pf (plainProof pf header) hash 0x62 dogecoinChainparamsMain = true ∧
      ¬ Commits pf (plainProof pf header) hash 0x62 := by
  have hpos : magicPositions pf [0x51] = [] := by
    have hfirst : needleFound pf [0x51] 0 = false := by
      simp [needleFound, cstrBytes, cstrAt, pchMergedMiningHeader, List.range_succ]
    simp [magicPositions, hfirst]
  have hbefore : PassesBeforeScan pf (plainProof pf header) 0x62 dogecoinChainparamsMain [0x51] :=
    { generate := rfl, foreign := fun h => absurd h.2 (by simp [plainProof, getChainid]; decide),
      short := Nat.zero_le 30, input := rfl, parentRoot := rfl }
  constructor
  · exact (check_iff ..).mpr ⟨[0x51], hbefore, by simp [hpos]⟩
  · rintro ⟨txIn, htx, i, hi⟩
    obtain rfl := Option.some.inj htx
    have hinside := hi.inside
    simp at hinside

/-- An accepted proof need not commit to the block. -/
theorem check_accepts_plainProof :
    ¬ ∀ (pf : Platform) (block : AuxpowBlock) (hash : Uint256) (chainid : UInt32)
      (params : ChainParams), check pf block hash chainid params = true →
      Commits pf block hash chainid := by
  intro hall
  obtain ⟨haccept, hno⟩ := check_plainProof samplePlatform
    (sampleHeader 1 Uint256.zero Uint256.zero 0) Uint256.zero
  exact hno (hall _ _ _ _ _ haccept)

end Libdogecoin
