/-
# Proof payloads in carrier inputs

`zk_carrier.c` and `zk_commit.c` : a ZKP1 payload is cut into the parts of a carrier under a tag of
its own, and is put together again from the inputs of a transaction.

* `splitInto_zkParts` : the parts are a split of the payload;
* `foldl_collectPart` : what the pass over the inputs collects;
* `extractCarrierPayload_build` : the payload is found again in any order of the inputs, and not
  without a part.
-/
import Libdogecoin.PqcCarrier

namespace Libdogecoin

namespace ZkCarrier

open PqcCarrier Slots

/-! ## Payloads -/

/-- `dogecoin_zk_err_t`, as far as it is returned here. -/
inductive ZkErr where
  | invalidArg
  | badMagic
  | badMode
  | truncated
  | oom
  | verifyFail
  | badVersion
  deriving DecidableEq

/-- `DOGECOIN_ZK_CARRIER_MAGIC` : `ZKP1`. -/
def CARRIER_MAGIC : Bytes := [0x5a, 0x4b, 0x50, 0x31]

/-- `DOGECOIN_ZK_CARRIER_HDR_FIXED`. -/
def CARRIER_HDR_FIXED : ℕ := 12

/-- `zk_mode_is_known` : Groth16, PLONK and STARK are the modes 0, 1 and 2. -/
def zkModeIsKnown (mode : UInt32) : Bool := mode = 0 ∨ mode = 1 ∨ mode = 2

/-- What is decoded from a payload. -/
structure ZkPayload where
  mode : UInt32
  circuitId : UInt32
  publicInputs : Bytes
  proof : Bytes
  vk : Bytes
  deriving DecidableEq

/-- A length or an identifier in four bytes, the highest first. -/
def readBe32 (bs : Bytes) : UInt32 :=
  (bs.getD 0 0).toUInt32 <<< 24 ||| (bs.getD 1 0).toUInt32 <<< 16 |||
    (bs.getD 2 0).toUInt32 <<< 8 |||
    (bs.getD 3 0).toUInt32

/-- A field with its length in front of it, and the rest. -/
def readBlob (bs : Bytes) : Except ZkErr (Bytes × Bytes) :=
  if 4 > bs.length then .error .truncated
  else if (readBe32 bs).toNat > (bs.drop 4).length then .error .truncated
  else .ok ((bs.drop 4).take (readBe32 bs).toNat, (bs.drop 4).drop (readBe32 bs).toNat)

/-- `dogecoin_zk_decode_payload`. -/
def decodePayload (payload : Bytes) : Except ZkErr ZkPayload :=
  if payload.length < CARRIER_HDR_FIXED then .error .truncated
  else if payload.take 4 ≠ CARRIER_MAGIC then .error .badMagic
  else
    let modeByte := payload.getD 4 0
    let version := payload.getD 5 0
    if version &&& ~~~0x01 ≠ 0 ∨ version ≠ 0x00 ∧ version ≠ 0x01 then .error .badVersion
    else if ¬ zkModeIsKnown modeByte.toUInt32 then .error .badMode
    else
      let circuitId := readBe32 (payload.drop 6)
      let pl := (readLen (payload.getD 10 0) (payload.getD 11 0)).toNat
      let rest := payload.drop CARRIER_HDR_FIXED
      if pl > rest.length then .error .truncated
      else do
        let (proof, rest') ← readBlob (rest.drop pl)
        let (vk, rest'') ← if version = 0x01 then readBlob rest' else .ok ([], rest')
        if rest'' ≠ [] then .error .truncated
        else .ok { mode := modeByte.toUInt32, circuitId := circuitId, publicInputs := rest.take pl
                   proof := proof, vk := vk }

/-! ## Parts -/

/-- `DOGECOIN_ZK_CARRIER_TAG8` : `ZKP1FULL`. -/
def CARRIER_TAG8 : Tag8 := ⟨[0x5a, 0x4b, 0x50, 0x31, 0x46, 0x55, 0x4c, 0x4c], rfl⟩

/-- `ZK_PART_PAYLOAD_MAX`. -/
def PART_PAYLOAD_MAX : ℕ := MAX_CHUNKS * CHUNK_MAX

/-- `zk_compute_part_total`. -/
def zkComputePartTotal (payloadLen : ℕ) : Option UInt8 :=
  if payloadLen = 0 then some 1
  else
    let parts := (payloadLen + PART_PAYLOAD_MAX - 1) / PART_PAYLOAD_MAX
    if parts = 0 ∨ parts > 0xFF then none else some (UInt8.ofNat parts)

/-- `dogecoin_pqc_carrier_build_redeemscript` : five `OP_DROP` and `OP_1`. -/
def buildRedeemscript : Bytes := [0x75, 0x75, 0x75, 0x75, 0x75, 0x51]

/-- The bytes of a part. -/
def zkPart (payload : Bytes) (i : ℕ) :
    Bytes := (payload.drop (i * PART_PAYLOAD_MAX)).take PART_PAYLOAD_MAX

/-- A length in sixteen bits, or the largest of them. -/
def advisory (len : ℕ) : UInt16 := UInt16.ofNat (if len > 0xFFFF then 0xFFFF else len)

/-- The advisory length of the public inputs, which is 0 where the payload is not decoded. -/
def advisoryPl (payload : Bytes) : UInt16 :=
  match decodePayload payload with
  | .ok decoded => advisory decoded.publicInputs.length
  | .error _ => 0

/-- The scripts of parts with their numbers. -/
def buildParts (partTotal : UInt8) (pkLen fullLen : UInt16) :
    List (Bytes × ℕ) → Except ZkErr (List Bytes)
  | [] => .ok []
  | part :: rest =>
    match buildPartScriptsig CARRIER_TAG8 (UInt8.ofNat part.2) partTotal pkLen fullLen part.1
      buildRedeemscript with
    | none => .error .oom
    | some ss => (buildParts partTotal pkLen fullLen rest).map fun sigs => ss :: sigs

/-- `dogecoin_zk_build_carrier_tx_r_scriptsigs`. -/
def buildCarrierTxRScriptsigs (payload : Bytes) : Except ZkErr (List Bytes) :=
  if payload.length = 0 then .error .invalidArg
  else
    match zkComputePartTotal payload.length with
    | none => .error .invalidArg
    | some partTotal =>
      buildParts partTotal (advisoryPl payload) (advisory payload.length)
        ((List.range partTotal.toNat).map (zkPart payload)).zipIdx

/-! ## Extraction -/

/-- A ZKP1FULL part in an input. -/
def carriedPart (txIn : TxIn) : Option ParsedPart :=
  (carrierPart txIn).bind fun part =>
    if part.tag8 ≠ CARRIER_TAG8 ∨ part.partTotal = 0 ∨ part.partIndex ≥ part.partTotal then none
    else some part

/-- What was seen in the inputs: the number of parts and the length that the first part has, and the
parts. -/
structure Seen where
  expectedTotal : UInt8
  advisoryFull : UInt16
  partBufs : List (Option Bytes)
  deriving DecidableEq

/-- One input. A part that is already there is kept. -/
def collectPart (seen : Option Seen) (txIn : TxIn) : Option Seen :=
  match carriedPart txIn with
  | none => seen
  | some part =>
    let seen := seen.getD { expectedTotal := part.partTotal, advisoryFull := part.fullLen
                            partBufs := List.replicate part.partTotal.toNat none }
    if part.partTotal ≠ seen.expectedTotal then some seen
    else some { seen with
      partBufs := offer seen.partBufs (part.partIndex.toNat, part.partData) }

/-- `dogecoin_zk_extract_carrier_payload`. -/
def extractCarrierPayload (tx : Tx) : Except ZkErr Bytes :=
  match tx.vin.foldl collectPart none with
  | none => .error .truncated
  | some seen =>
    if seen.partBufs.any Option.isNone then .error .truncated
    else
      let parts := seen.partBufs.map fun part => part.getD []
      let total := (parts.map List.length).sum
      if seen.advisoryFull ≠ 0xFFFF ∧ seen.advisoryFull ≠ UInt16.ofNat total then .error .truncated
      else
        let out := parts.flatten
        if out.length < 4 ∨ out.take 4 ≠ CARRIER_MAGIC then .error .badMagic else .ok out

/-! ## The parts of a payload -/

variable {partTotal : UInt8}

theorem zkComputePartTotal_eq_some {payloadLen : ℕ} (hpos : 0 < payloadLen)
    (h : zkComputePartTotal payloadLen = some partTotal) :
    0 < partTotal.toNat ∧ payloadLen ≤ partTotal.toNat * PART_PAYLOAD_MAX := by
  unfold zkComputePartTotal at h
  rw [if_neg (by omega)] at h
  dsimp only at h
  split_ifs at h with hbad
  rw [not_or, Nat.not_lt] at hbad
  obtain rfl := Option.some.inj h
  have htoNat := UInt8.toNat_ofNat_of_lt' (Nat.lt_succ_of_le hbad.2)
  rw [htoNat]
  refine ⟨Nat.pos_of_ne_zero hbad.1, ?_⟩
  simp only [PART_PAYLOAD_MAX, MAX_CHUNKS, CHUNK_MAX]
  omega

/-- The first parts are the front of the payload. -/
theorem flatten_zkParts (payload : Bytes) (n : ℕ) :
    ((List.range n).map (zkPart payload)).flatten = payload.take (n * PART_PAYLOAD_MAX) := by
  induction n with
  | zero => rw [Nat.zero_mul]; rfl
  | succ n ih =>
    rw [List.range_succ, List.map_append, List.flatten_append, ih, Nat.succ_mul, List.take_add,
      List.map_singleton, List.flatten_singleton, zkPart]

/-- The parts are a split of the payload. -/
theorem splitInto_zkParts {payload : Bytes} (hpos : 0 < partTotal.toNat)
    (hle : payload.length ≤ partTotal.toNat * PART_PAYLOAD_MAX) :
    SplitInto payload ((List.range partTotal.toNat).map (zkPart payload)) where
  flatten := by rw [flatten_zkParts, List.take_of_length_le hle]
  pos := by rwa [List.length_map, List.length_range]
  le := by
    have hlt := partTotal.toNat_lt
    rw [List.length_map, List.length_range]
    omega
  fits := by
    intro part hpart
    obtain ⟨i, -, rfl⟩ := List.mem_map.mp hpart
    exact List.length_take_le _ _

/-- Each script is the script of its part. -/
theorem forall₂_buildParts {pkLen fullLen : UInt16} {parts : List (Bytes × ℕ)} {sigs : List Bytes}
    (h : buildParts partTotal pkLen fullLen parts = .ok sigs) :
    List.Forall₂ (fun part ss => buildPartScriptsig CARRIER_TAG8 (UInt8.ofNat part.2) partTotal
      pkLen fullLen part.1 buildRedeemscript = some ss) parts sigs := by
  induction parts generalizing sigs with
  | nil =>
    cases h
    exact .nil
  | cons part parts ih =>
    rw [buildParts] at h
    cases hbuild : buildPartScriptsig CARRIER_TAG8 (UInt8.ofNat part.2) partTotal
      pkLen fullLen part.1 buildRedeemscript with
    | none =>
      rw [hbuild] at h
      cases h
    | some ss =>
      rw [hbuild] at h
      cases hrest : buildParts partTotal pkLen fullLen parts with
      | error e =>
        rw [hrest] at h
        cases h
      | ok rest =>
        rw [hrest] at h
        cases h
        exact .cons hbuild (ih hrest)

/-- What is built: the scripts of the parts of a split, with the length of the payload in each. -/
theorem buildCarrierTxRScriptsigs_eq_ok {payload : Bytes} {sigs : List Bytes}
    (h : buildCarrierTxRScriptsigs payload = .ok sigs) :
    ∃ parts, SplitInto payload parts ∧
      List.Forall₂ (fun part ss => buildPartScriptsig CARRIER_TAG8 (UInt8.ofNat part.2)
        (UInt8.ofNat parts.length) (advisoryPl payload)
        (advisory payload.length) part.1 buildRedeemscript = some ss) parts.zipIdx sigs := by
  unfold buildCarrierTxRScriptsigs at h
  split_ifs at h with hempty
  cases htotal : zkComputePartTotal payload.length with
  | none =>
    rw [htotal] at h
    cases h
  | some partTotal =>
    rw [htotal] at h
    obtain ⟨hpos, hle⟩ := zkComputePartTotal_eq_some (Nat.pos_of_ne_zero hempty) htotal
    refine ⟨_, splitInto_zkParts hpos hle, ?_⟩
    rw [List.length_map, List.length_range, UInt8.ofNat_toNat]
    exact forall₂_buildParts h

/-! ## What is collected -/

/-- What an input offers: the number of its part, and the part. -/
def offered (txIn : TxIn) : Option (ℕ × Bytes) := (carriedPart txIn).map fun part =>
    (part.partIndex.toNat, part.partData)

/-- Parts with one total and one length fill the slots in the order of the inputs. -/
theorem foldl_collectPart {total : UInt8} {full : UInt16} {vin : List TxIn}
    (hparts : ∀ txIn ∈ vin, ∀ part, carriedPart txIn = some part → part.partTotal = total ∧
      part.fullLen = full)
    (slots : List (Option Bytes)) :
    vin.foldl collectPart (some ⟨total, full, slots⟩) =
      some ⟨total, full, (vin.filterMap offered).foldl offer slots⟩ := by
  induction vin generalizing slots with
  | nil => rfl
  | cons txIn vin ih =>
    have hrest := ih fun other hother => hparts other (List.mem_cons_of_mem _ hother)
    rw [List.foldl_cons]
    cases hpart : carriedPart txIn with
    | none =>
      rw [List.filterMap_cons_none (by rw [offered, hpart]; rfl), collectPart, hpart]
      exact hrest slots
    | some part =>
      obtain ⟨htotal, -⟩ := hparts txIn List.mem_cons_self part hpart
      rw [List.filterMap_cons_some (by rw [offered, hpart]; rfl), List.foldl_cons, ← hrest]
      congr 1
      unfold collectPart
      rw [hpart]
      dsimp only [Option.getD_some]
      rw [if_neg fun h => h htotal]

/-- The first part decides, where there is one. -/
theorem foldl_collectPart_none {total : UInt8} {full : UInt16} {vin : List TxIn}
    (hparts : ∀ txIn ∈ vin, ∀ part, carriedPart txIn = some part → part.partTotal = total ∧
      part.fullLen = full) :
    vin.foldl collectPart none =
      if vin.filterMap offered = [] then none
      else some { expectedTotal := total, advisoryFull := full
                  partBufs := (vin.filterMap offered).foldl offer
                    (List.replicate total.toNat none) } := by
  induction vin with
  | nil => rfl
  | cons txIn vin ih =>
    have htail := fun other (hother : other ∈ vin) => hparts other (List.mem_cons_of_mem _ hother)
    rw [List.foldl_cons]
    cases hpart : carriedPart txIn with
    | none =>
      rw [List.filterMap_cons_none (by rw [offered, hpart]; rfl), collectPart, hpart]
      exact ih htail
    | some part =>
      obtain ⟨rfl, rfl⟩ := hparts txIn List.mem_cons_self part hpart
      have hfirst : collectPart none txIn = some ⟨part.partTotal, part.fullLen,
          offer (List.replicate part.partTotal.toNat none)
            (part.partIndex.toNat, part.partData)⟩ := by
        unfold collectPart
        rw [hpart]
        dsimp only [Option.getD_none]
        rw [if_neg fun h => h rfl]
      rw [List.filterMap_cons_some (by rw [offered, hpart]; rfl), if_neg (List.cons_ne_nil _ _),
        List.foldl_cons, hfirst, foldl_collectPart htail]

variable {payload : Bytes} {parts sigs : List Bytes} {pkLen fullLen : UInt16} {vin : List TxIn}

/-- A part with a number of the split is one of the payload's. -/
theorem carriedPart_of_parsed (hsplit : SplitInto payload parts) {part : Bytes × ℕ}
    (hmem : part ∈ parts.zipIdx) {txIn : TxIn} {redeem : Bytes}
    (hpart : carrierPart txIn =
      some { tag8 := CARRIER_TAG8, partIndex := UInt8.ofNat part.2
             partTotal := UInt8.ofNat parts.length, pkLen := pkLen, fullLen := fullLen
             partData := part.1, redeem := redeem }) :
    carriedPart txIn = carrierPart txIn := by
  obtain ⟨hindex, hlt⟩ := hsplit.toNat_index hmem
  have htotal := hsplit.toNat_total
  have hgood : ¬ (CARRIER_TAG8 ≠ CARRIER_TAG8 ∨ UInt8.ofNat parts.length = 0 ∨
      UInt8.ofNat part.2 ≥ UInt8.ofNat parts.length) := by
    rw [ge_iff_le, UInt8.le_iff_toNat_le, hindex, htotal, ← UInt8.toNat_inj, htotal]
    have hpos := hsplit.pos
    rintro (h | h | h)
    · exact h rfl
    · exact hpos.ne' h
    · omega
  rw [carriedPart, hpart, Option.bind_some, if_neg hgood]

/-- A part that was built is found in its input. -/
theorem carriedPart_of_carries (hsplit : SplitInto payload parts) {part : Bytes × ℕ}
    (hmem : part ∈ parts.zipIdx) {txIn : TxIn}
    (hcarries : CarriesPart CARRIER_TAG8 parts.length pkLen fullLen part txIn) :
    ∃ redeem, carriedPart txIn =
      some { tag8 := CARRIER_TAG8, partIndex := UInt8.ofNat part.2
             partTotal := UInt8.ofNat parts.length, pkLen := pkLen, fullLen := fullLen
             partData := part.1, redeem := redeem } := by
  obtain ⟨redeem, hpart⟩ := carrierPart_of_carries hcarries
  exact ⟨redeem, (carriedPart_of_parsed hsplit hmem hpart).trans hpart⟩

/-- The parts that are found in inputs of which each has a part of the payload or none. -/
theorem carriedPart_eq_some (hsplit : SplitInto payload parts)
    (hvin : ∀ txIn ∈ vin, (∃ part ∈ parts.zipIdx,
      CarriesPart CARRIER_TAG8 parts.length pkLen fullLen part txIn) ∨
      carriedPart txIn = none) :
    ∀ txIn ∈ vin, ∀ part, carriedPart txIn = some part →
      part.partTotal = UInt8.ofNat parts.length ∧ part.fullLen = fullLen := by
  intro txIn htxIn part hpart
  rcases hvin txIn htxIn with ⟨split, hmem, hcarries⟩ | hnone
  · obtain ⟨redeem, hcarried⟩ := carriedPart_of_carries hsplit hmem hcarries
    obtain rfl := Option.some.inj (hpart.symm.trans hcarried)
    exact ⟨rfl, rfl⟩
  · rw [hnone] at hpart
    cases hpart

/-- The inputs with the scripts that were built carry the parts. -/
theorem carriedIn_of_perm
    (hsigs : List.Forall₂ (fun part ss => buildPartScriptsig CARRIER_TAG8 (UInt8.ofNat part.2)
      (UInt8.ofNat parts.length) pkLen fullLen part.1 buildRedeemscript =
      some ss) parts.zipIdx sigs)
    {carriers others : List TxIn} (hperm : vin.Perm (carriers ++ others))
    (hcarriers : carriers.map TxIn.scriptSig = sigs)
    (hothers : ∀ txIn ∈ others, carriedPart txIn = none) :
    CarriedIn CARRIER_TAG8 pkLen fullLen parts (fun txIn => carriedPart txIn = none) vin := by
  rw [← hcarriers, List.forall₂_map_right_iff] at hsigs
  exact ⟨carriers, others, hperm, hsigs.imp fun _ _ h => ⟨buildRedeemscript, h⟩, hothers⟩

/-- **All parts.** They are put together to the payload. -/
theorem extractCarrierPayload_carried (hsplit : SplitInto payload parts)
    (hmagic : payload.take 4 = CARRIER_MAGIC) {tx : Tx}
    (hcarried : CarriedIn CARRIER_TAG8 pkLen (advisory payload.length) parts
      (fun txIn => carriedPart txIn = none) tx.vin) :
    extractCarrierPayload tx = .ok payload := by
  have hperm : (tx.vin.filterMap offered).Perm (parts.zipIdx.map Prod.swap) := by
    apply offers_perm hcarried
    · intro txIn hnone
      rw [offered, hnone]
      rfl
    · intro txIn part redeem hparsed hmem
      rw [offered, carriedPart_of_parsed hsplit hmem hparsed, hparsed, Option.map_some,
        (hsplit.toNat_index hmem).1]
  have hvin : ∀ txIn ∈ tx.vin, (∃ part ∈ parts.zipIdx, CarriesPart CARRIER_TAG8 parts.length pkLen
      (advisory payload.length) part txIn) ∨ carriedPart txIn = none := by
    intro txIn htxIn
    obtain ⟨carriers, others, hvin, hforall, hothers⟩ := hcarried
    rcases List.mem_append.mp (hvin.mem_iff.mp htxIn) with hin | hin
    · exact Or.inl (exists_of_mem_right hforall hin)
    · exact Or.inr (hothers txIn hin)
  have hne : tx.vin.filterMap offered ≠ [] := by
    intro hnil
    have hlength := hperm.length_eq
    have hpos := hsplit.pos
    rw [hnil, List.length_map, List.length_zipIdx] at hlength
    exact hpos.ne hlength
  have hmiss : ¬ (parts.map some).any Option.isNone = true := by
    rw [List.any_map, List.any_eq_true]
    rintro ⟨part, -, hpart⟩
    cases hpart
  have hgetD : (parts.map some).map (fun part => part.getD []) = parts := by
    rw [List.map_map]
    exact List.map_id parts
  have hsum : (parts.map List.length).sum =
    payload.length := by rw [← hsplit.flatten, List.length_flatten]
  have hfull : ¬ (advisory payload.length ≠ 0xFFFF ∧ advisory payload.length ≠
    UInt16.ofNat payload.length) := by
    unfold advisory
    split
    · exact fun h => h.1 rfl
    · exact fun h => h.2 rfl
  have hlong : ¬ (payload.length < 4 ∨ payload.take 4 ≠ CARRIER_MAGIC) := by
    have hlength := congrArg List.length hmagic
    rw [List.length_take] at hlength
    have hfour : CARRIER_MAGIC.length = 4 := rfl
    rintro (h | h)
    · omega
    · exact h hmagic
  unfold extractCarrierPayload
  rw [foldl_collectPart_none (carriedPart_eq_some hsplit hvin), if_neg hne]
  dsimp only
  rw [hsplit.toNat_total, foldl_offer_of_perm hperm, if_neg hmiss, hgetD, hsum,
    if_neg hfull, hsplit.flatten, if_neg hlong]

/-- **A part is missing.** Nothing is put together. -/
theorem extractCarrierPayload_missing (hsplit : SplitInto payload parts) {tx : Tx}
    (hvin : ∀ txIn ∈ tx.vin, (∃ part ∈ parts.zipIdx,
      CarriesPart CARRIER_TAG8 parts.length pkLen fullLen part txIn) ∨
      carriedPart txIn = none)
    {i : ℕ} (hi : i < parts.length) (hmiss : i ∉ (tx.vin.filterMap offered).map Prod.fst) :
    extractCarrierPayload tx = .error .truncated := by
  unfold extractCarrierPayload
  rw [foldl_collectPart_none (carriedPart_eq_some hsplit hvin)]
  by_cases hnil : tx.vin.filterMap offered = []
  · rw [if_pos hnil]
  · have hslot : ((tx.vin.filterMap offered).foldl offer (List.replicate parts.length none))[i]? =
      some none := by
      rw [getElem?_foldl_offer_of_not_mem hmiss, List.getElem?_replicate, if_pos hi]
    rw [if_neg hnil]
    dsimp only
    rw [hsplit.toNat_total, if_pos (List.any_eq_true.mpr ⟨none, List.mem_of_getElem? hslot, rfl⟩)]

/-- **Extracting a payload.** From the scripts that were built for it, each in one input, in any
order and among any inputs without a ZKP1FULL part, the payload is found again. Where one of the
scripts is in no input, there is an error. -/
theorem extractCarrierPayload_build (hbuild : buildCarrierTxRScriptsigs payload = .ok sigs)
    (hmagic : payload.take 4 = CARRIER_MAGIC) :
    (∀ (tx : Tx) (carriers others : List TxIn), tx.vin.Perm (carriers ++ others) →
      carriers.map TxIn.scriptSig = sigs → (∀ txIn ∈ others, carriedPart txIn = none) →
        extractCarrierPayload tx = .ok payload) ∧
    ∀ tx : Tx, (∀ txIn ∈ tx.vin, txIn.scriptSig ∈ sigs ∨ carriedPart txIn = none) →
      (∃ ss ∈ sigs, ∀ txIn ∈ tx.vin, txIn.scriptSig ≠ ss) →
        ∃ e, extractCarrierPayload tx = .error e := by
  obtain ⟨parts, hsplit, hsigs⟩ := buildCarrierTxRScriptsigs_eq_ok hbuild
  constructor
  · intro tx carriers others hperm hcarriers hothers
    exact extractCarrierPayload_carried hsplit hmagic
      (carriedIn_of_perm hsigs hperm hcarriers hothers)
  · intro tx hvin hmissing
    obtain ⟨ss, hss, hnot⟩ := hmissing
    obtain ⟨part, hmem, hbuilt⟩ := exists_of_mem_right hsigs hss
    have hin : ∀ txIn ∈ tx.vin, (∃ part ∈ parts.zipIdx,
      buildPartScriptsig CARRIER_TAG8 (UInt8.ofNat part.2)
        (UInt8.ofNat parts.length) (advisoryPl payload) (advisory payload.length) part.1
          buildRedeemscript =
          some txIn.scriptSig) ∨ carriedPart txIn = none := fun txIn htxIn =>
      (hvin txIn htxIn).imp_left fun h => exists_of_mem_right hsigs h
    refine ⟨.truncated, extractCarrierPayload_missing hsplit
      (fun txIn htxIn => (hin txIn htxIn).imp_left fun ⟨part, hpart, h⟩ =>
        ⟨part, hpart, buildRedeemscript, h⟩)
      (hsplit.toNat_index hmem).2 ?_⟩
    -- an input that offers the part has the script that was left out
    intro hoffered
    obtain ⟨p, hp, hfst⟩ := List.mem_map.mp hoffered
    obtain ⟨txIn, htxIn, hoffer⟩ := List.mem_filterMap.mp hp
    obtain ⟨carried, hcarried, rfl⟩ := Option.map_eq_some_iff.mp hoffer
    rcases hin txIn htxIn with ⟨part', hmem', hbuilt'⟩ | hnone
    · obtain ⟨redeem, hpart'⟩ := carriedPart_of_carries hsplit hmem' ⟨buildRedeemscript, hbuilt'⟩
      obtain rfl := Option.some.inj (hcarried.symm.trans hpart')
      have hindex : part'.2 = part.2 := (hsplit.toNat_index hmem').1.symm.trans hfst
      have hdata : part'.1 = part.1 := by
        have h := List.mem_zipIdx_iff_getElem?.mp hmem'
        rw [hindex, List.mem_zipIdx_iff_getElem?.mp hmem] at h
        exact (Option.some.inj h).symm
      rw [hindex, hdata, hbuilt] at hbuilt'
      exact hnot txIn htxIn (Option.some.inj hbuilt').symm
    · rw [hcarried] at hnone
      cases hnone

/-- The script for the payload of the magic alone. -/
def sampleScript : Bytes :=
  [0x08, 0x5a, 0x4b, 0x50, 0x31, 0x46, 0x55, 0x4c, 0x4c, 0x08, 0x01, 0x00, 0x01, 0x00, 0x00, 0x00,
    0x00, 0x04, 0x04, 0x5a, 0x4b, 0x50, 0x31, 0x00, 0x00, 0x06, 0x75, 0x75, 0x75, 0x75, 0x75, 0x51]

/-- The theorem on the magic alone. -/
theorem extractCarrierPayload_build_sample :
    (∀ (tx : Tx) (carriers others : List TxIn), tx.vin.Perm (carriers ++ others) →
      carriers.map TxIn.scriptSig = [sampleScript] → (∀ txIn ∈ others, carriedPart txIn = none) →
        extractCarrierPayload tx = .ok CARRIER_MAGIC) ∧
    ∀ tx : Tx, (∀ txIn ∈ tx.vin, txIn.scriptSig ∈ [sampleScript] ∨ carriedPart txIn = none) →
      (∃ ss ∈ [sampleScript], ∀ txIn ∈ tx.vin, txIn.scriptSig ≠ ss) →
        ∃ e, extractCarrierPayload tx = .error e :=
  extractCarrierPayload_build rfl rfl

end ZkCarrier

end Libdogecoin
