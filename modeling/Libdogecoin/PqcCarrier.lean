/-
# Payloads in carrier inputs

`pqc_carrier.c` : a payload is cut into parts, each of which is pushed in chunks by the script of an
input, and is put together again from the inputs of a transaction.

* `parsePartScriptsig_build` : a part that was built is parsed;
* `extractScriptsig_iff` : a public key and a signature are found again in any order of the inputs.

The pushes are read from a list of bytes, not at an offset. Allocations succeed.
-/
import Mathlib.Data.List.Forall2
import Libdogecoin.Slots
import Libdogecoin.Tx

namespace Libdogecoin

namespace PqcCarrier

open Slots

/-! ## Pushes -/

/-- `DOGECOIN_PQC_CARRIER_MAX_CHUNKS`. -/
def MAX_CHUNKS : ℕ := 3

/-- `DOGECOIN_PQC_CARRIER_CHUNK_MAX`. -/
def CHUNK_MAX : ℕ := 520

/-- `script_push_data`. -/
def scriptPushData (data : Bytes) : Bytes :=
  if data.length = 0 then [0x00]
  else if data.length ≤ 75 then UInt8.ofNat data.length :: data
  else if data.length ≤ 255 then 0x4c :: UInt8.ofNat data.length :: data
  else
    let l := UInt16.ofNat data.length
    0x4d :: (l &&& 0xff).toUInt8 :: (l >>> 8 &&& 0xff).toUInt8 :: data

/-- `read_push` : what is pushed, and the rest of the script. -/
def readPush : Bytes → Option (Bytes × Bytes)
  | [] => none
  | op :: rest =>
    if op = 0x00 then some ([], rest)
    else if op ≤ 75 then deserBytes op.toNat rest
    else if op = 0x4c then
      match rest with
      | [] => none
      | n :: rest => deserBytes n.toNat rest
    else if op = 0x4d then
      match rest with
      | lo :: hi :: rest => deserBytes (lo.toNat ||| hi.toNat <<< 8) rest
      | _ => none
    else none

/-- The length behind `OP_PUSHDATA2` is taken modulo `2 ^ 16`. -/
theorem pushLength_bytes (n : ℕ) :
    (UInt16.ofNat n &&& 0xff).toUInt8.toNat ||| (UInt16.ofNat n >>> 8 &&& 0xff).toUInt8.toNat <<<
    8 = n % 2 ^ 16 := by
  have hlo : (UInt16.ofNat n &&& 0xff).toUInt8.toNat = n % 2 ^ 8 := by
    have hmask : (n % 2 ^ 16) &&& (2 ^ 8 - 1) = n % 2 ^ 16 % 2 ^ 8 :=
      Nat.and_two_pow_sub_one_eq_mod _ 8
    rw [UInt16.toNat_toUInt8, UInt16.toNat_and, UInt16.toNat_ofNat']
    show ((n % 2 ^ 16) &&& (2 ^ 8 - 1)) % 2 ^ 8 = n % 2 ^ 8
    rw [hmask]
    omega
  have hhi : (UInt16.ofNat n >>> 8 &&& 0xff).toUInt8.toNat = n % 2 ^ 16 / 2 ^ 8 := by
    have hmask : (n % 2 ^ 16 / 2 ^ 8) &&& (2 ^ 8 - 1) = n % 2 ^ 16 / 2 ^ 8 % 2 ^ 8 :=
      Nat.and_two_pow_sub_one_eq_mod _ 8
    rw [UInt16.toNat_toUInt8, UInt16.toNat_and, UInt16.toNat_shiftRight, UInt16.toNat_ofNat',
      Nat.shiftRight_eq_div_pow]
    show ((n % 2 ^ 16 / 2 ^ 8) &&& (2 ^ 8 - 1)) % 2 ^ 8 = n % 2 ^ 16 / 2 ^ 8
    rw [hmask]
    omega
  rw [hlo, hhi, Nat.or_comm, ← Nat.shiftLeft_add_eq_or_of_lt (Nat.mod_lt n (by decide)),
    Nat.shiftLeft_eq]
  omega

/-- Data is read back from its push. What is too long is read as the front of it. -/
theorem readPush_scriptPushData (data rest : Bytes) : ∃ read rest',
    readPush (scriptPushData data ++ rest) = some (read, rest') ∧
      (data.length < 2 ^ 16 → read = data ∧ rest' = rest) := by
  unfold scriptPushData
  by_cases hempty : data.length = 0
  · rw [if_pos hempty, List.length_eq_zero_iff.mp hempty]
    exact ⟨[], rest, rfl, fun _ => ⟨rfl, rfl⟩⟩
  rw [if_neg hempty]
  by_cases hshort : data.length ≤ 75
  · have hop : (UInt8.ofNat data.length).toNat = data.length :=
      UInt8.toNat_ofNat_of_lt' (show _ < 256 by omega)
    have hne : UInt8.ofNat data.length ≠ 0x00 := by
      intro heq
      rw [heq] at hop
      exact hempty hop.symm
    have hle : UInt8.ofNat data.length ≤ 75 := by
      rw [UInt8.le_iff_toNat_le, hop]
      exact hshort
    rw [if_pos hshort, List.cons_append]
    unfold readPush
    dsimp only
    rw [if_neg hne, if_pos hle, hop, deserBytes_append]
    exact ⟨data, rest, rfl, fun _ => ⟨rfl, rfl⟩⟩
  rw [if_neg hshort]
  by_cases hmiddle : data.length ≤ 255
  · have hop : (UInt8.ofNat data.length).toNat = data.length :=
      UInt8.toNat_ofNat_of_lt' (show _ < 256 by omega)
    rw [if_pos hmiddle]
    show ∃ read rest', deserBytes (UInt8.ofNat data.length).toNat (data ++ rest) = _ ∧ _
    rw [hop, deserBytes_append]
    exact ⟨data, rest, rfl, fun _ => ⟨rfl, rfl⟩⟩
  · rw [if_neg hmiddle]
    show ∃ read rest', deserBytes ((UInt16.ofNat data.length &&& 0xff).toUInt8.toNat |||
      (UInt16.ofNat data.length >>> 8 &&& 0xff).toUInt8.toNat <<< 8) (data ++ rest) = _ ∧ _
    rw [pushLength_bytes]
    by_cases hlong : data.length < 2 ^ 16
    · rw [Nat.mod_eq_of_lt hlong, deserBytes_append]
      exact ⟨data, rest, rfl, fun _ => ⟨rfl, rfl⟩⟩
    · have hle := Nat.mod_le data.length (2 ^ 16)
      rw [deserBytes, if_neg (by rw [List.length_append]; omega)]
      exact ⟨_, _, rfl, fun hlt => absurd hlt hlong⟩

/-- Data that fits the length of a push is read back. -/
theorem readPush_of_lt {data : Bytes} (h : data.length < 2 ^ 16) (rest : Bytes) :
    readPush (scriptPushData data ++ rest) = some (data, rest) := by
  obtain ⟨read, rest', hread, hback⟩ := readPush_scriptPushData data rest
  obtain ⟨rfl, rfl⟩ := hback h
  exact hread

/-! ## Parts -/

/-- The eight characters that name an algorithm. -/
abbrev Tag8 := {l : Bytes // l.length = 8}

/-- The header of a part. -/
def partHeader (partIndex partTotal : UInt8) (pkLen fullLen : UInt16) : Bytes :=
  [0x01, partIndex, partTotal, 0x00, (pkLen >>> 8 &&& 0xff).toUInt8, (pkLen &&& 0xff).toUInt8,
    (fullLen >>> 8 &&& 0xff).toUInt8, (fullLen &&& 0xff).toUInt8]

/-- The pushes of the chunks; those that are not needed are empty. -/
def pushChunks : ℕ → Bytes → Bytes
  | 0, _ => []
  | n + 1, partData => scriptPushData (partData.take CHUNK_MAX) ++
      pushChunks n (partData.drop CHUNK_MAX)

/-- `dogecoin_pqc_carrier_build_part_scriptsig`. -/
def buildPartScriptsig (tag8 : Tag8) (partIndex partTotal : UInt8) (pkLen fullLen : UInt16)
    (partData redeem : Bytes) :
    Option Bytes :=
  if partTotal = 0 then none
  else if partData.length > MAX_CHUNKS * CHUNK_MAX then none
  else some (scriptPushData tag8.1 ++
    scriptPushData (partHeader partIndex partTotal pkLen fullLen) ++
    pushChunks MAX_CHUNKS partData ++ scriptPushData redeem)

/-- What is parsed from a part. -/
structure ParsedPart where
  tag8 : Tag8
  partIndex : UInt8
  partTotal : UInt8
  pkLen : UInt16
  fullLen : UInt16
  partData : Bytes
  redeem : Bytes
  deriving DecidableEq

/-- The chunks are read and put together. -/
def readChunks : ℕ → Bytes → Option (Bytes × Bytes)
  | 0, s => some ([], s)
  | n + 1, s => do
      let (chunk, s) ← readPush s
      if chunk.length > CHUNK_MAX then none
      else do
        let (chunks, s) ← readChunks n s
        some (chunk ++ chunks, s)

/-- A length in two bytes. -/
def readLen (hi lo : UInt8) : UInt16 := hi.toUInt16 <<< 8 ||| lo.toUInt16

/-- `dogecoin_pqc_carrier_parse_part_scriptsig`. -/
def parsePartScriptsig (scriptsig : Bytes) : Option ParsedPart := do
  let (tag, s) ← readPush scriptsig
  if h : tag.length = 8 then do
    let (hdr, s) ← readPush s
    match hdr with
    | [version, partIndex, partTotal, _, pkHi, pkLo, fullHi, fullLo] =>
      if version ≠ 0x01 then none
      else do
        let (partData, s) ← readChunks MAX_CHUNKS s
        let (redeem, _) ← readPush s
        some { tag8 := ⟨tag, h⟩, partIndex := partIndex, partTotal := partTotal
               pkLen := readLen pkHi pkLo, fullLen := readLen fullHi fullLo
               partData := partData, redeem := redeem }
    | _ => none
  else none

theorem readChunks_pushChunks {n : ℕ} {partData : Bytes} (h : partData.length ≤ n * CHUNK_MAX)
    (rest : Bytes) :
    readChunks n (pushChunks n partData ++ rest) = some (partData, rest) := by
  induction n generalizing partData with
  | zero =>
    rw [Nat.zero_mul] at h
    rw [List.length_eq_zero_iff.mp (Nat.le_zero.mp h)]
    rfl
  | succ n ih =>
    have hchunk : (partData.take CHUNK_MAX).length ≤ CHUNK_MAX := List.length_take_le _ _
    have hlt : (partData.take CHUNK_MAX).length < 2 ^ 16 := lt_of_le_of_lt hchunk (by decide)
    have hrest : (partData.drop CHUNK_MAX).length ≤ n * CHUNK_MAX := by
      rw [List.length_drop]
      rw [Nat.succ_mul] at h
      omega
    rw [readChunks, pushChunks, List.append_assoc, readPush_of_lt hlt]
    simp only [Option.bind_eq_bind, Option.bind_some]
    rw [if_neg (Nat.not_lt.mpr hchunk), ih hrest, Option.bind_some, List.take_append_drop]

/-- A length is read from its two bytes. -/
theorem readLen_bytes (v : UInt16) :
    readLen (v >>> 8 &&& 0xff).toUInt8 (v &&& 0xff).toUInt8 = v := by
  have hbytes := pushLength_bytes v.toNat
  rw [UInt16.ofNat_toNat, Nat.mod_eq_of_lt v.toNat_lt] at hbytes
  have hhi := (v >>> 8 &&& 0xff).toUInt8.toNat_lt
  apply UInt16.toNat_inj.mp
  have hshift : UInt16.toNat 8 % 16 = 8 := rfl
  rw [← hbytes, readLen, UInt16.toNat_or, UInt16.toNat_shiftLeft, UInt8.toNat_toUInt16,
    UInt8.toNat_toUInt16, Nat.or_comm, hshift, Nat.shiftLeft_eq, Nat.mod_eq_of_lt (by omega)]

/-- **A part that was built is parsed.** -/
theorem parsePartScriptsig_build {tag8 : Tag8} {partIndex partTotal : UInt8}
    {pkLen fullLen : UInt16} {partData redeem scriptsig : Bytes}
    (h : buildPartScriptsig tag8 partIndex partTotal pkLen fullLen partData redeem =
      some scriptsig) :
    20 ≤ scriptsig.length ∧ ∃ redeem', parsePartScriptsig scriptsig =
      some { tag8 := tag8, partIndex := partIndex, partTotal := partTotal, pkLen := pkLen
             fullLen := fullLen, partData := partData, redeem := redeem' } := by
  unfold buildPartScriptsig at h
  split_ifs at h with htotal hlong
  obtain rfl := Option.some.inj h
  have htag : tag8.1.length < 2 ^ 16 := by
    rw [tag8.2]
    decide
  have hchunks := fun rest => readChunks_pushChunks (Nat.not_lt.mp hlong) rest
  obtain ⟨redeem', rest', hredeem, -⟩ := readPush_scriptPushData redeem []
  rw [List.append_nil] at hredeem
  constructor
  · have htagLen : (scriptPushData tag8.1).length = 9 := by
      rw [scriptPushData, if_neg (by rw [tag8.2]; decide), if_pos (by rw [tag8.2]; decide),
        List.length_cons, tag8.2]
    have hchunkLen : ∀ data : Bytes, 1 ≤ (scriptPushData data).length := by
      intro data
      unfold scriptPushData
      split_ifs
      · exact le_refl 1
      all_goals exact Nat.succ_le_succ (Nat.zero_le _)
    have hlen := hchunkLen (partData.take CHUNK_MAX)
    have hlen' := hchunkLen ((partData.drop CHUNK_MAX).take CHUNK_MAX)
    rw [List.length_append, List.length_append, List.length_append, htagLen]
    show 20 ≤ 9 + 9 + (scriptPushData _ ++ (scriptPushData _ ++ _)).length + _
    rw [List.length_append, List.length_append]
    omega
  · refine ⟨redeem', ?_⟩
    unfold parsePartScriptsig
    rw [List.append_assoc, List.append_assoc, readPush_of_lt htag]
    simp only [Option.bind_eq_bind, Option.bind_some]
    rw [dif_pos tag8.2, readPush_of_lt
      (show (partHeader partIndex partTotal pkLen fullLen).length < 2 ^ 16 from
      show 8 < 2 ^ 16 by decide), Option.bind_some]
    dsimp only [partHeader]
    rw [if_neg (fun h => h rfl), hchunks, Option.bind_some]
    dsimp only
    rw [hredeem, readLen_bytes, readLen_bytes]
    rfl

/-! ## Extraction -/

/-- `dogecoin_pqc_algo_t`. -/
inductive PqcAlgo where
  | falcon
  | dilithium
  | raccoong
  deriving DecidableEq

/-- `FLC1FULL`. -/
def falconTag : Tag8 := ⟨[0x46, 0x4c, 0x43, 0x31, 0x46, 0x55, 0x4c, 0x4c], rfl⟩

/-- `DIL2FULL`. -/
def dilithiumTag : Tag8 := ⟨[0x44, 0x49, 0x4c, 0x32, 0x46, 0x55, 0x4c, 0x4c], rfl⟩

/-- `RCG4FULL`. -/
def raccoongTag : Tag8 := ⟨[0x52, 0x43, 0x47, 0x34, 0x46, 0x55, 0x4c, 0x4c], rfl⟩

/-- The algorithm of a tag. The last one is only known where `USE_RACCOON_G` is defined. -/
def carrierAlgo (useRaccoonG : Bool) (tag8 : Tag8) : Option PqcAlgo :=
  if tag8 = falconTag then some .falcon
  else if tag8 = dilithiumTag then some .dilithium
  else if useRaccoonG = true ∧ tag8 = raccoongTag then some .raccoong
  else none

/-- The part in the script of an input, which has at least 20 bytes. -/
def carrierPart (txIn : TxIn) : Option ParsedPart :=
  if txIn.scriptSig.length < 20 then none else parsePartScriptsig txIn.scriptSig

/-- A part with the algorithm of its tag. -/
def taggedPart (useRaccoonG : Bool) (txIn : TxIn) : Option (PqcAlgo × ParsedPart) := do
  let part ← carrierPart txIn
  let algo ← carrierAlgo useRaccoonG part.tag8
  some (algo, part)

/-- The first pass: the first part with a known tag, and the number of its input. -/
def firstCarrier (useRaccoonG : Bool) : ℕ → List TxIn → Option (PqcAlgo × ParsedPart × ℕ)
  | _, [] => none
  | vin, txIn :: rest =>
    match taggedPart useRaccoonG txIn with
    | some (algo, part) => some (algo, part, vin)
    | none => firstCarrier useRaccoonG (vin + 1) rest

/-- The part in an input, if it belongs to the first one. -/
def matchingPart (first : ParsedPart) (txIn : TxIn) : Option (ℕ × Bytes) :=
  (carrierPart txIn).bind fun part =>
    if part.tag8 ≠ first.tag8 ∨ part.partTotal ≠ first.partTotal ∨
      part.partIndex ≥ first.partTotal then none
    else some (part.partIndex.toNat, part.partData)

/-- The second pass: the parts are collected until all of them are found. -/
def collectParts (first : ParsedPart) :
    List TxIn → ℕ → List (Option Bytes) → ℕ × List (Option Bytes)
  | [], found, parts => (found, parts)
  | txIn :: rest, found, parts =>
    if found < first.partTotal.toNat then
      match matchingPart first txIn with
      | none => collectParts first rest found parts
      | some (partIndex, partData) =>
        match parts[partIndex]? with
        | some none => collectParts first rest (found + 1) (parts.set partIndex (some partData))
        | _ => collectParts first rest found parts
    else (found, parts)

/-- The parts are copied one behind the other, up to a length. -/
def copyParts (totalLen : ℕ) : List Bytes → Bytes → Bytes
  | [], fullBuf => fullBuf
  | part :: parts, fullBuf =>
    let copyLen := if fullBuf.length + part.length > totalLen then totalLen -
      fullBuf.length else part.length
    copyParts totalLen parts (fullBuf ++ part.take copyLen)

/-- What is extracted. -/
structure Extracted where
  algo : PqcAlgo
  pk : Bytes
  sig : Bytes
  vinIndex : ℕ
  deriving DecidableEq

/-- `dogecoin_pqc_carrier_extract_scriptsig`. -/
def extractScriptsig (useRaccoonG : Bool) (tx : Tx) : Option Extracted := do
  let (algo, first, vinIndex) ← firstCarrier useRaccoonG 0 tx.vin
  if first.partTotal = 0 ∨ first.fullLen = 0 ∨ first.pkLen = 0 then none
  else
    let (found, slots) := collectParts first tx.vin 0 (List.replicate first.partTotal.toNat none)
    if found ≠ first.partTotal.toNat then none
    else
      let parts := slots.map fun part => part.getD []
      let sum := (parts.map List.length).sum
      let totalLen := if sum > first.fullLen.toNat then first.fullLen.toNat else sum
      let fullBuf := copyParts totalLen parts []
      if totalLen < first.pkLen.toNat + 1 then none
      else some { algo := algo, pk := fullBuf.take first.pkLen.toNat
                  sig := fullBuf.drop first.pkLen.toNat, vinIndex := vinIndex }

/-! ### Collecting -/

/-- The second pass fills the slots, and counts those that are filled. -/
theorem collectParts_eq (first : ParsedPart) (vin : List TxIn) {parts : List (Option Bytes)}
    (hlen : parts.length = first.partTotal.toNat) :
    collectParts first vin (parts.countP Option.isSome) parts =
      (((vin.filterMap (matchingPart first)).foldl offer parts).countP Option.isSome,
        (vin.filterMap (matchingPart first)).foldl offer parts) := by
  induction vin generalizing parts with
  | nil => rfl
  | cons txIn vin ih =>
    rw [collectParts]
    by_cases hfound : parts.countP Option.isSome < first.partTotal.toNat
    · rw [if_pos hfound]
      cases hmatch : matchingPart first txIn with
      | none =>
        rw [List.filterMap_cons_none hmatch]
        exact ih hlen
      | some p =>
        rw [List.filterMap_cons_some hmatch, List.foldl_cons]
        dsimp only
        by_cases hhole : parts[p.1]? = some none
        · obtain ⟨hlt, hget⟩ := List.getElem?_eq_some_iff.mp hhole
          have hcount : (parts.set p.1 (some p.2)).countP Option.isSome =
            parts.countP Option.isSome + 1 := by
            rw [List.countP_set hlt, hget]
            rfl
          rw [hhole, offer_of_hole hhole, ← hcount]
          exact ih (by rwa [List.length_set])
        · rw [offer_of_not_hole hhole]
          split
          next heq => exact absurd heq hhole
          · exact ih hlen
    · rw [if_neg hfound]
      have hfull : none ∉ parts := by
        intro hmem
        have hlt : parts.countP Option.isSome < parts.length :=
          List.countP_lt_length_iff.mpr ⟨none, hmem, by decide⟩
        omega
      rw [foldl_offer_of_full hfull]

/-- The copy is the front of all the parts. -/
theorem copyParts_eq {totalLen : ℕ} (parts : List Bytes) {fullBuf : Bytes}
    (h : fullBuf.length ≤ totalLen) :
    copyParts totalLen parts fullBuf = (fullBuf ++ parts.flatten).take totalLen := by
  induction parts generalizing fullBuf with
  | nil =>
    rw [copyParts, List.flatten_nil, List.append_nil, List.take_of_length_le h]
  | cons part parts ih =>
    have hcopy : part.take (if fullBuf.length + part.length > totalLen then
      totalLen - fullBuf.length else part.length) = part.take (totalLen - fullBuf.length) := by
      split
      · rfl
      · rw [List.take_length, List.take_of_length_le (by omega)]
    have hlen : (fullBuf ++ part.take (totalLen - fullBuf.length)).length ≤ totalLen := by
      rw [List.length_append, List.length_take]
      omega
    rw [copyParts, hcopy, ih hlen, List.flatten_cons]
    by_cases hfits : part.length ≤ totalLen - fullBuf.length
    · rw [List.take_of_length_le hfits, List.append_assoc]
    · have hfull : (fullBuf ++ part.take (totalLen - fullBuf.length)).length = totalLen := by
        rw [List.length_append, List.length_take]
        omega
      rw [List.take_left' hfull, List.take_append, List.take_of_length_le h,
        List.take_append_of_le_length (by omega)]

/-! ### Parts in inputs -/

/-- An input with a part of a known algorithm. -/
def IsCarrierInput (useRaccoonG : Bool) (txIn : TxIn) :
    Prop := (taggedPart useRaccoonG txIn).isSome = true

/-- The input has the script that is built for a part and its number. -/
def CarriesPart (tag8 : Tag8) (partTotal : ℕ) (pkLen fullLen : UInt16) (part : Bytes × ℕ)
    (txIn : TxIn) : Prop :=
  ∃ redeem, buildPartScriptsig tag8 (UInt8.ofNat part.2) (UInt8.ofNat partTotal) pkLen
    fullLen part.1 redeem =
    some txIn.scriptSig

/-- A payload that is cut into at most 255 parts, each of which fits into the chunks of a script. -/
structure SplitInto (payload : Bytes) (parts : List Bytes) : Prop where
  flatten : parts.flatten = payload
  pos : 0 < parts.length
  le : parts.length ≤ 255
  fits : ∀ part ∈ parts, part.length ≤ MAX_CHUNKS * CHUNK_MAX

/-- The parts are in inputs, in any order and among any others, which have a property. -/
def CarriedIn (tag8 : Tag8) (pkLen fullLen : UInt16) (parts : List Bytes) (Other : TxIn → Prop)
    (vin : List TxIn) :
    Prop :=
  ∃ carriers others, vin.Perm (carriers ++ others) ∧
    List.Forall₂ (CarriesPart tag8 parts.length pkLen fullLen) parts.zipIdx carriers ∧
      ∀ txIn ∈ others, Other txIn

/-- A part is parsed from its input. -/
theorem carrierPart_of_carries {tag8 : Tag8} {partTotal : ℕ} {pkLen fullLen : UInt16}
    {part : Bytes × ℕ} {txIn : TxIn} (h : CarriesPart tag8 partTotal pkLen fullLen part txIn) :
    ∃ redeem, carrierPart txIn =
      some { tag8 := tag8, partIndex := UInt8.ofNat part.2, partTotal := UInt8.ofNat partTotal
             pkLen := pkLen, fullLen := fullLen, partData := part.1, redeem := redeem } := by
  obtain ⟨redeem, hbuild⟩ := h
  obtain ⟨hlen, redeem', hparse⟩ := parsePartScriptsig_build hbuild
  refine ⟨redeem', ?_⟩
  rw [carrierPart, if_neg (Nat.not_lt.mpr hlen), hparse]

/-- Related lists have related elements. -/
theorem exists_of_mem_right {α β : Type} {R : α → β → Prop} {xs : List α} {ys : List β}
    (h : List.Forall₂ R xs ys) {y : β} (hy : y ∈ ys) : ∃ x ∈ xs, R x y := by
  induction h with
  | nil => cases hy
  | cons hxy _ ih =>
    rcases List.mem_cons.mp hy with rfl | hmem
    · exact ⟨_, List.mem_cons_self, hxy⟩
    · obtain ⟨x, hx, hR⟩ := ih hmem
      exact ⟨x, List.mem_cons_of_mem _ hx, hR⟩

theorem filterMap_of_forall₂ {α β γ : Type} {R : α → β → Prop} {xs : List α} {ys : List β}
    (h : List.Forall₂ R xs ys) {f : β → Option γ} {g : α → γ}
    (hf : ∀ x ∈ xs, ∀ y, R x y → f y = some (g x)) :
    ys.filterMap f = xs.map g := by
  induction h with
  | nil => rfl
  | cons hxy _ ih =>
    rw [List.filterMap_cons_some (hf _ List.mem_cons_self _ hxy), List.map_cons,
      ih fun x hx => hf x (List.mem_cons_of_mem _ hx)]

/-- The numbers of the parts fit into a byte. -/
theorem SplitInto.toNat_index {payload : Bytes} {parts : List Bytes} (h : SplitInto payload parts)
    {part : Bytes × ℕ} (hpart : part ∈ parts.zipIdx) : (UInt8.ofNat part.2).toNat = part.2 ∧
    part.2 < parts.length := by
  obtain ⟨hlt, -⟩ := List.getElem?_eq_some_iff.mp (List.mem_zipIdx_iff_getElem?.mp hpart)
  have hle := h.le
  exact ⟨UInt8.toNat_ofNat_of_lt' (show _ < 256 by omega), hlt⟩

theorem SplitInto.toNat_total {payload : Bytes} {parts : List Bytes} (h : SplitInto payload parts) :
    (UInt8.ofNat parts.length).toNat = parts.length :=
  UInt8.toNat_ofNat_of_lt' (Nat.lt_succ_of_le h.le)

/-- What the inputs offer to the slots. -/
theorem offers_perm {tag8 : Tag8} {pkLen fullLen : UInt16} {parts : List Bytes}
    {Other : TxIn → Prop} {vin : List TxIn}
    (hcarried : CarriedIn tag8 pkLen fullLen parts Other vin)
    {offered : TxIn → Option (ℕ × Bytes)}
    (hother : ∀ txIn, Other txIn → offered txIn = none)
    (hpart : ∀ txIn part redeem, carrierPart txIn =
        some { tag8 := tag8, partIndex := UInt8.ofNat part.2, partTotal := UInt8.ofNat parts.length
               pkLen := pkLen, fullLen := fullLen, partData := part.1, redeem := redeem } →
      part ∈ parts.zipIdx → offered txIn = some (part.2, part.1)) :
    (vin.filterMap offered).Perm (parts.zipIdx.map Prod.swap) := by
  obtain ⟨carriers, others, hperm, hforall, hothers⟩ := hcarried
  have hnone : others.filterMap offered = [] :=
    List.filterMap_eq_nil_iff.mpr fun txIn htxIn => hother txIn (hothers txIn htxIn)
  have hcarriers : carriers.filterMap offered = parts.zipIdx.map Prod.swap := by
    apply filterMap_of_forall₂ hforall
    intro part hmem txIn hcarries
    obtain ⟨redeem, hparsed⟩ := carrierPart_of_carries hcarries
    exact hpart txIn part redeem hparsed hmem
  have hfilter := hperm.filterMap offered
  rwa [List.filterMap_append, hnone, List.append_nil, hcarriers] at hfilter

/-- The first pass finds a part, if there is one. -/
theorem firstCarrier_spec (useRaccoonG : Bool) (k : ℕ) (vin : List TxIn) :
    (∃ txIn ∈ vin, ∃ r v, taggedPart useRaccoonG txIn = some r ∧ firstCarrier useRaccoonG k vin =
      some (r.1, r.2, v)) ∨
      ∀ txIn ∈ vin, ¬ IsCarrierInput useRaccoonG txIn := by
  induction vin generalizing k with
  | nil => exact Or.inr fun txIn htxIn => absurd htxIn List.not_mem_nil
  | cons txIn vin ih =>
    cases htagged : taggedPart useRaccoonG txIn with
    | some r =>
      refine Or.inl ⟨txIn, List.mem_cons_self, r, k, htagged, ?_⟩
      rw [firstCarrier, htagged]
    | none =>
      rcases ih (k + 1) with ⟨other, hmem, r, v, hr, hfirst⟩ | hnone
      · refine Or.inl ⟨other, List.mem_cons_of_mem _ hmem, r, v, hr, ?_⟩
        rw [firstCarrier, htagged]
        exact hfirst
      · refine Or.inr (List.forall_mem_cons.mpr ⟨?_, hnone⟩)
        rw [IsCarrierInput, htagged]
        exact Bool.false_ne_true

variable {useRaccoonG : Bool} {tag8 : Tag8} {algo : PqcAlgo} {pkLen fullLen : UInt16}
  {payload : Bytes}
  {parts : List Bytes} {vin : List TxIn}

theorem taggedPart_eq_some (halgo : carrierAlgo useRaccoonG tag8 = some algo) {txIn : TxIn}
    {part : ParsedPart} (hpart : carrierPart txIn = some part) (htag : part.tag8 = tag8) :
    taggedPart useRaccoonG txIn = some (algo, part) := by
  unfold taggedPart
  simp only [hpart, htag, halgo, Option.bind_eq_bind, Option.bind_some]

/-- The first part that is found, whichever it is. -/
theorem firstCarrier_carried (halgo : carrierAlgo useRaccoonG tag8 = some algo)
    (hsplit : SplitInto payload parts)
    (hcarried : CarriedIn tag8 pkLen fullLen parts (fun txIn =>
      ¬ IsCarrierInput useRaccoonG txIn) vin) :
    ∃ first vinIndex, firstCarrier useRaccoonG 0 vin = some (algo, first, vinIndex) ∧
    first.tag8 = tag8 ∧
      first.partTotal = UInt8.ofNat parts.length ∧ first.pkLen = pkLen ∧
      first.fullLen = fullLen := by
  obtain ⟨carriers, others, hperm, hforall, hothers⟩ := hcarried
  have hcarrier : ∀ txIn ∈ carriers, ∃ part, taggedPart useRaccoonG txIn = some (algo, part) ∧
    part.tag8 = tag8 ∧
      part.partTotal = UInt8.ofNat parts.length ∧ part.pkLen = pkLen ∧ part.fullLen = fullLen := by
    intro txIn htxIn
    obtain ⟨part, -, hcarries⟩ := exists_of_mem_right hforall htxIn
    obtain ⟨redeem, hparsed⟩ := carrierPart_of_carries hcarries
    exact ⟨_, taggedPart_eq_some halgo hparsed rfl, rfl, rfl, rfl, rfl⟩
  rcases firstCarrier_spec useRaccoonG 0 vin with ⟨txIn, hmem, r, v, hr, hfirst⟩ | hnone
  · rcases List.mem_append.mp (hperm.mem_iff.mp hmem) with hin | hin
    · obtain ⟨part, htagged, hfields⟩ := hcarrier txIn hin
      obtain rfl := Option.some.inj (hr.symm.trans htagged)
      exact ⟨part, v, hfirst, hfields⟩
    · have hnot : ¬ IsCarrierInput useRaccoonG txIn := hothers txIn hin
      rw [IsCarrierInput, hr] at hnot
      exact absurd rfl hnot
  · have hlen : carriers.length = parts.length := by
      rw [← hforall.length_eq, List.length_zipIdx]
    obtain ⟨txIn, htxIn⟩ := List.exists_mem_of_length_pos (hlen ▸ hsplit.pos)
    obtain ⟨part, htagged, -⟩ := hcarrier txIn htxIn
    have hnot := hnone txIn (hperm.mem_iff.mpr (List.mem_append_left _ htxIn))
    rw [IsCarrierInput, htagged] at hnot
    exact absurd rfl hnot

/-- All parts are collected. -/
theorem collectParts_carried (halgo : carrierAlgo useRaccoonG tag8 = some algo)
    (hsplit : SplitInto payload parts)
    (hcarried : CarriedIn tag8 pkLen fullLen parts (fun txIn =>
      ¬ IsCarrierInput useRaccoonG txIn) vin)
    {first : ParsedPart} (htag : first.tag8 = tag8)
    (htotal : first.partTotal = UInt8.ofNat parts.length) :
    collectParts first vin 0 (List.replicate first.partTotal.toNat none) =
      (parts.length, parts.map some) := by
  have hoffers : (vin.filterMap (matchingPart first)).Perm (parts.zipIdx.map Prod.swap) := by
    apply offers_perm hcarried
    · intro txIn hnot
      unfold matchingPart
      cases hpart : carrierPart txIn with
      | none => rfl
      | some part =>
        have hother : part.tag8 ≠ first.tag8 := by
          intro heq
          apply hnot
          rw [IsCarrierInput, taggedPart_eq_some halgo hpart (heq.trans htag)]
          rfl
        rw [Option.bind_some, if_pos (Or.inl hother)]
    · intro txIn part redeem hparsed hmem
      obtain ⟨hindex, hlt⟩ := hsplit.toNat_index hmem
      have hmatch : ¬ (tag8 ≠ first.tag8 ∨ UInt8.ofNat parts.length ≠ first.partTotal ∨
          UInt8.ofNat part.2 ≥ first.partTotal) := by
        rw [htag, htotal, ge_iff_le, UInt8.le_iff_toNat_le, hindex, hsplit.toNat_total]
        rintro (h | h | h)
        · exact h rfl
        · exact h rfl
        · omega
      unfold matchingPart
      rw [hparsed, Option.bind_some, if_neg hmatch, hindex]
  have hempty : (List.replicate parts.length (none : Option Bytes)).countP Option.isSome = 0 :=
    List.countP_eq_zero.mpr fun x hx => by
      rw [List.eq_of_mem_replicate hx]; exact Bool.false_ne_true
  have hfull : (parts.map some).countP Option.isSome = parts.length := by
    rw [List.countP_map]
    exact List.countP_eq_length.mpr fun _ _ => rfl
  have htoNat : first.partTotal.toNat = parts.length := by rw [htotal, hsplit.toNat_total]
  have hcollect := collectParts_eq first vin
    (show (List.replicate parts.length (none : Option Bytes)).length =
    first.partTotal.toNat by rw [List.length_replicate, htoNat])
  rw [hempty, foldl_offer_of_perm hoffers, hfull] at hcollect
  rw [htoNat, hcollect]

/-- **Extracting a public key and a signature.** From all their parts, in any order and among any
other inputs, they are found again if and only if neither of them is empty. -/
theorem extractScriptsig_iff (halgo : carrierAlgo useRaccoonG tag8 = some algo) {pk sig : Bytes}
    (hlen : (pk ++ sig).length ≤ 65535) (hsplit : SplitInto (pk ++ sig) parts) {tx : Tx}
    (hcarried : CarriedIn tag8 (UInt16.ofNat pk.length) (UInt16.ofNat (pk ++ sig).length) parts
      (fun txIn => ¬ IsCarrierInput useRaccoonG txIn) tx.vin) :
    (∃ vinIndex, extractScriptsig useRaccoonG tx =
        some { algo := algo, pk := pk, sig := sig, vinIndex := vinIndex }) ↔
          pk ≠ [] ∧ sig ≠ [] := by
  obtain ⟨first, vinIndex, hfirst, htag, htotal, hpkLen, hfullLen⟩ :=
    firstCarrier_carried halgo hsplit hcarried
  have hcollect := collectParts_carried halgo hsplit hcarried htag htotal
  have happend : (pk ++ sig).length = pk.length + sig.length := List.length_append
  have hpk : first.pkLen.toNat = pk.length := by
    rw [hpkLen]
    exact UInt16.toNat_ofNat_of_lt' (show pk.length < 65536 by omega)
  have hfull : first.fullLen.toNat = (pk ++ sig).length := by
    rw [hfullLen]
    exact UInt16.toNat_ofNat_of_lt' (show _ < 65536 by omega)
  have hparts : (parts.map some).map (fun part => part.getD []) = parts := by
    rw [List.map_map]
    exact List.map_id parts
  have hsum : (parts.map List.length).sum = (pk ++ sig).length := by
    rw [← hsplit.flatten, List.length_flatten]
  have hcopy : copyParts (pk ++ sig).length parts [] = pk ++ sig := by
    rw [copyParts_eq parts (Nat.zero_le _), List.nil_append, hsplit.flatten, List.take_length]
  have hzero : (first.partTotal = 0 ∨ first.fullLen = 0 ∨ first.pkLen = 0) ↔ pk = [] := by
    have hpos := hsplit.pos
    have htoNat := hsplit.toNat_total
    rw [← UInt8.toNat_inj, ← UInt16.toNat_inj, ← UInt16.toNat_inj, htotal, htoNat, hfull, hpk,
      ← List.length_eq_zero_iff]
    show (parts.length = 0 ∨ (pk ++ sig).length = 0 ∨ pk.length = 0) ↔ pk.length = 0
    omega
  unfold extractScriptsig
  rw [hfirst]
  simp only [Option.bind_eq_bind, Option.bind_some]
  by_cases hpk_nil : pk = []
  · rw [if_pos (hzero.mpr hpk_nil)]
    exact iff_of_false (fun ⟨_, h⟩ => Option.some_ne_none _ h.symm) fun h => h.1 hpk_nil
  · rw [if_neg fun h => hpk_nil (hzero.mp h), hcollect]
    dsimp only
    rw [if_neg (by rw [htotal, hsplit.toNat_total]; exact fun h => h rfl), hparts, hsum, hfull,
      if_neg (lt_irrefl _), hcopy, hpk]
    by_cases hsig_nil : sig = []
    · rw [if_pos (by rw [happend, hsig_nil]; exact Nat.lt_succ_self _)]
      exact iff_of_false (fun ⟨_, h⟩ => Option.some_ne_none _ h.symm) fun h => h.2 hsig_nil
    · have hsig := List.length_pos_iff.mpr hsig_nil
      rw [if_neg (by omega), List.take_left, List.drop_left]
      exact iff_of_true ⟨vinIndex, rfl⟩ ⟨hpk_nil, hsig_nil⟩

/-- An input with a part of one byte for each of the public key and the signature. -/
def sampleCarrierInput (scriptSig : Bytes) : TxIn where
  prevout := { hash := Uint256.zero, n := 0 }
  scriptSig := scriptSig
  sequence := 0

/-- A transaction with one input, for runs on fixed inputs. -/
def sampleCarrierTx (scriptSig : Bytes) : Tx where
  version := 1
  vin := [sampleCarrierInput scriptSig]
  vout := []
  locktime := 0

/-- The script of the only part. -/
def samplePart (pkLen : UInt16) (payload : Bytes) : Bytes :=
  (buildPartScriptsig falconTag 0 1 pkLen (UInt16.ofNat payload.length) payload [0x51]).getD []

theorem carriedIn_sample (pkLen : UInt16) (payload : Bytes)
    (h : payload.length ≤ MAX_CHUNKS * CHUNK_MAX) (Other : TxIn → Prop) :
    CarriedIn falconTag pkLen (UInt16.ofNat payload.length) [payload] Other
      (sampleCarrierTx (samplePart pkLen payload)).vin := by
  refine ⟨[sampleCarrierInput (samplePart pkLen payload)],
    [], by rfl, List.Forall₂.cons ⟨[0x51], ?_⟩ .nil, ?_⟩
  · have hbuild : (buildPartScriptsig falconTag 0 1 pkLen (UInt16.ofNat payload.length) payload
      [0x51]).isSome := by
      unfold buildPartScriptsig
      rw [if_neg (by decide), if_neg (Nat.not_lt.mpr h)]
      rfl
    obtain ⟨script, hscript⟩ := Option.isSome_iff_exists.mp hbuild
    show buildPartScriptsig falconTag 0 1 pkLen (UInt16.ofNat payload.length) payload [0x51] =
      some (samplePart pkLen payload)
    rw [samplePart, hscript]
    rfl
  · exact fun txIn htxIn => absurd htxIn List.not_mem_nil

theorem splitInto_single {payload : Bytes} (h : payload.length ≤ MAX_CHUNKS * CHUNK_MAX) :
    SplitInto payload [payload] where
  flatten := List.append_nil payload
  pos := Nat.one_pos
  le := Nat.le_of_ble_eq_true rfl
  fits := List.forall_mem_singleton.mpr h

/-- The theorem on a public key and a signature of a byte each. -/
theorem extractScriptsig_iff_sample :
    (∃ vinIndex, extractScriptsig false (sampleCarrierTx (samplePart 1 [1, 2])) =
        some { algo := .falcon, pk := [1], sig := [2], vinIndex := vinIndex }) ↔
      ([1] : Bytes) ≠ [] ∧ ([2] : Bytes) ≠ [] :=
  extractScriptsig_iff rfl (by decide) (splitInto_single (by decide))
    (carriedIn_sample 1 [1, 2] (by decide) _)

/-- A signature that is empty is not extracted. -/
theorem not_extractScriptsig :
    ¬ ∀ (useRaccoonG : Bool) (tag8 : Tag8) (algo : PqcAlgo) (pk sig : Bytes) (parts : List Bytes)
      (tx : Tx), carrierAlgo useRaccoonG tag8 = some algo →
    (pk ++ sig).length ≤ 65535 →
      SplitInto (pk ++ sig) parts →
      CarriedIn tag8 (UInt16.ofNat pk.length) (UInt16.ofNat (pk ++ sig).length) parts
        (fun txIn => ¬ IsCarrierInput useRaccoonG txIn) tx.vin →
      ∃ vinIndex, extractScriptsig useRaccoonG tx =
        some { algo := algo, pk := pk, sig := sig, vinIndex := vinIndex } := by
  intro hall
  obtain ⟨vinIndex, hextract⟩ :=
    hall false falconTag .falcon [1] [] [[1]] (sampleCarrierTx (samplePart 1 [1])) rfl
    (by decide) (splitInto_single (by decide)) (carriedIn_sample 1 [1] (by decide) _)
  have hnone : extractScriptsig false (sampleCarrierTx (samplePart 1 [1])) = none := by decide
  rw [hnone] at hextract
  cases hextract

end PqcCarrier

end Libdogecoin
