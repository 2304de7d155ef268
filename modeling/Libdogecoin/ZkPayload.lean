/-
# The encoding of proof payloads

`dogecoin_zk_encode_payload` of `zk_carrier.c` beside `dogecoin_zk_decode_payload`. The decoder also
takes payloads that the encoder does not write: a verification key of no bytes, and blobs above 32
MiB.

* `decodePayload_eq_ok_iff` : the payloads that are accepted, and what they are decoded to;
* `encodePayload_eq_ok_iff` : the payloads that are written;
* `zkPayload_encodings` : both together.
-/
import Libdogecoin.ZkCarrier

namespace Libdogecoin

namespace ZkPayloads

open PqcCarrier ZkCarrier

/-! ## Encoding -/

/-- A pointer with the number of bytes it is said to have. -/
inductive Slice where
  | null (len : ℕ)
  | bytes (bs : Bytes)
  deriving DecidableEq

namespace Slice

def len : Slice → ℕ
  | null len => len
  | bytes bs => bs.length

def isNull : Slice → Bool
  | null _ => true
  | bytes _ => false

/-- What is copied out of a slice: nothing from a null pointer. -/
def contents : Slice → Bytes
  | null _ => []
  | bytes bs => bs

end Slice

/-- `(uint8_t)((n >> k) & 0xff)`. -/
def byteAt (n k : ℕ) : UInt8 := UInt8.ofNat (n >>> k &&& 0xff)

/-- A length in two bytes, the highest first. -/
def writeBe16 (n : ℕ) : Bytes := [byteAt n 8, byteAt n 0]

/-- A length or an identifier in four bytes, the highest first. -/
def writeBe32 (n : ℕ) : Bytes := [byteAt n 24, byteAt n 16, byteAt n 8, byteAt n 0]

/-- The most that a proof or a verification key has: 32 MiB. -/
def BLOB_MAX : ℕ := 0x02000000

/-- The bytes of a payload. The verification key has a place only in version 1. -/
def payloadBytes (version : UInt8) (mode circuitId : UInt32) (publicInputs proof vk : Bytes) :
    Bytes :=
  CARRIER_MAGIC ++ ([mode.toUInt8, version] ++
    (writeBe32 circuitId.toNat ++ (writeBe16 publicInputs.length ++
    (publicInputs ++ (writeBe32 proof.length ++ (proof ++
      if version = 0x01 then writeBe32 vk.length ++ vk else []))))))

/-- The version that the encoder takes. -/
def encoderVersion (vk : Slice) : UInt8 := if ¬ vk.isNull ∧ vk.len > 0 then 0x01 else 0x00

/-- `dogecoin_zk_encode_payload`. The program ends where there is no memory. -/
def encodePayload (mode circuitId : UInt32) (publicInputs proof vk : Slice) : Except ZkErr Bytes :=
  if publicInputs.len > 0 ∧ publicInputs.isNull then .error .invalidArg
  else if proof.len > 0 ∧ proof.isNull then .error .invalidArg
  else if vk.len > 0 ∧ vk.isNull then .error .invalidArg
  else if ¬ zkModeIsKnown mode then .error .badMode
  else if publicInputs.len > 0xFFFF then .error .invalidArg
  else if proof.len > BLOB_MAX then .error .invalidArg
  else if vk.len > BLOB_MAX then .error .invalidArg
  else .ok (payloadBytes (encoderVersion vk) mode circuitId publicInputs.contents
    proof.contents vk.contents)

/-- The slice that is returned for a section: a null pointer where it is empty. -/
def sectionSlice (bs : Bytes) : Slice := if bs.length > 0 then .bytes bs else .null 0

/-- A decoded payload is encoded again, without a verification key where the decoded one is
empty. -/
def reencode (decoded : ZkPayload) : Except ZkErr Bytes :=
  encodePayload decoded.mode decoded.circuitId (sectionSlice decoded.publicInputs)
    (sectionSlice decoded.proof) (sectionSlice decoded.vk)

/-! ## Lengths -/

theorem toNat_byteAt (n k : ℕ) : (byteAt n k).toNat = n / 2 ^ k % 256 := by
  unfold byteAt
  rw [UInt8.toNat_ofNat', show (0xff : ℕ) = 2 ^ 8 - 1 from rfl, Nat.and_two_pow_sub_one_eq_mod,
    Nat.shiftRight_eq_div_pow, Nat.mod_mod]

theorem toNat_readLen (hi lo : UInt8) : (readLen hi lo).toNat = hi.toNat * 2 ^ 8 + lo.toNat := by
  have hhi := hi.toNat_lt
  have hlo := lo.toNat_lt
  unfold readLen
  rw [UInt16.toNat_or, UInt16.toNat_shiftLeft, UInt8.toNat_toUInt16, UInt8.toNat_toUInt16]
  rw [show UInt16.toNat 8 % 16 = 8 from rfl, Nat.shiftLeft_eq, Nat.mod_eq_of_lt (by omega),
    ← Nat.shiftLeft_eq]
  rw [← Nat.shiftLeft_add_eq_or_of_lt (by omega)]

/-- The bytes of a number are put together from the highest one. -/
theorem toNat_readBe32 (a b c d : UInt8) (rest : Bytes) :
    (readBe32 (a :: b :: c :: d :: rest)).toNat =
      a.toNat * 2 ^ 24 + b.toNat * 2 ^ 16 + c.toNat * 2 ^ 8 + d.toNat := by
  have ha := a.toNat_lt
  have hb := b.toNat_lt
  have hc := c.toNat_lt
  have hd := d.toNat_lt
  show (a.toUInt32 <<< 24 ||| b.toUInt32 <<< 16 ||| c.toUInt32 <<< 8 ||| d.toUInt32).toNat = _
  simp only [UInt32.toNat_or, UInt32.toNat_shiftLeft, UInt8.toNat_toUInt32]
  rw [show UInt32.toNat 24 % 32 = 24 from rfl, show UInt32.toNat 16 % 32 = 16 from rfl,
    show UInt32.toNat 8 % 32 = 8 from rfl]
  simp only [Nat.shiftLeft_eq]
  rw [Nat.mod_eq_of_lt (show a.toNat * 2 ^ 24 < 2 ^ 32 by omega),
    Nat.mod_eq_of_lt (show b.toNat * 2 ^ 16 < 2 ^ 32 by omega),
    Nat.mod_eq_of_lt (show c.toNat * 2 ^ 8 < 2 ^ 32 by omega)]
  -- each byte lies below the ones in front of it
  rw [← Nat.shiftLeft_eq a.toNat,
    ← Nat.shiftLeft_add_eq_or_of_lt (show b.toNat * 2 ^ 16 < 2 ^ 24 by omega), Nat.shiftLeft_eq]
  rw [show a.toNat * 2 ^ 24 + b.toNat * 2 ^ 16 = (a.toNat * 2 ^ 8 + b.toNat) * 2 ^ 16 by omega,
    ← Nat.shiftLeft_eq _ 16, ← Nat.shiftLeft_add_eq_or_of_lt
      (show c.toNat * 2 ^ 8 < 2 ^ 16 by omega),
    Nat.shiftLeft_eq]
  rw [show (a.toNat * 2 ^ 8 + b.toNat) * 2 ^ 16 + c.toNat * 2 ^ 8 =
      (a.toNat * 2 ^ 16 + b.toNat * 2 ^ 8 + c.toNat) * 2 ^ 8 by omega,
    ← Nat.shiftLeft_eq _ 8, ← Nat.shiftLeft_add_eq_or_of_lt (show d.toNat < 2 ^ 8 by omega),
      Nat.shiftLeft_eq]

theorem toNat_readBe32_writeBe32 {n : ℕ} (h : n < 2 ^ 32) (rest : Bytes) :
    (readBe32 (writeBe32 n ++ rest)).toNat = n := by
  unfold writeBe32
  rw [List.cons_append, List.cons_append, List.cons_append, List.cons_append, toNat_readBe32]
  simp only [toNat_byteAt]
  omega

theorem toNat_readLen_writeBe16 {n : ℕ} (h : n < 2 ^ 16) :
    (readLen (byteAt n 8) (byteAt n 0)).toNat = n := by
  rw [toNat_readLen]
  simp only [toNat_byteAt]
  omega

/-- Four bytes are the ones that are written for the number they are read as. -/
theorem exists_writeBe32 {bs : Bytes} (h : 4 ≤ bs.length) :
    bs = writeBe32 (readBe32 bs).toNat ++ bs.drop 4 := by
  match bs, h with
  | a :: b :: c :: d :: rest, _ =>
    have ha := a.toNat_lt
    have hb := b.toNat_lt
    have hc := c.toNat_lt
    have hd := d.toNat_lt
    rw [toNat_readBe32]
    show a :: b :: c :: d :: rest = byteAt _ 24 :: byteAt _ 16 :: byteAt _ 8 :: byteAt _ 0 :: rest
    simp only [List.cons.injEq, and_true, ← UInt8.toNat_inj, toNat_byteAt]
    omega

theorem writeBe16_readLen (hi lo : UInt8) : writeBe16 (readLen hi lo).toNat = [hi, lo] := by
  have hhi := hi.toNat_lt
  have hlo := lo.toNat_lt
  rw [toNat_readLen]
  unfold writeBe16
  simp only [List.cons.injEq, and_true, ← UInt8.toNat_inj, toNat_byteAt]
  omega

variable {bs payload rest : Bytes} {version : UInt8} {mode circuitId : UInt32} {decoded : ZkPayload}
  {vk publicInputs proof : Slice}

/-- A field with its length is read where it stands, and nowhere else. -/
theorem readBlob_eq_ok_iff {blob : Bytes} :
    readBlob bs = .ok (blob, rest) ↔ bs = writeBe32 blob.length ++ (blob ++ rest) ∧
    blob.length < 2 ^ 32 := by
  constructor
  · intro h
    unfold readBlob at h
    split_ifs at h with hshort hlong
    obtain ⟨rfl, rfl⟩ := Prod.mk.inj (Except.ok.inj h)
    rw [List.length_take, Nat.min_eq_left (by omega), List.take_append_drop]
    exact ⟨exists_writeBe32 (by omega), (readBe32 bs).toNat_lt⟩
  · rintro ⟨rfl, hlen⟩
    have hfour : (writeBe32 blob.length).length = 4 := rfl
    unfold readBlob
    rw [toNat_readBe32_writeBe32 hlen, List.drop_left' hfour,
      if_neg (by rw [List.length_append]; omega),
      if_neg (by rw [List.length_append]; omega), List.take_left, List.drop_left]

/-! ## Decoding -/

/-- The verification key, which has a place only in version 1. -/
def readVk (version : UInt8) (bs : Bytes) : Except ZkErr (Bytes × Bytes) :=
  if version = 0x01 then readBlob bs else .ok ([], bs)

/-- The proof and the verification key, and nothing behind them. -/
def decodeBlobs (version : UInt8) (bs : Bytes) : Except ZkErr (Bytes × Bytes) := do
  let (proof, rest) ← readBlob bs
  let (vk, rest) ← readVk version rest
  if rest ≠ [] then .error .truncated else .ok (proof, vk)

/-- What is decoded behind the header. -/
def decodeBehind (mode : UInt8) (version : UInt8) (circuitId : UInt32) (pl : ℕ) (body : Bytes) :
    Except ZkErr ZkPayload :=
  if version &&& ~~~0x01 ≠ 0 ∨ version ≠ 0x00 ∧ version ≠ 0x01 then .error .badVersion
  else if ¬ zkModeIsKnown mode.toUInt32 then .error .badMode
  else if pl > body.length then .error .truncated
  else (decodeBlobs version (body.drop pl)).map fun blobs =>
    { mode := mode.toUInt32, circuitId := circuitId, publicInputs := body.take pl,
      proof := blobs.1, vk := blobs.2 }

/-- The bytes of the header, and what stands behind it. -/
def withHeader (mode : UInt8) (version : UInt8) (circuitId : UInt32) (pl : ℕ) (body : Bytes) :
    Bytes :=
  CARRIER_MAGIC ++ ([mode, version] ++ (writeBe32 circuitId.toNat ++ (writeBe16 pl ++ body)))

/-- Behind a whole header with the magic, the rest is decoded. -/
theorem decodePayload_withHeader (mode version : UInt8) (circuitId : UInt32) {pl : ℕ}
    (hpl : pl < 2 ^ 16) (body : Bytes) :
    decodePayload (withHeader mode version circuitId pl body) =
      decodeBehind mode version circuitId pl body := by
  have hlen : ¬ (withHeader mode version circuitId pl body).length < CARRIER_HDR_FIXED := by
    show ¬ body.length + 12 < 12
    omega
  have hcircuit : readBe32 ((withHeader mode version circuitId pl body).drop 6) = circuitId :=
    UInt32.toNat_inj.mp (toNat_readBe32_writeBe32 circuitId.toNat_lt _)
  have hmagic : (withHeader mode version circuitId pl body).take 4 = CARRIER_MAGIC := rfl
  have hmode : (withHeader mode version circuitId pl body).getD 4 0 = mode := rfl
  have hversion : (withHeader mode version circuitId pl body).getD 5 0 = version := rfl
  have hhi : (withHeader mode version circuitId pl body).getD 10 0 = byteAt pl 8 := rfl
  have hlo : (withHeader mode version circuitId pl body).getD 11 0 = byteAt pl 0 := rfl
  have hbody : (withHeader mode version circuitId pl body).drop CARRIER_HDR_FIXED = body := rfl
  unfold decodePayload decodeBehind
  rw [if_neg hlen, hmagic, if_neg (not_not.mpr rfl)]
  dsimp only
  rw [hmode, hversion, hcircuit, hhi, hlo, hbody, toNat_readLen_writeBe16 hpl]
  refine if_congr Iff.rfl rfl (if_congr Iff.rfl rfl (if_congr Iff.rfl rfl ?_))
  -- the decoder continues in the two versions apart
  unfold decodeBlobs readVk
  cases readBlob (body.drop pl) with
  | error e => rfl
  | ok first =>
    show (if version = 0x01 then readBlob first.2 >>= _ else Except.ok ([], first.2) >>= _) =
      Except.map _ ((if version = 0x01 then readBlob first.2 else .ok ([], first.2)) >>= _)
    split_ifs with hone
    · cases readBlob first.2 with
      | error e => rfl
      | ok second =>
        show (if second.2 ≠ [] then _ else _) = Except.map _ (if second.2 ≠ [] then _ else _)
        split_ifs <;> rfl
    · show (if first.2 ≠ [] then _ else _) = Except.map _ (if first.2 ≠ [] then _ else _)
      split_ifs <;> rfl

/-- A payload that is long enough, by its header. -/
theorem exists_withHeader (hlen : 12 ≤ payload.length) (hmagic : payload.take 4 = CARRIER_MAGIC) :
    ∃ circuitId pl, pl < 2 ^ 16 ∧
      payload = withHeader (payload.getD 4 0) (payload.getD 5 0) circuitId pl
        (payload.drop 12) := by
  match payload, hlen, hmagic with
  | m0 :: m1 :: m2 :: m3 :: mode :: version :: c0 :: c1 :: c2 :: c3 :: p0 :: p1 ::
      body, _, hmagic =>
    have hcircuit := @exists_writeBe32 (c0 :: c1 :: c2 :: c3 :: p0 :: p1 :: body) (by simp)
    refine ⟨readBe32 (c0 :: c1 :: c2 :: c3 :: p0 :: p1 :: body), (readLen p0 p1).toNat,
      (readLen p0 p1).toNat_lt, ?_⟩
    unfold withHeader
    rw [← hmagic, writeBe16_readLen]
    exact congrArg (fun tail => m0 :: m1 :: m2 :: m3 :: mode :: version :: tail) hcircuit

theorem readVk_eq_ok_iff (hversion : version = 0x00 ∨ version = 0x01) {vk : Bytes} :
    readVk version bs = .ok (vk, rest) ↔
      bs = (if version = 0x01 then writeBe32 vk.length ++ vk else []) ++ rest ∧ vk.length < 2 ^ 32 ∧
        (version = 0x00 ∧ vk = [] ∨ version = 0x01) := by
  unfold readVk
  rcases hversion with rfl | rfl
  · rw [if_neg (by decide), if_neg (by decide)]
    constructor
    · intro h
      obtain ⟨rfl, rfl⟩ := Prod.mk.inj (Except.ok.inj h)
      exact ⟨rfl, by decide, Or.inl ⟨rfl, rfl⟩⟩
    · rintro ⟨rfl, -, ⟨-, rfl⟩ | hone⟩
      · rfl
      · exact absurd hone (by decide)
  · rw [if_pos rfl, if_pos rfl, readBlob_eq_ok_iff, List.append_assoc]
    exact ⟨fun h => ⟨h.1, h.2, Or.inr rfl⟩, fun h => ⟨h.1, h.2.1⟩⟩

theorem decodeBlobs_eq_ok_iff (hversion : version = 0x00 ∨ version = 0x01) {proof vk : Bytes} :
    decodeBlobs version bs = .ok (proof, vk) ↔
      bs = writeBe32 proof.length ++
        (proof ++ if version = 0x01 then writeBe32 vk.length ++ vk else []) ∧
        proof.length < 2 ^ 32 ∧ vk.length < 2 ^ 32 ∧
        (version = 0x00 ∧ vk = [] ∨ version = 0x01) := by
  unfold decodeBlobs
  constructor
  · intro h
    cases hproof : readBlob bs with
    | error e =>
      rw [hproof] at h
      cases h
    | ok first =>
      rw [hproof] at h
      cases hvk : readVk version first.2 with
      | error e =>
        replace h : (readVk version first.2 >>= _) = _ := h
        rw [hvk] at h
        cases h
      | ok second =>
        replace h : (readVk version first.2 >>= _) = _ := h
        rw [hvk] at h
        replace h : (if second.2 ≠ [] then Except.error ZkErr.truncated else
          .ok (first.1, second.1)) =
          Except.ok (proof, vk) := h
        split_ifs at h with hrest
        rw [not_not] at hrest
        obtain ⟨rfl, rfl⟩ := Prod.mk.inj (Except.ok.inj h)
        obtain ⟨hbs, hlen⟩ := readBlob_eq_ok_iff.mp hproof
        obtain ⟨hfirst, hvkLen, hcase⟩ := (readVk_eq_ok_iff hversion).mp hvk
        rw [hrest, List.append_nil] at hfirst
        rw [hfirst] at hbs
        exact ⟨hbs, hlen, hvkLen, hcase⟩
  · rintro ⟨rfl, hlen, hvkLen, hcase⟩
    rw [readBlob_eq_ok_iff.mpr ⟨rfl, hlen⟩]
    show (readVk version _ >>= _) = _
    rw [(readVk_eq_ok_iff hversion).mpr ⟨(List.append_nil _).symm, hvkLen, hcase⟩]
    rfl

/-- The payloads that fit into their encoding in a version. -/
structure Fits (version : UInt8) (decoded : ZkPayload) : Prop where
  mode : zkModeIsKnown decoded.mode = true
  publicInputs : decoded.publicInputs.length < 2 ^ 16
  proof : decoded.proof.length < 2 ^ 32
  vk : decoded.vk.length < 2 ^ 32
  version : version = 0x00 ∧ decoded.vk = [] ∨ version = 0x01

/-- The encoding of a payload in a version. -/
def wire (version : UInt8) (decoded : ZkPayload) : Bytes :=
  payloadBytes version decoded.mode decoded.circuitId decoded.publicInputs decoded.proof decoded.vk

theorem toUInt32_toUInt8 (h : zkModeIsKnown mode = true) : mode.toUInt8.toUInt32 = mode := by
  rcases of_decide_eq_true h with rfl | rfl | rfl <;> rfl

/-- The check of the version lets two values through. -/
theorem version_check (h : ¬ (version &&& ~~~0x01 ≠ 0 ∨ version ≠ 0x00 ∧ version ≠ 0x01)) :
    version = 0x00 ∨ version = 0x01 := by
  rw [not_or, not_and_or, not_not, not_not] at h
  exact h.2.imp_right not_not.mp

/-- **The payloads that are accepted.** They are the encodings, in one of the versions, of what they
are decoded to. -/
theorem decodePayload_eq_ok_iff :
    decodePayload payload = .ok decoded ↔ Fits (payload.getD 5 0) decoded ∧
    payload = wire (payload.getD 5 0) decoded := by
  constructor
  · intro h
    have hlen : ¬ payload.length < CARRIER_HDR_FIXED := by
      intro hshort
      rw [decodePayload, if_pos hshort] at h
      cases h
    have hmagic : payload.take 4 = CARRIER_MAGIC := by
      by_contra hbad
      rw [decodePayload, if_neg hlen, if_pos hbad] at h
      cases h
    obtain ⟨circuitId, pl, hpl, hpayload⟩ := exists_withHeader (Nat.le_of_not_lt hlen) hmagic
    rw [hpayload, decodePayload_withHeader _ _ _ hpl] at h
    unfold decodeBehind at h
    split_ifs at h with hversion hmode hshort
    cases hblobs : decodeBlobs (payload.getD 5 0) ((payload.drop 12).drop pl) with
    | error e =>
      rw [hblobs] at h
      cases h
    | ok blobs =>
      rw [hblobs] at h
      obtain rfl := Except.ok.inj h
      obtain ⟨hbody, hproof, hvk, hcase⟩ :=
        (decodeBlobs_eq_ok_iff (version_check hversion)).mp hblobs
      have hpub : ((payload.drop 12).take pl).length = pl := by
        rw [List.length_take]
        exact Nat.min_eq_left (Nat.le_of_not_lt hshort)
      have hback : (payload.getD 4 0).toUInt32.toUInt8 = payload.getD 4 0 :=
        UInt8.toUInt8_toUInt32 _
      refine ⟨⟨hmode, by rw [hpub]; exact hpl, hproof, hvk, hcase⟩, ?_⟩
      refine hpayload.trans ?_
      unfold wire payloadBytes withHeader
      dsimp only
      rw [hback, hpub, ← hbody, List.take_append_drop]
  · rintro ⟨hfits, hpayload⟩
    have hmode := toUInt32_toUInt8 hfits.mode
    have hversion : ¬ (payload.getD 5 0 &&& ~~~0x01 ≠ 0 ∨ payload.getD 5 0 ≠ 0x00 ∧
      payload.getD 5 0 ≠ 0x01) := by
      rcases hfits.version with ⟨hzero, -⟩ | hone
      · rw [hzero]
        decide
      · rw [hone]
        decide
    have htwo : payload.getD 5 0 = 0x00 ∨ payload.getD 5 0 = 0x01 := hfits.version.imp_left And.left
    have hheader : payload = withHeader decoded.mode.toUInt8 (payload.getD 5 0) decoded.circuitId
        decoded.publicInputs.length (decoded.publicInputs ++
          (writeBe32 decoded.proof.length ++ (decoded.proof ++
          if payload.getD 5 0 = 0x01 then writeBe32 decoded.vk.length ++ decoded.vk else []))) :=
            hpayload
    rw [hheader, decodePayload_withHeader _ _ _ hfits.publicInputs]
    unfold decodeBehind
    rw [if_neg hversion, hmode, if_neg (not_not.mpr hfits.mode),
      if_neg (by rw [List.length_append]; omega), List.drop_left, List.take_left,
      (decodeBlobs_eq_ok_iff htwo).mpr ⟨rfl, hfits.proof, hfits.vk, hfits.version⟩]
    rfl

/-! ## Round trips -/

/-- What the encoder takes. -/
structure Encodable (mode : UInt32) (publicInputs proof vk : Slice) : Prop where
  publicInputs_there : ¬ (publicInputs.len > 0 ∧ publicInputs.isNull)
  proof_there : ¬ (proof.len > 0 ∧ proof.isNull)
  vk_there : ¬ (vk.len > 0 ∧ vk.isNull)
  mode : zkModeIsKnown mode = true
  publicInputs_le : publicInputs.len ≤ 0xFFFF
  proof_le : proof.len ≤ BLOB_MAX
  vk_le : vk.len ≤ BLOB_MAX

theorem encodePayload_eq_ok_iff :
    encodePayload mode circuitId publicInputs proof vk = .ok payload ↔
    Encodable mode publicInputs proof vk ∧
      payload = wire (encoderVersion vk) ⟨mode, circuitId, publicInputs.contents, proof.contents,
        vk.contents⟩ := by
  unfold encodePayload
  constructor
  · intro h
    split_ifs at h with h1 h2 h3 h4 h5 h6 h7
    exact ⟨⟨h1, h2, h3, h4, Nat.le_of_not_lt h5, Nat.le_of_not_lt h6, Nat.le_of_not_lt h7⟩,
      (Except.ok.inj h).symm⟩
  · rintro ⟨h, rfl⟩
    rw [if_neg h.publicInputs_there, if_neg h.proof_there, if_neg h.vk_there,
      if_neg (not_not.mpr h.mode),
      if_neg (Nat.not_lt.mpr h.publicInputs_le), if_neg (Nat.not_lt.mpr h.proof_le),
        if_neg (Nat.not_lt.mpr h.vk_le)]
    rfl

/-- A pointer that is there, where it has to be, has as many bytes as it is said to have. -/
theorem length_contents {slice : Slice} (h : ¬ (slice.len > 0 ∧ slice.isNull)) :
    slice.contents.length = slice.len := by
  cases slice with
  | null len => exact (Nat.eq_zero_of_not_pos fun hpos => h ⟨hpos, rfl⟩).symm
  | bytes bs => rfl

theorem encoderVersion_cases (h : ¬ (vk.len > 0 ∧ vk.isNull)) :
    encoderVersion vk = 0x00 ∧ vk.contents = [] ∨ encoderVersion vk = 0x01 ∧ vk.contents ≠ [] := by
  have hlen := length_contents h
  unfold encoderVersion
  by_cases hpos : vk.len > 0
  · refine Or.inr ⟨if_pos ⟨fun hnull => h ⟨hpos, hnull⟩, hpos⟩, ?_⟩
    exact List.ne_nil_of_length_pos (by omega)
  · exact Or.inl ⟨if_neg fun hboth => hpos hboth.2, List.eq_nil_of_length_eq_zero (by omega)⟩

/-- **What was encoded is decoded.** -/
theorem decodePayload_encodePayload
    (h : encodePayload mode circuitId publicInputs proof vk = .ok payload) :
    decodePayload payload = .ok ⟨mode, circuitId, publicInputs.contents, proof.contents,
      vk.contents⟩ := by
  obtain ⟨henc, rfl⟩ := encodePayload_eq_ok_iff.mp h
  have hpub := henc.publicInputs_le
  have hproof := henc.proof_le
  have hvk := henc.vk_le
  rw [← length_contents henc.publicInputs_there] at hpub
  rw [← length_contents henc.proof_there, BLOB_MAX] at hproof
  rw [← length_contents henc.vk_there, BLOB_MAX] at hvk
  refine decodePayload_eq_ok_iff.mpr ⟨?_, rfl⟩
  exact
    { mode := henc.mode
      publicInputs := Nat.lt_succ_of_le hpub
      proof := Nat.lt_of_le_of_lt hproof (by decide)
      vk := Nat.lt_of_le_of_lt hvk (by decide)
      version := (encoderVersion_cases henc.vk_there).imp id And.left }

theorem contents_sectionSlice (bs : Bytes) : (sectionSlice bs).contents = bs := by
  unfold sectionSlice
  split_ifs with hpos
  · rfl
  · exact (List.eq_nil_of_length_eq_zero (Nat.eq_zero_of_not_pos hpos)).symm

theorem sectionSlice_there (bs : Bytes) :
    ¬ ((sectionSlice bs).len > 0 ∧ (sectionSlice bs).isNull) := by
  unfold sectionSlice
  split_ifs with hpos
  · exact fun h => Bool.false_ne_true h.2
  · exact fun h => Nat.lt_irrefl 0 h.1

/-- Decoded payloads are encoded again unless a blob is too long, in the version that the encoder
takes. -/
theorem reencode_eq_ok_iff (hfits : Fits version decoded) :
    reencode decoded = .ok payload ↔
    (decoded.proof.length ≤ BLOB_MAX ∧ decoded.vk.length ≤ BLOB_MAX) ∧
      payload = wire (encoderVersion (sectionSlice decoded.vk)) decoded := by
  unfold reencode
  rw [encodePayload_eq_ok_iff, contents_sectionSlice, contents_sectionSlice, contents_sectionSlice]
  have hlen : ∀ bs, (sectionSlice bs).len = bs.length := fun bs => by
    rw [← length_contents (sectionSlice_there bs), contents_sectionSlice]
  constructor
  · rintro ⟨henc, rfl⟩
    have hproof := henc.proof_le
    have hvk := henc.vk_le
    rw [hlen] at hproof hvk
    exact ⟨⟨hproof, hvk⟩, rfl⟩
  · rintro ⟨⟨hproof, hvk⟩, rfl⟩
    refine ⟨⟨sectionSlice_there _, sectionSlice_there _, sectionSlice_there _, hfits.mode,
      ?_, ?_, ?_⟩, rfl⟩
    · rw [hlen]
      exact Nat.le_of_lt_succ hfits.publicInputs
    · rw [hlen]
      exact hproof
    · rw [hlen]
      exact hvk

/-- **Encoding again.** A payload is given back unless its verification key has a place and no
bytes, or the encoder does not take a blob of its length. -/
theorem reencode_decoded (h : decodePayload payload = .ok decoded) :
    reencode decoded = .ok payload ↔ ¬ (payload.getD 5 0 = 0x01 ∧ decoded.vk = []) ∧
      decoded.proof.length ≤ BLOB_MAX ∧ decoded.vk.length ≤ BLOB_MAX := by
  obtain ⟨hfits, hpayload⟩ := decodePayload_eq_ok_iff.mp h
  have hcases := encoderVersion_cases (sectionSlice_there decoded.vk)
  rw [contents_sectionSlice] at hcases
  rw [reencode_eq_ok_iff hfits, and_comm]
  refine and_congr_left fun _ => ?_
  constructor
  · rintro heq ⟨hone, hnil⟩
    -- without a key the encoder takes version 0, and the payloads differ in that byte
    have hversion := congrArg (fun bs : Bytes => bs.getD 5 0) heq
    rcases hcases with ⟨hzero, -⟩ | ⟨-, hne⟩
    · rw [hzero] at hversion
      replace hversion : payload.getD 5 0 = 0x00 := hversion
      rw [hone] at hversion
      cases hversion
    · exact hne hnil
  · intro hnot
    -- with a key in version 1 and none in version 0, the encoder takes the version of the payload
    have hversion : encoderVersion (sectionSlice decoded.vk) = payload.getD 5 0 := by
      rcases hcases with ⟨hzero, hnil⟩ | ⟨hone, hne⟩ <;> rcases hfits.version with
        ⟨hzero', hnil'⟩ | hone'
      · rw [hzero, hzero']
      · exact absurd ⟨hone', hnil⟩ hnot
      · exact absurd hnil' hne
      · rw [hone, hone']
    rw [hversion]
    exact hpayload

/-- **The encodings of payloads.** What was encoded is decoded to the same fields; what was decoded,
with blobs of at most 32 MiB, is encoded to the same bytes, unless the payload has a place for a
verification key of no bytes. -/
theorem zkPayload_encodings :
    (∀ mode circuitId publicInputs proof vk payload,
      encodePayload mode circuitId publicInputs proof vk = .ok payload →
      decodePayload payload = .ok ⟨mode, circuitId, publicInputs.contents,
        proof.contents, vk.contents⟩) ∧
    ∀ payload decoded, decodePayload payload = .ok decoded →
      decoded.proof.length ≤ BLOB_MAX → decoded.vk.length ≤ BLOB_MAX →
        (reencode decoded = .ok payload ↔ ¬ (payload.getD 5 0 = 0x01 ∧ decoded.vk = [])) := by
  refine ⟨fun _ _ _ _ _ _ h => decodePayload_encodePayload h, fun _ _ h hproof hvk => ?_⟩
  exact (reencode_decoded h).trans (and_iff_left ⟨hproof, hvk⟩)

/-- A payload with one byte in each of its sections. -/
def samplePayload : Bytes :=
  [0x5a, 0x4b, 0x50, 0x31, 0, 1, 0, 0, 0, 7, 0, 1, 10, 0, 0, 0, 1, 11, 0, 0, 0, 1, 12]

theorem zkPayload_encodings_sample :
    decodePayload samplePayload = .ok ⟨0, 7, [10], [11], [12]⟩ ∧ reencode ⟨0, 7, [10], [11], [12]⟩ =
      .ok samplePayload :=
  have hdecoded := zkPayload_encodings.1 0 7 (.bytes [10]) (.bytes [11]) (.bytes [12]) samplePayload
    (by decide +kernel)
  ⟨hdecoded, (zkPayload_encodings.2 _ _ hdecoded (by decide) (by decide)).mpr (by decide)⟩

/-- A payload in version 1 with a verification key of no bytes. -/
def emptyVk : Bytes := [0x5a, 0x4b, 0x50, 0x31, 0, 1, 0, 0, 0, 0, 0, 0, 0, 0, 0, 0, 0, 0, 0, 0]

/-- It is accepted, and encoded again in version 0. -/
theorem not_reencoded :
    ¬ ∀ payload decoded, decodePayload payload = .ok decoded → reencode decoded = .ok payload := by
  intro h
  have hdecoded : decodePayload emptyVk = .ok ⟨0, 0, [], [], []⟩ := by decide +kernel
  have hback := h _ _ hdecoded
  have hshort : reencode ⟨0, 0, [], [], []⟩ =
    .ok (emptyVk.take 5 ++ (0 :: (emptyVk.drop 6).take 10)) := by
    decide +kernel
  rw [hshort] at hback
  exact absurd hback (by decide)

end ZkPayloads

end Libdogecoin
