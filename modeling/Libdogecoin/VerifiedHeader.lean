/-
# Proof of work of connected headers

Whether a header that `connectHdr` connects has passed one of the two proof-of-work checks is
spread over three functions: the parser skips the proof when the buffer ends with the 80 bytes, the
validation accepts a header without a proof, and `connectHdr` only checks versions without the
AuxPoW bit.

* `connectHdr_verified_iff` : together they miss exactly the 80-byte buffers with the AuxPoW bit.
-/
import Libdogecoin.HeadersDbInvariant

namespace Libdogecoin

namespace HeadersDb

variable {pf : Platform} {db : HeadersDb} {buf : Bytes} {h : FullHeader} {work : ArithUint256}

/-- The header carries a verified proof of work: its own if its version has no AuxPoW bit, or that
of its proof. -/
def VerifiedHeader (pf : Platform) (params : ChainParams) (h : FullHeader) : Prop :=
  (isAuxpow h.base.version = false ∧
      (checkPow (pf.scrypt (blockHeaderSerialize h.base)) h.base.bits params).isSome = true) ∨
    ∃ p, h.auxpowPayload = some p ∧ (checkAuxpow pf (h.view p) params).isSome = true

/-- A header with a proof is verified as soon as it deserializes. -/
theorem verified_of_payload {params : ChainParams} {p : AuxpowPayload}
    (hp : h.auxpowPayload = some p) (hval : blockHeaderValidate pf h params = some work) :
    VerifiedHeader pf params h := by
  simp only [blockHeaderValidate, hp] at hval
  exact Or.inr ⟨p, hp, by rw [hval]; rfl⟩

/-- A version without the AuxPoW bit is checked by `connectHdr` unless the check is off. -/
theorem verified_of_headerWork {checked : ArithUint256} (hskip : db.skipPow = false)
    (haux : isAuxpow h.base.version = false) (hwork : headerWork pf db h checked = some work) :
    VerifiedHeader pf db.params h := by
  rw [headerWork, haux, if_neg Bool.false_ne_true, hskip, if_neg Bool.false_ne_true] at hwork
  exact Or.inl ⟨haux, by rw [hwork]; rfl⟩

/-- **The verified headers.** Of the headers that `connectHdr` connects with `skip_pow` off, those
without a verified proof of work are the ones with the AuxPoW bit that come as bare 80 bytes. -/
theorem connectHdr_verified_iff {r : ConnectResult} (hskip : db.skipPow = false)
    (hr : connectHdr pf db buf false = some r) (hconn : r.connected = true) :
    ∃ h rest, blockHeaderParse buf = some (h, rest) ∧
      (VerifiedHeader pf db.params h ↔ ¬ (buf.length = 80 ∧ isAuxpow h.base.version = true)) := by
  obtain ⟨a, -, hattach, -, -⟩ := connectHdr_connected hr hconn
  obtain ⟨h, tip, parent, pp, work, ha⟩ := attachHeader_eq_ok hattach
  obtain ⟨checked, hdes, hwork⟩ := ha.deserialized
  obtain ⟨hparse, hval⟩ := blockHeaderDeserialize_eq_some hdes
  refine ⟨h, a.rest, hparse, ?_⟩
  obtain ⟨rest', hbase, hcases⟩ := blockHeaderParse_eq_some hparse
  have hlen : buf.length = rest'.length + 80 := baseHeaderDeserialize_length hbase
  rcases hcases with ⟨p, hp, -, -, hne, -⟩ | ⟨hp, -, -, hbit⟩
  · constructor
    · rintro - ⟨h80, -⟩
      omega
    · exact fun _ => verified_of_payload hp hval
  · constructor
    · rintro (⟨haux, -⟩ | ⟨p, hp', -⟩) ⟨-, hbit'⟩
      · rw [haux] at hbit'
        cases hbit'
      · rw [hp] at hp'
        cases hp'
    · intro hno
      rcases hbit with haux | h0
      · exact verified_of_headerWork hskip haux hwork
      · cases haux : isAuxpow h.base.version with
        | false => exact verified_of_headerWork hskip haux hwork
        | true => exact absurd ⟨by omega, haux⟩ hno

/-- A bare header on the genesis block whose version has the AuxPoW bit. -/
def bareAuxpowHeader : BlockHeader :=
  sampleHeader 0x00620104 dogecoinChainparamsMain.genesisblockhash (Uint256.ofNat 1) 0

/-- A new database connects the bare header. -/
theorem bareAuxpowHeader_connected :
    ∃ r, connectHdr samplePlatform (new dogecoinChainparamsMain true)
      (blockHeaderSerialize bareAuxpowHeader) false = some r ∧ r.connected = true :=
  (Option.any_eq_true _ _).mp (by decide +kernel)

/-- The theorem on a run: a bare header with the AuxPoW bit, received as the first one. -/
theorem connectHdr_verified_iff_bare :
    ∃ h rest, blockHeaderParse (blockHeaderSerialize bareAuxpowHeader) = some (h, rest) ∧
      (VerifiedHeader samplePlatform (new dogecoinChainparamsMain true).params h ↔
        ¬ ((blockHeaderSerialize bareAuxpowHeader).length = 80 ∧
          isAuxpow h.base.version = true)) := by
  obtain ⟨r, hr, hconn⟩ := bareAuxpowHeader_connected
  exact connectHdr_verified_iff rfl hr hconn

/-- Nothing was checked of the bare header that a new database connects. -/
theorem connectHdr_accepts_bareAuxpow :
    ¬ ∀ (pf : Platform) (db : HeadersDb) (buf : Bytes) (r : ConnectResult), db.skipPow = false →
      connectHdr pf db buf false = some r → r.connected = true →
      ∃ h rest, blockHeaderParse buf = some (h, rest) ∧ VerifiedHeader pf db.params h := by
  intro hall
  obtain ⟨r, hr, hconn⟩ := bareAuxpowHeader_connected
  obtain ⟨h, rest, hparse, hver⟩ := hall _ _ _ r rfl hr hconn
  rw [blockHeaderParse_serialize] at hparse
  obtain ⟨rfl, -⟩ : _ ∧ _ := by simpa using hparse
  rcases hver with ⟨haux, -⟩ | ⟨p, hp, -⟩
  · revert haux
    decide
  · cases hp

end HeadersDb

end Libdogecoin
