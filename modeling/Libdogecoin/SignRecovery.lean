/-
# What is handed to the recovery of a key

`verify_message` of `sign.c` takes a header byte from 27 to 42, and looks neither at the number of
bytes that were decoded nor at the recovery id. libsecp256k1 takes the recovery ids from 0 to 3. The
size of the buffer for the decoded bytes is counted in 32 bits.

* `fitsBuffer_of_lt` : texts of less than `2 ^ 32 / 3` characters are decoded within the buffer;
* `recovery_guarded_iff` : exactly when nothing but a signature is handed over.
-/
import Libdogecoin.SignMessage

namespace Libdogecoin

namespace SignRecovery

/-- What `base64_decode` decodes. It takes the number of characters as an `unsigned int`. -/
def decodedText (sig : Bytes) : Bytes := base64Decode (sig.take (sig.length % 2 ^ 32))

/-- The header byte. `base64_decode` writes a zero behind what it decoded. -/
def headerByte (sig : Bytes) : ℕ := ((decodedText sig ++ [0]).headD 0).toNat

/-- The recovery id of a header. -/
def headerRecid (header : ℕ) : ℕ := (if 31 ≤ header then header - 4 else header) - 27

/-- The decoded bytes and the zero behind them fit into the buffer, of
`base64_decoded_size(encoded_length + 1) + 1` bytes. -/
def FitsBuffer (sig : Bytes) : Prop :=
  (decodedText sig).length ≤ (base64DecodedSize (UInt32.ofNat (sig.length + 1))).toNat

instance (sig : Bytes) : Decidable (FitsBuffer sig) := by
  unfold FitsBuffer
  infer_instance

/-- What `verify_message` hands to `dogecoin_key_recover_pubkey` : the decoded signature and the
recovery id. There is no result where it writes behind the buffer. -/
def handedToRecovery (sig : Bytes) : Option (Option (Bytes × ℕ)) :=
  if ¬ FitsBuffer sig then none
  else
    let header := headerByte sig
    some (if header < 27 ∨ 42 < header then none else some (decodedText sig, headerRecid header))

/-- `verify_message`, by what it hands over. `pastEnd` is what lies behind the zero. -/
def verifyMessageFrom (kp : KeyPlatform) (pastEnd sig msg address : Bytes) : Option Bool :=
  (handedToRecovery sig).map fun handed =>
    match handed with
    | none => false
    | some (decoded, recid) =>
      match keyRecoverPubkey kp (decoded ++ 0 :: pastEnd) (hashMessage kp msg) recid with
      | none => false
      | some pubkey =>
        if !kp.curve.verify pubkey (hashMessage kp msg)
          (((decoded ++ 0 :: pastEnd).drop 1).take 64) then false
        else decide (kp.pubkeyGetaddrP2pkh pubkey (chainFromB58Prefix address) = address)

/-- The text of a signature: it decodes to 65 bytes whose header stands for a recovery id of
libsecp256k1. -/
structure IsSignature (sig : Bytes) : Prop where
  length_eq : (decodedText sig).length = 65
  header : 27 ≤ headerByte sig ∧ headerByte sig ≤ 42
  recid : headerRecid (headerByte sig) ≤ 3

/-- Only signatures are handed over, with their recovery ids, and every other text is refused. -/
structure Guarded (kp : KeyPlatform) (sig : Bytes) : Prop where
  handed : ∀ decoded recid, handedToRecovery sig = some (some (decoded, recid)) →
    decoded.length = 65 ∧ recid ≤ 3
  refused : ¬ IsSignature sig → ∀ pastEnd msg address,
    verifyMessageFrom kp pastEnd sig msg address = some false

/-- The headers that the call takes and libsecp256k1 does not begin with 35. -/
theorem headerRecid_le_iff {header : ℕ} (h : header ≤ 42) :
    headerRecid header ≤ 3 ↔ header ≤ 34 := by
  unfold headerRecid
  split
  · omega
  · omega

theorem length_text (sig : Bytes) :
    (sig.take (sig.length % 2 ^ 32)).length = sig.length % 2 ^ 32 := by
  rw [List.length_take]
  exact Nat.min_eq_left (Nat.mod_le _ _)

theorem toNat_bufferSize (sig : Bytes) :
    (base64DecodedSize (UInt32.ofNat (sig.length + 1))).toNat = 3 * ((sig.length + 1) % 2 ^ 32) %
    2 ^ 32 / 4 := by
  rw [base64DecodedSize, UInt32.toNat_div, UInt32.toNat_mul]
  rfl

/-- The product is not cut for a text of less than `2 ^ 32 / 3` characters. -/
theorem fitsBuffer_of_lt {sig : Bytes} (h : sig.length % 2 ^ 32 < 1431655765) : FitsBuffer sig := by
  have hdecoded := length_base64Decode_le (sig.take (sig.length % 2 ^ 32))
  rw [length_text] at hdecoded
  have hsucc : (sig.length + 1) % 2 ^ 32 = sig.length % 2 ^ 32 + 1 := by omega
  unfold FitsBuffer decodedText
  rw [toNat_bufferSize, hsucc, Nat.mod_eq_of_lt (by omega : 3 * (sig.length % 2 ^ 32 + 1) < 2 ^ 32)]
  omega

/-- Few bytes come from a short text. -/
theorem fitsBuffer_of_length {sig : Bytes} (h : (decodedText sig).length = 65) :
    FitsBuffer sig := by
  have hdecoded := le_length_base64Decode (sig.take (sig.length % 2 ^ 32))
  rw [length_text] at hdecoded
  have hlen : (base64Decode (sig.take (sig.length % 2 ^ 32))).length = 65 := h
  exact fitsBuffer_of_lt (by omega)

/-- **What is handed to the recovery.** Nothing but signatures, if and only if the decoded bytes fit
into the buffer, and the header is refused, or 65 bytes were decoded and the header is at most
34. -/
theorem recovery_guarded_iff (kp : KeyPlatform) (sig : Bytes) :
    Guarded kp sig ↔ FitsBuffer sig ∧ ((headerByte sig < 27 ∨ 42 < headerByte sig) ∨
      (decodedText sig).length = 65 ∧ headerByte sig ≤ 34) := by
  by_cases hfits : FitsBuffer sig
  swap
  · -- such a text is no signature, and there is no result for it
    refine iff_of_false (fun h => ?_) (fun h => hfits h.1)
    have hnone : handedToRecovery sig = none := if_pos hfits
    have hresult := h.refused (fun hsig => hfits (fitsBuffer_of_length hsig.length_eq)) [] [] []
    rw [verifyMessageFrom, hnone] at hresult
    cases hresult
  rw [and_iff_right hfits]
  by_cases hrange : headerByte sig < 27 ∨ 42 < headerByte sig
  · have hnone : handedToRecovery sig = some none := by
      rw [handedToRecovery, if_neg (not_not_intro hfits)]
      exact congrArg some (if_pos hrange)
    refine iff_of_true ⟨?_, ?_⟩ (Or.inl hrange)
    · intro decoded recid h
      rw [hnone] at h
      cases h
    · intro _ pastEnd msg address
      rw [verifyMessageFrom, hnone]
      rfl
  · have hsome : handedToRecovery sig =
      some (some (decodedText sig, headerRecid (headerByte sig))) := by
      rw [handedToRecovery, if_neg (not_not_intro hfits)]
      exact congrArg some (if_neg hrange)
    obtain ⟨hlow, hhigh⟩ := not_or.mp hrange
    rw [not_lt] at hlow hhigh
    rw [or_iff_right hrange]
    constructor
    · intro h
      obtain ⟨hlen, hrecid⟩ := h.handed _ _ hsome
      exact ⟨hlen, (headerRecid_le_iff hhigh).mp hrecid⟩
    · rintro ⟨hlen, hheader⟩
      have hrecid := (headerRecid_le_iff hhigh).mpr hheader
      refine ⟨?_, fun hnot => absurd ⟨hlen, ⟨hlow, hhigh⟩, hrecid⟩ hnot⟩
      intro decoded recid h
      rw [hsome] at h
      obtain ⟨rfl, rfl⟩ := Prod.mk.inj (Option.some.inj (Option.some.inj h))
      exact ⟨hlen, hrecid⟩

/-- The text `Iw==` decodes to the byte 35 alone, and the recovery id 4 is handed over with it. -/
theorem not_guarded : ¬ ∀ (kp : KeyPlatform) (sig : Bytes), Guarded kp sig := by
  intro hall
  have h := (hall sampleKeys [73, 119, 61, 61]).handed [35] 4 (by decide)
  exact absurd h.2 (by decide)

end SignRecovery

end Libdogecoin
