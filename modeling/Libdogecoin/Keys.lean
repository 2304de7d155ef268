/-
# Keys and addresses

The parts of `chainparams.c`, `key.c` and `bip32.c` that turn a public key into an address.
RIPEMD-160 and Base58Check are vendored and stand as parameters.
-/
import Libdogecoin.Block
import Libdogecoin.Secp256k1

namespace Libdogecoin

/-- A `uint160_t`. -/
abbrev Uint160 := {l : Bytes // l.length = 20}

/-- What keys and addresses take from outside. -/
structure KeyPlatform extends Platform where
  curve : Secp256k1
  /-- `rmd160`. -/
  rmd160 : Bytes → Uint160
  /-- `hmac_sha512` : the key, then the data. -/
  hmacSha512 : Bytes → Bytes → {l : Bytes // l.length = 64}
  /-- `dogecoin_base58_encode_check`. -/
  base58EncodeCheck : Bytes → Bytes
  /-- `dogecoin_privkey_decode_wif` : the key in a string. -/
  privkeyDecodeWif : Bytes → Option Bytes

/-- The fields of `dogecoin_chainparams` that addresses and extended keys read. -/
structure KeyParams where
  b58prefixPubkeyAddress : UInt8
  b58prefixScriptAddress : UInt8
  b58prefixBip32Privkey : UInt32
  b58prefixBip32Pubkey : UInt32
  deriving DecidableEq

/-- The fields of `dogecoin_chainparams_main`. -/
def keyParamsMain : KeyParams where
  b58prefixPubkeyAddress := 0x1e
  b58prefixScriptAddress := 0x16
  b58prefixBip32Privkey := 0x02fac398
  b58prefixBip32Pubkey := 0x02facafd

/-- The fields of `dogecoin_chainparams_test`. -/
def keyParamsTest : KeyParams where
  b58prefixPubkeyAddress := 0x71
  b58prefixScriptAddress := 0xc4
  b58prefixBip32Privkey := 0x04358394
  b58prefixBip32Pubkey := 0x043587cf

/-- The fields of `dogecoin_chainparams_regtest`. -/
def keyParamsRegtest : KeyParams where
  b58prefixPubkeyAddress := 0x6f
  b58prefixScriptAddress := 0xc4
  b58prefixBip32Privkey := 0x04358394
  b58prefixBip32Pubkey := 0x043587cf

/-- `chain_from_b58_prefix` : the chain that the first character of an address stands for. -/
def chainFromB58Prefix (address : Bytes) : KeyParams :=
  let first := Char.ofNat ((address.headD 0).toNat)
  if first = 'n' then keyParamsTest
  else if first = 'm' then keyParamsRegtest
  else if first ∈ ['9', 'A', 'd', 'D', 'Q', '6'] then keyParamsMain
  else keyParamsTest

namespace KeyPlatform

variable (kp : KeyPlatform)

/-- `dogecoin_pubkey_get_hash160` and `dogecoin_hdnode_get_hash160` on a compressed key. -/
def getHash160 (pubkey : Bytes) : Uint160 := kp.rmd160 (kp.sha256Raw pubkey).1

/-- `dogecoin_p2pkh_addr_from_hash160`. -/
def p2pkhAddrFromHash160 (hash : Uint160) (chain : KeyParams) : Bytes :=
  kp.base58EncodeCheck (chain.b58prefixPubkeyAddress :: hash.1)

/-- `dogecoin_pubkey_getaddr_p2pkh`, with the string that is left in `addrout`. -/
def pubkeyGetaddrP2pkh (pubkey : Bytes) (chain : KeyParams) : Bytes :=
  kp.p2pkhAddrFromHash160 (kp.getHash160 pubkey) chain

end KeyPlatform

/-! ## Keys for runs on fixed inputs -/

/-- The sum of two numbers of 32 bytes. -/
def sampleAdd (a b : Bytes) : Bytes := LittleEndian.toBytes 32
    (LittleEndian.ofBytes a + LittleEndian.ofBytes b)

/-- A curve for runs on fixed inputs: a public key is the private key behind a 2, and a signature
holds the key and the digest. -/
def sampleCurve : Secp256k1 where
  seckeyVerify := fun key => decide (key.length = 32 ∧ key ≠ List.replicate 32 0)
  pubkeyCreate := fun key => some (2 :: key)
  privkeyTweakAdd := fun key tweak =>
    (sampleAdd key tweak, decide (sampleAdd key tweak ≠ List.replicate 32 0))
  pubkeyTweakAdd := fun pubkey tweak => some (2 :: sampleAdd (pubkey.drop 1) tweak)
  signRecoverable := fun key digest =>
    if key.length = 32 then some (key ++ digest.1, 0) else none
  recover := fun sig _ digest =>
    if h : (sig.drop 32).length = 32 then
      if digestScalar ⟨sig.drop 32, h⟩ = digestScalar digest then some (2 :: sig.take 32)
      else some (3 :: digest.1)
    else none
  verify := fun _ _ _ => true

theorem sampleCurve_signLaws : sampleCurve.SignLaws := by
  have hsign : ∀ {key : Bytes} {digest : Uint256} {sig : Bytes} {recid : ℕ},
      sampleCurve.signRecoverable key digest = some (sig, recid) →
        key.length = 32 ∧ sig = key ++ digest.1 ∧ recid = 0 := by
    intro key digest sig recid h
    unfold sampleCurve at h
    dsimp only at h
    split_ifs at h with hlen
    obtain ⟨rfl, rfl⟩ := Prod.mk.inj (Option.some.inj h)
    exact ⟨hlen, rfl, rfl⟩
  refine ⟨?_, ?_, ?_, ?_⟩
  · intro key digest sig recid h
    obtain ⟨hlen, rfl, rfl⟩ := hsign h
    rw [List.length_append, hlen, digest.2]
    exact ⟨rfl, by decide⟩
  · intro key digest sig recid h
    obtain ⟨hlen, rfl, rfl⟩ := hsign h
    have hdrop : (key ++ digest.1).drop 32 = digest.1 := List.drop_left' hlen
    have htake : (key ++ digest.1).take 32 = key := List.take_left' hlen
    unfold sampleCurve
    dsimp only
    rw [dif_pos (by rw [hdrop, digest.2]), if_pos (by simp only [hdrop]), htake]
    rfl
  · intro key digest sig recid h
    rfl
  · intro sig recid digest digest' pubkey h h'
    unfold sampleCurve at h h'
    dsimp only at h h'
    by_cases hlen : (sig.drop 32).length = 32
    · rw [dif_pos hlen] at h h'
      split_ifs at h h' with h1 h2 h2
      · exact h1.symm.trans h2
      · exact absurd (List.cons.inj (Option.some.inj (h.trans h'.symm))).1 (by decide)
      · exact absurd (List.cons.inj (Option.some.inj (h.trans h'.symm))).1 (by decide)
      · rw [Subtype.ext (List.cons.inj (Option.some.inj (h.trans h'.symm))).2]
    · rw [dif_neg hlen] at h
      cases h

theorem sampleCurve_tweakLaws : sampleCurve.TweakLaws := by
  have hadd : ∀ {key tweak key' : Bytes}, sampleCurve.privkeyTweakAdd key tweak = (key', true) →
      key' = sampleAdd key tweak ∧ sampleAdd key tweak ≠ List.replicate 32 0 := by
    intro key tweak key' h
    obtain ⟨h1, h2⟩ := Prod.mk.inj h
    exact ⟨h1.symm, of_decide_eq_true h2⟩
  refine ⟨?_, ?_⟩
  · intro key tweak key' _ _ h
    rw [(hadd h).1]
    rfl
  · intro key tweak key' _ h
    obtain ⟨rfl, hne⟩ := hadd h
    exact decide_eq_true ⟨LittleEndian.length_toBytes 32 _, hne⟩

/-- Keys for runs on fixed inputs. -/
def sampleKeys : KeyPlatform where
  toPlatform := samplePlatform
  curve := sampleCurve
  rmd160 := fun bs => ⟨(bs ++ List.replicate 20 0).take 20, by
    rw [List.length_take, List.length_append, List.length_replicate]
    exact Nat.min_eq_left (Nat.le_add_left _ _)⟩
  hmacSha512 := fun _ _ => ⟨List.replicate 64 1, List.length_replicate⟩
  base58EncodeCheck := fun bs => bs
  privkeyDecodeWif := fun _ => some (List.replicate 32 1)

end Libdogecoin
