/-
# The curve

The functions of `secp256k1` that keys, signatures and child keys rest on, as a parameter, and the
wrappers of `ecc.c` around them. A private key and a tweak are 32 bytes, a public key is the 33
bytes of its compressed form.

* `Secp256k1.SignLaws`, `Secp256k1.TweakLaws` : what is documented of signing and of tweaking.
-/
import Libdogecoin.Serialize

namespace Libdogecoin

/-- The functions of the curve. -/
structure Secp256k1 where
  /-- `secp256k1_ec_seckey_verify`. -/
  seckeyVerify : Bytes → Bool
  /-- `secp256k1_ec_pubkey_create`, serialized. -/
  pubkeyCreate : Bytes → Option Bytes
  /-- `secp256k1_ec_privkey_tweak_add`, with what it leaves in the key. -/
  privkeyTweakAdd : Bytes → Bytes → Bytes × Bool
  /-- `secp256k1_ec_pubkey_tweak_add` between parsing and serializing. -/
  pubkeyTweakAdd : Bytes → Bytes → Option Bytes
  /-- `secp256k1_ecdsa_sign_recoverable` : the compact signature and its recovery id. -/
  signRecoverable : Bytes → Uint256 → Option (Bytes × ℕ)
  /-- `secp256k1_ecdsa_recover` on a compact signature and a recovery id. -/
  recover : Bytes → ℕ → Uint256 → Option Bytes
  /-- `secp256k1_ecdsa_verify` of a compact signature by a key. -/
  verify : Bytes → Uint256 → Bytes → Bool

/-- The order of the group. -/
def groupOrder : ℕ := 0xfffffffffffffffffffffffffffffffebaaedce6af48a03bbfd25e8cd0364141

/-- A digest is signed as a scalar. -/
def digestScalar (digest : Uint256) : ℕ := LittleEndian.ofBytes digest.1.reverse % groupOrder

namespace Secp256k1

variable (cv : Secp256k1)

/-- `dogecoin_ecc_verify_privatekey`. -/
def eccVerifyPrivatekey (key : Bytes) : Bool := cv.seckeyVerify key

/-- `dogecoin_ecc_get_pubkey` : zeros if there is no public key. -/
def eccGetPubkey (key : Bytes) : Bytes := (cv.pubkeyCreate key).getD (List.replicate 33 0)

/-- `dogecoin_ecc_private_key_tweak_add`. -/
def eccPrivateKeyTweakAdd (key tweak : Bytes) : Bytes × Bool := cv.privkeyTweakAdd key tweak

/-- `dogecoin_ecc_public_key_tweak_add` : the key stays where it fails. -/
def eccPublicKeyTweakAdd (pubkey tweak : Bytes) : Bytes × Bool :=
  match cv.pubkeyTweakAdd pubkey tweak with
  | none => (pubkey, false)
  | some pubkey => (pubkey, true)

/-- What is documented of signing: the key is recovered from its own signatures, the signature is
valid for it, and a signature gives one key for at most one scalar. -/
structure SignLaws : Prop where
  length_sign : ∀ {key : Bytes} {digest : Uint256} {sig : Bytes} {recid : ℕ},
    cv.signRecoverable key digest = some (sig, recid) → sig.length = 64 ∧ recid < 4
  recover_sign : ∀ {key : Bytes} {digest : Uint256} {sig : Bytes} {recid : ℕ},
    cv.signRecoverable key digest = some (sig, recid) →
      cv.recover sig recid digest = some (cv.eccGetPubkey key)
  verify_sign : ∀ {key : Bytes} {digest : Uint256} {sig : Bytes} {recid : ℕ},
    cv.signRecoverable key digest = some (sig, recid) →
      cv.verify (cv.eccGetPubkey key) digest sig = true
  digest_of_recover : ∀ {sig : Bytes} {recid : ℕ} {digest digest' : Uint256} {pubkey : Bytes},
    cv.recover sig recid digest = some pubkey → cv.recover sig recid digest' = some pubkey →
      digestScalar digest = digestScalar digest'

/-- What is documented of tweaks: adding a valid tweak commutes with taking the public key. -/
structure TweakLaws : Prop where
  tweak_comm : ∀ {key tweak key' : Bytes}, cv.seckeyVerify key = true →
    cv.seckeyVerify tweak = true →
    cv.privkeyTweakAdd key tweak = (key', true) →
      cv.pubkeyTweakAdd (cv.eccGetPubkey key) tweak = some (cv.eccGetPubkey key')
  verify_tweak : ∀ {key tweak key' : Bytes}, cv.seckeyVerify key = true →
    cv.privkeyTweakAdd key tweak = (key', true) → cv.seckeyVerify key' = true

end Secp256k1

end Libdogecoin
