/-
# Which outputs a wallet takes for its own

`dogecoin_wallet_txout_is_mine` looks up the first 20 bytes of whatever the classifier found in a
script: the hash of a key, the hash of a script, or a key itself.

* `classify_data_cases` : what the classifier found, by the template of the script;
* `txoutIsMine_owns_iff` : when the answer is that the wallet has a key that spends the output.
-/
import Libdogecoin.ScriptClassify
import Libdogecoin.WalletBalance

namespace Libdogecoin

/-! ## One template at most -/

variable {ops : List ScriptOp} {hash : Bytes}

theorem scriptIsPubkeyhash_eq_some (h : scriptIsPubkeyhash ops = some hash) :
    ops.length = 5 ∧ hash.length = 20 := by
  unfold scriptIsPubkeyhash at h
  split at h
  next dup hash160 pubkeyhash equalverify checksig =>
    split_ifs at h with htemplate
    have hpush := htemplate.2.2.1
    rw [ScriptOp.isOpPubkeyhash, Bool.and_eq_true, decide_eq_true_eq] at hpush
    exact ⟨rfl, (Option.some.inj h) ▸ hpush.2⟩
  next => cases h

theorem scriptIsScripthash_eq_some (h : scriptIsScripthash ops = some hash) :
    ops.length = 3 ∧ hash.length = 20 := by
  unfold scriptIsScripthash at h
  split at h
  next hash160 scripthash equal =>
    split_ifs at h with htemplate
    have hpush := htemplate.2.1
    rw [ScriptOp.isOpPubkeyhash, Bool.and_eq_true, decide_eq_true_eq] at hpush
    exact ⟨rfl, (Option.some.inj h) ▸ hpush.2⟩
  next => cases h

theorem scriptIsPubkey_eq_some {pubkey : Bytes} (h : scriptIsPubkey ops = some pubkey) :
    ops.length = 2 := by
  unfold scriptIsPubkey at h
  split at h
  next => rfl
  next => cases h

theorem eq_none_of_length {β : Type} {f : List ScriptOp → Option β} {n : ℕ}
    (hf : ∀ ⦃ops b⦄, f ops = some b → ops.length = n) (hlen : ops.length ≠ n) : f ops = none := by
  cases h : f ops with
  | none => rfl
  | some b => exact absurd (hf h) hlen

/-- **The data that is found** in the operations of a script: that of one template, or nothing. -/
theorem classify_data_cases (script : Bytes) :
    (∃ hash : Uint160, scriptIsPubkeyhash (scriptGetOps script).1 = some hash.1 ∧
      (scriptClassify script).2 = [hash.1] ∧
        scriptIsScripthash (scriptGetOps script).1 = none ∧
        scriptIsPubkey (scriptGetOps script).1 = none) ∨
      (∃ hash : Uint160, scriptIsScripthash (scriptGetOps script).1 = some hash.1 ∧
        (scriptClassify script).2 = [hash.1] ∧ scriptIsPubkeyhash (scriptGetOps script).1 = none ∧
        scriptIsPubkey (scriptGetOps script).1 = none) ∨
      (∃ pubkey, scriptIsPubkey (scriptGetOps script).1 = some pubkey ∧
        (scriptClassify script).2 = [pubkey] ∧
        scriptIsPubkeyhash (scriptGetOps script).1 = none ∧
        scriptIsScripthash (scriptGetOps script).1 = none) ∨
      scriptIsPubkeyhash (scriptGetOps script).1 = none ∧
      scriptIsScripthash (scriptGetOps script).1 = none ∧
        scriptIsPubkey (scriptGetOps script).1 = none ∧ (scriptClassify script).2 = [] := by
  unfold scriptClassify
  dsimp only
  generalize (scriptGetOps script).1 = ops
  have hpubkeyhash : ops.length ≠ 5 → scriptIsPubkeyhash ops = none :=
    eq_none_of_length fun _ _ h => (scriptIsPubkeyhash_eq_some h).1
  have hscripthash : ops.length ≠ 3 → scriptIsScripthash ops = none :=
    eq_none_of_length fun _ _ h => (scriptIsScripthash_eq_some h).1
  have hpubkey : ops.length ≠ 2 → scriptIsPubkey ops = none := eq_none_of_length fun _ _ h =>
    scriptIsPubkey_eq_some h
  -- the templates have different lengths, so no two of them match
  cases hfirst : scriptIsPubkeyhash ops with
  | some hash =>
    obtain ⟨hlen, hsize⟩ := scriptIsPubkeyhash_eq_some hfirst
    rw [hscripthash (by omega), hpubkey (by omega)]
    exact Or.inl ⟨⟨hash, hsize⟩, rfl, rfl, rfl, rfl⟩
  | none =>
    cases hsecond : scriptIsScripthash ops with
    | some hash =>
      obtain ⟨hlen, hsize⟩ := scriptIsScripthash_eq_some hsecond
      rw [hpubkey (by omega)]
      exact Or.inr (Or.inl ⟨⟨hash, hsize⟩, rfl, rfl, rfl, rfl⟩)
    | none =>
      cases hthird : scriptIsPubkey ops with
      | some pubkey => exact Or.inr (Or.inr (Or.inl ⟨pubkey, rfl, rfl, rfl, rfl⟩))
      | none => exact Or.inr (Or.inr (Or.inr ⟨rfl, rfl, rfl, rfl⟩))

namespace Wallet

/-- The wallet has an address with this hash. -/
def Stores (w : Wallet) (hash : Uint160) : Prop := (w.waddrTree.find hash).isSome = true

/-- The first bytes of a buffer are the hash of an address of the wallet. -/
def StoresFirst (w : Wallet) (bytes : Bytes) :
    Prop := ∃ hash : Uint160, hash.1 = bytes.take 20 ∧ w.Stores hash

theorem haveKey_iff {w : Wallet} {bytes : Bytes} :
    w.haveKey bytes = true ↔ w.StoresFirst bytes := by
  unfold haveKey
  constructor
  · intro h
    split_ifs at h with hlen
    exact ⟨⟨bytes.take 20, hlen⟩, rfl, h⟩
  · rintro ⟨hash, heq, hstores⟩
    have hlen : (bytes.take 20).length = 20 := heq ▸ hash.2
    obtain rfl : hash = ⟨bytes.take 20, hlen⟩ := Subtype.ext heq
    rw [dif_pos hlen]
    exact hstores

theorem storesFirst_hash {w : Wallet} {hash : Uint160} : w.StoresFirst hash.1 ↔ w.Stores hash := by
  have htake : hash.1.take 20 = hash.1 := List.take_of_length_le hash.2.le
  constructor
  · rintro ⟨hash', heq, hstores⟩
    obtain rfl : hash' = hash := Subtype.ext (heq.trans htake)
    exact hstores
  · exact fun hstores => ⟨hash, htake.symm, hstores⟩

variable (kp : KeyPlatform)

/-- The wallet has a key that spends the script: the whole of it pays to the hash of a key or to a
key. -/
def Owns (w : Wallet) (script : Bytes) : Prop :=
  (scriptGetOps script).2 = true ∧
    ((∃ hash : Uint160, scriptIsPubkeyhash (scriptGetOps script).1 = some hash.1 ∧ w.Stores hash) ∨
      ∃ pubkey, scriptIsPubkey (scriptGetOps script).1 = some pubkey ∧
        w.Stores (kp.getHash160 pubkey))

/-- What must be so of a script and a wallet for the first 20 bytes to tell: no break behind the
template, no script hash that is also the hash of a key, and no key that begins as a hash does
unless its own hash is stored. -/
structure FirstBytesTell (w : Wallet) (script : Bytes) : Prop where
  pubkeyhash : ∀ hash : Uint160, scriptIsPubkeyhash (scriptGetOps script).1 = some hash.1 →
    w.Stores hash →
    (scriptGetOps script).2 = true
  scripthash : ∀ hash : Uint160, scriptIsScripthash (scriptGetOps script).1 = some hash.1 →
    ¬ w.Stores hash
  pubkey : ∀ pubkey, scriptIsPubkey (scriptGetOps script).1 = some pubkey →
    (w.StoresFirst pubkey ↔ (scriptGetOps script).2 = true ∧ w.Stores (kp.getHash160 pubkey))

section
variable {kp} {w : Wallet} {script : Bytes}

theorem firstBytesTell_iff : w.FirstBytesTell kp script ↔
    (∀ hash : Uint160, scriptIsPubkeyhash (scriptGetOps script).1 = some hash.1 → w.Stores hash →
      (scriptGetOps script).2 = true) ∧
    (∀ hash : Uint160, scriptIsScripthash (scriptGetOps script).1 = some hash.1 → ¬ w.Stores hash) ∧
    ∀ pubkey, scriptIsPubkey (scriptGetOps script).1 = some pubkey →
      (w.StoresFirst pubkey ↔ (scriptGetOps script).2 = true ∧
        w.Stores (kp.getHash160 pubkey)) := by
  constructor
  · exact fun h => ⟨h.pubkeyhash, h.scripthash, h.pubkey⟩
  · exact fun ⟨hpubkeyhash, hscripthash, hpubkey⟩ => ⟨hpubkeyhash, hscripthash, hpubkey⟩

/-- A payment to the hash of a key. -/
theorem owns_pubkeyhash {hash : Uint160}
    (hp : scriptIsPubkeyhash (scriptGetOps script).1 = some hash.1)
    (hs : scriptIsScripthash (scriptGetOps script).1 = none)
    (hk : scriptIsPubkey (scriptGetOps script).1 = none) :
    (w.Owns kp script ↔ (scriptGetOps script).2 = true ∧ w.Stores hash) ∧
      (w.FirstBytesTell kp script ↔ (w.Stores hash → (scriptGetOps script).2 = true)) := by
  rw [firstBytesTell_iff]
  unfold Owns
  constructor
  · simp [hp, hk, ← Subtype.ext_iff]
  · simp [hp, hs, hk, ← Subtype.ext_iff]

/-- A payment to the hash of a script. -/
theorem owns_scripthash {hash : Uint160}
    (hs : scriptIsScripthash (scriptGetOps script).1 = some hash.1)
    (hp : scriptIsPubkeyhash (scriptGetOps script).1 = none)
    (hk : scriptIsPubkey (scriptGetOps script).1 = none) :
    ¬ w.Owns kp script ∧ (w.FirstBytesTell kp script ↔ ¬ w.Stores hash) := by
  rw [firstBytesTell_iff]
  unfold Owns
  constructor
  · simp [hp, hk]
  · simp [hp, hs, hk, ← Subtype.ext_iff]

/-- A payment to a key. -/
theorem owns_pubkey {pubkey : Bytes} (hk : scriptIsPubkey (scriptGetOps script).1 = some pubkey)
    (hp : scriptIsPubkeyhash (scriptGetOps script).1 = none)
    (hs : scriptIsScripthash (scriptGetOps script).1 = none) :
    (w.Owns kp script ↔ (scriptGetOps script).2 = true ∧ w.Stores (kp.getHash160 pubkey)) ∧
      (w.FirstBytesTell kp script ↔
        (w.StoresFirst pubkey ↔ (scriptGetOps script).2 = true ∧
          w.Stores (kp.getHash160 pubkey))) := by
  rw [firstBytesTell_iff]
  unfold Owns
  constructor
  · simp [hp, hk]
  · simp [hp, hs, hk]

/-- Any other script. -/
theorem owns_other (hp : scriptIsPubkeyhash (scriptGetOps script).1 = none)
    (hs : scriptIsScripthash (scriptGetOps script).1 = none)
    (hk : scriptIsPubkey (scriptGetOps script).1 = none) :
    ¬ w.Owns kp script ∧ w.FirstBytesTell kp script := by
  rw [firstBytesTell_iff]
  unfold Owns
  constructor
  · simp [hp, hk]
  · simp [hp, hs, hk]

end

/-- **The answer of a wallet** to whether an output is its own is that it has a key that spends the
output, if and only if the first 20 bytes of what is found in the script tell. -/
theorem txoutIsMine_owns_iff (w : Wallet) (txOut : TxOut) :
    (w.txoutIsMine txOut = true ↔ w.Owns kp txOut.scriptPubkey) ↔
    w.FirstBytesTell kp txOut.scriptPubkey := by
  unfold txoutIsMine
  generalize txOut.scriptPubkey = script
  rcases classify_data_cases script with ⟨hash, hp, hdata, hs, hk⟩ | ⟨hash, hs, hdata, hp, hk⟩ |
    ⟨pubkey, hk, hdata, hp, hs⟩ | ⟨hp, hs, hk, hdata⟩
  · obtain ⟨howns, htell⟩ := @owns_pubkeyhash kp w script hash hp hs hk
    rw [hdata, howns, htell]
    dsimp only
    rw [haveKey_iff, storesFirst_hash]
    tauto
  -- the wallet has keys only, and no script that is redeemed
  · obtain ⟨hnot, htell⟩ := @owns_scripthash kp w script hash hs hp hk
    rw [hdata, htell]
    dsimp only
    rw [haveKey_iff, storesFirst_hash, iff_false_intro hnot, iff_false]
  · obtain ⟨howns, htell⟩ := @owns_pubkey kp w script pubkey hk hp hs
    rw [hdata, howns, htell]
    dsimp only
    rw [haveKey_iff]
  · obtain ⟨hnot, htell⟩ := @owns_other kp w script hp hs hk
    rw [hdata]
    exact iff_of_true (iff_of_false Bool.false_ne_true hnot) htell

/-- The script that pays to the hash of a script. -/
def sampleScripthash : Bytes := [opHash160, 20] ++ List.replicate 20 1 ++ [opEqual]

/-- A payment to the hash of a script that is also the hash of a key of the wallet. -/
theorem not_txoutIsMine_owns : ¬ ∀ (kp : KeyPlatform) (w : Wallet) (txOut : TxOut),
    w.txoutIsMine txOut = true ↔ w.Owns kp txOut.scriptPubkey := by
  intro hall
  have hmine : sampleOwner.txoutIsMine ⟨1, sampleScripthash⟩ = true := by decide +kernel
  obtain ⟨-, ⟨hash, hp, -⟩ | ⟨pubkey, hk, -⟩⟩ :=
    (hall sampleKeys sampleOwner ⟨1, sampleScripthash⟩).mp hmine
  · have hnone : scriptIsPubkeyhash (scriptGetOps sampleScripthash).1 = none := by decide
    exact absurd (hp.symm.trans hnone) (Option.some_ne_none _)
  · have hnone : scriptIsPubkey (scriptGetOps sampleScripthash).1 = none := by decide
    exact absurd (hk.symm.trans hnone) (Option.some_ne_none _)

end Wallet

end Libdogecoin
