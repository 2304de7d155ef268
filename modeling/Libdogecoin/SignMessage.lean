/-
# Signed messages

`sign.c`. The string that is hashed holds the length of the message in one byte, and is itself
measured with `strlen`.

* `hashedBytes_eq` : what is hashed, by the length of the message modulo 256;
* `verifyMessage_signMessage` : a signature is accepted for its own message;
* `signsOneMessage_iff` : when what is hashed is the message, when two messages are told apart, and
  when a signature for one of them says nothing about the other.
-/
import Libdogecoin.Base64
import Libdogecoin.Keys

namespace Libdogecoin

/-- `msg_magic`. -/
def msgMagic : Bytes := "Dogecoin Signed Message:\n".toList.map fun ch => UInt8.ofNat ch.toNat

/-- `strlen` : the characters in front of the first NUL. -/
def cString (buf : Bytes) : Bytes := buf.takeWhile (· ≠ 0)

/-- The bytes that `hash_message` hands to `dogecoin_hash`. -/
def hashedBytes (msg : Bytes) : Bytes :=
  cString (UInt8.ofNat msgMagic.length :: msgMagic ++ UInt8.ofNat msg.length :: msg ++ [0])

/-- `hash_message`. -/
def hashMessage (kp : KeyPlatform) (msg : Bytes) : Uint256 := kp.sha256d (hashedBytes msg)

/-- `init_keypair`. The check that a signature of the key is valid for its public key is part of
what `privkeyDecodeWif` stands for. -/
def initKeypair (kp : KeyPlatform) (privkey : Bytes) : Option Bytes := do
  let key ← kp.privkeyDecodeWif privkey
  if kp.curve.eccVerifyPrivatekey key then some key else none

/-- `dogecoin_key_sign_hash_compact_recoverable_fcomp` : a header byte and the compact signature. -/
def signHashRecoverableFcomp (kp : KeyPlatform) (key : Bytes) (digest : Uint256) :
    Option (Bytes × ℕ) :=
  (kp.curve.signRecoverable key digest).map fun (sig, recid) =>
    (UInt8.ofNat (27 + recid + 4) :: sig, recid)

/-- `dogecoin_key_recover_pubkey` : the header byte is skipped. -/
def keyRecoverPubkey (kp : KeyPlatform) (sig : Bytes) (digest : Uint256) (recid : ℕ) :
    Option Bytes :=
  kp.curve.recover ((sig.drop 1).take 64) recid digest

/-- `sign_message`. -/
def signMessage (kp : KeyPlatform) (privkey msg : Bytes) : Option Bytes := do
  let digest := hashMessage kp msg
  let key ← initKeypair kp privkey
  let (sig, recid) ← signHashRecoverableFcomp kp key digest
  let _ ← keyRecoverPubkey kp sig digest recid
  some (base64Encode sig)

/-- `verify_message`. `pastEnd` is what lies behind the decoded signature. -/
def verifyMessage (kp : KeyPlatform) (pastEnd sig msg address : Bytes) : Bool :=
  let digest := hashMessage kp msg
  let decoded := base64Decode sig ++ pastEnd
  let header := (decoded.headD 0).toNat
  if header < 27 ∨ 42 < header then false
  else
    let recid := (if 31 ≤ header then header - 4 else header) - 27
    match keyRecoverPubkey kp decoded digest recid with
    | none => false
    | some pubkey =>
      if !kp.curve.verify pubkey digest ((decoded.drop 1).take 64) then false
      else decide (kp.pubkeyGetaddrP2pkh pubkey (chainFromB58Prefix address) = address)

/-! ## What is hashed -/

/-- `CompactSize`, as the format of signed messages has it. -/
def compactSize (n : ℕ) : Bytes :=
  if n < 253 then [UInt8.ofNat n]
  else if n < 2 ^ 16 then 253 :: LittleEndian.toBytes 2 n
  else if n < 2 ^ 32 then 254 :: LittleEndian.toBytes 4 n
  else 255 :: LittleEndian.toBytes 8 n

/-- The string that stands for a message: the magic text and the message, each behind its length. -/
def messageString (msg : Bytes) : Bytes :=
  compactSize msgMagic.length ++ msgMagic ++ (compactSize msg.length ++ msg)

theorem cString_of_not_mem {bs : Bytes} (h : 0 ∉ bs) (rest : Bytes) :
    cString (bs ++ 0 :: rest) = bs := by
  have hall : ∀ b ∈ bs, decide (b ≠ 0) = true := fun b hb =>
    decide_eq_true fun h0 => h (h0 ▸ hb)
  unfold cString
  rw [List.takeWhile_append_of_pos hall, List.takeWhile_cons_of_neg (by simp), List.append_nil]

theorem zero_not_mem_magic : (0 : UInt8) ∉ UInt8.ofNat msgMagic.length :: msgMagic := by
  decide +kernel

variable {msg privkey key sig pastEnd address : Bytes}

/-- **What is hashed.** The string ends at the length byte if that is zero. -/
theorem hashedBytes_eq (h : 0 ∉ msg) :
    hashedBytes msg = UInt8.ofNat msgMagic.length :: msgMagic ++
      if 256 ∣ msg.length then [] else UInt8.ofNat msg.length :: msg := by
  unfold hashedBytes
  rw [List.append_assoc]
  split_ifs with hdvd
  · have hzero : UInt8.ofNat msg.length = 0 := by
      apply UInt8.toNat_inj.mp
      rw [UInt8.toNat_ofNat']
      exact Nat.mod_eq_zero_of_dvd hdvd
    rw [hzero, List.append_nil]
    exact cString_of_not_mem zero_not_mem_magic _
  · have hlen : (0 : UInt8) ∉ UInt8.ofNat msg.length :: msg := by
      rw [List.mem_cons, not_or]
      refine ⟨fun h0 => hdvd ?_, h⟩
      have hmod := congrArg UInt8.toNat h0
      rw [UInt8.toNat_ofNat'] at hmod
      exact Nat.dvd_of_mod_eq_zero hmod.symm
    rw [← List.append_assoc]
    refine cString_of_not_mem ?_ []
    rw [List.mem_append, not_or]
    exact ⟨zero_not_mem_magic, hlen⟩

theorem compactSize_ne_nil (n : ℕ) : compactSize n ≠ [] := by
  unfold compactSize
  split_ifs
  · simp
  · simp
  · simp
  · simp

theorem length_compactSize_ne {n : ℕ} (h : 253 ≤ n) : (compactSize n).length ≠ 1 := by
  unfold compactSize
  rw [if_neg (Nat.not_lt.mpr h)]
  split_ifs
  · simp
  · simp
  · simp

/-- The string is the one of the format for messages of 1 to 252 bytes. -/
theorem hashedBytes_eq_messageString_iff (h : 0 ∉ msg) :
    hashedBytes msg = messageString msg ↔ 0 < msg.length ∧ msg.length < 253 := by
  have hmagic : compactSize msgMagic.length = [UInt8.ofNat msgMagic.length] := by decide +kernel
  rw [hashedBytes_eq h, messageString, hmagic]
  show UInt8.ofNat msgMagic.length :: msgMagic ++ _ = UInt8.ofNat msgMagic.length ::
    msgMagic ++ _ ↔ _
  rw [List.append_cancel_left_eq]
  split_ifs with hdvd
  · constructor
    · intro heq
      exact absurd (List.append_eq_nil_iff.mp heq.symm).1 (compactSize_ne_nil _)
    · rintro ⟨hpos, hlt⟩
      exact absurd (Nat.le_of_dvd hpos hdvd) (by omega)
  · constructor
    · intro heq
      refine ⟨Nat.pos_of_ne_zero fun h0 => hdvd (h0 ▸ Nat.dvd_zero 256), ?_⟩
      by_contra hge
      have hlen := congrArg List.length heq
      rw [List.length_cons, List.length_append] at hlen
      exact length_compactSize_ne (Nat.le_of_not_lt hge) (by omega)
    · rintro ⟨-, hlt⟩
      rw [compactSize, if_pos hlt]
      rfl

/-- Two messages are hashed alike if and only if both have a length that is divided by 256. -/
theorem hashedBytes_ne_iff {msg' : Bytes} (h : 0 ∉ msg) (h' : 0 ∉ msg') (hne : msg ≠ msg') :
    hashedBytes msg ≠ hashedBytes msg' ↔ ¬ (256 ∣ msg.length ∧ 256 ∣ msg'.length) := by
  rw [hashedBytes_eq h, hashedBytes_eq h', Ne, List.append_cancel_left_eq, not_iff_not]
  constructor
  · intro heq
    split_ifs at heq with h1 h2 h2
    · exact ⟨h1, h2⟩
    · exact absurd (List.cons.inj heq).2 hne
  · rintro ⟨h1, h2⟩
    rw [if_pos h1, if_pos h2]

/-! ## What a signature says -/

variable {kp : KeyPlatform}

/-- The address is the one of the key, on the chain that the address is of. -/
def OwnAddress (kp : KeyPlatform) (key address : Bytes) : Prop :=
  kp.pubkeyGetaddrP2pkh (kp.curve.eccGetPubkey key) (chainFromB58Prefix address) = address

/-- What `sign_message` returns. -/
theorem signMessage_eq_some (hkey : initKeypair kp privkey = some key)
    (h : signMessage kp privkey msg = some sig) :
    ∃ compact recid, kp.curve.signRecoverable key (hashMessage kp msg) = some (compact, recid) ∧
      sig = base64Encode (UInt8.ofNat (27 + recid + 4) :: compact) := by
  simp only [signMessage, hkey, Option.bind_eq_bind, Option.bind_some] at h
  obtain ⟨⟨full, recid⟩, hsign, h⟩ := Option.bind_eq_some_iff.mp h
  obtain ⟨⟨compact, recid'⟩, hcompact, heq⟩ := Option.map_eq_some_iff.mp hsign
  obtain ⟨rfl, rfl⟩ := Prod.mk.inj heq
  obtain ⟨pubkey, -, h⟩ := Option.bind_eq_some_iff.mp h
  exact ⟨compact, recid', hcompact, (Option.some.inj h).symm⟩

/-- What `verify_message` does with a signature of `sign_message` : it recovers a key from the
compact signature, and compares its address. -/
theorem verifyMessage_encode {compact : Bytes} {recid : ℕ} (hlen : compact.length = 64)
    (hrecid : recid < 4) :
    verifyMessage kp pastEnd (base64Encode (UInt8.ofNat (27 + recid + 4) :: compact)) msg
      address = true ↔
      ∃ pubkey, kp.curve.recover compact recid (hashMessage kp msg) = some pubkey ∧
        kp.curve.verify pubkey (hashMessage kp msg) compact = true ∧
        kp.pubkeyGetaddrP2pkh pubkey (chainFromB58Prefix address) = address := by
  have hheader : (UInt8.ofNat (27 + recid + 4)).toNat = 31 + recid := by
    rw [UInt8.toNat_ofNat']
    omega
  have htake : ((UInt8.ofNat (27 + recid + 4) :: compact ++ pastEnd).drop 1).take 64 = compact :=
    List.take_left' hlen
  have hid : (if 31 ≤ 31 + recid then 31 + recid - 4 else 31 + recid) - 27 = recid := by
    rw [if_pos (Nat.le_add_right _ _)]
    omega
  unfold verifyMessage keyRecoverPubkey
  dsimp only
  rw [base64Decode_encode, htake]
  show (if (UInt8.ofNat (27 + recid + 4)).toNat < 27 ∨
    42 < (UInt8.ofNat (27 + recid + 4)).toNat then false else _) = true ↔ _
  rw [hheader, if_neg (by omega)]
  show (match kp.curve.recover compact ((if 31 ≤ (UInt8.ofNat (27 + recid + 4)).toNat then
    (UInt8.ofNat (27 + recid + 4)).toNat - 4 else (UInt8.ofNat (27 + recid + 4)).toNat) - 27) _ with
    | none => false
    | some pubkey => _) = true ↔ _
  rw [hheader, hid]
  cases kp.curve.recover compact recid (hashMessage kp msg) with
  | none => simp
  | some pubkey => simp

/-- A signature is accepted for its own message, under the address of its key and no other. -/
theorem verifyMessage_signMessage (hlaws : kp.curve.SignLaws)
    (hkey : initKeypair kp privkey = some key) (hsign : signMessage kp privkey msg = some sig) :
    verifyMessage kp pastEnd sig msg address = true ↔ OwnAddress kp key address := by
  obtain ⟨compact, recid, hcompact, rfl⟩ := signMessage_eq_some hkey hsign
  obtain ⟨hlen, hrecid⟩ := hlaws.length_sign hcompact
  rw [verifyMessage_encode hlen hrecid, hlaws.recover_sign hcompact]
  constructor
  · rintro ⟨pubkey, hpubkey, -, haddr⟩
    obtain rfl := Option.some.inj hpubkey
    exact haddr
  · intro haddr
    exact ⟨_, rfl, hlaws.verify_sign hcompact, haddr⟩

/-- What it takes to find a second message for a signature: another string with the same digest, up
to the group order, or another public key with the same address. -/
def Collision (kp : KeyPlatform) (key sig msg msg' : Bytes) : Prop :=
  (hashedBytes msg ≠ hashedBytes msg' ∧
      digestScalar (hashMessage kp msg) = digestScalar (hashMessage kp msg')) ∨
    ∃ recid pubkey chain, keyRecoverPubkey kp (base64Decode sig) (hashMessage kp msg') recid =
      some pubkey ∧
      ((base64Decode sig).headD 0).toNat = 31 + recid ∧ pubkey ≠ kp.curve.eccGetPubkey key ∧
      kp.pubkeyGetaddrP2pkh pubkey chain = kp.pubkeyGetaddrP2pkh (kp.curve.eccGetPubkey key) chain

/-- **Signed messages.** A message is hashed in its format if it has 1 to 252 bytes. Two messages
are hashed differently, and a signature for the first is accepted for the second only through a
collision, unless 256 divides both lengths. -/
theorem signsOneMessage_iff (hlaws : kp.curve.SignLaws) {msg msg' : Bytes}
    (h : 0 ∉ msg) (h' : 0 ∉ msg') (hne : msg ≠ msg') :
    (hashedBytes msg = messageString msg ↔ 0 < msg.length ∧ msg.length < 253) ∧
      (hashedBytes msg ≠ hashedBytes msg' ↔ ¬ (256 ∣ msg.length ∧ 256 ∣ msg'.length)) ∧
      ∀ privkey key sig pastEnd address, initKeypair kp privkey = some key →
        signMessage kp privkey msg = some sig → OwnAddress kp key address →
        ((verifyMessage kp pastEnd sig msg' address = true → Collision kp key sig msg msg') ↔
          ¬ (256 ∣ msg.length ∧ 256 ∣ msg'.length)) := by
  refine ⟨hashedBytes_eq_messageString_iff h, hashedBytes_ne_iff h h' hne, ?_⟩
  intro privkey key sig pastEnd address hkey hsign hown
  have hown' : verifyMessage kp pastEnd sig msg address = true :=
    (verifyMessage_signMessage hlaws hkey hsign).mpr hown
  rw [← hashedBytes_ne_iff h h' hne]
  obtain ⟨compact, recid, hcompact, rfl⟩ := signMessage_eq_some hkey hsign
  obtain ⟨hlen, hrecid⟩ := hlaws.length_sign hcompact
  have hrecover := hlaws.recover_sign hcompact
  have hheader : (UInt8.ofNat (27 + recid + 4)).toNat = 31 + recid := by
    rw [UInt8.toNat_ofNat']
    omega
  have htake : ((UInt8.ofNat (27 + recid + 4) :: compact).drop 1).take 64 = compact :=
    List.take_of_length_le (Nat.le_of_eq hlen)
  constructor
  · -- equal strings are accepted alike, without any collision
    intro hcollision heq
    have hsame : hashMessage kp msg' = hashMessage kp msg := by rw [hashMessage, hashMessage, heq]
    rw [verifyMessage_encode hlen hrecid, ← hsame, ← verifyMessage_encode hlen hrecid] at hown'
    rcases hcollision hown' with ⟨hdiffer, -⟩ | ⟨recid', pubkey, chain, hpubkey, hhead, hother, -⟩
    · exact hdiffer heq
    · rw [base64Decode_encode] at hpubkey hhead
      have hrecid' : recid' = recid := by
        have hfirst : (UInt8.ofNat (27 + recid + 4)).toNat = 31 + recid' := hhead
        omega
      rw [keyRecoverPubkey, htake, hsame, hrecid', hrecover] at hpubkey
      exact hother (Option.some.inj hpubkey).symm
  · intro hdiffer haccept
    obtain ⟨pubkey, hpubkey, -, haddr⟩ := (verifyMessage_encode hlen hrecid).mp haccept
    by_cases hsame : pubkey = kp.curve.eccGetPubkey key
    · exact Or.inl ⟨hdiffer, hlaws.digest_of_recover hrecover (hsame ▸ hpubkey)⟩
    · refine Or.inr ⟨recid, pubkey, chainFromB58Prefix address, ?_, ?_, hsame,
        haddr.trans hown.symm⟩
      · rw [base64Decode_encode, keyRecoverPubkey, htake, hpubkey]
      · rw [base64Decode_encode]
        exact hheader

/-! ## Messages of 0 and 256 bytes -/

/-- `256` letters. -/
def longMessage : Bytes := List.replicate 256 97

/-- The empty message and one of 256 letters are hashed alike, and neither in its format. -/
theorem hashedBytes_collide :
    ¬ ∀ msg msg' : Bytes, 0 ∉ msg → 0 ∉ msg' →
      hashedBytes msg = messageString msg ∧ (msg ≠ msg' → hashedBytes msg ≠ hashedBytes msg') := by
  intro hall
  have hdiffer := (hall [] longMessage (by decide) (by decide +kernel)).2 (by decide)
  exact hdiffer (by decide +kernel)

/-- The theorem on two short messages. -/
theorem signsOneMessage_iff_short :
    (hashedBytes [97] = messageString [97] ↔ 0 < [(97 : UInt8)].length ∧
      [(97 : UInt8)].length < 253) ∧
      (hashedBytes [97] ≠ hashedBytes [98] ↔
        ¬ (256 ∣ [(97 : UInt8)].length ∧ 256 ∣ [(98 : UInt8)].length)) ∧
      ∀ privkey key sig pastEnd address, initKeypair sampleKeys privkey = some key →
        signMessage sampleKeys privkey [97] = some sig → OwnAddress sampleKeys key address →
        ((verifyMessage sampleKeys pastEnd sig [98] address = true →
            Collision sampleKeys key sig [97] [98]) ↔
          ¬ (256 ∣ [(97 : UInt8)].length ∧ 256 ∣ [(98 : UInt8)].length)) :=
  @signsOneMessage_iff sampleKeys sampleCurve_signLaws [97] [98] (by decide) (by decide) (by decide)

end Libdogecoin
