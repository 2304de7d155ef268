/-
# The text of extended keys

`dogecoin_hdnode_serialize` and `dogecoin_hdnode_deserialize` of `bip32.c`, over the Base58Check of
`base58.c`. A key is written as 78 bytes. It is read into a buffer of zeros, whatever the number of
bytes is that were decoded.

* `isSome_hdnodeDeserialize_iff` : the strings that are read;
* `text_readsBack_iff` : a string is written again if and only if it has 78 bytes;
* `xprvLaws_withStrings` : what the wallet relies on of Base58Check is true of `base58.c`;
* `restores_iff` : a node that was derived is read back if and only if its depth fits into a byte.
-/
import Libdogecoin.Base58Canonical
import Libdogecoin.Bip44Address

namespace Libdogecoin

open Base58 (base58String bytesValue checksum significant)

/-- `sizeof(dogecoin_hdnode)`, which is also `HDKEYLEN`. -/
def HDKEYLEN : ℕ := 112

/-- The key platform with the functions of `base58.c`, which write into buffers of a size. A read
behind a buffer, which zeros only can bring about, counts as a refusal. -/
def KeyPlatform.withBase58 (kp : KeyPlatform) (strsize : ℕ) : WalletPlatform where
  toPlatform := kp.toPlatform
  curve := kp.curve
  rmd160 := kp.rmd160
  hmacSha512 := kp.hmacSha512
  base58EncodeCheck := fun data => (Base58.base58EncodeCheck kp.toPlatform data strsize).getD []
  privkeyDecodeWif := kp.privkeyDecodeWif
  base58DecodeCheck := Base58.base58Read kp.toPlatform

/-- The platform of a wallet with the strings of `base58.c`: those that are written into any buffer
that is large enough (`base58EncodeCheck_eq`), and what is read of them. -/
def KeyPlatform.withStrings (kp : KeyPlatform) : WalletPlatform where
  toKeyPlatform := { kp with
    base58EncodeCheck := fun data => base58String (data ++ checksum kp.toPlatform data) }
  base58DecodeCheck := Base58.base58Read kp.toPlatform

/-- The chains of `chainparams.c`. -/
def keyParamsAll : List KeyParams := [keyParamsMain, keyParamsTest, keyParamsRegtest]

namespace HdNodeText

open Wallet Bip44

variable {kp : KeyPlatform} {chain : WalletParams} {strsize : ℕ} {bs payload code key : Bytes}
  {x version fingerprint childNum : UInt32} {wp : WalletPlatform} {depth : UInt8}

/-! ## Numbers at the front of some bytes -/

/-- The prefixes of the extended keys of a chain. -/
theorem prefixes_of_mem (hchain : chain.toKeyParams ∈ keyParamsAll) :
    chain.b58prefixBip32Privkey ≠ chain.b58prefixBip32Pubkey ∧
      (0x01000000 ≤ chain.b58prefixBip32Privkey.toNat ∧
        chain.b58prefixBip32Privkey.toNat < 0x04360000) ∧
      0x01000000 ≤ chain.b58prefixBip32Pubkey.toNat ∧ chain.b58prefixBip32Pubkey.toNat <
        0x04360000 := by
  have hall : ∀ params ∈ keyParamsAll, params.b58prefixBip32Privkey ≠ params.b58prefixBip32Pubkey ∧
      (0x01000000 ≤ params.b58prefixBip32Privkey.toNat ∧
        params.b58prefixBip32Privkey.toNat < 0x04360000) ∧
      0x01000000 ≤ params.b58prefixBip32Pubkey.toNat ∧ params.b58prefixBip32Pubkey.toNat <
        0x04360000 := by decide
  exact hall _ hchain

theorem writeBe_readBe (h : bs.length = 4) (rest : Bytes) : writeBe (readBe (bs ++ rest)) = bs := by
  have hlen : bs.reverse.length = 4 := by rw [List.length_reverse, h]
  have hlt := LittleEndian.ofBytes_lt bs.reverse
  have hback := LittleEndian.toBytes_ofBytes bs.reverse
  rw [hlen] at hlt hback
  unfold readBe writeBe
  rw [List.take_left' h, UInt32.toNat_ofNat_of_lt' hlt, hback, List.reverse_reverse]

/-- Four bytes are a number. -/
theorem exists_writeBe {bs : Bytes} (h : 4 ≤ bs.length) : ∃ x rest, bs = writeBe x ++ rest := by
  have hfour : (bs.take 4).length = 4 := by rw [List.length_take, Nat.min_eq_left h]
  have hwrite := writeBe_readBe hfour (bs.drop 4)
  exact ⟨readBe (bs.take 4 ++ bs.drop 4), bs.drop 4, by rw [hwrite, List.take_append_drop]⟩

/-- The number that some bytes spell begins with its first four. -/
theorem bytesValue_writeBe (x : UInt32) (rest : Bytes) :
    bytesValue (writeBe x ++ rest) = x.toNat * 256 ^ rest.length + bytesValue rest := by
  have hx : bytesValue (writeBe x) = x.toNat := by
    have hback : LittleEndian.ofBytes (LittleEndian.toBytes 4 x.toNat) = x.toNat :=
      LittleEndian.ofBytes_toBytes_of_lt x.toNat_lt
    unfold writeBe bytesValue Radix.value
    rw [← List.map_reverse, List.reverse_reverse]
    exact hback
  unfold bytesValue at hx ⊢
  rw [List.map_append, Radix.value_append, hx, List.length_map]

theorem significant_ne_nil (hx : 0 < x.toNat) (rest : Bytes) :
    significant (writeBe x ++ rest) ≠ [] := by
  intro hnil
  have hzero := Base58.bytesValue_significant (writeBe x ++ rest)
  rw [hnil, bytesValue_writeBe] at hzero
  have hpos : 0 < x.toNat * 256 ^ rest.length := Nat.mul_pos hx (Nat.pow_pos (by norm_num))
  have hnone : bytesValue [] = 0 := rfl
  omega

/-- **The length of an extended key** in characters. -/
theorem length_base58String_lt (hlow : 0x01000000 ≤ x.toNat) (hhigh : x.toNat < 0x04360000)
    {rest : Bytes} (hrest : rest.length = 78) :
    (base58String (writeBe x ++ rest)).length < HDKEYLEN := by
  have hvalue := bytesValue_writeBe x rest
  have hlt : bytesValue rest < 256 ^ 78 := by
    have h := Radix.value_lt (by norm_num) (Base58.bytes_lt rest)
    rwa [List.length_map, hrest] at h
  have hlen : (writeBe x ++ rest).length =
    81 + 1 := by rw [List.length_append, length_writeBe, hrest]
  rw [hrest] at hvalue
  have hfirst : 256 ^ 81 ≤ bytesValue (writeBe x ++ rest) := by
    rw [hvalue]
    calc 256 ^ 81 = 0x01000000 * 256 ^ 78 := by norm_num
      _ ≤ x.toNat * 256 ^ 78 := Nat.mul_le_mul_right _ hlow
      _ ≤ _ := Nat.le_add_right _ _
  have hfits : bytesValue (writeBe x ++ rest) < 58 ^ 111 := by
    rw [hvalue]
    calc x.toNat * 256 ^ 78 + bytesValue rest < x.toNat * 256 ^ 78 + 256 ^ 78 :=
          Nat.add_lt_add_left hlt _
      _ = (x.toNat + 1) * 256 ^ 78 := (Nat.succ_mul _ _).symm
      _ ≤ 0x04360000 * 256 ^ 78 := Nat.mul_le_mul_right _ hhigh
      _ < 58 ^ 111 := by norm_num
  rw [Base58.length_base58String_of_le hlen hfirst]
  exact Nat.lt_succ_of_le ((Base58.length_base58Digits_le_iff _ _).mpr hfits)

/-! ## The strings that are read -/

/-- The bytes are those of an extended public key, or of an extended private key, of a chain. -/
def IsExtKey (chain : KeyParams) (bin : Bytes) : Prop :=
  readBe bin = chain.b58prefixBip32Pubkey ∨
    readBe bin = chain.b58prefixBip32Privkey ∧ (bin.drop 45).headD 0 = 0

/-- The string is that of a payload that begins like an extended key of a chain. -/
structure ExtKeyText (kp : KeyPlatform) (chain : KeyParams) (str payload : Bytes) : Prop where
  short : str.length ≤ HDKEYLEN
  text : str = base58String (payload ++ checksum kp.toPlatform payload)
  extKey : IsExtKey chain (payload ++ checksum kp.toPlatform payload)

theorem readBe_append (h : 4 ≤ bs.length) (rest : Bytes) : readBe (bs ++ rest) = readBe bs := by
  unfold readBe
  rw [List.take_append_of_le_length h]

theorem headD_drop_zeros (bs : Bytes) (n k : ℕ) :
    ((bs ++ List.replicate k (0 : UInt8)).drop n).headD 0 = (bs.drop n).headD 0 := by
  rw [List.headD_eq_head?_getD, List.headD_eq_head?_getD, List.head?_drop, List.head?_drop,
    List.getElem?_append]
  split
  · rfl
  next hlong =>
    rw [List.getElem?_eq_none (Nat.not_lt.mp hlong), List.getElem?_replicate]
    split
    · rfl
    · rfl

variable {str : Bytes}

/-- What is decoded is read if it begins like an extended key. -/
theorem isSome_of_decode {dec : Bytes} (hdec : 4 ≤ dec.length)
    (hdecode : wp.base58DecodeCheck str 112 = some dec) :
    (hdnodeDeserialize wp str chain).isSome ↔ IsExtKey chain.toKeyParams dec := by
  unfold hdnodeDeserialize IsExtKey
  rw [hdecode, Option.bind_eq_bind, Option.bind_some]
  dsimp only
  rw [readBe_append hdec, headD_drop_zeros dec 45]
  by_cases hpub : readBe dec = chain.b58prefixBip32Pubkey
  · rw [if_pos hpub]
    exact iff_of_true rfl (Or.inl hpub)
  rw [if_neg hpub, or_iff_right hpub]
  by_cases hpriv : readBe dec = chain.b58prefixBip32Privkey
  · rw [if_pos hpriv, and_iff_right hpriv]
    by_cases hzero : (dec.drop 45).headD 0 = 0
    · rw [if_neg (not_not.mpr hzero)]
      exact iff_of_true rfl hzero
    · rw [if_pos hzero]
      exact iff_of_false Bool.false_ne_true hzero
  · rw [if_neg hpriv]
    exact iff_of_false Bool.false_ne_true fun h => hpriv h.1

/-- Bytes that begin like an extended key do not begin with a zero. -/
theorem IsExtKey.exists_prefix (hchain : chain.toKeyParams ∈ keyParamsAll) {bin : Bytes}
    (hlen : 4 ≤ bin.length) (h : IsExtKey chain.toKeyParams bin) :
    ∃ x rest, bin = writeBe x ++ rest ∧ 0x01000000 ≤ x.toNat ∧ x.toNat < 0x04360000 := by
  obtain ⟨x, rest, rfl⟩ := exists_writeBe hlen
  obtain ⟨-, hpriv, hpub⟩ := prefixes_of_mem hchain
  unfold IsExtKey at h
  rw [readBe_writeBe] at h
  refine ⟨x, rest, rfl, ?_⟩
  rcases h with rfl | ⟨rfl, -⟩
  · exact hpub
  · exact hpriv

/-- What is decoded of the text of a payload. -/
theorem ExtKeyText.decode (hchain : chain.toKeyParams ∈ keyParamsAll)
    (h : ExtKeyText kp chain.toKeyParams str payload) :
    Base58.base58Read kp.toPlatform str 112 = some (payload ++ checksum kp.toPlatform payload) := by
  have hlen : 4 ≤ (payload ++ checksum kp.toPlatform payload).length := by
    rw [List.length_append, Base58.length_checksum]
    exact Nat.le_add_left _ _
  have hshort := h.short
  unfold HDKEYLEN at hshort
  rw [Base58.base58Read_eq_some_iff (by norm_num)]
  refine ⟨⟨by omega, hshort⟩, ?_, h.text, payload, rfl⟩
  obtain ⟨x, rest, heq, hx, -⟩ := h.extKey.exists_prefix hchain hlen
  rw [heq]
  exact significant_ne_nil (by omega) rest

/-- **The strings that are read** as extended keys. -/
theorem isSome_hdnodeDeserialize_iff (hchain : chain.toKeyParams ∈ keyParamsAll) (str : Bytes) :
    (hdnodeDeserialize (kp.withBase58 strsize) str chain).isSome ↔ ∃ payload,
    ExtKeyText kp chain.toKeyParams str payload := by
  have hlen : ∀ payload, 4 ≤ (payload ++ checksum kp.toPlatform payload).length := by
    intro payload
    rw [List.length_append, Base58.length_checksum]
    exact Nat.le_add_left _ _
  constructor
  · intro h
    cases hread : Base58.base58Read kp.toPlatform str 112 with
    | none =>
      have hnone : hdnodeDeserialize (kp.withBase58 strsize) str chain = none := by
        unfold hdnodeDeserialize
        show (Base58.base58Read kp.toPlatform str 112).bind _ = none
        rw [hread, Option.bind_none]
      rw [hnone] at h
      cases h
    | some dec =>
      obtain ⟨⟨-, hshort⟩, -, htext, payload, rfl⟩ :=
        (Base58.base58Read_eq_some_iff (by norm_num) str dec).mp hread
      exact ⟨payload, hshort, htext, (isSome_of_decode (hlen payload) hread).mp h⟩
  · rintro ⟨payload, h⟩
    exact (isSome_of_decode (hlen payload) (h.decode hchain)).mpr h.extKey

/-! ## What the wallet relies on -/

/-- **What the wallet relies on of Base58Check** is true of `base58.c` on its chains, if 21 zeros
and 78 zeros do not have the checksum zero. -/
theorem xprvLaws_withStrings (hchain : chain.toKeyParams ∈ keyParamsAll)
    (hzeros : ∀ n ∈ [21, 78], checksum kp.toPlatform (List.replicate n 0) ≠ List.replicate 4 0) :
    XprvLaws kp.withStrings chain := by
  obtain ⟨-, ⟨hprivLow, hprivHigh⟩, hpubLow, hpubHigh⟩ := prefixes_of_mem hchain
  have hprefix : ∀ params ∈ keyParamsAll, params.b58prefixPubkeyAddress ≠ 0 ∧
    params.b58prefixPubkeyAddress.toNat ≤ 113 := by decide
  obtain ⟨hb, hle⟩ := hprefix _ hchain
  have hextKey : ∀ {x : UInt32} {rest : Bytes}, 0x01000000 ≤ x.toNat → x.toNat < 0x04360000 →
    rest.length = 74 →
      (kp.withStrings.base58EncodeCheck (writeBe x ++ rest)).length ≤ 111 := by
    intro x rest hlow hhigh hrest
    apply Nat.le_of_lt_succ
    show (base58String (writeBe x ++ rest ++ checksum kp.toPlatform (writeBe x ++ rest))).length <
      HDKEYLEN
    rw [List.append_assoc]
    exact length_base58String_lt hlow hhigh
      (by rw [List.length_append, Base58.length_checksum, hrest])
  have hrest : ∀ hash : Uint160,
      (hash.1 ++ checksum kp.toPlatform (chain.b58prefixPubkeyAddress :: hash.1)).length = 24 :=
        fun hash => by
    rw [List.length_append, hash.2, Base58.length_checksum]
  exact {
    zero_notMem := fun payload hmem => absurd (Base58.base58String_valid _ 0 hmem) (by decide)
    encode_ne_nil := fun payload hnil => by
      have hle := Base58.length_le_base58String (payload ++ checksum kp.toPlatform payload)
      rw [List.length_append, Base58.length_checksum, show base58String _ = [] from hnil] at hle
      exact absurd hle (by simp)
    length_address := fun hash => Base58.length_base58String_le hb hle (hrest hash)
    length_xpub := fun _ => hextKey hpubLow hpubHigh
    length_xprv := fun _ => hextKey hprivLow hprivHigh
    decode_address := fun _ hlen hshort => Base58.base58Read_base58String (by decide) (by decide)
      (hlen ▸ hzeros 21 (by decide)) (hshort.trans (by decide))
    decode_xpub := fun _ hlen hshort => Base58.base58Read_base58String (by decide) (by decide)
      (hlen ▸ hzeros 78 (by decide)) (hshort.trans (by decide)) }

/-! ## Strings that are written again -/

theorem length_nodeBytes (hcode : code.length = 32) (hkey : key.length = 33) :
    (nodeBytes version depth fingerprint childNum code key).length = 78 := by
  simp [nodeBytes, hcode, hkey]

/-- Whatever has 78 bytes has the fields of an extended key. -/
theorem exists_nodeBytes (h : payload.length = 78) :
    ∃ version depth fingerprint childNum code key,
      payload = nodeBytes version depth fingerprint childNum code key ∧ code.length = 32 ∧
      key.length = 33 := by
  obtain ⟨version, rest, rfl⟩ := @exists_writeBe payload (by omega)
  rw [List.length_append, length_writeBe] at h
  cases rest with
  | nil => cases h
  | cons depth rest =>
    rw [List.length_cons] at h
    obtain ⟨fingerprint, rest, rfl⟩ := @exists_writeBe rest (by omega)
    rw [List.length_append, length_writeBe] at h
    obtain ⟨childNum, rest, rfl⟩ := @exists_writeBe rest (by omega)
    rw [List.length_append, length_writeBe] at h
    refine ⟨version, depth, fingerprint, childNum, rest.take 32, rest.drop 32, ?_, ?_, ?_⟩
    · rw [nodeBytes, List.take_append_drop, List.singleton_append]
    · rw [List.length_take]
      omega
    · rw [List.length_drop]
      omega

/-- What is written for 78 bytes. -/
theorem base58EncodeCheck_nodeBytes (hstrsize : HDKEYLEN ≤ strsize)
    {version fingerprint childNum : UInt32} {depth : UInt8} {code key : Bytes}
    (hcode : code.length = 32) (hkey : key.length = 33)
    (hlow : 0x01000000 ≤ version.toNat) (hhigh : version.toNat < 0x04360000) :
    (kp.withBase58 strsize).base58EncodeCheck
    (nodeBytes version depth fingerprint childNum code key) =
        base58String (nodeBytes version depth fingerprint childNum code key ++
          checksum kp.toPlatform (nodeBytes version depth fingerprint childNum code key)) ∧
      (base58String (nodeBytes version depth fingerprint childNum code key ++
          checksum kp.toPlatform (nodeBytes version depth fingerprint childNum code key))).length <
            HDKEYLEN := by
  have hlen : (nodeBytes version depth fingerprint childNum code key).length = 78 :=
    length_nodeBytes hcode hkey
  have hshort : (base58String (nodeBytes version depth fingerprint childNum code key ++
      checksum kp.toPlatform (nodeBytes version depth fingerprint childNum code key))).length <
        HDKEYLEN := by
    generalize hchecksum : checksum kp.toPlatform
      (nodeBytes version depth fingerprint childNum code key) = chk
    have hfour : chk.length = 4 := by rw [← hchecksum, Base58.length_checksum]
    unfold nodeBytes at hlen ⊢
    rw [List.append_assoc]
    apply length_base58String_lt hlow hhigh
    rw [List.length_append, length_writeBe] at hlen
    rw [List.length_append]
    omega
  refine ⟨?_, hshort⟩
  show (Base58.base58EncodeCheck kp.toPlatform _ strsize).getD [] = _
  rw [Base58.base58EncodeCheck_eq (by omega) (hshort.trans_le hstrsize), Option.getD_some]

theorem hdnodeSerializePublic_eq (wp : WalletPlatform) (node : HdNode) (chain : WalletParams) :
    hdnodeSerializePublic wp node chain = wp.base58EncodeCheck (nodeBytes chain.b58prefixBip32Pubkey
      node.depth.toUInt8 node.fingerprint node.childNum node.chainCode node.publicKey) := by
  simp only [hdnodeSerializePublic, nodeBytes, List.append_assoc]

theorem hdnodeSerializePrivate_eq (wp : WalletPlatform) (node : HdNode) (chain : WalletParams) :
    hdnodeSerializePrivate wp node chain =
      wp.base58EncodeCheck (nodeBytes chain.b58prefixBip32Privkey node.depth.toUInt8
        node.fingerprint node.childNum node.chainCode (0 :: node.privateKey)) := by
  simp only [hdnodeSerializePrivate, nodeBytes, List.append_assoc]

/-- A string that is read as an extended key has 78 bytes, and the node is written as this string
again. -/
def ReadsBack (wp : WalletPlatform) (chain : WalletParams) (str : Bytes) : Prop :=
  ∀ dec node, wp.base58DecodeCheck str 112 = some dec → hdnodeDeserialize wp str chain = some node →
    dec.length = 78 + 4 ∧
      (readBe dec = chain.b58prefixBip32Privkey → hdnodeSerializePrivate wp node chain = str) ∧
      (readBe dec = chain.b58prefixBip32Pubkey → hdnodeSerializePublic wp node chain = str)

/-- **Strings that are written again** are those of 78 bytes. -/
theorem text_readsBack_iff (hchain : chain.toKeyParams ∈ keyParamsAll)
    (hstrsize : HDKEYLEN ≤ strsize) (str : Bytes) :
    ReadsBack (kp.withBase58 strsize) chain str ↔
      ∀ payload, ExtKeyText kp chain.toKeyParams str payload → payload.length = 78 := by
  obtain ⟨hne, ⟨hprivLow, hprivHigh⟩, hpubLow, hpubHigh⟩ := prefixes_of_mem hchain
  constructor
  · intro h payload htext
    obtain ⟨node, hnode⟩ := Option.isSome_iff_exists.mp
      ((@isSome_hdnodeDeserialize_iff kp chain strsize hchain str).mpr ⟨payload, htext⟩)
    have hlen := (h _ node (htext.decode hchain) hnode).1
    rw [List.length_append, Base58.length_checksum] at hlen
    omega
  · intro h dec node hdecode hnode
    obtain ⟨⟨-, hshort⟩, -, htext, payload, rfl⟩ :=
      (Base58.base58Read_eq_some_iff (by norm_num) str dec).mp hdecode
    have hfour : 4 ≤ (payload ++ checksum kp.toPlatform payload).length := by
      rw [List.length_append, Base58.length_checksum]
      exact Nat.le_add_left _ _
    have hextKey := (isSome_of_decode hfour hdecode).mp (Option.isSome_iff_exists.mpr ⟨node, hnode⟩)
    have hlen := h payload ⟨hshort, htext, hextKey⟩
    obtain ⟨version, depth, fingerprint, childNum, code, key, rfl, hcode, hkey⟩ :=
      exists_nodeBytes hlen
    have hversion : readBe (nodeBytes version depth fingerprint childNum code key ++
        checksum kp.toPlatform (nodeBytes version depth fingerprint childNum code key)) =
          version := by
      rw [nodeBytes, List.append_assoc, readBe_writeBe]
    rw [hdnodeDeserialize_of_nodeBytes hcode hkey hdecode] at hnode
    rw [List.length_append, Base58.length_checksum, hlen, hversion]
    refine ⟨rfl, ?_, ?_⟩
    · rintro rfl
      rw [if_neg hne, if_pos rfl] at hnode
      split at hnode
      · cases hnode
      next hzero =>
        obtain rfl := Option.some.inj hnode
        have hkey' : 0 :: key.drop 1 = key := by
          cases key with
          | nil => cases hkey
          | cons c key =>
            have hc : c = 0 := not_not.mp hzero
            rw [hc]
            rfl
        rw [hdnodeSerializePrivate_eq]
        dsimp only
        rw [hkey', UInt8.toUInt8_toUInt32,
          (base58EncodeCheck_nodeBytes hstrsize hcode hkey hprivLow hprivHigh).1, htext]
    · rintro rfl
      rw [if_pos rfl] at hnode
      obtain rfl := Option.some.inj hnode
      rw [hdnodeSerializePublic_eq]
      dsimp only
      rw [UInt8.toUInt8_toUInt32, (base58EncodeCheck_nodeBytes hstrsize hcode hkey hpubLow
        hpubHigh).1, htext]

end HdNodeText

/-! ## Nodes that are derived -/

/-- What is documented of sizes: the buffers that the calls write have those of keys. -/
structure Secp256k1.BufferLaws (cv : Secp256k1) : Prop where
  length_create : ∀ {key pubkey : Bytes}, key.length = 32 → cv.pubkeyCreate key = some pubkey →
    pubkey.length = 33
  length_keyTweak : ∀ {key tweak : Bytes}, key.length = 32 → tweak.length = 32 →
    (cv.privkeyTweakAdd key tweak).1.length = 32
  length_pubkeyTweak : ∀ {pubkey tweak pubkey' : Bytes}, pubkey.length = 33 → tweak.length = 32 →
    cv.pubkeyTweakAdd pubkey tweak = some pubkey' → pubkey'.length = 33

theorem Secp256k1.BufferLaws.length_getPubkey {cv : Secp256k1} (h : cv.BufferLaws) {key : Bytes}
    (hkey : key.length = 32) : (cv.eccGetPubkey key).length = 33 := by
  unfold Secp256k1.eccGetPubkey
  cases hcreate : cv.pubkeyCreate key with
  | none => rfl
  | some pubkey => exact h.length_create hkey hcreate

namespace HdNode

variable {kp : KeyPlatform}

/-- All keys in a node have their sizes. -/
structure FullSized (node : HdNode) : Prop extends node.Sized where
  privateKey : node.privateKey.length = 32

/-- `dogecoin_hdnode_from_seed`. -/
def fromSeed (kp : KeyPlatform) (seed : Bytes) : Option HdNode :=
  let I := (kp.hmacSha512 ("Bitcoin seed".toList.map fun c => c.toNat.toUInt8) seed).1
  if kp.curve.eccVerifyPrivatekey (I.take 32) then
    some (fillPublicKey kp { HdNode.zero with privateKey := I.take 32, chainCode := I.drop 32 })
  else none

/-- The nodes that calls bring about from a seed. -/
inductive Reached (kp : KeyPlatform) : HdNode → Prop
  | seed {seed node} : fromSeed kp seed = some node → Reached kp node
  | privateCkd {node} (i : UInt32) : Reached kp node → Reached kp (node.privateCkd kp i)
  | publicCkd {node child i} : Reached kp node → node.publicCkd kp i = (child, true) →
      Reached kp child
  | generateKey {node out child keypath usepubckd} : Reached kp node → FullSized out →
      hdGenerateKey kp out keypath (if usepubckd then node.publicKey else
        node.privateKey) node.depth node.chainCode usepubckd = (child, true) →
      Reached kp child

variable {node : HdNode}

/-- What is derived fills the tweak and the chain code. -/
theorem length_ckdI (node : HdNode) (i : UInt32) :
    ((node.ckdI kp i).take 32).length = 32 ∧ ((node.ckdI kp i).drop 32).length = 32 := by
  have hI : (node.ckdI kp i).length = 64 := (kp.hmacSha512 node.chainCode (node.ckdData i)).2
  rw [List.length_take, List.length_drop, hI]
  exact ⟨rfl, rfl⟩

theorem FullSized.privateCkd (hcurve : kp.curve.BufferLaws) (h : FullSized node) (i : UInt32) :
    FullSized (node.privateCkd kp i) := by
  obtain ⟨htake, hdrop⟩ := @length_ckdI kp node i
  have hkey := hcurve.length_keyTweak h.privateKey htake
  unfold HdNode.privateCkd
  dsimp only
  split
  · exact ⟨⟨hdrop, hcurve.length_getPubkey hkey⟩, hkey⟩
  · exact ⟨⟨hdrop, h.publicKey⟩, hkey⟩

theorem FullSized.publicCkd (hcurve : kp.curve.BufferLaws) {node : HdNode}
    (h : FullSized node) (i : UInt32) :
    FullSized (node.publicCkd kp i).1 := by
  obtain ⟨htake, hdrop⟩ := @length_ckdI kp node i
  unfold HdNode.publicCkd
  split
  · exact h
  · refine ⟨⟨hdrop, ?_⟩, List.length_replicate⟩
    dsimp only
    unfold Secp256k1.eccPublicKeyTweakAdd
    split
    · exact h.publicKey
    next pubkey hadd => exact hcurve.length_pubkeyTweak h.publicKey htake hadd

theorem FullSized.foldl_stepNode (hcurve : kp.curve.BufferLaws) (usepubckd : Bool)
    (is : List UInt32) (h : FullSized node) :
    FullSized (is.foldl (stepNode kp usepubckd) node) := by
  induction is generalizing node with
  | nil => exact h
  | cons i is ih =>
    apply ih
    unfold stepNode
    split
    · exact h.publicCkd hcurve i
    · exact h.privateCkd hcurve i

/-- **Every node that is reached has keys of their sizes.** -/
theorem Reached.fullSized (hcurve : kp.curve.BufferLaws) (h : Reached kp node) :
    FullSized node := by
  induction h with
  | @seed seed node h =>
    unfold fromSeed at h
    dsimp only at h
    generalize kp.hmacSha512 _ seed = I at h
    have htake : (I.1.take 32).length = 32 := by rw [List.length_take, I.2]; rfl
    split at h
    · obtain rfl := Option.some.inj h
      refine ⟨⟨?_, hcurve.length_getPubkey htake⟩, htake⟩
      show (I.1.drop 32).length = 32
      rw [List.length_drop, I.2]
    · cases h
  | privateCkd i _ ih => exact ih.privateCkd hcurve i
  | @publicCkd node child i _ hstep ih =>
    have hchild := ih.publicCkd hcurve i
    rwa [hstep] at hchild
  | @generateKey node out child keypath usepubckd _ hout hgenerate ih =>
    obtain ⟨is, -, rfl⟩ := (hdGenerateKey_eq_true_iff _ _ _ _ _ _).mp hgenerate
    apply FullSized.foldl_stepNode hcurve
    unfold startNode
    cases usepubckd with
    | false => exact ⟨⟨ih.chainCode, hcurve.length_getPubkey ih.privateKey⟩, ih.privateKey⟩
    | true => exact ⟨⟨ih.chainCode, ih.publicKey⟩, hout.privateKey⟩

end HdNode

namespace HdNodeText

open Bip44 HdNode Wallet

variable {kp : KeyPlatform} {chain : WalletParams} {strsize : ℕ}

/-- Both texts of a node are read back into it: the one into its public part, the other with the
public key of its private key. -/
structure Restores (wp : WalletPlatform) (chain : WalletParams) (node : HdNode) : Prop where
  publicKey : hdnodeDeserialize wp (hdnodeSerializePublic wp node chain) chain =
    some { node with privateKey := List.replicate 32 0 }
  privateKey : hdnodeDeserialize wp (hdnodeSerializePrivate wp node chain) chain =
    some { node with publicKey := wp.curve.eccGetPubkey node.privateKey }

theorem toUInt32_toUInt8_eq_iff (depth : UInt32) :
    depth.toUInt8.toUInt32 = depth ↔ depth.toNat < 256 := by
  rw [← UInt32.toNat_inj, UInt8.toNat_toUInt32, UInt32.toNat_toUInt8]
  constructor
  · intro h
    omega
  · exact fun h => Nat.mod_eq_of_lt h

/-- What is read of a text that was written. -/
theorem decode_encode (hchain : chain.toKeyParams ∈ keyParamsAll) (hstrsize : HDKEYLEN ≤ strsize)
    {version fingerprint childNum : UInt32} {depth : UInt8} {code key : Bytes}
    (hcode : code.length = 32)
    (hkey : key.length = 33) (hlow : 0x01000000 ≤ version.toNat)
    (hhigh : version.toNat < 0x04360000)
    (hversion : version = chain.b58prefixBip32Pubkey ∨
      version = chain.b58prefixBip32Privkey ∧ key.headD 0 = 0) :
    (kp.withBase58 strsize).base58DecodeCheck
        ((kp.withBase58 strsize).base58EncodeCheck
          (nodeBytes version depth fingerprint childNum code key)) 112 =
      some (nodeBytes version depth fingerprint childNum code key ++
        checksum kp.toPlatform (nodeBytes version depth fingerprint childNum code key)) := by
  obtain ⟨hencode, hshort⟩ := @base58EncodeCheck_nodeBytes kp strsize hstrsize version
    fingerprint childNum depth code key hcode hkey hlow hhigh
  rw [hencode]
  refine ExtKeyText.decode hchain ⟨hshort.le, rfl, ?_⟩
  generalize checksum kp.toPlatform _ = chk
  have hbytes : nodeBytes version depth fingerprint childNum code key ++ chk =
    writeBe version ++ ([depth] ++
      (writeBe fingerprint ++ (writeBe childNum ++ (code ++ (key ++ chk))))) := by
    simp only [nodeBytes, List.append_assoc]
  have hfront : (writeBe version ++
    ([depth] ++ (writeBe fingerprint ++ (writeBe childNum ++ code)))).length = 45 := by
    simp [hcode]
  rcases hversion with h | ⟨h, hzero⟩
  · left
    rw [hbytes, readBe_writeBe, h]
  · right
    have hdrop : (nodeBytes version depth fingerprint childNum code key ++ chk).drop 45 =
      key ++ chk := by
      have hleft : ((writeBe version ++
        ([depth] ++ (writeBe fingerprint ++ (writeBe childNum ++ code)))) ++
          (key ++ chk)).drop 45 = key ++ chk := List.drop_left' hfront
      simp only [List.append_assoc] at hleft
      rw [hbytes]
      exact hleft
    refine ⟨by rw [hbytes, readBe_writeBe, h], ?_⟩
    rw [hdrop]
    cases key with
    | nil => cases hkey
    | cons c key => exact hzero

/-- **Nodes that are read back** are those whose depth is a byte. -/
theorem restores_iff (hchain : chain.toKeyParams ∈ keyParamsAll) (hstrsize : HDKEYLEN ≤ strsize)
    {node : HdNode} (hsized : FullSized node) : Restores (kp.withBase58 strsize) chain node ↔
    node.depth.toNat < 256 := by
  obtain ⟨hne, ⟨hprivLow, hprivHigh⟩, hpubLow, hpubHigh⟩ := prefixes_of_mem hchain
  have hpublic : hdnodeDeserialize (kp.withBase58 strsize)
      (hdnodeSerializePublic (kp.withBase58 strsize) node chain) chain =
        some { node with
          depth := node.depth.toUInt8.toUInt32, privateKey := List.replicate 32 0 } := by
    rw [hdnodeSerializePublic_eq, hdnodeDeserialize_of_nodeBytes hsized.chainCode hsized.publicKey
      (decode_encode hchain hstrsize hsized.chainCode hsized.publicKey hpubLow hpubHigh
        (Or.inl rfl)), if_pos rfl]
    rfl
  have hkey : (0 :: node.privateKey).length = 33 := congrArg Nat.succ hsized.privateKey
  have hprivate : hdnodeDeserialize (kp.withBase58 strsize)
      (hdnodeSerializePrivate (kp.withBase58 strsize) node chain) chain =
        some { node with
          depth := node.depth.toUInt8.toUInt32
          publicKey := kp.curve.eccGetPubkey node.privateKey } := by
    rw [hdnodeSerializePrivate_eq, hdnodeDeserialize_of_nodeBytes hsized.chainCode hkey
      (decode_encode hchain hstrsize hsized.chainCode hkey hprivLow hprivHigh (Or.inr ⟨rfl, rfl⟩)),
        if_neg hne,
      if_pos rfl]
    rfl
  rw [← toUInt32_toUInt8_eq_iff]
  constructor
  · intro h
    have hsame := h.publicKey
    rw [hpublic] at hsame
    exact congrArg HdNode.depth (Option.some.inj hsame)
  · intro h
    rw [h] at hpublic hprivate
    exact ⟨hpublic, hprivate⟩

/-- **The text of extended keys.** A string that is read is written again if and only if it has 78
bytes, and a node that was derived is read back if and only if its depth is a byte. -/
theorem hdnode_text_iff (hcurve : kp.curve.BufferLaws) (hchain : chain.toKeyParams ∈ keyParamsAll)
    (hstrsize : HDKEYLEN ≤ strsize) :
    (∀ str, ReadsBack (kp.withBase58 strsize) chain str ↔
      ∀ payload, ExtKeyText kp chain.toKeyParams str payload → payload.length = 78) ∧
    ∀ node, Reached kp node → (Restores (kp.withBase58 strsize) chain node ↔
      node.depth.toNat < 256) :=
  ⟨text_readsBack_iff hchain hstrsize, fun _ hnode =>
    restores_iff hchain hstrsize (hnode.fullSized hcurve)⟩

theorem sampleCurve_bufferLaws : sampleCurve.BufferLaws where
  length_create := by
    intro key pubkey hkey h
    obtain rfl := Option.some.inj h
    exact congrArg Nat.succ hkey
  length_keyTweak := fun _ _ => LittleEndian.length_toBytes 32 _
  length_pubkeyTweak := by
    intro pubkey tweak pubkey' _ _ h
    obtain rfl := Option.some.inj h
    exact congrArg Nat.succ (LittleEndian.length_toBytes 32 _)

/-- The payload of a node's public text is the one that was written: both are decoded of the same
text. -/
theorem length_of_serializePublic (hchain : chain.toKeyParams ∈ keyParamsAll)
    (hstrsize : HDKEYLEN ≤ strsize) {node : HdNode} (hsized : FullSized node) {payload : Bytes}
    (htext : ExtKeyText kp chain.toKeyParams
      (hdnodeSerializePublic (kp.withBase58 strsize) node chain) payload) : payload.length =
        78 := by
  obtain ⟨-, -, hlow, hhigh⟩ := prefixes_of_mem hchain
  have hback := htext.decode hchain
  rw [hdnodeSerializePublic_eq] at hback
  have hdecoded := (decode_encode hchain hstrsize hsized.chainCode hsized.publicKey hlow hhigh
    (Or.inl rfl)).symm.trans hback
  have hlen := congrArg List.length (Option.some.inj hdecoded)
  rw [List.length_append, List.length_append, Base58.length_checksum, Base58.length_checksum,
    length_nodeBytes hsized.chainCode hsized.publicKey] at hlen
  omega

/-- The first child of the node of a seed, and the text of its public key. -/
theorem hdnode_text_sample : ∃ node child, fromSeed sampleKeys [7] = some node ∧
    node.privateCkd sampleKeys 1 = child ∧ child.depth = 1 ∧
    (hdnodeDeserialize (sampleKeys.withBase58 HDKEYLEN)
      (hdnodeSerializePublic (sampleKeys.withBase58 HDKEYLEN) child sampleWalletParams)
      sampleWalletParams).isSome ∧
    ReadsBack (sampleKeys.withBase58 HDKEYLEN) sampleWalletParams
      (hdnodeSerializePublic (sampleKeys.withBase58 HDKEYLEN) child sampleWalletParams) ∧
    Restores (sampleKeys.withBase58 HDKEYLEN) sampleWalletParams child := by
  obtain ⟨node, hseed, hdepth⟩ : ∃ node, fromSeed sampleKeys [7] = some node ∧
    (node.privateCkd sampleKeys 1).depth = 1 := ⟨_, rfl, rfl⟩
  have hchild := (Reached.seed hseed).privateCkd 1
  have h := @hdnode_text_iff sampleKeys sampleWalletParams HDKEYLEN sampleCurve_bufferLaws
    (by decide) le_rfl
  generalize heq : node.privateCkd sampleKeys 1 = child at hdepth hchild
  have hrestores := (h.2 child hchild).mpr (by rw [hdepth]; decide)
  have hreads := (h.1 _).mpr fun _ =>
    @length_of_serializePublic sampleKeys sampleWalletParams HDKEYLEN (by decide)
    le_rfl child (hchild.fullSized sampleCurve_bufferLaws) _
  refine ⟨node, child, hseed, heq, hdepth, ?_, hreads, hrestores⟩
  rw [hrestores.publicKey]
  rfl

/-- The version of an extended public key alone is read. -/
theorem not_readsBack : ¬ ∀ (kp : KeyPlatform) (chain : WalletParams),
    chain.toKeyParams ∈ keyParamsAll →
    ∀ str, ReadsBack (kp.withBase58 HDKEYLEN) chain str := by
  intro hall
  have hreads := hall sampleKeys sampleWalletParams (by decide)
    (base58String ([2, 0xfa, 0xca, 0xfd] ++ checksum sampleKeys.toPlatform [2, 0xfa, 0xca, 0xfd]))
  rw [text_readsBack_iff (by decide) le_rfl] at hreads
  exact absurd (hreads [2, 0xfa, 0xca, 0xfd] ⟨by decide +kernel, rfl, Or.inl (by decide)⟩)
    (by decide)

end HdNodeText

end Libdogecoin
