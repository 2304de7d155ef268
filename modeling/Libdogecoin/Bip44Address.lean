/-
# Three ways to an address

`getDerivedHDAddressAsP2PKH` of `address.c` derives along a path with a fixed coin type,
`deriveBIP44ExtendedKey` of `bip44.c` along one with the coin type of the network, and
`getDerivedHDAddressFromAcctPubKey` goes on from a public account key.

* `Bip32.derivePub_of_derive` : public derivation follows private derivation;
* `getDerivedHDAddressAsP2PKH_eq`, `deriveBIP44ExtendedKey_eq`,
  `getDerivedHDAddressFromAcctPubKey_eq` : what the three calls give;
* `sameAddress_iff` : exactly when they give the same address.
-/
import Libdogecoin.HdReturn

namespace Libdogecoin

/-! ## Public and private derivation -/

namespace Bip32

variable {kp : KeyPlatform} {i : UInt32} {path : List UInt32}

/-- The extended public key of an extended private key. -/
def neuter (kp : KeyPlatform) (m : ExtKey) : ExtPub where
  key := kp.curve.eccGetPubkey m.key
  chainCode := m.chainCode

variable {m : ExtKey}

/-- What is left of the derivation of a private child: a valid child key. -/
theorem ckdPriv_eq_some {child : ExtKey} (h : ckdPriv kp m i = some child) :
    ∃ tweak, kp.curve.eccVerifyPrivatekey tweak = true ∧
      kp.curve.privkeyTweakAdd m.key tweak = (child.key, true) ∧
      (isHardened i = false →
        tweak = (kp.hmacSha512 m.chainCode (kp.curve.eccGetPubkey m.key ++ writeBe i)).1.take 32 ∧
        child.chainCode =
          (kp.hmacSha512 m.chainCode (kp.curve.eccGetPubkey m.key ++ writeBe i)).1.drop 32) ∧
      child.chainCode.length = 32 := by
  unfold ckdPriv at h
  dsimp only at h
  generalize hI : kp.hmacSha512 m.chainCode ((if isHardened i then 0 :: m.key
    else kp.curve.eccGetPubkey m.key) ++ writeBe i) = I at h
  split at h
  · next hvalid =>
      rw [Bool.and_eq_true] at hvalid
      obtain rfl := Option.some.inj h
      refine ⟨I.1.take 32, hvalid.1, Prod.ext rfl hvalid.2, ?_, ?_⟩
      · intro hi
        rw [hi, if_neg Bool.false_ne_true] at hI
        rw [hI]
        exact ⟨rfl, rfl⟩
      · rw [List.length_drop, I.2]
  · cases h

/-- One child: the public child of the public key is the public key of the private child. -/
theorem ckdPub_of_ckdPriv (hlaws : kp.curve.TweakLaws) {child : ExtKey}
    (hkey : kp.curve.seckeyVerify m.key = true) (hi : isHardened i = false)
    (h : ckdPriv kp m i = some child) :
    ckdPub kp (neuter kp m) i = some (neuter kp child) ∧
    kp.curve.seckeyVerify child.key = true := by
  obtain ⟨tweak, htweak, hadd, hhard, -⟩ := ckdPriv_eq_some h
  obtain ⟨heq, hchain⟩ := hhard hi
  refine ⟨?_, hlaws.verify_tweak hkey hadd⟩
  have hcomm := hlaws.tweak_comm hkey htweak hadd
  rw [heq] at hcomm
  unfold ckdPub neuter
  rw [hi, if_neg Bool.false_ne_true, hchain]
  dsimp only
  rw [hcomm]
  rfl

/-- **Public derivation follows private derivation** along a path that is not hardened. -/
theorem derivePub_of_derive (hlaws : kp.curve.TweakLaws) {child : ExtKey}
    (hkey : kp.curve.seckeyVerify m.key = true) (hpath : ∀ i ∈ path, isHardened i = false)
    (h : derive kp m path = some child) : derivePub kp (neuter kp m) path =
    some (neuter kp child) := by
  induction path generalizing m with
  | nil =>
    obtain rfl := Option.some.inj h
    rfl
  | cons i path ih =>
    obtain ⟨next, hstep, hrest⟩ := Option.bind_eq_some_iff.mp h
    obtain ⟨hpub, hnext⟩ := ckdPub_of_ckdPriv hlaws hkey (hpath i List.mem_cons_self) hstep
    unfold derivePub
    rw [List.foldlM_cons, hpub]
    exact ih hnext (fun j hj => hpath j (List.mem_cons_of_mem _ hj)) hrest

/-- Keys on a path are valid, with chain codes of 32 bytes. -/
theorem derive_valid (hlaws : kp.curve.TweakLaws) {child : ExtKey}
    (hkey : kp.curve.seckeyVerify m.key = true) (hchain : m.chainCode.length = 32)
    (h : derive kp m path = some child) :
    kp.curve.seckeyVerify child.key = true ∧ child.chainCode.length = 32 := by
  induction path generalizing m with
  | nil =>
    obtain rfl := Option.some.inj h
    exact ⟨hkey, hchain⟩
  | cons i path ih =>
    obtain ⟨next, hstep, hrest⟩ := Option.bind_eq_some_iff.mp h
    obtain ⟨tweak, -, hadd, -, hlen⟩ := ckdPriv_eq_some hstep
    exact ih (hlaws.verify_tweak hkey hadd) hlen hrest

end Bip32

namespace HdNode

variable {kp : KeyPlatform} {path : List UInt32}

/-- Public derivation of nodes along a path where BIP32 derives a key. -/
theorem extPub_foldl_publicCkd (hpath : ∀ i ∈ path, isHardened i = false) {node : HdNode}
    {child : Bip32.ExtPub} (h : Bip32.derivePub kp node.extPub path = some child) :
    (path.foldl (stepNode kp true) node).extPub = child := by
  induction path generalizing node with
  | nil => exact Option.some.inj h
  | cons i path ih =>
    have hi := hpath i List.mem_cons_self
    obtain ⟨next, hstep, hrest⟩ := Option.bind_eq_some_iff.mp h
    apply ih fun j hj => hpath j (List.mem_cons_of_mem _ hj)
    have hnext : (stepNode kp true node i).extPub = next := by
      rw [ckdPub_eq hi, Option.map_eq_some_iff] at hstep
      obtain ⟨pubkey, hadd, rfl⟩ := hstep
      show (node.publicCkd kp i).1.extPub = _
      rw [publicCkd_eq hi]
      unfold extPub Secp256k1.eccPublicKeyTweakAdd
      rw [hadd]
    rw [hnext]
    exact hrest

end HdNode

/-! ## The calls -/

namespace Bip44

open Wallet

/-- A chain with the field that only the wallet reads. -/
def withGenesis (chain : KeyParams) : WalletParams where
  toKeyParams := chain
  genesisblockhash :=
    if chain = keyParamsMain then dogecoinChainparamsMain.genesisblockhash
    else if chain = keyParamsTest then dogecoinChainparamsTest.genesisblockhash
    else dogecoinChainparamsRegtest.genesisblockhash

/-- `isTestnetFromB58Prefix`. -/
def isTestnetFromB58Prefix (address : Bytes) : Bool := chainFromB58Prefix address = keyParamsTest

/-- `is_testnet ? &dogecoin_chainparams_test : &dogecoin_chainparams_main`. -/
def chainOf (isTestnet : Bool) : WalletParams :=
  withGenesis (if isTestnet then keyParamsTest else keyParamsMain)

variable (wp : WalletPlatform)

/-- `dogecoin_hdnode_serialize_private`. -/
def hdnodeSerializePrivate (node : HdNode) (chain : WalletParams) : Bytes :=
  wp.base58EncodeCheck (writeBe chain.b58prefixBip32Privkey ++ [node.depth.toUInt8] ++
    writeBe node.fingerprint ++ writeBe node.childNum ++ node.chainCode ++ 0 :: node.privateKey)

/-- `dogecoin_hdnode_get_p2pkh_address`. -/
def hdnodeGetP2pkhAddress (node : HdNode) (chain : KeyParams) : Bytes :=
  wp.p2pkhAddrFromHash160 (wp.getHash160 node.publicKey) chain

/-- `getDerivedHDNodeByPath` into a node. It goes on with an empty node where the key cannot be
read. -/
def getDerivedHDNodeByPath (masterkey : Bytes) (derivedPath : List Char) (nodenew : HdNode) :
    HdNode × Bool :=
  let chain := withGenesis (chainFromB58Prefix masterkey)
  let read := hdnodeDeserialize wp masterkey chain
  let node := read.getD HdNode.zero
  let pubckd := !node.hasPrivkey
  let (nodenew, derived) := HdNode.hdGenerateKey wp.toKeyPlatform nodenew derivedPath
    (if pubckd then node.publicKey else node.privateKey) node.depth node.chainCode pubckd
  (nodenew, read.isSome && derived)

/-- `getDerivedHDAddressByPath` : the address that is written where it returns `true`. The node is
on the stack. -/
def getDerivedHDAddressByPath (masterkey : Bytes) (derivedPath : List Char) (stack : HdNode) :
    Option Bytes :=
  match getDerivedHDNodeByPath wp masterkey derivedPath stack with
  | (node, true) => some (hdnodeGetP2pkhAddress wp node (chainFromB58Prefix masterkey))
  | (_, false) => none

/-- The path text of `getDerivedHDAddressAsP2PKH`. -/
def p2pkhPathText (account : UInt32) (ischange : Bool) (addressindex : UInt32) : List Char :=
  ['m', '/', '4', '4', '\'', '/', '3', '\'', '/'] ++ Nat.toDigits 10 account.toNat ++ ['\'', '/'] ++
    Nat.toDigits 10 (if ischange then 1 else 0) ++ ['/'] ++ Nat.toDigits 10 addressindex.toNat

/-- `getDerivedHDAddressAsP2PKH` : `DERIVED_PATH_STRINGLEN` is 33. -/
def getDerivedHDAddressAsP2PKH (masterkey : Bytes) (account : UInt32) (ischange : Bool)
    (addressindex : UInt32) (stack : HdNode) : Option Bytes :=
  let derivedPath := p2pkhPathText account ischange addressindex
  if 33 ≤ derivedPath.length then none
  else getDerivedHDAddressByPath wp masterkey derivedPath stack

/-- The common part of `deriveBIP44ExtendedKey` and `deriveBIP44ExtendedPublicKey` : the derived
node is written with one of the serializations. -/
def deriveBIP44Extended (serialize : HdNode → WalletParams → Bytes) (hdPrivkeyMaster : Bytes)
    (account : Option UInt32) (changeLevel : Option (List Char)) (addressIndex : Option UInt32)
    (path : Option (List Char)) (stack : HdNode) : Option Bytes := do
  let isTestnet := isTestnetFromB58Prefix hdPrivkeyMaster
  let masterKey ← hdnodeDeserialize wp hdPrivkeyMaster (chainOf isTestnet)
  let derivedKey ← deriveBip44ExtendedKey wp.toKeyPlatform masterKey account
    addressIndex changeLevel path isTestnet stack
  some (serialize derivedKey (chainOf isTestnet))

/-- `deriveBIP44ExtendedKey` : what is written to `extkeyout`. -/
def deriveBIP44ExtendedKey (hdPrivkeyMaster : Bytes) (account : Option UInt32)
    (changeLevel : Option (List Char)) (addressIndex : Option UInt32) (path : Option (List Char))
    (stack : HdNode) : Option Bytes :=
  deriveBIP44Extended wp (hdnodeSerializePrivate wp) hdPrivkeyMaster account
    changeLevel addressIndex path stack

/-- `deriveBIP44ExtendedPublicKey` : what is written to `extkeyout`. -/
def deriveBIP44ExtendedPublicKey (hdPrivkeyMaster : Bytes) (account : Option UInt32)
    (changeLevel : Option (List Char)) (addressIndex : Option UInt32) (path : Option (List Char))
    (stack : HdNode) : Option Bytes :=
  deriveBIP44Extended wp (hdnodeSerializePublic wp) hdPrivkeyMaster account changeLevel addressIndex
    path stack

/-- The path text of `getDerivedHDAddressFromAcctPubKey`. -/
def acctPathText (changeLevel : List Char) (index : UInt32) : List Char :=
  ['m', '/'] ++ changeLevel ++ '/' :: Nat.toDigits 10 index.toNat

/-- `getDerivedHDAddressFromAcctPubKey` : the integer it returns and the address it writes. The
failures return `false`, which is the 0 of the success. -/
def getDerivedHDAddressFromAcctPubKey (accountExtPubkey : Option Bytes) (index : UInt32)
    (changeLevel : List Char) (isTestnet : Bool) (stack : HdNode) : ℤ × Option Bytes :=
  match accountExtPubkey with
  | none => (0, none)
  | some key =>
    match hdnodeDeserialize wp key (chainOf isTestnet) with
    | none => (0, none)
    | some accountNode =>
      match HdNode.hdGenerateKey wp.toKeyPlatform stack (acctPathText changeLevel index)
          accountNode.publicKey accountNode.depth accountNode.chainCode true with
      | (_, false) => (0, none)
      | (derivedNode, true) =>
        (0, some (hdnodeGetP2pkhAddress wp derivedNode (chainOf isTestnet).toKeyParams))

/-- The P2PKH address of an extended key of a network. -/
def extKeyAddress (extkey : Bytes) (isTestnet : Bool) : Option Bytes :=
  (hdnodeDeserialize wp extkey (chainOf isTestnet)).map fun node =>
    hdnodeGetP2pkhAddress wp node (chainOf isTestnet).toKeyParams

/-! ## Paths -/

theorem p2pkhPathText_eq (account : UInt32) (change : Bool) (index : UInt32) :
    p2pkhPathText account change index =
      HdNode.keyPath (accountComponents 3 account ++ addressComponents change index) := by
  obtain ⟨h44, h3, -, h0, h1⟩ := component_fixed
  have hone : Nat.toDigits 10 1 = ['1'] := by decide
  have hzero : Nat.toDigits 10 0 = ['0'] := by decide
  cases change <;>
    simp [p2pkhPathText, accountComponents, addressComponents, HdNode.keyPath, h44, h3, h0,
      h1, hzero, hone,
      component_hardened account, component_plain index, List.intercalate, List.intersperse]

theorem keypathText_account (account : UInt32) (isTestnet : Bool) :
    keypathText (some account) none none none isTestnet =
      HdNode.keyPath (accountComponents (coinType isTestnet) account) := by
  obtain ⟨h44, h3, h1, -, -⟩ := component_fixed
  cases isTestnet <;>
    simp [keypathText, coinPath, coinType, accountComponents, HdNode.keyPath, h44, h3, h1,
      component_hardened account, List.intercalate, List.intersperse]

/-! ## What the calls give -/

/-- A valid extended private key of the main network or of the test network, with its node. -/
structure MasterKey (wp : WalletPlatform) (str : Bytes) (node : HdNode) : Prop where
  network : chainFromB58Prefix str = keyParamsMain ∨ chainFromB58Prefix str = keyParamsTest
  deserialize : hdnodeDeserialize wp str (withGenesis (chainFromB58Prefix str)) = some node
  hasPrivkey : node.hasPrivkey = true
  valid : wp.curve.seckeyVerify node.privateKey = true

/-- The sizes of keys, which the types of the source fix. -/
structure SizeLaws (cv : Secp256k1) : Prop where
  length_key : ∀ {key : Bytes}, cv.seckeyVerify key = true → key.length = 32
  length_pubkey : ∀ key : Bytes, (cv.eccGetPubkey key).length = 33

/-- What is relied on of Base58Check for the extended keys of a chain. -/
structure XprvLaws (wp : WalletPlatform) (chain : WalletParams) :
    Prop extends wp.Base58Laws chain where
  length_xprv : ∀ rest : Bytes, rest.length = 74 →
    (wp.base58EncodeCheck (writeBe chain.b58prefixBip32Privkey ++ rest)).length ≤ 111

/-- The key of an address under a master key. -/
def addressKey (wp : WalletPlatform) (node : HdNode) (coin account : UInt32) (change : Bool)
    (index : UInt32) : Option Bip32.ExtKey :=
  Bip32.derive wp.toKeyPlatform node.extKey
    (childNumbers (accountComponents coin account ++ addressComponents change index))

/-- The address of a private key. -/
def keyAddress (wp : WalletPlatform) (child : Bip32.ExtKey) (chain : KeyParams) : Bytes :=
  wp.p2pkhAddrFromHash160 (wp.getHash160 (wp.curve.eccGetPubkey child.key)) chain

variable {wp} {str : Bytes} {node stack : HdNode} {account index : UInt32} {change : Bool}
  {child : Bip32.ExtKey}

theorem chainOf_isTestnet (h : MasterKey wp str node) :
    chainOf (isTestnetFromB58Prefix str) = withGenesis (chainFromB58Prefix str) := by
  unfold chainOf isTestnetFromB58Prefix
  rcases h.network with hmain | htest
  · rw [hmain]
    rfl
  · rw [htest]
    rfl

/-- The node of a valid private key: its chain code has 32 bytes. -/
theorem MasterKey.length_chainCode (h : MasterKey wp str node) : node.chainCode.length = 32 := by
  have hread := h.deserialize
  unfold hdnodeDeserialize at hread
  rw [Option.bind_eq_bind, Option.bind_eq_some_iff] at hread
  obtain ⟨dec, -, hread⟩ := hread
  have hlen : (((dec ++ List.replicate (112 - dec.length) (0 : UInt8)).drop 13).take 32).length =
    32 := by
    rw [List.length_take, List.length_drop, List.length_append, List.length_replicate]
    omega
  dsimp only at hread
  split at hread
  · obtain rfl := Option.some.inj hread
    exact hlen
  · split at hread
    · split at hread
      · cases hread
      · obtain rfl := Option.some.inj hread
        exact hlen
    · cases hread

/-- The derivation from the node of a key starts at that key. -/
theorem derive_pathStart {path : List UInt32} (h : Bip32.derive wp.toKeyPlatform node.extKey path =
    some child) :
    (path.foldl (HdNode.privateCkd wp.toKeyPlatform)
        (HdNode.pathStart wp.toKeyPlatform node.privateKey node.depth
          node.chainCode)).extKey = child ∧
      (path.foldl (HdNode.privateCkd wp.toKeyPlatform)
        (HdNode.pathStart wp.toKeyPlatform node.privateKey node.depth node.chainCode)).publicKey =
        wp.curve.eccGetPubkey child.key :=
  HdNode.foldl_privateCkd rfl h

/-- **The first call** derives with the fixed coin type, if the text of the path has room. -/
theorem getDerivedHDAddressAsP2PKH_eq (h : MasterKey wp str node)
    (hchild : addressKey wp node 3 account change index = some child) :
    getDerivedHDAddressAsP2PKH wp str account change index stack =
      if 33 ≤ (p2pkhPathText account change index).length then none
      else some (keyAddress wp child (chainFromB58Prefix str)) := by
  have hpath := components_ne_nil 3 account change index
  have hnode : getDerivedHDNodeByPath wp str (p2pkhPathText account change index) stack =
      ((childNumbers (accountComponents 3 account ++ addressComponents change index)).foldl
        (HdNode.privateCkd wp.toKeyPlatform)
        (HdNode.pathStart wp.toKeyPlatform node.privateKey node.depth node.chainCode), true) := by
    unfold getDerivedHDNodeByPath
    dsimp only
    rw [h.deserialize, Option.getD_some, h.hasPrivkey, Bool.not_true, p2pkhPathText_eq,
      if_neg Bool.false_ne_true, HdNode.hdGenerateKey_keyPath hpath]
    rfl
  obtain ⟨-, hpub⟩ := derive_pathStart hchild
  unfold getDerivedHDAddressAsP2PKH getDerivedHDAddressByPath
  dsimp only
  rw [hnode]
  dsimp only
  unfold hdnodeGetP2pkhAddress keyAddress
  rw [hpub]

/-- An extended private key that was written is read back, with its public key. -/
theorem hdnodeDeserialize_serializePrivate {chain : WalletParams} (hbase58 : XprvLaws wp chain)
    (hne : chain.b58prefixBip32Privkey ≠ chain.b58prefixBip32Pubkey)
    (hchain : node.chainCode.length = 32) (hkey : node.privateKey.length = 32) :
    hdnodeDeserialize wp (hdnodeSerializePrivate wp node chain) chain =
      some { node with
        depth := node.depth.toUInt8.toUInt32
        publicKey := wp.curve.eccGetPubkey node.privateKey } := by
  have hlen : (hdnodeSerializePrivate wp node chain).length ≤ 111 := by
    unfold hdnodeSerializePrivate
    simp only [List.append_assoc]
    apply hbase58.length_xprv
    simp [hchain, hkey]
  have hkey33 : (0 :: node.privateKey).length = 33 := by rw [List.length_cons, hkey]
  unfold hdnodeSerializePrivate at hlen ⊢
  simp only [List.append_assoc] at hlen ⊢
  have hdecode := hbase58.decode_xpub _ (by simp [hchain, hkey]) hlen
  rw [hdnodeDeserialize_of_nodeBytes hchain hkey33 hdecode, if_neg hne, if_pos rfl]
  rfl

theorem prefix_ne (isTestnet : Bool) :
    (chainOf isTestnet).b58prefixBip32Privkey ≠ (chainOf isTestnet).b58prefixBip32Pubkey := by
  cases isTestnet with
  | false => decide
  | true => decide

theorem length_keypathText_account (account : UInt32) (isTestnet : Bool) :
    (keypathText (some account) none none none isTestnet).length ≤ 254 := by
  have ha := length_toDigits_le account
  simp only [keypathText, List.length_append, List.length_cons, List.length_nil, length_coinPath]
  omega

/-- No step from an account to an address is hardened. -/
theorem isHardened_addressComponents {change : Bool} {index : UInt32}
    (hindex : index.toNat < 2 ^ 31) :
    ∀ i ∈ childNumbers (addressComponents change index), isHardened i = false := by
  intro i hi
  have hmem : i = (if change then 1 else 0) ∨ i = index := by
    simpa [childNumbers, addressComponents, HdNode.childNumber] using hi
  rcases hmem with rfl | rfl
  · cases change with
    | false => decide
    | true => decide
  · exact HdNode.isHardened_of_lt hindex

/-- **The second call** derives with the coin type of the network. -/
theorem deriveBIP44ExtendedKey_eq (hlaws : wp.curve.TweakLaws) (hsizes : SizeLaws wp.curve)
    (hbase58 : XprvLaws wp (chainOf (isTestnetFromB58Prefix str))) (h : MasterKey wp str node)
    (hchild : addressKey wp node (coinType (isTestnetFromB58Prefix str)) account change index =
      some child) :
    ∃ extkey, deriveBIP44ExtendedKey wp str (some account) (some (changeText change))
      (some index) none stack = some extkey ∧
      extKeyAddress wp extkey (isTestnetFromB58Prefix str) =
        some (keyAddress wp child (chainFromB58Prefix str)) := by
  have hchain := chainOf_isTestnet h
  generalize ht : isTestnetFromB58Prefix str = isTestnet at hchain hbase58 hchild
  have hderive := @deriveBip44ExtendedKey_keyPath wp.toKeyPlatform node stack
    (some account) (some index)
    (some (changeText change)) isTestnet _ (components_ne_nil _ account change index)
    (changeText_valid change)
    (keypathText_address account index change isTestnet)
      (length_keypathText_address account index change isTestnet)
  obtain ⟨hext, -⟩ := derive_pathStart hchild
  obtain ⟨hvalid, hcode⟩ := Bip32.derive_valid hlaws h.valid h.length_chainCode hchild
  generalize hderived : (childNumbers _).foldl _ _ = derived at hderive hext
  have hkey : derived.privateKey = child.key := congrArg Bip32.ExtKey.key hext
  have hcode' : derived.chainCode = child.chainCode := congrArg Bip32.ExtKey.chainCode hext
  refine ⟨hdnodeSerializePrivate wp derived (chainOf isTestnet), ?_, ?_⟩
  · unfold deriveBIP44ExtendedKey deriveBIP44Extended
    rw [ht]
    dsimp only
    rw [hchain, h.deserialize, Option.bind_eq_bind, Option.bind_some, hderive]
    rfl
  · unfold extKeyAddress
    rw [hdnodeDeserialize_serializePrivate hbase58 (prefix_ne isTestnet) (by rw [hcode', hcode])
      (by rw [hkey, hsizes.length_key hvalid]), hchain]
    unfold hdnodeGetP2pkhAddress keyAddress
    rw [Option.map_some, hkey]
    rfl

/-- The path from an account to an address is the one that public keys are derived along. -/
theorem acctPathText_eq (change : Bool) (index : UInt32) :
    acctPathText (changeText change) index =
      HdNode.childPath (childNumbers (addressComponents change index)) := by
  have hnumbers : childNumbers (addressComponents change index) =
    [if change then 1 else 0, index] := rfl
  have hone : Nat.toDigits 10 1 = ['1'] := by decide
  have hzero : Nat.toDigits 10 0 = ['0'] := by decide
  rw [hnumbers]
  cases change with
  | false =>
    simp [acctPathText, changeText, changeExternal, HdNode.childPath, List.intercalate,
      List.intersperse, hzero]
  | true =>
    simp [acctPathText, changeText, changeInternal, HdNode.childPath, List.intercalate,
      List.intersperse, hone]

/-- Public derivation along a path of child numbers that are not hardened. -/
theorem hdGenerateKey_public {kp : KeyPlatform} {is : List UInt32} (hne : is ≠ [])
    (hi : ∀ i ∈ is, isHardened i = false) (out : HdNode) (key : Bytes) (depth : UInt32)
    (chaincode : Bytes) :
    HdNode.hdGenerateKey kp out (HdNode.childPath is) key depth chaincode true =
      (is.foldl (HdNode.stepNode kp true) (HdNode.startNode kp out key depth chaincode true),
        true) := by
  have hloop : ∀ (is : List UInt32) (node : HdNode), (∀ i ∈ is, isHardened i = false) →
      HdNode.deriveTokens kp true (is.map fun i => Nat.toDigits 10 i.toNat) node =
        (is.foldl (HdNode.stepNode kp true) node, true) := by
    intro is
    induction is with
    | nil => exact fun _ _ => rfl
    | cons i is ih =>
      intro node hi
      rw [List.map_cons, HdNode.deriveTokens, HdNode.deriveToken_toDigits, if_pos rfl,
        HdNode.publicCkd_eq (hi i List.mem_cons_self)]
      dsimp only
      rw [ih _ fun j hj => hi j (List.mem_cons_of_mem _ hj), List.foldl_cons]
      unfold HdNode.stepNode
      rw [if_pos rfl, HdNode.publicCkd_eq (hi i List.mem_cons_self)]
  show HdNode.deriveTokens kp true (HdNode.strtok _)
    (HdNode.startNode kp out key depth chaincode true) = _
  rw [HdNode.strtok_childPath hne, hloop is _ hi]

/-- **The third call** goes on from the account key with public derivation. -/
theorem getDerivedHDAddressFromAcctPubKey_eq (hlaws : wp.curve.TweakLaws)
    (hsizes : SizeLaws wp.curve) (hbase58 : XprvLaws wp (chainOf (isTestnetFromB58Prefix str)))
    (h : MasterKey wp str node) (hindex : index.toNat < 2 ^ 31)
    (hchild : addressKey wp node (coinType (isTestnetFromB58Prefix str)) account change index =
      some child) :
    ∃ acctkey, deriveBIP44ExtendedPublicKey wp str (some account) none none none stack =
        some acctkey ∧
      getDerivedHDAddressFromAcctPubKey wp (some acctkey) index (changeText change)
        (isTestnetFromB58Prefix str) stack =
        (0, some (keyAddress wp child (chainFromB58Prefix str))) := by
  have hchain := chainOf_isTestnet h
  generalize ht : isTestnetFromB58Prefix str = isTestnet at hchain hbase58 hchild
  have hnone : ∀ level ∈ (none : Option (List Char)), level = changeExternal ∨
    level = changeInternal := by
    intro level hmem
    cases hmem
  have hderive := @deriveBip44ExtendedKey_keyPath wp.toKeyPlatform node stack (some account) none
    none isTestnet _
    (List.cons_ne_nil _ _) hnone (keypathText_account account isTestnet)
      (length_keypathText_account account isTestnet)
  -- the account key lies on the way to the key of the address
  unfold addressKey childNumbers Bip32.derive at hchild
  rw [List.map_append, List.foldlM_append, Option.bind_eq_bind, Option.bind_eq_some_iff] at hchild
  obtain ⟨acct, hacct, hchild⟩ := hchild
  obtain ⟨hext, hpub⟩ := derive_pathStart hacct
  obtain ⟨hvalid, hcode⟩ := Bip32.derive_valid hlaws h.valid h.length_chainCode hacct
  have hpath := @isHardened_addressComponents change index hindex
  have hne : childNumbers (addressComponents change index) ≠ [] := List.cons_ne_nil _ _
  have hpublic := Bip32.derivePub_of_derive hlaws hvalid hpath hchild
  generalize hderived : (childNumbers _).foldl _ _ = derived at hderive
  have hextNode : derived.extKey = acct := by
    rw [← hderived]
    exact hext
  have hpubNode : derived.publicKey = wp.curve.eccGetPubkey acct.key := by
    rw [← hderived]
    exact hpub
  have hcodeNode : derived.chainCode = acct.chainCode := congrArg Bip32.ExtKey.chainCode hextNode
  have hsized : derived.Sized := ⟨by rw [hcodeNode, hcode], by rw [hpubNode, hsizes.length_pubkey]⟩
  refine ⟨hdnodeSerializePublic wp derived (chainOf isTestnet), ?_, ?_⟩
  · unfold deriveBIP44ExtendedPublicKey deriveBIP44Extended
    rw [ht]
    dsimp only
    rw [hchain, h.deserialize, Option.bind_eq_bind, Option.bind_some, hderive]
    rfl
  · have hread := hdnodeDeserialize_serializePublic hbase58.toBase58Laws hsized
    have hstart : (HdNode.startNode wp.toKeyPlatform stack derived.publicKey
        derived.depth.toUInt8.toUInt32 derived.chainCode true).extPub =
          Bip32.neuter wp.toKeyPlatform acct := by
      unfold HdNode.startNode HdNode.extPub Bip32.neuter
      rw [if_pos rfl, hpubNode, hcodeNode]
    rw [← hstart] at hpublic
    have hlast := congrArg Bip32.ExtPub.key (HdNode.extPub_foldl_publicCkd hpath hpublic)
    unfold getDerivedHDAddressFromAcctPubKey
    dsimp only
    rw [hread, acctPathText_eq]
    dsimp only
    rw [hdGenerateKey_public hne hpath]
    dsimp only
    generalize (childNumbers (addressComponents change index)).foldl _ _ = last at hlast ⊢
    have hkey : last.publicKey = wp.curve.eccGetPubkey child.key := hlast
    unfold hdnodeGetP2pkhAddress keyAddress
    rw [hkey, hchain]
    rfl

/-! ## When the calls agree -/

/-- The text of the path of the first call has room unless both numbers have ten digits. -/
theorem length_p2pkhPathText (account : UInt32) (change : Bool) (index : UInt32) :
    (p2pkhPathText account change index).length < 33 ↔ account.toNat < 10 ^ 9 ∨
    index.toNat < 10 ^ 9 := by
  have ha := length_toDigits_le account
  have hi := length_toDigits_le index
  have ha9 : (Nat.toDigits 10 account.toNat).length ≤ 9 ↔ account.toNat < 10 ^ 9 :=
    Nat.length_toDigits_le_iff (by decide) (by decide)
  have hi9 : (Nat.toDigits 10 index.toNat).length ≤ 9 ↔ index.toNat < 10 ^ 9 :=
    Nat.length_toDigits_le_iff (by decide) (by decide)
  have hc : (Nat.toDigits 10 (if change then 1 else 0)).length = 1 := by
    cases change with
    | false => rfl
    | true => rfl
  simp only [p2pkhPathText, List.length_append, List.length_cons, List.length_nil, hc]
  omega

/-- The three calls write the same address, and the third returns 0. -/
def SameAddress (wp : WalletPlatform) (str : Bytes) (account : UInt32) (change : Bool)
    (index : UInt32) (stack : HdNode) : Prop :=
  ∃ address extkey acctkey,
    getDerivedHDAddressAsP2PKH wp str account change index stack = some address ∧
    deriveBIP44ExtendedKey wp str (some account) (some (changeText change))
      (some index) none stack =
      some extkey ∧
    extKeyAddress wp extkey (isTestnetFromB58Prefix str) = some address ∧
    deriveBIP44ExtendedPublicKey wp str (some account) none none none stack = some acctkey ∧
    getDerivedHDAddressFromAcctPubKey wp (some acctkey) index (changeText change)
      (isTestnetFromB58Prefix str) stack = (0, some address)

/-- The third call returns 0 whatever it wrote. -/
theorem acctPubKey_returns (key : Option Bytes) (index : UInt32) (changeLevel : List Char)
    (isTestnet : Bool) (stack : HdNode) :
    (getDerivedHDAddressFromAcctPubKey wp key index changeLevel isTestnet stack).1 = 0 := by
  unfold getDerivedHDAddressFromAcctPubKey
  split
  · rfl
  · split
    · rfl
    · split
      · rfl
      · rfl

/-- The third call writes an address just if it can read the account key and the path. -/
theorem acctPubKey_writes_iff (key : Option Bytes) (index : UInt32) (changeLevel : List Char)
    (isTestnet : Bool) (stack : HdNode) :
    (getDerivedHDAddressFromAcctPubKey wp key index changeLevel isTestnet stack).2.isSome = true ↔
      (∃ str ∈ key, (hdnodeDeserialize wp str (chainOf isTestnet)).isSome = true) ∧
        (HdNode.pathIndices true (acctPathText changeLevel index)).isSome = true := by
  unfold getDerivedHDAddressFromAcctPubKey
  cases key with
  | none =>
    apply iff_of_false Bool.false_ne_true
    rintro ⟨⟨_, hmem, _⟩, _⟩
    cases hmem
  | some str =>
    dsimp only
    cases hread : hdnodeDeserialize wp str (chainOf isTestnet) with
    | none =>
      apply iff_of_false Bool.false_ne_true
      rintro ⟨⟨_, hmem, hsome⟩, -⟩
      obtain rfl := Option.some.inj hmem
      rw [hread] at hsome
      cases hsome
    | some node =>
      have hsome : ∃ s ∈ some str, (hdnodeDeserialize wp s (chainOf isTestnet)).isSome = true :=
        ⟨str, rfl, by rw [hread]; rfl⟩
      rw [and_iff_right hsome, Option.isSome_iff_exists]
      dsimp only
      split
      · next out hcall =>
          rw [← Option.isSome_iff_exists]
          apply iff_of_false Bool.false_ne_true
          intro hpath
          obtain ⟨is, his⟩ := Option.isSome_iff_exists.mp hpath
          have htrue := (@HdNode.hdGenerateKey_eq_true_iff wp.toKeyPlatform true stack _
            (acctPathText changeLevel index) node.publicKey node.depth node.chainCode).mpr ⟨is,
              his, rfl⟩
          rw [hcall] at htrue
          exact Bool.false_ne_true (Prod.mk.inj htrue).2
      · next derived hcall =>
          obtain ⟨is, his, -⟩ := (@HdNode.hdGenerateKey_eq_true_iff wp.toKeyPlatform
            true stack derived
            (acctPathText changeLevel index) node.publicKey node.depth node.chainCode).mp hcall
          exact iff_of_true ⟨_, rfl⟩ (by rw [his]; rfl)

/-- **When the three ways agree.** For a valid master key, an account, an index below 2^31 and a
level for which BIP32 derives the keys with both coin types, the calls write the same address just
if one of the numbers has at most nine digits and, on the test network, the coin types 3 and 1 lead
to the same address. And for every key, index and level, the third call returns 0 exactly when it
wrote an address, just if it could read the key and the path. -/
theorem sameAddress_iff (hlaws : wp.curve.TweakLaws) (hsizes : SizeLaws wp.curve)
    (hbase58 : XprvLaws wp (chainOf (isTestnetFromB58Prefix str))) (h : MasterKey wp str node)
    (hindex : index.toNat < 2 ^ 31) {child3 : Bip32.ExtKey}
    (hchild3 : addressKey wp node 3 account change index = some child3)
    (hchild : addressKey wp node (coinType (isTestnetFromB58Prefix str)) account change index =
      some child) :
    (SameAddress wp str account change index stack ↔
      (account.toNat < 10 ^ 9 ∨ index.toNat < 10 ^ 9) ∧
        (isTestnetFromB58Prefix str = true →
          keyAddress wp child3 keyParamsTest = keyAddress wp child keyParamsTest)) ∧
    ∀ (key : Option Bytes) (index : UInt32) (changeLevel : List Char) (isTestnet : Bool),
      (((getDerivedHDAddressFromAcctPubKey wp key index changeLevel isTestnet stack).1 = 0 ↔
          (getDerivedHDAddressFromAcctPubKey wp key index changeLevel isTestnet
            stack).2.isSome = true) ↔
        (∃ str ∈ key, (hdnodeDeserialize wp str (chainOf isTestnet)).isSome = true) ∧
          (HdNode.pathIndices true (acctPathText changeLevel index)).isSome = true) := by
  refine ⟨?_, ?_⟩
  · have hfirst := @getDerivedHDAddressAsP2PKH_eq wp str node stack account index change
      child3 h hchild3
    obtain ⟨extkey, hext, hextAddress⟩ := @deriveBIP44ExtendedKey_eq wp str node stack account index
      change child hlaws hsizes hbase58 h hchild
    obtain ⟨acctkey, hacct, hacctAddress⟩ := @getDerivedHDAddressFromAcctPubKey_eq wp str node stack
      account index change child hlaws hsizes hbase58 h hindex hchild
    have hsame : (keyAddress wp child3 (chainFromB58Prefix str) =
      keyAddress wp child (chainFromB58Prefix str)) ↔
        (isTestnetFromB58Prefix str = true →
          keyAddress wp child3 keyParamsTest = keyAddress wp child keyParamsTest) := by
      rcases h.network with hmain | htest
      · have hnot : isTestnetFromB58Prefix str = false := by
          unfold isTestnetFromB58Prefix
          rw [hmain]
          decide
        rw [hnot] at hchild
        obtain rfl := Option.some.inj (hchild3.symm.trans hchild)
        exact iff_of_true rfl fun _ => rfl
      · have htrue : isTestnetFromB58Prefix str = true := decide_eq_true htest
        rw [htest]
        exact ⟨fun heq _ => heq, fun himp => himp htrue⟩
    rw [← length_p2pkhPathText account change index, ← hsame]
    constructor
    · rintro ⟨address, extkey', acctkey', hone, htwo, htwoAddress, -, -⟩
      rw [hfirst] at hone
      rw [hext] at htwo
      obtain rfl := Option.some.inj htwo
      rw [hextAddress] at htwoAddress
      split at hone
      · cases hone
      · next hroom =>
          exact ⟨Nat.lt_of_not_le hroom, Option.some.inj (hone.trans htwoAddress.symm)⟩
    · rintro ⟨hroom, heq⟩
      refine ⟨keyAddress wp child (chainFromB58Prefix str), extkey, acctkey, ?_, hext, hextAddress,
        hacct, hacctAddress⟩
      rw [hfirst, if_neg (Nat.not_le_of_lt hroom), heq]
  · intro key index changeLevel isTestnet
    rw [acctPubKey_returns, ← acctPubKey_writes_iff]
    exact iff_of_eq (by rw [eq_self_iff_true, true_iff])

/-! ## Fixed inputs -/

theorem sampleWalletCurve_sizeLaws : SizeLaws sampleWalletCurve := by
  have hlen : ∀ {key : Bytes}, sampleWalletCurve.seckeyVerify key = true → key.length = 32 :=
    fun h => (of_decide_eq_true h).1
  refine ⟨hlen, ?_⟩
  intro key
  show ((if sampleCurve.seckeyVerify key = true then some (2 :: key) else none).getD _).length = 33
  split
  · next h => exact congrArg Nat.succ (hlen h)
  · rfl

theorem sampleWallet_xprvLaws (chain : WalletParams) : XprvLaws sampleWallet chain where
  toBase58Laws := sampleWallet_base58Laws chain
  length_xprv := by
    intro rest hrest
    have hle := length_base64Encode_le (writeBe chain.b58prefixBip32Privkey ++ rest)
    rw [List.length_append, hrest, length_writeBe] at hle
    show (base64Encode _).length + 1 ≤ 111
    omega

/-- The node of a master key. -/
def sampleMasterNode : HdNode :=
  HdNode.pathStart sampleWallet.toKeyPlatform (1 :: List.replicate 31 0) 0 (List.replicate 32 7)

/-- A master key of the main network. -/
def sampleXprv : Bytes := hdnodeSerializePrivate sampleWallet sampleMasterNode (chainOf false)

/-- The key under the master key: the tweak of every step is a row of ones. -/
def sampleAddressKey : Bip32.ExtKey where
  key := 6 :: List.replicate 31 5
  chainCode := List.replicate 32 1

/-- The equivalences for a master key of the main network, the account 0, the inner level and the
index 5. -/
theorem sameAddress_iff_sample :
    (SameAddress sampleWallet sampleXprv 0 true 5 HdNode.zero ↔
      (UInt32.toNat 0 < 10 ^ 9 ∨ UInt32.toNat 5 < 10 ^ 9) ∧
        (isTestnetFromB58Prefix sampleXprv = true →
          keyAddress sampleWallet sampleAddressKey keyParamsTest =
            keyAddress sampleWallet sampleAddressKey keyParamsTest)) ∧
    ∀ (key : Option Bytes) (index : UInt32) (changeLevel : List Char) (isTestnet : Bool),
      (((getDerivedHDAddressFromAcctPubKey sampleWallet key index changeLevel isTestnet
            HdNode.zero).1 = 0 ↔
          (getDerivedHDAddressFromAcctPubKey sampleWallet key index changeLevel isTestnet
            HdNode.zero).2.isSome = true) ↔
        (∃ str ∈ key, (hdnodeDeserialize sampleWallet str (chainOf isTestnet)).isSome = true) ∧
          (HdNode.pathIndices true (acctPathText changeLevel index)).isSome = true) :=
  have hmaster : MasterKey sampleWallet sampleXprv sampleMasterNode :=
    ⟨Or.inl (by decide +kernel), by decide +kernel, by decide +kernel, by decide +kernel⟩
  sameAddress_iff sampleWalletCurve_tweakLaws sampleWalletCurve_sizeLaws (sampleWallet_xprvLaws _)
    hmaster (by decide) (by decide +kernel) (by decide +kernel)

/-- A platform whose extended keys of the two networks begin with different letters, and whose HMAC
shows the child number. -/
def networkWallet : WalletPlatform :=
  { sampleWallet with
    hmacSha512 := fun _ data => ⟨(1 :: (data.drop 33).take 4 ++ List.replicate 64 7).take 64, by
      rw [List.length_take, List.length_append, List.length_replicate]
      exact Nat.min_eq_left (Nat.le_add_left _ _)⟩
    base58EncodeCheck := fun bs => (if bs.headD 0 = 4 then 116 else 68) :: base64Encode bs }

/-- A master key of a network. -/
def networkMaster (isTestnet : Bool) : Bytes :=
  hdnodeSerializePrivate networkWallet
    (HdNode.pathStart networkWallet.toKeyPlatform (5 :: List.replicate 31 0) 0
      (List.replicate 32 7))
    (chainOf isTestnet)

example : isTestnetFromB58Prefix (networkMaster true) = true := by decide +kernel

/-- On the test network the first two calls write different addresses; on the main network the first
writes none for two numbers of ten digits; and the third returns 0 for a key that it cannot read. -/
theorem not_sameAddress_network :
    (getDerivedHDAddressAsP2PKH networkWallet (networkMaster true) 0 false 0
      HdNode.zero).isSome = true ∧
    getDerivedHDAddressAsP2PKH networkWallet (networkMaster true) 0 false 0 HdNode.zero ≠
      (deriveBIP44ExtendedKey networkWallet (networkMaster true) (some 0)
        (some changeExternal) (some 0) none HdNode.zero).bind (extKeyAddress networkWallet · true) ∧
    getDerivedHDAddressAsP2PKH networkWallet (networkMaster false) 1000000000 false 1000000000
      HdNode.zero = none ∧
    getDerivedHDAddressFromAcctPubKey networkWallet (some []) 0 changeExternal false HdNode.zero =
      (0, none) := by
  refine ⟨?_, ?_, ?_, ?_⟩
  · decide +kernel
  · decide +kernel
  · decide +kernel
  · decide +kernel

end Bip44

end Libdogecoin
