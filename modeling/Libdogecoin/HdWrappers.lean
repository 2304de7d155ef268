/-
# The calls on the text of an extended key

Six calls read an extended key, derive along a path where one is given, and write a key or an
address. The ones of `bip32.c` and two of `address.c` do not look at what the steps return: a node
on the stack is zeroed before a key is read, and keeps what it held where a path is refused.

* `Honest` : success is reported just where all steps succeed, with the text of the node that was
  derived;
* `hd_wrappers_iff` : for each call, exactly when it is honest.
-/
import Libdogecoin.HdKeyPath
import Libdogecoin.HdNodeText

namespace Libdogecoin

namespace HdWrappers

open Bip44 HdNode HdNodeText Wallet

/-- The length of an address with its terminator. -/
def P2PKHLEN : ℕ := 35

variable (wp : WalletPlatform)

/-- `dogecoin_hdnode_deserialize` into a node, with the value it returns. A refused key leaves
zeros. -/
def deserializeInto (str : Bytes) (chain : WalletParams) : HdNode × Bool :=
  match hdnodeDeserialize wp str chain with
  | some node => (node, true)
  | none => (HdNode.zero, false)

/-- `getHDPubKey` : the value it returns and what it writes. -/
def getHDPubKey (hdkey : Bytes) (isTestnet : Bool) : Bool × Option Bytes :=
  let node := (deserializeInto wp hdkey (chainOf isTestnet)).1
  (true, some (hdnodeSerializePublic wp node (chainOf isTestnet)))

/-- `deriveExtKeyFromHDKey`. The node is on the stack. -/
def deriveExtKeyFromHDKey (stack : HdNode) (extkey : Bytes) (keypath : List Char)
    (isTestnet : Bool) :
    Bool × Option Bytes :=
  let parent := (deserializeInto wp extkey (chainOf isTestnet)).1
  let node := (hdGenerateKey wp.toKeyPlatform stack keypath parent.privateKey parent.depth
    parent.chainCode false).1
  (true, some (hdnodeSerializePrivate wp node (chainOf isTestnet)))

/-- `deriveExtPubKeyFromHDKey`. -/
def deriveExtPubKeyFromHDKey (stack : HdNode) (extpubkey : Bytes) (keypath : List Char)
    (isTestnet : Bool) :
    Bool × Option Bytes :=
  let parent := (deserializeInto wp extpubkey (chainOf isTestnet)).1
  let node := (hdGenerateKey wp.toKeyPlatform stack keypath parent.publicKey parent.depth
    parent.chainCode true).1
  (true, some (hdnodeSerializePublic wp node (chainOf isTestnet)))

/-- `generateDerivedHDPubkey` : the network is that of the first character. -/
def generateDerivedHDPubkey (hdPrivkeyMaster : Bytes) : Bool × Option Bytes :=
  let chain := chainFromB58Prefix hdPrivkeyMaster
  let node := (deserializeInto wp hdPrivkeyMaster (withGenesis chain)).1
  (true, some (hdnodeGetP2pkhAddress wp node chain))

/-- `verifyHDMasterPubKeypair`. -/
def verifyHDMasterPubKeypair (hdPrivkeyMaster p2pkhPubkeyMaster : Bytes)
    (isTestnet : Bool) : Bool :=
  let node := (deserializeInto wp hdPrivkeyMaster (chainOf isTestnet)).1
  p2pkhPubkeyMaster = hdnodeGetP2pkhAddress wp node (chainOf isTestnet).toKeyParams

/-- `getDerivedHDKeyByPath`, with one of the serializations. -/
def getDerivedHDKeyByPath (masterkey : Bytes) (derivedPath : List Char) (outprivkey : Bool)
    (stack : HdNode) :
    Bool × Option Bytes :=
  match getDerivedHDNodeByPath wp masterkey derivedPath stack with
  | (node, true) =>
    let chain := withGenesis (chainFromB58Prefix masterkey)
    (true, some (if outprivkey then hdnodeSerializePrivate wp node chain else
      hdnodeSerializePublic wp node chain))
  | (_, false) => (false, none)

/-! ## What the calls promise -/

/-- The node that a call is about: the key is accepted, and the derivation succeeds. -/
def derivedNode (usepubckd : HdNode → Bool) (stack : HdNode) (extkey : Bytes) (keypath : List Char)
    (chain : WalletParams) : Option HdNode := do
  let parent ← hdnodeDeserialize wp extkey chain
  match hdGenerateKey wp.toKeyPlatform stack keypath (if usepubckd parent then parent.publicKey else
    parent.privateKey) parent.depth parent.chainCode (usepubckd parent) with
  | (node, true) => some node
  | (_, false) => none

/-- Success is reported, and a text is written, just where there is an outcome, and it is this
text. -/
def Honest (result : Bool × Option Bytes) (outcome : Option Bytes) :
    Prop := result = (outcome.isSome, outcome)

/-- A call that always reports success is honest where there is an outcome that it writes. -/
theorem honest_true_iff (text : Bytes) (outcome : Option Bytes) :
    Honest (true, some text) outcome ↔ outcome = some text := by
  unfold Honest
  constructor
  · intro h
    exact (Prod.mk.inj h).2.symm
  · rintro rfl
    rfl

/-! ## The conditions -/

/-- A string that is accepted as an extended key of a chain. -/
def Accepted (kp : KeyPlatform) (chain : WalletParams) (str : Bytes) : Prop :=
  ∃ payload, ExtKeyText kp chain.toKeyParams str payload

/-- A path that is derived. -/
def PathTaken (usepubckd : Bool) (keypath : List Char) : Prop :=
  ∃ path, keypath = 'm' :: '/' :: path ∧ ∀ component ∈ path.splitOn '/', Taken usepubckd component

theorem pathTaken_iff (usepubckd : Bool) (keypath : List Char) :
    PathTaken usepubckd keypath ↔ ∃ is, pathIndices usepubckd keypath = some is := by
  unfold PathTaken
  constructor
  · rintro ⟨path, rfl, htaken⟩
    exact (exists_pathIndices_iff path).mpr htaken
  · rintro ⟨is, his⟩
    have hstart : ∃ path, keypath = 'm' :: '/' :: path := by
      unfold pathIndices at his
      split at his
      · next path => exact ⟨path, rfl⟩
      · cases his
    obtain ⟨path, rfl⟩ := hstart
    exact ⟨path, rfl, (exists_pathIndices_iff path).mp ⟨is, his⟩⟩

/-- `dogecoin_hd_generate_key` succeeds just if the path is taken. -/
theorem hdGenerateKey_snd_iff (kp : KeyPlatform) (usepubckd : Bool) (node : HdNode)
    (keypath : List Char) (keymaster : Bytes) (depth : UInt32) (chaincode : Bytes) :
    (hdGenerateKey kp node keypath keymaster depth chaincode usepubckd).2 = true ↔
    PathTaken usepubckd keypath := by
  rw [pathTaken_iff]
  constructor
  · intro h
    obtain ⟨is, his, -⟩ := (@hdGenerateKey_eq_true_iff kp usepubckd node _ keypath keymaster
      depth chaincode).mp (Prod.ext rfl h)
    exact ⟨is, his⟩
  · rintro ⟨is, his⟩
    rw [(@hdGenerateKey_eq_true_iff kp usepubckd node _ keypath keymaster depth chaincode).mpr ⟨is,
      his, rfl⟩]

theorem mem_keyParamsAll_chainFromB58Prefix (address : Bytes) :
    chainFromB58Prefix address ∈ keyParamsAll := by
  unfold chainFromB58Prefix
  dsimp only
  split_ifs
  · decide
  · decide
  · decide
  · decide

theorem mem_keyParamsAll_chainOf (isTestnet : Bool) :
    (chainOf isTestnet).toKeyParams ∈ keyParamsAll := by
  cases isTestnet with
  | false => decide
  | true => decide

variable {kp : KeyPlatform} {chain : WalletParams} {strsize : ℕ}

/-- A call that reads a key and writes what it makes of the node. -/
theorem honest_read_iff (hchain : chain.toKeyParams ∈ keyParamsAll)
    (write : HdNode → Bytes) (str : Bytes) :
    Honest (true, some (write (deserializeInto (kp.withBase58 strsize) str chain).1))
        ((hdnodeDeserialize (kp.withBase58 strsize) str chain).map write) ↔
      Accepted kp chain str := by
  rw [honest_true_iff, Accepted, ← @isSome_hdnodeDeserialize_iff kp chain strsize hchain]
  unfold deserializeInto
  cases hdnodeDeserialize (kp.withBase58 strsize) str chain with
  | none => exact iff_of_false (fun h => nomatch h) Bool.false_ne_true
  | some node => exact iff_of_true rfl rfl

/-- A call that reads a key, derives and writes what it makes of the node. -/
theorem honest_derive_iff (hchain : chain.toKeyParams ∈ keyParamsAll) (write : HdNode → Bytes)
    (usepubckd : Bool) (stack : HdNode) (str : Bytes) (keypath : List Char) :
    let parent := (deserializeInto (kp.withBase58 strsize) str chain).1
    Honest (true, some (write (hdGenerateKey (kp.withBase58 strsize).toKeyPlatform stack keypath
          (if usepubckd then parent.publicKey else parent.privateKey) parent.depth
          parent.chainCode usepubckd).1))
        ((derivedNode (kp.withBase58 strsize) (fun _ => usepubckd) stack str keypath chain).map
          write) ↔
      Accepted kp chain str ∧ PathTaken usepubckd keypath := by
  dsimp only
  rw [honest_true_iff, Accepted, ← @isSome_hdnodeDeserialize_iff kp chain strsize hchain]
  unfold derivedNode deserializeInto
  cases hdnodeDeserialize (kp.withBase58 strsize) str chain with
  | none => exact iff_of_false (fun h => nomatch h) fun h => Bool.false_ne_true h.1
  | some parent =>
    rw [Option.bind_eq_bind, Option.bind_some, Option.isSome_some, eq_self, true_and]
    dsimp only
    have htaken := hdGenerateKey_snd_iff (kp.withBase58 strsize).toKeyPlatform
      usepubckd stack keypath
      (if usepubckd then parent.publicKey else parent.privateKey) parent.depth parent.chainCode
    generalize hdGenerateKey _ stack keypath _ _ _ usepubckd = made at htaken ⊢
    obtain ⟨node, derived⟩ := made
    cases derived with
    | false => exact iff_of_false (fun h => nomatch h) fun h => Bool.false_ne_true (htaken.mpr h)
    | true => exact iff_of_true rfl (htaken.mp rfl)

/-- The call that checks both steps. -/
theorem honest_getDerivedHDKeyByPath (masterkey : Bytes) (derivedPath : List Char)
    (outprivkey : Bool) (stack : HdNode) :
    Honest (getDerivedHDKeyByPath wp masterkey derivedPath outprivkey stack)
      ((derivedNode wp (fun node => !node.hasPrivkey) stack masterkey derivedPath
        (withGenesis (chainFromB58Prefix masterkey))).map fun node =>
          if outprivkey then hdnodeSerializePrivate wp node
            (withGenesis (chainFromB58Prefix masterkey))
          else hdnodeSerializePublic wp node (withGenesis (chainFromB58Prefix masterkey))) := by
  unfold Honest getDerivedHDKeyByPath getDerivedHDNodeByPath derivedNode
  dsimp only
  cases hdnodeDeserialize wp masterkey (withGenesis (chainFromB58Prefix masterkey)) with
  | none => rfl
  | some parent =>
    rw [Option.bind_eq_bind, Option.bind_some, Option.getD_some, Option.isSome_some, Bool.true_and]
    generalize hdGenerateKey wp.toKeyPlatform stack derivedPath _ _ _ _ = made
    obtain ⟨node, derived⟩ := made
    cases derived with
    | false => rfl
    | true => rfl

/-- The check of a pair takes a key that is not accepted for the node of zeros. -/
theorem verifyHDMasterPubKeypair_iff (hdPrivkeyMaster address : Bytes) (isTestnet : Bool) :
    (verifyHDMasterPubKeypair (kp.withBase58 strsize) hdPrivkeyMaster address isTestnet =
        ((hdnodeDeserialize (kp.withBase58 strsize) hdPrivkeyMaster (chainOf isTestnet)).map
          fun node =>
          decide (address = hdnodeGetP2pkhAddress (kp.withBase58 strsize) node
            (chainOf isTestnet).toKeyParams)).getD false) ↔
      Accepted kp (chainOf isTestnet) hdPrivkeyMaster ∨
        address ≠ hdnodeGetP2pkhAddress (kp.withBase58 strsize) HdNode.zero
          (chainOf isTestnet).toKeyParams := by
  rw [Accepted, ← @isSome_hdnodeDeserialize_iff kp _ strsize (mem_keyParamsAll_chainOf isTestnet)]
  unfold verifyHDMasterPubKeypair deserializeInto
  cases hdnodeDeserialize (kp.withBase58 strsize) hdPrivkeyMaster (chainOf isTestnet) with
  | none => simp
  | some node => simp

/-- **The calls on extended keys.** Each is honest if and only if the key is accepted and the path
is taken; the check of a pair is right also where the address is not that of zeros, and the call
that checks is always honest. -/
theorem hd_wrappers_iff (kp : KeyPlatform) (key : Bytes) (keypath : List Char) (isTestnet : Bool)
    (stack : HdNode) :
    let wp := kp.withBase58 HDKEYLEN
    let chain := chainOf isTestnet
    (Honest (getHDPubKey wp key isTestnet)
      ((hdnodeDeserialize wp key chain).map (hdnodeSerializePublic wp · chain)) ↔
      Accepted kp chain key) ∧
    (Honest (deriveExtKeyFromHDKey wp stack key keypath isTestnet)
        ((derivedNode wp (fun _ => false) stack key keypath chain).map
          (hdnodeSerializePrivate wp · chain)) ↔
      Accepted kp chain key ∧ PathTaken false keypath) ∧
    (Honest (deriveExtPubKeyFromHDKey wp stack key keypath isTestnet)
        ((derivedNode wp (fun _ => true) stack key keypath chain).map
          (hdnodeSerializePublic wp · chain)) ↔
      Accepted kp chain key ∧ PathTaken true keypath) ∧
    (Honest (generateDerivedHDPubkey (kp.withBase58 P2PKHLEN) key)
        ((hdnodeDeserialize (kp.withBase58 P2PKHLEN) key (withGenesis (chainFromB58Prefix key))).map
          (hdnodeGetP2pkhAddress (kp.withBase58 P2PKHLEN) · (chainFromB58Prefix key))) ↔
      Accepted kp (withGenesis (chainFromB58Prefix key)) key) ∧
    (∀ address, verifyHDMasterPubKeypair wp key address isTestnet =
        ((hdnodeDeserialize wp key chain).map fun node =>
          decide (address = hdnodeGetP2pkhAddress wp node chain.toKeyParams)).getD false ↔
      Accepted kp chain key ∨ address ≠ hdnodeGetP2pkhAddress wp HdNode.zero chain.toKeyParams) ∧
    ∀ outprivkey, Honest (getDerivedHDKeyByPath wp key keypath outprivkey stack)
      ((derivedNode wp (fun node => !node.hasPrivkey) stack key keypath
        (withGenesis (chainFromB58Prefix key))).map fun node =>
          if outprivkey then hdnodeSerializePrivate wp node (withGenesis (chainFromB58Prefix key))
          else hdnodeSerializePublic wp node (withGenesis (chainFromB58Prefix key))) := by
  dsimp only
  have hchain := mem_keyParamsAll_chainOf isTestnet
  refine ⟨?_, ?_, ?_, ?_, ?_, ?_⟩
  · exact honest_read_iff hchain
      (hdnodeSerializePublic (kp.withBase58 HDKEYLEN) · (chainOf isTestnet)) key
  · exact honest_derive_iff hchain
      (hdnodeSerializePrivate (kp.withBase58 HDKEYLEN) · (chainOf isTestnet)) false stack
      key keypath
  · exact honest_derive_iff hchain
      (hdnodeSerializePublic (kp.withBase58 HDKEYLEN) · (chainOf isTestnet)) true stack key keypath
  · exact @honest_read_iff kp (withGenesis (chainFromB58Prefix key)) P2PKHLEN
      (mem_keyParamsAll_chainFromB58Prefix key)
      (hdnodeGetP2pkhAddress (kp.withBase58 P2PKHLEN) · (chainFromB58Prefix key)) key
  · exact fun address => verifyHDMasterPubKeypair_iff key address isTestnet
  · exact fun outprivkey => honest_getDerivedHDKeyByPath (kp.withBase58 HDKEYLEN) key keypath
      outprivkey stack

/-- The empty string is no key, and a public key is written for it. -/
theorem not_honest_getHDPubKey : ¬ ∀ (kp : KeyPlatform) (key : Bytes) (isTestnet : Bool),
    Honest (getHDPubKey (kp.withBase58 HDKEYLEN) key isTestnet)
      ((hdnodeDeserialize (kp.withBase58 HDKEYLEN) key (chainOf isTestnet)).map
        (hdnodeSerializePublic (kp.withBase58 HDKEYLEN) · (chainOf isTestnet))) := by
  intro hall
  have hnone : hdnodeDeserialize (sampleKeys.withBase58 HDKEYLEN) [] (chainOf false) =
    none := by decide
  have h := congrArg Prod.fst (hall sampleKeys [] false)
  rw [hnone] at h
  exact Bool.false_ne_true h.symm

end HdWrappers

end Libdogecoin
