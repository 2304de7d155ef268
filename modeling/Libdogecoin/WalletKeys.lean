/-
# The addresses that a wallet hands out

A wallet keeps its master key in memory, and its file the extended public key alone. A key that is
derived from the master key after a restart is derived from zeros, and a derivation that fails is
not noticed. This module states what BIP32 derives, and when the addresses that are handed out are
those of derived keys.

* `Bip32.derive` : what BIP32 derives along a path;
* `foldl_privateCkd` : `dogecoin_hdnode_private_ckd` follows it where it is defined;
* `hdnodeDeserialize_serializePublic` : what is left of a master key after a restart;
* `addressesRight_of_reach` : the addresses of every run that meets the condition.
-/
import Libdogecoin.Transition
import Libdogecoin.WalletFile

namespace Libdogecoin

/-! ## BIP32 -/

namespace Bip32

variable (kp : KeyPlatform)

/-- An extended private key. -/
structure ExtKey where
  key : Bytes
  chainCode : Bytes
  deriving DecidableEq

/-- The private child of a private key: nothing if the tweak or the child is no key. -/
def ckdPriv (parent : ExtKey) (i : UInt32) : Option ExtKey :=
  let data := (if isHardened i then 0 :: parent.key else kp.curve.eccGetPubkey parent.key) ++
    writeBe i
  let I := (kp.hmacSha512 parent.chainCode data).1
  let (child, added) := kp.curve.eccPrivateKeyTweakAdd parent.key (I.take 32)
  if kp.curve.eccVerifyPrivatekey (I.take 32) && added then
    some { key := child, chainCode := I.drop 32 }
  else none

/-- The key at the end of a path. -/
def derive (master : ExtKey) (path : List UInt32) : Option ExtKey := path.foldlM (ckdPriv kp) master

/-- The hash of the public key at the end of a path. -/
def addressHash (master : ExtKey) (path : List UInt32) : Option Uint160 :=
  (derive kp master path).map fun child => kp.getHash160 (kp.curve.eccGetPubkey child.key)

end Bip32

namespace HdNode

variable {kp : KeyPlatform} {i : UInt32} {child : Bip32.ExtKey}

/-- The extended private key in a node. -/
def extKey (node : HdNode) : Bip32.ExtKey where
  key := node.privateKey
  chainCode := node.chainCode

/-- One step of `dogecoin_hdnode_private_ckd` where BIP32 defines a child. -/
theorem privateCkd_of_ckdPriv {node : HdNode}
    (hpub : node.publicKey = kp.curve.eccGetPubkey node.privateKey)
    (h : Bip32.ckdPriv kp node.extKey i = some child) :
    (node.privateCkd kp i).extKey = child ∧
      (node.privateCkd kp i).publicKey = kp.curve.eccGetPubkey child.key := by
  have hI : (kp.hmacSha512 node.extKey.chainCode ((if isHardened i then 0 :: node.extKey.key
      else kp.curve.eccGetPubkey node.extKey.key) ++ writeBe i)).1 = node.ckdI kp i := by
    unfold ckdI ckdData
    rw [hpub]
    rfl
  unfold Bip32.ckdPriv at h
  dsimp only at h
  rw [hI] at h
  split_ifs at h with hvalid
  rw [Bool.and_eq_true] at hvalid
  obtain rfl := Option.some.inj h
  rw [privateCkd_of_valid ⟨hvalid.1, hvalid.2⟩]
  exact ⟨rfl, rfl⟩

/-- **Private derivation along a path.** -/
theorem foldl_privateCkd {path : List UInt32} {node : HdNode} {child : Bip32.ExtKey}
    (hpub : node.publicKey = kp.curve.eccGetPubkey node.privateKey)
    (h : Bip32.derive kp node.extKey path = some child) :
    (path.foldl (privateCkd kp) node).extKey = child ∧
      (path.foldl (privateCkd kp) node).publicKey = kp.curve.eccGetPubkey child.key := by
  induction path generalizing node with
  | nil =>
    obtain rfl := Option.some.inj h
    exact ⟨rfl, hpub⟩
  | cons i path ih =>
    obtain ⟨next, hstep, hrest⟩ := Option.bind_eq_some_iff.mp h
    obtain ⟨hext, hnext⟩ := privateCkd_of_ckdPriv hpub hstep
    refine ih ?_ ?_
    · rw [hnext, ← hext]
      rfl
    · rw [hext]
      exact hrest

/-- Public derivation of one child that is not hardened. -/
theorem publicCkd_of_ckdPriv (hlaws : kp.curve.TweakLaws) {master node : HdNode}
    (hpriv : Private kp master) (hpub : node.publicKey = master.publicKey)
    (hchain : node.chainCode = master.chainCode)
    (hi : isHardened i = false) (h : Bip32.ckdPriv kp master.extKey i = some child) :
    (node.publicCkd kp i).1.publicKey = kp.curve.eccGetPubkey child.key := by
  have hI : (kp.hmacSha512 master.extKey.chainCode ((if isHardened i then 0 :: master.extKey.key
      else kp.curve.eccGetPubkey master.extKey.key) ++ writeBe i)).1 = node.ckdI kp i := by
    unfold ckdI ckdData
    rw [hi, hpub, hchain, hpriv.publicKey_eq]
    rfl
  unfold Bip32.ckdPriv at h
  dsimp only at h
  rw [hI] at h
  split_ifs at h with hvalid
  rw [Bool.and_eq_true] at hvalid
  obtain rfl := Option.some.inj h
  have hcomm := hlaws.tweak_comm hpriv.valid hvalid.1 (Prod.ext rfl hvalid.2)
  unfold publicCkd
  rw [if_neg (by rw [hi]; exact Bool.false_ne_true)]
  show (kp.curve.eccPublicKeyTweakAdd node.publicKey _).1 = _
  rw [hpub, hpriv.publicKey_eq, Secp256k1.eccPublicKeyTweakAdd, hcomm]
  rfl

end HdNode

/-! ## The extended public key in the file -/

/-- The fields of a node have their sizes. -/
structure HdNode.Sized (node : HdNode) : Prop where
  chainCode : node.chainCode.length = 32
  publicKey : node.publicKey.length = 33

namespace Wallet

variable {wp : WalletPlatform} {chain : WalletParams} {r : FileRecord} {utxos : Utxos}
  {index : UInt32}
  {change : Bool}

variable {node : HdNode} {s s' : Loaded} {rs : List FileRecord} {w : Wallet} {account : UInt32}

theorem length_hdnodeSerializePublic (hbase58 : wp.Base58Laws chain) (hsized : node.Sized) :
    (hdnodeSerializePublic wp node chain).length ≤ 111 := by
  unfold hdnodeSerializePublic
  simp only [List.append_assoc]
  apply hbase58.length_xpub
  simp [hsized.chainCode, hsized.publicKey]

/-- The 78 bytes of an extended key. -/
def nodeBytes (version : UInt32) (depth : UInt8) (fingerprint childNum : UInt32)
    (code key : Bytes) : Bytes :=
  writeBe version ++ ([depth] ++ (writeBe fingerprint ++ (writeBe childNum ++ (code ++ key))))

/-- The fields of an extended key stand at their offsets. -/
theorem hdnodeDeserialize_of_nodeBytes {str code key chk : Bytes}
    {version fingerprint childNum : UInt32} {depth : UInt8} (hcode : code.length = 32)
    (hkey : key.length = 33)
    (hdecode : wp.base58DecodeCheck str 112 =
      some (nodeBytes version depth fingerprint childNum code key ++ chk)) :
    hdnodeDeserialize wp str chain =
      (if version = chain.b58prefixBip32Pubkey then some (List.replicate 32 0, key)
      else if version = chain.b58prefixBip32Privkey then
        if key.headD 0 ≠ 0 then none else some (key.drop 1, wp.curve.eccGetPubkey (key.drop 1))
      else none).map fun keys =>
        { depth := depth.toUInt32, fingerprint := fingerprint, childNum := childNum,
          chainCode := code, privateKey := keys.1, publicKey := keys.2 } := by
  unfold hdnodeDeserialize
  rw [hdecode, nodeBytes, Option.bind_eq_bind, Option.bind_some]
  dsimp only
  generalize List.replicate (112 - _) (0 : UInt8) = tail
  simp only [Option.bind_eq_bind, List.append_assoc, readBe_writeBe]
  have hdrop : ∀ (x : UInt32) (rest : Bytes) (n : ℕ), (writeBe x ++ rest).drop (4 + n) =
    rest.drop n := by
    intro x rest n
    rw [← List.drop_drop, List.drop_left' (length_writeBe x)]
  have hdepth : ∀ rest : Bytes, (writeBe version ++ ([depth] ++ rest)).drop 4 = [depth] ++ rest :=
    fun rest => hdrop version _ 0
  have hfp : ∀ rest : Bytes, (writeBe version ++ ([depth] ++ rest)).drop 5 = rest :=
    fun rest => hdrop version _ 1
  have hchild : ∀ rest : Bytes,
      (writeBe version ++ ([depth] ++ (writeBe fingerprint ++ rest))).drop 9 = rest := by
    intro rest
    rw [hdrop version _ 5]
    exact hdrop fingerprint rest 0
  have hchain : ∀ rest : Bytes, (writeBe version ++ ([depth] ++
      (writeBe fingerprint ++ (writeBe childNum ++ rest)))).drop 13 = rest := by
    intro rest
    rw [hdrop version _ 9]
    show (writeBe fingerprint ++ (writeBe childNum ++ rest)).drop 8 = rest
    rw [hdrop fingerprint _ 4]
    exact hdrop childNum rest 0
  have hpub : ∀ rest : Bytes, (writeBe version ++ ([depth] ++
      (writeBe fingerprint ++ (writeBe childNum ++ (code ++ rest))))).drop 45 = rest := by
    intro rest
    have hrest := hchain (code ++ rest)
    rw [show 45 = 13 + 32 from rfl, ← List.drop_drop, hrest, List.drop_left' hcode]
  have hpriv : ∀ rest : Bytes, ((writeBe version ++ ([depth] ++ (writeBe fingerprint ++
      (writeBe childNum ++ (code ++ (key ++ rest)))))).drop 46).take 32 = key.drop 1 := by
    intro rest
    have hone : (key ++ rest).drop 1 = key.drop 1 ++ rest :=
      List.drop_append_of_le_length (by omega)
    have hlen : (key.drop 1).length = 32 := by rw [List.length_drop, hkey]
    rw [show 46 = 45 + 1 from rfl, ← List.drop_drop, hpub, hone, List.take_left' hlen]
  have hhead : ∀ rest : Bytes, (key ++ rest).headD 0 = key.headD 0 := by
    intro rest
    cases key with
    | nil => cases hkey
    | cons c key => rfl
  rw [hpriv, hdepth, hfp, hchild, hchain, hpub, readBe_writeBe, readBe_writeBe,
    List.take_left' hcode, List.take_left' hkey, hhead]
  split_ifs <;> rfl

/-- **What a restart leaves of a key:** its public key and its chain code, and no private key. -/
theorem hdnodeDeserialize_serializePublic (hbase58 : wp.Base58Laws chain) (hsized : node.Sized) :
    hdnodeDeserialize wp (hdnodeSerializePublic wp node chain) chain =
      some { node with
        depth := node.depth.toUInt8.toUInt32
        privateKey := List.replicate 32 0 } := by
  have hlen := length_hdnodeSerializePublic hbase58 hsized
  unfold hdnodeSerializePublic at hlen ⊢
  simp only [List.append_assoc] at hlen ⊢
  have hdecode := hbase58.decode_xpub _ (by simp [hsized.chainCode, hsized.publicKey]) hlen
  rw [hdnodeDeserialize_of_nodeBytes hsized.chainCode hsized.publicKey hdecode, if_pos rfl]
  rfl

/-! ## Replaying a file -/

/-- A record that is not an extended key leaves the master key, the chain and the file alone. -/
theorem FileRecord.replay_frame (hr : ∀ str, r ≠ .masterpubkey str) (h : r.replay wp s = some s') :
    s'.wallet.masterkey = s.wallet.masterkey ∧ s'.wallet.chain = s.wallet.chain ∧
      s'.wallet.dbfile = s.wallet.dbfile := by
  cases r with
  | masterpubkey str => exact absurd rfl (hr str)
  | addr waddr =>
    obtain rfl := Option.some.inj h
    show (s.wallet.enterWaddr waddr).masterkey = _ ∧ (s.wallet.enterWaddr waddr).chain = _ ∧
      (s.wallet.enterWaddr waddr).dbfile = _
    unfold enterWaddr
    split_ifs
    · exact ⟨rfl, rfl, rfl⟩
    · exact ⟨rfl, rfl, rfl⟩
  | tx wtx =>
    obtain ⟨utxos, -, h⟩ := Option.bind_eq_some_iff.mp h
    obtain rfl := Option.some.inj h
    unfold addWtxInternMove enterWtx recordSpends
    dsimp only
    split
    · split_ifs
      · exact ⟨rfl, rfl, rfl⟩
      · exact ⟨rfl, rfl, rfl⟩
    · split_ifs
      · exact ⟨rfl, rfl, rfl⟩
      · exact ⟨rfl, rfl, rfl⟩

/-- An extended key is replayed into the master key alone. -/
theorem FileRecord.replay_chain (h : r.replay wp s = some s') :
    s'.wallet.chain = s.wallet.chain ∧ s'.wallet.dbfile = s.wallet.dbfile := by
  by_cases hr : ∀ str, r ≠ .masterpubkey str
  · exact (replay_frame hr h).2
  · obtain ⟨str, rfl⟩ := not_forall_not.mp hr
    rw [replay] at h
    split_ifs at h
    obtain rfl := Option.some.inj h
    exact ⟨rfl, rfl⟩

theorem foldlM_replay_chain (h : rs.foldlM (FileRecord.replay wp) s = some s') :
    s'.wallet.chain = s.wallet.chain ∧ s'.wallet.dbfile = s.wallet.dbfile := by
  induction rs generalizing s with
  | nil =>
    obtain rfl := Option.some.inj h
    exact ⟨rfl, rfl⟩
  | cons r rs ih =>
    obtain ⟨t, hstep, hrest⟩ := Option.bind_eq_some_iff.mp h
    obtain ⟨hchain, hfile⟩ := FileRecord.replay_chain hstep
    exact ⟨(ih hrest).1.trans hchain, (ih hrest).2.trans hfile⟩

theorem foldlM_replay_masterkey (hrs : ∀ r ∈ rs, ∀ str, r ≠ .masterpubkey str)
    (h : rs.foldlM (FileRecord.replay wp) s = some s') : s'.wallet.masterkey =
    s.wallet.masterkey := by
  induction rs generalizing s with
  | nil =>
    obtain rfl := Option.some.inj h
    rfl
  | cons r rs ih =>
    obtain ⟨t, hstep, hrest⟩ := Option.bind_eq_some_iff.mp h
    rw [ih (fun r hr => hrs r (List.mem_cons_of_mem _ hr)) hrest]
    exact (FileRecord.replay_frame (hrs r List.mem_cons_self) hstep).1

/-- A file that is loaded is not too short. -/
theorem size_of_load {file : Bytes} (h : load wp file chain utxos = some (.loaded s)) :
    40 ≤ (UInt32.ofNat file.length).toNat := by
  by_contra hlt
  unfold load at h
  rw [if_pos (Or.inl (Nat.lt_of_not_le hlt))] at h
  cases h

/-! ## Requests and restarts -/

/-- A wallet, and the hashes in the addresses that it handed out, each with the path that was asked
for. -/
structure KeyRun where
  loaded : Loaded
  handed : List (List UInt32 × Uint160)

/-- A request for an address, or a restart. -/
inductive KeyOp where
  | nextAddr
  | nextBip44Addr
  | addHdAccount (account : UInt32)
  | getAddress (account index : UInt32) (change : Bool)
  | reload

namespace KeyRun

/-- What a request leaves: another wallet, and perhaps an address. -/
def hand (s : KeyRun) (path : List UInt32) (wallet : Wallet) (hash : Option Uint160) : KeyRun where
  loaded := { s.loaded with wallet := wallet }
  handed := s.handed ++ (hash.map fun hash => (path, hash)).toList

variable (wp chain)

/-- The path that a request is about. -/
def path (s : KeyRun) : KeyOp → List UInt32
  | .nextAddr => [s.loaded.wallet.nextChildindex]
  | .nextBip44Addr => Bip44.addressPath 0 s.loaded.wallet.nextChildindex false
  | .addHdAccount account => Bip44.addressPath account s.loaded.wallet.nextChildindex false
  | .getAddress account index change => Bip44.addressPath account index change
  | .reload => []

/-- One request, or a restart that succeeds. -/
def step (s : KeyRun) (op : KeyOp) : Option KeyRun :=
  let w := s.loaded.wallet
  match op with
  | .nextAddr => some (s.hand (s.path op) (w.nextAddr wp).1 ((w.nextAddr wp).2.map (·.pubkeyhash)))
  | .nextBip44Addr =>
    some (s.hand (s.path op) (w.nextBip44Addr wp).1 ((w.nextBip44Addr wp).2.map (·.pubkeyhash)))
  | .addHdAccount account =>
    some (s.hand (s.path op) (w.addHdAccountTs wp account).1
      ((w.addHdAccountTs wp account).2.map (·.pubkeyhash)))
  | .getAddress account index change =>
    some (s.hand (s.path op) w (w.getAddressTs wp account index change))
  | .reload =>
    match load wp w.dbfile chain s.loaded.utxos with
    | some (.loaded loaded) => some { s with loaded := loaded }
    | _ => none

end KeyRun

variable (wp chain)

/-- A wallet of any file, whose master key is then set. -/
def keySystem (master : HdNode) : TransitionSystem KeyRun KeyOp where
  init := fun s => ∃ (rs : List FileRecord) (w : Wallet), (∀ r ∈ rs, r.Readable) ∧
    w.dbfile = fileOf chain rs ∧ w.chain = chain ∧
    s.loaded.wallet = w.setMasterKeyCopy wp master ∧ s.handed = []
  step := KeyRun.step wp chain

/-- Every address that was handed out is that of the key that BIP32 derives along its path. -/
def AddressesRight (master : HdNode) (s : KeyRun) : Prop :=
  ∀ out ∈ s.handed, Bip32.addressHash wp.toKeyPlatform master.extKey out.1 = some out.2

/-- A request that can be answered: BIP32 derives a key along its path. Below the master key the
next child is not hardened, and for a path of BIP44 the private key is in memory. -/
def Answerable (master : HdNode) (s : KeyRun) : KeyOp → Prop
  | .nextAddr => isHardened s.loaded.wallet.nextChildindex = false ∧
      (Bip32.derive wp.toKeyPlatform master.extKey (s.path .nextAddr)).isSome
  | .reload => True
  | op => (∀ node ∈ s.loaded.wallet.masterkey, node.hasPrivkey = true) ∧
      (Bip32.derive wp.toKeyPlatform master.extKey (s.path op)).isSome

/-- What is kept of the master key: the extended public key in the file, behind which there are only
addresses, and the same public key in memory, with the private one or without. -/
structure Keeps (master : HdNode) (w : Wallet) : Prop where
  chain_eq : w.chain = chain
  file : ∃ (rs : List FileRecord) (waddrs : List WalletAddr), (∀ r ∈ rs, r.Readable) ∧
    w.dbfile = fileOf chain (rs ++ .masterpubkey (hdnodeSerializePublic wp master chain) ::
      waddrs.map .addr)
  memory : ∃ node, w.masterkey = some node ∧ node.publicKey = master.publicKey ∧
    node.chainCode = master.chainCode ∧
      (node.hasPrivkey = true → node.privateKey = master.privateKey)

variable {wp chain} {master : HdNode}

/-! ## What one step keeps -/

theorem fileOf_concat (rs : List FileRecord) (r : FileRecord) :
    fileOf chain (rs ++ [r]) = fileOf chain rs ++ r.encode := by
  unfold fileOf
  rw [List.flatMap_append, List.append_assoc]
  simp

/-- The record of an extended public key is not cut, and it is read back. -/
theorem dbfile_setMasterKeyCopy (hbase58 : wp.Base58Laws chain) (hsized : master.Sized)
    (hchain : w.chain = chain) : (w.setMasterKeyCopy wp master).dbfile =
      w.dbfile ++ (FileRecord.masterpubkey (hdnodeSerializePublic wp master chain)).encode := by
  have htake : (hdnodeSerializePublic wp master chain).take 112 =
    hdnodeSerializePublic wp master chain :=
    List.take_of_length_le ((length_hdnodeSerializePublic hbase58 hsized).trans (by decide))
  unfold setMasterKeyCopy
  dsimp only
  rw [hchain, htake]
  rfl

theorem readable_masterpubkey (hbase58 : wp.Base58Laws chain) (hsized : master.Sized) :
    (FileRecord.masterpubkey (hdnodeSerializePublic wp master chain)).Readable := by
  refine ⟨?_, (length_hdnodeSerializePublic hbase58 hsized).trans_lt (by decide), ?_⟩
  · exact hbase58.encode_ne_nil _
  · exact hbase58.zero_notMem _

theorem keeps_setMasterKeyCopy (hbase58 : wp.Base58Laws chain) (hsized : master.Sized)
    (hrs : ∀ r ∈ rs, r.Readable) (hfile : w.dbfile = fileOf chain rs) (hchain : w.chain = chain) :
    Keeps wp chain master (w.setMasterKeyCopy wp master) := by
  refine ⟨hchain, ⟨rs, [], hrs, ?_⟩, ⟨master, rfl, rfl, rfl, fun _ => rfl⟩⟩
  rw [List.map_nil, fileOf_concat, ← hfile]
  exact dbfile_setMasterKeyCopy hbase58 hsized hchain

theorem Keeps.addWaddr (h : Keeps wp chain master w) (waddr : WalletAddr) :
    Keeps wp chain master (w.addWaddr waddr) := by
  obtain ⟨rs, waddrs, hrs, hfile⟩ := h.file
  refine ⟨h.chain_eq, ⟨rs, waddrs ++ [waddr], hrs, ?_⟩, h.memory⟩
  rw [List.map_append, ← List.cons_append, ← List.append_assoc]
  show w.dbfile ++ encodeRecord (walletAddrSerialize waddr) recTypeAddr =
    fileOf chain (_ ++ [.addr waddr])
  rw [fileOf_concat, ← hfile]
  rfl

/-- **A restart** leaves the public key and the chain code of the master key, and zeros for its
private key. -/
theorem Keeps.load (hbase58 : wp.Base58Laws chain) (hsized : master.Sized)
    (h : Keeps wp chain master w) (hload : load wp w.dbfile chain utxos = some (.loaded s)) :
    Keeps wp chain master s.wallet := by
  obtain ⟨rs, waddrs, hrs, hfile⟩ := h.file
  have hall : ∀ r ∈ rs ++ .masterpubkey (hdnodeSerializePublic wp master chain) ::
      waddrs.map FileRecord.addr, r.Readable := by
    intro r hr
    rcases List.mem_append.mp hr with hr | hr
    · exact hrs r hr
    · rcases List.mem_cons.mp hr with rfl | hr
      · exact readable_masterpubkey hbase58 hsized
      · obtain ⟨waddr, -, rfl⟩ := List.mem_map.mp hr
        trivial
  have hsize := size_of_load hload
  rw [hfile] at hload hsize
  rw [load_fileOf hall hsize] at hload
  obtain ⟨s', hreplay, heq⟩ := Option.map_eq_some_iff.mp hload
  obtain rfl := LoadResult.loaded.inj heq
  obtain ⟨hchain, hdbfile⟩ := foldlM_replay_chain hreplay
  refine ⟨hchain, ⟨rs, waddrs, hrs, hdbfile⟩, ?_⟩
  -- the records in front of the key, the key, and the addresses behind it
  rw [List.foldlM_append] at hreplay
  obtain ⟨s₁, hfront, hreplay⟩ := Option.bind_eq_some_iff.mp hreplay
  rw [List.foldlM_cons] at hreplay
  obtain ⟨s₂, hkey, hrest⟩ := Option.bind_eq_some_iff.mp hreplay
  have hsame : s'.wallet.masterkey = s₂.wallet.masterkey := by
    refine foldlM_replay_masterkey ?_ hrest
    intro r hr str heq
    obtain ⟨waddr, -, rfl⟩ := List.mem_map.mp hr
    cases heq
  have hchain₁ : s₁.wallet.chain = chain := (foldlM_replay_chain hfront).1
  rw [FileRecord.replay_masterpubkey (readable_masterpubkey hbase58 hsized).2.1] at hkey
  obtain rfl := Option.some.inj hkey
  rw [hsame]
  refine ⟨{ master with depth := master.depth.toUInt8.toUInt32, privateKey := List.replicate 32 0 },
    congrArg some ?_, rfl, rfl, fun hpriv => absurd hpriv ?_⟩
  · rw [hchain₁, hdnodeDeserialize_serializePublic hbase58 hsized]
    rfl
  · show ¬ (List.replicate 32 (0 : UInt8)).any _ = true
    decide

/-! ## The addresses of a request -/

/-- The address below the master key. -/
theorem nextAddr_eq (hlaws : wp.curve.TweakLaws) (hpriv : HdNode.Private wp.toKeyPlatform master)
    (h : Keeps wp chain master w) (hi : isHardened w.nextChildindex = false)
    (hderive : (Bip32.derive wp.toKeyPlatform master.extKey [w.nextChildindex]).isSome) :
    ∃ waddr, w.nextAddr wp = (w.addWaddr waddr, some waddr) ∧
      Bip32.addressHash wp.toKeyPlatform master.extKey [w.nextChildindex] =
        some waddr.pubkeyhash := by
  obtain ⟨node, hnode, hpub, hcode, -⟩ := h.memory
  obtain ⟨child, hchild⟩ := Option.isSome_iff_exists.mp hderive
  have hstep : Bip32.ckdPriv wp.toKeyPlatform master.extKey w.nextChildindex = some child := by
    obtain ⟨next, hnext, hlast⟩ := Option.bind_eq_some_iff.mp hchild
    obtain rfl := Option.some.inj hlast
    exact hnext
  unfold nextAddr
  rw [hnode]
  refine ⟨_, rfl, ?_⟩
  unfold Bip32.addressHash
  rw [hchild]
  show some (wp.getHash160 _) = some (wp.getHash160 _)
  rw [HdNode.publicCkd_of_ckdPriv hlaws hpriv hpub hcode hi hstep]

/-- The key of a path of BIP44, with the private key in memory. -/
theorem bip44Key_of_derive (hcode : node.chainCode = master.chainCode)
    (hkey : node.privateKey = master.privateKey)
    (hderive : (Bip32.derive wp.toKeyPlatform master.extKey
      (Bip44.addressPath account index change)).isSome) :
    ∃ key, bip44Key wp node account index change = some key ∧
      Bip32.addressHash wp.toKeyPlatform master.extKey (Bip44.addressPath account index change) =
        some (wp.getHash160 key.publicKey) := by
  obtain ⟨child, hchild⟩ := Option.isSome_iff_exists.mp hderive
  unfold bip44Key
  rw [Bip44.deriveBip44ExtendedKey_eq]
  refine ⟨_, rfl, ?_⟩
  unfold Bip32.addressHash
  rw [hchild, (@HdNode.foldl_privateCkd _ _ _ child rfl _).2]
  · rfl
  · rw [← hchild]
    show Bip32.derive _ { key := node.privateKey, chainCode := node.chainCode } _ = _
    rw [hkey, hcode]
    rfl

theorem addHdAccountTs_eq (h : Keeps wp chain master w)
    (hmemory : ∀ node ∈ w.masterkey, node.hasPrivkey = true)
    (hderive : (Bip32.derive wp.toKeyPlatform master.extKey
      (Bip44.addressPath account w.nextChildindex false)).isSome) :
    ∃ waddr, w.addHdAccountTs wp account = (w.addWaddr waddr, some waddr) ∧
      Bip32.addressHash wp.toKeyPlatform master.extKey
        (Bip44.addressPath account w.nextChildindex false) = some waddr.pubkeyhash := by
  obtain ⟨node, hnode, -, hcode, hkeep⟩ := h.memory
  obtain ⟨key, hkey, hhash⟩ := bip44Key_of_derive hcode (hkeep (hmemory node hnode)) hderive
  unfold addHdAccountTs
  rw [hnode]
  dsimp only
  rw [hkey]
  exact ⟨_, rfl, hhash⟩

theorem getAddressTs_eq (h : Keeps wp chain master w)
    (hmemory : ∀ node ∈ w.masterkey, node.hasPrivkey = true)
    (hderive : (Bip32.derive wp.toKeyPlatform master.extKey
      (Bip44.addressPath account index change)).isSome) :
    w.getAddressTs wp account index change =
      Bip32.addressHash wp.toKeyPlatform master.extKey
        (Bip44.addressPath account index change) := by
  obtain ⟨node, hnode, -, hcode, hkeep⟩ := h.memory
  obtain ⟨key, hkey, hhash⟩ := bip44Key_of_derive hcode (hkeep (hmemory node hnode)) hderive
  unfold getAddressTs
  rw [hnode]
  dsimp only
  rw [hkey, hhash]
  rfl

/-! ## Runs -/

theorem AddressesRight.hand {s : KeyRun} (h : AddressesRight wp master s) {path : List UInt32}
    {hash : Option Uint160} (w : Wallet)
    (hhash : ∀ out ∈ hash, Bip32.addressHash wp.toKeyPlatform master.extKey path = some out) :
    AddressesRight wp master (s.hand path w hash) := by
  intro out hout
  rcases List.mem_append.mp hout with hout | hout
  · exact h out hout
  · obtain ⟨given, hgiven, heq⟩ := Option.map_eq_some_iff.mp (Option.mem_toList.mp hout)
    rw [← heq]
    exact hhash given hgiven

/-- **One step.** -/
theorem keySystem_step (hlaws : wp.curve.TweakLaws) (hbase58 : wp.Base58Laws chain)
    (hpriv : HdNode.Private wp.toKeyPlatform master) (hsized : master.Sized)
    {s s' : KeyRun} {op : KeyOp}
    (h : Keeps wp chain master s.loaded.wallet ∧ AddressesRight wp master s)
    (hanswer : Answerable wp master s op) (hstep : s.step wp chain op = some s') :
    Keeps wp chain master s'.loaded.wallet ∧ AddressesRight wp master s' := by
  obtain ⟨hkeep, hright⟩ := h
  have haccount : ∀ account, (∀ node ∈ s.loaded.wallet.masterkey, node.hasPrivkey = true) →
      (Bip32.derive wp.toKeyPlatform master.extKey
        (Bip44.addressPath account s.loaded.wallet.nextChildindex false)).isSome →
      s' = s.hand (Bip44.addressPath account s.loaded.wallet.nextChildindex false)
        (s.loaded.wallet.addHdAccountTs wp account).1
        ((s.loaded.wallet.addHdAccountTs wp account).2.map (·.pubkeyhash)) →
      Keeps wp chain master s'.loaded.wallet ∧ AddressesRight wp master s' := by
    intro account hmemory hderive heq
    obtain ⟨waddr, hresult, hhash⟩ := addHdAccountTs_eq hkeep hmemory hderive
    rw [heq, hresult]
    refine ⟨hkeep.addWaddr waddr, hright.hand _ ?_⟩
    intro out hout
    obtain rfl := Option.some.inj hout
    exact hhash
  cases op with
  | nextAddr =>
    obtain ⟨hi, hderive⟩ := hanswer
    obtain ⟨waddr, hresult, hhash⟩ := nextAddr_eq hlaws hpriv hkeep hi hderive
    obtain rfl := Option.some.inj hstep
    rw [hresult]
    refine ⟨hkeep.addWaddr waddr, hright.hand _ ?_⟩
    intro out hout
    obtain rfl := Option.some.inj hout
    exact hhash
  | nextBip44Addr => exact haccount 0 hanswer.1 hanswer.2 (Option.some.inj hstep).symm
  | addHdAccount account => exact haccount account hanswer.1 hanswer.2 (Option.some.inj hstep).symm
  | getAddress account index change =>
    obtain ⟨hmemory, hderive⟩ := hanswer
    obtain rfl := Option.some.inj hstep
    refine ⟨hkeep, hright.hand _ ?_⟩
    intro out hout
    show Bip32.addressHash _ _ (Bip44.addressPath account index change) = some out
    rw [← getAddressTs_eq hkeep hmemory hderive]
    exact hout
  | reload =>
    unfold KeyRun.step at hstep
    dsimp only at hstep
    cases hload : load wp s.loaded.wallet.dbfile chain s.loaded.utxos with
    | none =>
      rw [hload] at hstep
      cases hstep
    | some result =>
      rw [hload] at hstep
      cases result with
      | failed => cases hstep
      | loaded loaded =>
        obtain rfl := Option.some.inj hstep
        exact ⟨hkeep.load hbase58 hsized hload, hright⟩

/-- **Addresses of a wallet.** In a run whose every request can be answered, every address that is
handed out is that of the key which BIP32 derives. -/
theorem addressesRight_of_reach (hlaws : wp.curve.TweakLaws) (hbase58 : wp.Base58Laws chain)
    (hpriv : HdNode.Private wp.toKeyPlatform master) (hsized : master.Sized) {s : KeyRun}
    (h : (keySystem wp chain master).Reach (Answerable wp master) s) :
    AddressesRight wp master s := by
  have hboth : Keeps wp chain master s.loaded.wallet ∧ AddressesRight wp master s := by
    refine h.invariant (P := fun s => Keeps wp chain master s.loaded.wallet ∧
      AddressesRight wp master s) ?_ ?_
    · rintro s ⟨rs, w, hrs, hfile, hchain, hwallet, hhanded⟩
      rw [hwallet]
      refine ⟨keeps_setMasterKeyCopy hbase58 hsized hrs hfile hchain, ?_⟩
      intro out hout
      rw [hhanded] at hout
      cases hout
    · intro s op s' hinv hanswer hstep
      exact keySystem_step hlaws hbase58 hpriv hsized hinv hanswer hstep
  exact hboth.2

/-! ## A wallet before and after a restart -/

/-- A master key for runs on fixed inputs. -/
def sampleMaster : HdNode :=
  HdNode.pathStart sampleWallet.toKeyPlatform (1 :: List.replicate 31 0) 0 (List.replicate 32 7)

/-- A new wallet with this key. -/
def sampleKeyRun : KeyRun where
  loaded :=
    { wallet := (create sampleWalletParams).setMasterKeyCopy sampleWallet sampleMaster
      utxos := { table := [], nextIdx := 0 } }
  handed := []

theorem sampleKeyRun_init :
    (keySystem sampleWallet sampleWalletParams sampleMaster).init sampleKeyRun :=
  ⟨[], create sampleWalletParams, List.forall_mem_nil _, (List.append_nil _).symm, rfl, rfl, rfl⟩

theorem sampleMaster_private : HdNode.Private sampleWallet.toKeyPlatform sampleMaster :=
  ⟨by decide, rfl⟩

theorem sampleMaster_sized : sampleMaster.Sized := ⟨by decide, by decide⟩

/-- The theorem on a run of two requests and a restart. -/
theorem addressesRight_of_reach_sample :
    ∃ s, (keySystem sampleWallet sampleWalletParams sampleMaster).run sampleKeyRun
        [.nextAddr, .nextBip44Addr, .reload] = some s ∧
        AddressesRight sampleWallet sampleMaster s := by
  have hrun : ((keySystem sampleWallet sampleWalletParams sampleMaster).run sampleKeyRun
      [.nextAddr, .nextBip44Addr, .reload]).isSome = true := by decide +kernel
  obtain ⟨s, hs⟩ := Option.isSome_iff_exists.mp hrun
  refine ⟨s, hs, addressesRight_of_reach sampleWalletCurve_tweakLaws
    (sampleWallet_base58Laws sampleWalletParams) sampleMaster_private sampleMaster_sized
    (.of_run (.init sampleKeyRun_init) ?_ hs)⟩
  refine ⟨⟨by decide, by decide +kernel⟩, fun s₁ hs₁ => ?_⟩
  obtain rfl := Option.some.inj hs₁
  refine ⟨⟨fun node hnode => ?_, by decide +kernel⟩, fun s₂ hs₂ => ⟨trivial, fun s₃ _ => trivial⟩⟩
  obtain rfl := Option.some.inj hnode
  decide

/-- After a restart the wallet hands out the address of a key of zeros. -/
theorem not_addressesRight_reload :
    ¬ ∀ (wp : WalletPlatform) (chain : WalletParams) (master : HdNode), wp.curve.TweakLaws →
      wp.Base58Laws chain → HdNode.Private wp.toKeyPlatform master → master.Sized →
      ∀ s, (keySystem wp chain master).Reachable s → AddressesRight wp master s := by
  intro hall
  have hrun : ((keySystem sampleWallet sampleWalletParams sampleMaster).run sampleKeyRun
      [.reload, .nextBip44Addr]).any (fun s => decide (s.handed =
        [(Bip44.addressPath 0 0 false, sampleWallet.getHash160 (List.replicate 33 0))])) =
          true := by
    decide +kernel
  obtain ⟨s, hs, hhanded⟩ := (Option.any_eq_true _ _).mp hrun
  have hright := hall sampleWallet sampleWalletParams sampleMaster sampleWalletCurve_tweakLaws
    (sampleWallet_base58Laws sampleWalletParams) sampleMaster_private sampleMaster_sized s
    (TransitionSystem.reachable_of_run sampleKeyRun_init hs)
  have hzero := hright (Bip44.addressPath 0 0 false, sampleWallet.getHash160 (List.replicate 33 0))
    (by rw [of_decide_eq_true hhanded]; exact List.mem_cons_self)
  exact absurd hzero (by decide +kernel)

end Wallet

end Libdogecoin
