/-
# What the child key derivations report

`dogecoin_hdnode_private_ckd` returns `true` whatever its flag `failed` says, and
`dogecoin_hdnode_public_ckd` never raises the flag. The results are keys just where nothing fails.

* `hdGenerateKey_eq_true_iff` : when `dogecoin_hd_generate_key` returns `true`, and with which node;
* `stepsValid_private`, `stepsValid_public` : the steps of a path are valid where BIP32 defines a
  key;
* `ckd_returns_iff` : exactly when what is returned as derived is derived.
-/
import Libdogecoin.WalletKeys

namespace Libdogecoin

/-- What is documented of keys: the public keys that can be parsed, among them those that are made
of valid private keys and by tweaks, and what a tweak is added to. -/
structure Secp256k1.PubkeyLaws (cv : Secp256k1) (pubkeyParse : Bytes → Bool) : Prop where
  create_isSome : ∀ key : Bytes, (cv.pubkeyCreate key).isSome = cv.seckeyVerify key
  parse_create : ∀ {key pubkey : Bytes}, cv.pubkeyCreate key = some pubkey →
    pubkeyParse pubkey = true
  parse_zeros : pubkeyParse (List.replicate 33 0) = false
  verify_tweak : ∀ {key tweak key' : Bytes}, cv.privkeyTweakAdd key tweak = (key', true) →
    cv.seckeyVerify key = true ∧ cv.seckeyVerify key' = true
  parse_tweak : ∀ {pubkey tweak pubkey' : Bytes}, cv.pubkeyTweakAdd pubkey tweak = some pubkey' →
    pubkeyParse pubkey = true ∧ pubkeyParse pubkey' = true

/-- A private key has a public key just if it is valid. -/
theorem Secp256k1.PubkeyLaws.parse_getPubkey {cv : Secp256k1} {pubkeyParse : Bytes → Bool}
    (hlaws : cv.PubkeyLaws pubkeyParse) (key : Bytes) :
    pubkeyParse (cv.eccGetPubkey key) = cv.seckeyVerify key := by
  unfold Secp256k1.eccGetPubkey
  rw [← hlaws.create_isSome key]
  cases hcreate : cv.pubkeyCreate key with
  | none => exact hlaws.parse_zeros
  | some pubkey => exact hlaws.parse_create hcreate

namespace Bip32

variable (kp : KeyPlatform)

/-- An extended public key. -/
structure ExtPub where
  key : Bytes
  chainCode : Bytes
  deriving DecidableEq

/-- The public child of a public key: nothing if it is hardened or the tweak cannot be added. -/
def ckdPub (parent : ExtPub) (i : UInt32) : Option ExtPub :=
  if isHardened i then none
  else
    let I := (kp.hmacSha512 parent.chainCode (parent.key ++ writeBe i)).1
    (kp.curve.pubkeyTweakAdd parent.key (I.take 32)).map fun child =>
      { key := child, chainCode := I.drop 32 }

/-- The public key at the end of a path. -/
def derivePub (master : ExtPub) (path : List UInt32) :
    Option ExtPub := path.foldlM (ckdPub kp) master

end Bip32

namespace HdNode

variable (kp : KeyPlatform)

/-- `dogecoin_hdnode_private_ckd` with the value it returns. -/
def privateCkdCall (node : HdNode) (i : UInt32) : HdNode × Bool := (node.privateCkd kp i, true)

/-- The tweak of the public step can be added to the parent's key. -/
def PublicStep (node : HdNode) (i : UInt32) : Prop :=
  (kp.curve.pubkeyTweakAdd node.publicKey ((node.ckdI kp i).take 32)).isSome = true

/-- The calls that one step makes succeed. -/
def StepValid (usepubckd : Bool) (node : HdNode) (i : UInt32) : Prop :=
  if usepubckd then PublicStep kp node i else ValidStep kp node i

/-- The node after one step. -/
def stepNode (usepubckd : Bool) (node : HdNode) (i : UInt32) : HdNode :=
  if usepubckd then (node.publicCkd kp i).1 else node.privateCkd kp i

/-- The calls of every step succeed. -/
def StepsValid (usepubckd : Bool) : HdNode → List UInt32 → Prop
  | _, [] => True
  | node, i :: is => StepValid kp usepubckd node i ∧
      StepsValid usepubckd (stepNode kp usepubckd node i) is

/-- A node that is what the derivation says: a public key that can be parsed, a depth and an
index. -/
structure Derived (pubkeyParse : Bytes → Bool) (node : HdNode) (depth : ℕ) (i : UInt32) : Prop where
  publicKey : pubkeyParse node.publicKey = true
  depth_eq : node.depth.toNat = depth
  childNum_eq : node.childNum = i

/-! ## The indices of a path -/

/-- The child number of a token, if it has one that the derivation takes. -/
def tokenIndex (usepubckd : Bool) (token : List Char) : Option UInt32 :=
  match scanToken usepubckd token with
  | none => none
  | some prm =>
    if 2 ^ 32 - 1 < strtoull token then none
    else if prm then some (UInt32.ofNat (strtoull token) ||| 0x80000000)
    else if usepubckd && isHardened (UInt32.ofNat (strtoull token)) then none
    else some (UInt32.ofNat (strtoull token))

/-- The child numbers of a path. -/
def pathIndices (usepubckd : Bool) (keypath : List Char) : Option (List UInt32) :=
  match keypath with
  | 'm' :: '/' :: path => (strtok path).mapM (tokenIndex usepubckd)
  | _ => none

/-- The node with which the loop over the tokens begins. -/
def startNode (node : HdNode) (keymaster : Bytes) (depth : UInt32) (chaincode : Bytes)
    (usepubckd : Bool) : HdNode :=
  let node := { node with depth := depth, childNum := 0, fingerprint := 0, chainCode := chaincode }
  if usepubckd then { node with publicKey := keymaster }
  else fillPublicKey kp { node with privateKey := keymaster }

variable {kp} {pubkeyParse : Bytes → Bool} {usepubckd : Bool}

/-- Where public keys are derived no token is marked. -/
theorem scanToken_public_ne (token : List Char) : scanToken true token ≠ some true := by
  induction token with
  | nil => exact fun h => absurd (Option.some.inj h) Bool.false_ne_true
  | cons c rest ih =>
    rw [scanToken]
    split_ifs with hprime hrefused hdigit
    · exact Option.some_ne_none true ∘ Eq.symm
    · exact fun _ => hrefused (Or.inr rfl)
    · exact ih
    · exact Option.some_ne_none true ∘ Eq.symm

/-- A token derives the child with its number. -/
theorem deriveToken_eq (node : HdNode) (token : List Char) :
    deriveToken kp usepubckd node token =
      match tokenIndex usepubckd token with
      | none => (node, false)
      | some i => (stepNode kp usepubckd node i, true) := by
  unfold deriveToken tokenIndex
  cases hscan : scanToken usepubckd token with
  | none => rfl
  | some prm =>
    dsimp only
    by_cases hidx : 2 ^ 32 - 1 < strtoull token
    · rw [if_pos hidx, if_pos hidx]
    · rw [if_neg hidx, if_neg hidx]
      cases prm with
      | true =>
        -- the mark is refused where public keys are derived
        have hpriv : usepubckd = false := by
          cases usepubckd with
          | false => rfl
          | true => exact absurd hscan (scanToken_public_ne token)
        subst hpriv
        rfl
      | false =>
        cases usepubckd with
        | false => rfl
        | true =>
          unfold publicCkd stepNode
          cases hhard : isHardened (UInt32.ofNat (strtoull token)) with
          | true => rfl
          | false => simp [publicCkd, hhard]

/-- The loop returns `true` just if every token has a number. -/
theorem deriveTokens_eq_true_iff (tokens : List (List Char)) (node child : HdNode) :
    deriveTokens kp usepubckd tokens node = (child, true) ↔
      ∃ is, tokens.mapM (tokenIndex usepubckd) = some is ∧
      is.foldl (stepNode kp usepubckd) node = child := by
  induction tokens generalizing node with
  | nil =>
    constructor
    · intro h
      exact ⟨[], rfl, (Prod.mk.inj h).1⟩
    · rintro ⟨is, his, rfl⟩
      obtain rfl := Option.some.inj his
      rfl
  | cons token rest ih =>
    rw [deriveTokens, deriveToken_eq, List.mapM_cons]
    cases htoken : tokenIndex usepubckd token with
    | none =>
      constructor
      · intro h
        exact absurd (Prod.mk.inj h).2 Bool.false_ne_true
      · rintro ⟨is, his, -⟩
        cases his
    | some i =>
      dsimp only
      rw [ih]
      constructor
      · rintro ⟨is, his, hchild⟩
        refine ⟨i :: is, ?_, hchild⟩
        rw [Option.bind_eq_bind, Option.bind_some, his]
        rfl
      · rintro ⟨is, his, hchild⟩
        rw [Option.bind_eq_bind, Option.bind_some, Option.bind_eq_bind,
          Option.bind_eq_some_iff] at his
        obtain ⟨is', hrest, heq⟩ := his
        obtain rfl := Option.some.inj heq
        exact ⟨is', hrest, hchild⟩

/-- **When `dogecoin_hd_generate_key` returns `true`,** and what it leaves in the node. -/
theorem hdGenerateKey_eq_true_iff (node child : HdNode) (keypath : List Char) (keymaster : Bytes)
    (depth : UInt32) (chaincode : Bytes) :
    hdGenerateKey kp node keypath keymaster depth chaincode usepubckd = (child, true) ↔
      ∃ is, pathIndices usepubckd keypath = some is ∧
        is.foldl (stepNode kp usepubckd) (startNode kp node keymaster depth chaincode usepubckd) =
          child := by
  by_cases hpath : ∃ path, keypath = 'm' :: '/' :: path
  · obtain ⟨path, rfl⟩ := hpath
    exact deriveTokens_eq_true_iff _ _ _
  · have hrefused : hdGenerateKey kp node keypath keymaster depth chaincode usepubckd =
      (node, false) := by
      unfold hdGenerateKey
      split
      · next path => exact absurd ⟨path, rfl⟩ hpath
      · rfl
    have hnone : pathIndices usepubckd keypath = none := by
      unfold pathIndices
      split
      · next path => exact absurd ⟨path, rfl⟩ hpath
      · rfl
    rw [hrefused, hnone]
    constructor
    · exact fun h => absurd (Prod.mk.inj h).2 Bool.false_ne_true
    · rintro ⟨is, his, -⟩
      cases his

variable {i : UInt32} {is : List UInt32} {node : HdNode}

/-- No number of a path is hardened where public keys are derived. -/
theorem not_isHardened_of_tokenIndex {token : List Char} (h : tokenIndex true token = some i) :
    isHardened i = false := by
  unfold tokenIndex at h
  split at h
  · cases h
  · next prm hscan =>
      have hprm : prm = false := by
        cases prm with
        | false => rfl
        | true => exact absurd hscan (scanToken_public_ne token)
      subst hprm
      rw [if_neg Bool.false_ne_true] at h
      split at h
      · cases h
      · split at h
        · cases h
        · next hhard =>
            obtain rfl := Option.some.inj h
            simpa using hhard

theorem not_isHardened_of_mem {tokens : List (List Char)}
    (h : tokens.mapM (tokenIndex true) = some is) :
    ∀ i ∈ is, isHardened i = false := by
  induction tokens generalizing is with
  | nil =>
    obtain rfl := Option.some.inj h
    exact fun i hi => absurd hi List.not_mem_nil
  | cons token rest ih =>
    rw [List.mapM_cons, Option.bind_eq_bind, Option.bind_eq_some_iff] at h
    obtain ⟨i, hi, h⟩ := h
    rw [Option.bind_eq_bind, Option.bind_eq_some_iff] at h
    obtain ⟨is', his, h⟩ := h
    obtain rfl := Option.some.inj h
    exact List.forall_mem_cons.mpr ⟨not_isHardened_of_tokenIndex hi, ih his⟩

theorem not_isHardened_of_pathIndices {keypath : List Char}
    (h : pathIndices true keypath = some is) :
    ∀ i ∈ is, isHardened i = false := by
  unfold pathIndices at h
  split at h
  · exact not_isHardened_of_mem h
  · cases h

/-! ## Steps and BIP32 -/

/-- A node whose public key is that of its private key takes the steps that BIP32 defines. -/
theorem validStep_iff (hpub : node.publicKey = kp.curve.eccGetPubkey node.privateKey) (i : UInt32) :
    ValidStep kp node i ↔ (Bip32.ckdPriv kp node.extKey i).isSome = true := by
  have hI : (kp.hmacSha512 node.extKey.chainCode ((if isHardened i then 0 :: node.extKey.key
      else kp.curve.eccGetPubkey node.extKey.key) ++ writeBe i)).1 = node.ckdI kp i := by
    unfold ckdI ckdData
    rw [hpub]
    rfl
  unfold Bip32.ckdPriv ValidStep
  dsimp only
  rw [hI]
  show _ ∧ (kp.curve.eccPrivateKeyTweakAdd node.extKey.key _).2 = true ↔ _
  split_ifs with hvalid
  · rw [Bool.and_eq_true] at hvalid
    exact iff_of_true hvalid rfl
  · rw [Bool.and_eq_true] at hvalid
    exact iff_of_false hvalid Bool.false_ne_true

/-- **Private steps.** They are valid along a path just where BIP32 derives a key. -/
theorem stepsValid_private (is : List UInt32)
    (hpub : node.publicKey = kp.curve.eccGetPubkey node.privateKey) :
    StepsValid kp false node is ↔ (Bip32.derive kp node.extKey is).isSome = true := by
  induction is generalizing node with
  | nil => exact iff_of_true trivial rfl
  | cons i is ih =>
    have hstep : StepsValid kp false node (i :: is) ↔
        ValidStep kp node i ∧ StepsValid kp false (node.privateCkd kp i) is := Iff.rfl
    rw [hstep, validStep_iff hpub]
    unfold Bip32.derive
    rw [List.foldlM_cons]
    cases hchild : Bip32.ckdPriv kp node.extKey i with
    | none => exact iff_of_false (fun h => Bool.false_ne_true h.1) Bool.false_ne_true
    | some child =>
      obtain ⟨hext, hkey⟩ := privateCkd_of_ckdPriv hpub hchild
      have hnext : (node.privateCkd kp i).publicKey =
          kp.curve.eccGetPubkey (node.privateCkd kp i).privateKey := by
        rw [hkey, ← hext]
        rfl
      rw [ih hnext, hext]
      exact and_iff_right rfl

/-- The extended public key in a node. -/
def extPub (node : HdNode) : Bip32.ExtPub where
  key := node.publicKey
  chainCode := node.chainCode

/-- One public step. -/
theorem ckdPub_eq (hi : isHardened i = false) (node : HdNode) :
    Bip32.ckdPub kp node.extPub i =
      (kp.curve.pubkeyTweakAdd node.publicKey ((node.ckdI kp i).take 32)).map fun child =>
        { key := child, chainCode := (node.ckdI kp i).drop 32 } := by
  have hI : (kp.hmacSha512 node.extPub.chainCode (node.extPub.key ++ writeBe i)).1 =
    node.ckdI kp i := by
    unfold ckdI ckdData
    rw [hi]
    rfl
  unfold Bip32.ckdPub
  rw [hi, if_neg Bool.false_ne_true, hI]
  rfl

/-- A public step to a child that is not hardened. -/
theorem publicCkd_eq (hi : isHardened i = false) (node : HdNode) :
    node.publicCkd kp i =
      ({ depth := node.depth + 1
         fingerprint := node.keyFingerprint kp
         childNum := i
         chainCode := (node.ckdI kp i).drop 32
         privateKey := List.replicate 32 0
         publicKey := (kp.curve.eccPublicKeyTweakAdd node.publicKey ((node.ckdI kp i).take 32)).1 },
           true) := by
  unfold publicCkd
  rw [hi, if_neg Bool.false_ne_true]

/-- **Public steps.** They are valid along a path just where BIP32 derives a key. -/
theorem stepsValid_public (hi : ∀ i ∈ is, isHardened i = false) (node : HdNode) :
    StepsValid kp true node is ↔ (Bip32.derivePub kp node.extPub is).isSome = true := by
  induction is generalizing node with
  | nil => exact iff_of_true trivial rfl
  | cons i is ih =>
    have hhead := hi i List.mem_cons_self
    have hstep : StepsValid kp true node (i :: is) ↔
        PublicStep kp node i ∧ StepsValid kp true (node.publicCkd kp i).1 is := Iff.rfl
    rw [hstep, ih fun j hj => hi j (List.mem_cons_of_mem _ hj)]
    unfold Bip32.derivePub PublicStep
    rw [List.foldlM_cons, ckdPub_eq hhead, publicCkd_eq hhead]
    unfold Secp256k1.eccPublicKeyTweakAdd
    cases kp.curve.pubkeyTweakAdd node.publicKey ((node.ckdI kp i).take 32) with
    | none => exact iff_of_false (fun h => Bool.false_ne_true h.1) Bool.false_ne_true
    | some child => exact and_iff_right rfl

/-! ## What is derived -/

/-- No step is public where private keys are derived. -/
theorem isHardened_of_private (h : false = true) :
    isHardened i = false := absurd h Bool.false_ne_true

/-- **A valid step** leads to a key, one level deeper, with the index as its number. -/
theorem stepNode_of_valid (hlaws : kp.curve.PubkeyLaws pubkeyParse) {node : HdNode} {i : UInt32}
    (hi : usepubckd = true → isHardened i = false) (hvalid : StepValid kp usepubckd node i) :
    pubkeyParse (stepNode kp usepubckd node i).publicKey = true ∧
      (stepNode kp usepubckd node i).depth = node.depth + 1 ∧
      (stepNode kp usepubckd node i).childNum = i := by
  cases usepubckd with
  | false =>
    have hkey := (hlaws.verify_tweak (Prod.ext rfl hvalid.2)).2
    show pubkeyParse (node.privateCkd kp i).publicKey = true ∧
      (node.privateCkd kp i).depth = node.depth + 1 ∧ (node.privateCkd kp i).childNum = i
    rw [privateCkd_of_valid hvalid]
    refine ⟨?_, rfl, rfl⟩
    show pubkeyParse (kp.curve.eccGetPubkey _) = true
    rw [hlaws.parse_getPubkey]
    exact hkey
  | true =>
    obtain ⟨child, hchild⟩ := Option.isSome_iff_exists.mp hvalid
    show pubkeyParse (node.publicCkd kp i).1.publicKey = true ∧
      (node.publicCkd kp i).1.depth = node.depth + 1 ∧ (node.publicCkd kp i).1.childNum = i
    rw [publicCkd_eq (hi rfl)]
    refine ⟨?_, rfl, rfl⟩
    unfold Secp256k1.eccPublicKeyTweakAdd
    rw [hchild]
    exact (hlaws.parse_tweak hchild).2

/-- **A valid path** leads to a key, as many levels deeper, with the last index as its number. -/
theorem foldl_stepNode_of_valid (hlaws : kp.curve.PubkeyLaws pubkeyParse)
    (hi : usepubckd = true → ∀ i ∈ is, isHardened i = false)
    (hkey : pubkeyParse node.publicKey = true)
    (hvalid : StepsValid kp usepubckd node is) :
    pubkeyParse (is.foldl (stepNode kp usepubckd) node).publicKey = true ∧
      (is.foldl (stepNode kp usepubckd) node).depth = node.depth + UInt32.ofNat is.length ∧
      (is.foldl (stepNode kp usepubckd) node).childNum = is.getLastD node.childNum := by
  induction is generalizing node with
  | nil => exact ⟨hkey, (UInt32.add_zero _).symm, rfl⟩
  | cons i is ih =>
    obtain ⟨hkey', hdepth, hnum⟩ :=
      stepNode_of_valid hlaws (fun h => hi h i List.mem_cons_self) hvalid.1
    obtain ⟨hlast, hlastDepth, hlastNum⟩ :=
      ih (fun h j hj => hi h j (List.mem_cons_of_mem _ hj)) hkey' hvalid.2
    rw [List.foldl_cons]
    refine ⟨hlast, ?_, ?_⟩
    · rw [hlastDepth, hdepth, List.length_cons, UInt32.ofNat_add, UInt32.add_assoc,
        UInt32.add_comm 1]
      rfl
    · rw [hlastNum, hnum]
      cases is with
      | nil => rfl
      | cons j js => rfl

/-- The first step of a path is from a key. -/
theorem parse_of_stepValid (hlaws : kp.curve.PubkeyLaws pubkeyParse)
    (hpub : usepubckd = false → node.publicKey = kp.curve.eccGetPubkey node.privateKey)
    (hvalid : StepValid kp usepubckd node i) : pubkeyParse node.publicKey = true := by
  cases usepubckd with
  | false =>
    rw [hpub rfl, hlaws.parse_getPubkey]
    exact (hlaws.verify_tweak (Prod.ext rfl hvalid.2)).1
  | true =>
    obtain ⟨child, hchild⟩ := Option.isSome_iff_exists.mp hvalid
    exact (hlaws.parse_tweak hchild).1

/-- A depth grows by a number of steps unless it wraps. -/
theorem toNat_add_ofNat {depth : UInt32} {n : ℕ} :
    (depth + UInt32.ofNat n).toNat = depth.toNat + n ↔ depth.toNat + n < 2 ^ 32 := by
  have hlt := depth.toNat_lt
  rw [UInt32.toNat_add, UInt32.toNat_ofNat']
  omega

/-! ## What is reported -/

variable (kp pubkeyParse)

/-- What a derivation by one step promises: where it returns `true` its calls succeeded, and the
node is a key one level deeper with the index as its number. -/
def StepReported (usepubckd : Bool) (node : HdNode) (i : UInt32) : Prop :=
  ∀ child, (if usepubckd then node.publicCkd kp i else node.privateCkdCall kp i) = (child, true) →
    StepValid kp usepubckd node i ∧ Derived pubkeyParse child (node.depth.toNat + 1) i

/-- What `dogecoin_hd_generate_key` promises: where it returns `true` the calls of every step of the
path succeeded, and the node is a key as many levels deeper with the last index as its number. -/
def PathReported (node : HdNode) (keypath : List Char) (keymaster : Bytes) (depth : UInt32)
    (chaincode : Bytes) (usepubckd : Bool) : Prop :=
  ∀ child, hdGenerateKey kp node keypath keymaster depth chaincode usepubckd = (child, true) →
    ∃ is, pathIndices usepubckd keypath = some is ∧
      StepsValid kp usepubckd (startNode kp node keymaster depth chaincode usepubckd) is ∧
      Derived pubkeyParse child (depth.toNat + is.length) (is.getLastD 0)

/-- The master key is a key, and BIP32 derives one from it along the path. -/
def PathDefined (keymaster chaincode : Bytes) (usepubckd : Bool) (is : List UInt32) : Prop :=
  if usepubckd then
    pubkeyParse keymaster = true ∧
      (Bip32.derivePub kp { key := keymaster, chainCode := chaincode } is).isSome = true
  else
    kp.curve.seckeyVerify keymaster = true ∧
      (Bip32.derive kp { key := keymaster, chainCode := chaincode } is).isSome = true

variable {kp pubkeyParse}

theorem stepReported_private_iff (hlaws : kp.curve.PubkeyLaws pubkeyParse) (node : HdNode)
    (i : UInt32) :
    StepReported kp pubkeyParse false node i ↔ ValidStep kp node i ∧
    node.depth.toNat + 1 < 2 ^ 32 := by
  constructor
  · intro h
    obtain ⟨hvalid, hderived⟩ := h _ rfl
    obtain ⟨-, hdepth, -⟩ := @stepNode_of_valid kp pubkeyParse false hlaws node i
      isHardened_of_private hvalid
    refine ⟨hvalid, toNat_add_ofNat.mp ?_⟩
    rw [← hderived.depth_eq]
    exact congrArg UInt32.toNat hdepth.symm
  · rintro ⟨hvalid, hfits⟩ child h
    obtain rfl : node.privateCkd kp i = child := (Prod.mk.inj h).1
    obtain ⟨hkey, hdepth, hnum⟩ :=
      @stepNode_of_valid kp pubkeyParse false hlaws node i isHardened_of_private hvalid
    refine ⟨hvalid, hkey, ?_, hnum⟩
    rw [← toNat_add_ofNat.mpr hfits]
    exact congrArg UInt32.toNat hdepth

theorem stepReported_public_iff (hlaws : kp.curve.PubkeyLaws pubkeyParse) (node : HdNode)
    (i : UInt32) :
    StepReported kp pubkeyParse true node i ↔
      (isHardened i = false → PublicStep kp node i ∧ node.depth.toNat + 1 < 2 ^ 32) := by
  constructor
  · intro h hi
    obtain ⟨hvalid, hderived⟩ := h _ (publicCkd_eq hi node)
    refine ⟨hvalid, toNat_add_ofNat.mp ?_⟩
    rw [← hderived.depth_eq]
    rfl
  · intro h child hcall
    rw [if_pos rfl] at hcall
    cases hi : isHardened i with
    | true =>
      unfold publicCkd at hcall
      rw [hi, if_pos rfl] at hcall
      exact absurd (Prod.mk.inj hcall).2 Bool.false_ne_true
    | false =>
      obtain ⟨hvalid, hfits⟩ := h hi
      obtain rfl : (node.publicCkd kp i).1 = child := congrArg Prod.fst hcall
      obtain ⟨hkey, hdepth, hnum⟩ :=
        @stepNode_of_valid kp pubkeyParse true hlaws node i (fun _ => hi) hvalid
      refine ⟨hvalid, hkey, ?_, hnum⟩
      rw [← toNat_add_ofNat.mpr hfits]
      exact congrArg UInt32.toNat hdepth

/-- The steps are valid and begin with a key just where BIP32 derives the key of the path. -/
theorem pathDefined_iff (hlaws : kp.curve.PubkeyLaws pubkeyParse) {node : HdNode}
    {keymaster chaincode : Bytes} {depth : UInt32} {is : List UInt32}
    (hi : usepubckd = true → ∀ i ∈ is, isHardened i = false) :
    PathDefined kp pubkeyParse keymaster chaincode usepubckd is ↔
      pubkeyParse (startNode kp node keymaster depth chaincode usepubckd).publicKey = true ∧
        StepsValid kp usepubckd (startNode kp node keymaster depth chaincode usepubckd) is := by
  cases usepubckd with
  | false =>
    rw [stepsValid_private is rfl]
    show _ ↔ pubkeyParse (kp.curve.eccGetPubkey keymaster) = true ∧ _
    rw [hlaws.parse_getPubkey]
    rfl
  | true =>
    rw [stepsValid_public (hi rfl)]
    rfl

theorem pathReported_iff (hlaws : kp.curve.PubkeyLaws pubkeyParse) (node : HdNode)
    (keypath : List Char) (keymaster : Bytes) (depth : UInt32) (chaincode : Bytes)
    (usepubckd : Bool) :
    PathReported kp pubkeyParse node keypath keymaster depth chaincode usepubckd ↔
      ∀ is, pathIndices usepubckd keypath = some is →
        PathDefined kp pubkeyParse keymaster chaincode usepubckd is ∧
        depth.toNat + is.length < 2 ^ 32 := by
  have hhard : ∀ is, pathIndices usepubckd keypath = some is →
      usepubckd = true → ∀ i ∈ is, isHardened i = false := by
    rintro is his rfl
    exact not_isHardened_of_pathIndices his
  have hstart : ∀ usepubckd, (startNode kp node keymaster depth chaincode usepubckd).depth = depth ∧
      (startNode kp node keymaster depth chaincode usepubckd).childNum = 0 := by
    intro usepubckd
    cases usepubckd with
    | false => exact ⟨rfl, rfl⟩
    | true => exact ⟨rfl, rfl⟩
  obtain ⟨hstartDepth, hstartNum⟩ := hstart usepubckd
  constructor
  · intro h is his
    obtain ⟨is', his', hvalid, hderived⟩ :=
      h _ ((hdGenerateKey_eq_true_iff node _ keypath keymaster depth chaincode).mpr ⟨is, his, rfl⟩)
    obtain rfl : is = is' := Option.some.inj (his.symm.trans his')
    have hkey : pubkeyParse (startNode kp node keymaster depth chaincode usepubckd).publicKey =
      true := by
      cases is with
      | nil => exact hderived.publicKey
      | cons i is =>
        apply parse_of_stepValid hlaws _ hvalid.1
        rintro rfl
        rfl
    obtain ⟨-, hdepth, -⟩ := foldl_stepNode_of_valid hlaws (hhard is his) hkey hvalid
    refine ⟨(pathDefined_iff hlaws (hhard is his)).mpr ⟨hkey, hvalid⟩, toNat_add_ofNat.mp ?_⟩
    rw [← hderived.depth_eq, hdepth, hstartDepth]
  · intro h child hcall
    obtain ⟨is, his, rfl⟩ := (hdGenerateKey_eq_true_iff node child keypath keymaster depth
      chaincode).mp hcall
    obtain ⟨hdefined, hfits⟩ := h is his
    obtain ⟨hkey, hvalid⟩ := (@pathDefined_iff kp pubkeyParse usepubckd hlaws node
      keymaster chaincode depth is (hhard is his)).mp hdefined
    obtain ⟨hlast, hdepth, hnum⟩ := foldl_stepNode_of_valid hlaws (hhard is his) hkey hvalid
    refine ⟨is, his, hvalid, hlast, ?_, ?_⟩
    · rw [hdepth, hstartDepth, toNat_add_ofNat.mpr hfits]
    · rw [hnum, hstartNum]

/-- **When what is reported is so.** For every parent and index, and every path: a private step is
reported rightly just if its calls succeed, a public step just if it is refused or the tweak can be
added, and a path just if it is refused or BIP32 derives its key, where no depth wraps. -/
theorem ckd_returns_iff (hlaws : kp.curve.PubkeyLaws pubkeyParse) (node : HdNode) (i : UInt32)
    (keypath : List Char) (keymaster : Bytes) (depth : UInt32) (chaincode : Bytes)
    (usepubckd : Bool) :
    (StepReported kp pubkeyParse false node i ↔
      ValidStep kp node i ∧ node.depth.toNat + 1 < 2 ^ 32) ∧
    (StepReported kp pubkeyParse true node i ↔
      (isHardened i = false → PublicStep kp node i ∧ node.depth.toNat + 1 < 2 ^ 32)) ∧
    (PathReported kp pubkeyParse node keypath keymaster depth chaincode usepubckd ↔
      ∀ is, pathIndices usepubckd keypath = some is →
        PathDefined kp pubkeyParse keymaster chaincode usepubckd is ∧
          depth.toNat + is.length < 2 ^ 32) :=
  ⟨stepReported_private_iff hlaws node i, stepReported_public_iff hlaws node i,
    pathReported_iff hlaws node keypath keymaster depth chaincode usepubckd⟩

/-! ## A node without a private key -/

/-- Keys that refuse what the library refuses, for runs on fixed inputs. -/
def strictCurve : Secp256k1 :=
  { sampleCurve with
    pubkeyCreate := fun key => if sampleCurve.seckeyVerify key then some (2 :: key) else none
    privkeyTweakAdd := fun key tweak =>
      if sampleCurve.seckeyVerify key ∧ sampleAdd key tweak ≠ List.replicate 32 0 then
        (sampleAdd key tweak, true)
      else (List.replicate 32 0, false)
    pubkeyTweakAdd := fun pubkey tweak =>
      if sampleCurve.seckeyVerify (pubkey.drop 1) ∧ sampleAdd (pubkey.drop 1) tweak ≠
        List.replicate 32 0 then
        some (2 :: sampleAdd (pubkey.drop 1) tweak)
      else none }

/-- A public key of these keys is a valid private key behind any byte. -/
def strictParse (pubkey : Bytes) : Bool := sampleCurve.seckeyVerify (pubkey.drop 1)

theorem strictCurve_pubkeyLaws : strictCurve.PubkeyLaws strictParse := by
  have hadd : ∀ key tweak, sampleAdd key tweak ≠ List.replicate 32 0 →
      sampleCurve.seckeyVerify (sampleAdd key tweak) = true := fun key tweak hne =>
    decide_eq_true ⟨LittleEndian.length_toBytes 32 _, hne⟩
  refine ⟨?_, ?_, ?_, ?_, ?_⟩
  · intro key
    unfold strictCurve
    dsimp only
    cases sampleCurve.seckeyVerify key with
    | false => rfl
    | true => rfl
  · intro key pubkey h
    unfold strictCurve at h
    dsimp only at h
    split at h
    · next hkey =>
        obtain rfl := Option.some.inj h
        exact hkey
    · cases h
  · decide
  · intro key tweak key' h
    unfold strictCurve at h
    dsimp only at h
    split at h
    · next hvalid =>
        obtain rfl := (Prod.mk.inj h).1
        exact ⟨hvalid.1, hadd _ _ hvalid.2⟩
    · exact absurd (Prod.mk.inj h).2 Bool.false_ne_true
  · intro pubkey tweak pubkey' h
    unfold strictCurve at h
    dsimp only at h
    split at h
    · next hvalid =>
        obtain rfl := Option.some.inj h
        exact ⟨hvalid.1, hadd _ _ hvalid.2⟩
    · cases h

/-- Keys that refuse what the library refuses, for runs on fixed inputs. -/
def strictKeys : KeyPlatform := { sampleKeys with curve := strictCurve }

/-- A node that has no private key. -/
def watchOnlyNode : HdNode where
  depth := 3
  fingerprint := 0
  childNum := 0
  chainCode := List.replicate 32 7
  privateKey := List.replicate 32 0
  publicKey := 2 :: 1 :: List.replicate 31 0

/-- The equivalences for a node without a private key and the path `m/44/5`. -/
theorem ckd_returns_iff_watchOnly :
    (StepReported strictKeys strictParse false watchOnlyNode 0 ↔
      ValidStep strictKeys watchOnlyNode 0 ∧ watchOnlyNode.depth.toNat + 1 < 2 ^ 32) ∧
    (StepReported strictKeys strictParse true watchOnlyNode 0 ↔
      (isHardened 0 = false →
        PublicStep strictKeys watchOnlyNode 0 ∧ watchOnlyNode.depth.toNat + 1 < 2 ^ 32)) ∧
    (PathReported strictKeys strictParse watchOnlyNode (childPath [44, 5]) watchOnlyNode.publicKey 3
        watchOnlyNode.chainCode true ↔
      ∀ is, pathIndices true (childPath [44, 5]) = some is →
        PathDefined strictKeys strictParse watchOnlyNode.publicKey watchOnlyNode.chainCode true is ∧
          UInt32.toNat 3 + is.length < 2 ^ 32) :=
  ckd_returns_iff strictCurve_pubkeyLaws watchOnlyNode 0 (childPath [44, 5])
    watchOnlyNode.publicKey 3 watchOnlyNode.chainCode true

/-- A private step from a node without a private key returns `true`, though the tweak cannot be
added, and leaves depth and public key as they were. -/
theorem privateCkdCall_watchOnly :
    ∃ child, watchOnlyNode.privateCkdCall strictKeys 0 = (child, true) ∧
      ¬ ValidStep strictKeys watchOnlyNode 0 ∧ child.depth = watchOnlyNode.depth ∧
      child.publicKey = watchOnlyNode.publicKey := by
  refine ⟨watchOnlyNode.privateCkd strictKeys 0, rfl, ?_, ?_, ?_⟩
  · rintro ⟨-, hadded⟩
    exact absurd hadded (by decide +kernel)
  · decide +kernel
  · decide +kernel

end HdNode

end Libdogecoin
