/-
# Extended keys

The child key derivations of `bip32.c`, from private to private and from public to public key, and
`dogecoin_hd_generate_key`, which reads a path. The assertion on the length of a path is compiled
out of a release build.

* `hdnodeCkd_agree` : one step of both derivations;
* `hdGenerateKey_childPath` : what is derived along a path of child numbers;
* `hdGenerateKey_agree` : both derivations along such a path.
-/
import Mathlib.Data.List.TakeWhile
import Mathlib.Tactic.IntervalCases
import Libdogecoin.Keys

namespace Libdogecoin

/-- `dogecoin_hdnode`. -/
structure HdNode where
  depth : UInt32
  fingerprint : UInt32
  childNum : UInt32
  chainCode : Bytes
  privateKey : Bytes
  publicKey : Bytes
  deriving DecidableEq

/-- `write_be`. -/
def writeBe (x : UInt32) : Bytes := (LittleEndian.toBytes 4 x.toNat).reverse

/-- `read_be`. -/
def readBe (data : Bytes) : UInt32 := UInt32.ofNat (LittleEndian.ofBytes (data.take 4).reverse)

@[simp] theorem length_writeBe (x : UInt32) : (writeBe x).length = 4 := by
  unfold writeBe
  rw [List.length_reverse]
  exact LittleEndian.length_toBytes 4 _

/-- A number that was written is read back. -/
@[simp] theorem readBe_writeBe (x : UInt32) (rest : Bytes) : readBe (writeBe x ++ rest) = x := by
  have htake : (writeBe x ++ rest).take 4 = writeBe x := List.take_left' (length_writeBe x)
  have hval : LittleEndian.ofBytes (LittleEndian.toBytes 4 x.toNat) = x.toNat :=
    LittleEndian.ofBytes_toBytes_of_lt x.toNat_lt
  unfold readBe
  rw [htake]
  unfold writeBe
  rw [List.reverse_reverse, hval, UInt32.ofNat_toNat]

/-- `i & 0x80000000`. -/
def isHardened (i : UInt32) : Bool := i &&& 0x80000000 ≠ 0

namespace HdNode

variable (kp : KeyPlatform) {c : Char}

/-- `dogecoin_hdnode_fill_public_key`. -/
def fillPublicKey (node : HdNode) : HdNode :=
  { node with publicKey := kp.curve.eccGetPubkey node.privateKey }

/-- The fingerprint that a node gives to its children. -/
def keyFingerprint (node : HdNode) : UInt32 := readBe (kp.getHash160 node.publicKey).1

/-- What is handed to `hmac_sha512` for a child: the key and the child number. -/
def ckdData (node : HdNode) (i : UInt32) : Bytes :=
  (if isHardened i then 0 :: node.privateKey else node.publicKey) ++ writeBe i

/-- The 64 bytes that a child is made of. -/
def ckdI (node : HdNode) (i : UInt32) : Bytes := (kp.hmacSha512 node.chainCode (node.ckdData i)).1

/-- `dogecoin_hdnode_private_ckd`. It returns `true` also where it fails. -/
def privateCkd (node : HdNode) (i : UInt32) : HdNode :=
  let I := node.ckdI kp i
  let z := I.take 32
  let (key, added) := kp.curve.eccPrivateKeyTweakAdd node.privateKey z
  let child := { node with
    fingerprint := node.keyFingerprint kp
    chainCode := I.drop 32
    privateKey := key }
  if kp.curve.eccVerifyPrivatekey z && added then
    fillPublicKey kp { child with depth := child.depth + 1, childNum := i }
  else child

/-- `dogecoin_hdnode_public_ckd`. Where the tweak fails it goes on with the key of the parent. -/
def publicCkd (node : HdNode) (i : UInt32) : HdNode × Bool :=
  if isHardened i then (node, false)
  else
    let I := node.ckdI kp i
    ({ depth := node.depth + 1
       fingerprint := node.keyFingerprint kp
       childNum := i
       chainCode := I.drop 32
       privateKey := List.replicate 32 0
       publicKey := (kp.curve.eccPublicKeyTweakAdd node.publicKey (I.take 32)).1 }, true)

/-- `dogecoin_hdnode_has_privkey`. -/
def hasPrivkey (node : HdNode) : Bool := node.privateKey.any (· ≠ 0)

/-! ## Paths -/

/-- The marks of a hardened child. -/
def primes : List Char := ['p', 'h', 'H', '\'']

/-- The digits of a child number. -/
def digits : List Char := ['0', '1', '2', '3', '4', '5', '6', '7', '8', '9']

/-- `strtok_r` with the delimiter `/`. -/
def strtok (path : List Char) : List (List Char) := (path.splitOn '/').filter (· ≠ [])

/-- The loop over the characters of a token: whether the child is hardened. -/
def scanToken (usepubckd : Bool) : List Char → Option Bool
  | [] => some false
  | c :: rest =>
    if c ∈ primes then if rest ≠ [] ∨ usepubckd = true then none else some true
    else if c ∈ digits then scanToken usepubckd rest
    else none

/-- `strtoull` with base 10. -/
def strtoull (token : List Char) : ℕ :=
  min (Nat.ofDigitChars 10 (token.takeWhile (· ∈ digits)) 0) (2 ^ 64 - 1)

/-- One token of a path. -/
def deriveToken (usepubckd : Bool) (node : HdNode) (token : List Char) : HdNode × Bool :=
  match scanToken usepubckd token with
  | none => (node, false)
  | some prm =>
    let idx := strtoull token
    if 2 ^ 32 - 1 < idx then (node, false)
    else if prm then (node.privateCkd kp (UInt32.ofNat idx ||| 0x80000000), true)
    else if usepubckd then node.publicCkd kp (UInt32.ofNat idx)
    else (node.privateCkd kp (UInt32.ofNat idx), true)

/-- The loop over the tokens of a path. -/
def deriveTokens (usepubckd : Bool) : List (List Char) → HdNode → HdNode × Bool
  | [], node => (node, true)
  | token :: rest, node =>
    match deriveToken kp usepubckd node token with
    | (node, true) => deriveTokens usepubckd rest node
    | (node, false) => (node, false)

/-- `dogecoin_hd_generate_key` into a node. -/
def hdGenerateKey (node : HdNode) (keypath : List Char) (keymaster : Bytes) (depth : UInt32)
    (chaincode : Bytes) (usepubckd : Bool) : HdNode × Bool :=
  match keypath with
  | 'm' :: '/' :: path =>
    let node :=
      { node with depth := depth, childNum := 0, fingerprint := 0, chainCode := chaincode }
    let node :=
      if usepubckd then { node with publicKey := keymaster }
      else fillPublicKey kp { node with privateKey := keymaster }
    deriveTokens kp usepubckd (strtok path) node
  | _ => (node, false)

/-! ## One step -/

/-- The tweak of the step is a valid key, and so is the child key. -/
def ValidStep (node : HdNode) (i : UInt32) : Prop :=
  kp.curve.eccVerifyPrivatekey ((node.ckdI kp i).take 32) = true ∧
    (kp.curve.eccPrivateKeyTweakAdd node.privateKey ((node.ckdI kp i).take 32)).2 = true

/-- A node that holds a private key. -/
structure Private (node : HdNode) : Prop where
  valid : kp.curve.eccVerifyPrivatekey node.privateKey = true
  publicKey_eq : node.publicKey = kp.curve.eccGetPubkey node.privateKey

/-- What a node and its public counterpart have in common. -/
structure Agree (node pub : HdNode) : Prop where
  publicKey : pub.publicKey = node.publicKey
  chainCode : pub.chainCode = node.chainCode
  depth : pub.depth = node.depth
  childNum : pub.childNum = node.childNum
  fingerprint : pub.fingerprint = node.fingerprint

variable {kp} {node pub : HdNode} {i : UInt32}

/-- A valid step from a private node. -/
theorem privateCkd_of_valid (hvalid : ValidStep kp node i) :
    node.privateCkd kp i = fillPublicKey kp
      { depth := node.depth + 1
        fingerprint := node.keyFingerprint kp
        childNum := i
        chainCode := (node.ckdI kp i).drop 32
        privateKey := (kp.curve.eccPrivateKeyTweakAdd node.privateKey ((node.ckdI kp i).take 32)).1
        publicKey := node.publicKey } := by
  obtain ⟨hz, hadd⟩ := hvalid
  unfold privateCkd
  simp only [hz, hadd, Bool.and_self, if_true]

/-- **One step.** From the same public key and chain code, both derivations agree on a child that is
not hardened. -/
theorem hdnodeCkd_agree (hlaws : kp.curve.TweakLaws) (hpriv : Private kp node)
    (hagree : Agree node pub) (hvalid : ValidStep kp node i) (hi : isHardened i = false) :
    ∃ child, pub.publicCkd kp i = (child, true) ∧ Agree (node.privateCkd kp i) child ∧
      Private kp (node.privateCkd kp i) ∧ child.hasPrivkey = false := by
  have hI : pub.ckdI kp i = node.ckdI kp i := by
    unfold ckdI ckdData
    rw [hi, hagree.publicKey, hagree.chainCode]
    rfl
  have hfp : pub.keyFingerprint kp = node.keyFingerprint kp := by
    unfold keyFingerprint
    rw [hagree.publicKey]
  obtain ⟨hz, hadd⟩ := id hvalid
  have hcomm := hlaws.tweak_comm hpriv.valid hz (Prod.ext rfl hadd)
  rw [privateCkd_of_valid hvalid]
  unfold publicCkd
  rw [if_neg (by rw [hi]; exact Bool.false_ne_true)]
  refine ⟨_, rfl, ⟨?_, ?_, ?_, rfl, ?_⟩, ⟨?_, rfl⟩, ?_⟩
  · show (kp.curve.eccPublicKeyTweakAdd pub.publicKey _).1 = _
    rw [hI, hagree.publicKey, hpriv.publicKey_eq, Secp256k1.eccPublicKeyTweakAdd, hcomm]
    rfl
  · rw [hI]
    rfl
  · show pub.depth + 1 = node.depth + 1
    rw [hagree.depth]
  · exact hfp
  · exact hlaws.verify_tweak hpriv.valid (Prod.ext rfl hadd)
  · show (List.replicate 32 (0 : UInt8)).any _ = false
    decide

/-! ## Paths of child numbers -/

/-- The path of a list of child numbers. -/
def childPath (is : List UInt32) : List Char :=
  'm' :: '/' :: ['/'].intercalate (is.map fun i => Nat.toDigits 10 i.toNat)

theorem digit_mem (h : c.isDigit = true) : c ∈ digits := by
  have hrange : 48 ≤ c.toNat ∧ c.toNat ≤ 57 := by
    simpa [Char.isDigit, UInt32.le_iff_toNat_le] using h
  have hall : ∀ n, 48 ≤ n → n ≤ 57 → Char.ofNat n ∈ digits := by
    intro n hlo hhi
    interval_cases n <;> decide
  have hmem := hall c.toNat hrange.1 hrange.2
  rwa [Char.ofNat_toNat] at hmem

theorem digits_toDigits {n : ℕ} : ∀ c ∈ Nat.toDigits 10 n, c ∈ digits := fun c hc =>
  digit_mem (Nat.isDigit_of_mem_toDigits (b := 10) (by decide) (by decide) hc)

variable {is : List UInt32}

/-- The tokens of the path are the numbers. -/
theorem strtok_childPath (h : is ≠ []) :
    strtok (['/'].intercalate (is.map fun i => Nat.toDigits 10 i.toNat)) =
      is.map fun i => Nat.toDigits 10 i.toNat := by
  have hslash : ∀ l ∈ is.map (fun i => Nat.toDigits 10 i.toNat), '/' ∉ l := by
    intro l hl hmem
    obtain ⟨i, -, rfl⟩ := List.mem_map.mp hl
    exact absurd (digits_toDigits _ hmem) (by decide)
  unfold strtok
  rw [List.splitOn_intercalate '/' hslash (by simpa using h), List.filter_eq_self]
  intro l hl
  obtain ⟨i, -, rfl⟩ := List.mem_map.mp hl
  exact decide_eq_true Nat.toDigits_ne_nil

/-- A digit does not mark a hardened child. -/
theorem notMem_primes (hc : c ∈ digits) : c ∉ primes := by
  have hall : digits.all (fun c => decide (c ∉ primes)) = true := by decide
  exact of_decide_eq_true (List.all_eq_true.mp hall c hc)

theorem scanToken_of_digits {usepubckd : Bool} {token : List Char} (h : ∀ c ∈ token, c ∈ digits) :
    scanToken usepubckd token = some false := by
  induction token with
  | nil => rfl
  | cons c rest ih =>
    have hc := h c List.mem_cons_self
    rw [scanToken, if_neg (notMem_primes hc), if_pos hc]
    exact ih fun d hd => h d (List.mem_cons_of_mem _ hd)

/-- A number in a path is read back. -/
theorem deriveToken_toDigits (usepubckd : Bool) (node : HdNode) (i : UInt32) :
    deriveToken kp usepubckd node (Nat.toDigits 10 i.toNat) =
      if usepubckd then node.publicCkd kp i else (node.privateCkd kp i, true) := by
  have hi := i.toNat_lt
  have hread : strtoull (Nat.toDigits 10 i.toNat) = i.toNat := by
    have htake : (Nat.toDigits 10 i.toNat).takeWhile (· ∈ digits) = Nat.toDigits 10 i.toNat := by
      exact List.takeWhile_eq_self_iff.mpr fun c hc => decide_eq_true (digits_toDigits c hc)
    unfold strtoull
    rw [htake, Nat.ofDigitChars_ten_toDigits]
    exact Nat.min_eq_left (by omega)
  unfold deriveToken
  rw [scanToken_of_digits digits_toDigits]
  dsimp only
  rw [hread, if_neg (by omega), UInt32.ofNat_toNat, if_neg Bool.false_ne_true]

/-- The node from which a path is derived. -/
def pathStart (kp : KeyPlatform) (key : Bytes) (depth : UInt32) (chaincode : Bytes) : HdNode where
  depth := depth
  fingerprint := 0
  childNum := 0
  chainCode := chaincode
  privateKey := key
  publicKey := kp.curve.eccGetPubkey key

/-- Every step of the path is valid. -/
def ValidPath (kp : KeyPlatform) : HdNode → List UInt32 → Prop
  | _, [] => True
  | node, i :: is => ValidStep kp node i ∧ ValidPath kp (node.privateCkd kp i) is

/-- Private derivation along a path of child numbers. -/
theorem deriveTokens_private (is : List UInt32) (node : HdNode) :
    deriveTokens kp false (is.map fun i => Nat.toDigits 10 i.toNat) node =
      (is.foldl (privateCkd kp) node, true) := by
  induction is generalizing node with
  | nil => rfl
  | cons i is ih =>
    rw [List.map_cons, deriveTokens, deriveToken_toDigits, if_neg Bool.false_ne_true]
    exact ih _

/-- What `dogecoin_hd_generate_key` derives along a path of child numbers. -/
theorem hdGenerateKey_childPath (h : is ≠ []) (out : HdNode) (key : Bytes) (depth : UInt32)
    (chaincode : Bytes) :
    hdGenerateKey kp out (childPath is) key depth chaincode false =
      (is.foldl (privateCkd kp) (pathStart kp key depth chaincode), true) := by
  show deriveTokens kp false (strtok _) (pathStart kp key depth chaincode) = _
  rw [strtok_childPath h, deriveTokens_private]

/-- Public derivation along a path simulates private derivation. -/
theorem deriveTokens_agree (hlaws : kp.curve.TweakLaws) (hi : ∀ i ∈ is, isHardened i = false)
    {node pub : HdNode} (hpriv : Private kp node) (hagree : Agree node pub)
    (hvalid : ValidPath kp node is) :
    ∃ child, deriveTokens kp true (is.map fun i => Nat.toDigits 10 i.toNat) pub = (child, true) ∧
      Agree (is.foldl (privateCkd kp) node) child ∧ (is ≠ [] → child.hasPrivkey = false) := by
  induction is generalizing node pub with
  | nil => exact ⟨pub, rfl, hagree, fun h => absurd rfl h⟩
  | cons i is ih =>
    obtain ⟨child, hstep, hchild, hpriv', hnone⟩ :=
      hdnodeCkd_agree hlaws hpriv hagree hvalid.1 (hi i List.mem_cons_self)
    obtain ⟨last, hrest, hlast, hlastNone⟩ :=
      ih (fun j hj => hi j (List.mem_cons_of_mem _ hj)) hpriv' hchild hvalid.2
    refine ⟨last, ?_, hlast, fun _ => ?_⟩
    · rw [List.map_cons, deriveTokens, deriveToken_toDigits, if_pos rfl, hstep]
      exact hrest
    · cases is with
      | nil =>
        obtain rfl := (Prod.mk.inj hrest).1
        exact hnone
      | cons j js => exact hlastNone (List.cons_ne_nil j js)

theorem isHardened_of_lt {i : UInt32} (h : i.toNat < 2 ^ 31) : isHardened i = false := by
  have hand : i &&& 0x80000000 = 0 := by
    apply UInt32.toNat_inj.mp
    show i.toNat &&& 2 ^ 31 = 0
    apply Nat.eq_of_testBit_eq
    intro j
    rw [Nat.testBit_and, Nat.testBit_two_pow, Nat.zero_testBit]
    by_cases hj : 31 = j
    · rw [← hj, Nat.testBit_lt_two_pow h, Bool.false_and]
    · rw [decide_eq_false hj, Bool.and_false]
  unfold isHardened
  rw [hand]
  rfl

theorem isHardened_of_ge {i : UInt32} (h : 2 ^ 31 ≤ i.toNat) : isHardened i = true := by
  have hbit : i.toNat.testBit 31 = true := by
    rw [Nat.testBit_eq_decide_div_mod_eq, decide_eq_true_eq]
    have hlt := i.toNat_lt
    omega
  apply decide_eq_true
  intro hand
  have hzero : i.toNat &&& 2 ^ 31 = 0 := congrArg UInt32.toNat hand
  have hfalse : (i.toNat &&& 2 ^ 31).testBit 31 = false := by rw [hzero, Nat.zero_testBit]
  rw [Nat.testBit_and, hbit, Nat.testBit_two_pow_self] at hfalse
  cases hfalse

/-- **Watch-only and signing derivation.** Along a path of child numbers below `2 ^ 31`, the node
derived from the public key and the chain code of a private node agrees with the one derived from
its private key, and has no private key. -/
theorem hdGenerateKey_agree (hlaws : kp.curve.TweakLaws) {node : HdNode} (hpriv : Private kp node)
    {is : List UInt32} (hne : is ≠ []) (hi : ∀ i ∈ is, i.toNat < 2 ^ 31)
    (hvalid : ValidPath kp (pathStart kp node.privateKey node.depth node.chainCode) is)
    (out out' : HdNode) :
    ∃ child pub,
      hdGenerateKey kp out (childPath is) node.privateKey node.depth node.chainCode false =
        (child, true) ∧
      hdGenerateKey kp out' (childPath is) node.publicKey node.depth node.chainCode true =
        (pub, true) ∧
      Agree child pub ∧ pub.hasPrivkey = false := by
  have hstart : Private kp (pathStart kp node.privateKey node.depth node.chainCode) :=
    ⟨hpriv.valid, rfl⟩
  have hagree : Agree (pathStart kp node.privateKey node.depth node.chainCode)
      { out' with
        depth := node.depth, childNum := 0, fingerprint := 0, chainCode := node.chainCode
        publicKey := node.publicKey } := ⟨hpriv.publicKey_eq, rfl, rfl, rfl, rfl⟩
  obtain ⟨pub, hpub, hlast, hnone⟩ :=
    deriveTokens_agree hlaws (fun i hmem => isHardened_of_lt (hi i hmem)) hstart hagree hvalid
  refine ⟨_, pub, hdGenerateKey_childPath hne out _ _ _, ?_, hlast, hnone hne⟩
  show deriveTokens kp true (strtok _) _ = _
  rw [strtok_childPath hne]
  exact hpub

/-- A private node for runs on fixed inputs. -/
def sampleNode : HdNode := pathStart sampleKeys (1 :: List.replicate 31 0) 0 (List.replicate 32 7)

/-- The theorem on the path `m/44/5`. -/
theorem hdGenerateKey_agree_sample :
    ∃ child pub,
      hdGenerateKey sampleKeys sampleNode (childPath [44, 5]) sampleNode.privateKey sampleNode.depth
        sampleNode.chainCode false = (child, true) ∧
      hdGenerateKey sampleKeys sampleNode (childPath [44, 5]) sampleNode.publicKey sampleNode.depth
        sampleNode.chainCode true = (pub, true) ∧
      Agree child pub ∧ pub.hasPrivkey = false := by
  have hvalid : ValidPath sampleKeys sampleNode [44, 5] :=
    ⟨⟨by decide +kernel, by decide +kernel⟩, ⟨by decide +kernel, by decide +kernel⟩, trivial⟩
  have hpriv : Private sampleKeys sampleNode := ⟨by decide, rfl⟩
  have hsmall : ∀ i ∈ [(44 : UInt32), 5], i.toNat < 2 ^ 31 :=
    List.forall_mem_cons.mpr ⟨by decide, List.forall_mem_singleton.mpr (by decide)⟩
  exact hdGenerateKey_agree sampleCurve_tweakLaws hpriv (by decide) hsmall hvalid _ _

end HdNode

end Libdogecoin
