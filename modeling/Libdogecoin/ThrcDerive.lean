/-
# Child keys of Raccoon-G

The derivations of child keys in `thrc.c`, with the secret key and without it. Both add a tweak to
the key of the parent, a key pair for the matrix of the parent that is generated from the chain
code, the public key and the index.

* `reduced_keygenTUnroundedInner` : the tweak is reduced, so what is added to a key that is accepted
  is one again;
* `agree_of_lt` : below `2 ^ 31` both derivations give the same public key, or both give nothing;
* `thrcHdDerivePub_of_ge` : from there on only the derivation with the secret key gives one;
* `derivations_agree_iff` : they agree along a path if and only if all its indices are below
  `2 ^ 31`.

The hash functions and the generator of random bytes are parameters, as the sampling is. Checks of
null pointers, allocation and the wiping of memory are left out.
-/
import Libdogecoin.HdNode
import Libdogecoin.Thrc

namespace Libdogecoin

namespace Raccoong

open FixedRecords

/-! ## Definitions -/

/-- What a tweak is derived with. -/
structure Derivation where
  /-- `sha256_raw`. -/
  sha256Raw : Bytes → Bytes
  /-- `hmac_sha512`, on a key and a message. -/
  hmacSha512 : Bytes → Bytes → Bytes
  /-- `raccoong_hkdf_sha256` without salt and info, for a number of bytes. -/
  hkdfSha256 : ℕ → Bytes → Bytes
  /-- The bytes that `raccoong_nist_kat_drbg_random_bytes` gives first, for a seed. -/
  drbgRandomBytes : Bytes → ℕ → Bytes

/-- `RACCOONG_LG_SIGMA_T2`. -/
def RACCOONG_LG_SIGMA_T2 : UInt32 := 14

/-- One polynomial for `keygen_t_unrounded_inner`. -/
def sampleTGaussian (P : Primitives) (ds idx b2 : UInt8) (key : Bytes) : Option Polyr :=
  (P.gaussianSampleSeed RACCOONG_LG_SIGMA_T2 (hdr8 ds idx b2 0 0 0 0 0 ++ key)).map polyrLoadSigned

/-- `keygen_t_unrounded_inner`, with the domain separators `s` and `e`. The second part is for
`s_out`, which may be absent. -/
def keygenTUnroundedInner (P : Primitives) (attempts : ℕ) (key aSeed : Bytes) :
    Option (PolyVec RACCOONG_K × PolyVec RACCOONG_ELL) := do
  let A ← expandA P attempts aSeed
  let s ← collect fun i : Fin RACCOONG_ELL => sampleTGaussian P 0x73 (UInt8.ofNat i) 0 key
  let e1 ← collect fun i : Fin RACCOONG_K => sampleTGaussian P 0x65 (UInt8.ofNat i) 1 key
  some (vecAdd (vecIntt (mulMatVecNtt A (vecNtt s))) e1, s)

/-- `deserialize_pk_into`, without room for the polynomials. -/
def deserializePkSeed (pk : Bytes) : Option Bytes :=
  if pk.length ≠ RACCOONG_PK_BYTES then none else some (pk.take RACCOONG_A_SEED_BYTES)

/-- `hd_derive_tweak_seed`, with the tags `S` and `p`. -/
def hdDeriveTweakSeed (D : Derivation) (parentPk : Bytes) (parentSk : Option Bytes)
    (chaincode : Bytes) (index : UInt32) (hardened : Bool) : Option Bytes :=
  let encodedIndex := if hardened then index ||| 0x80000000 else index
  let seed (tag : UInt8) (parent : Bytes) : Bytes :=
    (D.hmacSha512 chaincode (tag :: D.sha256Raw parent ++ writeBe encodedIndex)).take 32
  -- a hardened index goes with the secret key and the tag `S`, any other with the public key and
  -- the tag `p`
  if hardened then
    match parentSk with
    | none => none
    | some sk => if sk.length ≠ RACCOONG_SK_BYTES then none else some (seed 0x53 sk)
  else if parentPk.length ≠ RACCOONG_PK_BYTES then none
  else some (seed 0x70 parentPk)

/-- The key that the tweak is generated with. -/
def tweakKey (D : Derivation) (tweakSeed : Bytes) :
    Bytes := D.drbgRandomBytes (D.hkdfSha256 48 tweakSeed) 32

/-- `thrc_hd_derive_priv`, with the sizes of the buffers. It gives the child's secret and public
key. -/
def thrcHdDerivePriv (D : Derivation) (P : Primitives) (attempts : ℕ)
    (parentSk parentPk chaincode : Bytes) (index : UInt32) (hardened : Bool)
    (childSkLen childPkLen : ℕ) : Option (Bytes × Bytes) :=
  if childSkLen ≠ RACCOONG_SK_BYTES then none
  else if childPkLen ≠ RACCOONG_PK_BYTES then none
  else do
    let (parentASeed, parentT, parentS) ← deserializeSkInto parentSk
    let parentPkASeed ← deserializePkSeed parentPk
    -- the two keys of the parent must have one matrix
    if parentASeed ≠ parentPkASeed then none
    else do
      let tweakSeed ← hdDeriveTweakSeed D parentPk (some parentSk) chaincode index hardened
      let (tweakT, tweakS) ← keygenTUnroundedInner P attempts (tweakKey D tweakSeed) parentASeed
      let childT := vecAdd parentT tweakT
      let childS := vecAdd parentS tweakS
      some (serializeSk parentASeed childT childS, serializePk parentASeed childT)

/-- `thrc_hd_derive_pub`, with the size of the buffer. -/
def thrcHdDerivePub (D : Derivation) (P : Primitives) (attempts : ℕ) (parentPk chaincode : Bytes)
    (index : UInt32) (childPkLen : ℕ) : Option Bytes :=
  if childPkLen ≠ RACCOONG_PK_BYTES then none
  -- the derivation with the secret key takes its flag from the caller and has no such test
  else if isHardened index then none
  else do
    let (parentASeed, parentT) ← deserializePkInto parentPk
    let tweakSeed ← hdDeriveTweakSeed D parentPk none chaincode index false
    let (tweakT, _) ← keygenTUnroundedInner P attempts (tweakKey D tweakSeed) parentASeed
    let childT := vecAdd parentT tweakT
    some (serializePk parentASeed childT)

/-- Steps of `thrc_hd_derive_priv` that are not hardened, each with its chain code and index. -/
def derivePrivPath (D : Derivation) (P : Primitives) (attempts : ℕ) (keys : Bytes × Bytes)
    (path : List (Bytes × UInt32)) : Option (Bytes × Bytes) :=
  path.foldlM (fun keys step =>
    thrcHdDerivePriv D P attempts keys.1 keys.2 step.1 step.2 false RACCOONG_SK_BYTES
      RACCOONG_PK_BYTES) keys

/-- Steps of `thrc_hd_derive_pub`. -/
def derivePubPath (D : Derivation) (P : Primitives) (attempts : ℕ) (pk : Bytes)
    (path : List (Bytes × UInt32)) :
    Option Bytes :=
  path.foldlM (fun pk step => thrcHdDerivePub D P attempts pk step.1 step.2 RACCOONG_PK_BYTES) pk

/-- Both derivations give the same public key, with which the secret key begins, or both give
nothing. -/
def Agree (priv : Option (Bytes × Bytes)) (pub : Option Bytes) : Prop :=
  pub = priv.map Prod.snd ∧ ∀ keys, priv = some keys → keys.1.take RACCOONG_PK_BYTES = keys.2

/-! ## The tweak -/

variable {D : Derivation} {P : Primitives} {n : ℕ} {path : List (Bytes × UInt32)}

theorem reduced_vecAdd {m : ℕ} {a b : PolyVec m} (ha : ∀ i, Reduced (a i))
    (hb : ∀ i, Reduced (b i)) (i : Fin m) :
    Reduced (vecAdd a b i) :=
  reduced_polyrAdd (ha i) (hb i)

/-- Sums of products are reduced. -/
theorem reduced_mulMatVecNtt (A : PolyMat) (v : PolyVec RACCOONG_ELL) (i : Fin RACCOONG_K) :
    Reduced (mulMatVecNtt A v i) := by
  rw [mulMatVecNtt]
  have hzero : Reduced Polyr.zero := by
    intro c hc
    rw [List.eq_of_mem_replicate hc]
    exact NeZero.pos q
  -- the induction is on the products that are left, from any sum that is reduced
  generalize List.finRange RACCOONG_ELL = js
  generalize Polyr.zero = out at hzero
  induction js generalizing out with
  | nil => exact hzero
  | cons j js ih =>
    rw [List.foldl_cons]
    apply ih
    exact reduced_polyrAdd hzero (reduced_polyrMulPointwise _ _)

theorem reduced_sampleTGaussian {ds idx b2 : UInt8} {key : Bytes} {p : Polyr}
    (h : sampleTGaussian P ds idx b2 key = some p) : Reduced p := by
  obtain ⟨src, -, rfl⟩ := Option.map_eq_some_iff.mp h
  exact reduced_polyrLoadSigned src

variable {aSeed sk : Bytes} {t : PolyVec RACCOONG_K} {s : PolyVec RACCOONG_ELL} {index : UInt32}
  {key : Bytes × PolyVec RACCOONG_K × PolyVec RACCOONG_ELL}

/-- Both parts of the tweak are reduced. -/
theorem reduced_keygenTUnroundedInner {key : Bytes}
    (h : keygenTUnroundedInner P n key aSeed = some (t, s)) :
    (∀ i, Reduced (t i)) ∧ ∀ i, Reduced (s i) := by
  obtain ⟨A, -, h⟩ := Option.bind_eq_some_iff.mp h
  obtain ⟨s', hs, h⟩ := Option.bind_eq_some_iff.mp h
  obtain ⟨e1, he1, h⟩ := Option.bind_eq_some_iff.mp h
  obtain ⟨rfl, rfl⟩ := Prod.mk.inj (Option.some.inj h)
  constructor
  · intro i
    apply reduced_vecAdd
    · intro j
      exact (residue_nttInverse (reduced_mulMatVecNtt A _ j)).1
    · intro j
      exact reduced_sampleTGaussian (collect_eq_some_iff.mp he1 j)
  · intro i
    exact reduced_sampleTGaussian (collect_eq_some_iff.mp hs i)

/-- A tweak is generated if sampling succeeds. -/
theorem exists_keygenTUnroundedInner (hxof : ∀ seed, ∃ p, xofSampleQ P n seed = some p)
    (hgauss : ∀ seed, ∃ src, P.gaussianSampleSeed RACCOONG_LG_SIGMA_T2 seed = some src)
    (key aSeed : Bytes) :
    ∃ tweak, keygenTUnroundedInner P n key aSeed = some tweak := by
  obtain ⟨A, hA⟩ : ∃ A, expandA P n aSeed = some A := exists_collect fun i =>
    exists_collect fun j => hxof _
  have hsample : ∀ ds idx b2, ∃ p, sampleTGaussian P ds idx b2 key = some p := by
    intro ds idx b2
    obtain ⟨src, hsrc⟩ := hgauss (hdr8 ds idx b2 0 0 0 0 0 ++ key)
    exact ⟨polyrLoadSigned src, by rw [sampleTGaussian, hsrc, Option.map_some]⟩
  obtain ⟨s, hs⟩ := exists_collect fun i : Fin RACCOONG_ELL => hsample 0x73 (UInt8.ofNat i) 0
  obtain ⟨e1, he1⟩ := exists_collect fun i : Fin RACCOONG_K => hsample 0x65 (UInt8.ofNat i) 1
  simp only [keygenTUnroundedInner, Option.bind_eq_bind, hA, hs, he1, Option.bind_some]
  exact ⟨_, rfl⟩

/-! ## One step -/

/-- What the tweak of a step that is not hardened is derived from, whether there is a secret key or
not. -/
theorem exists_hdDeriveTweakSeed (D : Derivation) {pk : Bytes}
    (hlen : pk.length = RACCOONG_PK_BYTES) (chaincode : Bytes) (index : UInt32) :
    ∃ seed, ∀ sk, hdDeriveTweakSeed D pk sk chaincode index false = some seed := by
  refine ⟨(D.hmacSha512 chaincode (0x70 :: D.sha256Raw pk ++ writeBe index)).take 32, fun sk => ?_⟩
  unfold hdDeriveTweakSeed
  rw [if_neg Bool.false_ne_true, if_neg (not_not_intro hlen), if_neg Bool.false_ne_true]

/-- Both steps in terms of one tweak. -/
theorem derive_eq_map (D : Derivation) (P : Primitives) (n : ℕ)
    (hsk : deserializeSkInto sk = some (aSeed, t, s)) (chaincode : Bytes) (index : UInt32) :
    ∃ tweak, (∃ key, keygenTUnroundedInner P n key aSeed = tweak) ∧
      thrcHdDerivePriv D P n sk (sk.take RACCOONG_PK_BYTES) chaincode index false RACCOONG_SK_BYTES
        RACCOONG_PK_BYTES = tweak.map (fun tw =>
          (serializeSk aSeed (vecAdd t tw.1) (vecAdd s tw.2), serializePk aSeed (vecAdd t tw.1))) ∧
      thrcHdDerivePub D P n (sk.take RACCOONG_PK_BYTES) chaincode index RACCOONG_PK_BYTES =
        if isHardened index then none else tweak.map fun tw =>
          serializePk aSeed (vecAdd t tw.1) := by
  have hpk := deserializePkInto_of_deserializeSkInto hsk
  obtain ⟨hlen, hseed, -, -⟩ := of_deserializePkInto hpk
  obtain ⟨seed, htweakSeed⟩ := exists_hdDeriveTweakSeed D hlen chaincode index
  have hpkSeed : deserializePkSeed (sk.take RACCOONG_PK_BYTES) = some aSeed := by
    rw [deserializePkSeed, if_neg (not_not_intro hlen), hseed]
  -- both steps generate the tweak from this seed, which the secret key has no part in
  refine ⟨_, ⟨tweakKey D seed, rfl⟩, ?_, ?_⟩
  · rw [thrcHdDerivePriv, if_neg (not_not_intro rfl), if_neg (not_not_intro rfl), hsk]
    dsimp only [Option.bind_eq_bind, Option.bind_some]
    rw [hpkSeed, Option.bind_some, if_neg (not_not_intro rfl), htweakSeed (some sk),
      Option.bind_some]
    cases keygenTUnroundedInner P n (tweakKey D seed) aSeed with
    | none => rfl
    | some tw => rfl
  · rw [thrcHdDerivePub, if_neg (not_not_intro rfl), hpk]
    congr 1
    dsimp only [Option.bind_eq_bind, Option.bind_some]
    rw [htweakSeed none, Option.bind_some]
    cases keygenTUnroundedInner P n (tweakKey D seed) aSeed with
    | none => rfl
    | some tw => rfl

/-- A child's secret key is accepted again, and begins with its public key. -/
theorem child_of_thrcHdDerivePriv {chaincode : Bytes}
    (hsk : deserializeSkInto sk = some (aSeed, t, s)) {keys : Bytes × Bytes}
    (h : thrcHdDerivePriv D P n sk (sk.take RACCOONG_PK_BYTES) chaincode index false
      RACCOONG_SK_BYTES RACCOONG_PK_BYTES = some keys) :
    keys.1.take RACCOONG_PK_BYTES = keys.2 ∧ ∃ t' s', deserializeSkInto keys.1 =
      some (aSeed, t', s') := by
  obtain ⟨-, -, hseed, ht⟩ := of_deserializePkInto (deserializePkInto_of_deserializeSkInto hsk)
  have hs := reduced_of_deserializeSkInto hsk
  obtain ⟨_, ⟨key, rfl⟩, hpriv, -⟩ := derive_eq_map D P n hsk chaincode index
  rw [hpriv] at h
  obtain ⟨⟨tweakT, tweakS⟩, htweak, rfl⟩ := Option.map_eq_some_iff.mp h
  -- a sum of reduced coefficients is reduced, so it is read as it was written
  obtain ⟨htT, htS⟩ := reduced_keygenTUnroundedInner htweak
  constructor
  · exact List.take_left' (length_serializePk hseed _)
  · exact ⟨_, _, deserializeSkInto_serializeSk hseed (reduced_vecAdd ht htT)
      (reduced_vecAdd hs htS)⟩

/-- **One step.** Below `2 ^ 31` the derivations agree. -/
theorem agree_of_lt (D : Derivation) (P : Primitives) (n : ℕ)
    (hsk : deserializeSkInto sk = some key) (chaincode : Bytes) (hindex : index.toNat < 2 ^ 31) :
    Agree
      (thrcHdDerivePriv D P n sk (sk.take RACCOONG_PK_BYTES) chaincode index false RACCOONG_SK_BYTES
        RACCOONG_PK_BYTES)
      (thrcHdDerivePub D P n (sk.take RACCOONG_PK_BYTES) chaincode index RACCOONG_PK_BYTES) := by
  obtain ⟨aSeed, t, s⟩ := key
  constructor
  · obtain ⟨tweak, -, hpriv, hpub⟩ := derive_eq_map D P n hsk chaincode index
    rw [hpriv, hpub, HdNode.isHardened_of_lt hindex, if_neg Bool.false_ne_true, Option.map_map]
    rfl
  · intro keys hkeys
    exact (child_of_thrcHdDerivePriv hsk hkeys).1

/-- From `2 ^ 31` on the derivation without the secret key gives nothing. -/
theorem thrcHdDerivePub_of_ge (D : Derivation) (P : Primitives) (n : ℕ) (pk chaincode : Bytes)
    (hindex : 2 ^ 31 ≤ index.toNat) (len : ℕ) : thrcHdDerivePub D P n pk chaincode index len =
    none := by
  rw [thrcHdDerivePub, HdNode.isHardened_of_ge hindex, if_pos rfl]
  exact ite_self none

/-- With the secret key a child is derived for every index, if sampling succeeds. -/
theorem exists_thrcHdDerivePriv (D : Derivation) (hxof : ∀ seed, ∃ p, xofSampleQ P n seed = some p)
    (hgauss : ∀ seed, ∃ src, P.gaussianSampleSeed RACCOONG_LG_SIGMA_T2 seed = some src)
    (hsk : deserializeSkInto sk = some key) (chaincode : Bytes) (index : UInt32) :
    ∃ keys, thrcHdDerivePriv D P n sk (sk.take RACCOONG_PK_BYTES) chaincode index false
      RACCOONG_SK_BYTES RACCOONG_PK_BYTES = some keys := by
  obtain ⟨aSeed, t, s⟩ := key
  obtain ⟨_, ⟨key, rfl⟩, hpriv, -⟩ := derive_eq_map D P n hsk chaincode index
  obtain ⟨tweak, htweak⟩ := exists_keygenTUnroundedInner hxof hgauss key aSeed
  rw [hpriv, htweak]
  exact ⟨_, rfl⟩

/-! ## Paths -/

/-- Along a path of indices below `2 ^ 31` the derivations agree. -/
theorem derivePath_agree (D : Derivation) (P : Primitives) (n : ℕ)
    (hpath : ∀ step ∈ path, step.2.toNat < 2 ^ 31) (hsk : deserializeSkInto sk = some key) :
    Agree (derivePrivPath D P n (sk, sk.take RACCOONG_PK_BYTES) path)
      (derivePubPath D P n (sk.take RACCOONG_PK_BYTES) path) := by
  induction path generalizing sk key with
  | nil =>
    refine ⟨rfl, ?_⟩
    intro keys hkeys
    obtain rfl := Option.some.inj hkeys
    rfl
  | cons step path ih =>
    obtain ⟨hstep, hrest⟩ := List.forall_mem_cons.mp hpath
    obtain ⟨hpub, -⟩ := agree_of_lt D P n hsk step.1 hstep
    rw [derivePrivPath, derivePubPath, List.foldlM_cons, List.foldlM_cons, hpub]
    cases hpriv : thrcHdDerivePriv D P n sk (sk.take RACCOONG_PK_BYTES) step.1 step.2 false
      RACCOONG_SK_BYTES RACCOONG_PK_BYTES with
    | none =>
      refine ⟨rfl, ?_⟩
      intro keys hkeys
      cases hkeys
    | some keys =>
      obtain ⟨aSeed, t, s⟩ := key
      obtain ⟨htake, t', s', hsk'⟩ := child_of_thrcHdDerivePriv hsk hpriv
      obtain ⟨sk', pk'⟩ := keys
      obtain rfl : sk'.take RACCOONG_PK_BYTES = pk' := htake
      -- the child is a pair of keys of the same form
      exact ih hrest hsk'

/-- An index from `2 ^ 31` on ends the path without the secret key. -/
theorem derivePubPath_of_ge (D : Derivation) (P : Primitives) (n : ℕ) {step : Bytes × UInt32}
    (hmem : step ∈ path) (hstep : 2 ^ 31 ≤ step.2.toNat) (pk : Bytes) :
    derivePubPath D P n pk path = none := by
  induction path generalizing pk with
  | nil => cases hmem
  | cons first path ih =>
    rw [derivePubPath, List.foldlM_cons]
    rcases List.mem_cons.mp hmem with rfl | hmem
    · rw [thrcHdDerivePub_of_ge D P n pk step.1 hstep]
      rfl
    · cases thrcHdDerivePub D P n pk first.1 first.2 RACCOONG_PK_BYTES with
      | none => rfl
      | some pk' => exact ih hmem pk'

/-- With the secret key every path has an end, if sampling succeeds. -/
theorem exists_derivePrivPath (D : Derivation) (hxof : ∀ seed, ∃ p, xofSampleQ P n seed = some p)
    (hgauss : ∀ seed, ∃ src, P.gaussianSampleSeed RACCOONG_LG_SIGMA_T2 seed = some src)
    (path : List (Bytes × UInt32)) (hsk : deserializeSkInto sk = some key) :
    ∃ keys, derivePrivPath D P n (sk, sk.take RACCOONG_PK_BYTES) path = some keys := by
  induction path generalizing sk key with
  | nil => exact ⟨_, rfl⟩
  | cons step path ih =>
    obtain ⟨⟨sk', pk'⟩, hpriv⟩ := exists_thrcHdDerivePriv D hxof hgauss hsk step.1 step.2
    obtain ⟨aSeed, t, s⟩ := key
    obtain ⟨htake, t', s', hsk'⟩ := child_of_thrcHdDerivePriv hsk hpriv
    obtain rfl : sk'.take RACCOONG_PK_BYTES = pk' := htake
    obtain ⟨keys, hkeys⟩ := ih hsk'
    refine ⟨keys, ?_⟩
    rw [derivePrivPath, List.foldlM_cons, hpriv]
    exact hkeys

theorem derivePrivPath_singleton (D : Derivation) (P : Primitives) (n : ℕ) (keys : Bytes × Bytes)
    (step : Bytes × UInt32) :
    derivePrivPath D P n keys [step] =
      thrcHdDerivePriv D P n keys.1 keys.2 step.1 step.2 false RACCOONG_SK_BYTES
        RACCOONG_PK_BYTES := by
  rw [derivePrivPath, List.foldlM_cons]
  exact bind_pure _

theorem derivePubPath_singleton (D : Derivation) (P : Primitives) (n : ℕ) (pk : Bytes)
    (step : Bytes × UInt32) :
    derivePubPath D P n pk [step] = thrcHdDerivePub D P n pk step.1 step.2 RACCOONG_PK_BYTES := by
  rw [derivePubPath, List.foldlM_cons]
  exact bind_pure _

/-- The derivations agree along a path if and only if no index on it is `2 ^ 31` or more. -/
theorem agree_path_iff (D : Derivation) (hxof : ∀ seed, ∃ p, xofSampleQ P n seed = some p)
    (hgauss : ∀ seed, ∃ src, P.gaussianSampleSeed RACCOONG_LG_SIGMA_T2 seed = some src)
    (hsk : deserializeSkInto sk = some key) (path : List (Bytes × UInt32)) :
    Agree (derivePrivPath D P n (sk, sk.take RACCOONG_PK_BYTES) path)
      (derivePubPath D P n (sk.take RACCOONG_PK_BYTES) path) ↔ ∀ step ∈ path,
      step.2.toNat < 2 ^ 31 := by
  constructor
  · intro hagree step hmem
    by_contra hge
    obtain ⟨keys, hkeys⟩ := exists_derivePrivPath D hxof hgauss path hsk
    have hpub := hagree.1
    rw [hkeys, derivePubPath_of_ge D P n hmem (Nat.not_lt.mp hge)] at hpub
    cases hpub
  · intro hpath
    exact derivePath_agree D P n hpath hsk

/-- **Watch-only and signing keys.** The derivations agree on an index, and along a path, if and
only if all indices are below `2 ^ 31`; the derivation with the secret key takes the others as
well. -/
theorem derivations_agree_iff (D : Derivation) (hxof : ∀ seed, ∃ p, xofSampleQ P n seed = some p)
    (hgauss : ∀ seed, ∃ src, P.gaussianSampleSeed RACCOONG_LG_SIGMA_T2 seed = some src) {sk : Bytes}
    {key : Bytes × PolyVec RACCOONG_K × PolyVec RACCOONG_ELL}
    (hsk : deserializeSkInto sk = some key) :
    (∀ chaincode index,
      Agree
        (thrcHdDerivePriv D P n sk (sk.take RACCOONG_PK_BYTES) chaincode index false
          RACCOONG_SK_BYTES RACCOONG_PK_BYTES)
        (thrcHdDerivePub D P n (sk.take RACCOONG_PK_BYTES) chaincode index RACCOONG_PK_BYTES) ↔
        index.toNat < 2 ^ 31) ∧
    ∀ path, Agree (derivePrivPath D P n (sk, sk.take RACCOONG_PK_BYTES) path)
      (derivePubPath D P n (sk.take RACCOONG_PK_BYTES) path) ↔ ∀ step ∈ path,
      step.2.toNat < 2 ^ 31 := by
  refine ⟨?_, agree_path_iff D hxof hgauss hsk⟩
  intro chaincode index
  have hstep := agree_path_iff D hxof hgauss hsk [(chaincode, index)]
  rwa [derivePrivPath_singleton, derivePubPath_singleton, List.forall_mem_singleton] at hstep

/-- Functions to derive tweaks with. -/
def sampleDerivation : Derivation where
  sha256Raw m := m.take 32
  hmacSha512 k m := k ++ m
  hkdfSha256 len ikm := (ikm ++ List.replicate len 0).take len
  drbgRandomBytes seed len := seed.take len

theorem derivations_agree_iff_sample :
    (∀ chaincode index,
      Agree
        (thrcHdDerivePriv sampleDerivation samplePrimitives 256 sampleSk
          (sampleSk.take RACCOONG_PK_BYTES) chaincode index false RACCOONG_SK_BYTES
          RACCOONG_PK_BYTES)
        (thrcHdDerivePub sampleDerivation samplePrimitives 256
          (sampleSk.take RACCOONG_PK_BYTES) chaincode index RACCOONG_PK_BYTES) ↔
            index.toNat < 2 ^ 31) ∧
    ∀ path, Agree
      (derivePrivPath sampleDerivation samplePrimitives 256 (sampleSk,
        sampleSk.take RACCOONG_PK_BYTES) path)
      (derivePubPath sampleDerivation samplePrimitives 256 (sampleSk.take RACCOONG_PK_BYTES) path) ↔
        ∀ step ∈ path, step.2.toNat < 2 ^ 31 :=
  derivations_agree_iff sampleDerivation exists_xofSampleQ_samplePrimitives (fun _ => ⟨_, rfl⟩)
    exists_deserializeSkInto_sampleSk.choose_spec

/-- On the index `2 ^ 31` only the derivation with the secret key gives a child. -/
theorem not_agree_sample :
    (∃ key, deserializeSkInto sampleSk = some key) ∧
    (∃ keys, thrcHdDerivePriv sampleDerivation samplePrimitives 256 sampleSk
      (sampleSk.take RACCOONG_PK_BYTES)
      (List.replicate 32 9) 0x80000000 false RACCOONG_SK_BYTES RACCOONG_PK_BYTES = some keys) ∧
    thrcHdDerivePub sampleDerivation samplePrimitives 256 (sampleSk.take RACCOONG_PK_BYTES)
      (List.replicate 32 9) 0x80000000 RACCOONG_PK_BYTES = none := by
  obtain ⟨key, hsk⟩ := exists_deserializeSkInto_sampleSk
  refine ⟨⟨key, hsk⟩, ?_, ?_⟩
  · exact exists_thrcHdDerivePriv sampleDerivation exists_xofSampleQ_samplePrimitives (fun _ =>
      ⟨_, rfl⟩) hsk _ _
  · exact thrcHdDerivePub_of_ge _ _ _ _ _ (by decide) _

end Raccoong

end Libdogecoin
