/-
# Signatures of Raccoon-G

`thrc.c` : signing with given randomness, and verifying. The signer rounds `A r + e2` and leaves a
hint that takes the verifier from its own rounded vector to that one.

* `addHints_hints` : the hint does so for any two rounded vectors;
* `vecNtt_vecIntt` : the verifier transforms the response back to what the signer had;
* `thrcVerify_thrcSignWithRandom` : so the hash of a signature is recomputed, whatever the public
  polynomials of the key are, and only the norm decides.

The sponge functions, the Gaussian sampler and the floating-point comparison of norms are
parameters. The loops that read from a sponge until enough is accepted get a bound on their
attempts; they return nothing beyond it. Checks of null pointers and the wiping of memory are left
out.
-/
import Libdogecoin.ThrcWire
import Libdogecoin.WhileLoop

namespace Libdogecoin

namespace Raccoong

open FixedRecords LittleEndian WhileLoop

/-! ## Hashing and sampling -/

/-- What is taken from outside. -/
structure Primitives where
  /-- The output of SHAKE128 on an input. -/
  shake128 : Bytes → ℕ → UInt8
  /-- The output of SHAKE256 on an input. -/
  shake256 : Bytes → ℕ → UInt8
  /-- `gaussian_sample_seed`, for `RACCOONG_N` samples. -/
  gaussianSampleSeed : UInt32 → Bytes → Option (Fin RACCOONG_N → Int64)
  /-- What `check_bounds` computes in floating point, from centered coefficients. -/
  normWithinBound : (Fin RACCOONG_ELL → Fin RACCOONG_N → ℤ) →
    (Fin RACCOONG_K → Fin RACCOONG_N → ℤ) → Bool

/-- Some bytes of an output. -/
def squeeze (stream : ℕ → UInt8) (pos len : ℕ) :
    Bytes := (List.range len).map fun i => stream (pos + i)

/-- `raccoong_hdr8`. -/
def hdr8 (ds b1 b2 b3 b4 b5 b6 b7 : UInt8) : Bytes := [ds, b1, b2, b3, b4, b5, b6, b7]

/-- `raccoong_hdr24`. -/
def hdr24 (ds : UInt8) (i j : ℕ) (k : UInt8) : Bytes := [ds, k] ++ toBytes 3 i ++ toBytes 3 j

/-- `RACCOONG_LOG_Q`. -/
def RACCOONG_LOG_Q : UInt64 := 50

/-- `RACCOONG_TAU`. -/
def RACCOONG_TAU : ℕ := 23

/-- `RACCOONG_LG_SIGMA_W2`. -/
def RACCOONG_LG_SIGMA_W2 : UInt32 := 80

/-- `RACCOONG_NU_T`. -/
def RACCOONG_NU_T : UInt64 := 35

/-- `polyr_set_zero`. -/
def Polyr.zero : Polyr := ⟨List.replicate 256 0, List.length_replicate⟩

/-- Where the loop of `raccoong_xof_sample_q` is: in the output of the sponge, and in the
polynomial. -/
structure XofState where
  pos : ℕ
  i : ℕ
  out : Polyr

/-- The body of the loop of `raccoong_xof_sample_q`. -/
def xofTurn (stream : ℕ → UInt8) (s : XofState) : XofState :=
  let z := squeeze stream s.pos RACCOONG_COEFF_BYTES
  let x := UInt64.ofNat (ofBytes z) &&& ((1 <<< RACCOONG_LOG_Q) - 1)
  if x < RACCOONG_Q then
    { pos := s.pos + RACCOONG_COEFF_BYTES, i := s.i + 1, out := s.out.set s.i x }
  else { s with pos := s.pos + RACCOONG_COEFF_BYTES }

/-- `raccoong_xof_sample_q`. -/
def xofSampleQ (P : Primitives) (attempts : ℕ) (seed : Bytes) : Option Polyr :=
  (whileLoop (fun s => s.i < RACCOONG_N) (xofTurn (P.shake128 seed)) attempts
    { pos := 0, i := 0, out := Polyr.zero }).map XofState.out

/-- Where the loop of `raccoong_chal_poly` is. -/
structure ChalState where
  pos : ℕ
  wt : ℕ
  out : Fin RACCOONG_N → Int8

/-- The body of the loop of `raccoong_chal_poly`. -/
def chalTurn (stream : ℕ → UInt8) (s : ChalState) : ChalState :=
  let x := ofBytes (squeeze stream s.pos 2)
  let sgn := x % 2
  let idx : Fin RACCOONG_N := ⟨x / 2 % RACCOONG_N, Nat.mod_lt _ (by decide)⟩
  if s.out idx = 0 then
    { pos := s.pos + 2, wt := s.wt + 1
      out := Function.update s.out idx (Int8.ofInt (2 * sgn - 1)) }
  else { s with pos := s.pos + 2 }

/-- `raccoong_chal_poly`, with the domain separator `c`. -/
def chalPoly (P : Primitives) (attempts : ℕ) (cHash : Bytes) : Option (Fin RACCOONG_N → Int8) :=
  let hdr := hdr8 0x63 (UInt8.ofNat RACCOONG_TAU) 0 0 0 0 0 0
  (whileLoop (fun s => s.wt < RACCOONG_TAU) (chalTurn (P.shake256 (hdr ++ cHash))) attempts
    { pos := 0, wt := 0, out := fun _ => 0 }).map ChalState.out

/-- `raccoong_hash_vec`. -/
def hashVec (P : Primitives) (ds : UInt8) (dat : Bytes) (v : List UInt64) : Option Bytes :=
  if dat.length > 0xFFFFFF then none
  else if v.length > 0xFFFFFF / RACCOONG_COEFF_BYTES then none
  else
    let hdr := hdr24 ds dat.length (RACCOONG_COEFF_BYTES * v.length) 0
    let le := (v.map fun x => toBytes RACCOONG_COEFF_BYTES (x % RACCOONG_Q).toNat).flatten
    some (squeeze (P.shake256 (hdr ++ dat ++ le)) 0 RACCOONG_C_HASH_BYTES)

/-- `raccoong_pk_hash`. -/
def pkHash (P : Primitives) (pk : Bytes) : Bytes := squeeze (P.shake256 pk) 0 RACCOONG_C_HASH_BYTES

/-- `raccoong_buff_mu`. -/
def buffMu (P : Primitives) (tr msg : Bytes) :
    Bytes := squeeze (P.shake256 (tr ++ msg)) 0 RACCOONG_C_HASH_BYTES

/-- The matrix of `raccoong_expand_a`. -/
abbrev PolyMat := Fin RACCOONG_K → Fin RACCOONG_ELL → Polyr

/-- `raccoong_expand_a`, with the domain separator `A`. -/
def expandA (P : Primitives) (attempts : ℕ) (aSeed : Bytes) : Option PolyMat :=
  collect fun i : Fin RACCOONG_K => collect fun j : Fin RACCOONG_ELL =>
    xofSampleQ P attempts (hdr8 0x41 (UInt8.ofNat i) (UInt8.ofNat j) 0 0 0 0 0 ++ aSeed)

/-- `polyr_load_signed`. -/
def polyrLoadSigned (src : Fin RACCOONG_N → Int64) : Polyr :=
  Polyr.ofFn fun i =>
    let v := (src i).toInt.tmod RACCOONG_Q.toNat
    UInt64.ofNat (if v < 0 then v + RACCOONG_Q.toNat else v).toNat

/-- `sample_w_gaussian`. -/
def sampleWGaussian (P : Primitives) (ds idx b2 : UInt8) (key : Bytes) : Option Polyr :=
  (P.gaussianSampleSeed RACCOONG_LG_SIGMA_W2 (hdr8 ds idx b2 0 0 0 0 0 ++ key)).map polyrLoadSigned

/-! ## Arithmetic on polynomials -/

/-- `reduce_lt_2q`. -/
def reduceLt2q (v : UInt64) : UInt64 := if v ≥ RACCOONG_Q then v - RACCOONG_Q else v

/-- `polyr_add`. -/
def polyrAdd (a b : Polyr) : Polyr := Polyr.zipWith (fun x y => reduceLt2q (x + y)) a b

/-- `polyr_sub`. -/
def polyrSub (a b : Polyr) : Polyr := Polyr.zipWith (fun x y => reduceLt2q (x + RACCOONG_Q - y)) a b

/-- `polyr_mul_pointwise`. -/
def polyrMulPointwise (a b : Polyr) : Polyr := Polyr.zipWith mulModQ a b

/-- `raccoong_vec_ntt`. -/
def vecNtt {n : ℕ} (v : PolyVec n) : PolyVec n := fun i => nttForward (v i)

/-- `raccoong_vec_intt`. -/
def vecIntt {n : ℕ} (v : PolyVec n) : PolyVec n := fun i => nttInverse (v i)

/-- `raccoong_vec_add`. -/
def vecAdd {n : ℕ} (a b : PolyVec n) : PolyVec n := fun i => polyrAdd (a i) (b i)

/-- `raccoong_mul_mat_vec_ntt`. -/
def mulMatVecNtt (A : PolyMat) (v : PolyVec RACCOONG_ELL) : PolyVec RACCOONG_K := fun i =>
  (List.finRange RACCOONG_ELL).foldl
  (fun out j => polyrAdd out (polyrMulPointwise (A i j) (v j))) Polyr.zero

/-- Vectors modulo `q_w`, `uint16_t[RACCOONG_K][RACCOONG_N]`. -/
abbrev QwVec := Fin RACCOONG_K → Fin RACCOONG_N → UInt16

/-- `rshift_to_qw`. -/
def rshiftToQw (p : Polyr) (i : Fin RACCOONG_N) : UInt16 :=
  let mid : UInt64 := 1 <<< (RACCOONG_NU_W - 1)
  let v := (p.get i + mid) >>> RACCOONG_NU_W
  (v % RACCOONG_Q_W).toUInt16

/-- `round_and_lshift_nu_t`. -/
def roundAndLshiftNuT (src : Polyr) : Polyr :=
  src.map fun c =>
    let mid : UInt64 := 1 <<< (RACCOONG_NU_T - 1)
    let qt := RACCOONG_Q >>> RACCOONG_NU_T
    (((c + mid) >>> RACCOONG_NU_T) % qt) <<< RACCOONG_NU_T

/-- `chal_to_polyr`. -/
def chalToPolyr (c : Fin RACCOONG_N → Int8) : Polyr :=
  Polyr.ofFn fun i =>
    let v := (c i).toInt
    UInt64.ofNat (if v < 0 then RACCOONG_Q.toNat + v else v).toNat

/-- `qw_vec_to_u64`. -/
def qwVecToU64 (v : QwVec) : List UInt64 :=
  (List.ofFn fun i => List.ofFn fun j => (v i j).toUInt64).flatten

/-- `center_q`. -/
def centerQ (x : UInt64) : ℤ := if x.toNat > RACCOONG_Q.toNat >>> 1 then x.toNat -
    RACCOONG_Q.toNat else x.toNat

/-- `check_bounds`. -/
def checkBounds (P : Primitives) (z : PolyVec RACCOONG_ELL) (h : QwVec) : Bool :=
  P.normWithinBound (fun i j => centerQ ((z i).get j)) fun i j => centerQw (h i j).toNat

/-! ## Signing and verifying -/

/-- `y_qw`, step 5 of `thrc_sign_internal`, and `w_qw` of `thrc_verify_internal` before the hint is
added. -/
def roundedResponse (A : PolyMat) (cNtt : Polyr) (zNtt : PolyVec RACCOONG_ELL)
    (t : PolyVec RACCOONG_K) : QwVec :=
  let tShift := vecNtt fun i => roundAndLshiftNuT (t i)
  let y : PolyVec RACCOONG_K := fun i =>
    polyrSub (mulMatVecNtt A zNtt i) (polyrMulPointwise cNtt (tShift i))
  fun i => rshiftToQw (vecIntt y i)

/-- Step 6 of `thrc_sign_internal`. -/
def hints (w y : QwVec) : Hints := fun i j => Int16.ofInt
    (centerQw (modQw ((w i j).toNat - (y i j).toNat)))

/-- `h_unsigned` of `thrc_verify_internal`. -/
def hUnsigned (h : Hints) : QwVec := fun i j => UInt16.ofNat (modQw (h i j).toInt).toNat

/-- How `thrc_verify_internal` adds the hint. -/
def addHints (y : QwVec) (h : Hints) : QwVec := fun i j =>
  let sum : ℤ := (y i j).toNat + modQw (h i j).toInt
  UInt16.ofNat (if sum ≥ Qw then sum - Qw else sum).toNat

/-- `thrc_sign_internal`, with the domain separators `r`, `e` and `H`. -/
def thrcSignInternal (P : Primitives) (attempts : ℕ) (aSeed : Bytes) (t : PolyVec RACCOONG_K)
    (s : PolyVec RACCOONG_ELL) (mu masterRandom : Bytes) :
    Option (Bytes × PolyVec RACCOONG_ELL × Hints) := do
  let A ← expandA P attempts aSeed
  let r ← collect fun i : Fin RACCOONG_ELL => sampleWGaussian P 0x72 (UInt8.ofNat i) 0 masterRandom
  let e2 ← collect fun i : Fin RACCOONG_K => sampleWGaussian P 0x65 (UInt8.ofNat i) 2 masterRandom
  let rNtt := vecNtt r
  let w := vecAdd (vecIntt (mulMatVecNtt A rNtt)) e2
  let wQw : QwVec := fun i => rshiftToQw (w i)
  let cHash ← hashVec P 0x48 mu (qwVecToU64 wQw)
  let c ← chalPoly P attempts cHash
  let cNtt := nttForward (chalToPolyr c)
  let sNtt := vecNtt s
  let zNtt : PolyVec RACCOONG_ELL := fun i => polyrAdd (polyrMulPointwise cNtt (sNtt i)) (rNtt i)
  some (cHash, vecIntt zNtt, hints wQw (roundedResponse A cNtt zNtt t))

/-- The hash `c_hash2` of `thrc_verify_internal`; hashing itself may fail. -/
def recomputeHash (P : Primitives) (attempts : ℕ) (aSeed : Bytes)
    (t : PolyVec RACCOONG_K) (cHash : Bytes) (z : PolyVec RACCOONG_ELL) (h : Hints) (mu : Bytes) :
    Option (Option Bytes) := do
  let c ← chalPoly P attempts cHash
  let cNtt := nttForward (chalToPolyr c)
  let A ← expandA P attempts aSeed
  some (hashVec P 0x48 mu (qwVecToU64 (addHints (roundedResponse A cNtt (vecNtt z) t) h)))

/-- `thrc_verify_internal`. -/
def thrcVerifyInternal (P : Primitives) (attempts : ℕ) (aSeed : Bytes)
    (t : PolyVec RACCOONG_K) (cHash : Bytes) (z : PolyVec RACCOONG_ELL) (h : Hints) (mu : Bytes) :
    Option Bool := do
  match ← recomputeHash P attempts aSeed t cHash z h mu with
  | none => some false
  | some cHash2 => if cHash ≠ cHash2 then some false else some (checkBounds P z (hUnsigned h))

/-- `thrc_sign_with_random`, with the size of the buffer. -/
def thrcSignWithRandom (P : Primitives) (attempts : ℕ) (sk msg masterRandom : Bytes) (sigLen : ℕ) :
    Option Bytes :=
  if sigLen < RACCOONG_SIG_BYTES then none
  else do
    let (aSeed, t, s) ← deserializeSkInto sk
    let tr := pkHash P (sk.take RACCOONG_PK_BYTES)
    let mu := buffMu P tr msg
    let (cHash, z, h) ← thrcSignInternal P attempts aSeed t s mu masterRandom
    serializeSignature sigLen cHash z h

/-- `thrc_verify`. -/
def thrcVerify (P : Primitives) (attempts : ℕ) (pk msg sig : Bytes) : Option Bool :=
  if sig.length ≠ RACCOONG_SIG_BYTES then some false
  else
    match deserializePkInto pk with
    | none => some false
    | some (aSeed, t) =>
      match deserializeSignature sig with
      | none => some false
      | some (cHash, z, h) =>
        let tr := pkHash P pk
        let mu := buffMu P tr msg
        thrcVerifyInternal P attempts aSeed t cHash z h mu

/-! ## Sampling -/

variable {P : Primitives} {n m : ℕ} {c : Fin RACCOONG_N → Int8} {cHash seed aSeed dat : Bytes}
  {p a b : Polyr}

/-- More attempts sample the same. -/
theorem xofSampleQ_mono (hnm : n ≤ m) (h : xofSampleQ P n seed = some p) :
    xofSampleQ P m seed = some p := by
  obtain ⟨s, hloop, rfl⟩ := Option.map_eq_some_iff.mp h
  rw [xofSampleQ, whileLoop_mono hnm hloop, Option.map_some]

theorem chalPoly_mono (hnm : n ≤ m) (h : chalPoly P n cHash = some c) :
    chalPoly P m cHash = some c := by
  obtain ⟨s, hloop, rfl⟩ := Option.map_eq_some_iff.mp h
  rw [chalPoly, whileLoop_mono hnm hloop, Option.map_some]

theorem expandA_mono (hnm : n ≤ m) {A : PolyMat} (h : expandA P n aSeed = some A) :
    expandA P m aSeed = some A := by
  apply collect_eq_some_iff.mpr
  intro i
  have hrow := collect_eq_some_iff.mp h i
  apply collect_eq_some_iff.mpr
  intro j
  exact xofSampleQ_mono hnm (collect_eq_some_iff.mp hrow j)

/-! ## The hint -/

/-- The coefficients of rounded vectors lie below `q_w`. -/
def Below (w : QwVec) : Prop := ∀ i j, (w i j).toNat < 2048

theorem toNat_rshiftToQw_lt (p : Polyr) (i : Fin RACCOONG_N) : (rshiftToQw p i).toNat < 2048 := by
  rw [rshiftToQw, UInt64.toNat_toUInt16, UInt64.toNat_mod, toNat_Q_W]
  omega

/-- What the signer centers is centered. -/
theorem centered_hints (w y : QwVec) (i : Fin RACCOONG_K) (j : Fin RACCOONG_N) :
    Centered (hints w y i j) := by
  obtain ⟨h0, hlt⟩ := modQw_mem ((w i j).toNat - (y i j).toNat)
  rw [Centered, hints, toInt_ofInt_centerQw h0 hlt]
  exact centerQw_mem h0 hlt

/-- **The hint.** It takes the second vector to the first. -/
theorem addHints_hints {w y : QwVec} (hw : Below w) (hy : Below y) :
    addHints y (hints w y) = w := by
  funext i j
  have hwij := hw i j
  have hyij := hy i j
  obtain ⟨h0, hlt⟩ := modQw_mem ((w i j).toNat - (y i j).toNat)
  have hback : modQw (hints w y i j).toInt = modQw ((w i j).toNat - (y i j).toNat) := by
    rw [hints, toInt_ofInt_centerQw h0 hlt, modQw_centerQw h0 hlt]
  have hsum : ((y i j).toNat + modQw (hints w y i j).toInt : ℤ) = (w i j).toNat ∨
      ((y i j).toNat + modQw (hints w y i j).toInt : ℤ) = (w i j).toNat + 2048 := by
    rw [hback, modQw_eq]
    omega
  rw [addHints, Qw_eq]
  rcases hsum with hsum | hsum
  · rw [hsum, if_neg (by omega), Int.toNat_natCast, UInt16.ofNat_toNat]
  · rw [hsum, if_pos (by omega), Int.add_sub_cancel, Int.toNat_natCast, UInt16.ofNat_toNat]

/-! ## The response -/

theorem reduced_zipWith {g : UInt64 → UInt64 → UInt64}
    (h : ∀ x ∈ a.1, ∀ y ∈ b.1, (g x y).toNat < q) :
    Reduced (Polyr.zipWith g a b) := by
  intro c hc
  obtain ⟨i, hi, rfl⟩ := List.mem_iff_getElem.mp hc
  rw [Polyr.zipWith, List.length_zipWith] at hi
  have hget := @List.getElem_zipWith _ _ _ g a.1 b.1 i (by rw [List.length_zipWith]; exact hi)
  have hzip : (Polyr.zipWith g a b).1 = List.zipWith g a.1 b.1 := rfl
  simp only [hzip, hget]
  exact h _ (List.getElem_mem _) _ (List.getElem_mem _)

theorem reduced_polyrMulPointwise (a b : Polyr) : Reduced (polyrMulPointwise a b) :=
  reduced_zipWith fun x _ y _ => mulModQ_lt x y

theorem reduced_polyrAdd (ha : Reduced a) (hb : Reduced b) : Reduced (polyrAdd a b) :=
  reduced_zipWith fun x hx y hy => addModQ_lt (ha x hx) (hb y hy)

theorem reduced_polyrLoadSigned (src : Fin RACCOONG_N → Int64) : Reduced (polyrLoadSigned src) := by
  apply reduced_ofFn
  intro i
  have hq : q = 562949953438721 := rfl
  have hlt := Int.tmod_lt_of_pos (src i).toInt (show (0 : ℤ) < 562949953438721 by decide)
  have hgt := Int.lt_tmod_of_pos (src i).toInt (show (0 : ℤ) < 562949953438721 by decide)
  have hcast : ((562949953438721 : ℕ) : ℤ) = 562949953438721 := rfl
  rw [toNat_Q, hq, hcast]
  generalize (src i).toInt.tmod 562949953438721 = v at *
  rw [UInt64.toNat_ofNat_of_lt']
  · split
    · omega
    · omega
  · show _ < 2 ^ 64
    split
    · omega
    · omega

/-- The verifier gets back what the signer transformed. -/
theorem vecNtt_vecIntt {v : PolyVec n} (hv : ∀ i, Reduced (v i)) : vecNtt (vecIntt v) = v := by
  funext i
  exact nttForward_nttInverse (hv i)

/-! ## The round trip -/

theorem length_of_hashVec {ds : UInt8} {v : List UInt64} {out : Bytes}
    (h : hashVec P ds dat v = some out) :
    out.length = RACCOONG_C_HASH_BYTES := by
  rw [hashVec] at h
  split at h
  · cases h
  · split at h
    · cases h
    · obtain rfl := Option.some.inj h
      rw [squeeze, List.length_map, List.length_range]

theorem below_rshiftToQw (v : PolyVec RACCOONG_K) : Below fun i => rshiftToQw (v i) :=
  fun i j => toNat_rshiftToQw_lt (v i) j

theorem below_roundedResponse (A : PolyMat) (cNtt : Polyr) (zNtt : PolyVec RACCOONG_ELL)
    (t : PolyVec RACCOONG_K) :
    Below (roundedResponse A cNtt zNtt t) :=
  below_rshiftToQw _

/-- What `thrc_sign_internal` gives: a reduced response and a centered hint, from which the hash is
recomputed. -/
theorem thrcSignInternal_spec {t : PolyVec RACCOONG_K} {s : PolyVec RACCOONG_ELL}
    {mu masterRandom : Bytes} {z : PolyVec RACCOONG_ELL} {h : Hints}
    (hsign : thrcSignInternal P n aSeed t s mu masterRandom = some (cHash, z, h)) :
    cHash.length = RACCOONG_C_HASH_BYTES ∧ (∀ i, Reduced (z i)) ∧ (∀ i j, Centered (h i j)) ∧
      ∀ m, n ≤ m → recomputeHash P m aSeed t cHash z h mu = some (some cHash) := by
  obtain ⟨A, hA, hsign⟩ := Option.bind_eq_some_iff.mp hsign
  obtain ⟨r, hr, hsign⟩ := Option.bind_eq_some_iff.mp hsign
  obtain ⟨e2, -, hsign⟩ := Option.bind_eq_some_iff.mp hsign
  obtain ⟨cHash', hhash, hsign⟩ := Option.bind_eq_some_iff.mp hsign
  obtain ⟨c, hc, hsign⟩ := Option.bind_eq_some_iff.mp hsign
  obtain ⟨rfl, rfl, rfl⟩ := Prod.mk.inj (Option.some.inj hsign)
  have hrNtt : ∀ i, Reduced (vecNtt r i) := by
    intro i
    obtain ⟨src, -, heq⟩ := Option.map_eq_some_iff.mp (collect_eq_some_iff.mp hr i)
    have hload := reduced_polyrLoadSigned src
    rw [heq] at hload
    exact (residue_nttForward hload).1
  have hzNtt : ∀ i, Reduced (polyrAdd (polyrMulPointwise (nttForward (chalToPolyr c)) (vecNtt s i))
    (vecNtt r i)) :=
    fun i => reduced_polyrAdd (reduced_polyrMulPointwise _ _) (hrNtt i)
  refine ⟨length_of_hashVec hhash, fun i => (residue_nttInverse (hzNtt i)).1, fun i j =>
    centered_hints _ _ i j, ?_⟩
  intro m hnm
  have hc' := chalPoly_mono hnm hc
  have hA' := expandA_mono hnm hA
  rw [recomputeHash, hc']
  dsimp only [Option.bind_eq_bind, Option.bind_some]
  rw [hA', Option.bind_some, vecNtt_vecIntt hzNtt,
    addHints_hints (below_rshiftToQw _) (below_roundedResponse _ _ _ _), hhash]

/-- **Verifying what was signed.** The hash is recomputed, and only the norm of the response and the
hint decides. -/
theorem thrcVerify_thrcSignWithRandom (P : Primitives) {n m : ℕ} (hnm : n ≤ m)
    {sk msg masterRandom sig : Bytes} {sigLen : ℕ}
    (hsign : thrcSignWithRandom P n sk msg masterRandom sigLen = some sig) :
    ∃ aSeed t s cHash z h, deserializeSkInto sk = some (aSeed, t, s) ∧
      deserializeSignature sig = some (cHash, z, h) ∧
      recomputeHash P m aSeed t cHash z h (buffMu P (pkHash P (sk.take RACCOONG_PK_BYTES)) msg) =
        some (some cHash) ∧
      thrcVerify P m (sk.take RACCOONG_PK_BYTES) msg sig =
        some (checkBounds P z (hUnsigned h)) := by
  rw [thrcSignWithRandom] at hsign
  split at hsign
  · cases hsign
  · obtain ⟨⟨aSeed, t, s⟩, hsk, hsign⟩ := Option.bind_eq_some_iff.mp hsign
    obtain ⟨⟨cHash, z, h⟩, hinternal, hsig⟩ := Option.bind_eq_some_iff.mp hsign
    obtain ⟨hhash, hz, hh, hrecompute⟩ := thrcSignInternal_spec hinternal
    obtain ⟨hlen, hread⟩ := deserializeSignature_serializeSignature hhash hz hh hsig
    refine ⟨aSeed, t, s, cHash, z, h, hsk, hread, hrecompute m hnm, ?_⟩
    rw [thrcVerify, if_neg (not_not_intro hlen), deserializePkInto_of_deserializeSkInto hsk, hread]
    dsimp only
    rw [thrcVerifyInternal, hrecompute m hnm]
    exact if_neg (not_not_intro rfl)

/-! ## When signing succeeds -/

theorem exists_hashVec (P : Primitives) (ds : UInt8) (hdat : dat.length = RACCOONG_C_HASH_BYTES)
    (w : QwVec) :
    ∃ out, hashVec P ds dat (qwVecToU64 w) = some out := by
  have hlen : (qwVecToU64 w).length = 2304 := length_flatten_ofFn (w := 256) fun _ =>
    List.length_ofFn
  have hdat_le : ¬ dat.length > 0xFFFFFF := by
    rw [hdat]
    decide
  have hlen_le : ¬ (qwVecToU64 w).length > 0xFFFFFF / RACCOONG_COEFF_BYTES := by
    rw [hlen]
    decide
  rw [hashVec, if_neg hdat_le, if_neg hlen_le]
  exact ⟨_, rfl⟩

/-- Signing with a key that is accepted succeeds if sampling does. -/
theorem exists_thrcSignWithRandom {sk : Bytes}
    {key : Bytes × PolyVec RACCOONG_K × PolyVec RACCOONG_ELL}
    (hsk : deserializeSkInto sk = some key) (hxof : ∀ seed, ∃ p, xofSampleQ P n seed = some p)
    (hchal : ∀ cHash, ∃ c, chalPoly P n cHash = some c)
    (hgauss : ∀ seed, ∃ src, P.gaussianSampleSeed RACCOONG_LG_SIGMA_W2 seed = some src)
    (msg masterRandom : Bytes) {sigLen : ℕ} (hlen : RACCOONG_SIG_BYTES ≤ sigLen) :
    ∃ sig, thrcSignWithRandom P n sk msg masterRandom sigLen = some sig := by
  obtain ⟨aSeed, t, s⟩ := key
  obtain ⟨A, hA⟩ : ∃ A, expandA P n aSeed = some A := exists_collect fun i =>
    exists_collect fun j => hxof _
  have hsample : ∀ ds idx b2, ∃ p, sampleWGaussian P ds idx b2 masterRandom = some p := by
    intro ds idx b2
    obtain ⟨src, hsrc⟩ := hgauss (hdr8 ds idx b2 0 0 0 0 0 ++ masterRandom)
    exact ⟨polyrLoadSigned src, by rw [sampleWGaussian, hsrc, Option.map_some]⟩
  obtain ⟨r, hr⟩ := exists_collect fun i : Fin RACCOONG_ELL => hsample 0x72 (UInt8.ofNat i) 0
  obtain ⟨e2, he2⟩ := exists_collect fun i : Fin RACCOONG_K => hsample 0x65 (UInt8.ofNat i) 2
  have hmu : (buffMu P (pkHash P (sk.take RACCOONG_PK_BYTES)) msg).length =
    RACCOONG_C_HASH_BYTES := by
    rw [buffMu, squeeze, List.length_map, List.length_range]
  obtain ⟨cHash, hhash⟩ := exists_hashVec P 0x48 hmu
    fun i => rshiftToQw (vecAdd (vecIntt (mulMatVecNtt A (vecNtt r))) e2 i)
  obtain ⟨c, hc⟩ := hchal cHash
  obtain ⟨raw, hraw⟩ : ∃ raw, thrcSignInternal P n aSeed t s
      (buffMu P (pkHash P (sk.take RACCOONG_PK_BYTES)) msg) masterRandom = some raw := by
    simp only [thrcSignInternal, Option.bind_eq_bind, hA, hr, he2, hhash, hc, Option.bind_some]
    exact ⟨_, rfl⟩
  obtain ⟨cHash', z, h⟩ := raw
  obtain ⟨-, hz, -, -⟩ := thrcSignInternal_spec hraw
  obtain ⟨sig, hsig⟩ : ∃ sig, serializeSignature sigLen cHash' z h = some sig :=
    ⟨_, (serializeSignature_eq_some_iff hz _).mpr ⟨hlen, rfl⟩⟩
  refine ⟨sig, ?_⟩
  rw [thrcSignWithRandom, if_neg (Nat.not_lt.mpr hlen), hsk]
  dsimp only [Option.bind_eq_bind, Option.bind_some]
  rw [hraw]
  exact hsig

/-- Primitives of which all succeed. -/
def samplePrimitives : Primitives where
  shake128 _ _ := 0
  shake256 _ pos := if pos % 2 = 0 then UInt8.ofNat pos else 0
  gaussianSampleSeed _ _ := some fun _ => 1
  normWithinBound _ _ := true

/-- A secret key whose public polynomials have nothing to do with the secret ones. -/
def sampleSk : Bytes :=
  serializeSk (List.replicate 16 7) (fun i => constant (UInt64.ofNat i)) fun _ => constant 3

theorem exists_deserializeSkInto_sampleSk : ∃ key, deserializeSkInto sampleSk = some key := by
  have hpublic : ∀ i : Fin RACCOONG_K, Reduced (constant (UInt64.ofNat i)) := by
    intro i
    apply reduced_constant
    have hi := i.2
    have hK : RACCOONG_K = 9 := rfl
    have hq : q = 562949953438721 := rfl
    rw [UInt64.toNat_ofNat_of_lt' (show (i : ℕ) < 2 ^ 64 by omega)]
    omega
  have hseed : (List.replicate 16 (7 : UInt8)).length = RACCOONG_A_SEED_BYTES := rfl
  exact ⟨_, deserializeSkInto_serializeSk hseed hpublic
    fun _ : Fin RACCOONG_ELL => reduced_constant (c := 3) (by decide)⟩

theorem exists_xofSampleQ_samplePrimitives (seed : Bytes) :
    ∃ p, xofSampleQ samplePrimitives 256 seed = some p := by
  apply Option.isSome_iff_exists.mp
  have h : (xofSampleQ samplePrimitives 256 []).isSome = true := by decide +kernel
  exact h

theorem thrcVerify_thrcSignWithRandom_sample :
    ∃ sig, thrcSignWithRandom samplePrimitives 256 sampleSk [1, 2, 3] (List.replicate 32 9) 20768 =
      some sig ∧
      thrcVerify samplePrimitives 256 (sampleSk.take RACCOONG_PK_BYTES) [1, 2, 3] sig =
        some true := by
  obtain ⟨key, hsk⟩ := exists_deserializeSkInto_sampleSk
  have hchal : ∀ cHash, ∃ c, chalPoly samplePrimitives 256 cHash = some c := by
    intro cHash
    apply Option.isSome_iff_exists.mp
    have h : (chalPoly samplePrimitives 256 []).isSome = true := by decide +kernel
    exact h
  obtain ⟨sig, hsign⟩ := exists_thrcSignWithRandom hsk exists_xofSampleQ_samplePrimitives hchal
    (fun _ => ⟨_, rfl⟩) [1, 2, 3] (List.replicate 32 9) (show RACCOONG_SIG_BYTES ≤ 20768 by decide)
  obtain ⟨_, _, _, _, _, _, -, -, -, hverify⟩ :=
    thrcVerify_thrcSignWithRandom samplePrimitives le_rfl hsign
  exact ⟨sig, hsign, hverify⟩

end Raccoong

end Libdogecoin
