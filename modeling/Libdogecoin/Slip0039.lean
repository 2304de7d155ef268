/-
# Shares of a secret

`slip0039.c` : a secret is the value at 255 of a polynomial over the field of the bytes, for each of
its bytes, and the shares are values at small indices. The value at 254 is a digest of the secret.

* `gf256Lagrange_row` : the interpolation of values of a polynomial is its value;
* `slip0039Split_rows` : the shares are values of one polynomial;
* `slip0039Combine_split` : shares put together again.
-/
import Libdogecoin.Gf256
import Libdogecoin.LagrangeList
import Libdogecoin.Serialize

namespace Libdogecoin

open Polynomial

/-- `SLIP0039_MAX_SHARES`. -/
def SLIP0039_MAX_SHARES : UInt8 := 16

/-- `SLIP0039_DIGEST_INDEX`. -/
def SLIP0039_DIGEST_INDEX : UInt8 := 254

/-- `SLIP0039_SECRET_INDEX`. -/
def SLIP0039_SECRET_INDEX : UInt8 := 255

/-- `SLIP0039_DIGEST_LENGTH_BYTES`. -/
def SLIP0039_DIGEST_LENGTH_BYTES : ℕ := 4

/-- `hmac_sha256`, on a key and a message. -/
abbrev HmacSha256 := Bytes → Bytes → {mac : Bytes // mac.length = 32}

/-- The outcomes of the calls of `dogecoin_random_bytes`, one after the other, each for a number of
bytes. -/
abbrev Draws := ℕ → (n : ℕ) → Option {bytes : Bytes // bytes.length = n}

/-! ## Interpolation -/

/-- The factor of a point in `gf256_lagrange`, with the indices of the other points. -/
def lagrangeWeight (targetX x : UInt8) (others : List UInt8) : Option UInt8 :=
  let num := others.foldl (fun num xj => gf256Mul num (targetX ^^^ xj)) 1
  let den := others.foldl (fun den xj => gf256Mul den (x ^^^ xj)) 1
  if den = 0 then none else some (gf256Mul num (gf256Inv den))

/-- The second loop of `gf256_lagrange` : the indices before, and the points from the current one
on. -/
def lagrangeLoop (targetX : UInt8) : List UInt8 → List (UInt8 × Bytes) → Bytes → Option Bytes
  | _, [], out => some out
  | before, (x, y) :: points, out =>
    match lagrangeWeight targetX x (before ++ points.map Prod.fst) with
    | none => none
    | some lag =>
      lagrangeLoop targetX (before ++ [x]) points
        (List.zipWith (fun o b => o ^^^ gf256Mul b lag) out y)

/-- `gf256_lagrange`. -/
def gf256Lagrange (targetX : UInt8) (points : List (UInt8 × Bytes)) (ylen : ℕ) : Option Bytes :=
  match points.find? fun p => p.1 = targetX with
  | some p => some p.2
  | none => lagrangeLoop targetX [] points (List.replicate ylen 0)

/-! ## Splitting -/

/-- `slip0039_make_digest_share`. -/
def slip0039MakeDigestShare (hmac : HmacSha256) (secret randomPad : Bytes) : Bytes :=
  (hmac randomPad secret).1.take SLIP0039_DIGEST_LENGTH_BYTES ++ randomPad

/-- `slip0039_verify_digest_share`. -/
def slip0039VerifyDigestShare (hmac : HmacSha256) (secret digestShare : Bytes) : Bool :=
  (hmac (digestShare.drop SLIP0039_DIGEST_LENGTH_BYTES) secret).1.take
    SLIP0039_DIGEST_LENGTH_BYTES =
    digestShare.take SLIP0039_DIGEST_LENGTH_BYTES

/-- The first loop of `slip0039_split`. -/
def randomShares (draws : Draws) (emsLen : ℕ) : ℕ → Option (List Bytes)
  | 0 => some []
  | n + 1 => do
      let shares ← randomShares draws emsLen n
      let y ← draws n emsLen
      some (shares ++ [y.1])

/-- The second loop of `slip0039_split`, from an index on. -/
def interpolatedShares (known : List (UInt8 × Bytes)) (emsLen first : ℕ) : ℕ → Option (List Bytes)
  | 0 => some []
  | n + 1 => do
      let shares ← interpolatedShares known emsLen first n
      let y ← gf256Lagrange (UInt8.ofNat (first + n)) known emsLen
      some (shares ++ [y])

/-- `known_x` and `known_y` : the random shares, the digest share and the secret. -/
def knownPoints (hmac : HmacSha256) (ems : Bytes) (randoms : List Bytes) (randomPad : Bytes) :
    List (UInt8 × Bytes) :=
  ((List.range randoms.length).map UInt8.ofNat).zip randoms ++
    [(SLIP0039_DIGEST_INDEX, slip0039MakeDigestShare hmac ems randomPad),
      (SLIP0039_SECRET_INDEX, ems)]

/-- `slip0039_split`, of at least as many bytes as a digest has. -/
def slip0039Split (hmac : HmacSha256) (draws : Draws) (ems : Bytes) (threshold shareCount : UInt8) :
    Option (List Bytes) :=
  if threshold < 1 ∨ shareCount < threshold ∨ shareCount > SLIP0039_MAX_SHARES then none
  else if threshold = 1 then some (List.replicate shareCount.toNat ems)
  else do
    let first := threshold.toNat - 2
    let randoms ← randomShares draws ems.length first
    let randomPad ← draws first (ems.length - SLIP0039_DIGEST_LENGTH_BYTES)
    let others ← interpolatedShares (knownPoints hmac ems randoms randomPad.1) ems.length first
      (shareCount.toNat - first)
    some (randoms ++ others)

/-- `slip0039_combine`. -/
def slip0039Combine (hmac : HmacSha256) (points : List (UInt8 × Bytes)) (emsLen : ℕ)
    (threshold : UInt8) :
    Option Bytes :=
  if points.length ≠ threshold.toNat then none
  else if threshold = 1 then points.head?.map Prod.snd
  else do
    let ems ← gf256Lagrange SLIP0039_SECRET_INDEX points emsLen
    let digestShare ← gf256Lagrange SLIP0039_DIGEST_INDEX points emsLen
    if slip0039VerifyDigestShare hmac ems digestShare then some ems else none

/-! ## Values of polynomials -/

/-- The values at a point, for each byte. -/
noncomputable def shareRow (f : ℕ → Gf256[X]) (len : ℕ) (x : UInt8) : Bytes :=
  (List.range len).map fun k => ((f k).eval ⟨x⟩).val

theorem length_shareRow (f : ℕ → Gf256[X]) (len : ℕ) (x : UInt8) :
    (shareRow f len x).length = len := by
  rw [shareRow, List.length_map, List.length_range]

/-- A product of differences. -/
theorem foldl_gf256Mul (a : UInt8) (others : List UInt8) (acc : UInt8) :
    others.foldl (fun num xj => gf256Mul num (a ^^^ xj)) acc =
      (⟨acc⟩ * ((others.map Gf256.mk).map fun x' => ⟨a⟩ - x').prod : Gf256).val := by
  induction others generalizing acc with
  | nil => exact congrArg Gf256.val (mul_one (⟨acc⟩ : Gf256)).symm
  | cons x others ih =>
    rw [List.foldl_cons, ih, List.map_cons, List.map_cons, List.prod_cons, ← mul_assoc]
    rfl

theorem mk_mem_map {x : UInt8} {others : List UInt8} :
    Gf256.mk x ∈ others.map Gf256.mk ↔ x ∈ others := by
  rw [List.mem_map]
  constructor
  · rintro ⟨x', hmem, heq⟩
    cases heq
    exact hmem
  · exact fun h => ⟨x, h, rfl⟩

/-- **The factor of a point** is its weight. -/
theorem lagrangeWeight_eq (targetX x : UInt8) {others : List UInt8} (h : x ∉ others) :
    lagrangeWeight targetX x others =
      some (LagrangeList.weight ⟨targetX⟩ ⟨x⟩ (others.map Gf256.mk)).val := by
  have hden : ¬ ((others.map Gf256.mk).map fun x' => (⟨x⟩ - x' : Gf256)).prod.val = 0 :=
    fun hzero =>
    LagrangeList.prod_sub_ne_zero (fun hmem => h (mk_mem_map.mp hmem)) (Gf256.ext hzero)
  have hone : (⟨1⟩ : Gf256) = 1 := rfl
  unfold lagrangeWeight
  dsimp only
  rw [foldl_gf256Mul, foldl_gf256Mul, hone, one_mul, one_mul, if_neg hden]
  rfl

/-- One more point. -/
theorem zipWith_shareRow (len : ℕ) (c : ℕ → Gf256) (f : ℕ → Gf256[X]) (x : UInt8) (lag : Gf256) :
    List.zipWith (fun o b => o ^^^ gf256Mul b lag.val) ((List.range len).map fun k => (c k).val)
      (shareRow f len x) =
      (List.range len).map fun k => (c k + (f k).eval ⟨x⟩ * lag).val := by
  rw [shareRow, List.zipWith_map, List.zipWith_self]
  rfl

/-- The loop adds the values at the points that are left, with their weights. -/
theorem lagrangeLoop_row (f : ℕ → Gf256[X]) (len : ℕ) (targetX : UInt8) {before rest : List UInt8}
    (hnodup : (before ++ rest).Nodup) (c : ℕ → Gf256) :
    lagrangeLoop targetX before (rest.map fun x => (x, shareRow f len x))
      ((List.range len).map fun k => (c k).val) =
      some ((List.range len).map fun k => (c k + ((rest.map Gf256.mk).map fun x => (f k).eval x *
        LagrangeList.weight ⟨targetX⟩ x (((before ++ rest).map Gf256.mk).erase x)).sum).val) := by
  induction rest generalizing before c with
  | nil =>
    rw [List.map_nil, lagrangeLoop]
    simp
  | cons x rest ih =>
    have hothers : x ∉ before ++ rest := by
      rw [List.nodup_append, List.nodup_cons] at hnodup
      intro hmem
      rcases List.mem_append.mp hmem with hmem | hmem
      · exact hnodup.2.2 x hmem x List.mem_cons_self rfl
      · exact hnodup.2.1.1 hmem
    have herase : ((before ++ x :: rest).map Gf256.mk).erase ⟨x⟩ =
      (before ++ rest).map Gf256.mk := by
      have hbefore : Gf256.mk x ∉ before.map Gf256.mk := fun hmem =>
        hothers (List.mem_append_left _ (mk_mem_map.mp hmem))
      rw [List.map_append, List.erase_append_right _ hbefore, List.map_cons, List.erase_cons_head,
        List.map_append]
    have hnext : before ++ [x] ++ rest = before ++ x :: rest := by
      rw [List.append_assoc, List.singleton_append]
    have hfst : (rest.map fun x => (x, shareRow f len x)).map Prod.fst = rest := by
      rw [List.map_map]
      exact List.map_id rest
    rw [List.map_cons, lagrangeLoop, hfst, lagrangeWeight_eq targetX x hothers]
    dsimp only
    rw [zipWith_shareRow, ih (by rw [hnext]; exact hnodup), hnext, List.map_cons]
    simp only [List.map_cons, List.sum_cons, herase, add_assoc]

/-- **Interpolation** : from the values at as many distinct points as the degree allows,
`gf256_lagrange` has the value at any point. -/
theorem gf256Lagrange_row {f : ℕ → Gf256[X]} {xs : List UInt8} (hnodup : xs.Nodup)
    (hdegree : ∀ k, (f k).degree < xs.length) (len : ℕ) (targetX : UInt8) :
    gf256Lagrange targetX (xs.map fun x => (x, shareRow f len x)) len =
      some (shareRow f len targetX) := by
  unfold gf256Lagrange
  split
  next p hfind =>
    have hfound := List.find?_some hfind
    rw [decide_eq_true_eq] at hfound
    obtain ⟨x, -, rfl⟩ := List.mem_map.mp (List.mem_of_find?_eq_some hfind)
    dsimp only at hfound ⊢
    rw [hfound]
  next =>
    have hzero : List.replicate len (0 : UInt8) = (List.range len).map fun _ =>
      (0 : Gf256).val := by
      rw [List.map_const', List.length_range]
      rfl
    have hnodup' : (xs.map Gf256.mk).Nodup := hnodup.map fun x x' h => congrArg Gf256.val h
    rw [hzero, @lagrangeLoop_row f len targetX [] xs hnodup fun _ => 0, shareRow, List.nil_append]
    congr 2
    funext k
    rw [zero_add, ← LagrangeList.eval_eq_sum hnodup' (by rw [List.length_map]; exact hdegree k)]

/-- Values at distinct points are those of polynomials. -/
theorem exists_rows {points : List (UInt8 × Bytes)} {len : ℕ} (hnodup : (points.map Prod.fst).Nodup)
    (hlen : ∀ p ∈ points, p.2.length = len) :
    ∃ f : ℕ → Gf256[X], (∀ k, (f k).degree < points.length) ∧ ∀ p ∈ points,
      p.2 = shareRow f len p.1 := by
  have hnodup' : ((points.map Prod.fst).map Gf256.mk).Nodup := hnodup.map fun x x' h =>
    congrArg Gf256.val h
  choose f hdegree hvalue using fun k : ℕ => LagrangeList.exists_interpolant hnodup' fun a =>
    ⟨(((points.find? fun p => p.1 = a.val).map Prod.snd).getD []).getD k 0⟩
  refine ⟨f, fun k => ?_, fun p hp => ?_⟩
  · have hk := hdegree k
    rwa [List.length_map, List.length_map] at hk
  · -- the entry that is found is the only one
    have hfind : (points.find? fun q => q.1 = p.1) = some p := by
      cases hq : points.find? fun q => q.1 = p.1 with
      | none => exact absurd rfl (of_decide_eq_false
          (Bool.eq_false_iff.mpr (List.find?_eq_none.mp hq p hp)))
      | some q =>
        have hfst := List.find?_some hq
        rw [decide_eq_true_eq] at hfst
        rw [List.inj_on_of_nodup_map hnodup (List.mem_of_find?_eq_some hq) hp hfst]
    have hmem : Gf256.mk p.1 ∈ (points.map Prod.fst).map Gf256.mk :=
      mk_mem_map.mpr (List.mem_map_of_mem hp)
    apply List.ext_getElem
    · rw [length_shareRow]
      exact hlen p hp
    · intro k hk hk'
      have heval := hvalue k _ hmem
      dsimp only at heval
      rw [hfind, Option.map_some, Option.getD_some, List.getD_eq_getElem _ _ hk] at heval
      simp only [shareRow, List.getElem_map, List.getElem_range, heval]

/-! ## Shares -/

variable {draws : Draws} {ems : Bytes} {threshold shareCount : UInt8} {shares : List Bytes}

theorem length_of_randomShares {emsLen n : ℕ} (h : randomShares draws emsLen n = some shares) :
    shares.length = n ∧ ∀ y ∈ shares, y.length = emsLen := by
  induction n generalizing shares with
  | zero =>
    cases h
    exact ⟨rfl, fun y hy => absurd hy List.not_mem_nil⟩
  | succ n ih =>
    obtain ⟨before, hbefore, h⟩ := Option.bind_eq_some_iff.mp h
    obtain ⟨y, -, h⟩ := Option.bind_eq_some_iff.mp h
    cases h
    obtain ⟨hlength, hall⟩ := ih hbefore
    refine ⟨by rw [List.length_append, hlength, List.length_singleton], fun z hz => ?_⟩
    rcases List.mem_append.mp hz with hz | hz
    · exact hall z hz
    · rw [List.mem_singleton.mp hz]
      exact y.2

/-- The shares that are interpolated are values. -/
theorem interpolatedShares_rows {f : ℕ → Gf256[X]} {xs : List UInt8} (hnodup : xs.Nodup)
    (hdegree : ∀ k, (f k).degree < xs.length) (len first n : ℕ) :
    interpolatedShares (xs.map fun x => (x, shareRow f len x)) len first n =
      some ((List.range n).map fun j => shareRow f len (UInt8.ofNat (first + j))) := by
  induction n with
  | zero => rfl
  | succ n ih =>
    rw [interpolatedShares, ih, gf256Lagrange_row hnodup hdegree, List.range_succ, List.map_append]
    rfl

/-- The indices of the points that are known. -/
theorem nodup_known {first : ℕ} (h : first ≤ 14) :
    ((List.range first).map UInt8.ofNat ++
      [SLIP0039_DIGEST_INDEX, SLIP0039_SECRET_INDEX]).Nodup := by
  have hsmall : ∀ i ∈ List.range first, (UInt8.ofNat i).toNat = i := by
    intro i hi
    have hlt := List.mem_range.mp hi
    exact UInt8.toNat_ofNat_of_lt' (show i < 2 ^ 8 by omega)
  rw [List.nodup_append]
  refine ⟨?_, by decide, ?_⟩
  · refine List.Nodup.map_on (fun i hi j hj heq => ?_) List.nodup_range
    rw [← hsmall i hi, heq, hsmall j hj]
  · intro x hx x' hx' heq
    obtain ⟨i, hi, rfl⟩ := List.mem_map.mp hx
    have hlt := List.mem_range.mp hi
    have hi' := hsmall i hi
    rw [heq] at hi'
    rcases List.mem_cons.mp hx' with rfl | hx'
    · rw [SLIP0039_DIGEST_INDEX] at hi'
      have h254 : (254 : UInt8).toNat = 254 := rfl
      omega
    · rw [List.mem_singleton.mp hx', SLIP0039_SECRET_INDEX] at hi'
      have h255 : (255 : UInt8).toNat = 255 := rfl
      omega

theorem map_fst_knownPoints (hmac : HmacSha256) (ems : Bytes) (randoms : List Bytes)
    (randomPad : Bytes) :
    (knownPoints hmac ems randoms randomPad).map Prod.fst =
      (List.range randoms.length).map UInt8.ofNat ++
      [SLIP0039_DIGEST_INDEX, SLIP0039_SECRET_INDEX] := by
  rw [knownPoints, List.map_append, List.map_fst_zip (by rw [List.length_map, List.length_range])]
  rfl

theorem length_makeDigestShare (hmac : HmacSha256) (secret randomPad : Bytes) :
    (slip0039MakeDigestShare hmac secret randomPad).length = SLIP0039_DIGEST_LENGTH_BYTES +
    randomPad.length := by
  rw [slip0039MakeDigestShare, List.length_append, List.length_take, (hmac randomPad secret).2]
  rfl

/-- **The points that are known** are values of polynomials, which have the secret and the digest
share at the last two indices, and the shares that are interpolated are the values at the indices
behind them. -/
theorem knownPoints_rows (hmac : HmacSha256) {randomPad : Bytes} {randoms : List Bytes}
    (hfew : randoms.length ≤ 14) (hall : ∀ y ∈ randoms, y.length = ems.length)
    (hpad : SLIP0039_DIGEST_LENGTH_BYTES + randomPad.length = ems.length) :
    ∃ f : ℕ → Gf256[X], (∀ k, (f k).degree < (randoms.length + 2 : ℕ)) ∧
      (∀ i (hi : i < randoms.length), randoms[i] = shareRow f ems.length (UInt8.ofNat i)) ∧
      slip0039MakeDigestShare hmac ems randomPad = shareRow f ems.length SLIP0039_DIGEST_INDEX ∧
      ems = shareRow f ems.length SLIP0039_SECRET_INDEX ∧
      ∀ n, interpolatedShares (knownPoints hmac ems randoms randomPad) ems.length randoms.length n =
        some ((List.range n).map fun j =>
          shareRow f ems.length (UInt8.ofNat (randoms.length + j))) := by
  have hfst := map_fst_knownPoints hmac ems randoms randomPad
  have hnodup : ((knownPoints hmac ems randoms randomPad).map Prod.fst).Nodup := by
    rw [hfst]
    exact nodup_known hfew
  have hlens : ∀ p ∈ knownPoints hmac ems randoms randomPad, p.2.length = ems.length := by
    intro p hp
    rcases List.mem_append.mp hp with hp | hp
    · exact hall p.2 (List.of_mem_zip hp).2
    · rcases List.mem_cons.mp hp with rfl | hp
      · exact (length_makeDigestShare hmac ems randomPad).trans hpad
      · rw [List.mem_singleton.mp hp]
  obtain ⟨f, hdegree, hrows⟩ := exists_rows hnodup hlens
  have hlength : (knownPoints hmac ems randoms randomPad).length = randoms.length + 2 := by
    have hcount := congrArg List.length hfst
    rwa [List.length_map, List.length_append, List.length_map, List.length_range] at hcount
  have hpoints : knownPoints hmac ems randoms randomPad =
      ((knownPoints hmac ems randoms randomPad).map Prod.fst).map fun x =>
        (x, shareRow f ems.length x) := by
    rw [List.map_map]
    exact (List.map_id' _).symm.trans (List.map_congr_left fun p hp => Prod.ext rfl (hrows p hp))
  rw [hlength] at hdegree
  refine ⟨f, hdegree, fun i hi => ?_, hrows (SLIP0039_DIGEST_INDEX, _) ?_,
    hrows (SLIP0039_SECRET_INDEX, ems) ?_, fun n => ?_⟩
  · refine hrows (UInt8.ofNat i,
      randoms[i]) (List.mem_append_left _ (List.mem_iff_getElem.mpr ⟨i, ?_, ?_⟩))
    · rw [List.length_zip, List.length_map, List.length_range, Nat.min_self]
      exact hi
    · rw [List.getElem_zip, List.getElem_map, List.getElem_range]
  · exact List.mem_append_right _ List.mem_cons_self
  · exact List.mem_append_right _ (List.mem_cons_of_mem _ (List.mem_singleton_self _))
  · rw [hpoints]
    refine interpolatedShares_rows hnodup (fun k => ?_) ems.length randoms.length n
    rw [List.length_map, hlength]
    exact hdegree k

/-- A threshold that is allowed, above one. -/
theorem first_le (hallowed : ¬ (threshold < 1 ∨ shareCount < threshold ∨
    shareCount > SLIP0039_MAX_SHARES)) (hone : threshold ≠ 1) :
    2 ≤ threshold.toNat ∧ threshold.toNat - 2 ≤ 14 ∧ threshold.toNat ≤ shareCount.toNat ∧
    shareCount.toNat ≤ 16 := by
  have hne : threshold.toNat ≠ 1 := fun h => hone (UInt8.toNat_inj.mp h)
  have hmax : SLIP0039_MAX_SHARES.toNat = 16 := rfl
  rw [not_or, not_or, UInt8.not_lt, UInt8.not_lt, gt_iff_lt, UInt8.not_lt, UInt8.le_iff_toNat_le,
    UInt8.le_iff_toNat_le, UInt8.le_iff_toNat_le, UInt8.toNat_one, hmax] at hallowed
  omega

/-- **The shares** are values of polynomials of a degree below the threshold, whose values at the
last two indices are the digest share and the secret. -/
theorem slip0039Split_rows {hmac : HmacSha256} (hlen : SLIP0039_DIGEST_LENGTH_BYTES ≤ ems.length)
    (hone : threshold ≠ 1) (h : slip0039Split hmac draws ems threshold shareCount = some shares) :
    ∃ (f : ℕ → Gf256[X]) (randomPad : Bytes), (∀ k, (f k).degree < threshold.toNat) ∧
      (∀ i < shareCount.toNat, shares.getD i [] = shareRow f ems.length (UInt8.ofNat i)) ∧
      shareRow f ems.length SLIP0039_SECRET_INDEX = ems ∧
      shareRow f ems.length SLIP0039_DIGEST_INDEX = slip0039MakeDigestShare hmac ems randomPad := by
  unfold slip0039Split at h
  have hallowed : ¬ (threshold < 1 ∨ shareCount < threshold ∨
    shareCount > SLIP0039_MAX_SHARES) := by
    intro hrefused
    rw [if_pos hrefused] at h
    cases h
  rw [if_neg hallowed, if_neg hone] at h
  obtain ⟨htwo, hfew, hle, hmax⟩ := first_le hallowed hone
  obtain ⟨randoms, hrandoms, h⟩ := Option.bind_eq_some_iff.mp h
  obtain ⟨randomPad, -, h⟩ := Option.bind_eq_some_iff.mp h
  obtain ⟨others, hothers, h⟩ := Option.bind_eq_some_iff.mp h
  cases h
  obtain ⟨hlength, hall⟩ := length_of_randomShares hrandoms
  have hpad : SLIP0039_DIGEST_LENGTH_BYTES + randomPad.1.length = ems.length := by
    rw [randomPad.2]
    omega
  obtain ⟨f, hdegree, hrows, hdigest, hsecret, hinterpolated⟩ :=
    knownPoints_rows hmac (by rw [hlength]; exact hfew) hall hpad
  rw [hlength] at hdegree hinterpolated
  rw [hinterpolated] at hothers
  cases hothers
  refine ⟨f, randomPad.1, fun k => ?_, fun i hi => ?_, hsecret.symm, hdigest.symm⟩
  · have hk := hdegree k
    rwa [Nat.sub_add_cancel htwo] at hk
  · by_cases hfirst : i < randoms.length
    · rw [List.getD_eq_getElem?_getD, List.getElem?_append_left hfirst,
        List.getElem?_eq_getElem hfirst, Option.getD_some]
      exact hrows i hfirst
    · have hindex : threshold.toNat - 2 + (i - randoms.length) = i := by omega
      rw [List.getD_eq_getElem?_getD, List.getElem?_append_right (by omega), List.getElem?_map,
        List.getElem?_range (by omega), Option.map_some, Option.getD_some, hindex]

/-- Where no draw fails, there are shares. -/
theorem slip0039Split_isSome (hmac : HmacSha256) (hlen : SLIP0039_DIGEST_LENGTH_BYTES ≤ ems.length)
    (hthreshold : 1 ≤ threshold) (hcount : threshold ≤ shareCount)
    (hmax : shareCount ≤ SLIP0039_MAX_SHARES)
    (hdraws : ∀ i n, (draws i n).isSome) :
    ∃ shares, slip0039Split hmac draws ems threshold shareCount = some shares := by
  have hallowed : ¬ (threshold < 1 ∨ shareCount < threshold ∨
    shareCount > SLIP0039_MAX_SHARES) := by
    rw [not_or, not_or, UInt8.not_lt, UInt8.not_lt, gt_iff_lt, UInt8.not_lt]
    exact ⟨hthreshold, hcount, hmax⟩
  unfold slip0039Split
  rw [if_neg hallowed]
  split
  · exact ⟨_, rfl⟩
  next hone =>
  obtain ⟨htwo, hfew, hle, hmax⟩ := first_le hallowed hone
  have hrandoms : ∀ n, ∃ randoms, randomShares draws ems.length n = some randoms := by
    intro n
    induction n with
    | zero => exact ⟨_, rfl⟩
    | succ n ih =>
      obtain ⟨randoms, hrandoms⟩ := ih
      obtain ⟨y, hy⟩ := Option.isSome_iff_exists.mp (hdraws n ems.length)
      exact ⟨randoms ++ [y.1], by rw [randomShares, hrandoms, hy]; rfl⟩
  obtain ⟨randoms, hrandoms⟩ := hrandoms (threshold.toNat - 2)
  obtain ⟨randomPad, hrandomPad⟩ :=
    Option.isSome_iff_exists.mp (hdraws (threshold.toNat - 2)
      (ems.length - SLIP0039_DIGEST_LENGTH_BYTES))
  obtain ⟨hlength, hall⟩ := length_of_randomShares hrandoms
  have hpad : SLIP0039_DIGEST_LENGTH_BYTES + randomPad.1.length = ems.length := by
    rw [randomPad.2]
    omega
  obtain ⟨f, -, -, -, -, hinterpolated⟩ :=
    knownPoints_rows hmac (by rw [hlength]; exact hfew) hall hpad
  rw [hlength] at hinterpolated
  simp only [hrandoms, hrandomPad, hinterpolated, Option.bind_eq_bind, Option.bind_some]
  exact ⟨_, rfl⟩

/-! ## Putting together -/

/-- A digest share that was made for a secret. -/
theorem verify_makeDigestShare (hmac : HmacSha256) (secret randomPad : Bytes) :
    slip0039VerifyDigestShare hmac secret (slip0039MakeDigestShare hmac secret randomPad) =
      true := by
  have hlength : ((hmac randomPad secret).1.take SLIP0039_DIGEST_LENGTH_BYTES).length =
      SLIP0039_DIGEST_LENGTH_BYTES := by
    rw [List.length_take, (hmac randomPad secret).2]
    rfl
  rw [slip0039VerifyDigestShare, slip0039MakeDigestShare, List.drop_left' hlength,
    List.take_left' hlength, decide_eq_true_eq]

/-- **Shares put together** : of bytes that are at least as many as a digest has, with a threshold
and a number of shares that are allowed, there are shares unless a draw fails, and any of them at
distinct indices, as many as the threshold, in any order, are combined to the bytes. -/
theorem slip0039Combine_split (hmac : HmacSha256) (draws : Draws) {ems : Bytes}
    {threshold shareCount : UInt8} (hlen : SLIP0039_DIGEST_LENGTH_BYTES ≤ ems.length)
    (hthreshold : 1 ≤ threshold) (hcount : threshold ≤ shareCount)
    (hmax : shareCount ≤ SLIP0039_MAX_SHARES) :
    ((∀ i n, (draws i n).isSome) → ∃ shares, slip0039Split hmac draws ems threshold shareCount =
      some shares) ∧
      ∀ shares, slip0039Split hmac draws ems threshold shareCount = some shares →
        ∀ picks : List ℕ, picks.length = threshold.toNat → picks.Nodup →
        (∀ i ∈ picks, i < shareCount.toNat) →
          slip0039Combine hmac (picks.map fun i => (UInt8.ofNat i, shares.getD i []))
            ems.length threshold =
            some ems := by
  refine ⟨slip0039Split_isSome hmac hlen hthreshold hcount hmax, ?_⟩
  intro shares hshares picks hlength hnodup hpicks
  unfold slip0039Combine
  rw [if_neg (by rw [List.length_map]; exact not_not.mpr hlength)]
  by_cases hone : threshold = 1
  · -- every share is the secret
    rw [if_pos hone]
    rw [hone] at hlength hshares
    obtain ⟨i, rfl⟩ := List.length_eq_one_iff.mp hlength
    unfold slip0039Split at hshares
    split at hshares
    · cases hshares
    rw [if_pos rfl] at hshares
    cases hshares
    have hi := hpicks i List.mem_cons_self
    rw [List.map_cons, List.head?_cons, Option.map_some, List.getD_eq_getElem?_getD,
      List.getElem?_replicate, if_pos hi, Option.getD_some]
  · rw [if_neg hone]
    obtain ⟨f, randomPad, hdegree, hrows, hsecret, hdigest⟩ := slip0039Split_rows hlen hone hshares
    have hsmall : ∀ i ∈ picks, (UInt8.ofNat i).toNat = i := by
      intro i hi
      have hlt := hpicks i hi
      have hmax' : shareCount.toNat ≤ 16 := UInt8.le_iff_toNat_le.mp hmax
      exact UInt8.toNat_ofNat_of_lt' (show i < 2 ^ 8 by omega)
    have hindices : (picks.map UInt8.ofNat).Nodup :=
      List.Nodup.map_on (fun i hi j hj heq => by rw [← hsmall i hi, heq, hsmall j hj]) hnodup
    have hpoints : (picks.map fun i => (UInt8.ofNat i, shares.getD i [])) =
        (picks.map UInt8.ofNat).map fun x => (x, shareRow f ems.length x) := by
      rw [List.map_map]
      exact List.map_congr_left fun i hi => Prod.ext rfl (hrows i (hpicks i hi))
    have hdegree' : ∀ k, (f k).degree < (picks.map UInt8.ofNat).length := by
      intro k
      rw [List.length_map, hlength]
      exact hdegree k
    rw [hpoints, gf256Lagrange_row hindices hdegree', gf256Lagrange_row hindices hdegree',
      hsecret, hdigest]
    simp only [Option.bind_eq_bind, Option.bind_some]
    rw [if_pos (verify_makeDigestShare hmac ems randomPad)]

/-- The theorem on four bytes, with the last two of three shares. -/
theorem slip0039Combine_split_sample :
    ∃ shares, slip0039Split (fun _ _ => ⟨List.replicate 32 7, rfl⟩)
        (fun _ n => some ⟨List.replicate n 5, List.length_replicate⟩)
        [1, 2, 3, 4] 2 3 = some shares ∧
      slip0039Combine (fun _ _ => ⟨List.replicate 32 7, rfl⟩)
        ([2, 1].map fun i => (UInt8.ofNat i, shares.getD i [])) 4 2 = some [1, 2, 3, 4] := by
  obtain ⟨hsplit, hcombine⟩ := @slip0039Combine_split (fun _ _ => ⟨List.replicate 32 7, rfl⟩)
    (fun _ n => some ⟨List.replicate n 5, List.length_replicate⟩) [1, 2, 3, 4] 2 3 (by decide)
      (by decide) (by decide)
    (by decide)
  obtain ⟨shares, hshares⟩ := hsplit fun _ _ => rfl
  exact ⟨shares, hshares, hcombine shares hshares [2, 1] rfl (by decide) (by decide)⟩

end Libdogecoin
