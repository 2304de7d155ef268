/-
# The field of the shares

The arithmetic of `slip0039.c` on bytes: sums are exclusive ors, products are reduced by the
polynomial of AES, and inverses are powers.

* `gf256Mul_xor_left`, `gf256Mul_xor_right` : products are additive on both sides;
* `byte_induction` : what holds of the powers of two and is kept by sums holds of every byte;
* `Gf256.pow_eq`, `Gf256.mul_inv_eq` : powers are powers, and inverses are inverses, since three has
  the order 255;
* `Gf256` : the bytes are a field.
-/
import Mathlib.Algebra.Field.Basic
import Mathlib.Data.Nat.Bitwise
import Mathlib.Data.UInt
import Mathlib.Tactic.IntervalCases
import Mathlib.Tactic.Ring
import Mathlib.GroupTheory.OrderOfElement

namespace Libdogecoin

/-! ## Products -/

/-- A factor is doubled, and reduced. -/
def gf256Double (a : UInt8) : UInt8 := if a &&& 0x80 ≠ 0 then (a <<< 1) ^^^ 0x1B else a <<< 1

/-- The loop of `gf256_mul`. -/
def gf256MulLoop : ℕ → UInt8 → UInt8 → UInt8 → UInt8
  | 0, r, _, _ => r
  | n + 1, r, a, b => gf256MulLoop n (if b &&& 1 ≠ 0 then r ^^^ a else r) (gf256Double a) (b >>> 1)

/-- `gf256_mul`. -/
def gf256Mul (a b : UInt8) : UInt8 := gf256MulLoop 8 0 a b

/-- The loop of `gf256_pow`, which has a turn for each bit of the exponent at most. -/
def gf256PowLoop : ℕ → UInt8 → UInt8 → UInt8 → UInt8
  | 0, r, _, _ => r
  | n + 1, r, a, exp =>
    if exp = 0 then r
    else gf256PowLoop n (if exp &&& 1 ≠ 0 then gf256Mul r a else r) (gf256Mul a a) (exp >>> 1)

/-- `gf256_pow`. -/
def gf256Pow (a exp : UInt8) : UInt8 := gf256PowLoop 8 1 a exp

/-- `gf256_inv`. -/
def gf256Inv (a : UInt8) : UInt8 := gf256Pow a 254

/-! ## Sums -/

theorem odd_iff (b : UInt8) : b &&& 1 ≠ 0 ↔ b.toNat % 2 = 1 := by
  rw [ne_eq, ← UInt8.toNat_inj, UInt8.toNat_and]
  show ¬ b.toNat &&& 1 = 0 ↔ _
  rw [Nat.and_one_is_mod]
  omega

theorem xor_odd (b b' : UInt8) : (b ^^^ b').toNat % 2 = (b.toNat + b'.toNat) % 2 := by
  rw [UInt8.toNat_xor, Nat.xor_mod_two_eq]

/-- The topmost bit of a byte. -/
theorem high_iff (a : UInt8) : a &&& 0x80 ≠ 0 ↔ (a >>> 7).toNat % 2 = 1 := by
  have hall : ∀ n : Fin 256, UInt8.ofNat n &&& 0x80 ≠ 0 ↔ (UInt8.ofNat n >>> 7).toNat % 2 =
    1 := by decide +kernel
  have ha := hall ⟨a.toNat, a.toNat_lt⟩
  rwa [UInt8.ofNat_toNat] at ha

theorem gf256Double_xor (a a' : UInt8) :
    gf256Double (a ^^^ a') = gf256Double a ^^^ gf256Double a' := by
  have hodd := xor_odd (a >>> 7) (a' >>> 7)
  rw [← UInt8.shiftRight_xor] at hodd
  simp only [gf256Double, high_iff, UInt8.shiftLeft_xor]
  rcases Nat.mod_two_eq_zero_or_one (a >>> 7).toNat with ha | ha <;>
    rcases Nat.mod_two_eq_zero_or_one (a' >>> 7).toNat with ha' | ha'
  · rw [if_neg (by omega), if_neg (by omega), if_neg (by omega)]
  · rw [if_pos (by omega), if_neg (by omega), if_pos (by omega), UInt8.xor_assoc]
  · rw [if_pos (by omega), if_pos (by omega), if_neg (by omega)]
    ac_rfl
  · rw [if_neg (by omega), if_pos (by omega), if_pos (by omega)]
    have hcancel : ((a <<< 1) ^^^ (0x1B : UInt8)) ^^^ ((a' <<< 1) ^^^ (0x1B : UInt8)) =
        ((a <<< 1) ^^^ (a' <<< 1)) ^^^ ((0x1B : UInt8) ^^^ (0x1B : UInt8)) := by
      ac_rfl
    rw [hcancel, UInt8.xor_self, UInt8.xor_zero]

/-- The loop is additive in the sum and the first factor. -/
theorem gf256MulLoop_xor_left (n : ℕ) (r r' a a' b : UInt8) :
    gf256MulLoop n (r ^^^ r') (a ^^^ a') b = gf256MulLoop n r a b ^^^ gf256MulLoop n r' a' b := by
  induction n generalizing r r' a a' b with
  | zero => rfl
  | succ n ih =>
    rw [gf256MulLoop, gf256MulLoop, gf256MulLoop, gf256Double_xor, ← ih]
    split
    · have hsum : (r ^^^ r') ^^^ (a ^^^ a') = (r ^^^ a) ^^^ (r' ^^^ a') := by ac_rfl
      rw [hsum]
    · rfl

/-- The loop is additive in the sum and the second factor. -/
theorem gf256MulLoop_xor_right (n : ℕ) (r r' a b b' : UInt8) :
    gf256MulLoop n (r ^^^ r') a (b ^^^ b') = gf256MulLoop n r a b ^^^ gf256MulLoop n r' a b' := by
  induction n generalizing r r' a b b' with
  | zero => rfl
  | succ n ih =>
    have hodd := xor_odd b b'
    rw [gf256MulLoop, gf256MulLoop, gf256MulLoop, UInt8.shiftRight_xor, ← ih]
    congr 1
    simp only [odd_iff]
    rcases Nat.mod_two_eq_zero_or_one b.toNat with hb | hb <;>
      rcases Nat.mod_two_eq_zero_or_one b'.toNat with hb' | hb'
    · rw [if_neg (by omega), if_neg (by omega), if_neg (by omega)]
    · rw [if_pos (by omega), if_neg (by omega), if_pos (by omega), UInt8.xor_assoc]
    · rw [if_pos (by omega), if_pos (by omega), if_neg (by omega)]
      ac_rfl
    · rw [if_neg (by omega), if_pos (by omega), if_pos (by omega)]
      have hcancel : (r ^^^ a) ^^^ (r' ^^^ a) = (r ^^^ r') ^^^ (a ^^^ a) := by ac_rfl
      rw [hcancel, UInt8.xor_self, UInt8.xor_zero]

/-- **Products are additive** in the first factor. -/
theorem gf256Mul_xor_left (a a' b : UInt8) :
    gf256Mul (a ^^^ a') b = gf256Mul a b ^^^ gf256Mul a' b :=
  gf256MulLoop_xor_left 8 0 0 a a' b

/-- **Products are additive** in the second factor. -/
theorem gf256Mul_xor_right (a b b' : UInt8) :
    gf256Mul a (b ^^^ b') = gf256Mul a b ^^^ gf256Mul a b' :=
  gf256MulLoop_xor_right 8 0 0 a b b'

/-! ## Powers of two -/

/-- The powers of two in a byte. -/
def bytePowers (a : UInt8) : List UInt8 :=
  ((List.range 8).filter fun i => a.toNat.testBit i).map fun i => UInt8.ofNat (2 ^ i)

theorem foldl_bytePowers (a : UInt8) : (bytePowers a).foldl (· ^^^ ·) 0 = a := by
  have hall : ∀ n : Fin 256, (bytePowers (UInt8.ofNat n)).foldl (· ^^^ ·) 0 =
    UInt8.ofNat n := by decide +kernel
  have ha := hall ⟨a.toNat, a.toNat_lt⟩
  rwa [UInt8.ofNat_toNat] at ha

/-- **Bytes** are sums of powers of two. -/
theorem byte_induction {P : UInt8 → Prop} (hzero : P 0) (hpow : ∀ i < 8, P (UInt8.ofNat (2 ^ i)))
    (hxor : ∀ a b, P a → P b → P (a ^^^ b)) (a : UInt8) : P a := by
  have hfold : ∀ (powers : List UInt8) (start : UInt8), (∀ p ∈ powers, P p) → P start →
      P (powers.foldl (· ^^^ ·) start) := by
    intro powers
    induction powers with
    | nil => exact fun _ _ hstart => hstart
    | cons p powers ih =>
      intro start hall hstart
      exact ih _ (fun q hq => hall q (List.mem_cons_of_mem _ hq))
        (hxor _ _ hstart (hall p List.mem_cons_self))
  rw [← foldl_bytePowers a]
  refine hfold _ _ ?_ hzero
  intro p hp
  obtain ⟨i, hi, rfl⟩ := List.mem_map.mp hp
  exact hpow i (List.mem_range.mp (List.mem_filter.mp hi).1)

theorem gf256Mul_zero (a : UInt8) : gf256Mul a 0 = 0 := by
  have hadd := gf256Mul_xor_right a 0 0
  rwa [UInt8.xor_self, UInt8.xor_self] at hadd

theorem gf256Zero_mul (b : UInt8) : gf256Mul 0 b = 0 := by
  have hadd := gf256Mul_xor_left 0 0 b
  rwa [UInt8.xor_self, UInt8.xor_self] at hadd

/-! ## Laws -/

theorem gf256Mul_comm (a b : UInt8) : gf256Mul a b = gf256Mul b a := by
  have hpowers : ∀ i < 8, ∀ j < 8,
      gf256Mul (UInt8.ofNat (2 ^ i)) (UInt8.ofNat (2 ^ j)) =
        gf256Mul (UInt8.ofNat (2 ^ j)) (UInt8.ofNat (2 ^ i)) := by
    decide +kernel
  induction a using byte_induction with
  | hzero => rw [gf256Mul_zero, gf256Zero_mul]
  | hxor a a' ha ha' => rw [gf256Mul_xor_left, gf256Mul_xor_right, ha, ha']
  | hpow i hi =>
    induction b using byte_induction with
    | hzero => rw [gf256Mul_zero, gf256Zero_mul]
    | hxor b b' hb hb' => rw [gf256Mul_xor_left, gf256Mul_xor_right, hb, hb']
    | hpow j hj => exact hpowers i hi j hj

theorem gf256Mul_assoc (a b c : UInt8) : gf256Mul (gf256Mul a b) c = gf256Mul a (gf256Mul b c) := by
  have hpowers : ∀ i < 8, ∀ j < 8, ∀ k < 8,
      gf256Mul (gf256Mul (UInt8.ofNat (2 ^ i)) (UInt8.ofNat (2 ^ j))) (UInt8.ofNat (2 ^ k)) =
        gf256Mul (UInt8.ofNat (2 ^ i)) (gf256Mul (UInt8.ofNat (2 ^ j)) (UInt8.ofNat (2 ^ k))) := by
    decide +kernel
  induction a using byte_induction with
  | hzero => rw [gf256Zero_mul, gf256Zero_mul, gf256Zero_mul]
  | hxor a a' ha ha' => rw [gf256Mul_xor_left, gf256Mul_xor_left, gf256Mul_xor_left, ha, ha']
  | hpow i hi =>
    induction b using byte_induction with
    | hzero => rw [gf256Mul_zero, gf256Zero_mul, gf256Mul_zero]
    | hxor b b' hb hb' => rw [gf256Mul_xor_right, gf256Mul_xor_left, gf256Mul_xor_left,
        gf256Mul_xor_right, hb, hb']
    | hpow j hj =>
      induction c using byte_induction with
      | hzero => rw [gf256Mul_zero, gf256Mul_zero, gf256Mul_zero]
      | hxor c c' hc hc' => rw [gf256Mul_xor_right, gf256Mul_xor_right, gf256Mul_xor_right, hc, hc']
      | hpow k hk => exact hpowers i hi j hj k hk

theorem gf256One_mul (a : UInt8) : gf256Mul 1 a = a := by
  have hpowers : ∀ i < 8, gf256Mul 1 (UInt8.ofNat (2 ^ i)) = UInt8.ofNat (2 ^ i) := by decide
  induction a using byte_induction with
  | hzero => exact gf256Mul_zero 1
  | hxor a a' ha ha' => rw [gf256Mul_xor_right, ha, ha']
  | hpow i hi => exact hpowers i hi

/-! ## The field -/

/-- A byte as a field element. -/
@[ext] structure Gf256 where
  val : UInt8
  deriving DecidableEq

namespace Gf256

instance : Add Gf256 := ⟨fun a b => ⟨a.val ^^^ b.val⟩⟩
instance : Mul Gf256 := ⟨fun a b => ⟨gf256Mul a.val b.val⟩⟩
instance : Zero Gf256 := ⟨⟨0⟩⟩
instance : One Gf256 := ⟨⟨1⟩⟩
instance : Neg Gf256 := ⟨id⟩

@[simp] theorem val_mul (a b : Gf256) : (a * b).val = gf256Mul a.val b.val := rfl

instance : CommRing Gf256 where
  add_assoc a b c := Gf256.ext (UInt8.xor_assoc a.val b.val c.val)
  zero_add a := Gf256.ext (@UInt8.zero_xor a.val)
  add_zero a := Gf256.ext (@UInt8.xor_zero a.val)
  add_comm a b := Gf256.ext (UInt8.xor_comm a.val b.val)
  neg_add_cancel a := Gf256.ext (@UInt8.xor_self a.val)
  left_distrib a b c := Gf256.ext (gf256Mul_xor_right a.val b.val c.val)
  right_distrib a b c := Gf256.ext (gf256Mul_xor_left a.val b.val c.val)
  zero_mul a := Gf256.ext (gf256Zero_mul a.val)
  mul_zero a := Gf256.ext (gf256Mul_zero a.val)
  mul_assoc a b c := Gf256.ext (gf256Mul_assoc a.val b.val c.val)
  one_mul a := Gf256.ext (gf256One_mul a.val)
  mul_one a := Gf256.ext ((gf256Mul_comm a.val 1).trans (gf256One_mul a.val))
  mul_comm a b := Gf256.ext (gf256Mul_comm a.val b.val)
  nsmul := nsmulRec
  zsmul := zsmulRec

/-- The bytes below 256. -/
def equivFin : Gf256 ≃ Fin 256 where
  toFun a := a.val.toFin
  invFun n := ⟨UInt8.ofFin n⟩
  left_inv _ := rfl
  right_inv _ := rfl

instance : Fintype Gf256 := Fintype.ofEquiv (Fin 256) equivFin.symm

theorem card_eq : Fintype.card Gf256 = 256 := (Fintype.card_congr equivFin).trans
    (Fintype.card_fin 256)

/-! ## Powers -/

/-- The loop multiplies by a power, as long as its turns are enough for the exponent. -/
theorem powLoop_eq (n : ℕ) (r a : Gf256) (exp : UInt8) (h : exp.toNat < 2 ^ n) :
    (⟨gf256PowLoop n r.val a.val exp⟩ : Gf256) = r * a ^ exp.toNat := by
  induction n generalizing r a exp with
  | zero =>
    have hzero : exp.toNat = 0 := by omega
    rw [hzero, pow_zero, mul_one]
    rfl
  | succ n ih =>
    rw [gf256PowLoop]
    by_cases hexp : exp = 0
    · rw [if_pos hexp, hexp, UInt8.toNat_zero, pow_zero, mul_one]
    have hhalf : (exp >>> 1).toNat = exp.toNat / 2 := by
      rw [UInt8.toNat_shiftRight]
      exact Nat.shiftRight_one _
    have hlt : (exp >>> 1).toNat < 2 ^ n := by
      rw [hhalf]
      omega
    have hsquare := ih r (a * a) (exp >>> 1) hlt
    have hodd := ih (r * a) (a * a) (exp >>> 1) hlt
    rw [val_mul, hhalf] at hsquare
    rw [val_mul, val_mul, hhalf] at hodd
    rw [if_neg hexp]
    simp only [odd_iff]
    rcases Nat.mod_two_eq_zero_or_one exp.toNat with heven | hone
    · have hdouble : exp.toNat = 2 * (exp.toNat / 2) := by omega
      rw [if_neg (by omega), hsquare, ← pow_two, ← pow_mul, ← hdouble]
    · have hdouble : exp.toNat = 2 * (exp.toNat / 2) + 1 := by omega
      rw [if_pos hone, hodd, ← pow_two, ← pow_mul, mul_assoc, ← pow_succ', ← hdouble]

/-- **`gf256_pow`** is the power. -/
theorem pow_eq (a : Gf256) (exp : UInt8) : (⟨gf256Pow a.val exp⟩ : Gf256) = a ^ exp.toNat := by
  have hloop := powLoop_eq 8 1 a exp exp.toNat_lt
  rwa [one_mul] at hloop

/-- The order of three. -/
theorem orderOf_three : orderOf (⟨3⟩ : Gf256) = 255 := by
  have hpow : ∀ exp : UInt8, (⟨3⟩ : Gf256) ^ exp.toNat = ⟨gf256Pow 3 exp⟩ :=
    fun exp => (pow_eq ⟨3⟩ exp).symm
  apply orderOf_eq_of_pow_and_pow_div_prime (by decide)
  · exact (hpow 255).trans (Gf256.ext (by decide +kernel))
  · intro p hp hdvd
    have hcases : p = 3 ∨ p = 5 ∨ p = 17 := by
      have hfactors : p ∣ 3 * 5 * 17 := hdvd
      rw [hp.dvd_mul, hp.dvd_mul, Nat.prime_dvd_prime_iff_eq hp (by decide),
        Nat.prime_dvd_prime_iff_eq hp (by decide),
          Nat.prime_dvd_prime_iff_eq hp (by decide)] at hfactors
      exact or_assoc.mp hfactors
    rcases hcases with rfl | rfl | rfl
    · exact fun h => absurd (congrArg Gf256.val ((hpow 85).symm.trans h)) (by decide +kernel)
    · exact fun h => absurd (congrArg Gf256.val ((hpow 51).symm.trans h)) (by decide +kernel)
    · exact fun h => absurd (congrArg Gf256.val ((hpow 15).symm.trans h)) (by decide +kernel)

theorem three_pow : (⟨3⟩ : Gf256) ^ 255 = 1 := by
  rw [← orderOf_three]
  exact pow_orderOf_eq_one _

/-- **Every byte but zero** is a power of three, since these are as many. -/
theorem exists_pow_three {a : Gf256} (h : a ≠ 0) : ∃ k : ℕ, (⟨3⟩ : Gf256) ^ k = a := by
  have hne : ∀ k : ℕ, (⟨3⟩ : Gf256) ^ k ≠ 0 := by
    intro k hk
    have hzero : ((⟨3⟩ : Gf256) ^ 255) ^ k = 0 := by
      rw [← pow_mul, mul_comm, pow_mul, hk]
      exact zero_pow (by decide)
    rw [three_pow, one_pow] at hzero
    exact absurd (congrArg Gf256.val hzero) (by decide)
  let powers : Finset Gf256 := (Finset.range 255).image fun k => (⟨3⟩ : Gf256) ^ k
  have hcard : (insert 0 powers).card = Fintype.card Gf256 := by
    have hinj : Set.InjOn (fun k : ℕ => (⟨3⟩ : Gf256) ^ k) (Finset.range 255) := by
      have hiio := @pow_injOn_Iio_orderOf Gf256 _ ⟨3⟩
      rw [orderOf_three] at hiio
      rw [Finset.coe_range]
      exact hiio
    have hzero : (0 : Gf256) ∉ powers := by
      intro hmem
      obtain ⟨k, -, hk⟩ := Finset.mem_image.mp hmem
      exact hne k hk
    rw [Finset.card_insert_of_notMem hzero, Finset.card_image_of_injOn hinj,
      Finset.card_range, card_eq]
  have hall : a ∈ insert 0 powers := by
    rw [(Finset.card_eq_iff_eq_univ _).mp hcard]
    exact Finset.mem_univ a
  rcases Finset.mem_insert.mp hall with hzero | hmem
  · exact absurd hzero h
  · obtain ⟨k, -, hk⟩ := Finset.mem_image.mp hmem
    exact ⟨k, hk⟩

/-- **Inverses** : `gf256_inv` is one for every byte but zero. -/
theorem mul_inv_eq {a : Gf256} (h : a ≠ 0) : a * ⟨gf256Inv a.val⟩ = 1 := by
  obtain ⟨k, rfl⟩ := exists_pow_three h
  have hinv : (⟨gf256Inv ((⟨3⟩ : Gf256) ^ k).val⟩ : Gf256) = ((⟨3⟩ : Gf256) ^ k) ^ 254 :=
    pow_eq _ 254
  rw [hinv, ← pow_succ', ← pow_mul, mul_comm, pow_mul, three_pow, one_pow]

instance : Inv Gf256 := ⟨fun a => ⟨gf256Inv a.val⟩⟩

instance : Field Gf256 where
  exists_pair_ne := ⟨⟨0⟩, ⟨1⟩, fun h => absurd (congrArg Gf256.val h) (by decide)⟩
  mul_inv_cancel a h := mul_inv_eq h
  inv_zero := Gf256.ext (by decide +kernel)
  nnqsmul := _
  qsmul := _

end Gf256

end Libdogecoin
