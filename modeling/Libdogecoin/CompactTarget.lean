/-
# The compact target and `check_pow`

The exponent byte, the sign bit and the 23 bits of the mantissa spell a number of any size;
`set_compact` has 256 bits for it. Its flags tell exactly when that number is negative or too large.

* `toNat_setCompact`, `setCompact_overflow_iff` : what is decoded, and when it fits;
* `targetWork_exact` : the work is computed without a wrap and without a division by zero;
* `checkPow_iff` : which headers pass, and the work they get.
-/
import Mathlib.Algebra.Order.Floor.Semifield
import Mathlib.Data.Nat.Bitwise
import Mathlib.Data.Rat.Floor
import Libdogecoin.ArithDivision

namespace Libdogecoin

open ArithUint256

/-! ## What the four bytes spell -/

/-- The exponent byte. -/
def compactExponent (nbits : UInt32) : ℕ := nbits.toNat / 2 ^ 24

/-- The 23 bits below the sign. -/
def compactMantissa (nbits : UInt32) : ℕ := nbits.toNat % 2 ^ 23

/-- The sign. -/
def compactSign (nbits : UInt32) : Bool := nbits.toNat.testBit 23

/-- The integer `mantissa * 256 ^ (size - 3)`; a size below three cuts the fraction off. -/
def compactTarget (nbits : UInt32) : ℕ :=
  ⌊(compactMantissa nbits : ℚ) * 256 ^ ((compactExponent nbits : ℤ) - 3)⌋₊

variable {nbits : UInt32} {hash : Uint256} {params : ChainParams}

theorem compactTarget_of_le (h : compactExponent nbits ≤ 3) :
    compactTarget nbits = compactMantissa nbits / 256 ^ (3 - compactExponent nbits) := by
  have hexp : (compactExponent nbits : ℤ) - 3 = -((3 - compactExponent nbits : ℕ) : ℤ) := by omega
  unfold compactTarget
  rw [hexp, zpow_neg, zpow_natCast, ← div_eq_mul_inv]
  have hcast : ((256 : ℚ) ^ (3 - compactExponent nbits)) =
    ((256 ^ (3 - compactExponent nbits) : ℕ) : ℚ) := by
    push_cast
    rfl
  rw [hcast, Nat.floor_div_eq_div]

theorem compactTarget_of_lt (h : 3 < compactExponent nbits) :
    compactTarget nbits = compactMantissa nbits * 256 ^ (compactExponent nbits - 3) := by
  have hexp : (compactExponent nbits : ℤ) - 3 = ((compactExponent nbits - 3 : ℕ) : ℤ) := by omega
  unfold compactTarget
  rw [hexp, zpow_natCast]
  have hcast : (compactMantissa nbits : ℚ) * 256 ^ (compactExponent nbits - 3) =
      ((compactMantissa nbits * 256 ^ (compactExponent nbits - 3) : ℕ) : ℚ) := by
    push_cast
    rfl
  rw [hcast, Nat.floor_natCast]

theorem compactMantissa_lt (nbits : UInt32) : compactMantissa nbits < 2 ^ 23 :=
  Nat.mod_lt _ (Nat.two_pow_pos 23)

/-! ## What `set_compact` decodes -/

/-- The word that `set_compact` stores before it shifts. -/
def compactWord (nbits : UInt32) : ℕ :=
  if compactExponent nbits ≤ 3 then compactMantissa nbits / 256 ^ (3 - compactExponent nbits)
  else compactMantissa nbits

theorem compactWord_lt (nbits : UInt32) : compactWord nbits < 2 ^ 23 := by
  unfold compactWord
  split_ifs
  · exact lt_of_le_of_lt (Nat.div_le_self _ _) (compactMantissa_lt nbits)
  · exact compactMantissa_lt nbits

/-- The number is the word, moved by whole bytes. -/
theorem compactTarget_eq (nbits : UInt32) :
    compactTarget nbits = compactWord nbits * 256 ^ (compactExponent nbits - 3) := by
  unfold compactWord
  split_ifs with h
  · rw [compactTarget_of_le h, Nat.sub_eq_zero_of_le h, pow_zero, Nat.mul_one]
  · exact compactTarget_of_lt (Nat.lt_of_not_le h)

/-- `set_compact` in terms of these. -/
theorem setCompact_eq (nbits : UInt32) :
    setCompact nbits =
      { target := if compactExponent nbits ≤ 3 then orWord initArithUint256 0 (compactWord nbits)
          else arithShiftLeft (orWord initArithUint256 0 (compactWord nbits))
            (8 * (compactExponent nbits - 3))
        negative := compactWord nbits ≠ 0 ∧ nbits.toNat &&& 0x00800000 ≠ 0
        overflow := compactWord nbits ≠ 0 ∧ (compactExponent nbits > 34 ∨
          (compactWord nbits > 0xff ∧ compactExponent nbits > 33) ∨
          (compactWord nbits > 0xffff ∧ compactExponent nbits > 32)) } := by
  have hsize : nbits.toNat >>> 24 = compactExponent nbits := Nat.shiftRight_eq_div_pow _ _
  have hmantissa : nbits.toNat &&& 0x007fffff = compactMantissa nbits :=
    Nat.and_two_pow_sub_one_eq_mod nbits.toNat 23
  have hword : (if nbits.toNat >>> 24 ≤ 3 then
      (nbits.toNat &&& 0x007fffff) >>> (8 * (3 - nbits.toNat >>> 24))
      else nbits.toNat &&& 0x007fffff) = compactWord nbits := by
    unfold compactWord
    rw [hsize, hmantissa, Nat.shiftRight_eq_div_pow, Nat.pow_mul]
  unfold setCompact
  dsimp only
  rw [hword, hsize]

theorem toNat_orWord_init {v : ℕ} (hv : v < 2 ^ 32) : (orWord initArithUint256 0 v).toNat = v := by
  rw [toNat_orWord _ (by decide) hv, toNat_initArithUint256, Nat.zero_or, Nat.mul_zero,
    Nat.shiftLeft_zero]

/-- **The decoded number** is the compact target, modulo `2 ^ 256`. -/
theorem toNat_setCompact (nbits : UInt32) :
    (setCompact nbits).target.toNat = compactTarget nbits % 2 ^ 256 := by
  have hlt := compactWord_lt nbits
  have hlow := toNat_orWord_init (v := compactWord nbits) (by omega)
  rw [setCompact_eq, compactTarget_eq]
  dsimp only
  split_ifs with h
  · rw [hlow, Nat.sub_eq_zero_of_le h, pow_zero, Nat.mul_one]
    exact (Nat.mod_eq_of_lt (by omega)).symm
  · rw [toNat_arithShiftLeft, hlow, Nat.pow_mul]

/-- **The overflow flag** is set exactly for the numbers from `2 ^ 256` on. -/
theorem setCompact_overflow_iff (nbits : UInt32) :
    (setCompact nbits).overflow = true ↔ 2 ^ 256 ≤ compactTarget nbits := by
  have hlt := compactWord_lt nbits
  rw [setCompact_eq, compactTarget_eq]
  dsimp only
  rw [decide_eq_true_iff]
  generalize compactWord nbits = w at hlt ⊢
  generalize compactExponent nbits = size
  rcases Nat.lt_or_ge size 33 with hsmall | hlarge
  · -- up to size 32 the word has room for its three bytes
    have hpow : 256 ^ (size - 3) ≤ 256 ^ 29 := Nat.pow_le_pow_right (by decide) (by omega)
    have hfits : w * 256 ^ (size - 3) < 2 ^ 256 := by
      calc w * 256 ^ (size - 3) ≤ w * 256 ^ 29 := Nat.mul_le_mul_left w hpow
        _ < 2 ^ 256 := by omega
    constructor
    · rintro ⟨-, h⟩
      omega
    · intro h
      exact absurd hfits (Nat.not_lt.mpr h)
  · rcases Nat.lt_or_ge size 35 with hedge | hbig
    · -- sizes 33 and 34 have room for two bytes and for one
      have hcases : size = 33 ∨ size = 34 := by omega
      rcases hcases with rfl | rfl
      · simp only [Nat.reduceSub]
        omega
      · simp only [Nat.reduceSub]
        omega
    · -- any number but zero is too large
      have hpow : 256 ^ 32 ≤ 256 ^ (size - 3) := Nat.pow_le_pow_right (by decide) (by omega)
      constructor
      · rintro ⟨hne, -⟩
        calc 2 ^ 256 = 1 * 256 ^ 32 := by norm_num
          _ ≤ w * 256 ^ (size - 3) := Nat.mul_le_mul (Nat.one_le_iff_ne_zero.mpr hne) hpow
      · intro h
        refine ⟨?_, Or.inl hbig⟩
        rintro rfl
        omega

/-- The negative flag is the sign of a number that is not cut to zero. -/
theorem setCompact_negative_iff (nbits : UInt32) :
    (setCompact nbits).negative = true ↔ compactTarget nbits ≠ 0 ∧ compactSign nbits = true := by
  have hpow : (256 : ℕ) ^ (compactExponent nbits - 3) ≠ 0 := pow_ne_zero _ (by decide)
  have hsign : nbits.toNat &&& 0x00800000 ≠ 0 ↔ compactSign nbits = true := by
    have hand := Nat.and_two_pow nbits.toNat 23
    unfold compactSign
    rw [show (0x00800000 : ℕ) = 2 ^ 23 from rfl, hand]
    cases nbits.toNat.testBit 23 <;> simp
  rw [setCompact_eq, compactTarget_eq]
  dsimp only
  rw [decide_eq_true_iff, hsign, Nat.mul_ne_zero_iff]
  constructor
  · rintro ⟨hword, h⟩
    exact ⟨⟨hword, hpow⟩, h⟩
  · rintro ⟨⟨hword, -⟩, h⟩
    exact ⟨hword, h⟩

/-! ## The work -/

/-- No compact target is the largest number : one with a size above three is even, and the others
are small. -/
theorem compactTarget_succ_ne (nbits : UInt32) : compactTarget nbits + 1 ≠ 2 ^ 256 := by
  have hlt := compactWord_lt nbits
  rw [compactTarget_eq]
  rcases Nat.eq_zero_or_pos (compactExponent nbits - 3) with hzero | hpos
  · rw [hzero, pow_zero]
    omega
  · obtain ⟨n, hn⟩ := Nat.exists_eq_succ_of_ne_zero (Nat.ne_of_gt hpos)
    have heven : compactWord nbits * 256 ^ (n + 1) = 2 * (compactWord nbits * (256 ^ n * 128)) := by
      rw [pow_succ]
      ring
    rw [hn, Nat.succ_eq_add_one, heven]
    omega

/-- How `check_pow` gets the work of a target: the numbers on the way are the exact ones. -/
structure ExactWork (target work : ArithUint256) : Prop where
  /-- The complement. -/
  negate : (arithNegate target).toNat = 2 ^ 256 - 1 - target.toNat
  /-- The divisor does not wrap, so it is not zero. -/
  divisor : (addArithUint256 target (orWord initArithUint256 0 1)).toNat = target.toNat + 1
  /-- The quotient exists, and adding one to it does not wrap. -/
  quotient : ∃ hashes, divArithUint256 (arithNegate target)
    (addArithUint256 target (orWord initArithUint256 0 1)) = some hashes ∧
      hashes.toNat = (2 ^ 256 - 1 - target.toNat) / (target.toNat + 1) ∧
        work = addArithUint256 hashes (orWord initArithUint256 0 1) ∧
          work.toNat = hashes.toNat + 1
  /-- The result. -/
  work : work.toNat = 2 ^ 256 / (target.toNat + 1)

/-- **The work** is computed exactly, for every target but zero and the largest number. -/
theorem targetWork_exact {target : ArithUint256} (hpos : 0 < target.toNat)
    (hne : target.toNat + 1 ≠ 2 ^ 256) :
    ∃ work, targetWork target = some work ∧ ExactWork target work := by
  have hlt := target.toNat_lt
  have hdivisor : (addArithUint256 target (orWord initArithUint256 0 1)).toNat =
    target.toNat + 1 := by
    rw [toNat_addArithUint256, toNat_one]
    exact Nat.mod_eq_of_lt (by omega)
  have hnonzero : (addArithUint256 target (orWord initArithUint256 0 1)).toNat ≠ 0 := by omega
  obtain ⟨hashes, hdiv⟩ := isSome_divArithUint256 (arithNegate target) hnonzero
  have hquot := (toNat_divArithUint256 hdiv).2
  rw [hdivisor, toNat_arithNegate] at hquot
  have hwork : targetWork target = some (addArithUint256 hashes (orWord initArithUint256 0 1)) := by
    unfold targetWork
    dsimp only
    rw [hdiv, Option.map_some]
  refine ⟨_, hwork, toNat_arithNegate target, hdivisor, ⟨hashes, hdiv, hquot, rfl, ?_⟩,
    toNat_targetWork hpos hwork⟩
  -- the quotient is at most half of the largest number
  have hhalf : hashes.toNat ≤ (2 ^ 256 - 1 - target.toNat) / 2 := by
    rw [hquot]
    exact Nat.div_le_div_left (by omega) (by decide)
  rw [toNat_addArithUint256, toNat_one]
  exact Nat.mod_eq_of_lt (by omega)

/-! ## The check -/

/-- The byte image of a number has its value. -/
theorem toNat_arithToUint256 (a : ArithUint256) : (arithToUint256 a).toNat = a.toNat := by
  have hwords : ∀ pn : List ℕ, (∀ x ∈ pn, x < 2 ^ 32) →
      LittleEndian.ofBytes (pn.flatMap (LittleEndian.toBytes 4)) = Limbs.value (2 ^ 32) pn := by
    intro pn
    induction pn with
    | nil => exact fun _ => rfl
    | cons x xs ih =>
      intro hlt
      have hx : LittleEndian.ofBytes (LittleEndian.toBytes 4 x) = x :=
        LittleEndian.ofBytes_toBytes_of_lt (hlt x List.mem_cons_self)
      rw [List.flatMap_cons, LittleEndian.ofBytes_append, hx, LittleEndian.length_toBytes,
        ih fun y hy => hlt y (List.mem_cons_of_mem _ hy), Limbs.value_cons]
      norm_num
  exact hwords a.pn a.pn_lt

/-- What a header has to meet. -/
structure MeetsTarget (hash : Uint256) (nbits : UInt32) (params : ChainParams) : Prop where
  /-- The target is positive. -/
  pos : 0 < compactTarget nbits
  sign : compactSign nbits = false
  /-- It has 256 bits. -/
  fits : compactTarget nbits < 2 ^ 256
  limit : compactTarget nbits ≤ params.powLimit.toNat
  /-- The hash is read with its bytes swapped. -/
  hash : (swapBytes hash).toNat ≤ compactTarget nbits

/-- The first test of `check_pow`. -/
theorem rejectTarget_iff (nbits : UInt32) (params : ChainParams) :
    ((setCompact nbits).negative || arithUint256IsZero (setCompact nbits).target ||
        (setCompact nbits).overflow ||
          uint256Cmp (arithToUint256 (setCompact nbits).target) params.powLimit) = false ↔
      0 < compactTarget nbits ∧ compactSign nbits = false ∧ compactTarget nbits < 2 ^ 256 ∧
        compactTarget nbits ≤ params.powLimit.toNat := by
  have hnegative := setCompact_negative_iff nbits
  have hzero := arithUint256IsZero_iff (setCompact nbits).target
  have hoverflow := setCompact_overflow_iff nbits
  have hlimit := uint256Cmp_iff (arithToUint256 (setCompact nbits).target) params.powLimit
  rw [toNat_setCompact] at hzero
  rw [toNat_arithToUint256, toNat_setCompact] at hlimit
  rw [Bool.or_eq_false_iff, Bool.or_eq_false_iff, Bool.or_eq_false_iff]
  simp only [← Bool.not_eq_true, hnegative, hzero, hoverflow, hlimit, not_le, not_lt]
  constructor
  · rintro ⟨⟨⟨hsign, hne⟩, hfits⟩, hle⟩
    rw [Nat.mod_eq_of_lt hfits] at hne hle
    exact ⟨Nat.pos_of_ne_zero hne, fun h => hsign ⟨hne, h⟩, hfits, hle⟩
  · rintro ⟨hpos, hsign, hfits, hle⟩
    rw [Nat.mod_eq_of_lt hfits]
    exact ⟨⟨⟨fun h => hsign h.2, Nat.ne_of_gt hpos⟩, hfits⟩, hle⟩

/-- The second test. -/
theorem rejectHash_iff (hfits : compactTarget nbits < 2 ^ 256) :
    uint256Cmp (swapBytes hash) (arithToUint256 (setCompact nbits).target) = false ↔
      (swapBytes hash).toNat ≤ compactTarget nbits := by
  rw [← Bool.not_eq_true, uint256Cmp_iff, toNat_arithToUint256, toNat_setCompact,
    Nat.mod_eq_of_lt hfits, Nat.not_lt]

theorem meetsTarget_of_checkPow {work : ArithUint256} (h : checkPow hash nbits params = some work) :
    MeetsTarget hash nbits params := by
  unfold checkPow at h
  dsimp only at h
  split_ifs at h with htarget hhash
  obtain ⟨hpos, hsign, hfits, hlimit⟩ :=
    (rejectTarget_iff nbits params).mp (Bool.eq_false_iff.mpr htarget)
  exact ⟨hpos, hsign, hfits, hlimit, (rejectHash_iff hfits).mp (Bool.eq_false_iff.mpr hhash)⟩

theorem MeetsTarget.checkPow_eq (h : MeetsTarget hash nbits params) :
    ∃ work, checkPow hash nbits params = some work ∧ ExactWork (setCompact nbits).target work ∧
      work.toNat = 2 ^ 256 / (compactTarget nbits + 1) := by
  have htarget := toNat_setCompact nbits
  rw [Nat.mod_eq_of_lt h.fits] at htarget
  have hne := compactTarget_succ_ne nbits
  rw [← htarget] at hne
  have hpos := h.pos
  rw [← htarget] at hpos
  obtain ⟨work, hwork, hexact⟩ := targetWork_exact hpos hne
  have hrange := (rejectTarget_iff nbits params).mpr ⟨h.pos, h.sign, h.fits, h.limit⟩
  have hhash := (rejectHash_iff h.fits).mpr h.hash
  refine ⟨work, ?_, hexact, ?_⟩
  · unfold checkPow
    dsimp only
    rw [if_neg (Bool.eq_false_iff.mp hrange), if_neg (Bool.eq_false_iff.mp hhash), hwork]
  · rw [hexact.work, htarget]

/-- **`check_pow`** accepts exactly the hashes that meet a target in range, and the work it writes
is exact. -/
theorem checkPow_iff (hash : Uint256) (nbits : UInt32) (params : ChainParams) :
    ((checkPow hash nbits params).isSome = true ↔ MeetsTarget hash nbits params) ∧
      ∀ work, checkPow hash nbits params = some work ↔
        MeetsTarget hash nbits params ∧ ExactWork (setCompact nbits).target work ∧
          work.toNat = 2 ^ 256 / (compactTarget nbits + 1) := by
  constructor
  · rw [Option.isSome_iff_exists]
    constructor
    · rintro ⟨work, h⟩
      exact meetsTarget_of_checkPow h
    · intro h
      obtain ⟨work, hwork, -⟩ := h.checkPow_eq
      exact ⟨work, hwork⟩
  · intro work
    constructor
    · intro h
      have hmeets := meetsTarget_of_checkPow h
      obtain ⟨work', hwork, hexact⟩ := hmeets.checkPow_eq
      obtain rfl := Option.some.inj (h.symm.trans hwork)
      exact ⟨hmeets, hexact⟩
    · rintro ⟨hmeets, -, hvalue⟩
      obtain ⟨work', hwork, -, hvalue'⟩ := hmeets.checkPow_eq
      rw [hwork, toNat_injective (hvalue'.trans hvalue.symm)]

end Libdogecoin
