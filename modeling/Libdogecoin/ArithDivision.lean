/-
# Division and the work of a target

`div_arith_uint256` is long division, one bit at a time. The words of a number are read through its
bits.

* `toNat_divArithUint256` : the loop divides;
* `divArithUint256_exact` : every round shifts without a loss and subtracts without a borrow;
* `toNat_targetWork` : the work of a target `t` is `2 ^ 256 / (t + 1)`.
-/
import Libdogecoin.Pow

namespace Libdogecoin

open ArithUint256

/-! ## Bits -/

/-- The bits of a list of words. -/
theorem Limbs.testBit_value (xs : List ℕ) (hlt : ∀ x ∈ xs, x < 2 ^ 32) (j : ℕ) :
    (Limbs.value (2 ^ 32) xs).testBit j = (xs.getD (j / 32) 0).testBit (j % 32) := by
  induction xs generalizing j with
  | nil =>
    rw [Limbs.value, Nat.ofDigits_nil, List.getD_nil, Nat.zero_testBit, Nat.zero_testBit]
  | cons x xs ih =>
    have hx := hlt x List.mem_cons_self
    have hvalue : Limbs.value (2 ^ 32) (x :: xs) = 2 ^ 32 * Limbs.value (2 ^ 32) xs + x := by
      rw [Limbs.value, Limbs.value, Nat.ofDigits_cons, Nat.add_comm]
    rw [hvalue, Nat.testBit_two_pow_mul_add _ hx]
    split_ifs with hj
    · rw [Nat.div_eq_of_lt hj, Nat.mod_eq_of_lt hj, List.getD_cons_zero]
    · rw [ih fun y hy => hlt y (List.mem_cons_of_mem _ hy)]
      have hdiv : j / 32 = (j - 32) / 32 + 1 := by omega
      have hmod : (j - 32) % 32 = j % 32 := by omega
      rw [hdiv, hmod, List.getD_cons_succ]

namespace ArithUint256

/-- The bits of a number are the bits of its words. -/
theorem testBit_toNat (a : ArithUint256) (j : ℕ) :
    a.toNat.testBit j = (a.word (j / 32)).testBit (j % 32) :=
  Limbs.testBit_value a.pn a.pn_lt j

/-- A number made of given words. -/
theorem testBit_ofWords (f : ℕ → ℕ) {j : ℕ} (hj : j < 256) :
    (ofWords f).toNat.testBit j = (f (j / 32)).testBit (j % 32) := by
  have hword : (ofWords f).word (j / 32) = f (j / 32) % 2 ^ 32 := by
    have hlt : j / 32 < WIDTH := by
      rw [WIDTH]
      omega
    unfold word ofWords
    rw [List.getD_eq_getElem?_getD, List.getElem?_map, List.getElem?_range hlt]
    rfl
  rw [testBit_toNat, hword, Nat.testBit_mod_two_pow, decide_eq_true (by omega), Bool.true_and]

/-- Two numbers below `2 ^ 256` with the same bits are equal. -/
theorem toNat_eq_of_testBit {a : ArithUint256} {n : ℕ} (hn : n < 2 ^ 256)
    (h : ∀ j < 256, a.toNat.testBit j = n.testBit j) : a.toNat = n := by
  apply Nat.eq_of_testBit_eq
  intro j
  by_cases hj : j < 256
  · exact h j hj
  · have hpow : (2 : ℕ) ^ 256 ≤ 2 ^ j := Nat.pow_le_pow_right (by decide) (Nat.le_of_not_lt hj)
    rw [Nat.testBit_lt_two_pow (lt_of_lt_of_le a.toNat_lt hpow),
      Nat.testBit_lt_two_pow (lt_of_lt_of_le hn hpow)]

end ArithUint256

/-- Setting bits in one word. -/
theorem toNat_orWord (a : ArithUint256) {i v : ℕ} (hi : i < 8) (hv : v < 2 ^ 32) :
    (orWord a i v).toNat = a.toNat ||| v <<< (32 * i) := by
  refine toNat_eq_of_testBit ?_ fun j hj => ?_
  · apply Nat.or_lt_two_pow a.toNat_lt
    have hshift : v <<< (32 * i) < 2 ^ 32 * 2 ^ (32 * i) := by
      rw [Nat.shiftLeft_eq]
      exact Nat.mul_lt_mul_of_pos_right hv (Nat.two_pow_pos _)
    have hpow : (2 : ℕ) ^ 32 * 2 ^ (32 * i) ≤ 2 ^ 256 := by
      rw [← Nat.pow_add]
      exact Nat.pow_le_pow_right (by decide) (by omega)
    exact lt_of_lt_of_le hshift hpow
  · unfold orWord
    rw [testBit_ofWords _ hj, Nat.testBit_or, testBit_toNat, Nat.testBit_shiftLeft]
    by_cases hji : j / 32 = i
    · have hle : 32 * i ≤ j := by omega
      have hsub : j - 32 * i = j % 32 := by omega
      rw [if_pos hji, Nat.testBit_or, hsub, decide_eq_true hle, Bool.true_and]
    · rw [if_neg hji]
      rcases Nat.lt_or_gt_of_ne hji with hlt | hgt
      · rw [decide_eq_false (by omega), Bool.false_and, Bool.or_false]
      · have hbig : v.testBit (j - 32 * i) = false := by
          apply Nat.testBit_lt_two_pow
          exact lt_of_lt_of_le hv (Nat.pow_le_pow_right (by decide) (by omega))
        rw [hbig, Bool.and_false, Bool.or_false]

theorem ArithUint256.word_lt (a : ArithUint256) (i : ℕ) : a.word i < 2 ^ 32 := by
  unfold word
  rw [List.getD_eq_getElem?_getD]
  cases hget : a.pn[i]? with
  | none => exact Nat.two_pow_pos 32
  | some x => exact a.pn_lt x (List.mem_of_getElem? hget)

/-- A bit of a word above its 32 bits is not set. -/
theorem ArithUint256.testBit_word_high (a : ArithUint256) (i : ℕ) {m : ℕ} (hm : 32 ≤ m) :
    (a.word i).testBit m = false := by
  apply Nat.testBit_lt_two_pow
  exact lt_of_lt_of_le (a.word_lt i) (Nat.pow_le_pow_right (by decide) hm)

/-- **The left shift** is the one of numbers, modulo `2 ^ 256`. -/
theorem toNat_arithShiftLeft (a : ArithUint256) (shift : ℕ) :
    (arithShiftLeft a shift).toNat = a.toNat * 2 ^ shift % 2 ^ 256 := by
  refine toNat_eq_of_testBit (Nat.mod_lt _ (Nat.two_pow_pos 256)) fun j hj => ?_
  rw [← Nat.shiftLeft_eq, Nat.testBit_mod_two_pow, Nat.testBit_shiftLeft,
    decide_eq_true hj, Bool.true_and]
  unfold arithShiftLeft
  dsimp only
  rw [testBit_ofWords _ hj, Nat.testBit_or]
  rcases Nat.lt_or_ge (j % 32) (shift % 32) with hlow | hhigh
  · -- the bit comes out of the top of the word below
    have hsecond : (if shift / 32 ≤ j / 32 then a.word (j / 32 - shift / 32) <<< (shift % 32)
        else 0).testBit (j % 32) = false := by
      split_ifs
      · rw [Nat.testBit_shiftLeft, decide_eq_false (by omega), Bool.false_and]
      · exact Nat.zero_testBit _
    rw [hsecond, Bool.or_false]
    by_cases hword : shift / 32 + 1 ≤ j / 32
    · have hdiv : (j - shift) / 32 = j / 32 - shift / 32 - 1 := by omega
      have hmod : (j - shift) % 32 = 32 - shift % 32 + j % 32 := by omega
      rw [if_pos ⟨hword, by omega⟩, Nat.testBit_shiftRight, testBit_toNat, hdiv, hmod,
        decide_eq_true (by omega), Bool.true_and]
    · rw [if_neg fun h => hword h.1, Nat.zero_testBit, decide_eq_false (by omega), Bool.false_and]
  · -- the bit stays in its word
    have hfirst : (if shift / 32 + 1 ≤ j / 32 ∧ shift % 32 ≠ 0 then
        a.word (j / 32 - shift / 32 - 1) >>> (32 - shift % 32) else 0).testBit (j % 32) =
          false := by
      split_ifs
      · rw [Nat.testBit_shiftRight]
        exact a.testBit_word_high _ (by omega)
      · exact Nat.zero_testBit _
    rw [hfirst, Bool.false_or]
    by_cases hword : shift / 32 ≤ j / 32
    · have hdiv : (j - shift) / 32 = j / 32 - shift / 32 := by omega
      have hmod : (j - shift) % 32 = j % 32 - shift % 32 := by omega
      rw [if_pos hword, Nat.testBit_shiftLeft, testBit_toNat, hdiv, hmod, decide_eq_true hhigh,
        decide_eq_true (by omega), Bool.true_and]
    · rw [if_neg hword, Nat.zero_testBit, decide_eq_false (by omega), Bool.false_and]

/-- Shifting by one bit doubles, if nothing is lost. -/
theorem toNat_arithShiftLeft_one (a : ArithUint256) (h : 2 * a.toNat < 2 ^ 256) :
    (arithShiftLeft a 1).toNat = 2 * a.toNat := by
  rw [toNat_arithShiftLeft, pow_one, Nat.mul_comm]
  exact Nat.mod_eq_of_lt h

/-! ## Subtraction -/

/-- The borrow loop, on words of equal number. -/
theorem value_subBorrow (xs ys : List ℕ) (hlen : xs.length = ys.length) (hx : ∀ x ∈ xs, x < 2 ^ 32)
    (hy : ∀ y ∈ ys, y < 2 ^ 32) {borrow : ℕ} (hborrow : borrow ≤ 1)
    (hle : Limbs.value (2 ^ 32) ys + borrow ≤ Limbs.value (2 ^ 32) xs) :
    Limbs.value (2 ^ 32) (subBorrow xs ys borrow) + Limbs.value (2 ^ 32) ys + borrow =
      Limbs.value (2 ^ 32) xs := by
  induction xs generalizing ys borrow with
  | nil =>
    obtain rfl := List.length_eq_zero_iff.mp hlen.symm
    rw [subBorrow]
    · simp only [Limbs.value, Nat.ofDigits_nil] at hle ⊢
      omega
    · intro _ _ _ _ h
      cases h
  | cons x xs ih =>
    cases ys with
    | nil => cases hlen
    | cons y ys =>
      have hx0 := hx x List.mem_cons_self
      have hy0 := hy y List.mem_cons_self
      have hcons : ∀ z zs, Limbs.value (2 ^ 32) (z :: zs) = z + 2 ^ 32 * Limbs.value (2 ^ 32) zs :=
        fun z zs => Nat.ofDigits_cons
      rw [hcons, hcons] at hle
      rw [subBorrow, hcons, hcons, hcons]
      have hrest : ∀ c ≤ 1, Limbs.value (2 ^ 32) ys + c ≤ Limbs.value (2 ^ 32) xs →
          Limbs.value (2 ^ 32) (subBorrow xs ys c) + Limbs.value (2 ^ 32) ys + c =
            Limbs.value (2 ^ 32) xs := fun c hc hle =>
        ih ys (Nat.succ.inj hlen) (fun z hz => hx z (List.mem_cons_of_mem _ hz))
          (fun z hz => hy z (List.mem_cons_of_mem _ hz)) hc hle
      by_cases hlow : x < y + borrow
      · have hone := hrest 1 (Nat.le_refl 1) (by omega)
        rw [if_pos hlow]
        omega
      · have hzero := hrest 0 (Nat.zero_le 1) (by omega)
        rw [if_neg hlow]
        omega

theorem length_subBorrow (xs ys : List ℕ) (borrow : ℕ) :
    (subBorrow xs ys borrow).length = min xs.length ys.length := by
  induction xs generalizing ys borrow with
  | nil =>
    rw [subBorrow]
    · simp
    · intro _ _ _ _ h
      cases h
  | cons x xs ih =>
    cases ys with
    | nil =>
      rw [subBorrow]
      · simp
      · intro _ _ _ _ _ h
        cases h
    | cons y ys =>
      rw [subBorrow, List.length_cons, ih, List.length_cons, List.length_cons]
      omega

theorem subBorrow_lt (xs ys : List ℕ) (borrow : ℕ) : ∀ z ∈ subBorrow xs ys borrow, z < 2 ^ 32 := by
  induction xs generalizing ys borrow with
  | nil =>
    intro z hz
    rw [subBorrow] at hz
    · cases hz
    · intro _ _ _ _ h
      cases h
  | cons x xs ih =>
    intro z hz
    cases ys with
    | nil =>
      rw [subBorrow] at hz
      · cases hz
      · intro _ _ _ _ _ h
        cases h
    | cons y ys =>
      rw [subBorrow, List.mem_cons] at hz
      rcases hz with rfl | hz
      · exact Nat.mod_lt _ (Nat.two_pow_pos 32)
      · exact ih _ _ z hz

variable {a b : ArithUint256} {k : ℕ} {qr : ArithUint256 × ArithUint256}

/-- Subtraction of a number that is not larger. -/
theorem subArithUint256_of_le (h : b.toNat ≤ a.toNat) :
    ∃ c, subArithUint256 a b = some c ∧ c.toNat = a.toNat - b.toNat := by
  have hnot : arithUint256LessThan a b = false := by
    rw [Bool.eq_false_iff]
    exact fun hlt => absurd ((arithUint256LessThan_iff a b).mp hlt) (Nat.not_lt.mpr h)
  have hlen : (subBorrow a.pn b.pn 0).length = WIDTH := by
    rw [length_subBorrow, a.length_pn, b.length_pn, Nat.min_self]
  have hvalue := value_subBorrow a.pn b.pn (a.length_pn.trans b.length_pn.symm) a.pn_lt b.pn_lt
    (Nat.zero_le 1) h
  have hwords : (ofWords fun i => (subBorrow a.pn b.pn 0).getD i 0).pn = subBorrow a.pn b.pn 0 := by
    show (List.range WIDTH).map (fun i => (subBorrow a.pn b.pn 0).getD i 0 % 2 ^ 32) = _
    apply List.ext_getElem
    · rw [List.length_map, List.length_range, hlen]
    · intro i h1 h2
      have hlt := subBorrow_lt a.pn b.pn 0 _ (List.getElem_mem h2)
      rw [List.getElem_map, List.getElem_range, List.getD_eq_getElem?_getD,
        List.getElem?_eq_getElem h2, Option.getD_some]
      exact Nat.mod_eq_of_lt hlt
  refine ⟨ofWords fun i => (subBorrow a.pn b.pn 0).getD i 0, ?_, ?_⟩
  · unfold subArithUint256
    rw [hnot, if_neg Bool.false_ne_true]
  · unfold ArithUint256.toNat at *
    rw [hwords]
    omega

/-! ## Division -/

theorem arithUint256GreaterThanOrEqual_iff (a b : ArithUint256) :
    arithUint256GreaterThanOrEqual a b = true ↔ b.toNat ≤ a.toNat := by
  rw [arithUint256GreaterThanOrEqual, Bool.not_eq_true', ← Bool.not_eq_true,
    arithUint256LessThan_iff, Nat.not_lt]

theorem toNat_initArithUint256 : initArithUint256.toNat = 0 := by
  decide +kernel

/-- The state of the loop above bit `k`: the high bits of `a` are divided, and the quotient stands
at its place. -/
structure Divided (a b k : ℕ) (qr : ArithUint256 × ArithUint256) : Prop where
  rem_lt : qr.2.toNat < b
  eq : ∃ q, qr.1.toNat = q * 2 ^ k ∧ a / 2 ^ k = q * b + qr.2.toNat

/-- The remainder that the round at bit `i` compares with the divisor: the one of the round before,
shifted left, with bit `i` of the dividend. -/
def divRemainder (a remainder : ArithUint256) (i : ℕ) : ArithUint256 :=
  if (a.word (i / 32)).testBit (i % 32) then orWord (arithShiftLeft remainder 1) 0 1
  else arithShiftLeft remainder 1

/-- The next bit of the dividend is appended to its prefix. -/
theorem div_two_pow_eq (a k : ℕ) : a / 2 ^ k = 2 * (a / 2 ^ (k + 1)) + (a.testBit k).toNat := by
  rw [pow_succ, ← Nat.div_div_eq_div_mul, Nat.testBit_eq_decide_div_mod_eq]
  rcases Nat.mod_two_eq_zero_or_one (a / 2 ^ k) with h0 | h1
  · rw [h0]
    simp only [zero_ne_one, decide_false, Bool.toNat_false]
    omega
  · rw [h1]
    simp only [decide_true, Bool.toNat_true]
    omega

/-- Twice the remainder and the next bit are at most the prefix of the dividend, which fits. -/
theorem Divided.double_le {b : ℕ} (h : Divided a.toNat b (k + 1) qr) :
    2 * qr.2.toNat + (a.toNat.testBit k).toNat ≤ a.toNat / 2 ^ k := by
  obtain ⟨-, q, -, heq⟩ := h
  rw [div_two_pow_eq, heq]
  have hmul : 0 ≤ q * b := Nat.zero_le _
  omega

/-- The shift of the remainder loses nothing, however large the divisor is. -/
theorem Divided.toNat_shift {b : ℕ} (h : Divided a.toNat b (k + 1) qr) :
    (arithShiftLeft qr.2 1).toNat = 2 * qr.2.toNat := by
  apply toNat_arithShiftLeft_one
  have hbound := h.double_le
  have hsmall : a.toNat / 2 ^ k < 2 ^ 256 := lt_of_le_of_lt (Nat.div_le_self _ _) a.toNat_lt
  omega

theorem Divided.toNat_divRemainder {b : ℕ} (h : Divided a.toNat b (k + 1) qr) :
    (divRemainder a qr.2 k).toNat = 2 * qr.2.toNat + (a.toNat.testBit k).toNat := by
  have hshift := h.toNat_shift
  unfold divRemainder
  rw [← testBit_toNat]
  cases a.toNat.testBit k with
  | false =>
    rw [if_neg Bool.false_ne_true, hshift]
    rfl
  | true =>
    rw [if_pos rfl, toNat_orWord _ (by decide) (by decide), hshift]
    have hor := Nat.two_pow_add_eq_or_of_lt (i := 1) (b := 1) (by decide) qr.2.toNat
    rw [pow_one] at hor
    exact hor.symm

/-- **One round.** -/
theorem divided_step (hk : k < 256) (h : Divided a.toNat b.toNat (k + 1) qr) :
    Divided a.toNat b.toNat k (divArithStep a b qr k) := by
  have hrem := h.toNat_divRemainder
  have hhalf := div_two_pow_eq a.toNat k
  have hone := Bool.toNat_le (a.toNat.testBit k)
  obtain ⟨hlt, q, hq, heq⟩ := h
  unfold divArithStep
  change Divided _ _ _ (if arithUint256GreaterThanOrEqual (divRemainder a qr.2 k) b then
    (orWord qr.1 (k / 32) (1 <<< (k % 32)), (subArithUint256 (divRemainder a qr.2 k) b).getD
      (divRemainder a qr.2 k)) else (qr.1, divRemainder a qr.2 k))
  generalize divRemainder a qr.2 k = r at hrem ⊢
  have hb : 2 * (q * b.toNat) = 2 * q * b.toNat := (Nat.mul_assoc 2 q b.toNat).symm
  have hpow : q * 2 ^ (k + 1) = 2 * q * 2 ^ k := by
    rw [pow_succ]
    ring
  split_ifs with hge
  · rw [arithUint256GreaterThanOrEqual_iff] at hge
    obtain ⟨c, hc, hcval⟩ := subArithUint256_of_le hge
    rw [hc, Option.getD_some]
    refine ⟨?_, 2 * q + 1, ?_, ?_⟩
    · show c.toNat < b.toNat
      omega
    · show (orWord qr.1 (k / 32) (1 <<< (k % 32))).toNat = _
      have hbit : (1 <<< (k % 32)) <<< (32 * (k / 32)) = 2 ^ k := by
        rw [← Nat.shiftLeft_add, Nat.mod_add_div, Nat.shiftLeft_eq, one_mul]
      have hword : 1 <<< (k % 32) < 2 ^ 32 := by
        rw [Nat.shiftLeft_eq, one_mul]
        exact Nat.pow_lt_pow_right (by decide) (Nat.mod_lt k (by decide))
      rw [toNat_orWord _ (by omega) hword, hbit, hq]
      have hor := Nat.two_pow_add_eq_or_of_lt (i := k + 1) (b := 2 ^ k)
        (Nat.pow_lt_pow_right (by decide) (Nat.lt_succ_self k)) q
      rw [Nat.mul_comm q, ← hor, Nat.mul_comm (2 ^ (k + 1)), hpow, Nat.add_mul, one_mul]
    · show _ = (2 * q + 1) * b.toNat + c.toNat
      rw [Nat.add_mul, one_mul]
      omega
  · rw [arithUint256GreaterThanOrEqual_iff, Nat.not_le] at hge
    refine ⟨hge, 2 * q, hq.trans hpow, ?_⟩
    show _ = 2 * q * b.toNat + r.toNat
    omega

/-- **The loop.** -/
theorem divided_foldl (hk : k ≤ 256) (h : Divided a.toNat b.toNat k qr) :
    Divided a.toNat b.toNat 0 ((List.range k).reverse.foldl (divArithStep a b) qr) := by
  induction k generalizing qr with
  | zero => exact h
  | succ k ih =>
    rw [List.range_succ, List.reverse_append, List.reverse_singleton, List.singleton_append,
      List.foldl_cons]
    exact ih (by omega) (divided_step (by omega) h)

/-- Quotient and remainder when the loop of `div_arith_uint256` comes to bit `i` : the bits above
have been handled. -/
def divArithBefore (a b : ArithUint256) (i : ℕ) : ArithUint256 × ArithUint256 :=
  ((List.range (WIDTH * 32)).reverse.take (WIDTH * 32 - 1 - i)).foldl (divArithStep a b)
    (initArithUint256, initArithUint256)

theorem divided_init (a : ArithUint256) {b : ℕ} (hb : 0 < b) :
    Divided a.toNat b 256 (initArithUint256, initArithUint256) := by
  refine ⟨?_, 0, ?_, ?_⟩
  · rw [toNat_initArithUint256]
    exact hb
  · rw [toNat_initArithUint256, Nat.zero_mul]
  · rw [toNat_initArithUint256, Nat.div_eq_of_lt a.toNat_lt, Nat.zero_mul]

/-- The first rounds of the loop. -/
theorem divided_take (hb : 0 < b.toNat) {n : ℕ} (hn : n ≤ 256) :
    Divided a.toNat b.toNat (256 - n) (((List.range 256).reverse.take n).foldl (divArithStep a b)
      (initArithUint256, initArithUint256)) := by
  induction n with
  | zero => exact divided_init a hb
  | succ n ih =>
    have hlen : n < (List.range 256).reverse.length := by
      rw [List.length_reverse, List.length_range]
      omega
    have hbit : (List.range 256).reverse[n] = 255 - n := by
      rw [List.getElem_reverse, List.getElem_range, List.length_range]
    rw [List.take_succ_eq_append_getElem hlen, List.foldl_append, hbit,
      List.foldl_cons, List.foldl_nil]
    have hround := ih (by omega)
    have hsucc : 256 - n = 255 - n + 1 := by omega
    have hnext : 256 - (n + 1) = 255 - n := by omega
    rw [hsucc] at hround
    rw [hnext]
    exact divided_step (by omega) hround

/-- The invariant of the loop at bit `i`. -/
theorem divided_divArithBefore (hb : 0 < b.toNat) {i : ℕ} (hi : i < WIDTH * 32) :
    Divided a.toNat b.toNat (i + 1) (divArithBefore a b i) := by
  rw [WIDTH] at hi
  have hround := divided_take (a := a) hb (n := 255 - i) (by omega)
  have hsub : 256 - (255 - i) = i + 1 := by omega
  rw [hsub] at hround
  exact hround

theorem arithUint256IsZero_iff (a : ArithUint256) : arithUint256IsZero a = true ↔ a.toNat = 0 := by
  constructor
  · intro h
    unfold arithUint256IsZero at h
    rw [List.all_eq_true] at h
    refine toNat_eq_of_testBit (Nat.two_pow_pos 256) fun j _ => ?_
    rw [testBit_toNat, Nat.zero_testBit]
    unfold word
    rw [List.getD_eq_getElem?_getD]
    cases hget : a.pn[j / 32]? with
    | none => exact Nat.zero_testBit _
    | some x =>
      have hx := of_decide_eq_true (h x (List.mem_of_getElem? hget))
      rw [hx]
      exact Nat.zero_testBit _
  · intro h
    have hinit : a = initArithUint256 := toNat_injective (h.trans toNat_initArithUint256.symm)
    rw [hinit]
    decide +kernel

/-- **The loop divides.** -/
theorem toNat_divArithUint256 {c : ArithUint256} (h : divArithUint256 a b = some c) :
    0 < b.toNat ∧ c.toNat = a.toNat / b.toNat := by
  unfold divArithUint256 at h
  split_ifs at h with hzero
  have hb : 0 < b.toNat := by
    rw [Nat.pos_iff_ne_zero]
    exact fun h0 => hzero ((arithUint256IsZero_iff b).mpr h0)
  obtain rfl := Option.some.inj h
  obtain ⟨hlt, q, hq, heq⟩ := divided_foldl (Nat.le_refl 256) (divided_init a hb)
  refine ⟨hb, ?_⟩
  rw [pow_zero, Nat.mul_one] at hq
  rw [pow_zero, Nat.div_one] at heq
  show ((List.range 256).reverse.foldl (divArithStep a b) _).1.toNat = _
  rw [hq, heq, Nat.mul_comm, Nat.mul_add_div hb, Nat.div_eq_of_lt hlt, Nat.add_zero]

theorem isSome_divArithUint256 (a : ArithUint256) (hb : b.toNat ≠ 0) :
    ∃ c, divArithUint256 a b = some c := by
  have hzero : ¬arithUint256IsZero b = true := fun h => hb ((arithUint256IsZero_iff b).mp h)
  unfold divArithUint256
  rw [if_neg hzero]
  exact ⟨_, rfl⟩

/-- **Division is exact** : the quotient is the one of the integers, the remainder loses no bit when
it is shifted, and every subtraction of a round has its exact result. -/
theorem divArithUint256_exact (a b : ArithUint256) (hb : b.toNat ≠ 0) :
    (∃ c, divArithUint256 a b = some c ∧ c.toNat = a.toNat / b.toNat) ∧
      ∀ i < WIDTH * 32,
        (arithShiftLeft (divArithBefore a b i).2 1).toNat = 2 * (divArithBefore a b i).2.toNat ∧
          (arithUint256GreaterThanOrEqual (divRemainder a (divArithBefore a b i).2 i) b = true →
            ∃ d, subArithUint256 (divRemainder a (divArithBefore a b i).2 i) b = some d ∧
              d.toNat = (divRemainder a (divArithBefore a b i).2 i).toNat - b.toNat) := by
  constructor
  · obtain ⟨c, hc⟩ := isSome_divArithUint256 a hb
    exact ⟨c, hc, (toNat_divArithUint256 hc).2⟩
  · intro i hi
    have hround := divided_divArithBefore (a := a) (Nat.pos_of_ne_zero hb) hi
    refine ⟨hround.toNat_shift, fun hge => ?_⟩
    rw [arithUint256GreaterThanOrEqual_iff] at hge
    exact subArithUint256_of_le hge

/-- The largest dividend by `2 ^ 256 - 2`, at the lowest bit. -/
theorem divArithUint256_exact_large :
    (∃ c, divArithUint256 (arithNegate initArithUint256)
        (arithNegate (orWord initArithUint256 0 1)) = some c ∧ c.toNat =
          (arithNegate initArithUint256).toNat /
          (arithNegate (orWord initArithUint256 0 1)).toNat) ∧
      (arithShiftLeft (divArithBefore (arithNegate initArithUint256)
        (arithNegate (orWord initArithUint256 0 1)) 0).2 1).toNat =
          2 * (divArithBefore (arithNegate initArithUint256)
            (arithNegate (orWord initArithUint256 0 1)) 0).2.toNat :=
  have hexact := divArithUint256_exact (arithNegate initArithUint256)
    (arithNegate (orWord initArithUint256 0 1)) (by decide +kernel)
  ⟨hexact.1, (hexact.2 0 (by decide)).1⟩

/-! ## The work of a target -/

theorem toNat_one : (orWord initArithUint256 0 1).toNat = 1 := by
  decide +kernel

/-- Every bit is inverted. -/
theorem toNat_arithNegate (a : ArithUint256) : (arithNegate a).toNat = 2 ^ 256 - 1 - a.toNat := by
  refine toNat_eq_of_testBit (by omega) fun j hj => ?_
  unfold arithNegate
  rw [testBit_ofWords _ hj, Nat.sub_sub, Nat.add_comm 1, Nat.sub_sub, Nat.add_comm 1,
    Nat.testBit_two_pow_sub_succ (a.word_lt (j / 32)), Nat.testBit_two_pow_sub_succ a.toNat_lt,
      testBit_toNat,
    decide_eq_true hj, decide_eq_true (Nat.mod_lt j (by decide))]

/-- **The work of a target.** -/
theorem toNat_targetWork {target work : ArithUint256} (hne : 0 < target.toNat)
    (h : targetWork target = some work) : work.toNat = 2 ^ 256 / (target.toNat + 1) := by
  unfold targetWork at h
  obtain ⟨quotient, hdiv, rfl⟩ := Option.map_eq_some_iff.mp h
  obtain ⟨hpos, hquot⟩ := toNat_divArithUint256 hdiv
  have htarget := target.toNat_lt
  have hsum : (addArithUint256 target (orWord initArithUint256 0 1)).toNat = target.toNat + 1 := by
    have hadd := toNat_addArithUint256 target (orWord initArithUint256 0 1)
    rw [toNat_one] at hadd
    rw [hadd] at hpos ⊢
    apply Nat.mod_eq_of_lt
    by_contra hwrap
    have hfull : target.toNat + 1 = 2 ^ 256 := by omega
    rw [hfull, Nat.mod_self] at hpos
    exact absurd hpos (Nat.lt_irrefl 0)
  rw [hsum] at hquot
  -- `2 ^ 256 = (~target) + (target + 1)`
  have hsplit : 2 ^ 256 = (arithNegate target).toNat + (target.toNat + 1) := by
    rw [toNat_arithNegate]
    omega
  have hwork : (arithNegate target).toNat / (target.toNat + 1) + 1 =
    2 ^ 256 / (target.toNat + 1) := by
    conv_rhs => rw [hsplit]
    rw [Nat.add_div_right _ (Nat.succ_pos _)]
  rw [toNat_addArithUint256, toNat_one, hquot, hwork]
  exact Nat.mod_eq_of_lt (Nat.div_lt_self (Nat.two_pow_pos 256) (by omega))

end Libdogecoin
