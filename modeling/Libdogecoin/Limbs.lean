/-
# Multi-precision numbers as limb lists

A number is a list of digits in base `B`, least significant first.

* `value_addCarry` : schoolbook addition is addition modulo `B ^ length`;
* `lessMsf_reverse` : comparing from the most significant digit down is the order of the values;
* `value_injective` : digit lists of one length are determined by their value.
-/
import Mathlib.Data.Nat.Digits.Lemmas
import Mathlib.Tactic.Ring

namespace Limbs

variable {B : ℕ} {xs ys : List ℕ}

/-- The number a digit list spells in base `B`, least significant digit first. -/
def value (B : ℕ) (xs : List ℕ) : ℕ := Nat.ofDigits B xs

/-- Schoolbook addition of two digit lists, with a carry coming in from below. The carry out
of the last digit is dropped. -/
def addCarry (B : ℕ) : List ℕ → List ℕ → ℕ → List ℕ
  | x :: xs, y :: ys, c => (x + y + c) % B :: addCarry B xs ys ((x + y + c) / B)
  | _, _, _ => []

/-- Lexicographic comparison of two digit lists given most significant digit first. -/
def lessMsf : List ℕ → List ℕ → Bool
  | x :: xs, y :: ys => if x < y then true else if x > y then false else lessMsf xs ys
  | _, _ => false

@[simp] theorem value_nil : value B [] = 0 := rfl

@[simp] theorem value_cons (x : ℕ) (xs : List ℕ) : value B (x :: xs) = x + B * value B xs := by
  simp [value, Nat.ofDigits_cons]

/-- Appending high digits adds their value, shifted by the length of the low part. -/
theorem value_append (xs ys : List ℕ) :
    value B (xs ++ ys) = value B xs + B ^ xs.length * value B ys :=
  Nat.ofDigits_append

/-- A list of `n` digits below `B` spells a number below `B ^ n`. -/
theorem value_lt (xs : List ℕ) (hx : ∀ x ∈ xs, x < B) : value B xs < B ^ xs.length := by
  induction xs with
  | nil => simp
  | cons x xs ih =>
    have hhead : x < B := hx x (by simp)
    have htail : value B xs < B ^ xs.length := ih fun z hz => hx z (by simp [hz])
    rw [value_cons, List.length_cons, pow_succ']
    calc x + B * value B xs < B + B * value B xs := by omega
      _ = B * (value B xs + 1) := by ring
      _ ≤ B * B ^ xs.length := Nat.mul_le_mul_left B htail

/-! ## Addition -/

@[simp] theorem length_addCarry (xs ys : List ℕ) (c : ℕ) :
    (addCarry B xs ys c).length = min xs.length ys.length := by
  induction xs generalizing ys c with
  | nil => simp [addCarry]
  | cons x xs ih =>
    cases ys with
    | nil => simp [addCarry]
    | cons y ys => simp only [addCarry, List.length_cons, ih]; omega

/-- Every digit of a sum is a digit of the base. -/
theorem addCarry_lt (hB : 0 < B) (xs ys : List ℕ) (c : ℕ) : ∀ z ∈ addCarry B xs ys c, z < B := by
  induction xs generalizing ys c with
  | nil => simp [addCarry]
  | cons x xs ih =>
    cases ys with
    | nil => simp [addCarry]
    | cons y ys =>
      intro z hz
      rw [addCarry, List.mem_cons] at hz
      rcases hz with rfl | hz
      · exact Nat.mod_lt _ hB
      · exact ih _ _ z hz

/-- **Addition.** The digits of a sum spell the sum modulo `B ^ length`. -/
theorem value_addCarry (xs ys : List ℕ) (hlen : xs.length = ys.length) (c : ℕ) :
    value B (addCarry B xs ys c) = (value B xs + value B ys + c) % B ^ xs.length := by
  induction xs generalizing ys c with
  | nil =>
    have hys : ys = [] := List.length_eq_zero_iff.mp (by simpa using hlen.symm)
    subst hys
    simp [addCarry, Nat.mod_one]
  | cons x xs ih =>
    cases ys with
    | nil => simp at hlen
    | cons y ys =>
      have htail : xs.length = ys.length := by simpa using hlen
      have hsum : x + B * value B xs + (y + B * value B ys) + c =
          (x + y + c) + B * (value B xs + value B ys) := by ring
      rw [addCarry, value_cons, value_cons, value_cons, ih ys htail, List.length_cons, pow_succ',
        hsum, Nat.mod_mul]
      have hlow : ((x + y + c) + B * (value B xs + value B ys)) % B = (x + y + c) % B :=
        Nat.add_mul_mod_self_left _ _ _
      rcases Nat.eq_zero_or_pos B with rfl | hB
      · simp
      · have hhigh : ((x + y + c) + B * (value B xs + value B ys)) / B =
            value B xs + value B ys + (x + y + c) / B := by
          rw [Nat.add_mul_div_left _ _ hB]; omega
        rw [hlow, hhigh]

/-! ## Comparison -/

/-- Comparison from the top digit down is the order of the values. -/
theorem lessMsf_iff (xs ys : List ℕ) (hlen : xs.length = ys.length) (hx : ∀ x ∈ xs, x < B)
    (hy : ∀ y ∈ ys, y < B) :
    lessMsf xs ys = true ↔ value B xs.reverse < value B ys.reverse := by
  induction xs generalizing ys with
  | nil =>
    have hys : ys = [] := List.length_eq_zero_iff.mp (by simpa using hlen.symm)
    subst hys
    simp [lessMsf]
  | cons x xs ih =>
    cases ys with
    | nil => simp at hlen
    | cons y ys =>
      have htail : xs.length = ys.length := by simpa using hlen
      have hxs : value B xs.reverse < B ^ xs.length := by
        have h := value_lt (B := B) xs.reverse fun z hz => hx z (by simp_all)
        rwa [List.length_reverse] at h
      have hys : value B ys.reverse < B ^ xs.length := by
        have h := value_lt (B := B) ys.reverse fun z hz => hy z (by simp_all)
        rwa [List.length_reverse, ← htail] at h
      have hrec := ih ys htail (fun z hz => hx z (by simp [hz])) fun z hz => hy z (by simp [hz])
      rw [lessMsf, List.reverse_cons, List.reverse_cons, value_append, value_append,
        List.length_reverse, List.length_reverse, ← htail]
      simp only [value_cons, value_nil, Nat.mul_zero, Nat.add_zero]
      rcases Nat.lt_trichotomy x y with h | h | h
      · have hstep : B ^ xs.length * (x + 1) ≤ B ^ xs.length * y := Nat.mul_le_mul_left _ h
        rw [Nat.mul_succ] at hstep
        rw [if_pos h]
        simp only [true_iff]
        omega
      · subst h
        rw [if_neg (Nat.lt_irrefl x), if_neg (Nat.lt_irrefl x), hrec]
        omega
      · have hstep : B ^ xs.length * (y + 1) ≤ B ^ xs.length * x := Nat.mul_le_mul_left _ h
        rw [Nat.mul_succ] at hstep
        rw [if_neg (by omega), if_pos h]
        simp only [Bool.false_eq_true, false_iff]
        omega

/-- The comparison of two least-significant-first digit lists, read from the top. -/
theorem lessMsf_reverse (hlen : xs.length = ys.length) (hx : ∀ x ∈ xs, x < B)
    (hy : ∀ y ∈ ys, y < B) :
    lessMsf xs.reverse ys.reverse = true ↔ value B xs < value B ys := by
  have h := lessMsf_iff (B := B) xs.reverse ys.reverse (by simpa using hlen)
    (fun z hz => hx z (by simpa using hz)) fun z hz => hy z (by simpa using hz)
  simpa only [List.reverse_reverse] using h

/-- Digit lists of one length with one value are equal. -/
theorem value_injective (hlen : xs.length = ys.length) (hx : ∀ x ∈ xs, x < B) (hy : ∀ y ∈ ys, y < B)
    (hval : value B xs = value B ys) : xs = ys := by
  induction xs generalizing ys with
  | nil => exact (List.length_eq_zero_iff.mp (by simpa using hlen.symm)).symm
  | cons x xs ih =>
    cases ys with
    | nil => simp at hlen
    | cons y ys =>
      have hxB : x < B := hx x (by simp)
      have hyB : y < B := hy y (by simp)
      have hB : 0 < B := by omega
      rw [value_cons, value_cons] at hval
      have hhead : x = y := by
        have h := congrArg (· % B) hval
        simpa [Nat.add_mul_mod_self_left, Nat.mod_eq_of_lt hxB, Nat.mod_eq_of_lt hyB] using h
      subst hhead
      have hmul : B * value B xs = B * value B ys := by omega
      have htail : value B xs = value B ys := Nat.eq_of_mul_eq_mul_left hB hmul
      rw [ih (by simpa using hlen) (fun z hz => hx z (by simp [hz]))
        (fun z hz => hy z (by simp [hz])) htail]

end Limbs
