/-
# Digit lists with the most significant digit first

A number is a list of digits in base `B` that starts with its most significant digit, as it is
written.

* `value_mulAdd` : the schoolbook multiplication by a constant, and what is carried out of it;
* `dropWhile_eq_digits` : without its leading zeros a digit list is determined by its value;
* `value_flatMap` : digits that are split into `k` smaller digits each spell the same number.
-/
import Mathlib.Data.Nat.Digits.Lemmas
import Mathlib.Tactic.Ring

namespace Radix

variable {B : ℕ}

/-- The number a digit list spells in base `B`, most significant digit first. -/
def value (B : ℕ) (ds : List ℕ) : ℕ := Nat.ofDigits B ds.reverse

/-- The digits of `m * value ds + c` as far as `ds` has room, and what is carried out of the first
digit. -/
def mulAdd (B m : ℕ) : List ℕ → ℕ → List ℕ × ℕ
  | [], c => ([], c)
  | d :: ds, c =>
    let low := mulAdd B m ds c
    ((m * d + low.2) % B :: low.1, (m * d + low.2) / B)

/-! ## Values -/

@[simp] theorem value_nil : value B [] = 0 := rfl

theorem value_append (xs ys : List ℕ) :
    value B (xs ++ ys) = value B xs * B ^ ys.length + value B ys := by
  rw [value, value, value, List.reverse_append, Nat.ofDigits_append, List.length_reverse]
  ring

theorem value_cons (d : ℕ) (ds : List ℕ) : value B (d :: ds) = d * B ^ ds.length + value B ds := by
  rw [← List.singleton_append, value_append]
  simp [value]

theorem value_concat (ds : List ℕ) (d : ℕ) : value B (ds ++ [d]) = B * value B ds + d := by
  rw [value_append]
  simp [value, Nat.mul_comm]

@[simp] theorem value_replicate_zero (k : ℕ) : value B (List.replicate k 0) = 0 := by
  induction k with
  | zero => rfl
  | succ k ih => rw [List.replicate_succ, value_cons, ih, Nat.zero_mul]

/-- A list of digits below the base spells a number that its length has room for. -/
theorem value_lt (hB : 1 < B) {ds : List ℕ} (hds : ∀ d ∈ ds, d < B) :
    value B ds < B ^ ds.length := by
  have h := Nat.ofDigits_lt_base_pow_length hB (l := ds.reverse) fun d hd =>
    hds d (List.mem_reverse.mp hd)
  rwa [List.length_reverse] at h

/-- Leading zeros do not count. -/
theorem value_dropWhile (ds : List ℕ) : value B (ds.dropWhile (· = 0)) = value B ds := by
  induction ds with
  | nil => rfl
  | cons d ds ih =>
    rw [List.dropWhile_cons]
    split
    · rename_i hzero
      rw [ih, value_cons, of_decide_eq_true hzero, Nat.zero_mul, Nat.zero_add]
    · rfl

variable {ds : List ℕ}

/-- **Uniqueness.** Without its leading zeros a digit list is determined by its value. -/
theorem dropWhile_eq_digits (hB : 1 < B) (hds : ∀ d ∈ ds, d < B) :
    ds.dropWhile (· = 0) = (Nat.digits B (value B ds)).reverse := by
  have hlt : ∀ d ∈ (ds.dropWhile (· = 0)).reverse, d < B := fun d hd =>
    hds d ((List.dropWhile_suffix _).subset (List.mem_reverse.mp hd))
  have hlast : ∀ h : (ds.dropWhile (· = 0)).reverse ≠ [],
    (ds.dropWhile (· = 0)).reverse.getLast h ≠ 0 := by
    intro h
    rw [List.getLast_reverse]
    exact of_decide_eq_false (List.head_dropWhile_not (p := fun x => decide (x = 0))
      (List.reverse_ne_nil_iff.mp h))
  have hdigits := Nat.digits_ofDigits B hB _ hlt hlast
  rw [← value_dropWhile ds, value, hdigits, List.reverse_reverse]

/-- The number of digits that are left without the leading zeros is the number of digits of the
value. -/
theorem length_dropWhile_le_iff (hB : 1 < B) (hds : ∀ d ∈ ds, d < B) (k : ℕ) :
    (ds.dropWhile (· = 0)).length ≤ k ↔ value B ds < B ^ k := by
  rw [dropWhile_eq_digits hB hds, List.length_reverse, Nat.digits_length_le_iff hB]

/-- Digits that are split into `k` digits of a smaller base each spell the same number. -/
theorem value_flatMap {α : Type} {k : ℕ} (toDigit : α → ℕ) (split : α → List ℕ)
    (hlen : ∀ w, (split w).length = k) (hval : ∀ w, value B (split w) = toDigit w) (ws : List α) :
    value B (ws.flatMap split) = value (B ^ k) (ws.map toDigit) := by
  have hlength : ∀ ws : List α, (ws.flatMap split).length = k * ws.length := by
    intro ws
    induction ws with
    | nil => rfl
    | cons w ws ih => rw [List.flatMap_cons, List.length_append, hlen, ih, List.length_cons,
        Nat.mul_succ, Nat.add_comm]
  induction ws with
  | nil => rfl
  | cons w ws ih =>
    rw [List.flatMap_cons, value_append, List.map_cons, value_cons, hval, ih, hlength,
      List.length_map, pow_mul]

/-! ## Multiplication by a constant -/

theorem length_mulAdd (m : ℕ) (ds : List ℕ) (c : ℕ) : (mulAdd B m ds c).1.length = ds.length := by
  induction ds with
  | nil => rfl
  | cons d ds ih => rw [mulAdd, List.length_cons, ih, List.length_cons]

theorem mulAdd_lt (hB : 0 < B) (m : ℕ) (ds : List ℕ) (c : ℕ) :
    ∀ d ∈ (mulAdd B m ds c).1, d < B := by
  induction ds with
  | nil => exact fun d hd => absurd hd List.not_mem_nil
  | cons d ds ih =>
    intro x hx
    rcases List.mem_cons.mp hx with rfl | hx
    · exact Nat.mod_lt _ hB
    · exact ih x hx

/-- **Multiplication by a constant.** The digits and the carry together spell the product and the
summand. -/
theorem value_mulAdd (m : ℕ) (ds : List ℕ) (c : ℕ) :
    (mulAdd B m ds c).2 * B ^ ds.length + value B (mulAdd B m ds c).1 = m * value B ds + c := by
  induction ds with
  | nil => simp [mulAdd]
  | cons d ds ih =>
    have hdigit := Nat.div_add_mod (m * d + (mulAdd B m ds c).2) B
    rw [mulAdd]
    dsimp only
    rw [value_cons, length_mulAdd, value_cons, List.length_cons, pow_succ]
    calc (m * d + (mulAdd B m ds c).2) / B * (B ^ ds.length * B) +
          ((m * d + (mulAdd B m ds c).2) % B * B ^ ds.length + value B (mulAdd B m ds c).1)
        = (B * ((m * d + (mulAdd B m ds c).2) / B) + (m * d + (mulAdd B m ds c).2) % B) *
          B ^ ds.length +
            value B (mulAdd B m ds c).1 := by ring
      _ = (m * d + (mulAdd B m ds c).2) * B ^ ds.length +
        value B (mulAdd B m ds c).1 := by rw [hdigit]
      _ = m * d * B ^ ds.length + ((mulAdd B m ds c).2 * B ^ ds.length +
        value B (mulAdd B m ds c).1) := by ring
      _ = m * (d * B ^ ds.length + value B ds) + c := by rw [ih]; ring

/-- The carry is the part of the product that there is no room for. -/
theorem mulAdd_carry (hB : 1 < B) (m : ℕ) (ds : List ℕ) (c : ℕ) :
    (mulAdd B m ds c).2 = (m * value B ds + c) / B ^ ds.length := by
  have hlt : value B (mulAdd B m ds c).1 < B ^ ds.length := by
    have h := value_lt hB (mulAdd_lt (by omega) m ds c)
    rwa [length_mulAdd] at h
  rw [← value_mulAdd, Nat.mul_comm, Nat.mul_add_div (by omega), Nat.div_eq_of_lt hlt, Nat.add_zero]

/-- Where the product has room, it is the value of the digits and nothing is carried. -/
theorem value_mulAdd_of_lt (hB : 1 < B) {m : ℕ} {c : ℕ} (h : m * value B ds + c < B ^ ds.length) :
    (mulAdd B m ds c).2 = 0 ∧ value B (mulAdd B m ds c).1 = m * value B ds + c := by
  have hcarry : (mulAdd B m ds c).2 = 0 := by rw [mulAdd_carry hB, Nat.div_eq_of_lt h]
  have hvalue := value_mulAdd (B := B) m ds c
  rw [hcarry, Nat.zero_mul, Nat.zero_add] at hvalue
  exact ⟨hcarry, hvalue⟩

/-- The low digits are done first, and their carry goes into the high ones. -/
theorem mulAdd_append (m : ℕ) (xs ys : List ℕ) (c : ℕ) :
    mulAdd B m (xs ++ ys) c =
      ((mulAdd B m xs (mulAdd B m ys c).2).1 ++ (mulAdd B m ys c).1,
        (mulAdd B m xs (mulAdd B m ys c).2).2) := by
  induction xs with
  | nil => rfl
  | cons x xs ih => rw [List.cons_append, mulAdd, ih, mulAdd]; rfl

/-- Where there are only zeros and nothing is carried in, nothing changes. -/
theorem mulAdd_zeros (m : ℕ) (h : ∀ d ∈ ds, d = 0) : mulAdd B m ds 0 = (ds, 0) := by
  induction ds with
  | nil => rfl
  | cons d ds ih =>
    rw [mulAdd, ih fun x hx => h x (List.mem_cons_of_mem _ hx), h d List.mem_cons_self]
    simp

end Radix
