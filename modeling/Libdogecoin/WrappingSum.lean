/-
# Sums of machine words

The sum of numbers of 64 bits in 64 bits, against their sum as integers.

* `toNat_foldl_add` : the word sum is the integer sum modulo `2 ^ 64`;
* `sum_mod_eq_iff` : a sum of lower bounds that is right modulo a number is a sum of exact values.
-/
import Mathlib.Algebra.Order.BigOperators.Group.List
import Mathlib.Algebra.Order.Ring.Nat

namespace WrappingSum

/-- The integer sum of some words. -/
def total {α : Type} (value : α → UInt64) (xs : List α) : ℕ := (xs.map fun x => (value x).toNat).sum

variable {α : Type} {low high : α → ℕ} {xs : List α}

@[simp] theorem total_nil (value : α → UInt64) : total value [] = 0 := rfl

@[simp] theorem total_cons (value : α → UInt64) (x : α) (xs : List α) :
    total value (x :: xs) = (value x).toNat + total value xs := by
  rw [total, List.map_cons, List.sum_cons, total]

theorem total_append (value : α → UInt64) (xs ys : List α) :
    total value (xs ++ ys) = total value xs + total value ys := by
  rw [total, List.map_append, List.sum_append, total, total]

/-- A word sum is the integer sum modulo `2 ^ 64`. -/
theorem toNat_foldl_add (value : α → UInt64) (xs : List α) (start : UInt64) :
    (xs.foldl (fun sum x => sum + value x) start).toNat =
    (start.toNat + total value xs) % 2 ^ 64 := by
  induction xs generalizing start with
  | nil => exact (Nat.mod_eq_of_lt start.toNat_lt).symm
  | cons x xs ih =>
    rw [List.foldl_cons, ih, UInt64.toNat_add, total_cons]
    omega

/-- Sums of lower bounds that agree are sums of exact values. -/
theorem sum_eq_iff (h : ∀ x ∈ xs, low x ≤ high x) :
    (xs.map low).sum = (xs.map high).sum ↔ ∀ x ∈ xs, low x = high x := by
  induction xs with
  | nil => simp
  | cons x xs ih =>
    have hx := h x List.mem_cons_self
    have hxs := List.sum_le_sum fun y hy => h y (List.mem_cons_of_mem _ hy)
    have hrest := ih fun y hy => h y (List.mem_cons_of_mem _ hy)
    rw [List.map_cons, List.map_cons, List.sum_cons, List.sum_cons, List.forall_mem_cons, ← hrest]
    omega

/-- A sum of lower bounds is the sum modulo a number only if nothing is lost at all. -/
theorem sum_mod_eq_iff {m : ℕ} (hm : 0 < m) (h : ∀ x ∈ xs, low x ≤ high x) :
    (xs.map low).sum % m = (xs.map high).sum ↔ (∀ x ∈ xs, low x = high x) ∧
    (xs.map high).sum < m := by
  have hle : (xs.map low).sum ≤ (xs.map high).sum := List.sum_le_sum h
  have hmod : (xs.map low).sum % m ≤ (xs.map low).sum := Nat.mod_le _ _
  rw [← sum_eq_iff h]
  constructor
  · intro heq
    have hlt : (xs.map low).sum % m < m := Nat.mod_lt _ hm
    exact ⟨by omega, by omega⟩
  · rintro ⟨heq, hlt⟩
    rw [heq, Nat.mod_eq_of_lt hlt]

end WrappingSum
