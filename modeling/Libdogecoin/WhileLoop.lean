/-
# Loops with a bound

A loop that runs as long as a condition holds, for at most a number of turns; it returns nothing if
the condition still holds then.

* `whileLoop_mono` : a loop that returned also does so with more turns.
-/
import Mathlib.Data.Nat.Basic

namespace WhileLoop

variable {σ : Type} {cond : σ → Bool} {body : σ → σ} {n : ℕ} {s' : σ}

/-- `while (cond) body`, for at most a number of turns. -/
def whileLoop (cond : σ → Bool) (body : σ → σ) : ℕ → σ → Option σ
  | 0, s => if cond s then none else some s
  | n + 1, s => if cond s then whileLoop cond body n (body s) else some s

variable {s : σ}

/-- Where the condition does not hold, the loop returns at once. -/
theorem whileLoop_of_false (h : cond s = false) (n : ℕ) : whileLoop cond body n s = some s := by
  cases n with
  | zero => rw [whileLoop, h, if_neg Bool.false_ne_true]
  | succ n => rw [whileLoop, h, if_neg Bool.false_ne_true]

/-- More turns change nothing. -/
theorem whileLoop_mono {m : ℕ} (hnm : n ≤ m) (h : whileLoop cond body n s = some s') :
    whileLoop cond body m s = some s' := by
  induction n generalizing m s with
  | zero =>
    rw [whileLoop] at h
    cases hcond : cond s with
    | true =>
      rw [hcond, if_pos rfl] at h
      cases h
    | false =>
      rw [hcond, if_neg Bool.false_ne_true] at h
      rw [whileLoop_of_false hcond, h]
  | succ n ih =>
    obtain ⟨m, rfl⟩ : ∃ k, m = k + 1 := ⟨m - 1, by omega⟩
    rw [whileLoop] at h ⊢
    cases hcond : cond s with
    | true =>
      rw [hcond, if_pos rfl] at h
      rw [if_pos rfl]
      exact ih (by omega) h
    | false =>
      rw [hcond, if_neg Bool.false_ne_true] at h
      rw [if_neg Bool.false_ne_true, h]

end WhileLoop
