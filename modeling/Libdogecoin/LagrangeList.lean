/-
# Interpolation at a list of points

The value of a polynomial of small degree is a weighted sum of its values at the points of a list.
The weights are written as programs compute them: the product of the differences to the target, over
that of the differences to the point.

* `eval_eq_sum` : the weighted sum;
* `exists_interpolant` : there is a polynomial through any values.
-/
import Mathlib.LinearAlgebra.Lagrange

namespace LagrangeList

open Polynomial

variable {F : Type*} [Field F]

/-- The weight of a point at a target, with the other points. -/
def weight (target x : F) (others : List F) : F :=
  (others.map fun x' => target - x').prod * (others.map fun x' => x - x').prod⁻¹

/-- A point that is none of the others has a denominator. -/
theorem prod_sub_ne_zero {x : F} {others : List F} (h : x ∉ others) :
    (others.map fun x' => x - x').prod ≠ 0 := by
  rw [Ne, List.prod_eq_zero_iff, List.mem_map]
  rintro ⟨x', hmem, hzero⟩
  rw [sub_eq_zero.mp hzero] at h
  exact h hmem

variable [DecidableEq F]

variable {xs : List F}

/-- A polynomial of the basis is the weight. -/
theorem eval_basis (hnodup : xs.Nodup) (target x : F) :
    (Lagrange.basis xs.toFinset id x).eval target = weight target x (xs.erase x) := by
  have herase : xs.toFinset.erase x = (xs.erase x).toFinset := by
    ext x'
    rw [Finset.mem_erase, List.mem_toFinset, List.mem_toFinset, hnodup.mem_erase_iff]
  have hdivisor : ∀ x' : F, (Lagrange.basisDivisor (id x) (id x')).eval target =
    (x - x')⁻¹ * (target - x') := by
    intro x'
    rw [Lagrange.basisDivisor, eval_mul, eval_C, eval_sub, eval_X, eval_C, id, id]
  rw [Lagrange.basis, eval_prod, Finset.prod_congr rfl fun x' _ => hdivisor x',
    Finset.prod_mul_distrib, Finset.prod_inv_distrib, herase, List.prod_toFinset _ (hnodup.erase x),
      List.prod_toFinset _ (hnodup.erase x),
    mul_comm]
  rfl

/-- **Interpolation** : the values at as many points as the degree allows give the value at every
other one. -/
theorem eval_eq_sum {f : F[X]} (hnodup : xs.Nodup) (hdegree : f.degree < xs.length) (target : F) :
    f.eval target = (xs.map fun x => f.eval x * weight target x (xs.erase x)).sum := by
  have hinj : Set.InjOn (id : F → F) xs.toFinset := Function.injective_id.injOn
  rw [← List.toFinset_card_of_nodup hnodup] at hdegree
  conv_lhs => rw [Lagrange.eq_interpolate hinj hdegree]
  rw [Lagrange.interpolate_apply, eval_finsetSum, List.sum_toFinset _ hnodup]
  congr 2
  funext x
  rw [eval_mul, eval_C, eval_basis hnodup, id]

/-- A polynomial through values at points. -/
theorem exists_interpolant (hnodup : xs.Nodup) (y : F → F) :
    ∃ f : F[X], f.degree < xs.length ∧ ∀ x ∈ xs, f.eval x = y x := by
  have hinj : Set.InjOn (id : F → F) xs.toFinset := Function.injective_id.injOn
  refine ⟨Lagrange.interpolate xs.toFinset id y, ?_, ?_⟩
  · rw [← List.toFinset_card_of_nodup hnodup]
    exact Lagrange.degree_interpolate_lt y hinj
  · intro x hx
    exact Lagrange.eval_interpolate_at_node y hinj (List.mem_toFinset.mpr hx)

end LagrangeList
