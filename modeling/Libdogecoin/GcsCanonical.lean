/-
# Filters of sets

The filter of `golomb.c` encodes a set: equal elements are next to each other behind `qsort`, and
one of them is kept.

* `pairwise_collapse` : the elements that are kept are strictly sorted;
* `distinctElements_eq_of_mem_iff` : lists with the same elements keep the same ones, in one order;
* `sameFilter_iff` : lists with the same elements give one filter, if both have fewer than 2^32
  entries and in no other case.
-/
import Libdogecoin.GcsFilter

namespace Libdogecoin

/-! ## The order of the elements -/

variable {x : Bytes} {last : Option Bytes} {xs elements : List Bytes}

theorem memcmp_eq_compareLex {y : Bytes} (hlen : x.length = y.length) :
    memcmp x y = List.compareLex compare x y := by
  induction x generalizing y with
  | nil =>
    rw [List.length_eq_zero_iff.mp hlen.symm]
    rfl
  | cons a x ih =>
    cases y with
    | nil => cases hlen
    | cons b y =>
      have hfirst : compare a b = if a < b then .lt else if a = b then .eq else .gt := rfl
      rw [memcmp, List.compareLex_cons_cons, hfirst, ih (Nat.succ.inj hlen)]
      by_cases hlt : a < b
      · rw [if_pos hlt, if_pos hlt]
        rfl
      by_cases heq : a = b
      · rw [if_neg hlt, if_neg hlt, if_pos heq, if_neg (by rw [heq]; exact UInt8.lt_irrefl b)]
        rfl
      · have hgt : b < a := by
          rcases UInt8.lt_or_lt_of_ne heq with h | h
          · exact absurd h hlt
          · exact h
        rw [if_neg hlt, if_neg hlt, if_neg heq, if_pos hgt]
        rfl

/-- `compare_element` goes by the length, and then by the bytes. -/
theorem compareElement_eq_compareLex :
    compareElement = compareLex (compareOn List.length) (List.compareLex compare) := by
  funext x y
  rw [compareElement, compareLex, compareOn]
  by_cases hlen : x.length = y.length
  · rw [if_neg (not_not.mpr hlen), memcmp_eq_compareLex hlen, hlen, compare_eq_iff_eq.mpr rfl]
    rfl
  · rw [if_pos hlen]
    by_cases hlt : x.length < y.length
    · rw [if_pos hlt, compare_lt_iff_lt.mpr hlt]
      rfl
    · rw [if_neg hlt, compare_gt_iff_gt.mpr (by omega)]
      rfl

instance : Std.TransCmp compareElement := by
  rw [compareElement_eq_compareLex]
  infer_instance

/-- `qsort` with `compare_element`. -/
theorem pairwise_mergeSort_compareElement (elements : List Bytes) :
    (elements.mergeSort fun x y => (compareElement x y).isLE).Pairwise fun x y =>
      (compareElement x y).isLE = true := by
  apply List.pairwise_mergeSort
  · intro x y z hxy hyz
    exact Std.TransCmp.isLE_trans hxy hyz
  · intro x y
    rw [Bool.or_eq_true]
    cases h : compareElement x y with
    | lt => exact Or.inl rfl
    | eq => exact Or.inl rfl
    | gt =>
      right
      rw [Std.OrientedCmp.lt_of_gt h]
      rfl

/-! ## The elements that are kept -/

theorem mem_of_mem_collapse (h : x ∈ collapse last xs) : x ∈ xs := by
  induction xs generalizing last with
  | nil => cases h
  | cons y ys ih =>
    rw [collapse] at h
    split at h
    · rcases List.mem_cons.mp h with rfl | hrest
      · exact List.mem_cons_self
      · exact List.mem_cons_of_mem _ (ih hrest)
    · exact List.mem_cons_of_mem _ (ih h)

/-- **Distinct elements** : behind the last one of a sorted list, those that are kept come strictly
after it and after one another. -/
theorem pairwise_collapse (hsorted : xs.Pairwise fun x y => (compareElement x y).isLE = true)
    (hlast : ∀ y ∈ last, ∀ x ∈ xs, (compareElement y x).isLE = true) :
    (collapse last xs).Pairwise (fun x y => compareElement x y = .lt) ∧
      ∀ y ∈ last, ∀ x ∈ collapse last xs, compareElement y x = .lt := by
  induction xs generalizing last with
  | nil => exact ⟨List.Pairwise.nil, fun _ _ _ hx => absurd hx List.not_mem_nil⟩
  | cons x xs ih =>
    rw [List.pairwise_cons] at hsorted
    rw [collapse]
    split
    next hkeep =>
      obtain ⟨hrest, hafter⟩ := @ih (some x) hsorted.2 fun y hy z hz => by
        obtain rfl := Option.mem_some.mp hy
        exact hsorted.1 z hz
      have hx := hafter x rfl
      refine ⟨List.pairwise_cons.mpr ⟨hx, hrest⟩, fun y hy z hz => ?_⟩
      -- the last one is below the first that is kept
      have hyx : compareElement y x = .lt := by
        have hle := hlast y hy x List.mem_cons_self
        obtain rfl := Option.mem_def.mp hy
        simp only [Option.isNone_some, Option.any_some, Bool.false_or, decide_eq_true_eq] at hkeep
        cases h : compareElement y x with
        | lt => rfl
        | eq => exact absurd h hkeep
        | gt =>
          rw [h] at hle
          cases hle
      rcases List.mem_cons.mp hz with rfl | hz
      · exact hyx
      · exact Std.TransCmp.lt_trans hyx (hx z hz)
    next => exact ih hsorted.2 fun y hy z hz => hlast y hy z (List.mem_cons_of_mem _ hz)

/-- The elements that are kept of a list behind `qsort`. -/
def distinctElements (elements : List Bytes) : List Bytes :=
  collapse none (elements.mergeSort fun x y => (compareElement x y).isLE)

theorem mem_distinctElements : x ∈ distinctElements elements ↔ x ∈ elements := by
  constructor
  · intro h
    exact List.mem_mergeSort.mp (mem_of_mem_collapse h)
  · intro h
    rcases @mem_collapse none _ _ (List.mem_mergeSort.mpr h) with hmem | hlast
    · exact hmem
    · cases hlast

theorem pairwise_distinctElements (elements : List Bytes) :
    (distinctElements elements).Pairwise fun x y => compareElement x y = .lt :=
  (pairwise_collapse (pairwise_mergeSort_compareElement elements) fun _ hy =>
    absurd hy (Option.not_mem_none _)).1

/-- **One order** : what is kept depends on the set of the elements only. -/
theorem distinctElements_eq_of_mem_iff {elements' : List Bytes}
    (h : ∀ x, x ∈ elements ↔ x ∈ elements') :
    distinctElements elements = distinctElements elements' := by
  have hirrefl : Std.Irrefl fun x y : Bytes => compareElement x y = .lt :=
    ⟨fun x (hx : compareElement x x = .lt) => by
      rw [@Std.ReflCmp.compare_self _ compareElement] at hx
      cases hx⟩
  have hantisymm : Std.Antisymm fun x y : Bytes => compareElement x y = .lt :=
    ⟨fun x y (hxy : compareElement x y = .lt) (hyx : compareElement y x = .lt) => by
      rw [Std.OrientedCmp.gt_of_lt hxy] at hyx
      cases hyx⟩
  apply List.Pairwise.eq_of_mem_iff (pairwise_distinctElements elements)
    (pairwise_distinctElements elements')
  intro x
  rw [mem_distinctElements, mem_distinctElements]
  exact h x

/-! ## Filters -/

/-- Two lists give filters with the same count, range and bytes. -/
def SameFilter (filterType : UInt8) (blockhash : Uint256)
    (elements elements' : List Bytes) : Prop :=
  ∃ filter filter', gcsFilterBuild filterType blockhash elements = some filter ∧
    gcsFilterBuild filterType blockhash elements' = some filter' ∧
    filter'.N = filter.N ∧ filter'.F = filter.F ∧ filter'.encoded = filter.encoded

/-- **Filters of sets** : two lists with the same elements, in any order and with any repetitions,
give the same filter under a block hash, if and only if both have fewer than 2^32 entries. -/
theorem sameFilter_iff (filterType : UInt8) (blockhash : Uint256) {elements elements' : List Bytes}
    (h : ∀ x, x ∈ elements ↔ x ∈ elements') :
    SameFilter filterType blockhash elements elements' ↔
      elements.length < 2 ^ 32 ∧ elements'.length < 2 ^ 32 := by
  constructor
  · rintro ⟨filter, filter', hbuild, hbuild', -⟩
    constructor
    · by_contra hlong
      rw [gcsFilterBuild_of_long filterType blockhash (not_lt.mp hlong)] at hbuild
      cases hbuild
    · by_contra hlong
      rw [gcsFilterBuild_of_long filterType blockhash (not_lt.mp hlong)] at hbuild'
      cases hbuild'
  · rintro ⟨hlt, hlt'⟩
    by_cases hne : elements = []
    · have hne' : elements' = [] := by
        rw [List.eq_nil_iff_forall_not_mem]
        intro x hx
        rw [← h, hne] at hx
        cases hx
      rw [hne, hne']
      exact ⟨_, _, rfl, rfl, rfl, rfl, rfl⟩
    · have hne' : elements' ≠ [] := by
        obtain ⟨x, hx⟩ := List.exists_mem_of_ne_nil _ hne
        exact List.ne_nil_of_mem ((h x).mp hx)
      have hbuild := gcsFilterBuild_of_short filterType blockhash hne hlt
      have hbuild' := gcsFilterBuild_of_short filterType blockhash hne' hlt'
      have hdistinct := distinctElements_eq_of_mem_iff h
      rw [distinctElements, distinctElements] at hdistinct
      rw [← hdistinct] at hbuild'
      exact ⟨_, _, hbuild, hbuild', rfl, rfl, rfl⟩

/-- The theorem on a list and another one with an element twice. -/
theorem sameFilter_iff_pair : SameFilter 0 Uint256.zero [[1], [2, 3]] [[2, 3], [1], [2, 3]] :=
  (sameFilter_iff 0 Uint256.zero (by
    intro x
    simp only [List.mem_cons, List.not_mem_nil, or_false]
    tauto)).mpr (by decide)

/-- There is no filter of 2^32 copies of an element, and there is one of the element. -/
theorem not_sameFilter : ¬ ∀ elements elements' : List Bytes, (∀ x, x ∈ elements ↔ x ∈ elements') →
    SameFilter 0 Uint256.zero elements elements' := by
  intro hall
  have hmem : ∀ x : Bytes, x ∈ List.replicate (2 ^ 32) ([1] : Bytes) ↔ x ∈ [([1] : Bytes)] := by
    intro x
    rw [List.mem_replicate, List.mem_singleton]
    exact ⟨fun h => h.2, fun h => ⟨by decide, h⟩⟩
  obtain ⟨filter, -, hbuild, -⟩ := hall _ _ hmem
  rw [gcsFilterBuild_of_long 0 Uint256.zero (le_of_eq List.length_replicate.symm)] at hbuild
  cases hbuild

end Libdogecoin
