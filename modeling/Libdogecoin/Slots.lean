/-
# Slots

A list of slots, some of them empty, and values that are put in at positions.

* `mem_holes`, `holes_eq_nil_iff` : the empty slots;
* `getElem?_put_of_mem`, `getElem?_put_of_not_mem` : what is in a slot afterwards;
* `holes_put` : the slots that stay empty when a value is put into each empty slot, or none;
* `getElem?_foldl_offer_of_hole` : an empty slot takes the first value that is offered to it;
* `foldl_offer_of_perm` : values that are offered to their slots in any order.
-/
import Mathlib.Data.List.Range
import Mathlib.Data.List.Nodup

namespace Slots

variable {α : Type} {p : ℕ × α}

/-- The positions of the empty slots, in order. -/
def holes (slots : List (Option α)) : List ℕ :=
  (List.range slots.length).filter fun i => (slots.getD i none).isNone

variable {slots xs : List (Option α)} {i : ℕ} {ps : List (ℕ × α)}

theorem mem_holes : i ∈ holes slots ↔ slots[i]? = some none := by
  unfold holes
  rw [List.mem_filter, List.mem_range, Option.isNone_iff_eq_none, List.getD_eq_getElem?_getD]
  constructor
  · rintro ⟨hlt, hnone⟩
    rw [List.getElem?_eq_getElem hlt] at hnone ⊢
    rw [Option.getD_some] at hnone
    rw [hnone]
  · intro h
    obtain ⟨hlt, -⟩ := List.getElem?_eq_some_iff.mp h
    rw [h]
    exact ⟨hlt, rfl⟩

theorem nodup_holes (slots : List (Option α)) : (holes slots).Nodup := List.nodup_range.filter _

theorem holes_eq_nil_iff : holes slots = [] ↔ none ∉ slots := by
  rw [List.eq_nil_iff_forall_not_mem, List.mem_iff_getElem?]
  simp only [mem_holes, not_exists]

theorem holes_nil : holes ([] : List (Option α)) = [] := rfl

theorem holes_cons (x : Option α) (slots : List (Option α)) :
    holes (x :: slots) = (if x.isNone then [0] else []) ++ (holes slots).map Nat.succ := by
  unfold holes
  rw [List.length_cons, List.range_succ_eq_map, List.filter_cons, List.filter_map]
  have htail : ((fun i => ((x :: slots).getD i none).isNone) ∘ Nat.succ) = fun i =>
    (slots.getD i none).isNone := by
    funext i
    rw [Function.comp_apply, List.getD_cons_succ]
  rw [htail, List.getD_cons_zero]
  split
  · rfl
  · rfl

/-- Values are put in at positions. -/
def put : List (ℕ × Option α) → List (Option α) → List (Option α)
  | [], slots => slots
  | (i, x) :: ps, slots => put ps (slots.set i x)

@[simp] theorem length_put (ps : List (ℕ × Option α)) (slots : List (Option α)) :
    (put ps slots).length = slots.length := by
  induction ps generalizing slots with
  | nil => rfl
  | cons p ps ih => rw [put, ih, List.length_set]

theorem put_append (ps qs : List (ℕ × Option α)) (slots : List (Option α)) :
    put (ps ++ qs) slots = put qs (put ps slots) := by
  induction ps generalizing slots with
  | nil => rfl
  | cons p ps ih => exact ih _

/-- Another slot keeps what is in it. -/
theorem getElem?_put_of_not_mem {ps : List (ℕ × Option α)} (h : i ∉ ps.map Prod.fst)
    (slots : List (Option α)) :
    (put ps slots)[i]? = slots[i]? := by
  induction ps generalizing slots with
  | nil => rfl
  | cons p ps ih =>
    rw [List.map_cons, List.mem_cons, not_or] at h
    rw [put, ih h.2, List.getElem?_set_ne fun heq => h.1 heq.symm]

/-- A slot has what was put in. -/
theorem getElem?_put_of_mem {ps : List (ℕ × Option α)} (hnodup : (ps.map Prod.fst).Nodup)
    {x : Option α} (h : (i, x) ∈ ps) (hlt : i < slots.length) : (put ps slots)[i]? = some x := by
  induction ps generalizing slots with
  | nil => cases h
  | cons p ps ih =>
    rw [List.map_cons, List.nodup_cons] at hnodup
    rcases List.mem_cons.mp h with rfl | hmem
    · rw [put, getElem?_put_of_not_mem hnodup.1, List.getElem?_set_self hlt]
    · rw [put]
      exact ih hnodup.2 hmem (by rwa [List.length_set])

/-- Nothing is put into an empty slot. -/
theorem set_none_of_hole (h : slots[i]? = some none) : slots.set i none = slots := by
  apply List.ext_getElem?
  intro j
  rw [List.getElem?_set]
  split
  next heq =>
    subst heq
    obtain ⟨hlt, -⟩ := List.getElem?_eq_some_iff.mp h
    rw [if_pos hlt, h]
  · rfl

/-- The slots that stay empty. -/
theorem holes_put {ps : List (ℕ × Option α)} (hfst : ps.map Prod.fst = holes slots) :
    holes (put ps slots) = (ps.filter fun p => p.2.isNone).map Prod.fst := by
  have hnodup : (ps.map Prod.fst).Nodup := hfst ▸ nodup_holes slots
  have hsub : ∀ p ∈ ps, (put ps slots)[p.1]? = some p.2 := by
    intro p hp
    have hmem : p.1 ∈ holes slots := hfst ▸ List.mem_map_of_mem hp
    obtain ⟨hlt, -⟩ := List.getElem?_eq_some_iff.mp (mem_holes.mp hmem)
    exact getElem?_put_of_mem hnodup hp hlt
  have hkept : holes (put ps slots) = (holes slots).filter fun i =>
    ((put ps slots).getD i none).isNone := by
    unfold holes
    rw [List.filter_filter, length_put]
    apply List.filter_congr
    intro i hi
    by_cases hmem : i ∈ holes slots
    · rw [(List.mem_filter.mp hmem).2, Bool.and_true]
    · rw [List.getD_eq_getElem?_getD, getElem?_put_of_not_mem (hfst ▸ hmem),
        ← List.getD_eq_getElem?_getD, Bool.and_self]
  rw [hkept, ← hfst, List.filter_map]
  congr 1
  apply List.filter_congr
  intro p hp
  rw [Function.comp_apply, List.getD_eq_getElem?_getD, hsub p hp, Option.getD_some]

/-- A value for each empty slot. -/
theorem fst_zip_holes (hlen : xs.length = (holes slots).length) :
    ((holes slots).zip xs).map Prod.fst = holes slots := List.map_fst_zip hlen.ge

/-- No slot stays empty if there is a value for each. -/
theorem none_notMem_put_holes (hlen : xs.length = (holes slots).length) (hnull : none ∉ xs) :
    none ∉ put ((holes slots).zip xs) slots := by
  rw [← holes_eq_nil_iff, holes_put (fst_zip_holes hlen), List.map_eq_nil_iff,
    List.filter_eq_nil_iff]
  rintro ⟨i, x⟩ hp hnone
  have hx : x = none := Option.isNone_iff_eq_none.mp hnone
  exact hnull (hx ▸ (List.of_mem_zip hp).2)

/-- Each empty slot has the value with its number. -/
theorem getElem?_put_holes (hlen : xs.length = (holes slots).length) {k : ℕ}
    (hi : (holes slots)[k]? = some i) :
    (put ((holes slots).zip xs) slots)[i]? = xs[k]? := by
  obtain ⟨hk, -⟩ := List.getElem?_eq_some_iff.mp hi
  rw [← hlen] at hk
  have hzip : ((holes slots).zip xs)[k]? = some (i, xs[k]) := by
    rw [List.getElem?_zip_eq_some]
    exact ⟨hi, List.getElem?_eq_getElem hk⟩
  have hnodup : (((holes slots).zip xs).map Prod.fst).Nodup := by
    rw [fst_zip_holes hlen]
    exact nodup_holes slots
  obtain ⟨hlt, -⟩ := List.getElem?_eq_some_iff.mp (mem_holes.mp (List.mem_of_getElem? hi))
  rw [getElem?_put_of_mem hnodup (List.mem_of_getElem? hzip) hlt, List.getElem?_eq_getElem hk]

/-! ## Offers -/

/-- A value is put into an empty slot; a slot that is taken keeps its value. -/
def offer (slots : List (Option α)) (p : ℕ × α) : List (Option α) :=
  match slots[p.1]? with
  | some none => slots.set p.1 (some p.2)
  | _ => slots

theorem offer_of_hole (h : slots[p.1]? = some none) : offer slots p = slots.set p.1 (some p.2) := by
  unfold offer
  rw [h]

theorem offer_of_not_hole (h : slots[p.1]? ≠ some none) : offer slots p = slots := by
  unfold offer
  split
  next heq => exact absurd heq h
  · rfl

@[simp] theorem length_offer (slots : List (Option α)) (p : ℕ × α) :
    (offer slots p).length = slots.length := by
  by_cases h : slots[p.1]? = some none
  · rw [offer_of_hole h, List.length_set]
  · rw [offer_of_not_hole h]

@[simp] theorem length_foldl_offer (ps : List (ℕ × α)) (slots : List (Option α)) :
    (ps.foldl offer slots).length = slots.length := by
  induction ps generalizing slots with
  | nil => rfl
  | cons p ps ih => rw [List.foldl_cons, ih, length_offer]

/-- A slot that nothing is offered to keeps what is in it. -/
theorem getElem?_foldl_offer_of_not_mem (h : i ∉ ps.map Prod.fst) (slots : List (Option α)) :
    (ps.foldl offer slots)[i]? = slots[i]? := by
  induction ps generalizing slots with
  | nil => rfl
  | cons p ps ih =>
    rw [List.map_cons, List.mem_cons, not_or] at h
    rw [List.foldl_cons, ih h.2]
    by_cases hhole : slots[p.1]? = some none
    · rw [offer_of_hole hhole, List.getElem?_set_ne fun heq => h.1 heq.symm]
    · rw [offer_of_not_hole hhole]

/-- A slot that is taken keeps its value. -/
theorem getElem?_foldl_offer_of_taken {x : α} (h : slots[i]? = some (some x)) (ps : List (ℕ × α)) :
    (ps.foldl offer slots)[i]? = some (some x) := by
  induction ps generalizing slots with
  | nil => exact h
  | cons p ps ih =>
    rw [List.foldl_cons]
    apply ih
    by_cases hhole : slots[p.1]? = some none
    · have hne : p.1 ≠ i := by
        rintro rfl
        rw [h] at hhole
        cases hhole
      rw [offer_of_hole hhole, List.getElem?_set_ne hne, h]
    · rw [offer_of_not_hole hhole, h]

/-- **An empty slot** takes the first value that is offered to it. -/
theorem getElem?_foldl_offer_of_hole (h : slots[i]? = some none) (ps : List (ℕ × α)) :
    (ps.foldl offer slots)[i]? = some ((ps.find? (·.1 = i)).map Prod.snd) := by
  induction ps generalizing slots with
  | nil => exact h
  | cons p ps ih =>
    obtain ⟨hlt, -⟩ := List.getElem?_eq_some_iff.mp h
    rw [List.foldl_cons]
    by_cases hi : p.1 = i
    · obtain rfl := hi
      have hfirst : (p :: ps).find? (·.1 = p.1) = some p :=
        List.find?_cons_of_pos (decide_eq_true rfl)
      rw [hfirst, offer_of_hole h]
      exact getElem?_foldl_offer_of_taken (List.getElem?_set_self hlt) ps
    · rw [List.find?_cons_of_neg (by rw [decide_eq_true_eq]; exact hi)]
      apply ih
      by_cases hhole : slots[p.1]? = some none
      · rw [offer_of_hole hhole, List.getElem?_set_ne hi, h]
      · rw [offer_of_not_hole hhole, h]

/-- Where no slot is empty, nothing is taken. -/
theorem foldl_offer_of_full (h : none ∉ slots) (ps : List (ℕ × α)) :
    ps.foldl offer slots = slots := by
  induction ps with
  | nil => rfl
  | cons p ps ih =>
    have hfull : slots[p.1]? ≠ some none := fun heq => h (List.mem_of_getElem? heq)
    rw [List.foldl_cons, offer_of_not_hole hfull, ih]

/-- Values that are offered to different empty slots are put in. -/
theorem foldl_offer_eq_put (hnodup : (ps.map Prod.fst).Nodup)
    (hholes : ∀ p ∈ ps, slots[p.1]? = some none) :
    ps.foldl offer slots = put (ps.map fun p => (p.1, some p.2)) slots := by
  induction ps generalizing slots with
  | nil => rfl
  | cons p ps ih =>
    rw [List.map_cons, List.nodup_cons] at hnodup
    rw [List.foldl_cons, List.map_cons, put, offer_of_hole (hholes p List.mem_cons_self)]
    apply ih hnodup.2
    intro p' hp'
    have hne : p.1 ≠ p'.1 := fun heq => hnodup.1 (heq ▸ List.mem_map_of_mem hp')
    rw [List.getElem?_set_ne hne]
    exact hholes p' (List.mem_cons_of_mem p hp')

/-- The positions of the elements of a list, each once. -/
theorem nodup_fst_of_perm {xs : List α} (h : ps.Perm (xs.zipIdx.map Prod.swap)) :
    (ps.map Prod.fst).Nodup := by
  have hfst : (xs.zipIdx.map Prod.swap).map Prod.fst = List.range xs.length := by
    rw [List.map_map]
    exact (List.zipIdx_map_snd 0 xs).trans List.range_eq_range'.symm
  rw [(h.map Prod.fst).nodup_iff, hfst]
  exact List.nodup_range

/-- **Offers in any order.** If every element of a list is offered to its own slot, the slots have
the list. -/
theorem foldl_offer_of_perm {xs : List α} (h : ps.Perm (xs.zipIdx.map Prod.swap)) :
    ps.foldl offer (List.replicate xs.length none) = xs.map some := by
  have hnodup := nodup_fst_of_perm h
  have hmem : ∀ p ∈ ps, xs[p.1]? = some p.2 := by
    intro p hp
    obtain ⟨q, hq, rfl⟩ := List.mem_map.mp (h.mem_iff.mp hp)
    exact List.mem_zipIdx_iff_getElem?.mp hq
  have hholes : ∀ p ∈ ps, (List.replicate xs.length (none : Option α))[p.1]? = some none := by
    intro p hp
    obtain ⟨hlt, -⟩ := List.getElem?_eq_some_iff.mp (hmem p hp)
    rw [List.getElem?_replicate, if_pos hlt]
  rw [foldl_offer_eq_put hnodup hholes]
  apply List.ext_getElem?
  intro i
  by_cases hi : i < xs.length
  · have hoffer : (i, some xs[i]) ∈ ps.map fun p => (p.1, some p.2) := by
      refine List.mem_map.mpr ⟨(i, xs[i]), ?_, rfl⟩
      exact h.mem_iff.mpr (List.mem_map.mpr ⟨(xs[i], i),
        List.mem_zipIdx_iff_getElem?.mpr (List.getElem?_eq_getElem hi), rfl⟩)
    have hfst : ((ps.map fun p => (p.1, some p.2)).map Prod.fst).Nodup := by
      rw [List.map_map]
      exact hnodup
    rw [getElem?_put_of_mem hfst hoffer (by rwa [List.length_replicate]), List.getElem?_map,
      List.getElem?_eq_getElem hi]
    rfl
  · rw [List.getElem?_eq_none, List.getElem?_eq_none]
    · rw [List.length_map]
      exact Nat.not_lt.mp hi
    · rw [length_put, List.length_replicate]
      exact Nat.not_lt.mp hi

end Slots
