/-
# Pointer vectors

`vector_t` of `vector.c`: a block of slots, of which the first are in use. It grows by doubling.

* `entries_vectorAdd` : an element is put behind the others, also where the block has to grow;
* `entries_vectorResize` : a smaller size cuts the elements, a larger one only makes room.
-/
import Mathlib.Data.List.Basic

namespace Libdogecoin

/-- `vector_t` : `alloc` slots, of which `len` are in use; a slot can hold a null pointer. -/
structure PointerVector (α : Type) where
  data : List (Option α)
  len : ℕ
  len_le : len ≤ data.length
  alloc_pos : 0 < data.length

namespace PointerVector

variable {α : Type}

/-- `vec->alloc`. -/
def alloc (vec : PointerVector α) : ℕ := vec.data.length

/-- What the slots in use hold, in order. -/
def entries (vec : PointerVector α) : List (Option α) := vec.data.take vec.len

/-- `new_alloc *= 2` as long as it is below the size. -/
def doubled (alloc minSz : ℕ) (h : 0 < alloc) : ℕ :=
  if alloc < minSz then doubled (alloc * 2) minSz (by omega) else alloc
  termination_by minSz - alloc

theorem le_doubled (alloc minSz : ℕ) (h : 0 < alloc) : alloc ≤ doubled alloc minSz h := by
  fun_induction doubled alloc minSz h with
  | case1 alloc h hlt ih => omega
  | case2 alloc h hle => exact Nat.le_refl _

theorem size_le_doubled (alloc minSz : ℕ) (h : 0 < alloc) : minSz ≤ doubled alloc minSz h := by
  fun_induction doubled alloc minSz h with
  | case1 alloc h hlt ih => exact ih
  | case2 alloc h hle => exact Nat.le_of_not_lt hle

/-- `vector_new`. -/
def vectorNew (res : ℕ) : PointerVector α where
  data := List.replicate (doubled 8 res (by decide)) none
  len := 0
  len_le := Nat.zero_le _
  alloc_pos := by
    rw [List.length_replicate]
    exact Nat.lt_of_lt_of_le (by decide) (le_doubled 8 res (by decide))

/-- `vector_grow`. The program ends where there is no memory. -/
def vectorGrow (vec : PointerVector α) (minSz : ℕ) : PointerVector α where
  data := vec.data ++ List.replicate (doubled vec.alloc minSz vec.alloc_pos - vec.alloc) none
  len := vec.len
  len_le := by
    rw [List.length_append]
    exact Nat.le_trans vec.len_le (Nat.le_add_right _ _)
  alloc_pos := by
    rw [List.length_append]
    exact Nat.lt_of_lt_of_le vec.alloc_pos (Nat.le_add_right _ _)

/-- The block has the size that was asked for. -/
theorem size_le_alloc_vectorGrow (vec : PointerVector α) (minSz : ℕ) :
    minSz ≤ (vec.vectorGrow minSz).alloc := by
  have hle := le_doubled vec.alloc minSz vec.alloc_pos
  have hsize := size_le_doubled vec.alloc minSz vec.alloc_pos
  unfold alloc vectorGrow
  rw [List.length_append, List.length_replicate]
  unfold alloc at hle hsize ⊢
  omega

theorem len_lt_alloc_vectorGrow (vec : PointerVector α) :
    (vec.vectorGrow (vec.len + 1)).len < (vec.vectorGrow (vec.len + 1)).alloc :=
  vec.size_le_alloc_vectorGrow (vec.len + 1)

@[simp] theorem entries_vectorGrow (vec : PointerVector α) (minSz : ℕ) :
    (vec.vectorGrow minSz).entries = vec.entries :=
  List.take_append_of_le_length vec.len_le

/-- `vec->data[vec->len] = data; vec->len++`, in a block with a free slot. -/
def push (vec : PointerVector α) (data : Option α) (h : vec.len < vec.alloc) : PointerVector α where
  data := vec.data.set vec.len data
  len := vec.len + 1
  len_le := by
    rw [List.length_set]
    exact h
  alloc_pos := by
    rw [List.length_set]
    exact vec.alloc_pos

theorem entries_push (vec : PointerVector α) (data : Option α) (h : vec.len < vec.alloc) :
    (vec.push data h).entries = vec.entries ++ [data] := by
  have hlen : vec.len < vec.data.length := h
  unfold entries push
  dsimp only
  rw [List.take_add_one, List.take_set_of_le (Nat.le_refl _), List.getElem?_set_self hlen]
  rfl

/-- `vector_add`. -/
def vectorAdd (vec : PointerVector α) (data : Option α) : PointerVector α :=
  if h : vec.len = vec.alloc then
    (vec.vectorGrow (vec.len + 1)).push data vec.len_lt_alloc_vectorGrow
  else vec.push data (Nat.lt_of_le_of_ne vec.len_le h)

/-- **An element is put behind the others.** -/
@[simp] theorem entries_vectorAdd (vec : PointerVector α) (data : Option α) :
    (vec.vectorAdd data).entries = vec.entries ++ [data] := by
  unfold vectorAdd
  split_ifs with h
  · rw [entries_push, entries_vectorGrow]
  · exact entries_push vec data _

/-- `vec->data[i] = NULL` for the slots from `lo` to `hi`. -/
def cleared (data : List (Option α)) (lo hi : ℕ) : List (Option α) :=
  data.mapIdx fun i slot => if lo ≤ i ∧ i < hi then none else slot

theorem take_cleared (data : List (Option α)) {n lo : ℕ} (h : n ≤ lo) (hi : ℕ) :
    (cleared data lo hi).take n = data.take n := by
  apply List.ext_getElem?
  intro i
  unfold cleared
  rw [List.getElem?_take, List.getElem?_take]
  split_ifs with hi'
  · rw [List.getElem?_mapIdx]
    cases data[i]? with
    | none => rfl
    | some slot => rw [Option.map_some, if_neg (by omega)]
  · rfl

/-- `vector_resize`. Where it grows, the new slots are cleared and the length stays. -/
def vectorResize (vec : PointerVector α) (newsz : ℕ) : PointerVector α :=
  if newsz = vec.len then vec
  else if h : newsz < vec.len then
    { data := cleared vec.data newsz vec.len
      len := newsz
      len_le := by
        have hle := vec.len_le
        unfold cleared
        rw [List.length_mapIdx]
        omega
      alloc_pos := by
        unfold cleared
        rw [List.length_mapIdx]
        exact vec.alloc_pos }
  else
    -- the source does not set the length here
    { data := cleared (vec.vectorGrow newsz).data vec.len newsz
      len := vec.len
      len_le := by
        unfold cleared
        rw [List.length_mapIdx]
        exact (vec.vectorGrow newsz).len_le
      alloc_pos := by
        unfold cleared
        rw [List.length_mapIdx]
        exact (vec.vectorGrow newsz).alloc_pos }

/-- **A smaller size cuts the elements, a larger one only makes room.** -/
@[simp] theorem entries_vectorResize (vec : PointerVector α) (newsz : ℕ) :
    (vec.vectorResize newsz).entries = vec.entries.take newsz := by
  unfold vectorResize
  split_ifs with hsame hsmall
  · rw [hsame, entries, List.take_take, Nat.min_self]
  · show (cleared vec.data newsz vec.len).take newsz = (vec.data.take vec.len).take newsz
    rw [take_cleared _ (Nat.le_refl _), List.take_take, Nat.min_eq_left (Nat.le_of_lt hsmall)]
  · show (cleared (vec.vectorGrow newsz).data vec.len newsz).take vec.len = _
    rw [take_cleared _ (Nat.le_refl _), entries, List.take_take,
      Nat.min_eq_right (Nat.le_of_not_lt hsmall)]
    exact entries_vectorGrow vec newsz

end PointerVector

end Libdogecoin
