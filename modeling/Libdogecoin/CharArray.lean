/-
# Arrays that a loop fills

An array of fixed size, written one place at a time. A store outside of the array has no result.

* `storeLoop_block` : a loop over consecutive places replaces the block that stood there;
* `storeLoop_eq_none` : a loop that runs over the end has no result;
* `foldlM_eq_storeLoop` : a loop that stores one value a turn is such a loop;
* `cString_terminated` : what is read from an array up to its terminator.
-/
import Mathlib.Data.List.Induction
import Mathlib.Data.List.Basic

namespace CharArray

variable {α : Type*} {array' s : List α}

/-- `array[i] = a`. -/
def store (array : List α) (i : ℕ) (a : α) : Option (List α) :=
  if i < array.length then some (array.set i a) else none

/-- `for (j = 0; j < count; j++) array[i + j] = value(j)`, where a value may be undefined. -/
def storeLoop (i : ℕ) (value : ℕ → Option α) (count : ℕ) (array : List α) : Option (List α) :=
  (List.range count).foldlM (fun array j => do store array (i + j) (← value j)) array

variable {array : List α} {i count : ℕ} {nul : α}

/-- A place in an array, what stands in front of it and what stands behind it. -/
theorem exists_place (h : i < array.length) :
    ∃ pre a post, array = pre ++ a :: post ∧ pre.length = i := by
  refine ⟨array.take i, array[i], array.drop (i + 1), ?_, ?_⟩
  · rw [← List.drop_eq_getElem_cons h, List.take_append_drop]
  · rw [List.length_take]
    exact Nat.min_eq_left (Nat.le_of_lt h)

/-- What stands behind a place does not depend on what stands in front of it. -/
theorem drop_place (pre post : List α) (a : α) {n : ℕ} (h : pre.length < n) :
    (pre ++ a :: post).drop n = post.drop (n - (pre.length + 1)) := by
  obtain ⟨k, rfl⟩ := Nat.exists_eq_add_of_lt h
  rw [List.drop_append, List.drop_of_length_le (by omega), List.nil_append,
    show pre.length + k + 1 - pre.length = k + 1 by omega, List.drop_succ_cons]
  congr 1
  omega

/-- A store into the block in the middle. -/
theorem store_block (pre post : List α) (old a : α) :
    store (pre ++ old :: post) pre.length a = some (pre ++ a :: post) := by
  unfold store
  rw [if_pos (by rw [List.length_append, List.length_cons]; omega),
    List.set_append_right _ _ (Nat.le_refl _), Nat.sub_self, List.set_cons_zero]

theorem store_eq_none (h : array.length ≤ i) (a : α) :
    store array i a = none := if_neg (Nat.not_lt.mpr h)

theorem length_store {a : α} (h : store array i a = some array') :
    array'.length = array.length := by
  unfold store at h
  split at h
  · rw [← Option.some.inj h, List.length_set]
  · cases h

theorem storeLoop_succ (i : ℕ) (value : ℕ → Option α) (count : ℕ) (array : List α) :
    storeLoop i value (count + 1) array =
      (storeLoop i value count array).bind fun array' =>
        (value count).bind fun a => store array' (i + count) a := by
  unfold storeLoop
  rw [List.range_succ, List.foldlM_append]
  simp only [List.foldlM_cons, List.foldlM_nil, bind_pure]
  rfl

/-- **A loop over a block.** The places in front of the block and behind it are kept. -/
theorem storeLoop_block (pre post : List α) (value : ℕ → Option α) {old new : List α}
    (hlen : old.length = new.length) (hvalue : ∀ j < new.length, value j = new[j]?) :
    storeLoop pre.length value new.length (pre ++ old ++ post) = some (pre ++ new ++ post) := by
  induction new using List.reverseRecOn generalizing post old with
  | nil =>
    rw [List.length_eq_zero_iff.mp hlen]
    rfl
  | append_singleton new a ih =>
    rw [List.length_append, List.length_singleton] at hlen hvalue ⊢
    -- the last place of the block is written last
    have hold : old ≠ [] := List.ne_nil_of_length_pos (by omega)
    obtain ⟨front, last, rfl⟩ := (List.eq_nil_or_concat' old).resolve_left hold
    rw [List.length_append, List.length_singleton] at hlen
    have hfront := ih (last :: post) (show front.length = new.length by omega) fun j hj => by
      rw [hvalue j (by omega), List.getElem?_append_left hj]
    have hlast : value new.length = some a := by
      rw [hvalue _ (by omega), List.getElem?_append_right (Nat.le_refl _), Nat.sub_self]
      rfl
    have hplace : pre.length + new.length = (pre ++ new).length := List.length_append.symm
    have harray : pre ++ (front ++ [last]) ++ post = pre ++ front ++ last :: post := by simp
    rw [storeLoop_succ, harray, hfront, hlast, Option.bind_some, Option.bind_some,
      hplace, store_block]
    simp

theorem length_storeLoop {value : ℕ → Option α} (h : storeLoop i value count array = some array') :
    array'.length = array.length := by
  induction count generalizing array' with
  | zero =>
    cases h
    rfl
  | succ count ih =>
    rw [storeLoop_succ] at h
    obtain ⟨front, hfront, hrest⟩ := Option.bind_eq_some_iff.mp h
    obtain ⟨a, -, hstore⟩ := Option.bind_eq_some_iff.mp hrest
    rw [length_store hstore, ih hfront]

/-- A loop whose body stores one value a turn. -/
theorem foldlM_eq_storeLoop (i : ℕ) (value : ℕ → Option α) {body : List α → ℕ → Option (List α)}
    (h : ∀ j < count, ∀ array, body array j = (value j).bind fun a => store array (i + j) a)
    (array : List α) :
    (List.range count).foldlM body array = storeLoop i value count array := by
  induction count with
  | zero => rfl
  | succ count ih =>
    rw [storeLoop_succ, List.range_succ, List.foldlM_append, ih fun j hj => h j (by omega)]
    simp only [List.foldlM_cons, List.foldlM_nil, bind_pure]
    congr 1
    funext front
    exact h count (by omega) front

/-- A loop that runs over the end of the array. -/
theorem storeLoop_eq_none (value : ℕ → Option α) (hcount : 0 < count)
    (h : array.length < i + count) :
    storeLoop i value count array = none := by
  obtain ⟨n, rfl⟩ := Nat.exists_eq_add_of_lt hcount
  rw [Nat.zero_add, storeLoop_succ, Option.bind_eq_none_iff]
  intro front hfront
  rw [Option.bind_eq_none_iff]
  intro a ha
  apply store_eq_none
  rw [length_storeLoop hfront]
  omega

/-- What stands in an array in front of the terminator, which must be there. -/
def cString [DecidableEq α] (nul : α) (array : List α) : Option (List α) :=
  if nul ∈ array then some (array.takeWhile (· ≠ nul)) else none

theorem cString_terminated [DecidableEq α] (h : nul ∉ s) (post : List α) :
    cString nul (s ++ nul :: post) = some s := by
  have hs : ∀ a ∈ s, decide (a ≠ nul) = true := fun a ha =>
    decide_eq_true fun heq => h (heq ▸ ha)
  unfold cString
  rw [if_pos (by simp), List.takeWhile_append_of_pos hs, List.takeWhile_cons_of_neg (by simp),
    List.append_nil]

theorem cString_eq_none [DecidableEq α] (h : nul ∉ array) : cString nul array = none := if_neg h

/-- An array with a terminator is what stands in front of it, the terminator and the rest. -/
theorem exists_of_cString [DecidableEq α] (h : cString nul array = some s) :
    nul ∉ s ∧ ∃ post, array = s ++ nul :: post := by
  by_cases hmem : nul ∈ array
  · obtain ⟨pre, post, rfl, hpre⟩ := List.eq_append_cons_of_mem hmem
    rw [cString_terminated hpre] at h
    cases h
    exact ⟨hpre, post, rfl⟩
  · rw [cString_eq_none hmem] at h
    cases h

end CharArray
