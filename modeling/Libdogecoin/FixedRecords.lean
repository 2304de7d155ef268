/-
# Records of one length

A list cut into blocks of one length, from the front; what is left over at its end is dropped.

* `blocks_flatten_append` : blocks that were written are read;
* `exists_drop_flatten_append`, `collect_drop_flatten` : so is a single one of them, at its place,
  and a vector of records that are read one by one;
* `flatten_of_collect` : a vector of records that was read is written to the bytes it was read from;
* `blocks_part_append_iff` : behind a part of a block, blocks are only read as they were written if
  they repeat that part.
-/
import Mathlib.Data.List.Basic
import Mathlib.Data.List.OfFn
import Mathlib.Tactic.Choose
import Mathlib.Tactic.Ring

namespace FixedRecords

variable {β α : Type} {w i : ℕ} {part : List β}

/-- At most `n` blocks of length `w`, from the front. -/
def blocks (w : ℕ) : ℕ → List β → List (List β)
  | 0, _ => []
  | n + 1, xs => if xs.length < w then [] else xs.take w :: blocks w n (xs.drop w)

/-- A list repeats another one over and over. -/
def Repeats (part xs : List β) : Prop := ∀ i < xs.length, xs[i]? = part[i % part.length]?

instance [DecidableEq β] (part xs : List β) : Decidable (Repeats part xs) :=
  inferInstanceAs (Decidable (∀ i < xs.length, _))

variable {xs : List β} {recs : List (List β)} {n : ℕ}

theorem blocks_of_lt (h : xs.length < w) (n : ℕ) : blocks w n xs = [] := by
  cases n with
  | zero => rfl
  | succ n => rw [blocks, if_pos h]

/-- Blocks that stand in front are read. -/
theorem blocks_flatten_append (hrecs : ∀ rec ∈ recs, rec.length = w) (hn : recs.length ≤ n)
    (rest : List β) :
    blocks w n (recs.flatten ++ rest) = recs ++ blocks w (n - recs.length) rest := by
  induction recs generalizing n with
  | nil => rfl
  | cons rec recs ih =>
    obtain ⟨hrec, hrest⟩ := List.forall_mem_cons.mp hrecs
    obtain ⟨n, rfl⟩ : ∃ m, n = m + 1 := ⟨n - 1, by rw [List.length_cons] at hn; omega⟩
    rw [List.length_cons] at hn
    have hlen : ¬ ((rec :: recs).flatten ++ rest).length < w := by
      rw [List.flatten_cons, List.append_assoc, List.length_append]
      omega
    rw [blocks, if_neg hlen, List.flatten_cons, List.append_assoc, List.take_left' hrec,
      List.drop_left' hrec, ih hrest (by omega), List.length_cons, Nat.add_sub_add_right,
        List.cons_append]

/-- What is left over is no block. -/
theorem blocks_flatten_append_of_lt (hrecs : ∀ rec ∈ recs, rec.length = w)
    (hn : recs.length ≤ n) {rest : List β} (hrest : rest.length < w) :
    blocks w n (recs.flatten ++ rest) = recs := by
  rw [blocks_flatten_append hrecs hn, blocks_of_lt hrest, List.append_nil]

theorem length_flatten (hrecs : ∀ rec ∈ recs, rec.length = w) :
    recs.flatten.length = w * recs.length := by
  induction recs with
  | nil => rfl
  | cons rec recs ih =>
    obtain ⟨hrec, hrest⟩ := List.forall_mem_cons.mp hrecs
    rw [List.flatten_cons, List.length_append, hrec, ih hrest, List.length_cons]
    ring

/-- Behind the first records stands the next one. -/
theorem drop_flatten_append (hrecs : ∀ rec ∈ recs, rec.length = w) (hi : i ≤ recs.length)
    (rest : List β) :
    (recs.flatten ++ rest).drop (w * i) = (recs.drop i).flatten ++ rest := by
  induction recs generalizing i with
  | nil =>
    obtain rfl := Nat.le_zero.mp hi
    rfl
  | cons rec recs ih =>
    obtain ⟨hrec, hrest⟩ := List.forall_mem_cons.mp hrecs
    cases i with
    | zero => rfl
    | succ i =>
      rw [List.length_cons] at hi
      rw [List.drop_succ_cons, List.flatten_cons, List.append_assoc, Nat.mul_succ, Nat.add_comm,
        ← List.drop_drop, List.drop_left' hrec, ih hrest (by omega)]

/-- A record that was written is found at its place. -/
theorem exists_drop_flatten_append (hrecs : ∀ rec ∈ recs, rec.length = w) (hi : i < recs.length)
    (rest : List β) :
    ∃ rest', (recs.flatten ++ rest).drop (w * i) = recs[i] ++ rest' := by
  refine ⟨(recs.drop (i + 1)).flatten ++ rest, ?_⟩
  rw [drop_flatten_append hrecs hi.le, List.drop_eq_getElem_cons hi, List.flatten_cons,
    List.append_assoc]

/-- A list of blocks that is cut off somewhere: the blocks in front, and a part of the next one. -/
theorem exists_take_flatten (hw : 0 < w) (hrecs : ∀ rec ∈ recs, rec.length = w) (m : ℕ) :
    ∃ part, recs.flatten.take m = (recs.take ((recs.flatten.take m).length / w)).flatten ++ part ∧
      part.length = (recs.flatten.take m).length % w := by
  induction recs generalizing m with
  | nil => exact ⟨[], by simp⟩
  | cons rec recs ih =>
    obtain ⟨hrec, hrest⟩ := List.forall_mem_cons.mp hrecs
    by_cases hm : m < w
    · have htake : (rec :: recs).flatten.take m = rec.take m := by
        rw [List.flatten_cons, List.take_append_of_le_length (by omega)]
      have hlen : (rec.take m).length = m := by
        rw [List.length_take]
        omega
      refine ⟨rec.take m, ?_, ?_⟩
      · rw [htake, hlen, Nat.div_eq_of_lt hm]
        rfl
      · rw [htake, hlen, Nat.mod_eq_of_lt hm]
    · obtain ⟨part, htake, hpart⟩ := ih hrest (m - w)
      have hcons : (rec :: recs).flatten.take m = rec ++ recs.flatten.take (m - w) := by
        rw [List.flatten_cons, List.take_append, hrec, List.take_of_length_le (by omega)]
      have hlen : ((rec :: recs).flatten.take m).length =
        (recs.flatten.take (m - w)).length + w := by
        rw [hcons, List.length_append, hrec, Nat.add_comm]
      refine ⟨part, ?_, ?_⟩
      · rw [hlen, Nat.add_div_right _ hw, List.take_succ_cons, hcons, List.flatten_cons,
          List.append_assoc, ← htake]
      · rw [hlen, Nat.add_mod_right, hpart]

/-- A list goes on as itself behind a part exactly when it repeats the part. -/
theorem take_append_eq_iff (hpart : part ≠ []) :
    (part ++ xs).take xs.length = xs ↔ Repeats part xs := by
  have hpos : 0 < part.length := List.length_pos_iff.mpr hpart
  have hget : ∀ i < xs.length, ((part ++ xs).take xs.length)[i]? =
      if i < part.length then part[i]? else xs[i - part.length]? := by
    intro i hi
    rw [List.getElem?_take_of_lt hi, List.getElem?_append]
  constructor
  · intro heq i
    induction i using Nat.strong_induction_on with
    | _ i ih =>
      intro hi
      have hi' := hget i hi
      rw [heq] at hi'
      by_cases hlt : i < part.length
      · rw [hi', if_pos hlt, Nat.mod_eq_of_lt hlt]
      · rw [hi', if_neg hlt, ih (i - part.length) (by omega) (by omega),
          Nat.mod_eq_sub_mod (Nat.not_lt.mp hlt)]
  · intro hrep
    apply List.ext_getElem?
    intro i
    by_cases hi : i < xs.length
    · rw [hget i hi]
      by_cases hlt : i < part.length
      · rw [if_pos hlt, hrep i hi, Nat.mod_eq_of_lt hlt]
      · rw [if_neg hlt, hrep i hi, hrep (i - part.length) (by omega),
          Nat.mod_eq_sub_mod (Nat.not_lt.mp hlt)]
    · rw [List.getElem?_eq_none (Nat.not_lt.mp hi), List.getElem?_eq_none]
      rw [List.length_take]
      omega

/-- The blocks make up the front of the list. -/
theorem flatten_blocks (hw : 0 < w) (hn : xs.length / w ≤ n) :
    (blocks w n xs).flatten = xs.take (w * (xs.length / w)) := by
  induction n generalizing xs with
  | zero =>
    rw [Nat.le_zero.mp hn]
    rfl
  | succ n ih =>
    rw [blocks]
    by_cases hlt : xs.length < w
    · rw [if_pos hlt, Nat.div_eq_of_lt hlt]
      rfl
    · have hdiv : xs.length / w = (xs.length - w) / w + 1 :=
        Nat.div_eq_sub_div hw (Nat.not_lt.mp hlt)
      have hrest : (xs.drop w).length / w ≤ n := by
        rw [List.length_drop]
        omega
      rw [if_neg hlt, List.flatten_cons, ih hrest, List.length_drop, hdiv, Nat.mul_add, Nat.mul_one,
        Nat.add_comm _ w, List.take_add]

/-- **Blocks behind a part of a block.** They are read as they were written only if they repeat the
part. -/
theorem blocks_part_append_iff (hrecs : ∀ rec ∈ recs, rec.length = w) (hn : recs.length ≤ n)
    (hpart : part ≠ []) (hlt : part.length < w) : blocks w n (part ++ recs.flatten) = recs ↔
    Repeats part recs.flatten := by
  have hw : 0 < w := Nat.lt_of_le_of_lt (Nat.zero_le _) hlt
  have hlen := length_flatten hrecs
  have hdiv : (part ++ recs.flatten).length / w = recs.length := by
    rw [List.length_append, hlen, Nat.add_mul_div_left _ _ hw, Nat.div_eq_of_lt hlt, Nat.zero_add]
  rw [← take_append_eq_iff hpart]
  constructor
  · intro heq
    have hflat := congrArg List.flatten heq
    rwa [flatten_blocks hw (by rw [hdiv]; exact hn), hdiv, ← hlen] at hflat
  · intro htake
    have hsplit : part ++ recs.flatten =
      recs.flatten ++ (part ++ recs.flatten).drop recs.flatten.length := by
      conv_lhs => rw [← List.take_append_drop recs.flatten.length (part ++ recs.flatten), htake]
    rw [hsplit]
    apply blocks_flatten_append_of_lt hrecs hn
    rw [List.length_drop, List.length_append, Nat.add_sub_cancel]
    exact hlt

/-! ## Vectors of records -/

/-- What a loop reads, if no reading fails. -/
def collect {α : Type} : {n : ℕ} → (Fin n → Option α) → Option (Fin n → α)
  | 0, _ => some Fin.elim0
  | _ + 1, f => do
      let a ← f 0
      let g ← collect fun i => f i.succ
      some (Fin.cons a g)

theorem collect_eq_some_iff {f : Fin n → Option α} {g : Fin n → α} :
    collect f = some g ↔ ∀ i, f i = some (g i) := by
  induction n with
  | zero =>
    constructor
    · intro _ i
      exact i.elim0
    · intro _
      rw [collect]
      congr 1
      funext i
      exact i.elim0
  | succ n ih =>
    rw [collect]
    constructor
    · intro h
      obtain ⟨a, ha, htail⟩ := Option.bind_eq_some_iff.mp h
      obtain ⟨g', hg', heq⟩ := Option.bind_eq_some_iff.mp htail
      obtain rfl := Option.some.inj heq
      intro i
      cases i using Fin.cases with
      | zero => exact ha
      | succ i => exact ih.mp hg' i
    · intro h
      have htail : (collect fun i => f i.succ) = some fun i => g i.succ := ih.mpr fun i => h i.succ
      have hcons : (Fin.cons (g 0) fun i => g i.succ : Fin (n + 1) → α) = g := by
        funext i
        cases i using Fin.cases with
        | zero => rfl
        | succ i => rfl
      rw [h 0, htail, ← hcons]
      rfl

/-- A vector is read if each of its entries is. -/
theorem exists_collect {f : Fin n → Option α} (h : ∀ i, ∃ a, f i = some a) :
    ∃ g, collect f = some g := by
  choose g hg using h
  exact ⟨g, collect_eq_some_iff.mpr hg⟩

/-- A vector of records that was written is read, each record at its place. -/
theorem collect_drop_flatten {α : Type} {n : ℕ} {read : List β → Option α}
    {write : α → List β} {v : Fin n → α} (hlen : ∀ i, (write (v i)).length = w)
    (hread : ∀ i rest, read (write (v i) ++ rest) = some (v i))
    (rest : List β) :
    (collect fun i : Fin n => read
      (((List.ofFn fun i => write (v i)).flatten ++ rest).drop (w * i))) = some v := by
  apply collect_eq_some_iff.mpr
  intro i
  have hrecs : ∀ rec ∈ List.ofFn fun i => write (v i), rec.length = w := by
    intro rec hrec
    obtain ⟨j, rfl⟩ := List.mem_ofFn.mp hrec
    exact hlen j
  have hi : i < (List.ofFn fun i => write (v i)).length := by
    rw [List.length_ofFn]
    exact i.2
  obtain ⟨rest', hdrop⟩ := exists_drop_flatten_append hrecs hi rest
  rw [hdrop, List.getElem_ofFn]
  exact hread i rest'

/-- The slices of one length make up the front of a list. -/
theorem flatten_slices (w n : ℕ) (xs : List β) :
    (List.ofFn fun i : Fin n => (xs.drop (w * i)).take w).flatten = xs.take (w * n) := by
  induction n generalizing xs with
  | zero => rfl
  | succ n ih =>
    have hrest : (fun i : Fin n => (xs.drop (w * i.succ)).take w) =
        fun i : Fin n => ((xs.drop w).drop (w * i)).take w := by
      funext i
      rw [List.drop_drop, Fin.val_succ, Nat.mul_succ, Nat.add_comm]
    rw [List.ofFn_succ, List.flatten_cons, hrest, ih, Nat.mul_succ,
      Nat.add_comm (w * n), List.take_add]
    rfl

/-- A vector of records that was read is written to the bytes it was read from, if each record
is. -/
theorem flatten_of_collect {α : Type} {n : ℕ} {read : List β → Option α}
    {write : α → List β} {v : Fin n → α} {src : List β}
    (hwrite : ∀ bs x, w ≤ bs.length → read bs = some x → write x = bs.take w)
    (hsrc : w * n ≤ src.length) (h : (collect fun i : Fin n => read (src.drop (w * i))) = some v) :
    (List.ofFn fun i => write (v i)).flatten = src.take (w * n) := by
  have hslices : (fun i => write (v i)) = fun i : Fin n => (src.drop (w * i)).take w := by
    funext i
    apply hwrite _ _ _ (collect_eq_some_iff.mp h i)
    have hle : w * (i + 1) ≤ w * n := Nat.mul_le_mul_left w i.2
    rw [Nat.mul_succ] at hle
    rw [List.length_drop]
    omega
  rw [hslices, flatten_slices]

theorem length_flatten_ofFn {f : Fin n → List β} (hlen : ∀ i, (f i).length = w) :
    (List.ofFn f).flatten.length = w * n := by
  rw [length_flatten (w := w), List.length_ofFn]
  intro rec hrec
  obtain ⟨j, rfl⟩ := List.mem_ofFn.mp hrec
  exact hlen j

end FixedRecords
