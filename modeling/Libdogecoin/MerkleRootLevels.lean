/-
# The merkle root of a block, level by level

`dogecoin_compute_merkle_root` keeps its pending subtrees in `inner`, at the bits of the number of
leaves.

* `joinUp_push` : the loop that joins a node upwards is the carry of the pending subtrees;
* `sweep_of_finish` : the sweep of the rightmost branch folds them;
* `computeMerkleRoot_levels` : the root and the flag are those of the tree that is built level by
  level.
-/
import Libdogecoin.Block
import Libdogecoin.MerkleLevels
import Libdogecoin.MerkleRoot

namespace Libdogecoin

namespace MerkleRoot

open Bip37 (combine)
open MerkleLevels

variable {pf : Platform} {inner : List Uint256} {count : UInt32} {bits : List (Option Uint256)}
  {twins : Bool}

/-! ## Bits of the number of leaves -/

variable {level v : ℕ}

theorem toNat_one_shiftLeft (h : level < 32) :
    ((1 : UInt32) <<< UInt32.ofNat level).toNat = 2 ^ level := by
  have hlevel : (UInt32.ofNat level).toNat = level :=
    UInt32.toNat_ofNat_of_lt' (Nat.lt_trans h (by decide))
  have hpow : 2 ^ level < 2 ^ 32 := Nat.pow_lt_pow_right (by decide) h
  rw [UInt32.toNat_shiftLeft, hlevel, UInt32.toNat_one, Nat.mod_eq_of_lt h, Nat.one_shiftLeft]
  exact Nat.mod_eq_of_lt hpow

/-- A bit of the number is set when the number of leaves in whole subtrees of its height is odd. -/
theorem and_shiftLeft_ne_zero_iff {level : ℕ} (h : level < 32) :
    count &&& (1 <<< UInt32.ofNat level) ≠ 0 ↔ count.toNat / 2 ^ level % 2 = 1 := by
  rw [Ne, ← UInt32.toNat_inj, UInt32.toNat_and, toNat_one_shiftLeft h, Nat.and_two_pow,
    Nat.testBit_eq_decide_div_mod_eq, UInt32.toNat_zero]
  have hpos : 0 < 2 ^ level := Nat.two_pow_pos level
  by_cases hodd : count.toNat / 2 ^ level % 2 = 1
  · simp [hodd]
  · simp [hodd]

/-! ## Joining upwards -/

/-- **The loop is the carry of the pending subtrees** from a level on. -/
theorem joinUp_push : ∀ (fuel level : ℕ) {bits : List (Option Uint256)} (h : Uint256)
    (mutated : Bool), level + fuel = 32 → count.toNat / 2 ^ level = value bits + 1 →
    (∀ (i : ℕ) (left : Uint256), bits[i]? = some (some left) → inner[level + i]? = some left) →
      ∃ h' k, joinUp pf inner count fuel level h mutated =
          some (h', level + k, mutated || (push (combine pf) bits h).2) ∧ level + k < 32 ∧
        (push (combine pf) bits h).1 = List.replicate k none ++ some h' :: bits.drop (k + 1) := by
  intro fuel
  induction fuel with
  | zero =>
    intro level bits h mutated hfuel hcount _
    have hlt := count.toNat_lt
    rw [Nat.add_zero] at hfuel
    rw [hfuel, Nat.div_eq_of_lt hlt] at hcount
    omega
  | succ fuel ih =>
    intro level bits h mutated hfuel hcount hinner
    have hlevel : level < 32 := by omega
    have hbit := @and_shiftLeft_ne_zero_iff count _ hlevel
    rw [hcount] at hbit
    unfold joinUp
    cases bits with
    | nil =>
      rw [if_pos (hbit.mpr rfl)]
      exact ⟨h, 0, by rw [push, Bool.or_false, Nat.add_zero], hlevel, rfl⟩
    | cons bit rest =>
      cases bit with
      | none =>
        have hodd : (value (none :: rest : List (Option Uint256)) + 1) % 2 = 1 := by
          rw [value]
          omega
        rw [if_pos (hbit.mpr hodd)]
        exact ⟨h, 0, by rw [push, Bool.or_false, Nat.add_zero], hlevel, rfl⟩
      | some left =>
        have heven : ¬ (value (some left :: rest) + 1) % 2 = 1 := by
          rw [value]
          omega
        have hhigher : count.toNat / 2 ^ (level + 1) = value rest + 1 := by
          rw [Nat.pow_succ, ← Nat.div_div_eq_div_mul, hcount, value]
          omega
        have hleft : inner[level]? = some left := hinner 0 left rfl
        obtain ⟨h', k, hjoin, hk, hpush⟩ :=
          ih (level + 1) (combine pf left h) (mutated || decide (left = h))
          (by omega) hhigher fun i l hi => by
            rw [Nat.add_assoc, Nat.add_comm 1]
            exact hinner (i + 1) l hi
        rw [if_neg fun hset => heven (hbit.mp hset), hleft]
        refine ⟨h', k + 1, ?_, by omega, ?_⟩
        · rw [Option.bind_eq_bind, Option.bind_some, hjoin, push_some, Bool.or_assoc, Nat.add_assoc,
            Nat.add_comm 1]
        · rw [push_some, hpush, List.replicate_succ, List.drop_succ_cons]
          rfl

/-! ## The main loop -/

/-- The variables of the loop stand for the pending subtrees. -/
structure Stands (s : Folded) (bits : List (Option Uint256)) (twins : Bool) : Prop where
  length_eq : s.inner.length = 32
  count_eq : s.count.toNat = value bits
  inner_eq : ∀ (i : ℕ) (left : Uint256), bits[i]? = some (some left) → s.inner[i]? = some left
  mutated_eq : s.mutated = twins

theorem addLeaf_push {s : Folded} (hs : Stands s bits twins) (hroom : value bits + 1 < 2 ^ 32)
    (leaf : Uint256) :
    ∃ s', addLeaf pf s leaf = some s' ∧
      Stands s' (push (combine pf) bits leaf).1 (twins || (push (combine pf) bits leaf).2) := by
  have hcount : (s.count + 1).toNat = value bits + 1 := by
    rw [UInt32.toNat_add, hs.count_eq, UInt32.toNat_one]
    exact Nat.mod_eq_of_lt hroom
  obtain ⟨h', k, hjoin, hk, hpush⟩ := @joinUp_push pf _ (s.count + 1) 32 0 _ leaf s.mutated rfl
    (by rw [Nat.pow_zero, Nat.div_one, hcount]) fun i left hi => by
      rw [Nat.zero_add]
      exact hs.inner_eq i left hi
  rw [Nat.zero_add] at hjoin hk
  unfold addLeaf
  dsimp only
  rw [hjoin, Option.bind_eq_bind, Option.bind_some]
  refine ⟨_, rfl, ?_, ?_, ?_, ?_⟩
  · exact (List.length_set).trans hs.length_eq
  · rw [value_push]
    exact hcount
  · intro i left hi
    rw [hpush] at hi
    dsimp only
    rw [List.getElem?_set, hs.length_eq]
    rcases Nat.lt_trichotomy i k with hlt | rfl | hgt
    · rw [List.getElem?_append_left (by rw [List.length_replicate]; exact hlt),
        List.getElem?_replicate, if_pos hlt] at hi
      cases Option.some.inj hi
    · rw [List.getElem?_append_right (by rw [List.length_replicate]), List.length_replicate,
        Nat.sub_self] at hi
      rw [if_pos rfl, if_pos hk]
      exact Option.some.inj hi
    · rw [List.getElem?_append_right (by rw [List.length_replicate]; omega), List.length_replicate,
        show i - k = i - k - 1 + 1 by omega, List.getElem?_cons_succ, List.getElem?_drop,
        show k + 1 + (i - k - 1) = i by omega] at hi
      rw [if_neg (by omega)]
      exact hs.inner_eq i left hi
  · rw [hs.mutated_eq]

theorem stands_empty : Stands Folded.empty [] false := by
  refine ⟨List.length_replicate, rfl, ?_, rfl⟩
  intro i left hi
  cases hi

/-- All leaves are joined to the pending subtrees. -/
theorem foldlM_addLeaf {done : List Uint256} : ∀ (leaves : List Uint256) {s : Folded},
    Stands s (pushAll (combine pf) done).1 (pushAll (combine pf) done).2 →
    done.length + leaves.length < 2 ^ 32 →
      ∃ s', leaves.foldlM (addLeaf pf) s = some s' ∧
        Stands s' (pushAll (combine pf) (done ++ leaves)).1
          (pushAll (combine pf) (done ++ leaves)).2 := by
  intro leaves
  induction leaves generalizing done with
  | nil =>
    intro s hs _
    rw [List.append_nil]
    exact ⟨s, rfl, hs⟩
  | cons leaf leaves ih =>
    intro s hs hroom
    rw [List.length_cons] at hroom
    have hvalue := value_pushAll (combine pf) done
    obtain ⟨s1, hadd, hs1⟩ := addLeaf_push hs (by omega) leaf
    have hconcat := pushAll_concat (combine pf) done leaf
    have hs1 : Stands s1 (pushAll (combine pf) (done ++ [leaf])).1
      (pushAll (combine pf) (done ++ [leaf])).2 := by
      rw [hconcat]
      exact hs1
    obtain ⟨s', hrest, hs'⟩ := ih hs1 (by rw [List.length_append, List.length_singleton]; omega)
    rw [List.append_assoc, List.singleton_append] at hs'
    refine ⟨s', ?_, hs'⟩
    rw [List.foldlM_cons, hadd]
    exact hrest

/-! ## The sweep -/

/-- Empty places are passed over. -/
theorem finish_replicate {result : Uint256 × Bool} :
    ∀ (k : ℕ) {n : ℕ}, finish (combine pf) n (List.replicate k none ++ bits) twins = some result →
      ∃ n', finish (combine pf) n' bits twins = some result := by
  intro k
  induction k with
  | zero => exact fun h => ⟨_, h⟩
  | succ k ih =>
    intro n h
    cases n with
    | zero => cases h
    | succ n => exact ih (n := n) h

theorem value_replicate (k : ℕ) (bits : List (Option Uint256)) :
    value (List.replicate k none ++ bits) = 2 ^ k * value bits := by
  induction k with
  | zero => rw [Nat.pow_zero, Nat.one_mul]; rfl
  | succ k ih =>
    rw [List.replicate_succ, List.cons_append, value, ih, Nat.pow_succ]
    ring

/-- There is room for one more subtree. -/
theorem round_up_le (hv : 0 < v) (h : 2 ^ level * (1 + 2 * v) ≤ 2 ^ 31) :
    2 ^ (level + 1) * (v + 1) ≤ 2 ^ 31 := by
  have hpos : 0 < 2 ^ level := Nat.two_pow_pos level
  have hlevel : level < 31 := by
    by_contra hge
    have hpow : 2 ^ 31 ≤ 2 ^ level := Nat.pow_le_pow_right (by decide) (Nat.not_lt.mp hge)
    nlinarith
  obtain ⟨d, hd⟩ : ∃ d, 31 = level + (1 + d) := ⟨30 - level, by omega⟩
  have hsplit : 2 ^ 31 = 2 ^ level * 2 ^ (1 + d) := by rw [hd, Nat.pow_add]
  have heven : 2 ^ (1 + d) = 2 * 2 ^ d := by rw [Nat.add_comm, Nat.pow_succ']
  rw [hsplit] at h ⊢
  have hle := Nat.le_of_mul_le_mul_left h hpos
  rw [Nat.pow_succ, Nat.mul_assoc]
  apply Nat.mul_le_mul_left
  omega

/-- A number of leaves that is not too large has its lowest bit inside the word. -/
theorem lt_of_lowest (hcount : count.toNat = 2 ^ level * (1 + 2 * v)) (hle : count.toNat ≤ 2 ^ 31) :
    level < 32 := by
  by_contra hge
  have hpow : 2 ^ 32 ≤ 2 ^ level := Nat.pow_le_pow_right (by decide) (Nat.not_lt.mp hge)
  nlinarith

/-- Only the lowest bit is set when nothing is pending above it. -/
theorem eq_lowest_iff (hlevel : level < 32) (hcount : count.toNat = 2 ^ level * (1 + 2 * v)) :
    count = 1 <<< UInt32.ofNat level ↔ v = 0 := by
  have hpos : 0 < 2 ^ level := Nat.two_pow_pos level
  rw [← UInt32.toNat_inj, hcount, toNat_one_shiftLeft hlevel]
  constructor
  · intro heq
    have hmul := Nat.eq_of_mul_eq_mul_left hpos (heq.trans (Nat.mul_one _).symm)
    omega
  · intro hv
    rw [hv, Nat.mul_zero, Nat.add_zero, Nat.mul_one]

/-- The missing half of the lowest subtree is counted as if it were there. -/
theorem toNat_add_lowest (hv : 0 < v) (hcount : count.toNat = 2 ^ level * (1 + 2 * v))
    (hle : count.toNat ≤ 2 ^ 31) :
    (count + 1 <<< UInt32.ofNat level).toNat = 2 ^ (level + 1) * (v + 1) := by
  have hup := round_up_le hv (hcount ▸ hle)
  have hsum : 2 ^ level * (1 + 2 * v) + 2 ^ level = 2 ^ (level + 1) * (v + 1) := by ring
  rw [UInt32.toNat_add, toNat_one_shiftLeft (lt_of_lowest hcount hle), hcount, hsum]
  exact Nat.mod_eq_of_lt (by omega)

/-- **The sweep folds what is pending.** -/
theorem sweep_of_finish : ∀ (fuel : ℕ) {level n : ℕ} {count : UInt32} {h : Uint256}
    {rest : List (Option Uint256)} {mutated : Bool} {result : Uint256 × Bool}, 32 < fuel + level →
    count.toNat = 2 ^ level * (1 + 2 * value rest) → count.toNat ≤ 2 ^ 31 →
    (∀ (i : ℕ) (left : Uint256), rest[i]? = some (some left) → inner[level + 1 + i]? = some left) →
    finish (combine pf) n (some h :: rest) mutated = some result →
      sweep pf inner fuel count level h mutated = some result := by
  intro fuel
  induction fuel with
  | zero =>
    intro level n count h rest mutated result hfuel hcount hle _ _
    have hlevel := lt_of_lowest hcount hle
    omega
  | succ fuel ih =>
    intro level n count h rest mutated result hfuel hcount hle hinner hfinish
    have hlevel := lt_of_lowest hcount hle
    cases n with
    | zero => cases hfinish
    | succ n =>
      rw [finish] at hfinish
      unfold sweep
      by_cases hvalue : value rest = 0
      · rw [if_pos ((all_isNone_iff rest).mpr hvalue)] at hfinish
        rw [if_pos ((eq_lowest_iff hlevel hcount).mpr hvalue)]
        exact hfinish
      · have hpending := Nat.pos_of_ne_zero hvalue
        have hup := round_up_le hpending (hcount ▸ hle)
        have hnext := toNat_add_lowest hpending hcount hle
        have hhigher : (count + 1 <<< UInt32.ofNat level).toNat / 2 ^ (level + 1) =
          value rest + 1 := by
          rw [hnext, Nat.mul_div_cancel_left _ (Nat.two_pow_pos _)]
        have hlt : level + 1 ≤ 32 := hlevel
        obtain ⟨h', k, hjoin, hk, hpush⟩ := @joinUp_push pf _ _ (32 - (level + 1)) (level + 1) _
          (combine pf h h) mutated (Nat.add_sub_cancel' hlt) hhigher hinner
        have hrest : value rest + 1 = 2 ^ k * (1 + 2 * value (rest.drop (k + 1))) := by
          rw [← value_push (combine pf) rest (combine pf h h), hpush, value_replicate]
          rfl
        rw [if_neg fun hall => hvalue ((all_isNone_iff rest).mp hall), hpush] at hfinish
        obtain ⟨n', hfinish⟩ := finish_replicate k hfinish
        rw [if_neg fun heq => hvalue ((eq_lowest_iff hlevel hcount).mp heq)]
        dsimp only
        rw [hjoin, Option.bind_eq_bind, Option.bind_some]
        dsimp only
        refine ih (by omega) ?_ ?_ ?_ hfinish
        · rw [hnext, hrest, Nat.pow_add _ (level + 1), Nat.mul_assoc]
        · rw [hnext]
          exact hup
        · intro i left hi
          rw [List.getElem?_drop] at hi
          rw [← hinner _ left hi]
          congr 1
          omega

/-! ## The root -/

theorem lowestBit_eq (count : UInt32) : ∀ (fuel level : ℕ) {bits : List (Option Uint256)},
    level + fuel = 32 →
    count.toNat / 2 ^ level = value bits → value bits ≠ 0 →
      ∃ h k rest, lowestBit count fuel level = some (level + k) ∧
      bits = List.replicate k none ++ some h :: rest := by
  intro fuel
  induction fuel with
  | zero =>
    intro level bits hfuel hcount hvalue
    have hlt := count.toNat_lt
    rw [Nat.add_zero] at hfuel
    rw [hfuel, Nat.div_eq_of_lt hlt] at hcount
    exact absurd hcount.symm hvalue
  | succ fuel ih =>
    intro level bits hfuel hcount hvalue
    have hlevel : level < 32 := by omega
    have hbit := @and_shiftLeft_ne_zero_iff count _ hlevel
    rw [hcount] at hbit
    unfold lowestBit
    cases bits with
    | nil => exact absurd rfl hvalue
    | cons bit rest =>
      cases bit with
      | some h =>
        have hodd : value (some h :: rest) % 2 = 1 := by
          rw [value]
          omega
        rw [if_pos (hbit.mpr hodd)]
        exact ⟨h, 0, rest, rfl, rfl⟩
      | none =>
        rw [value] at hvalue hcount hbit
        have hhigher : count.toNat / 2 ^ (level + 1) = value rest := by
          rw [Nat.pow_succ, ← Nat.div_div_eq_div_mul, hcount]
          omega
        obtain ⟨h, k, rest', hlow, hbits⟩ := ih (level + 1) (by omega) hhigher (by omega)
        rw [if_neg fun hset => by have hodd := hbit.mp hset; omega, hlow]
        refine ⟨h, k + 1, rest', ?_, ?_⟩
        · rw [Nat.add_assoc, Nat.add_comm 1]
        · rw [hbits]
          rfl

/-- **The root of a block is that of the tree that is built level by level**, and the flag says
whether there are twins. -/
theorem computeMerkleRoot_levels (pf : Platform) {leaves : List Uint256} (hne : leaves ≠ [])
    (hlen : leaves.length ≤ 2 ^ 31) :
    ∃ root mutated, computeMerkleRoot pf leaves = some (root, mutated) ∧
      levelRoot (combine pf) leaves = some root ∧ (mutated = true ↔ Twins (combine pf) leaves) := by
  obtain ⟨s, hfold, hs⟩ := @foldlM_addLeaf pf [] leaves _ stands_empty
    (by rw [List.length_nil, Nat.zero_add]; omega)
  rw [List.nil_append] at hs
  obtain ⟨root, found, hroot, hfound, hfinish⟩ :=
    finish_pushAll (combine pf) leaves.length hne le_rfl false
  have hvalue := value_pushAll (combine pf) leaves
  have hpos : leaves.length ≠ 0 := fun hnil => hne (List.length_eq_zero_iff.mp hnil)
  have hcount := hs.count_eq
  rw [hvalue] at hcount
  obtain ⟨h, k, rest, hlow, hbits⟩ := @lowestBit_eq s.count 32 0 (pushAll (combine pf) leaves).1 rfl
    (by rw [Nat.pow_zero, Nat.div_one, hs.count_eq]) (by rw [hvalue]; exact hpos)
  rw [Nat.zero_add] at hlow
  have hread : ∀ (i : ℕ) (left : Uint256), (some h :: rest)[i]? = some (some left) →
    s.inner[k + i]? = some left := by
    intro i left hi
    refine hs.inner_eq _ left ?_
    rw [hbits, List.getElem?_append_right (by rw [List.length_replicate]; omega),
      List.length_replicate, Nat.add_sub_cancel_left]
    exact hi
  rw [hbits, Bool.false_or] at hfinish
  obtain ⟨n, hfinish⟩ := finish_replicate k hfinish
  have hsweep := @sweep_of_finish _ s.inner 33 k _ s.count _ _ _ _ (by omega)
    (by rw [hcount, ← hvalue, hbits, value_replicate]; rfl) (by rw [hcount]; exact hlen)
    (fun i left hi => by
      rw [Nat.add_assoc, Nat.add_comm 1]
      exact hread (i + 1) left hi) hfinish
  refine ⟨root, found, ?_, hroot, hfound⟩
  unfold computeMerkleRoot
  dsimp only [Option.bind_eq_bind]
  rw [if_neg hpos, if_neg (by omega), hfold, Option.bind_some, hlow, Option.bind_some,
    show s.inner[k]? = some h from hread 0 h rfl, Option.bind_some, hs.mutated_eq,
      hsweep, Bool.false_or]

/-- The theorem on three leaves, two of them equal and not paired. -/
theorem computeMerkleRoot_levels_three :
    ∃ root mutated, computeMerkleRoot samplePlatform [Uint256.ofNat 1, Uint256.ofNat 2,
      Uint256.ofNat 2] =
        some (root, mutated) ∧
      levelRoot (combine samplePlatform) [Uint256.ofNat 1, Uint256.ofNat 2, Uint256.ofNat 2] =
        some root ∧
      (mutated = true ↔ Twins (combine samplePlatform) [Uint256.ofNat 1, Uint256.ofNat 2,
        Uint256.ofNat 2]) :=
  computeMerkleRoot_levels samplePlatform (List.cons_ne_nil _ _) (by decide)

end MerkleRoot

end Libdogecoin
