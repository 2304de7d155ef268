/-
# Trees over lists, level by level and leaf by leaf

A hash tree over a list of leaves: the nodes of a level are paired, the last one of an odd level
with itself, until one node is left. The same tree is built from pending subtrees, one at most for
each height: a leaf is joined to the pending subtrees like a carry, and what is pending at the end
is folded from the right, an odd subtree being joined to itself.

* `levelRoot` : the node that is left;
* `Twins` : two nodes of one level that are paired and equal;
* `finish_pushAll` : folding what is pending gives that node, and notices the twins.
-/
import Mathlib.Data.List.Basic
import Mathlib.Data.List.Induction
import Mathlib.Logic.Function.Iterate
import Mathlib.Tactic.Common

namespace MerkleLevels

variable {α : Type} (hash : α → α → α) {l : List α}

/-! ## Level by level -/

/-- The nodes above the pairs of a level. -/
def levelUp : List α → List α
  | a :: b :: rest => hash a b :: levelUp rest
  | [a] => [hash a a]
  | [] => []

theorem length_levelUp : ∀ l : List α, (levelUp hash l).length = (l.length + 1) / 2
  | a :: b :: rest => by
      rw [levelUp, List.length_cons, length_levelUp rest, List.length_cons, List.length_cons]
      omega
  | [_] => by rw [levelUp, List.length_singleton, List.length_singleton]
  | [] => by rw [levelUp, List.length_nil]

/-- The node that is left at the end. -/
def levelRoot (l : List α) : Option α :=
  if l.length ≤ 1 then l.head? else levelRoot (levelUp hash l)
termination_by l.length
decreasing_by
  rw [length_levelUp]
  omega

/-- The nodes above the full pairs. -/
def pairUp : List α → List α
  | a :: b :: rest => hash a b :: pairUp rest
  | [_] => []
  | [] => []

theorem length_pairUp : ∀ l : List α, (pairUp hash l).length = l.length / 2
  | a :: b :: rest => by
      rw [pairUp, List.length_cons, length_pairUp rest, List.length_cons, List.length_cons]
      omega
  | [_] => by rw [pairUp, List.length_nil, List.length_singleton]
  | [] => by rw [pairUp, List.length_nil]

/-- The node without a partner. -/
def odd? : List α → Option α
  | _ :: _ :: rest => odd? rest
  | [a] => some a
  | [] => none

theorem levelUp_eq : ∀ l : List α, levelUp hash l = pairUp hash l ++ (odd? l).toList.map fun a =>
    hash a a
  | a :: b :: rest => by
      rw [levelUp, pairUp, odd?, levelUp_eq rest]
      rfl
  | [_] => rfl
  | [] => rfl

/-- At some level, two nodes that are paired are equal. -/
def Twins (l : List α) : Prop :=
  ∃ k i a, ((levelUp hash)^[k] l)[2 * i]? = some a ∧ ((levelUp hash)^[k] l)[2 * i + 1]? = some a

/-- A single node has no twin, and none above it. -/
theorem not_twins_of_length_le (h : l.length ≤ 1) : ¬ Twins hash l := by
  have hall : ∀ k, ((levelUp hash)^[k] l).length ≤ 1 := by
    intro k
    induction k with
    | zero => exact h
    | succ k ih =>
      rw [Function.iterate_succ_apply', length_levelUp]
      omega
  rintro ⟨k, i, a, -, h2⟩
  have hlt := (List.getElem?_eq_some_iff.mp h2).1
  have hone := hall k
  omega

/-! ## Pending subtrees -/

/-- The number of leaves below the pending subtrees. -/
def value : List (Option α) → ℕ
  | [] => 0
  | none :: rest => 2 * value rest
  | some _ :: rest => 1 + 2 * value rest

theorem all_isNone_iff (bits : List (Option α)) :
    bits.all Option.isNone = true ↔ value bits = 0 := by
  induction bits with
  | nil => exact iff_of_true rfl rfl
  | cons bit rest ih =>
    cases bit with
    | none =>
      show rest.all Option.isNone = true ↔ 2 * value rest = 0
      rw [ih]
      omega
    | some a => exact iff_of_false Bool.false_ne_true (by rw [value]; omega)

variable [DecidableEq α]

/-- Two nodes of the level that are paired are equal. -/
def twinPair : List α → Bool
  | a :: b :: rest => a = b || twinPair rest
  | _ => false

theorem twinPair_iff : ∀ l : List α, twinPair l = true ↔ ∃ i a, l[2 * i]? = some a ∧
    l[2 * i + 1]? = some a
  | a :: b :: rest => by
      rw [twinPair, Bool.or_eq_true, decide_eq_true_eq, twinPair_iff rest]
      constructor
      · rintro (rfl | ⟨i, c, h1, h2⟩)
        · exact ⟨0, a, rfl, rfl⟩
        · exact ⟨i + 1, c, h1, h2⟩
      · rintro ⟨i, c, h1, h2⟩
        cases i with
        | zero => exact Or.inl (Option.some.inj (h1.trans h2.symm))
        | succ i => exact Or.inr ⟨i, c, h1, h2⟩
  | [a] => by
      refine iff_of_false Bool.false_ne_true ?_
      rintro ⟨i, c, -, h2⟩
      simp at h2
  | [] => by
      refine iff_of_false Bool.false_ne_true ?_
      rintro ⟨i, c, -, h2⟩
      cases h2

/-- Twins are looked for level by level. -/
theorem twins_iff (l : List α) :
    Twins hash l ↔ twinPair l = true ∨ Twins hash (levelUp hash l) := by
  rw [twinPair_iff]
  constructor
  · rintro ⟨k, i, a, h1, h2⟩
    cases k with
    | zero => exact Or.inl ⟨i, a, h1, h2⟩
    | succ k => exact Or.inr ⟨k, i, a, h1, h2⟩
  · rintro (⟨i, a, h1, h2⟩ | ⟨k, i, a, h1, h2⟩)
    · exact ⟨0, i, a, h1, h2⟩
    · exact ⟨k + 1, i, a, h1, h2⟩

/-! ## Leaf by leaf -/

/-- A subtree is joined to the pending ones like a carry: what is pending then, and whether two
equal subtrees were joined. -/
def push : List (Option α) → α → List (Option α) × Bool
  | [], h => ([some h], false)
  | none :: rest, h => (some h :: rest, false)
  | some left :: rest, h =>
    let (rest, twins) := push rest (hash left h)
    (none :: rest, decide (left = h) || twins)

/-- The carry goes on above a pending subtree. -/
theorem push_some (left : α) (rest : List (Option α)) (h : α) :
    push hash (some left :: rest) h =
      (none :: (push hash rest (hash left h)).1,
        decide (left = h) || (push hash rest (hash left h)).2) := rfl

/-- Leaves are joined one after another. -/
def pushAll (l : List α) : List (Option α) × Bool :=
  l.foldl (fun s h => ((push hash s.1 h).1, s.2 || (push hash s.1 h).2)) ([], false)

theorem pushAll_concat (l : List α) (h : α) :
    pushAll hash (l ++ [h]) =
      ((push hash (pushAll hash l).1 h).1,
        (pushAll hash l).2 || (push hash (pushAll hash l).1 h).2) := by
  unfold pushAll
  rw [List.foldl_append]
  rfl

/-- What is pending is folded from the right. -/
def finish : ℕ → List (Option α) → Bool → Option (α × Bool)
  | 0, _, _ => none
  | _ + 1, [], _ => none
  | fuel + 1, none :: rest, twins => finish fuel rest twins
  | fuel + 1, some h :: rest, twins =>
    if rest.all Option.isNone then some (h, twins)
    else finish fuel (push hash rest (hash h h)).1 (twins || (push hash rest (hash h h)).2)

/-- A node behind an even number of nodes has no partner. -/
theorem concat_of_even (x : α) : ∀ l : List α, odd? l = none →
    pairUp hash (l ++ [x]) = pairUp hash l ∧ odd? (l ++ [x]) = some x ∧
    twinPair (l ++ [x]) = twinPair l
  | a :: b :: rest, h => by
      obtain ⟨h1, h2, h3⟩ := concat_of_even x rest h
      refine ⟨?_, h2, ?_⟩
      · rw [pairUp, ← h1]
        rfl
      · rw [twinPair, ← h3]
        rfl
  | [_], h => by cases h
  | [], _ => ⟨rfl, rfl, rfl⟩

/-- A node behind an odd number of nodes is the partner of the last one. -/
theorem concat_of_odd (x : α) {a : α} : ∀ l : List α, odd? l = some a →
    pairUp hash (l ++ [x]) = pairUp hash l ++ [hash a x] ∧ odd? (l ++ [x]) = none ∧
      twinPair (l ++ [x]) = (twinPair l || decide (a = x))
  | c :: d :: rest, h => by
      obtain ⟨h1, h2, h3⟩ := concat_of_odd x rest h
      refine ⟨?_, h2, ?_⟩
      · show hash c d :: pairUp hash (rest ++ [x]) = _
        rw [h1]
        rfl
      · rw [twinPair, Bool.or_assoc, ← h3]
        rfl
  | [c], h => by
      obtain rfl := Option.some.inj h
      refine ⟨rfl, rfl, ?_⟩
      show (decide (c = x) || false) = (false || decide (c = x))
      rw [Bool.or_false, Bool.false_or]
  | [], h => by cases h

/-- **What is pending is the node without a partner, below what is pending of the pairs.** -/
theorem pushAll_eq (hne : l ≠ []) :
    (pushAll hash l).1 = odd? l :: (pushAll hash (pairUp hash l)).1 ∧
      (pushAll hash l).2 = (twinPair l || (pushAll hash (pairUp hash l)).2) := by
  induction l using List.reverseRecOn with
  | nil => exact absurd rfl hne
  | append_singleton l x ih =>
    rw [pushAll_concat]
    by_cases hl : l = []
    · rw [hl]
      exact ⟨rfl, rfl⟩
    obtain ⟨ih1, ih2⟩ := ih hl
    rw [ih1, ih2]
    cases hodd : odd? l with
    | none =>
      obtain ⟨h1, h2, h3⟩ := concat_of_even hash x l hodd
      rw [h1, h2, h3]
      exact ⟨rfl, Bool.or_false _⟩
    | some a =>
      obtain ⟨h1, h2, h3⟩ := concat_of_odd hash x l hodd
      rw [h1, h2, h3, pushAll_concat]
      refine ⟨rfl, ?_⟩
      show ((twinPair l || _) || (decide (a = x) || _)) =
        ((twinPair l || decide (a = x)) || (_ || _))
      ac_rfl

theorem value_push (bits : List (Option α)) (h : α) :
    value (push hash bits h).1 = value bits + 1 := by
  induction bits generalizing h with
  | nil => rfl
  | cons bit rest ih =>
    cases bit with
    | none =>
      show 1 + 2 * value rest = 2 * value rest + 1
      omega
    | some left =>
      show 2 * value (push hash rest (hash left h)).1 = 1 + 2 * value rest + 1
      rw [ih]
      omega

theorem value_pushAll (l : List α) : value (pushAll hash l).1 = l.length := by
  induction l using List.reverseRecOn with
  | nil => rfl
  | append_singleton l x ih => rw [pushAll_concat, value_push, ih, List.length_append,
      List.length_singleton]

/-! ## Both ways -/

/-- **The leaf-by-leaf tree is the level-by-level one.** -/
theorem finish_pushAll : ∀ (fuel : ℕ) {l : List α}, l ≠ [] → l.length ≤ fuel → ∀ twins : Bool,
    ∃ root found, levelRoot hash l = some root ∧ (found = true ↔ Twins hash l) ∧
      finish hash fuel (pushAll hash l).1 (twins || (pushAll hash l).2) =
        some (root, twins || found) := by
  intro fuel
  induction fuel with
  | zero =>
    intro l hne hlen
    exact absurd (List.length_eq_zero_iff.mp (Nat.le_zero.mp hlen)) hne
  | succ fuel ih =>
    intro l hne hlen twins
    by_cases hone : l.length ≤ 1
    · obtain ⟨a, rfl⟩ : ∃ a, l = [a] := by
        cases l with
        | nil => exact absurd rfl hne
        | cons a rest =>
          rw [List.length_cons] at hone
          exact ⟨a, by rw [List.length_eq_zero_iff.mp (by omega : rest.length = 0)]⟩
      refine ⟨a, false, ?_, ?_, ?_⟩
      · rw [levelRoot, if_pos hone]
        rfl
      · exact iff_of_false Bool.false_ne_true (not_twins_of_length_le hash hone)
      · show some (a, twins || (false || false)) = _
        rfl
    · have hup : (levelUp hash l).length = (l.length + 1) / 2 := length_levelUp hash l
      have hupne : levelUp hash l ≠ [] := by
        intro hnil
        rw [hnil, List.length_nil] at hup
        omega
      obtain ⟨root, found, hroot, hfound, hfinish⟩ := ih hupne (by omega) (twins || twinPair l)
      refine ⟨root, twinPair l || found, ?_, ?_, ?_⟩
      · rw [levelRoot, if_neg hone]
        exact hroot
      · rw [Bool.or_eq_true, hfound]
        exact (twins_iff hash l).symm
      · obtain ⟨h1, h2⟩ := pushAll_eq hash hne
        rw [h1, h2, ← Bool.or_assoc, ← Bool.or_assoc, ← hfinish, levelUp_eq]
        cases hodd : odd? l with
        | none =>
          rw [Option.toList_none, List.map_nil, List.append_nil]
          rfl
        | some a =>
          have hpairs : ¬ (pushAll hash (pairUp hash l)).1.all Option.isNone = true := by
            rw [all_isNone_iff, value_pushAll]
            rw [length_pairUp]
            omega
          have hconcat := pushAll_concat hash (pairUp hash l) (hash a a)
          rw [finish, if_neg hpairs]
          show _ = finish hash fuel (pushAll hash (pairUp hash l ++ [hash a a])).1
            (twins || twinPair l || (pushAll hash (pairUp hash l ++ [hash a a])).2)
          rw [hconcat, Bool.or_assoc]

end MerkleLevels
