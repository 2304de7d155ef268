/-
# Branches of a tree of pairs

A tree is built level by level: the nodes of a level are combined in pairs, and where a level has an
odd number of nodes, its last node is combined with itself. A branch lists the siblings on the way
from a node up to the root.

* `climb_append`, `duplicates_append` : branches are put together;
* `Leads.snoc` : one more level on top.
-/
import Mathlib.Data.Nat.Basic
import Mathlib.Tactic.Ring

namespace MerkleBranch

variable {α : Type*} (combine : α → α → α) (width : ℕ → ℕ)

/-- The node above a node and its sibling. -/
def parent (pos : ℕ) (node sibling : α) : α :=
  if pos % 2 = 1 then combine sibling node else combine node sibling

/-- The node at the upper end of a branch. -/
def climb : ℕ → α → List α → α
  | _, node, [] => node
  | pos, node, sibling :: branch => climb (pos / 2) (parent combine pos node sibling) branch

/-- Where a branch passes the last of an odd number of nodes, the sibling is the node itself. -/
def Duplicates : ℕ → ℕ → α → List α → Prop
  | _, _, _, [] => True
  | level, pos, node, sibling :: branch =>
    (pos % 2 = 0 → width level ≤ pos + 1 → sibling = node) ∧
      Duplicates (level + 1) (pos / 2) (parent combine pos node sibling) branch

/-- A branch that leads from a node at the bottom to a node some levels above it. -/
structure Leads (pos : ℕ) (node : α) (branch : List α) (top : α) : Prop where
  climbs : climb combine pos node branch = top
  duplicates : Duplicates combine width 0 pos node branch

variable {combine} {width}

theorem climb_append (pos : ℕ) (node : α) (branch rest : List α) :
    climb combine pos node (branch ++ rest) =
      climb combine (pos / 2 ^ branch.length) (climb combine pos node branch) rest := by
  induction branch generalizing pos node with
  | nil => rw [List.nil_append, List.length_nil, pow_zero, Nat.div_one, climb]
  | cons sibling branch ih =>
    rw [List.cons_append, climb, climb, ih, List.length_cons, Nat.div_div_eq_div_mul, pow_succ']

theorem duplicates_append (level pos : ℕ) (node : α) (branch rest : List α) :
    Duplicates combine width level pos node (branch ++ rest) ↔
      Duplicates combine width level pos node branch ∧
        Duplicates combine width (level + branch.length) (pos / 2 ^ branch.length)
          (climb combine pos node branch) rest := by
  induction branch generalizing level pos node with
  | nil =>
    rw [List.nil_append, List.length_nil, pow_zero, Nat.div_one, climb]
    simp only [Duplicates, true_and, Nat.add_zero]
  | cons sibling branch ih =>
    have hlevel : level + 1 + branch.length = level + (sibling :: branch).length := by
      rw [List.length_cons]
      omega
    rw [List.cons_append, Duplicates, Duplicates, climb, ih, hlevel, List.length_cons,
      Nat.div_div_eq_div_mul, ← pow_succ', and_assoc]

theorem Leads.nil (pos : ℕ) (node : α) : Leads combine width pos node [] node := ⟨rfl, trivial⟩

/-- One more level on top of a branch. -/
theorem Leads.snoc {pos : ℕ} {node top : α} {branch : List α}
    (h : Leads combine width pos node branch top) (sibling : α)
    (hlast : pos / 2 ^ branch.length % 2 = 0 → width branch.length ≤ pos / 2 ^ branch.length + 1 →
      sibling = top) :
    Leads combine width pos node (branch ++ [sibling])
      (parent combine (pos / 2 ^ branch.length) top sibling) := by
  constructor
  · rw [climb_append, h.climbs]
    rfl
  · rw [duplicates_append, h.climbs, Nat.zero_add]
    exact ⟨h.duplicates, hlast, trivial⟩

end MerkleBranch
