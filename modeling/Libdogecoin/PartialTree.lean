/-
# Partial trees of pairs

A partial tree has a part of the nodes of a tree of pairs: below a node whose value is given there
is nothing. It is written as the flags of its nodes and the values that are given, both in the order
of a walk from the root.

* `Shaped` : the nodes lie where the full tree has them;
* `Shaped.unique` : a tree is known by its flags and values, also in front of others.
-/
import Mathlib.Data.List.Basic

/-- A node whose value is given, or one with two children or one. -/
inductive PartialTree (α : Type) where
  | given (value : α) (flag : Bool)
  | pair (left right : PartialTree α)
  | single (left : PartialTree α)

namespace PartialTree

variable {α : Type}

/-- The flags. A node with children has the flag set. -/
def flags : PartialTree α → List Bool
  | given _ flag => [flag]
  | pair left right => true :: (left.flags ++ right.flags)
  | single left => true :: left.flags

/-- The values that are given. -/
def values : PartialTree α → List α
  | given value _ => [value]
  | pair left right => left.values ++ right.values
  | single left => left.values

/-- The value at the root. A child without a sibling is combined with itself. -/
def root (combine : α → α → α) : PartialTree α → α
  | given value _ => value
  | pair left right => combine (left.root combine) (right.root combine)
  | single left => combine (left.root combine) (left.root combine)

/-- Two children never have the same value. -/
def Distinct (combine : α → α → α) : PartialTree α → Prop
  | given _ _ => True
  | pair left right => left.Distinct combine ∧ right.Distinct combine ∧ left.root combine ≠
      right.root combine
  | single left => left.Distinct combine

/-- The nodes of a tree at a height and a position: only at the bottom may a given node have the
flag set, and a right child is there exactly where the level below is wide enough. -/
inductive Shaped (width : ℕ → ℕ) : ℕ → ℕ → PartialTree α → Prop where
  | leaf (pos : ℕ) (value : α) (flag : Bool) : Shaped width 0 pos (given value flag)
  | pruned (height pos : ℕ) (value : α) : Shaped width (height + 1) pos (given value false)
  | pair {height pos : ℕ} {left right : PartialTree α} (hleft : Shaped width height (pos * 2) left)
      (hwidth : pos * 2 + 1 < width height) (hright : Shaped width height (pos * 2 + 1) right) :
      Shaped width (height + 1) pos (pair left right)
  | single {height pos : ℕ} {left : PartialTree α} (hleft : Shaped width height (pos * 2) left)
      (hwidth : ¬ pos * 2 + 1 < width height) : Shaped width (height + 1) pos (single left)

/-- **Trees are known by what is written** : flags and values of two trees at one place, each in
front of something else, are the same only for the same tree. -/
theorem Shaped.unique {width : ℕ → ℕ} {height pos : ℕ} {tree tree' : PartialTree α}
    (h : Shaped width height pos tree) (h' : Shaped width height pos tree') {bits bits' : List Bool}
    {rest rest' : List α} (hflags : tree.flags ++ bits = tree'.flags ++ bits')
    (hvalues : tree.values ++ rest = tree'.values ++ rest') : tree = tree' ∧ bits = bits' ∧
    rest = rest' := by
  induction h generalizing tree' bits bits' rest rest' with
  | leaf pos value flag =>
    cases h' with
    | leaf _ value' flag' =>
      cases hflags
      cases hvalues
      exact ⟨rfl, rfl, rfl⟩
  | pruned height pos value =>
    cases h' with
    | pruned _ _ value' =>
      cases hflags
      cases hvalues
      exact ⟨rfl, rfl, rfl⟩
    | pair hleft' hwidth' hright' => cases hflags
    | single hleft' hwidth' => cases hflags
  | pair hleft hwidth hright ihLeft ihRight =>
    cases h' with
    | pruned _ _ value' => cases hflags
    | single hleft' hwidth' => exact absurd hwidth hwidth'
    | pair hleft' hwidth' hright' =>
      rw [flags, flags, List.cons_append, List.cons_append, List.append_assoc,
        List.append_assoc] at hflags
      rw [values, values, List.append_assoc, List.append_assoc] at hvalues
      obtain ⟨rfl, hflags, hvalues⟩ := ihLeft hleft' (List.cons.inj hflags).2 hvalues
      obtain ⟨rfl, hbits, hrest⟩ := ihRight hright' hflags hvalues
      exact ⟨rfl, hbits, hrest⟩
  | single hleft hwidth ihLeft =>
    cases h' with
    | pruned _ _ value' => cases hflags
    | pair hleft' hwidth' hright' => exact absurd hwidth' hwidth
    | single hleft' hwidth' =>
      obtain ⟨rfl, hbits, hrest⟩ := ihLeft hleft' (List.cons.inj hflags).2 hvalues
      exact ⟨rfl, hbits, hrest⟩

end PartialTree
