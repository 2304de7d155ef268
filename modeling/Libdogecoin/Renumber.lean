/-
# Lists with fresh numbers

A list is built again item by item. An item gets the number of the place where it is put. It is left
out if an item that is there covers it.

* `enterAll_eq_filter_iff` : when the new list holds exactly the live items of the old one, as they
  were.
-/
import Mathlib.Data.List.Basic
import Mathlib.Data.Nat.Basic
import Mathlib.Data.List.Induction

namespace Renumber

variable {α : Type}

/-- How items are numbered, which ones are live, and which ones they cover. -/
structure Rules (α : Type) where
  number : ℕ → α → α
  live : α → Bool
  covers : α → α → Bool
  live_number : ∀ n a, live (number n a) = live a
  covers_number : ∀ n e a, covers (number n e) a = covers e a
  live_of_covers : ∀ {e a}, covers e a = true → live e = true

namespace Rules

variable (R : Rules α) {a : α}

/-- One item. -/
def enter (out : List α) (a : α) : List α :=
  if out.any fun e => R.covers e a then out else out ++ [R.number out.length a]

/-- The whole list. -/
def enterAll (l : List α) : List α := l.foldl R.enter []

/-- Each live item has the number of its place among them. -/
def Numbered (l : List α) : Prop := ∀ i a, (l.filter R.live)[i]? = some a → R.number i a = a

/-- Exactly the items that are not live are covered by an item in front of them. -/
def Covered (l : List α) : Prop :=
  ∀ pre a post, l = pre ++ a :: post → ((∃ e ∈ pre, R.covers e a = true) ↔ R.live a = false)

variable {R}

theorem enterAll_concat (l : List α) (a : α) :
    R.enterAll (l ++ [a]) = R.enter (R.enterAll l) a := by
  rw [enterAll, List.foldl_append]
  rfl

variable {l : List α}

/-- Something is entered. -/
theorem enterAll_eq_nil (h : R.enterAll l = []) : l = [] := by
  induction l using List.reverseRecOn with
  | nil => rfl
  | append_singleton l a ih =>
    rw [enterAll_concat, enter] at h
    split_ifs at h with hcovered
    · rw [h] at hcovered
      cases hcovered
    · exact absurd h (List.append_ne_nil_of_right_ne_nil _ (List.cons_ne_nil _ _))

/-- Not more live items are entered than there were. -/
theorem length_enterAll_filter_le (l : List α) :
    ((R.enterAll l).filter R.live).length ≤ (l.filter R.live).length := by
  induction l using List.reverseRecOn with
  | nil => exact le_refl _
  | append_singleton l a ih =>
    rw [enterAll_concat, enter, List.filter_append, List.length_append]
    split_ifs
    · exact Nat.le_add_right_of_le ih
    · rw [List.filter_append, List.length_append, List.filter_singleton,
        List.filter_singleton, R.live_number]
      cases R.live a with
      | true => exact Nat.add_le_add_right ih 1
      | false => exact ih

/-- What covers an item is live, so it is looked for among the live ones. -/
theorem any_filter_live (l : List α) (a : α) :
    ((l.filter R.live).any fun e => R.covers e a) = l.any fun e => R.covers e a := by
  rw [Bool.eq_iff_iff, List.any_eq_true, List.any_eq_true]
  constructor
  · rintro ⟨e, he, hcovers⟩
    exact ⟨e, (List.mem_filter.mp he).1, hcovers⟩
  · rintro ⟨e, he, hcovers⟩
    exact ⟨e, List.mem_filter.mpr ⟨he, R.live_of_covers hcovers⟩, hcovers⟩

theorem covered_nil : R.Covered [] := by
  intro pre a post h
  cases pre with
  | nil => cases h
  | cons b pre => cases h

/-- One more item behind. -/
theorem covered_concat :
    R.Covered (l ++ [a]) ↔ R.Covered l ∧ ((∃ e ∈ l, R.covers e a = true) ↔ R.live a = false) := by
  constructor
  · intro h
    refine ⟨?_, h l a [] rfl⟩
    rintro pre b post rfl
    exact h pre b (post ++ [a]) (by rw [List.append_assoc]; rfl)
  · rintro ⟨hl, ha⟩ pre b post heq
    rcases List.eq_nil_or_concat post with rfl | ⟨post, c, rfl⟩
    · obtain ⟨rfl, hb⟩ := List.append_inj' heq rfl
      obtain rfl := List.singleton_inj.mp hb
      exact ha
    · have hsplit : l ++ [a] = (pre ++ b :: post) ++ [c] := by
        rw [heq, List.concat_eq_append, List.append_assoc]
        rfl
      exact hl pre b post (List.append_inj' hsplit rfl).1

theorem numbered_concat :
    R.Numbered (l ++ [a]) ↔ R.Numbered l ∧
    (R.live a = true → R.number (l.filter R.live).length a = a) := by
  unfold Numbered
  rw [List.filter_append, List.filter_singleton]
  cases hlive : R.live a with
  | false => simp
  | true =>
    constructor
    · intro h
      refine ⟨?_, fun _ => ?_⟩
      · intro i b hb
        apply h i b
        rw [List.getElem?_append_left (List.getElem?_eq_some_iff.mp hb).1]
        exact hb
      · apply h (l.filter R.live).length a
        simp
    · rintro ⟨hl, ha⟩ i b hb
      rcases lt_or_ge i (l.filter R.live).length with hlt | hge
      · rw [List.getElem?_append_left hlt] at hb
        exact hl i b hb
      · rw [List.getElem?_append_right hge] at hb
        obtain ⟨hi, hab⟩ := List.getElem?_eq_some_iff.mp hb
        have hzero : i - (l.filter R.live).length = 0 := Nat.lt_one_iff.mp hi
        have hi' : i = (l.filter R.live).length := by omega
        simp only [hzero] at hab
        change a = b at hab
        rw [← hab, hi']
        exact ha rfl

/-- **The new list** holds exactly the live items, as they were, if each of them has the number of
its place, and those that are not live are the ones that are covered. -/
theorem enterAll_eq_filter_iff : R.enterAll l = l.filter R.live ↔ R.Numbered l ∧ R.Covered l := by
  induction l using List.reverseRecOn with
  | nil =>
    refine iff_of_true rfl ⟨?_, covered_nil⟩
    intro i a h
    cases h
  | append_singleton l a ih =>
    -- an item is covered in the old list if it is covered by a live item
    have hcovers : (∃ e ∈ l, R.covers e a = true) ↔ ((l.filter R.live).any fun e => R.covers e a) =
      true := by
      rw [any_filter_live, List.any_eq_true]
    have hlive : ∀ e ∈ l.filter R.live, R.live e = true := fun e he => (List.mem_filter.mp he).2
    rw [enterAll_concat, enter, List.filter_append, List.filter_singleton, numbered_concat,
      covered_concat, hcovers]
    constructor
    · intro h
      cases ha : R.live a with
      | true =>
        rw [ha] at h
        split_ifs at h with hcovered
        · -- one live item more than there were
          have hle := length_enterAll_filter_le (R := R) l
          have hall : (R.enterAll l).filter R.live = R.enterAll l := by
            rw [List.filter_eq_self, h]
            intro e he
            rcases List.mem_append.mp he with hold | hnew
            · exact hlive e hold
            · obtain rfl := List.mem_singleton.mp hnew
              exact ha
          rw [hall, h, List.length_append] at hle
          exact absurd hle (by change ¬ _ + 1 ≤ _; omega)
        · obtain ⟨hl, hnumber⟩ := List.append_inj' h rfl
          rw [hl] at hcovered hnumber
          obtain ⟨hnumbered, hcovered'⟩ := ih.mp hl
          refine ⟨⟨hnumbered, fun _ => List.singleton_inj.mp hnumber⟩, hcovered', ?_⟩
          exact iff_of_false hcovered Bool.noConfusion
      | false =>
        rw [ha] at h
        change _ = l.filter R.live ++ [] at h
        rw [List.append_nil] at h
        split_ifs at h with hcovered
        · rw [h] at hcovered
          obtain ⟨hnumbered, hcovered'⟩ := ih.mp h
          exact ⟨⟨hnumbered, fun hfalse => by cases hfalse⟩, hcovered', iff_of_true hcovered rfl⟩
        · have hentered : R.number (R.enterAll l).length a ∈ l.filter R.live := by
            rw [← h]
            exact List.mem_append_right _ (List.mem_singleton_self _)
          have hbad := hlive _ hentered
          rw [R.live_number, ha] at hbad
          cases hbad
    · rintro ⟨⟨hnumbered, hnumber⟩, hcovered, hiff⟩
      have hl := ih.mpr ⟨hnumbered, hcovered⟩
      rw [hl]
      cases ha : R.live a with
      | true =>
        rw [if_neg (fun h => Bool.noConfusion ((hiff.mp h).symm.trans ha)), hnumber ha]
        rfl
      | false =>
        rw [if_pos (hiff.mpr ha)]
        exact (List.append_nil _).symm

end Rules

end Renumber
