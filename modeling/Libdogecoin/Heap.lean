/-
# A heap of linked records

A heap hands out addresses that are never used again; reading an address that was freed or never
allocated gives nothing. Records may hold one link to another address, and `Chain` is what
following these links from an address meets.

* `read_alloc_self`, `read_write_self`, `read_free_self` and their frame lemmas;
* `Chain.linear` : two addresses on one chain are on each other's chain, one way or the other;
* `Chain.le` : where links point downwards, so do chains;
* `Chain.of_agree` : a chain survives any update that keeps the records on it.
-/
import Mathlib.Data.List.Basic
import Mathlib.Order.Basic
import Mathlib.Tactic.Common

/-- A heap: the cells handed out so far, freed ones empty. -/
structure Heap (α : Type) where
  /-- The cells, by address. -/
  cells : List (Option α)
  deriving DecidableEq

namespace Heap

variable {α : Type}

/-- The record at an address, if it is allocated. -/
def read (h : Heap α) (p : ℕ) : Option α := (h.cells[p]?).join

/-- The address the next allocation returns. -/
def fresh (h : Heap α) : ℕ := h.cells.length

/-- Allocate a record at the fresh address. -/
def alloc (h : Heap α) (a : α) : Heap α := ⟨h.cells ++ [some a]⟩

/-- Overwrite the record at an address. -/
def write (h : Heap α) (p : ℕ) (a : α) : Heap α := ⟨h.cells.set p (some a)⟩

/-- Free an address. -/
def free (h : Heap α) (p : ℕ) : Heap α := ⟨h.cells.set p none⟩

/-! ## Frame lemmas -/

variable {h : Heap α} {p q : ℕ}

/-- What is allocated is below the fresh address. -/
theorem lt_fresh {a : α} (hr : h.read p = some a) : p < h.fresh := by
  by_contra hge
  have hnone : h.cells[p]? = none := List.getElem?_eq_none (Nat.le_of_not_lt hge)
  simp [read, hnone] at hr

@[simp] theorem fresh_alloc (h : Heap α) (a : α) : (h.alloc a).fresh = h.fresh + 1 := by
  simp [fresh, alloc]

@[simp] theorem fresh_write (h : Heap α) (p : ℕ) (a : α) : (h.write p a).fresh = h.fresh := by
  simp [fresh, write]

@[simp] theorem fresh_free (h : Heap α) (p : ℕ) : (h.free p).fresh = h.fresh := by
  simp [fresh, free]

@[simp] theorem read_alloc_self (h : Heap α) (a : α) : (h.alloc a).read h.fresh = some a := by
  simp [read, alloc, fresh]

theorem read_alloc_of_ne (h : Heap α) (a : α) (hp : p ≠ h.fresh) :
    (h.alloc a).read p = h.read p := by
  rcases Nat.lt_or_gt_of_ne hp with hlt | hgt
  · simp only [read, alloc]
    rw [List.getElem?_append_left hlt]
  · have hnew : (h.cells ++ [some a])[p]? = none :=
      List.getElem?_eq_none (by rw [List.length_append]; exact hgt)
    have hold : h.cells[p]? = none := List.getElem?_eq_none (Nat.le_of_lt hgt)
    simp only [read, alloc, hnew, hold]

/-- Allocation keeps every record. -/
theorem read_alloc {b : α} (hr : h.read p = some b) (a : α) : (h.alloc a).read p = some b := by
  rw [read_alloc_of_ne h a (Nat.ne_of_lt (lt_fresh hr)), hr]

theorem read_write_self (hp : p < h.fresh) (a : α) : (h.write p a).read p = some a := by
  have hlt : p < h.cells.length := hp
  simp [read, write, hlt]

theorem read_write_of_ne (h : Heap α) (a : α) (hpq : q ≠ p) : (h.write p a).read q = h.read q := by
  simp only [read, write]
  rw [List.getElem?_set_ne (Ne.symm hpq)]

@[simp] theorem read_free_self (h : Heap α) (p : ℕ) : (h.free p).read p = none := by
  by_cases hp : p < h.cells.length
  · simp [read, free, hp]
  · have hnone : (h.cells.set p none)[p]? = none :=
      List.getElem?_eq_none (by simpa using Nat.le_of_not_lt hp)
    simp only [read, free, hnone, Option.join_none]

theorem read_free_of_ne (h : Heap α) (hpq : q ≠ p) : (h.free p).read q = h.read q := by
  simp only [read, free]
  rw [List.getElem?_set_ne (Ne.symm hpq)]

/-! ## Chains of links -/

variable {link : α → Option ℕ}

/-- Following links from `p` meets `q`. -/
inductive Chain (link : α → Option ℕ) (h : Heap α) : ℕ → ℕ → Prop where
  | refl (p : ℕ) : Chain link h p p
  | step {p q r : ℕ} {a : α} (hread : h.read p = some a) (hlink : link a = some q)
      (hrest : Chain link h q r) : Chain link h p r

/-- The address `k` links further. -/
def follow (link : α → Option ℕ) (h : Heap α) : ℕ → ℕ → Option ℕ
  | 0, p => some p
  | k + 1, p =>
    match h.read p with
    | none => none
    | some a =>
      match link a with
      | none => none
      | some q => follow link h k q

namespace Chain

variable {h : Heap α} {p q r : ℕ} {a : α}

theorem single (hread : h.read p = some a) (hlink : link a = some q) :
    Chain link h p q :=
  .step hread hlink (.refl q)

theorem trans (hpq : Chain link h p q) (hqr : Chain link h q r) : Chain link h p r := by
  induction hpq with
  | refl => exact hqr
  | step hread hlink _ ih => exact .step hread hlink (ih hqr)

/-- A chain either stops at once or goes through the link of its start. -/
theorem cases_link (hpr : Chain link h p r) (hread : h.read p = some a) (hlink : link a = some q) :
    r = p ∨ Chain link h q r := by
  cases hpr with
  | refl => exact Or.inl rfl
  | step hread' hlink' hrest =>
    rw [hread] at hread'
    cases hread'
    rw [hlink] at hlink'
    cases hlink'
    exact Or.inr hrest

/-- The chain of a record without a link is the record itself. -/
theorem eq_of_no_link (hpr : Chain link h p r) (hread : h.read p = some a) (hlink : link a = none) :
    r = p := by
  cases hpr with
  | refl => rfl
  | step hread' hlink' hrest =>
    rw [hread] at hread'
    cases hread'
    rw [hlink] at hlink'
    cases hlink'

/-- Addresses on one chain are comparable. -/
theorem linear (hpq : Chain link h p q) (hpr : Chain link h p r) :
    Chain link h q r ∨ Chain link h r q := by
  induction hpq with
  | refl => exact Or.inl hpr
  | step hread hlink hrest ih =>
    rcases hpr.cases_link hread hlink with rfl | hqr
    · exact Or.inr (.step hread hlink hrest)
    · exact ih hqr

/-- Where every link points downwards, a chain does. -/
theorem le (hdown : ∀ p a q, h.read p = some a → link a = some q → q < p) (hpq : Chain link h p q) :
    q ≤ p := by
  induction hpq with
  | refl => exact Nat.le_refl _
  | step hread hlink _ ih => exact Nat.le_trans ih (Nat.le_of_lt (hdown _ _ _ hread hlink))

/-- A chain only depends on the records it passes. -/
theorem of_agree {h' : Heap α} (hpq : Chain link h p q)
    (hagree : ∀ r a, Chain link h p r → r ≠ q → h.read r = some a → h'.read r = some a) :
    Chain link h' p q := by
  induction hpq with
  | refl => exact .refl _
  | @step p q r a hread hlink hrest ih =>
    by_cases hpr : p = r
    · subst hpr
      exact .refl _
    · refine .step (hagree p a (.refl p) hpr hread) hlink (ih fun s b hs hne hb => ?_)
      exact hagree s b (.step hread hlink hs) hne hb

end Chain

/-- What `follow` reaches is on the chain. -/
theorem chain_of_follow {k : ℕ} (hf : follow link h k p = some q) : Chain link h p q := by
  induction k generalizing p with
  | zero =>
    obtain rfl : p = q := Option.some.inj hf
    exact .refl p
  | succ k ih =>
    rw [follow] at hf
    split at hf
    · cases hf
    · next a hread =>
        split at hf
        · cases hf
        · next r hlink => exact .step hread hlink (ih hf)

end Heap
