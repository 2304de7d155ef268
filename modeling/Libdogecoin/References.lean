/-
# References to shared entries

Who refers to which entry is a list of pairs of a holder and an entry, one for each reference.

* `refCount_cons_self`, `refCount_erase_self` : taking a reference and giving it back changes the
  count of its entry;
* `refCount_cons_of_ne`, `refCount_erase_of_ne` : and no other.
-/
import Mathlib.Data.List.Count
import Mathlib.Data.List.Perm.Basic

namespace References

variable {κ α : Type} [DecidableEq κ] [DecidableEq α] {holds : List (κ × α)} {k : κ} {p q : α}

/-- The number of references to an entry. -/
def refCount (holds : List (κ × α)) (p : α) : ℕ := (holds.map Prod.snd).count p

omit [DecidableEq κ] in
theorem refCount_cons_self (holds : List (κ × α)) (k : κ) (p : α) :
    refCount ((k, p) :: holds) p = refCount holds p + 1 := by
  rw [refCount, List.map_cons, List.count_cons_self, refCount]

omit [DecidableEq κ] in
theorem refCount_cons_of_ne (holds : List (κ × α)) (k : κ) (h : q ≠ p) :
    refCount ((k, p) :: holds) q = refCount holds q := by
  rw [refCount, List.map_cons, List.count_cons_of_ne h.symm, refCount]

theorem refCount_cons_erase (h : (k, p) ∈ holds) (q : α) :
    refCount ((k, p) :: holds.erase (k, p)) q = refCount holds q :=
  (((List.perm_cons_erase h).map Prod.snd).count_eq q).symm

theorem refCount_erase_self (h : (k, p) ∈ holds) :
    refCount (holds.erase (k, p)) p + 1 = refCount holds p := by
  rw [← refCount_cons_erase h p, refCount_cons_self]

theorem refCount_erase_of_ne (h : (k, p) ∈ holds) (hne : q ≠ p) :
    refCount (holds.erase (k, p)) q = refCount holds q := by
  rw [← refCount_cons_erase h q, refCount_cons_of_ne _ _ hne]

omit [DecidableEq κ] in
theorem refCount_pos (h : (k, p) ∈ holds) : 0 < refCount holds p :=
  List.count_pos_iff.mpr (List.mem_map_of_mem h)

end References
