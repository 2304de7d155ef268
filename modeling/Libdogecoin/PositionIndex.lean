/-
# Tables of positions

An array of items is searched through a table that maps the key of an item to its position. A search
that does not trust the table scans the array instead.

* `Exact` : the table has one entry for each position, and no key twice;
* `exact_append`, `exact_rebuild` : an item is added at the end, and a table is built again;
* `Exact.lookup_eq_scan` : a search through the table finds what a scan finds.
-/
import Mathlib.Data.List.Nodup
import Mathlib.Data.List.Perm.Basic

namespace PositionIndex

variable {κ : Type*} {i : ℕ}

/-- A hash table from keys to positions, the newest entry first. -/
abbrev Index (κ : Type*) := List (κ × ℕ)

/-- The table of an array, built from its start. -/
def rebuild (keys : List κ) : Index κ := keys.zipIdx.foldl (fun index entry => entry :: index) []

/-- The keys are distinct, and the table maps exactly each of them to its position. -/
structure Exact (keys : List κ) (index : Index κ) : Prop where
  distinct : keys.Nodup
  entries : index.Perm keys.zipIdx

theorem Exact.nil : Exact ([] : List κ) [] := ⟨List.nodup_nil, List.Perm.refl _⟩

variable {keys : List κ} {index : Index κ} {k : κ}

theorem Exact.length_eq (h : Exact keys index) : index.length = keys.length := by
  rw [h.entries.length_eq, List.length_zipIdx]

/-- A new key at the end of the array. -/
theorem exact_append (h : Exact keys index) (hk : k ∉ keys) :
    Exact (keys ++ [k]) ((k, keys.length) :: index) := by
  constructor
  · rw [List.nodup_append]
    refine ⟨h.distinct, List.nodup_singleton k, ?_⟩
    intro a ha b hb
    rw [List.mem_singleton.mp hb]
    rintro rfl
    exact hk ha
  · rw [List.zipIdx_append, Nat.zero_add, List.zipIdx_singleton]
    exact (List.Perm.cons _ h.entries).trans (List.perm_append_singleton _ _).symm

/-- **A table that is built again.** -/
theorem exact_rebuild (h : keys.Nodup) : Exact keys (rebuild keys) := by
  refine ⟨h, ?_⟩
  unfold rebuild
  rw [List.foldl_flip_cons_eq_append', List.append_nil]
  exact List.reverse_perm _

/-! ## Searches -/

variable [DecidableEq κ]

/-- The position that the table has for a key. -/
def find (index : Index κ) (k : κ) : Option ℕ := (index.find? (·.1 = k)).map (·.2)

/-- The first position at which a key stands. -/
def scan (keys : List κ) (k : κ) : Option ℕ := keys.findIdx? (· = k)

/-- A key that is in the table gets a new position, and any other key a new entry. -/
def assign (index : Index κ) (k : κ) (i : ℕ) : Index κ :=
  match index.findIdx? (·.1 = k) with
  | some j => index.set j (k, i)
  | none => (k, i) :: index

/-- The position of a key. The array is scanned if the table is empty, or if the table has no right
position for the key and not as many entries as the array has items. -/
def lookup (keys : List κ) (index : Index κ) (k : κ) : Option ℕ :=
  if index = [] then scan keys k
  else
    match (find index k).filter fun i => keys[i]? = some k with
    | some i => some i
    | none => if index.length = keys.length then none else scan keys k

/-- The table has a position for a key if the key stands there. -/
theorem Exact.find_eq_some_iff (h : Exact keys index) :
    find index k = some i ↔ keys[i]? = some k := by
  have hmem : ∀ entry, entry ∈ index ↔ keys[entry.2]? = some entry.1 := fun entry => by
    rw [h.entries.mem_iff, List.mem_zipIdx_iff_getElem?]
  constructor
  · intro hfind
    obtain ⟨entry, hentry, rfl⟩ := Option.map_eq_some_iff.mp hfind
    have hkey := List.find?_some hentry
    rw [← of_decide_eq_true hkey]
    exact (hmem entry).mp (List.mem_of_find?_eq_some hentry)
  · intro hkey
    cases hentry : index.find? (·.1 = k) with
    | none =>
      have hnone := List.find?_eq_none.mp hentry (k, i) ((hmem (k, i)).mpr hkey)
      exact absurd (decide_eq_true rfl) hnone
    | some entry =>
      have hfound : keys[entry.2]? = some k := by
        have hkey' := List.find?_some hentry
        rw [← of_decide_eq_true hkey']
        exact (hmem entry).mp (List.mem_of_find?_eq_some hentry)
      have hpos : entry.2 = i := by
        obtain ⟨hlt, heq⟩ := List.getElem?_eq_some_iff.mp hfound
        obtain ⟨hlt', heq'⟩ := List.getElem?_eq_some_iff.mp hkey
        exact (List.Nodup.getElem_inj_iff h.distinct).mp (heq.trans heq'.symm)
      unfold find
      rw [hentry, Option.map_some, hpos]

theorem Exact.find_eq_none_iff (h : Exact keys index) : find index k = none ↔ k ∉ keys := by
  rw [List.mem_iff_getElem?, Option.eq_none_iff_forall_ne_some]
  simp only [ne_eq, h.find_eq_some_iff, not_exists]

/-- A scan finds the only position of a key. -/
theorem scan_eq_some_iff (h : keys.Nodup) : scan keys k = some i ↔ keys[i]? = some k := by
  unfold scan
  rw [List.findIdx?_eq_some_iff_getElem, List.getElem?_eq_some_iff]
  constructor
  · rintro ⟨hlt, hkey, -⟩
    exact ⟨hlt, of_decide_eq_true hkey⟩
  · rintro ⟨hlt, hkey⟩
    refine ⟨hlt, decide_eq_true hkey, ?_⟩
    intro j hj hsame
    have heq := of_decide_eq_true hsame
    exact absurd ((List.Nodup.getElem_inj_iff h).mp (heq.trans hkey.symm)) (Nat.ne_of_lt hj)

theorem Exact.find_eq_scan (h : Exact keys index) (k : κ) : find index k = scan keys k := by
  apply Option.ext
  intro i
  rw [h.find_eq_some_iff, scan_eq_some_iff h.distinct]

/-- **A search through the table** finds what a scan finds. -/
theorem Exact.lookup_eq_scan (h : Exact keys index) (k : κ) :
    lookup keys index k = scan keys k := by
  unfold lookup
  split
  · rfl
  rw [← h.find_eq_scan, if_pos h.length_eq]
  cases hfind : find index k with
  | none => rfl
  | some i =>
    rw [Option.filter_some, if_pos (decide_eq_true (h.find_eq_some_iff.mp hfind))]

/-- A key that is not in the table is added to it. -/
theorem Exact.assign_eq (h : Exact keys index) (hk : k ∉ keys) (i : ℕ) :
    assign index k i = (k, i) :: index := by
  have hnone : index.findIdx? (·.1 = k) = none := by
    rw [List.findIdx?_eq_none_iff]
    rintro ⟨k', j⟩ hmem
    apply decide_eq_false
    rintro rfl
    have hkey := List.mem_zipIdx_iff_getElem?.mp (h.entries.mem_iff.mp hmem)
    exact hk (List.mem_of_getElem? hkey)
  unfold assign
  rw [hnone]

end PositionIndex
