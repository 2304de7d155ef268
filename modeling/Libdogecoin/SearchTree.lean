/-
# Binary search trees with an explicit comparison

Unbalanced search trees that bind keys to values, with search, insertion that keeps an existing
binding, and Knuth's deletion. `SearchTree cmp` packages a tree with its order invariant.

* `find_insert`, `find_erase` : the two updates, read back by `find`;
* `mem_takeMin` : the successor removed by a deletion and what it leaves behind;
* `bindings_insert`, `bindings_modify` : the bindings from left to right, which never have a key
  twice.
-/
import Mathlib.Data.List.Basic
import Mathlib.Order.Basic

/-- A binary tree of bindings. -/
inductive BinTree (κ β : Type) where
  | nil : BinTree κ β
  | node (left : BinTree κ β) (key : κ) (val : β) (right : BinTree κ β) : BinTree κ β
  deriving Repr, DecidableEq

namespace BinTree

variable {κ β : Type} (cmp : κ → κ → Ordering)

/-- The binding `(k, v)` occurs in the tree. -/
def Mem (k : κ) (v : β) : BinTree κ β → Prop
  | nil => False
  | node l k' v' r => Mem k v l ∨ (k = k' ∧ v = v') ∨ Mem k v r

@[simp] theorem not_mem_nil (k : κ) (v : β) : ¬ Mem k v nil := fun h => h

variable {l r t : BinTree κ β} {k k' : κ} {v v' : β}

@[simp] theorem mem_node : Mem k v (node l k' v' r) ↔ Mem k v l ∨ (k = k' ∧ v = v') ∨
    Mem k v r := Iff.rfl

/-- The search-tree invariant: smaller keys to the left, larger keys to the right. -/
def Ordered : BinTree κ β → Prop
  | nil => True
  | node l k _ r => Ordered l ∧ Ordered r ∧ (∀ k' v', Mem k' v' l → cmp k' k = .lt) ∧
      (∀ k' v', Mem k' v' r → cmp k k' = .lt)

/-! ## The operations -/

/-- Search for a key. -/
def tfind (k : κ) : BinTree κ β → Option β
  | nil => none
  | node l k' v' r =>
    match cmp k k' with
    | .eq => some v'
    | .lt => tfind k l
    | .gt => tfind k r

/-- Insert a binding; an existing binding of the key is kept. -/
def tsearch (k : κ) (v : β) : BinTree κ β → BinTree κ β
  | nil => node nil k v nil
  | node l k' v' r =>
    match cmp k k' with
    | .eq => node l k' v' r
    | .lt => node (tsearch k v l) k' v' r
    | .gt => node l k' v' (tsearch k v r)

/-- Change the value of a key in its place. -/
def modify (k : κ) (f : β → β) : BinTree κ β → BinTree κ β
  | nil => nil
  | node l k' v' r =>
    match cmp k k' with
    | .eq => node l k' (f v') r
    | .lt => node (modify k f l) k' v' r
    | .gt => node l k' v' (modify k f r)

/-- The bindings from left to right. -/
def toList : BinTree κ β → List (κ × β)
  | nil => []
  | node l k v r => l.toList ++ (k, v) :: r.toList

/-- The least binding of `node l k v r` and the tree left when it is unlinked. -/
def takeMin : BinTree κ β → κ → β → BinTree κ β → (κ × β) × BinTree κ β
  | nil, k, v, r => ((k, v), r)
  | node ll lk lv lr, k, v, r =>
    let (m, l') := takeMin ll lk lv lr
    (m, node l' k v r)

/-- What replaces a deleted node with subtrees `l` and `r`: one of them if the other is empty,
otherwise the successor of the node over both. -/
def unlink (l r : BinTree κ β) : BinTree κ β :=
  match l, r with
  | nil, r => r
  | l, nil => l
  | l, node rl rk rv rr =>
    let (m, r') := takeMin rl rk rv rr
    node l m.1 m.2 r'

/-- Knuth's deletion. -/
def tdelete (k : κ) : BinTree κ β → BinTree κ β
  | nil => nil
  | node l k' v' r =>
    match cmp k k' with
    | .eq => unlink l r
    | .lt => node (tdelete k l) k' v' r
    | .gt => node l k' v' (tdelete k r)

/-! ## Membership -/

private theorem cmp_self [Std.TransCmp cmp] (k : κ) : cmp k k = .eq := Std.ReflCmp.compare_self

/-- `takeMin` splits off one binding and keeps the others. -/
theorem mem_takeMin (l : BinTree κ β) (k : κ) (v : β) (r : BinTree κ β) (k' : κ) (v' : β) :
    Mem k' v' (node l k v r) ↔
      (k' = (takeMin l k v r).1.1 ∧ v' = (takeMin l k v r).1.2) ∨ Mem k' v'
      (takeMin l k v r).2 := by
  induction l generalizing k v r with
  | nil => simp [takeMin]
  | node ll lk lv lr ihl _ =>
    have h := ihl lk lv lr
    simp only [takeMin, mem_node] at h ⊢
    rw [h]
    tauto

theorem mem_unlink (l r : BinTree κ β) (k : κ) (v : β) :
    Mem k v (unlink l r) ↔ Mem k v l ∨ Mem k v r := by
  cases l with
  | nil => simp [unlink]
  | node ll lk lv lr =>
    cases r with
    | nil => simp [unlink]
    | node rl rk rv rr =>
      rw [mem_takeMin rl rk rv rr]
      simp [unlink]

variable {cmp}

/-- The binding unlinked by `takeMin` is below everything that is left. -/
theorem takeMin_lt [Std.TransCmp cmp] (ho : Ordered cmp (node l k v r))
    (hm : Mem k' v' (takeMin l k v r).2) :
    cmp (takeMin l k v r).1.1 k' = .lt := by
  induction l generalizing k v r with
  | nil => exact ho.2.2.2 k' v' hm
  | node ll lk lv lr ihl _ =>
    obtain ⟨hol, -, hl, hr⟩ := ho
    have hmin : cmp (takeMin ll lk lv lr).1.1 k = .lt :=
      hl _ _ ((mem_takeMin ll lk lv lr _ _).mpr (Or.inl ⟨rfl, rfl⟩))
    simp only [takeMin, mem_node] at hm ⊢
    rcases hm with hm | ⟨rfl, rfl⟩ | hm
    · exact ihl hol hm
    · exact hmin
    · exact Std.TransCmp.lt_trans hmin (hr _ _ hm)

theorem ordered_takeMin (ho : Ordered cmp (node l k v r)) : Ordered cmp (takeMin l k v r).2 := by
  induction l generalizing k v r with
  | nil => exact ho.2.1
  | node ll lk lv lr ihl _ =>
    obtain ⟨hol, hor, hl, hr⟩ := ho
    refine ⟨ihl hol, hor, fun k' v' hm => ?_, hr⟩
    exact hl k' v' ((mem_takeMin ll lk lv lr k' v').mpr (Or.inr hm))

theorem ordered_unlink [Std.TransCmp cmp] (ho : Ordered cmp (node l k v r)) :
    Ordered cmp (unlink l r) := by
  obtain ⟨hol, hor, hl, hr⟩ := ho
  cases l with
  | nil => simpa [unlink] using hor
  | node ll lk lv lr =>
    cases r with
    | nil => simpa [unlink] using hol
    | node rl rk rv rr =>
      have hmin : cmp k (takeMin rl rk rv rr).1.1 = .lt :=
        hr _ _ ((mem_takeMin rl rk rv rr _ _).mpr (Or.inl ⟨rfl, rfl⟩))
      refine ⟨hol, ordered_takeMin hor, fun k' v' hm => ?_, fun k' v' hm => ?_⟩
      · exact Std.TransCmp.lt_trans (hl k' v' hm) hmin
      · exact takeMin_lt hor hm

theorem mem_tsearch_sub (hm : Mem k' v' (tsearch cmp k v t)) : Mem k' v' t ∨ (k' = k ∧ v' = v) := by
  induction t with
  | nil => simpa [tsearch] using hm
  | node l nk nv r ihl ihr =>
    rw [tsearch] at hm
    split at hm
    · exact Or.inl hm
    · rcases hm with hm | hm | hm
      · exact (ihl hm).imp_left fun h => Or.inl h
      · exact Or.inl (Or.inr (Or.inl hm))
      · exact Or.inl (Or.inr (Or.inr hm))
    · rcases hm with hm | hm | hm
      · exact Or.inl (Or.inl hm)
      · exact Or.inl (Or.inr (Or.inl hm))
      · exact (ihr hm).imp_left fun h => Or.inr (Or.inr h)

theorem mem_tdelete_sub (hm : Mem k' v' (tdelete cmp k t)) : Mem k' v' t := by
  induction t with
  | nil => exact hm
  | node l nk nv r ihl ihr =>
    rw [tdelete] at hm
    split at hm
    · rw [mem_unlink] at hm
      exact hm.imp_right Or.inr
    · exact hm.imp_left ihl
    · exact hm.imp_right (Or.imp_right ihr)

/-- Insertion keeps the invariant. -/
theorem ordered_tsearch [Std.TransCmp cmp] (ho : Ordered cmp t) (k : κ) (v : β) :
    Ordered cmp (tsearch cmp k v t) := by
  induction t with
  | nil => simp [tsearch, Ordered]
  | node l nk nv r ihl ihr =>
    obtain ⟨hol, hor, hl, hr⟩ := ho
    rw [tsearch]
    split
    · exact ⟨hol, hor, hl, hr⟩
    · next hlt =>
        refine ⟨ihl hol, hor, fun k' v' hm => ?_, hr⟩
        rcases mem_tsearch_sub hm with hm | ⟨rfl, rfl⟩
        · exact hl k' v' hm
        · exact hlt
    · next hgt =>
        refine ⟨hol, ihr hor, hl, fun k' v' hm => ?_⟩
        rcases mem_tsearch_sub hm with hm | ⟨rfl, rfl⟩
        · exact hr k' v' hm
        · exact Std.OrientedCmp.lt_of_gt hgt

/-- Deletion keeps the invariant. -/
theorem ordered_tdelete [Std.TransCmp cmp] (ho : Ordered cmp t) (k : κ) :
    Ordered cmp (tdelete cmp k t) := by
  induction t with
  | nil => exact ho
  | node l nk nv r ihl ihr =>
    obtain ⟨hol, hor, hl, hr⟩ := ho
    rw [tdelete]
    split
    · exact ordered_unlink (show Ordered cmp (node l nk nv r) from ⟨hol, hor, hl, hr⟩)
    · exact ⟨ihl hol, hor, fun k' v' hm => hl k' v' (mem_tdelete_sub hm), hr⟩
    · exact ⟨hol, ihr hor, hl, fun k' v' hm => hr k' v' (mem_tdelete_sub hm)⟩

/-! ## Search -/

/-- In an ordered tree the search finds exactly the binding of the key. -/
theorem tfind_eq_some [Std.TransCmp cmp] [Std.LawfulEqCmp cmp] (ho : Ordered cmp t) :
    tfind cmp k t = some v ↔ Mem k v t := by
  induction t with
  | nil => simp [tfind]
  | node l nk nv r ihl ihr =>
    obtain ⟨hol, hor, hl, hr⟩ := ho
    have hleft : ∀ v, Mem k v l → cmp k nk = .lt := fun v hm => hl k v hm
    have hright : ∀ v, Mem k v r → cmp k nk = .gt := fun v hm =>
      Std.OrientedCmp.gt_of_lt (hr k v hm)
    rw [tfind, mem_node]
    split
    · next heq =>
        have hk : k = nk := Std.LawfulEqCmp.eq_of_compare heq
        constructor
        · intro h
          exact Or.inr (Or.inl ⟨hk, (Option.some.inj h).symm⟩)
        · rintro (hm | ⟨-, rfl⟩ | hm)
          · rw [hleft v hm] at heq; cases heq
          · rfl
          · rw [hright v hm] at heq; cases heq
    · next hlt =>
        rw [ihl hol]
        constructor
        · exact Or.inl
        · rintro (hm | ⟨rfl, -⟩ | hm)
          · exact hm
          · rw [cmp_self cmp] at hlt; cases hlt
          · rw [hright v hm] at hlt; cases hlt
    · next hgt =>
        rw [ihr hor]
        constructor
        · exact fun hm => Or.inr (Or.inr hm)
        · rintro (hm | ⟨rfl, -⟩ | hm)
          · rw [hleft v hm] at hgt; cases hgt
          · rw [cmp_self cmp] at hgt; cases hgt
          · exact hm

theorem tfind_tsearch [Std.TransCmp cmp] [Std.LawfulEqCmp cmp] [DecidableEq κ] (t : BinTree κ β)
    (k k' : κ) (v : β) :
    tfind cmp k' (tsearch cmp k v t) = if k' = k then some ((tfind cmp k t).getD v) else
      tfind cmp k' t := by
  induction t with
  | nil =>
    by_cases h : k' = k
    · subst h
      simp [tsearch, tfind, cmp_self cmp]
    · have hne : cmp k' k ≠ .eq := fun he => h (Std.LawfulEqCmp.eq_of_compare he)
      rw [if_neg h]
      cases hc : cmp k' k with
      | eq => exact absurd hc hne
      | lt => simp [tsearch, tfind, hc]
      | gt => simp [tsearch, tfind, hc]
  | node l nk nv r ihl ihr =>
    rw [tsearch]
    by_cases h : k' = k
    · subst h
      rw [if_pos rfl] at ihl ihr ⊢
      cases hc : cmp k' nk with
      | eq => simp [tfind, hc]
      | lt => simp only [tfind, hc]; exact ihl
      | gt => simp only [tfind, hc]; exact ihr
    · rw [if_neg h] at ihl ihr ⊢
      cases hc : cmp k nk with
      | eq => rfl
      | lt => simp only [tfind]; split <;> first | rfl | exact ihl
      | gt => simp only [tfind]; split <;> first | rfl | exact ihr

theorem mem_tdelete [Std.TransCmp cmp] [Std.LawfulEqCmp cmp] (ho : Ordered cmp t) :
    Mem k' v' (tdelete cmp k t) ↔ Mem k' v' t ∧ k' ≠ k := by
  induction t with
  | nil => simp [tdelete]
  | node l nk nv r ihl ihr =>
    obtain ⟨hol, hor, hl, hr⟩ := ho
    have hleft : ∀ v, Mem k' v l → cmp k' nk = .lt := fun v hm => hl k' v hm
    have hright : ∀ v, Mem k' v r → cmp nk k' = .lt := fun v hm => hr k' v hm
    have hirrefl : cmp nk nk ≠ .lt := by rw [cmp_self cmp]; decide
    rw [tdelete]
    cases hc : cmp k nk with
    | eq =>
      have hk : k = nk := Std.LawfulEqCmp.eq_of_compare hc
      subst hk
      rw [mem_unlink, mem_node]
      constructor
      · rintro (hm | hm)
        · exact ⟨Or.inl hm, fun he => hirrefl (he ▸ hleft v' hm)⟩
        · exact ⟨Or.inr (Or.inr hm), fun he => hirrefl (he ▸ hright v' hm)⟩
      · rintro ⟨hm | ⟨rfl, -⟩ | hm, hne⟩
        · exact Or.inl hm
        · exact absurd rfl hne
        · exact Or.inr hm
    | lt =>
      have hkne : k ≠ nk := fun he => by rw [he, cmp_self cmp] at hc; cases hc
      rw [mem_node, mem_node, ihl hol]
      constructor
      · rintro (⟨hm, hne⟩ | ⟨rfl, rfl⟩ | hm)
        · exact ⟨Or.inl hm, hne⟩
        · exact ⟨Or.inr (Or.inl ⟨rfl, rfl⟩), fun he => hkne he.symm⟩
        · refine ⟨Or.inr (Or.inr hm), fun he => ?_⟩
          have hgt := Std.OrientedCmp.gt_of_lt (hright v' hm)
          rw [he, hc] at hgt
          cases hgt
      · rintro ⟨hm | hm | hm, hne⟩
        · exact Or.inl ⟨hm, hne⟩
        · exact Or.inr (Or.inl hm)
        · exact Or.inr (Or.inr hm)
    | gt =>
      have hkne : k ≠ nk := fun he => by rw [he, cmp_self cmp] at hc; cases hc
      rw [mem_node, mem_node, ihr hor]
      constructor
      · rintro (hm | ⟨rfl, rfl⟩ | ⟨hm, hne⟩)
        · refine ⟨Or.inl hm, fun he => ?_⟩
          have hlt := hleft v' hm
          rw [he, hc] at hlt
          cases hlt
        · exact ⟨Or.inr (Or.inl ⟨rfl, rfl⟩), fun he => hkne he.symm⟩
        · exact ⟨Or.inr (Or.inr hm), hne⟩
      · rintro ⟨hm | hm | hm, hne⟩
        · exact Or.inl hm
        · exact Or.inr (Or.inl hm)
        · exact Or.inr (Or.inr ⟨hm, hne⟩)

/-! ## Bindings in order -/

theorem mem_toList : (k, v) ∈ t.toList ↔ Mem k v t := by
  induction t with
  | nil => simp [toList]
  | node l nk nv r ihl ihr => simp [toList, ihl, ihr]

/-- No key is bound twice. -/
theorem pairwise_keys [Std.TransCmp cmp] (ho : Ordered cmp t) :
    t.toList.Pairwise fun b b' => cmp b.1 b'.1 = .lt := by
  induction t with
  | nil => exact List.Pairwise.nil
  | node l nk nv r ihl ihr =>
    obtain ⟨hol, hor, hl, hr⟩ := ho
    rw [toList, List.pairwise_append, List.pairwise_cons]
    refine ⟨ihl hol, ⟨fun b hb => hr _ _ (mem_toList.mp hb), ihr hor⟩, fun b hb b' hb' => ?_⟩
    have hlow := hl _ _ (mem_toList.mp hb)
    rcases List.mem_cons.mp hb' with rfl | hb'
    · exact hlow
    · exact Std.TransCmp.lt_trans hlow (hr _ _ (mem_toList.mp hb'))

/-- A new binding is put between others. -/
theorem toList_tsearch (h : tfind cmp k t = none) (v : β) :
    ∃ before after, t.toList = before ++ after ∧ (tsearch cmp k v t).toList =
      before ++ (k, v) :: after := by
  induction t with
  | nil => exact ⟨[], [], rfl, rfl⟩
  | node l nk nv r ihl ihr =>
    rw [tfind] at h
    rw [tsearch]
    cases hc : cmp k nk with
    | eq =>
      rw [hc] at h
      cases h
    | lt =>
      rw [hc] at h
      obtain ⟨before, after, hold, hnew⟩ := ihl h
      refine ⟨before, after ++ (nk, nv) :: r.toList, ?_, ?_⟩
      · rw [toList, hold, List.append_assoc]
      · rw [toList, hnew, List.append_assoc, List.cons_append]
    | gt =>
      rw [hc] at h
      obtain ⟨before, after, hold, hnew⟩ := ihr h
      refine ⟨l.toList ++ (nk, nv) :: before, after, ?_, ?_⟩
      · rw [toList, hold, List.append_assoc, List.cons_append]
      · rw [toList, hnew, List.append_assoc, List.cons_append]

/-- A binding is changed where it is. -/
theorem toList_modify [Std.LawfulEqCmp cmp] (h : tfind cmp k t = some v) (f : β → β) :
    ∃ before after, t.toList = before ++ (k, v) :: after ∧
      (modify cmp k f t).toList = before ++ (k, f v) :: after := by
  induction t with
  | nil => cases h
  | node l nk nv r ihl ihr =>
    rw [tfind] at h
    rw [modify]
    cases hc : cmp k nk with
    | eq =>
      rw [hc] at h
      cases h
      have hk : k = nk := Std.LawfulEqCmp.eq_of_compare hc
      refine ⟨l.toList, r.toList, ?_, ?_⟩
      · rw [toList, hk]
      · rw [toList, hk]
    | lt =>
      rw [hc] at h
      obtain ⟨before, after, hold, hnew⟩ := ihl h
      refine ⟨before, after ++ (nk, nv) :: r.toList, ?_, ?_⟩
      · rw [toList, hold, List.append_assoc, List.cons_append]
      · rw [toList, hnew, List.append_assoc, List.cons_append]
    | gt =>
      rw [hc] at h
      obtain ⟨before, after, hold, hnew⟩ := ihr h
      refine ⟨l.toList ++ (nk, nv) :: before, after, ?_, ?_⟩
      · rw [toList, hold, List.append_assoc, List.cons_append]
      · rw [toList, hnew, List.append_assoc, List.cons_append]

theorem mem_modify_sub {f : β → β} (hm : Mem k' v' (modify cmp k f t)) : ∃ v, Mem k' v t := by
  induction t with
  | nil => cases hm
  | node l nk nv r ihl ihr =>
    rw [modify] at hm
    split at hm
    · rcases hm with hm | ⟨rfl, -⟩ | hm
      · exact ⟨v', Or.inl hm⟩
      · exact ⟨nv, Or.inr (Or.inl ⟨rfl, rfl⟩)⟩
      · exact ⟨v', Or.inr (Or.inr hm)⟩
    · rcases hm with hm | hm | hm
      · obtain ⟨v, hv⟩ := ihl hm
        exact ⟨v, Or.inl hv⟩
      · exact ⟨v', Or.inr (Or.inl hm)⟩
      · exact ⟨v', Or.inr (Or.inr hm)⟩
    · rcases hm with hm | hm | hm
      · exact ⟨v', Or.inl hm⟩
      · exact ⟨v', Or.inr (Or.inl hm)⟩
      · obtain ⟨v, hv⟩ := ihr hm
        exact ⟨v, Or.inr (Or.inr hv)⟩

/-- A change of values keeps the invariant. -/
theorem ordered_modify (ho : Ordered cmp t) (k : κ) (f : β → β) :
    Ordered cmp (modify cmp k f t) := by
  induction t with
  | nil => exact ho
  | node l nk nv r ihl ihr =>
    obtain ⟨hol, hor, hl, hr⟩ := ho
    rw [modify]
    split
    · exact ⟨hol, hor, hl, hr⟩
    · refine ⟨ihl hol, hor, fun k' v' hm => ?_, hr⟩
      obtain ⟨v, hv⟩ := mem_modify_sub hm
      exact hl k' v hv
    · refine ⟨hol, ihr hor, hl, fun k' v' hm => ?_⟩
      obtain ⟨v, hv⟩ := mem_modify_sub hm
      exact hr k' v hv

theorem tfind_modify [Std.TransCmp cmp] [Std.LawfulEqCmp cmp] [DecidableEq κ]
    (t : BinTree κ β) (k k' : κ) (f : β → β) :
    tfind cmp k' (modify cmp k f t) = if k' = k then (tfind cmp k t).map f else tfind cmp k' t := by
  induction t with
  | nil => simp [modify, tfind]
  | node l nk nv r ihl ihr =>
    rw [modify]
    by_cases h : k' = k
    · subst h
      rw [if_pos rfl] at ihl ihr ⊢
      cases hc : cmp k' nk with
      | eq => simp [tfind, hc]
      | lt => simp only [tfind, hc]; exact ihl
      | gt => simp only [tfind, hc]; exact ihr
    · rw [if_neg h] at ihl ihr ⊢
      cases hc : cmp k nk with
      | eq =>
        have hk : k = nk := Std.LawfulEqCmp.eq_of_compare hc
        have hne : cmp k' nk ≠ .eq := fun he => h ((Std.LawfulEqCmp.eq_of_compare he).trans hk.symm)
        cases hc' : cmp k' nk with
        | eq => exact absurd hc' hne
        | lt => simp only [tfind, hc']
        | gt => simp only [tfind, hc']
      | lt => simp only [tfind]; split <;> first | rfl | exact ihl
      | gt => simp only [tfind]; split <;> first | rfl | exact ihr

end BinTree

/-- A binary tree with its search-tree invariant. -/
structure SearchTree (κ β : Type) (cmp : κ → κ → Ordering) where
  /-- The underlying tree. -/
  tree : BinTree κ β
  /-- Keys are in order. -/
  ordered : BinTree.Ordered cmp tree

namespace SearchTree

variable {κ β : Type} {cmp : κ → κ → Ordering}

instance [DecidableEq κ] [DecidableEq β] : DecidableEq (SearchTree κ β cmp) := fun s t =>
  decidable_of_iff (s.tree = t.tree) ⟨fun h => by cases s; cases t; cases h; rfl, fun h => h ▸ rfl⟩

/-- The tree without bindings. -/
def empty : SearchTree κ β cmp := ⟨.nil, trivial⟩

/-- The value bound to a key. -/
def find (t : SearchTree κ β cmp) (k : κ) : Option β := t.tree.tfind cmp k

/-- The bindings of a tree. -/
def bindings (t : SearchTree κ β cmp) : List (κ × β) := t.tree.toList

/-- Change the value of a key in its place. -/
def modify (t : SearchTree κ β cmp) (k : κ) (f : β → β) : SearchTree κ β cmp :=
  ⟨t.tree.modify cmp k f, BinTree.ordered_modify t.ordered k f⟩

@[simp] theorem find_empty (k : κ) : (empty : SearchTree κ β cmp).find k = none := rfl

variable [Std.TransCmp cmp]

/-- Bind a key that has no value yet. -/
def insert (t : SearchTree κ β cmp) (k : κ) (v : β) : SearchTree κ β cmp :=
  ⟨t.tree.tsearch cmp k v, BinTree.ordered_tsearch t.ordered k v⟩

/-- Remove the binding of a key. -/
def erase (t : SearchTree κ β cmp) (k : κ) : SearchTree κ β cmp :=
  ⟨t.tree.tdelete cmp k, BinTree.ordered_tdelete t.ordered k⟩

variable [Std.LawfulEqCmp cmp] [DecidableEq κ]

/-- **Insertion.** A bound key keeps its value, an unbound one gets the new value. -/
theorem find_insert (t : SearchTree κ β cmp) (k k' : κ) (v : β) :
    (t.insert k v).find k' = if k' = k then some ((t.find k).getD v) else t.find k' :=
  BinTree.tfind_tsearch t.tree k k' v

/-- **Deletion.** The key is unbound afterwards and every other key is untouched. -/
theorem find_erase (t : SearchTree κ β cmp) (k k' : κ) :
    (t.erase k).find k' = if k' = k then none else t.find k' := by
  apply Option.ext
  intro v
  have hnew : (t.erase k).find k' = some v ↔ t.find k' = some v ∧ k' ≠ k := by
    rw [find, find, BinTree.tfind_eq_some (t.erase k).ordered, BinTree.tfind_eq_some t.ordered]
    exact BinTree.mem_tdelete t.ordered
  rw [hnew]
  by_cases h : k' = k
  · simp [h]
  · simp [h]

theorem find_modify (t : SearchTree κ β cmp) (k k' : κ) (f : β → β) :
    (t.modify k f).find k' = if k' = k then (t.find k).map f else t.find k' :=
  BinTree.tfind_modify t.tree k k' f

omit [Std.LawfulEqCmp cmp] [DecidableEq κ] in
/-- **Keys** occur once. -/
theorem nodup_keys (t : SearchTree κ β cmp) : (t.bindings.map Prod.fst).Nodup := by
  rw [List.Nodup, List.pairwise_map]
  refine (BinTree.pairwise_keys t.ordered).imp fun hlt heq => ?_
  rw [heq, @Std.ReflCmp.compare_self _ cmp] at hlt
  cases hlt

variable {t : SearchTree κ β cmp} {k : κ}

omit [Std.LawfulEqCmp cmp] [DecidableEq κ] in
theorem bindings_insert (h : t.find k = none) (v : β) :
    ∃ before after, t.bindings = before ++ after ∧ (t.insert k v).bindings =
      before ++ (k, v) :: after :=
  BinTree.toList_tsearch h v

omit [Std.TransCmp cmp] [DecidableEq κ] in
theorem bindings_modify {v : β} (h : t.find k = some v) (f : β → β) :
    ∃ before after, t.bindings = before ++ (k, v) :: after ∧
      (t.modify k f).bindings = before ++ (k, f v) :: after :=
  BinTree.toList_modify h f

theorem find_insert_self (h : t.find k = none) (v : β) : (t.insert k v).find k = some v := by
  rw [find_insert, if_pos rfl, h, Option.getD_none]

theorem find_insert_of_ne (t : SearchTree κ β cmp) {k' : κ} (h : k' ≠ k) (v : β) :
    (t.insert k v).find k' = t.find k' := by
  rw [find_insert, if_neg h]

end SearchTree
