/-
# Exact reading

A reader takes a value from the front of a list and leaves the rest. Beside a writer it is exact
at the lists with a property: there, and only there, what the writer writes for the value is the
part of the list that was taken.

* `Exact.eq_append`, `Exact.take_iff` : what exactness says about the list that was read;
* `Exact.many` : a reader that is exact for each item is exact for a row of items.
-/
import Mathlib.Data.List.Basic

namespace ExactRead

variable {α β : Type} {n : ℕ} {xs : List α}

/-- A property of what the reader leaves, and of the value it takes. -/
def Then (read : List β → Option (α × List β)) (P : α → List β → Prop) (buf : List β) : Prop :=
  match read buf with
  | none => True
  | some (x, rest) => P x rest

instance (read : List β → Option (α × List β)) (P : α → List β → Prop)
    [∀ x rest, Decidable (P x rest)] (buf : List β) : Decidable (Then read P buf) :=
  match h : read buf with
  | none => isTrue (by rw [Then, h]; trivial)
  | some (x, rest) => decidable_of_iff (P x rest) (by rw [Then, h])

theorem then_iff {read : List β → Option (α × List β)} {P : α → List β → Prop}
    {buf rest : List β} {x : α} (h : read buf = some (x, rest)) : Then read P buf ↔ P x rest := by
  rw [Then, h]

/-- The property holds wherever one of the `n` items is read. -/
def Each (read : List β → Option (α × List β)) (P : List β → Prop) : ℕ → List β → Prop
  | 0, _ => True
  | n + 1, buf => P buf ∧ Then read (fun _ => Each read P n) buf

/-- The property can be tested item by item. -/
instance decidableEach (read : List β → Option (α × List β)) (P : List β → Prop) [DecidablePred P] :
    (n : ℕ) → DecidablePred (Each read P n)
  | 0 => fun _ => isTrue trivial
  | n + 1 => fun buf =>
    have := decidableEach read P n
    inferInstanceAs (Decidable (P buf ∧ Then read (fun _ => Each read P n) buf))

/-- On lists with `M`, the bytes written for the value followed by `w` start the list just where
`G` holds of it and `w` starts what was left. -/
def Exact (read : List β → Option (α × List β)) (write : α → List β) (M G : List β → Prop) : Prop :=
  ∀ ⦃buf rest : List β⦄ ⦃x : α⦄, read buf = some (x, rest) → M buf →
    ∀ w, write x ++ w <+: buf ↔ G buf ∧ w <+: rest

section

variable {read : List β → Option (α × List β)} {write : α → List β} {M G : List β → Prop}
  {buf rest : List β} {x : α}

/-- A reader that takes what is written there, where it is so. -/
theorem exact_of_eq_append
    (h : ∀ ⦃buf rest : List β⦄ ⦃x : α⦄, read buf = some (x, rest) → M buf →
      (G buf → buf = write x ++ rest) ∧ (write x <+: buf → G buf)) : Exact read write M G := by
  intro buf rest x hread hM w
  obtain ⟨heq, hgood⟩ := h hread hM
  constructor
  · intro hw
    have hG : G buf := hgood ((List.prefix_append _ _).trans hw)
    refine ⟨hG, ?_⟩
    rw [heq hG] at hw
    exact (List.prefix_append_right_inj _).mp hw
  · rintro ⟨hG, hw⟩
    rw [heq hG]
    exact (List.prefix_append_right_inj _).mpr hw

/-- Where the property holds, the list is what is written and the rest. -/
theorem Exact.eq_append (h : Exact read write M G) (hread : read buf = some (x, rest)) (hM : M buf)
    (hG : G buf) : buf = write x ++ rest := by
  obtain ⟨t, ht⟩ := (h hread hM []).mpr ⟨hG, List.nil_prefix⟩
  rw [List.append_nil] at ht
  have hle : ∀ w, w <+: t ↔ w <+: rest := by
    intro w
    have hw := h hread hM w
    rw [← ht, List.prefix_append_right_inj, ht] at hw
    exact hw.trans (and_iff_right hG)
  have hrest : rest <+: t := (hle rest).mpr (List.prefix_refl rest)
  have htail : t <+: rest := (hle t).mp (List.prefix_refl t)
  rw [← ht, htail.eq_of_length (Nat.le_antisymm htail.length_le hrest.length_le)]

/-- What is written is what was taken just where the property holds. -/
theorem Exact.take_iff (h : Exact read write M G) (hread : read buf = some (x, rest)) (hM : M buf) :
    write x = buf.take (buf.length - rest.length) ↔ G buf := by
  constructor
  · intro htake
    have hprefix : write x ++ [] <+: buf := by
      rw [List.append_nil, htake]
      exact List.take_prefix _ _
    exact ((h hread hM []).mp hprefix).1
  · intro hG
    have heq := h.eq_append hread hM hG
    rw [heq, List.length_append, Nat.add_sub_cancel, List.take_left]

end

/-- Read `n` items one after the other. -/
def readMany (read : List β → Option (α × List β)) : ℕ → List β → Option (List α × List β)
  | 0, buf => some ([], buf)
  | n + 1, buf =>
    (read buf).bind fun (x, rest) =>
      (readMany read n rest).bind fun (xs, rest) => some (x :: xs, rest)

variable {read : List β → Option (α × List β)} {write : α → List β} {M G : List β → Prop}

/-- A non-empty row is its first item and the others. -/
theorem readMany_succ {buf rest : List β} (h : readMany read (n + 1) buf = some (xs, rest)) :
    ∃ x mid ys, read buf = some (x, mid) ∧ readMany read n mid = some (ys, rest) ∧
    xs = x :: ys := by
  rw [readMany, Option.bind_eq_some_iff] at h
  obtain ⟨⟨x, mid⟩, hx, h⟩ := h
  rw [Option.bind_eq_some_iff] at h
  obtain ⟨⟨ys, rest'⟩, hys, h⟩ := h
  cases h
  exact ⟨x, mid, ys, hx, hys, rfl⟩

theorem length_of_readMany {buf rest : List β} (h : readMany read n buf = some (xs, rest)) :
    xs.length = n := by
  induction n generalizing buf xs with
  | zero =>
    cases h
    rfl
  | succ n ih =>
    obtain ⟨x, mid, ys, hx, hys, rfl⟩ := readMany_succ h
    rw [List.length_cons, ih hys]

/-- **Row of items.** It is read exactly if each item is. -/
theorem Exact.many (h : Exact read write M G) (n : ℕ) :
    Exact (readMany read n) (fun xs => xs.flatMap write) (Each read M n) (Each read G n) := by
  induction n with
  | zero =>
    intro buf rest xs hread _ w
    cases hread
    simp only [List.flatMap_nil, List.nil_append, Each, true_and]
  | succ n ih =>
    intro buf rest xs hread hM w
    obtain ⟨x, mid, ys, hx, hys, rfl⟩ := readMany_succ hread
    have hMtail : Each read M n mid := (then_iff hx).mp hM.2
    have hfirst := h hx hM.1 (ys.flatMap write ++ w)
    have hothers := ih hys hMtail w
    simp only [List.flatMap_cons, List.append_assoc, Each]
    rw [hfirst, hothers, then_iff hx, and_assoc]

end ExactRead
