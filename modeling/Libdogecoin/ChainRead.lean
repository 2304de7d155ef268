/-
# Items that depend on the one before

Items are written and read one after the other, each with the one before at hand.

* `length_of_readChain` : as many items are read as were asked for;
* `readChain_writeChain` : a chain is read back if each item is, whatever is before it;
* `readChain_undo` : where an item is a code on the wire and the one before, the codes are read by
  themselves.
-/
import Mathlib.Data.List.Basic

namespace ChainRead

variable {α β : Type} {item : Option α → List β → Option (α × List β)} {n : ℕ} {prev : Option α}
  {buf rest : List β}

/-- Read `n` items. -/
def readChain (item : Option α → List β → Option (α × List β)) :
    ℕ → Option α → List β → Option (List α × List β)
  | 0, _, buf => some ([], buf)
  | n + 1, prev, buf =>
    (item prev buf).bind fun (x, rest) =>
      (readChain item n (some x) rest).map fun (xs, rest) => (x :: xs, rest)

/-- Write the items. -/
def writeChain (item : Option α → α → Option (List β)) : Option α → List α → Option (List β)
  | _, [] => some []
  | prev, x :: xs =>
    (item prev x).bind fun bytes => (writeChain item (some x) xs).map fun rest => bytes ++ rest

/-- The items of codes that are read behind one another. -/
def undo {γ : Type} (f : Option α → γ → α) : Option α → List γ → List α
  | _, [] => []
  | prev, y :: ys => f prev y :: undo f (some (f prev y)) ys

variable {xs : List α}

theorem length_of_readChain (h : readChain item n prev buf = some (xs, rest)) : xs.length = n := by
  induction n generalizing prev buf xs with
  | zero =>
    cases h
    rfl
  | succ n ih =>
    obtain ⟨⟨x, mid⟩, -, hxs⟩ := Option.bind_eq_some_iff.mp h
    obtain ⟨⟨ys, last⟩, hys, heq⟩ := Option.map_eq_some_iff.mp hxs
    cases heq
    rw [List.length_cons, ih hys]

/-- An item that is written in at least one piece and read back, whatever was before it. -/
def ReadBack (read : Option α → List β → Option (α × List β))
    (write : Option α → α → Option (List β)) (x : α) :
    Prop :=
  ∀ prev, ∃ bytes, write prev x = some bytes ∧ bytes ≠ [] ∧ ∀ rest,
    read prev (bytes ++ rest) = some (x, rest)

/-- **A chain** is read back item by item, and is at least as long as the number of its items. -/
theorem readChain_writeChain {read : Option α → List β → Option (α × List β)}
    {write : Option α → α → Option (List β)} (h : ∀ x ∈ xs, ReadBack read write x)
    (prev : Option α) :
    ∃ bytes, writeChain write prev xs = some bytes ∧ xs.length ≤ bytes.length ∧
      ∀ rest, readChain read xs.length prev (bytes ++ rest) = some (xs, rest) := by
  induction xs generalizing prev with
  | nil => exact ⟨[], rfl, Nat.le_refl _, fun _ => rfl⟩
  | cons x xs ih =>
    obtain ⟨first, hwrite, hne, hread⟩ := h x List.mem_cons_self prev
    obtain ⟨others, hothers, hlen, hback⟩ :=
      ih (fun y hy => h y (List.mem_cons_of_mem _ hy)) (some x)
    have hpos : 0 < first.length := List.length_pos_iff.mpr hne
    refine ⟨first ++ others, ?_, ?_, fun rest => ?_⟩
    · rw [writeChain, hwrite, Option.bind_some, hothers, Option.map_some]
    · rw [List.length_append, List.length_cons]
      omega
    · rw [List.append_assoc, List.length_cons, readChain, hread, Option.bind_some]
      dsimp only
      rw [hback, Option.map_some]

/-- **Codes** : the items are those of the codes, which do not need what is before them. -/
theorem readChain_undo {γ : Type} {code : List β → Option (γ × List β)} {f : Option α → γ → α}
    (hitem : ∀ prev buf, item prev buf = (code buf).map fun p => (f prev p.1, p.2))
    (h : readChain item n prev buf = some (xs, rest)) :
    ∃ ys, readChain (fun _ => code) n none buf = some (ys, rest) ∧ xs = undo f prev ys := by
  -- what is before a code is not read
  suffices hany : ∀ start : Option γ, ∃ ys, readChain (fun _ => code) n start buf =
    some (ys, rest) ∧
      xs = undo f prev ys from hany none
  induction n generalizing prev buf xs with
  | zero =>
    cases h
    exact fun _ => ⟨[], rfl, rfl⟩
  | succ n ih =>
    intro start
    rw [readChain, hitem] at h
    obtain ⟨⟨x, mid⟩, hx, hrest⟩ := Option.bind_eq_some_iff.mp h
    obtain ⟨⟨y, mid'⟩, hy, heq⟩ := Option.map_eq_some_iff.mp hx
    obtain ⟨⟨xs', last⟩, hxs, heq'⟩ := Option.map_eq_some_iff.mp hrest
    cases heq
    cases heq'
    obtain ⟨ys, hys, hundo⟩ := ih hxs (some y)
    refine ⟨y :: ys, ?_, ?_⟩
    · rw [readChain, hy, Option.bind_some]
      dsimp only
      rw [hys, Option.map_some]
    · rw [undo, hundo]

end ChainRead
