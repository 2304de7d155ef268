/-
# Reading a span

A reader takes a value from the front of a list and leaves the rest. It reads a span when the part
it took gives the same value in front of every other rest.

* `Spans.bind`, `Spans.map`, `Spans.ite` : readers that are put together from such readers;
* `Spans.many` : a row of items.
-/
import Libdogecoin.ExactRead

namespace SpanRead

open ExactRead

variable {α β γ : Type}

/-- Where at least `n` are left, the part that was taken is read in the same way in front of every
list. -/
def Spans (n : ℕ) (read : List β → Option (α × List β)) : Prop :=
  ∀ ⦃buf rest : List β⦄ ⦃x : α⦄, read buf = some (x, rest) → n ≤ rest.length →
    ∃ span, buf = span ++ rest ∧ ∀ t, read (span ++ t) = some (x, t)

variable {n : ℕ}

variable {read : List β → Option (α × List β)}

theorem Spans.mono (h : Spans n read) {m : ℕ} (hle : n ≤ m) :
    Spans m read :=
  fun _ _ _ hread hm => h hread (Nat.le_trans hle hm)

theorem spans_some (x : α) : Spans n fun buf : List β => some (x, buf) := by
  intro buf rest y h _
  cases h
  exact ⟨[], rfl, fun _ => rfl⟩

theorem spans_none : Spans n fun _ : List β => (none : Option (α × List β)) := by
  intro buf rest y h
  cases h

/-- One reader after the other. -/
theorem Spans.bind {next : α → List β → Option (γ × List β)} (h : Spans n read)
    (hnext : ∀ x, Spans n (next x)) :
    Spans n fun buf => (read buf).bind fun p => next p.1 p.2 := by
  intro buf rest y hread hn
  obtain ⟨⟨x, mid⟩, hx, hy⟩ := Option.bind_eq_some_iff.mp hread
  obtain ⟨second, rfl, hsecond⟩ := hnext x hy hn
  obtain ⟨first, rfl, hfirst⟩ := h hx (by rw [List.length_append]; omega)
  refine ⟨first ++ second, (List.append_assoc _ _ _).symm, ?_⟩
  intro t
  dsimp only
  rw [List.append_assoc, hfirst, Option.bind_some]
  exact hsecond t

theorem Spans.map (h : Spans n read) (f : α → γ) :
    Spans n fun buf => (read buf).map fun p => (f p.1, p.2) := by
  intro buf rest y hread hn
  obtain ⟨⟨x, mid⟩, hx, hy⟩ := Option.map_eq_some_iff.mp hread
  cases hy
  obtain ⟨span, rfl, hspan⟩ := h hx hn
  refine ⟨span, rfl, fun t => ?_⟩
  dsimp only
  rw [hspan, Option.map_some]

theorem Spans.ite {read' : List β → Option (α × List β)} (c : Prop) [Decidable c] (h : Spans n read)
    (h' : Spans n read') : Spans n fun buf => if c then read buf else read' buf := by
  by_cases hc : c
  · simpa only [if_pos hc] using h
  · simpa only [if_neg hc] using h'

/-- A row of items. -/
theorem Spans.many (h : Spans n read) (k : ℕ) : Spans n (readMany read k) := by
  induction k with
  | zero => exact spans_some []
  | succ k ih => exact h.bind fun x => ih.bind fun xs => spans_some (x :: xs)

end SpanRead
