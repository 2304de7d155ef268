/-
# Guarded runs of a transition system

A system has initial states and a partial step function; a run under a guard takes only steps the
guard allows, and stops where the step function is undefined.

* `Reach.invariant` : what holds initially and is kept by every guarded step holds throughout;
* `Reach.mono` : a run under a guard is a run under every weaker guard;
* `Reach.of_run` : the states of an executed input list whose steps meet the guard.
-/
import Mathlib.Tactic.Common

/-- A transition system with states `σ` and inputs `ι`. -/
structure TransitionSystem (σ ι : Type) where
  /-- The states a run may start in. -/
  init : σ → Prop
  /-- One step on an input; `none` where the step has no defined result. -/
  step : σ → ι → Option σ

namespace TransitionSystem

variable {σ ι : Type} {S : TransitionSystem σ ι} {guard guard' : σ → ι → Prop}
  {s' : σ} {is : List ι}

/-- The states of the runs whose every step meets `guard`. -/
inductive Reach (S : TransitionSystem σ ι) (guard : σ → ι → Prop) : σ → Prop where
  | init {s : σ} (hinit : S.init s) : Reach S guard s
  | step {s s' : σ} {i : ι} (hreach : Reach S guard s) (hguard : guard s i)
      (hstep : S.step s i = some s') : Reach S guard s'

/-- The runs without any restriction on their steps. -/
def Reachable (S : TransitionSystem σ ι) : σ → Prop := Reach S fun _ _ => True

variable {s : σ}

/-- **Invariant rule.** -/
theorem Reach.invariant {P : σ → Prop} (hinit : ∀ s, S.init s → P s)
    (hstep : ∀ s i s', P s → guard s i → S.step s i = some s' → P s')
    (h : Reach S guard s) : P s := by
  induction h with
  | init h0 => exact hinit _ h0
  | step _ hguard hs ih => exact hstep _ _ _ ih hguard hs

/-- Weakening the guard keeps every run. -/
theorem Reach.mono (hguard : ∀ s i, guard s i → guard' s i) (h : Reach S guard s) :
    Reach S guard' s := by
  induction h with
  | init h0 => exact .init h0
  | step _ hg hs ih => exact .step ih (hguard _ _ hg) hs

/-- Every guarded run is a run. -/
theorem Reach.reachable (h : Reach S guard s) : S.Reachable s := h.mono fun _ _ _ => trivial

/-- The state after a list of inputs. -/
def run (S : TransitionSystem σ ι) : σ → List ι → Option σ
  | s, [] => some s
  | s, i :: is => (S.step s i).bind fun s' => S.run s' is

/-- The steps of a list of inputs all meet the guard. -/
def Meets (S : TransitionSystem σ ι) (guard : σ → ι → Prop) : σ → List ι → Prop
  | _, [] => True
  | s, i :: is => guard s i ∧ ∀ s', S.step s i = some s' → Meets S guard s' is

instance Meets.decidable [∀ s i, Decidable (guard s i)] (s : σ) (is : List ι) :
    Decidable (S.Meets guard s is) :=
  match is with
  | [] => instDecidableTrue
  | i :: is =>
    have : ∀ s', Decidable (S.Meets guard s' is) := fun s' => Meets.decidable s' is
    inferInstanceAs (Decidable (guard s i ∧ ∀ s' ∈ S.step s i, S.Meets guard s' is))

/-- A run that meets the guard stays within the guarded runs. -/
theorem Reach.of_run (hreach : Reach S guard s) (hmeets : S.Meets guard s is)
    (hrun : S.run s is = some s') :
    Reach S guard s' := by
  induction is generalizing s with
  | nil =>
    obtain rfl := Option.some.inj hrun
    exact hreach
  | cons i is ih =>
    rw [run, Option.bind_eq_some_iff] at hrun
    obtain ⟨t, ht, hrest⟩ := hrun
    exact ih (.step hreach hmeets.1 ht) (hmeets.2 t ht) hrest

/-- Every list of inputs meets the trivial guard. -/
theorem meets_true (S : TransitionSystem σ ι) (s : σ) (is : List ι) :
    S.Meets (fun _ _ => True) s is := by
  induction is generalizing s with
  | nil => trivial
  | cons i is ih => exact ⟨trivial, fun s' _ => ih s'⟩

/-- What a run reaches from an initial state is reachable. -/
theorem reachable_of_run (hinit : S.init s) (hrun : S.run s is = some s') :
    S.Reachable s' :=
  Reach.of_run (.init hinit) (S.meets_true s is) hrun

end TransitionSystem
