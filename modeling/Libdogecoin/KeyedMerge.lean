/-
# Merging entries by key

A state holds entries, at most one of which is found under a key. Entries of a source are merged
into it one after the other: one whose key is missing is added, and one whose key is there has to
agree with the entry that is found, or the merge ends there with what was added so far.

* `lookup_run` : after a merge that went to its end every entry is there, and nothing else was
  added;
* `run_run` : merging again changes nothing;
* `eq_of_run_fails_iff` : which failing merges have changed nothing;
* `lookup_runAll_perm` : sources that agree can be merged in any order.
-/
import Mathlib.Data.List.Basic
import Mathlib.Logic.Function.Basic

namespace KeyedMerge

/-- States of type `σ` that hold entries of type `ε`, found by keys of type `κ`. -/
structure Keyed (σ ε κ : Type) [DecidableEq κ] where
  /-- The key of an entry. -/
  key : ε → κ
  /-- The entry under a key. -/
  lookup : σ → κ → Option ε
  /-- The state with one more entry. -/
  add : σ → ε → σ
  /-- An entry that is there agrees with one that comes. -/
  agree : ε → ε → Bool
  /-- The state has a place for the entry. -/
  Fits : σ → ε → Prop
  lookup_add : ∀ {s e}, Fits s e → lookup s (key e) = none →
    ∀ k, lookup (add s e) k = if k = key e then some e else lookup s k
  fits_add : ∀ {s e e'}, Fits s e' → Fits (add s e) e'
  agree_refl : ∀ e, agree e e = true

/-- Two steps of a merge: the second is left out where the first has failed. -/
def mergeThen {σ : Type} (f g : σ → σ × Bool) (s : σ) : σ × Bool :=
  if (f s).2 then g (f s).1 else ((f s).1, false)

theorem mergeThen_congr {σ : Type} {f f' g g' : σ → σ × Bool} {s : σ} (hf : f s = f' s)
    (hg : g (f s).1 = g' (f s).1) : mergeThen f g s = mergeThen f' g' s := by
  rw [mergeThen, mergeThen, hg, hf]

section

variable {σ ε κ : Type} [DecidableEq κ] (K : Keyed σ ε κ)

/-- One entry is merged. -/
def put (s : σ) (e : ε) : σ × Bool :=
  match K.lookup s (K.key e) with
  | none => (K.add s e, true)
  | some d => (s, K.agree d e)

/-- A row of entries is merged. -/
def run : σ → List ε → σ × Bool
  | s, [] => (s, true)
  | s, e :: es => mergeThen (fun s => put K s e) (fun s => run s es) s

/-- The first of some entries that has the key. -/
def first (es : List ε) (k : κ) : Option ε := es.find? fun e => K.key e = k

/-- There is a place for every one of the entries. -/
def FitAll (s : σ) (es : List ε) : Prop := ∀ e ∈ es, K.Fits s e

variable {K}

variable {s : σ} {e d : ε} {k : κ} {es : List ε} {ess : List (List ε)}

theorem put_of_none (h : K.lookup s (K.key e) = none) : put K s e = (K.add s e, true) := by
  rw [put, h]

theorem put_of_some (h : K.lookup s (K.key e) = some d) : put K s e = (s, K.agree d e) := by
  rw [put, h]

theorem first_cons_of_eq (h : K.key e = k) (es : List ε) : first K (e :: es) k = some e :=
  List.find?_cons_of_pos (p := fun e => decide (K.key e = k)) (decide_eq_true h)

theorem first_cons_of_ne (h : K.key e ≠ k) (es : List ε) : first K (e :: es) k = first K es k :=
  List.find?_cons_of_neg (p := fun e => decide (K.key e = k)) (by simpa using h)

theorem run_cons (s : σ) (e : ε) (es : List ε) :
    run K s (e :: es) = mergeThen (fun s => put K s e) (fun s => run K s es) s := rfl

theorem run_cons_of_none {s : σ} {e : ε} (h : K.lookup s (K.key e) = none) (es : List ε) :
    run K s (e :: es) = run K (K.add s e) es := by
  rw [run_cons, mergeThen, put_of_none h]
  rfl

theorem run_cons_of_agree {s : σ} {d e : ε} (h : K.lookup s (K.key e) = some d)
    (hagree : K.agree d e = true) (es : List ε) : run K s (e :: es) = run K s es := by
  rw [run_cons, mergeThen, put_of_some h, if_pos hagree]

theorem run_cons_of_clash {s : σ} {d e : ε} (h : K.lookup s (K.key e) = some d)
    (hclash : K.agree d e = false) (es : List ε) : run K s (e :: es) = (s, false) := by
  have hfail : ¬ K.agree d e = true := by rw [hclash]; exact Bool.false_ne_true
  rw [run_cons, mergeThen, put_of_some h, if_neg hfail]

/-- Rows are merged one after the other. -/
theorem run_append (s : σ) (es es' : List ε) :
    run K s (es ++ es') = mergeThen (fun s => run K s es) (fun s => run K s es') s := by
  induction es generalizing s with
  | nil => rfl
  | cons e es ih =>
    rw [List.cons_append, run_cons, mergeThen]
    rw [mergeThen, run_cons, mergeThen]
    by_cases hput : (put K s e).2 = true
    · rw [if_pos hput, if_pos hput, ih]
      rfl
    · rw [if_neg hput, if_neg hput]
      rfl

theorem FitAll.add (h : FitAll K s es) (e : ε) :
    FitAll K (K.add s e) es := fun e' he' => K.fits_add (h e' he')

/-! ## What a merge keeps -/

/-- What holds of the state and is kept where an entry is added holds after a merge. -/
theorem run_invariant {P : σ → Prop}
    (hadd : ∀ s e, P s → K.lookup s (K.key e) = none → P (K.add s e)) (h : P s) (es : List ε) :
    P (run K s es).1 := by
  induction es generalizing s with
  | nil => exact h
  | cons e es ih =>
    cases hlookup : K.lookup s (K.key e) with
    | none =>
      rw [run_cons_of_none hlookup]
      exact ih (hadd s e h hlookup)
    | some d =>
      cases hagree : K.agree d e with
      | true =>
        rw [run_cons_of_agree hlookup hagree]
        exact ih h
      | false =>
        rw [run_cons_of_clash hlookup hagree]
        exact h

/-- An entry that was there is still there, however the merge has ended. -/
theorem lookup_run_of_some (hfit : FitAll K s es) (h : K.lookup s k = some d) :
    K.lookup (run K s es).1 k = some d := by
  induction es generalizing s with
  | nil => exact h
  | cons e es ih =>
    obtain ⟨hhead, htail⟩ := List.forall_mem_cons.mp hfit
    cases hlookup : K.lookup s (K.key e) with
    | none =>
      rw [run_cons_of_none hlookup]
      refine ih (FitAll.add htail e) ?_
      have hne : k ≠ K.key e := by
        rintro rfl
        rw [h] at hlookup
        cases hlookup
      rw [K.lookup_add hhead hlookup, if_neg hne]
      exact h
    | some d' =>
      cases hagree : K.agree d' e with
      | true =>
        rw [run_cons_of_agree hlookup hagree]
        exact ih htail h
      | false =>
        rw [run_cons_of_clash hlookup hagree]
        exact h

/-- **After a merge that went to its end** an entry is found if it was there before, and else the
first entry of the source under its key. -/
theorem lookup_run (hfit : FitAll K s es) (hend : (run K s es).2 = true) (k : κ) :
    K.lookup (run K s es).1 k = (K.lookup s k).or (first K es k) := by
  induction es generalizing s with
  | nil => exact (Option.or_none).symm
  | cons e es ih =>
    obtain ⟨hhead, htail⟩ := List.forall_mem_cons.mp hfit
    cases hlookup : K.lookup s (K.key e) with
    | none =>
      rw [run_cons_of_none hlookup] at hend ⊢
      rw [ih (FitAll.add htail e) hend, K.lookup_add hhead hlookup]
      by_cases hk : K.key e = k
      · rw [if_pos hk.symm, first_cons_of_eq hk, ← hk, hlookup]
        rfl
      · rw [if_neg (Ne.symm hk), first_cons_of_ne hk]
    | some d =>
      cases hagree : K.agree d e with
      | true =>
        rw [run_cons_of_agree hlookup hagree] at hend ⊢
        rw [ih htail hend]
        by_cases hk : K.key e = k
        · rw [← hk, hlookup, Option.some_or, Option.some_or]
        · rw [first_cons_of_ne hk]
      | false =>
        rw [run_cons_of_clash hlookup hagree] at hend
        cases hend

/-- After a merge that went to its end every entry agrees with the one that is found under its
key. -/
theorem agree_of_run (hfit : FitAll K s es) (hend : (run K s es).2 = true) :
    ∀ e ∈ es, ∃ d, K.lookup (run K s es).1 (K.key e) = some d ∧ K.agree d e = true := by
  induction es generalizing s with
  | nil => exact List.forall_mem_nil _
  | cons e es ih =>
    obtain ⟨hhead, htail⟩ := List.forall_mem_cons.mp hfit
    cases hlookup : K.lookup s (K.key e) with
    | none =>
      rw [run_cons_of_none hlookup] at hend ⊢
      have htail' := FitAll.add htail e
      refine List.forall_mem_cons.mpr ⟨⟨e, ?_, K.agree_refl e⟩, ih htail' hend⟩
      refine lookup_run_of_some htail' ?_
      rw [K.lookup_add hhead hlookup, if_pos rfl]
    | some d =>
      cases hagree : K.agree d e with
      | true =>
        rw [run_cons_of_agree hlookup hagree] at hend ⊢
        exact List.forall_mem_cons.mpr ⟨⟨d, lookup_run_of_some htail hlookup, hagree⟩,
          ih htail hend⟩
      | false =>
        rw [run_cons_of_clash hlookup hagree] at hend
        cases hend

/-- Entries that are all there already are merged without a change. -/
theorem run_of_agree (h : ∀ e ∈ es, ∃ d, K.lookup s (K.key e) = some d ∧ K.agree d e = true) :
    run K s es = (s, true) := by
  induction es with
  | nil => rfl
  | cons e es ih =>
    obtain ⟨⟨d, hlookup, hagree⟩, htail⟩ := List.forall_mem_cons.mp h
    rw [run_cons_of_agree hlookup hagree, ih htail]

/-- **Merging the same source again** changes nothing. -/
theorem run_run (hfit : FitAll K s es) (hend : (run K s es).2 = true) :
    run K (run K s es).1 es = ((run K s es).1, true) :=
  run_of_agree (agree_of_run hfit hend)

/-! ## Merges that fail -/

/-- An entry that comes behind others disagrees with what is found by then. -/
def Clashes (K : Keyed σ ε κ) (s : σ) (before : List ε) (e : ε) : Prop :=
  ∃ d, (K.lookup s (K.key e)).or (first K before (K.key e)) = some d ∧ K.agree d e = false

/-- What is found behind an entry that was added. -/
theorem lookup_add_or (hfit : K.Fits s e) (hlookup : K.lookup s (K.key e) = none)
    (before : List ε) (k : κ) :
    (K.lookup (K.add s e) k).or (first K before k) = (K.lookup s k).or
    (first K (e :: before) k) := by
  rw [K.lookup_add hfit hlookup]
  by_cases hk : K.key e = k
  · rw [if_pos hk.symm, first_cons_of_eq hk, ← hk, hlookup]
    rfl
  · rw [if_neg (Ne.symm hk), first_cons_of_ne hk]

/-- What is found behind an entry that was there. -/
theorem lookup_or_cons (hlookup : K.lookup s (K.key e) = some d) (before : List ε) (k : κ) :
    (K.lookup s k).or (first K (e :: before) k) = (K.lookup s k).or (first K before k) := by
  by_cases hk : K.key e = k
  · rw [← hk, hlookup, Option.some_or, Option.some_or]
  · rw [first_cons_of_ne hk]

/-- **A merge fails** where one of the entries clashes. -/
theorem run_fails_iff (hfit : FitAll K s es) :
    (run K s es).2 = false ↔ ∃ before e after, es = before ++ e :: after ∧
    Clashes K s before e := by
  induction es generalizing s with
  | nil =>
    constructor
    · intro h
      cases h
    · rintro ⟨before, e, after, heq, -⟩
      exact absurd heq.symm (List.append_ne_nil_of_right_ne_nil _ (List.cons_ne_nil _ _))
  | cons e es ih =>
    obtain ⟨hhead, htail⟩ := List.forall_mem_cons.mp hfit
    cases hlookup : K.lookup s (K.key e) with
    | none =>
      rw [run_cons_of_none hlookup, ih (FitAll.add htail e)]
      constructor
      · rintro ⟨before, e', after, rfl, d, hfound, hclash⟩
        rw [lookup_add_or hhead hlookup] at hfound
        exact ⟨e :: before, e', after, rfl, d, hfound, hclash⟩
      · rintro ⟨before, e', after, heq, d, hfound, hclash⟩
        cases before with
        | nil =>
          obtain ⟨rfl, -⟩ := List.cons.inj heq
          rw [hlookup] at hfound
          cases hfound
        | cons b before =>
          obtain ⟨rfl, rfl⟩ := List.cons.inj heq
          rw [← lookup_add_or hhead hlookup] at hfound
          exact ⟨before, e', after, rfl, d, hfound, hclash⟩
    | some d₀ =>
      cases hagree : K.agree d₀ e with
      | true =>
        rw [run_cons_of_agree hlookup hagree, ih htail]
        constructor
        · rintro ⟨before, e', after, rfl, d, hfound, hclash⟩
          rw [← lookup_or_cons hlookup] at hfound
          exact ⟨e :: before, e', after, rfl, d, hfound, hclash⟩
        · rintro ⟨before, e', after, heq, d, hfound, hclash⟩
          cases before with
          | nil =>
            obtain ⟨rfl, -⟩ := List.cons.inj heq
            rw [hlookup, Option.some_or] at hfound
            rw [← Option.some.inj hfound, hagree] at hclash
            cases hclash
          | cons b before =>
            obtain ⟨rfl, rfl⟩ := List.cons.inj heq
            rw [lookup_or_cons hlookup] at hfound
            exact ⟨before, e', after, rfl, d, hfound, hclash⟩
      | false =>
        rw [run_cons_of_clash hlookup hagree]
        refine iff_of_true rfl ⟨[], e, es, rfl, d₀, ?_, hagree⟩
        rw [hlookup, Option.some_or]

/-- The first of the entries that the state does not have as it comes is there in another way. -/
def ClashesFirst (K : Keyed σ ε κ) (s : σ) (es : List ε) : Prop :=
  ∃ before e after, es = before ++ e :: after ∧
    (∀ b ∈ before, ∃ d, K.lookup s (K.key b) = some d ∧ K.agree d b = true) ∧
    ∃ d, K.lookup s (K.key e) = some d ∧ K.agree d e = false

theorem clashesFirst_iff (hfit : FitAll K s es) :
    ClashesFirst K s es ↔ run K s es = (s, false) := by
  constructor
  · rintro ⟨before, e, after, rfl, hbefore, d, hlookup, hclash⟩
    rw [run_append, mergeThen, run_of_agree hbefore, if_pos rfl, run_cons_of_clash hlookup hclash]
  · induction es with
    | nil =>
      intro h
      cases h
    | cons e es ih =>
      intro h
      obtain ⟨hhead, htail⟩ := List.forall_mem_cons.mp hfit
      cases hlookup : K.lookup s (K.key e) with
      | none =>
        -- the entry that was added would be gone
        have hadded : K.lookup (K.add s e) (K.key e) = some e := by
          rw [K.lookup_add hhead hlookup, if_pos rfl]
        have hkept := lookup_run_of_some (FitAll.add htail e) hadded
        rw [run_cons_of_none hlookup] at h
        rw [h, hlookup] at hkept
        cases hkept
      | some d =>
        cases hagree : K.agree d e with
        | true =>
          rw [run_cons_of_agree hlookup hagree] at h
          obtain ⟨before, e', after, rfl, hbefore, hclash⟩ := ih htail h
          refine ⟨e :: before, e', after, rfl,
            List.forall_mem_cons.mpr ⟨⟨d, hlookup, hagree⟩, hbefore⟩, hclash⟩
        | false => exact ⟨[], e, es, rfl, List.forall_mem_nil _, d, hlookup, hagree⟩

/-- **A merge that fails has changed nothing** just where its first entry that is not there
clashes. -/
theorem eq_of_run_fails_iff (hfit : FitAll K s es) :
    ((run K s es).2 = false → (run K s es).1 = s) ↔
      (∀ before e after, es = before ++ e :: after → ¬ Clashes K s before e) ∨
      ClashesFirst K s es := by
  constructor
  · intro h
    cases hend : (run K s es).2 with
    | true =>
      refine Or.inl fun before e after heq hclash => ?_
      have hfails := (run_fails_iff hfit).mpr ⟨before, e, after, heq, hclash⟩
      rw [hend] at hfails
      cases hfails
    | false => exact Or.inr ((clashesFirst_iff hfit).mpr (Prod.ext (h hend) hend))
  · rintro (hnone | hfirst) hfails
    · obtain ⟨before, e, after, heq, hclash⟩ := (run_fails_iff hfit).mp hfails
      exact absurd hclash (hnone before e after heq)
    · rw [(clashesFirst_iff hfit).mp hfirst]

/-! ## Any order -/

/-- Sources are merged one after the other. -/
def runAll (K : Keyed σ ε κ) (s : σ) (ess : List (List ε)) :
    σ := ess.foldl (fun s es => (run K s es).1) s

/-- No two of the sources and the state disagree about a key. -/
structure Agreeing (K : Keyed σ ε κ) (s : σ) (ess : List (List ε)) : Prop where
  sources : ∀ e ∈ ess.flatten, ∀ e' ∈ ess.flatten, K.key e = K.key e' → e = e'
  state : ∀ e ∈ ess.flatten, ∀ d, K.lookup s (K.key e) = some d → d = e

theorem mem_of_first (h : first K es k = some e) : e ∈ es ∧ K.key e = k := by
  unfold first at h
  exact ⟨List.mem_of_find?_eq_some h, by simpa using List.find?_some h⟩

/-- Sources that agree are merged to their end, as if they were one. -/
theorem runAll_eq (hend : (run K s ess.flatten).2 = true) :
    runAll K s ess = (run K s ess.flatten).1 := by
  induction ess generalizing s with
  | nil => rfl
  | cons es ess ih =>
    rw [List.flatten_cons, run_append, mergeThen] at hend ⊢
    by_cases hfirst : (run K s es).2 = true
    · rw [if_pos hfirst] at hend ⊢
      exact ih hend
    · rw [if_neg hfirst] at hend
      cases hend

theorem Agreeing.run_end (h : Agreeing K s ess) (hfit : FitAll K s ess.flatten) :
    (run K s ess.flatten).2 = true := by
  by_contra hend
  have hfails : (run K s ess.flatten).2 = false := by simpa using hend
  obtain ⟨before, e, after, heq, d, hfound, hclash⟩ := (run_fails_iff hfit).mp hfails
  have hmem : e ∈ ess.flatten := by
    rw [heq]
    exact List.mem_append_right _ List.mem_cons_self
  obtain rfl : d = e := by
    rcases Option.or_eq_some_iff.mp hfound with hlookup | ⟨-, hbefore⟩
    · exact h.state e hmem d hlookup
    · obtain ⟨hd, hkey⟩ := mem_of_first hbefore
      refine h.sources d ?_ e hmem hkey
      rw [heq]
      exact List.mem_append_left _ hd
  rw [K.agree_refl] at hclash
  cases hclash

/-- **Sources that agree can be merged in any order.** -/
theorem lookup_runAll_perm {ess' : List (List ε)} (hfit : FitAll K s ess.flatten)
    (h : Agreeing K s ess) (hperm : ess.Perm ess') (k : κ) : K.lookup (runAll K s ess) k =
    K.lookup (runAll K s ess') k := by
  have hmem : ∀ e, e ∈ ess.flatten ↔ e ∈ ess'.flatten := fun e => hperm.flatten.mem_iff
  have hfit' : FitAll K s ess'.flatten := fun e he => hfit e ((hmem e).mpr he)
  have h' : Agreeing K s ess' := {
    sources := fun e he e' he' => h.sources e ((hmem e).mpr he) e' ((hmem e').mpr he')
    state := fun e he => h.state e ((hmem e).mpr he) }
  have hfirst : first K ess.flatten k = first K ess'.flatten k := by
    cases hcase : first K ess.flatten k with
    | none =>
      symm
      refine List.find?_eq_none.mpr fun e he => ?_
      exact List.find?_eq_none.mp hcase e ((hmem e).mpr he)
    | some e =>
      obtain ⟨he, hkey⟩ := mem_of_first hcase
      cases hcase' : first K ess'.flatten k with
      | none => exact absurd (decide_eq_true hkey) (List.find?_eq_none.mp hcase' e ((hmem e).mp he))
      | some e' =>
        obtain ⟨he', hkey'⟩ := mem_of_first hcase'
        rw [h.sources e he e' ((hmem e').mpr he') (hkey.trans hkey'.symm)]
  have hend := h.run_end hfit
  have hend' := h'.run_end hfit'
  rw [runAll_eq hend, runAll_eq hend', lookup_run hfit hend, lookup_run hfit' hend', hfirst]

end

/-! ## Parts of a state -/

section

variable {σ ε κ σ' ε' κ' : Type} [DecidableEq κ] [DecidableEq κ']

/-- A state as a part of another one: entries of the part are entries of the whole. -/
structure PartOf (K : Keyed σ ε κ) (K' : Keyed σ' ε' κ') (f : σ → σ') (g : ε → ε') : Prop where
  lookup : ∀ s e, K'.lookup (f s) (K'.key (g e)) = (K.lookup s (K.key e)).map g
  add : ∀ s e, K'.add (f s) (g e) = f (K.add s e)
  agree : ∀ d e, K'.agree (g d) (g e) = K.agree d e

/-- Merging into a part is merging into the whole. -/
theorem PartOf.run {K : Keyed σ ε κ} {K' : Keyed σ' ε' κ'} {f : σ → σ'} {g : ε → ε'}
    (h : PartOf K K' f g) (s : σ) (es : List ε) : KeyedMerge.run K' (f s) (es.map g) =
    (KeyedMerge.run K s es).map f id := by
  induction es generalizing s with
  | nil => rfl
  | cons e es ih =>
    have hlookup := h.lookup s e
    rw [List.map_cons]
    cases hcase : K.lookup s (K.key e) with
    | none =>
      rw [hcase, Option.map_none] at hlookup
      rw [run_cons_of_none hlookup, run_cons_of_none hcase, h.add, ih]
    | some d =>
      rw [hcase, Option.map_some] at hlookup
      cases hagree : K.agree d e with
      | true => rw [run_cons_of_agree hlookup (by rw [h.agree, hagree]),
          run_cons_of_agree hcase hagree, ih]
      | false =>
        rw [run_cons_of_clash hlookup (by rw [h.agree, hagree]), run_cons_of_clash hcase hagree]
        rfl

end

/-! ## A field and a row -/

/-- A field that may be missing. -/
def field {α : Type} (agree : α → α → Bool) (hrefl : ∀ x, agree x x = true) :
    Keyed (Option α) α Unit where
  key _ := ()
  lookup s _ := s
  add _ e := some e
  agree := agree
  Fits _ _ := True
  lookup_add _ _ _ := rfl
  fits_add _ := trivial
  agree_refl := hrefl

/-- A row of entries, with new ones at its end. -/
def row {α κ : Type} [DecidableEq κ] (key : α → κ) (agree : α → α → Bool)
    (hrefl : ∀ x, agree x x = true) :
    Keyed (List α) α κ where
  key := key
  lookup s k := s.find? fun x => key x = k
  add s e := s ++ [e]
  agree := agree
  Fits _ _ := True
  lookup_add {s e} _ hnone k := by
    rw [List.find?_append]
    by_cases hk : key e = k
    · rw [if_pos hk.symm, ← hk, hnone]
      simp
    · rw [if_neg (Ne.symm hk)]
      simp [hk]
  fits_add _ := trivial
  agree_refl := hrefl

/-- A field that may be missing is merged. -/
def mergeField {α : Type} (agree : α → α → Bool) (dst : Option α) (src : Option α) :
    Option α × Bool :=
  match dst, src with
  | some d, some s => (some d, agree d s)
  | none, some s => (some s, true)
  | dst, none => (dst, true)

/-- A row is merged into a row: the first entry of the same key has to agree. -/
def mergeRow {α : Type} (sameKey agree : α → α → Bool) : List α → List α → List α × Bool
  | dst, [] => (dst, true)
  | dst, s :: src =>
    match dst.find? fun d => sameKey d s with
    | some d => if agree d s then mergeRow sameKey agree dst src else (dst, false)
    | none => mergeRow sameKey agree (dst ++ [s]) src

/-- Two rows of states are merged place by place. -/
def mergeMany {α : Type} (merge : α → α → α × Bool) : List α → List α → List α × Bool
  | d :: dst, s :: src =>
    if (merge d s).2 then (mergeMany merge dst src).map ((merge d s).1 :: ·) id
    else ((merge d s).1 :: dst, false)
  | dst, _ => (dst, true)

theorem mergeField_eq {α : Type} {agree : α → α → Bool} (hrefl : ∀ x, agree x x = true)
    (dst src : Option α) :
    mergeField agree dst src = run (field agree hrefl) dst src.toList := by
  cases src with
  | none =>
    cases dst with
    | none => rfl
    | some d => rfl
  | some s =>
    cases dst with
    | none => rfl
    | some d =>
      cases hagree : agree d s with
      | true => rw [mergeField, hagree, Option.toList_some,
          @run_cons_of_agree _ _ _ _ (field agree hrefl) _ d s rfl hagree]; rfl
      | false => rw [mergeField, hagree, Option.toList_some,
          @run_cons_of_clash _ _ _ _ (field agree hrefl) _ d s rfl hagree]

theorem mergeRow_eq {α κ : Type} [DecidableEq κ] (key : α → κ) {agree : α → α → Bool}
    (hrefl : ∀ x, agree x x = true) (dst src : List α) :
    mergeRow (fun d s => key d = key s) agree dst src = run (row key agree hrefl) dst src := by
  induction src generalizing dst with
  | nil => rfl
  | cons s src ih =>
    rw [mergeRow]
    cases hfind : dst.find? fun d => key d = key s with
    | none =>
      rw [@run_cons_of_none _ _ _ _ (row key agree hrefl) dst s hfind]
      exact ih _
    | some d =>
      cases hagree : agree d s with
      | true =>
        rw [@run_cons_of_agree _ _ _ _ (row key agree hrefl) dst d s hfind hagree, ← ih]
        exact if_pos hagree
      | false =>
        rw [@run_cons_of_clash _ _ _ _ (row key agree hrefl) dst d s hfind hagree src]
        exact if_neg (by rw [hagree]; exact Bool.false_ne_true)

/-- Rows of states are parts of a state, place by place. -/
theorem mergeMany_eq {α σ ε κ ε' κ' : Type} [DecidableEq κ] [DecidableEq κ'] {K : Keyed α ε κ}
    {K' : Keyed σ ε' κ'} {merge : α → α → α × Bool} {items : α → List ε}
    (hmerge : ∀ d s, merge d s = run K d (items s)) {f : List α → σ}
    {g : ℕ → ε → ε'} (hpart : ∀ before after,
      PartOf K K' (fun x => f (before ++ x :: after)) (g before.length))
    {dst src : List α} (hlen : dst.length = src.length) (before : List α) :
    run K' (f (before ++ dst)) (src.mapIdx fun i s =>
      (items s).map (g (before.length + i))).flatten =
      (mergeMany merge dst src).map (fun l => f (before ++ l)) id := by
  induction dst generalizing src before with
  | nil =>
    rw [List.length_eq_zero_iff.mp hlen.symm]
    rfl
  | cons d dst ih =>
    cases src with
    | nil => cases hlen
    | cons s src =>
      have hrest := @ih src (Nat.succ.inj hlen) (before ++ [(merge d s).1])
      have hfirst := (hpart before dst).run d (items s)
      rw [← hmerge] at hfirst
      rw [List.mapIdx_cons, List.flatten_cons, run_append, mergeThen, Nat.add_zero,
        hfirst, mergeMany]
      cases hok : (merge d s).2 with
      | false =>
        simp only [Prod.map_snd, id_eq, hok, Bool.false_eq_true, if_false]
        rfl
      | true =>
        simp only [Prod.map_snd, id_eq, hok, if_true, Prod.map_fst]
        rw [List.length_append, List.length_singleton, List.append_assoc,
          List.singleton_append] at hrest
        simp only [Nat.add_right_comm _ 1, ← Nat.add_assoc] at hrest ⊢
        rw [hrest, Prod.map_map]
        simp only [List.append_assoc, List.singleton_append, Function.comp_def]
        rfl

end KeyedMerge
