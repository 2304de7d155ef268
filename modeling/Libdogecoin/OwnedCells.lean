/-
# Programs on a heap and the cells they own

A program reads, writes, allocates and frees cells, and has no result where a cell is not there.
What it says of the cells it owns holds of the whole heap around them: a program that moves from one
set of cells to another leaves every other cell as it is.

* `Ends.bind` : one program after another;
* `Moves.trans`, `Moves.frame` : moves one after another, and beside cells that are left alone;
* `ends_forEach`, `ends_forEach_free` : a loop over the items of a row, that changes or frees them.
-/
import Libdogecoin.Heap
import Mathlib

/-- A program on a heap. -/
abbrev HeapProg (α : Type) := StateT (Heap α) Option

namespace HeapProg

variable {α β γ : Type} {body : ℕ → ℕ → HeapProg α Unit}

/-! ## Primitive programs -/

/-- Allocate a cell. -/
def alloc (a : α) : HeapProg α ℕ := fun h => some (h.fresh, h.alloc a)

/-- Read a part of a cell, if the cell is there and has the part. -/
def readAs (part : α → Option β) (p : ℕ) :
    HeapProg α β := fun h => ((h.read p).bind part).map fun b => (b, h)

/-- Write a cell that is there. -/
def write (p : ℕ) (a : α) : HeapProg α Unit := fun h => (h.read p).map fun _ => ((), h.write p a)

/-- Free a cell that is there. -/
def free (p : ℕ) : HeapProg α Unit := fun h => (h.read p).map fun _ => ((), h.free p)

/-- A program without a result. -/
def fail : HeapProg α β := fun _ => none

/-- A pointer that must not be null. -/
def deref (p : Option ℕ) : HeapProg α ℕ := match p with
  | none => fail
  | some p => pure p

/-- A body for each item and its index. -/
def forEach (body : ℕ → ℕ → HeapProg α Unit) : ℕ → List ℕ → HeapProg α Unit
  | _, [] => pure ()
  | i, p :: ps => do
      body i p
      forEach body (i + 1) ps

/-! ## Results -/

/-- A program has a result, and ends as `Q` says. -/
def Ends (x : HeapProg α β) (h : Heap α) (Q : β → Heap α → Prop) :
    Prop := ∃ b h', x h = some (b, h') ∧ Q b h'

variable {h h' h'' : Heap α} {x : HeapProg α β} {f : β → HeapProg α γ}

theorem Ends.bind {Q : γ → Heap α → Prop} (hx : Ends x h fun b h' => Ends (f b) h' Q) :
    Ends (x >>= f) h Q := by
  obtain ⟨b, h', hrun, c, h'', hrest, hQ⟩ := hx
  refine ⟨c, h'', ?_, hQ⟩
  show (x h).bind (fun out => f out.1 out.2) = _
  rw [hrun, Option.bind_some]
  exact hrest

variable {Q : β → Heap α → Prop} {a : α}

theorem Ends.mono {Q' : β → Heap α → Prop} (hx : Ends x h Q) (hQ : ∀ b h', Q b h' → Q' b h') :
    Ends x h Q' := by
  obtain ⟨b, h', hrun, hb⟩ := hx
  exact ⟨b, h', hrun, hQ b h' hb⟩

theorem ends_pure {b : β} (hQ : Q b h) : Ends (pure b) h Q := ⟨b, h, rfl, hQ⟩

theorem ends_alloc {Q : ℕ → Heap α → Prop} (hQ : Q h.fresh (h.alloc a)) :
    Ends (alloc a) h Q := ⟨_, _, rfl, hQ⟩

theorem ends_readAs {part : α → Option β} {p : ℕ} {b : β} (hread : h.read p = some a)
    (hpart : part a = some b) (hQ : Q b h) : Ends (readAs part p) h Q := by
  refine ⟨b, h, ?_, hQ⟩
  rw [readAs, hread, Option.bind_some, hpart]
  rfl

theorem ends_write {p : ℕ} {b : α} {Q : Unit → Heap α → Prop} (hread : h.read p = some b)
    (hQ : Q () (h.write p a)) : Ends (write p a) h Q := by
  refine ⟨(), _, ?_, hQ⟩
  rw [write, hread]
  rfl

theorem ends_free {p : ℕ} {b : α} {Q : Unit → Heap α → Prop} (hread : h.read p = some b)
    (hQ : Q () (h.free p)) :
    Ends (free p) h Q := by
  refine ⟨(), _, ?_, hQ⟩
  rw [free, hread]
  rfl

/-- A program has no result: it comes to a cell that is not there. -/
def Stops (x : HeapProg α β) (h : Heap α) : Prop := x h = none

theorem Stops.bind (hx : Stops x h) : Stops (x >>= f) h := by
  show (x h).bind (fun out => f out.1 out.2) = none
  rw [hx, Option.bind_none]

/-- The first program ends, and the next one stops. -/
theorem Ends.bind_stops (hx : Ends x h fun b h' => Stops (f b) h') : Stops (x >>= f) h := by
  obtain ⟨b, h', hrun, hstops⟩ := hx
  show (x h).bind (fun out => f out.1 out.2) = none
  rw [hrun, Option.bind_some]
  exact hstops

theorem stops_deref : Stops (deref none : HeapProg α ℕ) h := rfl

theorem bind_run {b : β} (hx : x h = some (b, h')) : (x >>= f) h = f b h' := by
  show (x h).bind (fun out => f out.1 out.2) = _
  rw [hx, Option.bind_some]

/-- A program that is followed by one that always ends. -/
theorem isSome_bind (hf : ∀ b h', (f b h').isSome = true) :
    ((x >>= f) h).isSome = (x h).isSome := by
  cases hx : x h with
  | none =>
    rw [Stops.bind hx]
    rfl
  | some out =>
    rw [bind_run hx, hf]
    rfl

theorem Ends.isSome (hx : Ends x h Q) : (x h).isSome = true := by
  obtain ⟨b, h', hrun, -⟩ := hx
  rw [hrun]
  rfl

theorem Stops.not_isSome (hx : Stops x h) : ¬ (x h).isSome = true := by
  rw [hx]
  exact Bool.false_ne_true

/-! ## Moves -/

/-- From one set of cells to another one, with every other cell left as it is. -/
structure Moves (h : Heap α) (fp : Set ℕ) (h' : Heap α) (fp' : Set ℕ) : Prop where
  fresh : h.fresh ≤ h'.fresh
  cells : ∀ p ∈ fp', p ∈ fp ∨ h.fresh ≤ p
  frame : ∀ p, p < h.fresh → p ∉ fp → h'.read p = h.read p

namespace Moves

variable {fp fp' fp'' g : Set ℕ}

theorem refl (h : Heap α) (fp : Set ℕ) :
    Moves h fp h fp := ⟨le_rfl, fun _ hp => Or.inl hp, fun _ _ _ => rfl⟩

theorem trans (hfirst : Moves h fp h' fp') (hnext : Moves h' fp' h'' fp'') :
    Moves h fp h'' fp'' := by
  refine ⟨hfirst.fresh.trans hnext.fresh, fun p hp => ?_, fun p hlt hp => ?_⟩
  · rcases hnext.cells p hp with hold | hnew
    · exact hfirst.cells p hold
    · exact Or.inr (hfirst.fresh.trans hnew)
  · have hnot : p ∉ fp' := by
      intro hmem
      rcases hfirst.cells p hmem with hold | hnew
      · exact hp hold
      · omega
    rw [hnext.frame p (hlt.trans_le hfirst.fresh) hnot, hfirst.frame p hlt hp]

/-- More may be given, and less be left. -/
theorem mono (hmoves : Moves h fp h' fp') {fq fq' : Set ℕ} (hsub : fp ⊆ fq) (hsub' : fq' ⊆ fp') :
    Moves h fq h' fq' :=
  ⟨hmoves.fresh, fun p hp => (hmoves.cells p (hsub' hp)).imp_left fun hmem => hsub hmem,
    fun p hlt hp => hmoves.frame p hlt fun hmem => hp (hsub hmem)⟩

/-- Cells beside the ones that move stay beside them. -/
theorem disjoint (hmoves : Moves h fp h' fp') (hdisj : Disjoint fp g) (hg : ∀ p ∈ g, p < h.fresh) :
    Disjoint fp' g := by
  refine Set.disjoint_left.mpr fun p hp hpg => ?_
  rcases hmoves.cells p hp with hold | hnew
  · exact Set.disjoint_left.mp hdisj hold hpg
  · exact absurd (hg p hpg) (Nat.not_lt.mpr hnew)

/-- **A move beside cells that are left alone.** -/
theorem frame_cells (hmoves : Moves h fp h' fp') (g : Set ℕ) : Moves h (fp ∪ g) h' (fp' ∪ g) := by
  refine ⟨hmoves.fresh, fun p hp => ?_, fun p hlt hp => hmoves.frame p hlt fun hmem =>
    hp (Or.inl hmem)⟩
  rcases hp with hp | hp
  · exact (hmoves.cells p hp).imp_left Or.inl
  · exact Or.inl (Or.inr hp)

/-- Two moves one after the other, each in cells of its own. -/
theorem both {gp gp' : Set ℕ} (hfirst : Moves h fp h' fp') (hnext : Moves h' gp h'' gp') :
    Moves h (fp ∪ gp) h'' (fp' ∪ gp') := by
  have hleft := hfirst.frame_cells gp
  have hright := hnext.frame_cells fp'
  rw [Set.union_comm gp, Set.union_comm gp'] at hright
  exact hleft.trans hright

/-- A cell of its own is written. -/
theorem write_mem {p : ℕ} (hp : p ∈ fp) (h : Heap α) (a : α) : Moves h fp (h.write p a) fp := by
  refine ⟨(Heap.fresh_write h p a).ge, fun q hq => Or.inl hq, fun q _ hq => ?_⟩
  exact Heap.read_write_of_ne h a fun heq => hq (heq ▸ hp)

/-- One more cell. -/
theorem then_alloc (hmoves : Moves h fp h' fp') (a : α) :
    Moves h fp (h'.alloc a) (insert h'.fresh fp') := by
  refine ⟨hmoves.fresh.trans (by rw [Heap.fresh_alloc]; exact Nat.le_succ _), fun p hp => ?_,
    fun p hlt hp => ?_⟩
  · rcases hp with rfl | hp
    · exact Or.inr hmoves.fresh
    · exact hmoves.cells p hp
  · rw [Heap.read_alloc_of_ne h' a (Nat.ne_of_lt (hlt.trans_le hmoves.fresh)),
      hmoves.frame p hlt hp]

variable {a : α}

/-- What was there before a program with cells of its own is there behind it. -/
theorem read_eq (hmoves : Moves h ∅ h' fp') {p : ℕ} (hread : h.read p = some a) :
    h'.read p = some a := by
  rw [hmoves.frame p (Heap.lt_fresh hread) (Set.notMem_empty p), hread]

theorem alloc (h : Heap α) (a : α) : Moves h ∅ (h.alloc a) {h.fresh} := by
  refine ⟨?_, fun p hp => Or.inr (Set.mem_singleton_iff.mp hp).ge, fun p hlt _ => ?_⟩
  · rw [Heap.fresh_alloc]
    exact Nat.le_succ _
  · exact Heap.read_alloc_of_ne h a (Nat.ne_of_lt hlt)

theorem write (h : Heap α) (p : ℕ) (a : α) : Moves h {p} (h.write p a) {p} := by
  refine ⟨(Heap.fresh_write h p a).ge, fun q hq => Or.inl hq, fun q _ hq => ?_⟩
  exact Heap.read_write_of_ne h a hq

theorem free (h : Heap α) (p : ℕ) : Moves h {p} (h.free p) ∅ := by
  refine ⟨(Heap.fresh_free h p).ge, fun q hq => absurd hq (Set.notMem_empty q), fun q _ hq => ?_⟩
  exact Heap.read_free_of_ne h hq

/-- A cell and what it points to. -/
theorem free_pair (h : Heap α) (p q : ℕ) : Moves h {p, q} ((h.free q).free p) ∅ := by
  have hboth := (Moves.free h q).both (Moves.free (h.free q) p)
  rw [Set.union_empty, Set.union_comm] at hboth
  exact hboth

/-- A cell that points to what was allocated behind it. -/
theorem alloc_pair {q : ℕ} (hmoves : Moves (h.alloc a) ∅ h' {q}) (b : α) :
    Moves h ∅ (h'.write h.fresh b) {h.fresh, q} := by
  have hboth := (Moves.alloc h a).both hmoves
  rw [Set.union_empty] at hboth
  exact hboth.trans (Moves.write_mem (Or.inl rfl) h' b)

end Moves

/-! ## Layouts -/

/-- How a value lies in a heap: at an address, in a set of cells. -/
structure Layout (α β : Type) where
  At : Heap α → ℕ → β → Set ℕ → Prop
  allocated : ∀ {h : Heap α} {p : ℕ} {b : β} {fp : Set ℕ}, At h p b fp → ∀ q ∈ fp, ∃ a,
    h.read q = some a
  agree : ∀ {h h' : Heap α} {p : ℕ} {b : β} {fp : Set ℕ}, At h p b fp →
    (∀ q ∈ fp, h'.read q = h.read q) →
    At h' p b fp

variable {L : Layout α β} {p : ℕ} {b : β} {fp fp' g : Set ℕ}

theorem Layout.lt_fresh (L : Layout α β) (hat : L.At h p b fp) {q : ℕ} (hq : q ∈ fp) :
    q < h.fresh := by
  obtain ⟨a, hread⟩ := L.allocated hat q hq
  exact Heap.lt_fresh hread

/-- A value beside the cells that move stays where it is. -/
theorem Layout.frame (L : Layout α β) (hat : L.At h p b g) (hmoves : Moves h fp h' fp')
    (hdisj : Disjoint fp g) :
    L.At h' p b g :=
  L.agree hat fun _ hq => hmoves.frame _ (L.lt_fresh hat hq) fun hmem =>
    Set.disjoint_left.mp hdisj hmem hq

/-- A move beside a cell that points to what moves, and beside another value. -/
theorem Layout.beside (L : Layout α β) (hmoves : Moves h fp h' fp') {q : ℕ} {a : α}
    (hcell : h.read q = some a) (hat : L.At h p b g) (hdisj : Disjoint fp g) (hq : q ∉ fp ∪ g) :
    h'.read q = some a ∧ L.At h' p b g ∧ Disjoint fp' g ∧ q ∉ fp' ∪ g ∧
      Moves h (insert q (fp ∪ g)) h' (insert q (fp' ∪ g)) := by
  have hlt := Heap.lt_fresh hcell
  rw [Set.mem_union, not_or] at hq
  have hside := hmoves.disjoint (Set.disjoint_insert_right.mpr ⟨hq.1, hdisj⟩) fun r hr =>
    hr.elim (fun heq => heq ▸ hlt) (L.lt_fresh hat)
  obtain ⟨hq', hdisj'⟩ := Set.disjoint_insert_right.mp hside
  have hframe := hmoves.frame_cells (insert q g)
  rw [Set.union_insert, Set.union_insert] at hframe
  exact ⟨(hmoves.frame q hlt hq.1).trans hcell, L.frame hat hmoves hdisj, hdisj',
    fun hmem => hmem.elim hq' hq.2, hframe⟩

/-- A value lies at an address, in whatever cells. -/
def Layout.Holds (L : Layout α β) (h : Heap α) (p : ℕ) (b : β) : Prop := ∃ fp, L.At h p b fp

theorem Layout.Holds.keep (hholds : L.Holds h p b) (hmoves : Moves h ∅ h' fp') :
    L.Holds h' p b := by
  obtain ⟨fp, hat⟩ := hholds
  exact ⟨fp, L.frame hat hmoves (Set.empty_disjoint fp)⟩

/-- Items in a row, each in cells of its own. -/
inductive RowAt (L : Layout α β) (h : Heap α) : List ℕ → List β → Set ℕ → Prop
  | nil : RowAt L h [] [] ∅
  | cons {p : ℕ} {ps : List ℕ} {b : β} {bs : List β} {fp fps : Set ℕ} : L.At h p b fp →
      RowAt L h ps bs fps →
      Disjoint fp fps → RowAt L h (p :: ps) (b :: bs) (fp ∪ fps)

namespace RowAt

variable {ps qs : List ℕ} {bs cs : List β}

theorem allocated (hrow : RowAt L h ps bs fp) : ∀ q ∈ fp, ∃ a, h.read q = some a := by
  induction hrow with
  | nil => exact fun q hq => absurd hq (Set.notMem_empty q)
  | cons hat _ _ ih => exact fun q hq => hq.elim (L.allocated hat q) (ih q)

theorem lt_fresh (hrow : RowAt L h ps bs fp) {q : ℕ} (hq : q ∈ fp) : q < h.fresh := by
  obtain ⟨a, hread⟩ := hrow.allocated q hq
  exact Heap.lt_fresh hread

theorem agree (hrow : RowAt L h ps bs fp) (hsame : ∀ q ∈ fp, h'.read q = h.read q) :
    RowAt L h' ps bs fp := by
  induction hrow with
  | nil => exact .nil
  | cons hat _ hdisj ih =>
    exact .cons (L.agree hat fun q hq => hsame q (Or.inl hq)) (ih fun q hq =>
      hsame q (Or.inr hq)) hdisj

theorem frame (hrow : RowAt L h ps bs g) (hmoves : Moves h fp h' fp') (hdisj : Disjoint fp g) :
    RowAt L h' ps bs g :=
  hrow.agree fun _ hq => hmoves.frame _ (hrow.lt_fresh hq) fun hmem =>
    Set.disjoint_left.mp hdisj hmem hq

theorem length_eq (hrow : RowAt L h ps bs fp) : ps.length = bs.length := by
  induction hrow with
  | nil => rfl
  | cons _ _ _ ih => rw [List.length_cons, List.length_cons, ih]

theorem holds (hrow : RowAt L h ps bs fp) : List.Forall₂ (L.Holds h) ps bs := by
  induction hrow with
  | nil => exact .nil
  | cons hat _ _ ih => exact .cons ⟨_, hat⟩ ih

theorem append (hrow : RowAt L h ps bs fp) (hrow' : RowAt L h qs cs g) (hdisj : Disjoint fp g) :
    RowAt L h (ps ++ qs) (bs ++ cs) (fp ∪ g) := by
  induction hrow with
  | nil =>
    rw [Set.empty_union]
    exact hrow'
  | cons hat _ hhead ih =>
    obtain ⟨hfirst, hrest⟩ := Set.disjoint_union_left.mp hdisj
    rw [Set.union_assoc]
    exact .cons hat (ih hrest) (Set.disjoint_union_right.mpr ⟨hhead, hfirst⟩)

/-- A row is cut where its list of addresses is. -/
theorem split (n : ℕ) (hrow : RowAt L h ps bs fp) : ∃ fq fr, RowAt L h (ps.take n) (bs.take n) fq ∧
    RowAt L h (ps.drop n) (bs.drop n) fr ∧ Disjoint fq fr ∧ fp = fq ∪ fr := by
  induction n generalizing ps bs fp with
  | zero => exact ⟨∅, fp, .nil, hrow, Set.empty_disjoint _, (Set.empty_union _).symm⟩
  | succ n ih =>
    cases hrow with
    | nil => exact ⟨∅, ∅, .nil, .nil, Set.empty_disjoint _, (Set.empty_union _).symm⟩
    | cons hat hrest hdisj =>
      obtain ⟨fq, fr, hleft, hright, hcut, rfl⟩ := ih hrest
      obtain ⟨hq, hr⟩ := Set.disjoint_union_right.mp hdisj
      exact ⟨_, fr, .cons hat hleft hq, hright, Set.disjoint_union_left.mpr ⟨hr, hcut⟩,
        (Set.union_assoc _ _ _).symm⟩

end RowAt

/-! ## Loops -/

/-- A program turns the value at an address into another one. -/
def Changes (L : Layout α β) (x : ℕ → HeapProg α Unit) (f : β → β) : Prop :=
  ∀ ⦃h p b fp⦄, L.At h p b fp → Ends (x p) h fun _ h' => ∃ fp', L.At h' p (f b) fp' ∧
    Moves h fp h' fp'

/-- A program frees the cells of the value at an address. -/
def Frees (L : Layout α β) (x : ℕ → HeapProg α Unit) : Prop :=
  ∀ ⦃h p b fp⦄, L.At h p b fp → Ends (x p) h fun _ h' => Moves h fp h' ∅

/-- A program copies the value at an address into cells of its own. -/
def Copies (L : Layout α β) (x : ℕ → HeapProg α ℕ) : Prop :=
  ∀ ⦃h p b fp⦄, L.At h p b fp → Ends (x p) h fun q h' => ∃ fp', L.At h' q b fp' ∧ Moves h ∅ h' fp'

/-- **A loop that changes the items of a row**, each by its index. -/
theorem ends_forEach {f : ℕ → β → β} (hbody : ∀ i, Changes L (body i) (f i))
    {ps : List ℕ} {bs : List β} (hrow : RowAt L h ps bs fp) (i : ℕ) :
    Ends (forEach body i ps) h fun _ h' =>
      ∃ fp', RowAt L h' ps (bs.mapIdx fun k => f (i + k)) fp' ∧ Moves h fp h' fp' := by
  induction ps generalizing h bs fp i with
  | nil =>
    cases hrow
    exact ends_pure ⟨∅, .nil, .refl _ _⟩
  | cons p ps ih =>
    cases hrow with
    | @cons _ _ b bs fp fps hat hrest hdisj =>
      refine Ends.bind ((hbody i hat).mono fun _ h₁ hfirst => ?_)
      obtain ⟨fq, hat₁, hmoves₁⟩ := hfirst
      have hrest₁ := hrest.frame hmoves₁ hdisj
      have hdisj₁ := hmoves₁.disjoint hdisj fun q hq => hrest.lt_fresh hq
      refine (ih hrest₁ (i + 1)).mono fun _ h₂ hnext => ?_
      obtain ⟨fr, hrest₂, hmoves₂⟩ := hnext
      have hat₂ := L.frame hat₁ hmoves₂ hdisj₁.symm
      have hdisj₂ := (hmoves₂.disjoint hdisj₁.symm fun q hq => L.lt_fresh hat₁ hq).symm
      refine ⟨fq ∪ fr, ?_, ?_⟩
      · rw [List.mapIdx_cons]
        have hshift : (fun k => f (i + (k + 1))) = fun k => f (i + 1 + k) := by
          funext k
          rw [Nat.add_assoc, Nat.add_comm 1 k]
        rw [hshift]
        exact .cons hat₂ hrest₂ hdisj₂
      · exact hmoves₁.both hmoves₂

/-- **A loop that frees the items of a row.** -/
theorem ends_forEach_free {x : ℕ → HeapProg α Unit} (hx : Frees L x) {ps : List ℕ} {bs : List β}
    (hrow : RowAt L h ps bs fp) (i : ℕ) : Ends (forEach (fun _ => x) i ps) h fun _ h' =>
    Moves h fp h' ∅ := by
  induction ps generalizing h bs fp i with
  | nil =>
    cases hrow
    exact ends_pure (.refl _ _)
  | cons p ps ih =>
    cases hrow with
    | cons hat hrest hdisj =>
      refine Ends.bind ((hx hat).mono fun _ h₁ hmoves₁ => ?_)
      refine (ih (hrest.frame hmoves₁ hdisj) (i + 1)).mono fun _ h₂ hmoves₂ => ?_
      have hboth := hmoves₁.both hmoves₂
      rwa [Set.empty_union] at hboth

/-- What lies beside the cells that were moved is freed behind the move. -/
theorem Frees.beside {x : ℕ → HeapProg α Unit} (hx : Frees L x) {fq : Set ℕ} (hat : L.At h p b g)
    (hmoves : Moves h fp h' fq) (hdisj : Disjoint fp g) :
    Ends (x p) h' fun _ h'' => Moves h (fp ∪ g) h'' fq ∧ Moves h' g h'' ∅ ∧ Disjoint g fq := by
  have hapart := hmoves.disjoint hdisj fun q hq => L.lt_fresh hat hq
  refine (hx (L.frame hat hmoves hdisj)).mono fun _ h'' hfree => ⟨?_, hfree, hapart.symm⟩
  have hboth := hmoves.both hfree
  rwa [Set.union_empty] at hboth

/-- **A loop that stops** at an item of a row, if the items before it are changed in their own
cells. -/
theorem stops_forEach {P : β → Prop}
    (hbody : ∀ ⦃i h p b fp⦄, L.At h p b fp → P b → Ends (body i p) h fun _ h' => ∃ fp',
      Moves h fp h' fp')
    (hstop : ∀ ⦃i h p b fp⦄, L.At h p b fp → ¬ P b → Stops (body i p) h) {ps : List ℕ} {bs : List β}
    (hrow : RowAt L h ps bs fp) (hbad : ∃ b ∈ bs, ¬ P b) (i : ℕ) : Stops (forEach body i ps) h := by
  induction ps generalizing h bs fp i with
  | nil =>
    cases hrow
    obtain ⟨b, hmem, -⟩ := hbad
    cases hmem
  | cons p ps ih =>
    cases hrow with
    | @cons _ _ b bs fp fps hat hrest hdisj =>
      by_cases hb : P b
      · refine Ends.bind_stops ((hbody hat hb).mono fun _ h₁ hend => ?_)
        obtain ⟨fp', hmoves⟩ := hend
        obtain ⟨c, hmem, hc⟩ := hbad
        have hne : c ≠ b := fun heq => hc (heq ▸ hb)
        exact ih (hrest.frame hmoves hdisj) ⟨c, (List.mem_cons.mp hmem).resolve_left hne,
          hc⟩ (i + 1)
      · exact Stops.bind (hstop hat hb)

/-- The values at the addresses of a list. -/
def readEach (x : ℕ → HeapProg α β) : List ℕ → HeapProg α (List β)
  | [] => pure []
  | p :: ps => do
      let b ← x p
      let bs ← readEach x ps
      pure (b :: bs)

/-- A program reads the value at an address. -/
def Reads (L : Layout α β) (x : ℕ → HeapProg α β) : Prop :=
  ∀ ⦃h p b⦄, L.Holds h p b → Ends (x p) h fun c h' => c = b ∧ h' = h

/-- A part of the value at each address. -/
theorem ends_readEach_map {x : ℕ → HeapProg α γ} {f : β → γ}
    (hx : ∀ ⦃h p b⦄, L.Holds h p b → Ends (x p) h fun c h' => c = f b ∧ h' = h)
    {ps : List ℕ} {bs : List β}
    (hholds : List.Forall₂ (L.Holds h) ps bs) : Ends (readEach x ps) h fun cs h' =>
    cs = bs.map f ∧ h' = h := by
  induction hholds with
  | nil => exact ends_pure ⟨rfl, rfl⟩
  | cons hhead _ ih =>
    refine Ends.bind ((hx hhead).mono fun c h₁ hfirst => ?_)
    obtain ⟨rfl, rfl⟩ := hfirst
    refine Ends.bind (ih.mono fun cs h₂ hnext => ?_)
    obtain ⟨rfl, rfl⟩ := hnext
    exact ends_pure ⟨rfl, rfl⟩

theorem ends_readEach {x : ℕ → HeapProg α β} (hx : Reads L x) {ps : List ℕ} {bs : List β}
    (hholds : List.Forall₂ (L.Holds h) ps bs) : Ends (readEach x ps) h fun cs h' =>
    cs = bs ∧ h' = h := by
  have hmap := ends_readEach_map (f := id) hx hholds
  rwa [List.map_id] at hmap

end HeapProg
