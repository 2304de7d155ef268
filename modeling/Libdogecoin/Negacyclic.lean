/-
# The negacyclic transform

The number-theoretic transform of `R[X] / (X ^ N + 1)`, in layers of butterflies, over any
commutative ring with a tree of square roots of `-1`.

* `foldl_pairs` : a loop over the pairs of a layer is the layer;
* `inverse_forward`, `forward_inverse` : the inverse layers undo the layers, and the other way
  around, up to the number of coefficients;
* `forward_eq_eval` : the transform evaluates at the `N` roots of `X ^ N = -1`;
* `eval_negaMul` : evaluation at such a root takes the negacyclic product to the product;
* `inverse_mul_forward` : so the product of two transforms comes back as the negacyclic product.
-/
import Mathlib.Algebra.BigOperators.Ring.Finset
import Mathlib.Algebra.Order.BigOperators.Group.Finset
import Mathlib.Tactic.Ring
import Mathlib.Tactic.LinearCombination

namespace Negacyclic

variable {R S : Type} {z z' : ℕ → R} {i N : ℕ}

/-! ## Pairs -/

/-- Every pair of coefficients at the distance `l` is changed; the pairs come in blocks of
`2 * l`. -/
def pairLayer (l : ℕ) (lo hi : ℕ → R → R → R) (x : ℕ → R) (k : ℕ) : R :=
  if k / l % 2 = 0 then lo (k / l / 2) (x k) (x (k + l)) else hi (k / l / 2) (x (k - l)) (x k)

variable {m : ℕ} {y : ℕ → R}

theorem mul_add_div {l : ℕ} (hm : m < l) (d : ℕ) : (d * l + m) / l = d := by
  rw [Nat.mul_comm, Nat.mul_add_div (by omega), Nat.div_eq_of_lt hm, Nat.add_zero]

/-- The lower coefficient of a pair. -/
theorem pairLayer_lo {l : ℕ} (hm : m < l) (lo hi : ℕ → R → R → R) (x : ℕ → R) (b : ℕ) :
    pairLayer l lo hi x (2 * b * l + m) = lo b (x (2 * b * l + m)) (x ((2 * b + 1) * l + m)) := by
  have hshift : 2 * b * l + m + l = (2 * b + 1) * l + m := by ring
  rw [pairLayer, mul_add_div hm, if_pos (by omega), hshift, Nat.mul_div_cancel_left b Nat.two_pos]

/-- The upper coefficient of a pair. -/
theorem pairLayer_hi {l : ℕ} (hm : m < l) (lo hi : ℕ → R → R → R) (x : ℕ → R) (b : ℕ) :
    pairLayer l lo hi x ((2 * b + 1) * l + m) =
      hi b (x (2 * b * l + m)) (x ((2 * b + 1) * l + m)) := by
  have hshift : (2 * b + 1) * l + m - l = 2 * b * l + m := by
    have hsum : (2 * b + 1) * l + m = 2 * b * l + m + l := by ring
    rw [hsum, Nat.add_sub_cancel]
  have hhalf : (2 * b + 1) / 2 = b := by omega
  rw [pairLayer, mul_add_div hm, if_neg (by omega), hshift, hhalf]

/-- Every position is the lower or the upper one of a pair. -/
theorem exists_pair {l n k : ℕ} (hk : k < n * (2 * l)) :
    ∃ b < n, ∃ m < l, k = 2 * b * l + m ∨ k = (2 * b + 1) * l + m := by
  have hl : 0 < l := by
    rcases Nat.eq_zero_or_pos l with rfl | h
    · omega
    · exact h
  have hdecomp := Nat.div_add_mod k l
  have hm := Nat.mod_lt k hl
  have hquot : k / l < 2 * n := by
    rw [Nat.div_lt_iff_lt_mul hl]
    calc k < n * (2 * l) := hk
      _ = 2 * n * l := by ring
  refine ⟨k / l / 2, by omega, k % l, hm, ?_⟩
  rcases Nat.mod_two_eq_zero_or_one (k / l) with h | h
  · left
    rw [show 2 * (k / l / 2) = k / l by omega, Nat.mul_comm (k / l)]
    exact hdecomp.symm
  · right
    rw [show 2 * (k / l / 2) + 1 = k / l by omega, Nat.mul_comm (k / l)]
    exact hdecomp.symm

/-- What holds of both coefficients of every pair holds of all coefficients. -/
theorem forall_of_pairs {l n : ℕ} {P : ℕ → Prop}
    (h : ∀ b < n, ∀ m < l, P (2 * b * l + m) ∧ P ((2 * b + 1) * l + m)) :
    ∀ k < n * (2 * l), P k := by
  intro k hk
  obtain ⟨b, hb, m, hm, rfl | rfl⟩ := exists_pair hk
  · exact (h b hb m hm).1
  · exact (h b hb m hm).2

theorem pair_lt {l n b : ℕ} (hb : b < n) (hm : m < l) :
    2 * b * l + m < n * (2 * l) ∧ (2 * b + 1) * l + m < n * (2 * l) := by
  have hblock : (b + 1) * (2 * l) ≤ n * (2 * l) := Nat.mul_le_mul_right _ hb
  constructor
  · calc 2 * b * l + m < 2 * b * l + 2 * l := by omega
      _ = (b + 1) * (2 * l) := by ring
      _ ≤ n * (2 * l) := hblock
  · calc (2 * b + 1) * l + m < (2 * b + 1) * l + l := by omega
      _ = (b + 1) * (2 * l) := by ring
      _ ≤ n * (2 * l) := hblock

/-- A layer only looks at the coefficients there are. -/
theorem pairLayer_congr {l n : ℕ} {lo hi : ℕ → R → R → R} {x : ℕ → R}
    (h : ∀ k < n * (2 * l), x k = y k) :
    ∀ k < n * (2 * l), pairLayer l lo hi x k = pairLayer l lo hi y k := by
  apply forall_of_pairs
  intro b hb m hm
  obtain ⟨hlo, hhi⟩ := pair_lt hb hm
  rw [pairLayer_lo hm, pairLayer_lo hm, pairLayer_hi hm, pairLayer_hi hm, h _ hlo, h _ hhi]
  exact ⟨rfl, rfl⟩

/-! ## Loops over pairs -/

/-- A position is determined by its number of steps of `l` and what is left. -/
theorem pos_inj {l d d' m' : ℕ} (hm : m < l) (hm' : m' < l) (h : d * l + m = d' * l + m') :
    d = d' ∧ m = m' := by
  have hd : d = d' :=
    calc d = (d * l + m) / l := (mul_add_div hm d).symm
      _ = (d' * l + m') / l := by rw [h]
      _ = d' := mul_add_div hm' d'
  subst hd
  exact ⟨rfl, Nat.add_left_cancel h⟩

/-- A state whose values are those of `x`, where the pairs in front of one are changed already. -/
structure PairsDone {σ : Type} (val : σ → ℕ → R) (P : σ → Prop) (l n : ℕ)
    (lo hi : ℕ → R → R → R) (x : ℕ → R) (b m : ℕ) (g : σ) : Prop where
  ok : P g
  done : ∀ b' < n, ∀ m' < l, b' < b ∨ b' = b ∧ m' < m →
    val g (2 * b' * l + m') = lo b' (x (2 * b' * l + m')) (x ((2 * b' + 1) * l + m')) ∧
      val g ((2 * b' + 1) * l + m') = hi b' (x (2 * b' * l + m')) (x ((2 * b' + 1) * l + m'))
  rest : ∀ b' < n, ∀ m' < l, ¬ (b' < b ∨ b' = b ∧ m' < m) →
    val g (2 * b' * l + m') = x (2 * b' * l + m') ∧ val g ((2 * b' + 1) * l + m') =
      x ((2 * b' + 1) * l + m')

/-- A step that changes one pair of values, and nothing else. -/
structure ChangesPair {σ : Type} (val : σ → ℕ → R) (P : σ → Prop) (l : ℕ)
    (lo hi : ℕ → R → R → R) (b m : ℕ) (g g' : σ) : Prop where
  ok : P g'
  lower : val g' (2 * b * l + m) = lo b (val g (2 * b * l + m)) (val g ((2 * b + 1) * l + m))
  upper : val g' ((2 * b + 1) * l + m) = hi b (val g (2 * b * l + m)) (val g ((2 * b + 1) * l + m))
  other : ∀ k, k ≠ 2 * b * l + m → k ≠ (2 * b + 1) * l + m → val g' k = val g k

section Loops

variable {σ ι : Type} {val : σ → ℕ → R} {P : σ → Prop} {l n : ℕ} {lo hi : ℕ → R → R → R} {x : ℕ → R}
  {step : σ → ι → σ} {p : ℕ → ℕ → ι}

/-- One more pair. -/
theorem PairsDone.next {b m : ℕ} {g g' : σ} (h : PairsDone val P l n lo hi x b m g)
    (hb : b < n) (hm : m < l) (hchanges : ChangesPair val P l lo hi b m g g') :
    PairsDone val P l n lo hi x b (m + 1) g' := by
  have hother : ∀ b' < n, ∀ m' < l, ¬ (b' = b ∧ m' = m) →
      val g' (2 * b' * l + m') = val g (2 * b' * l + m') ∧
        val g' ((2 * b' + 1) * l + m') = val g ((2 * b' + 1) * l + m') := by
    intro b' _ m' hm' hne
    constructor
    · apply hchanges.other
      · intro heq
        obtain ⟨hd, hmm⟩ := pos_inj hm' hm heq
        exact hne ⟨by omega, hmm⟩
      · intro heq
        obtain ⟨hd, -⟩ := pos_inj hm' hm heq
        omega
    · apply hchanges.other
      · intro heq
        obtain ⟨hd, -⟩ := pos_inj hm' hm heq
        omega
      · intro heq
        obtain ⟨hd, hmm⟩ := pos_inj hm' hm heq
        exact hne ⟨by omega, hmm⟩
  refine ⟨hchanges.ok, ?_, ?_⟩
  · intro b' hb' m' hm' hdone
    by_cases hsame : b' = b ∧ m' = m
    · obtain ⟨rfl, rfl⟩ := hsame
      obtain ⟨hlo, hhi⟩ := h.rest b' hb' m' hm' (by omega)
      rw [hchanges.lower, hchanges.upper, hlo, hhi]
      exact ⟨rfl, rfl⟩
    · obtain ⟨hlo, hhi⟩ := hother b' hb' m' hm' hsame
      rw [hlo, hhi]
      exact h.done b' hb' m' hm' (by omega)
  · intro b' hb' m' hm' hdone
    obtain ⟨hlo, hhi⟩ := hother b' hb' m' hm' (by omega)
    rw [hlo, hhi]
    exact h.rest b' hb' m' hm' (by omega)

/-- The pairs of one block. -/
theorem PairsDone.block {b : ℕ} {g : σ} (h : PairsDone val P l n lo hi x b 0 g) (hb : b < n)
    (hstep : ∀ g, P g → ∀ b < n, ∀ m < l, ChangesPair val P l lo hi b m g (step g (p b m))) :
    PairsDone val P l n lo hi x (b + 1) 0 (((List.range l).map (p b)).foldl step g) := by
  have hrun : ∀ m ≤ l, PairsDone val P l n lo hi x b m
    (((List.range m).map (p b)).foldl step g) := by
    intro m
    induction m with
    | zero => exact fun _ => h
    | succ m ih =>
      intro hm
      have hbefore := ih (by omega)
      rw [List.range_succ, List.map_append, List.foldl_append]
      exact hbefore.next hb hm (hstep _ hbefore.ok b hb m hm)
  obtain ⟨hok, hdone, hrest⟩ := hrun l le_rfl
  exact ⟨hok, fun b' hb' m' hm' hlt => hdone b' hb' m' hm' (by omega),
    fun b' hb' m' hm' hnot => hrest b' hb' m' hm' (by omega)⟩

/-- **The loops.** A step for every pair, block by block, is the layer. -/
theorem foldl_pairs {f : σ} (hf : P f) (hx : ∀ k < n * (2 * l), val f k = x k)
    (hstep : ∀ g, P g → ∀ b < n, ∀ m < l, ChangesPair val P l lo hi b m g (step g (p b m))) :
    P (((List.range n).flatMap fun b => (List.range l).map (p b)).foldl step f) ∧
      ∀ k < n * (2 * l), val (((List.range n).flatMap fun b =>
        (List.range l).map (p b)).foldl step f) k =
        pairLayer l lo hi x k := by
  have hrun : ∀ b ≤ n, PairsDone val P l n lo hi x b 0
      (((List.range b).flatMap fun b => (List.range l).map (p b)).foldl step f) := by
    intro b
    induction b with
    | zero =>
      intro _
      refine ⟨hf, fun b' _ m' _ hlt => by omega, fun b' hb' m' hm' _ => ?_⟩
      obtain ⟨hlo, hhi⟩ := pair_lt hb' hm'
      exact ⟨hx _ hlo, hx _ hhi⟩
    | succ b ih =>
      intro hb
      rw [List.range_succ, List.flatMap_append, List.foldl_append, List.flatMap_singleton]
      exact (ih (by omega)).block hb hstep
  obtain ⟨hok, hdone, -⟩ := hrun n le_rfl
  refine ⟨hok, forall_of_pairs fun b hb m hm => ?_⟩
  obtain ⟨hlo, hhi⟩ := hdone b hb m hm (Or.inl hb)
  rw [hlo, hhi, pairLayer_lo hm, pairLayer_hi hm]
  exact ⟨rfl, rfl⟩

end Loops

/-! ## Layers -/

variable [CommRing R]

/-- A layer of the transform, with a root for each block. -/
def layer (l : ℕ) (z : ℕ → R) : (ℕ → R) → ℕ → R :=
  pairLayer l (fun b x y => x + y * z b) fun b x y => x - y * z b

/-- A layer of the inverse transform, with the difference taken the other way around. -/
def layerInv (l : ℕ) (z : ℕ → R) : (ℕ → R) → ℕ → R :=
  pairLayer l (fun _ x y => x + y) fun b x y => z b * (y - x)

/-- The transform of blocks of `2 ^ s` coefficients, of which there are `n`. -/
def forward (w : ℕ → R) : ℕ → ℕ → (ℕ → R) → ℕ → R
  | 0, _, x => x
  | s + 1, n, x => forward w s (2 * n) (layer (2 ^ s) (fun b => w (n + b)) x)

/-- The inverse transform, with the roots of each layer in the opposite order. -/
def inverse (w : ℕ → R) : ℕ → ℕ → (ℕ → R) → ℕ → R
  | 0, _, x => x
  | s + 1, n, x => layerInv (2 ^ s) (fun b => w (2 * n - 1 - b)) (inverse w s (2 * n) x)

theorem mul_two_pow_succ (n s : ℕ) : n * 2 ^ (s + 1) = n * (2 * 2 ^ s) := by ring

theorem two_mul_two_pow (n s : ℕ) : 2 * n * 2 ^ s = n * (2 * 2 ^ s) := by ring

theorem inverse_congr (w : ℕ → R) (s n : ℕ) {x : ℕ → R} (h : ∀ k < n * 2 ^ s, x k = y k) :
    ∀ k < n * 2 ^ s, inverse w s n x k = inverse w s n y k := by
  induction s generalizing n with
  | zero => exact h
  | succ s ih =>
    have hrest := ih (2 * n) (by rwa [two_mul_two_pow, ← mul_two_pow_succ])
    rw [two_mul_two_pow] at hrest
    rw [mul_two_pow_succ, inverse, inverse]
    exact pairLayer_congr hrest

/-! ## The inverse -/

/-- One layer is undone, up to a factor of two. -/
theorem layerInv_layer {l n : ℕ} (hz : ∀ b < n, z b * z' b = -1) (c : R) {x : ℕ → R}
    (hy : ∀ k < n * (2 * l), y k = c * layer l z x k) :
    ∀ k < n * (2 * l), layerInv l z' y k = 2 * c * x k := by
  apply forall_of_pairs
  intro b hb m hm
  obtain ⟨hlo, hhi⟩ := pair_lt hb hm
  have hlo_eq := hy _ hlo
  have hhi_eq := hy _ hhi
  rw [layer, pairLayer_lo hm] at hlo_eq
  rw [layer, pairLayer_hi hm] at hhi_eq
  rw [layerInv, pairLayer_lo hm, pairLayer_hi hm, hlo_eq, hhi_eq]
  constructor
  · ring
  · linear_combination (-2 * c * x ((2 * b + 1) * l + m)) * hz b hb

section Roots

variable {w : ℕ → R} {s n : ℕ}

/-- The roots of the first layer. -/
theorem roots_head (hw : ∀ t < s + 1, ∀ b < n * 2 ^ t,
    w (n * 2 ^ t + b) * w (2 * (n * 2 ^ t) - 1 - b) = -1) :
    ∀ b < n, w (n + b) * w (2 * n - 1 - b) = -1 := by
  intro b hb
  have h := hw 0 (by omega) b (by rwa [pow_zero, Nat.mul_one])
  rwa [pow_zero, Nat.mul_one] at h

/-- The roots of the layers behind it. -/
theorem roots_tail (hw : ∀ t < s + 1, ∀ b < n * 2 ^ t,
    w (n * 2 ^ t + b) * w (2 * (n * 2 ^ t) - 1 - b) = -1) :
    ∀ t < s, ∀ b < 2 * n * 2 ^ t, w (2 * n * 2 ^ t + b) * w (2 * (2 * n * 2 ^ t) - 1 - b) = -1 := by
  intro t ht b hb
  have hpow : 2 * n * 2 ^ t = n * 2 ^ (t + 1) := by ring
  rw [hpow] at hb ⊢
  exact hw (t + 1) (by omega) b hb

end Roots

/-- **The inverse.** All layers are undone, up to the number of coefficients in a block. -/
theorem inverse_forward (w : ℕ → R) (s n : ℕ)
    (hw : ∀ t < s, ∀ b < n * 2 ^ t, w (n * 2 ^ t + b) * w (2 * (n * 2 ^ t) - 1 - b) = -1)
    (x : ℕ → R) :
    ∀ k < n * 2 ^ s, inverse w s n (forward w s n x) k = 2 ^ s * x k := by
  induction s generalizing n x with
  | zero =>
    intro k _
    rw [pow_zero, one_mul]
    rfl
  | succ s ih =>
    have hrest := ih (2 * n) (roots_tail hw) (layer (2 ^ s) (fun b => w (n + b)) x)
    rw [two_mul_two_pow] at hrest
    intro k hk
    rw [mul_two_pow_succ] at hk
    rw [inverse, forward, layerInv_layer (roots_head hw) (2 ^ s) hrest k hk, pow_succ]
    ring

/-! ## The other way around -/

theorem layer_mul_left (l : ℕ) (z : ℕ → R) (c : R) (x : ℕ → R) :
    layer l z (fun k => c * x k) = fun k => c * layer l z x k := by
  funext k
  simp only [layer, pairLayer]
  split
  · ring
  · ring

theorem forward_mul_left (w : ℕ → R) (s n : ℕ) (c : R) (x : ℕ → R) :
    forward w s n (fun k => c * x k) = fun k => c * forward w s n x k := by
  induction s generalizing n x with
  | zero => rfl
  | succ s ih => rw [forward, layer_mul_left, ih, forward]

theorem forward_congr (w : ℕ → R) (s n : ℕ) {x : ℕ → R} (h : ∀ k < n * 2 ^ s, x k = y k) :
    ∀ k < n * 2 ^ s, forward w s n x k = forward w s n y k := by
  induction s generalizing n x y with
  | zero => exact h
  | succ s ih =>
    rw [mul_two_pow_succ] at h ⊢
    rw [← two_mul_two_pow, forward, forward]
    apply ih
    rw [two_mul_two_pow]
    exact pairLayer_congr h

/-- One layer of the inverse is undone, up to a factor of two. -/
theorem layer_layerInv {l n : ℕ} (hz : ∀ b < n, z b * z' b = -1) (x : ℕ → R) :
    ∀ k < n * (2 * l), layer l z (layerInv l z' x) k = 2 * x k := by
  apply forall_of_pairs
  intro b hb m hm
  rw [layer, pairLayer_lo hm, pairLayer_hi hm, layerInv, pairLayer_lo hm, pairLayer_hi hm]
  constructor
  · linear_combination (x ((2 * b + 1) * l + m) - x (2 * b * l + m)) * hz b hb
  · linear_combination (x (2 * b * l + m) - x ((2 * b + 1) * l + m)) * hz b hb

/-- **The inverse, from the other side.** All layers undo those of the inverse, up to the number of
coefficients in a block. -/
theorem forward_inverse (w : ℕ → R) (s n : ℕ)
    (hw : ∀ t < s, ∀ b < n * 2 ^ t, w (n * 2 ^ t + b) * w (2 * (n * 2 ^ t) - 1 - b) = -1)
    (x : ℕ → R) :
    ∀ k < n * 2 ^ s, forward w s n (inverse w s n x) k = 2 ^ s * x k := by
  induction s generalizing n with
  | zero =>
    intro k _
    rw [pow_zero, one_mul]
    rfl
  | succ s ih =>
    have hrest := ih (2 * n) (roots_tail hw)
    have hlayer := layer_layerInv (l := 2 ^ s) (roots_head hw) (inverse w s (2 * n) x)
    rw [← two_mul_two_pow] at hlayer
    intro k hk
    rw [mul_two_pow_succ, ← two_mul_two_pow] at hk
    rw [forward, inverse, forward_congr w s (2 * n) hlayer k hk, forward_mul_left]
    dsimp only
    rw [hrest k hk, pow_succ]
    ring

/-! ## Evaluation -/

/-- The square of a root: `-1` for the first, and the root above or its negative. -/
def square (w : ℕ → R) (i : ℕ) :
    R := if i = 1 then -1 else if i % 2 = 0 then w (i / 2) else -w (i / 2)

theorem square_even (w : ℕ → R) (i : ℕ) : square w (2 * i) = w i := by
  rw [square, if_neg (by omega), if_pos (by omega), Nat.mul_div_cancel_left i Nat.two_pos]

theorem square_odd (w : ℕ → R) (hi : 0 < i) : square w (2 * i + 1) = -w i := by
  rw [square, if_neg (by omega), if_neg (by omega), show (2 * i + 1) / 2 = i by omega]

/-- A root of the last layer, raised to the length of a block. -/
theorem square_pow {w : ℕ → R} (s n k : ℕ) (hn : 0 < n) (hk : k < n * 2 ^ s)
    (hw : ∀ i, 0 < i → i < n * 2 ^ s → w i ^ 2 = square w i) :
    square w (n * 2 ^ s + k) ^ 2 ^ s = square w (n + k / 2 ^ s) := by
  induction s generalizing n with
  | zero => rw [pow_zero, pow_one, Nat.mul_one, Nat.div_one]
  | succ s ih =>
    have hlen : n * 2 ^ (s + 1) = 2 * n * 2 ^ s := by ring
    have hhalf : k / 2 ^ (s + 1) = k / 2 ^ s / 2 := by rw [pow_succ, Nat.div_div_eq_div_mul]
    have hblock : k / 2 ^ s / 2 < n := by
      have hlt : k / 2 ^ s < 2 * n := by rwa [Nat.div_lt_iff_lt_mul (Nat.two_pow_pos s), ← hlen]
      omega
    have hlarge : 2 * n ≤ 2 * n * 2 ^ s := Nat.le_mul_of_pos_right _ (Nat.two_pow_pos s)
    have hpos : 0 < n + k / 2 ^ s / 2 := Nat.add_pos_left hn _
    have hroot := hw (n + k / 2 ^ s / 2) hpos (by rw [hlen]; omega)
    rw [hlen] at hk hw
    rw [hlen, hhalf, pow_succ 2 s, pow_mul, ih (2 * n) (by omega) hk hw, ← hroot]
    rcases Nat.mod_two_eq_zero_or_one (k / 2 ^ s) with h | h
    · rw [show 2 * n + k / 2 ^ s = 2 * (n + k / 2 ^ s / 2) by omega, square_even]
    · rw [show 2 * n + k / 2 ^ s = 2 * (n + k / 2 ^ s / 2) + 1 by omega, square_odd w hpos, neg_sq]

/-- **Evaluation.** The transform of a block has its values at the roots of the block. -/
theorem forward_eq_eval {w : ℕ → R} (s n : ℕ) (hn : 0 < n) (x : ℕ → R)
    (hw : ∀ i, 0 < i → i < n * 2 ^ s → w i ^ 2 = square w i) :
    ∀ k < n * 2 ^ s, forward w s n x k =
      ∑ i ∈ Finset.range (2 ^ s), x (k / 2 ^ s * 2 ^ s + i) * square w (n * 2 ^ s + k) ^ i := by
  induction s generalizing n x with
  | zero =>
    intro k _
    rw [pow_zero, Finset.sum_range_one, Nat.div_one, Nat.mul_one, Nat.add_zero, pow_zero, mul_one]
    rfl
  | succ s ih =>
    have hlen : n * 2 ^ (s + 1) = 2 * n * 2 ^ s := by ring
    rw [hlen] at hw ⊢
    intro k hk
    have hhalf : k / 2 ^ (s + 1) = k / 2 ^ s / 2 := by rw [pow_succ, Nat.div_div_eq_div_mul]
    have hpow := square_pow s (2 * n) k (by omega) hk hw
    rw [forward, ih (2 * n) (by omega) _ hw k hk, hhalf, pow_succ, Nat.mul_two,
      Finset.sum_range_add, ← Finset.sum_add_distrib]
    generalize square w (2 * n * 2 ^ s + k) = ρ at *
    apply Finset.sum_congr rfl
    intro i hi
    have hm := Finset.mem_range.mp hi
    rw [pow_add, hpow]
    have hlow : ∀ b, b * (2 ^ s + 2 ^ s) + i = 2 * b * 2 ^ s + i := fun b => by ring
    have hhigh : ∀ b, b * (2 ^ s + 2 ^ s) + (2 ^ s + i) = (2 * b + 1) * 2 ^ s + i :=
      fun b => by ring
    rcases Nat.mod_two_eq_zero_or_one (k / 2 ^ s) with h | h
    · have hk2 : k / 2 ^ s = 2 * (k / 2 ^ s / 2) := by omega
      generalize k / 2 ^ s / 2 = b at *
      have hroot : square w (2 * n + k / 2 ^ s) = w (n + b) := by
        rw [hk2, ← Nat.mul_add, square_even]
      rw [hroot, hk2, layer, pairLayer_lo hm, hlow, hhigh]
      ring
    · have hk2 : k / 2 ^ s = 2 * (k / 2 ^ s / 2) + 1 := by omega
      generalize k / 2 ^ s / 2 = b at *
      have hroot : square w (2 * n + k / 2 ^ s) = -w (n + b) := by
        rw [hk2, ← Nat.add_assoc, ← Nat.mul_add, square_odd w (by omega)]
      rw [hroot, hk2, layer, pairLayer_hi hm, hlow, hhigh]
      ring

/-! ## The product -/

/-- The negacyclic product: what reaches beyond the last coefficient comes back with the other
sign. -/
def negaMul (N : ℕ) (a b : ℕ → R) (k : ℕ) : R :=
  ∑ i ∈ Finset.range N, ∑ j ∈ Finset.range N,
    ((if i + j = k then a i * b j else 0) - if i + j = k + N then a i * b j else 0)

/-- One product of coefficients, at a root of `X ^ N = -1`. -/
theorem sum_negaMul_term [CommRing S] {j : ℕ} (hi : i < N) (hj : j < N) {ρ : S}
    (hρ : ρ ^ N = -1) (c : S) :
    (∑ k ∈ Finset.range N, ((if i + j = k then c else 0) - if i + j = k + N then c else 0) *
      ρ ^ k) =
      c * ρ ^ (i + j) := by
  by_cases hlt : i + j < N
  · rw [Finset.sum_eq_single_of_mem (i + j) (Finset.mem_range.mpr hlt)]
    · rw [if_pos rfl, if_neg (by omega), sub_zero]
    · intro k hk hne
      rw [if_neg hne.symm, if_neg (by omega), sub_zero, zero_mul]
  · have hsplit : ρ ^ (i + j) = -ρ ^ (i + j - N) := by
      rw [show i + j = i + j - N + N by omega, pow_add, hρ, Nat.add_sub_cancel, mul_neg_one]
    rw [Finset.sum_eq_single_of_mem (i + j - N) (Finset.mem_range.mpr (by omega)), hsplit]
    · rw [if_neg (by omega), if_pos (by omega), zero_sub, neg_mul, mul_neg]
    · intro k hk hne
      have hkN := Finset.mem_range.mp hk
      rw [if_neg (by omega), if_neg (by omega), sub_zero, zero_mul]

/-- **Evaluation of the product.** At a root of `X ^ N = -1`, in any ring over the coefficients, the
negacyclic product has the product of the values. -/
theorem eval_negaMul [CommRing S] (f : R →+* S) {ρ : S} (hρ : ρ ^ N = -1) (a b : ℕ → R) :
    (∑ k ∈ Finset.range N, f (negaMul N a b k) * ρ ^ k) =
      (∑ i ∈ Finset.range N, f (a i) * ρ ^ i) * ∑ j ∈ Finset.range N, f (b j) * ρ ^ j := by
  have hterm : ∀ i ∈ Finset.range N, ∀ j ∈ Finset.range N,
      (∑ k ∈ Finset.range N,
        ((if i + j = k then f (a i * b j) else 0) - if i + j = k + N then f (a i * b j) else 0) *
          ρ ^ k) =
        f (a i) * ρ ^ i * (f (b j) * ρ ^ j) := by
    intro i hi j hj
    rw [sum_negaMul_term (Finset.mem_range.mp hi) (Finset.mem_range.mp hj) hρ, map_mul, pow_add]
    ring
  calc (∑ k ∈ Finset.range N, f (negaMul N a b k) * ρ ^ k)
      = ∑ k ∈ Finset.range N, ∑ i ∈ Finset.range N, ∑ j ∈ Finset.range N,
          ((if i + j = k then f (a i * b j) else 0) - if i + j = k + N then f (a i * b j) else 0) *
            ρ ^ k := by
        apply Finset.sum_congr rfl
        intro k _
        rw [negaMul, map_sum, Finset.sum_mul]
        apply Finset.sum_congr rfl
        intro i _
        rw [map_sum, Finset.sum_mul]
        apply Finset.sum_congr rfl
        intro j _
        rw [map_sub, apply_ite f, apply_ite f, map_zero]
    _ = ∑ i ∈ Finset.range N, ∑ j ∈ Finset.range N, ∑ k ∈ Finset.range N,
          ((if i + j = k then f (a i * b j) else 0) - if i + j = k + N then f (a i * b j) else 0) *
            ρ ^ k := by
        rw [Finset.sum_comm]
        apply Finset.sum_congr rfl
        intro i _
        rw [Finset.sum_comm]
    _ = ∑ i ∈ Finset.range N, ∑ j ∈ Finset.range N, f (a i) * ρ ^ i * (f (b j) * ρ ^ j) :=
        Finset.sum_congr rfl fun i hi => Finset.sum_congr rfl (hterm i hi)
    _ = (∑ i ∈ Finset.range N, f (a i) * ρ ^ i) * ∑ j ∈ Finset.range N, f (b j) * ρ ^ j := by
        rw [Finset.sum_mul_sum]

/-- **The product by transforms.** The product of two transforms comes back as the negacyclic
product, up to the number of coefficients. -/
theorem inverse_mul_forward {w : ℕ → R} (s : ℕ)
    (hw : ∀ i, 0 < i → i < 2 ^ s → w i ^ 2 = square w i)
    (hinv : ∀ t < s, ∀ b < 2 ^ t, w (2 ^ t + b) * w (2 * 2 ^ t - 1 - b) = -1) (a b : ℕ → R) :
    ∀ k < 2 ^ s, inverse w s 1 (fun i => forward w s 1 a i * forward w s 1 b i) k =
      2 ^ s * negaMul (2 ^ s) a b k := by
  have heval : ∀ x : ℕ → R, ∀ k < 2 ^ s, forward w s 1 x k =
      ∑ i ∈ Finset.range (2 ^ s), x i * square w (2 ^ s + k) ^ i := by
    intro x k hk
    have h := forward_eq_eval s 1 Nat.one_pos x (by rwa [Nat.one_mul]) k (by rwa [Nat.one_mul])
    rw [h, Nat.div_eq_of_lt hk, Nat.zero_mul, Nat.one_mul]
    simp only [Nat.zero_add]
  have hroot : ∀ k < 2 ^ s, square w (2 ^ s + k) ^ 2 ^ s = -1 := by
    intro k hk
    have h := square_pow s 1 k Nat.one_pos (by rwa [Nat.one_mul]) (by rwa [Nat.one_mul])
    have hone : square w (1 + 0) = -1 := if_pos rfl
    rwa [Nat.one_mul, Nat.div_eq_of_lt hk, hone] at h
  have hproduct : ∀ k < 1 * 2 ^ s, forward w s 1 a k * forward w s 1 b k =
      forward w s 1 (negaMul (2 ^ s) a b) k := by
    intro k hk
    rw [Nat.one_mul] at hk
    rw [heval _ k hk, heval _ k hk, heval _ k hk]
    exact (eval_negaMul (RingHom.id R) (hroot k hk) a b).symm
  intro k hk
  have hk' : k < 1 * 2 ^ s := by rwa [Nat.one_mul]
  have hback := inverse_forward w s 1 (by simpa only [Nat.one_mul] using hinv)
    (negaMul (2 ^ s) a b) k hk'
  rw [inverse_congr w s 1 hproduct k hk', hback]

end Negacyclic
