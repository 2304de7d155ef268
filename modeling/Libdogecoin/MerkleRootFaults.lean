/-
# Where the merkle root of a block goes wrong

`dogecoin_compute_merkle_root` with its shifts, its accesses to `inner` and its sums checked: the
first that has no result in C, or that passes the range of the counter, is reported.

* `computeMerkleRoot_of_checked` : what passes the checks is the root of the unchecked loops;
* `sweepChecked_cases` : the sweep of the rightmost branch passes `2 ^ 32` if it starts above
  `2 ^ 31`;
* `checkedMerkleRoot_ok_iff` : so the checks pass if and only if there are at most `2 ^ 31` leaves.
-/
import Libdogecoin.MerkleRootLevels

namespace Libdogecoin

namespace MerkleRoot

open Bip37 (combine)

/-! ## Definitions -/

/-- What goes wrong : a shift by 32 or more, an access outside `inner`, a sum that wraps, or too
many turns of a loop. -/
inductive Fault
  | shift
  | inner
  | wrap
  | turns
  deriving DecidableEq

variable (pf : Platform) {s s' : Folded} {leaves : List Uint256}

/-- `joinUp` with checks. -/
def joinUpChecked (inner : List Uint256) (count : UInt32) :
    ℕ → ℕ → Uint256 → Bool → Except Fault (Uint256 × ℕ × Bool)
  | 0, _, _, _ => .error .turns
  | fuel + 1, level, h, mutated =>
    if 32 ≤ level then .error .shift
    else if count &&& (1 <<< UInt32.ofNat level) ≠ 0 then .ok (h, level, mutated)
    else
      match inner[level]? with
      | none => .error .inner
      | some left => joinUpChecked inner count fuel (level + 1) (combine pf left h)
          (mutated || left = h)

/-- `addLeaf` with checks. -/
def addLeafChecked (s : Folded) (leaf : Uint256) : Except Fault Folded :=
  if 2 ^ 32 ≤ s.count.toNat + 1 then .error .wrap
  else do
    let count := s.count + 1
    let (h, level, mutated) ← joinUpChecked pf s.inner count 33 0 leaf s.mutated
    if s.inner.length ≤ level then .error .inner
    else .ok { inner := s.inner.set level h, count := count, mutated := mutated }

/-- `sweep` with checks. -/
def sweepChecked (inner : List Uint256) :
    ℕ → UInt32 → ℕ → Uint256 → Bool → Except Fault (Uint256 × Bool)
  | 0, _, _, _, _ => .error .turns
  | fuel + 1, count, level, h, mutated =>
    if 32 ≤ level then .error .shift
    else if count = 1 <<< UInt32.ofNat level then .ok (h, mutated)
    -- the sum of the source is one of 32 bits
    else if 2 ^ 32 ≤ count.toNat + ((1 : UInt32) <<< UInt32.ofNat level).toNat then .error .wrap
    else do
      let count := count + (1 <<< UInt32.ofNat level)
      let (h, level, mutated) ← joinUpChecked pf inner count 33 (level + 1) (combine pf h h) mutated
      sweepChecked inner fuel count level h mutated

/-- `lowestBit` with checks. -/
def lowestBitChecked (count : UInt32) : ℕ → ℕ → Except Fault ℕ
  | 0, _ => .error .turns
  | fuel + 1, level =>
    if 32 ≤ level then .error .shift
    else if count &&& (1 <<< UInt32.ofNat level) ≠ 0 then .ok level
    else lowestBitChecked count fuel (level + 1)

/-- `dogecoin_compute_merkle_root` with checks. -/
def checkedMerkleRoot (leaves : List Uint256) : Except Fault (Uint256 × Bool) :=
  if leaves.length = 0 then .ok (Uint256.zero, false)
  else if leaves.length > 0xffffffff then .ok (Uint256.zero, false)
  else do
    let s ← leaves.foldlM (addLeafChecked pf) Folded.empty
    let level ← lowestBitChecked s.count 33 0
    match s.inner[level]? with
    | none => .error .inner
    | some h => sweepChecked pf s.inner 33 s.count level h s.mutated

variable {pf : Platform} {inner : List Uint256} {count : UInt32}

/-! ## What passes the checks -/

theorem except_bind_eq_ok {α β : Type} {x : Except Fault α} {f : α → Except Fault β} {b : β}
    (h : (x >>= f) = .ok b) : ∃ a, x = .ok a ∧ f a = .ok b := by
  cases x with
  | error e => cases h
  | ok a => exact ⟨a, rfl, h⟩

theorem joinUp_of_checked : ∀ (fuel n : ℕ) {level : ℕ} {h : Uint256} {mutated : Bool}
    {r : Uint256 × ℕ × Bool}, level + n = 32 →
    joinUpChecked pf inner count fuel level h mutated = .ok r →
      joinUp pf inner count n level h mutated = some r := by
  intro fuel
  induction fuel with
  | zero =>
    intro n level h mutated r _ hrun
    cases hrun
  | succ fuel ih =>
    intro n level h mutated r hn hrun
    rw [joinUpChecked] at hrun
    split at hrun
    · cases hrun
    -- the level is below 32, so the other loop has a turn left, too
    · cases n with
      | zero => omega
      | succ n =>
        rw [joinUp]
        split at hrun
        · next hbit =>
            rw [if_pos hbit, ← Except.ok.inj hrun]
        · next hbit =>
            rw [if_neg hbit]
            split at hrun
            · cases hrun
            · next left hleft =>
                rw [hleft]
                exact ih n (by omega) hrun

theorem addLeaf_of_checked {leaf : Uint256} (hrun : addLeafChecked pf s leaf = .ok s') :
    addLeaf pf s leaf = some s' := by
  rw [addLeafChecked] at hrun
  split at hrun
  · cases hrun
  · obtain ⟨⟨h, level, mutated⟩, hjoin, hrun⟩ := except_bind_eq_ok hrun
    dsimp only at hrun
    split at hrun
    · cases hrun
    · rw [addLeaf, joinUp_of_checked 33 32 rfl hjoin, ← Except.ok.inj hrun]
      rfl

theorem foldlM_of_checked (leaves : List Uint256)
    (hrun : leaves.foldlM (addLeafChecked pf) s = .ok s') :
    leaves.foldlM (addLeaf pf) s = some s' := by
  induction leaves generalizing s with
  | nil => rw [List.foldlM_nil, Except.ok.inj hrun]; rfl
  | cons leaf leaves ih =>
    rw [List.foldlM_cons] at hrun
    obtain ⟨t, hleaf, hrest⟩ := except_bind_eq_ok hrun
    rw [List.foldlM_cons, addLeaf_of_checked hleaf]
    exact ih hrest

theorem sweep_of_checked : ∀ (fuel : ℕ) {count : UInt32} {level : ℕ} {h : Uint256} {mutated : Bool}
    {r : Uint256 × Bool}, sweepChecked pf inner fuel count level h mutated = .ok r →
      sweep pf inner fuel count level h mutated = some r := by
  intro fuel
  induction fuel with
  | zero =>
    intro count level h mutated r hrun
    cases hrun
  | succ fuel ih =>
    intro count level h mutated r hrun
    rw [sweepChecked] at hrun
    rw [sweep]
    split at hrun
    · cases hrun
    · next hlevel =>
        split at hrun
        · next hone =>
            rw [if_pos hone, ← Except.ok.inj hrun]
        · next hone =>
            split at hrun
            · cases hrun
            · obtain ⟨⟨h', level', mutated'⟩, hjoin, hrest⟩ := except_bind_eq_ok hrun
              rw [if_neg hone]
              dsimp only
              rw [joinUp_of_checked 33 (32 - (level + 1)) (by omega) hjoin]
              exact ih hrest

theorem lowestBit_of_checked : ∀ (fuel n : ℕ) {level level' : ℕ}, level + n = 32 →
    lowestBitChecked count fuel level = .ok level' → lowestBit count n level = some level' := by
  intro fuel
  induction fuel with
  | zero =>
    intro n level level' _ hrun
    cases hrun
  | succ fuel ih =>
    intro n level level' hn hrun
    rw [lowestBitChecked] at hrun
    split at hrun
    · cases hrun
    · cases n with
      | zero => omega
      | succ n =>
        rw [lowestBit]
        split at hrun
        · next hbit =>
            rw [if_pos hbit, ← Except.ok.inj hrun]
        · next hbit =>
            rw [if_neg hbit]
            exact ih n (by omega) hrun

/-- **What passes the checks** is the root of the unchecked loops. -/
theorem computeMerkleRoot_of_checked {r : Uint256 × Bool}
    (hrun : checkedMerkleRoot pf leaves = .ok r) :
    computeMerkleRoot pf leaves = some r := by
  rw [checkedMerkleRoot] at hrun
  rw [computeMerkleRoot]
  split at hrun
  · next hzero =>
      rw [if_pos hzero, ← Except.ok.inj hrun]
  · next hzero =>
      rw [if_neg hzero]
      split at hrun
      · next hmany =>
          rw [if_pos hmany, ← Except.ok.inj hrun]
      · next hmany =>
          obtain ⟨s, hfold, hrun⟩ := except_bind_eq_ok hrun
          obtain ⟨level, hlow, hrun⟩ := except_bind_eq_ok hrun
          rw [if_neg hmany, foldlM_of_checked leaves hfold]
          dsimp only [Option.bind_eq_bind, Option.bind_some]
          rw [lowestBit_of_checked 33 32 rfl hlow, Option.bind_some]
          split at hrun
          · cases hrun
          · next h hread =>
              rw [hread]
              exact sweep_of_checked 33 hrun

/-! ## The counter -/

variable {level : ℕ}

/-- A power of two times an odd number. -/
theorem exists_odd_of_bit (hdvd : 2 ^ level ∣ count.toNat)
    (hodd : count.toNat / 2 ^ level % 2 = 1) :
    ∃ v, count.toNat = 2 ^ level * (1 + 2 * v) := by
  obtain ⟨m, hm⟩ := hdvd
  rw [hm, Nat.mul_div_cancel_left m (Nat.two_pow_pos level)] at hodd
  refine ⟨m / 2, ?_⟩
  rw [hm]
  congr 1
  omega

theorem two_pow_succ_dvd (hdvd : 2 ^ level ∣ count.toNat)
    (heven : ¬ count.toNat / 2 ^ level % 2 = 1) :
    2 ^ (level + 1) ∣ count.toNat := by
  obtain ⟨m, hm⟩ := hdvd
  rw [hm, Nat.mul_div_cancel_left m (Nat.two_pow_pos level)] at heven
  refine ⟨m / 2, ?_⟩
  rw [hm, Nat.pow_succ, Nat.mul_assoc]
  congr 1
  omega

/-- A multiple of `2 ^ level` in the range of the counter, other than 0, leaves the level in
range. -/
theorem level_lt_of_dvd (hdvd : 2 ^ level ∣ count.toNat) (hpos : 0 < count.toNat) : level < 32 := by
  by_contra hge
  have hle := Nat.le_of_dvd hpos hdvd
  have hpow : 2 ^ 32 ≤ 2 ^ level := Nat.pow_le_pow_right (by decide) (Nat.not_lt.mp hge)
  have hlt := count.toNat_lt
  omega

/-- Joining upwards ends at the lowest bit of the counter. -/
theorem joinUpChecked_ok (hinner : inner.length = 32) (hpos : 0 < count.toNat) :
    ∀ (fuel : ℕ) {level : ℕ} (h : Uint256) (mutated : Bool), 32 < fuel + level →
    2 ^ level ∣ count.toNat →
      ∃ h' level' mutated', joinUpChecked pf inner count fuel level h mutated =
        .ok (h', level', mutated') ∧
        level ≤ level' ∧ level' < 32 ∧ ∃ v, count.toNat = 2 ^ level' * (1 + 2 * v) := by
  intro fuel
  induction fuel with
  | zero =>
    intro level h mutated hfuel hdvd
    have hlevel := level_lt_of_dvd hdvd hpos
    omega
  | succ fuel ih =>
    intro level h mutated hfuel hdvd
    have hlevel := level_lt_of_dvd hdvd hpos
    have hbit := @and_shiftLeft_ne_zero_iff count _ hlevel
    rw [joinUpChecked, if_neg (Nat.not_le.mpr hlevel)]
    by_cases hodd : count.toNat / 2 ^ level % 2 = 1
    · rw [if_pos (hbit.mpr hodd)]
      exact ⟨h, level, mutated, rfl, le_rfl, hlevel, exists_odd_of_bit hdvd hodd⟩
    · obtain ⟨left, hleft⟩ : ∃ left, inner[level]? = some left :=
        ⟨_, List.getElem?_eq_getElem (hinner ▸ hlevel)⟩
      rw [if_neg fun hset => hodd (hbit.mp hset), hleft]
      obtain ⟨h', level', mutated', hrun, hle, hlt, hv⟩ := @ih (level + 1) (combine pf left h)
        (mutated || decide (left = h)) (by omega) (two_pow_succ_dvd hdvd hodd)
      exact ⟨h', level', mutated', hrun, by omega, hlt, hv⟩

/-- So does looking for it. -/
theorem lowestBitChecked_ok (hpos : 0 < count.toNat) : ∀ (fuel : ℕ) {level : ℕ}, 32 < fuel + level →
    2 ^ level ∣ count.toNat →
      ∃ level', lowestBitChecked count fuel level = .ok level' ∧ level' < 32 ∧
        ∃ v, count.toNat = 2 ^ level' * (1 + 2 * v) := by
  intro fuel
  induction fuel with
  | zero =>
    intro level hfuel hdvd
    have hlevel := level_lt_of_dvd hdvd hpos
    omega
  | succ fuel ih =>
    intro level hfuel hdvd
    have hlevel := level_lt_of_dvd hdvd hpos
    have hbit := @and_shiftLeft_ne_zero_iff count _ hlevel
    rw [lowestBitChecked, if_neg (Nat.not_le.mpr hlevel)]
    by_cases hodd : count.toNat / 2 ^ level % 2 = 1
    · rw [if_pos (hbit.mpr hodd)]
      exact ⟨level, rfl, hlevel, exists_odd_of_bit hdvd hodd⟩
    · rw [if_neg fun hset => hodd (hbit.mp hset)]
      exact ih (by omega) (two_pow_succ_dvd hdvd hodd)

/-! ## The loops -/

/-- The main loop passes the checks. -/
theorem foldlM_addLeafChecked (leaves : List Uint256) {s : Folded} (hinner : s.inner.length = 32)
    (hroom : s.count.toNat + leaves.length < 2 ^ 32) :
    ∃ s', leaves.foldlM (addLeafChecked pf) s = .ok s' ∧ s'.inner.length = 32 ∧
      s'.count.toNat = s.count.toNat + leaves.length := by
  induction leaves generalizing s with
  | nil => exact ⟨s, rfl, hinner, rfl⟩
  | cons leaf leaves ih =>
    rw [List.length_cons] at hroom
    have hcount : (s.count + 1).toNat = s.count.toNat + 1 := by
      rw [UInt32.toNat_add, UInt32.toNat_one]
      exact Nat.mod_eq_of_lt (by omega)
    obtain ⟨h, level, mutated, hjoin, -, hlevel, -⟩ :=
      @joinUpChecked_ok pf _ (s.count + 1) hinner (by omega) 33 0
      leaf s.mutated (by decide) (one_dvd _)
    have hleaf : addLeafChecked pf s leaf =
        .ok { inner := s.inner.set level h, count := s.count + 1, mutated := mutated } := by
      rw [addLeafChecked, if_neg (by omega)]
      dsimp only
      rw [hjoin]
      exact if_neg (by rw [hinner]; exact Nat.not_le.mpr hlevel)
    obtain ⟨s', hrest, hlen, hsum⟩ :=
      @ih { inner := s.inner.set level h, count := s.count + 1, mutated := mutated }
      (by rw [List.length_set, hinner]) (by rw [hcount]; omega)
    refine ⟨s', ?_, hlen, ?_⟩
    · rw [List.foldlM_cons, hleaf]
      exact hrest
    · rw [hsum, hcount, List.length_cons]
      omega

/-- **The sweep** passes the checks if it starts at `2 ^ 31` or below, and otherwise its sum passes
`2 ^ 32`. -/
theorem sweepChecked_cases (hinner : inner.length = 32) :
    ∀ (fuel : ℕ) {count : UInt32} {level v : ℕ} (h : Uint256) (mutated : Bool), 32 < fuel + level →
    level < 32 → count.toNat = 2 ^ level * (1 + 2 * v) →
      (count.toNat ≤ 2 ^ 31 → ∃ r, sweepChecked pf inner fuel count level h mutated = .ok r) ∧
      (2 ^ 31 < count.toNat → sweepChecked pf inner fuel count level h mutated = .error .wrap) := by
  intro fuel
  induction fuel with
  | zero =>
    intro count level v h mutated hfuel hlevel _
    omega
  | succ fuel ih =>
    intro count level v h mutated hfuel hlevel hcount
    have hone := toNat_one_shiftLeft hlevel
    have hpow := Nat.two_pow_pos level
    rw [sweepChecked, if_neg (Nat.not_le.mpr hlevel)]
    rcases Nat.eq_zero_or_pos v with rfl | hv
    · -- the subtree is the last one
      have hlast : count = 1 <<< UInt32.ofNat level := (eq_lowest_iff hlevel hcount).mpr rfl
      have hle : count.toNat ≤ 2 ^ 31 := by
        rw [hcount, Nat.mul_zero, Nat.add_zero, Nat.mul_one]
        exact Nat.pow_le_pow_right (by decide) (by omega)
      rw [if_pos hlast]
      exact ⟨fun _ => ⟨_, rfl⟩, fun hgt => absurd hle (Nat.not_le.mpr hgt)⟩
    · -- rounding up keeps the counter on its side of `2 ^ 31`, unless it wraps
      have hne : count ≠ 1 <<< UInt32.ofNat level :=
        fun heq => hv.ne' ((eq_lowest_iff hlevel hcount).mp heq)
      have hsum : count.toNat + ((1 : UInt32) <<< UInt32.ofNat level).toNat =
        2 ^ (level + 1) * (v + 1) := by
        rw [hcount, hone]
        ring
      have hup : count.toNat ≤ 2 ^ 31 → 2 ^ (level + 1) * (v + 1) ≤ 2 ^ 31 :=
        fun hle => round_up_le hv (hcount ▸ hle)
      rw [if_neg hne]
      by_cases hwrap : 2 ^ 32 ≤ count.toNat + ((1 : UInt32) <<< UInt32.ofNat level).toNat
      · rw [if_pos hwrap]
        refine ⟨fun hle => ?_, fun _ => rfl⟩
        have hle' := hup hle
        omega
      · have hnext : (count + 1 <<< UInt32.ofNat level).toNat = 2 ^ (level + 1) * (v + 1) := by
          rw [UInt32.toNat_add, Nat.mod_eq_of_lt (Nat.not_le.mp hwrap), hsum]
        obtain ⟨h', level', mutated', hjoin, hle, hlt, v', hv'⟩ := @joinUpChecked_ok pf _
          (count + 1 <<< UInt32.ofNat level) hinner (by omega) 33 (level + 1)
            (combine pf h h) mutated (by omega)
          ⟨v + 1, hnext⟩
        obtain ⟨hok, herror⟩ := @ih (count + 1 <<< UInt32.ofNat level) level' v' h' mutated'
          (by omega) hlt hv'
        rw [if_neg hwrap]
        dsimp only
        rw [hjoin]
        constructor
        · intro hcountle
          exact hok (hnext ▸ hup hcountle)
        · intro hgt
          exact herror (by omega)

/-- With more than `2 ^ 31` leaves the counter wraps in the sweep, before anything else goes
wrong. -/
theorem checkedMerkleRoot_cases (pf : Platform) (hne : leaves ≠ [])
    (hlen : leaves.length ≤ 0xffffffff) :
    (leaves.length ≤ 2 ^ 31 → ∃ r, checkedMerkleRoot pf leaves = .ok r) ∧
      (2 ^ 31 < leaves.length → checkedMerkleRoot pf leaves = .error .wrap) := by
  have hpos : 0 < leaves.length := List.length_pos_of_ne_nil hne
  obtain ⟨s, hfold, hinner, hcount⟩ :=
    @foldlM_addLeafChecked pf leaves Folded.empty List.length_replicate
    (show 0 + leaves.length < 2 ^ 32 by omega)
  have hcount : s.count.toNat = leaves.length := hcount.trans (Nat.zero_add _)
  obtain ⟨level, hlow, hlevel, v, hv⟩ :=
    @lowestBitChecked_ok s.count (by omega) 33 0 (by decide) (one_dvd _)
  obtain ⟨h, hread⟩ : ∃ h, s.inner[level]? = some h :=
    ⟨_, List.getElem?_eq_getElem (hinner ▸ hlevel)⟩
  -- up to the sweep nothing goes wrong
  have hrun : checkedMerkleRoot pf leaves =
    sweepChecked pf s.inner 33 s.count level h s.mutated := by
    rw [checkedMerkleRoot, if_neg (Nat.pos_iff_ne_zero.mp hpos),
      if_neg (Nat.not_lt.mpr hlen), hfold]
    dsimp only [bind, Except.bind]
    rw [hlow]
    dsimp only
    rw [hread]
  rw [hrun, ← hcount]
  exact sweepChecked_cases hinner 33 h s.mutated (by omega) hlevel hv

/-- **Where the loops go wrong.** Every shift, every access and every sum is in range if and only if
there are at most `2 ^ 31` leaves. -/
theorem checkedMerkleRoot_ok_iff (pf : Platform) {leaves : List Uint256} (hne : leaves ≠ [])
    (hlen : leaves.length ≤ 0xffffffff) :
    (∃ r, checkedMerkleRoot pf leaves = .ok r) ↔ leaves.length ≤ 2 ^ 31 := by
  obtain ⟨hok, herror⟩ := checkedMerkleRoot_cases pf hne hlen
  constructor
  · rintro ⟨r, hrun⟩
    by_contra hgt
    rw [herror (Nat.not_le.mp hgt)] at hrun
    cases hrun
  · exact hok

theorem checkedMerkleRoot_ok_iff_three :
    (∃ r, checkedMerkleRoot samplePlatform [Uint256.ofNat 1, Uint256.ofNat 2, Uint256.ofNat 2] =
      .ok r) ↔
      [Uint256.ofNat 1, Uint256.ofNat 2, Uint256.ofNat 2].length ≤ 2 ^ 31 :=
  checkedMerkleRoot_ok_iff samplePlatform (List.cons_ne_nil _ _) (by decide)

/-- One leaf more than `2 ^ 31`, and the counter wraps. -/
theorem checkedMerkleRoot_wrap :
    checkedMerkleRoot samplePlatform (List.replicate (2 ^ 31 + 1) Uint256.zero) = .error .wrap := by
  have hlen : (List.replicate (2 ^ 31 + 1) Uint256.zero).length = 2 ^ 31 + 1 :=
    List.length_replicate
  have hne : List.replicate (2 ^ 31 + 1) Uint256.zero ≠ [] := by
    intro hnil
    rw [hnil] at hlen
    cases hlen
  exact (checkedMerkleRoot_cases samplePlatform hne (by rw [hlen]; decide)).2 (by rw [hlen]; decide)

end MerkleRoot

end Libdogecoin
