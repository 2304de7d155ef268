/-
# Strings of bits

Numbers of a fixed width as lists of bits, the highest first, and lists of such numbers as one list
of bits.

* `ofBits_toBits`, `toBits_ofBits` : numbers below a power of two are lists of that length;
* `exists_flatMap_toBits`, `flatMap_toBits_injective` : every list of the right length is a list of
  numbers, and of one only.
-/
import Mathlib.Data.Nat.Bits
import Mathlib.Tactic.Ring

namespace BitString

/-- The lowest bits of a number, the highest of them first. -/
def toBits : ℕ → ℕ → List Bool
  | 0, _ => []
  | w + 1, n => n.testBit w :: toBits w n

/-- The number of a list of bits. -/
def ofBits (bits : List Bool) : ℕ := bits.foldl (fun n bit => 2 * n + bit.toNat) 0

@[simp] theorem toBits_zero (n : ℕ) : toBits 0 n = [] := rfl

theorem toBits_succ (w n : ℕ) : toBits (w + 1) n = n.testBit w :: toBits w n := rfl

@[simp] theorem length_toBits (w n : ℕ) : (toBits w n).length = w := by
  induction w with
  | zero => rfl
  | succ w ih => rw [toBits_succ, List.length_cons, ih]

theorem toBits_eq_map (w n : ℕ) : toBits w n = (List.range w).reverse.map fun b => n.testBit b := by
  induction w with
  | zero => rfl
  | succ w ih =>
    rw [toBits_succ, List.range_succ, List.reverse_append, List.map_append, ← ih]
    rfl

variable {w m n : ℕ}

/-- Only the bits that are taken matter. -/
theorem toBits_congr (h : ∀ b < w, m.testBit b = n.testBit b) : toBits w m = toBits w n := by
  rw [toBits_eq_map, toBits_eq_map]
  apply List.map_congr_left
  intro b hb
  exact h b (List.mem_range.mp (List.mem_reverse.mp hb))

theorem getElem?_toBits {i : ℕ} (n : ℕ) (h : i < w) :
    (toBits w n)[i]? = some (n.testBit (w - 1 - i)) := by
  induction w generalizing i with
  | zero => omega
  | succ w ih =>
    cases i with
    | zero => rfl
    | succ i =>
      have hbit : w + 1 - 1 - (i + 1) = w - 1 - i := by omega
      rw [toBits_succ, List.getElem?_cons_succ, ih (by omega), hbit]

/-! ## Numbers of lists -/

theorem foldl_eq (bits : List Bool) (n : ℕ) :
    bits.foldl (fun n bit => 2 * n + bit.toNat) n = n * 2 ^ bits.length + ofBits bits := by
  induction bits generalizing n with
  | nil => simp [ofBits]
  | cons bit bits ih =>
    rw [ofBits, List.foldl_cons, List.foldl_cons, ih, ih (2 * 0 + bit.toNat),
      List.length_cons, pow_succ]
    ring

theorem ofBits_cons (bit : Bool) (bits : List Bool) :
    ofBits (bit :: bits) = bit.toNat * 2 ^ bits.length + ofBits bits := by
  rw [ofBits, List.foldl_cons, foldl_eq, Nat.mul_zero, Nat.zero_add]

theorem ofBits_lt (bits : List Bool) : ofBits bits < 2 ^ bits.length := by
  induction bits with
  | nil => exact Nat.one_pos
  | cons bit bits ih =>
    rw [ofBits_cons, List.length_cons, pow_succ]
    cases bit
    · rw [Bool.toNat_false, Nat.zero_mul]
      omega
    · rw [Bool.toNat_true, Nat.one_mul]
      omega

theorem ofBits_toBits (w n : ℕ) : ofBits (toBits w n) = n % 2 ^ w := by
  induction w with
  | zero => rw [pow_zero, Nat.mod_one]; rfl
  | succ w ih =>
    rw [toBits_succ, ofBits_cons, ih, length_toBits, Nat.mod_pow_succ, Nat.toNat_testBit]
    ring

theorem toBits_ofBits (bits : List Bool) : toBits bits.length (ofBits bits) = bits := by
  induction bits with
  | nil => rfl
  | cons bit bits ih =>
    have hlt := ofBits_lt bits
    have hnum : ofBits (bit :: bits) = 2 ^ bits.length * bit.toNat + ofBits bits := by
      rw [ofBits_cons, Nat.mul_comm]
    rw [List.length_cons, toBits_succ, hnum]
    congr 1
    · rw [Nat.testBit_two_pow_mul_add _ hlt, if_neg (Nat.lt_irrefl _), Nat.sub_self]
      cases bit <;> rfl
    · calc toBits bits.length (2 ^ bits.length * bit.toNat + ofBits bits)
          = toBits bits.length (ofBits bits) := by
            apply toBits_congr
            intro b hb
            rw [Nat.testBit_two_pow_mul_add _ hlt, if_pos hb]
        _ = bits := ih

theorem toBits_injective (hm : m < 2 ^ w) (hn : n < 2 ^ w) (h : toBits w m = toBits w n) :
    m = n := by
  have hof := congrArg ofBits h
  rwa [ofBits_toBits, ofBits_toBits, Nat.mod_eq_of_lt hm, Nat.mod_eq_of_lt hn] at hof

/-! ## Lists of numbers -/

theorem length_flatMap_toBits (w : ℕ) (ns : List ℕ) :
    (ns.flatMap (toBits w)).length = ns.length * w := by
  induction ns with
  | nil => simp
  | cons n ns ih =>
    rw [List.flatMap_cons, List.length_append, length_toBits, ih, List.length_cons]
    ring

/-- A list whose length is a multiple of the width is a list of numbers. -/
theorem exists_flatMap_toBits {count : ℕ} {bits : List Bool} (h : bits.length = count * w) :
    ∃ ns : List ℕ, ns.length = count ∧ (∀ n ∈ ns, n < 2 ^ w) ∧ ns.flatMap (toBits w) = bits := by
  induction count generalizing bits with
  | zero =>
    rw [Nat.zero_mul] at h
    exact ⟨[], rfl, fun n hn => absurd hn List.not_mem_nil, (List.length_eq_zero_iff.mp h).symm⟩
  | succ count ih =>
    rw [Nat.succ_mul] at h
    have htake : (bits.take w).length = w := List.length_take_of_le (by omega)
    have hdrop : (bits.drop w).length = count * w := by rw [List.length_drop]; omega
    obtain ⟨ns, hlen, hlt, hns⟩ := ih hdrop
    refine ⟨ofBits (bits.take w) :: ns, by rw [List.length_cons, hlen], ?_, ?_⟩
    · refine List.forall_mem_cons.mpr ⟨?_, hlt⟩
      have hfirst := ofBits_lt (bits.take w)
      rwa [htake] at hfirst
    · have hfirst := toBits_ofBits (bits.take w)
      rw [htake] at hfirst
      rw [List.flatMap_cons, hfirst, hns, List.take_append_drop]

/-- The numbers can be read off their bits. -/
theorem flatMap_toBits_injective {ms ns : List ℕ} (hlen : ms.length = ns.length)
    (hms : ∀ m ∈ ms, m < 2 ^ w) (hns : ∀ n ∈ ns, n < 2 ^ w)
    (h : ms.flatMap (toBits w) = ns.flatMap (toBits w)) : ms = ns := by
  induction ms generalizing ns with
  | nil => exact (List.length_eq_zero_iff.mp hlen.symm).symm
  | cons m ms ih =>
    cases ns with
    | nil => cases hlen
    | cons n ns =>
      rw [List.flatMap_cons, List.flatMap_cons] at h
      obtain ⟨hfirst, hrest⟩ := List.append_inj h (by rw [length_toBits, length_toBits])
      obtain ⟨hm, hms'⟩ := List.forall_mem_cons.mp hms
      obtain ⟨hn, hns'⟩ := List.forall_mem_cons.mp hns
      rw [toBits_injective hm hn hfirst, ih (Nat.succ.inj hlen) hms' hns' hrest]

end BitString
