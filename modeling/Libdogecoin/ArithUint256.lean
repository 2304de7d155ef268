/-
# 256-bit arithmetic on eight words

The functions of `arith_uint256.c`: a number is eight 32-bit words, least significant first.

* `toNat_addArithUint256` : addition is addition modulo `2 ^ 256`;
* `arithUint256GreaterThan_iff`, `arithUint256Equal_iff` : the comparisons are those of the values;
* `uintToArith_arithToUint256` : the byte image of a number reads back as the number.
-/
import Libdogecoin.Limbs
import Libdogecoin.Serialize

namespace Libdogecoin

/-- `WIDTH`, the number of words. -/
def WIDTH : ℕ := 8

/-- `arith_uint256` : eight words of 32 bits. -/
structure ArithUint256 where
  /-- The words, least significant first. -/
  pn : List ℕ
  /-- There are eight of them. -/
  length_pn : pn.length = WIDTH
  /-- Each has 32 bits. -/
  pn_lt : ∀ x ∈ pn, x < 2 ^ 32
  deriving DecidableEq

namespace ArithUint256

/-- The number with the given words, each cut to 32 bits. -/
def ofWords (f : ℕ → ℕ) : ArithUint256 where
  pn := (List.range WIDTH).map fun i => f i % 2 ^ 32
  length_pn := by simp
  pn_lt := by
    intro x hx
    obtain ⟨i, -, rfl⟩ := List.mem_map.mp hx
    exact Nat.mod_lt _ (by decide)

/-- The word `pn[i]`. -/
def word (a : ArithUint256) (i : ℕ) : ℕ := a.pn.getD i 0

/-- The number the words spell. -/
def toNat (a : ArithUint256) : ℕ := Limbs.value (2 ^ 32) a.pn

theorem ext_pn {a b : ArithUint256} (h : a.pn = b.pn) : a = b := by
  cases a
  cases b
  cases h
  rfl

/-- A number is determined by its value. -/
theorem toNat_injective {a b : ArithUint256} (h : a.toNat = b.toNat) : a = b :=
  ext_pn (Limbs.value_injective (a.length_pn.trans b.length_pn.symm) a.pn_lt b.pn_lt h)

theorem toNat_lt (a : ArithUint256) : a.toNat < 2 ^ 256 := by
  have h := Limbs.value_lt a.pn a.pn_lt
  rwa [a.length_pn, WIDTH, ← pow_mul] at h

end ArithUint256

open ArithUint256

/-- `init_arith_uint256`. -/
def initArithUint256 : ArithUint256 := ofWords fun _ => 0

/-- `arith_negate` : every bit inverted. -/
def arithNegate (input : ArithUint256) : ArithUint256 := ofWords fun i => 2 ^ 32 - 1 - input.word i

/-- `arith_shift_left`. -/
def arithShiftLeft (input : ArithUint256) (shift : ℕ) : ArithUint256 :=
  let k := shift / 32
  let shift := shift % 32
  ofWords fun j =>
    (if k + 1 ≤ j ∧ shift ≠ 0 then input.word (j - k - 1) >>> (32 - shift) else 0) |||
      (if k ≤ j then input.word (j - k) <<< shift else 0)

/-- The word `pn[i]` with the bits of `v` set in it. -/
def orWord (a : ArithUint256) (i v : ℕ) : ArithUint256 :=
  ofWords fun j => if j = i then a.word j ||| v else a.word j

/-- `add_arith_uint256` : the carry loop; a carry out of the top word is lost. -/
def addArithUint256 (a b : ArithUint256) : ArithUint256 where
  pn := Limbs.addCarry (2 ^ 32) a.pn b.pn 0
  length_pn := by rw [Limbs.length_addCarry, a.length_pn, b.length_pn, Nat.min_self]
  pn_lt := Limbs.addCarry_lt (by decide) a.pn b.pn 0

/-- `arith_uint256_is_zero`. -/
def arithUint256IsZero (a : ArithUint256) : Bool := a.pn.all (· = 0)

/-- `arith_uint256_less_than` : the words compared from the top one down. -/
def arithUint256LessThan (a b : ArithUint256) : Bool := Limbs.lessMsf a.pn.reverse b.pn.reverse

/-- `arith_uint256_equal`. -/
def arithUint256Equal (a b : ArithUint256) : Bool := a.pn == b.pn

/-- `arith_uint256_less_than_or_equal`. -/
def arithUint256LessThanOrEqual (a b : ArithUint256) : Bool :=
  arithUint256LessThan a b || arithUint256Equal a b

/-- `arith_uint256_greater_than`. -/
def arithUint256GreaterThan (a b : ArithUint256) : Bool := !arithUint256LessThanOrEqual a b

/-- `arith_uint256_greater_than_or_equal`. -/
def arithUint256GreaterThanOrEqual (a b : ArithUint256) : Bool := !arithUint256LessThan a b

/-- The borrow loop of `sub_arith_uint256`. -/
def subBorrow : List ℕ → List ℕ → ℕ → List ℕ
  | x :: xs, y :: ys, borrow =>
    (x + 2 ^ 32 - y - borrow) % 2 ^ 32 :: subBorrow xs ys (if x < y + borrow then 1 else 0)
  | _, _, _ => []

/-- `sub_arith_uint256` : no result on underflow. -/
def subArithUint256 (a b : ArithUint256) : Option ArithUint256 :=
  if arithUint256LessThan a b then none
  else
    let words := subBorrow a.pn b.pn 0
    some (ofWords fun i => words.getD i 0)

/-- One round of the loop of `div_arith_uint256`, at bit `i` : quotient and remainder. -/
def divArithStep (a b : ArithUint256) (qr : ArithUint256 × ArithUint256) (i : ℕ) :
    ArithUint256 × ArithUint256 :=
  let shifted := arithShiftLeft qr.2 1
  let remainder := if (a.word (i / 32)).testBit (i % 32) then orWord shifted 0 1 else shifted
  if arithUint256GreaterThanOrEqual remainder b then
    (orWord qr.1 (i / 32) (1 <<< (i % 32)), (subArithUint256 remainder b).getD remainder)
  else (qr.1, remainder)

/-- `div_arith_uint256` : no result on division by zero. -/
def divArithUint256 (a b : ArithUint256) : Option ArithUint256 :=
  if arithUint256IsZero b then none
  else
    let bits := (List.range (WIDTH * 32)).reverse
    some (bits.foldl (divArithStep a b) (initArithUint256, initArithUint256)).1

/-- The words of a byte string, four bytes each. -/
def wordsOfBytes : ℕ → Bytes → List ℕ
  | 0, _ => []
  | n + 1, bs => LittleEndian.ofBytes (bs.take 4) :: wordsOfBytes n (bs.drop 4)

theorem length_wordsOfBytes (n : ℕ) (bs : Bytes) : (wordsOfBytes n bs).length = n := by
  induction n generalizing bs with
  | zero => rfl
  | succ n ih => rw [wordsOfBytes, List.length_cons, ih]

theorem wordsOfBytes_lt (n : ℕ) (bs : Bytes) : ∀ x ∈ wordsOfBytes n bs, x < 2 ^ 32 := by
  induction n generalizing bs with
  | zero => simp [wordsOfBytes]
  | succ n ih =>
    intro x hx
    rw [wordsOfBytes, List.mem_cons] at hx
    rcases hx with rfl | hx
    · have hlt := LittleEndian.ofBytes_lt (bs.take 4)
      have hlen : (bs.take 4).length ≤ 4 := List.length_take_le 4 bs
      have hmono : (256 : ℕ) ^ (bs.take 4).length ≤ 256 ^ 4 := Nat.pow_le_pow_right (by decide) hlen
      exact lt_of_lt_of_le hlt hmono
    · exact ih _ x hx

/-- `uint_to_arith` : the memory image of a hash, read as words. -/
def uintToArith (a : Uint256) : ArithUint256 where
  pn := wordsOfBytes WIDTH a.1
  length_pn := length_wordsOfBytes WIDTH a.1
  pn_lt := wordsOfBytes_lt WIDTH a.1

theorem length_flatMap_toBytes (pn : List ℕ) :
    (pn.flatMap (LittleEndian.toBytes 4)).length = 4 * pn.length := by
  induction pn with
  | nil => rfl
  | cons x xs ih =>
    rw [List.flatMap_cons, List.length_append, LittleEndian.length_toBytes, ih, List.length_cons]
    omega

/-- `arith_to_uint256` : the memory image of the words. -/
def arithToUint256 (a : ArithUint256) : Uint256 :=
  ⟨a.pn.flatMap (LittleEndian.toBytes 4), by rw [length_flatMap_toBytes, a.length_pn]; rfl⟩

/-! ## What the operations compute -/

/-- **Addition** is addition modulo `2 ^ 256`. -/
theorem toNat_addArithUint256 (a b : ArithUint256) :
    (addArithUint256 a b).toNat = (a.toNat + b.toNat) % 2 ^ 256 := by
  have h := Limbs.value_addCarry (B := 2 ^ 32) a.pn b.pn (a.length_pn.trans b.length_pn.symm) 0
  rw [a.length_pn, WIDTH, ← pow_mul] at h
  exact h

theorem arithUint256LessThan_iff (a b : ArithUint256) :
    arithUint256LessThan a b = true ↔ a.toNat < b.toNat :=
  Limbs.lessMsf_reverse (a.length_pn.trans b.length_pn.symm) a.pn_lt b.pn_lt

theorem arithUint256Equal_iff (a b : ArithUint256) : arithUint256Equal a b = true ↔ a = b := by
  rw [arithUint256Equal, beq_iff_eq]
  exact ⟨ext_pn, fun h => h ▸ rfl⟩

theorem arithUint256GreaterThan_iff (a b : ArithUint256) :
    arithUint256GreaterThan a b = true ↔ b.toNat < a.toNat := by
  have hle : arithUint256LessThanOrEqual a b = true ↔ a.toNat ≤ b.toNat := by
    rw [arithUint256LessThanOrEqual, Bool.or_eq_true, arithUint256LessThan_iff,
      arithUint256Equal_iff, Nat.le_iff_lt_or_eq]
    exact or_congr_right ⟨fun h => h ▸ rfl, toNat_injective⟩
  rw [arithUint256GreaterThan, Bool.not_eq_true', ← Bool.not_eq_true, hle, Nat.not_le]

theorem wordsOfBytes_flatMap (pn : List ℕ) (hlt : ∀ x ∈ pn, x < 2 ^ 32) :
    wordsOfBytes pn.length (pn.flatMap (LittleEndian.toBytes 4)) = pn := by
  induction pn with
  | nil => rfl
  | cons x xs ih =>
    have hlen : (LittleEndian.toBytes 4 x).length = 4 := LittleEndian.length_toBytes 4 x
    have hx : LittleEndian.ofBytes (LittleEndian.toBytes 4 x) = x :=
      LittleEndian.ofBytes_toBytes_of_lt (hlt x (by simp))
    rw [List.flatMap_cons, List.length_cons, wordsOfBytes, List.take_left' hlen,
      List.drop_left' hlen, hx, ih fun z hz => hlt z (by simp [hz])]

/-- The byte image of a number reads back as the number. -/
theorem uintToArith_arithToUint256 (a : ArithUint256) : uintToArith (arithToUint256 a) = a := by
  apply ext_pn
  have h := wordsOfBytes_flatMap a.pn a.pn_lt
  rwa [a.length_pn] at h

end Libdogecoin
