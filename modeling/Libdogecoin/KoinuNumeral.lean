/-
# Numerals of coins

The amount that a decimal numeral stands for, and what `coins_to_koinu_str` makes of it. What does
not fit into the buffers or into 64 bits is lost on the way, so that the number that is read is
never too large.

* `toNat_coinsToKoinuStr_le` : what is read from a numeral is at most its amount;
* `toNat_coinsToKoinuStr_eq_iff` : when it is the amount.
-/
import Libdogecoin.Koinu

namespace Libdogecoin

namespace Koinu

open HdNode (digits)

/-- The digits in front of the point. -/
def wholeCoins (coins : List Char) : List Char := coins.takeWhile (· ≠ '.')

/-- The digits behind the point. -/
def fraction (coins : List Char) : List Char := (coins.dropWhile (· ≠ '.')).tail

/-- Eight digits, down to one koinu. -/
def mantissa (fraction : List Char) : List Char :=
  fraction.take 8 ++ List.replicate (8 - (fraction.take 8).length) '0'

/-- A plain decimal numeral of whole koinu: digits, and perhaps a point and digits, where nothing
but zeros stands behind the eighth. -/
def isNumeral (coins : List Char) : Bool :=
  wholeCoins coins ≠ [] && (wholeCoins coins).all (· ∈ digits) &&
    (fraction coins).all (· ∈ digits) &&
    ('.' ∉ coins || fraction coins ≠ []) && ((fraction coins).drop 8).all (· = '0')

/-- The amount of a numeral in koinu. -/
def numeralKoinu (coins : List Char) : Option ℕ :=
  if isNumeral coins then some (valueOf (wholeCoins coins) * 10 ^ 8 +
    valueOf (mantissa (fraction coins)))
  else none

/-- The amounts that are read: those `validate_conversion` lets pass, from a string that fits, with
at most twelve digits in front of the point unless they are zeros. -/
def FitsBuffers (coins : List Char) (amount : ℕ) : Prop :=
  amount < 2 ^ 64 - 1 ∧ amount ≠ 0xFFFFF511543FB600 ∧ (coins.length ≤ 22 ∨ amount = 0) ∧
    ((wholeCoins coins).length ≤ 12 ∨ valueOf (wholeCoins coins) = 0)

instance (coins : List Char) (amount : ℕ) : Decidable (FitsBuffers coins amount) := by
  unfold FitsBuffers
  infer_instance

variable {coins whole part : List Char} {amount : ℕ} {koinu : UInt64}

theorem numeralKoinu_eq_some (h : numeralKoinu coins = some amount) :
    wholeCoins coins ≠ [] ∧ (∀ c ∈ wholeCoins coins, c ∈ digits) ∧
    (∀ c ∈ fraction coins, c ∈ digits) ∧
      amount = valueOf (wholeCoins coins) * 10 ^ 8 + valueOf (mantissa (fraction coins)) := by
  unfold numeralKoinu at h
  split_ifs at h with hnumeral
  unfold isNumeral at hnumeral
  simp only [Bool.and_eq_true, List.all_eq_true, decide_eq_true_eq] at hnumeral
  obtain ⟨⟨⟨⟨hne, hwhole⟩, hfraction⟩, -⟩, -⟩ := hnumeral
  exact ⟨hne, hwhole, hfraction, (Option.some.inj h).symm⟩

theorem digits_mantissa {fraction : List Char} (h : ∀ c ∈ fraction, c ∈ digits) :
    ∀ c ∈ mantissa fraction, c ∈ digits := by
  intro c hc
  rcases List.mem_append.mp hc with hdigit | hzero
  · exact h c (List.mem_of_mem_take hdigit)
  · rw [List.eq_of_mem_replicate hzero]
    decide

@[simp] theorem length_mantissa (fraction : List Char) : (mantissa fraction).length = 8 := by
  have hle := List.length_take_le 8 fraction
  rw [mantissa, List.length_append, List.length_replicate]
  omega

/-! ## Numbers of digits -/

/-- `strtoull` reads no more than the digits say. -/
theorem toNat_strtoull_le {ds : List Char} (h : ∀ c ∈ ds, c ∈ digits) :
    (strtoull ds).1.toNat ≤ valueOf ds := by
  by_cases hne : ds = []
  · subst hne
    exact Nat.zero_le _
  by_cases hlt : valueOf ds < 2 ^ 64
  · rw [strtoull_of_digits hne h hlt]
    exact le_of_eq (UInt64.toNat_ofNat_of_lt' hlt)
  · have hword := (strtoull ds).1.toNat_lt
    omega

/-- Every step of the sum can only lose something. -/
theorem toNat_addCoins_le (hwhole : ∀ c ∈ whole, c ∈ digits) (hpart : ∀ c ∈ part, c ∈ digits) :
    (addCoins whole part).toNat ≤ valueOf whole * 10 ^ 8 + valueOf part := by
  have hw := toNat_strtoull_le hwhole
  have hp := toNat_strtoull_le hpart
  have hcoins : ((strtoull whole).1 * 100000000).toNat ≤ valueOf whole * 10 ^ 8 := by
    rw [UInt64.toNat_mul]
    calc (strtoull whole).1.toNat * 100000000 % 2 ^ 64
        ≤ (strtoull whole).1.toNat * 100000000 := Nat.mod_le _ _
      _ ≤ valueOf whole * 10 ^ 8 := Nat.mul_le_mul_right _ hw
  have hsum : ∀ dogecoin : UInt64, dogecoin.toNat ≤ valueOf whole * 10 ^ 8 →
      ((strtoull part).1 + dogecoin).toNat ≤ valueOf whole * 10 ^ 8 + valueOf part := by
    intro dogecoin hle
    rw [UInt64.toNat_add]
    have hmod := Nat.mod_le ((strtoull part).1.toNat + dogecoin.toNat) (2 ^ 64)
    omega
  unfold addCoins
  dsimp only
  split_ifs
  · exact hsum _ hcoins
  · exact Nat.zero_le _
  · exact hsum _ (by omega)
  · exact Nat.zero_le _

/-- A number that was read up to its end is refused for its value alone. -/
theorem validateConversion_eq_success_iff {n : UInt64} {src srcEnd : List Char} (hsrc : src ≠ []) :
    validateConversion n (some (src, srcEnd)) = .success ↔
      srcEnd = [] ∧ n.toNat ≠ 2 ^ 64 - 1 ∧ n.toNat ≠ 0xFFFFF511543FB600 := by
  have hone : n = 0xFFFFF511543FB600 ↔ n.toNat = 0xFFFFF511543FB600 := UInt64.toNat_inj.symm
  have hall : n = 0xFFFFFFFFFFFFFFFF ↔ n.toNat = 2 ^ 64 - 1 := UInt64.toNat_inj.symm
  rw [ne_eq, ne_eq, ← hone, ← hall]
  unfold validateConversion
  by_cases h1 : n = 0xFFFFF511543FB600
  · simp [h1]
  by_cases h2 : n = 0xFFFFFFFFFFFFFFFF
  · simp [h2]
  by_cases hend : srcEnd = []
  · simp [h1, h2, hend, hsrc.symm]
  · simp [h1, h2, hend]

/-- What is read from the two parts of an amount of 64 bits. -/
theorem addCoins_of_digits (hne : whole ≠ []) (hwhole : ∀ c ∈ whole, c ∈ digits)
    (hpart : ∀ c ∈ part, c ∈ digits) (height : part.length = 8)
    (hlt : valueOf whole * 10 ^ 8 + valueOf part < 2 ^ 64) :
    (addCoins whole part).toNat =
      if whole.length ≤ 12 then
        if valueOf whole * 10 ^ 8 + valueOf part = 2 ^ 64 - 1 ∨
            valueOf whole * 10 ^ 8 + valueOf part = 0xFFFFF511543FB600 then 0
        else valueOf whole * 10 ^ 8 + valueOf part
      else valueOf whole + valueOf part := by
  have hpartlt : valueOf part < 10 ^ 8 := height ▸ valueOf_lt hpart
  have hpart_ne : part ≠ [] := List.ne_nil_of_length_pos (by omega)
  have hread : ∀ n < 2 ^ 64, (UInt64.ofNat n).toNat = n := fun n hn => UInt64.toNat_ofNat_of_lt' hn
  -- a number is refused for its value alone, since the digits are read to their end
  have hvalid : ∀ (n : UInt64) (src : List Char), src ≠ [] →
      (validateConversion n (some (src, [])) = .success ↔
        n.toNat ≠ 2 ^ 64 - 1 ∧ n.toNat ≠ 0xFFFFF511543FB600) := fun n src hsrc =>
    (validateConversion_eq_success_iff hsrc).trans (and_iff_right rfl)
  have hwholeValid : validateConversion (UInt64.ofNat (valueOf whole)) (some (whole, [])) =
    .success := by
    apply (hvalid _ _ hne).mpr
    rw [hread _ (by omega)]
    exact ⟨by omega, by omega⟩
  unfold addCoins
  rw [strtoull_of_digits hne hwhole (by omega), strtoull_of_digits hpart_ne hpart (by omega)]
  dsimp only
  rw [hwholeValid]
  by_cases hshort : whole.length ≤ 12
  · have hsum : (UInt64.ofNat (valueOf part) + UInt64.ofNat (valueOf whole) * 100000000).toNat =
        valueOf whole * 10 ^ 8 + valueOf part := by
      rw [UInt64.toNat_add, UInt64.toNat_mul, hread _ (by omega), hread _ (by omega)]
      show (valueOf part + valueOf whole * 100000000 % 2 ^ 64) % 2 ^ 64 = _
      omega
    have hcheck := hvalid (UInt64.ofNat (valueOf part) + UInt64.ofNat (valueOf whole) *
      100000000) part hpart_ne
    rw [hsum] at hcheck
    simp only [true_and, if_pos hshort]
    split_ifs with hok hrefused hrefused
    · have hne := hcheck.mp hok
      omega
    · exact hsum
    · rfl
    · exact absurd (hcheck.mpr ⟨fun h => hrefused (Or.inl h), fun h => hrefused (Or.inr h)⟩) hok
  · have hsum : (UInt64.ofNat (valueOf part) + UInt64.ofNat (valueOf whole)).toNat =
        valueOf whole + valueOf part := by
      rw [UInt64.toNat_add, hread _ (by omega), hread _ (by omega)]
      omega
    have hcheck := hvalid (UInt64.ofNat (valueOf part) + UInt64.ofNat (valueOf whole)) part hpart_ne
    rw [hsum] at hcheck
    simp only [true_and, if_neg hshort]
    rw [if_pos (hcheck.mpr ⟨by omega, by omega⟩), hsum]

/-! ## Reading a numeral -/

/-- A numeral that is too long is read as zero, and every other as its two parts. -/
theorem coinsToKoinuStr_numeral (hne : wholeCoins coins ≠ [])
    (hwhole : ∀ c ∈ wholeCoins coins, c ∈ digits) (hread : coinsToKoinuStr coins = some koinu) :
    (coins.length > 22 ∧ koinu = 0) ∨
      (coins.length ≤ 22 ∧ koinu = addCoins (wholeCoins coins) (mantissa (fraction coins))) := by
  obtain ⟨c, rest, hcons⟩ := List.exists_cons_of_ne_nil hne
  have hsplitAt : coins = (c :: rest) ++ coins.dropWhile (· ≠ '.') := by
    rw [← hcons]
    exact List.takeWhile_append_dropWhile.symm
  have hminus : ¬ coins.head? = some '-' := by
    have hall : digits.all (fun c => decide (c ≠ '-')) = true := by decide
    rw [hsplitAt]
    simpa using of_decide_eq_true (List.all_eq_true.mp hall c
      (hwhole c (hcons ▸ List.mem_cons_self)))
  have hpos : coins.length ≠ 0 := by
    rw [hsplitAt]
    simp
  unfold coinsToKoinuStr at hread
  rw [if_neg hminus] at hread
  by_cases hlong : coins.length > 22 ∨ coins.length = 0
  · rw [if_pos hlong] at hread
    exact Or.inl ⟨hlong.resolve_right hpos, (Option.some.inj hread).symm⟩
  rw [if_neg hlong] at hread
  obtain ⟨parts, hsplit, hsum⟩ := Option.bind_eq_some_iff.mp hread
  have hparts : parts = (wholeCoins coins, fraction coins) := by
    unfold splitCoins at hsplit
    unfold fraction
    dsimp only at hsplit
    cases hdrop : coins.dropWhile (· ≠ '.') with
    | nil =>
      rw [hdrop] at hsplit
      dsimp only at hsplit
      split_ifs at hsplit
      exact (Option.some.inj hsplit).symm
    | cons d rest' =>
      rw [hdrop] at hsplit
      dsimp only at hsplit
      split_ifs at hsplit
      exact (Option.some.inj hsplit).symm
  subst hparts
  exact Or.inr ⟨by omega, (Option.some.inj hsum).symm⟩

/-- What is read from a numeral is at most its amount. -/
theorem toNat_coinsToKoinuStr_le (hread : coinsToKoinuStr coins = some koinu)
    (hnumeral : numeralKoinu coins = some amount) : koinu.toNat ≤ amount := by
  obtain ⟨hne, hwhole, hfraction, rfl⟩ := numeralKoinu_eq_some hnumeral
  rcases coinsToKoinuStr_numeral hne hwhole hread with ⟨-, rfl⟩ | ⟨-, rfl⟩
  · exact Nat.zero_le _
  · exact toNat_addCoins_le hwhole (digits_mantissa hfraction)

/-- A numeral is read as its amount if it fits. -/
theorem toNat_coinsToKoinuStr_eq_iff (hread : coinsToKoinuStr coins = some koinu)
    (hnumeral : numeralKoinu coins = some amount) : koinu.toNat = amount ↔
    FitsBuffers coins amount := by
  obtain ⟨hne, hwhole, hfraction, hamount⟩ := numeralKoinu_eq_some hnumeral
  have hlt := koinu.toNat_lt
  have hmantissa := digits_mantissa hfraction
  have hpartlt : valueOf (mantissa (fraction coins)) < 10 ^ 8 := by
    have hvalue := valueOf_lt hmantissa
    rwa [length_mantissa] at hvalue
  unfold FitsBuffers
  rcases coinsToKoinuStr_numeral hne hwhole hread with ⟨hlong, rfl⟩ | ⟨hshort, rfl⟩
  · show 0 = amount ↔ _
    omega
  · by_cases hsum : valueOf (wholeCoins coins) * 10 ^ 8 +
      valueOf (mantissa (fraction coins)) < 2 ^ 64
    · rw [addCoins_of_digits hne hwhole hmantissa (length_mantissa _) hsum]
      split_ifs with htwelve hrefused
      · omega
      · omega
      · omega
    · omega

/-- Numerals with few digits are read as they should be. -/
example : numeralKoinu "12.5".toList = some 1250000000 ∧
    FitsBuffers "12.5".toList 1250000000 := by decide

end Koinu

end Libdogecoin
