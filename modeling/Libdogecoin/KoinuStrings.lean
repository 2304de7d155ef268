/-
# Strings of coins

What `coins_to_koinu_str` makes of a string that need not be a numeral. The status of the first
conversion is only logged, so that signs, blanks and letters in front of the point go unnoticed, and
a numeral of more than twelve digits is not scaled.

* `addCoins_eq_zero_iff` : the two numbers add up to nothing if the string spells one of three
  amounts;
* `readsExactly_iff` : the strings that are read as they should be.
-/
import Libdogecoin.KoinuArray
import Libdogecoin.KoinuNumeral

namespace Libdogecoin

namespace Koinu

open HdNode (digits)
open CharArray (cString)

/-- A plain decimal numeral: digits, a point and digits, or both. -/
def isPlainNumeral (coins : List Char) : Bool :=
  (wholeCoins coins).all (· ∈ digits) && (fraction coins).all (· ∈ digits) &&
    if '.' ∈ coins then fraction coins ≠ [] else wholeCoins coins ≠ []

/-- The amount of a plain numeral in koinu, without the digits behind the eighth. -/
def plainKoinu (coins : List Char) : ℕ :=
  valueOf (wholeCoins coins) * 10 ^ 8 + valueOf (mantissa (fraction coins))

/-- A string is read exactly: a number other than zero is the amount of a plain numeral, and every
other string is read as zero. -/
structure ReadsExactly (coins : List Char) (result : Option UInt64) : Prop where
  returns : result.isSome
  exact : ∀ koinu, result = some koinu → koinu ≠ 0 →
    isPlainNumeral coins = true ∧ koinu.toNat = plainKoinu coins
  other : isPlainNumeral coins = false ∨ 2 ^ 64 ≤ plainKoinu coins → result = some 0

/-! ## What a string spells -/

/-- The number that a text begins with, which is zero if there are no digits. -/
def leadingNumber (text : List Char) : ℤ :=
  if (text.dropWhile isSpace).head? = some '-' then -valueOf (leadingDigits text)
  else valueOf (leadingDigits text)

/-- The text is a number and nothing else: blanks, a sign and digits. -/
def IsNumber (text : List Char) :
    Prop := unsignedPart text ≠ [] ∧ ∀ c ∈ unsignedPart text, c ∈ digits

instance (text : List Char) : Decidable (IsNumber text) :=
  @instDecidableAnd _ _ inferInstance (List.decidableBAll _ _)

/-- The number in front of the point counts in coins if nothing else stands there, it has at most
twelve characters and it is not `-1`. Else it counts in koinu. -/
def leadingKoinu (whole : List Char) : ℤ :=
  if IsNumber whole ∧ whole.length ≤ 12 ∧ leadingNumber whole ≠ -1 then leadingNumber whole * 10 ^ 8
  else leadingNumber whole

/-- The amounts that stand for an error: none, `-1` koinu, and `-120202` coins. -/
def IsError (amount : ℤ) : Prop :=
  amount % 2 ^ 64 = 0 ∨ (amount + 1) % 2 ^ 64 = 0 ∨ (amount + 120202 * 10 ^ 8) % 2 ^ 64 = 0

/-- The characters in front of the point fit into `dogecoin_string`, with eight zeros behind a
point. -/
def FitsString (coins : List Char) : Prop :=
  if '.' ∈ coins then (wholeCoins coins).length ≤ 13 else (wholeCoins coins).length ≤ 20

/-- The string spells an error: twenty digits that are too large, or numbers in front of the point
and behind it that come to such an amount. -/
def SpellsError (coins : List Char) : Prop :=
  2 ^ 64 ≤ leadingNumber (wholeCoins coins) ∨
    IsError (leadingKoinu (wholeCoins coins) + leadingNumber (mantissa (fraction coins)))

/-- The strings that are read exactly. Those that start with a minus, that are empty or that are too
long are not looked at; of the others, eight characters behind the point are no number, or they
spell an error, or they are numerals of at most twelve digits in front of the point, unless these
are zeros, and their amount fits. -/
def ReadsSafely (coins : List Char) : Prop :=
  coins.head? = some '-' ∨ coins = [] ∨ 22 < coins.length ∨
    (FitsString coins ∧
      (¬ IsNumber (mantissa (fraction coins)) ∨ SpellsError coins ∨
        (isPlainNumeral coins = true ∧
          ((wholeCoins coins).length ≤ 12 ∨ valueOf (wholeCoins coins) = 0) ∧
            plainKoinu coins < 2 ^ 64)))

instance (coins : List Char) : Decidable (ReadsSafely coins) := by
  unfold ReadsSafely FitsString SpellsError IsError
  infer_instance

/-- Letters behind a digit are no number, a sign in front of the point is one. -/
example : ¬ ReadsSafely "1x".toList ∧ ¬ ReadsSafely "+1".toList ∧ ReadsSafely ".12345678".toList ∧
    ReadsSafely "x.y".toList ∧ ReadsSafely " -120202".toList := by
  decide

/-! ## The numbers that are read -/

theorem unsignedPart_suffix (text : List Char) : unsignedPart text <:+ text := by
  have hdrop := List.dropWhile_suffix (l := text) isSpace
  unfold unsignedPart
  split
  next heq => exact (List.suffix_cons _ _).trans (heq ▸ hdrop)
  next heq => exact (List.suffix_cons _ _).trans (heq ▸ hdrop)
  · exact hdrop

theorem valueOf_leadingDigits_lt {text : List Char} {n : ℕ} (hle : (unsignedPart text).length ≤ n) :
    valueOf (leadingDigits text) < 10 ^ n := by
  have hdigits : ∀ c ∈ leadingDigits text, c ∈ digits := by
    intro c hc
    have hdigit := List.mem_takeWhile_imp hc
    exact of_decide_eq_true hdigit
  refine lt_of_lt_of_le (valueOf_lt hdigits) (Nat.pow_le_pow_right (by decide) ?_)
  exact (List.takeWhile_sublist _).length_le.trans hle

/-- A minus takes one of the characters. -/
theorem length_unsignedPart_lt {text : List Char} (h : (text.dropWhile isSpace).head? = some '-') :
    (unsignedPart text).length < text.length := by
  have hle := (List.dropWhile_suffix (l := text) isSpace).length_le
  unfold unsignedPart
  generalize text.dropWhile isSpace = rest at h hle ⊢
  cases rest with
  | nil => cases h
  | cons c rest =>
    obtain rfl : c = '-' := Option.some.inj h
    exact hle

variable {text whole part : List Char}

theorem leadingNumber_bounds {n : ℕ} (h : valueOf (leadingDigits text) < n) :
    -(n : ℤ) < leadingNumber text ∧ leadingNumber text < n := by
  unfold leadingNumber
  split_ifs <;> omega

/-- `strtoull` reads a text to its end if it is a number. -/
theorem strtoull_end (hne : text ≠ []) : (strtoull text).2 = [] ↔ IsNumber text := by
  rw [strtoull_eq]
  unfold IsNumber
  by_cases hnil : leadingDigits text = []
  · rw [if_pos hnil]
    refine iff_of_false hne fun ⟨hpart, hall⟩ => hpart ?_
    rwa [leadingDigits, List.takeWhile_eq_self_iff.mpr fun c hc =>
      decide_eq_true (hall c hc)] at hnil
  · have hpart : unsignedPart text ≠ [] := by
      intro hpart
      exact hnil (by rw [leadingDigits, hpart]; rfl)
    rw [if_neg hnil]
    dsimp only
    rw [List.dropWhile_eq_nil_iff]
    exact ⟨fun hall => ⟨hpart, fun c hc => of_decide_eq_true (hall c hc)⟩,
      fun h c hc => decide_eq_true (h.2 c hc)⟩

/-- The number that it reads is the one in the text, in 64 bits. -/
theorem toNat_strtoull (hlt : valueOf (leadingDigits text) < 2 ^ 64) :
    ((strtoull text).1.toNat : ℤ) = leadingNumber text % 2 ^ 64 := by
  rw [strtoull_eq]
  unfold leadingNumber
  by_cases hnil : leadingDigits text = []
  · rw [if_pos hnil, hnil]
    simp [valueOf]
  · rw [if_neg hnil, if_neg (Nat.not_le.mpr hlt)]
    dsimp only
    split_ifs
    · rw [UInt64.toNat_neg, UInt64.toNat_ofNat_of_lt' hlt, show UInt64.size = 2 ^ 64 from rfl]
      omega
    · rw [UInt64.toNat_ofNat_of_lt' hlt]
      omega

/-- Digits are a number. -/
theorem leadingNumber_of_digits (h : ∀ c ∈ text, c ∈ digits) :
    unsignedPart text = text ∧ leadingNumber text = valueOf text := by
  obtain ⟨hdrop, hunsigned, hsign, hdigits⟩ := leadingDigits_of_digits h
  refine ⟨hunsigned, ?_⟩
  rw [leadingNumber, hdrop, if_neg hsign, hdigits]

theorem mantissa_ne_nil (fraction : List Char) : mantissa fraction ≠ [] :=
  List.ne_nil_of_length_pos (by rw [length_mantissa]; decide)

/-- The number in front of the point, scaled if it is valid and short. -/
theorem toNat_scaled (hlt : valueOf (leadingDigits whole) < 2 ^ 64) :
    ((if validateConversion (strtoull whole).1 (some (whole, (strtoull whole).2)) = .success ∧
      whole.length ≤ 12 then (strtoull whole).1 * 100000000 else (strtoull whole).1).toNat : ℤ) =
      leadingKoinu whole % 2 ^ 64 := by
  have hread := toNat_strtoull hlt
  have hvalid : (validateConversion (strtoull whole).1 (some (whole, (strtoull whole).2)) =
    .success ∧
      whole.length ≤ 12) ↔ IsNumber whole ∧ whole.length ≤ 12 ∧ leadingNumber whole ≠ -1 := by
    by_cases hnil : whole = []
    · subst hnil
      decide
    · rw [validateConversion_eq_success_iff hnil, strtoull_end hnil]
      by_cases hshort : whole.length ≤ 12
      · have hsmall : valueOf (leadingDigits whole) < 10 ^ 12 :=
          valueOf_leadingDigits_lt ((unsignedPart_suffix whole).length_le.trans hshort)
        obtain ⟨hlow, hhigh⟩ := leadingNumber_bounds hsmall
        simp only [hshort, true_and, and_true]
        refine and_congr_right fun _ => ?_
        omega
      · simp only [hshort, and_false, false_and]
  unfold leadingKoinu
  by_cases hscaled : IsNumber whole ∧ whole.length ≤ 12 ∧ leadingNumber whole ≠ -1
  · rw [if_pos (hvalid.mpr hscaled), if_pos hscaled, UInt64.toNat_mul, Int.natCast_mod,
      Nat.cast_mul, hread]
    change leadingNumber whole % 2 ^ 64 * 10 ^ 8 % 2 ^ 64 = leadingNumber whole * 10 ^ 8 % 2 ^ 64
    omega
  · rw [if_neg fun h => hscaled (hvalid.mp h), if_neg hscaled, hread]

/-- The sum that `coins_to_koinu_str` forms. -/
theorem addCoins_eq (hwhole : valueOf (leadingDigits whole) < 2 ^ 64) (hpart : part ≠ [])
    (hlt : valueOf (leadingDigits part) < 2 ^ 64) :
    addCoins whole part = 0 ∧ (¬ IsNumber part ∨
      IsError (leadingKoinu whole + leadingNumber part)) ∨
      ((addCoins whole part).toNat : ℤ) = (leadingKoinu whole + leadingNumber part) % 2 ^ 64 ∧
        IsNumber part ∧ ¬ IsError (leadingKoinu whole + leadingNumber part) := by
  have hscaled := toNat_scaled hwhole
  have hread := toNat_strtoull hlt
  have hend := strtoull_end hpart
  unfold addCoins IsError
  dsimp only
  generalize (if validateConversion (strtoull whole).1 (some (whole, (strtoull whole).2)) =
    .success ∧
    whole.length ≤ 12 then (strtoull whole).1 * 100000000 else (strtoull whole).1) =
      dogecoin at hscaled ⊢
  have hsum : (((strtoull part).1 + dogecoin).toNat : ℤ) =
      (leadingKoinu whole + leadingNumber part) % 2 ^ 64 := by
    rw [UInt64.toNat_add]
    omega
  rw [← hend]
  by_cases hvalid : validateConversion ((strtoull part).1 + dogecoin)
    (some (part, (strtoull part).2)) =
      .success
  · rw [if_pos hvalid]
    obtain ⟨hrest, hmax, hunder⟩ := (validateConversion_eq_success_iff hpart).mp hvalid
    by_cases hzero : ((strtoull part).1 + dogecoin).toNat = 0
    · exact Or.inl ⟨UInt64.toNat_inj.mp hzero, Or.inr (by omega)⟩
    · exact Or.inr ⟨hsum, hrest, by omega⟩
  · rw [if_neg hvalid]
    refine Or.inl ⟨rfl, ?_⟩
    rw [validateConversion_eq_success_iff hpart] at hvalid
    by_cases hrest : (strtoull part).2 = []
    · refine Or.inr ?_
      by_contra hnone
      exact hvalid ⟨hrest, by omega, by omega⟩
    · exact Or.inl hrest

/-- Digits that are too large for 64 bits are read as the largest number, which is refused. -/
theorem addCoins_of_large (hlarge : 2 ^ 64 ≤ valueOf (leadingDigits whole))
    (hlong : 12 < whole.length) :
    addCoins whole (mantissa []) = 0 := by
  have hne : leadingDigits whole ≠ [] := by
    intro hnil
    rw [hnil] at hlarge
    exact absurd hlarge (by decide)
  have hread : (strtoull whole).1 = 0xFFFFFFFFFFFFFFFF := by
    rw [strtoull_eq, if_neg hne, if_pos hlarge]
  unfold addCoins
  dsimp only
  have hunscaled : ¬ (validateConversion 0xFFFFFFFFFFFFFFFF (some (whole, (strtoull whole).2)) =
    .success ∧
      whole.length ≤ 12) := fun h => absurd h.2 (Nat.not_le.mpr hlong)
  rw [hread, if_neg hunscaled]
  decide

/-! ## Reading a string -/

theorem digits_of_isPlainNumeral {coins : List Char} (h : isPlainNumeral coins = true) :
    (∀ c ∈ wholeCoins coins, c ∈ digits) ∧ ∀ c ∈ fraction coins, c ∈ digits := by
  unfold isPlainNumeral at h
  simp only [Bool.and_eq_true, List.all_eq_true, decide_eq_true_eq] at h
  exact h.1

/-- The parts of a string that fits. -/
theorem splitCoins_eq (coins : List Char) :
    FitsString coins ∧ splitCoins coins = some (wholeCoins coins, fraction coins) ∨
      ¬ FitsString coins ∧ splitCoins coins = none := by
  unfold FitsString splitCoins fraction wholeCoins
  dsimp only
  cases hdrop : coins.dropWhile (· ≠ '.') with
  | nil =>
    have hpoint : '.' ∉ coins := by
      intro hmem
      have hne := List.dropWhile_eq_nil_iff.mp hdrop _ hmem
      simp at hne
    rw [if_neg hpoint]
    dsimp only
    split
    · exact Or.inr ⟨by omega, rfl⟩
    · exact Or.inl ⟨by omega, rfl⟩
  | cons c rest =>
    have hpoint : '.' ∈ coins := by
      by_contra hnot
      have hnil : coins.dropWhile (· ≠ '.') = [] := by
        rw [List.dropWhile_eq_nil_iff]
        intro d hd
        exact decide_eq_true fun heq => hnot (heq ▸ hd)
      rw [hdrop] at hnil
      cases hnil
    rw [if_pos hpoint]
    dsimp only
    split
    · exact Or.inr ⟨by omega, rfl⟩
    · exact Or.inl ⟨by omega, rfl⟩

/-- Strings that are not looked at are read as zero, those that do not fit are read nowhere, and of
the others the two numbers are added. -/
theorem coinsToKoinuStr_cases (coins : List Char) :
    (coins.head? = some '-' ∨ coins = [] ∨ 22 < coins.length) ∧ coinsToKoinuStr coins = some 0 ∨
      ¬ (coins.head? = some '-' ∨ coins = [] ∨ 22 < coins.length) ∧
        (FitsString coins ∧
            coinsToKoinuStr coins = some (addCoins (wholeCoins coins) (mantissa (fraction coins))) ∨
          ¬ FitsString coins ∧ coinsToKoinuStr coins = none) := by
  unfold coinsToKoinuStr
  by_cases hminus : coins.head? = some '-'
  · rw [if_pos hminus]
    exact Or.inl ⟨Or.inl hminus, rfl⟩
  rw [if_neg hminus]
  by_cases hlong : coins.length > 22 ∨ coins.length = 0
  · rw [if_pos hlong]
    refine Or.inl ⟨Or.inr ?_, rfl⟩
    rcases hlong with hlong | hnil
    · exact Or.inr hlong
    · exact Or.inl (List.length_eq_zero_iff.mp hnil)
  rw [if_neg hlong]
  rw [not_or] at hlong
  refine Or.inr ⟨?_, ?_⟩
  · rintro (h | rfl | h)
    · exact hminus h
    · exact hlong.2 rfl
    · exact hlong.1 h
  · rcases splitCoins_eq coins with ⟨hfits, hsplit⟩ | ⟨hfits, hsplit⟩
    · rw [hsplit]
      exact Or.inl ⟨hfits, rfl⟩
    · rw [hsplit]
      exact Or.inr ⟨hfits, rfl⟩

/-- **The two numbers add up to nothing** when the second one is none, or the string spells an
error. -/
theorem addCoins_eq_zero_iff {coins : List Char} (hfits : FitsString coins) :
    (addCoins (wholeCoins coins) (mantissa (fraction coins)) = 0 ↔
        ¬ IsNumber (mantissa (fraction coins)) ∨ SpellsError coins) ∧
      (addCoins (wholeCoins coins) (mantissa (fraction coins)) ≠ 0 →
        ((addCoins (wholeCoins coins) (mantissa (fraction coins))).toNat : ℤ) =
          (leadingKoinu (wholeCoins coins) + leadingNumber (mantissa (fraction coins))) %
          2 ^ 64) := by
  have hpart : valueOf (leadingDigits (mantissa (fraction coins))) < 2 ^ 64 :=
    (valueOf_leadingDigits_lt ((unsignedPart_suffix _).length_le.trans
      (length_mantissa _).le)).trans (by decide)
  by_cases hwhole : valueOf (leadingDigits (wholeCoins coins)) < 2 ^ 64
  · have hnot := (leadingNumber_bounds hwhole).2
    unfold SpellsError
    rcases addCoins_eq hwhole (mantissa_ne_nil (fraction coins)) hpart with ⟨hzero, hwhy⟩ |
      ⟨hsum, hend, hnone⟩
    · exact ⟨iff_of_true hzero (hwhy.imp_right Or.inr), fun hne => absurd hzero hne⟩
    · refine ⟨iff_of_false ?_ ?_, fun _ => hsum⟩
      · intro hzero
        rw [hzero] at hsum
        exact hnone (Or.inl hsum.symm)
      · rintro (h | h | h)
        · exact h hend
        · exact absurd hnot (not_lt.mpr h)
        · exact hnone h
  · -- twenty digits without a point
    have hlarge := Nat.not_lt.mp hwhole
    have hunsigned : 19 < (unsignedPart (wholeCoins coins)).length := by
      by_contra hshort
      have hsmall := valueOf_leadingDigits_lt (Nat.not_lt.mp hshort)
      omega
    have hlong := hunsigned.trans_le (unsignedPart_suffix _).length_le
    have hpoint : '.' ∉ coins := by
      intro hmem
      unfold FitsString at hfits
      rw [if_pos hmem] at hfits
      omega
    have hnone : fraction coins = [] := by
      unfold fraction
      have hall : ∀ c ∈ coins, decide (c ≠ '.') = true := fun c hc =>
        decide_eq_true fun heq => hpoint (heq ▸ hc)
      rw [List.dropWhile_eq_nil_iff.mpr hall]
      rfl
    have hnumber : 2 ^ 64 ≤ leadingNumber (wholeCoins coins) := by
      unfold leadingNumber
      rw [if_neg]
      · omega
      · intro hminus
        have hshort := length_unsignedPart_lt hminus
        unfold FitsString at hfits
        rw [if_neg hpoint] at hfits
        omega
    have hzero := addCoins_of_large hlarge (show 12 < (wholeCoins coins).length by omega)
    rw [hnone]
    exact ⟨iff_of_true hzero (Or.inr (Or.inl hnumber)), fun hne => absurd hzero hne⟩

/-- Coins that count as koinu come to less than they should, unless there are none. -/
theorem eq_of_units_iff {koinu front behind : ℕ} (hbehind : behind < 10 ^ 8)
    (h : koinu = (front + behind) % 2 ^ 64) :
    koinu = front * 10 ^ 8 + behind ↔ front = 0 ∧ front * 10 ^ 8 + behind < 2 ^ 64 := by
  have hle : koinu ≤ front + behind := h.trans_le (Nat.mod_le _ _)
  by_cases hzero : front = 0
  · subst hzero
    omega
  · refine iff_of_false ?_ fun hall => hzero hall.1
    clear h
    omega

/-- The numerals whose two numbers are put together as they should be. -/
theorem toNat_addCoins_eq_iff {coins : List Char} (hfits : FitsString coins)
    (hplain : isPlainNumeral coins = true)
    (hne : addCoins (wholeCoins coins) (mantissa (fraction coins)) ≠ 0) :
    (addCoins (wholeCoins coins) (mantissa (fraction coins))).toNat = plainKoinu coins ↔
      ((wholeCoins coins).length ≤ 12 ∨ valueOf (wholeCoins coins) = 0) ∧
      plainKoinu coins < 2 ^ 64 := by
  obtain ⟨hdigits, hfraction⟩ := digits_of_isPlainNumeral hplain
  obtain ⟨hunsigned, hwhole⟩ := leadingNumber_of_digits hdigits
  have hmantissa := digits_mantissa hfraction
  have hpart := (leadingNumber_of_digits hmantissa).2
  have hpartlt : valueOf (mantissa (fraction coins)) < 10 ^ 8 := by
    have hvalue := valueOf_lt hmantissa
    rwa [length_mantissa] at hvalue
  have hsum := (addCoins_eq_zero_iff hfits).2 hne
  have hword := (addCoins (wholeCoins coins) (mantissa (fraction coins))).toNat_lt
  have hvalue := valueOf_lt hdigits
  have hpos : (addCoins (wholeCoins coins) (mantissa (fraction coins))).toNat ≠ 0 := fun h =>
    hne (UInt64.toNat_inj.mp h)
  rw [hpart] at hsum
  unfold leadingKoinu at hsum
  rw [hwhole] at hsum
  unfold plainKoinu
  by_cases hnil : wholeCoins coins = []
  · have hzero : valueOf (wholeCoins coins) = 0 := by rw [hnil]; rfl
    rw [hzero] at hsum ⊢
    split_ifs at hsum <;> omega
  by_cases hshort : (wholeCoins coins).length ≤ 12
  · have hscaled : IsNumber (wholeCoins coins) ∧ (wholeCoins coins).length ≤ 12 ∧
        (valueOf (wholeCoins coins) : ℤ) ≠ -1 := by
      refine ⟨?_, hshort, by omega⟩
      unfold IsNumber
      rw [hunsigned]
      exact ⟨hnil, hdigits⟩
    rw [if_pos hscaled] at hsum
    omega
  · have hunscaled : ¬ (IsNumber (wholeCoins coins) ∧ (wholeCoins coins).length ≤ 12 ∧
        (valueOf (wholeCoins coins) : ℤ) ≠ -1) := fun h => hshort h.2.1
    rw [if_neg hunscaled] at hsum
    simp only [hshort, false_or]
    exact eq_of_units_iff hpartlt (by exact_mod_cast hsum)

/-- **Reading a string of coins.** It is read exactly if and only if it is one of the safe
strings. -/
theorem readsExactly_iff {array coins : List Char} (h : cString KoinuArray.nul array = some coins) :
    ReadsExactly coins (KoinuArray.coinsToKoinuStr array) ↔ ReadsSafely coins := by
  rw [KoinuArray.coinsToKoinuStr_eq h]
  unfold ReadsSafely
  rcases coinsToKoinuStr_cases coins with ⟨hskip, hzero⟩ | ⟨hlook, hread⟩
  · refine iff_of_true ⟨?_, ?_, ?_⟩ ?_
    · rw [hzero]
      rfl
    · intro koinu hkoinu hne
      rw [hzero] at hkoinu
      exact absurd (Option.some.inj hkoinu).symm hne
    · exact fun _ => hzero
    · rcases hskip with h | h | h
      · exact Or.inl h
      · exact Or.inr (Or.inl h)
      · exact Or.inr (Or.inr (Or.inl h))
  simp only [not_or] at hlook
  obtain ⟨hminus, hnil, hlong⟩ := hlook
  simp only [hminus, hnil, hlong, false_or]
  rcases hread with ⟨hfits, hread⟩ | ⟨hfits, hread⟩
  · rw [hread]
    simp only [hfits, true_and, ← or_assoc]
    rw [← (addCoins_eq_zero_iff hfits).1]
    by_cases hzero : addCoins (wholeCoins coins) (mantissa (fraction coins)) = 0
    · refine iff_of_true ⟨rfl, ?_, ?_⟩ (Or.inl hzero)
      · intro koinu hkoinu hne
        rw [hzero] at hkoinu
        exact absurd (Option.some.inj hkoinu).symm hne
      · exact fun _ => congrArg some hzero
    · simp only [hzero, false_or]
      constructor
      · intro hexact
        obtain ⟨hplain, hvalue⟩ := hexact.exact _ rfl hzero
        exact ⟨hplain, (toNat_addCoins_eq_iff hfits hplain hzero).mp hvalue⟩
      · rintro ⟨hplain, hrange⟩
        refine ⟨rfl, ?_, ?_⟩
        · intro koinu hkoinu _
          obtain rfl := Option.some.inj hkoinu
          exact ⟨hplain, (toNat_addCoins_eq_iff hfits hplain hzero).mpr hrange⟩
        · rintro (hnot | hlarge)
          · rw [hplain] at hnot
            cases hnot
          · exact absurd hrange.2 (Nat.not_lt.mpr hlarge)
  · simp only [hfits, false_and, iff_false]
    intro hexact
    have hsome := hexact.returns
    rw [hread] at hsome
    cases hsome

/-- The theorem on twelve coins and a half. -/
theorem readsExactly_iff_half :
    ReadsExactly "12.5".toList (KoinuArray.coinsToKoinuStr ("12.5".toList ++ [KoinuArray.nul])) ↔
      ReadsSafely "12.5".toList :=
  readsExactly_iff (by decide)

/-- One character behind a digit, and the digit is read as one koinu. -/
theorem not_readsExactly : ¬ ∀ array coins : List Char, cString KoinuArray.nul array = some coins →
    ReadsExactly coins (KoinuArray.coinsToKoinuStr array) := by
  intro hall
  have hexact := hall ("1x".toList ++ [KoinuArray.nul]) "1x".toList (by decide)
  have hother := hexact.other (Or.inl (by decide))
  revert hother
  decide

end Koinu

end Libdogecoin
