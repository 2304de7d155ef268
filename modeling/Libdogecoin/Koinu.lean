/-
# Amounts as strings

`koinu.c` : an amount in koinu is written as a decimal string of coins, and read back. A string is
the list of its characters in front of the NUL.

* `coinsToKoinuStr_eq_some` : what is read from digits on both sides of a point;
* `coinsToKoinuStr_koinuToCoinsStr` : every amount that is written is read back.
-/
import Mathlib.Tactic.NormNum
import Mathlib.Tactic.Ring
import Libdogecoin.HdNode

namespace Libdogecoin

namespace Koinu

open HdNode (digits digits_toDigits)

/-! ## Conversions -/

/-- `conversion_type`, as far as it is returned. -/
inductive ConversionType where
  | success
  | nonDecimal
  | invalidStrTermination
  | overflow
  | underflow
  deriving DecidableEq

/-- `validate_conversion` on a number that was read from `src` up to `srcEnd`, or on a number alone.
The later findings replace the earlier ones. -/
def validateConversion (converted : UInt64) (read : Option (List Char × List Char)) :
    ConversionType :=
  if converted = 0xFFFFF511543FB600 then .underflow
  else if converted = 0xFFFFFFFFFFFFFFFF then .overflow
  else
    match read with
    | none => .success
    | some (src, srcEnd) =>
      if srcEnd ≠ [] then .invalidStrTermination
      else if srcEnd = src then .nonDecimal
      else .success

/-- `isspace`. -/
def isSpace (c : Char) : Bool := c ∈ [' ', '\t', '\n', '\u000b', '\u000c', '\r']

/-- `strtoull` with base 10 : the number, and the end of the part that was read. -/
def strtoull (s : List Char) : UInt64 × List Char :=
  let unsigned := match s.dropWhile isSpace with
    | '-' :: rest => rest
    | '+' :: rest => rest
    | rest => rest
  let negative := (s.dropWhile isSpace).head? = some '-'
  let ds := unsigned.takeWhile (· ∈ digits)
  if ds = [] then (0, s)
  else
    let n := Nat.ofDigitChars 10 ds 0
    let converted := if n ≥ 2 ^ 64 then 0xFFFFFFFFFFFFFFFF
      else if negative then -UInt64.ofNat n else UInt64.ofNat n
    (converted, unsigned.dropWhile (· ∈ digits))

/-- The digits that `string` writes, and that `calc_length` counts: none for zero. -/
def string (n : ℕ) : List Char := if n = 0 then [] else Nat.toDigits 10 n

/-- `koinu_coins_str_required_size`. -/
def koinuCoinsStrRequiredSize (koinu : UInt64) : ℕ :=
  let length := (string koinu.toNat).length
  if length < 9 then 11 else length + 2

/-- `koinu_to_coins_str` into a buffer of a size. -/
def koinuToCoinsStr (koinu : UInt64) (strSize : ℕ) : Option (List Char) :=
  if validateConversion koinu none ≠ .success then none
  else if strSize < koinuCoinsStrRequiredSize koinu then none
  else
    let digits := string koinu.toNat
    if digits.length < 9 then some ('0' :: '.' ::
      (List.replicate (8 - digits.length) '0' ++ digits))
    else some (digits.take (digits.length - 8) ++ '.' :: digits.drop (digits.length - 8))

/-- The part in front of the point and the part behind it. Nothing if the first does not fit into
`dogecoin_string`, where a point is followed by eight zeros first. -/
def splitCoins (coins : List Char) : Option (List Char × List Char) :=
  let dogecoinString := coins.takeWhile (· ≠ '.')
  match coins.dropWhile (· ≠ '.') with
  | [] => if dogecoinString.length ≥ 21 then none else some (dogecoinString, [])
  | _ :: rest => if dogecoinString.length + 8 > 21 then none else some (dogecoinString, rest)

/-- The two numbers, put together; zero if the sum is refused. -/
def addCoins (dogecoinString koinuString : List Char) : UInt64 :=
  let whole := strtoull dogecoinString
  let dogecoin := if validateConversion whole.1 (some (dogecoinString, whole.2)) = .success ∧
      dogecoinString.length ≤ 12 then whole.1 * 100000000 else whole.1
  let part := strtoull koinuString
  let koinu := part.1 + dogecoin
  if validateConversion koinu (some (koinuString, part.2)) = .success then koinu else 0

/-- `coins_to_koinu_str` : zero where it returns `false`, and nothing where it writes behind a
buffer. -/
def coinsToKoinuStr (coins : List Char) : Option UInt64 :=
  if coins.head? = some '-' then some 0
  else if coins.length > 22 ∨ coins.length = 0 then some 0
  else do
    let (dogecoinString, rest) ← splitCoins coins
    let mantissa := rest.take 8
    some (addCoins dogecoinString (mantissa ++ List.replicate (8 - mantissa.length) '0'))

/-! ## Reading digits -/

/-- The value of a list of digits. -/
def valueOf (ds : List Char) : ℕ := Nat.ofDigitChars 10 ds 0

theorem valueOf_append (as bs : List Char) :
    valueOf (as ++ bs) = valueOf as * 10 ^ bs.length + valueOf bs := by
  unfold valueOf
  rw [Nat.ofDigitChars_append, Nat.ofDigitChars_eq_ofDigitChars_zero]
  ring

theorem valueOf_string (n : ℕ) : valueOf (string n) = n := by
  unfold valueOf string
  split
  next h => rw [h, Nat.ofDigitChars_nil]
  · exact Nat.ofDigitChars_ten_toDigits

/-- A digit is below ten. -/
theorem valueOf_lt {ds : List Char} (h : ∀ c ∈ ds, c ∈ digits) : valueOf ds < 10 ^ ds.length := by
  induction ds with
  | nil =>
    show valueOf [] < 1
    decide
  | cons c ds ih =>
    have hc : valueOf [c] ≤ 9 := by
      have hall : digits.all (fun c => decide (valueOf [c] ≤ 9)) = true := by decide
      exact of_decide_eq_true (List.all_eq_true.mp hall c (h c List.mem_cons_self))
    have hrest := ih fun d hd => h d (List.mem_cons_of_mem c hd)
    calc valueOf (c :: ds) = valueOf [c] * 10 ^ ds.length + valueOf ds := valueOf_append [c] ds
      _ < 10 ^ (c :: ds).length := by
          rw [List.length_cons, pow_succ]
          nlinarith [Nat.mul_le_mul_right (10 ^ ds.length) hc]

theorem digits_string (n : ℕ) : ∀ c ∈ string n, c ∈ digits := by
  intro c hc
  unfold string at hc
  split at hc
  · cases hc
  · exact digits_toDigits c hc

/-- An amount has at most twenty digits. -/
theorem length_string_le (koinu : UInt64) : (string koinu.toNat).length ≤ 20 := by
  unfold string
  split
  · decide
  · exact (Nat.length_toDigits_le_iff (by decide) (by decide)).mpr
      (lt_of_lt_of_le koinu.toNat_lt (by decide))

/-- A text behind its blanks and its sign. -/
def unsignedPart (text : List Char) : List Char :=
  match text.dropWhile isSpace with
  | '-' :: rest => rest
  | '+' :: rest => rest
  | rest => rest

/-- The digits of the number that a text begins with. -/
def leadingDigits (text : List Char) : List Char := (unsignedPart text).takeWhile (· ∈ digits)

theorem strtoull_eq (text : List Char) : strtoull text =
    if leadingDigits text = [] then (0, text)
    else
      (if valueOf (leadingDigits text) ≥ 2 ^ 64 then 0xFFFFFFFFFFFFFFFF
        else if (text.dropWhile isSpace).head? = some '-' then
          -UInt64.ofNat (valueOf (leadingDigits text))
        else UInt64.ofNat (valueOf (leadingDigits text)),
        (unsignedPart text).dropWhile (· ∈ digits)) := rfl

/-- Digits have neither blanks nor a sign in front of them. -/
theorem leadingDigits_of_digits {text : List Char} (h : ∀ c ∈ text, c ∈ digits) :
    text.dropWhile isSpace = text ∧ unsignedPart text = text ∧ ¬ text.head? = some '-' ∧
      leadingDigits text = text := by
  have hplain : digits.all (fun c => decide (isSpace c = false ∧ c ≠ '-' ∧ c ≠ '+')) =
    true := by decide
  cases text with
  | nil => exact ⟨rfl, rfl, by decide, rfl⟩
  | cons c rest =>
    obtain ⟨hspace, hminus, hplus⟩ :=
      of_decide_eq_true (List.all_eq_true.mp hplain c (h c List.mem_cons_self))
    have hdrop : (c :: rest).dropWhile isSpace = c :: rest :=
      List.dropWhile_cons_of_neg (by rw [hspace]; exact Bool.false_ne_true)
    have hunsigned : unsignedPart (c :: rest) = c :: rest := by
      unfold unsignedPart
      rw [hdrop]
      split
      next heq => exact absurd (List.cons.inj heq).1 hminus
      next heq => exact absurd (List.cons.inj heq).1 hplus
      · rfl
    refine ⟨hdrop, hunsigned, by simpa using hminus, ?_⟩
    rw [leadingDigits, hunsigned]
    exact List.takeWhile_eq_self_iff.mpr fun d hd => decide_eq_true (h d hd)

/-- `strtoull` reads digits to their end. -/
theorem strtoull_of_digits {ds : List Char} (hne : ds ≠ []) (h : ∀ c ∈ ds, c ∈ digits)
    (hlt : valueOf ds < 2 ^ 64) : strtoull ds = (UInt64.ofNat (valueOf ds), []) := by
  obtain ⟨hdrop, hunsigned, hsign, hdigits⟩ := leadingDigits_of_digits h
  have hend : ds.dropWhile (· ∈ digits) = [] :=
    List.dropWhile_eq_nil_iff.mpr fun d hd => decide_eq_true (h d hd)
  rw [strtoull_eq, hdigits, if_neg hne, if_neg (Nat.not_le.mpr hlt), hdrop, if_neg hsign,
    hunsigned, hend]

/-- **Reading an amount.** Digits on both sides of a point, eight of them behind it. -/
theorem coinsToKoinuStr_eq_some {coins cents : List Char} {koinu : UInt64} (hne : coins ≠ [])
    (hcoins : ∀ c ∈ coins, c ∈ digits) (hlen : coins.length ≤ 12) (hcents : ∀ c ∈ cents, c ∈ digits)
    (height : cents.length = 8) (hvalue : valueOf coins * 10 ^ 8 + valueOf cents = koinu.toNat)
    (hvalid : validateConversion koinu none = .success) :
    coinsToKoinuStr (coins ++ '.' :: cents) = some koinu := by
  have hpoint : ∀ c ∈ digits, c ≠ '.' ∧ c ≠ '-' := by
    have hall : digits.all (fun c => decide (c ≠ '.' ∧ c ≠ '-')) = true := by decide
    exact fun c hc => of_decide_eq_true (List.all_eq_true.mp hall c hc)
  have hk := koinu.toNat_lt
  have hcoinslt : valueOf coins < 10 ^ 12 :=
    lt_of_lt_of_le (valueOf_lt hcoins) (Nat.pow_le_pow_right (by decide) hlen)
  have hcentslt : valueOf cents < 10 ^ 8 := height ▸ valueOf_lt hcents
  have hhead : ¬ (coins ++ '.' :: cents).head? = some '-' := by
    obtain ⟨c, rest, rfl⟩ := List.exists_cons_of_ne_nil hne
    simpa using (hpoint c (hcoins c List.mem_cons_self)).2
  have htotal : ¬ ((coins ++ '.' :: cents).length > 22 ∨ (coins ++ '.' :: cents).length = 0) := by
    rw [List.length_append, List.length_cons, height]
    omega
  have hsplit : splitCoins (coins ++ '.' :: cents) = some (coins, cents) := by
    have hpos : ∀ c ∈ coins, decide (c ≠ '.') = true := fun c hc =>
      decide_eq_true (hpoint c (hcoins c hc)).1
    unfold splitCoins
    rw [List.takeWhile_append_of_pos hpos, List.dropWhile_append_of_pos hpos]
    have htake : ('.' :: cents).takeWhile (· ≠ '.') = [] := rfl
    rw [htake, List.append_nil]
    show (if coins.length + 8 > 21 then none else some (coins, cents)) = _
    rw [if_neg (by omega)]
  have hcents_ne : cents ≠ [] := List.ne_nil_of_length_pos (by omega)
  have htake : cents.take 8 = cents := List.take_of_length_le (by omega)
  have hread : ∀ n < 2 ^ 64, (UInt64.ofNat n).toNat = n := fun n hn => UInt64.toNat_ofNat_of_lt' hn
  -- the whole coins are no value that is refused
  have hwhole : validateConversion (UInt64.ofNat (valueOf coins)) (some (coins, [])) =
    .success := by
    have hsmall : ∀ m : UInt64, m.toNat ≥ 10 ^ 12 → UInt64.ofNat (valueOf coins) ≠ m := by
      intro m hm heq
      have htoNat := hread (valueOf coins) (by omega)
      rw [heq] at htoNat
      omega
    unfold validateConversion
    rw [if_neg (hsmall _ (by decide)), if_neg (hsmall _ (by decide))]
    simp [hne.symm]
  have hsum : UInt64.ofNat (valueOf cents) + UInt64.ofNat (valueOf coins) * 100000000 = koinu := by
    apply UInt64.toNat_inj.mp
    rw [UInt64.toNat_add, UInt64.toNat_mul, hread _ (by omega), hread _ (by omega)]
    show (valueOf cents + valueOf coins * 100000000 % 2 ^ 64) % 2 ^ 64 = koinu.toNat
    omega
  have hcheck : validateConversion koinu (some (cents, [])) = .success := by
    unfold validateConversion at hvalid ⊢
    split_ifs at hvalid ⊢ with h1 h2
    simp [hcents_ne.symm]
  have hadd : addCoins coins cents = koinu := by
    unfold addCoins
    rw [strtoull_of_digits hne hcoins (by omega), strtoull_of_digits hcents_ne hcents (by omega)]
    have hshort : ConversionType.success = .success ∧ coins.length ≤ 12 := ⟨rfl, hlen⟩
    dsimp only
    rw [hwhole, if_pos hshort, hsum, hcheck, if_pos rfl]
  unfold coinsToKoinuStr
  rw [if_neg hhead, if_neg htotal, hsplit]
  show some (addCoins coins (cents.take 8 ++ List.replicate (8 - (cents.take 8).length) '0')) = _
  rw [htake, height, Nat.sub_self, List.replicate_zero, List.append_nil, hadd]

/-- **Round trip of an amount.** Every amount that is written is read back. -/
theorem coinsToKoinuStr_koinuToCoinsStr {koinu : UInt64} {strSize : ℕ} {coins : List Char}
    (h : koinuToCoinsStr koinu strSize = some coins) : coinsToKoinuStr coins = some koinu := by
  unfold koinuToCoinsStr at h
  dsimp only at h
  split_ifs at h with hinvalid hsize hshort
  all_goals obtain rfl := Option.some.inj h
  all_goals rw [not_not] at hinvalid
  · -- fewer than nine digits: all of them stand behind the point
    refine @coinsToKoinuStr_eq_some ['0'] _ _ (by decide)
      (List.forall_mem_singleton.mpr (by decide)) (by decide) ?_ ?_ ?_ hinvalid
    · intro c hc
      rcases List.mem_append.mp hc with hzero | hdigit
      · rw [List.eq_of_mem_replicate hzero]
        decide
      · exact digits_string _ c hdigit
    · rw [List.length_append, List.length_replicate]
      omega
    · have hzeros : valueOf (List.replicate (8 - (string koinu.toNat).length) '0') = 0 := by
        unfold valueOf
        rw [Nat.ofDigitChars_replicate_zero, Nat.mul_zero]
      rw [valueOf_append, hzeros, valueOf_string]
      show 0 * 10 ^ 8 + _ = _
      omega
  · have hlen : (string koinu.toNat).length ≤ 20 := length_string_le koinu
    refine coinsToKoinuStr_eq_some ?_ ?_ ?_ ?_ ?_ ?_ hinvalid
    · apply List.ne_nil_of_length_pos
      rw [List.length_take]
      omega
    · exact fun c hc => digits_string _ c (List.mem_of_mem_take hc)
    · rw [List.length_take]
      omega
    · exact fun c hc => digits_string _ c (List.mem_of_mem_drop hc)
    · rw [List.length_drop]
      omega
    · have happ := valueOf_append ((string koinu.toNat).take ((string koinu.toNat).length - 8))
        ((string koinu.toNat).drop ((string koinu.toNat).length - 8))
      have hcents : (string koinu.toNat).length - ((string koinu.toNat).length - 8) = 8 := by omega
      rw [List.take_append_drop, valueOf_string, List.length_drop, hcents] at happ
      exact happ.symm

/-- The two amounts that are refused are above the signed range. -/
theorem exists_koinuToCoinsStr {koinu : UInt64} (h : koinu.toNat < 2 ^ 63) :
    ∃ coins, koinuToCoinsStr koinu 22 = some coins := by
  have hlen : (string koinu.toNat).length ≤ 20 := length_string_le koinu
  have hsize : ¬ 22 < koinuCoinsStrRequiredSize koinu := by
    unfold koinuCoinsStrRequiredSize
    dsimp only
    split
    · decide
    · omega
  have hvalid : ¬ validateConversion koinu none ≠ .success := by
    have hsmall : ∀ m : UInt64, m.toNat ≥ 2 ^ 63 → koinu ≠ m := by
      rintro m hm rfl
      omega
    unfold validateConversion
    rw [if_neg (hsmall _ (by decide)), if_neg (hsmall _ (by decide))]
    exact fun hne => hne rfl
  unfold koinuToCoinsStr
  rw [if_neg hvalid, if_neg hsize]
  dsimp only
  split
  · exact ⟨_, rfl⟩
  · exact ⟨_, rfl⟩

end Koinu

end Libdogecoin
