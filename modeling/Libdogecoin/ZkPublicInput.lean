/-
# Public inputs

`dogecoin_zk_parse_public_input_be32` of `zk_carrier.c` : one of the quoted tokens of a text, as a
number in 32 bytes. The token is copied into 80 bytes, and one that does not fit is treated as if it
was not there.

* `scan_quotedTokens` : the tokens that are seen;
* `convert_of_fits`, `fits_of_convert` : the digits that are converted, and into what;
* `publicInput_iff` : the tokens that are parsed as they should be.
-/
import Libdogecoin.Base58
import Libdogecoin.ZkCarrier

namespace Libdogecoin

namespace ZkPublicInput

open ZkCarrier Radix

open Base58 (bytesValue bytes_lt)

/-- The double quote. -/
def quote : UInt8 := 0x22

/-- `sizeof(selected)`. -/
def SELECTED_SIZE : ℕ := 80

/-- What was seen of the tokens: the one that was asked for, if it fits, and their number. -/
structure Scan where
  selected : Option Bytes
  tokenCount : ℕ
  deriving DecidableEq

/-- The end of a token. -/
def endToken (idx : ℕ) (s : Scan) (token : Bytes) : Scan where
  selected := if s.tokenCount = idx ∧ token.length < SELECTED_SIZE then some token else s.selected
  tokenCount := s.tokenCount + 1

/-- The walk over the text, with the part of a token that was passed. A token that does not end is
dropped. -/
def scan (idx : ℕ) : Option Bytes → Scan → Bytes → Scan
  | _, s, [] => s
  | none, s, c :: rest => if c = quote then scan idx (some []) s rest else scan idx none s rest
  | some token, s, c :: rest =>
    if c = quote then scan idx none (endToken idx s token) rest
    else scan idx (some (token ++ [c])) s rest

/-- The inner loop of the conversion: the accumulator times ten and the carry, from the last byte to
the first. -/
def timesTen : Bytes → ℕ → Bytes × ℕ
  | [], carry => ([], carry)
  | b :: bs, carry =>
    let low := timesTen bs carry
    let v := b.toNat * 10 + low.2
    (UInt8.ofNat (v &&& 0xff) :: low.1, v >>> 8)

/-- The outer loop of the conversion. -/
def convert : Bytes → Bytes → Except ZkErr Bytes
  | [], out => .ok out
  | c :: cs, out =>
    if c < 0x30 ∨ c > 0x39 then .error .invalidArg
    else
      let next := timesTen out (c.toNat - 0x30)
      if next.2 ≠ 0 then .error .invalidArg else convert cs next.1

/-- What is made of the token that was selected. -/
def convertSelected : Option Bytes → Except ZkErr Bytes
  | none => .error .invalidArg
  | some selected => if selected.length = 0 then .error .invalidArg else
      convert selected (List.replicate 32 0)

/-- `dogecoin_zk_parse_public_input_be32`, with the number of tokens. -/
def parsePublicInputBe32 (publicInputs : Bytes) (idx : ℕ) : Except ZkErr Bytes × ℕ :=
  let s := scan idx none ⟨none, 0⟩ publicInputs
  (convertSelected s.selected, s.tokenCount)

/-! ## Tokens -/

/-- A text with its quoted tokens. Between them are no quotes: brackets, commas and blanks in a JSON
array. -/
inductive QuotedTokens : Bytes → List Bytes → Prop
  | nil {text : Bytes} : quote ∉ text → QuotedTokens text []
  | cons {before token text : Bytes} {tokens : List Bytes} : quote ∉ before → quote ∉ token →
      QuotedTokens text tokens → QuotedTokens (before ++ quote :: (token ++ quote :: text))
        (token :: tokens)

/-- Bytes between tokens are passed. -/
theorem scan_none_append (idx : ℕ) (s : Scan) {before : Bytes} (h : quote ∉ before) (text : Bytes) :
    scan idx none s (before ++ text) = scan idx none s text := by
  induction before with
  | nil => rfl
  | cons c before ih =>
    rw [List.mem_cons, not_or] at h
    rw [List.cons_append, scan, if_neg (Ne.symm h.1), ih h.2]

/-- Bytes of a token are put behind the ones before. -/
theorem scan_some_append (idx : ℕ) (s : Scan) {more : Bytes} (h : quote ∉ more)
    (token text : Bytes) :
    scan idx (some token) s (more ++ text) = scan idx (some (token ++ more)) s text := by
  induction more generalizing token with
  | nil => rw [List.nil_append, List.append_nil]
  | cons c more ih =>
    rw [List.mem_cons, not_or] at h
    rw [List.cons_append, scan, if_neg (Ne.symm h.1), ih h.2, List.append_assoc,
      List.singleton_append]

variable {text out token : Bytes} {tokens : List Bytes} {idx : ℕ} {s : Scan}

/-- **The tokens that are seen.** -/
theorem scan_quotedTokens (h : QuotedTokens text tokens) (idx : ℕ) (s : Scan) :
    scan idx none s text = tokens.foldl (endToken idx) s := by
  induction h generalizing s with
  | nil hnot =>
    have hpass := scan_none_append idx s hnot []
    rw [List.append_nil] at hpass
    exact hpass
  | cons hbefore htoken _ ih =>
    rw [scan_none_append idx s hbefore, scan, if_pos rfl, scan_some_append idx s htoken,
      List.nil_append, scan, if_pos rfl, ih, List.foldl_cons]

theorem tokenCount_foldl (idx : ℕ) (tokens : List Bytes) (s : Scan) :
    (tokens.foldl (endToken idx) s).tokenCount = s.tokenCount + tokens.length := by
  induction tokens generalizing s with
  | nil => rfl
  | cons token tokens ih =>
    rw [List.foldl_cons, ih, List.length_cons]
    show s.tokenCount + 1 + tokens.length = _
    omega

/-- Behind the token that was asked for, nothing is selected. -/
theorem selected_foldl_of_lt (tokens : List Bytes) (h : idx < s.tokenCount) :
    (tokens.foldl (endToken idx) s).selected = s.selected := by
  induction tokens generalizing s with
  | nil => rfl
  | cons token tokens ih =>
    rw [List.foldl_cons, ih (Nat.lt_succ_of_lt h)]
    show (if s.tokenCount = idx ∧ token.length < SELECTED_SIZE then _ else s.selected) = _
    rw [if_neg (by omega)]

/-- The token that was asked for is selected if it fits. -/
theorem selected_foldl (tokens : List Bytes) (hnone : s.selected = none)
    (hle : s.tokenCount ≤ idx) :
    (tokens.foldl (endToken idx) s).selected =
      (tokens[idx - s.tokenCount]?).filter fun token => token.length < SELECTED_SIZE := by
  induction tokens generalizing s with
  | nil => exact hnone
  | cons token tokens ih =>
    rw [List.foldl_cons]
    rcases Nat.eq_or_lt_of_le hle with heq | hlt
    · rw [selected_foldl_of_lt tokens (by show idx < s.tokenCount + 1; omega), heq, Nat.sub_self,
        List.getElem?_cons_zero, Option.filter_some]
      show (if s.tokenCount = idx ∧ token.length < SELECTED_SIZE then
        some token else s.selected) = _
      simp only [heq, true_and, hnone, decide_eq_true_eq]
    · have hskip : (endToken idx s token).selected = none := by
        show (if s.tokenCount = idx ∧ token.length < SELECTED_SIZE then _ else s.selected) = none
        rw [if_neg (by omega), hnone]
      have hindex : idx - s.tokenCount = idx - (s.tokenCount + 1) + 1 := by omega
      rw [ih hskip hlt, hindex, List.getElem?_cons_succ]
      rfl

/-! ## Digits -/

/-- A string of decimal digits with at least one of them. -/
def IsDecimal (token : Bytes) : Prop := token ≠ [] ∧ ∀ c ∈ token, 0x30 ≤ c ∧ c ≤ 0x39

/-- What a string of decimal digits denotes. -/
def decimalValue (token : Bytes) : ℕ := value 10 (token.map fun c => c.toNat - 0x30)

/-- The inner loop is the schoolbook multiplication by ten. -/
theorem timesTen_eq_mulAdd (out : Bytes) (carry : ℕ) :
    (timesTen out carry).1.map UInt8.toNat = (mulAdd 256 10 (out.map UInt8.toNat) carry).1 ∧
      (timesTen out carry).2 = (mulAdd 256 10 (out.map UInt8.toNat) carry).2 := by
  induction out with
  | nil => exact ⟨rfl, rfl⟩
  | cons b out ih =>
    obtain ⟨hlow, hcarry⟩ := ih
    have hmask : ∀ n : ℕ, n &&& 0xff = n % 256 := fun n => Nat.and_two_pow_sub_one_eq_mod n 8
    rw [timesTen, List.map_cons, List.map_cons, mulAdd]
    dsimp only
    rw [hlow, hcarry, hmask, UInt8.toNat_ofNat', Nat.mod_mod, Nat.shiftRight_eq_div_pow,
      Nat.mul_comm b.toNat 10]
    exact ⟨rfl, rfl⟩

theorem length_timesTen (out : Bytes) (carry : ℕ) : (timesTen out carry).1.length = out.length := by
  have h := congrArg List.length (timesTen_eq_mulAdd out carry).1
  rw [List.length_map, length_mulAdd, List.length_map] at h
  exact h

/-- What is carried out of the accumulator. -/
theorem timesTen_carry (out : Bytes) (carry : ℕ) :
    (timesTen out carry).2 = (10 * bytesValue out + carry) / 256 ^ out.length := by
  rw [(timesTen_eq_mulAdd out carry).2, mulAdd_carry (by decide), List.length_map]
  rfl

/-- What the accumulator holds, where nothing is carried out of it. -/
theorem bytesValue_timesTen {carry : ℕ} (h : (timesTen out carry).2 = 0) :
    bytesValue (timesTen out carry).1 = 10 * bytesValue out + carry := by
  have hvalue := @value_mulAdd 256 10 (out.map UInt8.toNat) carry
  rw [← (timesTen_eq_mulAdd out carry).2, h, Nat.zero_mul, Nat.zero_add,
    ← (timesTen_eq_mulAdd out carry).1] at hvalue
  exact hvalue

theorem decimalValue_cons (c : UInt8) (cs : Bytes) :
    decimalValue (c :: cs) = (c.toNat - 0x30) * 10 ^ cs.length + decimalValue cs := by
  unfold decimalValue
  rw [List.map_cons, value_cons, List.length_map]

theorem bytesValue_lt (out : Bytes) : bytesValue out < 256 ^ out.length := by
  have h := value_lt (show 1 < 256 by decide) (bytes_lt out)
  rwa [List.length_map] at h

/-- **Digits that have room are converted.** -/
theorem convert_of_fits {token : Bytes} (hdigits : ∀ c ∈ token, 0x30 ≤ c ∧ c ≤ 0x39) {out : Bytes}
    (hroom : bytesValue out * 10 ^ token.length + decimalValue token < 256 ^ out.length) :
    ∃ result, convert token out = .ok result ∧ result.length = out.length ∧
      bytesValue result = bytesValue out * 10 ^ token.length + decimalValue token := by
  induction token generalizing out with
  | nil => exact ⟨out, rfl, rfl, by rw [List.length_nil, pow_zero, Nat.mul_one]; rfl⟩
  | cons c token ih =>
    obtain ⟨hlow, hhigh⟩ := hdigits c List.mem_cons_self
    have hdigit : ¬ (c < 0x30 ∨ c > 0x39) :=
      not_or.mpr ⟨UInt8.not_lt.mpr hlow, UInt8.not_lt.mpr hhigh⟩
    -- the digit makes ten times the number and itself
    have hsplit : bytesValue out * 10 ^ (c :: token).length + decimalValue (c :: token) =
        (10 * bytesValue out + (c.toNat - 0x30)) * 10 ^ token.length + decimalValue token := by
      rw [decimalValue_cons, List.length_cons, pow_succ]
      ring
    rw [hsplit] at hroom
    -- what has room in the end has room before, so nothing is carried out here
    have hfits : 10 * bytesValue out + (c.toNat - 0x30) < 256 ^ out.length := by
      have hpow : 0 < 10 ^ token.length := Nat.pow_pos (by decide)
      have hmul := Nat.le_mul_of_pos_right (10 * bytesValue out + (c.toNat - 0x30)) hpow
      omega
    have hcarry : (timesTen out (c.toNat - 0x30)).2 =
      0 := by rw [timesTen_carry, Nat.div_eq_of_lt hfits]
    have hvalue := bytesValue_timesTen hcarry
    rw [← hvalue, ← length_timesTen out (c.toNat - 0x30)] at hroom
    obtain ⟨result, hconvert, hlen, hresult⟩ :=
      ih (fun x hx => hdigits x (List.mem_cons_of_mem _ hx)) hroom
    refine ⟨result, ?_, hlen.trans (length_timesTen out _), ?_⟩
    · rw [convert, if_neg hdigit]
      dsimp only
      rw [if_neg (not_not.mpr hcarry), hconvert]
    · rw [hresult, hvalue, hsplit]

/-- **What was converted are digits that have room.** -/
theorem fits_of_convert {result : Bytes} (h : convert token out = .ok result) :
    (∀ c ∈ token, 0x30 ≤ c ∧ c ≤ 0x39) ∧ bytesValue out * 10 ^ token.length + decimalValue token <
      256 ^ out.length := by
  induction token generalizing out with
  | nil =>
    refine ⟨fun c hc => absurd hc List.not_mem_nil, ?_⟩
    have hlt := bytesValue_lt out
    rw [List.length_nil, pow_zero, Nat.mul_one]
    exact hlt
  | cons c token ih =>
    rw [convert] at h
    dsimp only at h
    split_ifs at h with hdigit hcarry
    rw [not_not] at hcarry
    obtain ⟨hdigits, hroom⟩ := ih h
    rw [not_or] at hdigit
    rw [bytesValue_timesTen hcarry, length_timesTen] at hroom
    constructor
    · intro x hx
      rcases List.mem_cons.mp hx with rfl | hx
      · exact ⟨UInt8.not_lt.mp hdigit.1, UInt8.not_lt.mp hdigit.2⟩
      · exact hdigits x hx
    · rw [decimalValue_cons, List.length_cons, pow_succ]
      calc bytesValue out * (10 ^ token.length * 10) +
            ((c.toNat - 0x30) * 10 ^ token.length + decimalValue token)
          = (10 * bytesValue out + (c.toNat - 0x30)) * 10 ^ token.length +
            decimalValue token := by ring
        _ < 256 ^ out.length := hroom

/-! ## Parsing -/

theorem bytesValue_zeros : bytesValue (List.replicate 32 0) = 0 := by
  unfold bytesValue
  rw [List.map_replicate]
  exact value_replicate_zero 32

/-- The conversion of a token into an accumulator of zeros. -/
theorem convert_zeros_iff :
    (∃ out, convert token (List.replicate 32 0) = .ok out) ↔
      (∀ c ∈ token, 0x30 ≤ c ∧ c ≤ 0x39) ∧ decimalValue token < 2 ^ 256 := by
  have hpow : 256 ^ (List.replicate 32 (0 : UInt8)).length = 2 ^ 256 := by
    rw [List.length_replicate]
    decide +kernel
  constructor
  · rintro ⟨out, h⟩
    obtain ⟨hdigits, hroom⟩ := fits_of_convert h
    rw [bytesValue_zeros, Nat.zero_mul, Nat.zero_add, hpow] at hroom
    exact ⟨hdigits, hroom⟩
  · rintro ⟨hdigits, hroom⟩
    obtain ⟨out, h, -⟩ := @convert_of_fits token hdigits (List.replicate 32 0)
      (by rw [bytesValue_zeros, Nat.zero_mul, Nat.zero_add, hpow]; exact hroom)
    exact ⟨out, h⟩

theorem value_of_convert_zeros (h : convert token (List.replicate 32 0) = .ok out) :
    out.length = 32 ∧ bytesValue out = decimalValue token := by
  obtain ⟨hdigits, hroom⟩ := fits_of_convert h
  obtain ⟨result, hresult, hlen, hvalue⟩ := convert_of_fits hdigits hroom
  obtain rfl := Except.ok.inj (h.symm.trans hresult)
  rw [bytesValue_zeros, Nat.zero_mul, Nat.zero_add] at hvalue
  exact ⟨hlen.trans List.length_replicate, hvalue⟩

/-- A token of the list is decimal, with a value that has room in 32 bytes. -/
def Denotes (tokens : List Bytes) (idx : ℕ) (token : Bytes) : Prop :=
  tokens[idx]? = some token ∧ IsDecimal token ∧ decimalValue token < 2 ^ 256

/-- The token with the index is parsed if it is a number with room, into that number, and the tokens
are counted. -/
structure Parses (text : Bytes) (tokens : List Bytes) (idx : ℕ) : Prop where
  ok_iff : (∃ out, (parsePublicInputBe32 text idx).1 = .ok out) ↔ ∃ token, Denotes tokens idx token
  value : ∀ out token, (parsePublicInputBe32 text idx).1 = .ok out → tokens[idx]? = some token →
    out.length = 32 ∧ bytesValue out = decimalValue token
  count : (parsePublicInputBe32 text idx).2 = tokens.length

/-- What is parsed of a text: the token with the index, if it fits into its buffer. -/
theorem parse_quotedTokens (h : QuotedTokens text tokens) (idx : ℕ) :
    parsePublicInputBe32 text idx =
      (convertSelected ((tokens[idx]?).filter fun token => token.length < SELECTED_SIZE),
        tokens.length) := by
  have hselected := selected_foldl tokens (s := ⟨none, 0⟩) rfl (Nat.zero_le idx)
  rw [Nat.sub_zero] at hselected
  unfold parsePublicInputBe32
  dsimp only
  rw [scan_quotedTokens h, hselected, tokenCount_foldl, Nat.zero_add]

/-- A token that fits is parsed if it denotes a number with room. -/
theorem parse_ok_iff (h : QuotedTokens text tokens) (idx : ℕ) (out : Bytes) :
    (parsePublicInputBe32 text idx).1 = .ok out ↔ ∃ token, tokens[idx]? = some token ∧
    token.length < SELECTED_SIZE ∧
      token ≠ [] ∧ convert token (List.replicate 32 0) = .ok out := by
  rw [parse_quotedTokens h]
  cases htoken : tokens[idx]? with
  | none =>
    constructor
    · intro hok
      cases hok
    · rintro ⟨token, hsome, -⟩
      cases hsome
  | some token =>
    rw [Option.filter_some]
    by_cases hfits : token.length < SELECTED_SIZE
    · rw [if_pos (decide_eq_true hfits), convertSelected]
      by_cases hempty : token.length = 0
      · rw [if_pos hempty]
        constructor
        · intro hok
          cases hok
        · rintro ⟨token', hsome, -, hne, -⟩
          obtain rfl := Option.some.inj hsome
          exact absurd (List.eq_nil_of_length_eq_zero hempty) hne
      · rw [if_neg hempty]
        constructor
        · exact fun hok => ⟨token, rfl, hfits,
            List.ne_nil_of_length_pos (Nat.pos_of_ne_zero hempty), hok⟩
        · rintro ⟨token', hsome, -, -, hok⟩
          obtain rfl := Option.some.inj hsome
          exact hok
    · rw [if_neg fun htrue => hfits (of_decide_eq_true htrue)]
      constructor
      · intro hok
        cases hok
      · rintro ⟨token', hsome, hlt, -⟩
        obtain rfl := Option.some.inj hsome
        exact absurd hlt hfits

/-- **Public inputs.** A text is parsed as it should be unless the token with the index is a number
with room that is written with 80 digits or more. -/
theorem publicInput_iff {text : Bytes} {tokens : List Bytes} (h : QuotedTokens text tokens)
    (idx : ℕ) :
    Parses text tokens idx ↔ ∀ token, Denotes tokens idx token → token.length < SELECTED_SIZE := by
  constructor
  · rintro hparses token hdenotes
    obtain ⟨out, hok⟩ := hparses.ok_iff.mpr ⟨token, hdenotes⟩
    obtain ⟨token', hsome, hfits, -⟩ := (parse_ok_iff h idx out).mp hok
    obtain rfl := Option.some.inj (hdenotes.1.symm.trans hsome)
    exact hfits
  · intro hfits
    refine ⟨?_, ?_, ?_⟩
    · constructor
      · rintro ⟨out, hok⟩
        obtain ⟨token, hsome, -, hne, hconvert⟩ := (parse_ok_iff h idx out).mp hok
        obtain ⟨hdigits, hroom⟩ := convert_zeros_iff.mp ⟨out, hconvert⟩
        exact ⟨token, hsome, ⟨hne, hdigits⟩, hroom⟩
      · rintro ⟨token, hdenotes⟩
        obtain ⟨out, hconvert⟩ := convert_zeros_iff.mpr ⟨hdenotes.2.1.2, hdenotes.2.2⟩
        exact ⟨out, (parse_ok_iff h idx out).mpr ⟨token, hdenotes.1, hfits token hdenotes,
          hdenotes.2.1.1, hconvert⟩⟩
    · intro out token hok hsome
      obtain ⟨token', hsome', -, -, hconvert⟩ := (parse_ok_iff h idx out).mp hok
      obtain rfl := Option.some.inj (hsome.symm.trans hsome')
      exact value_of_convert_zeros hconvert
    · rw [parse_quotedTokens h]

/-- The array `["0","12"]`. -/
def sampleText : Bytes := [0x5b, 0x22, 0x30, 0x22, 0x2c, 0x22, 0x31, 0x32, 0x22, 0x5d]

theorem quotedTokens_sampleText : QuotedTokens sampleText [[0x30], [0x31, 0x32]] :=
  have hlast : QuotedTokens [0x5d] [] := .nil (by decide)
  have hsecond : QuotedTokens [0x2c, 0x22, 0x31, 0x32, 0x22, 0x5d] [[0x31, 0x32]] :=
    @QuotedTokens.cons [0x2c] [0x31, 0x32] _ _ (by decide) (by decide) hlast
  @QuotedTokens.cons [0x5b] [0x30] _ _ (by decide) (by decide) hsecond

theorem publicInput_iff_sample : Parses sampleText [[0x30], [0x31, 0x32]] 1 := by
  refine (publicInput_iff quotedTokens_sampleText 1).mpr ?_
  rintro token ⟨hsome, -⟩
  obtain rfl := Option.some.inj hsome
  decide

/-- An array whose only token is a zero that is written with 80 digits. -/
def longZero : Bytes := 0x5b :: 0x22 :: (List.replicate 80 0x30 ++ [0x22, 0x5d])

theorem quotedTokens_longZero : QuotedTokens longZero [List.replicate 80 0x30] :=
  have hlast : QuotedTokens [0x5d] [] := .nil (by decide)
  @QuotedTokens.cons [0x5b] (List.replicate 80 0x30) _ _ (by decide) (by decide) hlast

/-- It is not parsed. -/
theorem not_parses : ¬ ∀ text tokens idx, QuotedTokens text tokens → Parses text tokens idx := by
  intro h
  have hzero : decimalValue (List.replicate 80 0x30) = 0 := by decide +kernel
  have hdenotes : Denotes [List.replicate 80 0x30] 0 (List.replicate 80 0x30) :=
    ⟨rfl, ⟨by decide, by decide +kernel⟩, by rw [hzero]; exact Nat.two_pow_pos 256⟩
  obtain ⟨out, hok⟩ := (h longZero [List.replicate 80 0x30] 0 quotedTokens_longZero).ok_iff.mpr ⟨_,
    hdenotes⟩
  have herror : (parsePublicInputBe32 longZero 0).1.isOk = false := by decide +kernel
  rw [hok] at herror
  cases herror

end ZkPublicInput

end Libdogecoin
