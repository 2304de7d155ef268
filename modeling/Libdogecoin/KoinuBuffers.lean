/-
# The two arrays of an amount

`coins_to_koinu_str` reads at most 22 characters through arrays of 21 and of 9. Without a point, 21
characters leave no place for the terminator and 22 do not fit. At a point the next eight places are
filled with zeros, and they are in the array as long as at most 13 characters stand in front of the
point.

* `isSome_coinsToKoinuStr_iff` : an amount has a result when no store leaves the arrays;
* `readsInBounds_iff` : the strings for which this is so.
-/
import Libdogecoin.KoinuStrings

namespace Libdogecoin

namespace KoinuArray

open CharArray
open Koinu (FitsString wholeCoins coinsToKoinuStr_cases)

/-- The string `s` at `coins` is read through the two arrays. Either it is refused before they are
written, or every store is into one of them, they are as long as before, and both hold a
terminator. -/
def ReadsInBounds (coins s : List Char) : Prop :=
  s.head? = some '-' ∨ checkLength s = 0 ∨
    ∃ i dogecoinString koinuString,
      wholeLoop coins (checkLength s) 0 (List.replicate 21 nul) = some (i, dogecoinString) ∧
      koinuPart coins i (checkLength s) = some koinuString ∧
      (dogecoinString.length = 21 ∧ nul ∈ dogecoinString) ∧
      koinuString.length = 9 ∧ nul ∈ koinuString

/-! ## The arrays stay as long as they are -/

variable {coins array s : List Char}

theorem length_wholeLoop {array' : List Char} {n i k : ℕ}
    (h : wholeLoop coins n i array = some (k, array')) :
    array'.length = array.length := by
  induction n generalizing i array with
  | zero =>
    cases h
    rfl
  | succ n ih =>
    rw [wholeLoop_succ] at h
    obtain ⟨c, -, h⟩ := Option.bind_eq_some_iff.mp h
    obtain ⟨stored, hstored, h⟩ := Option.bind_eq_some_iff.mp h
    rw [← length_store hstored]
    split at h
    · -- the point: eight zeros, and the terminator on the first of them
      obtain ⟨zeros, hzeros, h⟩ := Option.bind_eq_some_iff.mp h
      obtain ⟨last, hlast, h⟩ := Option.bind_eq_some_iff.mp h
      cases h
      rw [length_store hlast, length_storeLoop hzeros]
    · exact ih h

theorem length_koinuPart {koinuString : List Char} {i length : ℕ}
    (h : koinuPart coins i length = some koinuString) : koinuString.length = 9 := by
  unfold koinuPart at h
  dsimp only at h
  obtain ⟨copied, hcopied, h⟩ := Option.bind_eq_some_iff.mp h
  have hnine : copied.length = 9 := by
    rw [length_storeLoop hcopied, List.length_replicate]
  split at h
  · rw [length_storeLoop h, hnine]
  · obtain ⟨s, -, h⟩ := Option.bind_eq_some_iff.mp h
    rw [length_store h, hnine]

/-- A terminated array is a string. -/
theorem cString_of_mem (h : nul ∈ array) :
    cString nul array = some (array.takeWhile (· ≠ nul)) := if_pos h

theorem mem_of_cString (h : cString nul array = some s) : nul ∈ array := by
  obtain ⟨-, post, rfl⟩ := exists_of_cString h
  exact List.mem_append_right _ List.mem_cons_self

/-! ## Where an amount has a result -/

/-- The first character is the minus sign of the string, if it has one. -/
theorem exists_first (h : cString nul coins = some s) :
    ∃ first, coins[0]? = some first ∧ (first = '-' ↔ s.head? = some '-') := by
  obtain ⟨-, post, rfl⟩ := exists_of_cString h
  cases s with
  | nil => exact ⟨nul, rfl, by decide⟩
  | cons c s => exact ⟨c, rfl, by rw [List.head?_cons, Option.some.injEq]⟩

/-- **A result stands for stores inside of the arrays.** -/
theorem isSome_coinsToKoinuStr_iff (h : cString nul coins = some s) :
    (coinsToKoinuStr coins).isSome ↔ ReadsInBounds coins s := by
  obtain ⟨first, hfirst, hminus⟩ := exists_first h
  unfold coinsToKoinuStr ReadsInBounds
  simp only [Option.bind_eq_bind]
  rw [hfirst, Option.bind_some]
  by_cases hsign : first = '-'
  · rw [if_pos hsign]
    exact iff_of_true rfl (Or.inl (hminus.mp hsign))
  rw [if_neg hsign, h, Option.bind_some]
  by_cases hzero : checkLength s = 0
  · rw [if_pos hzero]
    exact iff_of_true rfl (Or.inr (Or.inl hzero))
  rw [if_neg hzero]
  constructor
  · intro hsome
    obtain ⟨koinu, hkoinu⟩ := Option.isSome_iff_exists.mp hsome
    obtain ⟨⟨i, dogecoinString⟩, hwhole, hkoinu⟩ := Option.bind_eq_some_iff.mp hkoinu
    obtain ⟨koinuString, hpart, hkoinu⟩ := Option.bind_eq_some_iff.mp hkoinu
    obtain ⟨w, hw, hkoinu⟩ := Option.bind_eq_some_iff.mp hkoinu
    obtain ⟨p, hp, -⟩ := Option.bind_eq_some_iff.mp hkoinu
    have hlen := length_wholeLoop hwhole
    rw [List.length_replicate] at hlen
    exact Or.inr (Or.inr ⟨i, dogecoinString, koinuString, hwhole, hpart, ⟨hlen, mem_of_cString hw⟩,
      length_koinuPart hpart, mem_of_cString hp⟩)
  · rintro (hhead | hnot | ⟨i, dogecoinString, koinuString, hwhole, hpart, ⟨-, hw⟩, -, hp⟩)
    · exact absurd (hminus.mpr hhead) hsign
    · exact absurd hnot hzero
    · rw [hwhole, Option.bind_some]
      dsimp only
      rw [hpart, Option.bind_some, cString_of_mem hw, Option.bind_some, cString_of_mem hp]
      rfl

/-- **The arrays of an amount.** A string that passes the check of its length is read through them
if it starts with a minus or is empty, or at most 13 characters stand in front of its point, or it
has no point and at most 20 characters. -/
theorem readsInBounds_iff {coins s : List Char} (h : cString nul coins = some s)
    (hpass : s.length ≤ 22) :
    ReadsInBounds coins s ↔
      s.head? = some '-' ∨ s = [] ∨
        if '.' ∈ s then (s.takeWhile (· ≠ '.')).length ≤ 13 else s.length ≤ 20 := by
  rw [← isSome_coinsToKoinuStr_iff h, coinsToKoinuStr_eq h]
  -- without a point the whole string stands in front of it
  have hfits : FitsString s ↔
      if '.' ∈ s then (s.takeWhile (· ≠ '.')).length ≤ 13 else s.length ≤ 20 := by
    unfold FitsString wholeCoins
    by_cases hpoint : '.' ∈ s
    · rw [if_pos hpoint, if_pos hpoint]
    · have hall : s.takeWhile (· ≠ '.') = s := by
        rw [List.takeWhile_eq_self_iff]
        exact fun c hc => decide_eq_true fun heq => hpoint (heq ▸ hc)
      rw [if_neg hpoint, if_neg hpoint, hall]
  rw [← hfits]
  rcases coinsToKoinuStr_cases s with ⟨hskip, hread⟩ | ⟨hlook, hread⟩
  · rw [hread]
    refine iff_of_true rfl ?_
    rcases hskip with hhead | hnil | hlong
    · exact Or.inl hhead
    · exact Or.inr (Or.inl hnil)
    · omega
  · simp only [not_or] at hlook
    obtain ⟨hhead, hnil, -⟩ := hlook
    simp only [hhead, hnil, false_or]
    rcases hread with ⟨hin, hread⟩ | ⟨hout, hread⟩
    · rw [hread]
      exact iff_of_true rfl hin
    · rw [hread]
      exact iff_of_false Bool.false_ne_true hout

/-- The theorem on thirteen digits in front of a point, the most there can be. -/
theorem readsInBounds_iff_thirteen :
    ReadsInBounds ("1234567890123.5".toList ++ [nul]) "1234567890123.5".toList ↔
      "1234567890123.5".toList.head? = some '-' ∨ "1234567890123.5".toList = [] ∨
        if '.' ∈ "1234567890123.5".toList then
          ("1234567890123.5".toList.takeWhile (· ≠ '.')).length ≤ 13
        else "1234567890123.5".toList.length ≤ 20 :=
  readsInBounds_iff (by decide) (by decide)

/-- With fourteen digits in front of a point the last zero goes behind the array. -/
theorem not_readsInBounds : ¬ ∀ coins s : List Char, cString nul coins = some s → s.length ≤ 22 →
    ReadsInBounds coins s := by
  intro hall
  have hread := hall ("12345678901234.5".toList ++ [nul]) "12345678901234.5".toList
    (by decide) (by decide)
  rw [← isSome_coinsToKoinuStr_iff (by decide)] at hread
  revert hread
  decide

end KoinuArray

end Libdogecoin
