/-
# Amounts as strings in arrays

`koinu.c` on its character arrays: the digits are written from the last one on, the point is placed
by hand in two ways, and an amount is read through two arrays of 21 and of 9 characters. A store
outside of an array has no result.

* `koinuToCoinsStr_eq` : what stands in the array is the string of the amount;
* `coinsToKoinuStr_eq` : the arrays of the reader hold the two parts of a string;
* `coinsToKoinuStr_of_written` : every amount that is written is read back.
-/
import Libdogecoin.CharArray
import Libdogecoin.Koinu

namespace Libdogecoin

namespace KoinuArray

open CharArray
open Koinu (validateConversion splitCoins addCoins digits_string length_string_le)

/-! ## Writing -/

def KOINU_COINS_STR_MIN_LEN : ℕ := 11
def KOINU_COINS_STR_MAX_LEN : ℕ := 22

/-- The terminator of a string. -/
def nul : Char := Char.ofNat 0

/-- `calc_length`. -/
def calcLength (x : ℕ) : ℕ := if 0 < x then calcLength (x / 10) + 1 else 0

/-- The loop of `string` : the last digit goes to the last place that is left. -/
def stringLoop : ℕ → ℕ → List Char → Option (List Char)
  | 0, _, output => some output
  | place + 1, input, output => do
      let output ← store output place (Char.ofNat (input % 10 + 48))
      stringLoop place (input / 10) output

/-- `string`. -/
def string (input : ℕ) (output : List Char) : Option (List Char) := do
  let length := calcLength input
  let output ← stringLoop length input output
  store output length nul

/-- `koinu_coins_str_required_size`. -/
def koinuCoinsStrRequiredSize (koinu : UInt64) : ℕ :=
  let length := calcLength koinu.toNat
  if length < 9 then KOINU_COINS_STR_MIN_LEN else length + 2

/-- One turn of the loop over the places in front of fewer than nine digits. The point is written
twice. -/
def zeroChar (str : List Char) (i : ℕ) : Option (List Char) :=
  if i = 0 ∨ i = 1 then do
    let str ← store str 0 '0'
    store str 1 '.'
  else store str i '0'

/-- One turn of the loop over at least nine digits, with the point behind the one at `target`. -/
def placeChar (tmp : List Char) (target : ℕ) (str : List Char) (i : ℕ) : Option (List Char) := do
  let c ← tmp[i]?
  if i < target then store str i c
  else if i = target then do
    let str ← store str i c
    store str (i + 1) '.'
  else store str (i + 1) c

/-- Fewer than nine digits: they are written, moved behind the eight places, and zeros go in
front. -/
def writeShort (koinu : UInt64) (length : ℕ) (str : List Char) : Option (List Char) := do
  let target := 10 - length
  let str ← string koinu.toNat str
  let l := (← cString nul str).length
  let swap := str.take (l + 1)
  let str ← (List.range target).foldlM zeroChar str
  let str ← storeLoop target (fun j => swap[j]?) (10 - target) str
  store str 10 nul

/-- At least nine digits: they are written elsewhere, and copied around the point. -/
def writeLong (koinu : UInt64) (length : ℕ) (str : List Char) : Option (List Char) := do
  let target := length - 9
  let tmp ← string koinu.toNat (List.replicate KOINU_COINS_STR_MAX_LEN nul)
  let str ← (List.range length).foldlM (placeChar tmp target) str
  store str (length + 1) nul

/-- `koinu_to_coins_str` into the `str_size` characters at `str` : `some none` where it returns
`false`, which it does before anything is written. -/
def koinuToCoinsStr (koinu : UInt64) (str : Option (List Char)) : Option (Option (List Char)) :=
  if validateConversion koinu none ≠ .success then some none
  else
    match str with
    | none => some none
    | some str =>
      if str.length < koinuCoinsStrRequiredSize koinu then some none
      else
        let length := calcLength koinu.toNat
        if length < 9 then (writeShort koinu length str).map some
        else (writeLong koinu length str).map some

/-! ## Reading -/

/-- `check_length`. -/
def checkLength (s : List Char) : ℕ := if s.length > 22 then 0 else s.length

/-- The loop that fills `dogecoin_string` up to the point, which gets eight zeros and then the
terminator: how many characters are read, and the array. -/
def wholeLoop (coins : List Char) : ℕ → ℕ → List Char → Option (ℕ × List Char)
  | 0, i, dogecoinString => some (i, dogecoinString)
  | n + 1, i, dogecoinString => do
      let c ← coins[i]?
      let dogecoinString ← store dogecoinString i c
      if c = '.' then do
        let dogecoinString ← storeLoop i (fun _ => some '0') 8 dogecoinString
        let dogecoinString ← store dogecoinString i nul
        some (i + 1, dogecoinString)
      else wholeLoop coins n (i + 1) dogecoinString

/-- `koinu_string` : up to eight characters from `i` on, and zeros for those that are missing. -/
def koinuPart (coins : List Char) (i length : ℕ) : Option (List Char) := do
  let mantissaLength := min (length - i) 8
  let koinuString ← storeLoop 0 (fun j => coins[i + j]?) mantissaLength (List.replicate 9 nul)
  if mantissaLength ≠ 8 then
    storeLoop mantissaLength (fun _ => some '0') (8 - mantissaLength) koinuString
  else do
    let s ← cString nul koinuString
    store koinuString s.length nul

/-- `coins_to_koinu_str` of the string at `coins`. -/
def coinsToKoinuStr (coins : List Char) : Option UInt64 := do
  let first ← coins[0]?
  if first = '-' then some 0
  else
    let length := checkLength (← cString nul coins)
    if length = 0 then some 0
    else do
      let (i, dogecoinString) ← wholeLoop coins length 0 (List.replicate 21 nul)
      let koinuString ← koinuPart coins i length
      let dogecoinString ← cString nul dogecoinString
      let koinuString ← cString nul koinuString
      some (addCoins dogecoinString koinuString)

/-! ## Digits in an array -/

theorem calcLength_zero : calcLength 0 = 0 := by
  unfold calcLength
  rfl

variable {x : ℕ} {old s ds str coins : List Char} {koinu : UInt64}

theorem calcLength_of_pos (h : 0 < x) : calcLength x = calcLength (x / 10) + 1 := by
  conv_lhs => unfold calcLength
  rw [if_pos h]

/-- The last digit stands behind the others. -/
theorem string_of_pos (h : 0 < x) :
    Koinu.string x = Koinu.string (x / 10) ++ [Char.ofNat (x % 10 + 48)] := by
  have hdigit : ∀ d < 10, Nat.digitChar d = Char.ofNat (d + 48) := by decide
  unfold Koinu.string
  rw [if_neg (by omega), Nat.toDigits_eq_if (by decide), ← hdigit _ (Nat.mod_lt x (by decide))]
  by_cases hsmall : x < 10
  · rw [if_pos hsmall, if_pos (by omega), Nat.mod_eq_of_lt hsmall, List.nil_append]
  · rw [if_neg hsmall, if_neg (by omega)]

theorem calcLength_eq (x : ℕ) : calcLength x = (Koinu.string x).length := by
  induction x using Nat.strongRecOn with
  | ind x ih =>
    rcases Nat.eq_zero_or_pos x with rfl | hpos
    · rw [calcLength_zero]
      rfl
    · rw [calcLength_of_pos hpos, string_of_pos hpos, ih (x / 10) (by omega), List.length_append,
        List.length_singleton]

/-- The digits replace as many characters. -/
theorem stringLoop_eq (hlen : old.length = calcLength x) (post : List Char) :
    stringLoop (calcLength x) x (old ++ post) = some (Koinu.string x ++ post) := by
  induction x using Nat.strongRecOn generalizing old post with
  | ind x ih =>
    rcases Nat.eq_zero_or_pos x with rfl | hpos
    · rw [calcLength_zero] at hlen ⊢
      rw [List.length_eq_zero_iff.mp hlen]
      rfl
    · rw [calcLength_of_pos hpos] at hlen ⊢
      obtain ⟨front, last, rfl⟩ := (List.eq_nil_or_concat' old).resolve_left
        (List.ne_nil_of_length_pos (by omega))
      rw [List.length_append, List.length_singleton] at hlen
      have hfront : front.length = calcLength (x / 10) := by omega
      have hstore := store_block front post last (Char.ofNat (x % 10 + 48))
      rw [hfront] at hstore
      unfold stringLoop
      rw [List.append_assoc, List.singleton_append, hstore]
      show stringLoop (calcLength (x / 10)) (x / 10) (front ++ _ :: post) = _
      rw [ih (x / 10) (by omega) hfront, string_of_pos hpos, List.append_assoc,
        List.singleton_append]

/-- `string` writes the digits and the terminator. -/
theorem string_eq (hlen : old.length = (Koinu.string x).length) (z : Char) (post : List Char) :
    string x (old ++ z :: post) = some (Koinu.string x ++ nul :: post) := by
  rw [← calcLength_eq] at hlen
  unfold string
  dsimp only
  rw [stringLoop_eq hlen]
  show store _ (calcLength x) nul = _
  rw [calcLength_eq, store_block]

theorem nul_notMem_string (x : ℕ) : nul ∉ Koinu.string x := fun h =>
  absurd (digits_string x nul h) (by decide)

/-! ## The two layouts -/

/-- Eight places and two, with the point between them. -/
theorem zeroChar_loop (a b : Char) (mid post : List Char) :
    (List.range (2 + mid.length)).foldlM zeroChar (a :: b :: mid ++ post) =
      some ('0' :: '.' :: List.replicate mid.length '0' ++ post) := by
  have hmid : mid.length = (List.replicate mid.length '0').length := List.length_replicate.symm
  have hzeros := storeLoop_block ['0', '.'] post (fun _ => some '0') hmid
    (fun j hj => (List.getElem?_replicate_of_lt (by rwa [List.length_replicate] at hj)).symm)
  rw [List.length_replicate] at hzeros
  rw [List.range_add, List.foldlM_append]
  show ((List.range mid.length).map (2 + ·)).foldlM zeroChar ('0' :: '.' :: mid ++ post) = _
  rw [List.foldlM_map]
  refine (foldlM_eq_storeLoop 2 (fun _ => some '0') ?_ _).trans hzeros
  intro j _ array
  unfold zeroChar
  rw [if_neg (by omega)]
  rfl

/-- The point stands between the two parts of the digits. -/
theorem placeChar_loop {front back low : List Char} (c x y : Char) (tail post : List Char)
    (hold : old.length = front.length) (hlow : low.length = back.length) :
    (List.range (front.length + 1 + back.length)).foldlM
        (placeChar (front ++ c :: back ++ tail) front.length) (old ++ x :: y :: low ++ post) =
      some (front ++ c :: '.' :: back ++ post) := by
  have hbefore : (List.range front.length).foldlM
    (placeChar (front ++ c :: back ++ tail) front.length)
      (old ++ x :: y :: low ++ post) = some (front ++ x :: y :: low ++ post) := by
    have hblock := storeLoop_block [] (x :: y :: low ++ post) (fun j => front[j]?) hold
      (fun _ _ => rfl)
    rw [foldlM_eq_storeLoop 0 fun j => front[j]?]
    · simpa using hblock
    · intro j hj array
      unfold placeChar
      rw [List.append_assoc, List.getElem?_append_left hj, Nat.zero_add]
      simp only [if_pos hj]
      rfl
  have hafter : ((List.range back.length).map (front.length + 1 + ·)).foldlM
      (placeChar (front ++ c :: back ++ tail) front.length) (front ++ c :: '.' :: low ++ post) =
        some (front ++ c :: '.' :: back ++ post) := by
    have hblock := storeLoop_block (front ++ [c, '.']) post (fun j => back[j]?) hlow
      (fun _ _ => rfl)
    rw [List.foldlM_map, foldlM_eq_storeLoop (front.length + 2) fun j => back[j]?]
    · simpa using hblock
    · intro j hj array
      have hread : (front ++ c :: back ++ tail)[front.length + 1 + j]? = back[j]? := by
        rw [List.append_assoc, List.getElem?_append_right (by omega),
          show front.length + 1 + j - front.length = j + 1 by omega, List.cons_append,
          List.getElem?_cons_succ, List.getElem?_append_left hj]
      unfold placeChar
      rw [hread]
      simp only [if_neg (show ¬ front.length + 1 + j < front.length by omega),
        if_neg (show ¬ front.length + 1 + j = front.length by omega),
        show front.length + 1 + j + 1 = front.length + 2 + j by omega]
      rfl
  -- the turn at the point stores two characters
  have hpoint : placeChar (front ++ c :: back ++ tail) front.length (front ++ x :: y :: low ++ post)
      front.length = some (front ++ c :: '.' :: low ++ post) := by
    have hread : (front ++ c :: back ++ tail)[front.length]? = some c := by
      rw [List.append_assoc, List.getElem?_append_right (Nat.le_refl _), Nat.sub_self]
      rfl
    have hsecond := store_block (front ++ [c]) (low ++ post) y '.'
    unfold placeChar
    rw [hread]
    simp only [if_neg (Nat.lt_irrefl front.length)]
    show (store (front ++ x :: y :: low ++ post) front.length c).bind _ = _
    rw [List.append_assoc, List.cons_append, store_block]
    simpa using hsecond
  rw [List.range_add, List.range_succ, List.foldlM_append, List.foldlM_append, hbefore]
  show ((List.foldlM (placeChar (front ++ c :: back ++ tail) front.length) (front ++ x ::
    y :: low ++ post) [front.length]).bind _) = _
  rw [List.foldlM_cons, hpoint]
  exact hafter

theorem koinuCoinsStrRequiredSize_eq (koinu : UInt64) :
    koinuCoinsStrRequiredSize koinu = Koinu.koinuCoinsStrRequiredSize koinu := by
  unfold koinuCoinsStrRequiredSize Koinu.koinuCoinsStrRequiredSize
  rw [calcLength_eq]
  rfl

/-- Zeros and the point in front of fewer than nine digits. -/
theorem writeShort_eq (hds : Koinu.string koinu.toNat = ds) (hshort : ds.length < 9)
    (hsize : 11 ≤ str.length) :
    writeShort koinu ds.length str =
      some ('0' :: '.' :: (List.replicate (8 - ds.length) '0' ++ ds) ++ nul :: str.drop 11) := by
  obtain ⟨old, z, post, rfl, hold⟩ := exists_place (show ds.length < str.length by omega)
  have hnul : nul ∉ ds := hds ▸ nul_notMem_string koinu.toNat
  have hwritten := string_eq (hds ▸ hold) z post
  rw [hds] at hwritten
  -- eleven places are written again, and what stands behind them is not
  rw [List.length_append, List.length_cons] at hsize
  obtain ⟨front, z', rest, hplaces, hfront⟩ := exists_place
    (show 10 < (ds ++ nul :: post).length by rw [List.length_append, List.length_cons]; omega)
  have hrest : rest = (old ++ z :: post).drop 11 := by
    have hdrop := congrArg (List.drop 11) hplaces
    rw [drop_place _ _ _ (by omega), drop_place _ _ _ (by omega), hfront] at hdrop
    rw [drop_place _ _ _ (by omega), hold, hdrop]
    rfl
  obtain ⟨a, b, inner, rfl⟩ : ∃ a b inner, front = a :: b :: inner := by
    obtain ⟨a, tail, rfl⟩ := List.exists_cons_of_length_pos (show 0 < front.length by omega)
    rw [List.length_cons] at hfront
    obtain ⟨b, inner, rfl⟩ := List.exists_cons_of_length_pos (show 0 < tail.length by omega)
    exact ⟨a, b, inner, rfl⟩
  rw [List.length_cons, List.length_cons] at hfront
  have hmid : (inner.take (8 - ds.length)).length = 8 - ds.length := by
    rw [List.length_take]
    omega
  have hlow : (inner.drop (8 - ds.length)).length = ds.length := by
    rw [List.length_drop]
    omega
  have hzeros := zeroChar_loop a b (inner.take (8 - ds.length))
    (inner.drop (8 - ds.length) ++ z' :: rest)
  rw [hmid, show 2 + (8 - ds.length) = 10 - ds.length by omega,
    show a :: b :: inner.take (8 - ds.length) ++ (inner.drop (8 - ds.length) ++ z' :: rest) =
      ds ++ nul :: post by rw [hplaces]; simp [← List.append_assoc]] at hzeros
  have hcopy := storeLoop_block ('0' :: '.' :: List.replicate (8 - ds.length) '0') (z' :: rest)
    (fun j => ((ds ++ nul :: post).take (ds.length + 1))[j]?) hlow fun j hj => by
      rw [List.getElem?_take_of_lt (by omega), List.getElem?_append_left hj]
  have hend := store_block ('0' :: '.' :: List.replicate (8 - ds.length) '0' ++ ds) rest z' nul
  have hten : ('0' :: '.' :: List.replicate (8 - ds.length) '0').length = 10 - ds.length := by
    rw [List.length_cons, List.length_cons, List.length_replicate]
    omega
  rw [List.length_append, hten, show 10 - ds.length + ds.length = 10 by omega] at hend
  rw [hten] at hcopy
  unfold writeShort
  dsimp only
  simp only [Option.bind_eq_bind]
  rw [hwritten, Option.bind_some, cString_terminated hnul, Option.bind_some, hzeros,
    Option.bind_some, show 10 - (10 - ds.length) = ds.length by
      omega, ← List.append_assoc, hcopy, Option.bind_some, hend, hrest]
  rfl

/-- The point between the last nine digits and the others. -/
theorem writeLong_eq (hds : Koinu.string koinu.toNat = ds) (hlong : ¬ ds.length < 9)
    (hsize : ds.length + 2 ≤ str.length) :
    writeLong koinu ds.length str =
      some (ds.take (ds.length - 8) ++ '.' :: ds.drop (ds.length - 8) ++ nul ::
        str.drop (ds.length + 2)) := by
  have hle : ds.length ≤ 20 := hds ▸ length_string_le koinu
  have hwritten : string koinu.toNat (List.replicate KOINU_COINS_STR_MAX_LEN nul) =
      some (ds ++ nul :: List.replicate (21 - ds.length) nul) := by
    have hsplit : List.replicate KOINU_COINS_STR_MAX_LEN nul =
        List.replicate ds.length nul ++ nul :: List.replicate (21 - ds.length) nul := by
      rw [← List.replicate_succ, List.replicate_append_replicate]
      congr 1
      unfold KOINU_COINS_STR_MAX_LEN
      omega
    rw [hsplit, string_eq (by rw [List.length_replicate, hds]), hds]
  obtain ⟨front, c, back, hplaces, hfront⟩ := exists_place (show ds.length - 9 < ds.length by omega)
  obtain ⟨body, z, rest, rfl, hbody⟩ := exists_place (show ds.length + 1 < str.length by omega)
  obtain ⟨old, x, low', rfl, hold⟩ := exists_place (show ds.length - 9 < body.length by omega)
  rw [List.length_append, List.length_cons] at hbody
  obtain ⟨y, low, rfl⟩ := List.exists_cons_of_length_pos (show 0 < low'.length by omega)
  rw [List.length_cons] at hbody
  have hlen := congrArg List.length hplaces
  rw [List.length_append, List.length_cons] at hlen
  have hback : back.length = 8 := by omega
  have htake : ds.take (ds.length - 8) = front ++ [c] := by
    have happ : ds = (front ++ [c]) ++ back := by rw [hplaces]; simp
    have hcut : ds.length - 8 = (front ++ [c]).length := by
      rw [List.length_append, List.length_singleton]
      omega
    rw [hcut, happ, List.take_left]
  have hdrop : ds.drop (ds.length - 8) = back := by
    have hcut := drop_place front back c (show front.length < ds.length - 8 by omega)
    rw [← hplaces, hfront, show ds.length - 8 - (ds.length - 9 + 1) = 0 by omega] at hcut
    exact hcut
  have hpoint := placeChar_loop c x y (nul :: List.replicate (21 - ds.length) nul) (z :: rest)
    (show old.length = front.length by omega) (show low.length = back.length by omega)
  rw [show front.length + 1 + back.length = ds.length by omega, ← hplaces, hfront] at hpoint
  have hend := store_block (front ++ c :: '.' :: back) rest z nul
  rw [List.length_append, List.length_cons, List.length_cons,
    show front.length + (back.length + 1 + 1) = ds.length + 1 by omega] at hend
  have hrest : (old ++ x :: y :: low ++ z :: rest).drop (ds.length + 2) = rest := by
    have hbehind : (old ++ x :: y :: low).length = ds.length + 1 := by
      rw [List.length_append, List.length_cons, List.length_cons]
      omega
    rw [drop_place _ _ _ (by omega), hbehind, Nat.sub_self]
    rfl
  unfold writeLong
  dsimp only
  simp only [Option.bind_eq_bind]
  rw [hwritten, Option.bind_some, hpoint, Option.bind_some, hend, htake, hdrop, hrest]
  simp

/-- The characters of an amount are digits and a point. -/
theorem nul_notMem_of_written {strSize : ℕ} (h : Koinu.koinuToCoinsStr koinu strSize = some coins) :
    nul ∉ coins := by
  have hstring := nul_notMem_string koinu.toNat
  unfold Koinu.koinuToCoinsStr at h
  dsimp only at h
  split_ifs at h with hinvalid hsize hshort
  all_goals obtain rfl := Option.some.inj h
  · simp only [List.mem_cons, List.mem_append, not_or]
    refine ⟨by decide, by decide, fun hzero => ?_, hstring⟩
    exact absurd (List.eq_of_mem_replicate hzero) (by decide)
  · simp only [List.mem_append, List.mem_cons, not_or]
    exact ⟨fun hfront => hstring (List.mem_of_mem_take hfront), by decide,
      fun hback => hstring (List.mem_of_mem_drop hback)⟩

/-- **Writing an amount.** The array holds the string, its terminator and what stood behind them. -/
theorem koinuToCoinsStr_eq (koinu : UInt64) (str : List Char) :
    koinuToCoinsStr koinu (some str) =
      some ((Koinu.koinuToCoinsStr koinu str.length).map fun coins =>
        coins ++ nul :: str.drop (coins.length + 1)) := by
  unfold koinuToCoinsStr Koinu.koinuToCoinsStr
  by_cases hinvalid : validateConversion koinu none ≠ .success
  · rw [if_pos hinvalid, if_pos hinvalid]
    rfl
  rw [if_neg hinvalid, if_neg hinvalid, koinuCoinsStrRequiredSize_eq]
  dsimp only
  by_cases hsize : str.length < Koinu.koinuCoinsStrRequiredSize koinu
  · rw [if_pos hsize, if_pos hsize]
    rfl
  rw [if_neg hsize, if_neg hsize, calcLength_eq]
  unfold Koinu.koinuCoinsStrRequiredSize at hsize
  dsimp only at hsize
  by_cases hshort : (Koinu.string koinu.toNat).length < 9
  · rw [if_pos hshort] at hsize ⊢
    rw [if_pos hshort, writeShort_eq rfl hshort (by omega)]
    simp only [Option.map_some]
    rw [show ('0' :: '.' :: (List.replicate (8 - (Koinu.string koinu.toNat).length) '0' ++
      Koinu.string koinu.toNat)).length + 1 = 11 by
        rw [List.length_cons, List.length_cons, List.length_append, List.length_replicate]
        omega]
  · rw [if_neg hshort] at hsize ⊢
    rw [if_neg hshort, writeLong_eq rfl hshort (by omega)]
    simp only [Option.map_some]
    rw [show ((Koinu.string koinu.toNat).take ((Koinu.string koinu.toNat).length - 8) ++
      '.' :: (Koinu.string koinu.toNat).drop ((Koinu.string koinu.toNat).length - 8)).length + 1 =
        (Koinu.string koinu.toNat).length + 2 by
          rw [List.length_append, List.length_cons, List.length_take, List.length_drop]
          omega]

/-! ## The parts of a string -/

theorem wholeLoop_succ (coins : List Char) (n i : ℕ) (array : List Char) :
    wholeLoop coins (n + 1) i array =
      (coins[i]?).bind fun c => (store array i c).bind fun array =>
        if c = '.' then
          (storeLoop i (fun _ => some '0') 8 array).bind fun array =>
            (store array i nul).bind fun array => some (i + 1, array)
        else wholeLoop coins n (i + 1) array := rfl

/-- The loop in front of the point copies characters, as long as they fit. -/
theorem wholeLoop_append {coins : List Char} {pre w post : List Char} (n : ℕ)
    (hcoins : coins = pre ++ w ++ post) (hpoint : '.' ∉ w) (hfits : pre.length ≤ 21) :
    wholeLoop coins (w.length + n) pre.length (pre ++ List.replicate (21 - pre.length) nul) =
      if (pre ++ w).length ≤ 21 then
        wholeLoop coins n (pre ++ w).length
          (pre ++ w ++ List.replicate (21 - (pre ++ w).length) nul)
      else none := by
  induction w generalizing pre with
  | nil =>
    rw [List.append_nil, if_pos hfits, List.length_nil, Nat.zero_add]
  | cons c w ih =>
    have hread : coins[pre.length]? = some c := by
      rw [hcoins, List.append_assoc, List.getElem?_append_right (Nat.le_refl _), Nat.sub_self]
      rfl
    have hlong : (pre ++ c :: w).length = pre.length + (w.length + 1) := by
      rw [List.length_append, List.length_cons]
    rw [List.length_cons, Nat.add_right_comm]
    rw [wholeLoop_succ, hread, Option.bind_some]
    by_cases hroom : pre.length < 21
    · have hblank : List.replicate (21 - pre.length) nul =
          nul :: List.replicate (21 - (pre ++ [c]).length) nul := by
        rw [← List.replicate_succ, List.length_append, List.length_singleton]
        congr 1
        omega
      have hstep := @ih (pre ++ [c]) (by rw [hcoins]; simp) (fun h =>
        hpoint (List.mem_cons_of_mem c h))
        (by rw [List.length_append, List.length_singleton]; omega)
      rw [hblank, store_block, Option.bind_some, if_neg fun hc : c = '.' =>
        hpoint (hc ▸ List.mem_cons_self)]
      rw [List.append_assoc pre [c] w, List.singleton_append, List.append_assoc pre [c],
        List.singleton_append] at hstep
      have hnext : (pre ++ [c]).length = pre.length + 1 := by
        rw [List.length_append, List.length_singleton]
      rw [hnext] at hstep ⊢
      exact hstep
    · rw [store_eq_none (by rw [List.length_append, List.length_replicate]; omega),
        Option.bind_none, if_neg (by omega)]

/-- At the point, the next eight places must be in the array. -/
theorem wholeLoop_point {coins w post : List Char} (n : ℕ) (hcoins : coins = w ++ '.' :: post)
    (hfits : w.length ≤ 21) :
    wholeLoop coins (n + 1) w.length (w ++ List.replicate (21 - w.length) nul) =
      if w.length + 8 ≤ 21 then
        some (w.length + 1, w ++ nul ::
          (List.replicate 7 '0' ++ List.replicate (13 - w.length) nul))
      else none := by
  have hread : coins[w.length]? = some '.' := by
    rw [hcoins, List.getElem?_append_right (Nat.le_refl _), Nat.sub_self]
    rfl
  rw [wholeLoop_succ, hread, Option.bind_some]
  by_cases hroom : w.length < 21
  · have hblank : List.replicate (21 - w.length) nul = nul ::
      List.replicate (20 - w.length) nul := by
      rw [← List.replicate_succ]
      congr 1
      omega
    rw [hblank, store_block, Option.bind_some, if_pos rfl]
    by_cases hzeros : w.length + 8 ≤ 21
    · have hsplit : w ++ '.' :: List.replicate (20 - w.length) nul =
          w ++ '.' :: List.replicate 7 nul ++ List.replicate (13 - w.length) nul := by
        rw [List.append_assoc, List.cons_append, List.replicate_append_replicate]
        congr 4
        omega
      have hloop := @storeLoop_block _ w (List.replicate (13 - w.length) nul) (fun _ => some '0')
        ('.' :: List.replicate 7 nul) (List.replicate 8 '0') rfl
        (fun j hj => (List.getElem?_replicate_of_lt (by rwa [List.length_replicate] at hj)).symm)
      have hstore := store_block w (List.replicate 7 '0' ++
        List.replicate (13 - w.length) nul) '0' nul
      rw [List.length_replicate] at hloop
      rw [hsplit, hloop, Option.bind_some, List.append_assoc, List.replicate_succ,
        List.cons_append, hstore, if_pos hzeros]
      rfl
    · have hlen : (w ++ '.' :: List.replicate (20 - w.length) nul).length < w.length + 8 := by
        rw [List.length_append, List.length_cons, List.length_replicate]
        omega
      rw [storeLoop_eq_none _ (by decide) hlen, Option.bind_none, if_neg hzeros]
  · rw [store_eq_none (by rw [List.length_append, List.length_replicate]; omega), Option.bind_none,
      if_neg (by omega)]

/-- **The first array.** It holds what stands in front of the point, and the rest is read on. -/
theorem wholeLoop_eq (hnul : nul ∉ s) (post : List Char) :
    ((wholeLoop (s ++ nul :: post) s.length 0 (List.replicate 21 nul)).bind fun read =>
        (cString nul read.2).map fun w => (w, s.drop read.1)) = splitCoins s := by
  by_cases hpoint : '.' ∈ s
  · obtain ⟨w, rest, rfl, hw⟩ := List.eq_append_cons_of_mem hpoint
    have hnulw : nul ∉ w := fun h => hnul (List.mem_append_left _ h)
    have hpos : ∀ c ∈ w, decide (c ≠ '.') = true :=
      fun c hc => decide_eq_true fun heq => hw (heq ▸ hc)
    have hfront : (w ++ '.' :: rest).takeWhile (· ≠ '.') = w := by
      rw [List.takeWhile_append_of_pos hpos, List.takeWhile_cons_of_neg (by simp), List.append_nil]
    have hback : (w ++ '.' :: rest).dropWhile (· ≠ '.') = '.' :: rest := by
      rw [List.dropWhile_append_of_pos hpos, List.dropWhile_cons_of_neg (by simp)]
    have hcoins : w ++ '.' :: rest ++ nul :: post =
      [] ++ w ++ ('.' :: rest ++ nul :: post) := by simp
    have hloop := wholeLoop_append (rest.length + 1) hcoins hw (Nat.zero_le _)
    have hturn := @wholeLoop_point (w ++ '.' :: rest ++ nul :: post) w (rest ++ nul ::
      post) rest.length (by simp)
    have hsplit : splitCoins (w ++ '.' :: rest) = if w.length + 8 > 21 then none else
      some (w, rest) := by
      unfold splitCoins
      rw [hfront, hback]
    rw [List.nil_append, List.length_nil, List.nil_append] at hloop
    rw [hsplit, List.length_append, List.length_cons]
    show (wholeLoop _ (w.length + (rest.length + 1)) 0 (List.replicate (21 - 0) nul)).bind _ = _
    rw [hloop]
    by_cases hroom : w.length + 8 ≤ 21
    · rw [if_pos (by omega), hturn (by omega), if_pos hroom, if_neg (by omega), Option.bind_some,
        cString_terminated hnulw, Option.map_some, drop_place _ _ _ (Nat.lt_succ_self _),
          Nat.sub_self]
      rfl
    · rw [if_pos (show w.length + 8 > 21 by omega)]
      by_cases hfits : w.length ≤ 21
      · rw [if_pos hfits, hturn hfits, if_neg hroom, Option.bind_none]
      · rw [if_neg hfits, Option.bind_none]
  · have hfront : s.takeWhile (· ≠ '.') = s := by
      rw [List.takeWhile_eq_self_iff]
      exact fun c hc => decide_eq_true fun heq => hpoint (heq ▸ hc)
    have hback : s.dropWhile (· ≠ '.') = [] := by
      rw [List.dropWhile_eq_nil_iff]
      exact fun c hc => decide_eq_true fun heq => hpoint (heq ▸ hc)
    have hsplit : splitCoins s = if s.length ≥ 21 then none else some (s, []) := by
      unfold splitCoins
      rw [hfront, hback]
    have hloop := @wholeLoop_append (s ++ nul :: post) [] s (nul ::
      post) 0 rfl hpoint (Nat.zero_le _)
    rw [List.nil_append, List.length_nil, List.nil_append] at hloop
    rw [hsplit]
    show (wholeLoop _ (s.length + 0) 0 (List.replicate (21 - 0) nul)).bind _ = _
    rw [hloop]
    by_cases hroom : s.length < 21
    · obtain ⟨k, hk⟩ : ∃ k, 21 - s.length = k + 1 := ⟨20 - s.length, by omega⟩
      rw [if_pos (by omega), if_neg (by omega), hk, List.replicate_succ]
      show (cString nul (s ++ nul :: _)).map _ = _
      rw [cString_terminated hnul, Option.map_some, List.drop_length]
    · rw [if_pos (show s.length ≥ 21 by omega)]
      by_cases hfull : s.length = 21
      · -- twenty-one characters leave no place for the terminator
        rw [if_pos (by omega), hfull]
        show (cString nul (s ++ [])).map _ = _
        rw [List.append_nil, cString_eq_none hnul, Option.map_none]
      · rw [if_neg (by omega), Option.bind_none]

/-- **The second array.** Eight digits of the rest, or as many as there are and zeros. -/
theorem koinuPart_eq (hnul : nul ∉ s) (post : List Char) (i : ℕ) :
    ((koinuPart (s ++ nul :: post) i s.length).bind (cString nul)) =
      some ((s.drop i).take 8 ++ List.replicate (8 - ((s.drop i).take 8).length) '0') := by
  obtain ⟨m, hm⟩ : ∃ m, m = (s.drop i).take 8 := ⟨_, rfl⟩
  have hlen : m.length = min (s.length - i) 8 := by
    rw [hm, List.length_take, List.length_drop, Nat.min_comm]
  have hle : m.length ≤ 8 := by omega
  have hnulm : nul ∉ m := fun h => hnul (List.mem_of_mem_drop (List.mem_of_mem_take (hm ▸ h)))
  have hread : ∀ j < m.length, (s ++ nul :: post)[i + j]? = m[j]? := by
    intro j hj
    rw [hm, List.getElem?_take_of_lt (by omega), List.getElem?_drop,
      List.getElem?_append_left (by omega)]
  have hcopy := @storeLoop_block _ [] (List.replicate (9 - m.length) nul)
    (fun j => (s ++ nul :: post)[i + j]?) (List.replicate m.length nul) m
      List.length_replicate hread
  rw [List.nil_append, List.replicate_append_replicate, List.nil_append,
    show m.length + (9 - m.length) = 9 by omega] at hcopy
  unfold koinuPart
  dsimp only
  simp only [Option.bind_eq_bind]
  rw [← hlen, ← hm]
  show ((storeLoop 0 _ m.length (List.replicate 9 nul)).bind _).bind _ = _
  rw [show storeLoop 0 _ m.length (List.replicate 9 nul) = some _ from hcopy, Option.bind_some]
  by_cases hfull : m.length = 8
  · rw [if_neg (not_not.mpr hfull), hfull]
    show ((cString nul (m ++ nul :: [])).bind _).bind _ = _
    rw [cString_terminated hnulm, Option.bind_some]
    show (store (m ++ nul :: []) m.length nul).bind _ = _
    rw [store_block, Option.bind_some, cString_terminated hnulm]
    simp
  · have hzeros := @storeLoop_block _ m [nul] (fun _ => some '0')
      (List.replicate (8 - m.length) nul)
      (List.replicate (8 - m.length) '0') (by rw [List.length_replicate, List.length_replicate])
      (fun j hj => (List.getElem?_replicate_of_lt (by rwa [List.length_replicate] at hj)).symm)
    have hblank : List.replicate (9 - m.length) nul =
      List.replicate (8 - m.length) nul ++ [nul] := by
      rw [← List.replicate_succ']
      congr 1
      omega
    have hnulz : nul ∉ m ++ List.replicate (8 - m.length) '0' := by
      rw [List.mem_append]
      rintro (h | h)
      · exact hnulm h
      · exact absurd (List.eq_of_mem_replicate h) (by decide)
    rw [List.length_replicate] at hzeros
    rw [if_pos hfull, hblank, ← List.append_assoc, hzeros, Option.bind_some,
      cString_terminated hnulz]

/-! ## The amount -/

/-- **Reading an amount.** The arrays read what the string says. -/
theorem coinsToKoinuStr_eq (h : cString nul coins = some s) :
    coinsToKoinuStr coins = Koinu.coinsToKoinuStr s := by
  have hcoins := h
  obtain ⟨hnul, post, rfl⟩ := exists_of_cString h
  have hfirst : ∃ first, (s ++ nul :: post)[0]? = some first ∧
    (first = '-' ↔ s.head? = some '-') := by
    cases s with
    | nil => exact ⟨nul, rfl, by decide⟩
    | cons c s => exact ⟨c, rfl, by rw [List.head?_cons, Option.some.injEq]⟩
  obtain ⟨first, hread, hminus⟩ := hfirst
  unfold coinsToKoinuStr Koinu.coinsToKoinuStr
  simp only [Option.bind_eq_bind]
  rw [hread, Option.bind_some]
  by_cases hsign : first = '-'
  · rw [if_pos hsign, if_pos (hminus.mp hsign)]
  rw [if_neg hsign, if_neg fun hhead => hsign (hminus.mpr hhead), hcoins, Option.bind_some]
  unfold checkLength
  by_cases hlong : s.length > 22 ∨ s.length = 0
  · have hzero : (if s.length > 22 then 0 else s.length) = 0 := by
      split
      · rfl
      · omega
    rw [if_pos hzero, if_pos hlong]
  rw [if_neg (show ¬ s.length > 22 by omega), if_neg (show ¬ s.length = 0 by omega), if_neg hlong,
    ← wholeLoop_eq hnul post]
  cases hwhole : wholeLoop (s ++ nul :: post) s.length 0 (List.replicate 21 nul) with
  | none => rfl
  | some read =>
    obtain ⟨i, dogecoinString⟩ := read
    obtain ⟨koinuString, hpart, hmantissa⟩ := Option.bind_eq_some_iff.mp (koinuPart_eq hnul post i)
    simp only [Option.bind_some]
    rw [hpart, Option.bind_some]
    cases hw : cString nul dogecoinString with
    | none => rfl
    | some w =>
      simp only [Option.bind_some, Option.map_some]
      rw [hmantissa, Option.bind_some]

/-- **Round trip of an amount.** What `koinu_to_coins_str` leaves in the array is read as the
amount, and neither of the two leaves its arrays. -/
theorem coinsToKoinuStr_of_written (koinu : UInt64) (str : Option (List Char)) :
    ∃ written, koinuToCoinsStr koinu str = some written ∧
      ∀ coins ∈ written, coinsToKoinuStr coins = some koinu := by
  cases str with
  | none =>
    refine ⟨none, ?_, by simp⟩
    unfold koinuToCoinsStr
    split <;> rfl
  | some str =>
    refine ⟨_, koinuToCoinsStr_eq koinu str, ?_⟩
    intro array harray
    obtain ⟨coins, hwritten, rfl⟩ := Option.map_eq_some_iff.mp harray
    have hread := Koinu.coinsToKoinuStr_koinuToCoinsStr hwritten
    have hnul : nul ∉ coins := nul_notMem_of_written hwritten
    rw [coinsToKoinuStr_eq (cString_terminated hnul _), hread]

end KoinuArray

end Libdogecoin
