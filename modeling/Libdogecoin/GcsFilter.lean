/-
# Block filters

The filters of `golomb.c`: the distinct elements are hashed into a range, and the differences of the
sorted hashes are Golomb-Rice coded.

* `matchValues_of_bits` : the decoding of sorted values up to one of them;
* `gcsFilterMatchAny_iff` : the walk over sorted queries finds what the single queries find;
* `noFalseNegatives_iff` : a filter that is built, written and read back has all its elements, for
  lists of fewer than 2^32 elements and no others.
-/
import Mathlib.Data.List.Sort
import Libdogecoin.GolombRice
import Libdogecoin.SipHash

namespace Libdogecoin

open BitString

/-- `GCS_BASIC_FILTER_P`. -/
def GCS_BASIC_FILTER_P : ℕ := 19

/-- `GCS_BASIC_FILTER_M`. -/
def GCS_BASIC_FILTER_M : UInt64 := 784931

/-- `gcs_filter`. -/
structure GcsFilter where
  filterType : UInt8
  N : UInt32
  F : UInt64
  P : ℕ
  M : UInt64
  key : Bytes
  encoded : Option Bytes

/-! ## Hashes -/

/-- `map_to_range`. -/
def mapToRange (x F : UInt64) : UInt64 :=
  let xHi := x >>> 32
  let xLo := x &&& 0xffffffff
  let fHi := F >>> 32
  let fLo := F &&& 0xffffffff
  let loLo := xLo * fLo
  let loHi := xLo * fHi
  let hiLo := xHi * fLo
  let hiHi := xHi * fHi
  let carry := ((loLo >>> 32) + (loHi &&& 0xffffffff) + (hiLo &&& 0xffffffff)) >>> 32
  hiHi + (loHi >>> 32) + (hiLo >>> 32) + carry

/-- `gcs_derive_key`. -/
def gcsDeriveKey (blockhash : Uint256) : Bytes := blockhash.1.take 16

/-- `gcs_hash_element`. -/
def gcsHashElement (key : Bytes) (F : UInt64) (data : Bytes) : UInt64 :=
  mapToRange (((Siphasher.set (getUint64 key 0) (getUint64 key 1)).hash data).finalize) F

/-! ## Elements -/

/-- `memcmp` on strings of one length. -/
def memcmp : Bytes → Bytes → Ordering
  | x :: xs, y :: ys => if x < y then .lt else if y < x then .gt else memcmp xs ys
  | _, _ => .eq

/-- `compare_element` : the shorter one first. -/
def compareElement (x y : Bytes) : Ordering :=
  if x.length ≠ y.length then if x.length < y.length then .lt else .gt else memcmp x y

/-- `qsort` with `compare_element`. Each entry of two or more is compared with another, which needs
them all. -/
def qsortElements (entries : List (Option Bytes)) : Option (List Bytes) :=
  if 2 ≤ entries.length ∧ none ∈ entries then none
  else some ((entries.filterMap id).mergeSort fun x y => (compareElement x y).isLE)

/-- The elements that are not the same as the last one that is kept. -/
def collapse : Option Bytes → List Bytes → List Bytes
  | _, [] => []
  | last, x :: xs =>
    if last.isNone || last.any fun y => compareElement y x ≠ .eq then x :: collapse (some x) xs
    else collapse last xs

/-- The differences of the hashes are encoded. -/
def encodeDeltas (P : ℕ) : GcsBitwriter → UInt64 → List UInt64 → GcsBitwriter
  | writer, _, [] => writer
  | writer, prev, hash :: hashes =>
    encodeDeltas P (golombRiceEncode writer (hash - prev) P) hash hashes

/-- The filter of distinct elements. -/
def encodeFilter (filterType : UInt8) (blockhash : Uint256) (distinct : List Bytes) : GcsFilter :=
  let N := UInt32.ofNat distinct.length
  let F := N.toUInt64 * GCS_BASIC_FILTER_M
  let hashes := (distinct.map (gcsHashElement (gcsDeriveKey blockhash) F)).mergeSort fun a b =>
    decide (a ≤ b)
  { filterType := filterType, N := N, F := F, P := GCS_BASIC_FILTER_P, M := GCS_BASIC_FILTER_M
    key := gcsDeriveKey blockhash
    encoded := some (encodeDeltas GCS_BASIC_FILTER_P GcsBitwriter.init 0 hashes).flush }

/-- `gcs_filter_build`. The loops over the elements have 32 bits, the array has all of them: the
entries that are not reached stay null, and without them there is no return from `qsort`. -/
def gcsFilterBuild (filterType : UInt8) (blockhash : Uint256) (elements : List Bytes) :
    Option GcsFilter :=
  if elements.length = 0 then
    some { filterType := filterType, N := 0, F := 0, P := GCS_BASIC_FILTER_P
           M := GCS_BASIC_FILTER_M, key := gcsDeriveKey blockhash, encoded := some [] }
  else
    let len := elements.length % 2 ^ 32
    (qsortElements ((elements.take len).map some ++
      List.replicate (elements.length - len) none)).map fun sorted =>
      encodeFilter filterType blockhash (collapse none (sorted.take len))

/-! ## Matching -/

/-- The loop of `gcs_filter_match` over the values. -/
def matchValues (P : ℕ) (target : UInt64) : ℕ → GcsBitreader → UInt64 → Bool
  | 0, _, _ => false
  | n + 1, reader, value =>
    match golombRiceDecode reader P with
    | none => false
    | some (delta, reader) =>
      if value + delta = target then true
      else if value + delta > target then false
      else matchValues P target n reader (value + delta)

/-- `gcs_filter_match`. -/
def gcsFilterMatch (filter : GcsFilter) (data : Bytes) : Bool :=
  match filter.encoded with
  | none => false
  | some encoded =>
    if filter.N = 0 then false
    else matchValues filter.P (gcsHashElement filter.key filter.F data) filter.N.toNat
      (GcsBitreader.init encoded) 0

/-- The loop of `gcs_filter_match_any` : values that are left in the filter, its current value, and
the queries from the current one on. -/
def matchAnyLoop (P : ℕ) (left : ℕ) (reader : GcsBitreader) (value : UInt64)
    (queries : List UInt64) : Bool :=
  match queries with
  | [] => false
  | query :: rest =>
    if value = query then true
    else if value < query then
      match left with
      | 0 => false
      | left + 1 =>
        match golombRiceDecode reader P with
        | none => false
        | some (delta, reader) => matchAnyLoop P left reader (value + delta) (query :: rest)
    else matchAnyLoop P left reader value rest
  termination_by left + queries.length

/-- `gcs_filter_match_any`. -/
def gcsFilterMatchAny (filter : GcsFilter) (elements : List Bytes) : Bool :=
  match filter.encoded with
  | none => false
  | some encoded =>
    if filter.N = 0 ∨ elements.length = 0 then false
    else
      let queryHashes := (elements.map (gcsHashElement filter.key filter.F)).mergeSort fun a b =>
        decide (a ≤ b)
      match golombRiceDecode (GcsBitreader.init encoded) filter.P with
      | none => false
      | some (delta, reader) => matchAnyLoop filter.P (filter.N.toNat - 1) reader
          (0 + delta) queryHashes

/-! ## The wire -/

/-- `gcs_filter_serialize`. -/
def gcsFilterSerialize (filter : GcsFilter) : Bytes := serVarlen filter.N ++ filter.encoded.getD []

/-- `gcs_filter_deserialize`, which takes the whole buffer. -/
def gcsFilterDeserialize (filterType : UInt8) (blockhash : Uint256) (buf : Bytes) :
    Option GcsFilter :=
  (deserVarlen buf).bind fun (N, rest) =>
    if N.toNat > rest.length * 8 / (GCS_BASIC_FILTER_P + 1) then none
    else some { filterType := filterType, N := N, F := N.toUInt64 * GCS_BASIC_FILTER_M
                P := GCS_BASIC_FILTER_P, M := GCS_BASIC_FILTER_M, key := gcsDeriveKey blockhash
                encoded := some rest }

/-! ## Range reduction -/

/-! ## Distinct elements -/

theorem eq_of_memcmp {x y : Bytes} (hlen : x.length = y.length) (h : memcmp x y = .eq) : x = y := by
  induction x generalizing y with
  | nil => exact (List.length_eq_zero_iff.mp hlen.symm).symm
  | cons a x ih =>
    cases y with
    | nil => cases hlen
    | cons b y =>
      rw [memcmp] at h
      split at h
      · cases h
      next hlt =>
        split at h
        · cases h
        next hgt =>
          rw [ih (Nat.succ.inj hlen) h, UInt8.le_antisymm (UInt8.not_lt.mp hgt)
            (UInt8.not_lt.mp hlt)]

theorem eq_of_compareElement {x y : Bytes} (h : compareElement x y = .eq) : x = y := by
  unfold compareElement at h
  split at h
  · split at h
    · cases h
    · cases h
  next hlen => exact eq_of_memcmp (not_not.mp hlen) h

/-- **No element is lost** : it is kept, or the last one that is kept is the same. -/
theorem mem_collapse {last : Option Bytes} {xs : List Bytes} {x : Bytes} (h : x ∈ xs) :
    x ∈ collapse last xs ∨ last = some x := by
  induction xs generalizing last with
  | nil => cases h
  | cons y ys ih =>
    rw [collapse]
    split
    next hkeep =>
      rcases List.mem_cons.mp h with rfl | hmem
      · exact Or.inl List.mem_cons_self
      · rcases @ih (some y) hmem with hrest | hlast
        · exact Or.inl (List.mem_cons_of_mem _ hrest)
        · rw [Option.some.inj hlast]
          exact Or.inl List.mem_cons_self
    next hskip =>
      rcases List.mem_cons.mp h with rfl | hmem
      · right
        cases last with
        | none => exact absurd rfl hskip
        | some last =>
          simp only [Option.isNone_some, Option.any_some, Bool.false_or, decide_eq_true_eq,
            not_not] at hskip
          rw [eq_of_compareElement hskip]
      · exact ih hmem

theorem length_collapse_le (last : Option Bytes) (xs : List Bytes) :
    (collapse last xs).length ≤ xs.length := by
  induction xs generalizing last with
  | nil => exact le_refl _
  | cons x xs ih =>
    rw [collapse, List.length_cons]
    split
    · rw [List.length_cons]
      exact Nat.succ_le_succ (ih _)
    · exact Nat.le_succ_of_le (ih _)

/-! ## Deltas -/

/-- The codes of the differences. -/
def deltaBits (P : ℕ) : UInt64 → List UInt64 → List Bool
  | _, [] => []
  | prev, hash :: hashes => riceBits P (hash - prev).toNat ++ deltaBits P hash hashes

variable {P : ℕ} {reader reader' : GcsBitreader} {delta value : UInt64} {queries : List UInt64}
  {elements : List Bytes}

theorem encodeDeltas_writes (hP : P < 64) {writer : GcsBitwriter} {bits : List Bool}
    (h : writer.Writes bits) (prev : UInt64) (hashes : List UInt64) :
    (encodeDeltas P writer prev hashes).Writes (bits ++ deltaBits P prev hashes) := by
  induction hashes generalizing writer bits prev with
  | nil =>
    rw [deltaBits, List.append_nil]
    exact h
  | cons hash hashes ih =>
    rw [deltaBits, ← List.append_assoc]
    exact ih (golombRiceEncode_writes h (hash - prev) hP) hash

/-- Each code has a stop bit and the bits of a remainder. -/
theorem length_deltaBits (P : ℕ) (prev : UInt64) (hashes : List UInt64) :
    hashes.length * (P + 1) ≤ (deltaBits P prev hashes).length := by
  induction hashes generalizing prev with
  | nil => exact Nat.le_of_eq (Nat.zero_mul _)
  | cons hash hashes ih =>
    have hrest := ih hash
    rw [deltaBits, List.length_append, List.length_cons, Nat.succ_mul, riceBits, List.length_append,
      List.length_replicate, List.length_cons, length_toBits, Nat.add_comm]
    exact Nat.add_le_add (Nat.le_add_left _ _) hrest

/-- **Matching** : the decoding of sorted values comes to each of them. -/
theorem matchValues_of_bits {P : ℕ} (hP : P < 64) {reader : GcsBitreader} {prev target : UInt64}
    {hashes : List UInt64} {rest : List Bool} (h : reader.bits = deltaBits P prev hashes ++ rest)
    (hlt : reader.nBits ≤ 8) (hsorted : hashes.Pairwise (· ≤ ·)) (hmem : target ∈ hashes) :
    matchValues P target hashes.length reader prev = true := by
  induction hashes generalizing reader prev with
  | nil => cases hmem
  | cons hash hashes ih =>
    rw [deltaBits, List.append_assoc] at h
    obtain ⟨reader', hdecode, hbits, hlt'⟩ := golombRiceDecode_of_bits hP h hlt
    have hvalue : prev + (hash - prev) = hash := by
      rw [UInt64.add_comm, UInt64.sub_add_cancel]
    rw [List.length_cons, matchValues, hdecode]
    dsimp only
    rw [hvalue]
    by_cases heq : hash = target
    · rw [if_pos heq]
    · rw [if_neg heq]
      have hmem' : target ∈ hashes := (List.mem_cons.mp hmem).resolve_left fun h => heq h.symm
      rw [List.pairwise_cons] at hsorted
      rw [if_neg (UInt64.not_lt.mpr (hsorted.1 target hmem'))]
      exact ih hbits hlt' hsorted.2 hmem'

/-! ## Several queries -/

/-- The loop of `gcs_filter_match` behind a value that is decoded. -/
def matchFrom (P : ℕ) (target : UInt64) (left : ℕ) (reader : GcsBitreader)
    (value : UInt64) : Bool :=
  if value = target then true
  else if value > target then false
  else matchValues P target left reader value

theorem matchValues_succ (h : golombRiceDecode reader P = some (delta, reader'))
    (target : UInt64) (n : ℕ) (value : UInt64) :
    matchValues P target (n + 1) reader value = matchFrom P target n reader' (value + delta) := by
  rw [matchValues, h]
  rfl

theorem matchValues_none (h : golombRiceDecode reader P = none) (target : UInt64) (n : ℕ)
    (value : UInt64) :
    matchValues P target n reader value = false := by
  cases n with
  | zero => rfl
  | succ n => rw [matchValues, h]

/-- A query above the value goes on to the next one. -/
theorem matchFrom_of_lt {target : UInt64} (h : value < target) (left : ℕ) (reader : GcsBitreader) :
    matchFrom P target left reader value = matchValues P target left reader value := by
  rw [matchFrom, if_neg (UInt64.ne_of_lt h), if_neg (UInt64.not_lt.mpr (UInt64.le_of_lt h))]

/-- A value below the first of the sorted queries is below all of them. -/
theorem any_matchFrom_of_lt {left : ℕ} {query : UInt64} {rest : List UInt64}
    (hsorted : (query :: rest).Pairwise (· ≤ ·)) (hlt : value < query) :
    ((query :: rest).any fun q => matchFrom P q left reader value) =
      (query :: rest).any fun q => matchValues P q left reader value := by
  have hall : ∀ q ∈ query :: rest, value < q := by
    intro q hq
    rcases List.mem_cons.mp hq with rfl | hq
    · exact hlt
    · exact UInt64.lt_of_lt_of_le hlt ((List.pairwise_cons.mp hsorted).1 q hq)
  rw [Bool.eq_iff_iff, List.any_eq_true, List.any_eq_true]
  apply exists_congr
  intro q
  apply and_congr_right
  intro hq
  rw [matchFrom_of_lt (hall q hq)]

/-- `qsort` with `compare_uint64`. -/
theorem pairwise_mergeSort_le (hashes : List UInt64) :
    (hashes.mergeSort fun a b => decide (a ≤ b)).Pairwise (· ≤ ·) := by
  have hsorted := @List.pairwise_mergeSort _ (fun a b : UInt64 => decide (a ≤ b))
    (fun a b c hab hbc => by
      rw [decide_eq_true_iff] at hab hbc ⊢
      exact UInt64.le_trans hab hbc)
    (fun a b => by
      rw [Bool.or_eq_true, decide_eq_true_iff, decide_eq_true_iff]
      exact UInt64.le_total a b) hashes
  exact hsorted.imp fun hle => of_decide_eq_true hle

/-- **The walk over the queries** finds what each of them would find from the current value on. A
query is left when the value is above it, and a value when it is below all the queries that are not
left. -/
theorem matchAnyLoop_eq (P left : ℕ) (reader : GcsBitreader) (value : UInt64)
    (hsorted : queries.Pairwise (· ≤ ·)) :
    matchAnyLoop P left reader value queries =
      queries.any fun query => matchFrom P query left reader value := by
  induction left, reader, value, queries using matchAnyLoop.induct P with
  | case1 left reader value => rw [matchAnyLoop, List.any_nil]
  | case2 left reader value rest =>
    have hfound : matchFrom P value left reader value = true := by rw [matchFrom, if_pos rfl]
    rw [matchAnyLoop.eq_def]
    dsimp only
    rw [if_pos rfl, List.any_cons, hfound, Bool.true_or]
  | case3 reader value query rest hne hlt =>
    -- no value is left for any query
    rw [matchAnyLoop.eq_def]
    dsimp only
    rw [if_neg hne, if_pos hlt, any_matchFrom_of_lt hsorted hlt]
    exact (List.any_eq_false.mpr fun _ _ => Bool.false_ne_true).symm
  | case4 reader value query rest hne hlt left hdecode =>
    rw [matchAnyLoop.eq_def]
    dsimp only
    rw [if_neg hne, if_pos hlt, any_matchFrom_of_lt hsorted hlt, hdecode]
    simp only [matchValues_none hdecode]
    exact (List.any_eq_false.mpr fun _ _ => Bool.false_ne_true).symm
  | case5 reader value query rest hne hlt left delta reader' hdecode ih =>
    rw [matchAnyLoop.eq_def]
    dsimp only
    rw [if_neg hne, if_pos hlt, any_matchFrom_of_lt hsorted hlt, hdecode]
    simp only [matchValues_succ hdecode]
    exact ih hsorted
  | case6 left reader value query rest hne hlt ih =>
    have hgt : value > query := by
      rcases UInt64.lt_or_lt_of_ne hne with h | h
      · exact absurd h hlt
      · exact h
    have hleft : matchFrom P query left reader value = false := by
      rw [matchFrom, if_neg hne, if_pos hgt]
    rw [matchAnyLoop.eq_def]
    dsimp only
    rw [if_neg hne, if_neg hlt, List.any_cons, hleft, Bool.false_or]
    exact ih (List.pairwise_cons.mp hsorted).2

/-- The filter begins with its first value. -/
theorem matchAnyLoop_start (h : golombRiceDecode reader P = some (delta, reader'))
    {n : ℕ} (hn : n ≠ 0) (hsorted : queries.Pairwise (· ≤ ·)) :
    matchAnyLoop P (n - 1) reader' (0 + delta) queries =
      queries.any fun query => matchValues P query n reader 0 := by
  obtain ⟨m, rfl⟩ := Nat.exists_eq_succ_of_ne_zero hn
  rw [matchAnyLoop_eq P _ reader' _ hsorted]
  simp only [Nat.succ_eq_add_one, Nat.add_sub_cancel, matchValues_succ h]

/-- **`gcs_filter_match_any`** finds a query exactly where `gcs_filter_match` finds one of them, for
every filter. -/
theorem gcsFilterMatchAny_iff (filter : GcsFilter) (elements : List Bytes) :
    gcsFilterMatchAny filter elements = true ↔
      ∃ element ∈ elements, gcsFilterMatch filter element = true := by
  unfold gcsFilterMatchAny gcsFilterMatch
  cases filter.encoded with
  | none => simp
  | some encoded =>
    dsimp only
    by_cases hN : filter.N = 0
    · simp [hN]
    by_cases hlen : elements.length = 0
    · obtain rfl := List.length_eq_zero_iff.mp hlen
      simp
    rw [if_neg (not_or.mpr ⟨hN, hlen⟩)]
    simp only [if_neg hN]
    cases hdecode : golombRiceDecode (GcsBitreader.init encoded) filter.P with
    | none => simp [matchValues_none hdecode]
    | some p =>
      obtain ⟨delta, reader⟩ := p
      have hcount : filter.N.toNat ≠ 0 := fun h => hN (UInt32.toNat_inj.mp h)
      dsimp only
      rw [matchAnyLoop_start hdecode hcount (pairwise_mergeSort_le _), List.any_eq_true]
      constructor
      · rintro ⟨query, hquery, h⟩
        obtain ⟨element, helement, rfl⟩ := List.mem_map.mp (List.mem_mergeSort.mp hquery)
        exact ⟨element, helement, h⟩
      · rintro ⟨element, helement, h⟩
        exact ⟨_, List.mem_mergeSort.mpr (List.mem_map_of_mem helement), h⟩

/-! ## Filters -/

/-- The filter is read back, and has the elements of a list. -/
def NoFalseNegatives (filterType : UInt8) (blockhash : Uint256) (elements : List Bytes) : Prop :=
  ∃ filter filter', gcsFilterBuild filterType blockhash elements = some filter ∧
    gcsFilterDeserialize filterType blockhash (gcsFilterSerialize filter) = some filter' ∧
    filter'.N = filter.N ∧ filter'.F = filter.F ∧ filter'.encoded = filter.encoded ∧
    ∀ element ∈ elements, gcsFilterMatch filter' element = true

/-- The sorted hashes of a filter. -/
def sortedHashes (blockhash : Uint256) (distinct : List Bytes) : List UInt64 :=
  (distinct.map (gcsHashElement (gcsDeriveKey blockhash)
    ((UInt32.ofNat distinct.length).toUInt64 * GCS_BASIC_FILTER_M))).mergeSort fun a b =>
      decide (a ≤ b)

theorem pairwise_sortedHashes (blockhash : Uint256) (distinct : List Bytes) :
    (sortedHashes blockhash distinct).Pairwise (· ≤ ·) :=
  pairwise_mergeSort_le _

theorem length_sortedHashes (blockhash : Uint256) (distinct : List Bytes) :
    (sortedHashes blockhash distinct).length = distinct.length := by
  rw [sortedHashes, List.length_mergeSort, List.length_map]

/-- The bits of a filter. -/
theorem bitsOf_encoded (filterType : UInt8) (blockhash : Uint256) (distinct : List Bytes) :
    ∃ data pad, (encodeFilter filterType blockhash distinct).encoded = some data ∧
      bitsOf data = deltaBits GCS_BASIC_FILTER_P 0 (sortedHashes blockhash distinct) ++ pad := by
  have hwrites := encodeDeltas_writes (P := GCS_BASIC_FILTER_P)
    (by decide) GcsBitwriter.writes_init 0 (sortedHashes blockhash distinct)
  obtain ⟨pad, hpad⟩ := hwrites.flush
  rw [List.nil_append] at hpad
  exact ⟨_, pad, rfl, hpad⟩

/-- **A filter** of fewer than 2^32 distinct elements is read back and has all of them. -/
theorem encodeFilter_match (filterType : UInt8) (blockhash : Uint256) {distinct : List Bytes}
    (hne : distinct ≠ []) (hlt : distinct.length < 2 ^ 32) :
    ∃ filter', gcsFilterDeserialize filterType blockhash
        (gcsFilterSerialize (encodeFilter filterType blockhash distinct)) = some filter' ∧
      filter'.N = (encodeFilter filterType blockhash distinct).N ∧
      filter'.F = (encodeFilter filterType blockhash distinct).F ∧
      filter'.encoded = (encodeFilter filterType blockhash distinct).encoded ∧
      ∀ element ∈ distinct, gcsFilterMatch filter' element = true := by
  obtain ⟨data, pad, hdata, hbits⟩ := bitsOf_encoded filterType blockhash distinct
  have hN : (UInt32.ofNat distinct.length).toNat = distinct.length := UInt32.toNat_ofNat_of_lt' hlt
  have hlength := length_sortedHashes blockhash distinct
  -- the bytes are enough for the count
  have hroom : ¬ (UInt32.ofNat distinct.length).toNat >
    data.length * 8 / (GCS_BASIC_FILTER_P + 1) := by
    have hcodes := length_deltaBits GCS_BASIC_FILTER_P 0 (sortedHashes blockhash distinct)
    have hall := congrArg List.length hbits
    rw [length_bitsOf, List.length_append] at hall
    rw [hlength] at hcodes
    rw [hN, not_lt, Nat.le_div_iff_mul_le (show 0 < GCS_BASIC_FILTER_P + 1 by decide)]
    omega
  refine ⟨encodeFilter filterType blockhash distinct, ?_, rfl, rfl, rfl, ?_⟩
  · have hwire : gcsFilterSerialize (encodeFilter filterType blockhash distinct) =
        serVarlen (UInt32.ofNat distinct.length) ++ data := by
      rw [gcsFilterSerialize, hdata, Option.getD_some]
      rfl
    rw [hwire, gcsFilterDeserialize, deserVarlen_serVarlen, Option.bind_some]
    dsimp only
    rw [if_neg hroom, ← hdata]
    rfl
  · intro element helement
    have hzero : ¬ (encodeFilter filterType blockhash distinct).N = 0 := by
      intro hzero
      have hcount : (UInt32.ofNat distinct.length).toNat = 0 := congrArg UInt32.toNat hzero
      rw [hN] at hcount
      exact hne (List.length_eq_zero_iff.mp hcount)
    have hmem : gcsHashElement (gcsDeriveKey blockhash)
        ((UInt32.ofNat distinct.length).toUInt64 * GCS_BASIC_FILTER_M) element ∈
          sortedHashes blockhash distinct := by
      rw [sortedHashes, List.mem_mergeSort]
      exact List.mem_map_of_mem helement
    have hmatch := @matchValues_of_bits GCS_BASIC_FILTER_P (by decide)
      (GcsBitreader.init data) _ _ _ _ hbits
      (Nat.zero_le 8) (pairwise_sortedHashes blockhash distinct) hmem
    have hcount : (encodeFilter filterType blockhash distinct).N.toNat =
      (sortedHashes blockhash distinct).length :=
      hN.trans hlength.symm
    rw [gcsFilterMatch, hdata]
    dsimp only
    rw [if_neg hzero, hcount]
    exact hmatch

/-- From 2^32 elements on the last entries of the array are never set. -/
theorem gcsFilterBuild_of_long (filterType : UInt8) (blockhash : Uint256)
    (hlong : 2 ^ 32 ≤ elements.length) :
    gcsFilterBuild filterType blockhash elements = none := by
  have hmod : elements.length % 2 ^ 32 < 2 ^ 32 := Nat.mod_lt _ (by decide)
  have hnull : none ∈ (elements.take (elements.length % 2 ^ 32)).map some ++
      List.replicate (elements.length - elements.length % 2 ^ 32) none := by
    rw [List.mem_append]
    exact Or.inr (List.mem_replicate.mpr ⟨by omega, rfl⟩)
  have hlength : 2 ≤ ((elements.take (elements.length % 2 ^ 32)).map some ++
      List.replicate (elements.length - elements.length % 2 ^ 32) none).length := by
    rw [List.length_append, List.length_map, List.length_take, List.length_replicate]
    omega
  rw [gcsFilterBuild, if_neg (by omega)]
  dsimp only
  rw [qsortElements, if_pos ⟨hlength, hnull⟩, Option.map_none]

/-- Below 2^32 elements the array has all of them. -/
theorem gcsFilterBuild_of_short (filterType : UInt8) (blockhash : Uint256) (hne : elements ≠ [])
    (hlt : elements.length < 2 ^ 32) :
    gcsFilterBuild filterType blockhash elements = some (encodeFilter filterType blockhash
      (collapse none (elements.mergeSort fun x y => (compareElement x y).isLE))) := by
  have hpos : elements.length ≠ 0 := fun h => hne (List.length_eq_zero_iff.mp h)
  have hmap : ((elements.map some).filterMap id) = elements := by
    rw [List.filterMap_map]
    exact List.filterMap_some
  have hnull : ¬ (2 ≤ (elements.map some).length ∧ none ∈ elements.map some) := by
    rintro ⟨-, hmem⟩
    obtain ⟨x, -, hx⟩ := List.mem_map.mp hmem
    cases hx
  rw [gcsFilterBuild, if_neg hpos]
  dsimp only
  rw [Nat.mod_eq_of_lt hlt, Nat.sub_self, List.replicate_zero, List.append_nil,
    List.take_length, qsortElements,
    if_neg hnull, hmap, Option.map_some, List.take_of_length_le (by rw [List.length_mergeSort])]

/-- **No false negatives.** A filter that is built from a non-empty list, written and read back
under the same block hash has the same count, range and bytes and matches every element, if and only
if the list has fewer than 2^32 entries. -/
theorem noFalseNegatives_iff (filterType : UInt8) (blockhash : Uint256) {elements : List Bytes}
    (hne : elements ≠ []) : NoFalseNegatives filterType blockhash elements ↔
    elements.length < 2 ^ 32 := by
  constructor
  · rintro ⟨filter, -, hbuild, -⟩
    by_contra hlong
    rw [gcsFilterBuild_of_long filterType blockhash (not_lt.mp hlong)] at hbuild
    cases hbuild
  · intro hlt
    have hbuild := gcsFilterBuild_of_short filterType blockhash hne hlt
    have hkept : ∀ element ∈ elements,
        element ∈ collapse none (elements.mergeSort fun x y => (compareElement x y).isLE) := by
      intro element helement
      have hsorted : element ∈ elements.mergeSort fun x y => (compareElement x y).isLE :=
        List.mem_mergeSort.mpr helement
      rcases @mem_collapse none _ _ hsorted with hmem | hlast
      · exact hmem
      · cases hlast
    have hfew : (collapse none (elements.mergeSort fun x y => (compareElement x y).isLE)).length <
      2 ^ 32 := by
      have hle := length_collapse_le none (elements.mergeSort fun x y => (compareElement x y).isLE)
      rw [List.length_mergeSort] at hle
      omega
    have hsome : collapse none (elements.mergeSort fun x y => (compareElement x y).isLE) ≠ [] := by
      obtain ⟨element, helement⟩ := List.exists_mem_of_ne_nil _ hne
      exact List.ne_nil_of_mem (hkept element helement)
    obtain ⟨filter', hread, hN, hF, hencoded, hmatch⟩ :=
      encodeFilter_match filterType blockhash hsome hfew
    exact ⟨_, filter', hbuild, hread, hN, hF, hencoded, fun element helement =>
      hmatch element (hkept element helement)⟩

/-- The theorem on four elements, one of which is there twice. -/
theorem noFalseNegatives_iff_duplicate :
    NoFalseNegatives 0 Uint256.zero [[1, 2, 3], [4], [1, 2, 3], [0, 5]] :=
  (noFalseNegatives_iff 0 Uint256.zero (List.cons_ne_nil _ _)).mpr (by decide)

/-- With 2^32 copies of one element there is no return. -/
theorem not_noFalseNegatives :
    ¬ ∀ elements : List Bytes, elements ≠ [] → elements.dedup.length < 2 ^ 32 →
    NoFalseNegatives 0 Uint256.zero elements := by
  intro hall
  have hne : List.replicate (2 ^ 32) ([] : Bytes) ≠ [] := by
    intro hnil
    have hlength := congrArg List.length hnil
    rw [List.length_replicate] at hlength
    cases hlength
  have hfew : (List.replicate (2 ^ 32) ([] : Bytes)).dedup.length < 2 ^ 32 := by
    rw [List.replicate_dedup (by decide)]
    decide
  obtain ⟨filter, -, hbuild, -⟩ := hall _ hne hfew
  rw [gcsFilterBuild_of_long 0 Uint256.zero (le_of_eq List.length_replicate.symm)] at hbuild
  cases hbuild

end Libdogecoin
