/-
# Mnemonic sentences

`bip39.c` : entropy and a part of its hash become a string of the characters '0' and '1', every
eleven of them the number of a word. A sentence is cut at its separator, looked up word by word and
checked against the hash. Sentences, words and separators are the bytes in front of the NUL.

* `getMnemonic_eq` : the sentence of an entropy;
* `verifyMnemonicSentence_eq_true_iff` : the sentences that are accepted;
* `verifyMnemonicSentence_iff_madeFrom` : they are the same.
-/
import Libdogecoin.BitString
import Libdogecoin.TransactionHex

namespace Libdogecoin

namespace Bip39

open BitString

/-! ## Definitions -/

/-- `LANG_WORD_CNT`. -/
def langWordCnt : ℕ := 2048
/-- `BITS_PER_WORD`. -/
def bitsPerWord : ℕ := 11
/-- `MAX_MNEMONIC_STRING_SIZE`. -/
def maxMnemonicStringSize : ℕ := 24 * 16 * 2 + 1
/-- `TO_UINT8_HEX_BUF_LEN`, that is `DOGECOIN_MAX_TX_HEX_LEN`. -/
def toUint8HexBufLen : ℕ := 200001

/-- `utils_hex_to_uint8` : the buffer it leaves. -/
def utilsHexToUint8 (str : List Char) : Option Bytes :=
  if str.length > toUint8HexBufLen then none
  else some ((utilsHexToBin str ++ List.replicate toUint8HexBufLen 0).take toUint8HexBufLen)

/-- The characters for the bits of a byte under some masks. -/
def maskedBits (masks : List UInt8) (byte : UInt8) : List Char :=
  masks.map fun mask => if byte &&& mask ≠ 0 then '1' else '0'

/-- `BYTE_TO_BINARY`. -/
def byteToBinary : UInt8 → List Char := maskedBits [0x80, 0x40, 0x20, 0x10, 0x08, 0x04, 0x02, 0x01]
/-- `BYTE_TO_FIRST_FOUR_BINARY`. -/
def byteToFirstFourBinary : UInt8 → List Char := maskedBits [0x80, 0x40, 0x20, 0x10]
/-- `BYTE_TO_FIRST_FIVE_BINARY`. -/
def byteToFirstFiveBinary : UInt8 → List Char := maskedBits [0x80, 0x40, 0x20, 0x10, 0x08]
/-- `BYTE_TO_FIRST_SIX_BINARY`. -/
def byteToFirstSixBinary : UInt8 → List Char := maskedBits [0x80, 0x40, 0x20, 0x10, 0x08, 0x04]
/-- `BYTE_TO_FIRST_SEVEN_BINARY`. -/
def byteToFirstSevenBinary : UInt8 → List Char := maskedBits
    [0x80, 0x40, 0x20, 0x10, 0x08, 0x04, 0x02]

/-- What was written of a sentence, and how long it is. Without a buffer nothing is written. -/
structure Written where
  mnemonic : Bytes
  mnemonicSize : ℕ

/-- A word for eleven bits, with a separator unless it is the last. -/
def writeWord (wordlist : List Bytes) (space : Bytes) (allocated last : Bool)
    (elevenBits : List Char) (out : Written) : Option Written :=
  let real := elevenBits.foldl (fun real c => (real <<< 1) ||| (c.toNat - '0'.toNat)) 0
  if real ≥ langWordCnt then none
  else
    let word := wordlist.getD real []
    let sep := if last then [] else space
    if allocated = false then some { out with mnemonicSize := out.mnemonicSize +
      word.length + sep.length }
    else if out.mnemonic.length + word.length + sep.length + 1 > maxMnemonicStringSize then none
    else
      some {
        mnemonic := out.mnemonic ++ word ++ sep
        mnemonicSize := out.mnemonicSize + word.length + sep.length }

/-- The loop of `produce_mnemonic_sentence` over the segment: a word is written when the bit behind
its last one is reached. -/
def produceWords (wordlist : List Bytes) (space : Bytes) (allocated : Bool) :
    List Char → List Char → Written → Option Written
  | [], _, out => some out
  | c :: segment, elevenBits, out =>
    if elevenBits.length = 11 then do
      let out ← writeWord wordlist space allocated segment.isEmpty elevenBits out
      produceWords wordlist space allocated segment [c] out
    else produceWords wordlist space allocated segment (elevenBits ++ [c]) out

/-- The bits of the checksum, by their number and one more. -/
def csBitsOf (checksumBits : ℕ) (byte : UInt8) : Option (List Char) :=
  match checksumBits with
  | 5 => some (byteToFirstFourBinary byte)
  | 6 => some (byteToFirstFiveBinary byte)
  | 7 => some (byteToFirstSixBinary byte)
  | 8 => some (byteToFirstSevenBinary byte)
  | 9 => some (byteToBinary byte)
  | _ => none

/-- `produce_mnemonic_sentence`, on an entropy of the characters '0' and '1'. -/
def produceMnemonicSentence (segSize checksumBits : ℕ) (firstByte entropy : List Char)
    (wordlist : List Bytes) (space : Bytes) (allocated : Bool) : Option Written :=
  if segSize = 0 ∨ checksumBits = 0 then none
  else do
    let bytes ← utilsHexToUint8 firstByte
    let csBits ← csBitsOf checksumBits (bytes.headD 0)
    let segment := entropy.take (segSize - 1)
    let segment := segment ++ csBits.take (segSize - segment.length - 1)
    let segment := (segment ++ List.replicate segSize '\x00').take segSize
    let out ← produceWords wordlist space allocated segment [] ⟨[], 0⟩
    some { out with mnemonicSize := out.mnemonicSize + 1 }

/-- What `get_mnemonic` returns. -/
structure Mnemonic extends Written where
  entropyOut : List Char

/-- `get_mnemonic`. Without a string for the entropy, the bytes are those of
`dogecoin_random_bytes`. -/
def getMnemonic (pf : Platform) (randomBytes : (n : ℕ) → Option {bs : Bytes // bs.length = n})
    (entropysize : ℕ) (entropy : Option (List Char)) (wordlist : List Bytes) (space : Bytes)
    (allocated : Bool) :
    Option Mnemonic :=
  if ¬ (entropysize ≥ 128 ∧ entropysize ≤ 256 ∧ entropysize % 32 = 0) then none
  else do
    let entBytes := entropysize / 8
    let csAdd := entropysize / 32
    let localEntropy ←
      match entropy with
      | none => (randomBytes entBytes).map Subtype.val
      | some entropy => (utilsHexToUint8 entropy).map fun bytes => bytes.take entBytes
    let entropyBits := localEntropy.flatMap byteToBinary
    let checksum := utilsUint8ToHex (pf.sha256Raw localEntropy).1
    let hexStr := checksum.take 2
    let out ← produceMnemonicSentence (csAdd * 33 + 1) (csAdd + 1) hexStr entropyBits
      wordlist space allocated
    some { toWritten := out, entropyOut := utilsUint8ToHex localEntropy }

/-- `strstr` : where the needle stands first. -/
def strstr (needle : Bytes) : Bytes → Option ℕ
  | [] => if needle = [] then some 0 else none
  | c :: s => if needle <+: c :: s then some 0 else (strstr needle s).map (· + 1)

/-- The count of words: one more than the separators that are found. -/
def countWords (space : Bytes) : ℕ → Bytes → ℕ
  | 0, _ => 1
  | fuel + 1, p =>
    match strstr space p with
    | none => 1
    | some i => countWords space fuel (p.drop (i + space.length)) + 1

/-- The words between the separators. -/
def tokens (space : Bytes) : ℕ → Bytes → List Bytes
  | 0, start => [start]
  | fuel + 1, start =>
    match strstr space start with
    | none => [start]
    | some toklen => start.take toklen :: tokens space fuel (start.drop (toklen + space.length))

/-- The index of a word: `strncmp`, and nothing behind what was compared. -/
def wordIndex (wordlist : List Bytes) (token : Bytes) : Option ℕ :=
  (wordlist.take langWordCnt).findIdx? fun word => word.take token.length =
    token && word.length ≤ token.length

/-- The eleven bits of an index. -/
def wordBits (idx : ℕ) : List Char :=
  (List.range bitsPerWord).reverse.map fun b => if (idx >>> b) &&& 1 ≠ 0 then '1' else '0'

/-- A byte of the entropy, from eight characters. -/
def entropyByte (bitstr : List Char) (i : ℕ) : UInt8 :=
  (List.range 8).foldl
    (fun byte b => if bitstr.getD (i * 8 + b) '\x00' = '1' then byte |||
      (1 <<< (7 - UInt8.ofNat b)) else byte) 0

/-- `verify_mnemonic_sentence`. -/
def verifyMnemonicSentence (pf : Platform) (mnemonic : Bytes) (wordlist : List Bytes)
    (space : Bytes) : Bool :=
  if space.length = 0 then false
  else
    let wordCount := countWords space mnemonic.length mnemonic
    if wordCount < 12 ∨ wordCount > 24 ∨ wordCount % 3 ≠ 0 then false
    else
      let totalBits := wordCount * bitsPerWord
      let checksumBits := totalBits / 33
      let entropyBits := totalBits - checksumBits
      let entropyBytes := entropyBits / 8
      match (tokens space mnemonic.length mnemonic).mapM (wordIndex wordlist) with
      | none => false
      | some idxs =>
        let bitstr := idxs.flatMap wordBits
        let entropy := (List.range entropyBytes).map (entropyByte bitstr)
        let hash := (pf.sha256Raw entropy).1
        (List.range checksumBits).all fun i =>
          bitstr.getD (entropyBits + i) '\x00' =
            if ((hash.headD 0).toNat >>> (7 - i)) &&& 1 ≠ 0 then '1' else '0'

/-! ## The code -/

/-- The character of a bit. -/
def bitChar (bit : Bool) : Char := if bit then '1' else '0'

/-- The bits of some bytes. -/
def bytesBits (bs : Bytes) : List Bool := (bs.map UInt8.toNat).flatMap (toBits 8)

/-- The part of the hash that is added: a bit for every four bytes. -/
def checksumBits (pf : Platform) (entropy : Bytes) : List Bool :=
  (toBits 8 ((pf.sha256Raw entropy).1.headD 0).toNat).take (entropy.length / 4)

/-- 128, 160, 192, 224 or 256 bits. -/
def IsEntropy (entropy : Bytes) : Prop := entropy.length ∈ [16, 20, 24, 28, 32]

/-- The indices of the words for an entropy. -/
structure Encodes (pf : Platform) (entropy : Bytes) (idxs : List ℕ) : Prop where
  isEntropy : IsEntropy entropy
  lt : ∀ i ∈ idxs, i < 2 ^ bitsPerWord
  bits : idxs.flatMap (toBits bitsPerWord) = bytesBits entropy ++ checksumBits pf entropy

/-- The words of some indices. -/
def wordsAt (wordlist : List Bytes) (idxs : List ℕ) :
    List Bytes := idxs.map fun i => wordlist.getD i []

/-- The bytes of a character: one byte, or those of a code point in UTF-8. -/
def IsCharacter (sep : Bytes) : Prop := (∃ b, sep = [b]) ∨ ∃ c : Char, sep = String.utf8EncodeChar c

/-- A sentence. -/
def sentence (wordlist : List Bytes) (space : Bytes) (idxs : List ℕ) : Bytes :=
  space.intercalate (wordsAt wordlist idxs)

variable {pf : Platform} {entropy mnemonic : Bytes} {idxs : List ℕ} {out : Written}
  {checksum : List Bool}

theorem IsEntropy.exists_eq (h : IsEntropy entropy) :
    ∃ k, 4 ≤ k ∧ k ≤ 8 ∧ entropy.length = 4 * k := by
  have hcases : entropy.length = 16 ∨ entropy.length = 20 ∨ entropy.length = 24 ∨
    entropy.length = 28 ∨
      entropy.length = 32 := by
    simpa [IsEntropy] using h
  exact ⟨entropy.length / 4, by omega, by omega, by omega⟩

@[simp] theorem length_bytesBits (bs : Bytes) : (bytesBits bs).length = bs.length * 8 := by
  rw [bytesBits, length_flatMap_toBits, List.length_map]

variable {k i : ℕ} {bs sep : Bytes}

theorem length_checksumBits (hk : k ≤ 8) (hlen : entropy.length = 4 * k) :
    (checksumBits pf entropy).length = k := by
  rw [checksumBits, List.length_take, length_toBits, hlen]
  omega

theorem bytesBits_injective {as : Bytes} (hlen : as.length = bs.length)
    (h : bytesBits as = bytesBits bs) :
    as = bs := by
  have hlt : ∀ bytes : Bytes, ∀ n ∈ bytes.map UInt8.toNat, n < 2 ^ 8 := by
    intro bytes n hn
    obtain ⟨byte, -, rfl⟩ := List.mem_map.mp hn
    exact byte.toNat_lt
  have hmap := flatMap_toBits_injective (by rw [List.length_map, List.length_map, hlen])
    (hlt as) (hlt bs) h
  exact List.map_injective_iff.mpr (fun _ _ => UInt8.toNat_inj.mp) hmap

/-- Every list of bits in eights is a list of bytes. -/
theorem exists_bytesBits {bits : List Bool} {count : ℕ} (h : bits.length = count * 8) :
    ∃ bs : Bytes, bs.length = count ∧ bytesBits bs = bits := by
  obtain ⟨ns, hlen, hlt, hns⟩ := exists_flatMap_toBits h
  refine ⟨ns.map UInt8.ofNat, by rw [List.length_map, hlen], ?_⟩
  have hmap : (ns.map UInt8.ofNat).map UInt8.toNat = ns := by
    rw [List.map_map]
    calc ns.map (UInt8.toNat ∘ UInt8.ofNat) = ns.map id := by
          apply List.map_congr_left
          intro n hn
          exact UInt8.toNat_ofNat_of_lt' (hlt n hn)
      _ = ns := List.map_id ns
  rw [bytesBits, hmap, hns]

namespace Encodes

/-- Three words for every four bytes. -/
theorem length_idxs {k : ℕ} (h : Encodes pf entropy idxs) (hk : k ≤ 8)
    (hlen : entropy.length = 4 * k) :
    idxs.length = 3 * k := by
  have hbits := congrArg List.length h.bits
  rw [length_flatMap_toBits, List.length_append, length_bytesBits, length_checksumBits hk hlen,
    hlen] at hbits
  unfold bitsPerWord at hbits
  omega

theorem idxs_ne_nil (h : Encodes pf entropy idxs) : idxs ≠ [] := by
  obtain ⟨k, hlow, hhigh, hlen⟩ := h.isEntropy.exists_eq
  exact List.ne_nil_of_length_pos (by rw [h.length_idxs hhigh hlen]; omega)

/-- Every entropy has its words. -/
theorem exists_idxs (pf : Platform) (h : IsEntropy entropy) : ∃ idxs, Encodes pf entropy idxs := by
  obtain ⟨k, -, hk, hlen⟩ := h.exists_eq
  have hbits : (bytesBits entropy ++ checksumBits pf entropy).length = 3 * k * bitsPerWord := by
    rw [List.length_append, length_bytesBits, length_checksumBits hk hlen, hlen]
    unfold bitsPerWord
    omega
  obtain ⟨idxs, -, hlt, heq⟩ := exists_flatMap_toBits hbits
  exact ⟨idxs, h, hlt, heq⟩

/-- The words stand for one entropy. -/
theorem entropy_unique {entropy' : Bytes} (h : Encodes pf entropy idxs)
    (h' : Encodes pf entropy' idxs) :
    entropy = entropy' := by
  obtain ⟨k, -, hk, hlen⟩ := h.isEntropy.exists_eq
  obtain ⟨k', -, hk', hlen'⟩ := h'.isEntropy.exists_eq
  have hsame : 3 * k = 3 * k' := (h.length_idxs hk hlen).symm.trans (h'.length_idxs hk' hlen')
  have hlengths : entropy.length = entropy'.length := by omega
  have hbits := List.append_inj_left (h.bits.symm.trans h'.bits)
    (by rw [length_bytesBits, length_bytesBits, hlengths])
  exact bytesBits_injective hlengths hbits

end Encodes

/-! ## Making a sentence -/

theorem byteToBinary_eq (byte : UInt8) : byteToBinary byte = (toBits 8 byte.toNat).map bitChar := by
  have hall : ∀ n < 256, byteToBinary (UInt8.ofNat n) =
    (toBits 8 n).map bitChar := by decide +kernel
  have hbyte := hall byte.toNat byte.toNat_lt
  rwa [UInt8.ofNat_toNat] at hbyte

theorem flatMap_byteToBinary (bs : Bytes) :
    bs.flatMap byteToBinary = (bytesBits bs).map bitChar := by
  rw [bytesBits, List.flatMap_map, List.map_flatMap]
  apply List.flatMap_congr
  intro byte _
  exact byteToBinary_eq byte

/-- The number of eleven characters. -/
theorem foldl_bitChar (bits : List Bool) (n : ℕ) :
    (bits.map bitChar).foldl (fun real c => (real <<< 1) ||| (c.toNat - '0'.toNat)) n =
      bits.foldl (fun n bit => 2 * n + bit.toNat) n := by
  induction bits generalizing n with
  | nil => rfl
  | cons bit bits ih =>
    have hbit : (n <<< 1) ||| ((bitChar bit).toNat - '0'.toNat) = 2 * n + bit.toNat := by
      have hchar : (bitChar bit).toNat - '0'.toNat = bit.toNat := by cases bit <;> rfl
      rw [hchar, ← Nat.shiftLeft_add_eq_or_of_lt (by cases bit <;> decide), Nat.shiftLeft_eq]
      omega
    rw [List.map_cons, List.foldl_cons, List.foldl_cons, hbit, ih]

theorem real_toBits (h : i < 2 ^ bitsPerWord) :
    ((toBits bitsPerWord i).map bitChar).foldl
    (fun real c => (real <<< 1) ||| (c.toNat - '0'.toNat)) 0 = i := by
  rw [foldl_bitChar]
  exact (ofBits_toBits bitsPerWord i).trans (Nat.mod_eq_of_lt h)

variable {wordlist : List Bytes} {space : Bytes}

/-- Up to eleven characters are only collected. -/
theorem produceWords_append {allocated : Bool} {segment elevenBits : List Char}
    (h : elevenBits.length + segment.length ≤ 11) (rest : List Char) :
    produceWords wordlist space allocated (segment ++ rest) elevenBits out =
      produceWords wordlist space allocated rest (elevenBits ++ segment) out := by
  induction segment generalizing elevenBits with
  | nil => rw [List.nil_append, List.append_nil]
  | cons c segment ih =>
    rw [List.length_cons] at h
    rw [List.cons_append, produceWords, if_neg (by omega), ih (by simp; omega), List.append_assoc]
    rfl

theorem sentence_cons {j : ℕ} : sentence wordlist space (i :: j :: idxs) =
    wordlist.getD i [] ++ space ++ sentence wordlist space (j :: idxs) := by
  unfold sentence wordsAt
  rw [List.map_cons, List.map_cons, List.intercalate_cons_cons]

theorem writeWord_toBits (h : i < 2 ^ bitsPerWord) (last : Bool) (out : Written) :
    writeWord wordlist space true last ((toBits bitsPerWord i).map bitChar) out =
      if out.mnemonic.length + (wordlist.getD i []).length +
        (if last then [] else space).length + 1 >
          maxMnemonicStringSize then none
      else some {
        mnemonic := out.mnemonic ++ wordlist.getD i [] ++ (if last then [] else space)
        mnemonicSize :=
          out.mnemonicSize + (wordlist.getD i []).length +
            (if last then [] else space).length } := by
  have hword : ¬ i ≥ langWordCnt := Nat.not_le.mpr h
  unfold writeWord
  rw [real_toBits h]
  dsimp only
  rw [if_neg hword, if_neg (by decide)]

/-- **The loop writes the sentence**, if there is room for it. -/
theorem produceWords_eq (h : ∀ j ∈ i :: idxs, j < 2 ^ bitsPerWord) :
    produceWords wordlist space true
        ((idxs.flatMap fun j => (toBits bitsPerWord j).map bitChar) ++ ['\x00'])
        ((toBits bitsPerWord i).map bitChar) out =
      if out.mnemonic.length + (sentence wordlist space (i :: idxs)).length + 1 >
        maxMnemonicStringSize then none
      else some {
        mnemonic := out.mnemonic ++ sentence wordlist space (i :: idxs)
        mnemonicSize := out.mnemonicSize + (sentence wordlist space (i :: idxs)).length } := by
  have hlen : ∀ j, ((toBits bitsPerWord j).map bitChar).length = 11 := fun j => by
    rw [List.length_map, length_toBits]
    rfl
  obtain ⟨hi, hrest⟩ := List.forall_mem_cons.mp h
  induction idxs generalizing i out with
  | nil =>
    -- the NUL behind the bits makes the last word
    have hsentence : sentence wordlist space [i] = wordlist.getD i [] := List.intercalate_singleton
    rw [List.flatMap_nil, List.nil_append, produceWords, if_pos (hlen i), List.isEmpty_nil,
      writeWord_toBits hi, hsentence]
    simp only [if_true, List.length_nil, Nat.add_zero, List.append_nil]
    by_cases hroom : out.mnemonic.length + (wordlist.getD i []).length + 1 > maxMnemonicStringSize
    · rw [if_pos hroom]
      rfl
    · rw [if_neg hroom]
      rfl
  | cons j idxs ih =>
    obtain ⟨hj, -⟩ := List.forall_mem_cons.mp hrest
    obtain ⟨c, bits, hbits⟩ := List.exists_cons_of_ne_nil
      (List.ne_nil_of_length_pos (by rw [hlen j]; decide) : (toBits bitsPerWord j).map bitChar ≠ [])
    have hcount := hlen j
    rw [hbits, List.length_cons] at hcount
    have hmore : (bits ++ ((idxs.flatMap fun j => (toBits bitsPerWord j).map bitChar) ++
      ['\x00'])).isEmpty =
        false := by simp
    rw [List.flatMap_cons, hbits, List.append_assoc, List.cons_append, produceWords,
      if_pos (hlen i), hmore, writeWord_toBits hi, sentence_cons]
    simp only [Bool.false_eq_true, if_false, List.length_append]
    by_cases hroom : out.mnemonic.length + (wordlist.getD i []).length + space.length + 1 >
        maxMnemonicStringSize
    · rw [if_pos hroom, if_pos (by omega)]
      rfl
    · rw [if_neg hroom]
      dsimp only [Option.bind_eq_bind, Option.bind_some]
      rw [produceWords_append (by rw [List.length_singleton]; omega),
        List.singleton_append, ← hbits, ih hrest hj (List.forall_mem_cons.mp hrest).2]
      simp only [List.length_append, List.append_assoc, Nat.add_assoc]

/-- The whole segment: the bits of all words, and the NUL. -/
theorem produceWords_segment (hne : idxs ≠ []) (h : ∀ j ∈ idxs, j < 2 ^ bitsPerWord) :
    produceWords wordlist space true ((idxs.flatMap (toBits bitsPerWord)).map bitChar ++ ['\x00'])
      [] ⟨[], 0⟩ =
      if (sentence wordlist space idxs).length + 1 > maxMnemonicStringSize then none
      else some {
        mnemonic := sentence wordlist space idxs
        mnemonicSize := (sentence wordlist space idxs).length } := by
  obtain ⟨i, rest, rfl⟩ := List.exists_cons_of_ne_nil hne
  have hshort : ([] : List Char).length + ((toBits bitsPerWord i).map bitChar).length ≤ 11 := by
    rw [List.length_map, length_toBits]
    decide
  rw [List.map_flatMap, List.flatMap_cons, List.append_assoc, produceWords_append hshort,
    List.nil_append, produceWords_eq h]
  simp

/-- The pattern for the checksum takes as many bits as there are groups of four bytes. -/
theorem csBitsOf_eq (hlow : 4 ≤ k) (hhigh : k ≤ 8) (byte : UInt8) :
    csBitsOf (k + 1) byte = some (((toBits 8 byte.toNat).take k).map bitChar) := by
  rw [List.map_take, ← byteToBinary_eq]
  obtain rfl | rfl | rfl | rfl | rfl : k = 4 ∨ k = 5 ∨ k = 6 ∨ k = 7 ∨ k = 8 := by omega
  all_goals rfl

theorem utilsHexToUint8_hex (h : 2 * bs.length ≤ toUint8HexBufLen) {n : ℕ} (hn : n ≤ bs.length) :
    (utilsHexToUint8 (utilsUint8ToHex bs)).map (fun bytes => bytes.take n) = some (bs.take n) := by
  have hlong : ¬ (utilsUint8ToHex bs).length > toUint8HexBufLen := by
    rw [length_utilsUint8ToHex]
    omega
  rw [utilsHexToUint8, if_neg hlong, utilsHexToBin_utilsUint8ToHex, Option.map_some, List.take_take,
    Nat.min_eq_left (by omega), List.take_append_of_le_length hn]

/-- The first byte of a hash, by way of its two hex digits. -/
theorem utilsHexToUint8_take (hash : Uint256) :
    ∃ bytes, utilsHexToUint8 ((utilsUint8ToHex hash.1).take 2) = some bytes ∧
      bytes.headD 0 = hash.1.headD 0 := by
  obtain ⟨byte, rest, hcons⟩ := List.exists_cons_of_ne_nil
    (List.ne_nil_of_length_pos (by rw [hash.2]; decide) : hash.1 ≠ [])
  have htake : (utilsUint8ToHex hash.1).take 2 = utilsUint8ToHex [byte] := by
    rw [hcons]
    rfl
  have hshort : ¬ (utilsUint8ToHex [byte]).length > toUint8HexBufLen := by
    rw [length_utilsUint8ToHex, List.length_singleton]
    decide
  refine ⟨_, by rw [htake, utilsHexToUint8, if_neg hshort], ?_⟩
  rw [utilsHexToBin_utilsUint8ToHex, hcons]
  rfl

theorem produceMnemonicSentence_eq (h : Encodes pf entropy idxs) (hlow : 4 ≤ k) (hhigh : k ≤ 8)
    (hlen : entropy.length = 4 * k) :
    produceMnemonicSentence (k * 33 + 1) (k + 1) ((utilsUint8ToHex (pf.sha256Raw entropy).1).take 2)
        (entropy.flatMap byteToBinary) wordlist space true =
      if (sentence wordlist space idxs).length + 1 > maxMnemonicStringSize then none
      else some {
        mnemonic := sentence wordlist space idxs
        mnemonicSize := (sentence wordlist space idxs).length + 1 } := by
  obtain ⟨bytes, hbytes, hfirst⟩ := utilsHexToUint8_take (pf.sha256Raw entropy)
  have hchecksum : (toBits 8 ((pf.sha256Raw entropy).1.headD 0).toNat).take k =
    checksumBits pf entropy := by
    rw [checksumBits, hlen, Nat.mul_div_cancel_left _ (by decide)]
  -- the segment holds all bits and a NUL
  have hsegment : ∀ entropyBits csBits : List Char, entropyBits.length = 32 * k →
    csBits.length = k →
      ((entropyBits.take (k * 33 + 1 - 1) ++
          csBits.take (k * 33 + 1 - (entropyBits.take (k * 33 + 1 - 1)).length - 1)) ++
        List.replicate (k * 33 + 1) '\x00').take (k * 33 + 1) =
          entropyBits ++ csBits ++ ['\x00'] := by
    intro entropyBits csBits hentropy hcs
    rw [List.take_of_length_le (l := entropyBits) (by omega),
      List.take_of_length_le (l := csBits) (by omega),
      List.replicate_succ, List.take_append,
        List.take_of_length_le (by rw [List.length_append]; omega),
      List.length_append, hentropy, hcs]
    have hone : k * 33 + 1 - (32 * k + k) = 1 := by omega
    rw [hone]
    rfl
  unfold produceMnemonicSentence
  rw [if_neg (by omega), hbytes]
  dsimp only [Option.bind_eq_bind, Option.bind_some]
  rw [hfirst, csBitsOf_eq hlow hhigh, hchecksum]
  dsimp only [Option.bind_some]
  rw [hsegment _ _ (by rw [flatMap_byteToBinary, List.length_map, length_bytesBits]; omega)
      (by rw [List.length_map, length_checksumBits hhigh hlen]),
    flatMap_byteToBinary, ← List.map_append, ← h.bits, produceWords_segment h.idxs_ne_nil h.lt]
  split_ifs
  · rfl
  · rfl

/-- **The sentence of an entropy**, if it fits. -/
theorem getMnemonic_eq {randomBytes : (n : ℕ) → Option {bs : Bytes // bs.length = n}}
    (h : Encodes pf entropy idxs) :
    getMnemonic pf randomBytes (entropy.length * 8) (some (utilsUint8ToHex entropy))
      wordlist space true =
      if (sentence wordlist space idxs).length + 1 > maxMnemonicStringSize then none
      else some {
        mnemonic := sentence wordlist space idxs
        mnemonicSize := (sentence wordlist space idxs).length + 1
        entropyOut := utilsUint8ToHex entropy } := by
  obtain ⟨k, hlow, hhigh, hlen⟩ := h.isEntropy.exists_eq
  have hsize : entropy.length * 8 ≥ 128 ∧ entropy.length * 8 ≤ 256 ∧
    entropy.length * 8 % 32 = 0 := by omega
  have hlocal : (utilsHexToUint8 (utilsUint8ToHex entropy)).map (fun bytes =>
    bytes.take entropy.length) = some entropy := by
    rw [utilsHexToUint8_hex (by unfold toUint8HexBufLen; omega) le_rfl, List.take_length]
  have hcs : entropy.length * 8 / 32 = k := by omega
  unfold getMnemonic
  rw [if_neg (not_not.mpr hsize)]
  dsimp only [Option.bind_eq_bind]
  rw [Nat.mul_div_cancel _ (by decide : 0 < 8), hlocal, hcs]
  dsimp only [Option.bind_some]
  rw [produceMnemonicSentence_eq h hlow hhigh hlen]
  split_ifs
  · rfl
  · rfl

/-! ## Checking a sentence -/

/-- The first byte of a character is none of its others. -/
theorem IsCharacter.exists_lead (h : IsCharacter sep) :
    ∃ lead conts, sep = lead :: conts ∧ lead ∉ conts := by
  rcases h with ⟨b, rfl⟩ | ⟨c, rfl⟩
  · exact ⟨b, [], rfl, List.not_mem_nil⟩
  · obtain ⟨lead, conts, hcons⟩ :=
      List.exists_cons_of_ne_nil (String.utf8EncodeChar_ne_nil (c := c))
    refine ⟨lead, conts, hcons, fun hmem => ?_⟩
    obtain ⟨i, hi, hget⟩ := List.mem_iff_getElem.mp hmem
    have hlen : (String.utf8EncodeChar c).length =
      conts.length + 1 := by rw [hcons, List.length_cons]
    have hfirst : (String.utf8EncodeChar c)[0].IsUTF8FirstByte :=
      UInt8.isUTF8FirstByte_getElem_zero_utf8EncodeChar
    have hother : (String.utf8EncodeChar c)[i + 1] = (String.utf8EncodeChar c)[0] := by
      simpa [hcons] using hget
    rw [← hother] at hfirst
    exact absurd (UInt8.isUTF8FirstByte_getElem_utf8EncodeChar.mp hfirst) (Nat.succ_ne_zero i)

/-- The needle stands where it is found. -/
theorem eq_append_of_strstr {needle s : Bytes} (h : strstr needle s = some i) :
    s = s.take i ++ needle ++ s.drop (i + needle.length) := by
  induction s generalizing i with
  | nil =>
    rw [strstr] at h
    split_ifs at h with hnil
    obtain rfl := Option.some.inj h
    rw [hnil]
    rfl
  | cons c s ih =>
    rw [strstr] at h
    split_ifs at h with hprefix
    · obtain rfl := Option.some.inj h
      obtain ⟨rest, hrest⟩ := hprefix
      rw [← hrest, Nat.zero_add, List.drop_left]
      rfl
    · obtain ⟨j, hj, rfl⟩ := Option.map_eq_some_iff.mp h
      rw [List.take_succ_cons, Nat.add_right_comm, List.drop_succ_cons, List.cons_append,
        List.cons_append, ← ih hj]

theorem strstr_eq_none {needle s : Bytes} (hne : needle ≠ []) (h : ¬ needle <:+: s) :
    strstr needle s = none := by
  induction s with
  | nil => rw [strstr, if_neg hne]
  | cons c s ih =>
    rw [List.infix_cons_iff, not_or] at h
    rw [strstr, if_neg h.1, ih h.2, Option.map_none]

/-- A separator behind a word is found there: it does not begin in the word. -/
theorem strstr_append (hsep : IsCharacter sep) {word : Bytes} (hword : ¬ sep <:+: word)
    (rest : Bytes) :
    strstr sep (word ++ (sep ++ rest)) = some word.length := by
  obtain ⟨lead, conts, rfl, hlead⟩ := hsep.exists_lead
  induction word with
  | nil =>
    rw [List.nil_append, List.cons_append, strstr, if_pos ⟨rest, rfl⟩]
    rfl
  | cons c word ih =>
    rw [List.infix_cons_iff, not_or] at hword
    have hnot : ¬ lead :: conts <+: c :: (word ++ (lead :: conts ++ rest)) := by
      rintro ⟨tail, htail⟩
      have hsplit : lead :: conts ++ tail = c :: word ++ (lead :: conts ++ rest) := htail
      rcases List.append_eq_append_iff.mp hsplit with ⟨gap, hgap, -⟩ | ⟨behind, hbehind, htail⟩
      · exact hword.1 ⟨gap, hgap.symm⟩
      · cases behind with
        | nil => exact hword.1 ⟨[], by rw [List.append_nil, hbehind, List.append_nil]⟩
        -- its first byte would be one of the others
        | cons b behind =>
          obtain ⟨rfl, -⟩ := List.cons.inj htail
          have hconts := (List.cons.inj hbehind).2
          exact hlead (hconts ▸ List.mem_append_right word List.mem_cons_self)
    rw [List.cons_append, strstr, if_neg hnot, ih hword.2, Option.map_some, List.length_cons]

theorem countWords_eq (space : Bytes) (fuel : ℕ) (s : Bytes) :
    countWords space fuel s = (tokens space fuel s).length := by
  induction fuel generalizing s with
  | zero => rfl
  | succ fuel ih =>
    rw [countWords, tokens]
    cases strstr space s with
    | none => rfl
    | some i =>
      dsimp only
      rw [ih, List.length_cons]

theorem intercalate_cons_of_ne_nil {words : List Bytes} (sep word : Bytes) (h : words ≠ []) :
    sep.intercalate (word :: words) = word ++ (sep ++ sep.intercalate words) := by
  obtain ⟨next, words, rfl⟩ := List.exists_cons_of_ne_nil h
  rw [List.intercalate_cons_cons, List.append_assoc]

theorem tokens_ne_nil (space : Bytes) (fuel : ℕ) (s : Bytes) : tokens space fuel s ≠ [] := by
  cases fuel with
  | zero => exact List.cons_ne_nil _ _
  | succ fuel =>
    rw [tokens]
    split
    · exact List.cons_ne_nil _ _
    · exact List.cons_ne_nil _ _

/-- The tokens make up the string. -/
theorem intercalate_tokens (space : Bytes) (fuel : ℕ) (s : Bytes) :
    space.intercalate (tokens space fuel s) = s := by
  induction fuel generalizing s with
  | zero => exact List.intercalate_singleton
  | succ fuel ih =>
    rw [tokens]
    cases hfind : strstr space s with
    | none => exact List.intercalate_singleton
    | some toklen =>
      dsimp only
      rw [intercalate_cons_of_ne_nil _ _ (tokens_ne_nil space _ _), ih, ← List.append_assoc]
      exact (eq_append_of_strstr hfind).symm

/-- The words are what stands between the separators. -/
theorem tokens_intercalate (hsep : IsCharacter sep) {words : List Bytes} (hne : words ≠ [])
    (hwords : ∀ word ∈ words, ¬ sep <:+: word) {fuel : ℕ}
    (h : (sep.intercalate words).length ≤ fuel) :
    tokens sep fuel (sep.intercalate words) = words := by
  obtain ⟨lead, conts, hcons, -⟩ := hsep.exists_lead
  have hpos : sep ≠ [] := hcons ▸ List.cons_ne_nil lead conts
  induction words generalizing fuel with
  | nil => exact absurd rfl hne
  | cons word words ih =>
    obtain ⟨hword, hrest⟩ := List.forall_mem_cons.mp hwords
    rcases eq_or_ne words [] with rfl | hwords
    · rw [List.intercalate_singleton]
      cases fuel with
      | zero => rfl
      | succ fuel => rw [tokens, strstr_eq_none hpos hword]
    · rw [intercalate_cons_of_ne_nil _ _ hwords] at h ⊢
      rw [List.length_append, List.length_append] at h
      have hlen := List.length_pos_iff.mpr hpos
      cases fuel with
      | zero => omega
      | succ fuel =>
        rw [tokens, strstr_append hsep hword]
        dsimp only
        rw [List.take_left, ← List.append_assoc, List.drop_left' (List.length_append ..),
          ih hwords hrest (by omega)]

/-- A word is found at its place, and there only. -/
theorem wordIndex_eq_some_iff (hlen : wordlist.length = langWordCnt) (hnodup : wordlist.Nodup)
    {token : Bytes} :
    wordIndex wordlist token = some i ↔ i < langWordCnt ∧ wordlist.getD i [] = token := by
  have hexact : ∀ word : Bytes,
      (decide (word.take token.length = token) && decide (word.length ≤ token.length)) = true ↔
        word = token := by
    intro word
    rw [Bool.and_eq_true, decide_eq_true_eq, decide_eq_true_eq]
    constructor
    · rintro ⟨htake, hle⟩
      rwa [List.take_of_length_le hle] at htake
    · rintro rfl
      exact ⟨List.take_length, le_rfl⟩
  unfold wordIndex
  rw [← hlen, List.take_length, List.findIdx?_eq_some_iff_getElem]
  constructor
  · rintro ⟨hi, hword, -⟩
    refine ⟨hi, ?_⟩
    rw [List.getD_eq_getElem _ _ hi]
    exact (hexact _).mp hword
  · rintro ⟨hi, hword⟩
    rw [List.getD_eq_getElem _ _ hi] at hword
    refine ⟨hi, (hexact _).mpr hword, fun j hj hfound => ?_⟩
    have hsame := (hexact _).mp hfound
    have hij := (List.Nodup.getElem_inj_iff hnodup).mp (hsame.trans hword.symm)
    omega

/-- All words are found where they stand. -/
theorem mapM_wordIndex_iff (hlen : wordlist.length = langWordCnt) (hnodup : wordlist.Nodup)
    {words : List Bytes} : words.mapM (wordIndex wordlist) = some idxs ↔
      (∀ i ∈ idxs, i < 2 ^ bitsPerWord) ∧ wordsAt wordlist idxs = words := by
  induction words generalizing idxs with
  | nil =>
    rw [List.mapM_nil]
    constructor
    · intro h
      obtain rfl := Option.some.inj h
      exact ⟨fun i hi => absurd hi List.not_mem_nil, rfl⟩
    · rintro ⟨-, hnil⟩
      rw [List.map_eq_nil_iff.mp hnil]
      rfl
  | cons word words ih =>
    rw [List.mapM_cons]
    constructor
    · intro h
      obtain ⟨i, hi, h⟩ := Option.bind_eq_some_iff.mp h
      obtain ⟨rest, hrest, h⟩ := Option.bind_eq_some_iff.mp h
      obtain rfl := Option.some.inj h
      obtain ⟨hlt, hword⟩ := (wordIndex_eq_some_iff hlen hnodup).mp hi
      obtain ⟨hlts, hwords⟩ := ih.mp hrest
      refine ⟨List.forall_mem_cons.mpr ⟨hlt, hlts⟩, ?_⟩
      rw [wordsAt, List.map_cons, hword]
      exact congrArg (word :: ·) hwords
    · rintro ⟨hlts, hwords⟩
      cases idxs with
      | nil => cases hwords
      | cons i rest =>
        obtain ⟨hlt, hrest⟩ := List.forall_mem_cons.mp hlts
        obtain ⟨hword, htail⟩ := List.cons.inj hwords
        rw [(wordIndex_eq_some_iff hlen hnodup).mpr ⟨hlt, hword⟩, ih.mpr ⟨hrest, htail⟩]
        rfl

theorem bitChar_testBit (n b : ℕ) :
    (if (n >>> b) &&& 1 ≠ 0 then '1' else '0') = bitChar (n.testBit b) := by
  simp [Nat.testBit, bitChar, Nat.and_comm]

theorem wordBits_eq (i : ℕ) : wordBits i = (toBits bitsPerWord i).map bitChar := by
  rw [toBits_eq_map, List.map_map, wordBits]
  apply List.map_congr_left
  intro b _
  exact bitChar_testBit i b

theorem bitChar_injective {a b : Bool} (h : bitChar a = bitChar b) : a = b := by
  cases a <;> cases b
  · rfl
  · exact absurd h (by decide)
  · exact absurd h (by decide)
  · rfl

/-- A byte is put together from its bits. -/
theorem foldl_testBit (x : UInt8) :
    (List.range 8).foldl (fun byte b =>
      if bitChar (x.toNat.testBit (7 - b)) = '1' then byte ||| (1 <<< (7 - UInt8.ofNat b))
      else byte) 0 = x := by
  have hall : ∀ n < 256, (List.range 8).foldl (fun byte b =>
    if bitChar (n.testBit (7 - b)) = '1' then
      byte ||| (1 <<< (7 - UInt8.ofNat b)) else byte) 0 = UInt8.ofNat n := by
    decide +kernel
  rw [hall x.toNat x.toNat_lt, UInt8.ofNat_toNat]

/-- The byte that eight characters stand for. -/
theorem entropyByte_eq (rest : List Bool) (h : i < bs.length) :
    entropyByte ((bytesBits bs ++ rest).map bitChar) i = bs[i] := by
  have hbit : ∀ b < 8, ((bytesBits bs ++ rest).map bitChar).getD (i * 8 + b) '\x00' =
      bitChar (bs[i].toNat.testBit (7 - b)) := by
    intro b hb
    have hsplit : bs = bs.take i ++ bs[i] :: bs.drop (i + 1) := by
      rw [List.getElem_cons_drop, List.take_append_drop]
    have hfront : (bytesBits (bs.take i)).length = i * 8 := by
      rw [length_bytesBits, List.length_take_of_le (by omega)]
    have hbits : bytesBits bs =
        bytesBits (bs.take i) ++ (toBits 8 bs[i].toNat ++ bytesBits (bs.drop (i + 1))) := by
      conv_lhs => rw [hsplit]
      unfold bytesBits
      rw [List.map_append, List.flatMap_append, List.map_cons, List.flatMap_cons]
    have hget : (bytesBits bs ++ rest)[i * 8 + b]? = some (bs[i].toNat.testBit (7 - b)) := by
      rw [hbits, List.append_assoc, List.getElem?_append_right (by omega), hfront,
        Nat.add_sub_cancel_left,
        List.append_assoc, List.getElem?_append_left (by rw [length_toBits]; exact hb),
          getElem?_toBits _ hb]
    rw [List.getD_eq_getElem?_getD, List.getElem?_map, hget]
    rfl
  rw [← foldl_testBit bs[i]]
  unfold entropyByte
  apply List.foldl_ext
  intro byte b hb
  rw [hbit b (List.mem_range.mp hb)]

theorem map_entropyByte (rest : List Bool) :
    (List.range bs.length).map (entropyByte ((bytesBits bs ++ rest).map bitChar)) = bs := by
  apply List.ext_getElem
  · rw [List.length_map, List.length_range]
  · intro i _ hi
    rw [List.getElem_map, List.getElem_range, entropyByte_eq rest hi]

/-- The comparison of the last bits with those of the hash. -/
theorem checksum_all_iff (hk : k ≤ 8) (hlen : bs.length = 4 * k) (hchecksum : checksum.length = k) :
    ((List.range k).all fun i => ((bytesBits bs ++ checksum).map bitChar).getD (32 * k + i) '\x00' =
      if (((pf.sha256Raw bs).1.headD 0).toNat >>> (7 - i)) &&& 1 ≠ 0 then '1' else '0') = true ↔
      checksum = checksumBits pf bs := by
  have hget : ∀ i (hi : i < checksum.length),
    ((bytesBits bs ++ checksum).map bitChar).getD (32 * k + i) '\x00' = bitChar checksum[i] := by
    intro i hi
    have hfront : (bytesBits bs).length = 32 * k := by rw [length_bytesBits]; omega
    rw [List.getD_eq_getElem?_getD, List.getElem?_map,
      List.getElem?_append_right (by omega), hfront,
      Nat.add_sub_cancel_left, List.getElem?_eq_getElem hi]
    rfl
  have hbits : ∀ i (hi : i < (checksumBits pf bs).length), (checksumBits pf bs)[i] =
      ((pf.sha256Raw bs).1.headD 0).toNat.testBit (7 - i) := by
    intro i hi
    rw [length_checksumBits hk hlen] at hi
    have hsome := getElem?_toBits ((pf.sha256Raw bs).1.headD 0).toNat (by omega : i < 8)
    simp only [checksumBits, List.getElem_take]
    exact (List.getElem?_eq_some_iff.mp hsome).2
  rw [List.all_eq_true]
  constructor
  · intro hall
    apply List.ext_getElem
    · rw [hchecksum, length_checksumBits hk hlen]
    · intro i hi hi'
      have hsame := of_decide_eq_true (hall i (List.mem_range.mpr (hchecksum ▸ hi)))
      rw [hget i hi, bitChar_testBit] at hsame
      rw [hbits i hi']
      exact bitChar_injective hsame
  · rintro rfl i hi
    have hlt : i < (checksumBits pf bs).length := by
      rw [hchecksum]
      exact List.mem_range.mp hi
    rw [hget i hlt, bitChar_testBit, hbits i hlt]
    exact decide_eq_true rfl

/-- The end of a check: the numbers of bits, and the bits themselves. -/
theorem verify_bits {wordCount : ℕ} (hk : k ≤ 8) (hcount : wordCount = 3 * k)
    (hlen : bs.length = 4 * k) (hchecksum : checksum.length = k)
    (hbits : idxs.flatMap (toBits bitsPerWord) = bytesBits bs ++ checksum) :
    ((List.range (wordCount * bitsPerWord / 33)).all fun i =>
        (idxs.flatMap wordBits).getD (wordCount * bitsPerWord - wordCount * bitsPerWord /
          33 + i) '\x00' =
          if ((((pf.sha256Raw ((List.range ((wordCount * bitsPerWord -
              wordCount * bitsPerWord / 33) / 8)).map
                (entropyByte (idxs.flatMap wordBits)))).1.headD 0).toNat >>> (7 - i)) &&& 1) ≠
                  0 then '1' else '0') = true ↔
      checksum = checksumBits pf bs := by
  have htotal : wordCount * bitsPerWord / 33 = k := by unfold bitsPerWord; omega
  have hentropyBits : wordCount * bitsPerWord - k = 32 * k := by unfold bitsPerWord; omega
  have hbytes : 32 * k / 8 = bs.length := by omega
  have hbitstr : idxs.flatMap wordBits = (bytesBits bs ++ checksum).map bitChar := by
    rw [← hbits, List.map_flatMap]
    apply List.flatMap_congr
    intro i _
    exact wordBits_eq i
  rw [htotal, hentropyBits, hbytes, hbitstr, map_entropyByte]
  exact checksum_all_iff hk hlen hchecksum

theorem length_wordsAt (wordlist : List Bytes) (idxs : List ℕ) :
    (wordsAt wordlist idxs).length = idxs.length := List.length_map ..

/-- A sentence falls into its words. -/
theorem tokens_sentence (hlen : wordlist.length = langWordCnt) (hchar : IsCharacter sep)
    (hsep : ∀ word ∈ wordlist, ¬ sep <:+: word) (hne : idxs ≠ [])
    (hlt : ∀ i ∈ idxs, i < 2 ^ bitsPerWord) :
    tokens sep (sentence wordlist sep idxs).length (sentence wordlist sep idxs) =
      wordsAt wordlist idxs := by
  refine tokens_intercalate hchar (fun hnil => hne (List.map_eq_nil_iff.mp hnil)) ?_ le_rfl
  intro word hword
  obtain ⟨i, hi, rfl⟩ := List.mem_map.mp hword
  have hbound : i < wordlist.length := hlen ▸ hlt i hi
  rw [List.getD_eq_getElem _ _ hbound]
  exact hsep _ (List.getElem_mem hbound)

/-- **What is accepted**: the sentences of the code. -/
theorem verifyMnemonicSentence_eq_true_iff (hlen : wordlist.length = langWordCnt)
    (hnodup : wordlist.Nodup) (hchar : IsCharacter sep)
    (hsep : ∀ word ∈ wordlist, ¬ sep <:+: word) :
    verifyMnemonicSentence pf mnemonic wordlist sep = true ↔
      ∃ entropy idxs, Encodes pf entropy idxs ∧ mnemonic = sentence wordlist sep idxs := by
  unfold verifyMnemonicSentence
  obtain ⟨lead, conts, hcons, -⟩ := hchar.exists_lead
  rw [if_neg (by rw [hcons]; exact Nat.succ_ne_zero _), countWords_eq]
  dsimp only
  constructor
  · intro h
    by_cases hcount : (tokens sep mnemonic.length mnemonic).length < 12 ∨
      (tokens sep mnemonic.length mnemonic).length > 24 ∨
        (tokens sep mnemonic.length mnemonic).length % 3 ≠ 0
    · rw [if_pos hcount] at h
      cases h
    rw [if_neg hcount] at h
    obtain ⟨k, hk⟩ : ∃ k, (tokens sep mnemonic.length mnemonic).length = 3 * k :=
      ⟨_, (Nat.mul_div_cancel' (by omega)).symm⟩
    cases hwords : (tokens sep mnemonic.length mnemonic).mapM (wordIndex wordlist) with
    | none =>
      rw [hwords] at h
      cases h
    | some idxs =>
      rw [hwords] at h
      obtain ⟨hlt, hwordsAt⟩ := (mapM_wordIndex_iff hlen hnodup).mp hwords
      have hidxs : idxs.length = 3 * k := by rw [← length_wordsAt wordlist, hwordsAt, hk]
      -- the first bits are those of some bytes
      have hbits : (idxs.flatMap (toBits bitsPerWord)).length = 33 * k := by
        rw [length_flatMap_toBits, hidxs]
        unfold bitsPerWord
        omega
      obtain ⟨entropy, hentropy, hfront⟩ := exists_bytesBits (by
        rw [List.length_take_of_le (by omega : 32 * k ≤ (idxs.flatMap (toBits bitsPerWord)).length)]
        omega : ((idxs.flatMap (toBits bitsPerWord)).take (32 * k)).length = 4 * k * 8)
      have hsplit : idxs.flatMap (toBits bitsPerWord) =
          bytesBits entropy ++ (idxs.flatMap (toBits bitsPerWord)).drop (32 * k) := by
        rw [hfront, List.take_append_drop]
      refine ⟨entropy, idxs, ⟨?_, hlt, ?_⟩, ?_⟩
      · have hcases : k = 4 ∨ k = 5 ∨ k = 6 ∨ k = 7 ∨ k = 8 := by omega
        rw [IsEntropy, hentropy]
        obtain rfl | rfl | rfl | rfl | rfl := hcases <;> decide
      · rw [← (verify_bits (by omega) hk hentropy (by rw [List.length_drop]; omega) hsplit).mp h]
        exact hsplit
      · rw [sentence, hwordsAt, intercalate_tokens]
  · rintro ⟨entropy, idxs, hencodes, rfl⟩
    obtain ⟨k, hlow, hhigh, hentropy⟩ := hencodes.isEntropy.exists_eq
    have hidxs := hencodes.length_idxs hhigh hentropy
    rw [tokens_sentence hlen hchar hsep hencodes.idxs_ne_nil hencodes.lt, length_wordsAt,
      if_neg (by omega), (mapM_wordIndex_iff hlen hnodup).mpr ⟨hencodes.lt, rfl⟩]
    exact (verify_bits hhigh hidxs hentropy (length_checksumBits hhigh hentropy)
      hencodes.bits).mpr rfl

/-- The indices can be read off a sentence. -/
theorem sentence_injective (hlen : wordlist.length = langWordCnt) (hnodup : wordlist.Nodup)
    (hchar : IsCharacter sep) (hsep : ∀ word ∈ wordlist, ¬ sep <:+: word) {idxs' : List ℕ}
    (hne : idxs ≠ []) (hne' : idxs' ≠ [])
    (hlt : ∀ i ∈ idxs, i < 2 ^ bitsPerWord) (hlt' : ∀ i ∈ idxs', i < 2 ^ bitsPerWord)
    (h : sentence wordlist sep idxs = sentence wordlist sep idxs') : idxs = idxs' := by
  have hwords : wordsAt wordlist idxs = wordsAt wordlist idxs' := by
    rw [← tokens_sentence hlen hchar hsep hne hlt, h, tokens_sentence hlen hchar hsep hne' hlt']
  have hfound := (mapM_wordIndex_iff hlen hnodup).mpr ⟨hlt, rfl⟩
  rw [hwords, (mapM_wordIndex_iff hlen hnodup).mpr ⟨hlt', rfl⟩] at hfound
  exact (Option.some.inj hfound).symm

/-- The sentence that is made from an entropy. -/
def MadeFrom (pf : Platform) (randomBytes : (n : ℕ) → Option {bs : Bytes // bs.length = n})
    (wordlist : List Bytes) (space mnemonic entropy : Bytes) : Prop :=
  entropy.length * 8 ∈ [128, 160, 192, 224, 256] ∧
    (getMnemonic pf randomBytes (entropy.length * 8) (some (utilsUint8ToHex entropy))
      wordlist space true).map (·.mnemonic) = some mnemonic

theorem madeFrom_iff {randomBytes : (n : ℕ) → Option {bs : Bytes // bs.length = n}} :
    MadeFrom pf randomBytes wordlist space mnemonic entropy ↔
      mnemonic.length + 1 ≤ maxMnemonicStringSize ∧
        ∃ idxs, Encodes pf entropy idxs ∧ mnemonic = sentence wordlist space idxs := by
  have hsizes : entropy.length * 8 ∈ [128, 160, 192, 224, 256] ↔ IsEntropy entropy := by
    unfold IsEntropy
    simp only [List.mem_cons, List.not_mem_nil, or_false]
    omega
  unfold MadeFrom
  rw [hsizes]
  constructor
  · rintro ⟨hentropy, hmade⟩
    obtain ⟨idxs, hencodes⟩ := Encodes.exists_idxs pf hentropy
    rw [getMnemonic_eq hencodes] at hmade
    by_cases hroom : (sentence wordlist space idxs).length + 1 > maxMnemonicStringSize
    · rw [if_pos hroom] at hmade
      cases hmade
    · rw [if_neg hroom] at hmade
      obtain rfl := Option.some.inj hmade
      exact ⟨not_lt.mp hroom, idxs, hencodes, rfl⟩
  · rintro ⟨hroom, idxs, hencodes, rfl⟩
    refine ⟨hencodes.isEntropy, ?_⟩
    rw [getMnemonic_eq hencodes, if_neg (not_lt.mpr hroom)]
    rfl

/-- **A sentence is accepted when it is made from an entropy**, and it is made from one only. -/
theorem verifyMnemonicSentence_iff_madeFrom {pf : Platform}
    {randomBytes : (n : ℕ) → Option {bs : Bytes // bs.length = n}} {wordlist : List Bytes}
    (hlen : wordlist.length = langWordCnt) (hnodup : wordlist.Nodup) {sep : Bytes}
    (hchar : IsCharacter sep)
    (hsep : ∀ word ∈ wordlist, ¬ sep <:+: word) {mnemonic : Bytes}
    (hroom : mnemonic.length + 1 ≤ maxMnemonicStringSize) :
    (verifyMnemonicSentence pf mnemonic wordlist sep = true ↔
        ∃ entropy, MadeFrom pf randomBytes wordlist sep mnemonic entropy) ∧
      ∀ entropy entropy', MadeFrom pf randomBytes wordlist sep mnemonic entropy →
        MadeFrom pf randomBytes wordlist sep mnemonic entropy' → entropy = entropy' := by
  constructor
  · rw [verifyMnemonicSentence_eq_true_iff hlen hnodup hchar hsep]
    constructor
    · rintro ⟨entropy, idxs, hencodes, hmnemonic⟩
      exact ⟨entropy, madeFrom_iff.mpr ⟨hroom, idxs, hencodes, hmnemonic⟩⟩
    · rintro ⟨entropy, hmade⟩
      obtain ⟨-, idxs, hencodes, hmnemonic⟩ := madeFrom_iff.mp hmade
      exact ⟨entropy, idxs, hencodes, hmnemonic⟩
  · intro entropy entropy' hmade hmade'
    obtain ⟨-, idxs, hencodes, hmnemonic⟩ := madeFrom_iff.mp hmade
    obtain ⟨-, idxs', hencodes', hmnemonic'⟩ := madeFrom_iff.mp hmade'
    obtain rfl := sentence_injective hlen hnodup hchar hsep hencodes.idxs_ne_nil
      hencodes'.idxs_ne_nil hencodes.lt hencodes'.lt (hmnemonic.symm.trans hmnemonic')
    exact hencodes.entropy_unique hencodes'

/-! ## A sentence on fixed inputs -/

/-- Two characters for every word. -/
def sampleWords : List Bytes :=
  (List.range langWordCnt).map fun i => [UInt8.ofNat (33 + i / 64), UInt8.ofNat (33 + i % 64)]

theorem length_sampleWords : sampleWords.length = langWordCnt := by
  rw [sampleWords, List.length_map, List.length_range]

theorem toNat_sampleWords (h : i < langWordCnt) :
    (UInt8.ofNat (33 + i / 64)).toNat = 33 + i / 64 ∧ (UInt8.ofNat (33 + i % 64)).toNat =
    33 + i % 64 := by
  unfold langWordCnt at h
  constructor
  · rw [UInt8.toNat_ofNat']
    omega
  · rw [UInt8.toNat_ofNat']
    omega

theorem nodup_sampleWords : sampleWords.Nodup := by
  refine List.Nodup.map_on ?_ List.nodup_range
  intro i hi j hj h
  obtain ⟨hhigh, hrest⟩ := List.cons.inj h
  have hlow := (List.cons.inj hrest).1
  obtain ⟨hi1, hi2⟩ := toNat_sampleWords (List.mem_range.mp hi)
  obtain ⟨hj1, hj2⟩ := toNat_sampleWords (List.mem_range.mp hj)
  rw [hhigh, hj1] at hi1
  rw [hlow, hj2] at hi2
  omega

theorem length_of_mem_sampleWords {word : Bytes} (h : word ∈ sampleWords) : word.length = 2 := by
  obtain ⟨i, -, rfl⟩ := List.mem_map.mp h
  rfl

/-- The ideographic space, U+3000. -/
def ideographicSpace : Bytes := [0xe3, 0x80, 0x80]

theorem isCharacter_ideographicSpace : IsCharacter ideographicSpace := .inr ⟨'\u3000', by decide⟩

theorem not_infix_sampleWords : ∀ word ∈ sampleWords, ¬ ideographicSpace <:+: word := by
  intro word hword hinfix
  have hle : 3 ≤ word.length := hinfix.length_le
  rw [length_of_mem_sampleWords hword] at hle
  omega

/-- The sentence of 128 bits that are zero. -/
def sampleMnemonic : Bytes :=
  ((getMnemonic samplePlatform (fun _ => none) 128 (some (utilsUint8ToHex (List.replicate 16 0)))
    sampleWords ideographicSpace true).map (·.mnemonic)).getD []

/-- Twelve words of two bytes, and eleven separators of three. -/
theorem verifyMnemonicSentence_iff_madeFrom_sample :
    sampleMnemonic.length = 57 ∧
      (verifyMnemonicSentence samplePlatform sampleMnemonic sampleWords ideographicSpace = true ↔
        ∃ entropy, MadeFrom samplePlatform (fun _ =>
          none) sampleWords ideographicSpace sampleMnemonic entropy) ∧
      ∀ entropy entropy',
        MadeFrom samplePlatform (fun _ => none) sampleWords ideographicSpace
          sampleMnemonic entropy →
        MadeFrom samplePlatform (fun _ => none) sampleWords ideographicSpace
          sampleMnemonic entropy' →
          entropy = entropy' := by
  have hlen : sampleMnemonic.length = 57 := by decide +kernel
  exact ⟨hlen, verifyMnemonicSentence_iff_madeFrom length_sampleWords nodup_sampleWords
    isCharacter_ideographicSpace not_infix_sampleWords (by rw [hlen]; decide)⟩

end Bip39

end Libdogecoin
