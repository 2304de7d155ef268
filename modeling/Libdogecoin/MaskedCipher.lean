/-
# Block ciphers under a mask

A block is masked before it is encrypted. A text that is a little longer than a block takes two
blocks: the end of the first ciphertext goes into the second block, and only its start is kept.

* `maskDecrypt_maskEncrypt` : one block is read back;
* `overlapDecrypt_overlapEncrypt` : two overlapping blocks are.
-/
import Mathlib.Data.UInt

namespace MaskedCipher

/-- The bytes of two lists, added bit by bit. -/
def xorBytes (as bs : List UInt8) : List UInt8 := List.zipWith (· ^^^ ·) as bs

@[simp] theorem length_xorBytes (as bs : List UInt8) :
    (xorBytes as bs).length = min as.length bs.length := List.length_zipWith

theorem xorBytes_comm (as bs : List UInt8) : xorBytes as bs = xorBytes bs as := by
  unfold xorBytes
  rw [List.zipWith_comm]
  congr 1
  funext b a
  exact UInt8.xor_comm a b

/-- A mask that is added twice is gone. -/
theorem xorBytes_cancel {as bs : List UInt8} (h : as.length ≤ bs.length) :
    xorBytes (xorBytes as bs) bs = as := by
  induction as generalizing bs with
  | nil => rfl
  | cons a as ih =>
    cases bs with
    | nil => cases h
    | cons b bs =>
      have hbyte : a ^^^ b ^^^ b = a := by rw [UInt8.xor_assoc, UInt8.xor_self, UInt8.xor_zero]
      show (a ^^^ b ^^^ b) :: xorBytes (xorBytes as bs) bs = a :: as
      rw [hbyte, ih (Nat.le_of_succ_le_succ h)]

/-- A block cipher: the key, then the block. -/
structure BlockCipher where
  encrypt : List UInt8 → List UInt8 → List UInt8
  decrypt : List UInt8 → List UInt8 → List UInt8

namespace BlockCipher

/-- What is known of a cipher on blocks of a size. -/
structure Lawful (c : BlockCipher) (size : ℕ) : Prop where
  length_encrypt : ∀ {key block : List UInt8}, block.length = size →
    (c.encrypt key block).length = size
  decrypt_encrypt : ∀ {key block : List UInt8}, block.length = size →
    c.decrypt key (c.encrypt key block) = block

variable (c : BlockCipher)

/-- A masked block is encrypted. -/
def maskEncrypt (key mask plain : List UInt8) : List UInt8 := c.encrypt key (xorBytes plain mask)

/-- A block is decrypted, and the mask is taken off. -/
def maskDecrypt (key mask cipher : List UInt8) : List UInt8 := xorBytes (c.decrypt key cipher) mask

/-- Two overlapping blocks: what is kept of the first, and the second. -/
def overlapEncrypt (size keep : ℕ) (key mask1 mask2 text : List UInt8) : List UInt8 × List UInt8 :=
  let part1 := c.maskEncrypt key mask1 (text.take size)
  let part2 := c.maskEncrypt key mask2 (part1.drop keep ++ text.drop size)
  (part1.take keep, part2)

/-- The second block has the rest of the first in front. -/
def overlapDecrypt (size keep : ℕ) (key mask1 mask2 part1 part2 : List UInt8) : List UInt8 :=
  let block2 := c.maskDecrypt key mask2 part2
  c.maskDecrypt key mask1 (part1 ++ block2.take (size - keep)) ++ block2.drop (size - keep)

variable {c} {size keep : ℕ} {key mask mask1 mask2 plain text : List UInt8}

theorem length_maskEncrypt (hc : c.Lawful size) (hmask : mask.length = size)
    (hplain : plain.length = size) :
    (c.maskEncrypt key mask plain).length = size := by
  apply hc.length_encrypt
  rw [length_xorBytes, hmask, hplain, Nat.min_self]

/-- One block is read back. -/
theorem maskDecrypt_maskEncrypt (hc : c.Lawful size) (hmask : mask.length = size)
    (hplain : plain.length = size) : c.maskDecrypt key mask (c.maskEncrypt key mask plain) =
    plain := by
  have hblock : (xorBytes plain mask).length = size := by
    rw [length_xorBytes, hmask, hplain, Nat.min_self]
  rw [maskDecrypt, maskEncrypt, hc.decrypt_encrypt hblock, xorBytes_cancel (by omega)]

/-- **Two overlapping blocks are read back.** -/
theorem overlapDecrypt_overlapEncrypt (hc : c.Lawful size) (hmask1 : mask1.length = size)
    (hmask2 : mask2.length = size) (hkeep : keep ≤ size) (htext : text.length = size + keep) :
    c.overlapDecrypt size keep key mask1 mask2 (c.overlapEncrypt size keep key mask1 mask2 text).1
      (c.overlapEncrypt size keep key mask1 mask2 text).2 = text := by
  have hfirst : (text.take size).length = size := List.length_take_of_le (by omega)
  have hpart1 := @length_maskEncrypt c size key mask1 _ hc hmask1 hfirst
  have htail : ((c.maskEncrypt key mask1 (text.take size)).drop keep).length = size - keep := by
    rw [List.length_drop, hpart1]
  have hblock2 : ((c.maskEncrypt key mask1 (text.take size)).drop keep ++ text.drop size).length =
    size := by
    rw [List.length_append, htail, List.length_drop, htext]
    omega
  unfold overlapDecrypt overlapEncrypt
  dsimp only
  rw [maskDecrypt_maskEncrypt hc hmask2 hblock2, List.take_left' htail, List.drop_left' htail,
    List.take_append_drop, maskDecrypt_maskEncrypt hc hmask1 hfirst, List.take_append_drop]

end BlockCipher

end MaskedCipher
