/-
# Proof of work

`pow.c` : decoding of the compact target, the target test and the work a target stands for.

* `uint256Cmp_iff` : the byte loop of `uint256_cmp` compares values.
-/
import Libdogecoin.ArithUint256
import Libdogecoin.Chainparams

namespace Libdogecoin

/-- `uint256_cmp` : the first hash is larger, as a little-endian number. -/
def uint256Cmp (a b : Uint256) : Bool :=
  Limbs.lessMsf (b.1.map UInt8.toNat).reverse (a.1.map UInt8.toNat).reverse

/-- What `set_compact` reports besides the number. -/
structure Compact where
  target : ArithUint256
  negative : Bool
  overflow : Bool

/-- `set_compact` on a zeroed number. -/
def setCompact (compact : UInt32) : Compact :=
  let size := compact.toNat >>> 24
  let mantissa := compact.toNat &&& 0x007fffff
  let word := if size ≤ 3 then mantissa >>> (8 * (3 - size)) else mantissa
  let low := orWord initArithUint256 0 word
  { target := if size ≤ 3 then low else arithShiftLeft low (8 * (size - 3))
    negative := word ≠ 0 ∧ compact.toNat &&& 0x00800000 ≠ 0
    overflow := word ≠ 0 ∧ (size > 34 ∨ (word > 0xff ∧ size > 33) ∨ (word > 0xffff ∧ size > 32)) }

/-- `swap_bytes` on a hash. -/
def swapBytes (h : Uint256) : Uint256 := ⟨h.1.reverse, by rw [List.length_reverse, h.2]⟩

/-- The work `~target / (target + 1) + 1` a target stands for. The division has no result only
for the target `2 ^ 256 - 1`, which no compact encoding has. -/
def targetWork (target : ArithUint256) : Option ArithUint256 :=
  let one := orWord initArithUint256 0 1
  (divArithUint256 (arithNegate target) (addArithUint256 target one)).map (addArithUint256 · one)

/-- `check_pow` : the work of the target when the hash meets it, nothing on rejection. -/
def checkPow (hash : Uint256) (nbits : UInt32) (params : ChainParams) : Option ArithUint256 :=
  let c := setCompact nbits
  if c.negative || arithUint256IsZero c.target || c.overflow ||
      uint256Cmp (arithToUint256 c.target) params.powLimit then none
  else if uint256Cmp (swapBytes hash) (arithToUint256 c.target) then none
  else targetWork c.target

/-- The byte loop of `uint256_cmp` compares values. -/
theorem uint256Cmp_iff (a b : Uint256) : uint256Cmp a b = true ↔ b.toNat < a.toNat := by
  have hbyte : ∀ l : Bytes, ∀ x ∈ l.map UInt8.toNat, x < 256 := by
    intro l x hx
    obtain ⟨y, -, rfl⟩ := List.mem_map.mp hx
    exact y.toNat_lt
  have hlen : (b.1.map UInt8.toNat).length = (a.1.map UInt8.toNat).length := by
    rw [List.length_map, List.length_map, a.2, b.2]
  exact Limbs.lessMsf_reverse hlen (hbyte b.1) (hbyte a.1)

end Libdogecoin
