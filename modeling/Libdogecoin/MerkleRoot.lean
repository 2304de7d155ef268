/-
# The merkle root of a block

`dogecoin_compute_merkle_root` of `block.c` : the leaves are folded one by one into at most 32
pending subtrees, whose heights are the bits of the number of leaves. A shift by 32 or more, or an
access outside `inner`, has no result here.
-/
import Libdogecoin.Bip37
import Libdogecoin.Tx

namespace Libdogecoin

namespace MerkleRoot

open Bip37 (combine)

variable (pf : Platform)

/-- The loops that look for the next bit of `count` from `level` on: every pending subtree below it
is joined to `h` on the left. The result is the joined hash, the level of the bit and the flag. -/
def joinUp (inner : List Uint256) (count : UInt32) :
    ℕ → ℕ → Uint256 → Bool → Option (Uint256 × ℕ × Bool)
  | 0, _, _, _ => none
  | fuel + 1, level, h, mutated =>
    if count &&& (1 <<< UInt32.ofNat level) ≠ 0 then some (h, level, mutated)
    else do
      let left ← inner[level]?
      joinUp inner count fuel (level + 1) (combine pf left h) (mutated || left = h)

/-- The variables of the main loop. -/
structure Folded where
  inner : List Uint256
  count : UInt32
  mutated : Bool

/-- No leaf yet. -/
def Folded.empty : Folded where
  inner := List.replicate 32 Uint256.zero
  count := 0
  mutated := false

/-- One turn of the main loop. -/
def addLeaf (s : Folded) (leaf : Uint256) : Option Folded := do
  let count := s.count + 1
  let (h, level, mutated) ← joinUp pf s.inner count 32 0 leaf s.mutated
  some { inner := s.inner.set level h, count := count, mutated := mutated }

/-- The sweep of the rightmost branch: an odd subtree is joined to itself. -/
def sweep (inner : List Uint256) : ℕ → UInt32 → ℕ → Uint256 → Bool → Option (Uint256 × Bool)
  | 0, _, _, _, _ => none
  | fuel + 1, count, level, h, mutated =>
    if count = 1 <<< UInt32.ofNat level then some (h, mutated)
    else do
      let count := count + (1 <<< UInt32.ofNat level)
      let (h, level, mutated) ←
        joinUp pf inner count (32 - (level + 1)) (level + 1) (combine pf h h) mutated
      sweep inner fuel count level h mutated

/-- The level of the lowest bit of `count`, from `level` on. -/
def lowestBit (count : UInt32) : ℕ → ℕ → Option ℕ
  | 0, _ => none
  | fuel + 1, level =>
    if count &&& (1 <<< UInt32.ofNat level) ≠ 0 then some level
    else lowestBit count fuel (level + 1)

/-- `dogecoin_compute_merkle_root` : the root, and whether a node was joined to its own copy. -/
def computeMerkleRoot (leaves : List Uint256) : Option (Uint256 × Bool) :=
  if leaves.length = 0 then some (Uint256.zero, false)
  else if leaves.length > 0xffffffff then some (Uint256.zero, false)
  else do
    let s ← leaves.foldlM (addLeaf pf) Folded.empty
    let level ← lowestBit s.count 32 0
    let h ← s.inner[level]?
    sweep pf s.inner 33 s.count level h s.mutated

end MerkleRoot

end Libdogecoin
