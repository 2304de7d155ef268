/-
# Partial merkle trees

`bip37.c` : the traversal of the partial merkle tree of a merkleblock message. The loop works on a
stack of at most 64 nodes; a node is visited up to three times, before, between and behind its
children.

* `walkStep` is one turn of the loop, `walk` the loop for as many turns as the flags allow;
* `weight_walkStep` : every turn uses up weight, so that `walk` never runs out of turns.
-/
import Libdogecoin.Serialize
import Mathlib.Data.Nat.Bitwise

namespace Libdogecoin

namespace Bip37

/-- `bip37_traverse_state`, without the match bit, which is only used where it is read. -/
structure TraverseState where
  height : ℕ
  pos : ℕ
  stage : ℕ
  left : Uint256

/-- The variables of the loop: the stack, topmost node first, the counters, `ret` as long as
`have_ret` is set, and the matches reported so far. -/
structure Walk where
  stack : List TraverseState
  bitsUsed : ℕ
  hashesUsed : ℕ
  ret : Option Uint256
  matched : List (Uint256 × ℕ)

/-- The number of nodes at a height. -/
def width (nTx height : ℕ) : ℕ := (nTx + (2 ^ height - 1)) >>> height

/-- The height of the root, searched upwards from `height`. -/
def treeHeight (nTx : ℕ) : ℕ → ℕ → Option ℕ
  | 0, _ => none
  | fuel + 1, height =>
    if width nTx height ≤ 1 then some height
    else if height + 1 > 32 then none
    else treeHeight nTx fuel (height + 1)

/-- `ARRAYLEN(st)`. -/
def stackSize : ℕ := 64

/-- The hash of an inner node. -/
def combine (pf : Platform) (left right : Uint256) : Uint256 := pf.sha256d (left.1 ++ right.1)

/-- A flag bit. -/
def flagBit (flags : Bytes) (i : ℕ) : Bool := (flags.getD (i / 8) 0).toNat.testBit (i % 8)

/-- `on_match` : its answer to the last of the matches reported so far. A null pointer is not
called. -/
abbrev OnMatch := Option (List (Uint256 × ℕ) → Bool)

/-- What is reported to the callback, and whether the traversal goes on. -/
def OnMatch.report : OnMatch → List (Uint256 × ℕ) → Uint256 × ℕ → Option (List (Uint256 × ℕ))
  | none, matched, _ => some matched
  | some onMatch, matched, m =>
    if onMatch (matched ++ [m]) = true then some (matched ++ [m]) else none

/-- A node whose hash is in the message, and whether it is a leaf that matches. The offset of the
hash is computed in 32 bits. -/
def takeHash (hashes : List Uint256) (onMatch : OnMatch) (pos : ℕ) (leafMatch : Bool) (w : Walk) :
    Option Walk :=
  if w.hashesUsed ≥ hashes.length then none
  else
    (hashes[w.hashesUsed * 32 % 2 ^ 32 / 32]?).bind fun h =>
      (if leafMatch then onMatch.report w.matched (h, pos) else some w.matched).map fun matched =>
        { w with
          hashesUsed := w.hashesUsed + 1
          ret := some h
          matched := matched }

/-- One turn of the loop on the topmost node; nothing when the extraction fails. The number of flag
bits is computed in 32 bits. -/
def walkStep (pf : Platform) (nTx : ℕ) (hashes : List Uint256) (flags : Bytes) (onMatch : OnMatch)
    (cur : TraverseState) (below : List TraverseState) (w : Walk) : Option Walk :=
  match cur.stage with
  | 0 =>
    if w.bitsUsed ≥ flags.length * 8 % 2 ^ 32 then none
    else
      let parentMatch := flagBit flags w.bitsUsed
      if cur.height = 0 ∨ parentMatch = false then
        takeHash hashes onMatch cur.pos (cur.height = 0 ∧ parentMatch = true)
          { w with stack := below, bitsUsed := w.bitsUsed + 1 }
      else if below.length + 1 ≥ stackSize then none
      else
        some { w with
          stack := { height := cur.height - 1, pos := cur.pos * 2, stage := 0,
                     left := Uint256.zero }
            :: { cur with stage := 1 } :: below
          bitsUsed := w.bitsUsed + 1 }
  | 1 => do
      let left ← w.ret
      if cur.pos * 2 + 1 < width nTx (cur.height - 1) then
        if below.length + 1 ≥ stackSize then none
        else
          some { w with
            stack := { height := cur.height - 1, pos := cur.pos * 2 + 1, stage := 0,
                       left := Uint256.zero }
              :: { cur with stage := 2, left := left } :: below
            ret := none }
      else some { w with stack := below, ret := some (combine pf left left) }
  | 2 => do
      let right ← w.ret
      some { w with stack := below, ret := some (combine pf cur.left right) }
  | _ => none

/-- The loop, for at most `n` turns. -/
def walk (pf : Platform) (nTx : ℕ) (hashes : List Uint256) (flags : Bytes) (onMatch : OnMatch) :
    ℕ → Walk → Option Walk
  | 0, _ => none
  | n + 1, w =>
    match w.stack with
    | [] => some w
    | cur :: below =>
      (walkStep pf nTx hashes flags onMatch cur below w).bind (walk pf nTx hashes flags onMatch n)

/-- The loop starts at the root. -/
def startWalk (height : ℕ) : Walk where
  stack := [{ height := height, pos := 0, stage := 0, left := Uint256.zero }]
  bitsUsed := 0
  hashesUsed := 0
  ret := none
  matched := []

/-- `dogecoin_bip37_traverse_merkle_matches` : the matches in the order they are reported, if the
traversal succeeds and the calculated root is the one of the header. -/
def traverseMerkleMatches (pf : Platform) (nTx : UInt32) (hashes : List Uint256) (flags : Bytes)
    (headerMerkle : Bytes) (onMatch : OnMatch) : Option (List (Uint256 × ℕ)) := do
  if hashes = [] ∨ flags = [] then none
  else do
    let height ← treeHeight nTx.toNat 34 0
    let w ← walk pf nTx.toNat hashes flags onMatch (24 * flags.length + 1) (startWalk height)
    let root ← w.ret
    if root.1 = headerMerkle then some w.matched else none

/-! ## The loop ends -/

/-- What a node may still cost besides the bit it is entered with. -/
def stageWeight (stage : ℕ) : ℕ := if stage = 1 then 2 else if stage = 2 then 1 else 0

/-- A bound for the turns that are left. -/
def weight (flags : Bytes) (w : Walk) : ℕ :=
  3 * (flags.length * 8 - w.bitsUsed) + (w.stack.map fun s => stageWeight s.stage).sum

variable {hashes : List Uint256} {onMatch : OnMatch} {w w' : Walk} {pf : Platform}
  {nTx : ℕ} {flags : Bytes}

/-- A hash that is taken leaves the stack and the flags alone. -/
theorem takeHash_frame {pos : ℕ} {leafMatch : Bool}
    (h : takeHash hashes onMatch pos leafMatch w = some w') :
    w'.stack = w.stack ∧ w'.bitsUsed = w.bitsUsed := by
  unfold takeHash at h
  split at h
  · cases h
  obtain ⟨leaf, -, h⟩ := Option.bind_eq_some_iff.mp h
  obtain ⟨matched, -, rfl⟩ := Option.map_eq_some_iff.mp h
  exact ⟨rfl, rfl⟩

/-- Every turn uses up weight. -/
theorem weight_walkStep {cur : TraverseState} {below : List TraverseState}
    (hw : w.stack = cur :: below) (h : walkStep pf nTx hashes flags onMatch cur below w = some w') :
    weight flags w' <
    weight flags w := by
  unfold weight
  rw [hw, List.map_cons, List.sum_cons]
  unfold walkStep at h
  split at h
  · next hstage =>
      split at h
      · cases h
      next hbits =>
      have hwrap : flags.length * 8 % 2 ^ 32 ≤ flags.length * 8 := Nat.mod_le _ _
      dsimp only at h
      split at h
      · obtain ⟨hstack, hbitsUsed⟩ := takeHash_frame h
        rw [hstack, hbitsUsed]
        dsimp only
        omega
      · split at h
        · cases h
        · obtain rfl := Option.some.inj h
          simp only [List.map_cons, List.sum_cons, stageWeight, hstage]
          norm_num
          omega
  · next hstage =>
      rw [Option.bind_eq_bind, Option.bind_eq_some_iff] at h
      obtain ⟨left, -, h⟩ := h
      split at h
      · split at h
        · cases h
        · obtain rfl := Option.some.inj h
          simp only [List.map_cons, List.sum_cons, stageWeight, hstage]
          norm_num
      · obtain rfl := Option.some.inj h
        simp only [stageWeight, hstage]
        norm_num
  · next hstage =>
      rw [Option.bind_eq_bind, Option.bind_eq_some_iff] at h
      obtain ⟨right, -, h⟩ := h
      obtain rfl := Option.some.inj h
      simp only [stageWeight, hstage]
      norm_num
  · cases h

/-- **The loop ends**: more turns than the weight do not change its result. -/
theorem walk_eq_of_weight_lt {n m : ℕ} (hn : weight flags w < n) (hm : weight flags w < m) :
    walk pf nTx hashes flags onMatch n w = walk pf nTx hashes flags onMatch m w := by
  induction n generalizing w m with
  | zero => omega
  | succ n ih =>
    obtain ⟨m, rfl⟩ : ∃ k, m = k + 1 := ⟨m - 1, by omega⟩
    rw [walk, walk]
    split
    · rfl
    · next cur below hstack =>
        cases hstep : walkStep pf nTx hashes flags onMatch cur below w with
        | none => rfl
        | some w' =>
          have hlt := weight_walkStep hstack hstep
          exact ih (by omega) (by omega)

end Bip37

end Libdogecoin
