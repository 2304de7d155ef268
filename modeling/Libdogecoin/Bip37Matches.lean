/-
# Matches of a partial merkle tree

The loop of `dogecoin_bip37_traverse_merkle_matches` walks over the tree as the recursive
`TraverseAndExtract` does: a node hands its hash to its parent through `ret`, and its stage tells
the parent where to go on. So every leaf that is reported has a branch to the root. A block without
transactions has no leaves, but its tree is still walked, as one leaf at position zero.

* `run_extract` : the loop on a node is the recursion on it;
* `leads_of_extract` : the matches below a node have branches to its hash;
* `matchesSound_iff` : when every reported match is a leaf with a branch to the root.
-/
import Libdogecoin.Bip37
import Libdogecoin.Block
import Libdogecoin.MerkleBranch

namespace Libdogecoin

namespace Bip37

section
variable (pf : Platform) (nTx : ℕ) (hashes : List Uint256) (flags : Bytes) (onMatch : OnMatch)

/-! ## The recursion -/

/-- `TraverseAndExtract` on the node at a height and a position. Its hash is left in `ret`. -/
def extract : ℕ → ℕ → Walk → Option Walk
  | 0, pos, w =>
    if w.bitsUsed ≥ flags.length * 8 % 2 ^ 32 then none
    else takeHash hashes onMatch pos (flagBit flags w.bitsUsed)
      { w with bitsUsed := w.bitsUsed + 1 }
  | height + 1, pos, w =>
    if w.bitsUsed ≥ flags.length * 8 % 2 ^ 32 then none
    else if flagBit flags w.bitsUsed = false then
      takeHash hashes onMatch pos false { w with bitsUsed := w.bitsUsed + 1 }
    else
      (extract height (pos * 2) { w with bitsUsed := w.bitsUsed + 1 }).bind fun w =>
        w.ret.bind fun left =>
          if pos * 2 + 1 < width nTx height then
            (extract height (pos * 2 + 1) { w with ret := none }).bind fun w =>
              w.ret.map fun right => { w with ret := some (combine pf left right) }
          else some { w with ret := some (combine pf left left) }

/-- The loop, for as many turns as it takes. -/
def run (w : Walk) : Option Walk := walk pf nTx hashes flags onMatch (weight flags w + 1) w

end

variable {pf : Platform} {nTx : ℕ} {hashes : List Uint256} {flags headerMerkle : Bytes}
  {onMatch : OnMatch}

variable {w w' : Walk} {height pos : ℕ}

theorem run_of_nil (h : w.stack = []) : run pf nTx hashes flags onMatch w = some w := by
  unfold run walk
  rw [h]

theorem run_of_cons {cur : TraverseState} {below : List TraverseState}
    (h : w.stack = cur :: below) :
    run pf nTx hashes flags onMatch w =
      (walkStep pf nTx hashes flags onMatch cur below w).bind
      (run pf nTx hashes flags onMatch) := by
  unfold run
  conv_lhs => unfold walk
  rw [h]
  show (walkStep pf nTx hashes flags onMatch cur below w).bind _ = _
  cases hstep : walkStep pf nTx hashes flags onMatch cur below w with
  | none => rfl
  | some w' =>
    have hlt := weight_walkStep h hstep
    exact walk_eq_of_weight_lt (by omega) (by omega)

/-! ## The stages of a node -/

/-- A node in front of the stack. -/
def push (height pos stage : ℕ) (left : Uint256) (w : Walk) : Walk :=
  { w with stack := { height := height, pos := pos, stage := stage, left := left } :: w.stack }

/-- A leaf reads its flag and takes a hash. -/
theorem walkStep_leaf (pos : ℕ) (left : Uint256) (w : Walk) :
    walkStep pf nTx hashes flags onMatch
      { height := 0, pos := pos, stage := 0, left := left } w.stack
        (push 0 pos 0 left w) = extract pf nTx hashes flags onMatch 0 pos w := by
  show (if w.bitsUsed ≥ flags.length * 8 % 2 ^ 32 then none else
    if 0 = 0 ∨ flagBit flags w.bitsUsed = false then
      takeHash hashes onMatch pos (0 = 0 ∧ flagBit flags w.bitsUsed = true)
        { w with bitsUsed := w.bitsUsed + 1 } else _) = _
  unfold extract
  rw [if_pos (Or.inl rfl)]
  simp

/-- An inner node that does not match takes a hash, and one that matches enters its left child. -/
theorem walkStep_inner (height pos : ℕ) (left : Uint256) (w : Walk)
    (hroom : w.stack.length + 1 < stackSize) :
    walkStep pf nTx hashes flags onMatch
      { height := height + 1, pos := pos, stage := 0, left := left } w.stack
        (push (height + 1) pos 0 left w) =
      if w.bitsUsed ≥ flags.length * 8 % 2 ^ 32 then none
      else if flagBit flags w.bitsUsed = false then
        takeHash hashes onMatch pos false { w with bitsUsed := w.bitsUsed + 1 }
      else
        some (push height (pos * 2) 0 Uint256.zero
          (push (height + 1) pos 1 left { w with bitsUsed := w.bitsUsed + 1 })) := by
  show (if w.bitsUsed ≥ flags.length * 8 % 2 ^ 32 then none else
    if height + 1 = 0 ∨ flagBit flags w.bitsUsed = false then
      takeHash hashes onMatch pos (height + 1 = 0 ∧ flagBit flags w.bitsUsed = true)
        { w with bitsUsed := w.bitsUsed + 1 }
    else if w.stack.length + 1 ≥ stackSize then none
    else some (push height (pos * 2) 0 Uint256.zero
      (push (height + 1) pos 1 left { w with bitsUsed := w.bitsUsed + 1 }))) = _
  rw [if_neg (show ¬ w.stack.length + 1 ≥ stackSize by omega)]
  have hheight : ¬ height + 1 = 0 := by omega
  by_cases hbits : w.bitsUsed ≥ flags.length * 8 % 2 ^ 32
  · rw [if_pos hbits, if_pos hbits]
  · rw [if_neg hbits, if_neg hbits]
    by_cases hflag : flagBit flags w.bitsUsed = false
    · rw [if_pos (Or.inr hflag), if_pos hflag]
      simp only [hheight, false_and, decide_false]
    · rw [if_neg (not_or.mpr ⟨hheight, hflag⟩), if_neg hflag]

/-- Between the children: the right one is entered if it is in the tree. -/
theorem walkStep_between (height pos : ℕ) (old : Uint256) (w : Walk)
    (hroom : w.stack.length + 1 < stackSize) :
    walkStep pf nTx hashes flags onMatch
      { height := height + 1, pos := pos, stage := 1, left := old } w.stack
        (push (height + 1) pos 1 old w) =
      w.ret.bind fun left =>
        if pos * 2 + 1 < width nTx height then
          some (push height (pos * 2 + 1) 0 Uint256.zero
            (push (height + 1) pos 2 left { w with ret := none }))
        else some { w with ret := some (combine pf left left) } := by
  show (w.ret.bind fun left =>
    if pos * 2 + 1 < width nTx height then
      if w.stack.length + 1 ≥ stackSize then none
      else some (push height (pos * 2 + 1) 0 Uint256.zero
        (push (height + 1) pos 2 left { w with ret := none }))
    else some { w with ret := some (combine pf left left) }) = _
  congr 1
  funext left
  rw [if_neg (show ¬ w.stack.length + 1 ≥ stackSize by omega)]

/-- Behind the children. -/
theorem walkStep_behind (height pos : ℕ) (left : Uint256) (w : Walk) :
    walkStep pf nTx hashes flags onMatch
      { height := height, pos := pos, stage := 2, left := left } w.stack
        (push height pos 2 left w) =
      w.ret.bind fun right => some { w with ret := some (combine pf left right) } := rfl

theorem run_leaf (pos : ℕ) (left : Uint256) (w : Walk) :
    run pf nTx hashes flags onMatch (push 0 pos 0 left w) =
      (extract pf nTx hashes flags onMatch 0 pos w).bind (run pf nTx hashes flags onMatch) := by
  rw [run_of_cons rfl, walkStep_leaf]

theorem run_inner (height pos : ℕ) (left : Uint256) (w : Walk)
    (hroom : w.stack.length + 1 < stackSize) :
    run pf nTx hashes flags onMatch (push (height + 1) pos 0 left w) =
      if w.bitsUsed ≥ flags.length * 8 % 2 ^ 32 then none
      else if flagBit flags w.bitsUsed = false then
        (takeHash hashes onMatch pos false { w with bitsUsed := w.bitsUsed + 1 }).bind
          (run pf nTx hashes flags onMatch)
      else
        run pf nTx hashes flags onMatch (push height (pos * 2) 0 Uint256.zero
          (push (height + 1) pos 1 left { w with bitsUsed := w.bitsUsed + 1 })) := by
  rw [run_of_cons rfl, walkStep_inner height pos left w hroom]
  split
  · rfl
  · split <;> rfl

theorem run_between (height pos : ℕ) (old : Uint256) (w : Walk)
    (hroom : w.stack.length + 1 < stackSize) :
    run pf nTx hashes flags onMatch (push (height + 1) pos 1 old w) =
      w.ret.bind fun left =>
        if pos * 2 + 1 < width nTx height then
          run pf nTx hashes flags onMatch (push height (pos * 2 + 1) 0 Uint256.zero
            (push (height + 1) pos 2 left { w with ret := none }))
        else run pf nTx hashes flags onMatch { w with ret := some (combine pf left left) } := by
  rw [run_of_cons rfl, walkStep_between height pos old w hroom, Option.bind_assoc]
  congr 1
  funext left
  split <;> rfl

theorem run_behind (height pos : ℕ) (left : Uint256) (w : Walk) :
    run pf nTx hashes flags onMatch (push height pos 2 left w) =
      w.ret.bind fun right =>
        run pf nTx hashes flags onMatch { w with ret := some (combine pf left right) } := by
  rw [run_of_cons rfl, walkStep_behind, Option.bind_assoc]
  rfl

/-! ## The recursion and the stack -/

theorem takeHash_withStack (pos : ℕ) (leafMatch : Bool) (w : Walk) (stack : List TraverseState) :
    takeHash hashes onMatch pos leafMatch { w with stack := stack } =
      (takeHash hashes onMatch pos leafMatch w).map fun w => { w with stack := stack } := by
  unfold takeHash
  dsimp only
  split
  · rfl
  rw [Option.map_bind]
  congr 1
  funext h
  rw [Function.comp_apply, Option.map_map]
  rfl

/-- The recursion leaves the stack alone. -/
theorem extract_stack (h : extract pf nTx hashes flags onMatch height pos w = some w') :
    w'.stack = w.stack := by
  induction height generalizing pos w w' with
  | zero =>
    unfold extract at h
    split at h
    · cases h
    · exact (takeHash_frame h).1
  | succ height ih =>
    unfold extract at h
    split at h
    · cases h
    split at h
    · exact (takeHash_frame h).1
    obtain ⟨w₁, hleft, h⟩ := Option.bind_eq_some_iff.mp h
    obtain ⟨left, -, h⟩ := Option.bind_eq_some_iff.mp h
    have hbelow := ih hleft
    dsimp only at hbelow
    split at h
    · obtain ⟨w₂, hright, h⟩ := Option.bind_eq_some_iff.mp h
      obtain ⟨right, -, rfl⟩ := Option.map_eq_some_iff.mp h
      exact (ih hright).trans hbelow
    · cases h
      exact hbelow

/-- The recursion does not look at the stack. -/
theorem extract_withStack (height pos : ℕ) (w : Walk) (stack : List TraverseState) :
    extract pf nTx hashes flags onMatch height pos { w with stack := stack } =
      (extract pf nTx hashes flags onMatch height pos w).map fun w =>
      { w with stack := stack } := by
  induction height generalizing pos w with
  | zero =>
    unfold extract
    split
    · rfl
    · exact takeHash_withStack pos _ { w with bitsUsed := w.bitsUsed + 1 } stack
  | succ height ih =>
    unfold extract
    split
    · rfl
    split
    · exact takeHash_withStack pos false { w with bitsUsed := w.bitsUsed + 1 } stack
    have hleft := ih (pos * 2) { w with bitsUsed := w.bitsUsed + 1 }
    dsimp only at hleft ⊢
    rw [hleft, Option.map_bind, Option.bind_map]
    congr 1
    funext w₁
    dsimp only [Function.comp_apply]
    rw [Option.map_bind]
    congr 1
    funext left
    dsimp only [Function.comp_apply]
    split
    · have hright := ih (pos * 2 + 1) { w₁ with ret := none }
      dsimp only at hright ⊢
      rw [hright, Option.map_bind, Option.bind_map]
      congr 1
      funext w₂
      dsimp only [Function.comp_apply]
      rw [Option.map_map]
      rfl
    · rfl

theorem extract_push (height pos : ℕ) (w : Walk) (height' pos' stage : ℕ) (left : Uint256) :
    extract pf nTx hashes flags onMatch height pos (push height' pos' stage left w) =
      (extract pf nTx hashes flags onMatch height pos w).map (push height' pos' stage left) := by
  have hstack := @extract_withStack pf nTx hashes flags onMatch height pos w
    ({ height := height', pos := pos', stage := stage, left := left } :: w.stack)
  unfold push
  rw [hstack]
  cases hextract : extract pf nTx hashes flags onMatch height pos w with
  | none => rfl
  | some w' =>
    rw [Option.map_some, Option.map_some, extract_stack hextract]

/-- **The loop on a node.** It reaches what is below the node as the recursion leaves it. The height
is at most 32, so that the stack does not overflow. -/
theorem run_extract (pos : ℕ) (w : Walk) (left : Uint256)
    (hroom : w.stack.length + height < stackSize) :
    run pf nTx hashes flags onMatch (push height pos 0 left w) =
      (extract pf nTx hashes flags onMatch height pos w).bind
      (run pf nTx hashes flags onMatch) := by
  induction height generalizing pos w left with
  | zero => exact run_leaf pos left w
  | succ height ih =>
    have hdeeper : ∀ stage left' (v : Walk), v.stack = w.stack →
        (push (height + 1) pos stage left' v).stack.length + height < stackSize := by
      intro stage left' v hv
      show (_ :: v.stack).length + height < stackSize
      rw [List.length_cons, hv]
      omega
    rw [run_inner height pos left w (by omega)]
    unfold extract
    split
    · rfl
    split
    · rfl
    -- the left child, whose hash is in `ret` when the node is on top again
    rw [ih _ _ _ (hdeeper 1 left { w with bitsUsed := w.bitsUsed + 1 } rfl), extract_push,
      Option.bind_assoc]
    cases hleft : extract pf nTx hashes flags onMatch height (pos * 2)
        { w with bitsUsed := w.bitsUsed + 1 } with
    | none => rfl
    | some w₁ =>
      have hbelow := extract_stack hleft
      dsimp only at hbelow
      show run pf nTx hashes flags onMatch (push (height + 1) pos 1 left w₁) =
        (w₁.ret.bind _).bind _
      rw [run_between height pos left w₁ (by rw [hbelow]; omega), Option.bind_assoc]
      congr 1
      funext left'
      split
      · -- the right child
        rw [ih _ _ _ (hdeeper 2 left' { w₁ with ret := none } hbelow), extract_push,
          Option.bind_assoc]
        cases extract pf nTx hashes flags onMatch height (pos * 2 + 1) { w₁ with ret := none } with
        | none => rfl
        | some w₂ =>
          show run pf nTx hashes flags onMatch (push (height + 1) pos 2 left' w₂) =
            (w₂.ret.map _).bind _
          rw [run_behind, Option.bind_map]
          rfl
      · rfl

/-! ## Widths -/

/-- A position is in the tree when the first leaf below it is. -/
theorem lt_width_iff (pos height : ℕ) : pos < width nTx height ↔ pos * 2 ^ height < nTx := by
  have hpow : 0 < 2 ^ height := Nat.two_pow_pos height
  unfold width
  rw [Nat.shiftRight_eq_div_pow, Nat.lt_div_iff_mul_lt hpow]
  omega

theorem width_zero : width nTx 0 = nTx := by
  unfold width
  rw [pow_zero, Nat.sub_self, Nat.add_zero, Nat.shiftRight_zero]

/-- The left child of a node in the tree is in the tree. -/
theorem left_lt_width (h : pos < width nTx (height + 1)) : pos * 2 < width nTx height := by
  rw [lt_width_iff, pow_succ'] at h
  rwa [lt_width_iff, Nat.mul_assoc]

/-- The tree is at most 32 levels high, and at most one node wide at its root. -/
theorem of_treeHeight {fuel start : ℕ} (h : treeHeight nTx fuel start = some height)
    (hstart : start ≤ 32) :
    width nTx height ≤ 1 ∧ height ≤ 32 := by
  induction fuel generalizing start with
  | zero => cases h
  | succ fuel ih =>
    unfold treeHeight at h
    split at h
    next hwidth =>
      obtain rfl := Option.some.inj h
      exact ⟨hwidth, hstart⟩
    · split at h
      · cases h
      · exact ih h (by omega)

/-! ## Matches -/

open MerkleBranch (Leads)

/-- A leaf in the tree with a branch to a root that lies at a height. -/
def HasBranch (pf : Platform) (nTx height : ℕ) (root : Uint256) (m : Uint256 × ℕ) : Prop :=
  m.2 < nTx ∧ ∃ branch, branch.length = height ∧ Leads (combine pf) (width nTx) m.2 m.1 branch root

/-- A hash that is taken is left in `ret`, and reported if it is a leaf that matches. -/
theorem takeHash_matched {leafMatch : Bool}
    (h : takeHash hashes onMatch pos leafMatch w = some w') :
    ∃ hash new, w'.ret = some hash ∧ w'.matched = w.matched ++ new ∧
      (∀ m ∈ new, m = (hash, pos)) ∧ (leafMatch = false → new = []) := by
  unfold takeHash at h
  split at h
  · cases h
  obtain ⟨hash, -, h⟩ := Option.bind_eq_some_iff.mp h
  obtain ⟨matched, hreport, rfl⟩ := Option.map_eq_some_iff.mp h
  cases leafMatch with
  | false =>
    cases hreport
    exact ⟨hash, [], rfl, (List.append_nil _).symm, by simp, fun _ => rfl⟩
  | true =>
    cases onMatch with
    | none =>
      cases hreport
      exact ⟨hash, [], rfl, (List.append_nil _).symm, by simp, fun _ => rfl⟩
    | some answer =>
      change (if answer (w.matched ++ [(hash, pos)]) = true then _ else none) =
        some matched at hreport
      split at hreport
      · cases hreport
        exact ⟨hash, [(hash, pos)], rfl, rfl, by simp, fun hf => absurd hf (by decide)⟩
      · cases hreport

/-- A branch to the hash of a child is a branch to the hash of the node. -/
theorem HasBranch.up {child : Uint256} {m : Uint256 × ℕ} (h : HasBranch pf nTx height child m)
    (sibling : Uint256) (hpos : m.2 / 2 ^ height = pos)
    (hlast : pos % 2 = 0 → width nTx height ≤ pos + 1 → sibling = child) :
    HasBranch pf nTx (height + 1) (MerkleBranch.parent (combine pf) pos child sibling) m := by
  obtain ⟨hlt, branch, rfl, hleads⟩ := h
  have hsnoc := hleads.snoc sibling (by rw [hpos]; exact hlast)
  rw [hpos] at hsnoc
  exact ⟨hlt, branch ++ [sibling], by rw [List.length_append, List.length_singleton], hsnoc⟩

/-- **The matches below a node.** Each of them has a branch to the hash that the recursion leaves,
which it enters at the position of the node. -/
theorem leads_of_extract (hpos : pos < width nTx height)
    (h : extract pf nTx hashes flags onMatch height pos w = some w') :
    ∃ hash new, w'.ret = some hash ∧ w'.matched = w.matched ++ new ∧
      ∀ m ∈ new, m.2 / 2 ^ height = pos ∧ HasBranch pf nTx height hash m := by
  induction height generalizing pos w w' with
  | zero =>
    unfold extract at h
    split at h
    · cases h
    obtain ⟨hash, new, hret, hmatched, hnew, -⟩ := takeHash_matched h
    refine ⟨hash, new, hret, hmatched, ?_⟩
    intro m hm
    obtain rfl := hnew m hm
    rw [width_zero] at hpos
    exact ⟨Nat.div_one pos, hpos, [], rfl, Leads.nil pos hash⟩
  | succ height ih =>
    unfold extract at h
    split at h
    · cases h
    split at h
    · obtain ⟨hash, new, hret, hmatched, -, hnone⟩ := takeHash_matched h
      refine ⟨hash, new, hret, hmatched, ?_⟩
      rw [hnone rfl]
      simp
    obtain ⟨w₁, hleft, h⟩ := Option.bind_eq_some_iff.mp h
    obtain ⟨left, hret, h⟩ := Option.bind_eq_some_iff.mp h
    obtain ⟨left', newLeft, hret', hmatchedLeft, hbranchLeft⟩ := ih (left_lt_width hpos) hleft
    obtain rfl := Option.some.inj (hret.symm.trans hret')
    dsimp only at hmatchedLeft
    -- the position of the node, from those of its children
    have hhalf : ∀ {k : ℕ}, k / 2 = pos → ∀ {m : Uint256 × ℕ}, m.2 / 2 ^ height = k →
        m.2 / 2 ^ (height + 1) = pos := by
      intro k hk m hm
      rw [pow_succ, ← Nat.div_div_eq_div_mul, hm, hk]
    have heven : ∀ sibling, MerkleBranch.parent (combine pf) (pos * 2) left sibling =
        combine pf left sibling := fun sibling => if_neg (by omega)
    split at h
    next hright =>
      obtain ⟨w₂, hextract, h⟩ := Option.bind_eq_some_iff.mp h
      obtain ⟨right, hretRight, rfl⟩ := Option.map_eq_some_iff.mp h
      obtain ⟨right', newRight, hret'', hmatchedRight, hbranchRight⟩ := ih hright hextract
      obtain rfl := Option.some.inj (hretRight.symm.trans hret'')
      dsimp only at hmatchedRight
      have hodd : MerkleBranch.parent (combine pf) (pos * 2 + 1) right left =
        combine pf left right :=
        if_pos (by omega)
      refine ⟨combine pf left right, newLeft ++ newRight, rfl, ?_, ?_⟩
      · rw [← List.append_assoc, ← hmatchedLeft]
        exact hmatchedRight
      · intro m hm
        rcases List.mem_append.mp hm with hm | hm
        · obtain ⟨hm', hbranch⟩ := hbranchLeft m hm
          have hup := hbranch.up right hm' (fun _ hwidth => absurd hright (by omega))
          rw [heven] at hup
          exact ⟨hhalf (by omega) hm', hup⟩
        · obtain ⟨hm', hbranch⟩ := hbranchRight m hm
          have hup := hbranch.up left hm' (fun h2 => absurd h2 (by omega))
          rw [hodd] at hup
          exact ⟨hhalf (by omega) hm', hup⟩
    · -- the left child is the last node of its level
      obtain rfl := Option.some.inj h
      refine ⟨combine pf left left, newLeft, rfl, hmatchedLeft, ?_⟩
      intro m hm
      obtain ⟨hm', hbranch⟩ := hbranchLeft m hm
      have hup := hbranch.up left hm' (fun _ _ => rfl)
      rw [heven] at hup
      exact ⟨hhalf (by omega) hm', hup⟩

/-! ## The traversal -/

/-- What the traversal reports when it succeeds are leaves, with branches up to the root of the
header. -/
def MatchesSound (pf : Platform) (nTx : UInt32) (hashes : List Uint256) (flags headerMerkle : Bytes)
    (onMatch : OnMatch) : Prop :=
  ∀ matched, traverseMerkleMatches pf nTx hashes flags headerMerkle onMatch = some matched →
    ∃ height root, treeHeight nTx.toNat 34 0 = some height ∧ root.1 = headerMerkle ∧
      ∀ m ∈ matched, HasBranch pf nTx.toNat height root m

/-- The traversal of a tree without leaves succeeds with a match: its first flag bit is set, the
first hash is the root of the header, and the callback takes it. -/
def EmptyTreeMatches (nTx : UInt32) (hashes : List Uint256) (flags headerMerkle : Bytes)
    (onMatch : OnMatch) : Prop :=
  nTx = 0 ∧ 0 < flags.length * 8 % 2 ^ 32 ∧ flagBit flags 0 = true ∧
    ∃ hash answer, hashes.head? = some hash ∧ hash.1 = headerMerkle ∧ onMatch = some answer ∧
      answer [(hash, 0)] = true

/-- The variables of the loop before its first turn, without the root. -/
def freshWalk : Walk where
  stack := []
  bitsUsed := 0
  hashesUsed := 0
  ret := none
  matched := []

/-- The loop from its start is the recursion on the root. -/
theorem walk_startWalk {fuel height : ℕ} (hheight : treeHeight nTx fuel 0 = some height) :
    walk pf nTx hashes flags onMatch (24 * flags.length + 1) (startWalk height) =
      extract pf nTx hashes flags onMatch height 0 freshWalk := by
  have hturns : walk pf nTx hashes flags onMatch (24 * flags.length + 1) (startWalk height) =
      run pf nTx hashes flags onMatch (push height 0 0 Uint256.zero freshWalk) := by
    have hweight : weight flags (startWalk height) = 24 * flags.length := by
      unfold weight startWalk stageWeight
      simp
      omega
    exact walk_eq_of_weight_lt (by omega) (Nat.lt_succ_self _)
  have hroom : freshWalk.stack.length + height < stackSize := by
    have hle := (of_treeHeight hheight (Nat.zero_le _)).2
    show 0 + height < 64
    omega
  rw [hturns, run_extract 0 freshWalk Uint256.zero hroom]
  cases hextract : extract pf nTx hashes flags onMatch height 0 freshWalk with
  | none => rfl
  | some w => rw [Option.bind_some, run_of_nil (extract_stack hextract)]

/-- **The traversal** is the recursion on the root. -/
theorem traverse_eq (pf : Platform) (nTx : UInt32) (hashes : List Uint256)
    (flags headerMerkle : Bytes) (onMatch : OnMatch) :
    traverseMerkleMatches pf nTx hashes flags headerMerkle onMatch =
      if hashes = [] ∨ flags = [] then none
      else (treeHeight nTx.toNat 34 0).bind fun height =>
        (extract pf nTx.toNat hashes flags onMatch height 0 freshWalk).bind fun w =>
          w.ret.bind fun root => if root.1 = headerMerkle then some w.matched else none := by
  unfold traverseMerkleMatches
  simp only [Option.bind_eq_bind]
  split
  · rfl
  cases hheight : treeHeight nTx.toNat 34 0 with
  | none => rfl
  | some height => rw [Option.bind_some, Option.bind_some, walk_startWalk hheight]

/-- The tree of a block without transactions is a single node. -/
theorem extract_empty :
    extract pf nTx hashes flags onMatch 0 0 freshWalk =
      if 0 ≥ flags.length * 8 % 2 ^ 32 then none
      else hashes.head?.bind fun hash =>
        (if flagBit flags 0 = true then onMatch.report [] (hash, 0) else some []).map fun matched =>
          { stack := [], bitsUsed := 1, hashesUsed := 1, ret := some hash,
            matched := matched } := by
  cases hashes with
  | nil => rfl
  | cons hash hashes => rfl

/-- The match in an empty tree is no leaf. -/
theorem not_matchesSound_of_empty {nTx : UInt32}
    (h : EmptyTreeMatches nTx hashes flags headerMerkle onMatch) :
    ¬ MatchesSound pf nTx hashes flags headerMerkle onMatch := by
  obtain ⟨rfl, hbits, hflag, hash, answer, hhead, hroot, rfl, hanswer⟩ := h
  intro hsound
  have hhashes : ¬ (hashes = [] ∨ flags = []) := by
    rintro (rfl | rfl)
    · cases hhead
    · exact absurd hbits (by decide)
  have htraverse : traverseMerkleMatches pf 0 hashes flags headerMerkle (some answer) =
    some [(hash, 0)] := by
    have hone : treeHeight (0 : UInt32).toNat 34 0 = some 0 := rfl
    have hreport : OnMatch.report (some answer) [] (hash, 0) = some [(hash, 0)] := if_pos hanswer
    rw [traverse_eq, if_neg hhashes, hone, Option.bind_some, extract_empty,
      if_neg (Nat.not_le_of_lt hbits), hhead, Option.bind_some, if_pos hflag, hreport]
    exact if_pos hroot
  obtain ⟨height, root, -, -, hbranch⟩ := hsound _ htraverse
  exact absurd (hbranch _ List.mem_cons_self).1 (Nat.not_lt_zero _)

/-- Every other match is a leaf. -/
theorem matchesSound_of_not_empty {nTx : UInt32}
    (hempty : ¬ EmptyTreeMatches nTx hashes flags headerMerkle onMatch) :
    MatchesSound pf nTx hashes flags headerMerkle onMatch := by
  intro matched htraverse
  rw [traverse_eq] at htraverse
  split at htraverse
  · cases htraverse
  obtain ⟨height, hheight, htraverse⟩ := Option.bind_eq_some_iff.mp htraverse
  obtain ⟨w, hextract, htraverse⟩ := Option.bind_eq_some_iff.mp htraverse
  obtain ⟨root, hret, htraverse⟩ := Option.bind_eq_some_iff.mp htraverse
  split at htraverse
  next hroot =>
    obtain rfl := Option.some.inj htraverse
    refine ⟨height, root, hheight, hroot, ?_⟩
    by_cases hzero : nTx = 0
    · subst hzero
      obtain rfl : 0 = height := Option.some.inj hheight
      rw [extract_empty] at hextract
      split at hextract
      · cases hextract
      next hbits =>
      obtain ⟨hash, hhead, hextract⟩ := Option.bind_eq_some_iff.mp hextract
      obtain ⟨matched, hreport, rfl⟩ := Option.map_eq_some_iff.mp hextract
      obtain rfl := Option.some.inj hret
      -- a match would be one of the cases that are excluded
      suffices hnone : matched = [] by
        intro m hm
        rw [hnone] at hm
        cases hm
      by_cases hflag : flagBit flags 0 = true
      · rw [if_pos hflag] at hreport
        cases onMatch with
        | none => exact (Option.some.inj hreport).symm
        | some answer =>
          by_cases hanswer : answer [(hash, 0)] = true
          · exact absurd ⟨rfl, Nat.lt_of_not_le hbits, hflag, hash, answer, hhead, hroot,
              rfl, hanswer⟩ hempty
          · exact absurd ((if_neg hanswer).symm.trans hreport) (Option.some_ne_none matched).symm
      · rw [if_neg hflag] at hreport
        exact (Option.some.inj hreport).symm
    · have hpos : 0 < width nTx.toNat height := by
        rw [lt_width_iff, Nat.zero_mul]
        exact Nat.pos_of_ne_zero fun h => hzero (UInt32.toNat_inj.mp h)
      obtain ⟨hash, new, hret', hmatched, hnew⟩ := leads_of_extract hpos hextract
      obtain rfl := Option.some.inj (hret.symm.trans hret')
      intro m hm
      rw [hmatched] at hm
      exact (hnew m hm).2
  · cases htraverse

/-- **Matches are in the block**, unless it has no transactions: the traversal reports leaves with
branches to the root of the header if and only if it does not match in an empty tree. -/
theorem matchesSound_iff (pf : Platform) (nTx : UInt32) (hashes : List Uint256)
    (flags headerMerkle : Bytes) (onMatch : OnMatch) :
    MatchesSound pf nTx hashes flags headerMerkle onMatch ↔
      ¬ EmptyTreeMatches nTx hashes flags headerMerkle onMatch :=
  ⟨fun hsound hempty => not_matchesSound_of_empty hempty hsound, matchesSound_of_not_empty⟩

/-- A merkleblock without transactions whose only hash is the root of its header. -/
theorem not_matchesSound :
    ¬ MatchesSound samplePlatform 0 [Uint256.zero] [1] Uint256.zero.1 (some fun _ => true) :=
  not_matchesSound_of_empty
    ⟨rfl, by decide, by decide, Uint256.zero, fun _ => true, rfl, rfl, rfl, rfl⟩

end Bip37

end Libdogecoin
