/-
# Canonical partial merkle trees

A partial tree is given to `dogecoin_bip37_traverse_merkle_matches` as flags and hashes. The loop
asks for no more than the root: it does not ask for transactions, nor that all hashes and flags are
used, nor that two children differ.

* `Reads` : what the recursion reads are the flags and hashes of a partial tree, and it leaves the
  hash of its root;
* `tree_of_extract` : the loop on a node comes past no equal children exactly where its tree has
  none;
* `canonical_iff` : the trees that are accepted as they should be are those written without anything
  else.
-/
import Libdogecoin.Bip37Matches
import Libdogecoin.PartialTree

namespace Libdogecoin

namespace Bip37

/-! ## What is written -/

/-- The bits of the flag bytes. -/
def bitList (flags : Bytes) : List Bool := (List.range (flags.length * 8)).map (flagBit flags)

/-- The hashes at the offsets they are taken from. -/
def hashList (hashes : List Uint256) : List Uint256 :=
  (List.range hashes.length).map fun i => hashes.getD (i * 32 % 2 ^ 32 / 32) Uint256.zero

theorem length_bitList (flags : Bytes) : (bitList flags).length = flags.length * 8 := by
  rw [bitList, List.length_map, List.length_range]

theorem length_hashList (hashes : List Uint256) : (hashList hashes).length = hashes.length := by
  rw [hashList, List.length_map, List.length_range]

/-- A bit that may be read is the next one. -/
theorem drop_bitList {flags : Bytes} {i : ℕ} (h : ¬ i ≥ flags.length * 8 % 2 ^ 32) :
    (bitList flags).drop i = flagBit flags i :: (bitList flags).drop (i + 1) := by
  have hlt : i < (bitList flags).length := by
    have hle : flags.length * 8 % 2 ^ 32 ≤ flags.length * 8 := Nat.mod_le _ _
    rw [length_bitList]
    omega
  rw [List.drop_eq_getElem_cons hlt]
  simp only [bitList, List.getElem_map, List.getElem_range]

/-- What is read from a state of the walk to another: the flags and hashes of a tree, whose root is
left. -/
structure Reads (pf : Platform) (hashes : List Uint256) (flags : Bytes) (w : Walk)
    (tree : PartialTree Uint256) (w' : Walk) : Prop where
  bits : (bitList flags).drop w.bitsUsed = tree.flags ++ (bitList flags).drop w'.bitsUsed
  bitsUsed : w'.bitsUsed = w.bitsUsed + tree.flags.length
  values : (hashList hashes).drop w.hashesUsed = tree.values ++ (hashList hashes).drop w'.hashesUsed
  hashesUsed : w'.hashesUsed = w.hashesUsed + tree.values.length
  root : w'.ret = some (tree.root (combine pf))

section

variable {pf : Platform} {nTx : ℕ} {hashes : List Uint256} {flags : Bytes}
  {onMatch : OnMatch} {w₁ : Walk}

variable {w : Walk}

/-- A hash that is taken is the next one. -/
theorem takeHash_reads {pos : ℕ} {leafMatch : Bool} {w' : Walk}
    (h : takeHash hashes onMatch pos leafMatch w = some w') :
    ∃ hash, (hashList hashes).drop w.hashesUsed = hash :: (hashList hashes).drop w'.hashesUsed ∧
      w'.hashesUsed = w.hashesUsed + 1 ∧ w'.ret = some hash := by
  unfold takeHash at h
  split at h
  · cases h
  next hlt =>
    obtain ⟨hash, hhash, h⟩ := Option.bind_eq_some_iff.mp h
    obtain ⟨matched, -, rfl⟩ := Option.map_eq_some_iff.mp h
    have hused : w.hashesUsed < (hashList hashes).length := by
      rw [length_hashList]
      exact Nat.lt_of_not_ge hlt
    refine ⟨hash, ?_, rfl, rfl⟩
    rw [List.drop_eq_getElem_cons hused]
    simp only [hashList, List.getElem_map, List.getElem_range, List.getD_eq_getElem?_getD, hhash,
      Option.getD_some]

/-- A node whose hash is in the message. -/
theorem reads_given {pos : ℕ} {leafMatch : Bool} {w w' : Walk}
    (hbits : ¬ w.bitsUsed ≥ flags.length * 8 % 2 ^ 32)
    (h : takeHash hashes onMatch pos leafMatch { w with bitsUsed := w.bitsUsed + 1 } = some w') :
    ∃ hash, Reads pf hashes flags w (PartialTree.given hash (flagBit flags w.bitsUsed)) w' := by
  obtain ⟨hash, hvalues, hused, hret⟩ := takeHash_reads h
  have hframe := (takeHash_frame h).2
  dsimp only at hvalues hused hframe
  refine ⟨hash, ?_, hframe, hvalues, hused, hret⟩
  rw [drop_bitList hbits, hframe]
  rfl

/-- Below a flag that is set: both children. -/
theorem Reads.pair {w₂ : Walk} {left right : PartialTree Uint256}
    (hbits : ¬ w.bitsUsed ≥ flags.length * 8 % 2 ^ 32) (hflag : flagBit flags w.bitsUsed = true)
    (hleft : Reads pf hashes flags { w with bitsUsed := w.bitsUsed + 1 } left w₁)
    (hright : Reads pf hashes flags { w₁ with ret := none } right w₂) :
    Reads pf hashes flags w (PartialTree.pair left right)
      { w₂ with ret := some (combine pf (left.root (combine pf)) (right.root (combine pf))) } where
  bits := by
    have hleftBits := hleft.bits
    have hrightBits := hright.bits
    dsimp only at hleftBits hrightBits ⊢
    rw [drop_bitList hbits, hflag, hleftBits, hrightBits, PartialTree.flags, List.cons_append,
      List.append_assoc]
  bitsUsed := by
    have hleftBits := hleft.bitsUsed
    have hrightBits := hright.bitsUsed
    dsimp only at hleftBits hrightBits ⊢
    rw [PartialTree.flags, List.length_cons, List.length_append]
    omega
  values := by
    have hleftValues := hleft.values
    have hrightValues := hright.values
    dsimp only at hleftValues hrightValues ⊢
    rw [hleftValues, hrightValues, PartialTree.values, List.append_assoc]
  hashesUsed := by
    have hleftValues := hleft.hashesUsed
    have hrightValues := hright.hashesUsed
    dsimp only at hleftValues hrightValues ⊢
    rw [PartialTree.values, List.length_append]
    omega
  root := rfl

/-- Below a flag that is set: a child without a sibling. -/
theorem Reads.single {left : PartialTree Uint256} (hbits : ¬ w.bitsUsed ≥ flags.length * 8 % 2 ^ 32)
    (hflag : flagBit flags w.bitsUsed = true)
    (hleft : Reads pf hashes flags { w with bitsUsed := w.bitsUsed + 1 } left w₁) :
    Reads pf hashes flags w (PartialTree.single left)
      { w₁ with ret := some (combine pf (left.root (combine pf)) (left.root (combine pf))) } where
  bits := by
    have hleftBits := hleft.bits
    dsimp only at hleftBits ⊢
    rw [drop_bitList hbits, hflag, hleftBits, PartialTree.flags, List.cons_append]
  bitsUsed := by
    have hleftBits := hleft.bitsUsed
    dsimp only at hleftBits ⊢
    rw [PartialTree.flags, List.length_cons]
    omega
  values := hleft.values
  hashesUsed := hleft.hashesUsed
  root := rfl

/-- The tree that is read is the only one that is written so. -/
theorem Reads.unique {height pos : ℕ} {w' : Walk} {tree tree' : PartialTree Uint256}
    (hshaped : PartialTree.Shaped (width nTx) height pos tree) (h : Reads pf hashes flags w tree w')
    (hshaped' : PartialTree.Shaped (width nTx) height pos tree') {pad : List Bool}
    {rest : List Uint256}
    (hbits : (bitList flags).drop w.bitsUsed = tree'.flags ++ pad)
    (hvalues : (hashList hashes).drop w.hashesUsed = tree'.values ++ rest) :
    tree = tree' ∧ (bitList flags).drop w'.bitsUsed = pad ∧
    (hashList hashes).drop w'.hashesUsed = rest :=
  hshaped.unique hshaped' (h.bits.symm.trans hbits) (h.values.symm.trans hvalues)

end

/-! ## Equal children -/

section
variable (pf : Platform) (nTx : ℕ) (hashes : List Uint256) (flags : Bytes) (onMatch : OnMatch)

/-- One turn of the loop. -/
def Turn (w w' : Walk) : Prop :=
  ∃ cur below, w.stack = cur :: below ∧ walkStep pf nTx hashes flags onMatch cur below w = some w'

/-- The topmost node is behind its children, and they have the same hash. -/
def Twins (w : Walk) : Prop := ∃ cur below, w.stack = cur :: below ∧ cur.stage = 2 ∧
    w.ret = some cur.left

/-- The loop comes past no equal children from here on. -/
def TwinFree (w : Walk) : Prop :=
  ∀ v, Relation.ReflTransGen (Turn pf nTx hashes flags onMatch) w v → ¬ Twins v

end

variable {pf : Platform} {nTx : ℕ} {hashes : List Uint256} {flags : Bytes} {onMatch : OnMatch}

variable {w w' : Walk} {height pos : ℕ} {left : Uint256}

theorem twinFree_of_nil (h : w.stack = []) : TwinFree pf nTx hashes flags onMatch w := by
  have hend : ∀ v, ¬ Turn pf nTx hashes flags onMatch w v := by
    rintro v ⟨cur, below, hstack, -⟩
    rw [h] at hstack
    cases hstack
  intro v hv
  rcases Relation.ReflTransGen.cases_head hv with rfl | ⟨w', hturn, -⟩
  · rintro ⟨cur, below, hstack, -⟩
    rw [h] at hstack
    cases hstack
  · exact absurd hturn (hend w')

/-- **One turn** : this state, and those from the next one on. -/
theorem twinFree_of_cons {cur : TraverseState} {below : List TraverseState}
    (h : w.stack = cur :: below) (hstep : walkStep pf nTx hashes flags onMatch cur below w =
      some w') :
    TwinFree pf nTx hashes flags onMatch w ↔ ¬ Twins w ∧
    TwinFree pf nTx hashes flags onMatch w' := by
  constructor
  · intro hfree
    refine ⟨hfree w Relation.ReflTransGen.refl, ?_⟩
    intro v hv
    exact hfree v (Relation.ReflTransGen.head ⟨cur, below, h, hstep⟩ hv)
  · rintro ⟨hnow, hnext⟩ v hv
    rcases Relation.ReflTransGen.cases_head hv with rfl |
      ⟨w'', ⟨cur', below', hstack, hstep'⟩, hrest⟩
    · exact hnow
    · rw [h] at hstack
      cases hstack
      rw [hstep] at hstep'
      cases hstep'
      exact hnext v hrest

/-- Only a node behind its children has both of them. -/
theorem not_twins_push {stage : ℕ} (h : stage ≠ 2) : ¬ Twins (push height pos stage left w) := by
  rintro ⟨cur, below, hstack, hstage, -⟩
  cases hstack
  exact h hstage

theorem twins_push_iff : Twins (push height pos 2 left w) ↔ w.ret = some left := by
  constructor
  · rintro ⟨cur, below, hstack, -, hret⟩
    cases hstack
    exact hret
  · intro hret
    exact ⟨_, _, rfl, rfl, hret⟩

/-- A node that is left at once. -/
theorem twinFree_given
    (hstep : walkStep pf nTx hashes flags onMatch
      { height := height, pos := pos, stage := 0, left := left } w.stack
        (push height pos 0 left w) = some w') :
    TwinFree pf nTx hashes flags onMatch (push height pos 0 left w) ↔
      TwinFree pf nTx hashes flags onMatch w' := by
  rw [twinFree_of_cons rfl hstep, and_iff_right (not_twins_push (by decide))]

/-- A node that enters its left child. -/
theorem twinFree_enter {height pos : ℕ} {left : Uint256} {w : Walk}
    (hroom : w.stack.length + 1 < stackSize) (hbits : ¬ w.bitsUsed ≥ flags.length * 8 % 2 ^ 32)
    (hflag : ¬ flagBit flags w.bitsUsed = false) :
    TwinFree pf nTx hashes flags onMatch (push (height + 1) pos 0 left w) ↔
      TwinFree pf nTx hashes flags onMatch (push height (pos * 2) 0 Uint256.zero
        (push (height + 1) pos 1 left { w with bitsUsed := w.bitsUsed + 1 })) := by
  apply twinFree_given
  rw [walkStep_inner height pos left w hroom, if_neg hbits, if_neg hflag]

/-- A node between its children that enters the right one. -/
theorem twinFree_right {height pos : ℕ} {old left : Uint256} {w : Walk}
    (hroom : w.stack.length + 1 < stackSize) (hret : w.ret = some left)
    (hwidth : pos * 2 + 1 < width nTx height) :
    TwinFree pf nTx hashes flags onMatch (push (height + 1) pos 1 old w) ↔
      TwinFree pf nTx hashes flags onMatch (push height (pos * 2 + 1) 0 Uint256.zero
        (push (height + 1) pos 2 left { w with ret := none })) := by
  have hstep := @walkStep_between pf nTx hashes flags onMatch height pos old w hroom
  rw [hret, Option.bind_some, if_pos hwidth] at hstep
  rw [twinFree_of_cons rfl hstep, and_iff_right (not_twins_push (by decide))]

/-- A node between its children that has no right one. -/
theorem twinFree_single {height pos : ℕ} {old left : Uint256} {w : Walk}
    (hroom : w.stack.length + 1 < stackSize) (hret : w.ret = some left)
    (hwidth : ¬ pos * 2 + 1 < width nTx height) :
    TwinFree pf nTx hashes flags onMatch (push (height + 1) pos 1 old w) ↔
      TwinFree pf nTx hashes flags onMatch { w with ret := some (combine pf left left) } := by
  have hstep := @walkStep_between pf nTx hashes flags onMatch height pos old w hroom
  rw [hret, Option.bind_some, if_neg hwidth] at hstep
  rw [twinFree_of_cons rfl hstep, and_iff_right (not_twins_push (by decide))]

/-- A node behind its children. -/
theorem twinFree_behind {height pos : ℕ} {left right : Uint256} {w : Walk}
    (hret : w.ret = some right) :
    TwinFree pf nTx hashes flags onMatch (push height pos 2 left w) ↔
      left ≠ right ∧ TwinFree pf nTx hashes flags onMatch
        { w with ret := some (combine pf left right) } := by
  have hstep := @walkStep_behind pf nTx hashes flags onMatch height pos left w
  rw [hret, Option.bind_some] at hstep
  rw [twinFree_of_cons rfl hstep, twins_push_iff, hret, Option.some_inj, ne_comm, ne_eq]

/-- There is room for the children of a node. -/
theorem room_cons {stack : List TraverseState} (h : stack.length + (height + 1) < stackSize)
    (node : TraverseState) : (node :: stack).length + height < stackSize := by
  rw [List.length_cons]
  omega

/-- **A node** : the recursion reads a partial tree, in the shape that the number of transactions
gives it, and the loop on the node comes past equal children exactly where the tree has them,
whatever is above. -/
theorem tree_of_extract (h : extract pf nTx hashes flags onMatch height pos w = some w') :
    ∃ tree, PartialTree.Shaped (width nTx) height pos tree ∧ Reads pf hashes flags w tree w' ∧
      ∀ left stack, stack.length + height < stackSize →
        (TwinFree pf nTx hashes flags onMatch (push height pos 0 left { w with stack := stack }) ↔
          tree.Distinct (combine pf) ∧ TwinFree pf nTx hashes flags onMatch { w' with
            stack := stack }) := by
  induction height generalizing pos w w' with
  | zero =>
    have hextract := h
    unfold extract at h
    split at h
    · cases h
    next hbits =>
      obtain ⟨hash, hreads⟩ := @reads_given pf hashes flags onMatch _ _ _ _ hbits h
      refine ⟨_, PartialTree.Shaped.leaf pos hash _, hreads, ?_⟩
      intro left stack _
      have hstep := @walkStep_leaf pf nTx hashes flags onMatch pos left { w with stack := stack }
      rw [extract_withStack, hextract, Option.map_some] at hstep
      rw [twinFree_given hstep]
      exact (and_iff_right trivial).symm
  | succ height ih =>
    unfold extract at h
    split at h
    · cases h
    next hbits =>
    split at h
    next hflag =>
      obtain ⟨hash, hreads⟩ := @reads_given pf hashes flags onMatch _ _ _ _ hbits h
      rw [hflag] at hreads
      refine ⟨_, PartialTree.Shaped.pruned height pos hash, hreads, ?_⟩
      intro left stack hroom
      have hstep := @walkStep_inner pf nTx hashes flags onMatch height pos left
        { w with stack := stack } (by dsimp only; omega)
      have htake := @takeHash_withStack hashes onMatch pos false
        { w with bitsUsed := w.bitsUsed + 1 } stack
      dsimp only at hstep htake
      rw [if_neg hbits, if_pos hflag, htake, h, Option.map_some] at hstep
      rw [twinFree_given hstep]
      exact (and_iff_right trivial).symm
    next hflag =>
    obtain ⟨w₁, hleft, h⟩ := Option.bind_eq_some_iff.mp h
    obtain ⟨left, hret, h⟩ := Option.bind_eq_some_iff.mp h
    obtain ⟨leftTree, hleftShaped, hleftReads, hleftFree⟩ := ih hleft
    obtain rfl := Option.some.inj (hret.symm.trans hleftReads.root)
    have hset : flagBit flags w.bitsUsed = true := (Bool.not_eq_false _).mp hflag
    split at h
    next hwidth =>
      obtain ⟨w₂, hright, h⟩ := Option.bind_eq_some_iff.mp h
      obtain ⟨right, hretRight, rfl⟩ := Option.map_eq_some_iff.mp h
      obtain ⟨rightTree, hrightShaped, hrightReads, hrightFree⟩ := ih hright
      obtain rfl := Option.some.inj (hretRight.symm.trans hrightReads.root)
      refine ⟨_, PartialTree.Shaped.pair hleftShaped hwidth hrightShaped,
        Reads.pair hbits hset hleftReads hrightReads, ?_⟩
      intro old stack hroom
      -- in front of the node, between its children and behind them
      have henter := @twinFree_enter pf nTx hashes flags onMatch height pos old
        { w with stack := stack } (by dsimp only; omega) hbits hflag
      have hbetween := @twinFree_right pf nTx hashes flags onMatch height pos old _ { w₁ with
        stack := stack }
        (by dsimp only; omega) hret hwidth
      have hbehind := @twinFree_behind pf nTx hashes flags onMatch (height + 1) pos
        (leftTree.root (combine pf)) _ { w₂ with stack := stack } hretRight
      have hleftFree' := henter.trans (hleftFree Uint256.zero _ (room_cons hroom _))
      have hrightFree' := hbetween.trans (hrightFree Uint256.zero _ (room_cons hroom _))
      refine hleftFree'.trans ((and_congr_right'
        (hrightFree'.trans (and_congr_right' hbehind))).trans ?_)
      rw [PartialTree.Distinct, and_assoc, and_assoc]
    next hwidth =>
      cases h
      refine ⟨_, PartialTree.Shaped.single hleftShaped hwidth,
        Reads.single hbits hset hleftReads, ?_⟩
      intro old stack hroom
      have henter := @twinFree_enter pf nTx hashes flags onMatch height pos old
        { w with stack := stack } (by dsimp only; omega) hbits hflag
      have hbetween := @twinFree_single pf nTx hashes flags onMatch height pos old _ { w₁ with
        stack := stack }
        (by dsimp only; omega) hret hwidth
      exact (henter.trans (hleftFree Uint256.zero _ (room_cons hroom _))).trans
        (and_congr_right' hbetween)

/-! ## Canonical trees -/

/-- The traversal of a block with transactions uses all hashes and all flags up to the last byte,
and comes past no equal children. -/
structure Canonical (pf : Platform) (nTx : UInt32) (hashes : List Uint256) (flags : Bytes)
    (onMatch : OnMatch) :
    Prop where
  nTx_pos : 1 ≤ nTx
  used : ∃ height w, treeHeight nTx.toNat 34 0 = some height ∧
    walk pf nTx.toNat hashes flags onMatch (24 * flags.length + 1) (startWalk height) = some w ∧
    w.hashesUsed = hashes.length ∧ w.bitsUsed ≤ flags.length * 8 ∧ flags.length * 8 <
      w.bitsUsed + 8 ∧
    TwinFree pf nTx.toNat hashes flags onMatch (startWalk height)

/-- The hashes and flags are those of a partial tree over some transactions, in which no two
children are equal, with fewer than eight flags more. -/
def WritesTree (pf : Platform) (nTx : UInt32) (hashes : List Uint256) (flags : Bytes) : Prop :=
  1 ≤ nTx ∧ ∃ height tree pad, treeHeight nTx.toNat 34 0 = some height ∧
    PartialTree.Shaped (width nTx.toNat) height 0 tree ∧ tree.Distinct (combine pf) ∧
    hashList hashes = tree.values ∧ bitList flags = tree.flags ++ pad ∧ pad.length < 8

/-- **Canonical trees** : a traversal that succeeds is canonical, if and only if its input is that
of a partial tree of at least one transaction without equal children, with no other hashes and with
fewer than eight other flags. -/
theorem canonical_iff {pf : Platform} {nTx : UInt32} {hashes : List Uint256}
    {flags headerMerkle : Bytes} {onMatch : OnMatch} {matched : List (Uint256 × ℕ)}
    (h : traverseMerkleMatches pf nTx hashes flags headerMerkle onMatch = some matched) :
    Canonical pf nTx hashes flags onMatch ↔ WritesTree pf nTx hashes flags := by
  rw [traverse_eq] at h
  split at h
  · cases h
  obtain ⟨height, hheight, h⟩ := Option.bind_eq_some_iff.mp h
  obtain ⟨w, hextract, -⟩ := Option.bind_eq_some_iff.mp h
  have hwalk := @walk_startWalk pf nTx.toNat hashes flags onMatch _ _ hheight
  rw [hextract] at hwalk
  obtain ⟨tree, hshaped, hreads, hfree⟩ := tree_of_extract hextract
  -- at the root nothing is above
  have hroot : TwinFree pf nTx.toNat hashes flags onMatch (startWalk height) ↔
    tree.Distinct (combine pf) := by
    have hle := (of_treeHeight hheight (Nat.zero_le _)).2
    refine (hfree Uint256.zero [] ?_).trans (and_iff_left (twinFree_of_nil rfl))
    show 0 + height < 64
    omega
  have hbits : bitList flags = tree.flags ++ (bitList flags).drop w.bitsUsed := hreads.bits
  have hvalues : hashList hashes = tree.values ++ (hashList hashes).drop w.hashesUsed :=
    hreads.values
  have hbitsUsed : w.bitsUsed = tree.flags.length := hreads.bitsUsed.trans (Nat.zero_add _)
  have hhashesUsed : w.hashesUsed = tree.values.length := hreads.hashesUsed.trans (Nat.zero_add _)
  have hlength := congrArg List.length hbits
  rw [List.length_append, List.length_drop, length_bitList] at hlength
  constructor
  · rintro ⟨hpos, height', w', hheight', hwalk', hall, hle, hlt, htwins⟩
    obtain rfl := Option.some.inj (hheight.symm.trans hheight')
    obtain rfl := Option.some.inj (hwalk.symm.trans hwalk')
    refine ⟨hpos, height, tree, _, hheight, hshaped, hroot.mp htwins, ?_, hbits, ?_⟩
    · rw [hall, ← length_hashList, List.drop_length, List.append_nil] at hvalues
      exact hvalues
    · rw [List.length_drop, length_bitList]
      omega
  · rintro ⟨hpos, height', tree', pad, hheight', hshaped', hdistinct, hvalues', hbits', hpad⟩
    obtain rfl := Option.some.inj (hheight.symm.trans hheight')
    have hrest := hvalues'.trans (List.append_nil _).symm
    obtain ⟨rfl, hpad', hnone⟩ := hreads.unique hshaped hshaped' hbits' hrest
    refine ⟨hpos, height, w, hheight, hwalk, ?_, ?_, ?_, hroot.mpr hdistinct⟩
    · rw [hhashesUsed, ← hvalues', length_hashList]
    · omega
    · rw [← hpad', List.length_drop, length_bitList] at hpad
      omega

/-- The theorem on a block with one transaction. -/
theorem canonical_iff_single : Canonical samplePlatform 1 [Uint256.zero] [0] none :=
  (@canonical_iff samplePlatform 1 [Uint256.zero] [0] Uint256.zero.1 none [] rfl).mpr
    ⟨by decide, 0, PartialTree.given Uint256.zero false, List.replicate 7 false, rfl,
      PartialTree.Shaped.leaf 0 Uint256.zero false, trivial, rfl, rfl, by decide⟩

/-- A block with one transaction and a hash that is not used. -/
theorem not_canonical : ¬ ∀ (nTx : UInt32) (hashes : List Uint256) (flags headerMerkle : Bytes)
    (onMatch : OnMatch) (matched : List (Uint256 × ℕ)),
    traverseMerkleMatches samplePlatform nTx hashes flags headerMerkle onMatch = some matched →
      Canonical samplePlatform nTx hashes flags onMatch := by
  intro hall
  obtain ⟨-, height, w, hheight, hwalk, hused, -⟩ :=
    hall 1 [Uint256.zero, Uint256.zero] [0] Uint256.zero.1 none [] rfl
  obtain rfl : 0 = height := Option.some.inj hheight
  obtain rfl := Option.some.inj hwalk
  cases hused

end Bip37

end Libdogecoin
