/-
# The balance of a wallet

`dogecoin_wallet_get_balance` and `dogecoin_wallet_get_unspents` after transactions that were handed
to `dogecoin_wallet_check_transaction` one by one. Spends are looked up in a tree that only holds
those of the transactions which the wallet took for its own; `Follows` says why none of them is
missing.

* `follows_checkTransaction` : one transaction;
* `getBalance_checkTransactions` : the balance and the unspent outpoints after all of them;
* `utxos_checkTransactions` : the table of unspent outputs lists the same coins.
-/
import Mathlib.Algebra.Order.BigOperators.Group.List
import Libdogecoin.Ledger
import Libdogecoin.WalletUtxos

namespace Libdogecoin

namespace Wallet

variable (wp : WalletPlatform) {wtx : Wtx} {coins : List ((Uint256 × ℕ) × UInt64)}

/-- A transaction of a block. -/
structure BlockTx where
  tx : Tx
  blockhash : Uint256
  height : UInt32

/-- Transactions are handed to `dogecoin_wallet_check_transaction` one after the other. -/
def checkTransactions (s : Loaded) (items : List BlockTx) : Option Loaded :=
  items.foldlM (fun s item => checkTransaction wp s item.tx item.blockhash item.height) s

/-- The transactions as a ledger, in which the outputs are those that belong to the wallet. -/
def ledger (w : Wallet) : Ledger Tx Uint256 UInt64 where
  id := txHash wp.toPlatform
  outputs := fun tx =>
    (tx.vout.zipIdx.filter fun out => w.txoutIsMine out.1).map fun out => (out.2, out.1.value)
  spends := fun tx => tx.vin.map fun txIn => (txIn.prevout.hash, txIn.prevout.n.toNat)

/-- A wallet with addresses and without transactions. -/
structure Fresh (w : Wallet) : Prop where
  waddrs : ∀ hash, (w.waddrTree.find hash).isSome = true ↔
    ∃ waddr ∈ w.waddrVector, waddr.pubkeyhash = hash
  ignore : ∀ waddr ∈ w.waddrVector, waddr.ignore = 0
  vecWtxes : w.vecWtxes = []
  wtxesTree : ∀ hash, w.wtxesTree.find hash = none
  spendsTree : ∀ o, w.spendsTree.find o = none

variable {wp} {w : Wallet}

theorem fresh_create (chain : WalletParams) : Fresh (create chain) where
  waddrs := by
    intro hash
    show (none : Option WalletAddr).isSome = true ↔ ∃ waddr ∈ [], _
    simp
  ignore := fun waddr hmem => absurd hmem List.not_mem_nil
  vecWtxes := rfl
  wtxesTree := fun hash => rfl
  spendsTree := fun o => rfl

/-- A new address leaves the wallet without transactions. -/
theorem Fresh.addWaddr (h : Fresh w) {waddr : WalletAddr} (hignore : waddr.ignore = 0) :
    Fresh (w.addWaddr waddr) where
  waddrs := by
    intro hash
    show ((w.waddrTree.insert waddr.pubkeyhash waddr).find hash).isSome = true ↔
      ∃ a ∈ w.waddrVector ++ [waddr], a.pubkeyhash = hash
    rw [SearchTree.find_insert]
    constructor
    · intro hfind
      split_ifs at hfind with heq
      · exact ⟨waddr, List.mem_append_right _ List.mem_cons_self, heq.symm⟩
      · obtain ⟨a, ha, hhash⟩ := (h.waddrs hash).mp hfind
        exact ⟨a, List.mem_append_left _ ha, hhash⟩
    · rintro ⟨a, ha, hhash⟩
      split_ifs with heq
      · rfl
      · rcases List.mem_append.mp ha with ha | ha
        · exact (h.waddrs hash).mpr ⟨a, ha, hhash⟩
        · rw [List.mem_singleton] at ha
          exact absurd (ha ▸ hhash).symm heq
  ignore := by
    intro a ha
    rcases List.mem_append.mp ha with ha | ha
    · exact h.ignore a ha
    · rw [List.mem_singleton.mp ha]
      exact hignore
  vecWtxes := h.vecWtxes
  wtxesTree := h.wtxesTree
  spendsTree := h.spendsTree

/-! ## Ownership -/

variable {txOut : TxOut} {utxos : Utxos} {coin : (Uint256 × ℕ) × UInt64} {α : Type}

theorem txoutIsMine_p2pkh {hash : Uint160} (hscript : txOut.scriptPubkey = p2pkhScript hash) :
    w.txoutIsMine txOut = (w.waddrTree.find hash).isSome := by
  have htake : hash.1.take 20 = hash.1 := List.take_of_length_le (Nat.le_of_eq hash.2)
  unfold txoutIsMine
  rw [hscript, scriptClassify_p2pkhScript]
  show w.haveKey hash.1 = _
  unfold haveKey
  rw [dif_pos (htake.symm ▸ hash.2)]
  exact congrArg (fun key => (w.waddrTree.find key).isSome) (Subtype.ext htake)

/-- The table lists the addresses of the outputs that belong to the wallet. -/
theorem paysAddress_of_txoutIsMine (h : Fresh w)
    (hscript : ∃ hash, txOut.scriptPubkey = p2pkhScript hash) (hmine : w.txoutIsMine txOut = true) :
    w.paysAddress wp txOut = true := by
  obtain ⟨hash, hscript⟩ := hscript
  rw [txoutIsMine_p2pkh hscript] at hmine
  obtain ⟨waddr, hwaddr, rfl⟩ := (h.waddrs hash).mp hmine
  rw [paysAddress_p2pkh hscript]
  unfold listsAddress getAddresses
  rw [List.any_eq_true]
  refine ⟨_, List.mem_map_of_mem (List.mem_filter.mpr ⟨hwaddr, ?_⟩), decide_eq_true rfl⟩
  exact decide_eq_true (h.ignore waddr hwaddr)

/-! ## Spends -/

/-- The tree of spends after those of a transaction were recorded. -/
theorem isSpent_recordSpends (tx : Tx) (hash : Uint256) (n : ℕ) :
    (w.recordSpends tx).isSpent hash n = true ↔ w.isSpent hash n = true ∨
      ∃ txIn ∈ tx.vin, txOutpointIsNull txIn.prevout = false ∧
        (txIn.prevout.hash, txIn.prevout.n.toNat) = (hash, n) := by
  have hfold : ∀ (vin : List TxIn) (tree : SearchTree (Uint256 × ℕ) Unit txOutpointCompare),
      ((vin.foldl (fun tree txIn => if txOutpointIsNull txIn.prevout then tree
        else tree.insert (txIn.prevout.hash, txIn.prevout.n.toNat) ()) tree).find (hash,
          n)).isSome = true ↔
      (tree.find (hash, n)).isSome = true ∨ ∃ txIn ∈ vin, txOutpointIsNull txIn.prevout = false ∧
        (txIn.prevout.hash, txIn.prevout.n.toNat) = (hash, n) := by
    intro vin
    induction vin with
    | nil => simp
    | cons txIn vin ih =>
      intro tree
      rw [List.foldl_cons, ih]
      simp only [List.mem_cons, exists_eq_or_imp, ← or_assoc]
      apply or_congr_left
      split_ifs with hnull
      · simp [hnull]
      · rw [SearchTree.find_insert]
        split_ifs with heq
        · simp [Bool.eq_false_iff.mpr hnull, heq]
        · simp [Ne.symm heq]
  exact hfold tx.vin w.spendsTree

/-- A transaction that spends from a transaction of the table is one of the wallet's own. -/
theorem isFromMe_of_listed {tx : Tx} {o o' : Uint256 × ℕ} (hhash : o'.1 = swapBytes o.1)
    (hlisted : o' ∈ utxos.view.outpoints) (hspends : o ∈ (w.ledger wp).spends tx) (w' : Wallet) :
    w'.isFromMe utxos tx = true := by
  obtain ⟨utxo, hutxo, hcoin⟩ := List.mem_map.mp hlisted
  obtain ⟨txIn, htxIn, ho⟩ := List.mem_map.mp hspends
  have htxid : swapBytes txIn.prevout.hash = utxo.txid := by
    rw [← ho] at hhash
    rw [← hhash, ← hcoin]
    rfl
  unfold isFromMe
  rw [Bool.or_eq_true]
  right
  rw [List.any_eq_true]
  refine ⟨txIn, htxIn, ?_⟩
  rw [List.any_eq_true]
  refine ⟨utxo, hutxo, ?_⟩
  rw [Bool.or_eq_true]
  exact Or.inr (decide_eq_true htxid)

/-! ## One transaction -/

variable (wp w) in
/-- What a wallet and its table know after transactions. The addresses are those of `w`, and the
wallet has kept all transactions that pay to them. -/
structure Follows (txs : List Tx) (s : Loaded) : Prop where
  waddrTree : s.wallet.waddrTree = w.waddrTree
  waddrVector : s.wallet.waddrVector = w.waddrVector
  chain : s.wallet.chain = w.chain
  coins : s.wallet.vecWtxes.flatMap (fun wtx => (w.ledger wp).coins wtx.tx) =
    txs.flatMap (w.ledger wp).coins
  listed : ∀ wtx ∈ s.wallet.vecWtxes, wtx.tx ∈ txs ∧ wtx.txHashCache = txHash wp.toPlatform wtx.tx
  tree : ∀ hash, (s.wallet.wtxesTree.find hash).isSome = true →
    ∃ wtx ∈ s.wallet.vecWtxes, wtx.txHashCache = hash
  sound : ∀ hash n, s.wallet.isSpent hash n = true → (w.ledger wp).Spent txs (hash, n)
  complete : ∀ coin ∈ txs.flatMap (w.ledger wp).coins, (w.ledger wp).Spent txs coin.1 →
    s.wallet.isSpent coin.1.1 coin.1.2 = true
  tracked : ∀ coin ∈ txs.flatMap (w.ledger wp).coins,
    (swapBytes coin.1.1, coin.1.2) ∈ s.utxos.view.outpoints
  numbered : s.utxos.Numbered

variable {txs : List Tx} {s : Loaded} {tx : Tx} {blockhash : Uint256} {height : UInt32}

theorem follows_fresh (h : Fresh w) (hnum : utxos.Numbered) :
    Follows wp w [] { wallet := w, utxos := utxos } where
  waddrTree := rfl
  waddrVector := rfl
  chain := rfl
  coins := by
    rw [h.vecWtxes]
    rfl
  listed := by
    intro wtx hwtx
    rw [h.vecWtxes] at hwtx
    cases hwtx
  tree := by
    intro hash hfind
    rw [h.wtxesTree hash] at hfind
    cases hfind
  sound := by
    intro hash n hspent
    unfold isSpent at hspent
    rw [h.spendsTree] at hspent
    cases hspent
  complete := fun coin hcoin => absurd hcoin List.not_mem_nil
  tracked := fun coin hcoin => absurd hcoin List.not_mem_nil
  numbered := hnum

theorem Follows.txoutIsMine (hs : Follows wp w txs s) (txOut : TxOut) :
    s.wallet.txoutIsMine txOut = w.txoutIsMine txOut := by
  unfold Wallet.txoutIsMine haveKey
  rw [hs.waddrTree]

theorem Follows.paysAddress (hs : Follows wp w txs s) (txOut : TxOut) :
    s.wallet.paysAddress wp txOut = w.paysAddress wp txOut := by
  unfold Wallet.paysAddress listsAddress getAddresses
  rw [hs.waddrVector, hs.chain]

theorem Follows.tableCoins (hs : Follows wp w txs s) (tx : Tx) :
    s.wallet.tableCoins wp tx = w.tableCoins wp tx := by
  unfold Wallet.tableCoins
  simp only [hs.paysAddress]

theorem mem_outputs {out : ℕ × UInt64} :
    out ∈ (w.ledger wp).outputs tx ↔
      ∃ txOut, tx.vout[out.1]? = some txOut ∧ w.txoutIsMine txOut = true ∧ txOut.value = out.2 := by
  constructor
  · intro hmem
    obtain ⟨⟨txOut, n⟩, hout, rfl⟩ := List.mem_map.mp hmem
    obtain ⟨hzip, hmine⟩ := List.mem_filter.mp hout
    exact ⟨txOut, List.mem_zipIdx_iff_getElem?.mp hzip, hmine, rfl⟩
  · rintro ⟨txOut, hget, hmine, hvalue⟩
    refine List.mem_map.mpr ⟨(txOut, out.1), List.mem_filter.mpr ⟨?_, hmine⟩, Prod.ext rfl hvalue⟩
    exact List.mem_zipIdx_iff_getElem?.mpr hget

theorem lt_of_mem_coins (h : coin ∈ (w.ledger wp).coins tx) : coin.1.2 < tx.vout.length := by
  obtain ⟨out, hout, rfl⟩ := List.mem_map.mp h
  obtain ⟨txOut, hget, -⟩ := mem_outputs.mp hout
  exact (List.getElem?_eq_some_iff.mp hget).1

theorem coins_eq_nil_iff : (w.ledger wp).coins tx = [] ↔ w.isMine tx = false := by
  unfold Ledger.coins isMine ledger
  rw [List.map_eq_nil_iff, List.map_eq_nil_iff, List.filter_eq_nil_iff, List.any_eq_false]
  constructor
  · intro h txOut hmem
    obtain ⟨n, hn, rfl⟩ := List.getElem_of_mem hmem
    exact h (tx.vout[n], n) (List.mem_zipIdx_iff_getElem?.mpr (List.getElem?_eq_getElem hn))
  · intro h out hout
    exact h out.1 (List.fst_mem_of_mem_zipIdx hout)

/-- **Relevance.** A transaction is passed over only if it neither pays to the wallet nor spends
from it. Else it is entered. -/
theorem checkTransaction_cases (hs : Follows wp w txs s)
    (hnew : ∀ t ∈ txs, txHash wp.toPlatform t ≠ txHash wp.toPlatform tx) :
    (checkTransaction wp s tx blockhash height =
        some { s with utxos := updateConfirmations height s.utxos } ∧
      (w.ledger wp).coins tx = [] ∧
      ∀ coin ∈ txs.flatMap (w.ledger wp).coins, coin.1 ∉ (w.ledger wp).spends tx) ∨
    checkTransaction wp s tx blockhash height =
      (s.wallet.scrapeUtxos wp ⟨Uint256.zero, blockhash, height, tx⟩ s.utxos).map fun utxos =>
        { wallet := s.wallet.addWtxMove wp utxos ⟨Uint256.zero, blockhash, height, tx⟩
          utxos := updateConfirmations height utxos } := by
  unfold checkTransaction
  split_ifs with hrelevant hknown
  · -- the hash of the transaction is new
    obtain ⟨wtx, hwtx, hhash⟩ := List.any_eq_true.mp hknown
    obtain ⟨hmem, hcache⟩ := hs.listed wtx hwtx
    exact absurd (hcache.symm.trans (of_decide_eq_true hhash)) (hnew wtx.tx hmem)
  · right
    dsimp only
    cases s.wallet.scrapeUtxos wp ⟨Uint256.zero, blockhash, height, tx⟩ s.utxos with
    | none => rfl
    | some utxos => rfl
  · left
    rw [Bool.or_eq_true, not_or, Bool.not_eq_true, Bool.not_eq_true] at hrelevant
    refine ⟨rfl, coins_eq_nil_iff.mpr ?_, fun coin hcoin hspends => ?_⟩
    · rw [← hrelevant.1]
      unfold isMine
      exact List.any_congr rfl fun txOut => (hs.txoutIsMine txOut).symm
    · have hmine := isFromMe_of_listed rfl (hs.tracked coin hcoin) hspends s.wallet
      rw [hmine] at hrelevant
      cases hrelevant.2

/-- The confirmations are not part of what the table stands for. -/
theorem view_updateConfirmations (height : UInt32) (utxos : Utxos) :
    (updateConfirmations height utxos).view = utxos.view ∧
      (utxos.Numbered → (updateConfirmations height utxos).Numbered) := by
  have hmap : ∀ {α : Type} (f : Utxo → α), (∀ (utxo : Utxo) (c : UInt32),
      f { utxo with confirmations := c } = f utxo) →
      (updateConfirmations height utxos).table.map f = utxos.table.map f := by
    intro α f hf
    unfold updateConfirmations
    rw [List.map_map]
    exact List.map_congr_left fun utxo _ => hf utxo _
  constructor
  · refine TableView.ext (hmap (fun utxo => utxo.coin.1) fun _ _ => rfl) ?_
    show List.map Utxo.coin (List.filter _ (List.map _ utxos.table)) = _
    rw [List.filter_map, List.map_map]
    rfl
  · exact fun h => Utxos.Numbered.of_map h (hmap Utxo.index fun _ _ => rfl) rfl

/-! ## Entering a transaction -/

/-- The tree and the list of transactions are all that entering one changes. -/
theorem enterWtx_frame (f : Wallet → α)
    (hf : ∀ (w : Wallet) vec tree, f { w with wtxesTree := tree, vecWtxes := vec } = f w)
    (w : Wallet)
    (wtx : Wtx) : f (w.enterWtx wtx) = f w := by
  unfold Wallet.enterWtx
  cases w.wtxesTree.find wtx.txHashCache with
  | none => exact hf _ _ _
  | some checkwtx => exact hf _ _ _

/-- The spends are all that `dogecoin_wallet_add_wtx_intern_move` changes besides. -/
theorem addWtxInternMove_frame (f : Wallet → α)
    (hf : ∀ (w : Wallet) tree, f { w with spendsTree := tree } = f w) (w : Wallet) (utxos : Utxos)
    (wtx : Wtx) : f (w.addWtxInternMove utxos wtx) = f (w.enterWtx wtx) := by
  unfold addWtxInternMove
  dsimp only
  split_ifs
  · exact hf _ _
  · rfl

/-- What both of them leave as it is. -/
theorem addWtxInternMove_leaves (f : Wallet → α)
    (hspends : ∀ (w : Wallet) tree, f { w with spendsTree := tree } = f w)
    (hwtxes : ∀ (w : Wallet) vec tree, f { w with wtxesTree := tree, vecWtxes := vec } = f w)
    (w : Wallet)
    (utxos : Utxos) (wtx : Wtx) : f (w.addWtxInternMove utxos wtx) = f w := by
  rw [addWtxInternMove_frame f hspends, enterWtx_frame f hwtxes]

/-- What is spent once a transaction is entered. -/
theorem isSpent_addWtxInternMove {w : Wallet} (hash : Uint256) (n : ℕ) :
    (w.addWtxInternMove utxos wtx).isSpent hash n = true ↔ w.isSpent hash n = true ∨
      ((w.enterWtx wtx).isFromMe utxos wtx.tx = true ∧
        ∃ txIn ∈ wtx.tx.vin, txOutpointIsNull txIn.prevout = false ∧
          (txIn.prevout.hash, txIn.prevout.n.toNat) = (hash, n)) := by
  have hold : (w.enterWtx wtx).isSpent hash n = w.isSpent hash n :=
    enterWtx_frame (fun w => w.isSpent hash n) (fun _ _ _ => rfl) w wtx
  unfold addWtxInternMove
  dsimp only
  split_ifs with hmine
  · rw [isSpent_recordSpends, hold]
    simp [hmine]
  · rw [hold]
    simp [hmine]

/-! ## One transaction -/

/-- A transaction that is passed over. -/
theorem Follows.skip (hs : Follows wp w txs s) (hcoins : (w.ledger wp).coins tx = [])
    (hspends : ∀ coin ∈ txs.flatMap (w.ledger wp).coins, coin.1 ∉ (w.ledger wp).spends tx) :
    Follows wp w (txs ++ [tx]) { s with utxos := updateConfirmations height s.utxos } := by
  have hflat : (txs ++ [tx]).flatMap (w.ledger wp).coins = txs.flatMap (w.ledger wp).coins := by
    rw [List.flatMap_append, List.flatMap_singleton, hcoins, List.append_nil]
  obtain ⟨hview, hnum⟩ := view_updateConfirmations height s.utxos
  refine ⟨hs.waddrTree, hs.waddrVector, hs.chain, hs.coins.trans hflat.symm, ?_,
    hs.tree, ?_, ?_, ?_, hnum hs.numbered⟩
  · intro wtx hwtx
    obtain ⟨hmem, hcache⟩ := hs.listed wtx hwtx
    exact ⟨List.mem_append_left _ hmem, hcache⟩
  · intro hash n hspent
    exact Ledger.spent_concat.mpr (Or.inl (hs.sound hash n hspent))
  · intro coin hcoin hspent
    rw [hflat] at hcoin
    rcases Ledger.spent_concat.mp hspent with hspent | hspent
    · exact hs.complete coin hcoin hspent
    · exact absurd hspent (hspends coin hcoin)
  · intro coin hcoin
    rw [hflat] at hcoin
    show _ ∈ (updateConfirmations height s.utxos).view.outpoints
    rw [hview]
    exact hs.tracked coin hcoin

/-- What `dogecoin_wallet_add_wtx_move` leaves as it is. -/
theorem addWtxMove_frame (f : Wallet → α)
    (hspends : ∀ (w : Wallet) tree, f { w with spendsTree := tree } = f w)
    (hwtxes : ∀ (w : Wallet) vec tree, f { w with wtxesTree := tree, vecWtxes := vec } = f w)
    (hfile : ∀ (w : Wallet) dbfile, f { w with dbfile := dbfile } = f w) (v : Wallet)
    (utxos : Utxos) (wtx : Wtx) :
    f (v.addWtxMove wp utxos wtx) = f v := by
  unfold addWtxMove
  dsimp only
  rw [addWtxInternMove_leaves f hspends hwtxes]
  exact hfile v _

/-- What it does with a transaction of a new hash. -/
theorem addWtxMove_of_new {v : Wallet} {wtx : Wtx} (utxos : Utxos)
    (hnew : v.wtxesTree.find (txHash wp.toPlatform wtx.tx) = none) :
    (v.addWtxMove wp utxos wtx).vecWtxes = v.vecWtxes ++ [wtxCachehash wp wtx] ∧
      (v.addWtxMove wp utxos wtx).wtxesTree =
        v.wtxesTree.insert (txHash wp.toPlatform wtx.tx) (wtxCachehash wp wtx) := by
  have henter : (v.writeRecord (walletWtxSerialize (wtxCachehash wp wtx)) recTypeTx).enterWtx
      (wtxCachehash wp wtx) =
      { v.writeRecord (walletWtxSerialize (wtxCachehash wp wtx)) recTypeTx with
        wtxesTree := v.wtxesTree.insert (txHash wp.toPlatform wtx.tx) (wtxCachehash wp wtx)
        vecWtxes := v.vecWtxes ++ [wtxCachehash wp wtx] } := by
    have hfind : (v.writeRecord (walletWtxSerialize (wtxCachehash wp wtx)) recTypeTx).wtxesTree.find
        (wtxCachehash wp wtx).txHashCache = none := hnew
    unfold enterWtx
    rw [hfind]
    rfl
  unfold addWtxMove
  dsimp only
  rw [addWtxInternMove_frame Wallet.vecWtxes (fun _ _ => rfl),
    addWtxInternMove_frame Wallet.wtxesTree (fun _ _ => rfl), henter]
  exact ⟨rfl, rfl⟩

/-- An outpoint with a number below that of the null outpoint is not null. -/
theorem txOutpointIsNull_of_lt {prevout : TxOutpoint} (h : prevout.n.toNat < 4294967295) :
    txOutpointIsNull prevout = false := by
  rw [Bool.eq_false_iff]
  intro hnull
  unfold txOutpointIsNull at hnull
  rw [Bool.and_eq_true, decide_eq_true_eq] at hnull
  rw [hnull.1] at h
  exact absurd h (by decide)

/-- The table after the outputs of a transaction were entered. -/
theorem tracked_scrapeUtxos (hfresh : Fresh w) (hs : Follows wp w txs s)
    (hscripts : ∀ out ∈ tx.vout, ∃ hash, out.scriptPubkey = p2pkhScript hash)
    (hview : utxos.view = (w.tableCoins wp tx).foldl TableView.enter
      (scrapeInputs tx s.utxos).view) :
    ∀ coin ∈ (txs ++ [tx]).flatMap (w.ledger wp).coins,
      (swapBytes coin.1.1, coin.1.2) ∈ utxos.view.outpoints := by
  intro coin hcoin
  rw [hview, TableView.mem_foldl_enter, outpoints_scrapeInputs]
  rw [List.flatMap_append, List.mem_append, List.flatMap_singleton] at hcoin
  rcases hcoin with hcoin | hcoin
  · exact Or.inl (hs.tracked coin hcoin)
  · right
    obtain ⟨out, hout, rfl⟩ := List.mem_map.mp hcoin
    obtain ⟨txOut, hget, hmine, -⟩ := mem_outputs.mp hout
    have hpays : w.paysAddress wp txOut = true :=
      paysAddress_of_txoutIsMine hfresh (hscripts txOut (List.mem_of_getElem? hget)) hmine
    have hzip : (txOut, out.1) ∈ tx.vout.zipIdx.filter fun out => w.paysAddress wp out.1 :=
      List.mem_filter.mpr ⟨List.mem_zipIdx_iff_getElem?.mpr hget, hpays⟩
    exact List.mem_map.mpr ⟨_, List.mem_map_of_mem hzip, rfl⟩

/-- A transaction that is entered. -/
theorem Follows.enter (hfresh : Fresh w) (hs : Follows wp w txs s)
    (hnew : ∀ t ∈ txs, txHash wp.toPlatform t ≠ txHash wp.toPlatform tx)
    (hbefore : ∀ t ∈ txs, ∀ o ∈ (w.ledger wp).spends t, o.1 ≠ txHash wp.toPlatform tx)
    (hscripts : ∀ out ∈ tx.vout, ∃ hash, out.scriptPubkey = p2pkhScript hash)
    (hsize : ∀ t ∈ txs ++ [tx], t.vout.length < 2 ^ 32)
    (hview : utxos.view = (w.tableCoins wp tx).foldl TableView.enter (scrapeInputs tx s.utxos).view)
    (hnum : utxos.Numbered) :
    Follows wp w (txs ++ [tx])
      { wallet := s.wallet.addWtxMove wp utxos ⟨Uint256.zero, blockhash, height, tx⟩
        utxos := updateConfirmations height utxos } := by
  have htracked := tracked_scrapeUtxos hfresh hs hscripts hview
  obtain ⟨hupdate, hupdateNum⟩ := view_updateConfirmations height utxos
  have hnone : s.wallet.wtxesTree.find (txHash wp.toPlatform tx) = none := by
    rw [← Option.not_isSome_iff_eq_none]
    intro hsome
    obtain ⟨wtx, hwtx, hhash⟩ := hs.tree _ hsome
    obtain ⟨hmem, hcache⟩ := hs.listed wtx hwtx
    exact hnew wtx.tx hmem (hcache.symm.trans hhash)
  obtain ⟨hvec, hwtxes⟩ := @addWtxMove_of_new wp s.wallet ⟨Uint256.zero, blockhash,
    height, tx⟩ utxos hnone
  -- what is spent afterwards
  have hspent : ∀ hash n, (s.wallet.addWtxMove wp utxos ⟨Uint256.zero, blockhash,
    height, tx⟩).isSpent hash n = true ↔ _ := fun hash n => isSpent_addWtxInternMove hash n
  refine ⟨(addWtxMove_frame Wallet.waddrTree (fun _ _ => rfl) (fun _ _ _ => rfl) (fun _ _ =>
    rfl) _ _ _).trans hs.waddrTree,
    (addWtxMove_frame Wallet.waddrVector (fun _ _ => rfl) (fun _ _ _ => rfl) (fun _ _ =>
      rfl) _ _ _).trans hs.waddrVector,
    (addWtxMove_frame Wallet.chain (fun _ _ => rfl) (fun _ _ _ => rfl) (fun _ _ => rfl) _ _ _).trans
      hs.chain,
    ?_, ?_, ?_, ?_, ?_, ?_, hupdateNum hnum⟩
  · rw [hvec, List.flatMap_append, List.flatMap_append, hs.coins, List.flatMap_singleton,
      List.flatMap_singleton]
    rfl
  · intro wtx hwtx
    rw [hvec] at hwtx
    rcases List.mem_append.mp hwtx with hwtx | hwtx
    · obtain ⟨hmem, hcache⟩ := hs.listed wtx hwtx
      exact ⟨List.mem_append_left _ hmem, hcache⟩
    · rw [List.mem_singleton.mp hwtx]
      exact ⟨List.mem_append_right _ (List.mem_singleton_self tx), rfl⟩
  · intro hash hfind
    rw [hwtxes, SearchTree.find_insert] at hfind
    rw [hvec]
    split_ifs at hfind with heq
    · exact ⟨_, List.mem_append_right _ (List.mem_singleton_self _), heq.symm⟩
    · obtain ⟨wtx, hwtx, hhash⟩ := hs.tree hash hfind
      exact ⟨wtx, List.mem_append_left _ hwtx, hhash⟩
  · intro hash n his
    rw [Ledger.spent_concat]
    rcases (hspent hash n).mp his with hold | ⟨-, txIn, htxIn, -, ho⟩
    · exact Or.inl (hs.sound hash n hold)
    · exact Or.inr (List.mem_map.mpr ⟨txIn, htxIn, ho⟩)
  · intro coin hcoin his
    rw [hspent]
    rcases Ledger.spent_concat.mp his with his | his
    · -- a transaction from before spends it, so it is not an output of the new one
      rw [List.flatMap_append, List.mem_append, List.flatMap_singleton] at hcoin
      rcases hcoin with hcoin | hcoin
      · exact Or.inl (hs.complete coin hcoin his)
      · obtain ⟨t, ht, ho⟩ := his
        exact absurd (Ledger.id_of_mem_coins hcoin) (hbefore t ht _ ho)
    · right
      refine ⟨isFromMe_of_listed rfl (htracked coin hcoin) his _, ?_⟩
      obtain ⟨txIn, htxIn, ho⟩ := List.mem_map.mp his
      refine ⟨txIn, htxIn, ?_, ho⟩
      -- no output has the number of a null outpoint
      obtain ⟨t, ht, hcoin⟩ := List.mem_flatMap.mp hcoin
      have hlt := lt_of_mem_coins hcoin
      have hlen := hsize t ht
      apply txOutpointIsNull_of_lt
      rw [← ho] at hlt
      change txIn.prevout.n.toNat < t.vout.length at hlt
      omega
  · intro coin hcoin
    show _ ∈ (updateConfirmations height utxos).view.outpoints
    rw [hupdate]
    exact htracked coin hcoin

/-! ## All transactions -/

variable (wp) in
/-- Different transactions that pay to public key hashes only, none of them in front of one that it
spends from. The counts of outputs are written in 32 bits. -/
structure Handed (txs : List Tx) : Prop where
  distinct : (txs.map (txHash wp.toPlatform)).Nodup
  ordered : txs.Pairwise fun earlier later =>
    ∀ txIn ∈ earlier.vin, txIn.prevout.hash ≠ txHash wp.toPlatform later
  noCoinbase : ∀ tx ∈ txs, txIsCoinbase tx = false
  p2pkh : ∀ tx ∈ txs, ∀ out ∈ tx.vout, ∃ hash, out.scriptPubkey = p2pkhScript hash
  size : ∀ tx ∈ txs, tx.vout.length < 2 ^ 32
  total : ((txs.flatMap (·.vout)).map fun out => out.value.toNat).sum < 2 ^ 63

theorem Handed.of_append {txs' : List Tx} (h : Handed wp (txs ++ txs')) : Handed wp txs where
  distinct := h.distinct.sublist (List.Sublist.map _ (List.sublist_append_left txs txs'))
  ordered := h.ordered.sublist (List.sublist_append_left txs txs')
  noCoinbase := fun tx ht => h.noCoinbase tx (List.mem_append_left _ ht)
  p2pkh := fun tx ht => h.p2pkh tx (List.mem_append_left _ ht)
  size := fun tx ht => h.size tx (List.mem_append_left _ ht)
  total := by
    have htotal := h.total
    rw [List.flatMap_append, List.map_append, List.sum_append] at htotal
    exact lt_of_le_of_lt (Nat.le_add_right _ _) htotal

theorem Handed.last_new (h : Handed wp (txs ++ [tx])) :
    ∀ t ∈ txs, txHash wp.toPlatform t ≠ txHash wp.toPlatform tx := by
  intro t ht heq
  have hdistinct := h.distinct
  rw [List.map_append, List.nodup_append] at hdistinct
  exact hdistinct.2.2 _ (List.mem_map_of_mem ht) _ (List.mem_singleton_self _) heq

theorem Handed.last_unspent (h : Handed wp (txs ++ [tx])) :
    ∀ t ∈ txs, ∀ o ∈ (w.ledger wp).spends t, o.1 ≠ txHash wp.toPlatform tx := by
  intro t ht o ho
  obtain ⟨txIn, htxIn, rfl⟩ := List.mem_map.mp ho
  exact (List.pairwise_append.mp h.ordered).2.2 t ht tx (List.mem_singleton_self tx) txIn htxIn

/-- **Run rule.** What one transaction keeps, all of them keep. -/
theorem checkTransactions_induction {Q : List Tx → Prop} {P : List Tx → Loaded → Prop}
    (hshort : ∀ txs txs', Q (txs ++ txs') → Q txs)
    (hstep : ∀ (txs : List Tx) (s : Loaded) (item : BlockTx), P txs s → Q (txs ++ [item.tx]) →
      ∃ s', checkTransaction wp s item.tx item.blockhash item.height = some s' ∧
      P (txs ++ [item.tx]) s')
    {items : List BlockTx} {txs : List Tx} {s : Loaded} (hs : P txs s)
    (h : Q (txs ++ items.map (·.tx))) :
    ∃ s', checkTransactions wp s items = some s' ∧ P (txs ++ items.map (·.tx)) s' := by
  induction items generalizing txs s with
  | nil =>
    rw [List.map_nil, List.append_nil]
    exact ⟨s, rfl, hs⟩
  | cons item items ih =>
    rw [List.map_cons, List.append_cons] at h
    obtain ⟨s₁, hfirst, hs₁⟩ := hstep txs s item hs (hshort _ _ h)
    obtain ⟨s₂, hrest, hs₂⟩ := ih hs₁ h
    refine ⟨s₂, ?_, ?_⟩
    · unfold checkTransactions
      rw [List.foldlM_cons, hfirst]
      exact hrest
    · rw [List.map_cons, List.append_cons]
      exact hs₂

/-- **One transaction.** -/
theorem follows_checkTransaction (hfresh : Fresh w) (hs : Follows wp w txs s)
    (h : Handed wp (txs ++ [tx])) :
    ∃ s', checkTransaction wp s tx blockhash height = some s' ∧ Follows wp w (txs ++ [tx]) s' := by
  rcases @checkTransaction_cases wp w txs s tx blockhash height hs h.last_new with
    ⟨hstep, hcoins, hspends⟩ | hstep
  · exact ⟨_, hstep, hs.skip hcoins hspends⟩
  · have hscripts := h.p2pkh tx (List.mem_append_right _ (List.mem_singleton_self tx))
    obtain ⟨utxos, hscrape, hview, hnum⟩ := @scrapeUtxos_of_scrapable wp s.wallet
      ⟨Uint256.zero, blockhash, height, tx⟩ s.utxos hs.numbered fun out hout =>
        scrapable_p2pkh (hscripts out hout)
    rw [hscrape] at hstep
    refine ⟨_, hstep, hs.enter hfresh h.last_new h.last_unspent hscripts h.size ?_ hnum⟩
    rw [hview, hs.tableCoins]

/-! ## What is not spent -/

/-- The available outputs of a transaction, as coins. -/
theorem available_coins (hs : Follows wp w txs s) (hwtx : wtx ∈ s.wallet.vecWtxes) :
    (s.wallet.available wtx).map (fun out => ((wtx.txHashCache, out.2), out.1.value)) =
      ((w.ledger wp).coins wtx.tx).filter fun coin => !s.wallet.isSpent coin.1.1 coin.1.2 := by
  unfold available Ledger.coins ledger
  dsimp only
  rw [(hs.listed wtx hwtx).2, List.map_map, List.filter_map, List.filter_filter]
  simp only [hs.txoutIsMine]
  rfl

/-- The coins of the wallet are those that the transactions leave unspent. -/
theorem flatMap_available (hs : Follows wp w txs s) :
    (s.wallet.vecWtxes.flatMap fun wtx => (s.wallet.available wtx).map fun out =>
      ((wtx.txHashCache, out.2), out.1.value)) = (w.ledger wp).unspent txs := by
  have hflat : ∀ wtxes : List Wtx, (∀ wtx ∈ wtxes, wtx ∈ s.wallet.vecWtxes) →
      (wtxes.flatMap fun wtx => (s.wallet.available wtx).map fun out =>
        ((wtx.txHashCache, out.2), out.1.value)) =
      (wtxes.flatMap fun wtx => (w.ledger wp).coins wtx.tx).filter fun coin =>
        !s.wallet.isSpent coin.1.1 coin.1.2 := by
    intro wtxes
    induction wtxes with
    | nil => exact fun _ => rfl
    | cons wtx wtxes ih =>
      intro hsub
      rw [List.flatMap_cons, List.flatMap_cons, List.filter_append,
        available_coins hs (hsub wtx List.mem_cons_self),
        ih fun v hv => hsub v (List.mem_cons_of_mem _ hv)]
  rw [hflat _ fun wtx hwtx => hwtx, hs.coins]
  unfold Ledger.unspent
  apply List.filter_congr
  intro coin hcoin
  rw [Bool.eq_iff_iff, Bool.not_eq_true', Bool.eq_false_iff, decide_eq_true_eq, not_iff_not]
  constructor
  · exact hs.sound coin.1.1 coin.1.2
  · exact hs.complete coin hcoin

theorem getUnspents_eq (hs : Follows wp w txs s) :
    s.wallet.getUnspents = ((w.ledger wp).unspent txs).map Prod.fst := by
  rw [← flatMap_available hs, List.map_flatMap]
  unfold getUnspents
  simp only [List.map_map]
  rfl

theorem sumValues_cons (x : UInt64) (values : List UInt64) :
    sumValues (x :: values) = x + sumValues values := by
  have hfold : ∀ (values : List UInt64) (acc : UInt64), values.foldl (· + ·) acc =
    acc + sumValues values := by
    intro values
    induction values with
    | nil =>
      intro acc
      exact (UInt64.add_zero acc).symm
    | cons y values ih =>
      intro acc
      unfold sumValues
      rw [List.foldl_cons, List.foldl_cons, ih, ih (0 + y), UInt64.zero_add, UInt64.add_assoc]
  unfold sumValues
  rw [List.foldl_cons, hfold, UInt64.zero_add]
  rfl

theorem sumValues_append (values values' : List UInt64) :
    sumValues (values ++ values') = sumValues values + sumValues values' := by
  induction values with
  | nil => exact (UInt64.zero_add _).symm
  | cons x values ih => rw [List.cons_append, sumValues_cons, sumValues_cons, ih, UInt64.add_assoc]

/-- The sum does not wrap where the numbers add up to less than `2 ^ 64`. -/
theorem toNat_sumValues {values : List UInt64} (h : (values.map UInt64.toNat).sum < 2 ^ 64) :
    (sumValues values).toNat = (values.map UInt64.toNat).sum := by
  induction values with
  | nil => rfl
  | cons x values ih =>
    rw [List.map_cons, List.sum_cons] at h
    rw [sumValues_cons, UInt64.toNat_add, ih (by omega), List.map_cons, List.sum_cons]
    exact Nat.mod_eq_of_lt h

/-- The balance is the sum over the unspent coins. -/
theorem getBalance_eq (hs : Follows wp w txs s) (hcoinbase : ∀ tx ∈ txs, txIsCoinbase tx = false) :
    s.wallet.getBalance = sumValues (((w.ledger wp).unspent txs).map Prod.snd) := by
  have hsum : ∀ wtxes : List Wtx, (∀ wtx ∈ wtxes, txIsCoinbase wtx.tx = false) →
      sumValues (wtxes.map s.wallet.wtxGetAvailableCredit) =
        sumValues ((wtxes.flatMap fun wtx => (s.wallet.available wtx).map fun out =>
          ((wtx.txHashCache, out.2), out.1.value)).map Prod.snd) := by
    intro wtxes
    induction wtxes with
    | nil => exact fun _ => rfl
    | cons wtx wtxes ih =>
      intro hnone
      have hcredit : s.wallet.wtxGetAvailableCredit wtx =
          sumValues ((s.wallet.available wtx).map fun out => out.1.value) := by
        unfold wtxGetAvailableCredit immature
        rw [hnone wtx List.mem_cons_self, Bool.false_and, if_neg Bool.false_ne_true]
      rw [List.map_cons, sumValues_cons, hcredit, ih fun v hv =>
        hnone v (List.mem_cons_of_mem _ hv),
        List.flatMap_cons, List.map_append, sumValues_append, List.map_map]
      rfl
  rw [← flatMap_available hs]
  exact hsum _ fun wtx hwtx => hcoinbase wtx.tx (hs.listed wtx hwtx).1

/-- The unspent coins are worth no more than all outputs. -/
theorem sum_unspent_le (txs : List Tx) :
    (((w.ledger wp).unspent txs).map fun coin => coin.2.toNat).sum ≤
      ((txs.flatMap (·.vout)).map fun out => out.value.toNat).sum := by
  have hcoins : ∀ tx : Tx, (((w.ledger wp).coins tx).map fun coin => coin.2.toNat).Sublist
      (tx.vout.map fun out => out.value.toNat) := by
    intro tx
    have hall : tx.vout.map (fun out => out.value.toNat) = tx.vout.zipIdx.map fun out =>
      out.1.value.toNat := by
      conv_lhs => rw [← List.zipIdx_map_fst 0 tx.vout]
      exact List.map_map
    rw [hall]
    unfold Ledger.coins ledger
    rw [List.map_map, List.map_map]
    exact List.filter_sublist.map _
  have hflat : ((txs.flatMap (w.ledger wp).coins).map fun coin => coin.2.toNat).Sublist
      ((txs.flatMap (·.vout)).map fun out => out.value.toNat) := by
    induction txs with
    | nil => exact List.Sublist.refl _
    | cons tx txs ih =>
      rw [List.flatMap_cons, List.flatMap_cons, List.map_append, List.map_append]
      exact (hcoins tx).append ih
  exact ((List.filter_sublist.map _).trans hflat).sum_le_sum fun _ _ => Nat.zero_le _

theorem nodup_outputs (tx : Tx) : (((w.ledger wp).outputs tx).map Prod.fst).Nodup := by
  unfold ledger
  rw [List.map_map]
  have hnumbers : (tx.vout.zipIdx.map Prod.snd).Nodup := by
    rw [List.zipIdx_map_snd]
    exact List.nodup_range'
  exact hnumbers.sublist (List.filter_sublist.map _)

/-- **The balance of a wallet.** It is the sum of the values of those outputs that belong to the
wallet and are no input of a transaction, and these are listed once each. -/
theorem getBalance_checkTransactions (hfresh : Fresh w) {utxos : Utxos} (hnum : utxos.Numbered)
    {items : List BlockTx} (h : Handed wp (items.map (·.tx))) :
    ∃ s, checkTransactions wp { wallet := w, utxos := utxos } items = some s ∧
      s.wallet.getBalance.toNat =
        (((w.ledger wp).unspent (items.map (·.tx))).map fun coin => coin.2.toNat).sum ∧
      s.wallet.getUnspents = ((w.ledger wp).unspent (items.map (·.tx))).map Prod.fst ∧
      s.wallet.getUnspents.Nodup := by
  obtain ⟨s, hrun, hs⟩ := @checkTransactions_induction wp (Handed wp) (Follows wp w)
    (fun _ _ h => h.of_append) (fun txs s item hs hlast => follows_checkTransaction hfresh hs hlast)
    items [] { wallet := w, utxos := utxos } (follows_fresh hfresh hnum) h
  rw [List.nil_append] at hs
  have hlt : (((w.ledger wp).unspent (items.map (·.tx))).map fun coin => coin.2.toNat).sum <
    2 ^ 64 :=
    lt_of_le_of_lt (sum_unspent_le _) (h.total.trans (by decide))
  have hunspents := getUnspents_eq hs
  refine ⟨s, hrun, ?_, hunspents, ?_⟩
  · rw [getBalance_eq hs h.noCoinbase, toNat_sumValues]
    · rw [List.map_map]
      rfl
    · rw [List.map_map]
      exact hlt
  · rw [hunspents]
    exact Ledger.nodup_unspent h.distinct fun tx _ => nodup_outputs tx

/-! ## The table of unspent outputs -/

/-- The table lists only addresses of the wallet's own outputs. -/
theorem paysAddress_eq (hbase58 : wp.Base58Laws w.chain) (hfresh : Fresh w)
    (hscript : ∃ hash, txOut.scriptPubkey = p2pkhScript hash) :
    w.paysAddress wp txOut = w.txoutIsMine txOut := by
  rw [Bool.eq_iff_iff]
  refine ⟨fun hpays => ?_, paysAddress_of_txoutIsMine hfresh hscript⟩
  obtain ⟨hash, hscript⟩ := hscript
  rw [paysAddress_p2pkh hscript] at hpays
  rw [txoutIsMine_p2pkh hscript, hfresh.waddrs]
  obtain ⟨addr, haddr, heq⟩ := List.any_eq_true.mp hpays
  obtain ⟨waddr, hwaddr, rfl⟩ := List.mem_map.mp haddr
  refine ⟨waddr, (List.mem_filter.mp hwaddr).1, ?_⟩
  -- the whole addresses are compared, and an address is read back as one hash
  have hlen := hbase58.length_address
  have hsame : wp.base58EncodeCheck (w.chain.b58prefixPubkeyAddress :: hash.1) =
      wp.base58EncodeCheck (w.chain.b58prefixPubkeyAddress :: waddr.pubkeyhash.1) := by
    have htake := of_decide_eq_true heq
    unfold KeyPlatform.p2pkhAddrFromHash160 at htake
    rwa [List.take_of_length_le (hlen hash),
      List.take_of_length_le (hlen waddr.pubkeyhash)] at htake
  have hdecode := hbase58.decode_address (w.chain.b58prefixPubkeyAddress :: hash.1)
    (congrArg (· + 1) hash.2) (hlen hash)
  have hdecode' := hbase58.decode_address (w.chain.b58prefixPubkeyAddress :: waddr.pubkeyhash.1)
    (congrArg (· + 1) waddr.pubkeyhash.2) (hlen waddr.pubkeyhash)
  rw [hsame, hdecode'] at hdecode
  have hpayload := Option.some.inj hdecode
  have hlength : (w.chain.b58prefixPubkeyAddress :: waddr.pubkeyhash.1).length =
      (w.chain.b58prefixPubkeyAddress :: hash.1).length := by
    rw [List.length_cons, List.length_cons, waddr.pubkeyhash.2, hash.2]
  exact Subtype.ext (List.cons.inj (List.append_inj_left hpayload hlength)).2

/-- A coin of the wallet as the table writes it. -/
def tableEntry (coin : (Uint256 × ℕ) × UInt64) : (Uint256 × ℕ) × List Char :=
  ((swapBytes coin.1.1, coin.1.2), (Koinu.koinuToCoinsStr coin.2 22).getD [])

variable (wp w) in
/-- The table lists all outputs that belong to the wallet, and those that are unspent as
spendable. -/
structure Lists (txs : List Tx) (utxos : Utxos) : Prop where
  outpoints : utxos.view.outpoints = (txs.flatMap (w.ledger wp).coins).map fun coin =>
    (tableEntry coin).1
  coins : utxos.view.coins = ((w.ledger wp).unspent txs).map tableEntry

theorem tableEntry_injective {coin' : (Uint256 × ℕ) × UInt64}
    (h : (tableEntry coin).1 = (tableEntry coin').1) :
    coin.1 = coin'.1 := by
  obtain ⟨hhash, hn⟩ := Prod.mk.inj h
  exact Prod.ext (swapBytes_inj.mp hhash) hn

theorem nodup_tableEntry (h : (coins.map Prod.fst).Nodup) :
    (coins.map fun coin => (tableEntry coin).1).Nodup := by
  have hsplit : coins.map (fun coin => (tableEntry coin).1) =
      (coins.map Prod.fst).map fun o => (swapBytes o.1, o.2) := by
    rw [List.map_map]
    rfl
  rw [hsplit]
  apply h.map
  intro o o' heq
  obtain ⟨hhash, hn⟩ := Prod.mk.inj heq
  exact Prod.ext (swapBytes_inj.mp hhash) hn

/-- An input names the outpoint of a coin, in the one byte order or in the other. -/
theorem mem_tableOutpoint :
    (tableEntry coin).1 ∈ tx.vin.map tableOutpoint ↔ coin.1 ∈ (w.ledger wp).spends tx := by
  unfold ledger
  rw [List.mem_map, List.mem_map]
  apply exists_congr
  intro txIn
  apply and_congr_right
  intro _
  unfold tableOutpoint tableEntry
  rw [Prod.mk.injEq, swapBytes_inj, Prod.ext_iff]

/-- The table after one transaction that is entered. -/
theorem Lists.enter {utxos' : Utxos} (hl : Lists wp w txs utxos) (hbase58 : wp.Base58Laws w.chain)
    (hfresh : Fresh w) (h : Handed wp (txs ++ [tx]))
    (hself : ∀ o ∈ (w.ledger wp).spends tx, o.1 ≠ txHash wp.toPlatform tx)
    (hview : utxos'.view = (w.tableCoins wp tx).foldl TableView.enter
      (scrapeInputs tx utxos).view) :
    Lists wp w (txs ++ [tx]) utxos' := by
  have hids : ((txs ++ [tx]).map (w.ledger wp).id).Nodup := h.distinct
  have hall := Ledger.nodup_flatMap_coins hids fun t _ => nodup_outputs t
  rw [List.flatMap_append, List.flatMap_singleton, List.map_append, List.nodup_append] at hall
  obtain ⟨hold, hnew, hdisjoint⟩ := hall
  have hnodup : utxos.view.outpoints.Nodup := by
    rw [hl.outpoints]
    exact nodup_tableEntry hold
  have hcoins : w.tableCoins wp tx = ((w.ledger wp).coins tx).map tableEntry := by
    have hscripts := h.p2pkh tx (List.mem_append_right _ (List.mem_singleton_self tx))
    have hfilter : tx.vout.zipIdx.filter (fun out => w.paysAddress wp out.1) =
        tx.vout.zipIdx.filter fun out => w.txoutIsMine out.1 :=
      List.filter_congr fun out hout =>
        paysAddress_eq hbase58 hfresh (hscripts out.1 (List.fst_mem_of_mem_zipIdx hout))
    rw [tableCoins, hfilter]
    unfold Ledger.coins ledger
    rw [List.map_map, List.map_map]
    rfl
  rw [view_scrapeInputs tx hnodup, hcoins, TableView.foldl_enter_of_new] at hview
  · constructor
    · rw [hview, List.flatMap_append, List.flatMap_singleton, List.map_append,
        ← hl.outpoints, List.map_map]
      rfl
    · rw [hview, Ledger.unspent_concat h.last_unspent hself, List.map_append]
      show List.filter _ utxos.view.coins ++ _ = _
      rw [hl.coins, List.filter_map]
      congr 2
      apply List.filter_congr
      intro coin _
      exact decide_eq_decide.mpr (not_congr mem_tableOutpoint)
  · rw [List.map_map]
    exact nodup_tableEntry hnew
  · intro entry hentry hmem
    obtain ⟨coin, hcoin, rfl⟩ := List.mem_map.mp hentry
    change (tableEntry coin).1 ∈ utxos.view.outpoints at hmem
    rw [hl.outpoints] at hmem
    obtain ⟨old, hold, heq⟩ := List.mem_map.mp hmem
    exact hdisjoint _ (List.mem_map_of_mem hold) _ (List.mem_map_of_mem hcoin)
      (tableEntry_injective heq)

variable (wp) in
/-- Every transaction comes behind those that it spends from, and so does not spend from itself. -/
structure InOrder (txs : List Tx) : Prop extends Handed wp txs where
  noSelf : ∀ tx ∈ txs, ∀ txIn ∈ tx.vin, txIn.prevout.hash ≠ txHash wp.toPlatform tx

/-- **One transaction.** The table keeps step with the wallet. -/
theorem lists_checkTransaction (hbase58 : wp.Base58Laws w.chain) (hfresh : Fresh w)
    (hs : Follows wp w txs s ∧ Lists wp w txs s.utxos) (h : InOrder wp (txs ++ [tx])) :
    ∃ s', checkTransaction wp s tx blockhash height = some s' ∧ Follows wp w (txs ++ [tx]) s' ∧
      Lists wp w (txs ++ [tx]) s'.utxos := by
  obtain ⟨hs, houtpoints, hunspent⟩ := hs
  have hmem : tx ∈ txs ++ [tx] := List.mem_append_right _ (List.mem_singleton_self tx)
  rcases @checkTransaction_cases wp w txs s tx blockhash height hs h.last_new with
    ⟨hstep, hcoins, hspends⟩ | hstep
  · refine ⟨_, hstep, hs.skip hcoins hspends, ?_, ?_⟩
    · rw [(view_updateConfirmations height s.utxos).1, houtpoints, List.flatMap_append,
        List.flatMap_singleton, hcoins, List.append_nil]
    · rw [(view_updateConfirmations height s.utxos).1, hunspent,
        Ledger.unspent_concat_of_unrelated hcoins hspends]
  · have hscripts := h.p2pkh tx hmem
    obtain ⟨utxos, hscrape, hview, hnum⟩ := @scrapeUtxos_of_scrapable wp s.wallet
      ⟨Uint256.zero, blockhash, height, tx⟩ s.utxos hs.numbered fun out hout =>
        scrapable_p2pkh (hscripts out hout)
    rw [hs.tableCoins] at hview
    rw [hscrape] at hstep
    refine ⟨_, hstep, hs.enter hfresh h.last_new h.last_unspent hscripts h.size hview hnum, ?_⟩
    have hself : ∀ o ∈ (w.ledger wp).spends tx, o.1 ≠ txHash wp.toPlatform tx := by
      intro o ho
      obtain ⟨txIn, htxIn, rfl⟩ := List.mem_map.mp ho
      exact h.noSelf tx hmem txIn htxIn
    have hlists : Lists wp w (txs ++ [tx]) utxos :=
      Lists.enter ⟨houtpoints, hunspent⟩ hbase58 hfresh h.toHanded hself hview
    obtain ⟨houtpoints', hunspent'⟩ := hlists
    constructor
    · rw [(view_updateConfirmations height utxos).1, houtpoints']
    · rw [(view_updateConfirmations height utxos).1, hunspent']

/-- The amounts of the table are read back as the values of the coins. -/
theorem mapM_amounts (h : (coins.map fun coin => coin.2.toNat).sum < 2 ^ 63) :
    (coins.map tableEntry).mapM (fun entry => Koinu.coinsToKoinuStr entry.2) =
    some (coins.map Prod.snd) := by
  induction coins with
  | nil => rfl
  | cons coin coins ih =>
    rw [List.map_cons, List.sum_cons] at h
    obtain ⟨amount, hamount⟩ := @Koinu.exists_koinuToCoinsStr coin.2 (by omega)
    have hread : Koinu.coinsToKoinuStr (tableEntry coin).2 = some coin.2 := by
      unfold tableEntry
      rw [hamount]
      exact Koinu.coinsToKoinuStr_koinuToCoinsStr hamount
    rw [List.map_cons, List.mapM_cons, hread, ih (by omega)]
    rfl

/-- **The table and the wallet agree.** From an empty table on, its spendable entries are the
unspent outpoints, with the bytes of their hashes reversed, and their amounts add up to the
balance. -/
theorem utxos_checkTransactions (hbase58 : wp.Base58Laws w.chain) (hfresh : Fresh w) (nextIdx : ℕ)
    {items : List BlockTx} (h : InOrder wp (items.map (·.tx))) :
    ∃ s, checkTransactions wp { wallet := w, utxos := { table := [], nextIdx := nextIdx } } items =
      some s ∧
      ((s.utxos.table.filter (·.spendable)).map fun utxo => (swapBytes utxo.txid, utxo.vout)) =
        s.wallet.getUnspents ∧
      ((s.utxos.table.filter (·.spendable)).mapM fun utxo =>
        Koinu.coinsToKoinuStr utxo.amount).map sumValues =
        some s.wallet.getBalance := by
  have hnum : Utxos.Numbered { table := [], nextIdx := nextIdx } := fun utxo hmem =>
    absurd hmem List.not_mem_nil
  obtain ⟨s, hrun, hs, -, hcoins⟩ := @checkTransactions_induction wp (InOrder wp)
    (fun txs s => Follows wp w txs s ∧ Lists wp w txs s.utxos)
    (fun _ _ h => ⟨h.of_append, fun tx ht => h.noSelf tx (List.mem_append_left _ ht)⟩)
    (fun txs s item hs hlast => lists_checkTransaction hbase58 hfresh hs hlast)
    items [] { wallet := w, utxos := { table := [], nextIdx := nextIdx } }
    ⟨follows_fresh hfresh hnum, rfl, rfl⟩ h
  rw [List.nil_append] at hs hcoins
  have hlt : (((w.ledger wp).unspent (items.map (·.tx))).map fun coin => coin.2.toNat).sum <
    2 ^ 63 :=
    lt_of_le_of_lt (sum_unspent_le _) h.total
  refine ⟨s, hrun, ?_, ?_⟩
  · rw [getUnspents_eq hs]
    have hpoints := congrArg (List.map fun entry => (swapBytes entry.1.1, entry.1.2)) hcoins
    unfold Utxos.view spendables at hpoints
    rw [List.map_map, List.map_map] at hpoints
    refine hpoints.trans (List.map_congr_left fun coin _ => ?_)
    exact Prod.ext (swapBytes_swapBytes coin.1.1) rfl
  · have hamounts : ((s.utxos.table.filter (·.spendable)).mapM fun utxo =>
        Koinu.coinsToKoinuStr utxo.amount) =
          some (((w.ledger wp).unspent (items.map (·.tx))).map Prod.snd) := by
      rw [← mapM_amounts hlt, ← hcoins]
      unfold Utxos.view spendables
      rw [List.mapM_map]
      rfl
    rw [hamounts, getBalance_eq hs h.noCoinbase]
    rfl

/-! ## A payment to a wallet, and one from it -/

/-- A hash of one repeated byte. -/
def sampleHash160 (b : UInt8) : Uint160 := ⟨List.replicate 20 b, List.length_replicate⟩

/-- A wallet with one address. -/
def sampleOwner : Wallet :=
  (create sampleWalletParams).addWaddr ⟨sampleHash160 1, 0, 0, 0⟩

/-- A transaction with one input. -/
def sampleTx (version : UInt32) (prevout : TxOutpoint) (vout : List TxOut) : Tx where
  version := version
  vin := [⟨prevout, [], 0⟩]
  vout := vout
  locktime := 0

/-- A payment of 5 and 7 koinu to the wallet. -/
def samplePayment : Tx :=
  sampleTx 0x10000 ⟨Uint256.zero, 3⟩ [⟨5, p2pkhScript (sampleHash160 1)⟩,
    ⟨7, p2pkhScript (sampleHash160 1)⟩]

/-- A payment of its first output to somebody else. -/
def sampleSpend : Tx :=
  sampleTx 0x20000 ⟨txHash sampleWallet.toPlatform samplePayment,
    0⟩ [⟨4, p2pkhScript (sampleHash160 2)⟩]

/-- Both payments, in one block. -/
def sampleItems : List BlockTx := [⟨samplePayment, Uint256.zero, 1⟩, ⟨sampleSpend, Uint256.zero, 1⟩]

theorem sampleOwner_fresh : Fresh sampleOwner := (fresh_create sampleWalletParams).addWaddr rfl

theorem sampleItems_inOrder : InOrder sampleWallet (sampleItems.map (·.tx)) where
  distinct := by decide +kernel
  ordered := by decide +kernel
  noCoinbase := by decide +kernel
  p2pkh := by
    have hpays : ∀ (value : UInt64) (b : UInt8), ∃ hash,
        TxOut.scriptPubkey ⟨value, p2pkhScript (sampleHash160 b)⟩ = p2pkhScript hash := fun _ b =>
      ⟨sampleHash160 b, rfl⟩
    refine List.forall_mem_cons.mpr ⟨List.forall_mem_cons.mpr ⟨hpays 5 1, ?_⟩, ?_⟩
    · exact List.forall_mem_singleton.mpr (hpays 7 1)
    · exact List.forall_mem_singleton.mpr (List.forall_mem_singleton.mpr (hpays 4 2))
  size := by decide +kernel
  total := by decide +kernel
  noSelf := by decide +kernel

/-- The balance after both payments. -/
theorem getBalance_checkTransactions_sample :
    ∃ s, checkTransactions sampleWallet
      { wallet := sampleOwner, utxos := { table := [], nextIdx := 0 } }
        sampleItems = some s ∧ s.wallet.getBalance.toNat = 7 ∧
      s.wallet.getUnspents = [(txHash sampleWallet.toPlatform samplePayment, 1)] ∧
      s.wallet.getUnspents.Nodup := by
  have hnum : Utxos.Numbered { table := [], nextIdx := 0 } := fun utxo hmem =>
    absurd hmem List.not_mem_nil
  obtain ⟨s, hrun, hbalance, hunspents, hnodup⟩ :=
    getBalance_checkTransactions sampleOwner_fresh hnum sampleItems_inOrder.toHanded
  refine ⟨s, hrun, hbalance.trans ?_, hunspents.trans ?_, hnodup⟩
  · decide +kernel
  · decide +kernel

/-- The table after both payments. -/
theorem utxos_checkTransactions_sample :
    ∃ s, checkTransactions sampleWallet
      { wallet := sampleOwner, utxos := { table := [], nextIdx := 0 } } sampleItems = some s ∧
      ((s.utxos.table.filter (·.spendable)).map fun utxo => (swapBytes utxo.txid, utxo.vout)) =
        s.wallet.getUnspents ∧
      ((s.utxos.table.filter (·.spendable)).mapM fun utxo =>
        Koinu.coinsToKoinuStr utxo.amount).map sumValues =
        some s.wallet.getBalance :=
  utxos_checkTransactions (sampleWallet_base58Laws sampleWalletParams) sampleOwner_fresh 0
    sampleItems_inOrder

end Wallet

end Libdogecoin
