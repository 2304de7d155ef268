/-
# A wallet after a restart

`dogecoin_wallet_load` of the file of a wallet in which addresses and transactions were entered. The
load replays the records through other code than the wallet went through; `Mirrors` says what the
two have in common after every record.

* `Mirrors.addWaddr`, `Mirrors.enter` : one record;
* `restores_of_reach` : what is loaded behind every run that meets the condition.
-/
import Libdogecoin.WalletBalance
import Libdogecoin.WalletKeys

namespace Libdogecoin

namespace Wallet

variable (wp : WalletPlatform) (chain : WalletParams) {tx : Tx}

/-! ## Runs -/

/-- A wallet, and the hashes of the recorded transactions that paid to one of its addresses when
they were recorded. -/
structure FileRun where
  loaded : Loaded
  paying : List Uint256

/-- An operation that may append to the file. -/
inductive FileOp where
  | nextAddr
  | nextBip44Addr
  | addHdAccount (account : UInt32)
  | importAddress (addressIn : Bytes)
  | checkTransaction (item : BlockTx)
  | addWtxMove (wtx : Wtx)

namespace FileRun

/-- The transaction that an operation records, with its hash. -/
def recorded (s : FileRun) : FileOp → Option Wtx
  | .checkTransaction item =>
    if (s.loaded.wallet.isMine item.tx || s.loaded.wallet.isFromMe s.loaded.utxos item.tx) &&
        !s.loaded.wallet.vecWtxes.any (·.txHashCache = txHash wp.toPlatform item.tx) then
      some (wtxCachehash wp ⟨Uint256.zero, item.blockhash, item.height, item.tx⟩)
    else none
  | .addWtxMove wtx => some (wtxCachehash wp wtx)
  | _ => none

/-- The table in which its inputs are looked up. -/
def table (s : FileRun) : FileOp → Option Utxos
  | .checkTransaction item =>
    s.loaded.wallet.scrapeUtxos wp ⟨Uint256.zero, item.blockhash, item.height,
      item.tx⟩ s.loaded.utxos
  | _ => some s.loaded.utxos

/-- The hashes with that of a transaction which is recorded. -/
def payingWith (s : FileRun) (wtx : Wtx) : List Uint256 :=
  if wtx.tx.vout.any (s.loaded.wallet.paysAddress wp) then s.paying ++ [wtx.txHashCache]
  else s.paying

/-- A new address changes the wallet alone. -/
def withWallet (s : FileRun) (wallet : Wallet) : FileRun :=
  { s with loaded := { s.loaded with wallet := wallet } }

/-- One operation. -/
def step (s : FileRun) (op : FileOp) : Option FileRun :=
  let paying := (s.recorded wp op).elim s.paying (s.payingWith wp)
  match op with
  | .nextAddr => some (s.withWallet (s.loaded.wallet.nextAddr wp).1)
  | .nextBip44Addr => some (s.withWallet (s.loaded.wallet.nextBip44Addr wp).1)
  | .addHdAccount account => some (s.withWallet (s.loaded.wallet.addHdAccountTs wp account).1)
  | .importAddress addressIn => some (s.withWallet
      (s.loaded.wallet.p2pkhAddressToWallet wp addressIn).1)
  | .checkTransaction item =>
    (Wallet.checkTransaction wp s.loaded item.tx item.blockhash item.height).map fun loaded =>
      { loaded := loaded, paying := paying }
  | .addWtxMove wtx =>
    some { loaded := { s.loaded with wallet := s.loaded.wallet.addWtxMove wp s.loaded.utxos wtx }
           paying := paying }

end FileRun

/-- A new wallet file, with a master key or without, and an empty table of unspent outputs. -/
def fileSystem : TransitionSystem FileRun FileOp where
  init := fun s => s.paying = [] ∧ s.loaded.utxos.table = [] ∧
    (s.loaded.wallet = create chain ∨
      ∃ master : HdNode, master.Sized ∧ s.loaded.wallet = (create chain).setMasterKeyCopy wp master)
  step := FileRun.step wp

/-- What has to come back. -/
structure Restored (w w' : Wallet) : Prop where
  waddrVector : w'.waddrVector = w.waddrVector
  nextChildindex : w'.nextChildindex = w.nextChildindex
  vecWtxes : (w'.vecWtxes.map fun wtx => (wtx.tx, wtx.height, wtx.txHashCache)) =
    w.vecWtxes.map fun wtx => (wtx.tx, wtx.height, wtx.txHashCache)
  isSpent : w'.isSpent = w.isSpent
  balance : w'.getBalance = w.getBalance

/-- The file is loaded into a new wallet, with a table of unspent outputs, and the wallet comes
back. The table belongs to the thread: a load goes on with what other wallets left in it. -/
def Restores (w : Wallet) (utxos : Utxos) : Prop :=
  ∃ ld, load wp w.dbfile chain utxos = some (.loaded ld) ∧ Restored w ld.wallet

/-- A transaction names a hash in one of its inputs, in one of the two byte orders. -/
def SpendsFrom (P : Uint256 → Prop) (tx : Tx) : Prop :=
  ∃ txIn ∈ tx.vin, P txIn.prevout.hash ∨ P (swapBytes txIn.prevout.hash)

/-- What is recorded can be read back, and if it spends from a recorded transaction that paid to the
wallet, the wallet takes it for its own. -/
structure Replayable (s : FileRun) (op : FileOp) : Prop where
  sized : ∀ wtx ∈ s.recorded wp op,
    wtx.tx.vin ≠ [] ∧ wtx.tx.Sized ∧ (walletWtxSerialize wtx).length ≤ 4000000
  scrapable : ∀ wtx ∈ s.recorded wp op, ∀ out ∈ wtx.tx.vout, s.loaded.wallet.Scrapable wp out
  own : ∀ wtx ∈ s.recorded wp op, SpendsFrom (· ∈ s.payingWith wp wtx) wtx.tx →
    ∀ utxos ∈ s.table wp op, (s.loaded.wallet.enterWtx wtx).isFromMe utxos wtx.tx = true

variable {wp chain}

/-! ## Transactions by their hashes -/

/-- The tree of transactions finds what the vector holds, in which every hash occurs once. -/
structure Indexed (w : Wallet) : Prop where
  find : ∀ hash wtx, w.wtxesTree.find hash = some wtx ↔ wtx ∈ w.vecWtxes ∧ wtx.txHashCache = hash
  nodup : (w.vecWtxes.map (·.txHashCache)).Nodup

theorem indexed_create : Indexed (create chain) := by
  constructor
  · intro hash wtx
    show (none : Option Wtx) = some wtx ↔ wtx ∈ [] ∧ _
    simp
  · exact List.nodup_nil

variable {w w' : Wallet} {utxos : Utxos} {wtx : Wtx} {s' : FileRun} {op : FileOp}

/-- **A transaction is entered** behind the others, in the place of one with the same hash. -/
theorem Indexed.enterWtx (h : Indexed w) (wtx : Wtx) :
    (w.enterWtx wtx).vecWtxes = w.vecWtxes.filter (·.txHashCache ≠ wtx.txHashCache) ++ [wtx] ∧
      ∀ hash, (w.enterWtx wtx).wtxesTree.find hash =
        if hash = wtx.txHashCache then some wtx else w.wtxesTree.find hash := by
  unfold Wallet.enterWtx
  cases hfind : w.wtxesTree.find wtx.txHashCache with
  | none =>
    dsimp only
    constructor
    · congr 1
      symm
      rw [List.filter_eq_self]
      intro other hother
      apply decide_eq_true
      intro heq
      have hsome := (h.find wtx.txHashCache other).mpr ⟨hother, heq⟩
      rw [hfind] at hsome
      cases hsome
    · intro hash
      rw [SearchTree.find_insert, hfind, Option.getD_none]
  | some checkwtx =>
    dsimp only
    obtain ⟨hmem, hcache⟩ := (h.find _ _).mp hfind
    constructor
    · congr 1
      rw [h.nodup.of_map.erase_eq_filter]
      apply List.filter_congr
      intro other hother
      rw [← hcache]
      apply Bool.eq_iff_iff.mpr
      rw [bne_iff_ne, decide_eq_true_eq]
      constructor
      · intro hne heq
        exact hne (List.inj_on_of_nodup_map h.nodup hother hmem heq)
      · rintro hne rfl
        exact hne rfl
    · intro hash
      rw [SearchTree.find_insert, SearchTree.find_erase, if_pos rfl, Option.getD_none,
        SearchTree.find_erase]
      split_ifs
      · rfl
      · rfl

theorem Indexed.keep (h : Indexed w) (wtx : Wtx) : Indexed (w.enterWtx wtx) := by
  obtain ⟨hvec, hfind⟩ := h.enterWtx wtx
  constructor
  · intro hash other
    rw [hfind, hvec, List.mem_append, List.mem_filter, List.mem_singleton, decide_eq_true_eq]
    split_ifs with heq
    · constructor
      · intro hsome
        obtain rfl := Option.some.inj hsome
        exact ⟨Or.inr rfl, heq.symm⟩
      · rintro ⟨hmem | rfl, hcache⟩
        · exact absurd (hcache.trans heq) hmem.2
        · rfl
    · rw [h.find]
      constructor
      · rintro ⟨hmem, hcache⟩
        exact ⟨Or.inl ⟨hmem, fun hsame => heq (hcache.symm.trans hsame)⟩, hcache⟩
      · rintro ⟨hmem | rfl, hcache⟩
        · exact ⟨hmem.1, hcache⟩
        · exact absurd hcache.symm heq
  · rw [hvec, List.map_append, List.nodup_append]
    refine ⟨h.nodup.sublist (List.filter_sublist.map _), List.nodup_singleton _, ?_⟩
    intro hash hhash hash' hhash'
    obtain ⟨other, hother, rfl⟩ := List.mem_map.mp hhash
    rw [List.map_singleton, List.mem_singleton] at hhash'
    rw [hhash']
    exact of_decide_eq_true (List.mem_filter.mp hother).2

/-! ## Ownership -/

/-- The table has an entry of a transaction. -/
def HasEntry (utxos : Utxos) (hash : Uint256) :
    Prop := ∃ n, (swapBytes hash, n) ∈ utxos.view.outpoints

/-- A transaction spends from the wallet by its debit, or by an entry of the table. -/
theorem isFromMe_iff :
    w.isFromMe utxos tx = true ↔
      (0 < w.getDebitTx tx ∧ w.getDebitTx tx < 0x8000000000000000) ∨ SpendsFrom
      (HasEntry utxos) tx := by
  have hentry : ∀ hash : Uint256, HasEntry utxos (swapBytes hash) ↔ ∃ utxo ∈ utxos.table,
    hash = utxo.txid := by
    intro hash
    unfold HasEntry
    rw [swapBytes_swapBytes]
    constructor
    · rintro ⟨n, hmem⟩
      obtain ⟨utxo, hutxo, hcoin⟩ := List.mem_map.mp hmem
      exact ⟨utxo, hutxo, (Prod.mk.inj hcoin).1.symm⟩
    · rintro ⟨utxo, hutxo, rfl⟩
      exact ⟨utxo.vout, List.mem_map_of_mem hutxo⟩
  unfold isFromMe SpendsFrom
  rw [Bool.or_eq_true, Bool.and_eq_true, decide_eq_true_eq, decide_eq_true_eq, List.any_eq_true]
  apply or_congr_right
  apply exists_congr
  intro txIn
  apply and_congr_right
  intro _
  rw [or_comm, hentry, ← swapBytes_swapBytes txIn.prevout.hash, hentry, swapBytes_swapBytes,
    List.any_eq_true, ← exists_or]
  apply exists_congr
  intro utxo
  rw [Bool.or_eq_true, decide_eq_true_eq, decide_eq_true_eq, and_or_left]

theorem SpendsFrom.mono {P Q : Uint256 → Prop} (hPQ : ∀ hash, P hash → Q hash)
    (h : SpendsFrom P tx) :
    SpendsFrom Q tx := by
  obtain ⟨txIn, hmem, hnames⟩ := h
  exact ⟨txIn, hmem, hnames.imp (hPQ _) (hPQ _)⟩

/-- The transactions in the table after one was scraped. -/
theorem lists_scrapeUtxos {w : Wallet} {wtx : Wtx} {utxos : Utxos} (hnum : utxos.Numbered)
    (hread : ∀ out ∈ wtx.tx.vout, w.Scrapable wp out) :
    ∃ utxos', w.scrapeUtxos wp wtx utxos = some utxos' ∧ utxos'.Numbered ∧
      ∀ hash, HasEntry utxos' hash ↔ HasEntry utxos hash ∨
        (hash = txHash wp.toPlatform wtx.tx ∧ wtx.tx.vout.any (w.paysAddress wp) = true) := by
  obtain ⟨utxos', hscrape, hview, hnum'⟩ := scrapeUtxos_of_scrapable hnum hread
  refine ⟨utxos', hscrape, hnum', fun hash => ?_⟩
  unfold HasEntry
  simp only [hview, TableView.mem_foldl_enter, outpoints_scrapeInputs, exists_or]
  apply or_congr_right
  constructor
  · rintro ⟨n, hmem⟩
    rw [List.map_map] at hmem
    obtain ⟨out, hout, heq⟩ := List.mem_map.mp hmem
    obtain ⟨hzip, hpays⟩ := List.mem_filter.mp hout
    refine ⟨(swapBytes_inj.mp (Prod.mk.inj heq).1).symm, ?_⟩
    exact List.any_eq_true.mpr ⟨out.1, List.fst_mem_of_mem_zipIdx hzip, hpays⟩
  · rintro ⟨rfl, hpays⟩
    obtain ⟨txOut, hmem, hpays⟩ := List.any_eq_true.mp hpays
    obtain ⟨n, hn, rfl⟩ := List.getElem_of_mem hmem
    have hout : (wtx.tx.vout[n], n) ∈ wtx.tx.vout.zipIdx.filter fun out => w.paysAddress wp out.1 :=
      List.mem_filter.mpr ⟨List.mem_zipIdx_iff_getElem?.mpr (List.getElem?_eq_getElem hn), hpays⟩
    exact ⟨n, List.mem_map.mpr ⟨_, List.mem_map_of_mem hout, rfl⟩⟩

/-! ## The wallet and its replay -/

/-- A transaction as it is read back. -/
def replayed (wtx : Wtx) : Wtx := { wtx with blockhash := Uint256.zero }

/-- What a wallet has in common with the replay of its file. -/
structure Mirrors (s : FileRun) (ld : Loaded) : Prop where
  chain : ld.wallet.chain = s.loaded.wallet.chain
  bestblockheight : ld.wallet.bestblockheight = s.loaded.wallet.bestblockheight
  waddrVector : ld.wallet.waddrVector = s.loaded.wallet.waddrVector
  waddrTree : ld.wallet.waddrTree = s.loaded.wallet.waddrTree
  nextChildindex : ld.wallet.nextChildindex = s.loaded.wallet.nextChildindex
  vecWtxes : ld.wallet.vecWtxes = s.loaded.wallet.vecWtxes.map replayed
  indexed : Indexed ld.wallet
  isSpent : ld.wallet.isSpent = s.loaded.wallet.isSpent
  lists : ∀ hash, HasEntry ld.utxos hash ↔ hash ∈ s.paying
  numbered : ld.utxos.Numbered

/-- What the wallet itself keeps. -/
structure Tracks (s : FileRun) : Prop where
  indexed : Indexed s.loaded.wallet
  lists : ∀ hash, HasEntry s.loaded.utxos hash → hash ∈ s.paying
  numbered : s.loaded.utxos.Numbered

variable {s : FileRun} {ld : Loaded}

/-- The replay finds the same transactions. -/
theorem Mirrors.find (h : Mirrors s ld) (ht : Tracks s) (hash : Uint256) :
    ld.wallet.wtxesTree.find hash = (s.loaded.wallet.wtxesTree.find hash).map replayed := by
  apply Option.ext
  intro wtx
  rw [h.indexed.find, h.vecWtxes, List.mem_map, Option.map_eq_some_iff]
  constructor
  · rintro ⟨⟨other, hmem, rfl⟩, hcache⟩
    exact ⟨other, (ht.indexed.find hash other).mpr ⟨hmem, hcache⟩, rfl⟩
  · rintro ⟨other, hfind, rfl⟩
    obtain ⟨hmem, hcache⟩ := (ht.indexed.find hash other).mp hfind
    exact ⟨⟨other, hmem, rfl⟩, hcache⟩

theorem txoutIsMine_congr (htree : w'.waddrTree = w.waddrTree) (txOut : TxOut) :
    w'.txoutIsMine txOut = w.txoutIsMine txOut := by
  unfold txoutIsMine haveKey
  rw [htree]

/-- The debit does not depend on the blocks of the transactions. -/
theorem getDebitTx_congr (htree : w'.waddrTree = w.waddrTree)
    (hfind : ∀ hash, w'.wtxesTree.find hash = (w.wtxesTree.find hash).map replayed) (tx : Tx) :
    w'.getDebitTx tx = w.getDebitTx tx := by
  have hmine : w'.txoutIsMine = w.txoutIsMine := funext (txoutIsMine_congr htree)
  unfold getDebitTx
  congr 1
  apply List.map_congr_left
  intro txIn _
  unfold getDebitTxi
  rw [hfind, hmine]
  cases w.wtxesTree.find txIn.prevout.hash with
  | none => rfl
  | some prevwtx => rfl

/-- **What comes back.** -/
theorem Mirrors.restored (h : Mirrors s ld) : Restored s.loaded.wallet ld.wallet where
  waddrVector := h.waddrVector
  nextChildindex := h.nextChildindex
  vecWtxes := by
    rw [h.vecWtxes, List.map_map]
    rfl
  isSpent := h.isSpent
  balance := by
    unfold getBalance
    rw [h.vecWtxes, List.map_map]
    congr 1
    apply List.map_congr_left
    intro wtx _
    have hmine : ld.wallet.txoutIsMine = s.loaded.wallet.txoutIsMine :=
      funext (txoutIsMine_congr h.waddrTree)
    unfold wtxGetAvailableCredit immature available Function.comp
    rw [h.bestblockheight, h.isSpent, hmine]
    rfl

/-! ## One record -/

/-- **An address.** -/
theorem Mirrors.addWaddr (h : Mirrors s ld) {waddr : WalletAddr} (hignore : waddr.ignore = 0)
    (hindex : waddr.childindex = s.loaded.wallet.nextChildindex) :
    ∃ ld', (FileRecord.addr waddr).replay wp ld = some ld' ∧
      Mirrors (s.withWallet (s.loaded.wallet.addWaddr waddr)) ld' := by
  refine ⟨_, rfl, ?_⟩
  unfold enterWaddr
  rw [if_pos hignore]
  refine ⟨h.chain, h.bestblockheight, ?_, ?_, ?_, h.vecWtxes, ⟨h.indexed.find, h.indexed.nodup⟩,
    h.isSpent, h.lists, h.numbered⟩
  · exact congrArg (· ++ [waddr]) h.waddrVector
  · exact congrArg (fun tree => tree.insert waddr.pubkeyhash waddr) h.waddrTree
  · exact congrArg (· + 1) hindex

theorem addWtxInternMove_writeRecord (w : Wallet) (utxos : Utxos) (wtx : Wtx) (record : Bytes)
    (recordType : UInt8) : (w.writeRecord record recordType).addWtxInternMove utxos wtx =
      { w.addWtxInternMove utxos wtx with
        dbfile := w.dbfile ++ encodeRecord record recordType } := by
  have henter : (w.writeRecord record recordType).enterWtx wtx =
      { w.enterWtx wtx with dbfile := w.dbfile ++ encodeRecord record recordType } := by
    unfold Wallet.enterWtx writeRecord
    dsimp only
    cases w.wtxesTree.find wtx.txHashCache with
    | none => rfl
    | some checkwtx => rfl
  unfold addWtxInternMove
  rw [henter]
  show (if (w.enterWtx wtx).isFromMe utxos wtx.tx = true then _ else _) = _
  dsimp only
  split_ifs
  · rfl
  · rfl

theorem Indexed.addWtxInternMove (h : Indexed w) (utxos : Utxos) (wtx : Wtx) :
    Indexed (w.addWtxInternMove utxos wtx) := by
  have hkeep := h.keep wtx
  constructor
  · intro hash other
    rw [addWtxInternMove_frame Wallet.wtxesTree (fun _ _ => rfl),
      addWtxInternMove_frame Wallet.vecWtxes (fun _ _ => rfl)]
    exact hkeep.find hash other
  · rw [addWtxInternMove_frame Wallet.vecWtxes (fun _ _ => rfl)]
    exact hkeep.nodup

theorem Mirrors.scrapable (h : Mirrors s ld) {out : TxOut}
    (hread : s.loaded.wallet.Scrapable wp out) :
    ld.wallet.Scrapable wp out := by
  unfold Scrapable
  rw [h.waddrVector, h.chain]
  exact hread

theorem Mirrors.paysAddress (h : Mirrors s ld) (out : TxOut) :
    ld.wallet.paysAddress wp out = s.loaded.wallet.paysAddress wp out := by
  unfold Wallet.paysAddress listsAddress getAddresses
  rw [h.waddrVector, h.chain]

theorem mem_payingWith {hash : Uint256} :
    hash ∈ s.payingWith wp wtx ↔ hash ∈ s.paying ∨
      (hash = wtx.txHashCache ∧ wtx.tx.vout.any (s.loaded.wallet.paysAddress wp) = true) := by
  unfold FileRun.payingWith
  split_ifs with hpays
  · rw [List.mem_append, List.mem_singleton]
    exact or_congr_right (and_iff_left hpays).symm
  · constructor
    · exact Or.inl
    · rintro (hmem | ⟨-, hpays'⟩)
      · exact hmem
      · exact absurd hpays' hpays

/-- What two wallets have in common besides the transactions, they have in common with one more
each. -/
theorem addWtxInternMove_agrees {α : Type} (f : Wallet → α)
    (hspends : ∀ (w : Wallet) tree, f { w with spendsTree := tree } = f w)
    (hwtxes : ∀ (w : Wallet) vec tree, f { w with wtxesTree := tree, vecWtxes := vec } = f w)
    (hfile : ∀ (w : Wallet) dbfile, f { w with dbfile := dbfile } = f w) (heq : f w' = f w)
    (utxos utxos' : Utxos) (wtx wtx' : Wtx) (dbfile : Bytes) :
    f (w'.addWtxInternMove utxos' wtx') =
      f { w.addWtxInternMove utxos wtx with dbfile := dbfile } :=
  calc f (w'.addWtxInternMove utxos' wtx')
      = f w' := addWtxInternMove_leaves f hspends hwtxes _ _ _
    _ = f w := heq
    _ = f (w.addWtxInternMove utxos wtx) := (addWtxInternMove_leaves f hspends hwtxes _ _ _).symm
    _ = f { w.addWtxInternMove utxos wtx with dbfile := dbfile } := (hfile _ _).symm

/-- **A transaction.** The replay comes to the same decision if the wallet missed no spend. -/
theorem Mirrors.enter (h : Mirrors s ld) (ht : Tracks s) {utxos' : Utxos} {dbfile : Bytes}
    (hcache : wtx.txHashCache = txHash wp.toPlatform wtx.tx)
    (hread : ∀ out ∈ wtx.tx.vout, s.loaded.wallet.Scrapable wp out)
    (hown : SpendsFrom (· ∈ s.payingWith wp wtx) wtx.tx →
      (s.loaded.wallet.enterWtx wtx).isFromMe utxos wtx.tx = true)
    (hentries : ∀ hash, HasEntry utxos hash → hash ∈ s.payingWith wp wtx) :
    ∃ ld', (FileRecord.tx wtx).replay wp ld = some ld' ∧
      Mirrors { loaded := { wallet := { s.loaded.wallet.addWtxInternMove utxos wtx with
        dbfile := dbfile }
                            utxos := utxos' }
                paying := s.payingWith wp wtx } ld' := by
  obtain ⟨utxosR, hscrape, hnum, hlists⟩ :=
    @lists_scrapeUtxos wp ld.wallet (replayed wtx) ld.utxos h.numbered
    fun out hout => h.scrapable (hread out hout)
  have hlists' : ∀ hash, HasEntry utxosR hash ↔ hash ∈ s.payingWith wp wtx := by
    intro hash
    have hpays : ld.wallet.paysAddress wp = s.loaded.wallet.paysAddress wp := funext h.paysAddress
    rw [hlists, mem_payingWith, h.lists, hcache, hpays]
    rfl
  refine ⟨_, congrArg (fun o => Option.bind o _) hscrape, ?_⟩
  -- the two wallets with the transaction
  obtain ⟨hvec, hfind⟩ := ht.indexed.enterWtx wtx
  obtain ⟨hvecR, hfindR⟩ := h.indexed.enterWtx (replayed wtx)
  have hdebit : (ld.wallet.enterWtx (replayed wtx)).getDebitTx wtx.tx =
      (s.loaded.wallet.enterWtx wtx).getDebitTx wtx.tx := by
    apply getDebitTx_congr
    · rw [enterWtx_frame Wallet.waddrTree (fun _ _ _ => rfl),
        enterWtx_frame Wallet.waddrTree (fun _ _ _ => rfl), h.waddrTree]
    · intro hash
      rw [hfind, hfindR, h.find ht]
      show (if hash = wtx.txHashCache then _ else _) = _
      split_ifs
      · rfl
      · rfl
  have hmine : (ld.wallet.enterWtx (replayed wtx)).isFromMe utxosR wtx.tx = true ↔
      (s.loaded.wallet.enterWtx wtx).isFromMe utxos wtx.tx = true := by
    constructor
    · intro hR
      rcases isFromMe_iff.mp hR with hpositive | hspends
      · rw [hdebit] at hpositive
        exact isFromMe_iff.mpr (Or.inl hpositive)
      · exact hown (hspends.mono fun hash => (hlists' hash).mp)
    · intro hlive
      rw [isFromMe_iff, hdebit]
      exact (isFromMe_iff.mp hlive).imp_right fun hspends =>
        hspends.mono fun hash hentry => (hlists' hash).mpr (hentries hash hentry)
  refine ⟨?_, ?_, ?_, ?_, ?_, ?_, ?_, ?_, hlists', hnum⟩
  · exact addWtxInternMove_agrees Wallet.chain (fun _ _ => rfl) (fun _ _ _ => rfl) (fun _ _ =>
      rfl) h.chain _ _ _ _ _
  · exact addWtxInternMove_agrees Wallet.bestblockheight (fun _ _ => rfl) (fun _ _ _ =>
      rfl) (fun _ _ => rfl) h.bestblockheight _ _ _ _ _
  · exact addWtxInternMove_agrees Wallet.waddrVector (fun _ _ => rfl) (fun _ _ _ => rfl) (fun _ _ =>
      rfl) h.waddrVector _ _ _ _ _
  · exact addWtxInternMove_agrees Wallet.waddrTree (fun _ _ => rfl) (fun _ _ _ => rfl) (fun _ _ =>
      rfl) h.waddrTree _ _ _ _ _
  · exact addWtxInternMove_agrees Wallet.nextChildindex (fun _ _ => rfl) (fun _ _ _ =>
      rfl) (fun _ _ => rfl) h.nextChildindex _ _ _ _ _
  · show (ld.wallet.addWtxInternMove utxosR (replayed wtx)).vecWtxes =
      (s.loaded.wallet.addWtxInternMove utxos wtx).vecWtxes.map replayed
    rw [addWtxInternMove_frame Wallet.vecWtxes (fun _ _ => rfl), hvecR,
      addWtxInternMove_frame Wallet.vecWtxes (fun _ _ => rfl), hvec, h.vecWtxes, List.map_append,
      List.filter_map]
    rfl
  · exact h.indexed.addWtxInternMove utxosR (replayed wtx)
  · funext hash n
    show (ld.wallet.addWtxInternMove utxosR (replayed wtx)).isSpent hash n =
      (s.loaded.wallet.addWtxInternMove utxos wtx).isSpent hash n
    apply Bool.eq_iff_iff.mpr
    rw [isSpent_addWtxInternMove, isSpent_addWtxInternMove, h.isSpent]
    exact or_congr_right (and_congr_left' hmine)

/-- A transaction that was written is read back. -/
theorem walletWtxDeserialize_serialize (hvin : wtx.tx.vin ≠ []) (hsized : wtx.tx.Sized) :
    walletWtxDeserialize (walletWtxSerialize wtx) = some (replayed wtx) := by
  have htx : txDeserialize (txSerialize wtx.tx) = some (wtx.tx, []) := by
    have hback := @txDeserializeEx_serialize wtx.tx hsized true (fun _ => hvin) []
    rwa [List.append_nil] at hback
  unfold walletWtxDeserialize walletWtxSerialize
  rw [List.append_assoc]
  simp only [deserU32_serU32, deserU256_serU256, Option.getD_some, htx, Option.bind_eq_bind,
    Option.bind_some]
  rfl

/-! ## One operation -/

/-- A request enters an address that is numbered with the next child index, or leaves the wallet as
it is. -/
def EntersNext (w : Wallet) (r : Wallet × Option WalletAddr) : Prop :=
  r = (w, none) ∨ ∃ hash, r.1 = w.addWaddr (w.nextWaddr hash)

theorem entersNext_nextAddr (w : Wallet) : w.EntersNext (w.nextAddr wp) := by
  unfold nextAddr
  cases w.masterkey with
  | none => exact Or.inl rfl
  | some masterkey => exact Or.inr ⟨_, rfl⟩

theorem entersNext_addHdAccountTs (w : Wallet) (account : UInt32) :
    w.EntersNext (w.addHdAccountTs wp account) := by
  unfold addHdAccountTs
  cases w.masterkey with
  | none => exact Or.inl rfl
  | some masterkey =>
    dsimp only
    cases bip44Key wp masterkey account w.nextChildindex false with
    | none => exact Or.inl rfl
    | some key => exact Or.inr ⟨_, rfl⟩

theorem entersNext_p2pkhAddressToWallet (w : Wallet) (addressIn : Bytes) :
    w.EntersNext (w.p2pkhAddressToWallet wp addressIn) := by
  unfold p2pkhAddressToWallet
  split_ifs
  · exact Or.inl rfl
  · exact Or.inl rfl
  · cases addressToPubkeyHash wp addressIn with
    | none => exact Or.inl rfl
    | some hash => exact Or.inr ⟨hash, rfl⟩

/-- A transaction is recorded if it has to do with the wallet and is not known. -/
theorem recorded_checkTransaction (s : FileRun) (item : BlockTx) :
    s.recorded wp (.checkTransaction item) =
      if s.loaded.wallet.isMine item.tx || s.loaded.wallet.isFromMe s.loaded.utxos item.tx then
        if s.loaded.wallet.vecWtxes.any (·.txHashCache = txHash wp.toPlatform item.tx) then none
        else some (wtxCachehash wp ⟨Uint256.zero, item.blockhash, item.height, item.tx⟩)
      else none := by
  unfold FileRun.recorded
  dsimp only
  cases s.loaded.wallet.isMine item.tx || s.loaded.wallet.isFromMe s.loaded.utxos item.tx with
  | false => rfl
  | true =>
    cases s.loaded.wallet.vecWtxes.any (·.txHashCache = txHash wp.toPlatform item.tx) with
    | false => rfl
    | true => rfl

/-- An operation enters an address that is numbered with the next child index, leaves the wallet as
it is, or records a transaction. -/
theorem step_cases (h : s.step wp op = some s') :
    (∃ hash, s' = s.withWallet (s.loaded.wallet.addWaddr (s.loaded.wallet.nextWaddr hash))) ∨
    (s'.loaded.wallet = s.loaded.wallet ∧ s'.paying = s.paying ∧
      s'.loaded.utxos.view = s.loaded.utxos.view ∧
      (s.loaded.utxos.Numbered → s'.loaded.utxos.Numbered)) ∨
    ∃ wtx ∈ s.recorded wp op, ∃ utxos ∈ s.table wp op,
      wtx.txHashCache = txHash wp.toPlatform wtx.tx ∧
      s'.loaded.wallet = (s.loaded.wallet.writeRecord (walletWtxSerialize wtx)
        recTypeTx).addWtxInternMove utxos wtx ∧
      s'.paying = s.payingWith wp wtx ∧ s'.loaded.utxos.view = utxos.view ∧
      (utxos.Numbered → s'.loaded.utxos.Numbered) := by
  have haddr : ∀ (r : Wallet × Option WalletAddr), s' = s.withWallet r.1 →
      s.loaded.wallet.EntersNext r →
      (∃ hash, s' = s.withWallet (s.loaded.wallet.addWaddr (s.loaded.wallet.nextWaddr hash))) ∨
      (s'.loaded.wallet = s.loaded.wallet ∧ s'.paying = s.paying ∧
        s'.loaded.utxos.view = s.loaded.utxos.view ∧
        (s.loaded.utxos.Numbered → s'.loaded.utxos.Numbered)) := by
    rintro r rfl (rfl | ⟨hash, heq⟩)
    · exact Or.inr ⟨rfl, rfl, rfl, id⟩
    · exact Or.inl ⟨hash, congrArg s.withWallet heq⟩
  cases op with
  | nextAddr =>
    rw [← or_assoc]
    left
    exact haddr _ (Option.some.inj h).symm (entersNext_nextAddr _)
  | nextBip44Addr =>
    rw [← or_assoc]
    left
    exact haddr _ (Option.some.inj h).symm (entersNext_addHdAccountTs _ 0)
  | addHdAccount account =>
    rw [← or_assoc]
    left
    exact haddr _ (Option.some.inj h).symm (entersNext_addHdAccountTs _ account)
  | importAddress addressIn =>
    rw [← or_assoc]
    left
    exact haddr _ (Option.some.inj h).symm (entersNext_p2pkhAddressToWallet _ addressIn)
  | addWtxMove wtx =>
    right
    right
    obtain rfl := Option.some.inj h
    exact ⟨wtxCachehash wp wtx, rfl, s.loaded.utxos, rfl, rfl, rfl, rfl, rfl, id⟩
  | checkTransaction item =>
    right
    obtain ⟨loaded, hcheck, rfl⟩ := Option.map_eq_some_iff.mp h
    unfold checkTransaction at hcheck
    rw [recorded_checkTransaction]
    obtain ⟨hview, hnum⟩ := view_updateConfirmations item.height s.loaded.utxos
    split_ifs at hcheck ⊢ with hrelevant hknown
    · obtain rfl := Option.some.inj hcheck
      exact Or.inl ⟨rfl, rfl, hview, hnum⟩
    · obtain ⟨utxos, hscrape, heq⟩ := Option.bind_eq_some_iff.mp hcheck
      obtain rfl := Option.some.inj heq
      obtain ⟨hview', hnum'⟩ := view_updateConfirmations item.height utxos
      exact Or.inr ⟨_, rfl, utxos, hscrape, rfl, rfl, rfl, hview', hnum'⟩
    · obtain rfl := Option.some.inj hcheck
      exact Or.inl ⟨rfl, rfl, hview, hnum⟩

/-- The entries of the table in which a recorded transaction is looked up. -/
theorem Tracks.hasEntry_table (ht : Tracks s) (hwtx : wtx ∈ s.recorded wp op)
    (hutxos : utxos ∈ s.table wp op) :
    utxos.Numbered ∧ ∀ hash, HasEntry utxos hash → hash ∈ s.payingWith wp wtx := by
  have hplain : utxos = s.loaded.utxos →
      utxos.Numbered ∧ ∀ hash, HasEntry utxos hash → hash ∈ s.payingWith wp wtx := by
    rintro rfl
    exact ⟨ht.numbered, fun hash hentry => mem_payingWith.mpr (Or.inl (ht.lists hash hentry))⟩
  cases op with
  | checkTransaction item =>
    have hread := scrapable_of_scrapeUtxos hutxos
    obtain ⟨utxos', hscrape, hnum, hlists⟩ := lists_scrapeUtxos ht.numbered hread
    obtain rfl := Option.some.inj (hscrape.symm.trans hutxos)
    have hcached : wtx = wtxCachehash wp ⟨Uint256.zero, item.blockhash, item.height, item.tx⟩ := by
      unfold FileRun.recorded at hwtx
      dsimp only at hwtx
      split_ifs at hwtx
      · exact (Option.some.inj hwtx).symm
      · cases hwtx
    refine ⟨hnum, fun hash hentry => mem_payingWith.mpr ?_⟩
    rw [hcached]
    exact ((hlists hash).mp hentry).imp_left (ht.lists hash)
  | nextAddr => exact hplain (Option.some.inj hutxos).symm
  | nextBip44Addr => exact hplain (Option.some.inj hutxos).symm
  | addHdAccount account => exact hplain (Option.some.inj hutxos).symm
  | importAddress addressIn => exact hplain (Option.some.inj hutxos).symm
  | addWtxMove other => exact hplain (Option.some.inj hutxos).symm

/-! ## Runs and their files -/

/-- The state in which a load replays the records of a file. -/
def freshLoaded (chain : WalletParams) (file : Bytes) (nextIdx : ℕ) : Loaded where
  wallet := { create chain with dbfile := file }
  utxos := { table := [], nextIdx := nextIdx }

variable (wp chain) in
/-- The file is a list of records, and replaying them leads to the wallet. -/
structure Saved (s : FileRun) : Prop where
  chain_eq : s.loaded.wallet.chain = chain
  tracks : Tracks s
  file : ∃ rs : List FileRecord, (∀ r ∈ rs, r.Readable) ∧ s.loaded.wallet.dbfile = fileOf chain rs ∧
    ∀ file nextIdx, ∃ ld, rs.foldlM (FileRecord.replay wp) (freshLoaded chain file nextIdx) =
      some ld ∧
      Mirrors s ld

/-- One more record. -/
theorem Saved.record (h : Saved wp chain s) {r : FileRecord} (hr : r.Readable)
    (hchain : s'.loaded.wallet.chain = s.loaded.wallet.chain) (ht : Tracks s')
    (hfile : s'.loaded.wallet.dbfile = s.loaded.wallet.dbfile ++ r.encode)
    (hreplay : ∀ ld, Mirrors s ld → ∃ ld', r.replay wp ld = some ld' ∧ Mirrors s' ld') :
    Saved wp chain s' := by
  obtain ⟨rs, hrs, hold, hmirrors⟩ := h.file
  refine ⟨hchain.trans h.chain_eq, ht, rs ++ [r], ?_, ?_, ?_⟩
  · intro r' hr'
    rcases List.mem_append.mp hr' with hr' | hr'
    · exact hrs r' hr'
    · rw [List.mem_singleton.mp hr']
      exact hr
  · rw [hfile, hold, fileOf_concat]
  · intro file nextIdx
    obtain ⟨ld, hfold, hld⟩ := hmirrors file nextIdx
    obtain ⟨ld', hstep, hld'⟩ := hreplay ld hld
    refine ⟨ld', ?_, hld'⟩
    rw [List.foldlM_append, hfold]
    show ([r].foldlM (FileRecord.replay wp) ld) = some ld'
    rw [List.foldlM_cons, hstep]
    rfl

theorem saved_init (hbase58 : wp.Base58Laws chain) (hinit : (fileSystem wp chain).init s) :
    Saved wp chain s := by
  obtain ⟨hpaying, htable, hwallet⟩ := hinit
  have hentry : ∀ (utxos : Utxos), utxos.table = [] → utxos.Numbered ∧ ∀ hash,
    ¬ HasEntry utxos hash := by
    intro utxos hempty
    unfold Utxos.Numbered HasEntry Utxos.view
    rw [hempty]
    exact ⟨fun utxo hmem => absurd hmem List.not_mem_nil, fun hash ⟨n, hmem⟩ =>
      absurd hmem List.not_mem_nil⟩
  obtain ⟨hnum, hnone⟩ := hentry s.loaded.utxos htable
  have hlists : ∀ hash, HasEntry s.loaded.utxos hash → hash ∈ s.paying :=
    fun hash h => absurd h (hnone hash)
  -- a replay starts from a new wallet
  have hstart : ∀ (w : Wallet) (file : Bytes) (nextIdx : ℕ), w.chain = chain →
    w.bestblockheight = 0 →
      w.waddrVector = [] → w.waddrTree = .empty → w.nextChildindex = 0 → w.vecWtxes = [] →
      w.spendsTree = .empty → s.loaded.wallet = w → ∀ masterkey,
      Mirrors s { freshLoaded chain file nextIdx with
        wallet := { (freshLoaded chain file nextIdx).wallet with masterkey := masterkey } } := by
    intro w file nextIdx hchain hheight hvector htree hindex hvec hspends hw masterkey
    obtain ⟨hnum', hnone'⟩ := hentry (freshLoaded chain file nextIdx).utxos rfl
    refine ⟨?_, ?_, ?_, ?_, ?_, ?_, ?_, ?_, ?_, hnum'⟩
    · rw [hw, hchain]
      rfl
    · rw [hw, hheight]
      rfl
    · rw [hw, hvector]
      rfl
    · rw [hw, htree]
      rfl
    · rw [hw, hindex]
      rfl
    · rw [hw, hvec]
      rfl
    · exact ⟨(@indexed_create chain).find, (@indexed_create chain).nodup⟩
    · funext hash n
      unfold isSpent
      rw [hw, hspends]
      rfl
    · intro hash
      rw [hpaying]
      exact ⟨fun h => absurd h (hnone' hash), fun h => absurd h List.not_mem_nil⟩
  rcases hwallet with hwallet | ⟨master, hsized, hwallet⟩
  · refine ⟨by rw [hwallet]; rfl, ⟨by rw [hwallet]; exact indexed_create, hlists, hnum⟩, [],
      List.forall_mem_nil _, ?_, ?_⟩
    · rw [hwallet]
      exact (List.append_nil _).symm
    · intro file nextIdx
      exact ⟨_, rfl, hstart (create chain) file nextIdx rfl rfl rfl rfl rfl rfl rfl hwallet none⟩
  · have hfile := dbfile_setMasterKeyCopy hbase58 hsized (w := create chain) rfl
    refine ⟨by rw [hwallet]; rfl, ⟨?_, hlists, hnum⟩,
      [.masterpubkey (hdnodeSerializePublic wp master chain)], ?_, ?_, ?_⟩
    · rw [hwallet]
      exact ⟨(@indexed_create chain).find, (@indexed_create chain).nodup⟩
    · intro r hr
      rw [List.mem_singleton.mp hr]
      exact readable_masterpubkey hbase58 hsized
    · rw [hwallet, hfile]
      unfold fileOf
      rw [List.flatMap_singleton]
    · intro file nextIdx
      refine ⟨_, ?_, hstart ((create chain).setMasterKeyCopy wp master) file nextIdx
        rfl rfl rfl rfl rfl rfl rfl hwallet
        (some ((hdnodeDeserialize wp (hdnodeSerializePublic wp master chain) chain).getD
          HdNode.zero))⟩
      rw [List.foldlM_cons,
        FileRecord.replay_masterpubkey (readable_masterpubkey hbase58 hsized).2.1]
      rfl

/-- **One step.** -/
theorem saved_step (h : Saved wp chain s) (hguard : Replayable wp s op)
    (hstep : s.step wp op = some s') :
    Saved wp chain s' := by
  have ht := h.tracks
  rcases step_cases hstep with ⟨hash, rfl⟩ | ⟨hwallet, hpaying, hview, hnum⟩ |
    ⟨wtx, hwtx, utxos, hutxos, hcache, hwallet, hpaying, hview, hnum⟩
  · apply h.record (r := .addr (s.loaded.wallet.nextWaddr hash)) trivial
    · rfl
    · exact ⟨⟨ht.indexed.find, ht.indexed.nodup⟩, ht.lists, ht.numbered⟩
    · rfl
    · exact fun ld hld => hld.addWaddr rfl rfl
  · obtain ⟨rs, hrs, hold, hmirrors⟩ := h.file
    refine ⟨hwallet ▸ h.chain_eq, ⟨hwallet ▸ ht.indexed, ?_, hnum ht.numbered⟩, rs, hrs,
      hwallet ▸ hold, ?_⟩
    · intro hash hentry
      unfold HasEntry at hentry
      rw [hview] at hentry
      rw [hpaying]
      exact ht.lists hash hentry
    · intro file nextIdx
      obtain ⟨ld, hfold, hld⟩ := hmirrors file nextIdx
      refine ⟨ld, hfold, ?_⟩
      obtain ⟨hchain, hheight, hvector, htree, hindex, hvec, hidx, hspent, hlists, hnumbered⟩ := hld
      rw [← hwallet] at hchain hheight hvector htree hindex hvec hspent
      rw [← hpaying] at hlists
      exact ⟨hchain, hheight, hvector, htree, hindex, hvec, hidx, hspent, hlists, hnumbered⟩
  · obtain ⟨hvin, hsized, hlen⟩ := hguard.sized wtx hwtx
    obtain ⟨hnumbered, hentries⟩ := ht.hasEntry_table hwtx hutxos
    rw [addWtxInternMove_writeRecord] at hwallet
    obtain ⟨⟨wallet', utxos'⟩, paying'⟩ := s'
    dsimp only at hwallet hpaying hview hnum
    subst hwallet hpaying
    apply h.record (r := .tx wtx) ⟨hlen, walletWtxDeserialize_serialize hvin hsized⟩
    · show (s.loaded.wallet.addWtxInternMove utxos wtx).chain = _
      rw [addWtxInternMove_leaves Wallet.chain (fun _ _ => rfl) fun _ _ _ => rfl]
    · have hindexed := ht.indexed.addWtxInternMove utxos wtx
      refine ⟨⟨hindexed.find, hindexed.nodup⟩, ?_, hnum hnumbered⟩
      intro hash hentry
      unfold HasEntry at hentry
      rw [hview] at hentry
      exact hentries hash hentry
    · rfl
    · intro ld hld
      exact hld.enter ht hcache (hguard.scrapable wtx hwtx)
        (fun hspends => hguard.own wtx hwtx hspends utxos hutxos) hentries

/-- **A restart.** Behind every run that meets the condition the file is loaded, and the wallet
comes back, if the table of the thread is empty and the file is not so long that its size is cut too
short. -/
theorem restores_of_reach (hbase58 : wp.Base58Laws chain)
    (h : (fileSystem wp chain).Reach (Replayable wp) s) {utxos : Utxos} (hempty : utxos.table = [])
    (hsize : 40 ≤ (UInt32.ofNat s.loaded.wallet.dbfile.length).toNat) :
    Restores wp chain s.loaded.wallet utxos := by
  have hsaved : Saved wp chain s := by
    apply h.invariant (P := Saved wp chain)
    · intro s hinit
      exact saved_init hbase58 hinit
    · intro s op s' hs hguard hstep
      exact saved_step hs hguard hstep
  obtain ⟨table, nextIdx⟩ := utxos
  obtain rfl : table = [] := hempty
  obtain ⟨rs, hrs, hfile, hmirrors⟩ := hsaved.file
  obtain ⟨ld, hfold, hld⟩ := hmirrors s.loaded.wallet.dbfile nextIdx
  refine ⟨ld, ?_, hld.restored⟩
  rw [hfile] at hsize hfold ⊢
  rw [load_fileOf hrs hsize]
  exact congrArg (Option.map LoadResult.loaded) hfold

/-! ## Two transactions and a restart -/

instance (P : Uint256 → Prop) [DecidablePred P] (tx : Tx) : Decidable (SpendsFrom P tx) :=
  inferInstanceAs (Decidable (∃ txIn ∈ tx.vin, P txIn.prevout.hash ∨
    P (swapBytes txIn.prevout.hash)))

instance (w : Wallet) (txOut : TxOut) : Decidable (w.Scrapable wp txOut) :=
  inferInstanceAs (Decidable (_ ∨ _ ∨ _))

instance (s : FileRun) (op : FileOp) : Decidable (Replayable wp s op) :=
  decidable_of_iff
    ((∀ wtx ∈ s.recorded wp op,
        wtx.tx.vin ≠ [] ∧ wtx.tx.Sized ∧ (walletWtxSerialize wtx).length ≤ 4000000) ∧
      (∀ wtx ∈ s.recorded wp op, ∀ out ∈ wtx.tx.vout, s.loaded.wallet.Scrapable wp out) ∧
      ∀ wtx ∈ s.recorded wp op, SpendsFrom (· ∈ s.payingWith wp wtx) wtx.tx →
        ∀ utxos ∈ s.table wp op, (s.loaded.wallet.enterWtx wtx).isFromMe utxos wtx.tx = true)
    ⟨fun ⟨hsized, hread, hown⟩ => ⟨hsized, hread, hown⟩, fun h => ⟨h.sized, h.scrapable, h.own⟩⟩

/-- A new wallet file. -/
def sampleFileRun : FileRun where
  loaded := sampleKeyRun.loaded
  paying := []

/-- The hash of its first address. -/
def sampleFirstHash : Uint160 :=
  ((sampleKeyRun.loaded.wallet.nextAddr sampleWallet).2.map (·.pubkeyhash)).getD (sampleHash160 0)

/-- A payment to this address. -/
def sampleReceived (value : UInt64) : Wtx where
  txHashCache := Uint256.zero
  blockhash := Uint256.zero
  height := 1
  tx := sampleTx 0x10000 ⟨Uint256.zero, 3⟩ [⟨value, p2pkhScript sampleFirstHash⟩]

/-- A payment of its output to somebody else. -/
def sampleSent (value : UInt64) : Wtx where
  txHashCache := Uint256.zero
  blockhash := Uint256.zero
  height := 2
  tx := sampleTx 0x20000 ⟨txHash sampleWallet.toPlatform (sampleReceived value).tx, 0⟩
    [⟨4, p2pkhScript (sampleHash160 2)⟩]

theorem sampleFileRun_init : (fileSystem sampleWallet sampleWalletParams).init sampleFileRun :=
  ⟨rfl, rfl, Or.inr ⟨sampleMaster, sampleMaster_sized, rfl⟩⟩

/-- The theorem on a payment and its spend. -/
theorem restores_of_reach_sample :
    ∃ s, (fileSystem sampleWallet sampleWalletParams).run sampleFileRun
        [.nextAddr, .addWtxMove (sampleReceived 5), .addWtxMove (sampleSent 5)] = some s ∧
      Restores sampleWallet sampleWalletParams s.loaded.wallet { table := [], nextIdx := 0 } := by
  have hrun : ((fileSystem sampleWallet sampleWalletParams).run sampleFileRun
      [.nextAddr, .addWtxMove (sampleReceived 5), .addWtxMove (sampleSent 5)]).any
        (fun s => decide (40 ≤ (UInt32.ofNat s.loaded.wallet.dbfile.length).toNat)) = true := by
    decide +kernel
  obtain ⟨s, hs, hsize⟩ := (Option.any_eq_true _ _).mp hrun
  refine ⟨s, hs, restores_of_reach (sampleWallet_base58Laws sampleWalletParams)
    (.of_run (.init sampleFileRun_init) ?_ hs) rfl (of_decide_eq_true hsize)⟩
  decide +kernel

/-- The spend of an output without value is only found by the load. -/
theorem not_restores_worthless :
    ¬ ∀ (wp : WalletPlatform) (chain : WalletParams), wp.Base58Laws chain →
      ∀ s, (fileSystem wp chain).Reachable s →
      Restores wp chain s.loaded.wallet { table := [], nextIdx := 0 } := by
  intro hall
  have hrun : ((fileSystem sampleWallet sampleWalletParams).run sampleFileRun
      [.nextAddr, .addWtxMove (sampleReceived 0), .addWtxMove (sampleSent 0)]).any
        (fun s => !s.loaded.wallet.isSpent
          (txHash sampleWallet.toPlatform (sampleReceived 0).tx) 0 &&
          (load sampleWallet s.loaded.wallet.dbfile sampleWalletParams
            { table := [], nextIdx := 0 }).any fun result => match result with
              | .loaded ld => ld.wallet.isSpent
                  (txHash sampleWallet.toPlatform (sampleReceived 0).tx) 0
              | .failed => false) = true := by
    decide +kernel
  obtain ⟨s, hs, hboth⟩ := (Option.any_eq_true _ _).mp hrun
  rw [Bool.and_eq_true, Bool.not_eq_true'] at hboth
  obtain ⟨ld, hload, hrestored⟩ := hall sampleWallet sampleWalletParams
    (sampleWallet_base58Laws sampleWalletParams) s
    (TransitionSystem.reachable_of_run sampleFileRun_init hs)
  obtain ⟨hlive, hreplayed⟩ := hboth
  rw [hload] at hreplayed
  have hspent : ld.wallet.isSpent (txHash sampleWallet.toPlatform (sampleReceived 0).tx) 0 = true :=
    hreplayed
  rw [hrestored.isSpent, hlive] at hspent
  cases hspent

end Wallet

end Libdogecoin
