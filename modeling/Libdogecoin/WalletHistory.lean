/-
# Heights of transactions that are seen again

A wallet takes up the transactions of its blocks with `dogecoin_wallet_check_transaction`. One that
it has already is not entered again, wherever it turns up.

* `recorded_of_reach` : the entries of the table belong to stored transactions and have their
  heights;
* `heightsRight_iff` : when a transaction is seen again, its height is right.
-/
import Libdogecoin.WalletReload

namespace Libdogecoin

namespace Wallet

variable (wp : WalletPlatform) {w : Wallet} {utxos : Utxos} {s' : Loaded}

/-! ## Runs -/

/-- A wallet with any addresses and without transactions takes up transactions of blocks. -/
def checkSystem : TransitionSystem Loaded BlockTx where
  init := fun s => s.wallet.vecWtxes = [] ∧ (∀ hash, s.wallet.wtxesTree.find hash = none) ∧
    s.utxos.table = []
  step := fun s item => checkTransaction wp s item.tx item.blockhash item.height

/-- What the vector, the tree and the table have in common. -/
structure Recorded (s : Loaded) : Prop where
  indexed : Indexed s.wallet
  cached : ∀ wtx ∈ s.wallet.vecWtxes, wtx.txHashCache = txHash wp.toPlatform wtx.tx
  /-- Every entry is that of a stored transaction, at its height. -/
  entries : ∀ utxo ∈ s.utxos.table, ∃ wtx ∈ s.wallet.vecWtxes,
    utxo.txid = swapBytes wtx.txHashCache ∧ utxo.height = wtx.height

variable {wp}

/-! ## What a scrape does to the heights -/

/-- Every entry is an old one, or one of the transaction at its height. -/
def Stems (txid : Uint256) (height : UInt32) (old new : List Utxo) : Prop :=
  ∀ utxo ∈ new, (∃ before ∈ old, before.txid = utxo.txid ∧ before.height = utxo.height) ∨
    (utxo.txid = txid ∧ utxo.height = height)

section Stems

variable {txid : Uint256} {height : UInt32}

theorem Stems.refl (table : List Utxo) : Stems txid height table table :=
  fun utxo hmem => Or.inl ⟨utxo, hmem, rfl, rfl⟩

theorem Stems.trans {a b c : List Utxo} (hab : Stems txid height a b)
    (hbc : Stems txid height b c) :
    Stems txid height a c := by
  intro utxo hmem
  rcases hbc utxo hmem with ⟨before, hbefore, htxid, hheight⟩ | hnew
  · rcases hab before hbefore with ⟨first, hfirst, htxid', hheight'⟩ | ⟨htxid', hheight'⟩
    · exact Or.inl ⟨first, hfirst, htxid'.trans htxid, hheight'.trans hheight⟩
    · exact Or.inr ⟨htxid.symm.trans htxid', hheight.symm.trans hheight'⟩
  · exact Or.inr hnew

theorem stems_of_map {old new : List Utxo}
    (h : (new.map fun utxo => (utxo.txid, utxo.height)) = old.map fun utxo =>
      (utxo.txid, utxo.height)) :
    Stems txid height old new := by
  intro utxo hmem
  have hpair : (utxo.txid, utxo.height) ∈ old.map fun utxo => (utxo.txid, utxo.height) :=
    h ▸ List.mem_map_of_mem hmem
  obtain ⟨before, hbefore, heq⟩ := List.mem_map.mp hpair
  obtain ⟨htxid, hheight⟩ := Prod.mk.inj heq
  exact Or.inl ⟨before, hbefore, htxid, hheight⟩

theorem stems_setHeight (vout : ℕ) (table : List Utxo) :
    Stems txid height table (setHeight txid vout height table) := by
  induction table with
  | nil => exact Stems.refl []
  | cons first rest ih =>
    intro utxo hmem
    unfold setHeight at hmem
    split_ifs at hmem with hentry
    · rcases List.mem_cons.mp hmem with rfl | hrest
      · exact Or.inr ⟨(Prod.mk.inj (isEntry_iff.mp hentry)).1, rfl⟩
      · exact Or.inl ⟨utxo, List.mem_cons_of_mem _ hrest, rfl, rfl⟩
    · rcases List.mem_cons.mp hmem with rfl | hrest
      · exact Or.inl ⟨utxo, List.mem_cons_self, rfl, rfl⟩
      · rcases ih utxo hrest with ⟨before, hbefore, h⟩ | hnew
        · exact Or.inl ⟨before, List.mem_cons_of_mem _ hbefore, h⟩
        · exact Or.inr hnew

theorem stems_recordOutput (p2pkh : Bytes) (txOut : TxOut) (vout : ℕ) (utxos : Utxos) :
    Stems txid height utxos.table (recordOutput txid height p2pkh txOut vout utxos).table := by
  unfold recordOutput
  split_ifs
  · exact stems_setHeight vout utxos.table
  · dsimp only
    split_ifs
    · exact Stems.refl _
    · intro utxo hmem
      rcases List.mem_append.mp hmem with hold | hnew
      · exact Or.inl ⟨utxo, hold, rfl, rfl⟩
      · obtain rfl := List.mem_singleton.mp hnew
        exact Or.inr ⟨rfl, rfl⟩

theorem stems_scrapeOutput {w : Wallet} {txOut : TxOut} {vout : ℕ} {utxos utxos' : Utxos}
    (h : w.scrapeOutput wp txid height txOut vout utxos = some utxos') :
    Stems txid height utxos.table utxos'.table := by
  unfold scrapeOutput at h
  split_ifs at h
  · obtain rfl := Option.some.inj h
    exact Stems.refl _
  · obtain ⟨p2pkh, -, rfl⟩ := Option.map_eq_some_iff.mp h
    clear h
    induction w.getAddresses wp generalizing utxos with
    | nil => exact Stems.refl _
    | cons addr addrs ih =>
      rw [List.foldl_cons]
      split_ifs
      · exact (stems_recordOutput p2pkh txOut vout utxos).trans ih
      · exact ih

end Stems

variable {wtx : Wtx} {s : Loaded} {item : BlockTx}

/-- **A scrape** leaves the entries of other transactions at their heights. -/
theorem stems_scrapeUtxos {utxos' : Utxos} (h : w.scrapeUtxos wp wtx utxos = some utxos') :
    Stems (swapBytes (txHash wp.toPlatform wtx.tx)) wtx.height utxos.table utxos'.table := by
  unfold scrapeUtxos at h
  -- the inputs only mark entries as spent
  have hinputs := (map_scrapeInputs (fun utxo => (utxo.txid, utxo.height)) (fun _ =>
    rfl) wtx.tx utxos).1
  refine (stems_of_map hinputs).trans ?_
  generalize scrapeInputs wtx.tx utxos = start at h
  generalize wtx.tx.vout.zipIdx = outs at h
  induction outs generalizing start with
  | nil =>
    obtain rfl := Option.some.inj h
    exact Stems.refl _
  | cons out outs ih =>
    rw [List.foldlM_cons] at h
    obtain ⟨next, hnext, hrest⟩ := Option.bind_eq_some_iff.mp h
    exact (stems_scrapeOutput hnext).trans (ih next hrest)

/-! ## One transaction -/

/-- **One call** : only the confirmations are updated, or a transaction of a new hash is entered. -/
theorem checkTransaction_eq_some
    (h : checkTransaction wp s item.tx item.blockhash item.height = some s') :
    s' = { s with utxos := updateConfirmations item.height s.utxos } ∨
      (∀ wtx ∈ s.wallet.vecWtxes, wtx.txHashCache ≠ txHash wp.toPlatform item.tx) ∧
        ∃ utxos, s.wallet.scrapeUtxos wp ⟨Uint256.zero, item.blockhash, item.height,
          item.tx⟩ s.utxos =
            some utxos ∧
          s' = { wallet := s.wallet.addWtxMove wp utxos ⟨Uint256.zero, item.blockhash,
            item.height, item.tx⟩
                 utxos := updateConfirmations item.height utxos } := by
  unfold checkTransaction at h
  split_ifs at h with hmine hstored
  · exact Or.inl (Option.some.inj h).symm
  · obtain ⟨utxos, hscrape, hs'⟩ := Option.bind_eq_some_iff.mp h
    refine Or.inr ⟨?_, utxos, hscrape, (Option.some.inj hs').symm⟩
    intro wtx hmem heq
    exact hstored (List.any_eq_true.mpr ⟨wtx, hmem, decide_eq_true heq⟩)
  · exact Or.inl (Option.some.inj h).symm

/-- A transaction that is stored only updates the confirmations. -/
theorem checkTransaction_of_stored (hmem : wtx ∈ s.wallet.vecWtxes)
    (hhash : wtx.txHashCache = txHash wp.toPlatform item.tx) :
    checkTransaction wp s item.tx item.blockhash item.height =
      some { s with utxos := updateConfirmations item.height s.utxos } := by
  have hstored : s.wallet.vecWtxes.any (·.txHashCache = txHash wp.toPlatform item.tx) = true :=
    List.any_eq_true.mpr ⟨wtx, hmem, decide_eq_true hhash⟩
  unfold checkTransaction
  rw [if_pos hstored]
  split_ifs
  · rfl
  · rfl

/-- The file has no part in it. -/
theorem Indexed.addWtxMove (h : Indexed w) (utxos : Utxos) (wtx : Wtx) :
    Indexed (w.addWtxMove wp utxos wtx) := by
  have hfile : Indexed (w.writeRecord (walletWtxSerialize (wtxCachehash wp wtx)) recTypeTx) :=
    ⟨h.find, h.nodup⟩
  exact hfile.addWtxInternMove utxos (wtxCachehash wp wtx)

theorem mem_updateConfirmations {height : UInt32} {utxo : Utxo} :
    utxo ∈ (updateConfirmations height utxos).table ↔
      ∃ before ∈ utxos.table, { before with confirmations := height - before.height + 1 } = utxo :=
  List.mem_map

theorem Recorded.updateConfirmations (hs : Recorded wp s) (height : UInt32) :
    Recorded wp { s with utxos := updateConfirmations height s.utxos } := by
  refine ⟨hs.indexed, hs.cached, ?_⟩
  intro utxo hmem
  obtain ⟨before, hbefore, rfl⟩ := mem_updateConfirmations.mp hmem
  exact hs.entries before hbefore

theorem recorded_init (h : (checkSystem wp).init s) : Recorded wp s := by
  obtain ⟨hvec, htree, htable⟩ := h
  refine ⟨⟨?_, ?_⟩, ?_, ?_⟩
  · intro hash wtx
    rw [htree, hvec]
    simp
  · rw [hvec]
    exact List.nodup_nil
  · rw [hvec]
    exact fun wtx hmem => absurd hmem List.not_mem_nil
  · rw [htable]
    exact fun utxo hmem => absurd hmem List.not_mem_nil

/-- **One transaction** keeps what is recorded. -/
theorem recorded_step (hs : Recorded wp s) (h : (checkSystem wp).step s item = some s') :
    Recorded wp s' := by
  rcases checkTransaction_eq_some h with rfl | ⟨hnew, utxos, hscrape, rfl⟩
  · exact hs.updateConfirmations item.height
  · -- what the vector does not have the tree does not find
    have hfind : s.wallet.wtxesTree.find (txHash wp.toPlatform item.tx) = none := by
      rw [Option.eq_none_iff_forall_ne_some]
      intro wtx hwtx
      obtain ⟨hmem, hcache⟩ := (hs.indexed.find _ _).mp hwtx
      exact hnew wtx hmem hcache
    obtain ⟨hvec, -⟩ := @addWtxMove_of_new _ _ ⟨Uint256.zero, item.blockhash, item.height,
      item.tx⟩ utxos hfind
    have hentered : Recorded wp
        ⟨s.wallet.addWtxMove wp utxos ⟨Uint256.zero, item.blockhash, item.height, item.tx⟩,
          utxos⟩ := by
      refine ⟨hs.indexed.addWtxMove utxos _, ?_, ?_⟩
      · intro wtx hmem
        dsimp only at hmem
        rw [hvec, List.mem_append, List.mem_singleton] at hmem
        rcases hmem with hold | rfl
        · exact hs.cached wtx hold
        · rfl
      · intro utxo hmem
        dsimp only
        rw [hvec]
        rcases stems_scrapeUtxos hscrape utxo hmem with ⟨before, hbefore, htxid, hheight⟩ |
          ⟨htxid, hheight⟩
        · -- an entry of an earlier transaction
          obtain ⟨wtx, hwtx, htxid', hheight'⟩ := hs.entries before hbefore
          exact ⟨wtx, List.mem_append_left _ hwtx, htxid.symm.trans htxid',
            hheight.symm.trans hheight'⟩
        · exact ⟨_, List.mem_append_right _ (List.mem_singleton_self _), htxid, hheight⟩
    exact hentered.updateConfirmations item.height

/-- **Every run.** -/
theorem recorded_of_reach (h : (checkSystem wp).Reachable s) : Recorded wp s :=
  h.invariant (fun _ => recorded_init) fun _ _ _ hs _ hstep => recorded_step hs hstep

/-! ## A transaction that is seen again -/

/-- The stored transaction and its entries carry a height, and the confirmations are counted from
it. -/
structure HeightsRight (s : Loaded) (hash : Uint256) (height : UInt32) : Prop where
  stored : ∀ wtx ∈ s.wallet.vecWtxes, wtx.txHashCache = hash → wtx.height = height
  entries : ∀ utxo ∈ s.utxos.table, utxo.txid = swapBytes hash → utxo.height = height
  confirmations : ∀ utxo ∈ s.utxos.table, utxo.txid = swapBytes hash →
    utxo.confirmations = height - utxo.height + 1

/-- The heights are right behind the call exactly if the block is at the height that is stored. -/
theorem Recorded.heightsRight_iff (hs : Recorded wp s) (hmem : wtx ∈ s.wallet.vecWtxes)
    (height : UInt32) :
    HeightsRight { s with utxos := Wallet.updateConfirmations height s.utxos }
      wtx.txHashCache height ↔
      height = wtx.height := by
  have hunique : ∀ other ∈ s.wallet.vecWtxes, other.txHashCache = wtx.txHashCache → other = wtx :=
    fun other hother heq => List.inj_on_of_nodup_map hs.indexed.nodup hother hmem heq
  constructor
  · intro h
    exact (h.stored wtx hmem rfl).symm
  · rintro rfl
    refine ⟨?_, ?_, ?_⟩
    · intro other hother heq
      rw [hunique other hother heq]
    · -- an entry has the height of its stored transaction, which is this one
      intro utxo hutxo htxid
      obtain ⟨before, hbefore, rfl⟩ := mem_updateConfirmations.mp hutxo
      obtain ⟨other, hother, htxid', hheight⟩ := hs.entries before hbefore
      have hsame : other.txHashCache = wtx.txHashCache := swapBytes_inj.mp (htxid'.symm.trans htxid)
      rw [hunique other hother hsame] at hheight
      exact hheight
    · intro utxo hutxo _
      obtain ⟨before, hbefore, rfl⟩ := mem_updateConfirmations.mp hutxo
      rfl

/-- **A transaction that is seen again** in a block. In every run the stored transaction, its
entries and their confirmations are right behind the call exactly if the block has the height at
which the transaction was entered. -/
theorem heightsRight_checkTransaction_iff {s : Loaded} (hreach : (checkSystem wp).Reachable s)
    {item : BlockTx} {wtx : Wtx} (hmem : wtx ∈ s.wallet.vecWtxes)
    (hhash : wtx.txHashCache = txHash wp.toPlatform item.tx) :
    ∃ s', checkTransaction wp s item.tx item.blockhash item.height = some s' ∧
      (HeightsRight s' (txHash wp.toPlatform item.tx) item.height ↔ item.height = wtx.height) := by
  refine ⟨_, checkTransaction_of_stored hmem hhash, ?_⟩
  rw [← hhash]
  exact (recorded_of_reach hreach).heightsRight_iff hmem item.height

/-! ## A payment in two blocks -/

/-- A wallet with one address, before its first block. -/
def sampleStart : Loaded where
  wallet := sampleOwner
  utxos := { table := [], nextIdx := 0 }

theorem sampleStart_init : (checkSystem sampleWallet).init sampleStart :=
  ⟨sampleOwner_fresh.vecWtxes, sampleOwner_fresh.wtxesTree, rfl⟩

/-- The payment in a block at some height. -/
def samplePaid (height : UInt32) : BlockTx := ⟨samplePayment, Uint256.zero, height⟩

/-- Behind the first block the wallet stores the payment at height 1. -/
theorem samplePaid_stored :
    ∃ s wtx, (checkSystem sampleWallet).Reachable s ∧ wtx ∈ s.wallet.vecWtxes ∧
      wtx.txHashCache = txHash sampleWallet.toPlatform samplePayment ∧ wtx.height = 1 := by
  have hrun : (checkTransaction sampleWallet sampleStart samplePayment Uint256.zero 1).map
      (fun s => s.wallet.vecWtxes.map fun wtx => (wtx.txHashCache, wtx.height)) =
        some [(txHash sampleWallet.toPlatform samplePayment, 1)] := by
    decide +kernel
  obtain ⟨s, hstep, hvec⟩ := Option.map_eq_some_iff.mp hrun
  have hmem : (txHash sampleWallet.toPlatform samplePayment, (1 : UInt32)) ∈
      s.wallet.vecWtxes.map fun wtx => (wtx.txHashCache, wtx.height) := by
    rw [hvec]
    exact List.mem_singleton_self _
  obtain ⟨wtx, hwtx, heq⟩ := List.mem_map.mp hmem
  obtain ⟨hhash, hheight⟩ := Prod.mk.inj heq
  exact ⟨s, wtx, .step (i := samplePaid 1) (.init sampleStart_init) trivial hstep,
    hwtx, hhash, hheight⟩

/-- The theorem on the payment in a second block at the same height. -/
theorem heightsRight_checkTransaction_samplePaid :
    ∃ s s', (checkSystem sampleWallet).Reachable s ∧
      checkTransaction sampleWallet s samplePayment Uint256.zero 1 = some s' ∧
        HeightsRight s' (txHash sampleWallet.toPlatform samplePayment) 1 := by
  obtain ⟨s, wtx, hreach, hmem, hhash, hheight⟩ := samplePaid_stored
  obtain ⟨s', hstep, hiff⟩ := @heightsRight_checkTransaction_iff _ _ hreach
    (samplePaid 1) _ hmem hhash
  exact ⟨s, s', hreach, hstep, hiff.mpr hheight.symm⟩

/-- At height 2 the stored transaction stays at height 1. -/
theorem not_heightsRight_checkTransaction :
    ¬ ∀ (s s' : Loaded) (item : BlockTx) (wtx : Wtx), (checkSystem sampleWallet).Reachable s →
      wtx ∈ s.wallet.vecWtxes → wtx.txHashCache = txHash sampleWallet.toPlatform item.tx →
      item.height ≠ wtx.height →
      checkTransaction sampleWallet s item.tx item.blockhash item.height = some s' →
        HeightsRight s' (txHash sampleWallet.toPlatform item.tx) item.height := by
  intro hall
  obtain ⟨s, wtx, hreach, hmem, hhash, hheight⟩ := samplePaid_stored
  have hother : (samplePaid 2).height ≠ wtx.height := by
    rw [hheight]
    decide
  have hright := hall s _ (samplePaid 2) wtx hreach hmem hhash hother
    (checkTransaction_of_stored hmem hhash)
  exact hother (hright.stored wtx hmem hhash).symm

end Wallet

end Libdogecoin
