/-
# The transactions of a watched address

A watcher counts the transactions that are stored for it, which is the first watcher that their
outputs find. The transactions of an address are all the stored ones with an output to it.

* `tallied_of_reach` : what the counts count, if the watchers come first;
* `txCountsRight_iff` : when they are the numbers of the transactions of the addresses.
-/
import Libdogecoin.P2pkhAttribution

namespace Libdogecoin

/-- A test that implies another one counts as many, if the other one implies it. -/
theorem countP_eq_countP_iff {α : Type} {l : List α} {p q : α → Bool}
    (h : ∀ x ∈ l, p x = true → q x = true) :
    l.countP p = l.countP q ↔ ∀ x ∈ l, q x = true → p x = true := by
  induction l with
  | nil => exact iff_of_true rfl fun x hx => absurd hx List.not_mem_nil
  | cons x l ih =>
    have hrest : ∀ y ∈ l, p y = true → q y = true := fun y hy => h y (List.mem_cons_of_mem x hy)
    have hle : l.countP p ≤ l.countP q := List.countP_mono_left hrest
    have hhead := h x List.mem_cons_self
    rw [List.countP_cons, List.countP_cons, List.forall_mem_cons, ← ih hrest]
    cases hp : p x with
    | true =>
      rw [hhead hp]
      simp
    | false =>
      cases q x with
      | true =>
        -- `q` counts this item, and nothing makes up for it
        simp only [Bool.false_eq_true, if_false, if_true, imp_false, not_true_eq_false,
          false_and, iff_false]
        omega
      | false => simp

namespace SmpvClient

variable {kp : KeyPlatform} {n : ℕ}

/-! ## The transactions of an address -/

/-- `smpv_tx_matches_address`. -/
def txMatchesAddress (kp : KeyPlatform) (c : SmpvClient) (tx : Tx) (address : Bytes) : Bool :=
  tx.vout.any fun out =>
    if out.scriptPubkey.length = 0 then false
    else txOutPubkeyHashToP2pkhAddress kp out c.isMainnet = some address

/-- `dogecoin_smpv_get_address_txs`. -/
def getAddressTxs (kp : KeyPlatform) (c : SmpvClient) (address : Bytes) : List SmpvTx :=
  c.mempoolTxs.filter fun smpvTx => smpvTx.decodedTx.any fun tx => c.txMatchesAddress kp tx address

/-- The watchers are added before a transaction is stored, and none is removed. -/
def SetUpFirst (kp : KeyPlatform) (c : SmpvClient) (call : Call) : Prop :=
  Counted kp c call ∧
    match call with
    | .addWatcher _ => c.mempoolTxs = []
    | .removeWatcher _ => False
    | _ => True

/-- The count of each watcher is the number of transactions of its address. -/
def TxCountsRight (kp : KeyPlatform) (c : SmpvClient) : Prop :=
  ∀ w ∈ c.watchers, w.txCount.toNat = (c.getAddressTxs kp w.address).length

/-- A stored transaction has an output to a watched address. -/
def PaysWatched (kp : KeyPlatform) (c : SmpvClient) (smpvTx : SmpvTx) (address : Bytes) : Prop :=
  address ∈ c.addresses ∧ (smpvTx.decodedTx.any fun tx => c.txMatchesAddress kp tx address) = true

/-- It pays to one watched address at most. -/
def OneWatched (kp : KeyPlatform) (c : SmpvClient) (smpvTx : SmpvTx) : Prop :=
  ∀ address address', c.PaysWatched kp smpvTx address → c.PaysWatched kp smpvTx address' →
    address = address'

/-! ## The watcher of an output -/

/-- All watchers are active and have addresses that pass the check. -/
def Active (c : SmpvClient) : Prop := ∀ w ∈ c.watchers, w.isActive = true ∧
    isAddressString w.address = true

variable {c : SmpvClient} {address : Bytes} {tx : Tx}

/-- **The watcher** of an output is the one with its address. -/
theorem watcherOf_iff (hc : c.Inv) (hactive : c.Active) {out : TxOut} :
    c.watcherOf kp out = some address ↔ out.scriptPubkey.length ≠ 0 ∧
      txOutPubkeyHashToP2pkhAddress kp out c.isMainnet = some address ∧ address ∈ c.addresses := by
  constructor
  · intro h
    have hout := watcherOf_eq_some hc h
    unfold watcherOf at h
    have hempty : ¬out.scriptPubkey.length = 0 := by
      intro hzero
      rw [if_pos hzero] at h
      cases h
    refine ⟨hempty, hout, ?_⟩
    rw [if_neg hempty, hout, Option.bind_some] at h
    split_ifs at h with hindex
    · obtain ⟨w, hw, haddress⟩ := Option.bind_eq_some_iff.mp h
      obtain ⟨idx, -, hat⟩ := Option.bind_eq_some_iff.mp hw
      have hfound := (Option.ite_none_right_eq_some.mp haddress).2
      exact List.mem_map.mpr ⟨w, List.mem_of_getElem? hat, Option.some.inj hfound⟩
    · obtain ⟨w, hw, haddress⟩ := Option.map_eq_some_iff.mp h
      exact List.mem_map.mpr ⟨w, List.mem_of_find?_eq_some hw, haddress⟩
  · rintro ⟨hempty, hout, hmem⟩
    obtain ⟨i, hi, hat⟩ := List.getElem_of_mem hmem
    have hkey : c.addresses[i]? = some address := by rw [List.getElem?_eq_getElem hi, hat]
    have hfind := hc.watchers.find_eq_some_iff.mpr hkey
    have hindex : c.watcherIndex ≠ [] := by
      intro hnil
      rw [hnil] at hfind
      cases hfind
    obtain ⟨w, hw, haddress⟩ : ∃ w, c.watchers[i]? = some w ∧ w.address = address := by
      rw [addresses, List.getElem?_map] at hkey
      exact Option.map_eq_some_iff.mp hkey
    unfold watcherOf
    rw [if_neg hempty, hout, Option.bind_some, if_pos hindex, hfind, Option.bind_some, hw,
      Option.bind_some, if_pos (hactive w (List.mem_of_getElem? hw)).1, haddress]

/-- Only the addresses and the chain matter. -/
theorem relevantAddress_congr {c c' : SmpvClient} (hc : c.Inv) (hactive : c.Active) (hc' : c'.Inv)
    (hactive' : c'.Active) (haddresses : c'.addresses = c.addresses)
    (hchain : c'.chainParams = c.chainParams) :
    c'.relevantAddress kp = c.relevantAddress kp := by
  have hmain : c'.isMainnet = c.isMainnet := by rw [isMainnet, isMainnet, hchain]
  have hwatcher : c'.watcherOf kp = c.watcherOf kp := by
    funext out
    apply Option.ext
    intro address
    rw [watcherOf_iff hc' hactive', watcherOf_iff hc hactive, haddresses, hmain]
  funext tx
  rw [relevantAddress_eq, relevantAddress_eq, hwatcher]

/-- A transaction matches an address that is watched, if an output finds the watcher. -/
theorem txMatchesAddress_iff (hc : c.Inv) (hactive : c.Active) (hmem : address ∈ c.addresses) :
    c.txMatchesAddress kp tx address = true ↔ ∃ out ∈ tx.vout, c.watcherOf kp out =
      some address := by
  unfold txMatchesAddress
  rw [List.any_eq_true]
  apply exists_congr
  intro out
  apply and_congr_right
  intro _
  rw [watcherOf_iff hc hactive]
  by_cases hempty : out.scriptPubkey.length = 0
  · simp [hempty]
  · simp [hempty, hmem]

/-- The transaction is stored for a watcher that it matches. -/
theorem matches_of_relevantAddress (hc : c.Inv) (hactive : c.Active)
    (h : c.relevantAddress kp tx = some address) :
    address ∈ c.addresses ∧ c.txMatchesAddress kp tx address = true := by
  rw [relevantAddress_eq, Option.filter_eq_some_iff] at h
  obtain ⟨out, hout, hwatched⟩ := List.exists_of_findSome?_eq_some h.1
  have hmem := ((watcherOf_iff hc hactive).mp hwatched).2.2
  exact ⟨hmem, (txMatchesAddress_iff hc hactive hmem).mpr ⟨out, hout, hwatched⟩⟩

/-- What matches a watched address is stored for some watcher. -/
theorem relevantAddress_of_matches (hc : c.Inv) (hactive : c.Active) (hmem : address ∈ c.addresses)
    (h : c.txMatchesAddress kp tx address = true) : ∃ first, c.relevantAddress kp tx =
    some first := by
  obtain ⟨out, hout, hwatched⟩ := (txMatchesAddress_iff hc hactive hmem).mp h
  have hsome : (tx.vout.findSome? (c.watcherOf kp)).isSome = true := by
    rw [List.findSome?_isSome_iff]
    exact ⟨out, hout, by rw [hwatched]; rfl⟩
  obtain ⟨first, hfirst⟩ := Option.isSome_iff_exists.mp hsome
  obtain ⟨out', -, hwatched'⟩ := List.exists_of_findSome?_eq_some hfirst
  obtain ⟨w, hw, haddress⟩ := List.mem_map.mp ((watcherOf_iff hc hactive).mp hwatched').2.2
  refine ⟨first, ?_⟩
  rw [relevantAddress_eq, hfirst, Option.filter_eq_some_iff]
  exact ⟨rfl, haddress ▸ (hactive w hw).2⟩

/-! ## What a count counts -/

/-- The transactions as they were decoded. -/
def decoded (c : SmpvClient) : List (Option Tx) := c.mempoolTxs.map SmpvTx.decodedTx

/-- The number of transactions that are stored for an address. -/
def storedFor (kp : KeyPlatform) (c : SmpvClient) (address : Bytes) : ℕ :=
  c.decoded.countP fun tx => tx.bind (c.relevantAddress kp) = some address

/-- Each watcher counts the transactions that are stored for it. -/
structure Tallied (kp : KeyPlatform) (c : SmpvClient) : Prop where
  inv : c.Inv
  fits : c.Fits
  active : c.Active
  counts : ∀ w ∈ c.watchers, w.txCount.toNat = c.storedFor kp w.address

/-- The counts stay, where neither the watchers nor the decoded transactions change. -/
theorem Tallied.congr {c' : SmpvClient} (hc : c.Tallied kp) (hinv : c'.Inv) (hfits : c'.Fits)
    (hwatchers : c'.watchers = c.watchers) (hchain : c'.chainParams = c.chainParams)
    (hdecoded : c'.decoded = c.decoded) : c'.Tallied kp := by
  have hactive : c'.Active := by
    unfold Active
    rw [hwatchers]
    exact hc.active
  have haddresses : c'.addresses = c.addresses := by rw [addresses, addresses, hwatchers]
  have hrelevant := @relevantAddress_congr kp _ _ hc.inv hc.active hinv hactive haddresses hchain
  refine ⟨hinv, hfits, hactive, ?_⟩
  rw [hwatchers]
  intro w hw
  rw [hc.counts w hw, storedFor, storedFor, hdecoded, hrelevant]

/-- What `add_watcher` can do: nothing, or add a watcher at the end. -/
theorem addWatcher_cases (c : SmpvClient) (address : Bytes) :
    (c.addWatcher address).1 = c ∨ (isAddressString address = true ∧
      (c.addWatcher address).1 = { c with
        watchers := c.watchers ++ [⟨address, 0, 0, 0, 0, true⟩]
        watcherIndex := PositionIndex.assign c.watcherIndex address c.watchers.length }) := by
  unfold SmpvClient.addWatcher
  dsimp only
  generalize (if c.watcherIndex ≠ [] then (PositionIndex.find c.watcherIndex address).isSome
    else (PositionIndex.scan c.addresses address).isSome) = watching
  cases watching with
  | true => exact Or.inl rfl
  | false =>
    cases hcheck : isAddressString address with
    | false => exact Or.inl rfl
    | true => exact Or.inr ⟨rfl, rfl⟩

/-- Without transactions none is stored for an address. -/
theorem storedFor_of_empty (hempty : c.mempoolTxs = []) (address : Bytes) :
    c.storedFor kp address = 0 := by
  rw [storedFor, decoded, hempty]
  rfl

/-- A watcher comes in before the transactions. -/
theorem Tallied.addWatcher (hc : c.Tallied kp) (hempty : c.mempoolTxs = []) (address : Bytes)
    (hfits : (c.addWatcher address).1.Fits) : (c.addWatcher address).1.Tallied kp := by
  have hinv := inv_addWatcher hc.inv address
  rcases addWatcher_cases c address with hsame | ⟨haddress, hadded⟩
  · rw [hsame]
    exact hc
  · have hwatchers : (c.addWatcher address).1.watchers =
      c.watchers ++ [⟨address, 0, 0, 0, 0, true⟩] := by
      rw [hadded]
    have htxs : (c.addWatcher address).1.mempoolTxs = [] := by
      rw [hadded]
      exact hempty
    refine ⟨hinv, hfits, ?_, ?_⟩
    · intro w hw
      rw [hwatchers] at hw
      rcases List.mem_append.mp hw with hold | hnew
      · exact hc.active w hold
      · obtain rfl := List.mem_singleton.mp hnew
        exact ⟨rfl, haddress⟩
    · -- no transaction is stored for any watcher
      intro w hw
      rw [hwatchers] at hw
      rw [storedFor_of_empty htxs]
      rcases List.mem_append.mp hw with hold | hnew
      · rw [hc.counts w hold, storedFor_of_empty hempty]
      · obtain rfl := List.mem_singleton.mp hnew
        rfl

/-- What `process_tx` can do, with the address that a transaction is stored for. -/
theorem processTx_stores (kp : KeyPlatform) (c : SmpvClient) (rawTxHex : List Char) :
    (c.processTx kp rawTxHex).1 = c ∨
      ∃ address, (newTx kp rawTxHex).decodedTx.bind (c.relevantAddress kp) = some address ∧
        (c.processTx kp rawTxHex).1 = c.storeTx (newTx kp rawTxHex) address := by
  rcases processTx_cases kp c rawTxHex with hsame | ⟨address, -, hrelevant, hstore⟩
  · exact Or.inl hsame
  · exact Or.inr ⟨address, hrelevant, hstore⟩

/-- The watchers behind a store: the one with the address counts one more. -/
theorem watchers_storeTx (hc : c.Inv) (smpvTx : SmpvTx) (hmem : address ∈ c.addresses) :
    (c.storeTx smpvTx address).watchers =
      c.watchers.map fun w => if w.address = address then SmpvWatcher.countTx w else w := by
  obtain ⟨i, hi, hat⟩ := List.getElem_of_mem hmem
  have hget : c.getWatcher address = some i := by
    rw [getWatcher, hc.watchers.lookup_eq_scan, PositionIndex.scan_eq_some_iff hc.watchers.distinct,
      List.getElem?_eq_getElem hi, hat]
  unfold storeTx
  dsimp only
  have hget' : ∀ (txs : List SmpvTx) (lookup index : PositionIndex.Index (List Char))
    (bytes : UInt64) (n : UInt32),
      getWatcher { c with
        mempoolTxs := txs, txLookup := lookup, txIndex := index, totalBytes := bytes
        unconfirmedCount := n } address = some i := fun _ _ _ _ _ => hget
  rw [hget']
  dsimp only
  apply List.ext_getElem?
  intro j
  rw [List.getElem?_map, List.getElem?_modify]
  cases hj : c.watchers[j]? with
  | none => rfl
  | some w =>
    have hkey : c.addresses[j]? = some w.address := by rw [addresses, List.getElem?_map, hj]; rfl
    have hsame : i = j ↔ w.address = address := by
      constructor
      · rintro rfl
        rw [List.getElem?_eq_getElem hi, hat] at hkey
        exact (Option.some.inj hkey).symm
      · rintro rfl
        have hfind := (PositionIndex.scan_eq_some_iff hc.watchers.distinct).mpr hkey
        have hscan := (PositionIndex.scan_eq_some_iff hc.watchers.distinct).mpr
          (by rw [List.getElem?_eq_getElem hi, hat] : c.addresses[i]? = some w.address)
        exact Option.some.inj (hscan.symm.trans hfind)
    show some (if i = j then SmpvWatcher.countTx w else w) =
      some (if w.address = address then SmpvWatcher.countTx w else w)
    simp only [hsame]

/-- What else a store leaves and adds. -/
theorem storeTx_frame (c : SmpvClient) (smpvTx : SmpvTx) (address : Bytes) :
    (c.storeTx smpvTx address).chainParams = c.chainParams ∧
      (c.storeTx smpvTx address).mempoolTxs = c.mempoolTxs ++ [smpvTx] := by
  unfold storeTx
  dsimp only
  split
  · exact ⟨rfl, rfl⟩
  · exact ⟨rfl, rfl⟩

/-- An item that takes the place of one with its value. -/
theorem map_set_of_eq {α β : Type} {f : α → β} {l : List α} {i : ℕ} {x x' : α} (hx : l[i]? = some x)
    (hf : f x' = f x) :
    (l.set i x').map f = l.map f := by
  obtain ⟨hi, rfl⟩ := List.getElem?_eq_some_iff.mp hx
  rw [List.map_set, hf, ← List.getElem_map f (h := by rwa [List.length_map]), List.set_getElem_self]

/-- A new status leaves the transaction. -/
theorem decodedTx_setStatus (confirmed : Bool) (blockHash : Option (List Char))
    (blockHeight : UInt32) (tx : SmpvTx) :
    (SmpvTx.setStatus confirmed blockHash blockHeight tx).decodedTx = tx.decodedTx := by
  unfold SmpvTx.setStatus
  split_ifs
  · rfl
  · rfl

/-- So does a new tip, and the id. -/
theorem atTip_frame (tipHeight : UInt32) (tx : SmpvTx) :
    (SmpvTx.atTip tipHeight tx).decodedTx = tx.decodedTx ∧
    (SmpvTx.atTip tipHeight tx).txid = tx.txid := by
  unfold SmpvTx.atTip
  split_ifs
  · exact ⟨rfl, rfl⟩
  · exact ⟨rfl, rfl⟩
  · exact ⟨rfl, rfl⟩

/-- **A transaction is stored** for a watcher, which counts it. -/
theorem Tallied.storeTx (hc : c.Tallied kp) {smpvTx : SmpvTx}
    (hrelevant : smpvTx.decodedTx.bind (c.relevantAddress kp) = some address)
    (hinv : (c.storeTx smpvTx address).Inv) (hfits : (c.storeTx smpvTx address).Fits) :
    (c.storeTx smpvTx address).Tallied kp := by
  obtain ⟨tx, -, hfound⟩ := Option.bind_eq_some_iff.mp hrelevant
  obtain ⟨hmem, -⟩ := matches_of_relevantAddress hc.inv hc.active hfound
  have hwatchers := watchers_storeTx hc.inv smpvTx hmem
  obtain ⟨hchain, htxs⟩ := storeTx_frame c smpvTx address
  have hfields : ∀ w : SmpvWatcher,
    (if w.address = address then SmpvWatcher.countTx w else w).address = w.address ∧
      (if w.address = address then SmpvWatcher.countTx w else w).isActive = w.isActive := by
    intro w
    split_ifs
    · exact ⟨rfl, rfl⟩
    · exact ⟨rfl, rfl⟩
  have hactive : (c.storeTx smpvTx address).Active := by
    intro w' hw'
    rw [hwatchers] at hw'
    obtain ⟨w, hw, rfl⟩ := List.mem_map.mp hw'
    rw [(hfields w).1, (hfields w).2]
    exact hc.active w hw
  have haddresses : (c.storeTx smpvTx address).addresses = c.addresses := by
    rw [addresses, addresses, hwatchers, List.map_map]
    exact List.map_congr_left fun w _ => (hfields w).1
  have hsame := @relevantAddress_congr kp _ _ hc.inv hc.active hinv hactive haddresses hchain
  have hroom := hfits.2
  rw [htxs, List.length_append, List.length_singleton] at hroom
  refine ⟨hinv, hfits, hactive, ?_⟩
  intro w' hw'
  rw [hwatchers] at hw'
  obtain ⟨w, hw, rfl⟩ := List.mem_map.mp hw'
  have hcount : (c.storeTx smpvTx address).storedFor kp w.address =
      c.storedFor kp w.address + if address = w.address then 1 else 0 := by
    rw [storedFor, storedFor, decoded, decoded, htxs, hsame, List.map_append, List.countP_append,
      List.map_singleton, List.countP_singleton, hrelevant]
    simp only [decide_eq_true_eq, Option.some.injEq]
  rw [(hfields w).1, hcount, ← hc.counts w hw]
  by_cases haddress : w.address = address
  · rw [if_pos haddress, if_pos haddress.symm]
    -- a count is at most the length of the array, which has room for one more
    apply toNat_countUp
    have hle : c.storedFor kp w.address ≤ c.mempoolTxs.length := by
      rw [storedFor]
      exact le_trans List.countP_le_length (le_of_eq (List.length_map _))
    rw [hc.counts w hw]
    omega
  · rw [if_neg haddress, if_neg fun h => haddress h.symm, Nat.add_zero]

/-- **One call.** -/
theorem tallied_step {call : Call} (hc : c.Tallied kp) (hguard : SetUpFirst kp c call) :
    (c.call kp call).Tallied kp := by
  obtain ⟨hcounted, hfirst⟩ := hguard
  have hinv := inv_step kp hc.inv hc.fits hcounted
  cases call with
  | addWatcher address => exact hc.addWatcher hfirst address hcounted
  | removeWatcher address => exact absurd hfirst id
  | processTx rawTxHex =>
    unfold Counted at hcounted
    unfold SmpvClient.call at hcounted hinv ⊢
    dsimp only at hcounted hinv ⊢
    rcases processTx_stores kp c rawTxHex with hsame | ⟨address, hrelevant, hstore⟩
    · rw [hsame]
      exact hc
    · rw [hstore] at hcounted hinv ⊢
      exact hc.storeTx hrelevant hinv hcounted
  | updateTxStatus txid confirmed blockHash blockHeight =>
    rcases updateTxStatus_cases c txid confirmed blockHash blockHeight with hsame |
      ⟨i, tx, htx, heq⟩
    · show (c.updateTxStatus txid confirmed blockHash blockHeight).Tallied kp
      rw [hsame]
      exact hc
    · have hshape : (c.call kp (.updateTxStatus txid confirmed blockHash blockHeight)) = _ := heq
      refine hc.congr hinv hcounted ?_ ?_ ?_
      · rw [hshape]
      · rw [hshape]
      · rw [hshape]
        exact map_set_of_eq htx (decodedTx_setStatus confirmed blockHash blockHeight tx)
  | tipUpdate tipHeight =>
    refine hc.congr hinv hcounted rfl rfl ?_
    show (c.mempoolTxs.map (SmpvTx.atTip tipHeight)).map SmpvTx.decodedTx =
      c.mempoolTxs.map SmpvTx.decodedTx
    rw [List.map_map]
    apply List.map_congr_left
    intro tx _
    exact (atTip_frame tipHeight tx).1

/-- **Any calls**, the watchers first. -/
theorem tallied_of_reach (h : (system kp).Reach (SetUpFirst kp) c) : c.Tallied kp := by
  apply h.invariant
  · rintro s ⟨chainParams, rfl⟩
    refine ⟨inv_new chainParams, ⟨Nat.two_pow_pos 32, Nat.two_pow_pos 32⟩, ?_, ?_⟩
    · exact fun w hw => absurd hw List.not_mem_nil
    · exact fun w hw => absurd hw List.not_mem_nil
  · rintro s call s' hs hguard hstep
    obtain rfl := Option.some.inj hstep
    exact tallied_step hs hguard

/-! ## Counts and searches -/

/-- A transaction that pays to one watched address is stored for it. -/
theorem oneWatched_iff (hc : c.Tallied kp) (smpvTx : SmpvTx) :
    c.OneWatched kp smpvTx ↔ ∀ address, c.PaysWatched kp smpvTx address →
      smpvTx.decodedTx.bind (c.relevantAddress kp) = some address := by
  constructor
  · intro hone address hpays
    obtain ⟨hmem, hany⟩ := hpays
    obtain ⟨tx, htx, hmatches⟩ := (Option.any_eq_true _ _).mp hany
    -- it is stored for some watcher that it matches, and there is one only
    obtain ⟨first, hfirst⟩ := relevantAddress_of_matches hc.inv hc.active hmem hmatches
    obtain ⟨hfirstMem, hfirstMatches⟩ := matches_of_relevantAddress hc.inv hc.active hfirst
    have hfirstAny : (smpvTx.decodedTx.any fun tx => c.txMatchesAddress kp tx first) = true :=
      (Option.any_eq_true _ _).mpr ⟨tx, htx, hfirstMatches⟩
    rw [htx, Option.bind_some, hfirst, hone first address ⟨hfirstMem, hfirstAny⟩ ⟨hmem, hany⟩]
  · intro hstored address address' hpays hpays'
    exact Option.some.inj ((hstored address hpays).symm.trans (hstored address' hpays'))

/-- **The counts of the watchers** are the numbers of transactions that the search finds for their
addresses, in every state of a run in which the watchers come first and stay, exactly if no stored
transaction pays to two of them. -/
theorem txCountsRight_iff {c : SmpvClient} (h : (system kp).Reach (SetUpFirst kp) c) :
    TxCountsRight kp c ↔ ∀ smpvTx ∈ c.mempoolTxs, c.OneWatched kp smpvTx := by
  have hc := tallied_of_reach h
  -- for one watcher the counts agree if what matches is stored for it
  have hwatcher : ∀ w ∈ c.watchers, (w.txCount.toNat = (c.getAddressTxs kp w.address).length ↔
      ∀ smpvTx ∈ c.mempoolTxs, (smpvTx.decodedTx.any fun tx =>
        c.txMatchesAddress kp tx w.address) = true →
        smpvTx.decodedTx.bind (c.relevantAddress kp) = some w.address) := by
    intro w hw
    have hsub : ∀ smpvTx ∈ c.mempoolTxs,
        decide (smpvTx.decodedTx.bind (c.relevantAddress kp) = some w.address) = true →
          (smpvTx.decodedTx.any fun tx => c.txMatchesAddress kp tx w.address) = true := by
      intro smpvTx _ hstored
      obtain ⟨tx, htx, hfound⟩ := Option.bind_eq_some_iff.mp (of_decide_eq_true hstored)
      exact (Option.any_eq_true _ _).mpr
        ⟨tx, htx, (matches_of_relevantAddress hc.inv hc.active hfound).2⟩
    rw [hc.counts w hw, storedFor, decoded, List.countP_map, getAddressTxs,
      ← List.countP_eq_length_filter]
    have hiff := countP_eq_countP_iff hsub
    simp only [decide_eq_true_eq] at hiff
    exact hiff
  constructor
  · intro hright smpvTx hmem
    rw [oneWatched_iff hc]
    rintro address ⟨haddress, hany⟩
    obtain ⟨w, hw, rfl⟩ := List.mem_map.mp haddress
    exact (hwatcher w hw).mp (hright w hw) smpvTx hmem hany
  · intro hone w hw
    rw [hwatcher w hw]
    intro smpvTx hmem hany
    exact (oneWatched_iff hc smpvTx).mp (hone smpvTx hmem) w.address ⟨List.mem_map_of_mem hw, hany⟩

/-! ## A payment to two addresses -/

/-- The address of a hash of one repeated byte. -/
def sampleAddress (b : UInt8) : Bytes :=
  base58Wallet.p2pkhAddrFromHash160 (Wallet.sampleHash160 b) keyParamsMain

/-- A transaction that pays to two addresses, as a peer sends it. -/
def twoPaymentsHex : List Char :=
  utilsUint8ToHex (txSerialize (Wallet.sampleTx 0x10000 ⟨Uint256.zero, 3⟩
    [⟨5, p2pkhScript (Wallet.sampleHash160 1)⟩, ⟨7, p2pkhScript (Wallet.sampleHash160 2)⟩]))

/-- Neither array holds more than `n` items. -/
def Within (n : ℕ) (c : SmpvClient) : Prop := c.watchers.length ≤ n ∧ c.mempoolTxs.length ≤ n

theorem within_new (chainParams : KeyParams) : (new chainParams).Within 0 := ⟨le_refl _, le_refl _⟩

theorem Within.fits (hc : c.Within n) (hn : n < 2 ^ 32) : c.Fits :=
  ⟨lt_of_le_of_lt hc.1 hn, lt_of_le_of_lt hc.2 hn⟩

/-- **A call** adds at most one item to each array. -/
theorem Within.call (hc : c.Within n) (kp : KeyPlatform) (call : Call) :
    (c.call kp call).Within (n + 1) := by
  obtain ⟨hwatchers, htxs⟩ := hc
  have hsame : c.Within (n + 1) := ⟨Nat.le_succ_of_le hwatchers, Nat.le_succ_of_le htxs⟩
  cases call with
  | addWatcher address =>
    show (c.addWatcher address).1.Within (n + 1)
    rcases addWatcher_cases c address with heq | ⟨-, hadded⟩
    · rw [heq]
      exact hsame
    · rw [hadded]
      refine ⟨?_, hsame.2⟩
      show (c.watchers ++ [_]).length ≤ n + 1
      rw [List.length_append]
      exact Nat.succ_le_succ hwatchers
  | removeWatcher address =>
    show (c.removeWatcher address).1.Within (n + 1)
    unfold removeWatcher
    split
    · exact hsame
    · exact ⟨(List.length_eraseIdx_le _ _).trans hsame.1, hsame.2⟩
  | processTx rawTxHex =>
    show (c.processTx kp rawTxHex).1.Within (n + 1)
    rcases processTx_stores kp c rawTxHex with heq | ⟨address, -, hstored⟩
    · rw [heq]
      exact hsame
    · rw [hstored]
      refine ⟨?_, ?_⟩
      · -- a watcher is counted up where it is
        unfold storeTx
        dsimp only
        split
        · exact hsame.1
        · rw [List.length_modify]
          exact hsame.1
      · rw [(storeTx_frame c _ address).2, List.length_append]
        exact Nat.succ_le_succ htxs
  | updateTxStatus txid confirmed blockHash blockHeight =>
    show (c.updateTxStatus txid confirmed blockHash blockHeight).Within (n + 1)
    unfold updateTxStatus
    split
    · exact hsame
    · refine ⟨hsame.1, ?_⟩
      rw [List.length_set]
      exact hsame.2
  | tipUpdate tipHeight =>
    refine ⟨hsame.1, ?_⟩
    show (c.mempoolTxs.map _).length ≤ n + 1
    rw [List.length_map]
    exact hsame.2

/-- A client that watches the first of them, and the transaction. -/
def oneWatcher : SmpvClient :=
  ((new keyParamsMain).call base58Wallet.toKeyPlatform (.addWatcher (sampleAddress 1))).call
    base58Wallet.toKeyPlatform (.processTx twoPaymentsHex)

/-- A client that watches both. -/
def twoWatchers : SmpvClient :=
  (((new keyParamsMain).call base58Wallet.toKeyPlatform (.addWatcher (sampleAddress 1))).call
    base58Wallet.toKeyPlatform (.addWatcher (sampleAddress 2))).call base58Wallet.toKeyPlatform
      (.processTx twoPaymentsHex)

theorem oneWatcher_reach : (system base58Wallet.toKeyPlatform).Reach
    (SetUpFirst base58Wallet.toKeyPlatform) oneWatcher := by
  have hone := (within_new keyParamsMain).call base58Wallet.toKeyPlatform
    (.addWatcher (sampleAddress 1))
  have htwo := hone.call base58Wallet.toKeyPlatform (.processTx twoPaymentsHex)
  have hfirst : SetUpFirst base58Wallet.toKeyPlatform (new keyParamsMain)
    (.addWatcher (sampleAddress 1)) :=
    ⟨hone.fits (by decide), rfl⟩
  have hsecond : SetUpFirst base58Wallet.toKeyPlatform
    ((new keyParamsMain).call base58Wallet.toKeyPlatform
      (.addWatcher (sampleAddress 1))) (.processTx twoPaymentsHex) :=
    ⟨htwo.fits (by decide), trivial⟩
  exact .step (.step (.init ⟨keyParamsMain, rfl⟩) hfirst rfl) hsecond rfl

theorem twoWatchers_reach :
    (system base58Wallet.toKeyPlatform).Reach
    (SetUpFirst base58Wallet.toKeyPlatform) twoWatchers := by
  have hone := (within_new keyParamsMain).call base58Wallet.toKeyPlatform
    (.addWatcher (sampleAddress 1))
  have htwo := hone.call base58Wallet.toKeyPlatform (.addWatcher (sampleAddress 2))
  have hthree := htwo.call base58Wallet.toKeyPlatform (.processTx twoPaymentsHex)
  have hfirst : SetUpFirst base58Wallet.toKeyPlatform (new keyParamsMain)
    (.addWatcher (sampleAddress 1)) :=
    ⟨hone.fits (by decide), rfl⟩
  have hsecond : SetUpFirst base58Wallet.toKeyPlatform
    ((new keyParamsMain).call base58Wallet.toKeyPlatform
      (.addWatcher (sampleAddress 1))) (.addWatcher (sampleAddress 2)) :=
    ⟨htwo.fits (by decide), by decide +kernel⟩
  have hthird : SetUpFirst base58Wallet.toKeyPlatform
    (((new keyParamsMain).call base58Wallet.toKeyPlatform
      (.addWatcher (sampleAddress 1))).call base58Wallet.toKeyPlatform
        (.addWatcher (sampleAddress 2)))
      (.processTx twoPaymentsHex) :=
    ⟨hthree.fits (by decide), trivial⟩
  exact .step (.step (.step (.init ⟨keyParamsMain, rfl⟩) hfirst rfl) hsecond rfl) hthird rfl

/-- The theorem on the first client, which stores the transaction. -/
theorem txCountsRight_oneWatcher :
    oneWatcher.mempoolTxs.length = 1 ∧ TxCountsRight base58Wallet.toKeyPlatform oneWatcher := by
  refine ⟨by decide +kernel, (txCountsRight_iff oneWatcher_reach).mpr ?_⟩
  have haddresses : oneWatcher.addresses = [sampleAddress 1] := by decide +kernel
  rintro smpvTx - address address' ⟨hmem, -⟩ ⟨hmem', -⟩
  rw [haddresses, List.mem_singleton] at hmem hmem'
  rw [hmem, hmem']

/-- The second client finds the transaction for both addresses, and counts it for one. -/
theorem not_txCountsRight :
    ¬ ∀ c, (system base58Wallet.toKeyPlatform).Reach (SetUpFirst base58Wallet.toKeyPlatform) c →
      TxCountsRight base58Wallet.toKeyPlatform c := by
  intro hall
  have hcounts : (twoWatchers.watchers.all fun w =>
      w.txCount.toNat = (twoWatchers.getAddressTxs base58Wallet.toKeyPlatform w.address).length) =
        false := by
    decide +kernel
  have hright := hall twoWatchers twoWatchers_reach
  rw [Bool.eq_false_iff] at hcounts
  exact hcounts (List.all_eq_true.mpr fun w hw => decide_eq_true (hright w hw))

end SmpvClient

end Libdogecoin
