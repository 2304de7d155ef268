/-
# The ids of the stored transactions

A transaction is stored under the double hash of the bytes that came with it, and a block confirms
it under the double hash of the bytes in the block. `dogecoin_tx_hash` hashes what the transaction
serializes to. The reader takes more than that: bytes behind the transaction, a witness, counts in a
long form.

* `txid_processTx_iff` : when the id of a new entry is the hash of the transaction;
* `idsRight_of_reach` : what the ids are good for, if the bytes of every call hash as their
  transactions.
-/
import Libdogecoin.SmpvCounts

namespace Libdogecoin

/-- The text of a hash says the hash. -/
theorem hashToString_injective {h h' : Uint256} (heq : hashToString h = hashToString h') :
    h = h' := by
  rw [hashToString, hashToString, utilsReverseHex_hex, utilsReverseHex_hex] at heq
  exact Subtype.ext (List.reverse_inj.mp (hex_injective heq))

theorem hashToString_inj {h h' : Uint256} : hashToString h = hashToString h' ↔ h = h' :=
  ⟨hashToString_injective, fun heq => by rw [heq]⟩

namespace SmpvClient

variable {kp : KeyPlatform} {tx : Tx} {e : SmpvTx} {rawTxHex : List Char}

/-! ## Bytes and transactions -/

/-- Two different strings with one double hash. -/
def Collides (kp : KeyPlatform) (bs bs' : Bytes) : Prop := bs ≠ bs' ∧ kp.sha256d bs = kp.sha256d bs'

/-- The bytes that a transaction was read from are the ones that it serializes to, or collide with
them. -/
def HashesAs (kp : KeyPlatform) (bs : Bytes) (tx : Tx) : Prop :=
  bs = txSerialize tx ∨ Collides kp bs (txSerialize tx)

theorem hashesAs_iff {bs : Bytes} :
    HashesAs kp bs tx ↔ kp.sha256d bs = txHash kp.toPlatform tx := by
  constructor
  · rintro (rfl | ⟨-, hcollide⟩)
    · rfl
    · exact hcollide
  · intro hhash
    by_cases hbytes : bs = txSerialize tx
    · exact Or.inl hbytes
    · exact Or.inr ⟨hbytes, hhash⟩

/-! ## Stored transactions -/

/-- The transaction that `dogecoin_smpv_get_tx` points to. -/
def txAt (c : SmpvClient) (txid : List Char) :
    Option SmpvTx := (c.getTx txid).bind fun i => c.mempoolTxs[i]?

/-- The id that the loop over the transactions of a block updates, with what is left of the block
behind the transaction. -/
def blockTxid (kp : KeyPlatform) (buf rest : Bytes) : List Char :=
  hashToString (kp.sha256d (buf.take (buf.length - rest.length)))

/-- The calls where the bytes of a transaction that pays to a watched address hash as the
transaction does. -/
def Canonical (kp : KeyPlatform) (c : SmpvClient) (call : Call) : Prop :=
  Counted kp c call ∧
    match call with
    | .processTx rawTxHex => ∀ tx, smpvDecodeTx rawTxHex = some tx →
        (c.relevantAddress kp tx).isSome = true →
        HashesAs kp (utilsHexToBin rawTxHex) tx
    | _ => True

/-- What the ids of the stored transactions are good for. -/
structure IdsRight (kp : KeyPlatform) (c : SmpvClient) : Prop where
  /-- Each is the hash of the transaction. -/
  ids : ∀ e ∈ c.mempoolTxs, ∃ tx, e.decodedTx = some tx ∧
    e.txid = hashToString (txHash kp.toPlatform tx)
  /-- No transaction is stored twice. -/
  distinct : c.decoded.Nodup
  /-- A block finds the entry of its transaction. -/
  found : ∀ e ∈ c.mempoolTxs, ∀ tx buf rest, e.decodedTx = some tx → txDeserialize buf =
    some (tx, rest) →
    (c.txAt (blockTxid kp buf rest) = some e ↔ HashesAs kp (buf.take (buf.length - rest.length)) tx)

variable {c : SmpvClient}

/-- **A search finds** the entry with the id. -/
theorem txAt_eq_some_iff (hc : c.Inv) (he : e ∈ c.mempoolTxs) {txid : List Char} :
    c.txAt txid = some e ↔ e.txid = txid := by
  have hfound : ∀ i, c.getTx txid = some i ↔ c.txids[i]? = some txid := by
    intro i
    rw [getTx, hc.txs.lookup_eq_scan, PositionIndex.scan_eq_some_iff hc.txs.distinct]
  constructor
  · intro h
    obtain ⟨i, hi, hat⟩ := Option.bind_eq_some_iff.mp h
    have hkey := (hfound i).mp hi
    rw [txids, List.getElem?_map, hat] at hkey
    exact Option.some.inj hkey
  · rintro rfl
    obtain ⟨i, hi, hat⟩ := List.getElem_of_mem he
    have hget : c.mempoolTxs[i]? = some e := by rw [List.getElem?_eq_getElem hi, hat]
    have hkey : c.getTx e.txid = some i := by
      rw [hfound, txids, List.getElem?_map, hget]
      rfl
    rw [txAt, hkey, Option.bind_some, hget]

/-- What is stored is a new transaction that was decoded. -/
theorem processTx_stored (h : (c.processTx kp rawTxHex).1.mempoolTxs = c.mempoolTxs ++ [e]) :
    e = newTx kp rawTxHex ∧ ∃ tx, e.decodedTx = some tx := by
  rcases processTx_stores kp c rawTxHex with hsame | ⟨address, hrelevant, hstore⟩
  · -- nothing was stored, so the array did not grow
    rw [hsame] at h
    have hlen := congrArg List.length h
    rw [List.length_append, List.length_singleton] at hlen
    omega
  · rw [hstore, (storeTx_frame c _ address).2] at h
    have hnew : e = newTx kp rawTxHex := (List.singleton_inj.mp (List.append_cancel_left h)).symm
    obtain ⟨tx, htx, -⟩ := Option.bind_eq_some_iff.mp hrelevant
    exact ⟨hnew, tx, hnew ▸ htx⟩

/-- The id of a new entry is the hash of its transaction exactly if the bytes of the message hash as
it does. -/
theorem txid_newTx_iff :
    (newTx kp rawTxHex).txid = hashToString (txHash kp.toPlatform tx) ↔ HashesAs kp
    (utilsHexToBin rawTxHex) tx := by
  rw [hashesAs_iff]
  exact hashToString_inj

/-! ## Runs -/

/-- A value of the entries that a new status and a new tip leave, over one call. -/
theorem map_call {α : Type} {f : SmpvTx → α}
    (hstatus : ∀ confirmed blockHash blockHeight tx,
      f (SmpvTx.setStatus confirmed blockHash blockHeight tx) = f tx)
    (htip : ∀ tipHeight tx, f (SmpvTx.atTip tipHeight tx) = f tx) (c : SmpvClient) (call : Call) :
    (c.call kp call).mempoolTxs.map f = c.mempoolTxs.map f ∨
      ∃ rawTxHex tx, call = .processTx rawTxHex ∧ smpvDecodeTx rawTxHex = some tx ∧
        (c.relevantAddress kp tx).isSome = true ∧
        (c.call kp call).mempoolTxs.map f = c.mempoolTxs.map f ++ [f (newTx kp rawTxHex)] := by
  cases call with
  | addWatcher address =>
    left
    show (c.addWatcher address).1.mempoolTxs.map f = _
    rcases addWatcher_cases c address with hsame | ⟨-, hadded⟩
    · rw [hsame]
    · rw [hadded]
  | removeWatcher address =>
    left
    show (c.removeWatcher address).1.mempoolTxs.map f = _
    unfold SmpvClient.removeWatcher
    cases c.watcherToRemove address with
    | none => rfl
    | some idx => rfl
  | processTx rawTxHex =>
    rcases processTx_stores kp c rawTxHex with hsame | ⟨address, hrelevant, hstore⟩
    · left
      show (c.processTx kp rawTxHex).1.mempoolTxs.map f = _
      rw [hsame]
    · obtain ⟨tx, htx, hfound⟩ := Option.bind_eq_some_iff.mp hrelevant
      right
      refine ⟨rawTxHex, tx, rfl, htx, by rw [hfound]; rfl, ?_⟩
      show (c.processTx kp rawTxHex).1.mempoolTxs.map f = _
      rw [hstore, (storeTx_frame c _ address).2, List.map_append, List.map_singleton]
  | updateTxStatus txid confirmed blockHash blockHeight =>
    left
    show (c.updateTxStatus txid confirmed blockHash blockHeight).mempoolTxs.map f = _
    rcases updateTxStatus_cases c txid confirmed blockHash blockHeight with hsame |
      ⟨i, tx, htx, heq⟩
    · rw [hsame]
    · rw [heq]
      exact map_set_of_eq htx (hstatus confirmed blockHash blockHeight tx)
  | tipUpdate tipHeight =>
    left
    show (c.mempoolTxs.map (SmpvTx.atTip tipHeight)).map f = _
    rw [List.map_map]
    exact List.map_congr_left fun tx _ => htip tipHeight tx

/-- The id of an entry is the hash of its transaction. -/
def Named (kp : KeyPlatform) (entry : List Char × Option Tx) : Prop :=
  ∃ tx, entry.2 = some tx ∧ entry.1 = hashToString (txHash kp.toPlatform tx)

/-- The ids and the transactions that the entries keep. -/
def entries (c : SmpvClient) : List (List Char × Option Tx) := c.mempoolTxs.map fun e =>
    (e.txid, e.decodedTx)

/-- **One call.** -/
theorem named_step {call : Call} (hc : ∀ entry ∈ c.entries, Named kp entry)
    (hcanonical : Canonical kp c call) :
    ∀ entry ∈ (c.call kp call).entries, Named kp entry := by
  have hcall := @map_call kp _ (fun e => (e.txid, e.decodedTx))
    (fun confirmed blockHash blockHeight tx =>
      Prod.ext (txid_setStatus confirmed blockHash blockHeight tx)
      (decodedTx_setStatus confirmed blockHash blockHeight tx))
    (fun tipHeight tx => Prod.ext (atTip_frame tipHeight tx).2 (atTip_frame tipHeight tx).1) c call
  rcases hcall with hsame | ⟨rawTxHex, tx, rfl, htx, hrelevant, happend⟩
  · rw [entries, hsame]
    exact hc
  · rw [entries, happend]
    intro entry hentry
    rcases List.mem_append.mp hentry with hold | hnew
    · exact hc entry hold
    · -- the guard is about the transactions that are stored
      obtain rfl := List.mem_singleton.mp hnew
      exact ⟨tx, htx, txid_newTx_iff.mpr (hcanonical.2 tx htx hrelevant)⟩

/-- **Any calls.** -/
theorem named_of_reach (h : (system kp).Reach (Canonical kp) c) :
    ∀ entry ∈ c.entries, Named kp entry := by
  apply h.invariant
  · rintro s ⟨chainParams, rfl⟩ entry hentry
    exact absurd hentry List.not_mem_nil
  · rintro s call s' hs hcanonical hstep
    obtain rfl := Option.some.inj hstep
    exact named_step hs hcanonical

/-- **The ids after any calls**, if the bytes of every transaction hash as it does. -/
theorem idsRight_of_reach (h : (system kp).Reach (Canonical kp) c) : IdsRight kp c := by
  have hc := (inv_of_reach (h.mono fun _ _ hcanonical => hcanonical.1)).1
  have hids : ∀ e ∈ c.mempoolTxs, ∃ tx, e.decodedTx = some tx ∧
    e.txid = hashToString (txHash kp.toPlatform tx) :=
    fun e he => named_of_reach h _ (List.mem_map_of_mem he)
  refine ⟨hids, ?_, ?_⟩
  · -- entries of one transaction have one id
    have hpair : c.mempoolTxs.Pairwise fun e e' => e.txid ≠ e'.txid :=
      List.pairwise_map.mp hc.txs.distinct
    rw [decoded, List.Nodup, List.pairwise_map]
    refine hpair.imp_of_mem ?_
    intro e e' he he' hne hsame
    obtain ⟨tx, htx, hid⟩ := hids e he
    obtain ⟨tx', htx', hid'⟩ := hids e' he'
    rw [htx, htx'] at hsame
    obtain rfl := Option.some.inj hsame
    exact hne (hid.trans hid'.symm)
  · -- the block looks for the hash of its bytes
    intro e he tx buf rest htx _
    obtain ⟨tx', htx', hid⟩ := hids e he
    obtain rfl := Option.some.inj (htx.symm.trans htx')
    rw [txAt_eq_some_iff hc he, hid, blockTxid, hashToString_inj, hashesAs_iff]
    exact eq_comm

/-- **The id of an entry** that `process_tx` stores is the hash of the decoded transaction, in any
state of the client, exactly if the bytes of the message are what the transaction serializes to, or
collide with it. In a run with such messages only all ids are the hashes, no transaction is stored
twice, and a block finds the entry of its transaction exactly if its bytes are such. -/
theorem txid_processTx_iff :
    (∀ (c : SmpvClient) (rawTxHex : List Char) (e : SmpvTx),
      (c.processTx kp rawTxHex).1.mempoolTxs = c.mempoolTxs ++ [e] →
        ∃ tx, e.decodedTx = some tx ∧
          (e.txid = hashToString (txHash kp.toPlatform tx) ↔
            HashesAs kp (utilsHexToBin rawTxHex) tx)) ∧
      ∀ c, (system kp).Reach (Canonical kp) c → IdsRight kp c := by
  constructor
  · intro c rawTxHex e hstored
    obtain ⟨rfl, tx, htx⟩ := processTx_stored hstored
    exact ⟨tx, htx, txid_newTx_iff⟩
  · intro c h
    exact idsRight_of_reach h

/-! ## A byte behind the transaction -/

/-- A digest that is made of the last bytes. -/
def tailDigest (bs : Bytes) : Uint256 :=
  ⟨(bs.reverse ++ List.replicate 32 0).take 32, by
    rw [List.length_take, List.length_append, List.length_replicate]
    exact Nat.min_eq_left (Nat.le_add_left _ _)⟩

/-- Addresses in Base58, and this digest. -/
def tailKeys : KeyPlatform := { base58Wallet.toKeyPlatform with sha256Raw := tailDigest }

/-- A payment to the first address, as it is serialized. -/
def paymentBytes : Bytes :=
  txSerialize (Wallet.sampleTx 0x10000 ⟨Uint256.zero,
    3⟩ [⟨5, p2pkhScript (Wallet.sampleHash160 1)⟩])

/-- A client that watches the address and gets the payment. -/
def paidClient : SmpvClient :=
  ((new keyParamsMain).call tailKeys (.addWatcher (sampleAddress 1))).call tailKeys
    (.processTx (utilsUint8ToHex paymentBytes))

/-- It gets the payment with a byte behind it. -/
def longClient : SmpvClient :=
  ((new keyParamsMain).call tailKeys (.addWatcher (sampleAddress 1))).call tailKeys
    (.processTx (utilsUint8ToHex (paymentBytes ++ [0])))

/-- It gets both. -/
def twiceClient : SmpvClient := paidClient.call tailKeys
    (.processTx (utilsUint8ToHex (paymentBytes ++ [0])))

theorem paidClient_reach : (system tailKeys).Reach (Canonical tailKeys) paidClient := by
  have hone := (within_new keyParamsMain).call tailKeys (.addWatcher (sampleAddress 1))
  have htwo := hone.call tailKeys (.processTx (utilsUint8ToHex paymentBytes))
  have hfirst : Canonical tailKeys (new keyParamsMain) (.addWatcher (sampleAddress 1)) :=
    ⟨hone.fits (by decide), trivial⟩
  have hsecond : Canonical tailKeys
    ((new keyParamsMain).call tailKeys (.addWatcher (sampleAddress 1)))
      (.processTx (utilsUint8ToHex paymentBytes)) := by
    refine ⟨htwo.fits (by decide), ?_⟩
    intro tx htx _
    have hread : smpvDecodeTx (utilsUint8ToHex paymentBytes) =
        some (Wallet.sampleTx 0x10000 ⟨Uint256.zero,
          3⟩ [⟨5, p2pkhScript (Wallet.sampleHash160 1)⟩]) := by
      decide +kernel
    obtain rfl := Option.some.inj (htx.symm.trans hread)
    exact Or.inl (utilsHexToBin_utilsUint8ToHex _)
  exact .step (.step (.init ⟨keyParamsMain, rfl⟩) hfirst rfl) hsecond rfl

/-- The theorem on the payment as it is serialized. -/
theorem idsRight_paidClient : paidClient.mempoolTxs.length = 1 ∧ IdsRight tailKeys paidClient :=
  ⟨by decide +kernel, txid_processTx_iff.2 paidClient paidClient_reach⟩

/-- With the byte behind it the payment is stored again under another id, or alone under an id that
no block finds. -/
theorem not_txid_processTx :
    (¬ ∀ (c : SmpvClient) (rawTxHex : List Char) (e : SmpvTx),
      (c.processTx tailKeys rawTxHex).1.mempoolTxs = c.mempoolTxs ++ [e] →
        ∃ tx, e.decodedTx = some tx ∧ e.txid = hashToString (txHash tailKeys.toPlatform tx)) ∧
      ¬ twiceClient.decoded.Nodup ∧
      longClient.decoded = [(txDeserialize paymentBytes).map (·.1)] ∧
      (longClient.txAt (blockTxid tailKeys paymentBytes [])).isNone = true := by
  refine ⟨?_, by decide +kernel, by decide +kernel, by decide +kernel⟩
  intro hall
  have hstored : ((paidClient.processTx tailKeys
    (utilsUint8ToHex (paymentBytes ++ [0]))).1.mempoolTxs) =
      paidClient.mempoolTxs ++ [newTx tailKeys (utilsUint8ToHex (paymentBytes ++ [0]))] := by
    rcases processTx_stores tailKeys paidClient (utilsUint8ToHex (paymentBytes ++ [0])) with hsame |
      ⟨address, -, hstore⟩
    · have hlen : (paidClient.processTx tailKeys
        (utilsUint8ToHex (paymentBytes ++ [0]))).1.mempoolTxs.length = 2 := by
        decide +kernel
      have hone : paidClient.mempoolTxs.length = 1 := by decide +kernel
      rw [hsame] at hlen
      omega
    · rw [hstore, (storeTx_frame paidClient _ address).2]
  obtain ⟨tx, htx, hid⟩ := hall paidClient _ _ hstored
  have hbad : ((newTx tailKeys (utilsUint8ToHex (paymentBytes ++ [0]))).decodedTx.all fun tx =>
      (newTx tailKeys (utilsUint8ToHex (paymentBytes ++ [0]))).txid ≠
        hashToString (txHash tailKeys.toPlatform tx)) = true := by
    decide +kernel
  rw [htx, Option.all_some, decide_eq_true_eq] at hbad
  exact hbad hid

end SmpvClient

end Libdogecoin
