/-
# The transactions of a block message

The block branch of `dogecoin_net_spv_post_cmd` hands every transaction on as soon as it is read: to
the SMPV client, as confirmed, and to `sync_transaction`, which is the wallet. Whether the next one
can be read is not known then, and the merkle root in the header is never looked at. The carrier
detection and the statistics between and behind the calls are left out.

* `parseTransactions_snd` : the loop ends well when all transactions can be read;
* `parseTransactions_fst_eq_nil` : when the loop hands nothing on;
* `onlyAccepted_iff` : when only transactions of accepted blocks are handed on.
-/
import Libdogecoin.MerkleRoot
import Libdogecoin.PostCmd

namespace Libdogecoin

namespace HeadersDb

variable {pf : Platform} {db db' : HeadersDb} {buf : Bytes}

/-! ## The branch -/

/-- What the client does with transactions: `smpv_enabled` with a context, and
`sync_transaction`. -/
structure TxCallbacks where
  smpvEnabled : Bool
  syncTransaction : Bool

/-- A call for a transaction of the message. -/
inductive HandedOn where
  | smpvUpdateTxStatus (txid blockHash : Uint256) (height : ℕ)
  | syncTransaction (tx : Tx) (pos : ℕ) (pindex : ℕ)

/-- The calls for one transaction, which was read from `raw`. -/
def handOn (pf : Platform) (cb : TxCallbacks) (pindex : ℕ) (index : BlockIndex)
    (raw : Bytes) (tx : Tx) (pos : ℕ) : List HandedOn :=
  (if cb.smpvEnabled then [.smpvUpdateTxStatus (pf.sha256d raw) index.hash index.height] else []) ++
    if cb.syncTransaction then [.syncTransaction tx pos pindex] else []

/-- The loop over the transactions: the calls, and whether all transactions were read. -/
def parseTransactions (pf : Platform) (cb : TxCallbacks) (pindex : ℕ) (index : BlockIndex) :
    ℕ → ℕ → Bytes → List HandedOn × Bool
  | 0, _, _ => ([], true)
  | n + 1, i, buf =>
    match txDeserialize buf with
    | none => ([], false)
    | some (tx, rest) =>
      let (handed, ok) := parseTransactions pf cb pindex index n (i + 1) rest
      (handOn pf cb pindex index (buf.take (buf.length - rest.length)) tx i ++ handed, ok)

/-- The number of transactions, and the loop over them. -/
def handTransactions (pf : Platform) (cb : TxCallbacks) (pindex : ℕ) (index : BlockIndex)
    (rest : Bytes) :
    List HandedOn × Bool :=
  match deserVarlen rest with
  | none => ([], false)
  | some (amountOfTxs, rest) => parseTransactions pf cb pindex index amountOfTxs.toNat 0 rest

/-- What is left of a block message: the database, the calls in their order, and whether the block
was accepted. -/
structure BlockPosted where
  db : HeadersDb
  handed : List HandedOn
  accepted : Bool

/-- `dogecoin_net_spv_post_cmd` on a block message. -/
def postBlock (pf : Platform) (cb : TxCallbacks) (db : HeadersDb) (buf : Bytes) :
    Option BlockPosted := do
  let r ← connectHdr pf db buf false
  if r.connected then do
    let index ← r.db.heap.read r.blockindex
    let posted := handTransactions pf cb r.blockindex index r.rest
    let db ← if posted.2 then some r.db else rejectBody r.db r.blockindex
    some { db := db, handed := posted.1, accepted := posted.2 }
  else some { db := { r.db with heap := r.db.heap.free r.blockindex }, handed := [],
              accepted := false }

/-! ## The loop -/

section Loop

variable {cb : TxCallbacks} {pindex : ℕ} {index : BlockIndex}

/-- The loop ends well when all transactions can be read. -/
theorem parseTransactions_snd (n i : ℕ) (buf : Bytes) :
    (parseTransactions pf cb pindex index n i buf).2 = (deserMany txDeserialize n buf).isSome := by
  induction n generalizing i buf with
  | zero => rfl
  | succ n ih =>
    unfold parseTransactions deserMany
    cases hdes : txDeserialize buf with
    | none => rfl
    | some r =>
      obtain ⟨tx, rest⟩ := r
      have hrest := ih (i + 1) rest
      cases hmany : deserMany txDeserialize n rest with
      | none =>
        rw [hmany] at hrest
        simpa [hmany] using hrest
      | some r =>
        rw [hmany] at hrest
        simpa [hmany] using hrest

/-- A transaction is handed on if somebody listens. -/
theorem handOn_eq_nil {raw : Bytes} {tx : Tx} {pos : ℕ} :
    handOn pf cb pindex index raw tx pos = [] ↔ cb.smpvEnabled = false ∧
    cb.syncTransaction = false := by
  unfold handOn
  cases cb.smpvEnabled with
  | false =>
    cases cb.syncTransaction with
    | false => simp
    | true => simp
  | true => simp

/-- Nothing is handed on if nobody listens, or the first transaction cannot be read. -/
theorem parseTransactions_fst_eq_nil (n i : ℕ) (buf : Bytes) :
    (parseTransactions pf cb pindex index n i buf).1 = [] ↔
      (cb.smpvEnabled = false ∧ cb.syncTransaction = false) ∨ n = 0 ∨ txDeserialize buf = none := by
  induction n generalizing i buf with
  | zero => simp [parseTransactions]
  | succ n ih =>
    unfold parseTransactions
    cases hdes : txDeserialize buf with
    | none => simp
    | some r =>
      obtain ⟨tx, rest⟩ := r
      simp only [List.append_eq_nil_iff, handOn_eq_nil, ih]
      simp
      tauto

/-- The message is accepted when all its transactions can be read. -/
theorem handTransactions_snd (rest : Bytes) :
    (handTransactions pf cb pindex index rest).2 = transactionsOk rest := by
  unfold handTransactions transactionsOk
  cases deserVarlen rest with
  | none => rfl
  | some v => exact parseTransactions_snd v.1.toNat 0 v.2

/-- Nothing is handed on if nobody listens, or there is no first transaction. -/
theorem handTransactions_fst_eq_nil (rest : Bytes) :
    (handTransactions pf cb pindex index rest).1 = [] ↔
      (cb.smpvEnabled = false ∧ cb.syncTransaction = false) ∨
        ∀ amountOfTxs body, deserVarlen rest = some (amountOfTxs, body) →
          amountOfTxs.toNat = 0 ∨ txDeserialize body = none := by
  unfold handTransactions
  cases deserVarlen rest with
  | none => simp
  | some v =>
    show (parseTransactions pf cb pindex index v.1.toNat 0 v.2).1 = [] ↔ _
    rw [parseTransactions_fst_eq_nil]
    constructor
    · rintro (hnobody | hfirst)
      · exact Or.inl hnobody
      · refine Or.inr fun amountOfTxs body heq => ?_
        obtain rfl := Option.some.inj heq
        exact hfirst
    · rintro (hnobody | hfirst)
      · exact Or.inl hnobody
      · exact Or.inr (hfirst v.1 v.2 rfl)

end Loop

/-! ## The branch as a whole -/

variable {cb : TxCallbacks} {r : ConnectResult} {p : BlockPosted}

/-- The two ways of a block message: its header is not connected, or its transactions are handed on
and the database is left as `postConnected` leaves it. -/
theorem postBlock_eq_some (hr : connectHdr pf db buf false = some r)
    (hp : postBlock pf cb db buf = some p) :
    (r.connected = false ∧ p.handed = [] ∧ p.accepted = false) ∨
      (r.connected = true ∧ (∃ index, r.db.heap.read r.blockindex = some index ∧
          p.handed = (handTransactions pf cb r.blockindex index r.rest).1) ∧
        postConnected pf .block buf r = some (p.db, p.accepted)) := by
  unfold postBlock at hp
  rw [hr, Option.bind_eq_bind, Option.bind_some] at hp
  cases hyes : r.connected with
  | false =>
    rw [hyes, if_neg Bool.false_ne_true] at hp
    obtain rfl := Option.some.inj hp
    exact Or.inl ⟨rfl, rfl, rfl⟩
  | true =>
    rw [hyes, if_pos rfl, Option.bind_eq_bind, Option.bind_eq_some_iff] at hp
    obtain ⟨index, hindex, hp⟩ := hp
    dsimp only at hp
    rw [handTransactions_snd] at hp
    refine Or.inr ?_
    have hpost : postConnected pf .block buf r = if transactionsOk r.rest = true then
      some (r.db, true) else (rejectBody r.db r.blockindex).map fun db => (db, false) := rfl
    rw [hpost]
    cases hok : transactionsOk r.rest with
    | true =>
      rw [hok, if_pos rfl] at hp
      obtain rfl := Option.some.inj hp
      exact ⟨rfl, ⟨index, hindex, rfl⟩, rfl⟩
    | false =>
      rw [hok, if_neg Bool.false_ne_true] at hp
      obtain ⟨db1, hreject, hp⟩ := Option.bind_eq_some_iff.mp hp
      obtain rfl := Option.some.inj hp
      refine ⟨rfl, ⟨index, hindex, rfl⟩, ?_⟩
      rw [if_neg Bool.false_ne_true, hreject]
      rfl

/-- The transactions behind the header can all be read, and their hashes make up the merkle root
that the header names. -/
def commitsTo (pf : Platform) (header : BlockHeader) (rest : Bytes) : Bool :=
  Option.any id do
    let (amountOfTxs, rest) ← deserVarlen rest
    let (txs, _) ← deserMany txDeserialize amountOfTxs.toNat rest
    let (root, _) ← MerkleRoot.computeMerkleRoot pf (txs.map (txHash pf))
    some (root = header.merkleRoot)

/-- The header of the message was connected, and commits to its transactions. -/
def wholeBlock (pf : Platform) (r : ConnectResult) : Bool :=
  (r.db.heap.read r.blockindex).any fun index => commitsTo pf index.header.base r.rest

/-- Transactions are handed on only if they are those of a whole block. -/
def OnlyAccepted (pf : Platform) (r : ConnectResult) (p : BlockPosted) : Prop :=
  p.handed ≠ [] → wholeBlock pf r = true

/-- There is nobody to hand a transaction to, or no first transaction. -/
def Silent (cb : TxCallbacks) (r : ConnectResult) : Prop :=
  r.connected = false ∨ (cb.smpvEnabled = false ∧ cb.syncTransaction = false) ∨
    ∀ amountOfTxs body, deserVarlen r.rest = some (amountOfTxs, body) →
      amountOfTxs.toNat = 0 ∨ txDeserialize body = none

/-- Nothing is handed on exactly when there is nobody to hand it to or no first transaction. -/
theorem postBlock_handed_eq_nil (hr : connectHdr pf db buf false = some r)
    (hp : postBlock pf cb db buf = some p) : p.handed = [] ↔ Silent cb r := by
  rcases postBlock_eq_some hr hp with ⟨hno, hnil, -⟩ | ⟨hyes, ⟨index, -, hhanded⟩, -⟩
  · exact iff_of_true hnil (Or.inl hno)
  · rw [hhanded, handTransactions_fst_eq_nil]
    constructor
    · exact Or.inr
    · rintro (hno | hsilent)
      · rw [hyes] at hno
        cases hno
      · exact hsilent

/-- **The transactions of a block message.** Only transactions of whole blocks are handed on exactly
when the block is whole or there is nothing to hand on: the loop checks neither what follows a
transaction nor the merkle root. -/
theorem onlyAccepted_iff (hr : connectHdr pf db buf false = some r)
    (hp : postBlock pf cb db buf = some p) :
    OnlyAccepted pf r p ↔ wholeBlock pf r = true ∨ Silent cb r := by
  unfold OnlyAccepted
  rw [← postBlock_handed_eq_nil hr hp]
  constructor
  · intro honly
    by_cases hnil : p.handed = []
    · exact Or.inr hnil
    · exact Or.inl (honly hnil)
  · rintro (hwhole | hnil)
    · exact fun _ => hwhole
    · exact fun hne => absurd hnil hne

/-- A transaction that pays nothing, with a coinbase input. -/
def strayTx : Tx where
  version := 1
  vin := [{ prevout := { hash := Uint256.zero, n := 0xffffffff }, scriptSig := [], sequence := 0 }]
  vout := []
  locktime := 0

/-- A block message on the genesis block with the one transaction, which hashes to zero. -/
def strayBlock (merkleRoot : Uint256) : Bytes :=
  lightHeader dogecoinChainparamsMain.genesisblockhash merkleRoot ++ [1] ++ txSerialize strayTx

/-- The theorem on the block with a transaction that belongs to another header. -/
theorem onlyAccepted_iff_strayBlock :
    ∃ r p, connectHdr samplePlatform (new dogecoinChainparamsMain true) (strayBlock (hashNo 1))
        false = some r ∧ r.connected = true ∧ (OnlyAccepted samplePlatform r p ↔
          wholeBlock samplePlatform r = true ∨ Silent ⟨false, true⟩ r) := by
  have hrun : (connectHdr samplePlatform (new dogecoinChainparamsMain true) (strayBlock (hashNo 1))
      false).any (fun r => r.connected && (postBlock samplePlatform ⟨false, true⟩
        (new dogecoinChainparamsMain true) (strayBlock (hashNo 1))).isSome) = true := by
    decide +kernel
  obtain ⟨r, hr, hprops⟩ := (Option.any_eq_true _ _).mp hrun
  rw [Bool.and_eq_true] at hprops
  obtain ⟨p, hp⟩ := Option.isSome_iff_exists.mp hprops.2
  exact ⟨r, p, hr, hprops.1, onlyAccepted_iff hr hp⟩

/-- A transaction that the merkle root of the header does not commit to is handed on. -/
theorem stray_handed_on :
    ¬ ∀ (pf : Platform) (cb : TxCallbacks) (db : HeadersDb) (buf : Bytes) (r : ConnectResult)
      (p : BlockPosted), (dbSystem pf).Reachable db → connectHdr pf db buf false = some r →
      postBlock pf cb db buf = some p → OnlyAccepted pf r p := by
  intro hall
  have hrun : (connectHdr samplePlatform (new dogecoinChainparamsMain true) (strayBlock (hashNo 1))
      false).any (fun r => (postBlock samplePlatform ⟨false,
        true⟩ (new dogecoinChainparamsMain true)
        (strayBlock (hashNo 1))).any fun p => !p.handed.isEmpty && !wholeBlock samplePlatform r) =
          true := by
    decide +kernel
  obtain ⟨r, hr, hprops⟩ := (Option.any_eq_true _ _).mp hrun
  obtain ⟨p, hp, hprops⟩ := (Option.any_eq_true _ _).mp hprops
  rw [Bool.and_eq_true, Bool.not_eq_true', Bool.not_eq_true', List.isEmpty_eq_false_iff] at hprops
  have hwhole := hall _ _ _ _ r p (.init (S := dbSystem samplePlatform) (.started (.new _ _))) hr hp
    hprops.1
  rw [hprops.2] at hwhole
  cases hwhole

end HeadersDb

end Libdogecoin
