/-
# The transactions that spend from a wallet

`dogecoin_wallet_is_from_me` adds up the outputs that the inputs name, and looks for the hashes of
their previous transactions in the table of unspent outputs. The number of the output is compared by
the first part alone.

* `toNat_getDebitTx` : the debit, modulo `2 ^ 64`;
* `isFromMe_right_iff` : when the answer is that of the outpoints.
-/
import Mathlib.Data.List.Basic
import Libdogecoin.WalletHistory

namespace Libdogecoin

namespace Wallet

variable (wp : WalletPlatform)

/-! ## What an input spends -/

/-- The output of the stored transaction that an outpoint names. -/
def storedOutput (s : Loaded) (o : TxOutpoint) : Option TxOut :=
  (s.wallet.vecWtxes.find? fun wtx => txHash wp.toPlatform wtx.tx = o.hash).bind fun wtx =>
    wtx.tx.vout[o.n.toNat]?

/-- The values of the stored outputs that the inputs spend and that belong to the wallet. -/
def spentValues (s : Loaded) (tx : Tx) : List ℕ :=
  tx.vin.map fun txIn =>
    match storedOutput wp s txIn.prevout with
    | none => 0
    | some out => if s.wallet.txoutIsMine out then out.value.toNat else 0

/-- An amount is a signed number; this one is positive. -/
def PositiveAmount (value : ℕ) : Prop := 0 < value ∧ value < 2 ^ 63

instance (value : ℕ) : Decidable (PositiveAmount value) := inferInstanceAs (Decidable (_ ∧ _))

/-- The outpoint is an output of positive value that belongs to the wallet. -/
def OwnsOutput (s : Loaded) (o : TxOutpoint) : Prop :=
  ∃ out ∈ storedOutput wp s o, s.wallet.txoutIsMine out = true ∧ PositiveAmount out.value.toNat

/-- An entry of the table has the hash of the outpoint, in one of the two byte orders. -/
def NamesEntry (o : TxOutpoint) (utxo : Utxo) :
    Prop := o.hash = utxo.txid ∨ swapBytes o.hash = utxo.txid

instance (o : TxOutpoint) (utxo : Utxo) :
    Decidable (NamesEntry o utxo) := inferInstanceAs (Decidable (_ ∨ _))

/-- The outpoint is an entry of the table that belongs to the wallet. -/
def TracksOutpoint (s : Loaded) (o : TxOutpoint) : Prop :=
  ∃ utxo ∈ s.utxos.table, NamesEntry o utxo ∧ utxo.vout = o.n.toNat ∧
    s.wallet.listsAddress wp utxo.address = true

/-- Some input spends an output of the wallet. -/
def SpendsOwn (s : Loaded) (tx : Tx) : Prop :=
  ∃ txIn ∈ tx.vin, OwnsOutput wp s txIn.prevout ∨ TracksOutpoint wp s txIn.prevout

instance (s : Loaded) (o : TxOutpoint) : Decidable (OwnsOutput wp s o) :=
  inferInstanceAs (Decidable (∃ out ∈ storedOutput wp s o, _))

instance (s : Loaded) (o : TxOutpoint) : Decidable (TracksOutpoint wp s o) :=
  inferInstanceAs (Decidable (∃ utxo ∈ s.utxos.table, _))

instance (s : Loaded) (tx : Tx) : Decidable (SpendsOwn wp s tx) :=
  inferInstanceAs (Decidable (∃ txIn ∈ tx.vin, _))

/-- Some input names the transaction of an entry, with any number. -/
def NamesTracked (s : Loaded) (tx : Tx) : Prop :=
  ∃ txIn ∈ tx.vin, ∃ utxo ∈ s.utxos.table, NamesEntry txIn.prevout utxo

instance (s : Loaded) (tx : Tx) : Decidable (NamesTracked s tx) :=
  inferInstanceAs (Decidable (∃ txIn ∈ tx.vin, ∃ utxo ∈ s.utxos.table, _))

/-- The hashes that are named do not mislead, and the sum of the values has the sign of its
parts. -/
structure OutpointsDecide (s : Loaded) (tx : Tx) : Prop where
  /-- Where the transaction of an entry is named, an output of the wallet is spent. -/
  named : NamesTracked s tx → SpendsOwn wp s tx
  /-- Elsewhere the values that are spent add up to a positive amount exactly if one of them is
  positive. -/
  sum : ¬NamesTracked s tx → (PositiveAmount ((spentValues wp s tx).sum % 2 ^ 64) ↔
    ∃ value ∈ spentValues wp s tx, PositiveAmount value)

variable {wp}

/-! ## The debit -/

/-- A sum of 64-bit numbers. -/
theorem toNat_sumValues_mod (values : List UInt64) :
    (sumValues values).toNat = (values.map UInt64.toNat).sum % 2 ^ 64 := by
  induction values with
  | nil => rfl
  | cons x values ih =>
    rw [sumValues_cons, UInt64.toNat_add, ih, List.map_cons, List.sum_cons, Nat.add_mod_mod]

variable {s : Loaded} {tx : Tx}

/-- The tree finds the transaction that the vector has. -/
theorem Recorded.find_eq (hs : Recorded wp s) (hash : Uint256) :
    s.wallet.wtxesTree.find hash = s.wallet.vecWtxes.find? fun wtx =>
      txHash wp.toPlatform wtx.tx = hash := by
  cases hfind : s.wallet.vecWtxes.find? fun wtx => txHash wp.toPlatform wtx.tx = hash with
  | none =>
    rw [Option.eq_none_iff_forall_ne_some]
    intro wtx hwtx
    obtain ⟨hmem, hcache⟩ := (hs.indexed.find _ _).mp hwtx
    have hno := List.find?_eq_none.mp hfind wtx hmem
    rw [decide_eq_true_iff, ← hs.cached wtx hmem] at hno
    exact hno hcache
  | some wtx =>
    have hmem := List.mem_of_find?_eq_some hfind
    have hhash : txHash wp.toPlatform wtx.tx = hash := by
      have hfound := List.find?_some hfind
      exact of_decide_eq_true hfound
    exact (hs.indexed.find _ _).mpr ⟨hmem, (hs.cached wtx hmem).trans hhash⟩

/-- **One input** : the value of the stored output, if it belongs to the wallet. -/
theorem Recorded.toNat_getDebitTxi (hs : Recorded wp s) (txIn : TxIn) :
    (s.wallet.getDebitTxi txIn).toNat =
      match storedOutput wp s txIn.prevout with
      | none => 0
      | some out => if s.wallet.txoutIsMine out then out.value.toNat else 0 := by
  unfold getDebitTxi storedOutput
  rw [hs.find_eq]
  cases s.wallet.vecWtxes.find? fun wtx => txHash wp.toPlatform wtx.tx = txIn.prevout.hash with
  | none => rfl
  | some wtx =>
    rw [Option.bind_some]
    dsimp only
    cases wtx.tx.vout[txIn.prevout.n.toNat]? with
    | none => rfl
    | some out =>
      dsimp only
      split_ifs
      · rfl
      · rfl

/-- **The debit** of a transaction. -/
theorem Recorded.toNat_getDebitTx (hs : Recorded wp s) (tx : Tx) :
    (s.wallet.getDebitTx tx).toNat = (spentValues wp s tx).sum % 2 ^ 64 := by
  have hvalues : (tx.vin.map s.wallet.getDebitTxi).map UInt64.toNat = spentValues wp s tx := by
    rw [List.map_map]
    apply List.map_congr_left
    intro txIn _
    exact hs.toNat_getDebitTxi txIn
  unfold getDebitTx
  rw [toNat_sumValues_mod, hvalues]

/-- The answer: the debit is positive, or the transaction of an entry is named. -/
theorem Recorded.isFromMe_iff (hs : Recorded wp s) (tx : Tx) :
    s.wallet.isFromMe s.utxos tx = true ↔
      PositiveAmount ((spentValues wp s tx).sum % 2 ^ 64) ∨ NamesTracked s tx := by
  have hdebit : (0 < s.wallet.getDebitTx tx ∧ s.wallet.getDebitTx tx < 0x8000000000000000) ↔
      PositiveAmount ((spentValues wp s tx).sum % 2 ^ 64) := by
    rw [UInt64.lt_iff_toNat_lt, UInt64.lt_iff_toNat_lt, hs.toNat_getDebitTx]
    rfl
  unfold isFromMe NamesTracked NamesEntry
  rw [Bool.or_eq_true, Bool.and_eq_true, decide_eq_true_iff, decide_eq_true_iff, hdebit]
  simp only [List.any_eq_true, Bool.or_eq_true, decide_eq_true_iff]

/-- An output of positive value that is spent is one of the values. -/
theorem exists_ownsOutput_iff :
    (∃ txIn ∈ tx.vin, OwnsOutput wp s txIn.prevout) ↔ ∃ value ∈ spentValues wp s tx,
      PositiveAmount value := by
  have hinput : ∀ txIn : TxIn, OwnsOutput wp s txIn.prevout ↔ PositiveAmount
      (match storedOutput wp s txIn.prevout with
      | none => 0
      | some out => if s.wallet.txoutIsMine out then out.value.toNat else 0) := by
    intro txIn
    unfold OwnsOutput
    cases storedOutput wp s txIn.prevout with
    | none => simp [PositiveAmount]
    | some out =>
      by_cases hmine : s.wallet.txoutIsMine out = true
      · simp [hmine]
      · simp [hmine, PositiveAmount]
  unfold spentValues
  constructor
  · rintro ⟨txIn, hmem, h⟩
    exact ⟨_, List.mem_map_of_mem hmem, (hinput txIn).mp h⟩
  · rintro ⟨value, hmem, h⟩
    obtain ⟨txIn, htxIn, rfl⟩ := List.mem_map.mp hmem
    exact ⟨txIn, htxIn, (hinput txIn).mpr h⟩

/-- What spends from the wallet, by the two ways in which an output can belong to it. -/
theorem spendsOwn_iff :
    SpendsOwn wp s tx ↔ (∃ value ∈ spentValues wp s tx, PositiveAmount value) ∨
      ∃ txIn ∈ tx.vin, TracksOutpoint wp s txIn.prevout := by
  unfold SpendsOwn
  rw [← exists_ownsOutput_iff, ← exists_or]
  apply exists_congr
  intro txIn
  rw [and_or_left]

/-- The sum of values that stay below `2 ^ 63` together is positive exactly if one of them is. -/
theorem positiveAmount_sum {values : List ℕ} (h : values.sum < 2 ^ 63) :
    PositiveAmount (values.sum % 2 ^ 64) ↔ ∃ value ∈ values, PositiveAmount value := by
  -- nothing wraps
  have hmod : values.sum % 2 ^ 64 = values.sum := Nat.mod_eq_of_lt (by omega)
  unfold PositiveAmount
  rw [hmod]
  constructor
  · rintro ⟨hpos, -⟩
    obtain ⟨value, hmem, hne⟩ := List.exists_mem_ne_zero_of_sum_ne_zero (Nat.ne_of_gt hpos)
    exact ⟨value, hmem, Nat.pos_of_ne_zero hne, lt_of_le_of_lt (List.le_sum_of_mem hmem) h⟩
  · rintro ⟨value, hmem, hpos, -⟩
    exact ⟨lt_of_lt_of_le hpos (List.le_sum_of_mem hmem), h⟩

/-- Then only the hashes can mislead. -/
theorem outpointsDecide_of_small (h : (spentValues wp s tx).sum < 2 ^ 63)
    (hnamed : NamesTracked s tx → SpendsOwn wp s tx) : OutpointsDecide wp s tx :=
  ⟨hnamed, fun _ => positiveAmount_sum h⟩

/-- **`dogecoin_wallet_is_from_me`** answers for the outpoints of the inputs, in every state that
transactions lead to, exactly if no hash misleads it and no sum wraps. -/
theorem isFromMe_right_iff {s : Loaded} (hreach : (checkSystem wp).Reachable s) (tx : Tx) :
    (s.wallet.isFromMe s.utxos tx = true ↔ SpendsOwn wp s tx) ↔ OutpointsDecide wp s tx := by
  have hanswer := (recorded_of_reach hreach).isFromMe_iff tx
  have htracked : (∃ txIn ∈ tx.vin, TracksOutpoint wp s txIn.prevout) → NamesTracked s tx := by
    rintro ⟨txIn, hmem, utxo, hutxo, hnames, -⟩
    exact ⟨txIn, hmem, utxo, hutxo, hnames⟩
  rw [hanswer]
  by_cases hnamed : NamesTracked s tx
  · -- the answer is yes, whatever the numbers of the outputs are
    constructor
    · intro h
      exact ⟨fun _ => h.mp (Or.inr hnamed), fun hnot => absurd hnamed hnot⟩
    · intro h
      exact ⟨fun _ => h.named hnamed, fun _ => Or.inr hnamed⟩
  · -- without a hash in the table only the sum decides
    have hspends : SpendsOwn wp s tx ↔ ∃ value ∈ spentValues wp s tx, PositiveAmount value := by
      rw [spendsOwn_iff]
      exact or_iff_left fun h => hnamed (htracked h)
    rw [or_iff_left hnamed, hspends]
    constructor
    · intro h
      exact ⟨fun hyes => absurd hyes hnamed, fun _ => h⟩
    · intro h
      exact h.sum hnamed

/-! ## Outputs of one transaction -/

/-- A payment of 5 koinu to the wallet, and of 7 to somebody else. -/
def sampleShared : Tx :=
  sampleTx 0x10000 ⟨Uint256.zero, 3⟩ [⟨5, p2pkhScript (sampleHash160 1)⟩,
    ⟨7, p2pkhScript (sampleHash160 2)⟩]

/-- A payment of one of its outputs. -/
def sampleShare (n : UInt32) : Tx :=
  sampleTx 0x20000 ⟨txHash sampleWallet.toPlatform sampleShared,
    n⟩ [⟨4, p2pkhScript (sampleHash160 2)⟩]

/-- Behind the first payment the second one is from the wallet for every number, and only the output
with the number 0 belongs to it. -/
theorem sampleShared_run :
    ∃ s, (checkSystem sampleWallet).Reachable s ∧ SpendsOwn sampleWallet s (sampleShare 0) ∧
      ¬SpendsOwn sampleWallet s (sampleShare 1) ∧ (spentValues sampleWallet s (sampleShare 0)).sum <
        2 ^ 63 ∧
        s.wallet.isFromMe s.utxos (sampleShare 1) = true := by
  have hrun : (checkTransaction sampleWallet sampleStart sampleShared Uint256.zero 1).any
      (fun s => decide (SpendsOwn sampleWallet s (sampleShare 0) ∧
        ¬SpendsOwn sampleWallet s (sampleShare 1) ∧
        (spentValues sampleWallet s (sampleShare 0)).sum < 2 ^ 63 ∧
          s.wallet.isFromMe s.utxos (sampleShare 1) = true)) = true := by
    decide +kernel
  obtain ⟨s, hstep, hs⟩ := (Option.any_eq_true _ _).mp hrun
  exact ⟨s, .step (i := ⟨sampleShared, Uint256.zero, 1⟩) (.init sampleStart_init) trivial hstep,
    of_decide_eq_true hs⟩

/-- The theorem on the payment of the output that belongs to the wallet. -/
theorem isFromMe_right_share :
    ∃ s, (checkSystem sampleWallet).Reachable s ∧
      (s.wallet.isFromMe s.utxos (sampleShare 0) = true ↔
        SpendsOwn sampleWallet s (sampleShare 0)) := by
  obtain ⟨s, hreach, howns, -, hsmall, -⟩ := sampleShared_run
  exact ⟨s, hreach, (isFromMe_right_iff hreach (sampleShare 0)).mpr
    (outpointsDecide_of_small hsmall fun _ => howns)⟩

/-- The payment of the other output is taken for one from the wallet. -/
theorem not_isFromMe_right :
    ¬ ∀ s tx, (checkSystem sampleWallet).Reachable s →
      (s.wallet.isFromMe s.utxos tx = true ↔ SpendsOwn sampleWallet s tx) := by
  intro hall
  obtain ⟨s, hreach, -, hnot, -, hfrom⟩ := sampleShared_run
  exact hnot ((hall s (sampleShare 1) hreach).mp hfrom)

end Wallet

end Libdogecoin
