/-
# Working transactions

The table of transactions in the making, `transaction.c`, used by one thread: a transaction is found
by its index, gets inputs and outputs, and is written as a hex string once its outputs, the change
and the fee add up to a stated total. All of that is counted in 64 bits.

* `finalizeTransactionTs_balanced_iff` : when the sums of a finalized transaction are sums of
  integers.
-/
import Libdogecoin.Sighash
import Libdogecoin.Wallet
import Libdogecoin.WrappingSum

namespace Libdogecoin

/-- `working_transaction`. -/
structure WorkingTransaction where
  idx : UInt32
  transaction : Tx

/-- `dogecoin_transaction_context` : the table and the last index. -/
structure TransactionContext where
  transactions : List WorkingTransaction
  nextIdx : UInt32

/-- `dogecoin_tx_new`. -/
def txNew : Tx where
  version := 1
  vin := []
  vout := []
  locktime := 0

/-! ## Outputs -/

/-- 20 bytes of a buffer, from an index on. -/
def hash160At (buf : Bytes) (index : ℕ) : Uint160 :=
  ⟨(buf.drop index ++ List.replicate 20 0).take 20, by
    rw [List.length_take, List.length_append, List.length_replicate]
    exact Nat.min_eq_left (Nat.le_add_left _ _)⟩

/-- The script of `dogecoin_script_build_p2sh`. -/
def p2shScript (hash : Uint160) : Bytes := [opHash160, 20] ++ hash.1 ++ [opEqual]

/-- `dogecoin_tx_add_p2pkh_hash160_out`. -/
def txAddP2pkhHash160Out (tx : Tx) (amount : UInt64) (hash : Uint160) : Tx :=
  { tx with vout := tx.vout ++ [{ value := amount, scriptPubkey := p2pkhScript hash }] }

/-- `dogecoin_tx_add_p2sh_hash160_out`. -/
def txAddP2shHash160Out (tx : Tx) (amount : UInt64) (hash : Uint160) : Tx :=
  { tx with vout := tx.vout ++ [{ value := amount, scriptPubkey := p2shScript hash }] }

/-- `dogecoin_tx_add_address_out`. -/
def txAddAddressOut (wp : WalletPlatform) (tx : Tx) (chain : KeyParams) (amount : UInt64)
    (address : Bytes) :
    Option Tx :=
  match wp.base58DecodeCheck address 256 with
  | none => none
  | some buf =>
    if buf.head? = some chain.b58prefixPubkeyAddress then
      some (txAddP2pkhHash160Out tx amount (hash160At buf 1))
    else if buf.head? = some chain.b58prefixScriptAddress then
      some (txAddP2shHash160Out tx amount (hash160At buf 1))
    else none

/-- `add_address_output_ts` : the outputs of a transaction on the side are taken over. -/
def addAddressOutputTs (wp : WalletPlatform) (tx : Tx) (chain : KeyParams) (koinu : UInt64)
    (address : Bytes) : Option Tx :=
  (txAddAddressOut wp txNew chain koinu address).map fun scratch =>
    { tx with vout := tx.vout ++ scratch.vout }

/-- `dogecoin_tx_out_pubkey_hash_to_p2pkh_address` : nothing where it returns 0. -/
def txOutPubkeyHashToP2pkhAddress (kp : KeyPlatform) (txOut : TxOut) (isMainnet : Bool) :
    Option Bytes :=
  let script := txOut.scriptPubkey
  if script.length < 25 then none
  else
    let chain := if isMainnet then keyParamsMain else keyParamsTest
    -- the hash is taken over unless only opcodes stand between the second byte and the last four
    let strippedArray :=
      if ((script.take (script.length - 4)).drop 2).all
          (· ∈ [opDup, opHash160, opEqualverify, opChecksig]) then hash160At [] 0
      else hash160At script 3
    let p2pkh := kp.p2pkhAddrFromHash160 strippedArray chain
    if p2pkh.length + 1 > 35 then none else some p2pkh

/-- `chain_from_b58_prefix_bool`. -/
def chainFromB58PrefixBool (address : Bytes) : Bool :=
  Char.ofNat ((address.headD 0).toNat) ∈ ['d', 'D']

/-! ## The table -/

namespace TransactionContext

/-- `find_transaction_ts`. -/
def findTransactionTs (ctx : TransactionContext) (txindex : UInt32) : Option Tx :=
  (ctx.transactions.find? (·.idx = txindex)).map (·.transaction)

/-- The table with another transaction under an index. -/
def setTransaction (ctx : TransactionContext) (txindex : UInt32) (tx : Tx) : TransactionContext :=
  { ctx with transactions := ctx.transactions.map fun entry =>
      if entry.idx = txindex then { entry with transaction := tx } else entry }

/-- `start_transaction_ts` : an entry that has the new index already stays. -/
def startTransactionTs (ctx : TransactionContext) : TransactionContext × UInt32 :=
  let idx := ctx.nextIdx + 1
  match ctx.findTransactionTs idx with
  | some _ => ({ ctx with nextIdx := idx }, idx)
  | none =>
    ({ transactions := ctx.transactions ++ [{ idx := idx, transaction := txNew }], nextIdx := idx },
      idx)

/-- `remove_all_ts`. -/
def removeAllTs (ctx : TransactionContext) : TransactionContext := { ctx with transactions := [] }

/-- `clear_transaction_ts`. -/
def clearTransactionTs (ctx : TransactionContext) (txindex : UInt32) : TransactionContext :=
  { ctx with transactions := ctx.transactions.eraseP (·.idx = txindex) }

/-- `utils_uint8_to_hex` into its buffer, of the serialized transaction:
`get_raw_transaction_ts`. -/
def getRawTransactionTs (ctx : TransactionContext) (txindex : UInt32) : Option (List Char) :=
  match ctx.findTransactionTs txindex with
  | none => none
  | some tx => if (txSerialize tx).length > 99999 then none else
      some (utilsUint8ToHex (txSerialize tx))

/-- `make_change_ts` : the table, and whether there was change. -/
def makeChangeTs (wp : WalletPlatform) (ctx : TransactionContext) (txindex : UInt32)
    (publicKey : Bytes) (subtractedfee amount : UInt64) : TransactionContext × Bool :=
  if amount = subtractedfee then (ctx, false)
  else
    match ctx.findTransactionTs txindex with
    | none => (ctx, false)
    | some tx =>
      match addAddressOutputTs wp tx (chainFromB58Prefix publicKey)
        (amount - subtractedfee) publicKey with
      | none => (ctx, false)
      | some tx => (ctx.setTransaction txindex tx, true)

/-- The loop of `finalize_transaction_ts` over the outputs: the table, the sum of the outputs, and
what the last look at an output gave. Behind the last output there is the change. -/
def finalizeOutputs (wp : WalletPlatform) (ctx : TransactionContext) (txindex : UInt32)
    (isTestnet : Bool) (subtractedfee out : UInt64) (changeaddress : Option Bytes) :
    List TxOut → UInt64 → ℕ → TransactionContext × UInt64 × ℕ
  | [], txOutTotal, p2pkhCount => (ctx, txOutTotal, p2pkhCount)
  | txOut :: rest, txOutTotal, _ =>
    let txOutTotal := txOutTotal + txOut.value
    let p2pkhCount := if (txOutPubkeyHashToP2pkhAddress wp.toKeyPlatform txOut
      isTestnet).isSome then 1 else 0
    match rest, changeaddress with
    | [], some changeaddress =>
      match ctx.makeChangeTs wp txindex changeaddress subtractedfee (out - txOutTotal) with
      | (ctx, false) => (ctx, txOutTotal, p2pkhCount)
      | (ctx, true) =>
        let change := ((ctx.findTransactionTs txindex).bind fun tx => tx.vout.getLast?)
        (ctx, txOutTotal + (change.map TxOut.value).getD 0, p2pkhCount + 1)
    | rest, _ =>
      finalizeOutputs wp ctx txindex isTestnet subtractedfee out changeaddress rest
        txOutTotal p2pkhCount

/-- `finalize_transaction_ts` : the table, and the hex string unless it is `NULL`. An amount that is
written behind a buffer when it is read has no result. -/
def finalizeTransactionTs (wp : WalletPlatform) (ctx : TransactionContext) (txindex : UInt32)
    (destinationaddress : Bytes) (subtractedfee outDogeamountForVerification : List Char)
    (changeaddress : Option Bytes) : Option (TransactionContext × Option (List Char)) :=
  match ctx.findTransactionTs txindex with
  | none => some (ctx, none)
  | some tx => do
      let isTestnet := chainFromB58PrefixBool destinationaddress
      let subtractedfeeKoinu ← Koinu.coinsToKoinuStr subtractedfee
      let outKoinu ← Koinu.coinsToKoinuStr outDogeamountForVerification
      let total := outKoinu - subtractedfeeKoinu
      let (ctx, txOutTotal, p2pkhCount) :=
        ctx.finalizeOutputs wp txindex isTestnet subtractedfeeKoinu outKoinu
        changeaddress tx.vout 0 0
      if p2pkhCount < 1 then some (ctx, none)
      else if txOutTotal ≠ total then some (ctx, none)
      else some (ctx, ctx.getRawTransactionTs txindex)

/-! ## The steps of a call -/

variable {wp : WalletPlatform} {ctx ctx' : TransactionContext} {txindex : UInt32} {tx : Tx}
  {publicKey : Bytes}
  {out : UInt64} {changeaddress : Option Bytes}

theorem findTransactionTs_setTransaction (h : ctx.findTransactionTs txindex = some tx) (tx' : Tx) :
    (ctx.setTransaction txindex tx').findTransactionTs txindex = some tx' := by
  obtain ⟨entry, hentry, -⟩ := Option.map_eq_some_iff.mp h
  unfold findTransactionTs setTransaction
  dsimp only
  have hkey : (fun entry : WorkingTransaction => decide (entry.idx = txindex)) ∘ (fun entry =>
      if entry.idx = txindex then { entry with transaction := tx' } else entry) =
        fun entry => decide (entry.idx = txindex) := by
    funext entry
    by_cases hidx : entry.idx = txindex
    · simp [hidx]
    · simp [hidx]
  rw [List.find?_map, hkey, hentry]
  have hidx : decide (entry.idx = txindex) = true := @List.find?_some _
    (fun entry : WorkingTransaction => decide (entry.idx = txindex)) _ _ hentry
  simp [of_decide_eq_true hidx]

variable {amount subtractedfee : UInt64}

/-- An address stands for one output. -/
theorem txAddAddressOut_eq_some {chain : KeyParams} {address : Bytes} {tx' : Tx}
    (h : txAddAddressOut wp tx chain amount address = some tx') :
    ∃ script, tx' = { tx with vout := tx.vout ++ [⟨amount, script⟩] } := by
  unfold txAddAddressOut at h
  cases hdecode : wp.base58DecodeCheck address 256 with
  | none =>
    rw [hdecode] at h
    cases h
  | some buf =>
    rw [hdecode] at h
    dsimp only at h
    split_ifs at h with hpubkey hscript
    · exact ⟨_, (Option.some.inj h).symm⟩
    · exact ⟨_, (Option.some.inj h).symm⟩

/-- Change is one more output, with the value that is left in 64 bits. -/
theorem makeChangeTs_eq_true (hfind : ctx.findTransactionTs txindex = some tx)
    (h : ctx.makeChangeTs wp txindex publicKey subtractedfee amount = (ctx', true)) :
    ∃ script, ctx' = ctx.setTransaction txindex
      { tx with vout := tx.vout ++ [⟨amount - subtractedfee, script⟩] } := by
  unfold makeChangeTs at h
  by_cases hspent : amount = subtractedfee
  · rw [if_pos hspent] at h
    cases h
  rw [if_neg hspent, hfind] at h
  dsimp only at h
  cases hadd : addAddressOutputTs wp tx (chainFromB58Prefix publicKey)
    (amount - subtractedfee) publicKey with
  | none =>
    rw [hadd] at h
    cases h
  | some tx' =>
    rw [hadd] at h
    obtain ⟨scratch, hscratch, rfl⟩ := Option.map_eq_some_iff.mp hadd
    obtain ⟨script, rfl⟩ := txAddAddressOut_eq_some hscratch
    exact ⟨script, (Prod.mk.inj h).1.symm⟩

theorem makeChangeTs_eq_false (h : ctx.makeChangeTs wp txindex publicKey subtractedfee amount =
    (ctx', false)) :
    ctx' = ctx := by
  unfold makeChangeTs at h
  by_cases hspent : amount = subtractedfee
  · rw [if_pos hspent] at h
    exact (Prod.mk.inj h).1.symm
  rw [if_neg hspent] at h
  cases hfind : ctx.findTransactionTs txindex with
  | none =>
    rw [hfind] at h
    exact (Prod.mk.inj h).1.symm
  | some tx =>
    rw [hfind] at h
    dsimp only at h
    cases hadd : addAddressOutputTs wp tx (chainFromB58Prefix publicKey) (amount - subtractedfee)
        publicKey with
    | none =>
      rw [hadd] at h
      exact (Prod.mk.inj h).1.symm
    | some tx' =>
      rw [hadd] at h
      cases h

/-- What the loop over the outputs does: it adds them up, and perhaps the change. -/
theorem finalizeOutputs_cases {isTestnet : Bool} {txOutTotal' : UInt64} {p2pkhCount' : ℕ}
    (hfind : ctx.findTransactionTs txindex = some tx) :
    ∀ {vout : List TxOut} {txOutTotal : UInt64} {p2pkhCount : ℕ},
      ctx.finalizeOutputs wp txindex isTestnet subtractedfee out changeaddress vout
        txOutTotal p2pkhCount =
        (ctx', txOutTotal', p2pkhCount') →
      (ctx' = ctx ∧ txOutTotal' = vout.foldl (fun sum txOut => sum + txOut.value) txOutTotal) ∨
        ∃ change script, change =
            out - vout.foldl (fun sum txOut => sum + txOut.value) txOutTotal - subtractedfee ∧
          ctx' = ctx.setTransaction txindex
            { tx with vout := tx.vout ++ [{ value := change, scriptPubkey := script }] } ∧
          txOutTotal' = vout.foldl (fun sum txOut => sum + txOut.value) txOutTotal + change := by
  intro vout
  induction vout with
  | nil =>
    intro txOutTotal p2pkhCount h
    obtain ⟨rfl, hrest⟩ := Prod.mk.inj h
    exact Or.inl ⟨rfl, (Prod.mk.inj hrest).1.symm⟩
  | cons txOut vout ih =>
    intro txOutTotal p2pkhCount h
    rw [List.foldl_cons]
    unfold finalizeOutputs at h
    dsimp only at h
    cases vout with
    | cons txOut' rest => exact ih h
    | nil =>
      cases changeaddress with
      | none => exact ih h
      | some changeaddress =>
        dsimp only at h
        cases hchange : ctx.makeChangeTs wp txindex changeaddress subtractedfee
            (out - (txOutTotal + txOut.value)) with
        | mk ctx'' made =>
          rw [hchange] at h
          cases made with
          | false =>
            obtain ⟨rfl, hrest⟩ := Prod.mk.inj h
            exact Or.inl ⟨makeChangeTs_eq_false hchange, (Prod.mk.inj hrest).1.symm⟩
          | true =>
            obtain ⟨script, rfl⟩ := makeChangeTs_eq_true hfind hchange
            dsimp only at h
            rw [findTransactionTs_setTransaction hfind] at h
            obtain ⟨rfl, hrest⟩ := Prod.mk.inj h
            refine Or.inr ⟨_, script, rfl, rfl, ?_⟩
            rw [← (Prod.mk.inj hrest).1]
            simp

/-- A string is written for the outputs that are left if they have the sum they should in 64
bits. -/
theorem finalizeTransactionTs_cases {destinationaddress : Bytes}
    {subtractedfee outDoge hex : List Char} {fee : UInt64}
    (hfind : ctx.findTransactionTs txindex = some tx)
    (hfee : Koinu.coinsToKoinuStr subtractedfee = some fee)
    (hout : Koinu.coinsToKoinuStr outDoge = some out)
    (hrun : ctx.finalizeTransactionTs wp txindex destinationaddress subtractedfee
      outDoge changeaddress =
      some (ctx', some hex)) :
    ∃ tx', ctx'.findTransactionTs txindex = some tx' ∧ hex = utilsUint8ToHex (txSerialize tx') ∧
      ((tx' = tx ∧ tx.vout.foldl (fun sum txOut => sum + txOut.value) 0 = out - fee) ∨
        ∃ change script, change =
            out - tx.vout.foldl (fun sum txOut => sum + txOut.value) 0 - fee ∧
          tx' = { tx with vout := tx.vout ++ [{ value := change, scriptPubkey := script }] }) := by
  unfold finalizeTransactionTs at hrun
  rw [hfind, hfee, hout] at hrun
  dsimp only [Option.bind_eq_bind, Option.bind_some] at hrun
  cases houtputs : ctx.finalizeOutputs wp txindex
    (chainFromB58PrefixBool destinationaddress) fee out changeaddress tx.vout 0 0 with
  | mk ctx'' rest =>
    obtain ⟨txOutTotal, p2pkhCount⟩ := rest
    rw [houtputs] at hrun
    dsimp only at hrun
    by_cases hcount : p2pkhCount < 1
    · rw [if_pos hcount] at hrun
      cases (Prod.mk.inj (Option.some.inj hrun)).2
    rw [if_neg hcount] at hrun
    by_cases htotal : txOutTotal ≠ out - fee
    · rw [if_pos htotal] at hrun
      cases (Prod.mk.inj (Option.some.inj hrun)).2
    rw [if_neg htotal] at hrun
    obtain ⟨rfl, hhex⟩ := Prod.mk.inj (Option.some.inj hrun)
    unfold getRawTransactionTs at hhex
    rcases finalizeOutputs_cases hfind houtputs with ⟨rfl, hsum⟩ |
      ⟨change, script, hchange, rfl, hsum⟩
    · rw [hfind] at hhex
      dsimp only at hhex
      split_ifs at hhex
      exact ⟨tx, hfind, (Option.some.inj hhex).symm, Or.inl ⟨rfl, hsum ▸ not_not.mp htotal⟩⟩
    · have hfound := findTransactionTs_setTransaction hfind
        { tx with vout := tx.vout ++ [{ value := change, scriptPubkey := script }] }
      rw [hfound] at hhex
      dsimp only at hhex
      split_ifs at hhex
      exact ⟨_, hfound, (Option.some.inj hhex).symm, Or.inr ⟨change, script, hchange, rfl⟩⟩

end TransactionContext

/-! ## Sums of integers -/

/-- What the outputs of a finalized transaction should be: no value is negative, the values and the
fee have the stated total, and none of the sums and differences on the way leaves 64 bits. -/
structure Balanced (before after : Tx) (fee out : UInt64) : Prop where
  nonneg : ∀ txOut ∈ after.vout, 0 ≤ txOut.value.toInt64.toInt
  sum : (after.vout.map fun txOut => txOut.value.toInt64.toInt).sum + fee.toNat = out.toNat
  outputs_lt : WrappingSum.total TxOut.value after.vout < 2 ^ 64
  fee_le : fee.toNat ≤ out.toNat
  outputs_le : WrappingSum.total TxOut.value before.vout ≤ out.toNat
  change_le : WrappingSum.total TxOut.value before.vout + fee.toNat ≤ out.toNat

theorem toInt64_nonneg_iff (value : UInt64) : 0 ≤ value.toInt64.toInt ↔ value.toNat < 2 ^ 63 := by
  have hlt := value.toNat_lt
  have hint : value.toInt64.toInt = value.toBitVec.toInt := rfl
  rw [hint, BitVec.toInt_eq_toNat_cond]
  show 0 ≤ (if 2 * value.toNat < 2 ^ 64 then (value.toNat : ℤ) else (value.toNat : ℤ) -
    (2 ^ 64 : ℕ)) ↔ _
  split <;> omega

theorem toInt64_eq {value : UInt64} (h : value.toNat < 2 ^ 63) :
    value.toInt64.toInt = value.toNat := by
  have hint : value.toInt64.toInt = value.toBitVec.toInt := rfl
  rw [hint, BitVec.toInt_eq_toNat_cond]
  show (if 2 * value.toNat < 2 ^ 64 then (value.toNat : ℤ) else (value.toNat : ℤ) -
    (2 ^ 64 : ℕ)) = _
  rw [if_pos (by omega)]

/-- Values that are not negative have the sum of their bit patterns. -/
theorem sum_toInt64 {vout : List TxOut} (h : ∀ txOut ∈ vout, txOut.value.toNat < 2 ^ 63) :
    (vout.map fun txOut => txOut.value.toInt64.toInt).sum = WrappingSum.total TxOut.value vout := by
  induction vout with
  | nil => rfl
  | cons txOut vout ih =>
    rw [List.map_cons, List.sum_cons, WrappingSum.total_cons,
      toInt64_eq (h txOut List.mem_cons_self),
      ih fun txOut' hmem => h txOut' (List.mem_cons_of_mem _ hmem)]
    push_cast
    rfl

/-- What is balanced has room for the fee. -/
theorem balanced_iff {before after : Tx} {fee out : UInt64} :
    Balanced before after fee out ↔ (∀ txOut ∈ after.vout, txOut.value.toNat < 2 ^ 63) ∧
      WrappingSum.total TxOut.value after.vout + fee.toNat = out.toNat ∧
      WrappingSum.total TxOut.value before.vout + fee.toNat ≤ out.toNat := by
  have hlt := out.toNat_lt
  constructor
  · intro h
    have hsmall : ∀ txOut ∈ after.vout, txOut.value.toNat < 2 ^ 63 := fun txOut hmem =>
      (toInt64_nonneg_iff _).mp (h.nonneg txOut hmem)
    have hsum := h.sum
    rw [sum_toInt64 hsmall] at hsum
    exact ⟨hsmall, by exact_mod_cast hsum, h.change_le⟩
  · rintro ⟨hsmall, hsum, hle⟩
    refine ⟨fun txOut hmem => (toInt64_nonneg_iff _).mpr (hsmall txOut hmem),
      ?_, by omega, by omega, by omega, hle⟩
    rw [sum_toInt64 hsmall]
    exact_mod_cast hsum

/-- **A finalized transaction is balanced when the outputs and the fee fit into the stated total**,
and what is left for the change is no negative amount. -/
theorem finalizeTransactionTs_balanced_iff {wp : WalletPlatform} {ctx ctx' : TransactionContext}
    {txindex : UInt32} {tx : Tx} {destinationaddress : Bytes}
    {subtractedfee outDoge hex : List Char}
    {changeaddress : Option Bytes} {fee out : UInt64}
    (hfind : ctx.findTransactionTs txindex = some tx)
    (hfee : Koinu.coinsToKoinuStr subtractedfee = some fee)
    (hout : Koinu.coinsToKoinuStr outDoge = some out)
    (hrun : ctx.finalizeTransactionTs wp txindex destinationaddress subtractedfee
      outDoge changeaddress =
      some (ctx', some hex)) :
    ∃ tx', ctx'.findTransactionTs txindex = some tx' ∧ hex = utilsUint8ToHex (txSerialize tx') ∧
      (Balanced tx tx' fee out ↔
        (∀ txOut ∈ tx.vout, txOut.value.toNat < 2 ^ 63) ∧
          WrappingSum.total TxOut.value tx.vout + fee.toNat ≤ out.toNat ∧
          out.toNat - fee.toNat - WrappingSum.total TxOut.value tx.vout < 2 ^ 63) := by
  obtain ⟨tx', hfind', hhex, hcases⟩ :=
    TransactionContext.finalizeTransactionTs_cases hfind hfee hout hrun
  refine ⟨tx', hfind', hhex, ?_⟩
  have hout := out.toNat_lt
  have hsum := WrappingSum.toNat_foldl_add TxOut.value tx.vout 0
  rw [UInt64.toNat_zero, Nat.zero_add] at hsum
  rw [balanced_iff]
  rcases hcases with ⟨rfl, hequal⟩ | ⟨change, script, hchange, rfl⟩
  · -- the outputs are as they were, and their sum was checked in 64 bits
    have hnat := congrArg UInt64.toNat hequal
    rw [hsum, UInt64.toNat_sub] at hnat
    constructor
    · rintro ⟨hsmall, htotal, hle⟩
      exact ⟨hsmall, hle, by omega⟩
    · rintro ⟨hsmall, hle, hchange⟩
      exact ⟨hsmall, by omega, hle⟩
  · have hnat := congrArg UInt64.toNat hchange
    rw [UInt64.toNat_sub, UInt64.toNat_sub, hsum] at hnat
    have hfee := fee.toNat_lt
    have hlt := change.toNat_lt
    dsimp only
    rw [WrappingSum.total_append, WrappingSum.total_cons, WrappingSum.total_nil]
    constructor
    · rintro ⟨hsmall, htotal, hle⟩
      have hchangeSmall := hsmall ⟨change,
        script⟩ (List.mem_append_right _ (List.mem_singleton.mpr rfl))
      refine ⟨fun txOut hmem => hsmall txOut (List.mem_append_left _ hmem), hle, ?_⟩
      dsimp only at hchangeSmall htotal
      omega
    · rintro ⟨hsmall, hle, hroom⟩
      refine ⟨fun txOut hmem => ?_, ?_, hle⟩
      · rcases List.mem_append.mp hmem with hmem | hmem
        · exact hsmall txOut hmem
        · rw [List.mem_singleton.mp hmem]
          dsimp only
          omega
      · dsimp only
        omega

/-! ## Finalizing on fixed inputs -/

/-- An address of the main chain. -/
def sampleHash : Uint160 := ⟨List.replicate 20 7, rfl⟩

/-- The address as a string. -/
def sampleAddress : Bytes := sampleWallet.p2pkhAddrFromHash160 sampleHash keyParamsMain

/-- A transaction with one output. -/
def payingTx (koinu : UInt64) : Tx := txAddP2pkhHash160Out txNew koinu sampleHash

/-- The table with that transaction. -/
def payingContext (koinu : UInt64) : TransactionContext where
  transactions := [{ idx := 1, transaction := payingTx koinu }]
  nextIdx := 1

/-- One coin to the address and one coin as the fee, of three and a half: a coin and a half go
back. -/
theorem finalizeTransactionTs_balanced_change : ∃ ctx' hex tx',
    (payingContext 100000000).finalizeTransactionTs sampleWallet 1 sampleAddress
    "1.0".toList "3.5".toList
        (some sampleAddress) = some (ctx', some hex) ∧
      ctx'.findTransactionTs 1 = some tx' ∧ hex = utilsUint8ToHex (txSerialize tx') ∧
      Balanced (payingTx 100000000) tx' 100000000 350000000 := by
  obtain ⟨ctx', hex, hrun⟩ : ∃ ctx' hex,
    (payingContext 100000000).finalizeTransactionTs sampleWallet 1
      sampleAddress "1.0".toList "3.5".toList (some sampleAddress) = some (ctx', some hex) :=
        ⟨_, _, rfl⟩
  obtain ⟨tx', hfind, hhex, hiff⟩ :=
    @finalizeTransactionTs_balanced_iff _ _ _ _ _ _ _ _ _ _ 100000000 350000000 rfl rfl rfl hrun
  exact ⟨ctx', hex, tx', hrun, hfind, hhex, hiff.mpr (by decide)⟩

/-- Five coins to the address and one coin as the fee, of two: the change is four coins below
zero. -/
theorem not_balanced_fiveCoins : ∃ ctx' hex,
    (payingContext 500000000).finalizeTransactionTs sampleWallet 1 sampleAddress
    "1.0".toList "2.0".toList
        (some sampleAddress) = some (ctx', some hex) ∧
      ¬ ∃ tx', ctx'.findTransactionTs 1 = some tx' ∧
        Balanced (payingTx 500000000) tx' 100000000 200000000 := by
  have hrun : ∃ hex, (payingContext 500000000).finalizeTransactionTs sampleWallet 1 sampleAddress
      "1.0".toList "2.0".toList (some sampleAddress) =
        some ((payingContext 500000000).setTransaction 1 (txAddP2pkhHash160Out (payingTx 500000000)
          (200000000 - 500000000 - 100000000) sampleHash), some hex) := ⟨_, rfl⟩
  obtain ⟨hex, hrun⟩ := hrun
  refine ⟨_, hex, hrun, ?_⟩
  rintro ⟨tx', hfind, hbalanced⟩
  have hfound := @TransactionContext.findTransactionTs_setTransaction
    (payingContext 500000000) 1 _ rfl
    (txAddP2pkhHash160Out (payingTx 500000000) (200000000 - 500000000 - 100000000) sampleHash)
  obtain rfl := Option.some.inj (hfound.symm.trans hfind)
  have hchange := hbalanced.nonneg ⟨200000000 - 500000000 - 100000000, p2pkhScript sampleHash⟩
    (List.mem_append_right _ (List.mem_singleton.mpr rfl))
  exact absurd hchange (by decide)

end Libdogecoin
