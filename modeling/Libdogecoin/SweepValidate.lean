/-
# The validation of a sweep

`dogecoin_sweep_validate_transaction` of `sweep.c`. It compares the number of the inputs with that
of the listed outputs, looks for one output that goes to the destination, and adds up the values in
64 bits.

* `sweepValidateTransaction_eq_true` : what a transaction that passes has passed;
* `sweepValidateTransaction_checks` : what this says about the transaction, and what it takes to be
  the sweep.
-/
import Libdogecoin.P2pkhAttribution
import Libdogecoin.Sweep

namespace Libdogecoin

open TransactionContext

/-- `dogecoin_sweep_validate_transaction`. An amount that is written behind a buffer when it is read
has no result. -/
def sweepValidateTransaction (sp : SweepPlatform) (tx : Tx) (wallet : PaperWallet)
    (options : SweepOptions) :
    Option Bool :=
  match options.destinationAddress with
  | none => some false
  | some destinationAddress =>
    if wallet.isValid sp = false then some false
    else if tx.vin.any (·.scriptSig = []) then some false
    else if sweepOptionsUtxoOk options && tx.vin.length ≠ options.utxos.length then some false
    else
      -- the network is that of the first character
      let isMainnet := destinationAddress.head? = some 68
      let destFound := tx.vout.any fun o =>
        txOutPubkeyHashToP2pkhAddress sp.toKeyPlatform o isMainnet = some destinationAddress
      if destFound = false then some false
      else do
        let amountsRight ←
          if sweepOptionsUtxoOk options then
            (sweepComputeAmounts options).map fun amounts =>
              (amounts.map fun amounts => decide (outputsSum tx.vout 0 =
                amounts.outKoinu)).getD false
          else some true
        if amountsRight = false then some false
        else if options.useRbf && tx.vin.any (·.sequence ≠ 0xfffffffd) then some false
        else if options.locktime ≠ 0 && tx.locktime ≠ options.locktime then some false
        else some true

/-! ## What is checked -/

/-- The address that an output has for a destination is this destination. -/
def Appears (kp : KeyPlatform) (destinationAddress : Bytes) (txOut : TxOut) : Prop :=
  txOutPubkeyHashToP2pkhAddress kp txOut (decide (destinationAddress.head? = some 68)) =
    some destinationAddress

/-- The checks that are documented, but for the values: the inputs are signed and as many as the
listed outputs, the destination appears, and the flags are set. -/
structure ValidateChecks (sp : SweepPlatform) (tx : Tx) (wallet : PaperWallet)
    (options : SweepOptions) (destinationAddress : Bytes) : Prop where
  wallet : wallet.isValid sp = true
  signed : ∀ txIn ∈ tx.vin, txIn.scriptSig ≠ []
  count : tx.vin.length = options.utxos.length
  appears : ∃ txOut ∈ tx.vout, Appears sp.toKeyPlatform destinationAddress txOut
  rbf : options.useRbf = true → ∀ txIn ∈ tx.vin, txIn.sequence = 0xfffffffd
  locktime : options.locktime ≠ 0 → tx.locktime = options.locktime

variable {sp : SweepPlatform} {tx : Tx} {wallet : PaperWallet} {options : SweepOptions}
  {destinationAddress : Bytes}

/-- **What has been checked** of a transaction that passes. -/
theorem sweepValidateTransaction_eq_true (hutxo : sweepOptionsUtxoOk options = true)
    (h : sweepValidateTransaction sp tx wallet options = some true) :
    ∃ destinationAddress total, options.destinationAddress = some destinationAddress ∧
      sweepOptionsTotalKoinu options = some total ∧ sweepFeeKoinu options < total ∧
      outputsSum tx.vout 0 = total - sweepFeeKoinu options ∧
      ValidateChecks sp tx wallet options destinationAddress := by
  have hfail : ∀ {c : Prop} [Decidable c] {rest : Option Bool},
    (if c then some false else rest) = some true →
      ¬ c ∧ rest = some true := by
    intro c _ rest hrun
    split_ifs at hrun with hc
    · cases Option.some.inj hrun
    · exact ⟨hc, hrun⟩
  unfold sweepValidateTransaction at h
  cases hdestination : options.destinationAddress with
  | none =>
    rw [hdestination] at h
    cases Option.some.inj h
  | some destinationAddress =>
    rw [hdestination] at h
    dsimp only at h
    rw [hutxo] at h
    obtain ⟨hwallet, h⟩ := hfail h
    obtain ⟨hsigned, h⟩ := hfail h
    obtain ⟨hcount, h⟩ := hfail h
    obtain ⟨hfound, h⟩ := hfail h
    rw [if_pos rfl] at h
    obtain ⟨amountsRight, hamounts, h⟩ := Option.bind_eq_some_iff.mp h
    obtain ⟨hright, h⟩ := hfail h
    obtain ⟨hrbf, h⟩ := hfail h
    obtain ⟨hlocktime, -⟩ := hfail h
    obtain ⟨computed, hcomputed, hdecide⟩ := Option.map_eq_some_iff.mp hamounts
    rw [Bool.not_eq_false] at hright hfound
    rw [hright] at hdecide
    cases computed with
    | none => cases hdecide
    | some amounts =>
      obtain ⟨total, htotal, hless, -, hout, -⟩ := sweepComputeAmounts_eq_some hcomputed
      have hsum : outputsSum tx.vout 0 = amounts.outKoinu := of_decide_eq_true hdecide
      obtain ⟨txOut, hmem, happears⟩ := List.any_eq_true.mp hfound
      refine ⟨destinationAddress, total, rfl, htotal, hless, hsum.trans hout, ?_⟩
      constructor
      · simpa using hwallet
      · simpa using hsigned
      · simpa using hcount
      · refine ⟨txOut, hmem, ?_⟩
        unfold Appears
        exact of_decide_eq_true happears
      · intro huse
        simpa [huse] using hrbf
      · intro hne
        simpa [hne] using hlocktime

/-! ## What a transaction that passes may be -/

/-- The transaction is the sweep: it spends the listed outputs, each once, all outputs pay the
destination, no value is negative, and together they are what the amounts leave behind the fee. -/
structure IsSweep (kp : KeyPlatform) (options : SweepOptions) (destinationAddress : Bytes)
    (tx : Tx) : Prop where
  inputs : (tx.vin.map TxIn.prevout).Perm (options.utxos.map SweepUtxo.outpoint)
  once : (tx.vin.map TxIn.prevout).Nodup
  outputs : ∀ txOut ∈ tx.vout,
    PaysTo kp (chainOfFlag (decide (destinationAddress.head? = some 68))) txOut.scriptPubkey
      destinationAddress
  nonneg : ∀ txOut ∈ tx.vout, 0 ≤ txOut.value.toInt64.toInt
  sum : (tx.vout.map fun txOut => txOut.value.toInt64.toInt).sum =
    ((options.utxos.map SweepUtxo.koinu).sum : ℤ) - (sweepFeeKoinu options).toNat

/-- The amounts are numerals that fit where they are read, no value is negative, and neither sum
leaves 64 bits. -/
structure SumsFit (options : SweepOptions) (tx : Tx) : Prop where
  amounts : ∀ u ∈ options.utxos, ∃ amount, Koinu.numeralKoinu u.amountDoge = some amount ∧
    Koinu.FitsBuffers u.amountDoge amount
  total_lt : (options.utxos.map SweepUtxo.koinu).sum < 2 ^ 64
  nonneg : ∀ txOut ∈ tx.vout, 0 ≤ txOut.value.toInt64.toInt
  values_lt : (tx.vout.map fun txOut => txOut.value.toInt64.toInt).sum < 2 ^ 64

/-- What is left to check: the listed outputs are different and spent, and every output pays the
destination. -/
structure Unchecked (kp : KeyPlatform) (options : SweepOptions) (destinationAddress : Bytes)
    (tx : Tx) : Prop where
  distinct : (options.utxos.map SweepUtxo.outpoint).Nodup
  spent : ∀ u ∈ options.utxos, u.outpoint ∈ tx.vin.map TxIn.prevout
  outputs : ∀ txOut ∈ tx.vout,
    PaysTo kp (chainOfFlag (decide (destinationAddress.head? = some 68))) txOut.scriptPubkey
      destinationAddress

/-- An output that appears and is a payment to a hash pays the destination. -/
theorem Appears.paysTo {kp : KeyPlatform} {txOut : TxOut} (h : Appears kp destinationAddress txOut)
    (hscript : IsP2pkh txOut.scriptPubkey) :
    PaysTo kp (chainOfFlag (decide (destinationAddress.head? = some 68))) txOut.scriptPubkey
      destinationAddress := by
  obtain ⟨hash, hscript⟩ := hscript
  refine ⟨hash, hscript, ?_⟩
  have hlen : (p2pkhScript hash).length = 25 := length_p2pkhScript hash
  have hops : ¬ (((p2pkhScript hash).take ((p2pkhScript hash).length - 4)).drop 2).all
      (· ∈ [opDup, opHash160, opEqualverify, opChecksig]) = true := by
    intro hall
    apply not_onlyOps_p2pkhScript hash
    rw [List.drop_take, Nat.sub_sub, List.all_eq_true] at hall
    exact fun b hb => of_decide_eq_true (hall b hb)
  have hhash : hash160At (p2pkhScript hash) 3 = hash := by
    apply Subtype.ext
    rw [hash160At_eq (by omega)]
    exact List.take_left' hash.2
  unfold Appears at h
  generalize decide (destinationAddress.head? = some 68) = isMainnet at h ⊢
  unfold txOutPubkeyHashToP2pkhAddress at h
  dsimp only at h
  have hchain : (if isMainnet = true then keyParamsMain else keyParamsTest) =
    chainOfFlag isMainnet := rfl
  rw [hscript, if_neg (by omega), if_neg hops, hhash, hchain] at h
  split at h
  · cases h
  · exact (Option.some.inj h).symm

theorem toNat_outputsSum (vout : List TxOut) :
    (outputsSum vout 0).toNat = WrappingSum.total TxOut.value vout % 2 ^ 64 := by
  have h := WrappingSum.toNat_foldl_add TxOut.value vout 0
  rw [UInt64.toNat_zero, Nat.zero_add] at h
  exact h

/-- As many outpoints as are listed are the listed ones, each once, just if those are different and
spent. -/
theorem perm_and_nodup_iff {spent listed : List TxOutpoint} (hlen : spent.length = listed.length) :
    spent.Perm listed ∧ spent.Nodup ↔ listed.Nodup ∧ ∀ o ∈ listed, o ∈ spent := by
  constructor
  · rintro ⟨hperm, hnodup⟩
    exact ⟨hperm.nodup_iff.mp hnodup, fun o ho => hperm.mem_iff.mpr ho⟩
  · rintro ⟨hnodup, hsub⟩
    have hperm := (hnodup.subperm hsub).perm_of_length_le hlen.le
    exact ⟨hperm.symm, hperm.nodup_iff.mp hnodup⟩

/-- Where nothing leaves 64 bits, the outputs are what the amounts leave behind the fee. -/
theorem SumsFit.sum_eq {total : UInt64} (hfit : SumsFit options tx)
    (htotal : sweepOptionsTotalKoinu options = some total) (hless : sweepFeeKoinu options < total)
    (hsum : outputsSum tx.vout 0 = total - sweepFeeKoinu options) :
    (tx.vout.map fun txOut => txOut.value.toInt64.toInt).sum =
      ((options.utxos.map SweepUtxo.koinu).sum : ℤ) - (sweepFeeKoinu options).toNat := by
  have hvalues := sum_toInt64 fun txOut ho => (toInt64_nonneg_iff _).mp (hfit.nonneg txOut ho)
  have hlt := hfit.values_lt
  rw [hvalues] at hlt ⊢
  have hread := toNat_sweepOptionsTotalKoinu htotal hfit.amounts hfit.total_lt
  have hfee := UInt64.lt_iff_toNat_lt.mp hless
  have hout := congrArg UInt64.toNat hsum
  rw [toNat_outputsSum, UInt64.toNat_sub_of_le _ _ (UInt64.le_of_lt hless),
    Nat.mod_eq_of_lt (by omega)] at hout
  omega

/-- What it takes for a checked transaction to be the sweep. -/
theorem ValidateChecks.isSweep_iff (h : ValidateChecks sp tx wallet options destinationAddress)
    (hnonneg : ∀ txOut ∈ tx.vout, 0 ≤ txOut.value.toInt64.toInt)
    (hsum : (tx.vout.map fun txOut => txOut.value.toInt64.toInt).sum =
      ((options.utxos.map SweepUtxo.koinu).sum : ℤ) - (sweepFeeKoinu options).toNat) :
    IsSweep sp.toKeyPlatform options destinationAddress tx ↔
      Unchecked sp.toKeyPlatform options destinationAddress tx := by
  have hinputs := @perm_and_nodup_iff (tx.vin.map TxIn.prevout)
    (options.utxos.map SweepUtxo.outpoint) (by rw [List.length_map, List.length_map, h.count])
  have hmem : (∀ o ∈ options.utxos.map SweepUtxo.outpoint, o ∈ tx.vin.map TxIn.prevout) ↔
      ∀ u ∈ options.utxos, u.outpoint ∈ tx.vin.map TxIn.prevout := List.forall_mem_map
  rw [hmem] at hinputs
  constructor
  · intro hsweep
    obtain ⟨hdistinct, hspent⟩ := hinputs.mp ⟨hsweep.inputs, hsweep.once⟩
    exact ⟨hdistinct, hspent, hsweep.outputs⟩
  · intro hleft
    obtain ⟨hperm, honce⟩ := hinputs.mpr ⟨hleft.distinct, hleft.spent⟩
    exact ⟨hperm, honce, hleft.outputs, hnonneg, hsum⟩

/-- **A transaction that passes** has passed the checks, and among its outputs is one that appears
to go to the destination, which it does if it is a payment to a hash. Where nothing leaves 64 bits,
its values are what the amounts leave behind the fee, and it is the sweep just if what is left to
check holds. -/
theorem sweepValidateTransaction_checks (hutxo : sweepOptionsUtxoOk options = true)
    (h : sweepValidateTransaction sp tx wallet options = some true) :
    ∃ destinationAddress, options.destinationAddress = some destinationAddress ∧
      ValidateChecks sp tx wallet options destinationAddress ∧
      (∀ txOut ∈ tx.vout, Appears sp.toKeyPlatform destinationAddress txOut →
        IsP2pkh txOut.scriptPubkey →
        PaysTo sp.toKeyPlatform (chainOfFlag (decide (destinationAddress.head? = some 68)))
          txOut.scriptPubkey destinationAddress) ∧
      (SumsFit options tx →
        (tx.vout.map fun txOut => txOut.value.toInt64.toInt).sum =
            ((options.utxos.map SweepUtxo.koinu).sum : ℤ) - (sweepFeeKoinu options).toNat ∧
          (IsSweep sp.toKeyPlatform options destinationAddress tx ↔
            Unchecked sp.toKeyPlatform options destinationAddress tx)) := by
  obtain ⟨destinationAddress, total, hdestination, htotal, hless, hout, hchecks⟩ :=
    sweepValidateTransaction_eq_true hutxo h
  refine ⟨destinationAddress, hdestination, hchecks, fun txOut _ happears hscript =>
    happears.paysTo hscript, fun hfit => ?_⟩
  have hsum := hfit.sum_eq htotal hless hout
  exact ⟨hsum, hchecks.isSweep_iff hfit.nonneg hsum⟩

/-! ## Transactions that pass and are no sweep -/

/-- What the validation guarantees of every transaction that passes, for a valid wallet and a
complete list. -/
def ValidationGuarantees (p : KeyPlatform → SweepOptions → Bytes → Tx → Prop) : Prop :=
  ∀ (sp : SweepPlatform) (tx : Tx) (wallet : PaperWallet) (options : SweepOptions)
    (destinationAddress : Bytes), wallet.isValid sp = true → sweepOptionsUtxoOk options = true →
      options.destinationAddress = some destinationAddress →
        sweepValidateTransaction sp tx wallet options = some true →
          p sp.toKeyPlatform options destinationAddress tx

/-- The options for two outputs, of two coins and of one and a half. -/
def sampleTwoCoins : SweepOptions :=
  { sampleSweep [] with utxos :=
      [⟨List.replicate 64 'a', 0, "2.0".toList⟩, ⟨List.replicate 64 'b', 3, "1.5".toList⟩] }

/-- What is left of them behind the fee. -/
def sampleRest : UInt64 := 350000000 - sweepFeeKoinu sampleTwoCoins

/-- A signed transaction that spends two outputs, the second of the listed ones among them. -/
def samplePaid (prevout : TxOutpoint) (vout : List TxOut) : Tx where
  version := 1
  vin := [prevout, ⟨uint256Sethex (List.replicate 64 'b'), 3⟩].map fun prevout =>
    { prevout := prevout, scriptSig := [1], sequence := 0xfffffffd }
  vout := vout
  locktime := 0

/-- The sweep of the two outputs. -/
def sampleSwept : Tx :=
  samplePaid ⟨uint256Sethex (List.replicate 64 'a'), 0⟩
    [{ value := sampleRest, scriptPubkey := p2pkhScript sampleHash }]

/-- The theorem for the sweep of two outputs, whose amounts and values fit. -/
theorem sweepValidateTransaction_checks_sample : ∃ destinationAddress,
    sampleTwoCoins.destinationAddress = some destinationAddress ∧
      ValidateChecks sampleSweeper sampleSwept samplePaperWallet sampleTwoCoins destinationAddress ∧
      (∀ txOut ∈ sampleSwept.vout, Appears sampleSweeper.toKeyPlatform destinationAddress txOut →
        IsP2pkh txOut.scriptPubkey → PaysTo sampleSweeper.toKeyPlatform
          (chainOfFlag (decide (destinationAddress.head? = some 68))) txOut.scriptPubkey
          destinationAddress) ∧
      (sampleSwept.vout.map fun txOut => txOut.value.toInt64.toInt).sum =
          ((sampleTwoCoins.utxos.map SweepUtxo.koinu).sum : ℤ) -
          (sweepFeeKoinu sampleTwoCoins).toNat ∧
        (IsSweep sampleSweeper.toKeyPlatform sampleTwoCoins destinationAddress sampleSwept ↔
          Unchecked sampleSweeper.toKeyPlatform sampleTwoCoins destinationAddress sampleSwept) := by
  obtain ⟨destinationAddress, hdestination, hchecks, hpays, hsums⟩ :=
    @sweepValidateTransaction_checks sampleSweeper sampleSwept samplePaperWallet sampleTwoCoins
      (by decide) (by decide +kernel)
  refine ⟨destinationAddress, hdestination, hchecks, hpays, hsums ?_⟩
  constructor
  · intro u hmem
    obtain rfl | rfl : u = _ ∨ u = _ := by simpa [sampleTwoCoins] using hmem
    · exact ⟨200000000, by decide, by decide⟩
    · exact ⟨150000000, by decide, by decide⟩
  · decide
  · decide
  · decide

/-- An output that is not listed and an output to somebody else pass. -/
theorem not_isSweep_validated : ¬ ValidationGuarantees IsSweep ∧
    ¬ ValidationGuarantees (fun _ options _ tx =>
      (tx.vin.map TxIn.prevout).Perm (options.utxos.map SweepUtxo.outpoint)) ∧
    ¬ ValidationGuarantees (fun kp _ destinationAddress tx => ∀ txOut ∈ tx.vout,
      PaysTo kp (chainOfFlag (decide (destinationAddress.head? = some 68))) txOut.scriptPubkey
        destinationAddress) := by
  have hinputs : ¬ ValidationGuarantees (fun _ options _ tx =>
      (tx.vin.map TxIn.prevout).Perm (options.utxos.map SweepUtxo.outpoint)) := by
    intro hall
    have hperm := hall sampleSweeper
      (samplePaid ⟨Uint256.zero, 5⟩ [⟨sampleRest, p2pkhScript sampleHash⟩]) samplePaperWallet
      sampleTwoCoins _ (by decide +kernel) (by decide) rfl (by decide +kernel)
    exact absurd (hperm.mem_iff.mp List.mem_cons_self) (by decide +kernel)
  refine ⟨fun hall => hinputs fun sp tx wallet options destinationAddress hwallet hutxo
    hdestination h =>
    (hall sp tx wallet options destinationAddress hwallet hutxo hdestination h).inputs, hinputs, ?_⟩
  -- one koinu goes to the destination, the others to an empty script
  intro hall
  have hpays := hall sampleSweeper (samplePaid ⟨uint256Sethex (List.replicate 64 'a'), 0⟩
    [{ value := 1, scriptPubkey := p2pkhScript sampleHash },
      { value := sampleRest - 1, scriptPubkey := [] }])
    samplePaperWallet sampleTwoCoins _ (by decide +kernel) (by decide) rfl (by decide +kernel)
  obtain ⟨hash, hscript, -⟩ := hpays _ (List.mem_cons_of_mem _ List.mem_cons_self)
  have hlen := congrArg List.length hscript
  rw [length_p2pkhScript] at hlen
  cases hlen

end Libdogecoin
