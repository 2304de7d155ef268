/-
# Finalizing into a buffer

`finalize_transaction_ex` does what `finalize_transaction` does, with a loop over the outputs of its
own and a buffer of the caller for the hex string. The older loop keeps the last output's answer to
whether it pays to a hash of a key, the newer one counts all the answers; and the buffer of the
older one has an end.

* `finalizeOutputs_concat`, `finalizeOutputsEx_concat` : both loops end in the same change;
* `finalizesAlike_iff` : the transactions that both functions finalize alike.
-/
import Libdogecoin.TransactionHex

namespace Libdogecoin

namespace TransactionContext

/-- The loop of `finalize_transaction_ex` over the outputs: the table, the sum of the outputs, and
the number of those that pay to a hash of a key. Behind the last output there is the change. -/
def finalizeOutputsEx (wp : WalletPlatform) (ctx : TransactionContext) (txindex : UInt32)
    (isTestnet : Bool) (feeKoinu totalIn : UInt64) (changeaddress : Option Bytes) :
    List TxOut → UInt64 → ℕ → TransactionContext × UInt64 × ℕ
  | [], txOutTotal, p2pkhHits => (ctx, txOutTotal, p2pkhHits)
  | tout :: rest, txOutTotal, p2pkhHits =>
    let txOutTotal := txOutTotal + tout.value
    let p2pkhHits :=
      p2pkhHits + if (txOutPubkeyHashToP2pkhAddress wp.toKeyPlatform tout isTestnet).isSome then
        1 else 0
    match rest, changeaddress with
    | [], some changeaddress =>
      match ctx.makeChangeTs wp txindex changeaddress feeKoinu (totalIn - txOutTotal) with
      | (ctx, false) => (ctx, txOutTotal, p2pkhHits)
      | (ctx, true) =>
        let change := ((ctx.findTransactionTs txindex).bind fun tx => tx.vout.getLast?)
        (ctx, txOutTotal + (change.map TxOut.value).getD 0, p2pkhHits + 1)
    | rest, _ =>
      finalizeOutputsEx wp ctx txindex isTestnet feeKoinu totalIn changeaddress rest
        txOutTotal p2pkhHits

/-- `finalize_transaction_ex` : the table, and what `get_raw_transaction_ex` writes into the buffer
with the length it returns, in the 32 bits of an `int`. Nothing if 0 is returned without a
string. -/
def finalizeTransactionEx (wp : WalletPlatform) (ctx : TransactionContext) (txindex : UInt32)
    (destinationaddress : Bytes) (subtractedfee outDogeamountForVerification : List Char)
    (changeaddress : Option Bytes) (bufCap : ℕ) :
    Option (TransactionContext × Option (List Char × UInt32)) :=
  match ctx.findTransactionTs txindex with
  | none => some (ctx, none)
  | some tx =>
    if bufCap = 0 then some (ctx, none)
    else do
      let isTestnet := chainFromB58PrefixBool destinationaddress
      let feeKoinu ← Koinu.coinsToKoinuStr subtractedfee
      let totalIn ← Koinu.coinsToKoinuStr outDogeamountForVerification
      let expectedTotal := totalIn - feeKoinu
      let (ctx, txOutTotal, p2pkhHits) :=
        ctx.finalizeOutputsEx wp txindex isTestnet feeKoinu totalIn changeaddress tx.vout 0 0
      if p2pkhHits < 1 ∨ txOutTotal ≠ expectedTotal then some (ctx, none)
      else some (ctx, (ctx.getRawTransactionEx txindex bufCap).map fun hex =>
        (hex, UInt32.ofNat hex.length))

/-! ## The end of both loops -/

variable {wp : WalletPlatform} {ctx ctx' : TransactionContext} {txindex : UInt32} {tx tx' : Tx}
  {isTestnet : Bool} {fee out : UInt64} {changeaddress : Option Bytes} {bufCap : ℕ}

/-- What follows the last output: the table, the sum with the change, and 1 if there is change. -/
def closing (wp : WalletPlatform) (ctx : TransactionContext) (txindex : UInt32) (fee out : UInt64)
    (changeaddress : Option Bytes) (sum : UInt64) : TransactionContext × UInt64 × ℕ :=
  match changeaddress with
  | none => (ctx, sum, 0)
  | some changeaddress =>
    match ctx.makeChangeTs wp txindex changeaddress fee (out - sum) with
    | (ctx, false) => (ctx, sum, 0)
    | (ctx, true) =>
      let change := ((ctx.findTransactionTs txindex).bind fun tx => tx.vout.getLast?)
      (ctx, sum + (change.map TxOut.value).getD 0, 1)

/-- The output looks as if it paid to a hash of a key. -/
def paysToHash (wp : WalletPlatform) (isTestnet : Bool) (txOut : TxOut) : Bool :=
  (txOutPubkeyHashToP2pkhAddress wp.toKeyPlatform txOut isTestnet).isSome

/-- The sum of the outputs in 64 bits. -/
def outputsSum (vout : List TxOut) (sum : UInt64) :
    UInt64 := vout.foldl (fun sum txOut => sum + txOut.value) sum

/-- There is a next output as long as the last one was not reached. -/
theorem exists_cons_of_concat (vout : List TxOut) (last : TxOut) :
    ∃ txOut rest, vout ++ [last] = txOut :: rest := by
  cases vout with
  | nil => exact ⟨_, _, rfl⟩
  | cons txOut rest => exact ⟨_, _, rfl⟩

/-- The older loop counts its last output. -/
theorem finalizeOutputs_concat (vout : List TxOut) (last : TxOut) (sum : UInt64) (count : ℕ) :
    ctx.finalizeOutputs wp txindex isTestnet fee out changeaddress (vout ++ [last]) sum count =
      let ended := closing wp ctx txindex fee out changeaddress (outputsSum (vout ++ [last]) sum)
      (ended.1, ended.2.1, (if paysToHash wp isTestnet last then 1 else 0) + ended.2.2) := by
  induction vout generalizing sum count with
  | nil =>
    rw [List.nil_append]
    unfold finalizeOutputs
    cases changeaddress with
    | none => rfl
    | some changeaddress =>
      have hsum : outputsSum [last] sum = sum + last.value := rfl
      unfold closing
      dsimp only
      rw [hsum]
      cases ctx.makeChangeTs wp txindex changeaddress fee (out - (sum + last.value)) with
      | mk ctx' made =>
        cases made with
        | false => rfl
        | true => rfl
  | cons txOut vout ih =>
    obtain ⟨txOut', rest, hrest⟩ := exists_cons_of_concat vout last
    have hloop := ih (sum + txOut.value)
      (if (txOutPubkeyHashToP2pkhAddress wp.toKeyPlatform txOut isTestnet).isSome then 1 else 0)
    rw [List.cons_append, hrest] at *
    unfold finalizeOutputs
    exact hloop

/-- The newer loop counts all outputs. -/
theorem finalizeOutputsEx_concat (vout : List TxOut) (last : TxOut) (sum : UInt64) (hits : ℕ) :
    ctx.finalizeOutputsEx wp txindex isTestnet fee out changeaddress (vout ++ [last]) sum hits =
      let ended := closing wp ctx txindex fee out changeaddress (outputsSum (vout ++ [last]) sum)
      (ended.1, ended.2.1, hits + (vout ++ [last]).countP (paysToHash wp isTestnet) +
        ended.2.2) := by
  induction vout generalizing sum hits with
  | nil =>
    have hcount : [last].countP (paysToHash wp isTestnet) =
        if (txOutPubkeyHashToP2pkhAddress wp.toKeyPlatform last isTestnet).isSome then 1
        else 0 := by
      rw [List.countP_singleton]
      rfl
    rw [List.nil_append, hcount]
    unfold finalizeOutputsEx
    cases changeaddress with
    | none => rfl
    | some changeaddress =>
      have hsum : outputsSum [last] sum = sum + last.value := rfl
      unfold closing
      dsimp only
      rw [hsum]
      cases ctx.makeChangeTs wp txindex changeaddress fee (out - (sum + last.value)) with
      | mk ctx' made =>
        cases made with
        | false => rfl
        | true => rfl
  | cons txOut vout ih =>
    obtain ⟨txOut', rest, hrest⟩ := exists_cons_of_concat vout last
    have hcount : (txOut :: (vout ++ [last])).countP (paysToHash wp isTestnet) =
        (if (txOutPubkeyHashToP2pkhAddress wp.toKeyPlatform txOut isTestnet).isSome then 1 else 0) +
          (vout ++ [last]).countP (paysToHash wp isTestnet) := by
      rw [List.countP_cons, Nat.add_comm]
      rfl
    have hloop := ih (sum + txOut.value)
      (hits + if (txOutPubkeyHashToP2pkhAddress wp.toKeyPlatform txOut isTestnet).isSome then
        1 else 0)
    rw [List.cons_append, hcount, ← Nat.add_assoc]
    rw [hrest] at hloop ⊢
    unfold finalizeOutputsEx
    exact hloop

/-! ## The change -/

/-- The transaction with the change that follows its outputs, if there is change. -/
def withChange (wp : WalletPlatform) (tx : Tx) (fee out : UInt64) (changeaddress : Option Bytes) :
    Option Tx :=
  changeaddress.bind fun changeaddress =>
    let amount := out - outputsSum tx.vout 0
    if tx.vout = [] ∨ amount = fee then none
    else addAddressOutputTs wp tx (chainFromB58Prefix changeaddress) (amount - fee) changeaddress

/-- With change, the sums are what they should be. -/
theorem closing_of_change (hfind : ctx.findTransactionTs txindex = some tx)
    (h : withChange wp tx fee out changeaddress = some tx') :
    closing wp ctx txindex fee out changeaddress (outputsSum tx.vout 0) =
      (ctx.setTransaction txindex tx', out - fee, 1) := by
  obtain ⟨address, rfl, hadd⟩ := Option.bind_eq_some_iff.mp h
  dsimp only at hadd
  split_ifs at hadd with hno
  rw [not_or] at hno
  obtain ⟨scratch, hscratch, rfl⟩ := Option.map_eq_some_iff.mp hadd
  obtain ⟨script, hvout⟩ := txAddAddressOut_eq_some hscratch
  have hmade : ctx.makeChangeTs wp txindex address fee (out - outputsSum tx.vout 0) =
      (ctx.setTransaction txindex { tx with vout := tx.vout ++ scratch.vout }, true) := by
    unfold makeChangeTs
    rw [if_neg hno.2, hfind]
    dsimp only
    rw [hadd]
  unfold closing
  dsimp only
  rw [hmade]
  dsimp only
  rw [findTransactionTs_setTransaction hfind]
  have hlast : (tx.vout ++ scratch.vout).getLast? =
      some { value := out - outputsSum tx.vout 0 - fee, scriptPubkey := script } := by
    rw [hvout]
    exact List.getLast?_concat
  have hsum : outputsSum tx.vout 0 + (out - outputsSum tx.vout 0 - fee) = out - fee := by
    grind
  rw [Option.bind_some]
  dsimp only
  rw [hlast, Option.map_some, Option.getD_some]
  dsimp only
  rw [hsum]

/-- Without change, everything stays. -/
theorem closing_of_no_change (hfind : ctx.findTransactionTs txindex = some tx)
    (hvout : tx.vout ≠ []) (h : withChange wp tx fee out changeaddress = none) :
    closing wp ctx txindex fee out changeaddress (outputsSum tx.vout 0) =
      (ctx, outputsSum tx.vout 0, 0) := by
  cases changeaddress with
  | none => rfl
  | some address =>
    unfold withChange at h
    rw [Option.bind_some] at h
    dsimp only at h
    have hnot : ctx.makeChangeTs wp txindex address fee (out - outputsSum tx.vout 0) =
      (ctx, false) := by
      unfold makeChangeTs
      by_cases hspent : out - outputsSum tx.vout 0 = fee
      · rw [if_pos hspent]
      · rw [if_neg hspent, hfind]
        dsimp only
        rw [if_neg (not_or.mpr ⟨hvout, hspent⟩)] at h
        rw [h]
    unfold closing
    dsimp only
    rw [hnot]

/-! ## Both functions -/

/-- The string that comes with a number other than 0. -/
def written (result : Option (List Char × UInt32)) : Option (List Char) :=
  (result.filter fun result => result.2 ≠ 0).map Prod.fst

/-- With a buffer that is large enough, both functions leave the same table and write the same
string, or neither writes one. -/
def FinalizesAlike (wp : WalletPlatform) (ctx : TransactionContext) (txindex : UInt32)
    (destinationaddress : Bytes) (subtractedfee outDoge : List Char)
    (changeaddress : Option Bytes) : Prop :=
  ∃ enough, ∀ bufCap ≥ enough,
    (ctx.finalizeTransactionEx wp txindex destinationaddress subtractedfee outDoge
      changeaddress bufCap).map (fun outcome => (outcome.1, written outcome.2)) =
      ctx.finalizeTransactionTs wp txindex destinationaddress subtractedfee outDoge changeaddress

/-- The length of the string has no place in an `int`, and 0 is returned. -/
def ReturnsZero (tx : Tx) : Prop := UInt32.ofNat ((txSerialize tx).length * 2) = 0

/-- A transaction has a version at least. -/
theorem length_txSerialize_pos (tx : Tx) : 0 < (txSerialize tx).length := by
  have hversion : (serU32 tx.version).length = 4 := LittleEndian.length_toBytes 4 _
  unfold txSerialize
  simp only [List.length_append, hversion]
  omega

theorem getRawTransactionEx_of_room (hfind : ctx.findTransactionTs txindex = some tx)
    (hroom : (txSerialize tx).length * 2 + 1 ≤ bufCap) :
    ctx.getRawTransactionEx txindex bufCap = some (utilsUint8ToHex (txSerialize tx)) := by
  unfold getRawTransactionEx
  rw [hfind]
  exact if_neg (Nat.not_lt.mpr hroom)

/-- What comes with the string of a transaction. -/
theorem written_of_room (hfind : ctx.findTransactionTs txindex = some tx)
    (hroom : (txSerialize tx).length * 2 + 1 ≤ bufCap) :
    (written ((ctx.getRawTransactionEx txindex bufCap).map fun hex =>
      (hex, UInt32.ofNat hex.length)) = none ↔
        ReturnsZero tx) ∧
      (¬ ReturnsZero tx →
        written ((ctx.getRawTransactionEx txindex bufCap).map fun hex =>
          (hex, UInt32.ofNat hex.length)) =
          some (utilsUint8ToHex (txSerialize tx))) := by
  rw [getRawTransactionEx_of_room hfind hroom]
  unfold written ReturnsZero
  rw [Option.map_some, length_utilsUint8ToHex, Nat.mul_comm 2]
  by_cases hzero : UInt32.ofNat ((txSerialize tx).length * 2) = 0
  · simp [hzero]
  · simp

section Outcomes

variable {destinationaddress : Bytes} {subtractedfee outDoge : List Char}
  {front : List TxOut} {last : TxOut}

/-- The older function on a transaction with outputs. -/
theorem finalizeTransactionTs_eq (hfind : ctx.findTransactionTs txindex = some tx)
    (hfee : Koinu.coinsToKoinuStr subtractedfee = some fee)
    (hout : Koinu.coinsToKoinuStr outDoge = some out)
    (hvout : tx.vout = front ++ [last]) {sum : UInt64} {made : ℕ}
    (hclosing : closing wp ctx txindex fee out changeaddress (outputsSum tx.vout 0) =
      (ctx', sum, made)) :
    ctx.finalizeTransactionTs wp txindex destinationaddress subtractedfee outDoge changeaddress =
      if (if paysToHash wp (chainFromB58PrefixBool destinationaddress) last then 1 else 0) +
        made < 1 then
        some (ctx', none)
      else if sum ≠ out - fee then some (ctx', none)
      else some (ctx', ctx'.getRawTransactionTs txindex) := by
  rw [hvout] at hclosing
  unfold finalizeTransactionTs
  rw [hfind, hfee, hout]
  dsimp only [Option.bind_eq_bind, Option.bind_some]
  rw [hvout, finalizeOutputs_concat, hclosing]

/-- The newer function on a transaction with outputs. -/
theorem finalizeTransactionEx_eq (hfind : ctx.findTransactionTs txindex = some tx)
    (hfee : Koinu.coinsToKoinuStr subtractedfee = some fee)
    (hout : Koinu.coinsToKoinuStr outDoge = some out)
    (hvout : tx.vout = front ++ [last]) {sum : UInt64} {made bufCap : ℕ} (hcap : bufCap ≠ 0)
    (hclosing : closing wp ctx txindex fee out changeaddress (outputsSum tx.vout 0) =
      (ctx', sum, made)) :
    ctx.finalizeTransactionEx wp txindex destinationaddress subtractedfee outDoge
      changeaddress bufCap =
      if tx.vout.countP (paysToHash wp (chainFromB58PrefixBool destinationaddress)) + made < 1 ∨
      sum ≠ out - fee then
        some (ctx', none)
      else some (ctx', (ctx'.getRawTransactionEx txindex bufCap).map fun hex =>
        (hex, UInt32.ofNat hex.length)) := by
  rw [hvout] at hclosing ⊢
  unfold finalizeTransactionEx
  rw [hfind, hfee, hout]
  dsimp only [Option.bind_eq_bind, Option.bind_some]
  rw [if_neg hcap, hvout, finalizeOutputsEx_concat, hclosing, Nat.zero_add]

/-- Where the newer function writes what the older one would. -/
theorem alike_written_iff (hfind : ctx'.findTransactionTs txindex = some tx')
    (result : Option (List Char)) :
    (∃ enough, ∀ bufCap ≥ enough,
        written ((ctx'.getRawTransactionEx txindex bufCap).map fun hex =>
          (hex, UInt32.ofNat hex.length)) = result) ↔
      ReturnsZero tx' ∧ result = none ∨ ¬ ReturnsZero tx' ∧
      result = some (utilsUint8ToHex (txSerialize tx')) := by
  constructor
  · rintro ⟨enough, hall⟩
    have hroom := written_of_room hfind (Nat.le_max_right enough ((txSerialize tx').length * 2 + 1))
    have hsame := hall _ (Nat.le_max_left enough ((txSerialize tx').length * 2 + 1))
    by_cases hzero : ReturnsZero tx'
    · exact Or.inl ⟨hzero, hsame.symm.trans (hroom.1.mpr hzero)⟩
    · exact Or.inr ⟨hzero, hsame.symm.trans (hroom.2 hzero)⟩
  · rintro (⟨hzero, rfl⟩ | ⟨hzero, rfl⟩)
    · exact ⟨_, fun bufCap hcap => (written_of_room hfind hcap).1.mpr hzero⟩
    · exact ⟨_, fun bufCap hcap => (written_of_room hfind hcap).2 hzero⟩

/-- The buffer is not empty. -/
theorem finalizesAlike_of_eq {result : Option (List Char)} {text : ℕ → Option (List Char × UInt32)}
    (hts : ctx.finalizeTransactionTs wp txindex destinationaddress subtractedfee
      outDoge changeaddress =
      some (ctx', result))
    (hex : ∀ bufCap, bufCap ≠ 0 →
      ctx.finalizeTransactionEx wp txindex destinationaddress subtractedfee outDoge
        changeaddress bufCap =
        some (ctx', text bufCap)) :
    FinalizesAlike wp ctx txindex destinationaddress subtractedfee outDoge changeaddress ↔
      ∃ enough, ∀ bufCap ≥ enough, written (text bufCap) = result := by
  unfold FinalizesAlike
  rw [hts]
  constructor
  · rintro ⟨enough, hall⟩
    refine ⟨enough + 1, fun bufCap hcap => ?_⟩
    have hsame := hall bufCap (Nat.le_of_succ_le hcap)
    rw [hex bufCap (by omega)] at hsame
    exact (Prod.mk.inj (Option.some.inj hsame)).2
  · rintro ⟨enough, hall⟩
    refine ⟨enough + 1, fun bufCap hcap => ?_⟩
    rw [hex bufCap (by omega), Option.map_some, hall bufCap (Nat.le_of_succ_le hcap)]

/-- Both functions return zero and leave the table. -/
theorem finalizesAlike_of_refused
    (hts : ctx.finalizeTransactionTs wp txindex destinationaddress subtractedfee
      outDoge changeaddress =
      some (ctx, none))
    (hex : ∀ bufCap, bufCap ≠ 0 → ctx.finalizeTransactionEx wp txindex
      destinationaddress subtractedfee outDoge changeaddress bufCap = some (ctx, none)) :
    FinalizesAlike wp ctx txindex destinationaddress subtractedfee outDoge changeaddress :=
  (@finalizesAlike_of_eq _ _ _ _ _ _ _ _ _ (fun _ => none) hts hex).mpr ⟨0, fun _ _ => rfl⟩

theorem getRawTransactionTs_eq (hfind : ctx'.findTransactionTs txindex = some tx') :
    ctx'.getRawTransactionTs txindex =
      if (txSerialize tx').length > 99999 then none
      else some (utilsUint8ToHex (txSerialize tx')) := by
  unfold getRawTransactionTs
  rw [hfind]

/-- A table whose transaction both functions write. -/
theorem alike_raw_iff (hfind : ctx'.findTransactionTs txindex = some tx') :
    (∃ enough, ∀ bufCap ≥ enough,
        written ((ctx'.getRawTransactionEx txindex bufCap).map fun hex =>
          (hex, UInt32.ofNat hex.length)) =
          ctx'.getRawTransactionTs txindex) ↔
      ReturnsZero tx' ∨ (txSerialize tx').length ≤ 99999 := by
  rw [alike_written_iff hfind, getRawTransactionTs_eq hfind]
  by_cases hlong : (txSerialize tx').length > 99999
  · rw [if_pos hlong]
    simp [Nat.not_le.mpr hlong]
  · rw [if_neg hlong]
    have hshort : (txSerialize tx').length ≤ 99999 := Nat.not_lt.mp hlong
    have hsmall : ¬ ReturnsZero tx' := by
      unfold ReturnsZero
      intro hzero
      have hlt : (txSerialize tx').length * 2 < 2 ^ 32 := by omega
      have hnat := congrArg UInt32.toNat hzero
      rw [UInt32.toNat_ofNat_of_lt' hlt] at hnat
      have hpos := length_txSerialize_pos tx'
      rw [UInt32.toNat_zero] at hnat
      omega
    simp [hsmall, hshort]

theorem finalizesAlike_of_no_outputs (hfind : ctx.findTransactionTs txindex = some tx)
    (hvout : tx.vout = []) (hfee : Koinu.coinsToKoinuStr subtractedfee = some fee)
    (hout : Koinu.coinsToKoinuStr outDoge = some out) :
    FinalizesAlike wp ctx txindex destinationaddress subtractedfee outDoge changeaddress := by
  apply finalizesAlike_of_refused
  · unfold finalizeTransactionTs
    rw [hfind, hfee, hout]
    dsimp only [Option.bind_eq_bind, Option.bind_some]
    rw [hvout]
    rfl
  · intro bufCap hcap
    unfold finalizeTransactionEx
    rw [hfind, hfee, hout]
    dsimp only [Option.bind_eq_bind, Option.bind_some]
    rw [if_neg hcap, hvout]
    rfl

/-- With change, the last output is the change. -/
theorem finalizesAlike_of_change (hfind : ctx.findTransactionTs txindex = some tx)
    (hfee : Koinu.coinsToKoinuStr subtractedfee = some fee)
    (hout : Koinu.coinsToKoinuStr outDoge = some out)
    (hvout : tx.vout = front ++ [last])
    (hchange : withChange wp tx fee out changeaddress = some tx') :
    FinalizesAlike wp ctx txindex destinationaddress subtractedfee outDoge changeaddress ↔
      ReturnsZero tx' ∨ (txSerialize tx').length ≤ 99999 := by
  have hclosing := closing_of_change hfind hchange
  have hts := @finalizeTransactionTs_eq _ _ _ _ _ _ _ _ destinationaddress _ _ _ _ hfind hfee hout
    hvout _ _ hclosing
  rw [if_neg (by omega), if_neg (not_not.mpr rfl)] at hts
  have hex := fun bufCap hcap =>
    @finalizeTransactionEx_eq _ _ _ _ _ _ _ _ destinationaddress _ _ _ _
    hfind hfee hout hvout _ _ bufCap hcap hclosing
  rw [← alike_raw_iff (findTransactionTs_setTransaction hfind tx')]
  refine finalizesAlike_of_eq hts fun bufCap hcap => ?_
  rw [hex bufCap hcap, if_neg]
  rintro (hnone | hsum)
  · omega
  · exact hsum rfl

/-- Without change, the sum is that of the outputs, and the older function has seen the last one
only. -/
theorem finalizesAlike_of_no_change (hfind : ctx.findTransactionTs txindex = some tx)
    (hfee : Koinu.coinsToKoinuStr subtractedfee = some fee)
    (hout : Koinu.coinsToKoinuStr outDoge = some out)
    (hvout : tx.vout = front ++ [last]) (hchange : withChange wp tx fee out changeaddress = none) :
    FinalizesAlike wp ctx txindex destinationaddress subtractedfee outDoge changeaddress ↔
      (outputsSum tx.vout 0 = out - fee →
        (∃ txOut ∈ tx.vout, paysToHash wp
          (chainFromB58PrefixBool destinationaddress) txOut = true) →
        ReturnsZero tx ∨ paysToHash wp (chainFromB58PrefixBool destinationaddress) last = true ∧
          (txSerialize tx).length ≤ 99999) := by
  have hne : tx.vout ≠ [] := by
    rw [hvout]
    exact List.append_ne_nil_of_right_ne_nil _ (List.cons_ne_nil _ _)
  have hclosing := closing_of_no_change hfind hne hchange
  have hts := @finalizeTransactionTs_eq _ _ _ _ _ _ _ _ destinationaddress _ _ _ _ hfind hfee hout
    hvout _ _ hclosing
  have hex := fun bufCap hcap =>
    @finalizeTransactionEx_eq _ _ _ _ _ _ _ _ destinationaddress _ _ _ _
    hfind hfee hout hvout _ _ bufCap hcap hclosing
  simp only [Nat.add_zero] at hts hex
  by_cases hsum : outputsSum tx.vout 0 = out - fee
  · by_cases hany : ∃ txOut ∈ tx.vout,
      paysToHash wp (chainFromB58PrefixBool destinationaddress) txOut = true
    · have hcount : ¬ (tx.vout.countP
        (paysToHash wp (chainFromB58PrefixBool destinationaddress)) < 1 ∨
          outputsSum tx.vout 0 ≠ out - fee) := by
        rw [not_or, Nat.not_lt, not_not]
        exact ⟨List.countP_pos_iff.mpr hany, hsum⟩
      have hexText := fun bufCap hcap => (hex bufCap hcap).trans (if_neg hcount)
      by_cases hlast : paysToHash wp (chainFromB58PrefixBool destinationaddress) last = true
      · rw [if_pos hlast, if_neg (by decide), if_neg (not_not.mpr hsum)] at hts
        rw [finalizesAlike_of_eq hts hexText, alike_raw_iff hfind]
        simp [hsum, hany, hlast]
      · rw [if_neg hlast, if_pos (by decide)] at hts
        rw [finalizesAlike_of_eq hts hexText, alike_written_iff hfind]
        simp [hsum, hany, hlast]
    · have hcount : tx.vout.countP
        (paysToHash wp (chainFromB58PrefixBool destinationaddress)) < 1 := by
        rw [Nat.lt_one_iff, List.countP_eq_zero]
        exact fun txOut hmem hpays => hany ⟨txOut, hmem, hpays⟩
      have hlast : paysToHash wp (chainFromB58PrefixBool destinationaddress) last ≠ true := by
        intro hpays
        refine hany ⟨last, ?_, hpays⟩
        rw [hvout]
        exact List.mem_append_right _ (List.mem_singleton.mpr rfl)
      rw [if_neg hlast, if_pos (by decide)] at hts
      exact iff_of_true (finalizesAlike_of_refused hts fun bufCap hcap =>
        (hex bufCap hcap).trans (if_pos (Or.inl hcount))) fun _ hpays => absurd hpays hany
  · rw [if_pos hsum, ite_self] at hts
    exact iff_of_true (finalizesAlike_of_refused hts fun bufCap hcap =>
      (hex bufCap hcap).trans (if_pos (Or.inr hsum))) fun hequal => absurd hequal hsum

/-- Neither function does anything with an index that is not in the table. -/
theorem finalizesAlike_of_unknown (hfind : ctx.findTransactionTs txindex = none) :
    FinalizesAlike wp ctx txindex destinationaddress subtractedfee outDoge changeaddress := by
  apply finalizesAlike_of_refused
  · unfold finalizeTransactionTs
    rw [hfind]
  · intro bufCap _
    unfold finalizeTransactionEx
    rw [hfind]

/-- Amounts that are not read stop both. -/
theorem finalizesAlike_of_unread (hfind : ctx.findTransactionTs txindex = some tx)
    (hread : ¬ ∃ fee out, Koinu.coinsToKoinuStr subtractedfee = some fee ∧
      Koinu.coinsToKoinuStr outDoge = some out) :
    FinalizesAlike wp ctx txindex destinationaddress subtractedfee outDoge changeaddress := by
  have hts : ctx.finalizeTransactionTs wp txindex destinationaddress subtractedfee
    outDoge changeaddress = none := by
    unfold finalizeTransactionTs
    rw [hfind]
    cases hfee : Koinu.coinsToKoinuStr subtractedfee with
    | none => rfl
    | some fee =>
      cases hout : Koinu.coinsToKoinuStr outDoge with
      | none => rfl
      | some out => exact absurd ⟨fee, out, hfee, hout⟩ hread
  have hex : ∀ bufCap, bufCap ≠ 0 →
    ctx.finalizeTransactionEx wp txindex destinationaddress subtractedfee
      outDoge changeaddress bufCap = none := by
    intro bufCap hcap
    unfold finalizeTransactionEx
    rw [hfind]
    dsimp only
    rw [if_neg hcap]
    cases hfee : Koinu.coinsToKoinuStr subtractedfee with
    | none => rfl
    | some fee =>
      cases hout : Koinu.coinsToKoinuStr outDoge with
      | none => rfl
      | some out => exact absurd ⟨fee, out, hfee, hout⟩ hread
  refine ⟨1, fun bufCap hcap => ?_⟩
  rw [hex bufCap (by omega), hts]
  rfl

end Outcomes

/-- **Both functions finalize a transaction alike** when its string is not too long for the older
one, and, unless there is change, its last output pays to a hash of a key if any output does. -/
theorem finalizesAlike_iff (wp : WalletPlatform) (ctx : TransactionContext) (txindex : UInt32)
    (destinationaddress : Bytes) (subtractedfee outDoge : List Char)
    (changeaddress : Option Bytes) :
    FinalizesAlike wp ctx txindex destinationaddress subtractedfee outDoge changeaddress ↔
      ∀ tx fee out, ctx.findTransactionTs txindex = some tx →
      Koinu.coinsToKoinuStr subtractedfee = some fee →
        Koinu.coinsToKoinuStr outDoge = some out →
        (∀ tx', withChange wp tx fee out changeaddress = some tx' →
          ReturnsZero tx' ∨ (txSerialize tx').length ≤ 99999) ∧
        (withChange wp tx fee out changeaddress = none → outputsSum tx.vout 0 = out - fee →
          (∃ txOut ∈ tx.vout, paysToHash wp
            (chainFromB58PrefixBool destinationaddress) txOut = true) →
          ReturnsZero tx ∨ (∃ last, tx.vout.getLast? = some last ∧
            paysToHash wp (chainFromB58PrefixBool destinationaddress) last = true) ∧
              (txSerialize tx).length ≤ 99999) := by
  cases hfind : ctx.findTransactionTs txindex with
  | none =>
    refine iff_of_true (finalizesAlike_of_unknown hfind) ?_
    intro tx fee out htx
    cases htx
  | some tx =>
    by_cases hread : ∃ fee out, Koinu.coinsToKoinuStr subtractedfee = some fee ∧
        Koinu.coinsToKoinuStr outDoge = some out
    · obtain ⟨fee, out, hfee, hout⟩ := hread
      have honly : ∀ {P : Tx → UInt64 → UInt64 → Prop},
          (∀ tx' fee' out', some tx = some tx' → Koinu.coinsToKoinuStr subtractedfee = some fee' →
            Koinu.coinsToKoinuStr outDoge = some out' → P tx' fee' out') ↔ P tx fee out := by
        intro P
        constructor
        · exact fun hall => hall tx fee out rfl hfee hout
        · intro hP tx' fee' out' htx hfee' hout'
          obtain rfl := Option.some.inj htx
          obtain rfl := Option.some.inj (hfee.symm.trans hfee')
          obtain rfl := Option.some.inj (hout.symm.trans hout')
          exact hP
      rw [honly]
      rcases List.eq_nil_or_concat tx.vout with hvout | ⟨front, last, hvout⟩
      · have hchange : withChange wp tx fee out changeaddress = none := by
          unfold withChange
          cases changeaddress with
          | none => rfl
          | some address => exact if_pos (Or.inl hvout)
        refine iff_of_true (finalizesAlike_of_no_outputs hfind hvout hfee hout) ⟨?_, ?_⟩
        · intro tx' htx'
          rw [hchange] at htx'
          cases htx'
        · rintro - - ⟨txOut, hmem, -⟩
          rw [hvout] at hmem
          cases hmem
      · rw [List.concat_eq_append] at hvout
        have hlast : tx.vout.getLast? = some last := by
          rw [hvout]
          exact List.getLast?_concat
        cases hchange : withChange wp tx fee out changeaddress with
        | some tx' =>
          rw [finalizesAlike_of_change hfind hfee hout hvout hchange]
          simp
        | none =>
          rw [finalizesAlike_of_no_change hfind hfee hout hvout hchange]
          simp [hlast]
    · refine iff_of_true (finalizesAlike_of_unread hfind hread) ?_
      exact fun tx fee out _ hfee hout => absurd ⟨fee, out, hfee, hout⟩ hread

/-- One coin to the hash of a key, and one to the hash of a script. -/
def twoOutputsTx : Tx := txAddP2shHash160Out (payingTx 100000000) 100000000 sampleHash

/-- The table with that transaction. -/
def twoOutputsContext : TransactionContext where
  transactions := [{ idx := 1, transaction := twoOutputsTx }]
  nextIdx := 1

/-- The newer function finalizes this transaction and the older one does not. -/
theorem not_finalizesAlike : ¬ ∀ (wp : WalletPlatform) (ctx : TransactionContext) (txindex : UInt32)
    (destinationaddress : Bytes) (subtractedfee outDoge : List Char) (changeaddress : Option Bytes),
    FinalizesAlike wp ctx txindex destinationaddress subtractedfee outDoge changeaddress := by
  intro hall
  have halike := hall sampleWallet twoOutputsContext 1 sampleAddress "1.0".toList "3.0".toList none
  have hfee : Koinu.coinsToKoinuStr "1.0".toList = some 100000000 := rfl
  have hout : Koinu.coinsToKoinuStr "3.0".toList = some 300000000 := rfl
  have hvout : twoOutputsTx.vout = [⟨100000000, p2pkhScript sampleHash⟩] ++
    [⟨100000000, p2shScript sampleHash⟩] := rfl
  rw [@finalizesAlike_of_no_change _ _ _ twoOutputsTx _ _ _ _ _ _ _ _ rfl hfee hout
    hvout rfl] at halike
  have hpays : ∃ txOut ∈ twoOutputsTx.vout,
    paysToHash sampleWallet (chainFromB58PrefixBool sampleAddress) txOut = true := by
    decide
  rcases halike rfl hpays with hzero | ⟨hlast, -⟩
  · unfold ReturnsZero at hzero
    exact absurd hzero (by decide)
  · exact absurd hlast (by decide)

end TransactionContext

end Libdogecoin
