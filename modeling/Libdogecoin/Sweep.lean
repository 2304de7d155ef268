/-
# Sweeping paper wallets

`sweep.c` : all listed outputs are spent to one address, less a fee. The amounts come as strings,
are added up in 64 bits, become strings again for the functions of `transaction.c`, and are read a
second time there. A string that is missing is the empty one. Decryption of an encrypted key stands
as a parameter.

* `sweepWalletsImpl_sound_iff` : the sweeps that pay what they say.
-/
import Libdogecoin.KoinuNumeral
import Libdogecoin.MultisigSpend
import Libdogecoin.TransactionHex

namespace Libdogecoin

/-- What a sweep takes from outside. -/
structure SweepPlatform extends SpendPlatform where
  /-- `dogecoin_bip38_decrypt` : the key in an encrypted key, for a passphrase. -/
  bip38Decrypt : Bytes → Bytes → Option Bytes

/-! ## Data -/

/-- `dogecoin_sweep_utxo`, with the bit pattern of its signed index. -/
structure SweepUtxo where
  txid : List Char
  vout : UInt32
  amountDoge : List Char

/-- `dogecoin_sweep_options`, without the copies of the first output. -/
structure SweepOptions where
  destinationAddress : Option Bytes
  feePerByte : UInt64
  minFee : UInt64
  maxFee : UInt64
  useRbf : Bool
  locktime : UInt32
  utxos : List SweepUtxo

/-- `dogecoin_paper_wallet`, with the prefix of secret keys of its chain. -/
structure PaperWallet where
  privateKeyWif : Option Bytes
  privateKeyHex : Option (List Char)
  encryptedPrivateKey : Option Bytes
  passphrase : Option Bytes
  address : Option Bytes
  compressed : Bool
  chainParams : Option UInt8

/-- `dogecoin_sweep_result`. -/
structure SweepResult where
  success : Bool
  errorMessage : Option String
  transactionHex : Option (List Char)
  transactionId : Option (List Char)
  amountSwept : UInt64
  feePaid : UInt64
  destinationAddress : Option Bytes

/-- `dogecoin_sweep_result_new` with `sweep_result_fail`. -/
def SweepResult.fail (msg : String) : SweepResult where
  success := false
  errorMessage := some msg
  transactionHex := none
  transactionId := none
  amountSwept := 0
  feePaid := 0
  destinationAddress := none

/-! ## Paper wallets -/

namespace PaperWallet

/-- `dogecoin_paper_wallet_get_private_key`. -/
def getPrivateKey (sp : SweepPlatform) (wallet : PaperWallet) : Option Bytes :=
  match wallet.privateKeyHex with
  | some hex => if (utilsHexToBin hex).length = 32 then some (utilsHexToBin hex) else none
  | none =>
    match wallet.encryptedPrivateKey, wallet.passphrase with
    | some encrypted, some passphrase => sp.bip38Decrypt encrypted passphrase
    | _, _ =>
      match wallet.privateKeyWif, wallet.chainParams with
      | some wif, some secretAddress => decodeWif sp.toWalletPlatform wif secretAddress
      | _, _ => none

/-- `dogecoin_paper_wallet_is_valid`. -/
def isValid (sp : SweepPlatform) (wallet : PaperWallet) : Bool :=
  (wallet.privateKeyWif.isSome || wallet.privateKeyHex.isSome ||
    wallet.encryptedPrivateKey.isSome) &&
    wallet.address.isSome && !(wallet.privateKeyWif.isSome && wallet.chainParams.isNone) &&
    (wallet.getPrivateKey sp).isSome

/-- `dogecoin_bip38_private_key_to_wif` into a buffer of a size. -/
def privateKeyToWif (sp : SweepPlatform) (privateKey : Bytes) (chain : Option UInt8)
    (compressed : Bool) (wifSize : ℕ) : Option Bytes :=
  match chain with
  | none => none
  | some secretAddress =>
    let wif := sp.base58EncodeCheck (secretAddress :: privateKey ++ if compressed then [1] else [])
    if wif.length + 1 > wifSize then none else some wif

/-- `dogecoin_paper_wallet_get_wif` into a buffer of a size. -/
def getWif (sp : SweepPlatform) (wallet : PaperWallet) (wifSize : ℕ) : Option Bytes :=
  match wallet.privateKeyWif with
  | some wif => if wif.length ≥ wifSize then none else some wif
  | none =>
    match wallet.getPrivateKey sp with
    | none => none
    | some privateKey => privateKeyToWif sp privateKey wallet.chainParams wallet.compressed wifSize

end PaperWallet

/-- `dogecoin_p2pkh_address_to_pubkey_hash` : the script in hex. -/
def p2pkhAddressToPubkeyHash (wp : WalletPlatform) (p2pkh : Bytes) : Option (List Char) :=
  (wp.base58DecodeCheck p2pkh 35).map fun dec =>
    utilsUint8ToHex [opDup, opHash160, 20] ++
      ((utilsUint8ToHex (dec.take (dec.length - 4))).drop 2).take 40 ++
        utilsUint8ToHex [opEqualverify, opChecksig]

/-- `sweep_script_pubkey_from_wallet`. -/
def sweepScriptPubkeyFromWallet (sp : SweepPlatform) (wallet : PaperWallet) : Option (List Char) :=
  wallet.address.bind fun address => p2pkhAddressToPubkeyHash sp.toWalletPlatform address

/-! ## Amounts -/

/-- `sweep_options_utxo_ok`. -/
def sweepOptionsUtxoOk (o : SweepOptions) : Bool :=
  o.utxos ≠ [] && o.utxos.all fun u => u.txid ≠ [] && u.vout < 0x80000000 && u.amountDoge ≠ []

/-- `sweep_options_total_koinu`. -/
def sweepOptionsTotalKoinu (options : SweepOptions) : Option UInt64 :=
  options.utxos.foldlM (fun total u => (Koinu.coinsToKoinuStr u.amountDoge).map fun koinu =>
    total + koinu) 0

/-- `sweep_estimate_vsize`. -/
def sweepEstimateVsize (inputCount : ℕ) :
    ℕ := 10 + (if inputCount = 0 then 1 else inputCount) * 180 + 34

/-- The fee of `sweep_compute_amounts`. -/
def sweepFeeKoinu (options : SweepOptions) : UInt64 :=
  let feeKoinu := options.feePerByte * UInt64.ofNat (sweepEstimateVsize options.utxos.length)
  let feeKoinu := if feeKoinu < options.minFee then options.minFee else feeKoinu
  if feeKoinu > options.maxFee then options.maxFee else feeKoinu

/-- What `sweep_compute_amounts` writes. -/
structure SweepAmounts where
  feeKoinu : UInt64
  outKoinu : UInt64
  feeDoge : List Char
  outDoge : List Char

/-- `sweep_compute_amounts` : nothing inside where it returns false. -/
def sweepComputeAmounts (options : SweepOptions) : Option (Option SweepAmounts) := do
  let totalKoinu ← sweepOptionsTotalKoinu options
  let feeKoinu := sweepFeeKoinu options
  if totalKoinu ≤ feeKoinu then some none
  else
    let outKoinu := totalKoinu - feeKoinu
    match Koinu.koinuToCoinsStr feeKoinu 64, Koinu.koinuToCoinsStr outKoinu 64 with
    | some feeDoge, some outDoge => some (some ⟨feeKoinu, outKoinu, feeDoge, outDoge⟩)
    | _, _ => some none

/-! ## The transaction -/

/-- `sweep_apply_tx_flags`. -/
def sweepApplyTxFlags (options : SweepOptions) (ctx : TransactionContext) (txindex : UInt32) :
    TransactionContext :=
  match ctx.findTransactionTs txindex with
  | none => ctx
  | some tx =>
    let tx := if options.locktime ≠ 0 then { tx with locktime := options.locktime } else tx
    let tx := if options.useRbf then
        { tx with vin := tx.vin.map fun vin => { vin with sequence := 0xfffffffd } }
      else tx
    ctx.setTransaction txindex tx

/-- `sweep_build_unsigned_tx` : the table, and the index of the transaction unless it returns
false. -/
def sweepBuildUnsignedTx (sp : SweepPlatform) (options : SweepOptions) (destinationAddress : Bytes)
    (feeDoge outDoge : List Char) (ctx : TransactionContext) :
    Option (TransactionContext × Option UInt32) := do
  -- the address is copied into a buffer of `P2PKHLEN`
  let destCopy := destinationAddress.take 34
  let totalKoinu ← sweepOptionsTotalKoinu options
  match Koinu.koinuToCoinsStr totalKoinu 64 with
  | none => some (ctx, none)
  | some totalCopy =>
    let (ctx, txindex) := ctx.removeAllTs.startTransactionTs
    match options.utxos.foldlM (fun ctx u => ctx.addUtxoTs txindex u.txid u.vout) ctx with
    | none => some (ctx.clearTransactionTs txindex, none)
    | some ctx => do
        match ← ctx.addOutputTs sp.toWalletPlatform txindex destCopy outDoge with
        | none => some (ctx.clearTransactionTs txindex, none)
        | some ctx => do
            let (ctx, hex) ← ctx.finalizeTransactionTs sp.toWalletPlatform txindex destCopy
              feeDoge totalCopy none
            match hex with
            | none => some (ctx.clearTransactionTs txindex, none)
            | some _ => some (sweepApplyTxFlags options ctx txindex, some txindex)

/-- One step of the loop in `sweep_sign_txindex`. -/
def sweepSignInput (sp : SweepPlatform) (txindex : UInt32) (hexbufCap : ℕ)
    (state : TransactionContext × List Char) (step : PaperWallet × ℕ) :
    Option (TransactionContext × List Char) := do
  let wif ← step.1.getWif sp 53
  let scriptPubkey ← sweepScriptPubkeyFromWallet sp step.1
  state.1.signIndexedRawTransactionEx sp.toSpendPlatform txindex step.2 scriptPubkey 1 wif hexbufCap

/-- `sweep_sign_txindex` : one wallet signs all inputs, or each wallet signs one. -/
def sweepSignTxindex (sp : SweepPlatform) (txindex : UInt32) (wallets : List PaperWallet)
    (hexbufCap : ℕ) (ctx : TransactionContext) : Option (TransactionContext × List Char) :=
  match ctx.findTransactionTs txindex, wallets with
  | none, _ => none
  | _, [] => none
  | some _, [wallet] => do
      let wif ← wallet.getWif sp 53
      let scriptPubkey ← sweepScriptPubkeyFromWallet sp wallet
      ctx.signTransactionEx sp.toSpendPlatform txindex scriptPubkey wif hexbufCap
  | some tx, wallets =>
    if wallets.length ≠ tx.vin.length then none
    else wallets.zipIdx.foldlM (sweepSignInput sp txindex hexbufCap) (ctx, [])

/-- `sweep_fill_result_from_hex`. -/
def sweepFillResultFromHex (sp : SweepPlatform) (destinationAddress : Bytes) (hexbuf : List Char)
    (outKoinu feeKoinu : UInt64) : Option SweepResult :=
  (txDeserialize (utilsHexToBin hexbuf)).map fun (stx, _) =>
    { success := true
      errorMessage := none
      transactionHex := some hexbuf
      transactionId := some (hashToString (txHash sp.toPlatform stx))
      amountSwept := outKoinu
      feePaid := feeKoinu
      destinationAddress := some destinationAddress }

/-- `sweep_wallets_impl` : the table and the result. An amount that is written behind a buffer when
it is read has no result. -/
def sweepWalletsImpl (sp : SweepPlatform) (wallets : List PaperWallet) (options : SweepOptions)
    (ctx : TransactionContext) : Option (TransactionContext × SweepResult) :=
  if wallets.length = 0 then some (ctx, .fail "Invalid wallet or options")
  else if wallets.all (·.isValid sp) = false then some (ctx, .fail "Invalid paper wallet")
  else
    match options.destinationAddress with
    | none => some (ctx, .fail "No destination address specified")
    | some destinationAddress =>
      if sweepOptionsUtxoOk options = false then
        some (ctx, .fail "No UTXO specified: use dogecoin_sweep_options_set_utxo or add_utxo")
      else if wallets.length > 1 ∧ options.utxos.length ≠ wallets.length then
        some (ctx, .fail "Multi-wallet sweep requires one UTXO per wallet")
      else do
        match ← sweepComputeAmounts options with
        | none => some (ctx, .fail "Fee exceeds input value or amount conversion failed")
        | some amounts => do
            let (ctx, txindex) ← sweepBuildUnsignedTx sp options destinationAddress amounts.feeDoge
              amounts.outDoge ctx
            match txindex with
            | none => some (ctx, .fail "Building unsigned sweep transaction failed")
            | some txindex =>
              match sweepSignTxindex sp txindex wallets 65536 ctx with
              | none => some (ctx.clearTransactionTs txindex,
                  .fail "Signing sweep transaction failed")
              | some (ctx, hexbuf) =>
                if hexbuf.length = 0 then
                  some (ctx.clearTransactionTs txindex, .fail "Signed transaction hex is empty")
                else
                  match sweepFillResultFromHex sp destinationAddress hexbuf amounts.outKoinu
                      amounts.feeKoinu with
                  | none => some (ctx.clearTransactionTs txindex, .fail "out of memory")
                  | some result => some (ctx.clearTransactionTs txindex, result)

/-! ## Amounts that are added up -/

/-- What a string is read as, as an integer. -/
def readKoinu (u : SweepUtxo) : ℕ := ((Koinu.coinsToKoinuStr u.amountDoge).map UInt64.toNat).getD 0

/-- What a string stands for, and zero if it is no numeral. -/
def SweepUtxo.koinu (u : SweepUtxo) : ℕ := (Koinu.numeralKoinu u.amountDoge).getD 0

variable {u : SweepUtxo} {amount : ℕ} {result : SweepResult} {wallets : List PaperWallet}
  {msg : String}

/-- No numeral is read as too much. -/
theorem readKoinu_le (hnumeral : Koinu.numeralKoinu u.amountDoge = some amount) :
    readKoinu u ≤ amount := by
  unfold readKoinu
  cases hread : Koinu.coinsToKoinuStr u.amountDoge with
  | none => exact Nat.zero_le _
  | some koinu => exact Koinu.toNat_coinsToKoinuStr_le hread hnumeral

theorem readKoinu_eq_iff (hnumeral : Koinu.numeralKoinu u.amountDoge = some amount)
    (hread : (Koinu.coinsToKoinuStr u.amountDoge).isSome = true) :
    readKoinu u = amount ↔ Koinu.FitsBuffers u.amountDoge amount := by
  obtain ⟨koinu, hkoinu⟩ := Option.isSome_iff_exists.mp hread
  rw [← Koinu.toNat_coinsToKoinuStr_eq_iff hkoinu hnumeral, readKoinu, hkoinu]
  rfl

theorem SweepUtxo.koinu_eq (hnumeral : Koinu.numeralKoinu u.amountDoge = some amount) :
    u.koinu = amount := by
  rw [SweepUtxo.koinu, hnumeral]
  rfl

/-- The total is the sum of what is read, in 64 bits. -/
theorem sweepOptionsTotalKoinu_eq_some {options : SweepOptions} {total : UInt64}
    (h : sweepOptionsTotalKoinu options = some total) :
    (∀ u ∈ options.utxos, (Koinu.coinsToKoinuStr u.amountDoge).isSome = true) ∧
      total.toNat = (options.utxos.map readKoinu).sum % 2 ^ 64 := by
  have hfold : ∀ (utxos : List SweepUtxo) {start : UInt64},
      utxos.foldlM (fun total u => (Koinu.coinsToKoinuStr u.amountDoge).map fun koinu =>
        total + koinu) start =
          some total →
        (∀ u ∈ utxos, (Koinu.coinsToKoinuStr u.amountDoge).isSome = true) ∧
          total.toNat = (start.toNat + (utxos.map readKoinu).sum) % 2 ^ 64 := by
    intro utxos
    induction utxos with
    | nil =>
      intro start hrun
      obtain rfl := Option.some.inj hrun
      exact ⟨fun u hmem => absurd hmem List.not_mem_nil, (Nat.mod_eq_of_lt start.toNat_lt).symm⟩
    | cons u utxos ih =>
      intro start hrun
      rw [List.foldlM_cons] at hrun
      obtain ⟨sum, hsum, hrun⟩ := Option.bind_eq_some_iff.mp hrun
      obtain ⟨koinu, hkoinu, rfl⟩ := Option.map_eq_some_iff.mp hsum
      obtain ⟨hread, htotal⟩ := ih hrun
      have hvalue : readKoinu u = koinu.toNat := by
        rw [readKoinu, hkoinu]
        rfl
      refine ⟨List.forall_mem_cons.mpr ⟨by rw [hkoinu]; rfl, hread⟩, ?_⟩
      rw [htotal, UInt64.toNat_add, List.map_cons, List.sum_cons, hvalue]
      omega
  obtain ⟨hread, htotal⟩ := hfold options.utxos h
  rw [UInt64.toNat_zero, Nat.zero_add] at htotal
  exact ⟨hread, htotal⟩

/-- The total of amounts that are read as they are written and fit together is their sum. -/
theorem toNat_sweepOptionsTotalKoinu {options : SweepOptions} {total : UInt64}
    (htotal : sweepOptionsTotalKoinu options = some total)
    (hamounts : ∀ u ∈ options.utxos, ∃ amount, Koinu.numeralKoinu u.amountDoge = some amount ∧
      Koinu.FitsBuffers u.amountDoge amount)
    (hlt : (options.utxos.map SweepUtxo.koinu).sum < 2 ^ 64) :
    total.toNat = (options.utxos.map SweepUtxo.koinu).sum := by
  obtain ⟨hread, hsum⟩ := sweepOptionsTotalKoinu_eq_some htotal
  have heq : options.utxos.map readKoinu = options.utxos.map SweepUtxo.koinu := by
    refine List.map_congr_left fun u hmem => ?_
    obtain ⟨amount, hnumeral, hfits⟩ := hamounts u hmem
    rw [SweepUtxo.koinu_eq hnumeral]
    exact (readKoinu_eq_iff hnumeral (hread u hmem)).mpr hfits
  rw [hsum, heq, Nat.mod_eq_of_lt hlt]

/-- The fee as it is meant. -/
def SweepOptions.fee (options : SweepOptions) : ℕ :=
  min options.maxFee.toNat (max options.minFee.toNat
    (options.feePerByte.toNat * (44 + 180 * options.utxos.length)))

theorem toNat_sweepFeeKoinu {options : SweepOptions} (hne : options.utxos ≠ []) :
    (sweepFeeKoinu options).toNat = min options.maxFee.toNat (max options.minFee.toNat
      (options.feePerByte.toNat * (44 + 180 * options.utxos.length) % 2 ^ 64)) := by
  have hlen : sweepEstimateVsize options.utxos.length = 44 + 180 * options.utxos.length := by
    have hpos := List.length_pos_iff.mpr hne
    unfold sweepEstimateVsize
    rw [if_neg (by omega)]
    omega
  have hproduct : (options.feePerByte *
    UInt64.ofNat (sweepEstimateVsize options.utxos.length)).toNat =
      options.feePerByte.toNat * (44 + 180 * options.utxos.length) % 2 ^ 64 := by
    rw [UInt64.toNat_mul, hlen]
    show options.feePerByte.toNat * ((44 + 180 * options.utxos.length) % 2 ^ 64) % 2 ^ 64 = _
    exact Nat.mul_mod_mod _ _ _
  unfold sweepFeeKoinu
  dsimp only
  simp only [GT.gt, UInt64.lt_iff_toNat_lt]
  split_ifs <;> omega

/-- The fee is the one that is meant unless the product leaves 64 bits, and unless that does not
matter. -/
theorem toNat_sweepFeeKoinu_eq_iff {options : SweepOptions} (hne : options.utxos ≠ []) :
    (sweepFeeKoinu options).toNat = options.fee ↔
      options.feePerByte.toNat * (44 + 180 * options.utxos.length) < 2 ^ 64 ∨
        options.maxFee.toNat ≤ max options.minFee.toNat
          (options.feePerByte.toNat * (44 + 180 * options.utxos.length) % 2 ^ 64) := by
  have hmax := options.maxFee.toNat_lt
  have hmin := options.minFee.toNat_lt
  rw [toNat_sweepFeeKoinu hne, SweepOptions.fee]
  generalize options.feePerByte.toNat * (44 + 180 * options.utxos.length) = product
  by_cases hfits : product < 2 ^ 64
  · rw [Nat.mod_eq_of_lt hfits]
    exact iff_of_true rfl (Or.inl hfits)
  · have hmod : product % 2 ^ 64 < 2 ^ 64 := Nat.mod_lt _ (Nat.two_pow_pos 64)
    omega

/-! ## The transaction that is built -/

/-- The output a listed output is. -/
def SweepUtxo.outpoint (u : SweepUtxo) : TxOutpoint where
  hash := uint256Sethex u.txid
  n := u.vout

/-- The script of an address. -/
def addressScript (wp : WalletPlatform) (address : Bytes) : Option Bytes :=
  match wp.base58DecodeCheck address 256 with
  | none => none
  | some buf =>
    if buf.head? = some (chainFromB58Prefix address).b58prefixPubkeyAddress then
      some (p2pkhScript (hash160At buf 1))
    else if buf.head? = some (chainFromB58Prefix address).b58prefixScriptAddress then
      some (p2shScript (hash160At buf 1))
    else none

theorem txAddAddressOut_eq (wp : WalletPlatform) (tx : Tx) (amount : UInt64) (address : Bytes) :
    txAddAddressOut wp tx (chainFromB58Prefix address) amount address =
      (addressScript wp address).map fun script =>
        { tx with vout := tx.vout ++ [{ value := amount, scriptPubkey := script }] } := by
  unfold txAddAddressOut addressScript
  cases wp.base58DecodeCheck address 256 with
  | none => rfl
  | some buf =>
    dsimp only
    split_ifs
    · rfl
    · rfl
    · rfl

theorem length_addressScript_lt {wp : WalletPlatform} {address script : Bytes}
    (h : addressScript wp address = some script) : script.length < 2 ^ 32 := by
  unfold addressScript at h
  cases hdecode : wp.base58DecodeCheck address 256 with
  | none =>
    rw [hdecode] at h
    cases h
  | some buf =>
    rw [hdecode] at h
    dsimp only at h
    split_ifs at h with hpubkey hscript
    · obtain rfl := Option.some.inj h
      simp [p2pkhScript, (hash160At buf 1).2]
    · obtain rfl := Option.some.inj h
      simp [p2shScript, (hash160At buf 1).2]

variable {sp : SweepPlatform} {wp : WalletPlatform} {options : SweepOptions}
  {ctx ctx' : TransactionContext} {txindex : UInt32} {tx : Tx}

namespace TransactionContext

theorem findTransactionTs_start :
    ∃ ctx' txindex, ctx.removeAllTs.startTransactionTs = (ctx', txindex) ∧
    ctx'.findTransactionTs txindex = some txNew := by
  refine ⟨_, _, rfl, ?_⟩
  show Option.map _ (List.find? _ [_]) = _
  rw [List.find?_singleton]
  simp [removeAllTs]

/-- The inputs are the listed outputs, in their order. -/
theorem addUtxoTs_foldlM {utxos : List SweepUtxo} (hfind : ctx.findTransactionTs txindex = some tx)
    (h : utxos.foldlM (fun ctx u => ctx.addUtxoTs txindex u.txid u.vout) ctx = some ctx') :
    ∃ tx', ctx'.findTransactionTs txindex = some tx' ∧
      tx'.vin.map TxIn.prevout = tx.vin.map TxIn.prevout ++ utxos.map SweepUtxo.outpoint ∧
      tx'.vout = tx.vout := by
  induction utxos generalizing ctx tx with
  | nil =>
    obtain rfl := Option.some.inj h
    exact ⟨tx, hfind, by simp, rfl⟩
  | cons u utxos ih =>
    rw [List.foldlM_cons] at h
    obtain ⟨ctx'', hadd, hrest⟩ := Option.bind_eq_some_iff.mp h
    unfold addUtxoTs at hadd
    rw [hfind] at hadd
    dsimp only at hadd
    split_ifs at hadd with hhex
    obtain rfl := Option.some.inj hadd
    obtain ⟨tx', hfind', hvin, hvout⟩ := ih (findTransactionTs_setTransaction hfind _) hrest
    refine ⟨tx', hfind', ?_, hvout⟩
    rw [hvin, List.map_append, List.append_assoc]
    rfl

theorem addOutputTs_eq_some {destinationaddress : Bytes} {amount : List Char}
    (hfind : ctx.findTransactionTs txindex = some tx)
    (h : ctx.addOutputTs wp txindex destinationaddress amount = some (some ctx')) :
    ∃ koinu script, Koinu.coinsToKoinuStr amount = some koinu ∧
      addressScript wp destinationaddress = some script ∧
      ctx'.findTransactionTs txindex =
        some { tx with vout := tx.vout ++ [{ value := koinu, scriptPubkey := script }] } := by
  unfold addOutputTs at h
  rw [hfind] at h
  dsimp only at h
  obtain ⟨koinu, hkoinu, h⟩ := Option.map_eq_some_iff.mp h
  obtain ⟨tx', hadd, rfl⟩ := Option.map_eq_some_iff.mp h
  unfold addAddressOutputTs at hadd
  rw [txAddAddressOut_eq, Option.map_map] at hadd
  obtain ⟨script, hscript, rfl⟩ := Option.map_eq_some_iff.mp hadd
  exact ⟨koinu, script, hkoinu, hscript, findTransactionTs_setTransaction hfind _⟩

/-- Without change the table stays as it is. -/
theorem finalizeTransactionTs_none {destinationaddress : Bytes} {subtractedfee outDoge : List Char}
    {hex : Option (List Char)}
    (h : ctx.finalizeTransactionTs wp txindex destinationaddress subtractedfee outDoge none =
      some (ctx', hex)) : ctx' = ctx := by
  have hloop : ∀ (vout : List TxOut) {isTestnet : Bool} {fee out sum : UInt64} {count : ℕ},
      (ctx.finalizeOutputs wp txindex isTestnet fee out none vout sum count).1 = ctx := by
    intro vout
    induction vout with
    | nil =>
      intro isTestnet fee out sum count
      rfl
    | cons txOut vout ih =>
      intro isTestnet fee out sum count
      unfold finalizeOutputs
      dsimp only
      cases vout with
      | nil => exact ih
      | cons txOut' rest => exact ih
  unfold finalizeTransactionTs at h
  cases hfind : ctx.findTransactionTs txindex with
  | none =>
    rw [hfind] at h
    exact (Prod.mk.inj (Option.some.inj h)).1.symm
  | some tx =>
    rw [hfind] at h
    obtain ⟨fee, -, h⟩ := Option.bind_eq_some_iff.mp h
    obtain ⟨out, -, h⟩ := Option.bind_eq_some_iff.mp h
    dsimp only at h
    have htable := @hloop tx.vout (chainFromB58PrefixBool destinationaddress) fee out 0 0
    split_ifs at h
    · rw [← (Prod.mk.inj (Option.some.inj h)).1, htable]
    · rw [← (Prod.mk.inj (Option.some.inj h)).1, htable]
    · rw [← (Prod.mk.inj (Option.some.inj h)).1, htable]

end TransactionContext

/-- The flags change no outpoint and no output. -/
theorem sweepApplyTxFlags_sameSpend (hfind : ctx.findTransactionTs txindex = some tx) :
    ∃ tx', (sweepApplyTxFlags options ctx txindex).findTransactionTs txindex = some tx' ∧
    SameSpend tx tx' := by
  unfold sweepApplyTxFlags
  rw [hfind]
  refine ⟨_, TransactionContext.findTransactionTs_setTransaction hfind _, ?_⟩
  split_ifs <;> constructor <;> simp [Function.comp_def]

/-- **The transaction that is built** spends the listed outputs to the address as it was copied. -/
theorem sweepBuildUnsignedTx_eq_some {destinationAddress : Bytes} {feeDoge outDoge : List Char}
    {outKoinu : UInt64} (hout : Koinu.coinsToKoinuStr outDoge = some outKoinu)
    (h : sweepBuildUnsignedTx sp options destinationAddress feeDoge outDoge ctx =
      some (ctx', some txindex)) :
    ∃ tx script, ctx'.findTransactionTs txindex = some tx ∧
      addressScript sp.toWalletPlatform (destinationAddress.take 34) = some script ∧
      tx.vin.map TxIn.prevout = options.utxos.map SweepUtxo.outpoint ∧
      tx.vout = [{ value := outKoinu, scriptPubkey := script }] := by
  unfold sweepBuildUnsignedTx at h
  obtain ⟨total, -, h⟩ := Option.bind_eq_some_iff.mp h
  cases hcopy : Koinu.koinuToCoinsStr total 64 with
  | none =>
    rw [hcopy] at h
    cases (Prod.mk.inj (Option.some.inj h)).2
  | some totalCopy =>
    obtain ⟨ctx1, txindex', hstart, hfind1⟩ := @TransactionContext.findTransactionTs_start ctx
    rw [hcopy, hstart] at h
    dsimp only at h
    cases hinputs : options.utxos.foldlM (fun ctx u =>
      ctx.addUtxoTs txindex' u.txid u.vout) ctx1 with
    | none =>
      rw [hinputs] at h
      cases (Prod.mk.inj (Option.some.inj h)).2
    | some ctx2 =>
      obtain ⟨tx2, hfind2, hvin2, hvout2⟩ := TransactionContext.addUtxoTs_foldlM hfind1 hinputs
      rw [hinputs] at h
      obtain ⟨added, hadded, h⟩ := Option.bind_eq_some_iff.mp h
      cases added with
      | none => cases (Prod.mk.inj (Option.some.inj h)).2
      | some ctx3 =>
        obtain ⟨koinu, script, hkoinu, hscript, hfind3⟩ :=
          TransactionContext.addOutputTs_eq_some hfind2 hadded
        obtain rfl := Option.some.inj (hkoinu.symm.trans hout)
        obtain ⟨⟨ctx4, hex⟩, hfinal, h⟩ := Option.bind_eq_some_iff.mp h
        obtain rfl := TransactionContext.finalizeTransactionTs_none hfinal
        cases hex with
        | none => cases (Prod.mk.inj (Option.some.inj h)).2
        | some hex =>
          obtain ⟨rfl, hindex⟩ := Prod.mk.inj (Option.some.inj h)
          obtain rfl := Option.some.inj hindex
          obtain ⟨tx', hfind', hsame⟩ := @sweepApplyTxFlags_sameSpend options _ _ _ hfind3
          refine ⟨tx', script, hfind', hscript, ?_, ?_⟩
          · rw [hsame.1, hvin2]
            rfl
          · rw [hsame.2, hvout2]
            rfl

/-- The string of the signed transaction stands for the same inputs and outputs. -/
theorem sweepSignTxindex_eq_some {hexbufCap : ℕ} {hexbuf : List Char}
    (hfind : ctx.findTransactionTs txindex = some tx) (hcap : hexbufCap < 2 ^ 32)
    (hvin : tx.vin ≠ [])
    (hvout : ∀ txOut ∈ tx.vout, txOut.scriptPubkey.length < 2 ^ 32)
    (h : sweepSignTxindex sp txindex wallets hexbufCap ctx = some (ctx', hexbuf))
    (hne : hexbuf ≠ []) :
    Writes tx hexbuf ∧ hexbuf.length < hexbufCap := by
  unfold sweepSignTxindex at h
  rw [hfind] at h
  cases wallets with
  | nil => cases h
  | cons wallet rest =>
    cases rest with
    | nil =>
      obtain ⟨wif, -, h⟩ := Option.bind_eq_some_iff.mp h
      obtain ⟨scriptPubkey, -, h⟩ := Option.bind_eq_some_iff.mp h
      exact TransactionContext.signTransactionEx_eq_some hfind (SameSpend.refl tx) hcap hvin hvout h
    | cons wallet' rest =>
      dsimp only at h
      split_ifs at h with hcount
      -- the string is the last one that was signed, once there is one
      have hloop : ∀ (steps : List (PaperWallet × ℕ)) {ctx0 : TransactionContext} {buf : List Char},
          (∃ tx', ctx0.findTransactionTs txindex = some tx' ∧ SameSpend tx tx') →
            (buf = [] ∨ Writes tx buf ∧ buf.length < hexbufCap) →
              steps.foldlM (sweepSignInput sp txindex hexbufCap) (ctx0, buf) = some (ctx', hexbuf) →
                hexbuf = [] ∨ Writes tx hexbuf ∧ hexbuf.length < hexbufCap := by
        intro steps
        induction steps with
        | nil =>
          intro ctx0 buf hentry hbuf hrun
          obtain ⟨-, rfl⟩ := Prod.mk.inj (Option.some.inj hrun)
          exact hbuf
        | cons step steps ih =>
          intro ctx0 buf hentry hbuf hrun
          rw [List.foldlM_cons] at hrun
          obtain ⟨⟨ctx1, buf1⟩, hstep, hrun⟩ := Option.bind_eq_some_iff.mp hrun
          unfold sweepSignInput at hstep
          obtain ⟨wif, -, hstep⟩ := Option.bind_eq_some_iff.mp hstep
          obtain ⟨scriptPubkey, -, hstep⟩ := Option.bind_eq_some_iff.mp hstep
          obtain ⟨tx', hfind', hsame⟩ := hentry
          obtain ⟨hentry', hwrites, hlen⟩ :=
            TransactionContext.signIndexedRawTransactionEx_eq_some hfind' hsame hcap
              hvin hvout hstep
          exact ih hentry' (Or.inr ⟨hwrites, hlen⟩) hrun
      exact (hloop _ ⟨tx, hfind, SameSpend.refl tx⟩ (Or.inl rfl) h).resolve_left hne

/-- The amounts are the total without the fee, and the fee; the string of the first is read back. -/
theorem sweepComputeAmounts_eq_some {amounts : SweepAmounts}
    (h : sweepComputeAmounts options = some (some amounts)) :
    ∃ total, sweepOptionsTotalKoinu options = some total ∧ sweepFeeKoinu options < total ∧
      Koinu.coinsToKoinuStr amounts.outDoge = some amounts.outKoinu ∧
      amounts.outKoinu = total - sweepFeeKoinu options ∧ amounts.feeKoinu =
        sweepFeeKoinu options := by
  unfold sweepComputeAmounts at h
  obtain ⟨total, htotal, h⟩ := Option.bind_eq_some_iff.mp h
  dsimp only at h
  by_cases hless : total ≤ sweepFeeKoinu options
  · rw [if_pos hless] at h
    cases Option.some.inj h
  rw [if_neg hless] at h
  cases hfeeDoge : Koinu.koinuToCoinsStr (sweepFeeKoinu options) 64 with
  | none =>
    rw [hfeeDoge] at h
    cases Option.some.inj h
  | some feeDoge =>
    cases houtDoge : Koinu.koinuToCoinsStr (total - sweepFeeKoinu options) 64 with
    | none =>
      rw [hfeeDoge, houtDoge] at h
      cases Option.some.inj h
    | some outDoge =>
      rw [hfeeDoge, houtDoge] at h
      obtain rfl := Option.some.inj (Option.some.inj h)
      exact ⟨total, htotal, UInt64.not_le.mp hless, Koinu.coinsToKoinuStr_koinuToCoinsStr houtDoge,
        rfl, rfl⟩

/-! ## What a sweep pays -/

/-- What a sweep stands for: all amounts are numerals, the transaction spends the listed outputs in
their order and has one output, with the amount swept, to the address; the fee is the one that is
meant, and the amount and the fee are all there was. -/
structure SweepResult.Sound (wp : WalletPlatform) (options : SweepOptions) (result : SweepResult) :
    Prop where
  numerals : ∀ u ∈ options.utxos, (Koinu.numeralKoinu u.amountDoge).isSome = true
  spends : ∃ hex tx address script txOut, result.transactionHex = some hex ∧
    txDeserialize (utilsHexToBin hex) = some (tx, []) ∧
    tx.vin.map TxIn.prevout = options.utxos.map SweepUtxo.outpoint ∧
    options.destinationAddress = some address ∧ addressScript wp address = some script ∧
    tx.vout = [txOut] ∧ txOut.scriptPubkey = script ∧
    txOut.value.toInt64.toInt = result.amountSwept.toNat
  fee : result.feePaid.toNat = options.fee
  sum : result.amountSwept.toNat + result.feePaid.toNat = (options.utxos.map SweepUtxo.koinu).sum

/-- The options that are swept as they should be: every amount fits where it is read, the sum and
the product for the fee fit into 64 bits (or the product does not matter), what is left is no
negative output, and the address means the same when it is cut after 34 characters. -/
structure SweepOptions.Exact (wp : WalletPlatform) (options : SweepOptions) : Prop where
  amounts : ∀ u ∈ options.utxos, ∃ amount, Koinu.numeralKoinu u.amountDoge = some amount ∧
    Koinu.FitsBuffers u.amountDoge amount
  total_lt : (options.utxos.map SweepUtxo.koinu).sum < 2 ^ 64
  product : options.feePerByte.toNat * (44 + 180 * options.utxos.length) < 2 ^ 64 ∨
    options.maxFee.toNat ≤ max options.minFee.toNat
      (options.feePerByte.toNat * (44 + 180 * options.utxos.length) % 2 ^ 64)
  left_lt : (options.utxos.map SweepUtxo.koinu).sum - options.fee < 2 ^ 63
  address : ∀ address, options.destinationAddress = some address →
    addressScript wp address = addressScript wp (address.take 34)

theorem not_success_fail (h : some (ctx, SweepResult.fail msg) = some (ctx', result)) :
    result.success ≠ true := by
  obtain rfl := (Prod.mk.inj (Option.some.inj h)).2
  exact Bool.false_ne_true

/-- A check that a successful sweep has passed. -/
theorem success_of_check {c : Prop} [Decidable c] {rest : Option (TransactionContext × SweepResult)}
    (hrun : (if c then some (ctx, SweepResult.fail msg) else rest) = some (ctx', result))
    (hsuccess : result.success = true) : ¬ c ∧ rest = some (ctx', result) := by
  split_ifs at hrun with hc
  · exact absurd hsuccess (not_success_fail hrun)
  · exact ⟨hc, hrun⟩

/-- **What a sweep does.** -/
theorem sweepWalletsImpl_eq_some
    (hrun : sweepWalletsImpl sp wallets options ctx = some (ctx', result))
    (hsuccess : result.success = true) :
    options.utxos ≠ [] ∧ ∃ address total script hex tx, options.destinationAddress = some address ∧
      sweepOptionsTotalKoinu options = some total ∧ sweepFeeKoinu options < total ∧
      result.amountSwept = total - sweepFeeKoinu options ∧ result.feePaid = sweepFeeKoinu options ∧
      result.transactionHex = some hex ∧ txDeserialize (utilsHexToBin hex) = some (tx, []) ∧
      addressScript sp.toWalletPlatform (address.take 34) = some script ∧
      tx.vin.map TxIn.prevout = options.utxos.map SweepUtxo.outpoint ∧
      tx.vout = [{ value := total - sweepFeeKoinu options, scriptPubkey := script }] := by
  unfold sweepWalletsImpl at hrun
  obtain ⟨-, hrun⟩ := success_of_check hrun hsuccess
  obtain ⟨-, hrun⟩ := success_of_check hrun hsuccess
  cases hdestination : options.destinationAddress with
  | none =>
    rw [hdestination] at hrun
    exact absurd hsuccess (not_success_fail hrun)
  | some address =>
    rw [hdestination] at hrun
    dsimp only at hrun
    obtain ⟨hutxo, hrun⟩ := success_of_check hrun hsuccess
    obtain ⟨-, hrun⟩ := success_of_check hrun hsuccess
    have hne : options.utxos ≠ [] := by
      rintro hnil
      apply hutxo
      simp [sweepOptionsUtxoOk, hnil]
    refine ⟨hne, ?_⟩
    obtain ⟨amounts, hamounts, hrun⟩ := Option.bind_eq_some_iff.mp hrun
    cases amounts with
    | none => exact absurd hsuccess (not_success_fail hrun)
    | some amounts =>
      obtain ⟨total, htotal, hless, houtDoge, houtKoinu, hfeeKoinu⟩ :=
        sweepComputeAmounts_eq_some hamounts
      obtain ⟨⟨ctx1, txindex⟩, hbuild, hrun⟩ := Option.bind_eq_some_iff.mp hrun
      cases txindex with
      | none => exact absurd hsuccess (not_success_fail hrun)
      | some txindex =>
        obtain ⟨tx, script, hfind, hscript, hvin, hvout⟩ :=
          sweepBuildUnsignedTx_eq_some houtDoge hbuild
        dsimp only at hrun
        cases hsign : sweepSignTxindex sp txindex wallets 65536 ctx1 with
        | none =>
          rw [hsign] at hrun
          exact absurd hsuccess (not_success_fail hrun)
        | some signed =>
          obtain ⟨ctx2, hexbuf⟩ := signed
          rw [hsign] at hrun
          dsimp only at hrun
          obtain ⟨hempty, hrun⟩ := success_of_check hrun hsuccess
          have hinputs : tx.vin ≠ [] := by
            intro hnil
            rw [hnil, List.map_nil] at hvin
            exact hne (List.map_eq_nil_iff.mp hvin.symm)
          have hscripts : ∀ txOut ∈ tx.vout, txOut.scriptPubkey.length < 2 ^ 32 := by
            rw [hvout]
            exact List.forall_mem_singleton.mpr (length_addressScript_lt hscript)
          obtain ⟨hwrites, hlen⟩ := sweepSignTxindex_eq_some hfind
            (by decide) hinputs hscripts hsign (List.ne_nil_of_length_pos (by omega))
          obtain ⟨tx', hread, hsame⟩ := hwrites.deserialize (by omega) hinputs hscripts
          unfold sweepFillResultFromHex at hrun
          rw [hread] at hrun
          obtain ⟨-, rfl⟩ := Prod.mk.inj (Option.some.inj hrun)
          refine ⟨address, total, script, hexbuf, tx', rfl, htotal, hless,
            houtKoinu, hfeeKoinu, rfl, hread, hscript, hsame.1.trans hvin, ?_⟩
          rw [hsame.2, hvout, houtKoinu]

/-- **A sweep pays what it says for the options that are exact.** -/
theorem sweepWalletsImpl_sound_iff {sp : SweepPlatform} {wallets : List PaperWallet}
    {options : SweepOptions} {ctx ctx' : TransactionContext} {result : SweepResult}
    (hrun : sweepWalletsImpl sp wallets options ctx = some (ctx', result))
    (hsuccess : result.success = true) :
    result.Sound sp.toWalletPlatform options ↔ options.Exact sp.toWalletPlatform := by
  obtain ⟨hne, address, total, script, hex, tx, hdestination, htotal, hless, hswept, hfee,
    hhex, hread, hscript, hvin, hvout⟩ := sweepWalletsImpl_eq_some hrun hsuccess
  obtain ⟨hamounts, hsum⟩ := sweepOptionsTotalKoinu_eq_some htotal
  have hfeeIff := toNat_sweepFeeKoinu_eq_iff hne
  rw [← hfee] at hfeeIff
  have hpaid : result.amountSwept.toNat + result.feePaid.toNat = total.toNat := by
    have hle := UInt64.lt_iff_toNat_lt.mp hless
    rw [hswept, hfee, UInt64.toNat_sub_of_le _ _ (UInt64.le_of_lt hless)]
    omega
  -- the sum is right when nothing is lost in any amount
  have hsumIff : (∀ u ∈ options.utxos, (Koinu.numeralKoinu u.amountDoge).isSome = true) →
      (total.toNat = (options.utxos.map SweepUtxo.koinu).sum ↔
        (∀ u ∈ options.utxos, readKoinu u = u.koinu) ∧
          (options.utxos.map SweepUtxo.koinu).sum < 2 ^ 64) := by
    intro hnumerals
    rw [hsum]
    refine WrappingSum.sum_mod_eq_iff (Nat.two_pow_pos 64) fun u hmem => ?_
    obtain ⟨amount, hnumeral⟩ := Option.isSome_iff_exists.mp (hnumerals u hmem)
    rw [SweepUtxo.koinu_eq hnumeral]
    exact readKoinu_le hnumeral
  constructor
  · intro hsound
    obtain ⟨hexact, hlt⟩ := (hsumIff hsound.numerals).mp (hpaid.symm.trans hsound.sum)
    obtain ⟨hex', tx', address', script', txOut, hhex', hread', -, hdestination', hscript',
      hvout', hscriptPubkey, hvalue⟩ := hsound.spends
    obtain rfl := Option.some.inj (hhex.symm.trans hhex')
    obtain ⟨rfl, -⟩ := Prod.mk.inj (Option.some.inj (hread.symm.trans hread'))
    obtain rfl := Option.some.inj (hdestination.symm.trans hdestination')
    obtain rfl := List.singleton_inj.mp (hvout.symm.trans hvout')
    refine ⟨fun u hmem => ?_, hlt, hfeeIff.mp hsound.fee, ?_, ?_⟩
    · obtain ⟨amount, hnumeral⟩ := Option.isSome_iff_exists.mp (hsound.numerals u hmem)
      have heq := hexact u hmem
      rw [SweepUtxo.koinu_eq hnumeral] at heq
      exact ⟨amount, hnumeral, (readKoinu_eq_iff hnumeral (hamounts u hmem)).mp heq⟩
    · rw [← hsound.sum, ← hsound.fee, Nat.add_sub_cancel, hswept]
      apply (toInt64_nonneg_iff _).mp
      rw [hvalue]
      exact Int.natCast_nonneg _
    · intro address' hdestination'
      obtain rfl := Option.some.inj (hdestination.symm.trans hdestination')
      rw [hscript', hscript]
      exact congrArg some hscriptPubkey.symm
  · intro hexact
    have hnumerals : ∀ u ∈ options.utxos, (Koinu.numeralKoinu u.amountDoge).isSome = true := by
      intro u hmem
      obtain ⟨amount, hnumeral, -⟩ := hexact.amounts u hmem
      rw [hnumeral]
      rfl
    have htotalNat := toNat_sweepOptionsTotalKoinu htotal hexact.amounts hexact.total_lt
    have hfeeNat := hfeeIff.mpr hexact.product
    refine ⟨hnumerals, ?_, hfeeNat, hpaid.trans htotalNat⟩
    refine ⟨hex, tx, address, script, _, hhex, hread, hvin, hdestination, ?_, hvout, rfl, ?_⟩
    · rw [hexact.address address hdestination, hscript]
    · have hleft := hexact.left_lt
      rw [← htotalNat, ← hfeeNat, ← hpaid, Nat.add_sub_cancel] at hleft
      dsimp only
      rw [← hswept]
      exact toInt64_eq hleft

/-! ## Sweeps on fixed inputs -/

/-- A sweeper whose strings have the lengths of real ones. -/
def sampleSweeper : SweepPlatform where
  toWalletPlatform := { sampleWallet with
    base58EncodeCheck := fun bs => [68, 68, 68] ++ base64Encode bs
    base58DecodeCheck := fun str limit =>
      let payload := base64Decode (str.drop 3)
      if payload.length + 4 ≤ limit then
        some (payload ++ (sampleDigest (sampleDigest payload).1).1.take 4)
      else none }
  pubkeyParse := sampleSigner.pubkeyParse
  ecdsaSign := sampleSigner.ecdsaSign
  compactToDerNormalized := sampleSigner.compactToDerNormalized
  bip38Decrypt := fun _ _ => none

/-- A wallet with its key in hex. -/
def samplePaperWallet : PaperWallet where
  privateKeyWif := none
  privateKeyHex := some (utilsUint8ToHex (List.replicate 32 1))
  encryptedPrivateKey := none
  passphrase := none
  address := some (sampleSweeper.p2pkhAddrFromHash160
    (sampleSweeper.getHash160 (sampleSweeper.curve.eccGetPubkey (List.replicate 32 1)))
      keyParamsMain)
  compressed := true
  chainParams := some secretAddressMain

/-- Options for outputs of some amounts. -/
def sampleSweep (amounts : List String) : SweepOptions where
  destinationAddress := some (sampleSweeper.p2pkhAddrFromHash160 sampleHash keyParamsMain)
  feePerByte := 1000
  minFee := 100000
  maxFee := 10000000
  useRbf := true
  locktime := 0
  utxos := amounts.map fun amount => ⟨List.replicate 64 'a', 0, amount.toList⟩

theorem exists_of_any {o : Option (TransactionContext × SweepResult)}
    (h : o.any (·.2.success) = true) :
    ∃ ctx' result, o = some (ctx', result) ∧ result.success = true := by
  cases o with
  | none => cases h
  | some swept => exact ⟨swept.1, swept.2, rfl, h⟩

/-- Two outputs are swept, of two coins and of one and a half. -/
theorem sweepWalletsImpl_sound_twoCoins : ∃ ctx' result,
    sweepWalletsImpl sampleSweeper [samplePaperWallet] (sampleSweep ["2.0", "1.5"]) ⟨[], 0⟩ =
        some (ctx', result) ∧
      (result.Sound sampleSweeper.toWalletPlatform (sampleSweep ["2.0", "1.5"]) ↔
        (sampleSweep ["2.0", "1.5"]).Exact sampleSweeper.toWalletPlatform) := by
  obtain ⟨ctx', result, hrun, hsuccess⟩ := exists_of_any (o := sweepWalletsImpl sampleSweeper
    [samplePaperWallet] (sampleSweep ["2.0", "1.5"]) ⟨[], 0⟩) (by decide +kernel)
  exact ⟨ctx', result, hrun, sweepWalletsImpl_sound_iff hrun hsuccess⟩

/-- A comma makes five coins to five koinu, and the rest to a fee that nobody asked for. -/
theorem not_sound_comma : ∃ ctx' result,
    sweepWalletsImpl sampleSweeper [samplePaperWallet] (sampleSweep ["2.0", "5,0"]) ⟨[], 0⟩ =
        some (ctx', result) ∧ result.success = true ∧
      ¬ result.Sound sampleSweeper.toWalletPlatform (sampleSweep ["2.0", "5,0"]) := by
  obtain ⟨ctx', result, hrun, hsuccess⟩ := exists_of_any (o := sweepWalletsImpl sampleSweeper
    [samplePaperWallet] (sampleSweep ["2.0", "5,0"]) ⟨[], 0⟩) (by decide +kernel)
  refine ⟨ctx', result, hrun, hsuccess, fun hsound => ?_⟩
  have hnumeral := hsound.numerals ⟨List.replicate 64 'a', 0, "5,0".toList⟩
    (List.mem_cons_of_mem _ (List.mem_singleton.mpr rfl))
  exact absurd hnumeral (by decide)

end Libdogecoin
