/-
# Transactions as hex strings

`transaction.c` hands a transaction from one step to the next as a hex string: it is written, read
back, signed at one input, and written again.

* `SameSpend` : what none of these steps changes;
* `signTransactionEx_eq_some`, `signIndexedRawTransactionEx_eq_some` : a signed transaction spends
  the same.
-/
import Libdogecoin.SignInput
import Libdogecoin.WorkingTransaction

namespace Libdogecoin

/-- What signing a transaction from a table takes from outside. -/
structure SpendPlatform extends WalletPlatform, SignPlatform

/-! ## Hex strings -/

/-- The value of a hex digit, as `utils_hex_to_bin` reads it. -/
def hexValue (c : Char) : ℕ :=
  if '0' ≤ c ∧ c ≤ '9' then c.toNat - '0'.toNat
  else if 'a' ≤ c ∧ c ≤ 'f' then 10 + c.toNat - 'a'.toNat
  else if 'A' ≤ c ∧ c ≤ 'F' then 10 + c.toNat - 'A'.toNat
  else 0

/-- `utils_hex_to_bin` : two digits for each byte, without a digit that is left over. -/
def utilsHexToBin : List Char → Bytes
  | a :: b :: rest => UInt8.ofNat (16 * hexValue a + hexValue b) :: utilsHexToBin rest
  | _ => []

/-- A character of `VALID_HEX_CHARS`. -/
def isHexChar (c : Char) : Bool :=
  ('0' ≤ c && c ≤ '9') || ('a' ≤ c && c ≤ 'f') || ('A' ≤ c && c ≤ 'F')

/-- `utils_uint256_sethex` on 64 hex digits. -/
def uint256Sethex (psz : List Char) : Uint256 :=
  ⟨((utilsHexToBin psz).reverse ++ List.replicate 32 0).take 32, by
    rw [List.length_take, List.length_append, List.length_replicate]
    exact Nat.min_eq_left (Nat.le_add_left _ _)⟩

theorem hexValue_hexDigit {n : ℕ} (h : n < 16) : hexValue (hexDigit n) = n := by
  have hall : ∀ n < 16, hexValue (hexDigit n) = n := by decide
  exact hall n h

/-- Bytes that were written are read back. -/
@[simp] theorem utilsHexToBin_utilsUint8ToHex (bs : Bytes) :
    utilsHexToBin (utilsUint8ToHex bs) = bs := by
  induction bs with
  | nil => rfl
  | cons b bs ih =>
    have hb := b.toNat_lt
    have hbyte : UInt8.ofNat (16 * (b.toNat / 16) + b.toNat % 16) = b := by
      rw [Nat.div_add_mod, UInt8.ofNat_toNat]
    rw [utilsUint8ToHex, utilsHexToBin, hexValue_hexDigit (by omega), hexValue_hexDigit (by omega),
      hbyte, ih]

/-! ## Reading back what was written -/

/-- A transaction as it is written: a script that is too long is written as the empty one. -/
def Tx.clip (tx : Tx) : Tx :=
  { tx with vin := tx.vin.map fun txIn =>
      if txIn.scriptSig.length > 0xffffffff then { txIn with scriptSig := [] } else txIn }

/-- The same outpoints are spent, and the same outputs are made. -/
def SameSpend (tx tx' : Tx) : Prop :=
  tx'.vin.map TxIn.prevout = tx.vin.map TxIn.prevout ∧ tx'.vout = tx.vout

theorem SameSpend.refl (tx : Tx) : SameSpend tx tx := ⟨rfl, rfl⟩

theorem SameSpend.trans {tx tx' tx'' : Tx} (h : SameSpend tx tx') (h' : SameSpend tx' tx'') :
    SameSpend tx tx'' := ⟨h'.1.trans h.1, h'.2.trans h.2⟩

theorem sameSpend_clip (tx : Tx) : SameSpend tx tx.clip := by
  refine ⟨?_, rfl⟩
  rw [Tx.clip, List.map_map]
  apply List.map_congr_left
  intro txIn _
  show (if txIn.scriptSig.length > 0xffffffff then { txIn with scriptSig := [] } else
    txIn).prevout = _
  split_ifs
  · rfl
  · rfl

theorem sameSpend_setScriptSig (tx : Tx) (index : ℕ) (scriptSig : Bytes) :
    SameSpend tx (tx.setScriptSig index scriptSig) := by
  refine ⟨?_, rfl⟩
  apply List.ext_getElem?
  intro i
  rw [Tx.setScriptSig, List.getElem?_map, List.getElem?_map, List.getElem?_modify]
  cases tx.vin[i]? with
  | none => rfl
  | some txIn =>
    by_cases h : index = i
    · simp [h]
    · simp [h]

theorem txSerialize_clip (tx : Tx) : txSerialize tx.clip = txSerialize tx := by
  have hin : ∀ txIn : TxIn, txInSerialize
      (if txIn.scriptSig.length > 0xffffffff then { txIn with scriptSig := [] } else txIn) =
        txInSerialize txIn := by
    intro txIn
    by_cases hlong : txIn.scriptSig.length > 0xffffffff
    · have hne : ¬ txIn.scriptSig.length = 0 := by omega
      rw [if_pos hlong, txInSerialize, txInSerialize]
      dsimp only
      rw [serVarstr, serVarstr, if_neg hne, if_pos hlong]
      rfl
    · rw [if_neg hlong]
  unfold txSerialize Tx.clip
  dsimp only
  rw [List.length_map, List.flatMap_map]
  simp only [hin]

theorem length_le_length_flatMap {α : Type} {f : α → Bytes} (h : ∀ x, f x ≠ []) (xs : List α) :
    xs.length ≤ (xs.flatMap f).length := by
  induction xs with
  | nil => exact Nat.zero_le _
  | cons x xs ih =>
    have hpos := List.length_pos_iff.mpr (h x)
    rw [List.length_cons, List.flatMap_cons, List.length_append]
    omega

/-- **What is read back**: the transaction as it was written. -/
theorem txDeserialize_txSerialize {tx : Tx} (hlen : (txSerialize tx).length < 2 ^ 32)
    (hvin : tx.vin ≠ []) (hvout : ∀ txOut ∈ tx.vout, txOut.scriptPubkey.length < 2 ^ 32) :
    txDeserialize (txSerialize tx) = some (tx.clip, []) := by
  have hin : ∀ txIn, txInSerialize txIn ≠ [] := by
    intro txIn hnil
    have hlast := (List.append_eq_nil_iff.mp hnil).2
    exact absurd (congrArg List.length hlast) (by rw [serU32, LittleEndian.length_toBytes]; decide)
  have hout : ∀ txOut, txOutSerialize txOut ≠ [] := by
    intro txOut hnil
    have hfirst := (List.append_eq_nil_iff.mp hnil).1
    exact absurd (congrArg List.length hfirst) (by rw [serU64, LittleEndian.length_toBytes]; decide)
  have hvinLen := length_le_length_flatMap hin tx.vin
  have hvoutLen := length_le_length_flatMap hout tx.vout
  have hsized : tx.clip.Sized := by
    unfold txSerialize at hlen
    simp only [List.length_append] at hlen
    refine ⟨?_, ?_, fun txIn hmem => ?_, hvout⟩
    · rw [Tx.clip, List.length_map]
      omega
    · show tx.vout.length < 2 ^ 32
      omega
    · obtain ⟨txIn', -, rfl⟩ := List.mem_map.mp hmem
      split_ifs with hlong
      · exact Nat.two_pow_pos 32
      · omega
  have hne : tx.clip.vin ≠ [] := by
    rw [Tx.clip]
    simpa using hvin
  have hread := @txDeserializeEx_serialize _ hsized true (fun _ => hne) []
  rwa [List.append_nil, txSerialize_clip] at hread

/-! ## Signing -/

/-- `b58prefix_secret_address` of the main chain. -/
def secretAddressMain : UInt8 := 0x9e
/-- `b58prefix_secret_address` of the test chain. -/
def secretAddressTest : UInt8 := 0xf1

/-- `dogecoin_privkey_decode_wif`. -/
def decodeWif (wp : WalletPlatform) (privkeyWif : Bytes) (secretAddress : UInt8) : Option Bytes :=
  if privkeyWif.length < 50 then none
  else
    match wp.base58DecodeCheck privkeyWif privkeyWif.length with
    | none => none
    | some privkeyData =>
      if privkeyData.head? ≠ some secretAddress then none
      else some ((privkeyData.drop 1 ++ List.replicate 32 0).take 32)

/-- `sign_raw_transaction_ex` in write mode: the string that is left in the buffer. -/
def signRawTransactionEx (sp : SpendPlatform) (inputindex : ℕ) (incomingrawtx : List Char)
    (signedSize : ℕ) (scripthex : List Char) (sighashtype : UInt32) (privkey : Bytes) :
    Option (List Char) :=
  if incomingrawtx.length > 200001 then none
  else if (utilsHexToBin incomingrawtx).length = 0 then none
  else
    match txDeserialize (utilsHexToBin incomingrawtx) with
    | none => none
    | some (txtmp, _) =>
      if inputindex ≥ txtmp.vin.length then none
      else
        let script := utilsHexToBin scripthex
        if script.length = 0 then none
        else
          let secretAddress := if privkey.head? = some 99 then secretAddressTest else
            secretAddressMain
          match decodeWif sp.toWalletPlatform privkey secretAddress with
          | none => none
          | some key =>
            let signed := txSignInput sp.toSignPlatform txtmp script key inputindex sighashtype
            if signed.result ≠ .ok then none
            else
              let hexout := utilsUint8ToHex (txSerialize signed.tx)
              if signedSize < hexout.length + 1 then none else some hexout

namespace TransactionContext

/-- `add_utxo_ts` : the table, unless it returns false. -/
def addUtxoTs (ctx : TransactionContext) (txindex : UInt32) (hexUtxoTxid : List Char)
    (vout : UInt32) :
    Option TransactionContext :=
  match ctx.findTransactionTs txindex with
  | none => none
  | some tx =>
    if hexUtxoTxid.length ≠ 64 ∨ hexUtxoTxid.all isHexChar = false then none
    else
      let txIn : TxIn := {
        prevout := { hash := uint256Sethex hexUtxoTxid, n := vout }
        scriptSig := [], sequence := 0xffffffff }
      some (ctx.setTransaction txindex { tx with vin := tx.vin ++ [txIn] })

/-- `add_output_ts` : the table, unless it returns false. An amount that is written behind a buffer
when it is read has no result. -/
def addOutputTs (wp : WalletPlatform) (ctx : TransactionContext) (txindex : UInt32)
    (destinationaddress : Bytes) (amount : List Char) : Option (Option TransactionContext) :=
  match ctx.findTransactionTs txindex with
  | none => some none
  | some tx =>
    (Koinu.coinsToKoinuStr amount).map fun koinu =>
      (addAddressOutputTs wp tx (chainFromB58Prefix destinationaddress) koinu
        destinationaddress).map fun tx =>
        ctx.setTransaction txindex tx

/-- `get_raw_transaction_ex` : nothing if the string does not fit. -/
def getRawTransactionEx (ctx : TransactionContext) (txindex : UInt32) (bufCap : ℕ) :
    Option (List Char) :=
  match ctx.findTransactionTs txindex with
  | none => none
  | some tx =>
    if (txSerialize tx).length * 2 + 1 > bufCap then none
    else some (utilsUint8ToHex (txSerialize tx))

/-- `save_raw_transaction_ts` : the table, unless it returns false. -/
def saveRawTransactionTs (ctx : TransactionContext) (txindex : UInt32)
    (hexadecimalTransaction : List Char) :
    Option TransactionContext :=
  let hexLen := (hexadecimalTransaction.takeWhile isHexChar).length
  if hexLen = 0 ∨ hexLen % 2 ≠ 0 ∨ hexLen ≠ hexadecimalTransaction.length ∨
    hexLen > 200001 then none
  else
    match txDeserialize (utilsHexToBin hexadecimalTransaction) with
    | none => none
    | some (txtmp, _) =>
      match ctx.findTransactionTs txindex with
      | none => none
      | some _ => some (ctx.setTransaction txindex txtmp)

/-- `sign_indexed_raw_transaction_ex` : the table and the string. -/
def signIndexedRawTransactionEx (sp : SpendPlatform) (ctx : TransactionContext) (txindex : UInt32)
    (inputindex : ℕ) (scripthex : List Char) (sighashtype : UInt32) (privkey : Bytes) (bufCap : ℕ) :
    Option (TransactionContext × List Char) :=
  if bufCap = 0 then none
  else do
    let buf ← ctx.getRawTransactionEx txindex bufCap
    let buf ← signRawTransactionEx sp inputindex buf bufCap scripthex sighashtype privkey
    let ctx ← ctx.saveRawTransactionTs txindex buf
    some (ctx, buf)

/-- `sign_transaction_ex` : the table and the string. -/
def signTransactionEx (sp : SpendPlatform) (ctx : TransactionContext) (txindex : UInt32)
    (scriptPubkey : List Char) (privkey : Bytes) (bufCap : ℕ) :
    Option (TransactionContext × List Char) :=
  if bufCap = 0 then none
  else do
    let tx ← ctx.findTransactionTs txindex
    let buf ← ctx.getRawTransactionEx txindex bufCap
    let buf ← (List.range tx.vin.length).foldlM
      (fun buf i => signRawTransactionEx sp i buf bufCap scriptPubkey 1 privkey) buf
    let ctx ← ctx.saveRawTransactionTs txindex buf
    some (ctx, buf)

end TransactionContext

/-! ## What signing keeps -/

/-- A call changes nothing but the script of its input. -/
theorem sameSpend_txSignInput (sp : SignPlatform) (tx : Tx) (script privkey : Bytes)
    (inputindex : ℕ) (sighashtype : UInt32) :
    SameSpend tx (txSignInput sp tx script privkey inputindex sighashtype).tx := by
  unfold txSignInput
  cases tx.vin[inputindex]? with
  | none => exact SameSpend.refl tx
  | some txIn =>
    dsimp only
    by_cases hkey : sp.curve.eccVerifyPrivatekey privkey = false
    · rw [if_pos hkey]
      exact SameSpend.refl tx
    rw [if_neg hkey]
    by_cases hpubkey : sp.pubkeyParse (sp.curve.eccGetPubkey privkey) = false
    · rw [if_pos hpubkey]
      exact SameSpend.refl tx
    rw [if_neg hpubkey]
    cases txSighash sp.toPlatform tx script inputindex sighashtype with
    | none => exact SameSpend.refl tx
    | some sighash =>
      dsimp only
      cases sp.compactToDerNormalized (sp.ecdsaSign privkey sighash) with
      | none => exact SameSpend.refl tx
      | some der =>
        dsimp only
        by_cases hlen : der.length = 0 ∨ der.length > 72
        · rw [if_pos hlen]
          exact SameSpend.refl tx
        rw [if_neg hlen]
        by_cases hp2pkh : (scriptClassify script).1 = .pubkeyhash
        · rw [if_pos hp2pkh]
          exact sameSpend_setScriptSig tx inputindex _
        rw [if_neg hp2pkh]
        by_cases hmultisig : (scriptClassify script).1 = .multisig
        · rw [if_pos hmultisig]
          exact sameSpend_setScriptSig tx inputindex _
        · rw [if_neg hmultisig]
          exact SameSpend.refl tx

/-- A string that stands for a transaction with the inputs and outputs of another. -/
def Writes (tx : Tx) (hex : List Char) : Prop :=
  ∃ tx', hex = utilsUint8ToHex (txSerialize tx') ∧ SameSpend tx tx'

variable {sp : SpendPlatform} {tx : Tx}

theorem SameSpend.vin_ne_nil {tx' : Tx} (h : SameSpend tx tx') (hvin : tx.vin ≠ []) :
    tx'.vin ≠ [] := by
  intro hnil
  have hmap := h.1
  rw [hnil, List.map_nil] at hmap
  exact hvin (List.map_eq_nil_iff.mp hmap.symm)

/-- A string that was written is read as a transaction with the same inputs and outputs. -/
theorem Writes.deserialize {hex : List Char} (h : Writes tx hex) (hlen : hex.length < 2 ^ 32)
    (hvin : tx.vin ≠ []) (hvout : ∀ txOut ∈ tx.vout, txOut.scriptPubkey.length < 2 ^ 32) :
    ∃ tx', txDeserialize (utilsHexToBin hex) = some (tx', []) ∧ SameSpend tx tx' := by
  obtain ⟨tx', rfl, hsame⟩ := h
  rw [length_utilsUint8ToHex] at hlen
  rw [utilsHexToBin_utilsUint8ToHex]
  exact ⟨tx'.clip, txDeserialize_txSerialize (by omega) (hsame.vin_ne_nil hvin) (hsame.2 ▸ hvout),
    hsame.trans (sameSpend_clip tx')⟩

/-- One signature: the string stands for the same inputs and outputs, and fits into the buffer. -/
theorem signRawTransactionEx_eq_some {inputindex signedSize : ℕ}
    {incomingrawtx scripthex hex : List Char} {sighashtype : UInt32} {privkey : Bytes}
    (hwrites : Writes tx incomingrawtx)
    (hlen : incomingrawtx.length < 2 ^ 32) (hvin : tx.vin ≠ [])
    (hvout : ∀ txOut ∈ tx.vout, txOut.scriptPubkey.length < 2 ^ 32)
    (h : signRawTransactionEx sp inputindex incomingrawtx signedSize scripthex sighashtype privkey =
      some hex) :
    Writes tx hex ∧ hex.length < signedSize := by
  obtain ⟨tx', hread, hsame⟩ := hwrites.deserialize hlen hvin hvout
  unfold signRawTransactionEx at h
  dsimp only at h
  by_cases hlong : incomingrawtx.length > 200001
  · rw [if_pos hlong] at h
    cases h
  rw [if_neg hlong] at h
  by_cases hempty : (utilsHexToBin incomingrawtx).length = 0
  · rw [if_pos hempty] at h
    cases h
  rw [if_neg hempty, hread] at h
  dsimp only at h
  by_cases hindex : inputindex ≥ tx'.vin.length
  · rw [if_pos hindex] at h
    cases h
  rw [if_neg hindex] at h
  by_cases hscript : (utilsHexToBin scripthex).length = 0
  · rw [if_pos hscript] at h
    cases h
  rw [if_neg hscript] at h
  cases hkey : decodeWif sp.toWalletPlatform privkey
      (if privkey.head? = some 99 then secretAddressTest else secretAddressMain) with
  | none =>
    rw [hkey] at h
    cases h
  | some key =>
    rw [hkey] at h
    dsimp only at h
    by_cases hok : (txSignInput sp.toSignPlatform tx' (utilsHexToBin scripthex) key inputindex
        sighashtype).result ≠ .ok
    · rw [if_pos hok] at h
      cases h
    rw [if_neg hok] at h
    split_ifs at h with hroom
    obtain rfl := Option.some.inj h
    exact ⟨⟨_, rfl, hsame.trans (sameSpend_txSignInput _ tx' _ key inputindex
      sighashtype)⟩, by omega⟩

namespace TransactionContext

variable {ctx ctx' : TransactionContext} {txindex : UInt32} {privkey : Bytes}

variable {bufCap : ℕ} {hex : List Char} {tx' : Tx}

theorem getRawTransactionEx_eq_some (hfind : ctx.findTransactionTs txindex = some tx')
    (hsame : SameSpend tx tx') (h : ctx.getRawTransactionEx txindex bufCap = some hex) :
    Writes tx hex ∧ hex.length < bufCap := by
  unfold getRawTransactionEx at h
  rw [hfind] at h
  dsimp only at h
  split_ifs at h with hroom
  obtain rfl := Option.some.inj h
  refine ⟨⟨tx', rfl, hsame⟩, ?_⟩
  rw [length_utilsUint8ToHex]
  omega

theorem saveRawTransactionTs_eq_some (hwrites : Writes tx hex) (hlen : hex.length < 2 ^ 32)
    (hvin : tx.vin ≠ []) (hvout : ∀ txOut ∈ tx.vout, txOut.scriptPubkey.length < 2 ^ 32)
    (h : ctx.saveRawTransactionTs txindex hex = some ctx') :
    ∃ tx', ctx'.findTransactionTs txindex = some tx' ∧ SameSpend tx tx' := by
  obtain ⟨tx', hread, hsame⟩ := hwrites.deserialize hlen hvin hvout
  unfold saveRawTransactionTs at h
  dsimp only at h
  split_ifs at h with hhex
  rw [hread] at h
  dsimp only at h
  cases hfind : ctx.findTransactionTs txindex with
  | none =>
    rw [hfind] at h
    cases h
  | some tx'' =>
    rw [hfind] at h
    obtain rfl := Option.some.inj h
    exact ⟨tx', findTransactionTs_setTransaction hfind tx', hsame⟩

/-- One input is signed: the entry and the string stand for the same inputs and outputs. -/
theorem signIndexedRawTransactionEx_eq_some {inputindex : ℕ} {scripthex : List Char}
    {sighashtype : UInt32} (hfind : ctx.findTransactionTs txindex = some tx')
    (hsame : SameSpend tx tx') (hcap : bufCap < 2 ^ 32)
    (hvin : tx.vin ≠ []) (hvout : ∀ txOut ∈ tx.vout, txOut.scriptPubkey.length < 2 ^ 32)
    (h : signIndexedRawTransactionEx sp ctx txindex inputindex scripthex sighashtype privkey
      bufCap = some (ctx', hex)) :
    (∃ tx', ctx'.findTransactionTs txindex = some tx' ∧ SameSpend tx tx') ∧ Writes tx hex ∧
      hex.length < bufCap := by
  unfold signIndexedRawTransactionEx at h
  split_ifs at h with hzero
  obtain ⟨buf, hget, h⟩ := Option.bind_eq_some_iff.mp h
  obtain ⟨buf', hsign, h⟩ := Option.bind_eq_some_iff.mp h
  obtain ⟨ctx'', hsave, h⟩ := Option.bind_eq_some_iff.mp h
  obtain ⟨rfl, rfl⟩ := Prod.mk.inj (Option.some.inj h)
  obtain ⟨hwrites, hbuf⟩ := getRawTransactionEx_eq_some hfind hsame hget
  obtain ⟨hwrites', hbuf'⟩ := signRawTransactionEx_eq_some hwrites (by omega) hvin hvout hsign
  exact ⟨saveRawTransactionTs_eq_some hwrites' (by omega) hvin hvout hsave, hwrites', hbuf'⟩

/-- All inputs are signed, one after another: the string stands for the same inputs and outputs. -/
theorem signTransactionEx_eq_some {scriptPubkey : List Char}
    (hfind : ctx.findTransactionTs txindex = some tx') (hsame : SameSpend tx tx')
    (hcap : bufCap < 2 ^ 32) (hvin : tx.vin ≠ [])
    (hvout : ∀ txOut ∈ tx.vout, txOut.scriptPubkey.length < 2 ^ 32)
    (h : signTransactionEx sp ctx txindex scriptPubkey privkey bufCap = some (ctx', hex)) :
    Writes tx hex ∧ hex.length < bufCap := by
  have hloop : ∀ (indices : List ℕ) {buf buf' : List Char}, Writes tx buf → buf.length < bufCap →
      indices.foldlM (fun buf i => signRawTransactionEx sp i buf bufCap scriptPubkey 1 privkey)
        buf = some buf' → Writes tx buf' ∧ buf'.length < bufCap := by
    intro indices
    induction indices with
    | nil =>
      intro buf buf' hwrites hbuf hrun
      obtain rfl := Option.some.inj hrun
      exact ⟨hwrites, hbuf⟩
    | cons i indices ih =>
      intro buf buf' hwrites hbuf hrun
      rw [List.foldlM_cons] at hrun
      obtain ⟨buf'', hsign, hrun⟩ := Option.bind_eq_some_iff.mp hrun
      obtain ⟨hwrites', hbuf'⟩ := signRawTransactionEx_eq_some hwrites (by omega) hvin hvout hsign
      exact ih hwrites' hbuf' hrun
  unfold signTransactionEx at h
  split_ifs at h with hzero
  obtain ⟨tx'', hfind', h⟩ := Option.bind_eq_some_iff.mp h
  obtain ⟨buf, hget, h⟩ := Option.bind_eq_some_iff.mp h
  obtain ⟨buf', hsign, h⟩ := Option.bind_eq_some_iff.mp h
  obtain ⟨ctx'', hsave, h⟩ := Option.bind_eq_some_iff.mp h
  obtain ⟨-, rfl⟩ := Prod.mk.inj (Option.some.inj h)
  obtain ⟨hwrites, hbuf⟩ := getRawTransactionEx_eq_some hfind hsame hget
  exact hloop _ hwrites hbuf hsign

end TransactionContext

end Libdogecoin
