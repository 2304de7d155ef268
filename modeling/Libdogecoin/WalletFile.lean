/-
# The wallet file

`dogecoin_wallet_load` of `wallet.c` : a header, then records, which are applied one by one to a new
wallet. A load that fails is told apart from one without a defined result.

* `loadRecords_encode` : the load loop goes through the records that were written;
* `load_fileOf` : loading a file of well-formed records is applying them.
-/
import Libdogecoin.Wallet

namespace Libdogecoin

/-! ## Reading records -/

/-- A string in a buffer, up to the NUL. -/
def cstr (buffer : Bytes) : Bytes := buffer.takeWhile (· ≠ 0)

/-- `dogecoin_wallet_addr_deserialize` on the 26 bytes of a record. -/
def walletAddrDeserialize (buf : Bytes) : Option WalletAddr := do
  let (pubkeyhash, rest) ← deserBytes 20 buf
  let (type, rest) ← deserBytes 1 rest
  let (childindex, rest) ← deserU32 rest
  let (ignore, _) ← deserBytes 1 rest
  if h : pubkeyhash.length = 20 then
    some { pubkeyhash := ⟨pubkeyhash, h⟩, type := type.headD 0, childindex := childindex,
           ignore := ignore.headD 0 }
  else none

/-- `dogecoin_wallet_wtx_deserialize` into a new transaction. Whether the first two fields were read
is not checked. -/
def walletWtxDeserialize (buf : Bytes) : Option Wtx := do
  let (height, rest) := (deserU32 buf).getD (0, buf)
  let (txHashCache, rest) := (deserU256 rest).getD (Uint256.zero, rest)
  let (tx, _) ← txDeserialize rest
  some { txHashCache := txHashCache, blockhash := Uint256.zero, height := height, tx := tx }

/-- A node that was just allocated. -/
def HdNode.zero : HdNode where
  depth := 0
  fingerprint := 0
  childNum := 0
  chainCode := List.replicate 32 0
  privateKey := List.replicate 32 0
  publicKey := List.replicate 33 0

namespace Wallet

variable (wp : WalletPlatform)

/-- `dogecoin_hdnode_deserialize` : a node has 112 bytes in memory, and so has the buffer. -/
def hdnodeDeserialize (str : Bytes) (chain : WalletParams) : Option HdNode := do
  let dec ← wp.base58DecodeCheck str 112
  let data := dec ++ List.replicate (112 - dec.length) 0
  let version := readBe data
  let keys : Bytes × Bytes ←
    if version = chain.b58prefixBip32Pubkey then
      some (List.replicate 32 0, (data.drop 45).take 33)
    else if version = chain.b58prefixBip32Privkey then
      if (data.drop 45).headD 0 ≠ 0 then none
      else some ((data.drop 46).take 32, wp.curve.eccGetPubkey ((data.drop 46).take 32))
    else none
  some
    { depth := ((data.drop 4).headD 0).toUInt32
      fingerprint := readBe (data.drop 5)
      childNum := readBe (data.drop 9)
      chainCode := (data.drop 13).take 32
      privateKey := keys.1
      publicKey := keys.2 }

/-- `deser_varlen_from_file` and `fread` into a buffer of 196 zeros. -/
def readString (buf : Bytes) : Option (Bytes × Bytes) := do
  let (len, rest) ← deserVarlen buf
  if len.toNat > 196 ∨ len = 0 then none
  else deserBytes len.toNat rest

/-- `dogecoin_load_wallet_masterpubkey`. Whether the string is a key is not checked. Where both
buffers hold the same 196 bytes and no NUL, `strcmp` reads behind them. -/
def loadMasterpubkey (w : Wallet) (buf : Bytes) : Option (Option (Wallet × Bytes)) :=
  match readString buf with
  | none => some none
  | some (strbuf, rest) =>
    match readString rest with
    | none => some none
    | some (strbufCheck, rest) =>
      if cstr strbuf ≠ cstr strbufCheck then some none
      else if (cstr strbuf).length ≥ 196 then none
      else
        some (some ({ w with
          masterkey := some ((hdnodeDeserialize wp (cstr strbuf) w.chain).getD
            HdNode.zero) }, rest))

/-- The address of a record is entered, unless it is to be ignored. -/
def enterWaddr (w : Wallet) (waddr : WalletAddr) : Wallet :=
  if waddr.ignore = 0 then
    { w with
      waddrTree := w.waddrTree.insert waddr.pubkeyhash waddr
      waddrVector := w.waddrVector ++ [waddr]
      nextChildindex := waddr.childindex + 1 }
  else w

/-- `dogecoin_wallet_load_address`. -/
def loadAddress (w : Wallet) (buf : Bytes) : Option (Wallet × Bytes) := do
  let (record, rest) ← deserBytes 26 buf
  let waddr ← walletAddrDeserialize record
  some (w.enterWaddr waddr, rest)

/-- A transaction that was read from a record. -/
def replayWtx (s : Loaded) (wtx : Wtx) : Option Loaded := do
  let utxos ← s.wallet.scrapeUtxos wp wtx s.utxos
  some { wallet := s.wallet.addWtxInternMove utxos wtx, utxos := utxos }

/-- The end of a load: the wallet, or failure. -/
inductive LoadResult where
  | loaded (s : Loaded)
  | failed

/-- The loop over the records of a file that is not longer than the fuel.
`DOGECOIN_MAX_P2P_MSG_SIZE` is 4000000. -/
def loadRecords : ℕ → Bytes → Loaded → Option LoadResult
  | 0, _, s => some (.loaded s)
  | fuel + 1, buf, s =>
    if buf.length < 4 then some (.loaded s)
    else if buf.take 4 ≠ fileRecMagic then some .failed
    else
      match deserVarlen (buf.drop 4) with
      | some (reclen, rectype :: rest) =>
        if rectype = recTypeMasterpubkey then
          match s.wallet.loadMasterpubkey wp rest with
          | none => none
          | some none => some .failed
          | some (some (wallet, rest)) => loadRecords fuel rest { s with wallet := wallet }
        else if rectype = recTypeAddr then
          match s.wallet.loadAddress rest with
          | none => some .failed
          | some (wallet, rest) => loadRecords fuel rest { s with wallet := wallet }
        else if rectype = recTypeTx then
          if reclen = 0 ∨ reclen > 4000000 ∨ rest.length < reclen.toNat then some .failed
          else
            match walletWtxDeserialize (rest.take reclen.toNat) with
            | none => some .failed
            | some wtx => (replayWtx wp s wtx).bind fun s =>
              loadRecords fuel (rest.drop reclen.toNat) s
        else loadRecords fuel (rest.drop reclen.toNat) s
      | _ => some .failed

/-- `dogecoin_wallet_load` of a file into a new wallet: the magic, one byte of the version and the
chain are checked. The size of the file is cut to 32 bits. -/
def load (file : Bytes) (chain : WalletParams) (utxos : Utxos) : Option LoadResult :=
  if (UInt32.ofNat file.length).toNat < 40 ∨ file.length < 40 ∨
      file.take 4 ≠ [0xA8, 0xF0, 0x11, 0xC5] then some .failed
  else if (file.drop 4).headD 0 > 1 then some .failed
  else if (file.drop 8).take 32 ≠ chain.genesisblockhash.1 then some .failed
  else loadRecords wp file.length (file.drop 40)
    { wallet := { create chain with dbfile := file }, utxos := utxos }

/-! ## Records that are read back -/

/-- A record of the wallet file. -/
inductive FileRecord where
  | masterpubkey (str : Bytes)
  | addr (waddr : WalletAddr)
  | tx (wtx : Wtx)

namespace FileRecord

/-- What is written for a record. -/
def encode : FileRecord → Bytes
  | masterpubkey str => encodeRecord (serVarstr str ++ serVarstr str) recTypeMasterpubkey
  | addr waddr => encodeRecord (walletAddrSerialize waddr) recTypeAddr
  | tx wtx => encodeRecord (walletWtxSerialize wtx) recTypeTx

/-- The record can be read back. The block of a transaction is not written. -/
def Readable : FileRecord → Prop
  | masterpubkey str => str ≠ [] ∧ str.length < 196 ∧ 0 ∉ str
  | addr _ => True
  | tx wtx => (walletWtxSerialize wtx).length ≤ 4000000 ∧
      walletWtxDeserialize (walletWtxSerialize wtx) = some { wtx with blockhash := Uint256.zero }

/-- What a load makes of a record. -/
def replay (s : Loaded) : FileRecord → Option Loaded
  | masterpubkey str =>
    if str.length ≥ 196 then none
    else some { s with
      wallet := { s.wallet with
        masterkey := some ((hdnodeDeserialize wp str s.wallet.chain).getD HdNode.zero) } }
  | addr waddr => some { s with wallet := s.wallet.enterWaddr waddr }
  | tx wtx => replayWtx wp s { wtx with blockhash := Uint256.zero }

end FileRecord

variable {wp} {rs : List FileRecord}

variable {str : Bytes}

/-- The string of a key ends in front of the end of its buffer. -/
theorem FileRecord.replay_masterpubkey (h : str.length < 196) (s : Loaded) :
    (FileRecord.masterpubkey str).replay wp s =
      some { s with
        wallet := { s.wallet with
          masterkey := some ((hdnodeDeserialize wp str s.wallet.chain).getD HdNode.zero) } } :=
  if_neg (not_le.mpr h)

theorem cstr_of_notMem (h : 0 ∉ str) : cstr str = str := by
  unfold cstr
  rw [List.takeWhile_eq_self_iff]
  intro b hb
  exact decide_eq_true fun hzero => h (hzero ▸ hb)

/-- A string that was written is read back. -/
theorem readString_serVarstr (hne : str ≠ []) (hlen : str.length ≤ 196) (rest : Bytes) :
    readString (serVarstr str ++ rest) = some (str, rest) := by
  have hpos : 0 < str.length := List.length_pos_of_ne_nil hne
  have hcount : (UInt32.ofNat str.length).toNat = str.length :=
    UInt32.toNat_ofNat_of_lt' (lt_of_le_of_lt hlen (by decide))
  have hzero : UInt32.ofNat str.length ≠ 0 := by
    intro heq
    rw [heq] at hcount
    exact absurd hcount (by change ¬ 0 = _; omega)
  unfold readString serVarstr
  rw [if_neg (by omega), if_neg (by omega), List.append_assoc, deserVarlen_serVarlen]
  show (if (UInt32.ofNat str.length).toNat > 196 ∨ UInt32.ofNat str.length = 0 then none
    else deserBytes (UInt32.ofNat str.length).toNat (str ++ rest)) = _
  rw [hcount, if_neg (by rintro (h | h); omega; exact hzero h), deserBytes_append]

theorem length_walletAddrSerialize (waddr : WalletAddr) :
    (walletAddrSerialize waddr).length = 26 := by
  simp [walletAddrSerialize, waddr.pubkeyhash.2]

/-- An address that was written is read back. -/
theorem walletAddrDeserialize_serialize (waddr : WalletAddr) :
    walletAddrDeserialize (walletAddrSerialize waddr) = some waddr := by
  have hhash : deserBytes 20 (walletAddrSerialize waddr) =
      some (waddr.pubkeyhash.1, [waddr.type] ++ (serU32 waddr.childindex ++ [waddr.ignore])) := by
    unfold walletAddrSerialize
    rw [List.append_assoc, List.append_assoc]
    exact deserBytes_append_of_length waddr.pubkeyhash.2 _
  have htype : deserBytes 1 ([waddr.type] ++ (serU32 waddr.childindex ++ [waddr.ignore])) =
      some ([waddr.type], serU32 waddr.childindex ++ [waddr.ignore]) :=
        deserBytes_append_of_length rfl _
  have hignore : deserBytes 1 [waddr.ignore] = some ([waddr.ignore], []) := rfl
  unfold walletAddrDeserialize
  simp only [Option.bind_eq_bind, Option.bind_some, hhash, htype, deserU32_serU32, hignore]
  rw [dif_pos waddr.pubkeyhash.2]
  rfl

/-- What the load loop does with a record, by its type. -/
theorem loadRecords_encodeRecord (record : Bytes) (type : UInt8) (fuel : ℕ)
    (rest : Bytes) (s : Loaded) :
    loadRecords wp (fuel + 1) (encodeRecord record type ++ rest) s =
      if type = recTypeMasterpubkey then
        match s.wallet.loadMasterpubkey wp (record ++ rest) with
        | none => none
        | some none => some .failed
        | some (some (wallet, rest)) => loadRecords wp fuel rest { s with wallet := wallet }
      else if type = recTypeAddr then
        match s.wallet.loadAddress (record ++ rest) with
        | none => some .failed
        | some (wallet, rest) => loadRecords wp fuel rest { s with wallet := wallet }
      else if type = recTypeTx then
        if UInt32.ofNat record.length = 0 ∨ UInt32.ofNat record.length > 4000000 ∨
            (record ++ rest).length < (UInt32.ofNat record.length).toNat then some .failed
        else
          match walletWtxDeserialize ((record ++ rest).take (UInt32.ofNat record.length).toNat) with
          | none => some .failed
          | some wtx => (replayWtx wp s wtx).bind fun s =>
            loadRecords wp fuel ((record ++ rest).drop (UInt32.ofNat record.length).toNat) s
      else loadRecords wp fuel ((record ++ rest).drop (UInt32.ofNat record.length).toNat) s := by
  -- what stands in front of the payload
  have hhead : encodeRecord record type ++ rest =
      fileRecMagic ++ (serVarlen (UInt32.ofNat record.length) ++ (type :: (record ++ rest))) := by
    simp [encodeRecord]
  have hmagic : ∀ tail : Bytes, ¬ (fileRecMagic ++ tail).length < 4 ∧
      (fileRecMagic ++ tail).take 4 = fileRecMagic ∧ (fileRecMagic ++ tail).drop 4 = tail := by
    intro tail
    refine ⟨?_, rfl, rfl⟩
    rw [List.length_append]
    show ¬ 4 + _ < 4
    omega
  obtain ⟨hlen, htake, hdrop⟩ := hmagic
    (serVarlen (UInt32.ofNat record.length) ++ (type :: (record ++ rest)))
  rw [hhead, loadRecords, if_neg hlen, htake, if_neg (not_not.mpr rfl), hdrop,
    deserVarlen_serVarlen]

/-- The key is read twice, and what was written twice is the same. -/
theorem loadMasterpubkey_append (w : Wallet) (hne : str ≠ []) (hlen : str.length < 196)
    (hzero : 0 ∉ str) (rest : Bytes) :
    w.loadMasterpubkey wp (serVarstr str ++ serVarstr str ++ rest) =
      some (some ({ w with
        masterkey := some ((hdnodeDeserialize wp str w.chain).getD HdNode.zero) }, rest)) := by
  unfold loadMasterpubkey
  rw [List.append_assoc, readString_serVarstr hne hlen.le]
  dsimp only
  rw [readString_serVarstr hne hlen.le]
  dsimp only
  rw [if_neg (not_not.mpr rfl), cstr_of_notMem hzero, if_neg (not_le.mpr hlen)]

theorem loadAddress_append (w : Wallet) (waddr : WalletAddr) (rest : Bytes) :
    w.loadAddress (walletAddrSerialize waddr ++ rest) = some (w.enterWaddr waddr, rest) := by
  unfold loadAddress
  rw [deserBytes_append_of_length (length_walletAddrSerialize waddr)]
  show ((walletAddrDeserialize (walletAddrSerialize waddr)).bind _) = _
  rw [walletAddrDeserialize_serialize]
  rfl

/-- **One record.** The load loop applies a record that was written, and goes on behind it. -/
theorem loadRecords_encode_append {r : FileRecord} (hr : r.Readable) (fuel : ℕ) (rest : Bytes)
    (s : Loaded) :
    loadRecords wp (fuel + 1) (r.encode ++ rest) s =
      (r.replay wp s).bind (loadRecords wp fuel rest) := by
  cases r with
  | masterpubkey str =>
    obtain ⟨hne, hlen, hzero⟩ := hr
    refine (loadRecords_encodeRecord (serVarstr str ++ serVarstr str) recTypeMasterpubkey fuel
      rest s).trans ?_
    rw [if_pos rfl, loadMasterpubkey_append s.wallet hne hlen hzero rest,
      FileRecord.replay_masterpubkey hlen]
    rfl
  | addr waddr =>
    refine (loadRecords_encodeRecord (walletAddrSerialize waddr) recTypeAddr fuel rest s).trans ?_
    rw [if_neg (by decide), if_pos rfl, loadAddress_append]
    rfl
  | tx wtx =>
    obtain ⟨hlen, hread⟩ := hr
    have hcount : (UInt32.ofNat (walletWtxSerialize wtx).length).toNat =
      (walletWtxSerialize wtx).length :=
      UInt32.toNat_ofNat_of_lt' (lt_of_le_of_lt hlen (by decide))
    have hpos : 36 ≤ (walletWtxSerialize wtx).length := by
      simp [walletWtxSerialize, serU256, wtx.txHashCache.2]
      omega
    have hbounds : ¬ (UInt32.ofNat (walletWtxSerialize wtx).length = 0 ∨
        UInt32.ofNat (walletWtxSerialize wtx).length > 4000000 ∨
        (walletWtxSerialize wtx ++ rest).length <
          (UInt32.ofNat (walletWtxSerialize wtx).length).toNat) := by
      rw [hcount, List.length_append]
      rintro (h | h | h)
      · rw [h] at hcount
        change 0 = _ at hcount
        omega
      · rw [gt_iff_lt, UInt32.lt_iff_toNat_lt, hcount] at h
        change 4000000 < _ at h
        omega
      · omega
    refine (loadRecords_encodeRecord (walletWtxSerialize wtx) recTypeTx fuel rest s).trans ?_
    rw [if_neg (by decide), if_neg (by decide), if_pos rfl, if_neg hbounds, hcount, List.take_left,
      List.drop_left, hread]
    rfl

theorem length_encodeRecord_pos (record : Bytes) (type : UInt8) :
    0 < (encodeRecord record type).length := by
  simp [encodeRecord]

theorem FileRecord.length_encode_pos (r : FileRecord) : 0 < r.encode.length := by
  cases r with
  | masterpubkey str => exact length_encodeRecord_pos _ _
  | addr waddr => exact length_encodeRecord_pos _ _
  | tx wtx => exact length_encodeRecord_pos _ _

/-- The load loop goes through the records that were written. -/
theorem loadRecords_encode (hrs : ∀ r ∈ rs, r.Readable) {fuel : ℕ} (s : Loaded)
    (hfuel : (rs.flatMap FileRecord.encode).length ≤ fuel) :
    loadRecords wp fuel (rs.flatMap FileRecord.encode) s =
      (rs.foldlM (FileRecord.replay wp) s).map .loaded := by
  induction rs generalizing fuel s with
  | nil =>
    cases fuel with
    | zero => rfl
    | succ fuel => rfl
  | cons r rs ih =>
    have hr := hrs r List.mem_cons_self
    have hpos := r.length_encode_pos
    rw [List.flatMap_cons, List.length_append] at hfuel
    obtain ⟨n, rfl⟩ : ∃ n, fuel = n + 1 := ⟨fuel - 1, by omega⟩
    rw [List.flatMap_cons, loadRecords_encode_append hr, List.foldlM_cons]
    cases hreplay : r.replay wp s with
    | none => rfl
    | some s' =>
      exact ih (fun r hmem => hrs r (List.mem_cons_of_mem _ hmem)) s' (by omega)

/-- The file of a wallet: the header, then records. -/
def fileOf (chain : WalletParams) (rs : List FileRecord) : Bytes :=
  (create chain).dbfile ++ rs.flatMap FileRecord.encode

/-- **Loading a file** of well-formed records is applying them, unless its size is cut too short. -/
theorem load_fileOf {chain : WalletParams} (hrs : ∀ r ∈ rs, r.Readable)
    (hsize : 40 ≤ (UInt32.ofNat (fileOf chain rs).length).toNat) (utxos : Utxos) :
    load wp (fileOf chain rs) chain utxos =
      (rs.foldlM (FileRecord.replay wp)
        { wallet := { create chain with dbfile := fileOf chain rs }, utxos := utxos }).map
          .loaded := by
  have hhead : (create chain).dbfile.length = 40 := by
    simp [create, chain.genesisblockhash.2]
  have hlen : 40 ≤ (fileOf chain rs).length := by
    rw [fileOf, List.length_append]
    omega
  have hdrop : (fileOf chain rs).drop 40 = rs.flatMap FileRecord.encode := List.drop_left' hhead
  have htake : (fileOf chain rs).take 4 = [0xA8, 0xF0, 0x11, 0xC5] := rfl
  have hversion : ¬ ((fileOf chain rs).drop 4).headD 0 > 1 := by
    show ¬ (1 : UInt8) > 1
    decide
  have hgenesis : ((fileOf chain rs).drop 8).take 32 = chain.genesisblockhash.1 := by
    show (chain.genesisblockhash.1 ++ _).take 32 = _
    exact List.take_left' chain.genesisblockhash.2
  unfold load
  rw [if_neg (by rw [htake]; rintro (h | h | h); omega; omega; exact h rfl), if_neg hversion,
    if_neg (not_not.mpr hgenesis), hdrop, loadRecords_encode hrs]
  rw [fileOf, List.length_append]
  omega

end Wallet

end Libdogecoin
