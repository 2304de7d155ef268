/-
# The wallet

The addresses, the transactions and the table of unspent outputs of `wallet.c`, with the records
that its operations append to the wallet file. The trees hold what their vectors hold; the table of
unspent outputs belongs to the thread, not to the wallet, and is passed along. The flag of a
replaced transaction, which is freed at once, the unused tree of unspent outputs and the script of a
table entry, which is only printed, are left out.

All writes succeed. What reads or writes outside of a buffer has no result.
-/
import Libdogecoin.Base64
import Libdogecoin.Bip44
import Libdogecoin.Koinu
import Libdogecoin.Script
import Libdogecoin.SearchTree

namespace Libdogecoin

/-! ## Data -/

/-- What the wallet takes from outside. -/
structure WalletPlatform extends KeyPlatform where
  /-- `dogecoin_base58_decode_check` into a buffer of a size: the bytes with their checksum. -/
  base58DecodeCheck : Bytes → ℕ → Option Bytes

/-- The fields of `dogecoin_chainparams` that the wallet reads. -/
structure WalletParams extends KeyParams where
  genesisblockhash : Uint256

/-- What the wallet relies on of Base58Check for the addresses and the extended keys of a chain. -/
structure WalletPlatform.Base58Laws (wp : WalletPlatform) (chain : WalletParams) : Prop where
  zero_notMem : ∀ payload : Bytes, 0 ∉ wp.base58EncodeCheck payload
  encode_ne_nil : ∀ payload : Bytes, wp.base58EncodeCheck payload ≠ []
  length_address : ∀ hash : Uint160,
    (wp.base58EncodeCheck (chain.b58prefixPubkeyAddress :: hash.1)).length ≤ 34
  length_xpub : ∀ rest : Bytes, rest.length = 74 →
    (wp.base58EncodeCheck (writeBe chain.b58prefixBip32Pubkey ++ rest)).length ≤ 111
  decode_address : ∀ payload : Bytes, payload.length = 21 →
    (wp.base58EncodeCheck payload).length ≤ 34 →
    wp.base58DecodeCheck (wp.base58EncodeCheck payload) 35 =
      some (payload ++ (wp.sha256d payload).1.take 4)
  decode_xpub : ∀ payload : Bytes, payload.length = 78 →
    (wp.base58EncodeCheck payload).length ≤ 111 →
    wp.base58DecodeCheck (wp.base58EncodeCheck payload) 112 =
      some (payload ++ (wp.sha256d payload).1.take 4)

/-- `dogecoin_wallet_addr_compare`. -/
def walletAddrCompare (l r : Uint160) : Ordering := headerCompareBytes l.1 r.1

/-- `dogecoin_tx_outpoint_compare`. -/
def txOutpointCompare (l r : Uint256 × ℕ) : Ordering :=
  compareLex (fun l r => headerCompare l.1 r.1) (fun l r => compare r.2 l.2) l r

/-- `dogecoin_wallet_addr`. -/
structure WalletAddr where
  pubkeyhash : Uint160
  type : UInt8
  childindex : UInt32
  ignore : UInt8
  deriving DecidableEq

/-- `dogecoin_wtx`. -/
structure Wtx where
  txHashCache : Uint256
  blockhash : Uint256
  height : UInt32
  tx : Tx
  deriving DecidableEq

/-- `dogecoin_utxo`. The ids, of 32 bits in the source, are never used up here: it would take
`2 ^ 32` outputs. -/
structure Utxo where
  index : ℕ
  txid : Uint256
  vout : ℕ
  address : Bytes
  amount : List Char
  confirmations : UInt32
  height : UInt32
  spendable : Bool
  solvable : Bool
  deriving DecidableEq

/-- `utxos`, in the order of insertion, and `utxo_next_idx`. -/
structure Utxos where
  table : List Utxo
  nextIdx : ℕ

theorem walletAddrCompare_eq (l r : Uint160) :
    walletAddrCompare l r = List.compareLex compare r.1 l.1 :=
  headerCompareBytes_eq_compare (l.2.trans r.2.symm)

instance : Std.OrientedCmp walletAddrCompare where
  eq_swap := by
    intro a b
    rw [walletAddrCompare_eq, walletAddrCompare_eq]
    exact Std.OrientedCmp.eq_swap

instance : Std.TransCmp walletAddrCompare where
  isLE_trans := by
    intro a b c hab hbc
    rw [walletAddrCompare_eq] at hab hbc ⊢
    exact Std.TransCmp.isLE_trans hbc hab

instance : Std.LawfulEqCmp walletAddrCompare where
  eq_of_compare := by
    intro a b hab
    rw [walletAddrCompare_eq] at hab
    exact (Subtype.ext (Std.LawfulEqCmp.eq_of_compare hab)).symm

instance : Std.TransCmp fun l r : Uint256 × ℕ => headerCompare l.1 r.1 where
  eq_swap := Std.OrientedCmp.eq_swap
  isLE_trans := Std.TransCmp.isLE_trans

instance : Std.TransCmp fun l r : Uint256 × ℕ => compare r.2 l.2 where
  eq_swap := Std.OrientedCmp.eq_swap
  isLE_trans := fun hab hbc => Std.TransCmp.isLE_trans hbc hab

instance : Std.TransCmp txOutpointCompare :=
  inferInstanceAs (Std.TransCmp (compareLex _ _))

instance : Std.LawfulEqCmp txOutpointCompare where
  compare_self := Std.ReflCmp.compare_self
  eq_of_compare := by
    intro a b hab
    obtain ⟨hhash, hn⟩ := compareLex_eq_eq.mp hab
    exact Prod.ext (Std.LawfulEqCmp.eq_of_compare hhash) (Std.LawfulEqCmp.eq_of_compare hn).symm

/-- `dogecoin_wallet`, with the file behind `dbfile`. -/
structure Wallet where
  dbfile : Bytes
  masterkey : Option HdNode
  nextChildindex : UInt32
  chain : WalletParams
  bestblockheight : UInt32
  spendsTree : SearchTree (Uint256 × ℕ) Unit txOutpointCompare
  vecWtxes : List Wtx
  wtxesTree : SearchTree Uint256 Wtx headerCompare
  waddrVector : List WalletAddr
  waddrTree : SearchTree Uint160 WalletAddr walletAddrCompare

@[simp] theorem swapBytes_swapBytes (h : Uint256) : swapBytes (swapBytes h) = h :=
  Subtype.ext (List.reverse_reverse h.1)

theorem swapBytes_inj {h h' : Uint256} : swapBytes h = swapBytes h' ↔ h = h' := by
  constructor
  · intro heq
    rw [← swapBytes_swapBytes h, heq, swapBytes_swapBytes]
  · rintro rfl
    rfl

/-- The loop that adds up amounts. The sum wraps. -/
def sumValues (values : List UInt64) : UInt64 := values.foldl (· + ·) 0

/-! ## Records -/

/-- `file_rec_magic`. -/
def fileRecMagic : Bytes := [0xC8, 0xF2, 0x69, 0x1E]

/-- `WALLET_DB_REC_TYPE_MASTERPUBKEY`. -/
def recTypeMasterpubkey : UInt8 := 0

/-- `WALLET_DB_REC_TYPE_ADDR`. -/
def recTypeAddr : UInt8 := 1

/-- `WALLET_DB_REC_TYPE_TX`. -/
def recTypeTx : UInt8 := 2

/-- What `wallet_write_record` writes. -/
def encodeRecord (record : Bytes) (recordType : UInt8) : Bytes :=
  fileRecMagic ++ serVarlen (UInt32.ofNat record.length) ++ [recordType] ++ record

/-- `dogecoin_wallet_addr_serialize`. -/
def walletAddrSerialize (waddr : WalletAddr) : Bytes :=
  waddr.pubkeyhash.1 ++ [waddr.type] ++ serU32 waddr.childindex ++ [waddr.ignore]

/-- `dogecoin_wallet_wtx_serialize`. -/
def walletWtxSerialize (wtx : Wtx) : Bytes :=
  serU32 wtx.height ++ serU256 wtx.txHashCache ++ txSerialize wtx.tx

namespace Wallet

/-- `wallet_write_record`. -/
def writeRecord (w : Wallet) (record : Bytes) (recordType : UInt8) : Wallet :=
  { w with dbfile := w.dbfile ++ encodeRecord record recordType }

/-- `dogecoin_wallet_new`, with the file that `dogecoin_wallet_create` starts. -/
def create (chain : WalletParams) : Wallet where
  dbfile := [0xA8, 0xF0, 0x11, 0xC5] ++ serU32 1 ++ chain.genesisblockhash.1
  masterkey := none
  nextChildindex := 0
  chain := chain
  bestblockheight := 0
  spendsTree := .empty
  vecWtxes := []
  wtxesTree := .empty
  waddrVector := []
  waddrTree := .empty

variable (wp : WalletPlatform)

/-! ## Addresses -/

/-- `dogecoin_hdnode_serialize_public`. -/
def hdnodeSerializePublic (node : HdNode) (chain : WalletParams) : Bytes :=
  wp.base58EncodeCheck (writeBe chain.b58prefixBip32Pubkey ++ [node.depth.toUInt8] ++
    writeBe node.fingerprint ++ writeBe node.childNum ++ node.chainCode ++ node.publicKey)

/-- `dogecoin_wallet_set_master_key_copy` : both strings are cut at 112 characters. -/
def setMasterKeyCopy (w : Wallet) (masterXpub : HdNode) : Wallet :=
  let strbuf := hdnodeSerializePublic wp masterXpub w.chain
  writeRecord { w with masterkey := some masterXpub }
    (serVarstr (strbuf.take 112) ++ serVarstr (strbuf.take 112)) recTypeMasterpubkey

/-- The address is entered into the tree and the vector, and recorded. -/
def addWaddr (w : Wallet) (waddr : WalletAddr) : Wallet :=
  writeRecord { w with
    waddrTree := w.waddrTree.insert waddr.pubkeyhash waddr
    waddrVector := w.waddrVector ++ [waddr]
    nextChildindex := w.nextChildindex + 1 } (walletAddrSerialize waddr) recTypeAddr

/-- The address of a key, numbered with the next child index. -/
def nextWaddr (w : Wallet) (pubkeyhash : Uint160) : WalletAddr where
  pubkeyhash := pubkeyhash
  type := 0
  childindex := w.nextChildindex
  ignore := 0

/-- `dogecoin_wallet_next_addr`. The result of the derivation is not looked at. -/
def nextAddr (w : Wallet) : Wallet × Option WalletAddr :=
  match w.masterkey with
  | none => (w, none)
  | some masterkey =>
    let hdnode := (masterkey.publicCkd wp.toKeyPlatform w.nextChildindex).1
    let waddr := w.nextWaddr (wp.getHash160 hdnode.publicKey)
    (w.addWaddr waddr, some waddr)

/-- The key of an account, of a change level and of an index below the master key. -/
def bip44Key (masterkey : HdNode) (account index : UInt32) (change : Bool) : Option HdNode :=
  Bip44.deriveBip44ExtendedKey wp.toKeyPlatform masterkey (some account) (some index)
    (some (if change then Bip44.changeInternal else Bip44.changeExternal)) none false
    { depth := 0, fingerprint := 0, childNum := 0, chainCode := List.replicate 32 0,
      privateKey := List.replicate 32 0, publicKey := List.replicate 33 0 }

/-- `dogecoin_wallet_add_hd_account_ts`. -/
def addHdAccountTs (w : Wallet) (account : UInt32) : Wallet × Option WalletAddr :=
  match w.masterkey with
  | none => (w, none)
  | some masterkey =>
    match bip44Key wp masterkey account w.nextChildindex false with
    | none => (w, none)
    | some key =>
      let waddr := w.nextWaddr (wp.getHash160 key.publicKey)
      (w.addWaddr waddr, some waddr)

/-- `dogecoin_wallet_next_bip44_addr` : the first account. -/
def nextBip44Addr (w : Wallet) : Wallet × Option WalletAddr := w.addHdAccountTs wp 0

/-- `dogecoin_wallet_get_address_ts` : the hash in the address that is written. -/
def getAddressTs (w : Wallet) (account index : UInt32) (change : Bool) : Option Uint160 :=
  match w.masterkey with
  | none => none
  | some masterkey =>
    (bip44Key wp masterkey account index change).map fun key => wp.getHash160 key.publicKey

/-- `dogecoin_wallet_get_addresses`. -/
def getAddresses (w : Wallet) : List Bytes :=
  (w.waddrVector.filter (·.ignore = 0)).map fun waddr =>
    wp.p2pkhAddrFromHash160 waddr.pubkeyhash w.chain.toKeyParams

/-- `dogecoin_address_to_pubkey_hash`, read back as 20 bytes of a buffer of zeros. -/
def addressToPubkeyHash (p2pkh : Bytes) : Option Uint160 :=
  (wp.base58DecodeCheck p2pkh 35).map fun dec =>
    ⟨((dec.take (dec.length - 4)).drop 1 ++ List.replicate 20 0).take 20, by
      rw [List.length_take, List.length_append, List.length_replicate]
      exact Nat.min_eq_left (Nat.le_add_left _ _)⟩

/-- `dogecoin_p2pkh_address_to_wallet`. -/
def p2pkhAddressToWallet (w : Wallet) (addressIn : Bytes) : Wallet × Option WalletAddr :=
  if w.masterkey = none then (w, none)
  else if (w.getAddresses wp).any (·.isPrefixOf addressIn) then (w, none)
  else
    match addressToPubkeyHash wp addressIn with
    | none => (w, none)
    | some hash =>
      let addr := w.nextWaddr hash
      (w.addWaddr addr, some addr)

/-- `dogecoin_wallet_have_key` : the first 20 bytes of a buffer are looked up. -/
def haveKey (w : Wallet) (hash160 : Bytes) : Bool :=
  if h : (hash160.take 20).length = 20 then (w.waddrTree.find ⟨hash160.take 20, h⟩).isSome
  else false

/-! ## Ownership and spends -/

/-- `dogecoin_wallet_txout_is_mine`. -/
def txoutIsMine (w : Wallet) (txOut : TxOut) : Bool :=
  match (scriptClassify txOut.scriptPubkey).2 with
  | [] => false
  | hash :: _ => w.haveKey hash

/-- `dogecoin_wallet_is_mine`. -/
def isMine (w : Wallet) (tx : Tx) : Bool := tx.vout.any w.txoutIsMine

/-- `dogecoin_wallet_get_debit_txi`. -/
def getDebitTxi (w : Wallet) (txin : TxIn) : UInt64 :=
  match w.wtxesTree.find txin.prevout.hash with
  | none => 0
  | some prevwtx =>
    match prevwtx.tx.vout[txin.prevout.n.toNat]? with
    | none => 0
    | some txOut => if w.txoutIsMine txOut then txOut.value else 0

/-- `dogecoin_wallet_get_debit_tx`. -/
def getDebitTx (w : Wallet) (tx : Tx) : UInt64 := sumValues (tx.vin.map w.getDebitTxi)

/-- `dogecoin_wallet_is_from_me` : a positive debit, or an input that names the hash of a table
entry in one of the two byte orders. -/
def isFromMe (w : Wallet) (utxos : Utxos) (tx : Tx) : Bool :=
  (0 < w.getDebitTx tx && w.getDebitTx tx < 0x8000000000000000) ||
    tx.vin.any fun txIn => utxos.table.any fun utxo =>
      txIn.prevout.hash = utxo.txid || swapBytes txIn.prevout.hash = utxo.txid

/-- `dogecoin_wallet_is_spent`. -/
def isSpent (w : Wallet) (hash : Uint256) (n : ℕ) : Bool := (w.spendsTree.find (hash, n)).isSome

/-- `dogecoin_hash_is_empty` : it compares 20 bytes. -/
def hashIsEmpty (hash : Uint256) : Bool := (hash.1.take 20).all (· = 0)

/-- `dogecoin_tx_is_coinbase`. -/
def txIsCoinbase (tx : Tx) : Bool :=
  match tx.vin with
  | [txIn] => hashIsEmpty txIn.prevout.hash && txIn.prevout.n = 0xffffffff
  | _ => false

/-- A coinbase that is not deep enough; `COINBASE_MATURITY` is 100. -/
def immature (w : Wallet) (wtx : Wtx) : Bool :=
  txIsCoinbase wtx.tx && (w.bestblockheight < 100 || wtx.height > w.bestblockheight - 100)

/-- The outputs of a transaction that are not spent and belong to the wallet, with their numbers. -/
def available (w : Wallet) (wtx : Wtx) : List (TxOut × ℕ) :=
  wtx.tx.vout.zipIdx.filter fun (txOut, i) => !w.isSpent wtx.txHashCache i && w.txoutIsMine txOut

/-- `dogecoin_wallet_wtx_get_available_credit`. -/
def wtxGetAvailableCredit (w : Wallet) (wtx : Wtx) : UInt64 :=
  if w.immature wtx then 0 else sumValues ((w.available wtx).map fun out => out.1.value)

/-- `dogecoin_wallet_get_balance`. -/
def getBalance (w : Wallet) : UInt64 := sumValues (w.vecWtxes.map w.wtxGetAvailableCredit)

/-- `dogecoin_wallet_get_unspents`. -/
def getUnspents (w : Wallet) : List (Uint256 × ℕ) :=
  w.vecWtxes.flatMap fun wtx => (w.available wtx).map fun out => (wtx.txHashCache, out.2)

/-! ## The table of unspent outputs -/

/-- `dogecoin_pubkey_hash_to_p2pkh_address`. The 20 bytes behind the third are taken if one of the
bytes from the third on, up to the last four, is none of the four opcodes; else zeros. -/
def pubkeyHashToP2pkhAddress (script : Bytes) (chain : WalletParams) : Option Bytes :=
  let stripped := ((script.drop 2).take (script.length - 6)).any fun b =>
    b ≠ opDup ∧ b ≠ opHash160 ∧ b ≠ opEqualverify ∧ b ≠ opChecksig
  let hash := if stripped then (script.drop 3).take 20 else List.replicate 20 0
  -- shorter scripts are read or copied behind their end
  if script.length < 20 ∨ (stripped = true ∧ script.length < 23) then none
  else if h : hash.length = 20 then some (wp.p2pkhAddrFromHash160 ⟨hash, h⟩ chain.toKeyParams)
  else none

/-- The entry is that of an output. -/
def isEntry (txid : Uint256) (vout : ℕ) (utxo : Utxo) : Bool := utxo.txid = txid && utxo.vout = vout

/-- The loop over the table for one input: an entry for its outpoint is marked, unless a marked one
for the same outpoint is there. -/
def markSpent (txid : Uint256) (vout : ℕ) : List Utxo → List Utxo → List Utxo
  | done, [] => done
  | done, utxo :: rest =>
    let spent := (done ++ utxo :: rest).any fun u => !u.spendable && isEntry txid vout u
    if isEntry txid vout utxo && !spent then
      markSpent txid vout (done ++ [{ utxo with spendable := false, solvable := false }]) rest
    else markSpent txid vout (done ++ [utxo]) rest

/-- The loop over the inputs. -/
def scrapeInputs (tx : Tx) (utxos : Utxos) : Utxos :=
  tx.vin.foldl (fun utxos txIn =>
    { utxos with
      table := markSpent (swapBytes txIn.prevout.hash) txIn.prevout.n.toNat [] utxos.table }) utxos

/-- The first entry of an output gets another height. -/
def setHeight (txid : Uint256) (vout : ℕ) (height : UInt32) : List Utxo → List Utxo
  | [] => []
  | utxo :: rest =>
    if isEntry txid vout utxo then { utxo with height := height } :: rest
    else utxo :: setHeight txid vout height rest

/-- An output to an address of the wallet is entered, or its entry gets the height. -/
def recordOutput (txid : Uint256) (height : UInt32) (p2pkh : Bytes) (txOut : TxOut) (vout : ℕ)
    (utxos : Utxos) : Utxos :=
  if utxos.table.any (isEntry txid vout) then
    { utxos with table := setHeight txid vout height utxos.table }
  else
    let utxo :=
      { index := utxos.nextIdx + 1, txid := txid, vout := vout, address := p2pkh
        amount := (Koinu.koinuToCoinsStr txOut.value 22).getD []
        confirmations := 0, height := height, spendable := true, solvable := true }
    -- an entry with the same index would be kept instead
    { table := if utxos.table.any (·.index = utxo.index) then utxos.table else utxos.table ++ [utxo]
      nextIdx := utxos.nextIdx + 1 }

/-- One turn of the loop over the outputs. The addresses are compared by 34 characters. -/
def scrapeOutput (w : Wallet) (txid : Uint256) (height : UInt32) (txOut : TxOut) (vout : ℕ)
    (utxos : Utxos) : Option Utxos :=
  if w.waddrVector.length = 0 ∨ txOut.scriptPubkey.length = 0 then some utxos
  else (pubkeyHashToP2pkhAddress wp txOut.scriptPubkey w.chain).map fun p2pkh =>
    (w.getAddresses wp).foldl (fun utxos addr =>
      if p2pkh.take 34 = addr.take 34 then recordOutput txid height p2pkh txOut vout utxos
      else utxos) utxos

/-- `dogecoin_wallet_scrape_utxos`. -/
def scrapeUtxos (w : Wallet) (wtx : Wtx) (utxos : Utxos) : Option Utxos :=
  wtx.tx.vout.zipIdx.foldlM (fun utxos (txOut, vout) =>
    scrapeOutput wp w (swapBytes (txHash wp.toPlatform wtx.tx)) wtx.height txOut vout utxos)
    (scrapeInputs wtx.tx utxos)

/-- `dogecoin_wallet_utxos_update_confirmations`. -/
def updateConfirmations (height : UInt32) (utxos : Utxos) : Utxos :=
  { utxos with
    table := utxos.table.map fun utxo => { utxo with confirmations := height - utxo.height + 1 } }

/-! ## Transactions -/

/-- `dogecoin_tx_outpoint_is_null`. -/
def txOutpointIsNull (prevout : TxOutpoint) : Bool :=
  prevout.n = 0xffffffff && prevout.hash = Uint256.zero

/-- The previous outputs of a transaction are recorded as spent. -/
def recordSpends (w : Wallet) (tx : Tx) : Wallet :=
  { w with
    spendsTree := tx.vin.foldl (fun tree txIn =>
      if txOutpointIsNull txIn.prevout then tree
      else tree.insert (txIn.prevout.hash, txIn.prevout.n.toNat) ()) w.spendsTree }

/-- A transaction takes the place of one with the same hash. -/
def enterWtx (w : Wallet) (wtx : Wtx) : Wallet :=
  match w.wtxesTree.find wtx.txHashCache with
  | none =>
    { w with
      wtxesTree := w.wtxesTree.insert wtx.txHashCache wtx
      vecWtxes := w.vecWtxes ++ [wtx] }
  | some checkwtx =>
    { w with
      wtxesTree := (w.wtxesTree.erase wtx.txHashCache).insert wtx.txHashCache wtx
      vecWtxes := w.vecWtxes.erase checkwtx ++ [wtx] }

/-- `dogecoin_wallet_add_wtx_intern_move`. -/
def addWtxInternMove (w : Wallet) (utxos : Utxos) (wtx : Wtx) : Wallet :=
  let w := w.enterWtx wtx
  if w.isFromMe utxos wtx.tx then w.recordSpends wtx.tx else w

/-- `dogecoin_wallet_wtx_cachehash`. -/
def wtxCachehash (wtx : Wtx) : Wtx := { wtx with txHashCache := txHash wp.toPlatform wtx.tx }

/-- `dogecoin_wallet_add_wtx_move`, with `dogecoin_wallet_add_wtx`. -/
def addWtxMove (w : Wallet) (utxos : Utxos) (wtx : Wtx) : Wallet :=
  let wtx := wtxCachehash wp wtx
  (w.writeRecord (walletWtxSerialize wtx) recTypeTx).addWtxInternMove utxos wtx

/-- The wallet and the table of unspent outputs of its thread. -/
structure Loaded where
  wallet : Wallet
  utxos : Utxos

/-- `dogecoin_wallet_check_transaction` for a transaction of a block. -/
def checkTransaction (s : Loaded) (tx : Tx) (blockhash : Uint256) (height : UInt32) :
    Option Loaded :=
  if s.wallet.isMine tx || s.wallet.isFromMe s.utxos tx then
    if s.wallet.vecWtxes.any (·.txHashCache = txHash wp.toPlatform tx) then
      some { s with utxos := updateConfirmations height s.utxos }
    else do
      let wtx := { txHashCache := Uint256.zero, blockhash := blockhash, height := height, tx := tx }
      let utxos ← s.wallet.scrapeUtxos wp wtx s.utxos
      some { wallet := s.wallet.addWtxMove wp utxos wtx, utxos := updateConfirmations height utxos }
  else some { s with utxos := updateConfirmations height s.utxos }

end Wallet

/-! ## A wallet for runs on fixed inputs -/

/-- `sampleCurve` without its improper keys. -/
def sampleWalletCurve : Secp256k1 where
  seckeyVerify := sampleCurve.seckeyVerify
  pubkeyCreate := fun key => if sampleCurve.seckeyVerify key then some (2 :: key) else none
  privkeyTweakAdd := fun key tweak =>
    if sampleCurve.seckeyVerify key && decide (sampleAdd key tweak ≠ List.replicate 32 0) then
      (sampleAdd key tweak, true)
    else (List.replicate 32 0, false)
  pubkeyTweakAdd := sampleCurve.pubkeyTweakAdd
  signRecoverable := sampleCurve.signRecoverable
  recover := sampleCurve.recover
  verify := sampleCurve.verify

theorem sampleWalletCurve_tweakLaws : sampleWalletCurve.TweakLaws := by
  have hadd : ∀ {key tweak key' : Bytes}, sampleWalletCurve.privkeyTweakAdd key tweak =
    (key', true) →
      key' = sampleAdd key tweak ∧ sampleAdd key tweak ≠ List.replicate 32 0 := by
    intro key tweak key' h
    unfold sampleWalletCurve at h
    dsimp only at h
    split_ifs at h with hvalid
    · rw [Bool.and_eq_true] at hvalid
      exact ⟨(Prod.mk.inj h).1.symm, of_decide_eq_true hvalid.2⟩
    · exact absurd (Prod.mk.inj h).2 Bool.false_ne_true
  have hverify : ∀ {key tweak key' : Bytes}, sampleWalletCurve.privkeyTweakAdd key tweak =
    (key', true) →
      sampleWalletCurve.seckeyVerify key' = true := by
    intro key tweak key' h
    obtain ⟨rfl, hne⟩ := hadd h
    exact decide_eq_true ⟨LittleEndian.length_toBytes 32 _, hne⟩
  have hpubkey : ∀ {key : Bytes}, sampleWalletCurve.seckeyVerify key = true →
      sampleWalletCurve.eccGetPubkey key = 2 :: key := by
    intro key h
    change sampleCurve.seckeyVerify key = true at h
    show ((if sampleCurve.seckeyVerify key = true then some (2 :: key) else none).getD _) = _
    rw [if_pos h]
    rfl
  refine ⟨?_, ?_⟩
  · intro key tweak key' hkey _ h
    rw [hpubkey hkey, hpubkey (hverify h), (hadd h).1]
    rfl
  · intro key tweak key' _ h
    exact hverify h

/-- A hash for runs on fixed inputs: the bytes behind the first. -/
def sampleDigest (bs : Bytes) : Uint256 :=
  ⟨((bs ++ List.replicate 33 0).drop 1).take 32, by
    rw [List.length_take, List.length_drop, List.length_append, List.length_replicate]
    omega⟩

/-- The surroundings of a wallet for runs on fixed inputs. Strings are base64 behind a letter. -/
def sampleWallet : WalletPlatform where
  toKeyPlatform := { sampleKeys with
    sha256Raw := sampleDigest
    curve := sampleWalletCurve
    base58EncodeCheck := fun bs => 68 :: base64Encode bs }
  base58DecodeCheck := fun str limit =>
    let payload := base64Decode (str.drop 1)
    if str.length < limit then some (payload ++ (sampleDigest (sampleDigest payload).1).1.take 4)
    else none

theorem sampleWallet_base58Laws (chain : WalletParams) : sampleWallet.Base58Laws chain := by
  have hlen : ∀ payload : Bytes, (sampleWallet.base58EncodeCheck payload).length =
      (base64Encode payload).length + 1 := fun _ => rfl
  have hdecode : ∀ (payload : Bytes) (limit : ℕ),
      (sampleWallet.base58EncodeCheck payload).length < limit →
        sampleWallet.base58DecodeCheck (sampleWallet.base58EncodeCheck payload) limit =
          some (payload ++ (sampleWallet.sha256d payload).1.take 4) := by
    intro payload limit hlt
    have hpayload : base64Decode ((sampleWallet.base58EncodeCheck payload).drop 1) = payload :=
      base64Decode_encode payload
    show (if (sampleWallet.base58EncodeCheck payload).length < limit then some _ else none) = _
    rw [if_pos hlt, hpayload]
    rfl
  refine ⟨?_, ?_, ?_, ?_, ?_, ?_⟩
  · intro payload hmem
    rcases List.mem_cons.mp hmem with hfirst | hrest
    · exact absurd hfirst (by decide)
    · exact zero_notMem_base64Encode payload hrest
  · intro payload
    exact List.cons_ne_nil _ _
  · intro hash
    have hle := length_base64Encode_le (chain.b58prefixPubkeyAddress :: hash.1)
    rw [List.length_cons, hash.2] at hle
    rw [hlen]
    omega
  · intro rest hrest
    have hle := length_base64Encode_le (writeBe chain.b58prefixBip32Pubkey ++ rest)
    rw [List.length_append, hrest, length_writeBe] at hle
    rw [hlen]
    omega
  · intro payload _ hle
    exact hdecode payload 35 (Nat.lt_succ_of_le hle)
  · intro payload _ hle
    exact hdecode payload 112 (Nat.lt_succ_of_le hle)

/-- A chain for runs on fixed inputs. -/
def sampleWalletParams : WalletParams where
  toKeyParams := keyParamsMain
  genesisblockhash := Uint256.zero

end Libdogecoin
