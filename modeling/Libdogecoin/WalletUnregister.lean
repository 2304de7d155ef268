/-
# Unregistering an address

`dogecoin_unregister_watch_address_with_node` reads the records of the wallet file and writes those
that stay to a new file, which takes the place of the old one. An address is entered into the new
wallet as if it were registered, with the next child index there.

* `built_rebuildLoop` : what the loop has written when it comes to the end;
* `rebuilt_iff` : when the new file holds the other addresses and all transactions as they were.
-/
import Libdogecoin.Renumber
import Libdogecoin.WalletAppend

namespace Libdogecoin

open LogScan

/-! ## Searching a string -/

/-- `find_needle` at one position of the haystack, over `len` bytes of both strings with their
terminators. Behind the terminators nothing is defined. -/
def needleFrom : ℕ → Bytes → Bytes → Option Bool
  | 0, _, _ => some true
  | len + 1, c :: haystack, d :: needle =>
    if c = d then needleFrom len haystack needle else some false
  | _ + 1, _, _ => none

/-- `find_needle` : whether it finds a position. -/
def findNeedle (len : ℕ) (needle : Bytes) : Bytes → Option Bool
  | [] => some false
  | c :: haystack =>
    match needleFrom len (c :: haystack ++ [0]) (needle ++ [0]) with
    | none => none
    | some true => some true
    | some false => findNeedle len needle haystack

/-- What is found starts the haystack there. -/
theorem needleFrom_eq_true {len : ℕ} {haystack needle : Bytes}
    (h : needleFrom len haystack needle = some true) :
    len ≤ haystack.length ∧ len ≤ needle.length ∧ haystack.take len = needle.take len := by
  induction len generalizing haystack needle with
  | zero => exact ⟨Nat.zero_le _, Nat.zero_le _, rfl⟩
  | succ len ih =>
    cases haystack with
    | nil => cases h
    | cons c haystack =>
      cases needle with
      | nil => cases h
      | cons d needle =>
        rw [needleFrom] at h
        split_ifs at h with hsame
        · obtain ⟨hhaystack, hneedle, htake⟩ := ih h
          refine ⟨Nat.succ_le_succ hhaystack, Nat.succ_le_succ hneedle, ?_⟩
          rw [List.take_succ_cons, List.take_succ_cons, hsame, htake]
        · cases h

/-- A string does not differ from itself. -/
theorem needleFrom_self (len : ℕ) (str : Bytes) : needleFrom len str str ≠ some false := by
  induction len generalizing str with
  | zero => exact fun h => by cases h
  | succ len ih =>
    cases str with
    | nil => exact fun h => by cases h
    | cons c str =>
      rw [needleFrom, if_pos rfl]
      exact ih str

theorem findNeedle_self {len : ℕ} {str : Bytes} (hne : str ≠ []) :
    findNeedle len str str ≠ some false := by
  obtain ⟨c, rest, rfl⟩ := List.exists_cons_of_ne_nil hne
  have hself := needleFrom_self len (c :: rest ++ [0])
  unfold findNeedle
  cases hfrom : needleFrom len (c :: rest ++ [0]) (c :: rest ++ [0]) with
  | none => exact fun h => by cases h
  | some found =>
    cases found with
    | true => exact fun h => by cases h
    | false => exact absurd hfrom hself

/-- What is found with its terminator is not longer than the haystack, and as long as the count
says. -/
theorem findNeedle_eq_true {len : ℕ} {haystack needle : Bytes}
    (h : findNeedle (len + 1) needle haystack = some true) :
    len ≤ haystack.length ∧ len ≤ needle.length ∧ ∃ n, (haystack.drop n).take len =
      needle.take len := by
  induction haystack with
  | nil => cases h
  | cons c haystack ih =>
    unfold findNeedle at h
    cases hfrom : needleFrom (len + 1) (c :: haystack ++ [0]) (needle ++ [0]) with
    | none =>
      rw [hfrom] at h
      cases h
    | some found =>
      cases found with
      | true =>
        obtain ⟨hhaystack, hneedle, htake⟩ := needleFrom_eq_true hfrom
        rw [List.length_append, List.length_singleton] at hhaystack hneedle
        have hhaystack' : len ≤ (c :: haystack).length := Nat.le_of_succ_le_succ hhaystack
        have hneedle' : len ≤ needle.length := Nat.le_of_succ_le_succ hneedle
        refine ⟨hhaystack', hneedle', 0, ?_⟩
        have hfirst := congrArg (List.take len) htake
        rw [List.take_take, List.take_take, Nat.min_eq_left (Nat.le_succ len),
          List.take_append_of_le_length hhaystack',
            List.take_append_of_le_length hneedle'] at hfirst
        exact hfirst
      | false =>
        rw [hfrom] at h
        obtain ⟨hhaystack, hneedle, n, hn⟩ := ih h
        exact ⟨Nat.le_succ_of_le hhaystack, hneedle, n + 1, hn⟩

namespace Wallet

/-! ## The new file -/

variable (wp : WalletPlatform) {hash' : Uint160} {rs : List (Option FileRecord)}
  {wtx : Wtx} {tail : Bytes}
  {x : Option FileRecord} {s s' : Loaded} {utxos : Utxos}

/-- `dogecoin_p2pkh_address_to_wallet_pubkeyhash` : the wallet, the address it was called with, and
its result. -/
def p2pkhAddressToWalletPubkeyhash (w : Wallet) (addressIn : Bytes) (addr : WalletAddr) :
    Wallet × WalletAddr × Bool :=
  if w.masterkey = none then (w, addr, false)
  else
    let addrs := w.getAddresses wp
    -- the last match counts
    let addr := addrs.zipIdx.foldl (fun addr p =>
      if p.1.isPrefixOf addressIn then { addr with childindex := UInt32.ofNat p.2 } else addr) addr
    match addressToPubkeyHash wp addressIn with
    | none => (w, addr, false)
    | some hash =>
      let addr := { addr with pubkeyhash := hash }
      if addrs.any (·.isPrefixOf addressIn) then (w, addr, true)
      else
        let addr := { addr with childindex := w.nextChildindex }
        (w.addWaddr addr, addr, true)

/-- The new wallet, the table of unspent outputs, and whether the record of the address was
found. -/
structure Rebuild where
  wallet : Wallet
  utxos : Utxos
  found : Bool

/-- One turn of the loop over the records: nothing where the result is not defined, and no wallet
where the file is given up. A master key is copied once, and is zero where its string is no key:
`dogecoin_hdnode_deserialize` clears the node first. The search of the addresses of the old wallet
decides nothing about a transaction: whatever it finds, the transaction is copied. -/
def rebuildRecord (chain : WalletParams) (address : Bytes) (check : WalletAddr) (b : Rebuild) :
    Option FileRecord → Option (Option Rebuild)
  | none => some (some b)
  | some (.masterpubkey str) =>
    if b.wallet.masterkey = none then
      let masterkey := (hdnodeDeserialize wp str chain).getD HdNode.zero
      some (some { b with wallet := b.wallet.setMasterKeyCopy wp masterkey })
    else some (some b)
  | some (.addr waddr) =>
    let p2pkhCheck := wp.p2pkhAddrFromHash160 waddr.pubkeyhash chain.toKeyParams
    if walletAddrSerialize check = walletAddrSerialize waddr then
      some (some { b with found := true })
    else
      match findNeedle 35 p2pkhCheck address with
      | none => none
      | some true => some (some b)
      | some false =>
        match b.wallet.p2pkhAddressToWalletPubkeyhash wp p2pkhCheck waddr with
        | (_, _, false) => some none
        | (wallet, _, true) => some (some { b with wallet := wallet })
  | some (.tx wtx) =>
    (b.wallet.scrapeUtxos wp wtx b.utxos).map fun utxos =>
      some { b with wallet := b.wallet.addWtxMove wp utxos wtx, utxos := utxos }

/-- The loop. -/
def rebuildLoop (chain : WalletParams) (address : Bytes) (check : WalletAddr) :
    List (Option FileRecord) → Rebuild → Option (Option Rebuild)
  | [], b => some (some b)
  | r :: rs, b =>
    match rebuildRecord wp chain address check b r with
    | none => none
    | some none => some none
    | some (some b) => rebuildLoop chain address check rs b

/-- What becomes of the wallet file. -/
inductive Unregistered where
  | replaced (file : Bytes)
  | kept

/-- An address record of zeros. -/
def zeroAddr : WalletAddr where
  pubkeyhash := ⟨List.replicate 20 0, List.length_replicate⟩
  type := 0
  childindex := 0
  ignore := 0

/-- The addresses that are added to the wallet and to its file before the records are read, and the
record that is looked for. -/
def lookedFor (w : Wallet) (address : Bytes) : List WalletAddr × WalletAddr :=
  let w₁ := (w.p2pkhAddressToWallet wp address).1
  let (w₂, check, _) := w₁.p2pkhAddressToWalletPubkeyhash wp address zeroAddr
  (w₂.waddrVector.drop w.waddrVector.length, check)

/-- `dogecoin_unregister_watch_address_with_node` on the wallet file of the chain and one address.
The old wallet is read first, which registers the address if it is not there. No new file is left
over from another call. -/
def unregisterWatchAddressWithNode (chain : WalletParams) (utxos : Utxos) (file address : Bytes) :
    Option Unregistered :=
  match load wp file chain utxos with
  | some (.loaded ld) =>
    let (added, check) := ld.wallet.lookedFor wp address
    match scanFile (appended file (added.map FileRecord.addr)) with
    | none => some .kept
    | some w =>
      match rebuildLoop wp chain address check w.records ⟨create chain, ld.utxos, false⟩ with
      | none => none
      | some none => some .kept
      | some (some b) =>
        let wallet := if b.wallet.waddrVector = [] then (b.wallet.nextAddr wp).1 else b.wallet
        some (if b.found then .replaced wallet.dbfile else .kept)
  | _ => none

variable {wp} {chain : WalletParams} {b' : Rebuild}

/-! ## Addresses -/

variable {waddr : WalletAddr} {hash : Uint160} {w : Wallet} {r : Option FileRecord}
  {n : ℕ} {file : Bytes}
  {addrs : List WalletAddr} {old : Scan UInt8 (Option FileRecord)}

theorem walletAddrSerialize_inj {waddr' : WalletAddr} :
    walletAddrSerialize waddr = walletAddrSerialize waddr' ↔ waddr = waddr' := by
  constructor
  · intro h
    have hback := walletAddrDeserialize_serialize waddr
    rw [h, walletAddrDeserialize_serialize] at hback
    exact (Option.some.inj hback).symm
  · intro h
    rw [h]

/-- The string of an address. -/
def addressOf (wp : WalletPlatform) (chain : WalletParams) (hash : Uint160) : Bytes :=
  wp.p2pkhAddrFromHash160 hash chain.toKeyParams

/-- An address is read back as its hash. -/
theorem addressToPubkeyHash_addressOf (hbase58 : wp.Base58Laws chain) (hash : Uint160) :
    addressToPubkeyHash wp (addressOf wp chain hash) = some hash := by
  have hdecode := hbase58.decode_address (chain.b58prefixPubkeyAddress :: hash.1)
    (congrArg (· + 1) hash.2) (hbase58.length_address hash)
  have hdecode' : wp.base58DecodeCheck (addressOf wp chain hash) 35 =
      some (chain.b58prefixPubkeyAddress ::
        hash.1 ++ (wp.sha256d (chain.b58prefixPubkeyAddress :: hash.1)).1.take 4) :=
    hdecode
  unfold addressToPubkeyHash
  rw [hdecode', Option.map_some]
  congr 1
  apply Subtype.ext
  generalize hchk : (wp.sha256d (chain.b58prefixPubkeyAddress :: hash.1)).1.take 4 = chk
  have hlen : chk.length = 4 := by
    rw [← hchk, List.length_take, (wp.sha256d _).2]
    rfl
  show (((chain.b58prefixPubkeyAddress :: hash.1 ++ chk).take
    ((chain.b58prefixPubkeyAddress :: hash.1 ++ chk).length - 4)).drop 1 ++
      List.replicate 20 0).take 20 = hash.1
  rw [List.length_append, hlen, Nat.add_sub_cancel, List.take_left, List.drop_one, List.tail_cons]
  exact List.take_left' hash.2

theorem addressOf_injective (hbase58 : wp.Base58Laws chain)
    (h : addressOf wp chain hash = addressOf wp chain hash') : hash = hash' := by
  have hback := addressToPubkeyHash_addressOf hbase58 hash
  rw [h, addressToPubkeyHash_addressOf hbase58] at hback
  exact (Option.some.inj hback).symm

/-- Only the address itself is found in an address. -/
theorem findNeedle_addressOf (hbase58 : wp.Base58Laws chain)
    (h : findNeedle 35 (addressOf wp chain hash') (addressOf wp chain hash) = some true) :
    hash' = hash := by
  obtain ⟨-, hneedle, n, hn⟩ := findNeedle_eq_true h
  have hlen : (addressOf wp chain hash).length ≤ 34 := hbase58.length_address hash
  have hlen' : (addressOf wp chain hash').length ≤ 34 := hbase58.length_address hash'
  have hdrop : ((addressOf wp chain hash).drop n).length ≤ 34 := by
    rw [List.length_drop]
    omega
  rw [List.take_of_length_le hlen', List.take_of_length_le hdrop] at hn
  apply addressOf_injective hbase58
  -- nothing was dropped, since nothing is missing
  have hcount := congrArg List.length hn
  rw [List.length_drop] at hcount
  have hzero : n = 0 := by omega
  rw [hzero] at hn
  exact hn.symm

/-- How the addresses are numbered in the new wallet. An address that is not ignored covers the ones
that start with it. -/
def addressRules (wp : WalletPlatform) (chain : WalletParams) : Renumber.Rules WalletAddr where
  number n waddr := { waddr with childindex := UInt32.ofNat n }
  live waddr := waddr.ignore = 0
  covers e waddr := e.ignore = 0 &&
    (addressOf wp chain e.pubkeyhash).isPrefixOf (addressOf wp chain waddr.pubkeyhash)
  live_number _ _ := rfl
  covers_number _ _ _ := rfl
  live_of_covers h := (Bool.and_eq_true _ _ ▸ h).1

/-- The loop over the addresses of a wallet numbers the record that it is called with. -/
theorem foldl_childindex (addressIn : Bytes) (addrs : List (Bytes × ℕ)) (addr : WalletAddr) :
    ∃ n, addrs.foldl (fun addr p =>
      if p.1.isPrefixOf addressIn then { addr with childindex := UInt32.ofNat p.2 }
      else addr) addr =
        { addr with childindex := n } := by
  induction addrs generalizing addr with
  | nil => exact ⟨addr.childindex, rfl⟩
  | cons p addrs ih =>
    rw [List.foldl_cons]
    split_ifs
    · obtain ⟨n, hn⟩ := ih { addr with childindex := UInt32.ofNat p.2 }
      exact ⟨n, hn⟩
    · exact ih addr

/-- **An address is entered** into a wallet with a master key, unless it is covered. -/
theorem p2pkhAddressToWalletPubkeyhash_addressOf (hbase58 : wp.Base58Laws chain)
    (hchain : w.chain = chain) (hkey : w.masterkey ≠ none) (waddr : WalletAddr) :
    ∃ addr, w.p2pkhAddressToWalletPubkeyhash wp (addressOf wp chain waddr.pubkeyhash) waddr =
      (if w.waddrVector.any fun e => (addressRules wp chain).covers e waddr then w
        else w.addWaddr { waddr with childindex := w.nextChildindex }, addr, true) := by
  have hany : ((w.getAddresses wp).any (·.isPrefixOf (addressOf wp chain waddr.pubkeyhash))) =
      w.waddrVector.any fun e => (addressRules wp chain).covers e waddr := by
    rw [getAddresses, hchain, List.any_map, List.any_filter]
    rfl
  unfold p2pkhAddressToWalletPubkeyhash
  rw [if_neg hkey]
  dsimp only
  rw [addressToPubkeyHash_addressOf hbase58, hany]
  obtain ⟨n, hn⟩ := foldl_childindex (addressOf wp chain waddr.pubkeyhash)
    (w.getAddresses wp).zipIdx waddr
  dsimp only
  rw [hn]
  split_ifs
  · exact ⟨_, rfl⟩
  · exact ⟨_, rfl⟩

/-- The record of the address that is looked for. -/
theorem pubkeyhash_p2pkhAddressToWalletPubkeyhash {address : Bytes}
    (hhash : addressToPubkeyHash wp address = some hash) (hkey : w.masterkey ≠ none)
    (hlisted : (w.getAddresses wp).any (·.isPrefixOf address) = true) (addr : WalletAddr) :
    ∃ check, w.p2pkhAddressToWalletPubkeyhash wp address addr = (w, check, true) ∧
    check.pubkeyhash = hash := by
  unfold p2pkhAddressToWalletPubkeyhash
  rw [if_neg hkey]
  dsimp only
  rw [hhash]
  dsimp only
  rw [if_pos hlisted]
  exact ⟨_, rfl, rfl⟩

/-- What is looked for in one with a master key: the address, under some number. What is added on
the way is the address. -/
theorem lookedFor_of_masterkey (hbase58 : wp.Base58Laws chain) (hchain : w.chain = chain)
    (hkey : w.masterkey ≠ none) (hash : Uint160) :
    (w.lookedFor wp (addressOf wp chain hash)).2.pubkeyhash = hash ∧
      ∀ waddr ∈ (w.lookedFor wp (addressOf wp chain hash)).1, waddr.pubkeyhash = hash := by
  have hhash := addressToPubkeyHash_addressOf hbase58 hash
  unfold lookedFor p2pkhAddressToWallet
  rw [if_neg hkey, hhash]
  split_ifs with hlisted
  · obtain ⟨check, hcheck, hsame⟩ :=
      pubkeyhash_p2pkhAddressToWalletPubkeyhash hhash hkey hlisted zeroAddr
    dsimp only
    rw [hcheck]
    refine ⟨hsame, ?_⟩
    dsimp only
    rw [List.drop_length]
    exact fun waddr h => absurd h List.not_mem_nil
  · have hlisted' : ((w.addWaddr (w.nextWaddr hash)).getAddresses wp).any
      (·.isPrefixOf (addressOf wp chain hash)) = true := by
      rw [List.any_eq_true]
      refine ⟨addressOf wp chain hash, ?_, ?_⟩
      · refine List.mem_map.mpr ⟨w.nextWaddr hash, List.mem_filter.mpr ⟨?_, rfl⟩, ?_⟩
        · exact List.mem_append_right _ (List.mem_singleton_self _)
        · show wp.p2pkhAddrFromHash160 hash w.chain.toKeyParams = _
          rw [hchain]
          rfl
      · rw [List.isPrefixOf_iff_prefix]
    have hkey' : (w.addWaddr (w.nextWaddr hash)).masterkey ≠ none := hkey
    obtain ⟨check, hcheck, hsame⟩ :=
      pubkeyhash_p2pkhAddressToWalletPubkeyhash hhash hkey' hlisted' zeroAddr
    dsimp only
    rw [hcheck]
    refine ⟨hsame, ?_⟩
    show ∀ waddr ∈ (w.waddrVector ++ [w.nextWaddr hash]).drop w.waddrVector.length,
      waddr.pubkeyhash = hash
    rw [List.drop_left]
    intro waddr h
    obtain rfl := List.mem_singleton.mp h
    rfl

/-! ## What the loop writes -/

namespace FileRecord

/-- The address of a record. -/
def addr? : FileRecord → Option WalletAddr
  | addr waddr => some waddr
  | _ => none

/-- Its transaction. -/
def tx? : FileRecord → Option Wtx
  | tx wtx => some wtx
  | _ => none

end FileRecord

/-- The addresses in a file. -/
def addrsOf (rs : List (Option FileRecord)) :
    List WalletAddr := rs.filterMap fun r => r.bind FileRecord.addr?

/-- The transactions. -/
def txsOf (rs : List (Option FileRecord)) : List Wtx := rs.filterMap fun r => r.bind FileRecord.tx?

/-- The addresses that the loop enters, or tries to. -/
def passed (wp : WalletPlatform) (chain : WalletParams) (address : Bytes) (check : WalletAddr)
    (addrs : List WalletAddr) : List WalletAddr :=
  addrs.filter fun waddr => check ≠
    waddr && findNeedle 35 (addressOf wp chain waddr.pubkeyhash) address ≠ some true

/-- What the new wallet and its file hold when some records were gone through. -/
structure Built (wp : WalletPlatform) (chain : WalletParams) (address : Bytes) (check : WalletAddr)
    (gone : List (Option FileRecord)) (out : List FileRecord) (b : Rebuild) : Prop where
  dbfile : b.wallet.dbfile = (create chain).dbfile ++ out.flatMap FileRecord.encode
  sameChain : b.wallet.chain = chain
  vector : b.wallet.waddrVector = out.filterMap FileRecord.addr?
  next : b.wallet.nextChildindex = UInt32.ofNat b.wallet.waddrVector.length
  entered : b.wallet.waddrVector =
    (addressRules wp chain).enterAll (passed wp chain address check (addrsOf gone))
  txs : out.filterMap FileRecord.tx? = (txsOf gone).map (wtxCachehash wp)
  keys : ∀ str, FileRecord.masterpubkey str ∈ out → (FileRecord.masterpubkey str).Keeps
  masterkey : b.wallet.masterkey = none ↔ ∀ str, some (FileRecord.masterpubkey str) ∉ gone
  /-- Without a master key nothing was entered. -/
  passing : b.wallet.masterkey = none → passed wp chain address check (addrsOf gone) = []
  /-- The search was defined wherever it was made. -/
  defined : ∀ waddr ∈ addrsOf gone, check ≠ waddr →
    findNeedle 35 (addressOf wp chain waddr.pubkeyhash) address ≠ none

variable {address : Bytes} {check : WalletAddr} {gone : List (Option FileRecord)}
  {out : List FileRecord} {b : Rebuild}

theorem built_create (utxos : Utxos) :
    Built wp chain address check [] [] ⟨create chain, utxos, false⟩ where
  dbfile := (List.append_nil _).symm
  sameChain := rfl
  vector := rfl
  next := rfl
  entered := rfl
  txs := rfl
  keys _ h := absurd h List.not_mem_nil
  masterkey := iff_of_true rfl fun _ => List.not_mem_nil
  passing _ := rfl
  defined _ h := absurd h List.not_mem_nil

theorem addrsOf_concat (rs : List (Option FileRecord)) (r : Option FileRecord) :
    addrsOf (rs ++ [r]) = addrsOf rs ++ (r.bind FileRecord.addr?).toList := by
  rw [addrsOf, List.filterMap_append]
  rfl

theorem txsOf_concat (rs : List (Option FileRecord)) (r : Option FileRecord) :
    txsOf (rs ++ [r]) = txsOf rs ++ (r.bind FileRecord.tx?).toList := by
  rw [txsOf, List.filterMap_append]
  rfl

theorem addrsOf_skip (h : r.bind FileRecord.addr? = none) :
    addrsOf (gone ++ [r]) = addrsOf gone := by
  rw [addrsOf_concat, h]
  exact List.append_nil _

theorem txsOf_skip (h : r.bind FileRecord.tx? = none) : txsOf (gone ++ [r]) = txsOf gone := by
  rw [txsOf_concat, h]
  exact List.append_nil _

/-- Another record behind is no master key. -/
theorem masterpubkey_notMem_concat (rs : List (Option FileRecord))
    (hr : ∀ str, r ≠ some (FileRecord.masterpubkey str)) :
    (∀ str, some (FileRecord.masterpubkey str) ∉ rs ++ [r]) ↔ ∀ str,
      some (FileRecord.masterpubkey str) ∉ rs := by
  apply forall_congr'
  intro str
  rw [List.mem_append, List.mem_singleton, not_or]
  exact and_iff_left (hr str).symm

/-- A record that changes nothing. -/
theorem Built.skip (h : Built wp chain address check gone out b)
    (haddr : r.bind FileRecord.addr? = none) (htx : r.bind FileRecord.tx? = none)
    (hkey : b.wallet.masterkey = none → ∀ str, r ≠ some (FileRecord.masterpubkey str)) :
    Built wp chain address check (gone ++ [r]) out b := by
  refine ⟨h.dbfile, h.sameChain, h.vector, h.next, ?_, ?_, h.keys, ?_, ?_, ?_⟩
  · rw [addrsOf_skip haddr]
    exact h.entered
  · rw [txsOf_skip htx]
    exact h.txs
  · rw [h.masterkey]
    constructor
    · intro hnone str hmem
      rcases List.mem_append.mp hmem with hold | hnew
      · exact hnone str hold
      · exact hkey (h.masterkey.mpr hnone) str (List.mem_singleton.mp hnew).symm
    · exact fun hnone str hmem => hnone str (List.mem_append_left _ hmem)
  · rw [addrsOf_skip haddr]
    exact h.passing
  · rw [addrsOf_skip haddr]
    exact h.defined

/-- The first master key. -/
theorem Built.masterpubkey (hbase58 : wp.Base58Laws chain)
    (h : Built wp chain address check gone out b) (str : Bytes) (node : HdNode) :
    ∃ out', Built wp chain address check (gone ++ [some (.masterpubkey str)]) out'
      { b with wallet := b.wallet.setMasterKeyCopy wp node } := by
  have haddrs := @addrsOf_skip (some (.masterpubkey str)) gone rfl
  have htxs := @txsOf_skip (some (.masterpubkey str)) gone rfl
  have hkeeps : (FileRecord.masterpubkey
    ((hdnodeSerializePublic wp node chain).take 112)).Keeps := by
    refine ⟨?_, ?_, ?_⟩
    · intro hnil
      rcases List.take_eq_nil_iff.mp hnil with hzero | hempty
      · cases hzero
      · exact hbase58.encode_ne_nil _ hempty
    · exact (List.length_take_le _ _).trans (by decide)
    · exact fun hmem => hbase58.zero_notMem _ (List.mem_of_mem_take hmem)
  -- the string that is written is not the one that was read
  refine ⟨out ++ [.masterpubkey ((hdnodeSerializePublic wp node chain).take 112)], ?_⟩
  refine ⟨?_, h.sameChain, ?_, h.next, ?_, ?_, ?_, ?_, ?_, ?_⟩
  · show b.wallet.dbfile ++ _ = _
    rw [h.dbfile, List.flatMap_append, h.sameChain, List.append_assoc]
    congr 2
    exact (List.append_nil _).symm
  · rw [List.filterMap_append]
    exact h.vector.trans (List.append_nil _).symm
  · rw [haddrs]
    exact h.entered
  · rw [htxs, List.filterMap_append]
    exact (List.append_nil _).trans h.txs
  · intro str' hmem
    rcases List.mem_append.mp hmem with hold | hnew
    · exact h.keys str' hold
    · rw [List.mem_singleton.mp hnew]
      exact hkeeps
  · refine iff_of_false (fun hnone => by cases hnone) ?_
    exact fun hnone => hnone str (List.mem_append_right _ (List.mem_singleton_self _))
  · exact fun hnone => by cases hnone
  · rw [haddrs]
    exact h.defined

/-- The addresses that were passed, with one more. -/
theorem passed_concat (addrs : List WalletAddr) (waddr : WalletAddr) :
    passed wp chain address check (addrs ++ [waddr]) =
      passed wp chain address check addrs ++
        if check ≠ waddr ∧ findNeedle 35 (addressOf wp chain waddr.pubkeyhash) address ≠
          some true then [waddr]
        else [] := by
  rw [passed, List.filter_append]
  congr 1
  by_cases hpass : check ≠ waddr ∧ findNeedle 35 (addressOf wp chain waddr.pubkeyhash) address ≠
    some true
  · rw [if_pos hpass, List.filter_eq_self.mpr]
    intro other hother
    rw [List.mem_singleton.mp hother]
    simpa using hpass
  · rw [if_neg hpass, List.filter_eq_nil_iff]
    intro other hother
    rw [List.mem_singleton.mp hother]
    simpa using hpass

/-- The search was defined, and is for one more address. -/
theorem Built.defined_concat (h : Built wp chain address check gone out b)
    (hfound : check ≠ waddr → findNeedle 35 (addressOf wp chain waddr.pubkeyhash) address ≠ none) :
    ∀ other ∈ addrsOf gone ++ [waddr], check ≠ other →
      findNeedle 35 (addressOf wp chain other.pubkeyhash) address ≠ none := by
  intro other hmem hne
  rcases List.mem_append.mp hmem with hold | hnew
  · exact h.defined other hold hne
  · obtain rfl := List.mem_singleton.mp hnew
    exact hfound hne

/-- An address that is not entered, since it is looked for or found in the string. -/
theorem Built.leave (h : Built wp chain address check gone out b) (found : Bool)
    (hleft : check = waddr ∨ findNeedle 35 (addressOf wp chain waddr.pubkeyhash) address =
      some true) :
    Built wp chain address check (gone ++ [some (.addr waddr)]) out { b with found := found } := by
  have haddrs : addrsOf (gone ++ [some (.addr waddr)]) = addrsOf gone ++ [waddr] :=
    addrsOf_concat _ _
  have htxs := @txsOf_skip (some (.addr waddr)) gone rfl
  have hpassed : passed wp chain address check (addrsOf gone ++ [waddr]) =
      passed wp chain address check (addrsOf gone) := by
    rw [passed_concat, if_neg, List.append_nil]
    rintro ⟨hne, hnot⟩
    exact hleft.elim hne hnot
  refine ⟨h.dbfile, h.sameChain, h.vector, h.next, ?_, ?_, h.keys, ?_, ?_, ?_⟩
  · rw [haddrs, hpassed]
    exact h.entered
  · rw [htxs]
    exact h.txs
  · rw [masterpubkey_notMem_concat _ fun str heq => by cases heq]
    exact h.masterkey
  · rw [haddrs, hpassed]
    exact h.passing
  · rw [haddrs]
    refine h.defined_concat fun hne => ?_
    rw [hleft.resolve_left hne]
    exact fun hnone => by cases hnone

/-- An address that is entered, or covered by one that was entered before. -/
theorem Built.addr (h : Built wp chain address check gone out b) (hkey : b.wallet.masterkey ≠ none)
    (hne : check ≠ waddr) (hfound : findNeedle 35 (addressOf wp chain waddr.pubkeyhash) address =
      some false) :
    ∃ out', Built wp chain address check (gone ++ [some (.addr waddr)]) out'
      { b with wallet :=
          if b.wallet.waddrVector.any fun e => (addressRules wp chain).covers e waddr then b.wallet
          else b.wallet.addWaddr { waddr with childindex := b.wallet.nextChildindex } } := by
  have haddrs : addrsOf (gone ++ [some (.addr waddr)]) = addrsOf gone ++ [waddr] :=
    addrsOf_concat _ _
  have htxs := @txsOf_skip (some (.addr waddr)) gone rfl
  have hpassed : passed wp chain address check (addrsOf gone ++ [waddr]) =
      passed wp chain address check (addrsOf gone) ++ [waddr] := by
    rw [passed_concat, if_pos]
    exact ⟨hne, fun htrue => by rw [hfound] at htrue; cases htrue⟩
  have hmasterkey : ∀ w : Wallet, w.masterkey = b.wallet.masterkey →
      (w.masterkey = none ↔ ∀ str, some (FileRecord.masterpubkey str) ∉
        gone ++ [some (.addr waddr)]) := by
    intro w hw
    rw [hw, masterpubkey_notMem_concat _ fun str heq => by cases heq]
    exact h.masterkey
  have hdefined := h.defined_concat fun _ => by
    rw [hfound]
    exact fun hnone => by cases hnone
  rw [← haddrs] at hdefined
  have hentered : (addressRules wp chain).enter b.wallet.waddrVector waddr =
      (addressRules wp chain).enterAll
        (passed wp chain address check (addrsOf (gone ++ [some (.addr waddr)]))) := by
    rw [haddrs, hpassed, Renumber.Rules.enterAll_concat, ← h.entered]
  unfold Renumber.Rules.enter at hentered
  split_ifs at hentered ⊢ with hcovered
  · -- nothing is written for it
    refine ⟨out, h.dbfile, h.sameChain, h.vector, h.next, hentered, ?_, h.keys,
      hmasterkey _ rfl, ?_, hdefined⟩
    · rw [htxs]
      exact h.txs
    · exact fun hnone => absurd hnone hkey
  · refine ⟨out ++ [.addr { waddr with childindex := b.wallet.nextChildindex }], ?_, h.sameChain,
      ?_, ?_, ?_, ?_, ?_, hmasterkey _ rfl, ?_, hdefined⟩
    · show b.wallet.dbfile ++ _ = _
      rw [h.dbfile, List.flatMap_append, List.append_assoc]
      congr 2
      exact (List.append_nil _).symm
    · rw [List.filterMap_append, ← h.vector]
      rfl
    · show b.wallet.nextChildindex + 1 = UInt32.ofNat (b.wallet.waddrVector ++ [_]).length
      rw [h.next, List.length_append, List.length_singleton, UInt32.ofNat_add]
      rfl
    · rw [← hentered]
      show b.wallet.waddrVector ++ [_] = b.wallet.waddrVector ++ [_]
      rw [h.next]
      rfl
    · rw [htxs, List.filterMap_append]
      exact (List.append_nil _).trans h.txs
    · intro str hmem
      rcases List.mem_append.mp hmem with hold | hnew
      · exact h.keys str hold
      · cases List.mem_singleton.mp hnew
    · exact fun hnone => absurd hnone hkey

/-- A transaction is copied, with its hash computed again. -/
theorem Built.tx (h : Built wp chain address check gone out b) (wtx : Wtx) (utxos : Utxos) :
    Built wp chain address check (gone ++ [some (.tx wtx)]) (out ++ [.tx (wtxCachehash wp wtx)])
      { b with wallet := b.wallet.addWtxMove wp utxos wtx, utxos := utxos } := by
  have haddrs := @addrsOf_skip (some (.tx wtx)) gone rfl
  have htxs : txsOf (gone ++ [some (.tx wtx)]) = txsOf gone ++ [wtx] := txsOf_concat _ _
  have hvector : (b.wallet.addWtxMove wp utxos wtx).waddrVector = b.wallet.waddrVector :=
    addWtxMove_frame Wallet.waddrVector (fun _ _ => rfl) (fun _ _ _ => rfl) (fun _ _ => rfl) _ _ _
  have hnext : (b.wallet.addWtxMove wp utxos wtx).nextChildindex = b.wallet.nextChildindex :=
    addWtxMove_frame Wallet.nextChildindex (fun _ _ => rfl) (fun _ _ _ =>
      rfl) (fun _ _ => rfl) _ _ _
  have hchain : (b.wallet.addWtxMove wp utxos wtx).chain = b.wallet.chain :=
    addWtxMove_frame Wallet.chain (fun _ _ => rfl) (fun _ _ _ => rfl) (fun _ _ => rfl) _ _ _
  have hkey : (b.wallet.addWtxMove wp utxos wtx).masterkey = b.wallet.masterkey :=
    addWtxMove_frame Wallet.masterkey (fun _ _ => rfl) (fun _ _ _ => rfl) (fun _ _ => rfl) _ _ _
  have hfile : (b.wallet.addWtxMove wp utxos wtx).dbfile =
      (b.wallet.writeRecord (walletWtxSerialize (wtxCachehash wp wtx)) recTypeTx).dbfile :=
    addWtxInternMove_leaves Wallet.dbfile (fun _ _ => rfl) (fun _ _ _ => rfl) _ _ _
  refine ⟨?_, ?_, ?_, ?_, ?_, ?_, ?_, ?_, ?_, ?_⟩
  · refine hfile.trans ?_
    show b.wallet.dbfile ++ _ = _
    rw [h.dbfile, List.flatMap_append, List.append_assoc]
    congr 2
    exact (List.append_nil _).symm
  · exact hchain.trans h.sameChain
  · refine hvector.trans ?_
    rw [List.filterMap_append]
    exact h.vector.trans (List.append_nil _).symm
  · dsimp only
    rw [hnext, hvector]
    exact h.next
  · dsimp only
    rw [hvector, haddrs]
    exact h.entered
  · rw [htxs, List.filterMap_append, List.map_append, h.txs]
    rfl
  · intro str hmem
    rcases List.mem_append.mp hmem with hold | hnew
    · exact h.keys str hold
    · cases List.mem_singleton.mp hnew
  · dsimp only
    rw [hkey]
    rw [masterpubkey_notMem_concat _ fun str heq => by cases heq]
    exact h.masterkey
  · dsimp only
    rw [hkey, haddrs]
    exact h.passing
  · rw [haddrs]
    exact h.defined

/-- **One turn** of the loop. -/
theorem built_rebuildRecord (hbase58 : wp.Base58Laws chain)
    (h : Built wp chain address check gone out b)
    (hstep : rebuildRecord wp chain address check b r = some (some b')) :
    ∃ out', Built wp chain address check (gone ++ [r]) out' b' := by
  match r with
  | none =>
    obtain rfl := Option.some.inj (Option.some.inj hstep)
    exact ⟨out, h.skip rfl rfl fun _ str heq => by cases heq⟩
  | some (.masterpubkey str) =>
    unfold rebuildRecord at hstep
    split_ifs at hstep with hkey
    · obtain rfl := Option.some.inj (Option.some.inj hstep)
      exact h.masterpubkey hbase58 str _
    · obtain rfl := Option.some.inj (Option.some.inj hstep)
      exact ⟨out, h.skip rfl rfl fun hnone => absurd hnone hkey⟩
  | some (.addr waddr) =>
    unfold rebuildRecord at hstep
    dsimp only at hstep
    split_ifs at hstep with hsame
    · obtain rfl := Option.some.inj (Option.some.inj hstep)
      exact ⟨out, h.leave true (Or.inl (walletAddrSerialize_inj.mp hsame))⟩
    · have hne : check ≠ waddr := fun heq => hsame (walletAddrSerialize_inj.mpr heq)
      change (match findNeedle 35 (addressOf wp chain waddr.pubkeyhash) address with
        | none => none
        | some true => some (some b)
        | some false =>
          match b.wallet.p2pkhAddressToWalletPubkeyhash wp
            (addressOf wp chain waddr.pubkeyhash) waddr with
          | (_, _, false) => some none
          | (wallet, _, true) => some (some { b with wallet := wallet })) = _ at hstep
      cases hfound : findNeedle 35 (addressOf wp chain waddr.pubkeyhash) address with
      | none =>
        rw [hfound] at hstep
        cases hstep
      | some found =>
        rw [hfound] at hstep
        cases found with
        | true =>
          obtain rfl := Option.some.inj (Option.some.inj hstep)
          exact ⟨out, h.leave b.found (Or.inr hfound)⟩
        | false =>
          dsimp only at hstep
          -- without a master key the file is given up
          by_cases hkey : b.wallet.masterkey = none
          · unfold p2pkhAddressToWalletPubkeyhash at hstep
            rw [if_pos hkey] at hstep
            cases hstep
          · obtain ⟨addr, haddr⟩ := p2pkhAddressToWalletPubkeyhash_addressOf hbase58
              h.sameChain hkey waddr
            rw [haddr] at hstep
            obtain rfl := Option.some.inj (Option.some.inj hstep)
            exact h.addr hkey hne hfound
  | some (.tx wtx) =>
    unfold rebuildRecord at hstep
    obtain ⟨utxos, -, hsome⟩ := Option.map_eq_some_iff.mp hstep
    obtain rfl := Option.some.inj hsome
    exact ⟨_, h.tx wtx utxos⟩

/-- **The loop.** -/
theorem built_rebuildLoop (hbase58 : wp.Base58Laws chain)
    (h : Built wp chain address check gone out b)
    (hloop : rebuildLoop wp chain address check rs b = some (some b')) :
    ∃ out', Built wp chain address check (gone ++ rs) out' b' := by
  induction rs generalizing gone out b with
  | nil =>
    obtain rfl := Option.some.inj (Option.some.inj hloop)
    rw [List.append_nil]
    exact ⟨out, h⟩
  | cons r rs ih =>
    unfold rebuildLoop at hloop
    split at hloop
    · cases hloop
    · cases hloop
    next b₁ hstep =>
      obtain ⟨out₁, h₁⟩ := built_rebuildRecord hbase58 h hstep
      obtain ⟨out', h'⟩ := ih h₁ hloop
      rw [List.append_assoc] at h'
      exact ⟨out', h'⟩

/-! ## Reading the new file -/

/-- A transaction that is read from what was written has the hash that was written. -/
theorem readRecord_tx (hlen : (walletWtxSerialize wtx).length < 2 ^ 32)
    (h : readRecord ((FileRecord.tx wtx).encode ++ tail) = some (x, n)) :
    ∃ read, x = some (.tx read) ∧ read.txHashCache = wtx.txHashCache := by
  rw [FileRecord.encode, readRecord_encodeRecord _ (Or.inr (Or.inr rfl))] at h
  obtain ⟨⟨r, rest⟩, hbody, heq⟩ := Option.map_eq_some_iff.mp h
  rw [readBody, if_neg (by decide), if_neg (by decide), readTransaction,
    UInt32.toNat_ofNat_of_lt' hlen, deserBytes_append] at hbody
  split_ifs at hbody
  rw [Option.bind_some] at hbody
  dsimp only at hbody
  cases hread : walletWtxDeserialize (walletWtxSerialize wtx) with
  | none =>
    rw [hread] at hbody
    cases hbody
  | some read =>
    rw [hread] at hbody
    obtain ⟨rfl, -⟩ := Prod.mk.inj (Option.some.inj hbody)
    refine ⟨read, (Prod.mk.inj heq).1.symm, ?_⟩
    rw [walletWtxDeserialize_eq] at hread
    obtain ⟨p, -, rfl⟩ := Option.map_eq_some_iff.mp hread
    rfl

theorem walletFormat_read : walletFormat.read = readRecord := rfl

/-- So it can only be read as it was if this is its hash. -/
theorem keeps_of_readRecord (hblock : replayed wtx = wtx)
    (hlen : (walletWtxSerialize (wtxCachehash wp wtx)).length < 2 ^ 32)
    (h : readRecord ((FileRecord.tx (wtxCachehash wp wtx)).encode ++ tail) =
      some (some (.tx wtx), n)) :
    wtxCachehash wp wtx = wtx ∧ (FileRecord.tx wtx).Keeps := by
  obtain ⟨read, hread, hhash⟩ := readRecord_tx hlen h
  obtain rfl := FileRecord.tx.inj (Option.some.inj hread)
  have hcanonical : wtxCachehash wp wtx = wtx := by
    unfold wtxCachehash
    have hsame : wtx.txHashCache = txHash wp.toPlatform wtx.tx := hhash
    rw [← hsame]
  rw [hcanonical] at h
  have hback : walletFormat.read ((FileRecord.tx wtx).encode ++ tail) =
    some (some (FileRecord.tx wtx).stored, n) := by
    rw [walletFormat_read, h, FileRecord.stored, hblock]
  exact ⟨hcanonical, written_encode.back hback⟩

/-- A transaction in a file has no block, and is not much longer than a message. -/
theorem tx_of_readRecord {buf : Bytes} (h : readRecord buf = some (x, n)) :
    ∀ wtx, x = some (.tx wtx) → replayed wtx = wtx ∧ (txSerialize wtx.tx).length ≤ 4000096 := by
  rintro wtx rfl
  obtain ⟨⟨⟨reclen, rectype⟩, rest⟩, -, hbody⟩ := Option.bind_eq_some_iff.mp h
  dsimp only at hbody
  split_ifs at hbody
  · obtain ⟨⟨r, rest'⟩, hread, heq⟩ := Option.map_eq_some_iff.mp hbody
    obtain rfl : r = .tx wtx := Option.some.inj (Prod.mk.inj heq).1
    unfold readBody at hread
    split_ifs at hread
    · obtain ⟨str, hstr⟩ := readMasterpubkey_eq_some hread
      cases hstr
    · obtain ⟨waddr, hwaddr⟩ := readAddress_eq_some hread
      cases hwaddr
    · unfold readTransaction at hread
      split_ifs at hread with hbounds
      rw [not_or, gt_iff_lt, UInt32.not_lt, UInt32.le_iff_toNat_le] at hbounds
      have hmax : reclen.toNat ≤ 4000000 := hbounds.2
      obtain ⟨⟨record, left⟩, hrecord, hnext⟩ := Option.bind_eq_some_iff.mp hread
      have hcount := (deserBytes_eq_some hrecord).1
      dsimp only at hnext
      cases hwtx : walletWtxDeserialize record with
      | none =>
        rw [hwtx] at hnext
        cases hnext
      | some wtx' =>
        rw [hwtx] at hnext
        obtain rfl := FileRecord.tx.inj (Prod.mk.inj (Option.some.inj hnext)).1
        obtain ⟨txBuf, txRest, hle, htx⟩ := txDeserialize_of_walletWtxDeserialize hwtx
        have hlen := length_txSerialize_le htx
        exact ⟨blockhash_walletWtxDeserialize hwtx, by omega⟩
  · cases (Prod.mk.inj (Option.some.inj hbody)).1

/-- The transactions in a file. -/
theorem tx_of_scanFile {w : Scan UInt8 (Option FileRecord)} (h : scanFile file = some w) :
    ∀ wtx ∈ txsOf w.records, replayed wtx = wtx ∧
    (walletWtxSerialize (wtxCachehash wp wtx)).length < 2 ^ 32 := by
  intro wtx hmem
  obtain ⟨x, hx, hbind⟩ := List.mem_filterMap.mp hmem
  have hx' : x = some (.tx wtx) := by
    match x with
    | none => cases hbind
    | some (.masterpubkey str) => cases hbind
    | some (.addr waddr) => cases hbind
    | some (.tx wtx') =>
      obtain rfl := Option.some.inj hbind
      rfl
  obtain ⟨hblock, hlen⟩ := Format.forall_of_scanAll (F := walletFormat)
    tx_of_readRecord h x hx wtx hx'
  refine ⟨hblock, ?_⟩
  rw [length_walletWtxSerialize]
  show 36 + (txSerialize wtx.tx).length < 2 ^ 32
  omega

/-- **What is read from the new file** are the addresses that were entered and the transactions that
were copied, exactly if the hashes of the transactions are computed again as they were, and all of
them can be read back. -/
theorem scanAll_out_iff {out : List FileRecord} {txs : List Wtx}
    (hkeys : ∀ str, FileRecord.masterpubkey str ∈ out → (FileRecord.masterpubkey str).Keeps)
    (hout : out.filterMap FileRecord.tx? = txs.map (wtxCachehash wp))
    (htxs : ∀ wtx ∈ txs, replayed wtx = wtx ∧ (walletWtxSerialize (wtxCachehash wp wtx)).length <
      2 ^ 32) :
    (∃ w, walletFormat.scanAll (out.flatMap FileRecord.encode) = some w ∧
      addrsOf w.records = addrs ∧
        txsOf w.records = txs) ↔
      out.filterMap FileRecord.addr? = addrs ∧
        ∀ wtx ∈ txs, wtxCachehash wp wtx = wtx ∧ (FileRecord.tx wtx).Keeps := by
  induction out generalizing addrs txs with
  | nil =>
    have hnil : txs = [] := List.map_eq_nil_iff.mp hout.symm
    rw [hnil]
    constructor
    · rintro ⟨w, hw, haddrs, -⟩
      obtain rfl := Option.some.inj (Format.scanAll_nil.symm.trans hw)
      exact ⟨haddrs, fun wtx h => absurd h List.not_mem_nil⟩
    · rintro ⟨haddrs, -⟩
      exact ⟨_, Format.scanAll_nil, haddrs, rfl⟩
  | cons r out ih =>
    have hkeys' : ∀ str, FileRecord.masterpubkey str ∈ out → (FileRecord.masterpubkey str).Keeps :=
      fun str h => hkeys str (List.mem_cons_of_mem _ h)
    rw [List.flatMap_cons]
    match r with
    | .masterpubkey str =>
      -- passed over in both
      have hcons := written_encode.scanAll_cons (hkeys str List.mem_cons_self)
        (out.flatMap FileRecord.encode)
      rw [hcons]
      constructor
      · rintro ⟨w, hw, haddrs, hread⟩
        obtain ⟨w', hw', rfl⟩ := Option.map_eq_some_iff.mp hw
        exact (ih hkeys' hout htxs).mp ⟨w', hw', haddrs, hread⟩
      · intro h
        obtain ⟨w', hw', haddrs, hread⟩ := (ih hkeys' hout htxs).mpr h
        rw [hw', Option.map_some]
        exact ⟨_, rfl, haddrs, hread⟩
    | .addr waddr =>
      have hcons := @Written.scanAll_cons _ _ _ _ _ _ _ written_encode (.addr waddr) trivial
        (out.flatMap FileRecord.encode)
      rw [hcons]
      constructor
      · rintro ⟨w, hw, haddrs, hread⟩
        obtain ⟨w', hw', rfl⟩ := Option.map_eq_some_iff.mp hw
        obtain ⟨hsame, hall⟩ := (ih hkeys' hout htxs).mp ⟨w', hw', rfl, hread⟩
        refine ⟨?_, hall⟩
        rw [← haddrs]
        exact congrArg (waddr :: ·) hsame
      · rintro ⟨hsame, hall⟩
        obtain ⟨w', hw', haddrs, hread⟩ := (ih hkeys' hout htxs).mpr ⟨rfl, hall⟩
        rw [hw', Option.map_some]
        refine ⟨_, rfl, ?_, hread⟩
        rw [← hsame]
        exact congrArg (waddr :: ·) haddrs
    | .tx wtx =>
      obtain ⟨first, rest, rfl, hfirst, hrest⟩ := List.map_eq_cons_iff.mp hout.symm
      obtain ⟨⟨hblock, hlen⟩, htxs'⟩ := List.forall_mem_cons.mp htxs
      rw [hfirst] at hlen
      constructor
      · rintro ⟨w, hw, haddrs, hread⟩
        have hhead : wtxCachehash wp first = first ∧ (FileRecord.tx first).Keeps := by
          rcases Format.scanAll_cases hw with ⟨-, rfl⟩ | ⟨x, n, w', -, hrecord, -, -, rfl⟩
          · cases hread
          · rw [walletFormat_read, ← hfirst] at hrecord
            rw [← hfirst] at hlen
            obtain ⟨read, rfl, -⟩ := readRecord_tx hlen hrecord
            obtain ⟨rfl, -⟩ := List.cons_eq_cons.mp hread
            exact keeps_of_readRecord hblock hlen hrecord
        have hwtx : wtx = first := hfirst.symm.trans hhead.1
        rw [hwtx, written_encode.scanAll_cons hhead.2] at hw
        obtain ⟨w', hw', rfl⟩ := Option.map_eq_some_iff.mp hw
        obtain ⟨hsame, hall⟩ := (ih hkeys' hrest.symm htxs').mp ⟨w', hw', haddrs,
          (List.cons_eq_cons.mp hread).2⟩
        exact ⟨hsame, List.forall_mem_cons.mpr ⟨hhead, hall⟩⟩
      · rintro ⟨hsame, hall⟩
        obtain ⟨⟨hcanonical, hkeeps⟩, hall'⟩ := List.forall_mem_cons.mp hall
        have hwtx : wtx = first := hfirst.symm.trans hcanonical
        obtain ⟨w', hw', haddrs, hread⟩ := (ih hkeys' hrest.symm htxs').mpr ⟨hsame, hall'⟩
        rw [hwtx, written_encode.scanAll_cons hkeeps, hw', Option.map_some]
        refine ⟨_, rfl, haddrs, ?_⟩
        show replayed first :: txsOf w'.records = first :: rest
        rw [hblock, hread]

/-! ## The file that is replaced -/

/-- What a record does to the master key. -/
theorem masterkey_applyRecord (h : applyRecord wp s r = some s') :
    s'.wallet.chain = s.wallet.chain ∧
      (s'.wallet.masterkey = none ↔ s.wallet.masterkey = none ∧ ∀ str,
        r ≠ some (FileRecord.masterpubkey str)) := by
  match r with
  | none =>
    obtain rfl := Option.some.inj h
    exact ⟨rfl, fun hnone => ⟨hnone, fun str heq => by cases heq⟩, And.left⟩
  | some (.masterpubkey str) =>
    rw [applyRecord, FileRecord.replay] at h
    split_ifs at h
    obtain rfl := Option.some.inj h
    exact ⟨rfl, iff_of_false (fun hnone => by cases hnone) fun hboth => hboth.2 str rfl⟩
  | some (.addr waddr) =>
    obtain rfl := Option.some.inj h
    have hsame : (s.wallet.enterWaddr waddr).masterkey = s.wallet.masterkey ∧
        (s.wallet.enterWaddr waddr).chain = s.wallet.chain := by
      unfold enterWaddr
      split_ifs
      · exact ⟨rfl, rfl⟩
      · exact ⟨rfl, rfl⟩
    refine ⟨hsame.2, ?_⟩
    show (s.wallet.enterWaddr waddr).masterkey = none ↔ _
    rw [hsame.1]
    exact ⟨fun hnone => ⟨hnone, fun str heq => by cases heq⟩, And.left⟩
  | some (.tx wtx) =>
    obtain ⟨utxos, -, hsome⟩ := Option.bind_eq_some_iff.mp h
    obtain rfl := Option.some.inj hsome
    refine ⟨addWtxInternMove_leaves Wallet.chain (fun _ _ => rfl) (fun _ _ _ => rfl) _ _ _, ?_⟩
    show (s.wallet.addWtxInternMove utxos (replayed wtx)).masterkey = none ↔ _
    rw [addWtxInternMove_leaves Wallet.masterkey (fun _ _ => rfl) fun _ _ _ => rfl]
    exact ⟨fun hnone => ⟨hnone, fun str heq => by cases heq⟩, And.left⟩

/-- A master key is there if the file holds one. -/
theorem masterkey_foldlM (h : rs.foldlM (applyRecord wp) s = some s') :
    s'.wallet.chain = s.wallet.chain ∧
      (s'.wallet.masterkey = none ↔
        s.wallet.masterkey = none ∧ ∀ str, some (FileRecord.masterpubkey str) ∉ rs) := by
  induction rs generalizing s with
  | nil =>
    obtain rfl := Option.some.inj h
    exact ⟨rfl, fun hnone => ⟨hnone, fun _ => List.not_mem_nil⟩, And.left⟩
  | cons r rs ih =>
    rw [List.foldlM_cons] at h
    obtain ⟨s₁, hfirst, hrest⟩ := Option.bind_eq_some_iff.mp h
    obtain ⟨hchain, hkey⟩ := masterkey_applyRecord hfirst
    obtain ⟨hchain', hkey'⟩ := ih hrest
    have hmem : ∀ str, some (FileRecord.masterpubkey str) ∉ r :: rs ↔
        r ≠ some (.masterpubkey str) ∧ some (FileRecord.masterpubkey str) ∉ rs := by
      intro str
      rw [List.mem_cons, not_or]
      exact and_congr_left' ne_comm
    refine ⟨hchain'.trans hchain, ?_⟩
    rw [hkey', hkey, and_assoc, ← forall_and]
    exact and_congr_right' (forall_congr' fun str => (hmem str).symm)

/-- So it is after a load. -/
theorem masterkey_of_load {ld : Loaded} (h : load wp file chain utxos = some (.loaded ld))
    (hscan : scanFile file = some old) :
    40 ≤ file.length ∧ ld.wallet.chain = chain ∧
      (ld.wallet.masterkey = none ↔ ∀ str, some (FileRecord.masterpubkey str) ∉ old.records) := by
  obtain ⟨hheader, -, w, hw, hfold⟩ := load_iff_scanFile.mp h
  obtain rfl := Option.some.inj (hscan.symm.trans hw)
  obtain ⟨hchain, hkey⟩ := masterkey_foldlM hfold
  exact ⟨hheader.length, hchain, hkey.trans (and_iff_right rfl)⟩

/-- The addresses of a file other than one, with those that are ignored. -/
def others (hash : Uint160) (addrs : List WalletAddr) :
    List WalletAddr := addrs.filter (·.pubkeyhash ≠ hash)

/-- The new file holds the addresses that are not ignored, without the one, and all transactions. -/
def Rebuilt (hash : Uint160) (file new : Bytes) : Prop :=
  ∃ old w, scanFile file = some old ∧ scanFile new = some w ∧
    addrsOf w.records = (addrsOf old.records).filter (fun waddr => waddr.ignore =
      0 && waddr.pubkeyhash ≠ hash) ∧
    txsOf w.records = txsOf old.records

/-- What a file has to be like. -/
structure Rebuildable (wp : WalletPlatform) (chain : WalletParams) (hash : Uint160)
    (rs : List (Option FileRecord)) : Prop where
  /-- With a master key another address is left, and the addresses that are left are numbered by
  their places. An address is ignored exactly if it starts with one in front of it that is not. -/
  addresses : (∃ str, some (FileRecord.masterpubkey str) ∈ rs) →
    (others hash (addrsOf rs)).filter (·.ignore = 0) ≠ [] ∧
      (addressRules wp chain).Numbered (others hash (addrsOf rs)) ∧
      (addressRules wp chain).Covered (others hash (addrsOf rs))
  /-- Without a master key no other address is there. -/
  noAddresses : (∀ str, some (FileRecord.masterpubkey str) ∉ rs) →
    (others hash (addrsOf rs)).filter (·.ignore = 0) = []
  /-- The transactions have their hashes, and are read back from what is written. -/
  transactions : ∀ wtx ∈ txsOf rs, wtxCachehash wp wtx = wtx ∧ (FileRecord.tx wtx).Keeps

/-- The addresses that pass are the other ones. -/
theorem passed_eq_others (hbase58 : wp.Base58Laws chain) {check : WalletAddr}
    (hcheck : check.pubkeyhash = hash) (hdefined : ∀ waddr ∈ addrs, check ≠ waddr →
      findNeedle 35 (addressOf wp chain waddr.pubkeyhash) (addressOf wp chain hash) ≠ none) :
    passed wp chain (addressOf wp chain hash) check addrs = others hash addrs := by
  apply List.filter_congr
  intro waddr hmem
  by_cases hsame : waddr.pubkeyhash = hash
  · rw [hsame, decide_eq_false (not_not.mpr rfl), Bool.and_eq_false_iff, decide_eq_false_iff_not,
      decide_eq_false_iff_not, not_not, not_not]
    by_cases hne : check = waddr
    · exact Or.inl hne
    · right
      -- another record of the same address is found in the string
      have hnone := hdefined waddr hmem hne
      have hfalse := @findNeedle_self 35 _
        (hbase58.encode_ne_nil (chain.b58prefixPubkeyAddress :: hash.1))
      rw [hsame] at hnone
      cases hfound : findNeedle 35 (addressOf wp chain hash) (addressOf wp chain hash) with
      | none => exact absurd hfound hnone
      | some found =>
        cases found with
        | true => rfl
        | false => exact absurd hfound hfalse
  · rw [decide_eq_true hsame, Bool.and_eq_true, decide_eq_true_eq, decide_eq_true_eq]
    refine ⟨?_, fun htrue => hsame (findNeedle_addressOf hbase58 htrue)⟩
    rintro rfl
    exact hsame hcheck

/-- The records of a file behind which good records were written. -/
theorem records_appended {w : Scan UInt8 (Option FileRecord)} {rs : List FileRecord}
    (hfile : 40 ≤ file.length) (hold : scanFile file = some old) (hkeeps : ∀ r ∈ rs, r.Keeps)
    (h : scanFile (appended file rs) = some w) :
    w.records = old.records ++ rs.map fun r => some r.stored := by
  by_cases hrs : rs = []
  · rw [hrs, appended_nil, hold] at h
    rw [hrs, ← Option.some.inj h]
    exact (List.append_nil _).symm
  · have hnone := stray_of_scanFile_appended hfile hold hrs h
    rw [scanFile_appended hfile hold hrs, hnone, List.nil_append,
      written_encode.scanAll_flatMap hkeeps] at h
    rw [← Option.some.inj h]
    rfl

/-- What is written at the end: another address, if there is none. -/
theorem Built.last (h : Built wp chain address check gone out b) :
    ∃ out' : List FileRecord, (if b.wallet.waddrVector = [] then (b.wallet.nextAddr wp).1 else
      b.wallet).dbfile =
        (create chain).dbfile ++ out'.flatMap FileRecord.encode ∧
      out'.filterMap FileRecord.tx? = out.filterMap FileRecord.tx? ∧
      (∀ str, FileRecord.masterpubkey str ∈ out' → (FileRecord.masterpubkey str).Keeps) ∧
      (b.wallet.masterkey ≠ none → b.wallet.waddrVector = [] →
        out'.filterMap FileRecord.addr? ≠ []) ∧
      (b.wallet.masterkey = none ∨ b.wallet.waddrVector ≠ [] →
        out'.filterMap FileRecord.addr? = b.wallet.waddrVector) := by
  by_cases hvector : b.wallet.waddrVector = []
  · rw [if_pos hvector]
    cases hkey : b.wallet.masterkey with
    | none =>
      -- `next_addr` derives nothing
      refine ⟨out, ?_, rfl, h.keys, fun hne => absurd rfl hne, fun _ => h.vector.symm⟩
      unfold nextAddr
      rw [hkey]
      exact h.dbfile
    | some masterkey =>
      unfold nextAddr
      rw [hkey]
      refine ⟨out ++ [.addr (b.wallet.nextWaddr (wp.getHash160
        (masterkey.publicCkd wp.toKeyPlatform b.wallet.nextChildindex).1.publicKey))],
          ?_, ?_, ?_, ?_, ?_⟩
      · show b.wallet.dbfile ++ _ = _
        rw [h.dbfile, List.flatMap_append, List.append_assoc]
        congr 2
        exact (List.append_nil _).symm
      · rw [List.filterMap_append]
        exact List.append_nil _
      · intro str hmem
        rcases List.mem_append.mp hmem with hold | hnew
        · exact h.keys str hold
        · cases List.mem_singleton.mp hnew
      · intro _ _
        rw [List.filterMap_append]
        exact List.append_ne_nil_of_right_ne_nil _ (List.cons_ne_nil _ _)
      · rintro (hnone | hne)
        · cases hnone
        · exact absurd hvector hne
  · rw [if_neg hvector]
    exact ⟨out, h.dbfile, rfl, h.keys, fun _ hnil => absurd hnil hvector, fun _ => h.vector.symm⟩

/-- The addresses that are left of the old file. -/
theorem filter_others (hash : Uint160) (addrs : List WalletAddr) :
    addrs.filter (fun waddr => waddr.ignore = 0 && waddr.pubkeyhash ≠ hash) =
      (others hash addrs).filter (addressRules wp chain).live := by
  rw [others, List.filter_filter]
  rfl

/-- The addresses of the new file, if the old file has a master key. -/
theorem enterAll_others_iff {out : List WalletAddr}
    (hempty : (addressRules wp chain).enterAll (others hash addrs) = [] → out ≠ [])
    (hout : (addressRules wp chain).enterAll (others hash addrs) ≠ [] → out =
      (addressRules wp chain).enterAll (others hash addrs)) :
    out = (others hash addrs).filter (addressRules wp chain).live ↔
      (others hash addrs).filter (addressRules wp chain).live ≠ [] ∧
        (addressRules wp chain).Numbered (others hash addrs) ∧ (addressRules wp chain).Covered
        (others hash addrs) := by
  rw [← Renumber.Rules.enterAll_eq_filter_iff]
  by_cases hnil : (addressRules wp chain).enterAll (others hash addrs) = []
  · -- nothing was entered, so another address was derived, which the old file did not have
    have hothers := Renumber.Rules.enterAll_eq_nil hnil
    have hleft : (others hash addrs).filter (addressRules wp chain).live = [] := by
      rw [hothers]
      rfl
    refine iff_of_false ?_ fun hboth => hboth.1 hleft
    rw [hleft]
    exact hempty hnil
  · rw [hout hnil]
    constructor
    · exact fun heq => ⟨heq ▸ hnil, heq⟩
    · exact And.right

/-- **A call that replaces the file** : what it went through. -/
theorem unregister_cases {address new : Bytes}
    (h : unregisterWatchAddressWithNode wp chain utxos file address = some (.replaced new)) :
    ∃ ld w b, load wp file chain utxos = some (.loaded ld) ∧
      scanFile (appended file ((ld.wallet.lookedFor wp address).1.map FileRecord.addr)) = some w ∧
      rebuildLoop wp chain address (ld.wallet.lookedFor wp address).2 w.records ⟨create chain,
        ld.utxos, false⟩ =
        some (some b) ∧
      new = (if b.wallet.waddrVector = [] then (b.wallet.nextAddr wp).1 else b.wallet).dbfile := by
  unfold unregisterWatchAddressWithNode at h
  split at h
  swap
  · cases h
  next ld hload =>
  dsimp only at h
  split at h
  · cases h
  next w hw =>
  split at h
  · cases h
  · cases h
  next b hloop =>
  cases hfound : b.found with
  | false =>
    rw [hfound] at h
    cases h
  | true =>
    rw [hfound, if_pos rfl] at h
    obtain rfl := Unregistered.replaced.inj (Option.some.inj h)
    exact ⟨ld, w, b, hload, hw, hloop, rfl⟩

/-- The records that are gone through: those of the file, with the addresses that were added on the
way. -/
theorem records_appended_addrs {w : Scan UInt8 (Option FileRecord)} {added : List WalletAddr}
    (hfile : 40 ≤ file.length) (hold : scanFile file = some old)
    (h : scanFile (appended file (added.map FileRecord.addr)) = some w) :
    addrsOf w.records = addrsOf old.records ++ added ∧ txsOf w.records = txsOf old.records ∧
      ((∀ str, some (FileRecord.masterpubkey str) ∉ w.records) ↔
        ∀ str, some (FileRecord.masterpubkey str) ∉ old.records) := by
  have hkeeps : ∀ r ∈ added.map FileRecord.addr, r.Keeps := by
    intro r hr
    obtain ⟨waddr, -, rfl⟩ := List.mem_map.mp hr
    trivial
  have hrecords := records_appended hfile hold hkeeps h
  rw [List.map_map] at hrecords
  rw [hrecords]
  refine ⟨?_, ?_, ?_⟩
  · rw [addrsOf, List.filterMap_append, List.filterMap_map]
    congr 1
    exact List.filterMap_some
  · have hnone : added.filterMap ((fun r => Option.bind r FileRecord.tx?) ∘
        ((fun r => some (FileRecord.stored r)) ∘ FileRecord.addr)) = [] := by
      rw [List.filterMap_eq_nil_iff]
      exact fun waddr _ => rfl
    rw [txsOf, List.filterMap_append, List.filterMap_map, hnone, List.append_nil]
    rfl
  · apply forall_congr'
    intro str
    rw [List.mem_append, List.mem_map, not_or]
    apply and_iff_left
    rintro ⟨waddr, -, heq⟩
    cases heq

/-- The new file is right by its addresses and its transactions apart. -/
theorem rebuilt_iff_of_dbfile {out : List FileRecord} (hold : scanFile file = some old)
    (hkeys : ∀ str, FileRecord.masterpubkey str ∈ out → (FileRecord.masterpubkey str).Keeps)
    (htxs : out.filterMap FileRecord.tx? = (txsOf old.records).map (wtxCachehash wp)) :
    Rebuilt hash file ((create chain).dbfile ++ out.flatMap FileRecord.encode) ↔
      out.filterMap FileRecord.addr? =
        (others hash (addrsOf old.records)).filter (addressRules wp chain).live ∧
        ∀ wtx ∈ txsOf old.records, wtxCachehash wp wtx = wtx ∧ (FileRecord.tx wtx).Keeps := by
  have hheader : (create chain).dbfile.length = 40 := by
    simp [create, chain.genesisblockhash.2]
  rw [← scanAll_out_iff hkeys htxs (tx_of_scanFile hold)]
  constructor
  · rintro ⟨old', w, hold', hw, hsame, hread⟩
    obtain rfl := Option.some.inj (hold.symm.trans hold')
    rw [scanFile, List.drop_left' hheader] at hw
    exact ⟨w, hw, hsame.trans (filter_others hash _), hread⟩
  · rintro ⟨w, hw, hsame, hread⟩
    refine ⟨old, w, hold, ?_, hsame.trans (filter_others hash _).symm, hread⟩
    rw [scanFile, List.drop_left' hheader]
    exact hw

/-- The addresses that are gone through, other than the one that is unregistered. -/
theorem passed_lookedFor (hbase58 : wp.Base58Laws chain) (hchain : w.chain = chain)
    (hkey : w.masterkey ≠ none)
    (hdefined : ∀ waddr ∈ addrs ++ (w.lookedFor wp (addressOf wp chain hash)).1,
        (w.lookedFor wp (addressOf wp chain hash)).2 ≠ waddr →
      findNeedle 35 (addressOf wp chain waddr.pubkeyhash) (addressOf wp chain hash) ≠ none) :
    passed wp chain (addressOf wp chain hash) (w.lookedFor wp (addressOf wp chain hash)).2
      (addrs ++ (w.lookedFor wp (addressOf wp chain hash)).1) = others hash addrs := by
  obtain ⟨hcheck, hadded⟩ := lookedFor_of_masterkey hbase58 hchain hkey hash
  -- what was added on the way is the address itself
  have hnil : others hash (w.lookedFor wp (addressOf wp chain hash)).1 = [] := by
    rw [others, List.filter_eq_nil_iff]
    intro waddr hmem htrue
    exact of_decide_eq_true htrue (hadded waddr hmem)
  rw [others] at hnil
  rw [passed_eq_others hbase58 hcheck hdefined, others, List.filter_append, hnil,
    List.append_nil, others]

/-- **The new file** holds the addresses that are not ignored, without the one that is unregistered,
each with its hash and its child index, and the transactions in their order, exactly if the old file
is as it has to be. -/
theorem rebuilt_iff (hbase58 : wp.Base58Laws chain) {utxos : Utxos} {file new : Bytes}
    {hash : Uint160} (h : unregisterWatchAddressWithNode wp chain utxos file
      (addressOf wp chain hash) =
      some (.replaced new)) :
    Rebuilt hash file new ↔ ∃ old, scanFile file = some old ∧
    Rebuildable wp chain hash old.records := by
  obtain ⟨ld, w, b, hload, hw, hloop, rfl⟩ := unregister_cases h
  obtain ⟨-, -, old, hold, -⟩ := load_iff_scanFile.mp hload
  obtain ⟨hlen, hchain, hkey⟩ := masterkey_of_load hload hold
  obtain ⟨haddrs, htxs, hkeys⟩ := records_appended_addrs hlen hold hw
  obtain ⟨out, hbuilt⟩ := built_rebuildLoop hbase58 (built_create ld.utxos) hloop
  rw [List.nil_append] at hbuilt
  obtain ⟨out', hfile, houtTxs, houtKeys, hempty, hvector⟩ := hbuilt.last
  rw [hbuilt.txs, htxs] at houtTxs
  have hkeyless : b.wallet.masterkey = none ↔ ∀ str,
    some (FileRecord.masterpubkey str) ∉ old.records :=
    hbuilt.masterkey.trans hkeys
  have hright : (∃ old', scanFile file = some old' ∧ Rebuildable wp chain hash old'.records) ↔
      Rebuildable wp chain hash old.records := by
    rw [hold]
    constructor
    · rintro ⟨old', hsame, hgood⟩
      obtain rfl := Option.some.inj hsame
      exact hgood
    · exact fun hgood => ⟨old, rfl, hgood⟩
  rw [hfile, rebuilt_iff_of_dbfile hold houtKeys houtTxs, hright]
  by_cases hnone : b.wallet.masterkey = none
  · -- no address was entered, since the first one would have ended the call
    have hkeyless' := hkeyless.mp hnone
    have hnil : out'.filterMap FileRecord.addr? = [] := by
      rw [hvector (Or.inl hnone), hbuilt.entered, hbuilt.passing hnone]
      rfl
    rw [hnil]
    constructor
    · rintro ⟨hleft, hgood⟩
      exact ⟨fun hstr => absurd hstr.choose_spec (hkeyless' _), fun _ => hleft.symm, hgood⟩
    · exact fun hgood => ⟨(hgood.noAddresses hkeyless').symm, hgood.transactions⟩
  · have hkeyed : ∃ str, some (FileRecord.masterpubkey str) ∈ old.records := by
      by_contra hno
      exact hnone (hkeyless.mpr fun str hmem => hno ⟨str, hmem⟩)
    have hld : ld.wallet.masterkey ≠ none := fun hld => hnone (hkeyless.mpr (hkey.mp hld))
    have hdefined := hbuilt.defined
    have hentered := hbuilt.entered
    rw [haddrs] at hdefined hentered
    rw [passed_lookedFor hbase58 hchain hld hdefined] at hentered
    have haddresses : out'.filterMap FileRecord.addr? =
        (others hash (addrsOf old.records)).filter (addressRules wp chain).live ↔ _ :=
      enterAll_others_iff (fun hnil => hempty hnone (hentered.trans hnil))
        fun hne => (hvector (Or.inr (hentered ▸ hne))).trans hentered
    rw [haddresses]
    constructor
    · rintro ⟨haddresses, hgood⟩
      exact ⟨fun _ => haddresses, fun hno => absurd hkeyed.choose_spec (hno _), hgood⟩
    · exact fun hgood => ⟨hgood.addresses hkeyed, hgood.transactions⟩

/-! ## Two addresses -/

/-- What is read from a file of good records. -/
theorem scanFile_fileOf {rs : List FileRecord} (hkeeps : ∀ r ∈ rs, r.Keeps) :
    ∃ w, scanFile (fileOf chain rs) = some w ∧ w.records = rs.map fun r => some r.stored := by
  have hheader : (create chain).dbfile.length = 40 := by
    simp [create, chain.genesisblockhash.2]
  have hread := written_encode.scanAll_flatMap hkeeps
  rw [← @List.drop_left' _ _ (rs.flatMap FileRecord.encode) _ hheader] at hread
  exact ⟨_, hread, rfl⟩

/-- The master key of the file. -/
def watchedXpub : Bytes := (hdnodeSerializePublic sampleWallet sampleMaster
    sampleWalletParams).take 112

/-- A transaction under its hash. -/
def watchedTx : Wtx :=
  wtxCachehash sampleWallet ⟨Uint256.zero, Uint256.zero, 1, samplePayment⟩

/-- An address under its number. -/
def watchedAddr (b : UInt8) (childindex : UInt32) : WalletAddr where
  pubkeyhash := sampleHash160 b
  type := 0
  childindex := childindex
  ignore := 0

/-- Two addresses and the transaction. -/
def watchedRecords : List FileRecord :=
  [.masterpubkey watchedXpub, .addr (watchedAddr 1 0), .addr (watchedAddr 2 1), .tx watchedTx]

def watchedFile : Bytes := fileOf sampleWalletParams watchedRecords

theorem watchedRecords_keeps : ∀ r ∈ watchedRecords, r.Keeps := by
  intro r hr
  rcases List.mem_cons.mp hr with rfl | hr
  · exact ⟨by decide +kernel, by decide +kernel, by decide +kernel⟩
  rcases List.mem_cons.mp hr with rfl | hr
  · trivial
  rcases List.mem_cons.mp hr with rfl | hr
  · trivial
  obtain rfl := List.mem_singleton.mp hr
  exact ⟨List.cons_ne_nil _ _, by decide, by decide +kernel⟩

/-- The new file, if there is one. -/
def Unregistered.file? : Unregistered → Option Bytes
  | replaced file => some file
  | kept => none

theorem Unregistered.file?_eq_some {u : Unregistered} (h : u.file? = some file) :
    u = .replaced file := by
  cases u with
  | replaced new =>
    rw [Option.some.inj h]
  | kept => cases h

/-- The theorem, where the last address is unregistered. -/
theorem rebuilt_last :
    ∃ new, unregisterWatchAddressWithNode sampleWallet sampleWalletParams noUtxos watchedFile
        (addressOf sampleWallet sampleWalletParams (sampleHash160 2)) = some (.replaced new) ∧
      Rebuilt (sampleHash160 2) watchedFile new := by
  have hreplaced : ((unregisterWatchAddressWithNode sampleWallet sampleWalletParams
    noUtxos watchedFile (addressOf sampleWallet sampleWalletParams (sampleHash160 2))).bind
        Unregistered.file?).isSome = true := by
    decide +kernel
  obtain ⟨new, hnew⟩ := Option.isSome_iff_exists.mp hreplaced
  obtain ⟨u, hu, hfile⟩ := Option.bind_eq_some_iff.mp hnew
  obtain rfl := Unregistered.file?_eq_some hfile
  obtain ⟨old, hold, hrecords⟩ := @scanFile_fileOf sampleWalletParams _ watchedRecords_keeps
  refine ⟨new, hu, (rebuilt_iff (sampleWallet_base58Laws _) hu).mpr ⟨old, hold, ?_⟩⟩
  have haddrs : others (sampleHash160 2) (addrsOf old.records) = [] ++ [watchedAddr 1 0] := by
    rw [hrecords]
    decide
  have htxs : txsOf old.records = [watchedTx] := by
    rw [hrecords]
    rfl
  refine ⟨fun _ => ?_, fun hnone => ?_, ?_⟩
  · rw [haddrs, Renumber.Rules.numbered_concat, Renumber.Rules.covered_concat]
    refine ⟨by decide, ⟨?_, fun _ => rfl⟩, Renumber.Rules.covered_nil, ?_⟩
    · intro i waddr h
      cases h
    · decide
  · refine absurd ?_ (hnone watchedXpub)
    rw [hrecords]
    exact List.mem_cons_self
  · rw [htxs]
    intro wtx hmem
    obtain rfl := List.mem_singleton.mp hmem
    exact ⟨rfl, watchedRecords_keeps (.tx watchedTx) (by simp [watchedRecords])⟩

/-- The other address is numbered again, where the first one is unregistered. -/
theorem not_rebuilt_first :
    (((unregisterWatchAddressWithNode sampleWallet sampleWalletParams noUtxos watchedFile
        (addressOf sampleWallet sampleWalletParams (sampleHash160 1))).bind Unregistered.file?).bind
          scanFile).map
        (fun w => addrsOf w.records) = some [watchedAddr 2 0] ∧
      ¬ ∀ (wp : WalletPlatform) (chain : WalletParams), wp.Base58Laws chain →
        ∀ (utxos : Utxos) (file new : Bytes) (hash : Uint160),
          unregisterWatchAddressWithNode wp chain utxos file (addressOf wp chain hash) =
            some (.replaced new) →
            Rebuilt hash file new := by
  have hfirst : (((unregisterWatchAddressWithNode sampleWallet sampleWalletParams
    noUtxos watchedFile
      (addressOf sampleWallet sampleWalletParams (sampleHash160 1))).bind Unregistered.file?).bind
        scanFile).map
      (fun w => addrsOf w.records) = some [watchedAddr 2 0] := by
    decide +kernel
  refine ⟨hfirst, fun hall => ?_⟩
  obtain ⟨w, hscan, hread⟩ := Option.map_eq_some_iff.mp hfirst
  obtain ⟨new, hnew, hw⟩ := Option.bind_eq_some_iff.mp hscan
  obtain ⟨u, hu, hfile⟩ := Option.bind_eq_some_iff.mp hnew
  obtain rfl := Unregistered.file?_eq_some hfile
  obtain ⟨old, w', hold, hw', haddrs, -⟩ :=
    hall sampleWallet sampleWalletParams (sampleWallet_base58Laws _)
    noUtxos watchedFile new (sampleHash160 1) hu
  obtain rfl := Option.some.inj (hw.symm.trans hw')
  obtain ⟨old', hold', hrecords⟩ := @scanFile_fileOf sampleWalletParams _ watchedRecords_keeps
  obtain rfl := Option.some.inj (hold.symm.trans hold')
  rw [haddrs, hrecords] at hread
  exact absurd hread (by decide)

end Wallet

end Libdogecoin
