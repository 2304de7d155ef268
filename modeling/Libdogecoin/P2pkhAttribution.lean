/-
# Which outputs are attributed to an address

Two routines make an address from an output script, and three subsystems take it for the address
that is paid: the wallet for its table of unspent outputs, the mempool client for its watchers, and
the finalizer, which counts the outputs that have one. Both routines look for bytes that are not
opcodes instead of the template of the script.

* `txOutPubkeyHashToP2pkhAddress_eq` : the address of the hash that is found in any script of 25
  bytes or more;
* `mem_labels_scrapeUtxos`, `watcherOf_eq_some` : where the subsystems attribute an output;
* `attributions_right_iff` : the scripts for which only payments to an address are attributed to it.
-/
import Libdogecoin.Base58
import Libdogecoin.FinalizeEx
import Libdogecoin.P2pkhScan
import Libdogecoin.Smpv

namespace Libdogecoin

/-! ## Strings of addresses -/

/-- The parameter for `dogecoin_base58_encode_check` is what `base58.c` writes into any buffer that
is large enough. -/
def KeyPlatform.WritesBase58 (kp : KeyPlatform) : Prop :=
  ∀ (data str : Bytes) (strsize : ℕ), Base58.base58EncodeCheck kp.toPlatform data strsize =
    some str →
    kp.base58EncodeCheck data = str

namespace Base58

/-- **The string of an address** has at most 34 characters. -/
theorem base58EncodeCheck_address (pf : Platform) {b : UInt8} (hash : Uint160) (hb : b ≠ 0)
    (hle : b.toNat ≤ 113) :
    base58EncodeCheck pf (b :: hash.1) 35 =
      some (base58String (b :: hash.1 ++ checksum pf (b :: hash.1))) ∧
      (base58String (b :: hash.1 ++ checksum pf (b :: hash.1))).length ≤ 34 := by
  have hrest : (hash.1 ++ checksum pf (b :: hash.1)).length = 24 := by
    rw [List.length_append, hash.2, checksum, List.length_take, (pf.sha256d _).2]
    rfl
  have hlength := length_base58String_le hb hle hrest
  refine ⟨?_, hlength⟩
  rw [← List.cons_append, length_base58String] at hlength
  unfold base58EncodeCheck
  rw [List.length_cons, hash.2, if_neg (by norm_num), base58Encode_eq, if_neg (by omega)]
  rfl

end Base58

/-! ## The routines -/

/-- The script is `OP_DUP OP_HASH160`, the push of 20 bytes, `OP_EQUALVERIFY` and `OP_CHECKSIG`. -/
def IsP2pkh (script : Bytes) : Prop := ∃ hash : Uint160, script = p2pkhScript hash

/-- The script is that of a payment to the address. -/
def PaysTo (kp : KeyPlatform) (chain : KeyParams) (script address : Bytes) : Prop :=
  ∃ hash : Uint160, script = p2pkhScript hash ∧ address = kp.p2pkhAddrFromHash160 hash chain

/-- The chain that a flag stands for. -/
def chainOfFlag (isMainnet : Bool) : KeyParams := if isMainnet then keyParamsMain else keyParamsTest

variable {script : Bytes} {chain : KeyParams} {tx : Tx}

theorem PaysTo.isP2pkh {kp : KeyPlatform} {address : Bytes} (h : PaysTo kp chain script address) :
    IsP2pkh script := by
  obtain ⟨hash, hscript, -⟩ := h
  exact ⟨hash, hscript⟩

theorem IsP2pkh.length_eq (h : IsP2pkh script) : script.length = 25 := by
  obtain ⟨hash, rfl⟩ := h
  exact length_p2pkhScript hash

theorem scannedHash_p2pkhScript (hash : Uint160) : scannedHash (p2pkhScript hash) = hash := by
  have hlen := length_p2pkhScript hash
  apply Subtype.ext
  rw [scannedHash, if_neg (not_onlyOps_p2pkhScript hash), hash160At_eq (by omega)]
  exact List.take_left' hash.2

variable {kp : KeyPlatform} {wp : WalletPlatform}

/-- The address of a script that pays to it. -/
theorem paysTo_scannedHash (h : IsP2pkh script) :
    PaysTo kp chain script (kp.p2pkhAddrFromHash160 (scannedHash script) chain) := by
  obtain ⟨hash, rfl⟩ := h
  exact ⟨hash, rfl, by rw [scannedHash_p2pkhScript]⟩

section
variable (hbase58 : kp.WritesBase58)
include hbase58

/-- **An address** of either chain is a base58 string that fits into its buffer. -/
theorem isAddressString_p2pkhAddrFromHash160 (hash : Uint160) (isMainnet : Bool) :
    (kp.p2pkhAddrFromHash160 hash (chainOfFlag isMainnet)).length ≤ 34 ∧
      isAddressString (kp.p2pkhAddrFromHash160 hash (chainOfFlag isMainnet)) = true := by
  have hprefix : (chainOfFlag isMainnet).b58prefixPubkeyAddress ≠ 0 ∧
      (chainOfFlag isMainnet).b58prefixPubkeyAddress.toNat ≤ 113 := by
    cases isMainnet with
    | true => decide
    | false => decide
  obtain ⟨hwrite, hlength⟩ := Base58.base58EncodeCheck_address kp.toPlatform hash
    hprefix.1 hprefix.2
  unfold KeyPlatform.p2pkhAddrFromHash160
  rw [hbase58 _ _ _ hwrite]
  have hlong := Base58.length_le_base58String ((chainOfFlag isMainnet).b58prefixPubkeyAddress ::
    hash.1 ++
    Base58.checksum kp.toPlatform ((chainOfFlag isMainnet).b58prefixPubkeyAddress :: hash.1))
  rw [List.length_append, List.length_cons] at hlong
  refine ⟨hlength, ?_⟩
  unfold isAddressString p2pkhLen
  simp only [Bool.and_eq_true, decide_eq_true_eq, List.all_eq_true]
  exact ⟨⟨by omega, by omega⟩, Base58.base58String_valid _⟩

/-- **The first routine** has an address for any script of 25 bytes or more. -/
theorem txOutPubkeyHashToP2pkhAddress_eq (txOut : TxOut) (isMainnet : Bool) :
    txOutPubkeyHashToP2pkhAddress kp txOut isMainnet =
      if txOut.scriptPubkey.length < 25 then none
      else some (kp.p2pkhAddrFromHash160 (scannedHash txOut.scriptPubkey)
        (chainOfFlag isMainnet)) := by
  have hops : ((txOut.scriptPubkey.take (txOut.scriptPubkey.length - 4)).drop 2).all
      (· ∈ [opDup, opHash160, opEqualverify, opChecksig]) = true ↔ OnlyOps txOut.scriptPubkey := by
    rw [List.drop_take, Nat.sub_sub, List.all_eq_true]
    simp only [decide_eq_true_eq]
    exact Iff.rfl
  -- the address fits into its buffer, so the last check never fails
  have hfits := (isAddressString_p2pkhAddrFromHash160 hbase58
    (scannedHash txOut.scriptPubkey) isMainnet).1
  have hhash : (if ((txOut.scriptPubkey.take (txOut.scriptPubkey.length - 4)).drop 2).all
      (· ∈ [opDup, opHash160, opEqualverify, opChecksig]) then hash160At [] 0 else
        hash160At txOut.scriptPubkey 3) =
        scannedHash txOut.scriptPubkey := if_congr hops rfl rfl
  unfold txOutPubkeyHashToP2pkhAddress
  dsimp only
  rw [hhash]
  by_cases hshort : txOut.scriptPubkey.length < 25
  · rw [if_pos hshort, if_pos hshort]
  · have hroom : ¬ (kp.p2pkhAddrFromHash160 (scannedHash txOut.scriptPubkey)
      (chainOfFlag isMainnet)).length + 1 > 35 := by
      omega
    rw [if_neg hshort, if_neg hshort]
    exact if_neg hroom

/-- `dogecoin_tx_out_pubkey_hash_to_p2pkh_address` has an address only for a payment to it. -/
def TxOutRight (kp : KeyPlatform) (txOut : TxOut) : Prop := ∀ isMainnet address,
  txOutPubkeyHashToP2pkhAddress kp txOut isMainnet = some address →
    PaysTo kp (chainOfFlag isMainnet) txOut.scriptPubkey address

/-- An address that `dogecoin_pubkey_hash_to_p2pkh_address` may have for a script: any, where it
leaves its buffers. -/
def MayHave (wp : WalletPlatform) (chain : WalletParams) (script address : Bytes) :
  Prop := ∀ address', Wallet.pubkeyHashToP2pkhAddress wp script chain = some address' →
    address = address'

/-- `dogecoin_pubkey_hash_to_p2pkh_address` has an address only for a payment to it. -/
def PubkeyHashRight (wp : WalletPlatform) (script : Bytes) : Prop := ∀ chain address,
  MayHave wp chain script address → PaysTo wp.toKeyPlatform chain.toKeyParams script address

theorem txOutRight_iff (txOut : TxOut) :
    TxOutRight kp txOut ↔ txOut.scriptPubkey.length < 25 ∨ IsP2pkh txOut.scriptPubkey := by
  have heq := txOutPubkeyHashToP2pkhAddress_eq hbase58 txOut
  constructor
  · intro hright
    rw [or_iff_not_imp_left]
    intro hlong
    exact (hright true _ ((heq true).trans (if_neg hlong))).isP2pkh
  · intro hscript isMainnet address haddress
    rw [heq] at haddress
    split_ifs at haddress with hshort
    obtain rfl := Option.some.inj haddress
    exact paysTo_scannedHash (hscript.resolve_left hshort)

end

theorem pubkeyHashRight_iff (script : Bytes) : PubkeyHashRight wp script ↔ IsP2pkh script := by
  have heq := Wallet.pubkeyHashToP2pkhAddress_eq wp script
  constructor
  · intro hright
    -- where the routine leaves its buffers any address may come out
    have hmay : MayHave wp sampleWalletParams script
        (wp.p2pkhAddrFromHash160 (scannedHash script) sampleWalletParams.toKeyParams) := by
      intro address' haddress'
      rw [heq] at haddress'
      split_ifs at haddress' with hread
      exact Option.some.inj haddress'
    exact (hright sampleWalletParams _ hmay).isP2pkh
  · intro hscript chain address hmay
    have hlen := hscript.length_eq
    obtain rfl := hmay _ ((heq chain).trans (if_pos ⟨by omega, Or.inr (by omega)⟩))
    exact paysTo_scannedHash hscript

/-! ## The table of a wallet -/

/-- What an entry of the table says: the output, and the address that it was entered under. -/
def Utxo.label (utxo : Utxo) : Uint256 × ℕ × Bytes := (utxo.txid, utxo.vout, utxo.address)

namespace Wallet

variable {w : Wallet} {wtx : Wtx} {txid : Uint256} {height : UInt32} {p2pkh : Bytes}
  {txOut : TxOut} {vout : ℕ}
  {utxos utxos' : Utxos} {label : Uint256 × ℕ × Bytes}

/-- An entry with another label is new. -/
theorem mem_labels_recordOutput
    (h : label ∈ (recordOutput txid height p2pkh txOut vout utxos).table.map Utxo.label) :
    label ∈ utxos.table.map Utxo.label ∨ label = (txid, vout, p2pkh) := by
  unfold recordOutput at h
  dsimp only at h
  split_ifs at h
  · rw [map_setHeight Utxo.label fun _ => rfl] at h
    exact Or.inl h
  · exact Or.inl h
  · rw [List.map_append, List.mem_append] at h
    exact h.imp_right List.mem_singleton.mp

/-- The loop over the addresses of the wallet. -/
theorem mem_labels_recordOutputs
    (h : label ∈ (recordOutputs wp w txid height p2pkh txOut vout utxos).table.map Utxo.label) :
    label ∈ utxos.table.map Utxo.label ∨ label = (txid, vout, p2pkh) := by
  unfold recordOutputs at h
  generalize w.getAddresses wp = addrs at h
  induction addrs generalizing utxos with
  | nil => exact Or.inl h
  | cons addr addrs ih =>
    rw [List.foldl_cons] at h
    rcases ih h with hstep | hnew
    · split_ifs at hstep
      · exact mem_labels_recordOutput hstep
      · exact Or.inl hstep
    · exact Or.inr hnew

/-- One turn of the loop over the outputs. -/
theorem mem_labels_scrapeOutput
    (hrun : scrapeOutput wp w txid height txOut vout utxos = some utxos')
    (h : label ∈ utxos'.table.map Utxo.label) :
    label ∈ utxos.table.map Utxo.label ∨ w.Scanned txOut ∧
      ∃ p2pkh, pubkeyHashToP2pkhAddress wp txOut.scriptPubkey w.chain = some p2pkh ∧
      label = (txid, vout, p2pkh) := by
  unfold scrapeOutput at hrun
  split_ifs at hrun with hempty
  · rw [Option.some.inj hrun]
    exact Or.inl h
  · obtain ⟨p2pkh, hp2pkh, rfl⟩ := Option.map_eq_some_iff.mp hrun
    rcases mem_labels_recordOutputs h with hold | hnew
    · exact Or.inl hold
    · exact Or.inr ⟨hempty, p2pkh, hp2pkh, hnew⟩

/-- **The entries** that a transaction adds to the table: under the addresses of its outputs. -/
theorem mem_labels_scrapeUtxos (hrun : scrapeUtxos wp w wtx utxos = some utxos')
    (h : label ∈ utxos'.table.map Utxo.label) :
    label ∈ utxos.table.map Utxo.label ∨ ∃ txOut vout p2pkh, wtx.tx.vout[vout]? = some txOut ∧
    w.Scanned txOut ∧
      pubkeyHashToP2pkhAddress wp txOut.scriptPubkey w.chain = some p2pkh ∧
        label = (swapBytes (txHash wp.toPlatform wtx.tx), vout, p2pkh) := by
  have hloop : ∀ (outs : List (TxOut × ℕ)) (s : Utxos), outs.foldlM (fun utxos (out : TxOut × ℕ) =>
      scrapeOutput wp w (swapBytes (txHash wp.toPlatform wtx.tx)) wtx.height out.1 out.2 utxos) s =
        some utxos' →
        label ∈ s.table.map Utxo.label ∨ ∃ out ∈ outs, w.Scanned out.1 ∧
          ∃ p2pkh, pubkeyHashToP2pkhAddress wp out.1.scriptPubkey w.chain = some p2pkh ∧
            label = (swapBytes (txHash wp.toPlatform wtx.tx), out.2, p2pkh) := by
    intro outs
    induction outs with
    | nil =>
      intro s hs
      rw [← Option.some.inj hs] at h
      exact Or.inl h
    | cons out outs ih =>
      intro s hs
      rw [List.foldlM_cons] at hs
      obtain ⟨s', hstep, hrest⟩ := Option.bind_eq_some_iff.mp hs
      rcases ih s' hrest with hold | ⟨o, ho, hnew⟩
      · rcases mem_labels_scrapeOutput hstep hold with hold | hnew
        · exact Or.inl hold
        · exact Or.inr ⟨out, List.mem_cons_self, hnew⟩
      · exact Or.inr ⟨o, List.mem_cons_of_mem _ ho, hnew⟩
  rcases hloop _ _ hrun with hold | ⟨out, hout, hscanned, p2pkh, hp2pkh, hlabel⟩
  · rw [(map_scrapeInputs Utxo.label (fun _ => rfl) wtx.tx utxos).1] at hold
    exact Or.inl hold
  · exact Or.inr ⟨out.1, out.2, p2pkh, List.mem_zipIdx_iff_getElem?.mp hout,
      hscanned, hp2pkh, hlabel⟩

/-- A wallet whose only address is that of a hash. -/
def ownerOf (hash : Uint160) : Wallet := (create sampleWalletParams).addWaddr ⟨hash, 0, 0, 0⟩

theorem listsAddress_ownerOf (hash : Uint160) :
    (ownerOf hash).listsAddress wp (wp.p2pkhAddrFromHash160 hash sampleWalletParams.toKeyParams) =
    true := by
  show ([wp.p2pkhAddrFromHash160 hash sampleWalletParams.toKeyParams].any fun addr =>
    (wp.p2pkhAddrFromHash160 hash sampleWalletParams.toKeyParams).take 34 = addr.take 34) = true
  rw [List.any_cons, decide_eq_true rfl, Bool.true_or]

theorem address_of_isSome {script : Bytes} {chain : WalletParams}
    (h : (pubkeyHashToP2pkhAddress wp script chain).isSome = true) :
    pubkeyHashToP2pkhAddress wp script chain =
      some (wp.p2pkhAddrFromHash160 (scannedHash script) chain.toKeyParams) := by
  have heq := pubkeyHashToP2pkhAddress_eq wp script chain
  split_ifs at heq
  · exact heq
  · rw [heq] at h
    exact absurd h Bool.false_ne_true

/-- The owner of the hash that a script seems to hold has an entry for the output. -/
theorem mem_outpoints_ownerOf {n : ℕ} (hn : wtx.tx.vout[n]? = some txOut)
    (hne : txOut.scriptPubkey.length ≠ 0)
    (hrun : scrapeUtxos wp (ownerOf (scannedHash txOut.scriptPubkey)) wtx ⟨[], 0⟩ = some utxos') :
    ∃ utxo ∈ utxos'.table, utxo.vout = n := by
  have hread := scrapable_of_scrapeUtxos hrun
  have hmem : txOut ∈ wtx.tx.vout := List.mem_of_getElem? hn
  obtain ⟨utxos'', hrun', hview, -⟩ :=
    @scrapeUtxos_of_scrapable wp _ wtx ⟨[], 0⟩ (fun u hu => absurd hu List.not_mem_nil) hread
  rw [hrun] at hrun'
  obtain rfl := Option.some.inj hrun'
  have hsome : (pubkeyHashToP2pkhAddress wp txOut.scriptPubkey sampleWalletParams).isSome =
    true := by
    rcases hread txOut hmem with hnone | hempty | hsome
    · cases hnone
    · exact absurd hempty hne
    · exact hsome
  have hpays : (ownerOf (scannedHash txOut.scriptPubkey)).paysAddress wp txOut = true := by
    unfold paysAddress
    show (pubkeyHashToP2pkhAddress wp txOut.scriptPubkey sampleWalletParams).any _ = true
    rw [address_of_isSome hsome]
    exact listsAddress_ownerOf _
  have hout : (txOut, n) ∈ wtx.tx.vout.zipIdx := List.mem_zipIdx_iff_getElem?.mpr hn
  have hcoin : (swapBytes (txHash wp.toPlatform wtx.tx), n) ∈ utxos'.view.outpoints := by
    rw [hview, TableView.mem_foldl_enter, List.map_map]
    exact Or.inr (List.mem_map.mpr ⟨(txOut, n), List.mem_filter.mpr ⟨hout, hpays⟩, rfl⟩)
  obtain ⟨utxo, hutxo, hsame⟩ := List.mem_map.mp hcoin
  exact ⟨utxo, hutxo, (Prod.mk.inj hsame).2⟩

end Wallet

/-- `dogecoin_wallet_scrape_utxos` enters the outputs of a transaction under addresses that they pay
to, and stays inside of their scripts, for any wallet and any table. -/
def ScrapeRight (wp : WalletPlatform) (tx : Tx) :
    Prop := ∀ (w : Wallet) (wtx : Wtx) (utxos : Utxos), wtx.tx = tx →
  ∃ utxos', w.scrapeUtxos wp wtx utxos = some utxos' ∧ ∀ label ∈ utxos'.table.map Utxo.label,
    label ∈ utxos.table.map Utxo.label ∨ ∃ txOut, tx.vout[label.2.1]? = some txOut ∧
      PaysTo wp.toKeyPlatform w.chain.toKeyParams txOut.scriptPubkey label.2.2

theorem scrapeRight_iff (tx : Tx) :
    ScrapeRight wp tx ↔ ∀ txOut ∈ tx.vout, txOut.scriptPubkey.length = 0 ∨
    IsP2pkh txOut.scriptPubkey := by
  constructor
  · intro hright txOut hmem
    rw [or_iff_not_imp_left]
    intro hne
    obtain ⟨n, hn⟩ := List.mem_iff_getElem?.mp hmem
    obtain ⟨utxos', hrun, hlabels⟩ := hright (Wallet.ownerOf (scannedHash txOut.scriptPubkey))
      ⟨Uint256.zero, Uint256.zero, 0, tx⟩ ⟨[], 0⟩ rfl
    obtain ⟨utxo, hutxo, rfl⟩ := Wallet.mem_outpoints_ownerOf hn hne hrun
    rcases hlabels utxo.label (List.mem_map_of_mem hutxo) with hold | ⟨txOut', hat, hpays⟩
    · exact absurd hold List.not_mem_nil
    · obtain rfl := Option.some.inj (hn.symm.trans hat)
      exact hpays.isP2pkh
  · rintro hscripts w wtx utxos rfl
    have hread : ∀ txOut ∈ wtx.tx.vout, w.Scrapable wp txOut := by
      intro txOut hmem
      rcases hscripts txOut hmem with hempty | hp2pkh
      · exact Or.inr (Or.inl hempty)
      · exact Wallet.scrapable_p2pkh hp2pkh
    obtain ⟨utxos', hrun⟩ := Option.isSome_iff_exists.mp
      ((Wallet.scrapeUtxos_isSome_iff wp w wtx utxos).mpr hread)
    refine ⟨utxos', hrun, fun label hlabel => ?_⟩
    rcases Wallet.mem_labels_scrapeUtxos hrun hlabel with hold |
      ⟨txOut, vout, p2pkh, hat, hscanned, hp2pkh, rfl⟩
    · exact Or.inl hold
    · obtain ⟨hash, hscript⟩ := (hscripts txOut (List.mem_of_getElem? hat)).resolve_left fun h =>
        hscanned (Or.inr h)
      rw [hscript, Wallet.pubkeyHashToP2pkhAddress_p2pkhScript] at hp2pkh
      exact Or.inr ⟨txOut, hat, hash, hscript, (Option.some.inj hp2pkh).symm⟩

/-! ## The watchers of a mempool client -/

namespace SmpvClient

/-- The client is on the main chain. -/
def isMainnet (c : SmpvClient) :
    Bool := c.chainParams.b58prefixPubkeyAddress = keyParamsMain.b58prefixPubkeyAddress

/-- The turn of the loop of `smpv_tx_find_relevant_watcher_address` for an output. -/
def watcherOf (kp : KeyPlatform) (c : SmpvClient) (out : TxOut) : Option Bytes :=
  if out.scriptPubkey.length = 0 then none
  else
    (txOutPubkeyHashToP2pkhAddress kp out c.isMainnet).bind fun outAddress =>
      if c.watcherIndex ≠ [] then
        ((PositionIndex.find c.watcherIndex outAddress).bind fun idx => c.watchers[idx]?).bind
          fun w =>
          if w.isActive then some w.address else none
      else (c.watchers.find? fun w => w.isActive && w.address = outAddress).map SmpvWatcher.address

theorem relevantAddress_eq (c : SmpvClient) (tx : Tx) :
    c.relevantAddress kp tx = (tx.vout.findSome? (c.watcherOf kp)).filter isAddressString := rfl

variable {address : Bytes} {c : SmpvClient} {out : TxOut}

/-- The watcher of an output has the address that is found in its script. -/
theorem watcherOf_eq_some (hc : c.Inv) (h : c.watcherOf kp out = some address) :
    txOutPubkeyHashToP2pkhAddress kp out c.isMainnet = some address := by
  unfold watcherOf at h
  by_cases hempty : out.scriptPubkey.length = 0
  · rw [if_pos hempty] at h
    cases h
  rw [if_neg hempty] at h
  obtain ⟨outAddress, hout, hfound⟩ := Option.bind_eq_some_iff.mp h
  by_cases hindex : c.watcherIndex ≠ []
  · rw [if_pos hindex] at hfound
    obtain ⟨w, hw, hactive⟩ := Option.bind_eq_some_iff.mp hfound
    obtain ⟨idx, hfind, hat⟩ := Option.bind_eq_some_iff.mp hw
    have hkey := hc.watchers.find_eq_some_iff.mp hfind
    rw [addresses, List.getElem?_map, hat] at hkey
    split_ifs at hactive
    rw [hout, ← Option.some.inj hkey]
    exact hactive
  · rw [if_neg hindex] at hfound
    obtain ⟨w, hw, haddress⟩ := Option.map_eq_some_iff.mp hfound
    have hfind := List.find?_some hw
    rw [Bool.and_eq_true, decide_eq_true_eq] at hfind
    rw [hout, ← hfind.2, haddress]

/-- **A relevant transaction** has an output with the address. -/
theorem relevantAddress_eq_some (hc : c.Inv) {tx : Tx}
    (h : c.relevantAddress kp tx = some address) :
    ∃ out ∈ tx.vout, txOutPubkeyHashToP2pkhAddress kp out c.isMainnet = some address := by
  rw [relevantAddress_eq, Option.filter_eq_some_iff] at h
  obtain ⟨out, hout, hwatched⟩ := List.exists_of_findSome?_eq_some h.1
  exact ⟨out, hout, watcherOf_eq_some hc hwatched⟩

/-- A client with one watcher. -/
def watching (kp : KeyPlatform) (address : Bytes) :
    SmpvClient := (new keyParamsMain).call kp (.addWatcher address)

theorem watching_eq (haddress : isAddressString address = true) :
    watching kp address =
      { new keyParamsMain with
        watchers := [⟨address, 0, 0, 0, 0, true⟩], watcherIndex := [(address, 0)] } := by
  show (addWatcher (new keyParamsMain) address).1 = _
  unfold addWatcher
  rw [haddress]
  rfl

theorem reach_watching (haddress : isAddressString address = true) :
    (system kp).Reach (Counted kp) (watching kp address) := by
  have hfits : Fits (watching kp address) := by
    rw [watching_eq haddress]
    exact ⟨Nat.one_lt_two_pow (by decide), Nat.two_pow_pos 32⟩
  exact .step (.init ⟨keyParamsMain, rfl⟩) hfits rfl

/-- The address of any script that seems to hold it is found by its watcher. -/
theorem watcherOf_watching (haddress : isAddressString address = true)
    (hne : out.scriptPubkey.length ≠ 0)
    (hout : txOutPubkeyHashToP2pkhAddress kp out true = some address) :
    (watching kp address).watcherOf kp out = some address := by
  have hfind : PositionIndex.find [(address, 0)] address = some 0 := by
    unfold PositionIndex.find
    rw [List.find?_cons_of_pos (by simp)]
    rfl
  rw [watching_eq haddress]
  unfold watcherOf
  rw [if_neg hne]
  show (txOutPubkeyHashToP2pkhAddress kp out true).bind _ = _
  rw [hout, Option.bind_some, if_pos (List.cons_ne_nil _ _), hfind]
  rfl

end SmpvClient

/-- `dogecoin_smpv_is_tx_relevant` finds the watcher of an address only in an output that pays to
it, for any client. -/
def RelevantRight (kp : KeyPlatform) (txOut : TxOut) : Prop := ∀ c : SmpvClient,
  (SmpvClient.system kp).Reach (SmpvClient.Counted kp) c → ∀ address,
  c.watcherOf kp txOut = some address →
    PaysTo kp (chainOfFlag c.isMainnet) txOut.scriptPubkey address

/-- `finalize_transaction` counts only outputs that pay to the hash of a key. -/
def FinalizeRight (wp : WalletPlatform) (txOut : TxOut) : Prop := ∀ isTestnet,
  TransactionContext.paysToHash wp isTestnet txOut = true → IsP2pkh txOut.scriptPubkey

/-- What a transaction is relevant for is the address of one of its payments, and what is finalized
without change ends in a payment to an address. -/
structure TxRight (wp : WalletPlatform) (tx : Tx) : Prop where
  relevant : ∀ c : SmpvClient, (SmpvClient.system wp.toKeyPlatform).Reach
    (SmpvClient.Counted wp.toKeyPlatform) c →
    ∀ address, c.relevantAddress wp.toKeyPlatform tx = some address →
      ∃ txOut ∈ tx.vout, PaysTo wp.toKeyPlatform (chainOfFlag c.isMainnet)
        txOut.scriptPubkey address
  finalized : ∀ (ctx ctx' : TransactionContext) (txindex : UInt32) (destinationaddress : Bytes)
    (subtractedfee outDoge hex : List Char), ctx.findTransactionTs txindex = some tx →
      ctx.finalizeTransactionTs wp txindex destinationaddress subtractedfee outDoge none =
        some (ctx', some hex) →
        ∃ last, tx.vout.getLast? = some last ∧ IsP2pkh last.scriptPubkey

section
variable (hbase58 : kp.WritesBase58)
include hbase58

theorem relevantRight_iff (txOut : TxOut) :
    RelevantRight kp txOut ↔ txOut.scriptPubkey.length < 25 ∨ IsP2pkh txOut.scriptPubkey := by
  constructor
  · intro hright
    rw [or_iff_not_imp_left]
    intro hlong
    have hout := (txOutPubkeyHashToP2pkhAddress_eq hbase58 txOut true).trans (if_neg hlong)
    have haddress := (isAddressString_p2pkhAddrFromHash160 hbase58
      (scannedHash txOut.scriptPubkey) true).2
    -- a client that watches the address of the hash that is found
    have hwatched := SmpvClient.watcherOf_watching haddress (by omega) hout
    exact (hright _ (SmpvClient.reach_watching haddress) _ hwatched).isP2pkh
  · intro hscript c hreach address hwatched
    have hc := (SmpvClient.inv_of_reach hreach).1
    exact (txOutRight_iff hbase58 txOut).mpr hscript _ _ (SmpvClient.watcherOf_eq_some hc hwatched)

end

section
variable (hbase58 : wp.toKeyPlatform.WritesBase58)
include hbase58

theorem finalizeRight_iff (txOut : TxOut) :
    FinalizeRight wp txOut ↔ txOut.scriptPubkey.length < 25 ∨ IsP2pkh txOut.scriptPubkey := by
  have hpays : ∀ isTestnet, TransactionContext.paysToHash wp isTestnet txOut = true ↔
      ¬ txOut.scriptPubkey.length < 25 := by
    intro isTestnet
    unfold TransactionContext.paysToHash
    rw [txOutPubkeyHashToP2pkhAddress_eq hbase58]
    split_ifs with hshort
    · exact iff_of_false Bool.false_ne_true fun h => h hshort
    · exact iff_of_true rfl hshort
  unfold FinalizeRight
  simp only [hpays, forall_const]
  exact or_iff_not_imp_left.symm

end

/-- What is finalized without change has a last output that was counted. -/
theorem paysToHash_of_finalizeTransactionTs {ctx ctx' : TransactionContext} {txindex : UInt32}
    {destinationaddress : Bytes} {subtractedfee outDoge hex : List Char}
    (hfind : ctx.findTransactionTs txindex = some tx)
    (hrun : ctx.finalizeTransactionTs wp txindex destinationaddress subtractedfee outDoge none =
      some (ctx', some hex)) :
    ∃ last, tx.vout.getLast? = some last ∧
      TransactionContext.paysToHash wp (chainFromB58PrefixBool destinationaddress) last = true := by
  obtain ⟨fee, hfee, out, hout⟩ : ∃ fee, Koinu.coinsToKoinuStr subtractedfee = some fee ∧
      ∃ out, Koinu.coinsToKoinuStr outDoge = some out := by
    unfold TransactionContext.finalizeTransactionTs at hrun
    rw [hfind] at hrun
    obtain ⟨fee, hfee, hrest⟩ := Option.bind_eq_some_iff.mp hrun
    obtain ⟨out, hout, -⟩ := Option.bind_eq_some_iff.mp hrest
    exact ⟨fee, hfee, out, hout⟩
  rcases List.eq_nil_or_concat tx.vout with hnil | ⟨front, last, hvout⟩
  · unfold TransactionContext.finalizeTransactionTs at hrun
    rw [hfind, hfee, hout] at hrun
    dsimp only [Option.bind_eq_bind, Option.bind_some] at hrun
    rw [hnil] at hrun
    cases hrun
  · refine ⟨last, by rw [hvout, List.concat_eq_append, List.getLast?_concat], ?_⟩
    rw [List.concat_eq_append] at hvout
    have hclosing : TransactionContext.closing wp ctx txindex fee out none
      (TransactionContext.outputsSum tx.vout 0) =
        (ctx, TransactionContext.outputsSum tx.vout 0, 0) := rfl
    rw [TransactionContext.finalizeTransactionTs_eq hfind hfee hout hvout hclosing] at hrun
    by_contra hnot
    -- an output that is not counted is one too few
    rw [if_neg hnot, if_pos Nat.one_pos] at hrun
    cases (Prod.mk.inj (Option.some.inj hrun)).2

theorem txRight_of_scripts (hbase58 : wp.toKeyPlatform.WritesBase58)
    (hscripts : ∀ txOut ∈ tx.vout, txOut.scriptPubkey.length < 25 ∨ IsP2pkh txOut.scriptPubkey) :
    TxRight wp tx where
  relevant := by
    intro c hreach address h
    obtain ⟨txOut, hmem, haddress⟩ :=
      SmpvClient.relevantAddress_eq_some (SmpvClient.inv_of_reach hreach).1 h
    exact ⟨txOut, hmem, (txOutRight_iff hbase58 txOut).mpr (hscripts txOut hmem) _ _ haddress⟩
  finalized := by
    intro ctx ctx' txindex destinationaddress subtractedfee outDoge hex hfind hrun
    obtain ⟨last, hlast, hpays⟩ := paysToHash_of_finalizeTransactionTs hfind hrun
    have hright := (finalizeRight_iff hbase58 last).mpr (hscripts last (List.mem_of_getLast? hlast))
    exact ⟨last, hlast, hright _ hpays⟩

/-- **Only payments to an address** are attributed to it, if and only if the script is one, or is
not looked at: the first routine and its callers pass over scripts of less than 25 bytes, and the
wallet over empty ones. -/
theorem attributions_right_iff (hbase58 : wp.toKeyPlatform.WritesBase58) :
    (∀ txOut : TxOut,
      (TxOutRight wp.toKeyPlatform txOut ↔ txOut.scriptPubkey.length < 25 ∨
        IsP2pkh txOut.scriptPubkey) ∧
      (PubkeyHashRight wp txOut.scriptPubkey ↔ IsP2pkh txOut.scriptPubkey) ∧
      (RelevantRight wp.toKeyPlatform txOut ↔ txOut.scriptPubkey.length < 25 ∨
        IsP2pkh txOut.scriptPubkey) ∧
      (FinalizeRight wp txOut ↔ txOut.scriptPubkey.length < 25 ∨ IsP2pkh txOut.scriptPubkey)) ∧
      ∀ tx : Tx,
        (ScrapeRight wp tx ↔ ∀ txOut ∈ tx.vout, txOut.scriptPubkey.length = 0 ∨
          IsP2pkh txOut.scriptPubkey) ∧
        ((∀ txOut ∈ tx.vout, txOut.scriptPubkey.length < 25 ∨ IsP2pkh txOut.scriptPubkey) →
          TxRight wp tx) := by
  constructor
  · intro txOut
    exact ⟨txOutRight_iff hbase58 txOut, pubkeyHashRight_iff txOut.scriptPubkey,
      relevantRight_iff hbase58 txOut, finalizeRight_iff hbase58 txOut⟩
  · intro tx
    exact ⟨scrapeRight_iff tx, txRight_of_scripts hbase58⟩

/-! ## Data with a hash in it -/

/-- A platform for runs on fixed inputs that writes base58. -/
def base58Wallet : WalletPlatform where
  toKeyPlatform := { sampleWallet.toKeyPlatform with
    base58EncodeCheck := fun data =>
      Base58.base58String (data ++ Base58.checksum sampleWallet.toPlatform data) }
  base58DecodeCheck := sampleWallet.base58DecodeCheck

theorem base58Wallet_writesBase58 : base58Wallet.toKeyPlatform.WritesBase58 := by
  intro data str strsize h
  unfold Base58.base58EncodeCheck at h
  split_ifs at h
  rw [Base58.base58Encode_eq] at h
  split_ifs at h
  · cases h
  · exact Option.some.inj h

/-- An output of 24 bytes of data, with a hash behind the first of them. -/
def dataOutput (hash : Uint160) : TxOut where
  value := 1
  scriptPubkey := [opReturn, 24, 0] ++ hash.1 ++ [0, 0, 0]

theorem length_dataOutput (hash : Uint160) : (dataOutput hash).scriptPubkey.length = 26 := by
  show ([opReturn, 24, 0] ++ hash.1 ++ [0, 0, 0]).length = 26
  rw [List.length_append, List.length_append, hash.2]
  rfl

theorem not_isP2pkh_dataOutput (hash : Uint160) : ¬ IsP2pkh (dataOutput hash).scriptPubkey := by
  intro h
  have hlen := h.length_eq
  rw [length_dataOutput] at hlen
  omega

/-- Data with a hash in it is attributed to the address of the hash, and a payment to its own. -/
theorem attributions_right_dataOutput :
    (¬ TxOutRight base58Wallet.toKeyPlatform (dataOutput (Wallet.sampleHash160 1)) ∧
      ¬ PubkeyHashRight base58Wallet (dataOutput (Wallet.sampleHash160 1)).scriptPubkey ∧
      ¬ RelevantRight base58Wallet.toKeyPlatform (dataOutput (Wallet.sampleHash160 1)) ∧
      ¬ FinalizeRight base58Wallet (dataOutput (Wallet.sampleHash160 1))) ∧
      ScrapeRight base58Wallet Wallet.samplePayment ∧
      TxRight base58Wallet Wallet.samplePayment := by
  obtain ⟨houts, htxs⟩ := attributions_right_iff base58Wallet_writesBase58
  obtain ⟨htxOut, hpubkeyHash, hrelevant, hfinalize⟩ := houts (dataOutput (Wallet.sampleHash160 1))
  obtain ⟨hscrape, htx⟩ := htxs Wallet.samplePayment
  have hnot := not_isP2pkh_dataOutput (Wallet.sampleHash160 1)
  have hlong : ¬ ((dataOutput (Wallet.sampleHash160 1)).scriptPubkey.length < 25 ∨
      IsP2pkh (dataOutput (Wallet.sampleHash160 1)).scriptPubkey) := by
    rw [length_dataOutput]
    exact fun h => h.elim (by decide) hnot
  have hpays : ∀ txOut ∈ Wallet.samplePayment.vout, IsP2pkh txOut.scriptPubkey :=
    List.forall_mem_cons.mpr ⟨⟨_, rfl⟩, List.forall_mem_singleton.mpr ⟨_, rfl⟩⟩
  refine ⟨⟨fun h => hlong (htxOut.mp h), fun h => hnot (hpubkeyHash.mp h),
    fun h => hlong (hrelevant.mp h), fun h => hlong (hfinalize.mp h)⟩, ?_, ?_⟩
  · exact hscrape.mpr fun txOut hmem => Or.inr (hpays txOut hmem)
  · exact htx fun txOut hmem => Or.inr (hpays txOut hmem)

/-- Data with a hash in it. -/
theorem not_attributions_right : ¬ ∀ wp : WalletPlatform, wp.toKeyPlatform.WritesBase58 →
    (∀ txOut : TxOut, TxOutRight wp.toKeyPlatform txOut ∧ PubkeyHashRight wp txOut.scriptPubkey ∧
      RelevantRight wp.toKeyPlatform txOut ∧ FinalizeRight wp txOut) ∧ ∀ tx : Tx,
        ScrapeRight wp tx := by
  intro hall
  obtain ⟨-, hscrape⟩ := hall base58Wallet base58Wallet_writesBase58
  have hscripts := (scrapeRight_iff
    { Wallet.samplePayment with vout := [dataOutput (Wallet.sampleHash160 1)] }).mp
    (hscrape _) _ List.mem_cons_self
  rcases hscripts with hempty | hp2pkh
  · rw [length_dataOutput] at hempty
    omega
  · exact not_isP2pkh_dataOutput _ hp2pkh

end Libdogecoin
