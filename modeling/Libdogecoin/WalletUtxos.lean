/-
# The table of unspent outputs

What `dogecoin_wallet_scrape_utxos` does to the table: no entry is ever taken out, an input marks
the entries of its outpoint, and an output to an address of the wallet gets one entry.

* `spendables_markSpent` : an outpoint that is spent is no longer spendable;
* `scrapeUtxos_of_scrapable` : the outputs to addresses of the wallet are entered.
-/
import Libdogecoin.Wallet

namespace Libdogecoin

/-- The outpoint and the amount of an entry. -/
def Utxo.coin (utxo : Utxo) : (Uint256 × ℕ) × List Char := ((utxo.txid, utxo.vout), utxo.amount)

/-- The entries that can be spent. -/
def spendables (table : List Utxo) : List ((Uint256 × ℕ) × List Char) :=
  (table.filter (·.spendable)).map Utxo.coin

/-- The ids in the table were all given out before. -/
def Utxos.Numbered (utxos : Utxos) : Prop := ∀ utxo ∈ utxos.table, utxo.index ≤ utxos.nextIdx

/-- What the table stands for: the outpoints that were ever entered, and the coins that can be
spent. -/
@[ext]
structure TableView where
  outpoints : List (Uint256 × ℕ)
  coins : List ((Uint256 × ℕ) × List Char)

/-- The outpoints are no longer spendable. -/
def TableView.spend (v : TableView) (os : List (Uint256 × ℕ)) : TableView :=
  { v with coins := v.coins.filter fun coin => coin.1 ∉ os }

/-- A coin is entered, unless its outpoint ever was. -/
def TableView.enter (v : TableView) (coin : (Uint256 × ℕ) × List Char) : TableView :=
  if coin.1 ∈ v.outpoints then v
  else { outpoints := v.outpoints ++ [coin.1], coins := v.coins ++ [coin] }

/-- What a table stands for. -/
def Utxos.view (utxos : Utxos) : TableView where
  outpoints := utxos.table.map fun utxo => utxo.coin.1
  coins := spendables utxos.table

@[simp] theorem spendables_append (table table' : List Utxo) :
    spendables (table ++ table') = spendables table ++ spendables table' := by
  unfold spendables
  rw [List.filter_append, List.map_append]

@[simp] theorem TableView.enter_enter (v : TableView) (coin : (Uint256 × ℕ) × List Char) :
    (v.enter coin).enter coin = v.enter coin := by
  by_cases hmem : coin.1 ∈ v.outpoints
  · unfold enter
    rw [if_pos hmem, if_pos hmem]
  · have hnew : coin.1 ∈ (v.enter coin).outpoints := by
      unfold enter
      rw [if_neg hmem]
      exact List.mem_append_right _ List.mem_cons_self
    rw [enter, if_pos hnew]

theorem TableView.mem_enter {v : TableView} {coin : (Uint256 × ℕ) × List Char} {o : Uint256 × ℕ} :
    o ∈ (v.enter coin).outpoints ↔ o ∈ v.outpoints ∨ o = coin.1 := by
  unfold enter
  split_ifs with hmem
  · constructor
    · exact Or.inl
    · rintro (ho | rfl)
      · exact ho
      · exact hmem
  · rw [List.mem_append, List.mem_singleton]

namespace Wallet

variable {wp : WalletPlatform} {txid : Uint256} {vout : ℕ} {outs : List (TxOut × ℕ)}

theorem isEntry_iff {utxo : Utxo} : isEntry txid vout utxo = true ↔ utxo.coin.1 = (txid, vout) := by
  unfold isEntry Utxo.coin
  rw [Bool.and_eq_true, decide_eq_true_eq, decide_eq_true_eq]
  exact Prod.mk_inj.symm

/-! ## Inputs -/

variable {α : Type} {utxos utxos' : Utxos} {w : Wallet}

/-- What is changed of the entries: neither the ids nor the outpoints. -/
theorem map_markSpent (f : Utxo → α)
    (hf : ∀ utxo : Utxo, f { utxo with spendable := false, solvable := false } = f utxo)
    (done rest : List Utxo) :
    (markSpent txid vout done rest).map f = (done ++ rest).map f := by
  induction rest generalizing done with
  | nil => rw [markSpent, List.append_nil]
  | cons utxo rest ih =>
    unfold markSpent
    dsimp only
    split_ifs
    · rw [ih, List.append_assoc]
      simp only [List.map_append, List.map_cons, List.singleton_append, hf]
    · rw [ih, List.append_assoc]
      rfl

/-- The entry for an outpoint is marked, where there is one entry for it. -/
theorem spendables_markSpent {done rest : List Utxo}
    (hnodup : ((done ++ rest).map fun utxo => utxo.coin.1).Nodup) :
    spendables (markSpent txid vout done rest) =
      spendables done ++ (spendables rest).filter fun coin => coin.1 ≠ (txid, vout) := by
  induction rest generalizing done with
  | nil =>
    rw [markSpent]
    exact (List.append_nil _).symm
  | cons utxo rest ih =>
    have hcons : ∀ u : Utxo, u.coin = utxo.coin →
      ((done ++ [u] ++ rest).map fun utxo => utxo.coin.1).Nodup := by
      intro u hu
      rw [List.append_assoc, List.map_append, List.singleton_append, List.map_cons, hu]
      rw [List.map_append, List.map_cons] at hnodup
      exact hnodup
    unfold markSpent
    dsimp only
    split_ifs with hmark
    · -- the entry is found, and marked
      rw [Bool.and_eq_true] at hmark
      have hcoin := isEntry_iff.mp hmark.1
      rw [ih (hcons { utxo with spendable := false, solvable := false } rfl), spendables_append]
      by_cases hspendable : utxo.spendable = true
      · simp [spendables, hspendable, hcoin]
      · simp [spendables, hspendable]
    · rw [ih (hcons utxo rfl), spendables_append]
      by_cases hentry : isEntry txid vout utxo = true
      · -- a marked entry for the outpoint is there, which is this one
        rw [hentry, Bool.true_and, Bool.not_eq_true, Bool.not_eq_false'] at hmark
        obtain ⟨spent, hspent, hprops⟩ := List.any_eq_true.mp hmark
        rw [Bool.and_eq_true, Bool.not_eq_true'] at hprops
        have hsame : spent = utxo := by
          apply List.inj_on_of_nodup_map hnodup hspent
            (List.mem_append_right _ List.mem_cons_self)
          rw [isEntry_iff.mp hprops.2, isEntry_iff.mp hentry]
        rw [hsame] at hprops
        simp [spendables, hprops.1]
      · have hcoin : utxo.coin.1 ≠ (txid, vout) := fun heq => hentry (isEntry_iff.mpr heq)
        by_cases hspendable : utxo.spendable = true
        · simp [spendables, hspendable, hcoin]
        · simp [spendables, hspendable]

theorem Utxos.Numbered.of_map (h : utxos.Numbered)
    (hmap : utxos'.table.map Utxo.index = utxos.table.map Utxo.index)
    (hnext : utxos'.nextIdx = utxos.nextIdx) :
    utxos'.Numbered := by
  intro utxo hutxo
  have hindex : utxo.index ∈ utxos.table.map Utxo.index := hmap ▸ List.mem_map_of_mem hutxo
  obtain ⟨old, hold, heq⟩ := List.mem_map.mp hindex
  rw [hnext, ← heq]
  exact h old hold

/-- The outpoint of an input, as the table writes it. -/
def tableOutpoint (txIn : TxIn) : Uint256 × ℕ := (swapBytes txIn.prevout.hash, txIn.prevout.n.toNat)

theorem map_scrapeInputs (f : Utxo → α)
    (hf : ∀ utxo : Utxo, f { utxo with spendable := false, solvable := false } = f utxo) (tx : Tx)
    (utxos : Utxos) :
    (scrapeInputs tx utxos).table.map f = utxos.table.map f ∧
      (scrapeInputs tx utxos).nextIdx = utxos.nextIdx := by
  unfold scrapeInputs
  induction tx.vin generalizing utxos with
  | nil => exact ⟨rfl, rfl⟩
  | cons txIn vin ih =>
    rw [List.foldl_cons, (ih _).1, (ih _).2]
    exact ⟨map_markSpent f hf [] utxos.table, rfl⟩

theorem numbered_scrapeInputs (h : utxos.Numbered) (tx : Tx) :
    (scrapeInputs tx utxos).Numbered := by
  obtain ⟨hindex, hnext⟩ := map_scrapeInputs Utxo.index (fun _ => rfl) tx utxos
  exact Utxos.Numbered.of_map h hindex hnext

theorem outpoints_scrapeInputs (tx : Tx) (utxos : Utxos) :
    (scrapeInputs tx utxos).view.outpoints = utxos.view.outpoints :=
  (map_scrapeInputs (fun utxo => utxo.coin.1) (fun _ => rfl) tx utxos).1

/-- **The loop over the inputs.** -/
theorem view_scrapeInputs (tx : Tx) (hnodup : utxos.view.outpoints.Nodup) :
    (scrapeInputs tx utxos).view = utxos.view.spend (tx.vin.map tableOutpoint) := by
  refine TableView.ext (outpoints_scrapeInputs tx utxos) ?_
  show spendables (scrapeInputs tx utxos).table = (spendables utxos.table).filter _
  unfold scrapeInputs
  induction tx.vin generalizing utxos with
  | nil =>
    symm
    rw [List.foldl_nil, List.filter_eq_self]
    intro coin _
    exact decide_eq_true List.not_mem_nil
  | cons txIn vin ih =>
    have hkeep : ((markSpent (swapBytes txIn.prevout.hash) txIn.prevout.n.toNat [] utxos.table).map
        fun utxo => utxo.coin.1) = utxos.table.map fun utxo => utxo.coin.1 :=
      map_markSpent (fun utxo => utxo.coin.1) (fun _ => rfl) [] utxos.table
    rw [List.foldl_cons, ih (by rw [Utxos.view, hkeep]; exact hnodup)]
    dsimp only
    rw [@spendables_markSpent _ _ [] utxos.table hnodup]
    show List.filter _ (List.filter _ (spendables utxos.table)) = _
    rw [List.filter_filter]
    apply List.filter_congr
    intro coin _
    rw [← Bool.decide_and]
    apply decide_eq_decide.mpr
    rw [List.map_cons, List.mem_cons, not_or]
    exact and_comm

/-! ## Outputs -/

theorem map_setHeight (f : Utxo → α) {height : UInt32}
    (hf : ∀ utxo : Utxo, f { utxo with height := height } = f utxo) (table : List Utxo) :
    (setHeight txid vout height table).map f = table.map f := by
  induction table with
  | nil => rfl
  | cons utxo rest ih =>
    unfold setHeight
    split_ifs
    · rw [List.map_cons, List.map_cons, hf]
    · rw [List.map_cons, List.map_cons, ih]

theorem spendables_setHeight {height : UInt32} (table : List Utxo) :
    spendables (setHeight txid vout height table) = spendables table := by
  induction table with
  | nil => rfl
  | cons utxo rest ih =>
    unfold setHeight
    split_ifs
    · by_cases hspendable : utxo.spendable = true
      · simp [spendables, Utxo.coin, hspendable]
      · simp [spendables, hspendable]
    · show spendables ([utxo] ++ _) = spendables ([utxo] ++ rest)
      rw [spendables_append, spendables_append, ih]

variable {height : UInt32} {p2pkh : Bytes} {txOut : TxOut}

/-- The coin that an output becomes in the table. -/
def tableCoin (txid : Uint256) (vout : ℕ) (txOut : TxOut) : (Uint256 × ℕ) × List Char :=
  ((txid, vout), (Koinu.koinuToCoinsStr txOut.value 22).getD [])

/-- **An output is entered**, or an entry for it gets another height. -/
theorem view_recordOutput {utxos : Utxos} (h : utxos.Numbered) :
    (recordOutput txid height p2pkh txOut vout utxos).view = utxos.view.enter
    (tableCoin txid vout txOut) ∧
      (recordOutput txid height p2pkh txOut vout utxos).Numbered := by
  have hany : utxos.table.any (isEntry txid vout) = true ↔
      (tableCoin txid vout txOut).1 ∈ utxos.view.outpoints := by
    rw [List.any_eq_true]
    constructor
    · rintro ⟨utxo, hmem, hentry⟩
      exact List.mem_map.mpr ⟨utxo, hmem, isEntry_iff.mp hentry⟩
    · intro hmem
      obtain ⟨utxo, hmem, hcoin⟩ := List.mem_map.mp hmem
      exact ⟨utxo, hmem, isEntry_iff.mpr hcoin⟩
  unfold recordOutput TableView.enter
  by_cases hentry : utxos.table.any (isEntry txid vout) = true
  · rw [if_pos hentry, if_pos (hany.mp hentry)]
    constructor
    · refine TableView.ext (map_setHeight (fun utxo => utxo.coin.1) (fun _ => rfl) _) ?_
      exact spendables_setHeight _
    · exact Utxos.Numbered.of_map h (map_setHeight Utxo.index (fun _ => rfl) _) rfl
  · have hfresh : ¬ utxos.table.any (fun utxo => decide (utxo.index = utxos.nextIdx + 1)) =
      true := by
      rw [List.any_eq_true]
      rintro ⟨utxo, hmem, hindex⟩
      have hle := h utxo hmem
      have heq := of_decide_eq_true hindex
      omega
    rw [if_neg hentry, if_neg (fun hmem => hentry (hany.mpr hmem))]
    dsimp only
    rw [if_neg hfresh]
    constructor
    · refine TableView.ext ?_ ?_
      · show List.map _ (utxos.table ++ [_]) = _
        rw [List.map_append]
        rfl
      · exact spendables_append _ _
    · intro utxo hutxo
      rcases List.mem_append.mp hutxo with hutxo | hutxo
      · exact Nat.le_succ_of_le (h utxo hutxo)
      · rw [List.mem_singleton.mp hutxo]

/-- The loop over the addresses of the wallet. -/
theorem view_recordOutputs {utxos : Utxos} (h : utxos.Numbered) (addrs : List Bytes) :
    (addrs.foldl (fun utxos addr => if p2pkh.take 34 = addr.take 34 then
        recordOutput txid height p2pkh txOut vout utxos else utxos) utxos).view =
      (if addrs.any (fun addr => p2pkh.take 34 = addr.take 34) then
        utxos.view.enter (tableCoin txid vout txOut) else utxos.view) ∧
      (addrs.foldl (fun utxos addr => if p2pkh.take 34 = addr.take 34 then
        recordOutput txid height p2pkh txOut vout utxos else utxos) utxos).Numbered := by
  induction addrs generalizing utxos with
  | nil => exact ⟨rfl, h⟩
  | cons addr addrs ih =>
    rw [List.foldl_cons, List.any_cons]
    by_cases hmatch : p2pkh.take 34 = addr.take 34
    · obtain ⟨hview, hnum⟩ := @view_recordOutput txid vout height p2pkh txOut utxos h
      rw [if_pos hmatch, decide_eq_true hmatch, Bool.true_or, if_pos rfl]
      refine ⟨?_, (ih hnum).2⟩
      rw [(ih hnum).1, hview]
      split_ifs
      · exact TableView.enter_enter _ _
      · rfl
    · rw [if_neg hmatch, decide_eq_false hmatch, Bool.false_or]
      exact ih h

theorem pubkeyHashToP2pkhAddress_p2pkhScript (hash : Uint160) (chain : WalletParams) :
    pubkeyHashToP2pkhAddress wp (p2pkhScript hash) chain =
      some (wp.p2pkhAddrFromHash160 hash chain.toKeyParams) := by
  have hpush : ((p2pkhScript hash).drop 2).take ((p2pkhScript hash).length - 6) =
      20 :: (hash.1 ++ [opEqualverify, opChecksig]).take 18 := by
    rw [length_p2pkhScript]
    rfl
  have htake : ((p2pkhScript hash).drop 3).take 20 = hash.1 := List.take_left' hash.2
  have hstripped : (((p2pkhScript hash).drop 2).take ((p2pkhScript hash).length - 6)).any
      (fun b => b ≠ opDup ∧ b ≠ opHash160 ∧ b ≠ opEqualverify ∧ b ≠ opChecksig) = true := by
    rw [hpush, List.any_cons]
    rfl
  have hlen : ¬ ((p2pkhScript hash).length < 20 ∨
    (true = true ∧ (p2pkhScript hash).length < 23)) := by
    rw [length_p2pkhScript]
    omega
  unfold pubkeyHashToP2pkhAddress
  dsimp only
  rw [hstripped, if_neg hlen]
  simp only [if_true, htake]
  rw [dif_pos hash.2]

/-- One of the addresses of the wallet is the one in an output, as far as the table compares
them. -/
def listsAddress (wp : WalletPlatform) (w : Wallet) (p2pkh : Bytes) : Bool :=
  (w.getAddresses wp).any fun addr => p2pkh.take 34 = addr.take 34

/-- The output pays to such an address. -/
def paysAddress (wp : WalletPlatform) (w : Wallet) (txOut : TxOut) : Bool :=
  (pubkeyHashToP2pkhAddress wp txOut.scriptPubkey w.chain).any (w.listsAddress wp)

/-- Nothing outside of the script is read. -/
def Scrapable (wp : WalletPlatform) (w : Wallet) (txOut : TxOut) : Prop :=
  w.waddrVector.length = 0 ∨ txOut.scriptPubkey.length = 0 ∨
    (pubkeyHashToP2pkhAddress wp txOut.scriptPubkey w.chain).isSome = true

theorem scrapable_p2pkh (h : ∃ hash, txOut.scriptPubkey = p2pkhScript hash) :
    w.Scrapable wp txOut := by
  obtain ⟨hash, hscript⟩ := h
  right
  right
  rw [hscript, pubkeyHashToP2pkhAddress_p2pkhScript]
  rfl

theorem paysAddress_p2pkh {hash : Uint160} (hscript : txOut.scriptPubkey = p2pkhScript hash) :
    w.paysAddress wp txOut = w.listsAddress wp
      (wp.p2pkhAddrFromHash160 hash w.chain.toKeyParams) := by
  unfold paysAddress
  rw [hscript, pubkeyHashToP2pkhAddress_p2pkhScript]
  rfl

/-- One turn of the loop over the outputs. -/
theorem scrapeOutput_of_scrapable {w : Wallet} {utxos : Utxos} (h : utxos.Numbered)
    (hread : w.Scrapable wp txOut) :
    ∃ utxos', scrapeOutput wp w txid height txOut vout utxos = some utxos' ∧
      utxos'.view = (if w.paysAddress wp txOut then utxos.view.enter (tableCoin txid vout txOut)
        else utxos.view) ∧ utxos'.Numbered := by
  unfold scrapeOutput
  by_cases hempty : w.waddrVector.length = 0 ∨ txOut.scriptPubkey.length = 0
  · have hpays : w.paysAddress wp txOut = false := by
      unfold paysAddress
      rcases hempty with hnone | hnone
      · cases pubkeyHashToP2pkhAddress wp txOut.scriptPubkey w.chain with
        | none => rfl
        | some p2pkh =>
          show w.listsAddress wp p2pkh = false
          unfold listsAddress getAddresses
          rw [List.length_eq_zero_iff.mp hnone]
          rfl
      · rw [List.length_eq_zero_iff.mp hnone]
        rfl
    rw [if_pos hempty, hpays]
    exact ⟨utxos, rfl, rfl, h⟩
  · obtain ⟨p2pkh, hp2pkh⟩ : ∃ p2pkh, pubkeyHashToP2pkhAddress wp txOut.scriptPubkey w.chain =
      some p2pkh := by
      apply Option.isSome_iff_exists.mp
      rcases hread with hnone | hnone | hsome
      · exact absurd (Or.inl hnone) hempty
      · exact absurd (Or.inr hnone) hempty
      · exact hsome
    obtain ⟨hview, hnum⟩ := @view_recordOutputs txid vout height p2pkh txOut utxos h
      (w.getAddresses wp)
    unfold paysAddress
    rw [if_neg hempty, hp2pkh]
    exact ⟨_, rfl, hview, hnum⟩

/-- The loop over the outputs. -/
theorem foldlM_scrapeOutput (h : utxos.Numbered) (hread : ∀ out ∈ outs, w.Scrapable wp out.1) :
    ∃ utxos', outs.foldlM (fun utxos (out : TxOut × ℕ) =>
        scrapeOutput wp w txid height out.1 out.2 utxos) utxos = some utxos' ∧
      utxos'.view = ((outs.filter fun out => w.paysAddress wp out.1).map fun out =>
        tableCoin txid out.2 out.1).foldl TableView.enter utxos.view ∧ utxos'.Numbered := by
  induction outs generalizing utxos with
  | nil => exact ⟨utxos, rfl, rfl, h⟩
  | cons out outs ih =>
    obtain ⟨utxos₁, hstep, hview₁, hnum₁⟩ :=
      @scrapeOutput_of_scrapable wp txid out.2 height out.1 w utxos h (hread out List.mem_cons_self)
    obtain ⟨utxos₂, hrest, hview₂, hnum₂⟩ := ih hnum₁ fun o ho =>
      hread o (List.mem_cons_of_mem _ ho)
    refine ⟨utxos₂, ?_, ?_, hnum₂⟩
    · rw [List.foldlM_cons, hstep]
      exact hrest
    · rw [hview₂, hview₁, List.filter_cons]
      split_ifs
      · rfl
      · rfl

/-- The coins that the outputs to addresses of the wallet become in the table. -/
abbrev tableCoins (w : Wallet) (wp : WalletPlatform) (tx : Tx) : List ((Uint256 × ℕ) × List Char) :=
  (tx.vout.zipIdx.filter fun out => w.paysAddress wp out.1).map fun out =>
    tableCoin (swapBytes (txHash wp.toPlatform tx)) out.2 out.1

/-- **A transaction is entered into the table.** -/
theorem scrapeUtxos_of_scrapable {w : Wallet} {wtx : Wtx} {utxos : Utxos} (h : utxos.Numbered)
    (hread : ∀ out ∈ wtx.tx.vout, w.Scrapable wp out) :
    ∃ utxos', w.scrapeUtxos wp wtx utxos = some utxos' ∧
      utxos'.view = (w.tableCoins wp wtx.tx).foldl TableView.enter
        (scrapeInputs wtx.tx utxos).view ∧
        utxos'.Numbered := by
  refine foldlM_scrapeOutput (numbered_scrapeInputs h wtx.tx) ?_
  intro out hout
  exact hread out.1 (List.fst_mem_of_mem_zipIdx hout)

/-- Where the loop has a result, nothing outside of the scripts was read. -/
theorem scrapable_of_foldlM
    (h : outs.foldlM (fun utxos (out : TxOut × ℕ) =>
      scrapeOutput wp w txid height out.1 out.2 utxos) utxos =
      some utxos') :
    ∀ out ∈ outs, w.Scrapable wp out.1 := by
  induction outs generalizing utxos with
  | nil => exact fun out hout => absurd hout List.not_mem_nil
  | cons out outs ih =>
    obtain ⟨utxos₁, hstep, hrest⟩ := Option.bind_eq_some_iff.mp h
    refine List.forall_mem_cons.mpr ⟨?_, ih hrest⟩
    unfold scrapeOutput at hstep
    dsimp only at hstep
    split_ifs at hstep with hempty
    · rcases hempty with hnone | hnone
      · exact Or.inl hnone
      · exact Or.inr (Or.inl hnone)
    · obtain ⟨p2pkh, hp2pkh, -⟩ := Option.map_eq_some_iff.mp hstep
      right
      right
      rw [hp2pkh]
      rfl

theorem scrapable_of_scrapeUtxos {wtx : Wtx} (h : w.scrapeUtxos wp wtx utxos = some utxos') :
    ∀ out ∈ wtx.tx.vout, w.Scrapable wp out := by
  intro out hout
  obtain ⟨n, hn, rfl⟩ := List.getElem_of_mem hout
  exact scrapable_of_foldlM h (wtx.tx.vout[n], n)
    (List.mem_zipIdx_iff_getElem?.mpr (List.getElem?_eq_getElem hn))

end Wallet

/-! ## Entering coins -/

namespace TableView

theorem mem_foldl_enter {coins : List ((Uint256 × ℕ) × List Char)} {v : TableView}
    {o : Uint256 × ℕ} :
    o ∈ (coins.foldl enter v).outpoints ↔ o ∈ v.outpoints ∨ o ∈ coins.map Prod.fst := by
  induction coins generalizing v with
  | nil => simp
  | cons coin coins ih =>
    rw [List.foldl_cons, ih, mem_enter, List.map_cons, List.mem_cons, or_assoc]

/-- New coins are all entered. -/
theorem foldl_enter_of_new {coins : List ((Uint256 × ℕ) × List Char)} {v : TableView}
    (hnodup : (coins.map Prod.fst).Nodup) (hnew : ∀ coin ∈ coins, coin.1 ∉ v.outpoints) :
    coins.foldl enter v =
      { outpoints := v.outpoints ++ coins.map Prod.fst, coins := v.coins ++ coins } := by
  induction coins generalizing v with
  | nil =>
    rw [List.foldl_nil, List.map_nil, List.append_nil, List.append_nil]
  | cons coin coins ih =>
    rw [List.map_cons, List.nodup_cons] at hnodup
    have henter : v.enter coin = ⟨v.outpoints ++ [coin.1], v.coins ++ [coin]⟩ :=
      if_neg (hnew coin List.mem_cons_self)
    have hrest : ∀ c ∈ coins, c.1 ∉ (v.enter coin).outpoints := by
      intro c hc hmem
      rcases mem_enter.mp hmem with hold | heq
      · exact hnew c (List.mem_cons_of_mem _ hc) hold
      · exact hnodup.1 (heq ▸ List.mem_map_of_mem hc)
    rw [List.foldl_cons, ih hnodup.2 hrest, henter, List.map_cons, List.append_assoc,
      List.append_assoc]
    rfl

end TableView

end Libdogecoin
