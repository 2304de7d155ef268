/-
# Enumerating the table of unspent outputs

The ids of the table are handed out once, in 32 bits, and never again. Two functions still count
through the table from id 1 up to the number of entries, and read what they find without a check.

* `enumerationRight_iff` : this is right when the ids are exactly these numbers;
* `consecutive_call_iff` : the steps that keep them so;
* `enumerationRight_of_reach` : the operations all of whose steps do so leave a table that is
  enumerated right.
-/
import Libdogecoin.Transition
import Libdogecoin.Wallet
import Mathlib.Data.List.Perm.Subperm

namespace Libdogecoin

/-- `utxos`, in the order of insertion, and `utxo_next_idx`. The id of an entry is the number of its
32 bits. -/
structure UtxoTable where
  table : List Utxo
  nextIdx : UInt32

namespace UtxoTable

/-! ## The table -/

/-- `find_dogecoin_utxo`. -/
def find (s : UtxoTable) (index : ℕ) : Option Utxo := s.table.find? (·.index = index)

/-- `add_dogecoin_utxo` : an id that is taken is declined. -/
def add (s : UtxoTable) (utxo : Utxo) : UtxoTable :=
  match s.find utxo.index with
  | none => { s with table := s.table ++ [utxo] }
  | some _ => s

/-- `new_dogecoin_utxo`, filled in and added. -/
def mint (s : UtxoTable) (utxo : Utxo) : UtxoTable :=
  { s with nextIdx := s.nextIdx + 1 }.add { utxo with index := (s.nextIdx + 1).toNat }

/-- `dogecoin_wallet_utxo_new`. -/
def utxoNew : Utxo where
  index := 0
  txid := Uint256.zero
  vout := 0
  address := []
  amount := []
  confirmations := 0
  height := 0
  spendable := true
  solvable := true

/-- `remove_dogecoin_utxo`, which takes an entry of the table. -/
def remove (s : UtxoTable) (index : ℕ) : Option UtxoTable :=
  (s.find index).map fun utxo => { s with table := s.table.erase utxo }

/-- An output to an address of a wallet: a new entry, or another height for the one that is
there. -/
def record (s : UtxoTable) (txid : Uint256) (vout : ℕ) (address : Bytes) (amount : List Char)
    (height : UInt32) : UtxoTable :=
  if s.table.any (Wallet.isEntry txid vout) then
    { s with table := Wallet.setHeight txid vout height s.table }
  else
    s.mint { index := 0, txid := txid, vout := vout, address := address, amount := amount
             confirmations := 0, height := height, spendable := true, solvable := true }

/-! ## The enumerations -/

/-- `HASH_COUNT`. -/
def hashCount (s : UtxoTable) : ℕ := s.table.length % 2 ^ 32

/-- The entries that are read by the ids `1` to `HASH_COUNT`. A missing one is a null pointer. -/
def visited (s : UtxoTable) : Option (List Utxo) :=
  (List.range s.hashCount).mapM fun i => s.find ((i + 1) % 2 ^ 32)

/-- `dogecoin_wallet_get_unspent`. -/
def getUnspent (s : UtxoTable) :
    Option (List Utxo) := s.visited.map fun us => us.filter (·.spendable)

/-- **The enumerations are right**: nothing is read that is not there, `dogecoin_wallet_get_unspent`
returns every spendable entry once, and `dogecoin_get_utxos` visits every entry. -/
structure EnumerationRight (s : UtxoTable) : Prop where
  getUnspent : ∃ us, s.getUnspent = some us ∧ us.Perm (s.table.filter (·.spendable))
  getUtxos : ∃ us, s.visited = some us ∧ us.Perm s.table

/-! ## Steps -/

/-- What happens to the table. -/
inductive Call where
  | start
  | add (index : UInt32) (utxo : Utxo)
  | remove (index : UInt32)
  | removeAll
  | spend (txid : Uint256) (vout : ℕ)
  | record (txid : Uint256) (vout : ℕ) (address : Bytes) (amount : List Char) (height : UInt32)

/-- The table after a call. -/
def call (s : UtxoTable) : Call → Option UtxoTable
  | .start => some (s.mint utxoNew)
  | .add index utxo => some (s.add { utxo with index := index.toNat })
  | .remove index => s.remove index.toNat
  | .removeAll => some { s with table := [] }
  | .spend txid vout => some { s with table := Wallet.markSpent txid vout [] s.table }
  | .record txid vout address amount height => some (s.record txid vout address amount height)

/-- The table of a thread, call by call. -/
def callSystem : TransitionSystem UtxoTable Call where
  init s := s = ⟨[], 0⟩
  step := call

/-- The outputs of a transaction that go to addresses of the wallet. -/
def outputCalls (wp : WalletPlatform) (w : Wallet) (wtx : Wtx) (txOut : TxOut) (vout : ℕ) :
    Option (List Call) :=
  if w.waddrVector.length = 0 ∨ txOut.scriptPubkey.length = 0 then some []
  else (Wallet.pubkeyHashToP2pkhAddress wp txOut.scriptPubkey w.chain).map fun p2pkh =>
    ((w.getAddresses wp).filter fun addr => p2pkh.take 34 = addr.take 34).map fun _ =>
      .record (swapBytes (txHash wp.toPlatform wtx.tx)) vout p2pkh
        ((Koinu.koinuToCoinsStr txOut.value 22).getD []) wtx.height

/-- `dogecoin_wallet_scrape_utxos` : the inputs, then the outputs. -/
def scrapeCalls (wp : WalletPlatform) (w : Wallet) (wtx : Wtx) : Option (List Call) :=
  let inputs : List Call := wtx.tx.vin.map fun txIn =>
    .spend (swapBytes txIn.prevout.hash) txIn.prevout.n.toNat
  (wtx.tx.vout.zipIdx.mapM fun out => outputCalls wp w wtx out.1 out.2).map fun outputs =>
    inputs ++ outputs.flatten

/-- An operation on the table. A wallet that is loaded scrapes each of its transactions, with the
addresses that were read before it. -/
inductive Op where
  | startDogecoinUtxo
  | addDogecoinUtxo (index : UInt32) (utxo : Utxo)
  | removeDogecoinUtxo (index : UInt32)
  | removeAllUtxos
  | scrapeUtxos (w : Wallet) (wtx : Wtx)
  | walletLoad (scrapes : List (Wallet × Wtx))
  | walletFree

/-- The calls of an operation. -/
def Op.calls (wp : WalletPlatform) : Op → Option (List Call)
  | .startDogecoinUtxo => some [.start]
  | .addDogecoinUtxo index utxo => some [.add index utxo]
  | .removeDogecoinUtxo index => some [.remove index]
  | .removeAllUtxos => some [.removeAll]
  | .scrapeUtxos w wtx => scrapeCalls wp w wtx
  | .walletLoad scrapes => (scrapes.mapM fun scrape =>
    scrapeCalls wp scrape.1 scrape.2).map List.flatten
  | .walletFree => some [.removeAll]

/-- The table of a thread, operation by operation. -/
def system (wp : WalletPlatform) : TransitionSystem UtxoTable Op where
  init s := s = ⟨[], 0⟩
  step s op := (op.calls wp).bind (callSystem.run s)

/-! ## Distinct ids -/

/-- The ids in the table. -/
def ids (s : UtxoTable) : List ℕ := s.table.map Utxo.index

/-- The ids are distinct numbers of 32 bits. -/
structure Distinct (s : UtxoTable) : Prop where
  nodup : s.ids.Nodup
  lt : ∀ k ∈ s.ids, k < 2 ^ 32

variable {s s' : UtxoTable} {k : ℕ} {c : Call} {ks : List ℕ} {utxo : Utxo}

theorem find_eq_some (h : s.find k = some utxo) : utxo ∈ s.table ∧ utxo.index = k := by
  have hkey := List.find?_some h
  exact ⟨List.mem_of_find?_eq_some h, of_decide_eq_true hkey⟩

theorem find_eq_none_iff : s.find k = none ↔ k ∉ s.ids := by
  unfold find ids
  rw [List.find?_eq_none]
  simp only [decide_eq_true_eq, List.mem_map, not_exists, not_and]

/-- An id more, unless it is taken. -/
def insertId (s : UtxoTable) (k : ℕ) : List ℕ := if k ∈ s.ids then s.ids else s.ids ++ [k]

theorem ids_add (s : UtxoTable) (utxo : Utxo) : (s.add utxo).ids = s.insertId utxo.index := by
  unfold add insertId
  cases hfind : s.find utxo.index with
  | none =>
    rw [if_neg (find_eq_none_iff.mp hfind)]
    exact List.map_append
  | some other =>
    have hmem : utxo.index ∈ s.ids := by
      by_contra hnot
      rw [find_eq_none_iff.mpr hnot] at hfind
      cases hfind
    rw [if_pos hmem]

theorem ids_mint (s : UtxoTable) (utxo : Utxo) :
    (s.mint utxo).ids = s.insertId (s.nextIdx + 1).toNat :=
  ids_add _ _

/-- An entry leaves the table with its id. -/
theorem map_index_erase {table : List Utxo} (hnodup : (table.map Utxo.index).Nodup)
    (hmem : utxo ∈ table) :
    (table.erase utxo).map Utxo.index = (table.map Utxo.index).erase utxo.index := by
  induction table with
  | nil => cases hmem
  | cons other table ih =>
    by_cases hother : other = utxo
    · subst hother
      rw [List.erase_cons_head, List.map_cons, List.erase_cons_head]
    · have hmem' : utxo ∈ table := (List.mem_cons.mp hmem).resolve_left fun h => hother h.symm
      rw [List.map_cons, List.nodup_cons] at hnodup
      have hne : ¬ (other.index == utxo.index) = true := by
        rw [beq_iff_eq]
        exact fun h => hnodup.1 (h ▸ List.mem_map_of_mem hmem')
      rw [List.erase_cons_tail (by simpa using hother), List.map_cons, List.map_cons,
        List.erase_cons_tail hne, ih hnodup.2 hmem']

theorem ids_remove (hs : s.Distinct) (h : s.remove k = some s') :
    k ∈ s.ids ∧ s'.ids = s.ids.erase k := by
  obtain ⟨utxo, hfind, rfl⟩ := Option.map_eq_some_iff.mp h
  obtain ⟨hmem, rfl⟩ := find_eq_some hfind
  exact ⟨List.mem_map_of_mem hmem, map_index_erase hs.nodup hmem⟩

theorem ids_markSpent (txid : Uint256) (vout : ℕ) (done table : List Utxo) :
    (Wallet.markSpent txid vout done table).map Utxo.index = (done ++ table).map Utxo.index := by
  induction table generalizing done with
  | nil =>
    unfold Wallet.markSpent
    rw [List.append_nil]
  | cons utxo table ih =>
    unfold Wallet.markSpent
    dsimp only
    split
    · rw [ih]
      simp
    · rw [ih]
      simp

theorem ids_setHeight (txid : Uint256) (vout : ℕ) (height : UInt32) (table : List Utxo) :
    (Wallet.setHeight txid vout height table).map Utxo.index = table.map Utxo.index := by
  induction table with
  | nil => rfl
  | cons utxo table ih =>
    unfold Wallet.setHeight
    split
    · rfl
    · rw [List.map_cons, List.map_cons, ih]

/-- The ids behind a call. -/
def idsAfter (s : UtxoTable) : Call → List ℕ
  | .start => s.insertId (s.nextIdx + 1).toNat
  | .add index _ => s.insertId index.toNat
  | .remove index => s.ids.erase index.toNat
  | .removeAll => []
  | .spend _ _ => s.ids
  | .record txid vout _ _ _ =>
    if s.table.any (Wallet.isEntry txid vout) then s.ids else s.insertId (s.nextIdx + 1).toNat

/-- **What a call does to the ids.** -/
theorem ids_call (hs : s.Distinct) (h : s.call c = some s') : s'.ids = s.idsAfter c := by
  cases c with
  | start =>
    obtain rfl := Option.some.inj h
    exact ids_mint s utxoNew
  | add index utxo =>
    obtain rfl := Option.some.inj h
    exact ids_add s _
  | remove index => exact (ids_remove hs h).2
  | removeAll =>
    obtain rfl := Option.some.inj h
    rfl
  | spend txid vout =>
    obtain rfl := Option.some.inj h
    exact ids_markSpent txid vout [] s.table
  | record txid vout address amount height =>
    obtain rfl := Option.some.inj h
    show (s.record txid vout address amount height).ids =
      if s.table.any (Wallet.isEntry txid vout) then s.ids else s.insertId (s.nextIdx + 1).toNat
    unfold record
    by_cases hentry : s.table.any (Wallet.isEntry txid vout) = true
    · rw [if_pos hentry, if_pos hentry]
      exact ids_setHeight txid vout height s.table
    · rw [if_neg hentry, if_neg hentry]
      exact ids_mint s _

theorem distinct_insertId (hs : s.Distinct) (hk : k < 2 ^ 32) :
    (s.insertId k).Nodup ∧ ∀ j ∈ s.insertId k, j < 2 ^ 32 := by
  unfold insertId
  split
  · exact ⟨hs.nodup, hs.lt⟩
  next hnew =>
    refine ⟨List.nodup_append.mpr ⟨hs.nodup, List.nodup_singleton k, ?_⟩, ?_⟩
    · intro a ha b hb
      rw [List.mem_singleton.mp hb]
      rintro rfl
      exact hnew ha
    · intro j hj
      rcases List.mem_append.mp hj with hj | hj
      · exact hs.lt j hj
      · rwa [List.mem_singleton.mp hj]

/-- The ids stay distinct. -/
theorem distinct_call (hs : s.Distinct) (h : s.call c = some s') : s'.Distinct := by
  have hboth : (s.idsAfter c).Nodup ∧ ∀ j ∈ s.idsAfter c, j < 2 ^ 32 := by
    cases c with
    | start => exact distinct_insertId hs (s.nextIdx + 1).toNat_lt
    | add index utxo => exact distinct_insertId hs index.toNat_lt
    | remove index =>
      exact ⟨hs.nodup.erase _, fun j hj => hs.lt j (List.mem_of_mem_erase hj)⟩
    | removeAll => exact ⟨List.nodup_nil, by simp [idsAfter]⟩
    | spend txid vout => exact ⟨hs.nodup, hs.lt⟩
    | record txid vout address amount height =>
      have hinsert := distinct_insertId hs (s.nextIdx + 1).toNat_lt
      by_cases hentry : s.table.any (Wallet.isEntry txid vout) = true
      · rw [idsAfter, if_pos hentry]
        exact ⟨hs.nodup, hs.lt⟩
      · rw [idsAfter, if_neg hentry]
        exact hinsert
  rw [← ids_call hs h] at hboth
  exact ⟨hboth.1, hboth.2⟩

/-! ## Consecutive ids -/

/-- The numbers from 1 to the length of the list. -/
def Consecutive (ks : List ℕ) : Prop := ∀ k ∈ ks, 1 ≤ k ∧ k ≤ ks.length

/-- Distinct numbers in that range are all of them. -/
theorem Consecutive.perm (h : Consecutive ks) (hnodup : ks.Nodup) :
    ks.Perm (List.range' 1 ks.length) := by
  have hsub : ks ⊆ List.range' 1 ks.length := by
    intro k hk
    rw [List.mem_range'_1]
    have hrange := h k hk
    omega
  exact (hnodup.subperm hsub).perm_of_length_le (by rw [List.length_range'])

theorem Consecutive.mem_iff (h : Consecutive ks) (hnodup : ks.Nodup) :
    k ∈ ks ↔ 1 ≤ k ∧ k ≤ ks.length := by
  rw [(h.perm hnodup).mem_iff, List.mem_range'_1]
  omega

/-- A number more, which must be the next one. -/
theorem consecutive_append_iff (h : Consecutive ks) (hnodup : ks.Nodup) (hk : k ∉ ks) :
    Consecutive (ks ++ [k]) ↔ k = ks.length + 1 := by
  rw [h.mem_iff hnodup] at hk
  constructor
  · intro hall
    have hrange := hall k (by simp)
    rw [List.length_append, List.length_singleton] at hrange
    omega
  · rintro rfl j hj
    rw [List.length_append, List.length_singleton]
    rcases List.mem_append.mp hj with hj | hj
    · have hrange := h j hj
      omega
    · rw [List.mem_singleton.mp hj]
      omega

/-- A number less, which must be the last one. -/
theorem consecutive_erase_iff (h : Consecutive ks) (hnodup : ks.Nodup) (hk : k ∈ ks) :
    Consecutive (ks.erase k) ↔ k = ks.length := by
  have hlen := List.length_erase_of_mem hk
  have hrange := h k hk
  constructor
  · intro hall
    by_contra hne
    have hlast : ks.length ∈ ks := (h.mem_iff hnodup).mpr ⟨by omega, le_refl _⟩
    have hkept := hall _ ((List.Nodup.mem_erase_iff hnodup).mpr ⟨fun heq => hne heq.symm, hlast⟩)
    omega
  · rintro rfl j hj
    obtain ⟨hne, hj'⟩ := (List.Nodup.mem_erase_iff hnodup).mp hj
    have hrange' := h j hj'
    omega

/-- The id that is added is the next one, or is taken already. -/
def Fits (s : UtxoTable) (k : ℕ) : Prop := k ∈ s.ids ∨ k = s.table.length + 1

/-- The calls that keep the ids consecutive: an entry that is entered gets the number of entries and
one as its id, unless its id is taken, and only the entry with the last id is removed alone. -/
def KeepsIds (s : UtxoTable) : Call → Prop
  | .start => s.Fits (s.nextIdx + 1).toNat
  | .add index _ => s.Fits index.toNat
  | .remove index => index.toNat = s.table.length
  | .removeAll => True
  | .spend _ _ => True
  | .record txid vout _ _ _ => s.table.any (Wallet.isEntry txid vout) = true ∨
      s.Fits (s.nextIdx + 1).toNat

theorem length_ids (s : UtxoTable) : s.ids.length = s.table.length := List.length_map _

theorem consecutive_insertId_iff (hs : s.Distinct) (h : Consecutive s.ids) (k : ℕ) :
    Consecutive (s.insertId k) ↔ s.Fits k := by
  unfold insertId Fits
  split
  next hmem => exact iff_of_true h (Or.inl hmem)
  next hnew =>
    rw [consecutive_append_iff h hs.nodup hnew, length_ids]
    exact ⟨Or.inr, fun hfits => hfits.resolve_left hnew⟩

/-- **The calls that keep the ids consecutive** are exactly these. -/
theorem consecutive_call_iff (hs : s.Distinct) (hids : Consecutive s.ids) (h : s.call c = some s') :
    Consecutive s'.ids ↔ s.KeepsIds c := by
  rw [ids_call hs h]
  cases c with
  | start => exact consecutive_insertId_iff hs hids _
  | add index utxo => exact consecutive_insertId_iff hs hids _
  | remove index =>
    have hmem := (ids_remove hs h).1
    show Consecutive (s.ids.erase index.toNat) ↔ index.toNat = s.table.length
    rw [consecutive_erase_iff hids hs.nodup hmem, length_ids]
  | removeAll => exact iff_of_true (by simp [idsAfter, Consecutive]) trivial
  | spend txid vout => exact iff_of_true hids trivial
  | record txid vout address amount height =>
    show Consecutive (if s.table.any (Wallet.isEntry txid vout) then s.ids
      else s.insertId (s.nextIdx + 1).toNat) ↔
        s.table.any (Wallet.isEntry txid vout) = true ∨ s.Fits (s.nextIdx + 1).toNat
    by_cases hentry : s.table.any (Wallet.isEntry txid vout) = true
    · rw [if_pos hentry]
      exact iff_of_true hids (Or.inl hentry)
    · rw [if_neg hentry, consecutive_insertId_iff hs hids]
      exact ⟨Or.inr, fun hkeep => hkeep.resolve_left hentry⟩

/-! ## The enumerations and the ids -/

/-- What is found for a list of ids, if all of them are there. -/
theorem mapM_find {us : List Utxo} (h : ks.mapM s.find = some us) :
    us.map Utxo.index = ks ∧ us ⊆ s.table := by
  induction ks generalizing us with
  | nil =>
    cases h
    exact ⟨rfl, List.nil_subset _⟩
  | cons k ks ih =>
    rw [List.mapM_cons] at h
    obtain ⟨utxo, hfind, h⟩ := Option.bind_eq_some_iff.mp h
    obtain ⟨rest, hrest, h⟩ := Option.bind_eq_some_iff.mp h
    obtain rfl := Option.some.inj h
    obtain ⟨hids, hsub⟩ := ih hrest
    obtain ⟨hmem, hindex⟩ := find_eq_some hfind
    refine ⟨by rw [List.map_cons, hids, hindex], ?_⟩
    exact List.cons_subset.mpr ⟨hmem, hsub⟩

theorem exists_mapM_find (h : ks ⊆ s.ids) : ∃ us, ks.mapM s.find = some us := by
  induction ks with
  | nil => exact ⟨[], rfl⟩
  | cons k ks ih =>
    obtain ⟨hk, hks⟩ := List.cons_subset.mp h
    obtain ⟨us, hus⟩ := ih hks
    cases hfind : s.find k with
    | none => exact absurd hk (find_eq_none_iff.mp hfind)
    | some utxo => exact ⟨utxo :: us, by rw [List.mapM_cons, hfind, hus]; rfl⟩

/-- The ids that are asked for. -/
theorem visited_eq (s : UtxoTable) : s.visited = (List.range' 1 s.hashCount).mapM s.find := by
  have hlt : s.hashCount < 2 ^ 32 := Nat.mod_lt _ (by decide)
  have hids : List.range' 1 s.hashCount = (List.range s.hashCount).map fun i =>
    (i + 1) % 2 ^ 32 := by
    rw [List.range'_eq_map_range]
    apply List.map_congr_left
    intro i hi
    have hi' := List.mem_range.mp hi
    rw [Nat.mod_eq_of_lt (by omega), Nat.add_comm]
  rw [hids, List.mapM_map]
  rfl

/-- Consecutive ids of 32 bits are too few for their number to be cut. -/
theorem hashCount_of_consecutive (hs : s.Distinct) (hids : Consecutive s.ids) :
    s.hashCount = s.table.length := by
  apply Nat.mod_eq_of_lt
  rcases Nat.eq_zero_or_pos s.table.length with hzero | hpos
  · rw [hzero]
    decide
  · apply hs.lt
    rw [hids.mem_iff hs.nodup, length_ids]
    exact ⟨hpos, le_refl _⟩

/-- **The enumerations are right** exactly when the ids are consecutive. -/
theorem enumerationRight_iff (hs : s.Distinct) : s.EnumerationRight ↔ Consecutive s.ids := by
  constructor
  · rintro ⟨-, us, hvisited, hperm⟩ k hk
    rw [visited_eq] at hvisited
    have hmem : k ∈ us.map Utxo.index := (hperm.map Utxo.index).mem_iff.mpr hk
    rw [(mapM_find hvisited).1, List.mem_range'_1] at hmem
    have hle : s.hashCount ≤ s.table.length := Nat.mod_le _ _
    rw [length_ids]
    omega
  · intro hids
    have hperm := hids.perm hs.nodup
    rw [length_ids, ← hashCount_of_consecutive hs hids] at hperm
    obtain ⟨us, hus⟩ := exists_mapM_find hperm.symm.subset
    obtain ⟨hindex, hsub⟩ := mapM_find hus
    have hnodup : us.Nodup := by
      apply List.Nodup.of_map Utxo.index
      rw [hindex]
      exact hperm.nodup hs.nodup
    have hlen : s.table.length ≤ us.length := by
      have heq := congrArg List.length hindex
      rw [List.length_map, List.length_range', hashCount_of_consecutive hs hids] at heq
      exact le_of_eq heq.symm
    have hall : us.Perm s.table := (hnodup.subperm hsub).perm_of_length_le hlen
    have hvisited : s.visited = some us := by rw [visited_eq, hus]
    refine ⟨⟨us.filter (·.spendable), ?_, hall.filter _⟩, us, hvisited, hall⟩
    unfold getUnspent
    rw [hvisited, Option.map_some]

/-! ## Runs -/

/-- The calls of an operation all keep the ids consecutive. -/
def OpKeepsIds (wp : WalletPlatform) (s : UtxoTable) (op : Op) : Prop :=
  ∀ calls, op.calls wp = some calls → callSystem.Meets KeepsIds s calls

theorem distinct_new : Distinct ⟨[], 0⟩ := ⟨List.nodup_nil, by simp [ids]⟩

/-- After calls that keep the ids consecutive, they are. -/
theorem consecutive_of_reach (h : callSystem.Reach KeepsIds s) :
    s.Distinct ∧ Consecutive s.ids := by
  apply h.invariant
  · rintro s rfl
    exact ⟨distinct_new, by simp [ids, Consecutive]⟩
  · rintro s c s' ⟨hs, hids⟩ hkeeps hstep
    exact ⟨distinct_call hs hstep, (consecutive_call_iff hs hids hstep).mpr hkeeps⟩

/-- An operation is as many calls. -/
theorem callReach_of_reach {wp : WalletPlatform} (h : (system wp).Reach (OpKeepsIds wp) s) :
    callSystem.Reach KeepsIds s := by
  induction h with
  | init hinit => exact .init hinit
  | step _ hguard hstep ih =>
    obtain ⟨calls, hcalls, hrun⟩ := Option.bind_eq_some_iff.mp hstep
    exact ih.of_run (hguard calls hcalls) hrun

/-- **Any operations** whose calls all keep the ids consecutive leave a table whose enumerations are
right. From there, a call leaves them right if and only if it is another one of these. -/
theorem enumerationRight_of_reach {wp : WalletPlatform} {s : UtxoTable}
    (h : (system wp).Reach (OpKeepsIds wp) s) :
    s.EnumerationRight ∧
      ∀ c s', s.call c = some s' → (s'.EnumerationRight ↔ s.KeepsIds c) := by
  obtain ⟨hs, hids⟩ := consecutive_of_reach (callReach_of_reach h)
  refine ⟨(enumerationRight_iff hs).mpr hids, ?_⟩
  intro c s' hcall
  rw [enumerationRight_iff (distinct_call hs hcall)]
  exact consecutive_call_iff hs hids hcall

/-- The table behind two new entries. -/
def twoEntries : UtxoTable := (UtxoTable.mint ⟨[], 0⟩ utxoNew).mint utxoNew

/-- The theorem on two new entries. -/
theorem enumerationRight_of_reach_twoEntries : twoEntries.EnumerationRight := by
  have hkeeps : ∀ s : UtxoTable, s.Fits (s.nextIdx + 1).toNat →
      OpKeepsIds sampleWallet s .startDogecoinUtxo := by
    intro s hfits calls hcalls
    obtain rfl := Option.some.inj hcalls
    exact ⟨hfits, fun _ _ => trivial⟩
  exact (@enumerationRight_of_reach sampleWallet twoEntries
    (.step (.step (.init rfl) (hkeeps _ (Or.inr rfl)) rfl) (hkeeps _ (Or.inr rfl)) rfl)).1

/-- The first of two entries is removed: the other one, with the id 2, is looked for under the id
1. -/
theorem not_enumerationRight_of_reach :
    ¬ ∀ s, (system sampleWallet).Reachable s → s.EnumerationRight := by
  intro hall
  have hright := hall ⟨[{ utxoNew with index := 2 }], 2⟩
    (.step (.step (.step (.init rfl) (i := .startDogecoinUtxo) trivial rfl)
      (i := .startDogecoinUtxo) trivial rfl) (i := .removeDogecoinUtxo 1) trivial rfl)
  obtain ⟨us, hvisited, -⟩ := hright.getUtxos
  cases hvisited

end UtxoTable

end Libdogecoin
