/-
# The bytes that the scan of a script touches

`dogecoin_pubkey_hash_to_p2pkh_address` goes over the bytes of a script up to the last four and
copies 23 of them into a scratch buffer of the length of the script. Here each access is checked
against the two lengths.

* `stripOps_isSome_iff` : the loop from any index on;
* `scrapeUtxosChecked_isSome_iff` : when all the scripts of a transaction pass.
-/
import Libdogecoin.WalletBalance
import Libdogecoin.WorkingTransaction

namespace Libdogecoin

/-! ## The scan -/

/-- `a - b` of two sizes in 64 bits. -/
def sizeSub (a b : ℕ) : ℕ := if b ≤ a then a - b else a + 2 ^ 64 - b

/-- The opcodes that the loop passes over. -/
def strippedOps : Bytes := [opDup, opHash160, opEqualverify, opChecksig]

/-- `memcpy_safe` of some bytes from an index on to the front of a buffer, if they are inside of
both. -/
def memcpySafe (dest source : Bytes) (index count : ℕ) : Option Bytes :=
  if index + count ≤ source.length ∧ count ≤ dest.length then
    some ((source.drop index).take count ++ dest.drop count)
  else none

/-- The loop from an index on: the rest of the script behind it, and the scratch buffer. -/
def stripOps (script : Bytes) (bound : ℕ) : ℕ → Bytes → Bytes → Option Bytes
  | length, [], strippedArray =>
    -- the next byte is behind the end of the script
    if length < bound then none else some strippedArray
  | length, b :: rest, strippedArray =>
    if length < bound then
      if b ∈ strippedOps then stripOps script bound (length + 1) rest strippedArray
      -- any other byte is taken for the push, and the copy starts at the same index each time
      else (memcpySafe strippedArray script 3 23).bind (stripOps script bound (length + 1) rest)
    else some strippedArray

/-- The scratch buffer behind the loop, if no access was outside of the script or of the buffer. -/
def stripScript (script : Bytes) : Option Bytes :=
  stripOps script (sizeSub script.length 4) 2 (script.drop 2) (List.replicate script.length 0)

/-- Bytes that the loop passes over. -/
def AllStripped (bs : Bytes) : Prop := ∀ b ∈ bs, b ∈ strippedOps

instance (bs : Bytes) : Decidable (AllStripped bs) := List.decidableBAll _ _

@[simp] theorem allStripped_nil : AllStripped [] := fun _ hb => absurd hb List.not_mem_nil

@[simp] theorem allStripped_cons {b : UInt8} {bs : Bytes} :
    AllStripped (b :: bs) ↔ b ∈ strippedOps ∧ AllStripped bs :=
  List.forall_mem_cons

/-- Only opcodes stand between the second byte and the last four. -/
def OnlyOps (script : Bytes) : Prop := AllStripped ((script.drop 2).take (script.length - 6))

instance (script : Bytes) : Decidable (OnlyOps script) := inferInstanceAs
    (Decidable (AllStripped _))

/-- All the accesses of the scan are inside. -/
structure StripFits (script : Bytes) : Prop where
  bound : 4 ≤ script.length
  copy : 26 ≤ script.length ∨ OnlyOps script

theorem memcpySafe_isSome_iff {dest source : Bytes} {index count : ℕ} :
    (memcpySafe dest source index count).isSome = true ↔ index + count ≤ source.length ∧
    count ≤ dest.length := by
  unfold memcpySafe
  split_ifs with hfits
  · exact iff_of_true rfl hfits
  · exact iff_of_false Bool.false_ne_true hfits

variable {index count bound length : ℕ} {script strippedArray dest source : Bytes}

theorem length_memcpySafe {dest' : Bytes} (h : memcpySafe dest source index count = some dest') :
    dest'.length = dest.length := by
  unfold memcpySafe at h
  split_ifs at h with hfits
  rw [← Option.some.inj h, List.length_append, List.length_take, List.length_drop, List.length_drop]
  omega

/-- **The loop from an index on** stays inside if and only if the bound does, and either there is
room for the copy or nothing is copied. -/
theorem stripOps_isSome_iff (rest : Bytes) (hlen : strippedArray.length = script.length) :
    (stripOps script bound length rest strippedArray).isSome = true ↔ bound ≤ length + rest.length ∧
      (26 ≤ script.length ∨ AllStripped (rest.take (bound - length))) := by
  induction rest generalizing length strippedArray with
  | nil =>
    unfold stripOps
    split_ifs with hlt
    · refine iff_of_false Bool.false_ne_true fun h => ?_
      have hle := h.1
      rw [List.length_nil] at hle
      omega
    · refine iff_of_true rfl ⟨Nat.le_add_right_of_le (Nat.not_lt.mp hlt), Or.inr ?_⟩
      rw [List.take_nil]
      exact allStripped_nil
  | cons b rest ih =>
    rw [List.length_cons]
    by_cases hlt : length < bound
    · have htake : (b :: rest).take (bound - length) = b :: rest.take (bound - (length + 1)) := by
        rw [show bound - length = bound - (length + 1) + 1 by omega, List.take_succ_cons]
      have hbound : bound ≤ length + (rest.length + 1) ↔
        bound ≤ length + 1 + rest.length := by omega
      unfold stripOps
      rw [if_pos hlt, htake, allStripped_cons, hbound]
      by_cases hop : b ∈ strippedOps
      · rw [if_pos hop, ih hlen, and_iff_right hop]
      · rw [if_neg hop, iff_false_intro fun h : b ∈ strippedOps ∧ _ => hop h.1, or_false]
        cases hcopy : memcpySafe strippedArray script 3 23 with
        | none =>
          refine iff_of_false Bool.false_ne_true fun h => ?_
          have hsome := (@memcpySafe_isSome_iff strippedArray script 3 23).mpr ⟨h.2, by omega⟩
          rw [hcopy] at hsome
          exact Bool.false_ne_true hsome
        | some copied =>
          have hroom : 26 ≤ script.length :=
            (memcpySafe_isSome_iff.mp (Option.isSome_of_eq_some hcopy)).1
          rw [Option.bind_some, ih ((length_memcpySafe hcopy).trans hlen),
            or_iff_left_of_imp fun _ => hroom]
    · unfold stripOps
      rw [if_neg hlt, show bound - length = 0 by omega, List.take_zero]
      exact iff_of_true rfl ⟨by omega, Or.inr allStripped_nil⟩

/-- **The scan of a script.** -/
theorem stripScript_isSome_iff (script : Bytes) :
    (stripScript script).isSome = true ↔ StripFits script := by
  unfold stripScript
  rw [stripOps_isSome_iff _ List.length_replicate, List.length_drop]
  unfold sizeSub
  split_ifs with hlen
  · rw [show script.length - 4 - 2 = script.length - 6 by omega]
    constructor
    · exact fun h => ⟨hlen, h.2⟩
    · exact fun h => ⟨by omega, h.copy⟩
  -- the bound has wrapped and is far behind the end of the script
  · refine iff_of_false (fun h => ?_) fun h => hlen h.bound
    have hle := h.1
    omega

/-! ## The hash -/

/-- The length of the push is no opcode. -/
theorem not_onlyOps_p2pkhScript (hash : Uint160) : ¬ OnlyOps (p2pkhScript hash) := by
  intro honly
  have hpush : 20 ∈ ((p2pkhScript hash).drop 2).take ((p2pkhScript hash).length - 6) := by
    rw [length_p2pkhScript]
    exact List.mem_cons_self
  exact absurd (honly 20 hpush) (by decide)

/-- The hash that the scan of a script finds. -/
def scannedHash (script : Bytes) :
    Uint160 := if OnlyOps script then hash160At [] 0 else hash160At script 3

theorem hash160At_eq {buf : Bytes} (h : index + 20 ≤ buf.length) :
    (hash160At buf index).1 = (buf.drop index).take 20 := by
  show (buf.drop index ++ List.replicate 20 0).take 20 = _
  rw [List.take_append_of_le_length]
  rw [List.length_drop]
  omega

namespace Wallet

variable (wp : WalletPlatform)

/-- The address that comes out of the scan of a script, where no hash is read or copied behind its
end. -/
theorem pubkeyHashToP2pkhAddress_eq (script : Bytes) (chain : WalletParams) :
    pubkeyHashToP2pkhAddress wp script chain =
      if 20 ≤ script.length ∧ (OnlyOps script ∨ 23 ≤ script.length) then
        some (wp.p2pkhAddrFromHash160 (scannedHash script) chain.toKeyParams)
      else none := by
  have hany : ((script.drop 2).take (script.length - 6)).any (fun b =>
      b ≠ opDup ∧ b ≠ opHash160 ∧ b ≠ opEqualverify ∧ b ≠ opChecksig) = true ↔
        ¬ OnlyOps script := by
    unfold OnlyOps AllStripped strippedOps
    simp
  unfold pubkeyHashToP2pkhAddress scannedHash
  dsimp only
  by_cases honly : OnlyOps script
  · rw [Bool.eq_false_iff.mpr fun h => hany.mp h honly, if_pos honly]
    by_cases hlen : script.length < 20
    · rw [if_pos (Or.inl hlen), if_neg fun h => by omega]
    · have hroom : ¬ (script.length < 20 ∨ (false = true ∧ script.length < 23)) := fun h =>
        h.elim hlen fun h => Bool.false_ne_true h.1
      have hread : 20 ≤ script.length ∧ (OnlyOps script ∨ 23 ≤ script.length) :=
        ⟨Nat.not_lt.mp hlen, Or.inl honly⟩
      rw [if_neg hroom, if_pos hread]
      rfl
  · rw [hany.mpr honly, if_neg honly]
    by_cases hlen : script.length < 23
    · have hread : ¬ (20 ≤ script.length ∧ (OnlyOps script ∨ 23 ≤ script.length)) := fun h =>
        h.2.elim honly (Nat.not_le.mpr hlen)
      rw [if_pos (Or.inr ⟨rfl, hlen⟩), if_neg hread]
    · have hhash : (hash160At script 3).1 = (script.drop 3).take 20 := hash160At_eq (by omega)
      have hroom : ¬ (script.length < 20 ∨ (true = true ∧ script.length < 23)) := by omega
      have hread : 20 ≤ script.length ∧ (OnlyOps script ∨ 23 ≤ script.length) :=
        ⟨by omega, Or.inr (by omega)⟩
      rw [if_neg hroom, if_pos hread]
      simp only [if_true, ← hhash]
      rw [dif_pos (hash160At script 3).2]

/-- The 20 bytes that are read from the front of the scratch buffer, which may be shorter. -/
def scratchHash (strippedArray : Bytes) : Uint160 :=
  ⟨(List.range 20).map fun i => strippedArray.getD i (wp.pastEnd strippedArray i), by
    rw [List.length_map, List.length_range]⟩

/-- `dogecoin_pubkey_hash_to_p2pkh_address` with the accesses of its scan checked. -/
def pubkeyHashToP2pkhAddressChecked (script : Bytes) (chain : WalletParams) : Option Bytes :=
  (stripScript script).map fun strippedArray =>
    wp.p2pkhAddrFromHash160 (scratchHash wp strippedArray) chain.toKeyParams

theorem pubkeyHashToP2pkhAddressChecked_isSome_iff (script : Bytes) (chain : WalletParams) :
    (pubkeyHashToP2pkhAddressChecked wp script chain).isSome = true ↔ StripFits script := by
  unfold pubkeyHashToP2pkhAddressChecked
  rw [Option.isSome_map, stripScript_isSome_iff]

/-! ## The outputs of a transaction -/

/-- The loop over the addresses of a wallet for the address in an output. -/
def recordOutputs (w : Wallet) (txid : Uint256) (height : UInt32) (p2pkh : Bytes)
    (txOut : TxOut) (vout : ℕ) (utxos : Utxos) : Utxos :=
  (w.getAddresses wp).foldl (fun utxos addr =>
    if p2pkh.take 34 = addr.take 34 then recordOutput txid height p2pkh txOut vout utxos
    else utxos) utxos

/-- `scrapeOutput` with the accesses of the scan checked. -/
def scrapeOutputChecked (w : Wallet) (txid : Uint256) (height : UInt32) (txOut : TxOut) (vout : ℕ)
    (utxos : Utxos) : Option Utxos :=
  if w.waddrVector.length = 0 ∨ txOut.scriptPubkey.length = 0 then some utxos
  else (pubkeyHashToP2pkhAddressChecked wp txOut.scriptPubkey w.chain).map fun p2pkh =>
    recordOutputs wp w txid height p2pkh txOut vout utxos

/-- `dogecoin_wallet_scrape_utxos` with the accesses of the scans checked. -/
def scrapeUtxosChecked (w : Wallet) (wtx : Wtx) (utxos : Utxos) : Option Utxos :=
  wtx.tx.vout.zipIdx.foldlM (fun utxos (txOut, vout) =>
    scrapeOutputChecked wp w (swapBytes (txHash wp.toPlatform wtx.tx)) wtx.height txOut vout utxos)
    (scrapeInputs wtx.tx utxos)

/-- A loop whose turns fail or not whatever came before them. -/
theorem isSome_foldlM_iff {α β : Type} {f : β → α → Option β} {p : α → Prop}
    (hf : ∀ b a, (f b a).isSome = true ↔ p a) (xs : List α) (b : β) :
    (xs.foldlM f b).isSome = true ↔ ∀ a ∈ xs, p a := by
  induction xs generalizing b with
  | nil => exact iff_of_true rfl fun a ha => absurd ha List.not_mem_nil
  | cons a xs ih =>
    rw [List.foldlM_cons, List.forall_mem_cons, ← hf b a]
    cases f b a with
    | none => exact iff_of_false Bool.false_ne_true fun h => Bool.false_ne_true h.1
    | some b' => exact (ih b').trans (and_iff_right rfl).symm

/-- The scan of each output has a result if and only if the whole loop has one. -/
theorem scrapeUtxos_isSome_iff (w : Wallet) (wtx : Wtx) (utxos : Utxos) :
    (scrapeUtxos wp w wtx utxos).isSome = true ↔ ∀ txOut ∈ wtx.tx.vout, w.Scrapable wp txOut := by
  constructor
  · intro hsome
    obtain ⟨utxos', hrun⟩ := Option.isSome_iff_exists.mp hsome
    exact scrapable_of_scrapeUtxos hrun
  · intro hread
    have hturn : ∀ (utxos : Utxos) (out : TxOut × ℕ),
      (scrapeOutput wp w (swapBytes (txHash wp.toPlatform wtx.tx))
        wtx.height out.1 out.2 utxos).isSome = true ↔ w.Scrapable wp out.1 := by
      intro utxos out
      unfold scrapeOutput Scrapable
      rw [← or_assoc]
      split_ifs with hempty
      · exact iff_of_true rfl (Or.inl hempty)
      · rw [Option.isSome_map, or_iff_right hempty]
    unfold scrapeUtxos
    rw [isSome_foldlM_iff hturn]
    exact fun out hout => hread out.1 (List.fst_mem_of_mem_zipIdx hout)

variable {wp} {w : Wallet} {wtx : Wtx} {txid : Uint256} {height : UInt32} {txOut : TxOut} {vout : ℕ}
  {utxos utxos' : Utxos}

/-- A script that the wallet has scanned. -/
def Scanned (w : Wallet) (txOut : TxOut) :
    Prop := ¬ (w.waddrVector.length = 0 ∨ txOut.scriptPubkey.length = 0)

instance (w : Wallet) (txOut : TxOut) :
    Decidable (w.Scanned txOut) := inferInstanceAs (Decidable (¬ _))

theorem scrapeOutputChecked_isSome_iff :
    (scrapeOutputChecked wp w txid height txOut vout utxos).isSome = true ↔
      (w.Scanned txOut → StripFits txOut.scriptPubkey) := by
  unfold scrapeOutputChecked
  split_ifs with hempty
  · exact iff_of_true rfl fun hscanned => absurd hempty hscanned
  · rw [Option.isSome_map, pubkeyHashToP2pkhAddressChecked_isSome_iff]
    exact (imp_iff_right hempty).symm

/-- **Nothing outside** of a script is read and nothing outside of its scratch buffer is written for
a transaction, if and only if each script that is scanned has at least 4 bytes, and at least 26 or
only opcodes where the scan looks. -/
theorem scrapeUtxosChecked_isSome_iff (wp : WalletPlatform) (w : Wallet) (wtx : Wtx)
    (utxos : Utxos) :
    (scrapeUtxosChecked wp w wtx utxos).isSome = true ↔
      ∀ txOut ∈ wtx.tx.vout, w.Scanned txOut → StripFits txOut.scriptPubkey := by
  have hturn : ∀ (utxos : Utxos) (out : TxOut × ℕ), (scrapeOutputChecked wp w
      (swapBytes (txHash wp.toPlatform wtx.tx)) wtx.height out.1 out.2 utxos).isSome = true ↔
        (w.Scanned out.1 → StripFits out.1.scriptPubkey) :=
          fun utxos out => scrapeOutputChecked_isSome_iff
  unfold scrapeUtxosChecked
  rw [isSome_foldlM_iff hturn]
  constructor
  · intro hall txOut hmem
    obtain ⟨n, hn, rfl⟩ := List.getElem_of_mem hmem
    exact hall (wtx.tx.vout[n], n) (List.mem_zipIdx_iff_getElem?.mpr (List.getElem?_eq_getElem hn))
  · exact fun hall out hout => hall out.1 (List.fst_mem_of_mem_zipIdx hout)

/-- The script of a payment to a key: the copy reads the byte behind its end. -/
theorem not_stripFits_p2pkhScript (hash : Uint160) : ¬ StripFits (p2pkhScript hash) := by
  rintro ⟨-, hlong | honly⟩
  · rw [length_p2pkhScript] at hlong
    omega
  · exact not_onlyOps_p2pkhScript hash honly

/-- A payment to a wallet. -/
theorem not_scrapeUtxosChecked_isSome :
    ¬ ∀ (wp : WalletPlatform) (w : Wallet) (wtx : Wtx) (utxos : Utxos), w.isMine wtx.tx = true →
    (scrapeUtxosChecked wp w wtx utxos).isSome = true := by
  intro hall
  have hmine : sampleOwner.isMine samplePayment = true := by decide +kernel
  have hsome := hall sampleWallet sampleOwner ⟨Uint256.zero, Uint256.zero, 1,
    samplePayment⟩ ⟨[], 0⟩ hmine
  have hfits := (scrapeUtxosChecked_isSome_iff _ _ _ _).mp hsome ⟨5,
    p2pkhScript (sampleHash160 1)⟩ List.mem_cons_self
  exact not_stripFits_p2pkhScript (sampleHash160 1) (hfits (by decide))

end Wallet

end Libdogecoin
