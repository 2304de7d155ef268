/-
# The signature hash of a transaction in memory

`dogecoin_tx_sighash` copies the transaction that is signed, clears and cuts the copy, writes it and
frees it.

* `ends_txSighash` : what is hashed in the end, with every object that was there before left as it
  is;
* `txSighash_legacyPreimage` : the bytes that are hashed are the message of the signature.
-/
import Libdogecoin.SighashPreimage
import Libdogecoin.TxMemory

namespace Libdogecoin

namespace TxMemory

open HeapProg

/-! ## The call -/

/-- The script of the input `i` of the copy: the new script in the signed one. -/
def sighashScript (newScript : Bytes) (inNum i p : ℕ) : TxProg Unit := do
  let txIn ← readAs MemCell.asTxIn p
  let scriptSig ← deref txIn.scriptSig
  cstrResize scriptSig 0
  if i = inNum then cstrAppendBuf scriptSig newScript else pure ()

/-- No sequence but that of the signed input. -/
def sighashSequence (inNum i p : ℕ) : TxProg Unit := do
  let txIn ← readAs MemCell.asTxIn p
  if i ≠ inNum then write p (.txIn { txIn with sequence := 0 }) else pure ()

/-- An output of the copy before the one of the signed input. -/
def sighashBlank (_ p : ℕ) : TxProg Unit := do
  let txOut ← readAs MemCell.asTxOut p
  cstrFree txOut.scriptPubkey
  write p (.txOut ⟨0xffffffffffffffff, none⟩)

/-- The copy is cleared by the base of the hash type: false if there is no output for the signed
input. -/
def sighashClear (txTmp inNum : ℕ) (hashtype : UInt32) : TxProg Bool :=
  if hashtype &&& 0x1f = sighashNone then do
    txReplaceVout txTmp fun vout => do
      vectorFree txOutFree vout
      let new ← vectorNew
      pure (some new)
    txOnVin txTmp (vectorForEach (sighashSequence inNum))
    pure true
  else if hashtype &&& 0x1f = sighashSingle then do
    let items ← txOnVout txTmp (readAs MemCell.asVector)
    if inNum ≥ items.length then pure false
    else do
      txOnVout txTmp fun vout => vectorResize txOutFree vout (inNum + 1)
      txOnVout txTmp (vectorForFirst inNum sighashBlank)
      txOnVin txTmp (vectorForEach (sighashSequence inNum))
      pure true
  else pure true

/-- The copy is cut to the signed input. -/
def sighashCut (txTmp inNum : ℕ) : TxProg Unit := do
  if inNum > 0 then txOnVin txTmp fun vin => vectorRemoveRange txInFree vin 0 inNum else pure ()
  txOnVin txTmp fun vin => vectorResize txInFree vin 1

/-- `dogecoin_tx_sighash` : the bytes that are hashed and their hash, or nothing where it returns
false. -/
def txSighash (pf : Platform) (txTo fromPubKey inNum : ℕ) (hashtype : UInt32) :
    TxProg (Option (Bytes × Uint256)) := do
  let signed ← readAs MemCell.asTx txTo
  let vin ← deref signed.vin
  let items ← readAs MemCell.asVector vin
  if inNum ≥ items.length ∨ signed.vout = none then pure none
  else do
    let txTmp ← txNew
    txCopy txTmp txTo
    let script ← readAs MemCell.asCstr fromPubKey
    let newScript ← cstrNewBuf (scriptCopyWithoutOpCodeseperator script).1
    -- the new script stays as it is in the loop
    let copied ← readAs MemCell.asCstr newScript
    txOnVin txTmp (vectorForEach (sighashScript copied inNum))
    cstrFree (some newScript)
    let ret ← sighashClear txTmp inNum hashtype
    if ret = false then do
      txFree txTmp
      pure none
    else do
      if hashtype &&& sighashAnyonecanpay ≠ 0 then sighashCut txTmp inNum else pure ()
      let tmp ← txValue txTmp
      let s := txSerialize tmp ++ serU32 hashtype
      txFree txTmp
      pure (some (s, pf.sha256d s))

/-- The elements of a vector, and none for a null pointer. -/
def vectorItems (vec : Option ℕ) : TxProg (List ℕ) := match vec with
  | none => pure []
  | some vec => readAs MemCell.asVector vec

/-- `dogecoin_tx_sighash` as a call that may not return: behind the check of its arguments the loops
of the copy count in 32 bits, and do not end where a vector has `2 ^ 32` elements. -/
def txSighashReturns (pf : Platform) (txTo fromPubKey inNum : ℕ) (hashtype : UInt32) :
    TxProg (Option (Bytes × Uint256)) := do
  let signed ← readAs MemCell.asTx txTo
  let ins ← vectorItems signed.vin
  let outs ← vectorItems signed.vout
  if (inNum < ins.length ∧ signed.vout ≠ none) ∧
    (2 ^ 32 ≤ ins.length ∨ 2 ^ 32 ≤ outs.length) then fail
  else txSighash pf txTo fromPubKey inNum hashtype

/-! ## The loops -/

theorem changes_sighashScript (newScript : Bytes) (inNum i : ℕ) :
    Changes txInLayout (sighashScript newScript inNum i) fun txIn =>
      { txIn with scriptSig := if i = inNum then newScript else [] } := by
  rintro h p txIn fp ⟨hcell, hscript⟩
  rename_i s
  have hne := ne_of_reads hcell hscript (by rintro ⟨⟩)
  have hcleared := Heap.read_write_self (Heap.lt_fresh hscript) (MemCell.cstr [])
  have hstill := (Heap.read_write_of_ne h (.cstr []) hne).trans hcell
  have hmem : s ∈ ({p, s} : Set ℕ) := Or.inr rfl
  have hstep := Moves.write_mem hmem h (.cstr [])
  refine Ends.bind (ends_readAs hcell rfl
    (Ends.bind (ends_pure (Ends.bind (Ends.bind (ends_readAs hscript rfl ?_))))))
  rw [if_pos (Nat.zero_le _)]
  refine ends_write hscript ?_
  by_cases hi : i = inNum
  · rw [if_pos hi]
    refine Ends.bind (ends_readAs hcleared rfl (ends_write hcleared ⟨{p, s}, .mk ?_ ?_, ?_⟩))
    · exact (Heap.read_write_of_ne _ _ hne).trans hstill
    · dsimp only
      rw [if_pos hi]
      exact Heap.read_write_self (Heap.lt_fresh hcleared) _
    · exact hstep.trans (Moves.write_mem hmem _ _)
  · rw [if_neg hi]
    refine ends_pure ⟨{p, s}, .mk hstill ?_, hstep⟩
    dsimp only
    rw [if_neg hi]
    exact hcleared

theorem changes_sighashSequence (inNum i : ℕ) : Changes txInLayout (sighashSequence inNum i)
    fun txIn => if i = inNum then txIn else { txIn with sequence := 0 } := by
  rintro h p txIn fp ⟨hcell, hscript⟩
  rename_i s
  have hne := ne_of_reads hcell hscript (by rintro ⟨⟩)
  refine Ends.bind (ends_readAs hcell rfl ?_)
  dsimp only
  by_cases hi : i = inNum
  · rw [if_neg (not_not_intro hi), if_pos hi]
    exact ends_pure ⟨{p, s}, .mk hcell hscript, .refl _ _⟩
  · rw [if_pos hi, if_neg hi]
    refine ends_write hcell ⟨{p, s}, .mk (Heap.read_write_self (Heap.lt_fresh hcell) _) ?_, ?_⟩
    · exact (Heap.read_write_of_ne h _ hne.symm).trans hscript
    · exact Moves.write_mem (Set.mem_insert p _) h _

theorem changes_sighashBlank (i : ℕ) : Changes txOutLayout (sighashBlank i)
    fun _ => { value := 0xffffffffffffffff, scriptPubkey := [] } := by
  rintro h p txOut fp hat
  cases hat with
  | null hcell hempty =>
    refine Ends.bind (ends_readAs hcell rfl
      (Ends.bind (ends_pure (ends_write hcell ⟨{p}, .null ?_ rfl, ?_⟩))))
    · exact Heap.read_write_self (Heap.lt_fresh hcell) _
    · exact Moves.write_mem (Set.mem_singleton p) h _
  | @script s hcell hscript =>
    have hne := ne_of_reads hcell hscript (by rintro ⟨⟩)
    have hstill := (Heap.read_free_of_ne h hne).trans hcell
    refine Ends.bind (ends_readAs hcell rfl
      (Ends.bind (ends_free hscript (ends_write hstill ⟨{p}, .null ?_ rfl, ?_⟩))))
    · exact Heap.read_write_self (Heap.lt_fresh hstill) _
    · have hboth := (Moves.free h s).both
        (Moves.write (h.free s) p (.txOut ⟨0xffffffffffffffff, none⟩))
      rw [Set.empty_union, Set.union_comm] at hboth
      exact hboth

/-! ## The copy -/

variable {h m : Heap MemCell} {p inNum : ℕ} {tx : Tx} {fp : Set ℕ} {hashtype : UInt32}

/-- The outputs up to the one of the signed input, with nothing in those before it. -/
theorem blanked_outputs {vout : List TxOut} (hn : inNum < vout.length) :
    ((vout.take (inNum + 1)).take inNum).mapIdx
        (fun _ _ => ({ value := 0xffffffffffffffff, scriptPubkey := [] } : TxOut)) ++
      (vout.take (inNum + 1)).drop inNum = SighashBase.single.outputs inNum vout := by
  have hlen : (vout.take inNum).length = inNum := List.length_take_of_le (Nat.le_of_lt hn)
  unfold SighashBase.outputs
  rw [List.take_take, Nat.min_eq_left (Nat.le_succ inNum), List.take_add_one, List.drop_left' hlen]
  congr 1
  refine List.eq_replicate_iff.mpr ⟨?_, fun txOut hmem => ?_⟩
  · rw [List.length_mapIdx, hlen]
  · obtain ⟨i, hi, rfl⟩ := List.mem_mapIdx.mp hmem
    rfl

variable {code : Bytes} {pf : Platform}

/-- The sequences are cleared behind the scripts. -/
theorem ends_sequences (tx : Tx)
    (hat : TxAt h p { tx with vin := sighashInputs code inNum tx.vin } fp) :
    Ends (txOnVin p (vectorForEach (sighashSequence inNum))) h fun _ h' => ∃ fp',
      TxAt h' p { tx with vin := sighashSequences inNum (sighashInputs code inNum tx.vin) } fp' ∧
      Moves h fp h' fp' :=
  ends_txOnVin hat fun _ _ hvin => ends_vectorForEach (changes_sighashSequence inNum) hvin

/-- The outputs make room for an empty vector. -/
theorem ends_noOutputs (hat : TxAt h p tx fp) :
    Ends (txReplaceVout p fun vout => do
        vectorFree txOutFree vout
        let new ← vectorNew
        pure (some new)) h fun _ h' => ∃ fp', TxAt h' p { tx with vout := [] } fp' ∧
          Moves h fp h' fp' := by
  refine ends_txReplaceVout hat fun vout fo hvout _ => ?_
  refine Ends.bind ((frees_vectorFree frees_txOutFree hvout).mono fun _ h₁ hmoves₁ => ?_)
  refine Ends.bind ((ends_vectorNew txOutLayout).mono fun new h₂ hnew => ends_pure ?_)
  exact ⟨new, {new}, rfl, hnew.1, hmoves₁.trans hnew.2⟩

theorem ends_outputs (hat : TxAt h p tx fp) :
    Ends (txOnVout p (readAs MemCell.asVector)) h fun items h' =>
    items.length = tx.vout.length ∧ h' = h := by
  obtain ⟨hcell, hvin, ⟨hvout, hrow, hnot⟩, hdisj, hapart⟩ := hat
  exact Ends.bind (ends_readAs hcell rfl
    (Ends.bind (ends_pure (ends_readAs hvout rfl ⟨hrow.length_eq, rfl⟩))))

/-- The outputs are cut behind the one of the signed input, and those before it cleared. -/
theorem ends_singleOutputs {x : TxProg Bool} {Q : Bool → Heap MemCell → Prop} (hat : TxAt h p tx fp)
    (hn : inNum < tx.vout.length)
    (hx : ∀ h' fp', TxAt h' p { tx with vout := SighashBase.single.outputs inNum tx.vout } fp' →
      Moves h fp h' fp' →
      Ends x h' Q) :
    Ends (do
        txOnVout p fun vout => vectorResize txOutFree vout (inNum + 1)
        txOnVout p (vectorForFirst inNum sighashBlank)
        x) h Q := by
  refine Ends.bind ((ends_txOnVout hat fun vout fo hvout =>
    ends_vectorResize frees_txOutFree hvout (inNum + 1)).mono fun _ h₁ hend => ?_)
  obtain ⟨fp₁, hat₁, hmoves₁⟩ := hend
  refine Ends.bind ((ends_txOnVout hat₁ fun vout fo hvout =>
    ends_vectorForFirst changes_sighashBlank hvout inNum).mono fun _ h₂ hend => ?_)
  obtain ⟨fp₂, hat₂, hmoves₂⟩ := hend
  dsimp only at hat₂
  rw [blanked_outputs hn] at hat₂
  exact hx h₂ fp₂ hat₂ (hmoves₁.trans hmoves₂)

/-- **The copy is cleared** as the base of the hash type says. -/
theorem ends_sighashClear (hat : TxAt h p { tx with vin := sighashInputs code inNum tx.vin } fp) :
    Ends (sighashClear p inNum hashtype) h fun ret h' => ∃ tmp fp', TxAt h' p tmp fp' ∧
    Moves h fp h' fp' ∧
      sighashTmp tx code inNum (sighashBase hashtype) = if ret then some tmp else none := by
  unfold sighashClear sighashBase
  by_cases hnone : hashtype &&& 0x1f = sighashNone
  · rw [if_pos hnone, if_pos hnone]
    refine Ends.bind ((ends_noOutputs hat).mono fun _ h₁ hend => ?_)
    obtain ⟨fp₁, hat₁, hmoves₁⟩ := hend
    refine Ends.bind ((ends_sequences { tx with vout := [] } hat₁).mono fun _ h₂ hend =>
      ends_pure ?_)
    obtain ⟨fp₂, hat₂, hmoves₂⟩ := hend
    exact ⟨_, fp₂, hat₂, hmoves₁.trans hmoves₂, rfl⟩
  · rw [if_neg hnone, if_neg hnone]
    by_cases hsingle : hashtype &&& 0x1f = sighashSingle
    · rw [if_pos hsingle, if_pos hsingle]
      refine Ends.bind ((ends_outputs hat).mono fun items h₁ hend => ?_)
      obtain ⟨hlen, rfl⟩ := hend
      dsimp only at hlen
      rw [hlen]
      by_cases hout : inNum ≥ tx.vout.length
      · rw [if_pos hout]
        exact ends_pure ⟨_, fp, hat, .refl _ _, if_pos hout⟩
      · rw [if_neg hout]
        refine ends_singleOutputs hat (Nat.not_le.mp hout) fun h₁ fp₁ hat₁ hmoves₁ => ?_
        refine Ends.bind ((ends_sequences
          { tx with vout := SighashBase.single.outputs inNum tx.vout } hat₁).mono
          fun _ h₂ hend => ends_pure ?_)
        obtain ⟨fp₂, hat₂, hmoves₂⟩ := hend
        refine ⟨_, fp₂, hat₂, hmoves₁.trans hmoves₂, ?_⟩
        rw [sighashTmp, if_neg hout, single_outputs (Nat.not_le.mp hout)]
        rfl
    · rw [if_neg hsingle, if_neg hsingle]
      exact ends_pure ⟨_, fp, hat, .refl _ _, rfl⟩

/-- **The copy is cut** to the signed input. -/
theorem ends_sighashCut (hat : TxAt h p tx fp) (hn : inNum < tx.vin.length) :
    Ends (sighashCut p inNum) h fun _ h' =>
      ∃ fp', TxAt h' p { tx with vin := (tx.vin.drop inNum).take 1 } fp' ∧ Moves h fp h' fp' := by
  have hresize := fun {h : Heap MemCell} {vin : ℕ} {fi : Set ℕ} {ins : List TxIn}
      (hvin : VectorAt txInLayout h vin ins fi) => ends_vectorResize frees_txInFree hvin 1
  by_cases hpos : inNum > 0
  · rw [sighashCut, if_pos hpos]
    refine Ends.bind ((ends_txOnVin hat fun vin fi hvin =>
      ends_vectorRemoveRange frees_txInFree hvin (Nat.le_of_lt hn)).mono fun _ h₁ hend => ?_)
    obtain ⟨fp₁, hat₁, hmoves₁⟩ := hend
    refine (ends_txOnVin hat₁ fun vin fi hvin => hresize hvin).mono fun _ h₂ hend => ?_
    obtain ⟨fp₂, hat₂, hmoves₂⟩ := hend
    exact ⟨fp₂, hat₂, hmoves₁.trans hmoves₂⟩
  · obtain rfl : inNum = 0 := Nat.eq_zero_of_not_pos hpos
    rw [sighashCut, if_neg hpos]
    exact ends_txOnVin hat fun vin fi hvin => hresize hvin

/-! ## What is hashed -/

/-- What is hashed of a transaction, and its hash. -/
def hashed (pf : Platform) (hashtype : UInt32) (tmp : Tx) : Bytes × Uint256 :=
  (txSerialize tmp ++ serU32 hashtype, pf.sha256d (txSerialize tmp ++ serU32 hashtype))

theorem length_sighashTmp {base : SighashBase} {tmp : Tx}
    (htmp : sighashTmp tx code inNum base = some tmp) :
    tmp.vin.length = tx.vin.length := by
  have hinputs : (sighashInputs code inNum tx.vin).length = tx.vin.length := List.length_mapIdx
  have hsequences : (sighashSequences inNum (sighashInputs code inNum tx.vin)).length =
    tx.vin.length :=
    List.length_mapIdx.trans hinputs
  cases base with
  | all =>
    obtain rfl := Option.some.inj htmp
    exact hinputs
  | none =>
    obtain rfl := Option.some.inj htmp
    exact hsequences
  | single =>
    unfold sighashTmp at htmp
    by_cases hout : inNum ≥ tx.vout.length
    · rw [if_pos hout] at htmp
      cases htmp
    · rw [if_neg hout] at htmp
      obtain rfl := Option.some.inj htmp
      exact hsequences

/-- What is left of the copy is written and freed. -/
theorem ends_hashed (hat : TxAt h p tx fp) (hown : Moves m ∅ h fp) :
    Ends (do
        let tmp ← txValue p
        let s := txSerialize tmp ++ serU32 hashtype
        txFree p
        pure (some (s, pf.sha256d s))) h fun out h' => Moves m ∅ h' ∅ ∧
          out = some (hashed pf hashtype tx) := by
  refine Ends.bind ((ends_txValue hat).mono fun t h₁ hvalue => ?_)
  obtain ⟨rfl, rfl⟩ := hvalue
  exact Ends.bind ((ends_txFree hat).mono fun _ h₂ hmoves => ends_pure ⟨hown.trans hmoves, rfl⟩)

/-- The copy is cleared, cut, written and freed. -/
theorem ends_sighashTmp (hn : inNum < tx.vin.length)
    (hat : TxAt h p { tx with vin := sighashInputs code inNum tx.vin } fp) (hown : Moves m ∅ h fp) :
    Ends (do
        let ret ← sighashClear p inNum hashtype
        if ret = false then do
          txFree p
          pure none
        else do
          if hashtype &&& sighashAnyonecanpay ≠ 0 then sighashCut p inNum else pure ()
          let tmp ← txValue p
          let s := txSerialize tmp ++ serU32 hashtype
          txFree p
          pure (some (s, pf.sha256d s))) h fun out h' => Moves m ∅ h' ∅ ∧
      out = (sighashTmp tx code inNum (sighashBase hashtype)).map fun tmp => hashed pf hashtype
        (if anyoneCanPay hashtype then { tmp with vin := (tmp.vin.drop inNum).take 1 } else
          tmp) := by
  refine Ends.bind ((ends_sighashClear hat).mono fun ret h₁ hend => ?_)
  obtain ⟨tmp, fp₁, hat₁, hmoves₁, htmp⟩ := hend
  rw [htmp]
  cases ret with
  | false =>
    rw [if_pos rfl]
    refine Ends.bind ((ends_txFree hat₁).mono fun _ h₂ hmoves₂ => ends_pure ⟨?_, rfl⟩)
    exact hown.trans (hmoves₁.trans hmoves₂)
  | true =>
    have hlen := length_sighashTmp htmp
    have hnot : ¬ true = false := Bool.noConfusion
    rw [if_neg hnot, if_pos rfl, Option.map_some]
    unfold anyoneCanPay
    by_cases hany : hashtype &&& sighashAnyonecanpay ≠ 0
    · rw [if_pos hany, if_pos (decide_eq_true hany)]
      refine Ends.bind ((ends_sighashCut hat₁ (hlen ▸ hn)).mono fun _ h₂ hend => ?_)
      obtain ⟨fp₂, hat₂, hmoves₂⟩ := hend
      exact ends_hashed hat₂ (hown.trans (hmoves₁.trans hmoves₂))
    · rw [if_neg hany, if_neg fun hset => hany (of_decide_eq_true hset)]
      exact ends_hashed hat₁ (hown.trans hmoves₁)

/-- The signature hash from the copy on. -/
theorem ends_sighashCopy {fromPubKey : ℕ} {script : Bytes} (htx : TxHolds m p tx)
    (hscript : m.read fromPubKey = some (.cstr script)) (hn : inNum < tx.vin.length) :
    Ends (do
        let txTmp ← txNew
        txCopy txTmp p
        let script ← readAs MemCell.asCstr fromPubKey
        let newScript ← cstrNewBuf (scriptCopyWithoutOpCodeseperator script).1
        let copied ← readAs MemCell.asCstr newScript
        txOnVin txTmp (vectorForEach (sighashScript copied inNum))
        cstrFree (some newScript)
        let ret ← sighashClear txTmp inNum hashtype
        if ret = false then do
          txFree txTmp
          pure none
        else do
          if hashtype &&& sighashAnyonecanpay ≠ 0 then sighashCut txTmp inNum else pure ()
          let tmp ← txValue txTmp
          let s := txSerialize tmp ++ serU32 hashtype
          txFree txTmp
          pure (some (s, pf.sha256d s))) m fun out h' => Moves m ∅ h' ∅ ∧
      out = (sighashTx tx script inNum hashtype).map (hashed pf hashtype) := by
  rw [sighashTx_steps hn, Option.map_map]
  refine Ends.bind (ends_txNew.mono fun q h₁ hend => ?_)
  obtain ⟨fp₁, hat₁, hmoves₁⟩ := hend
  refine Ends.bind ((ends_txCopy htx hat₁ hmoves₁).mono fun _ h₂ hend => ?_)
  obtain ⟨fp₂, hat₂, hmoves₂⟩ := hend
  have hown₂ := hmoves₁.trans hmoves₂
  refine Ends.bind (ends_readAs (hown₂.read_eq hscript) rfl ?_)
  refine Ends.bind ((ends_cstrNewBuf _).mono fun new h₃ hend => ?_)
  obtain ⟨hnew, hmoves₃⟩ := hend
  have hat₃ := txLayout.frame hat₂ hmoves₃ (Set.empty_disjoint _)
  have hdisj₃ := (hmoves₃.disjoint (Set.empty_disjoint fp₂) fun q hq =>
    txLayout.lt_fresh hat₂ hq).symm
  refine Ends.bind (ends_readAs hnew rfl ?_)
  refine Ends.bind ((ends_txOnVin hat₃ fun vin fi hvin =>
    ends_vectorForEach (changes_sighashScript _ inNum) hvin).mono fun _ h₄ hend => ?_)
  obtain ⟨fp₄, hat₄, hmoves₄⟩ := hend
  have hnew₄ := (hmoves₄.frame new (Heap.lt_fresh hnew)
    (Set.disjoint_singleton_right.mp hdisj₃)).trans hnew
  have hdisj₄ := hmoves₄.disjoint hdisj₃ fun q hq =>
    (Set.mem_singleton_iff.mp hq) ▸ Heap.lt_fresh hnew
  -- the new script is gone before the copy is cleared
  have hgone := Moves.free h₄ new
  have hat₅ := txLayout.frame hat₄ hgone hdisj₄.symm
  have hown₅ : Moves m ∅ (h₄.free new) fp₄ := by
    have hboth := (hown₂.both hmoves₃).trans (hmoves₄.frame_cells {new})
    have hfree := hgone.frame_cells fp₄
    rw [Set.union_comm, Set.empty_union] at hfree
    rw [Set.union_empty] at hboth
    exact hboth.trans hfree
  exact Ends.bind (ends_free hnew₄ (ends_sighashTmp hn hat₅ hown₅))

/-! ## The message -/

/-- A transaction that is given to be signed: its inputs have their scripts, and its vector of
outputs may be a null pointer. -/
inductive TxGiven (h : Heap MemCell) (p : ℕ) (tx : Tx) : Bool → Prop
  | outputs : TxHolds h p tx → TxGiven h p tx true
  | null {vin : ℕ} {ins : List ℕ} :
      h.read p = some (.tx ⟨tx.version, some vin, none, tx.locktime⟩) →
      h.read vin = some (.vector ins) → List.Forall₂ (txInLayout.Holds h) ins tx.vin →
      tx.vout = [] →
      TxGiven h p tx false

theorem TxGiven.keep {h' : Heap MemCell} {hasVout : Bool} (hgiven : TxGiven h p tx hasVout)
    (hmoves : Moves h ∅ h' fp) :
    TxGiven h' p tx hasVout := by
  cases hgiven with
  | outputs hholds => exact .outputs (hholds.keep hmoves)
  | null hcell hvin hins hempty =>
    exact .null (hmoves.read_eq hcell) (hmoves.read_eq hvin) (hins.imp fun _ _ hin =>
      hin.keep hmoves) hempty

/-- **The signature hash in memory** is that of the values, and no object that was there before is
changed. -/
theorem ends_txSighash {pf : Platform} {fromPubKey : ℕ} {script : Bytes} {hasVout : Bool}
    (htx : TxGiven m p tx hasVout) (hscript : m.read fromPubKey = some (.cstr script)) :
    Ends (txSighash pf p fromPubKey inNum hashtype) m fun out h' => Moves m ∅ h' ∅ ∧
      out = if hasVout then (sighashTx tx script inNum hashtype).map (hashed pf hashtype) else
        none := by
  cases htx with
  | null hcell hvin hins hempty =>
    refine Ends.bind (ends_readAs hcell rfl
      (Ends.bind (ends_pure (Ends.bind (ends_readAs hvin rfl ?_)))))
    rw [if_pos (Or.inr rfl)]
    exact ends_pure ⟨.refl _ _, rfl⟩
  | outputs htx =>
    have hholds := htx
    obtain ⟨vin, vout, ins, outs, hcell, hvin, hins, hvout, houts⟩ := htx
    have hlen := hins.length_eq
    refine Ends.bind (ends_readAs hcell rfl
      (Ends.bind (ends_pure (Ends.bind (ends_readAs hvin rfl ?_)))))
    by_cases hn : inNum < tx.vin.length
    · have hgo : ¬ (inNum ≥ ins.length ∨ some vout = none) := by
        rintro (hge | hnull)
        · exact absurd (hlen ▸ hn) (Nat.not_lt.mpr hge)
        · cases hnull
      rw [if_neg hgo, if_pos rfl]
      exact ends_sighashCopy hholds hscript hn
    · have hnone : sighashTx tx script inNum hashtype = none := by
        rw [sighashTx_eq, if_neg fun h => hn h.1]
      rw [if_pos (Or.inl (hlen ▸ Nat.not_lt.mp hn)), if_pos rfl, hnone]
      exact ends_pure ⟨.refl _ _, rfl⟩

/-- Below `2 ^ 32` inputs and outputs the call returns. -/
theorem ends_txSighashReturns {pf : Platform} {fromPubKey : ℕ} {hasVout : Bool}
    {Q : Option (Bytes × Uint256) → Heap MemCell → Prop} (htx : TxGiven m p tx hasVout)
    (hvin : tx.vin.length < 2 ^ 32) (hvout : tx.vout.length < 2 ^ 32)
    (h : Ends (txSighash pf p fromPubKey inNum hashtype) m Q) :
    Ends (txSighashReturns pf p fromPubKey inNum hashtype) m Q := by
  cases htx with
  | null hcell hread hins _ =>
    refine Ends.bind (ends_readAs hcell rfl
      (Ends.bind (ends_readAs hread rfl (Ends.bind (ends_pure ?_)))))
    rw [if_neg fun hlong => hlong.1.2 rfl]
    exact h
  | outputs hholds =>
    obtain ⟨vin, vout, ins, outs, hcell, hread, hins, hreadOut, houts⟩ := hholds
    rw [← hins.length_eq] at hvin
    rw [← houts.length_eq] at hvout
    refine Ends.bind (ends_readAs hcell rfl (Ends.bind (ends_readAs hread rfl
      (Ends.bind (ends_readAs hreadOut rfl ?_)))))
    rw [if_neg fun hlong => hlong.2.elim (Nat.not_le.mpr hvin) (Nat.not_le.mpr hvout)]
    exact h

/-- **The bytes that are hashed are the message of the signature**, with fewer than `2 ^ 32` inputs
and outputs. Nothing is hashed if the index is out of range, if the outputs are a null pointer, or
if there must be an output for the input and there is none. The transaction and every other object
in memory is as it was before. -/
theorem txSighash_legacyPreimage (pf : Platform) {m : Heap MemCell} {txTo fromPubKey : ℕ} {tx : Tx}
    {script : Bytes} {hasVout : Bool} (htx : TxGiven m txTo tx hasVout)
    (hvin : tx.vin.length < 2 ^ 32)
    (hvout : tx.vout.length < 2 ^ 32) (hscript : m.read fromPubKey = some (.cstr script))
    (inNum : ℕ)
    (hashtype : UInt32) :
    ∃ m', txSighashReturns pf txTo fromPubKey inNum hashtype m = some
        (if inNum < tx.vin.length ∧ hasVout = true ∧
          (sighashBase hashtype).HasOutput inNum tx.vout then
          let s := legacyPreimage tx (scriptCopyWithoutOpCodeseperator script).1 inNum hashtype
          some (s, pf.sha256d s)
        else none, m') ∧
      TxGiven m' txTo tx hasVout ∧ ∀ p a, m.read p = some a → m'.read p = some a := by
  obtain ⟨out, m', hrun, hmoves, rfl⟩ := ends_txSighashReturns htx hvin hvout
    (@ends_txSighash _ _ inNum _ hashtype pf _ _ _ htx hscript)
  refine ⟨m', ?_, htx.keep hmoves, fun p a hread => hmoves.read_eq hread⟩
  rw [hrun, sighashTx_eq]
  congr 2
  cases hasVout with
  | false =>
    rw [if_neg Bool.noConfusion, if_neg fun h => Bool.noConfusion h.2.1]
  | true =>
    by_cases hboth : inNum < tx.vin.length ∧ (sighashBase hashtype).HasOutput inNum tx.vout
    · rw [if_pos rfl, if_pos hboth, if_pos ⟨hboth.1, rfl, hboth.2⟩]
      rfl
    · rw [if_pos rfl, if_neg hboth, if_neg fun h => hboth ⟨h.1, h.2.2⟩]
      rfl

/-- Two inputs with their scripts, and two outputs. -/
def sampleTx : Tx where
  version := 1
  vin := [{ prevout := ⟨Uint256.zero, 0⟩, scriptSig := [0x51], sequence := 0xffffffff },
    { prevout := ⟨Uint256.zero, 7⟩, scriptSig := [], sequence := 5 }]
  vout := [{ value := 9, scriptPubkey := [0x52, 0x53] }, { value := 8, scriptPubkey := [0x54] }]
  locktime := 3

/-- The transaction in memory, and a script to sign with that has a separator in it. -/
def sampleMemory : Heap MemCell where
  cells := [some (.tx ⟨1, some 1, some 2, 3⟩), some (.vector [3, 5]), some (.vector [7, 9]),
    some (.txIn ⟨⟨Uint256.zero, 0⟩, some 4, 0xffffffff⟩), some (.cstr [0x51]),
    some (.txIn ⟨⟨Uint256.zero, 7⟩, some 6, 5⟩), some (.cstr []),
    some (.txOut ⟨9, some 8⟩), some (.cstr [0x52, 0x53]), some (.txOut ⟨8, some 10⟩),
      some (.cstr [0x54]),
    some (.cstr [0x51, 0xab, 0x52])]

/-- The second input is signed, with all outputs, with none, with its own, and alone. -/
theorem txSighash_legacyPreimage_sample :
    ([0x01, 0x02, 0x03, 0x81, 0x83] : List UInt32).Forall fun hashtype => ∃ m',
      txSighashReturns samplePlatform 0 11 1 hashtype sampleMemory = some
        ((let s := legacyPreimage sampleTx
            (scriptCopyWithoutOpCodeseperator [0x51, 0xab, 0x52]).1 1 hashtype
          some (s, samplePlatform.sha256d s)), m') ∧
      TxGiven m' 0 sampleTx true ∧ ∀ p a, sampleMemory.read p = some a → m'.read p = some a := by
  refine List.forall_iff_forall_mem.mpr fun hashtype hmem => ?_
  have hgiven : TxGiven sampleMemory 0 sampleTx true :=
    .outputs ⟨1, 2, [3, 5], [7, 9], rfl, rfl,
      .cons ⟨{3, 4}, .mk rfl rfl⟩ (.cons ⟨{5, 6}, .mk rfl rfl⟩ .nil), rfl,
      .cons ⟨{7, 8}, .script rfl rfl⟩ (.cons ⟨{9, 10}, .script rfl rfl⟩ .nil)⟩
  have hrun := @txSighash_legacyPreimage samplePlatform _ 0 11 _ [0x51, 0xab, 0x52] _ hgiven
    (by decide) (by decide) rfl 1 hashtype
  have houtput : 1 < sampleTx.vin.length ∧ true = true ∧
      (sighashBase hashtype).HasOutput 1 sampleTx.vout := by
    obtain rfl | rfl | rfl | rfl | rfl : hashtype = 0x01 ∨ hashtype = 0x02 ∨ hashtype = 0x03 ∨
        hashtype = 0x81 ∨ hashtype = 0x83 := by simpa using hmem
    all_goals decide
  rwa [if_pos houtput] at hrun

/-- A transaction with one input and without a vector of outputs, and a script to sign with. -/
def nullMemory : Heap MemCell where
  cells := [some (.tx ⟨1, some 1, none, 0⟩), some (.vector [2]),
    some (.txIn ⟨⟨Uint256.zero, 0⟩, some 3, 0⟩), some (.cstr []), some (.cstr [0x51])]

/-- Nothing is hashed where the vector of outputs is a null pointer, with the index in range and all
outputs signed. -/
theorem not_txSighash_legacyPreimage :
    ¬ ∀ (pf : Platform) (m : Heap MemCell) (txTo fromPubKey : ℕ) (tx : Tx) (script : Bytes)
      (hasVout : Bool), TxGiven m txTo tx hasVout → m.read fromPubKey = some (.cstr script) →
      ∀ (inNum : ℕ) (hashtype : UInt32),
      ∃ m', txSighashReturns pf txTo fromPubKey inNum hashtype m = some
        (if inNum < tx.vin.length ∧ (sighashBase hashtype).HasOutput inNum tx.vout then
          let s := legacyPreimage tx (scriptCopyWithoutOpCodeseperator script).1 inNum hashtype
          some (s, pf.sha256d s)
        else none, m') := by
  intro hall
  obtain ⟨m', hrun⟩ := hall samplePlatform nullMemory 0 4
    ⟨1, [⟨⟨Uint256.zero, 0⟩, [], 0⟩], [], 0⟩
    [0x51] false (.null rfl rfl (.cons ⟨{2, 3}, .mk rfl rfl⟩ .nil) rfl) rfl 0 1
  have hnone : txSighashReturns samplePlatform 0 4 0 1 nullMemory = some (none, nullMemory) := rfl
  rw [hnone, if_pos (by decide)] at hrun
  cases hrun

end TxMemory

end Libdogecoin
