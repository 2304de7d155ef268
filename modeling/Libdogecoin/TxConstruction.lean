/-
# Transactions as they are built

The objects of `tx.c` and `transaction.c` before they are signed: an input has no script of its own
until it is parsed or signed, and a copy of it has none either.

* `ends_txAddInputTs`, `ends_addUtxoTs` : one more input, with the script it had or without one;
* `Construction.ends_run` : every history of constructors leaves the transaction that it says in
  memory.
-/
import Libdogecoin.TxMemory

namespace Libdogecoin

namespace TxMemory

open HeapProg

/-! ## Inputs without a script -/

/-- An input whose script may be a null pointer. -/
structure BuiltIn where
  prevout : TxOutpoint
  scriptSig : Option Bytes
  sequence : UInt32

/-- The input where it has no script is written as if its script were empty. -/
def BuiltIn.written (txIn : BuiltIn) : TxIn :=
  { prevout := txIn.prevout, scriptSig := txIn.scriptSig.getD [], sequence := txIn.sequence }

/-- An input, and its script if it has one. -/
inductive BuiltInAt (h : Heap MemCell) (p : ℕ) (txIn : BuiltIn) : Set ℕ → Prop
  | null : h.read p = some (.txIn ⟨txIn.prevout, none, txIn.sequence⟩) → txIn.scriptSig = none →
      BuiltInAt h p txIn {p}
  | script {s : ℕ} {str : Bytes} : h.read p = some (.txIn ⟨txIn.prevout, some s, txIn.sequence⟩) →
      h.read s = some (.cstr str) → txIn.scriptSig = some str → BuiltInAt h p txIn {p, s}

def builtInLayout : Layout MemCell BuiltIn where
  At := BuiltInAt
  allocated := by
    rintro h p txIn fp hat q hq
    cases hat with
    | null hcell hnull => exact ⟨_, (Set.mem_singleton_iff.mp hq) ▸ hcell⟩
    | script hcell hscript hstr =>
      rcases hq with rfl | rfl
      · exact ⟨_, hcell⟩
      · exact ⟨_, hscript⟩
  agree := by
    rintro h h' p txIn fp hat hsame
    cases hat with
    | null hcell hnull => exact .null ((hsame _ rfl).trans hcell) hnull
    | script hcell hscript hstr =>
      exact .script ((hsame _ (Or.inl rfl)).trans hcell) ((hsame _ (Or.inr rfl)).trans hscript) hstr

/-- A transaction as it is built. -/
abbrev BuiltTx := TxOver BuiltIn

/-- A transaction as it is built, in memory. -/
abbrev builtTxLayout : Layout MemCell BuiltTx := txOverLayout builtInLayout

/-- Every input has its script. -/
def HasScripts (tx : BuiltTx) : Prop := ∀ txIn ∈ tx.vin, txIn.scriptSig ≠ none

variable {h m : Heap MemCell} {p : ℕ} {fp : Set ℕ}

/-- An input with its script lies as one of a parsed transaction does. -/
theorem txInAt_of_builtInAt {txIn : BuiltIn} {str : Bytes} (hat : builtInLayout.At h p txIn fp)
    (hscript : txIn.scriptSig = some str) :
    txInLayout.At h p ⟨txIn.prevout, str, txIn.sequence⟩ fp := by
  cases hat with
  | null hcell hnull => rw [hnull] at hscript; cases hscript
  | script hcell hread hstr =>
    obtain rfl : _ = str := Option.some.inj (hstr.symm.trans hscript)
    exact .mk hcell hread

theorem frees_builtIn : Frees builtInLayout txInFree := by
  intro h p txIn fp hat
  cases hat with
  | null hcell hnull =>
    refine Ends.bind (ends_readAs hcell rfl (Ends.bind (ends_pure ?_)))
    exact ends_free hcell (Moves.free h p)
  | @script s str hcell hscript hstr =>
    have hin : txInLayout.At h p ⟨txIn.prevout, str, txIn.sequence⟩ {p, s} := .mk hcell hscript
    exact frees_txInFree hin

/-- **A copy of an input** has a script if and only if the input has one. -/
theorem copies_builtIn : Copies builtInLayout txInClone := by
  intro h p txIn fp hat
  have hnew := fun a : MemCell => Heap.read_alloc_self h a
  cases hat with
  | null hcell hnull =>
    -- there is nothing to copy, and the pointer stays null
    refine Ends.bind (ends_alloc (Ends.bind
      (Ends.bind (ends_readAs (Heap.read_alloc hcell _) rfl ?_))))
    refine Ends.bind (ends_readAs (hnew _) rfl (Ends.bind (ends_pure (Ends.bind (ends_pure ?_)))))
    refine ends_write (hnew _) (ends_pure ⟨{h.fresh}, .null ?_ hnull, ?_⟩)
    · exact Heap.read_write_self (Heap.lt_fresh (hnew _)) _
    · exact (Moves.alloc h _).trans (Moves.write_mem (Set.mem_singleton _) _ _)
  | @script s str hcell hscript hstr =>
    have hin : txInLayout.At h p ⟨txIn.prevout, str, txIn.sequence⟩ {p, s} := .mk hcell hscript
    refine (copies_txInClone hin).mono fun copy h' hcopy => ?_
    obtain ⟨fp', ⟨hcell', hscript'⟩, hmoves⟩ := hcopy
    exact ⟨_, .script hcell' hscript' hstr, hmoves⟩

/-! ## Constructors -/

/-- `dogecoin_tx_add_input_ts`. -/
def txAddInputTs (tx txIn : ℕ) : TxProg Bool := do
  let cell ← readAs MemCell.asTx tx
  if cell.vin = none then pure false
  else do
    txOnVin tx fun vin => do
      let new ← txInClone txIn
      vectorAdd vin new
    pure true

/-- `dogecoin_tx_add_output_ts`. -/
def txAddOutputTs (tx txOut : ℕ) : TxProg Bool := do
  let cell ← readAs MemCell.asTx tx
  if cell.vout = none then pure false
  else do
    txOnVout tx fun vout => do
      let new ← txOutClone txOut
      vectorAdd vout new
    pure true

/-- The number of inputs. -/
def txVinLen (tx : ℕ) : TxProg ℕ := txOnVin tx fun vin => do
  let items ← readAs MemCell.asVector vin
  pure items.length

/-- `add_utxo_ts` on the working transaction that was found, with the hash that was read. -/
def addUtxoTs (tx : ℕ) (prevout : TxOutpoint) : TxProg Bool := do
  let flag ← txVinLen tx
  let txIn ← txInNew
  let new ← readAs MemCell.asTxIn txIn
  write txIn (.txIn { new with prevout := prevout })
  -- the transaction takes a copy of the input, which is freed here
  let added ← txAddInputTs tx txIn
  txInFree txIn
  let len ← txVinLen tx
  pure (added && flag + 1 == len)

/-- An input of the caller. -/
def txInOf (txIn : BuiltIn) : TxProg ℕ := match txIn.scriptSig with
  | none => alloc (.txIn ⟨txIn.prevout, none, txIn.sequence⟩)
  | some str => do
      let script ← cstrNewBuf str
      alloc (.txIn ⟨txIn.prevout, some script, txIn.sequence⟩)

/-- An output of the caller. -/
def txOutOf (txOut : TxOut) : TxProg ℕ := do
  let script ← cstrNewBuf txOut.scriptPubkey
  alloc (.txOut ⟨txOut.value, some script⟩)

section
variable {tx : BuiltTx} {txIn : BuiltIn}

variable {src : ℕ} {fs : Set ℕ}

theorem ends_txAddInputTs (hat : builtTxLayout.At h p tx fp)
    (hsrc : builtInLayout.At h src txIn fs) :
    Ends (txAddInputTs p src) h fun added h' => added = true ∧
      ∃ fp', builtTxLayout.At h' p { tx with vin := tx.vin ++ [txIn] } fp' ∧ Moves h fp h' fp' := by
  have hcell := hat
  obtain ⟨hcell, -, -, -, -⟩ := hcell
  refine Ends.bind (ends_readAs hcell rfl ?_)
  rw [if_neg (Option.some_ne_none _)]
  refine Ends.bind ((ends_txOnVin_over hat fun vin fi hvin _ => ?_).mono fun _ h' hend =>
    ends_pure ⟨rfl, hend⟩)
  obtain ⟨hread, hrow, hnot⟩ := hvin
  refine (ends_vectorAddClone copies_builtIn hread hrow hnot hsrc).mono fun _ h' hadd => ?_
  obtain ⟨new, fq, hread', hrow', hnot', hmoves⟩ := hadd
  exact ⟨_, .mk hread' hrow' hnot', hmoves⟩

theorem ends_txAddOutputTs {txOut : TxOut} (hat : builtTxLayout.At h p tx fp)
    (hsrc : txOutLayout.At h src txOut fs) :
    Ends (txAddOutputTs p src) h fun added h' => added = true ∧
      ∃ fp', builtTxLayout.At h' p { tx with vout := tx.vout ++ [txOut] } fp' ∧
      Moves h fp h' fp' := by
  have hcell := hat
  obtain ⟨hcell, -, -, -, -⟩ := hcell
  refine Ends.bind (ends_readAs hcell rfl ?_)
  rw [if_neg (Option.some_ne_none _)]
  refine Ends.bind ((ends_txOnVout_over hat fun vout fo hvout _ => ?_).mono fun _ h' hend =>
    ends_pure ⟨rfl, hend⟩)
  obtain ⟨hread, hrow, hnot⟩ := hvout
  refine (ends_vectorAddClone copies_txOutClone hread hrow hnot hsrc).mono fun _ h' hadd => ?_
  obtain ⟨new, fq, hread', hrow', hnot', hmoves⟩ := hadd
  exact ⟨_, .mk hread' hrow' hnot', hmoves⟩

theorem ends_txVinLen (hat : builtTxLayout.At h p tx fp) :
    Ends (txVinLen p) h fun len h' => len = tx.vin.length ∧ h' = h := by
  obtain ⟨hcell, ⟨hvin, hrow, -⟩, -, -, -⟩ := hat
  exact Ends.bind (ends_readAs hcell rfl (Ends.bind (ends_pure (Ends.bind (ends_readAs hvin rfl
    (ends_pure ⟨hrow.length_eq, rfl⟩))))))

/-- An input of the caller is added, and freed. -/
theorem ends_addInput {α : Type} {x : Bool → TxProg α} {Q : α → Heap MemCell → Prop}
    (hat : builtTxLayout.At h p tx fp) (hsrc : builtInLayout.At h src txIn fs)
    (hdisj : Disjoint fp fs)
    (hx : ∀ h' fp', builtTxLayout.At h' p { tx with vin := tx.vin ++ [txIn] } fp' →
      Moves h (fp ∪ fs) h' fp' →
      Ends (x true) h' Q) :
    Ends (do
        let added ← txAddInputTs p src
        txInFree src
        x added) h Q := by
  refine Ends.bind ((ends_txAddInputTs hat hsrc).mono fun added h₁ hadd => ?_)
  obtain ⟨rfl, fp₁, hat₁, hmoves₁⟩ := hadd
  refine Ends.bind ((frees_builtIn.beside hsrc hmoves₁ hdisj).mono fun _ h₂ hend => ?_)
  obtain ⟨hboth, hmoves₂, hapart⟩ := hend
  exact hx h₂ fp₁ (builtTxLayout.frame hat₁ hmoves₂ hapart) hboth

end

theorem ends_txInOf (txIn : BuiltIn) :
    Ends (txInOf txIn) h fun p h' => ∃ fp, builtInLayout.At h' p txIn fp ∧ Moves h ∅ h' fp := by
  unfold txInOf
  cases hscript : txIn.scriptSig with
  | none => exact ends_alloc ⟨_, .null (Heap.read_alloc_self h _) hscript, Moves.alloc h _⟩
  | some str =>
    refine Ends.bind ((ends_cstrNewBuf str).mono fun s h₁ hnew => ends_alloc ?_)
    obtain ⟨hread, hmoves⟩ := hnew
    refine ⟨_, .script (Heap.read_alloc_self h₁ _) (Heap.read_alloc hread _) hscript, ?_⟩
    exact hmoves.then_alloc _

theorem ends_txOutOf (txOut : TxOut) :
    Ends (txOutOf txOut) h fun p h' => ∃ fp, txOutLayout.At h' p txOut fp ∧ Moves h ∅ h' fp := by
  refine Ends.bind ((ends_cstrNewBuf txOut.scriptPubkey).mono fun s h₁ hnew => ends_alloc ?_)
  obtain ⟨hread, hmoves⟩ := hnew
  exact ⟨_, .script (Heap.read_alloc_self h₁ _) (Heap.read_alloc hread _), hmoves.then_alloc _⟩

theorem ends_addUtxoTs {tx : BuiltTx} (hat : builtTxLayout.At h p tx fp) (prevout : TxOutpoint) :
    Ends (addUtxoTs p prevout) h fun added h' => added = true ∧
      ∃ fp', builtTxLayout.At h' p { tx with vin := tx.vin ++ [⟨prevout, none, 0xffffffff⟩] } fp' ∧
        Moves h fp h' fp' := by
  refine Ends.bind ((ends_txVinLen hat).mono fun flag h' hflag => ?_)
  obtain ⟨rfl, rfl⟩ := hflag
  refine Ends.bind (ends_alloc (Ends.bind (ends_readAs (Heap.read_alloc_self h' _) rfl ?_)))
  refine Ends.bind (ends_write (Heap.read_alloc_self h' _) ?_)
  have hnew := (Moves.alloc h' (.txIn ⟨⟨Uint256.zero, 0xffffffff⟩, none, 0xffffffff⟩)).trans
    (Moves.write_mem (Set.mem_singleton h'.fresh) _ (.txIn ⟨prevout, none, 0xffffffff⟩))
  have hsrc : builtInLayout.At (Heap.write
    (h'.alloc (.txIn ⟨⟨Uint256.zero, 0xffffffff⟩, none, 0xffffffff⟩)) h'.fresh
      (.txIn ⟨prevout, none, 0xffffffff⟩)) h'.fresh ⟨prevout, none, 0xffffffff⟩ {h'.fresh} :=
    .null (Heap.read_write_self (Heap.lt_fresh (Heap.read_alloc_self h' _)) _) rfl
  -- the input is new, so the transaction has no part in its cell
  have hapart : Disjoint fp {h'.fresh} :=
    (hnew.disjoint (Set.empty_disjoint fp) fun q hq => builtTxLayout.lt_fresh hat hq).symm
  refine ends_addInput (builtTxLayout.frame hat hnew (Set.empty_disjoint fp)) hsrc hapart
    fun h₂ fp₂ hat₂ hmoves₂ => ?_
  refine Ends.bind ((ends_txVinLen hat₂).mono fun len h₃ hlen => ends_pure ?_)
  obtain ⟨rfl, rfl⟩ := hlen
  refine ⟨?_, fp₂, hat₂, ?_⟩
  · simp
  · have hframe := hnew.frame_cells fp
    rw [Set.empty_union, Set.union_comm] at hframe
    exact hframe.trans hmoves₂

/-! ## Histories -/

/-- How a transaction came to be: by `dogecoin_tx_new`, by one of the constructors that add to it,
or as a copy. -/
inductive Construction where
  | new
  | addUtxo (before : Construction) (prevout : TxOutpoint)
  | addInput (before : Construction) (txIn : BuiltIn)
  | addOutput (before : Construction) (txOut : TxOut)
  | copy (before : Construction)

namespace Construction

/-- The calls, in memory. -/
def run : Construction → TxProg ℕ
  | new => txNew
  | addUtxo before prevout => do
      let tx ← before.run
      let _ ← addUtxoTs tx prevout
      pure tx
  | addInput before txIn => do
      let tx ← before.run
      let src ← txInOf txIn
      let _ ← txAddInputTs tx src
      txInFree src
      pure tx
  | addOutput before txOut => do
      let tx ← before.run
      let src ← txOutOf txOut
      let _ ← txAddOutputTs tx src
      txOutFree src
      pure tx
  | copy before => do
      let src ← before.run
      let tx ← txNew
      txCopy tx src
      pure tx

/-- The transaction that is built. -/
def value : Construction → BuiltTx
  | new => ⟨1, [], [], 0⟩
  | addUtxo before prevout => { before.value with vin := before.value.vin ++
      [⟨prevout, none, 0xffffffff⟩] }
  | addInput before txIn => { before.value with vin := before.value.vin ++ [txIn] }
  | addOutput before txOut => { before.value with vout := before.value.vout ++ [txOut] }
  | copy before => before.value

/-- Every input was added with its script. -/
def WithScripts : Construction → Prop
  | new => True
  | addUtxo _ _ => False
  | addInput before txIn => before.WithScripts ∧ txIn.scriptSig ≠ none
  | addOutput before _ => before.WithScripts
  | copy before => before.WithScripts

theorem hasScripts_iff (c : Construction) : HasScripts c.value ↔ c.WithScripts := by
  induction c with
  | new => exact iff_of_true (fun _ hmem => absurd hmem List.not_mem_nil) trivial
  | addUtxo before prevout =>
    refine iff_of_false (fun h => ?_) not_false
    exact h _ (List.mem_append_right _ (List.mem_singleton_self _)) rfl
  | addInput before txIn ih =>
    unfold HasScripts at ih ⊢
    rw [WithScripts, ← ih, value, List.forall_mem_append, List.forall_mem_singleton]
  | addOutput before txOut ih => exact ih
  | copy before ih => exact ih

/-- **Every history** leaves the transaction that it says, in cells of its own. -/
theorem ends_run (c : Construction) : Ends c.run m fun p h =>
    ∃ fp, builtTxLayout.At h p c.value fp ∧ Moves m ∅ h fp := by
  induction c with
  | new => exact ends_txNew_over builtInLayout
  | addUtxo before prevout ih =>
    refine Ends.bind (ih.mono fun p h₁ hend => ?_)
    obtain ⟨fp, hat, hmoves⟩ := hend
    refine Ends.bind ((ends_addUtxoTs hat prevout).mono fun _ h₂ hend => ends_pure ?_)
    obtain ⟨-, fp₂, hat₂, hmoves₂⟩ := hend
    exact ⟨fp₂, hat₂, hmoves.trans hmoves₂⟩
  | addInput before txIn ih =>
    refine Ends.bind (ih.mono fun p h₁ hend => ?_)
    obtain ⟨fp, hat, hmoves⟩ := hend
    refine Ends.bind ((ends_txInOf txIn).mono fun src h₂ hend => ?_)
    obtain ⟨fs, hsrc, hnew⟩ := hend
    have hapart := (hnew.disjoint (Set.empty_disjoint fp) fun q hq =>
      builtTxLayout.lt_fresh hat hq).symm
    refine ends_addInput (builtTxLayout.frame hat hnew (Set.empty_disjoint fp)) hsrc hapart
      fun h₃ fp₃ hat₃ hmoves₃ => ends_pure ⟨fp₃, hat₃, ?_⟩
    have hboth := hmoves.both hnew
    rw [Set.union_empty] at hboth
    exact hboth.trans hmoves₃
  | addOutput before txOut ih =>
    refine Ends.bind (ih.mono fun p h₁ hend => ?_)
    obtain ⟨fp, hat, hmoves⟩ := hend
    refine Ends.bind ((ends_txOutOf txOut).mono fun src h₂ hend => ?_)
    obtain ⟨fs, hsrc, hnew⟩ := hend
    have hapart := (hnew.disjoint (Set.empty_disjoint fp) fun q hq =>
      builtTxLayout.lt_fresh hat hq).symm
    refine Ends.bind ((ends_txAddOutputTs (builtTxLayout.frame hat hnew (Set.empty_disjoint fp))
      hsrc).mono fun _ h₃ hend => ?_)
    obtain ⟨-, fp₃, hat₃, hmoves₃⟩ := hend
    refine Ends.bind ((frees_txOutFree.beside hsrc hmoves₃ hapart).mono fun _ h₄ hend =>
      ends_pure ?_)
    obtain ⟨hmoves₄, hfree, hdisj⟩ := hend
    have hboth := hmoves.both hnew
    rw [Set.union_empty] at hboth
    exact ⟨fp₃, builtTxLayout.frame hat₃ hfree hdisj, hboth.trans hmoves₄⟩
  | copy before ih =>
    refine Ends.bind (ih.mono fun p h₁ hend => ?_)
    obtain ⟨fp, hat, hmoves⟩ := hend
    refine Ends.bind ((ends_txNew_over builtInLayout).mono fun q h₂ hend => ?_)
    obtain ⟨fq, hat₂, hmoves₂⟩ := hend
    refine Ends.bind ((ends_txCopy_over frees_builtIn copies_builtIn hat.holds hat₂ hmoves₂).mono
      fun _ h₃ hend => ends_pure ?_)
    obtain ⟨fq', hat₃, hmoves₃⟩ := hend
    -- the transaction that was copied is left where it is
    have hboth := hmoves.both (hmoves₂.trans hmoves₃)
    rw [Set.union_empty] at hboth
    exact ⟨fq', hat₃, hboth.mono subset_rfl Set.subset_union_right⟩

end Construction

end TxMemory

end Libdogecoin
