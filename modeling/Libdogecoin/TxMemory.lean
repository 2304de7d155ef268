/-
# Transactions in memory

The objects of `tx.c` as they lie in memory: a transaction points to its vectors, a vector to its
inputs or outputs, and these to their scripts. They are copied, cut and freed here as `tx.c` and
`vector.c` do it. The loops that copy, write and free all elements count in 32 bits; they are
modelled for vectors of fewer than `2 ^ 32` elements, and do not end for longer ones.

* `ends_txCopy` : a copy has the same value in cells of its own;
* `ends_vectorRemoveRange`, `ends_vectorResize` : what is left of a vector, and the rest freed.
-/
import Libdogecoin.OwnedCells
import Libdogecoin.Tx

namespace Libdogecoin

namespace TxMemory

open HeapProg

/-! ## Objects -/

/-- `dogecoin_tx_in`. -/
structure TxInCell where
  prevout : TxOutpoint
  scriptSig : Option ℕ
  sequence : UInt32

/-- `dogecoin_tx_out`. -/
structure TxOutCell where
  value : UInt64
  scriptPubkey : Option ℕ

/-- `dogecoin_tx`. -/
structure TxCell where
  version : UInt32
  vin : Option ℕ
  vout : Option ℕ
  locktime : UInt32

/-- What an allocated address holds. -/
inductive MemCell where
  | cstr (s : Bytes)
  | txIn (i : TxInCell)
  | txOut (o : TxOutCell)
  | vector (data : List ℕ)
  | tx (t : TxCell)

namespace MemCell

def asCstr : MemCell → Option Bytes
  | cstr s => some s
  | _ => none

def asTxIn : MemCell → Option TxInCell
  | txIn i => some i
  | _ => none

def asTxOut : MemCell → Option TxOutCell
  | txOut o => some o
  | _ => none

def asVector : MemCell → Option (List ℕ)
  | vector data => some data
  | _ => none

def asTx : MemCell → Option TxCell
  | tx t => some t
  | _ => none

end MemCell

/-- A program on these objects. -/
abbrev TxProg := HeapProg MemCell

/-! ## Strings -/

/-- `cstr_new_sz`. -/
def cstrNew : TxProg ℕ := alloc (.cstr [])

/-- `cstr_free` : a null pointer is let through. -/
def cstrFree (s : Option ℕ) : TxProg Unit := match s with
  | none => pure ()
  | some s => free s

/-- `cstr_append_buf`. -/
def cstrAppendBuf (s : ℕ) (buf : Bytes) : TxProg Unit := do
  let str ← readAs MemCell.asCstr s
  write s (.cstr (str ++ buf))

/-- `cstr_resize` : the tail of a longer string is not defined. -/
def cstrResize (s newSz : ℕ) : TxProg Unit := do
  let str ← readAs MemCell.asCstr s
  if newSz ≤ str.length then write s (.cstr (str.take newSz)) else fail

/-- A new string with these bytes. -/
def cstrNewBuf (buf : Bytes) : TxProg ℕ := do
  let s ← cstrNew
  cstrAppendBuf s buf
  pure s

/-- The bytes of a string, and none for a null pointer. -/
def scriptBytes (s : Option ℕ) : TxProg Bytes := match s with
  | none => pure []
  | some s => readAs MemCell.asCstr s

/-! ## Inputs and outputs -/

/-- `dogecoin_tx_in_new`. -/
def txInNew : TxProg ℕ := alloc (.txIn ⟨⟨Uint256.zero, 0xffffffff⟩, none, 0xffffffff⟩)

/-- `dogecoin_tx_in_free`. -/
def txInFree (p : ℕ) : TxProg Unit := do
  let txIn ← readAs MemCell.asTxIn p
  cstrFree txIn.scriptSig
  free p

/-- `dogecoin_tx_out_free`. -/
def txOutFree (p : ℕ) : TxProg Unit := do
  let txOut ← readAs MemCell.asTxOut p
  cstrFree txOut.scriptPubkey
  free p

/-- A copy of a script, and a null pointer for one. -/
def scriptCopy (s : Option ℕ) : TxProg (Option ℕ) := match s with
  | none => pure none
  | some s => do
      let str ← readAs MemCell.asCstr s
      let copy ← cstrNewBuf str
      pure (some copy)

/-- `dogecoin_tx_in_copy`. -/
def txInCopy (dest src : ℕ) : TxProg Unit := do
  let source ← readAs MemCell.asTxIn src
  let old ← readAs MemCell.asTxIn dest
  cstrFree old.scriptSig
  let script ← scriptCopy source.scriptSig
  write dest (.txIn ⟨source.prevout, script, source.sequence⟩)

/-- `dogecoin_tx_out_copy`. -/
def txOutCopy (dest src : ℕ) : TxProg Unit := do
  let source ← readAs MemCell.asTxOut src
  let script ← scriptCopy source.scriptPubkey
  write dest (.txOut ⟨source.value, script⟩)

/-- A new input with the values of another one. -/
def txInClone (src : ℕ) : TxProg ℕ := do
  let txIn ← txInNew
  txInCopy txIn src
  pure txIn

/-- A new output with the values of another one: both its fields are written. -/
def txOutClone (src : ℕ) : TxProg ℕ := do
  let txOut ← alloc (.txOut ⟨0, none⟩)
  txOutCopy txOut src
  pure txOut

/-! ## Vectors -/

/-- `vector_new`. -/
def vectorNew : TxProg ℕ := alloc (.vector [])

/-- `vector_add`. -/
def vectorAdd (vec data : ℕ) : TxProg Unit := do
  let items ← readAs MemCell.asVector vec
  write vec (.vector (items ++ [data]))

/-- `vector_free` with its elements: a null pointer is let through. -/
def vectorFree (elemFree : ℕ → TxProg Unit) (vec : Option ℕ) : TxProg Unit := match vec with
  | none => pure ()
  | some vec => do
      let items ← readAs MemCell.asVector vec
      forEach (fun _ => elemFree) 0 items
      free vec

/-- `vector_remove_range`. -/
def vectorRemoveRange (elemFree : ℕ → TxProg Unit) (vec pos len : ℕ) : TxProg Unit := do
  let items ← readAs MemCell.asVector vec
  if pos + len > items.length then pure ()
  else do
    forEach (fun _ => elemFree) 0 ((items.drop pos).take len)
    write vec (.vector (items.take pos ++ items.drop (pos + len)))

/-- `vector_resize` : where it grows, room is made, but the length stays. -/
def vectorResize (elemFree : ℕ → TxProg Unit) (vec newsz : ℕ) : TxProg Unit := do
  let items ← readAs MemCell.asVector vec
  if newsz < items.length then do
    forEach (fun _ => elemFree) 0 (items.drop newsz)
    write vec (.vector (items.take newsz))
  else pure ()

/-- A loop over the elements of a vector. -/
def vectorForEach (body : ℕ → ℕ → TxProg Unit) (vec : ℕ) : TxProg Unit := do
  let items ← readAs MemCell.asVector vec
  forEach body 0 items

/-- A loop over the first elements of a vector. -/
def vectorForFirst (n : ℕ) (body : ℕ → ℕ → TxProg Unit) (vec : ℕ) : TxProg Unit := do
  let items ← readAs MemCell.asVector vec
  forEach body 0 (items.take n)

/-- A vector of copies in the place of another one, in `dogecoin_tx_copy`. -/
def vectorClone (elemFree : ℕ → TxProg Unit) (elemClone : ℕ → TxProg ℕ) (dest src : Option ℕ) :
    TxProg (Option ℕ) := match src with
  | none => pure none
  | some src => do
      vectorFree elemFree dest
      let vec ← vectorNew
      let items ← readAs MemCell.asVector src
      forEach (fun _ old => do
        let new ← elemClone old
        vectorAdd vec new) 0 items
      pure (some vec)

/-! ## Transactions -/

/-- `dogecoin_tx_new`. -/
def txNew : TxProg ℕ := do
  let vin ← vectorNew
  let vout ← vectorNew
  alloc (.tx ⟨1, some vin, some vout, 0⟩)

/-- `dogecoin_tx_free`. -/
def txFree (p : ℕ) : TxProg Unit := do
  let tx ← readAs MemCell.asTx p
  vectorFree txInFree tx.vin
  vectorFree txOutFree tx.vout
  free p

/-- A program on the inputs of a transaction. -/
def txOnVin {β : Type} (p : ℕ) (x : ℕ → TxProg β) : TxProg β := do
  let tx ← readAs MemCell.asTx p
  let vin ← deref tx.vin
  x vin

/-- A program on the outputs of a transaction. -/
def txOnVout {β : Type} (p : ℕ) (x : ℕ → TxProg β) : TxProg β := do
  let tx ← readAs MemCell.asTx p
  let vout ← deref tx.vout
  x vout

/-- Another vector of inputs. -/
def txReplaceVin (p : ℕ) (x : Option ℕ → TxProg (Option ℕ)) : TxProg Unit := do
  let tx ← readAs MemCell.asTx p
  let vin ← x tx.vin
  let tx ← readAs MemCell.asTx p
  write p (.tx { tx with vin := vin })

/-- Another vector of outputs. -/
def txReplaceVout (p : ℕ) (x : Option ℕ → TxProg (Option ℕ)) : TxProg Unit := do
  let tx ← readAs MemCell.asTx p
  let vout ← x tx.vout
  let tx ← readAs MemCell.asTx p
  write p (.tx { tx with vout := vout })

/-- `dogecoin_tx_copy`. -/
def txCopy (dest src : ℕ) : TxProg Unit := do
  let source ← readAs MemCell.asTx src
  let old ← readAs MemCell.asTx dest
  write dest (.tx { old with version := source.version, locktime := source.locktime })
  txReplaceVin dest fun vin => vectorClone txInFree txInClone vin source.vin
  txReplaceVout dest fun vout => vectorClone txOutFree txOutClone vout source.vout

/-- An input as it is written. -/
def txInValue (p : ℕ) : TxProg TxIn := do
  let txIn ← readAs MemCell.asTxIn p
  let script ← scriptBytes txIn.scriptSig
  pure { prevout := txIn.prevout, scriptSig := script, sequence := txIn.sequence }

/-- An output as it is written. -/
def txOutValue (p : ℕ) : TxProg TxOut := do
  let txOut ← readAs MemCell.asTxOut p
  let script ← scriptBytes txOut.scriptPubkey
  pure { value := txOut.value, scriptPubkey := script }

/-- The elements of a vector as they are written, and none for a null pointer. -/
def vectorValues {β : Type} (elem : ℕ → TxProg β) (vec : Option ℕ) :
    TxProg (List β) := match vec with
  | none => pure []
  | some vec => do
      let items ← readAs MemCell.asVector vec
      readEach elem items

/-- A transaction as `dogecoin_tx_serialize` writes it. -/
def txValue (p : ℕ) : TxProg Tx := do
  let tx ← readAs MemCell.asTx p
  let vin ← vectorValues txInValue tx.vin
  let vout ← vectorValues txOutValue tx.vout
  pure { version := tx.version, vin := vin, vout := vout, locktime := tx.locktime }

/-! ## Where the values lie -/

/-- An input and its script. -/
inductive TxInAt (h : Heap MemCell) (p : ℕ) (txIn : TxIn) : Set ℕ → Prop
  | mk {s : ℕ} : h.read p = some (.txIn ⟨txIn.prevout, some s, txIn.sequence⟩) →
      h.read s = some (.cstr txIn.scriptSig) → TxInAt h p txIn {p, s}

/-- An output, and its script if it has one. -/
inductive TxOutAt (h : Heap MemCell) (p : ℕ) (txOut : TxOut) : Set ℕ → Prop
  | null : h.read p = some (.txOut ⟨txOut.value, none⟩) → txOut.scriptPubkey = [] →
      TxOutAt h p txOut {p}
  | script {s : ℕ} : h.read p = some (.txOut ⟨txOut.value, some s⟩) →
      h.read s = some (.cstr txOut.scriptPubkey) → TxOutAt h p txOut {p, s}

def txInLayout : Layout MemCell TxIn where
  At := TxInAt
  allocated := by
    rintro h p txIn fp ⟨hcell, hscript⟩ q (rfl | rfl)
    · exact ⟨_, hcell⟩
    · exact ⟨_, hscript⟩
  agree := by
    rintro h h' p txIn fp ⟨hcell, hscript⟩ hsame
    exact .mk ((hsame _ (Or.inl rfl)).trans hcell) ((hsame _ (Or.inr rfl)).trans hscript)

def txOutLayout : Layout MemCell TxOut where
  At := TxOutAt
  allocated := by
    rintro h p txOut fp hat q hq
    cases hat with
    | null hcell hempty => exact ⟨_, (Set.mem_singleton_iff.mp hq) ▸ hcell⟩
    | script hcell hscript =>
      rcases hq with rfl | rfl
      · exact ⟨_, hcell⟩
      · exact ⟨_, hscript⟩
  agree := by
    rintro h h' p txOut fp hat hsame
    cases hat with
    | null hcell hempty => exact .null ((hsame _ rfl).trans hcell) hempty
    | script hcell hscript =>
      exact .script ((hsame _ (Or.inl rfl)).trans hcell) ((hsame _ (Or.inr rfl)).trans hscript)

/-- A vector and its elements. -/
inductive VectorAt {β : Type} (L : Layout MemCell β) (h : Heap MemCell) (vec : ℕ) (bs : List β) :
    Set ℕ → Prop
  | mk {items : List ℕ} {fps : Set ℕ} : h.read vec = some (.vector items) →
      RowAt L h items bs fps → vec ∉ fps →
      VectorAt L h vec bs (insert vec fps)

def vectorLayout {β : Type} (L : Layout MemCell β) : Layout MemCell (List β) where
  At := VectorAt L
  allocated := by
    rintro h vec bs fp ⟨hcell, hrow, hnot⟩ q (rfl | hq)
    · exact ⟨_, hcell⟩
    · exact hrow.allocated q hq
  agree := by
    rintro h h' vec bs fp ⟨hcell, hrow, hnot⟩ hsame
    exact .mk ((hsame _ (Or.inl rfl)).trans hcell) (hrow.agree fun q hq => hsame q (Or.inr hq)) hnot

/-- A transaction with its vectors, and their elements. -/
inductive TxAt (h : Heap MemCell) (p : ℕ) (tx : Tx) : Set ℕ → Prop
  | mk {vin vout : ℕ} {fi fo : Set ℕ} :
      h.read p = some (.tx ⟨tx.version, some vin, some vout, tx.locktime⟩) →
      VectorAt txInLayout h vin tx.vin fi → VectorAt txOutLayout h vout tx.vout fo →
      Disjoint fi fo →
      p ∉ fi ∪ fo → TxAt h p tx (insert p (fi ∪ fo))

def txLayout : Layout MemCell Tx where
  At := TxAt
  allocated := by
    rintro h p tx fp ⟨hcell, hvin, hvout, hdisj, hnot⟩ q (rfl | hq | hq)
    · exact ⟨_, hcell⟩
    · exact (vectorLayout txInLayout).allocated hvin q hq
    · exact (vectorLayout txOutLayout).allocated hvout q hq
  agree := by
    rintro h h' p tx fp ⟨hcell, hvin, hvout, hdisj, hnot⟩ hsame
    refine .mk ((hsame _ (Or.inl rfl)).trans hcell) ?_ ?_ hdisj hnot
    · exact (vectorLayout txInLayout).agree hvin fun q hq => hsame q (Or.inr (Or.inl hq))
    · exact (vectorLayout txOutLayout).agree hvout fun q hq => hsame q (Or.inr (Or.inr hq))

/-- A transaction over a type of inputs. -/
structure TxOver (β : Type) where
  version : UInt32
  vin : List β
  vout : List TxOut
  locktime : UInt32

/-- A transaction with its vectors, and their elements, for inputs that lie somehow. -/
inductive TxOverAt {β : Type} (L : Layout MemCell β) (h : Heap MemCell) (p : ℕ) (tx : TxOver β) :
    Set ℕ → Prop
  | mk {vin vout : ℕ} {fi fo : Set ℕ} :
      h.read p = some (.tx ⟨tx.version, some vin, some vout, tx.locktime⟩) →
      VectorAt L h vin tx.vin fi → VectorAt txOutLayout h vout tx.vout fo → Disjoint fi fo →
      p ∉ fi ∪ fo → TxOverAt L h p tx (insert p (fi ∪ fo))

def txOverLayout {β : Type} (L : Layout MemCell β) : Layout MemCell (TxOver β) where
  At := TxOverAt L
  allocated := by
    rintro h p tx fp ⟨hcell, hvin, hvout, hdisj, hnot⟩ q (rfl | hq | hq)
    · exact ⟨_, hcell⟩
    · exact (vectorLayout L).allocated hvin q hq
    · exact (vectorLayout txOutLayout).allocated hvout q hq
  agree := by
    rintro h h' p tx fp ⟨hcell, hvin, hvout, hdisj, hnot⟩ hsame
    refine .mk ((hsame _ (Or.inl rfl)).trans hcell) ?_ ?_ hdisj hnot
    · exact (vectorLayout L).agree hvin fun q hq => hsame q (Or.inr (Or.inl hq))
    · exact (vectorLayout txOutLayout).agree hvout fun q hq => hsame q (Or.inr (Or.inr hq))

theorem txAt_iff {h : Heap MemCell} {p : ℕ} {tx : Tx} {fp : Set ℕ} :
    TxAt h p tx fp ↔ TxOverAt txInLayout h p ⟨tx.version, tx.vin, tx.vout, tx.locktime⟩ fp := by
  constructor
  · rintro ⟨hcell, hvin, hvout, hdisj, hnot⟩
    exact .mk hcell hvin hvout hdisj hnot
  · rintro ⟨hcell, hvin, hvout, hdisj, hnot⟩
    exact .mk hcell hvin hvout hdisj hnot

/-! ## Scripts, inputs and outputs -/

variable {h m : Heap MemCell}

theorem ne_of_reads {p q : ℕ} {a b : MemCell} (hp : h.read p = some a)
    (hq : h.read q = some b) (hab : a ≠ b) :
    p ≠ q := by
  rintro rfl
  exact hab (Option.some.inj (hp.symm.trans hq))

theorem ends_cstrNewBuf (buf : Bytes) :
    Ends (cstrNewBuf buf) h fun s h' => h'.read s = some (.cstr buf) ∧ Moves h ∅ h' {s} := by
  refine Ends.bind (ends_alloc (Ends.bind
    (Ends.bind (ends_readAs (Heap.read_alloc_self h _) rfl ?_))))
  refine ends_write (Heap.read_alloc_self h _) (ends_pure ⟨?_, ?_⟩)
  · exact Heap.read_write_self (by rw [Heap.fresh_alloc]; exact Nat.lt_succ_self _) _
  · exact (Moves.alloc h _).trans (Moves.write_mem (Set.mem_singleton _) _ _)

theorem frees_txInFree : Frees txInLayout txInFree := by
  rintro h p txIn fp ⟨hcell, hscript⟩
  rename_i s
  have hne := ne_of_reads hcell hscript (by rintro ⟨⟩)
  refine Ends.bind (ends_readAs hcell rfl (Ends.bind (ends_free hscript ?_)))
  exact ends_free ((Heap.read_free_of_ne h hne).trans hcell) (Moves.free_pair h p s)

theorem frees_txOutFree : Frees txOutLayout txOutFree := by
  intro h p txOut fp hat
  cases hat with
  | null hcell hempty =>
    refine Ends.bind (ends_readAs hcell rfl (Ends.bind (ends_pure ?_)))
    exact ends_free hcell (Moves.free h p)
  | @script s hcell hscript =>
    have hne := ne_of_reads hcell hscript (by rintro ⟨⟩)
    refine Ends.bind (ends_readAs hcell rfl (Ends.bind (ends_free hscript ?_)))
    exact ends_free ((Heap.read_free_of_ne h hne).trans hcell) (Moves.free_pair h p s)

theorem ends_scriptCopy {s : ℕ} {str : Bytes} (hscript : h.read s = some (.cstr str)) :
    Ends (scriptCopy (some s)) h fun copy h' =>
      ∃ q, copy = some q ∧ h'.read q = some (.cstr str) ∧ Moves h ∅ h' {q} := by
  refine Ends.bind (ends_readAs hscript rfl
    (Ends.bind ((ends_cstrNewBuf str).mono fun q h' hnew => ?_)))
  exact ends_pure ⟨q, rfl, hnew⟩

theorem copies_txInClone : Copies txInLayout txInClone := by
  rintro h p txIn fp ⟨hcell, hscript⟩
  have hnew := fun a : MemCell => Heap.read_alloc_self h a
  refine Ends.bind (ends_alloc (Ends.bind
    (Ends.bind (ends_readAs (Heap.read_alloc hcell _) rfl ?_))))
  refine Ends.bind (ends_readAs (hnew _) rfl (Ends.bind (ends_pure (Ends.bind ?_))))
  refine (ends_scriptCopy (Heap.read_alloc hscript _)).mono fun copy h' hcopy => ?_
  obtain ⟨q, rfl, hq, hmoves⟩ := hcopy
  have hold := hmoves.read_eq (hnew _)
  refine ends_write hold (ends_pure ⟨{h.fresh, q}, .mk ?_ ?_, hmoves.alloc_pair _⟩)
  · exact Heap.read_write_self (Heap.lt_fresh hold) _
  · rw [Heap.read_write_of_ne h' _ (ne_of_reads hq hold (by rintro ⟨⟩)), hq]

theorem copies_txOutClone : Copies txOutLayout txOutClone := by
  intro h p txOut fp hat
  have hnew := fun a : MemCell => Heap.read_alloc_self h a
  cases hat with
  | null hcell hempty =>
    refine Ends.bind (ends_alloc (Ends.bind
      (Ends.bind (ends_readAs (Heap.read_alloc hcell _) rfl ?_))))
    refine Ends.bind (ends_pure (ends_write (hnew _) (ends_pure ⟨{h.fresh}, .null ?_ hempty, ?_⟩)))
    · exact Heap.read_write_self (Heap.lt_fresh (hnew _)) _
    · exact (Moves.alloc h _).trans (Moves.write_mem (Set.mem_singleton _) _ _)
  | script hcell hscript =>
    refine Ends.bind (ends_alloc (Ends.bind
      (Ends.bind (ends_readAs (Heap.read_alloc hcell _) rfl ?_))))
    refine Ends.bind ((ends_scriptCopy (Heap.read_alloc hscript _)).mono fun copy h' hcopy => ?_)
    obtain ⟨q, rfl, hq, hmoves⟩ := hcopy
    have hold := hmoves.read_eq (hnew _)
    refine ends_write hold (ends_pure ⟨{h.fresh, q}, .script ?_ ?_, hmoves.alloc_pair _⟩)
    · exact Heap.read_write_self (Heap.lt_fresh hold) _
    · rw [Heap.read_write_of_ne h' _ (ne_of_reads hq hold (by rintro ⟨⟩)), hq]

theorem reads_txInValue : Reads txInLayout txInValue := by
  rintro h p txIn ⟨fp, hcell, hscript⟩
  refine Ends.bind (ends_readAs hcell rfl (Ends.bind (ends_readAs hscript rfl ?_)))
  exact ends_pure ⟨rfl, rfl⟩

theorem reads_txOutValue : Reads txOutLayout txOutValue := by
  rintro h p txOut ⟨fp, hat⟩
  cases hat with
  | null hcell hempty =>
    refine Ends.bind (ends_readAs hcell rfl (Ends.bind (ends_pure (ends_pure ⟨?_, rfl⟩))))
    rw [← hempty]
  | script hcell hscript =>
    refine Ends.bind (ends_readAs hcell rfl (Ends.bind (ends_readAs hscript rfl ?_)))
    exact ends_pure ⟨rfl, rfl⟩

/-! ## Vectors -/

section
variable {β : Type} {L : Layout MemCell β} {bs : List β} {fp fps : Set ℕ} {vec : ℕ}
  {items olds : List ℕ}
  {body : ℕ → ℕ → TxProg Unit} {f : ℕ → β → β}

theorem ends_vectorNew (L : Layout MemCell β) :
    Ends vectorNew h fun vec h' => VectorAt L h' vec [] {vec} ∧ Moves h ∅ h' {vec} := by
  refine ends_alloc ⟨?_, Moves.alloc h _⟩
  have hat := VectorAt.mk (Heap.read_alloc_self h (MemCell.vector [])) (@RowAt.nil _ _ L _)
    (Set.notMem_empty _)
  rwa [insert_empty_eq] at hat

variable {elemFree : ℕ → TxProg Unit} {elemClone : ℕ → TxProg ℕ} {cs : List β}

theorem frees_vectorFree (hfree : Frees L elemFree) :
    Frees (vectorLayout L) fun vec => vectorFree elemFree (some vec) := by
  rintro h vec bs fp ⟨hcell, hrow, hnot⟩
  rename_i items fps
  refine Ends.bind (ends_readAs hcell rfl
    (Ends.bind ((ends_forEach_free hfree hrow 0).mono fun _ h' hmoves => ?_)))
  have hstill := (hmoves.frame vec (Heap.lt_fresh hcell) hnot).trans hcell
  have hboth := hmoves.both (Moves.free h' vec)
  rw [Set.union_empty, Set.union_comm] at hboth
  exact ends_free hstill hboth

/-- Some elements of a vector are freed, and the others stay in it. -/
theorem ends_keepRow (hfree : Frees L elemFree) (hcell : h.read vec = some (.vector olds))
    {gone kept : List ℕ} {fq fr : Set ℕ} (hgone : RowAt L h gone cs fq)
    (hkept : RowAt L h kept bs fr)
    (hdisj : Disjoint fq fr) (hnot : vec ∉ fq ∪ fr) :
    Ends (do
        forEach (fun _ => elemFree) 0 gone
        write vec (.vector kept)) h fun _ h' =>
      ∃ fp', VectorAt L h' vec bs fp' ∧ Moves h (insert vec (fq ∪ fr)) h' fp' := by
  refine Ends.bind ((ends_forEach_free hfree hgone 0).mono fun _ h' hmoves => ?_)
  have hstill := (hmoves.frame vec (Heap.lt_fresh hcell) fun hmem => hnot (Or.inl hmem)).trans hcell
  have hkept' := (hkept.frame hmoves hdisj).frame (Moves.write h' vec (.vector kept))
    (Set.disjoint_singleton_left.mpr fun hmem => hnot (Or.inr hmem))
  have hframe := hmoves.frame_cells (insert vec fr)
  rw [Set.empty_union, Set.union_insert] at hframe
  exact ends_write hstill ⟨_, .mk (Heap.read_write_self (Heap.lt_fresh hstill) _) hkept' fun hmem =>
    hnot (Or.inr hmem), hframe.trans (Moves.write_mem (Or.inl rfl) h' _)⟩

/-- **A vector that is cut**: its first elements, in fewer cells. -/
theorem ends_vectorResize (hfree : Frees L elemFree) (hat : VectorAt L h vec bs fp) (n : ℕ) :
    Ends (vectorResize elemFree vec n) h fun _ h' => ∃ fp', VectorAt L h' vec (bs.take n) fp' ∧
    Moves h fp h' fp' := by
  obtain ⟨hcell, hrow, hnot⟩ := hat
  rename_i items fps
  refine Ends.bind (ends_readAs hcell rfl ?_)
  by_cases hlt : n < items.length
  · rw [if_pos hlt]
    obtain ⟨fq, fr, hkeep, hdrop, hdisj, rfl⟩ := hrow.split n
    rw [Set.union_comm] at hnot ⊢
    exact ends_keepRow hfree hcell hdrop hkeep hdisj.symm hnot
  · rw [if_neg hlt]
    have hall : bs.take n = bs := List.take_of_length_le
      (by rw [← hrow.length_eq]; exact Nat.not_lt.mp hlt)
    rw [hall]
    exact ends_pure ⟨_, .mk hcell hrow hnot, .refl _ _⟩

/-- **A vector without its first elements.** -/
theorem ends_vectorRemoveRange (hfree : Frees L elemFree) (hat : VectorAt L h vec bs fp) {n : ℕ}
    (hn : n ≤ bs.length) :
    Ends (vectorRemoveRange elemFree vec 0 n) h fun _ h' =>
      ∃ fp', VectorAt L h' vec (bs.drop n) fp' ∧ Moves h fp h' fp' := by
  obtain ⟨hcell, hrow, hnot⟩ := hat
  rename_i items fps
  have hroom : ¬ 0 + n > items.length := by
    rw [hrow.length_eq]
    omega
  refine Ends.bind (ends_readAs hcell rfl ?_)
  rw [if_neg hroom, List.drop_zero, List.take_zero, List.nil_append, Nat.zero_add]
  obtain ⟨fq, fr, hfirst, hrest, hdisj, rfl⟩ := hrow.split n
  exact ends_keepRow hfree hcell hfirst hrest hdisj hnot

/-- A copy is put behind the elements of a vector. -/
theorem ends_vectorAddClone (hclone : Copies L elemClone)
    (hcell : h.read vec = some (.vector items)) (hrow : RowAt L h items cs fps) (hnot : vec ∉ fps)
    {old : ℕ} {b : β} (hat : L.At h old b fp) :
    Ends (do
        let new ← elemClone old
        vectorAdd vec new) h fun _ h' => ∃ new fq, h'.read vec = some (.vector (items ++ [new])) ∧
      RowAt L h' (items ++ [new]) (cs ++ [b]) (fps ∪ fq) ∧ vec ∉ fps ∪ fq ∧
      Moves h (insert vec fps) h' (insert vec (fps ∪ fq)) := by
  refine Ends.bind ((hclone hat).mono fun new h₁ hnew => ?_)
  obtain ⟨fq, hnewAt, hmoves⟩ := hnew
  have hcell₁ := hmoves.read_eq hcell
  have hapart : ∀ q ∈ fq, h.fresh ≤ q :=
    fun q hq => (hmoves.cells q hq).resolve_left (Set.notMem_empty q)
  have hvec : vec ∉ fq := fun hmem =>
    absurd (hapart vec hmem) (Nat.not_le.mpr (Heap.lt_fresh hcell))
  have hdisj : Disjoint fps fq := Set.disjoint_left.mpr fun q hq hmem =>
    absurd (hapart q hmem) (Nat.not_le.mpr (hrow.lt_fresh hq))
  have hwrite := Moves.write h₁ vec (.vector (items ++ [new]))
  have hrow₂ := (hrow.frame hmoves (Set.empty_disjoint fps)).frame hwrite
    (Set.disjoint_singleton_left.mpr hnot)
  have hnewAt₂ := L.frame hnewAt hwrite (Set.disjoint_singleton_left.mpr hvec)
  have hsingle : RowAt L (h₁.write vec (.vector (items ++ [new]))) [new] [b] fq := by
    have hcons := RowAt.cons hnewAt₂ .nil (Set.disjoint_empty fq)
    rwa [Set.union_empty] at hcons
  refine Ends.bind (ends_readAs hcell₁ rfl
    (ends_write hcell₁ ⟨new, fq, ?_, hrow₂.append hsingle hdisj, ?_, ?_⟩))
  · exact Heap.read_write_self (Heap.lt_fresh hcell₁) _
  · exact fun hmem => hmem.elim hnot hvec
  · have hframe := hmoves.frame_cells (insert vec fps)
    rw [Set.empty_union] at hframe
    refine (hframe.trans (Moves.write_mem (Or.inr (Or.inl rfl)) h₁ _)).mono subset_rfl ?_
    rintro q (rfl | hq | hq)
    · exact Or.inr (Or.inl rfl)
    · exact Or.inr (Or.inr hq)
    · exact Or.inl hq

/-- The loop of a copy: the copies stand behind what was added before. -/
theorem ends_cloneLoop (hclone : Copies L elemClone)
    (hsource : List.Forall₂ (L.Holds m) olds bs) (i : ℕ) (hcell : h.read vec = some (.vector items))
    (hrow : RowAt L h items cs fps) (hnot : vec ∉ fps)
    (hown : Moves m ∅ h (insert vec fps)) :
    Ends (forEach (fun _ old => do
        let new ← elemClone old
        vectorAdd vec new) i olds) h fun _ h' =>
      ∃ fp', VectorAt L h' vec (cs ++ bs) fp' ∧ Moves h (insert vec fps) h' fp' := by
  induction hsource generalizing h items cs fps i with
  | nil =>
    rw [List.append_nil]
    exact ends_pure ⟨_, .mk hcell hrow hnot, .refl _ _⟩
  | @cons old b olds bs hhead _ ih =>
    obtain ⟨fp, hat⟩ := hhead.keep hown
    refine Ends.bind ((ends_vectorAddClone hclone hcell hrow hnot hat).mono fun _ h₁ hadd => ?_)
    obtain ⟨new, fq, hcell₁, hrow₁, hnot₁, hstep⟩ := hadd
    refine (ih (i + 1) hcell₁ hrow₁ hnot₁ (hown.trans hstep)).mono fun _ h' hend => ?_
    obtain ⟨fp', hat', hmoves'⟩ := hend
    rw [List.append_assoc] at hat'
    exact ⟨fp', hat', hstep.trans hmoves'⟩

/-- **A vector of copies** in the place of another one. -/
theorem ends_vectorClone (hfree : Frees L elemFree) (hclone : Copies L elemClone)
    (hdest : VectorAt L h vec cs fp) {src : ℕ} (hsrc : m.read src = some (.vector olds))
    (hsource : List.Forall₂ (L.Holds m) olds bs) (hown : Moves m ∅ h fp) :
    Ends (vectorClone elemFree elemClone (some vec) (some src)) h fun new h' =>
      ∃ v fp', new = some v ∧ VectorAt L h' v bs fp' ∧ Moves h fp h' fp' := by
  refine Ends.bind ((frees_vectorFree hfree hdest).mono fun _ h₁ hmoves₁ => ?_)
  have hcell := Heap.read_alloc_self h₁ (MemCell.vector [])
  have halloc := hmoves₁.trans (Moves.alloc h₁ (.vector []))
  have hown₂ := hown.trans halloc
  refine Ends.bind (ends_alloc (Ends.bind (ends_readAs (hown₂.read_eq hsrc) rfl (Ends.bind ?_))))
  rw [← insert_empty_eq] at halloc hown₂
  refine (ends_cloneLoop hclone hsource 0 hcell .nil (Set.notMem_empty _) hown₂).mono
    fun _ h' hend => ?_
  obtain ⟨fp', hat, hmoves⟩ := hend
  exact ends_pure ⟨_, fp', rfl, hat, halloc.trans hmoves⟩

theorem ends_vectorValues {elem : ℕ → TxProg β} (helem : Reads L elem)
    (hat : VectorAt L h vec bs fp) :
    Ends (vectorValues elem (some vec)) h fun cs h' => cs = bs ∧ h' = h := by
  obtain ⟨hcell, hrow, hnot⟩ := hat
  exact Ends.bind (ends_readAs hcell rfl (ends_readEach helem hrow.holds))

theorem ends_vectorForEach (hbody : ∀ i, Changes L (body i) (f i)) (hat : VectorAt L h vec bs fp) :
    Ends (vectorForEach body vec) h fun _ h' => ∃ fp', VectorAt L h' vec (bs.mapIdx f) fp' ∧
    Moves h fp h' fp' := by
  obtain ⟨hcell, hrow, hnot⟩ := hat
  rename_i items fps
  refine Ends.bind (ends_readAs hcell rfl ((ends_forEach hbody hrow 0).mono fun _ h' hend => ?_))
  obtain ⟨fq, hrow', hmoves⟩ := hend
  simp only [Nat.zero_add] at hrow'
  have hstill := (hmoves.frame vec (Heap.lt_fresh hcell) hnot).trans hcell
  have hnot' : vec ∉ fq := fun hmem => (hmoves.cells vec hmem).elim hnot
    fun hfresh => absurd hfresh (Nat.not_le.mpr (Heap.lt_fresh hcell))
  have hframe := hmoves.frame_cells {vec}
  rw [Set.union_comm, Set.union_comm fq] at hframe
  exact ⟨insert vec fq, .mk hstill hrow' hnot', hframe⟩

theorem ends_vectorForFirst (hbody : ∀ i, Changes L (body i) (f i)) (hat : VectorAt L h vec bs fp)
    (n : ℕ) :
    Ends (vectorForFirst n body vec) h fun _ h' =>
      ∃ fp', VectorAt L h' vec ((bs.take n).mapIdx f ++ bs.drop n) fp' ∧ Moves h fp h' fp' := by
  obtain ⟨hcell, hrow, hnot⟩ := hat
  rename_i items fps
  obtain ⟨fq, fr, hfirst, hrest, hdisj, rfl⟩ := hrow.split n
  refine Ends.bind (ends_readAs hcell rfl ((ends_forEach hbody hfirst 0).mono fun _ h' hend => ?_))
  obtain ⟨fq', hfirst', hmoves⟩ := hend
  simp only [Nat.zero_add] at hfirst'
  have hstill := (hmoves.frame vec (Heap.lt_fresh hcell) fun hmem => hnot (Or.inl hmem)).trans hcell
  have hdisj' := hmoves.disjoint hdisj fun q hq => hrest.lt_fresh hq
  have hrow' := hfirst'.append (hrest.frame hmoves hdisj) hdisj'
  rw [List.take_append_drop] at hrow'
  have hnot' : vec ∉ fq' ∪ fr := by
    rintro (hmem | hmem)
    · exact (hmoves.cells vec hmem).elim (fun hold => hnot (Or.inl hold))
        fun hfresh => absurd hfresh (Nat.not_le.mpr (Heap.lt_fresh hcell))
    · exact hnot (Or.inr hmem)
  have hframe := hmoves.frame_cells (insert vec fr)
  rw [Set.union_insert, Set.union_insert] at hframe
  exact ⟨insert vec (fq' ∪ fr), .mk hstill hrow' hnot', hframe⟩

end

/-! ## Transactions -/

section
variable {β : Type} {L : Layout MemCell β} {p : ℕ} {tx : TxOver β} {fp : Set ℕ}
  {x : ℕ → TxProg Unit}
  {ins : List β} {outs : List TxOut}

theorem ends_txNew_over (L : Layout MemCell β) : Ends txNew h fun p h' =>
    ∃ fp, TxOverAt L h' p ⟨1, [], [], 0⟩ fp ∧ Moves h ∅ h' fp := by
  refine Ends.bind ((ends_vectorNew L).mono fun vin h₁ hvin => ?_)
  obtain ⟨hvin, hmoves₁⟩ := hvin
  refine Ends.bind ((ends_vectorNew txOutLayout).mono fun vout h₂ hvout => ?_)
  obtain ⟨hvout, hmoves₂⟩ := hvout
  have halloc := Moves.alloc h₂ (.tx ⟨1, some vin, some vout, 0⟩)
  have hvin₂ := (vectorLayout L).frame hvin hmoves₂ (Set.empty_disjoint _)
  have hdisj := (hmoves₂.disjoint (Set.empty_disjoint {vin}) fun q hq =>
    (vectorLayout L).lt_fresh hvin hq).symm
  refine ends_alloc ⟨_, .mk (Heap.read_alloc_self h₂ _)
    ((vectorLayout L).frame hvin₂ halloc (Set.empty_disjoint _))
    ((vectorLayout txOutLayout).frame hvout halloc (Set.empty_disjoint _)) hdisj ?_, ?_⟩
  · rintro (hmem | hmem)
    · exact absurd ((vectorLayout L).lt_fresh hvin₂ hmem) (lt_irrefl _)
    · exact absurd ((vectorLayout txOutLayout).lt_fresh hvout hmem) (lt_irrefl _)
  · have hboth := hmoves₁.both hmoves₂
    rw [Set.union_empty] at hboth
    exact hboth.then_alloc _

/-- The vectors of a transaction are entered into its cell. -/
theorem txOverAt_write {vin vout : ℕ} {fi fo : Set ℕ} {c : MemCell} (hcell : h.read p = some c)
    (hvin : VectorAt L h vin ins fi) (hvout : VectorAt txOutLayout h vout outs fo)
    (hdisj : Disjoint fi fo) (hnot : p ∉ fi ∪ fo) (version locktime : UInt32) :
    TxOverAt L (h.write p (.tx ⟨version, some vin, some vout, locktime⟩)) p
      ⟨version, ins, outs, locktime⟩ (insert p (fi ∪ fo)) := by
  have hwrite := Moves.write h p (.tx ⟨version, some vin, some vout, locktime⟩)
  refine .mk (Heap.read_write_self (Heap.lt_fresh hcell) _) ?_ ?_ hdisj hnot
  · exact (vectorLayout L).frame hvin hwrite (Set.disjoint_singleton_left.mpr fun hmem =>
      hnot (Or.inl hmem))
  · exact (vectorLayout txOutLayout).frame hvout hwrite (Set.disjoint_singleton_left.mpr fun hmem =>
      hnot (Or.inr hmem))

/-- The inputs are changed in their place. -/
theorem ends_txOnVin_over (hat : TxOverAt L h p tx fp)
    (hx : ∀ ⦃vin fi⦄, VectorAt L h vin tx.vin fi → fi ⊆ fp → Ends (x vin) h fun _ h' => ∃ fi',
      VectorAt L h' vin ins fi' ∧ Moves h fi h' fi') :
    Ends (txOnVin p x) h fun _ h' => ∃ fp', TxOverAt L h' p { tx with vin := ins } fp' ∧
    Moves h fp h' fp' := by
  obtain ⟨hcell, hvin, hvout, hdisj, hnot⟩ := hat
  rename_i vin vout fi fo
  have hsub : fi ⊆ insert p (fi ∪ fo) := fun q hq => Or.inr (Or.inl hq)
  refine Ends.bind (ends_readAs hcell rfl
    (Ends.bind (ends_pure ((hx hvin hsub).mono fun _ h' hend => ?_))))
  obtain ⟨fi', hvin', hmoves⟩ := hend
  obtain ⟨hstill, hvout', hdisj', hnot', hframe⟩ :=
    (vectorLayout txOutLayout).beside hmoves hcell hvout hdisj hnot
  exact ⟨_, .mk hstill hvin' hvout' hdisj' hnot', hframe⟩

/-- The outputs are changed in their place. -/
theorem ends_txOnVout_over (hat : TxOverAt L h p tx fp)
    (hx : ∀ ⦃vout fo⦄, VectorAt txOutLayout h vout tx.vout fo → fo ⊆ fp →
      Ends (x vout) h fun _ h' => ∃ fo', VectorAt txOutLayout h' vout outs fo' ∧
      Moves h fo h' fo') :
    Ends (txOnVout p x) h fun _ h' => ∃ fp', TxOverAt L h' p { tx with vout := outs } fp' ∧
    Moves h fp h' fp' := by
  obtain ⟨hcell, hvin, hvout, hdisj, hnot⟩ := hat
  rename_i vin vout fi fo
  have hsub : fo ⊆ insert p (fi ∪ fo) := fun q hq => Or.inr (Or.inr hq)
  refine Ends.bind (ends_readAs hcell rfl
    (Ends.bind (ends_pure ((hx hvout hsub).mono fun _ h' hend => ?_))))
  obtain ⟨fo', hvout', hmoves⟩ := hend
  obtain ⟨hstill, hvin', hdisj', hnot', hframe⟩ :=
    (vectorLayout L).beside hmoves hcell hvin hdisj.symm (by rwa [Set.union_comm])
  rw [Set.union_comm fo'] at hnot' hframe
  rw [Set.union_comm fo] at hframe
  exact ⟨_, .mk hstill hvin' hvout' hdisj'.symm hnot', hframe⟩

/-- Another vector of inputs takes the place of the one that was there. -/
theorem ends_txReplaceVin_over (hat : TxOverAt L h p tx fp) {x : Option ℕ → TxProg (Option ℕ)}
    (hx : ∀ ⦃vin fi⦄, VectorAt L h vin tx.vin fi → fi ⊆ fp →
      Ends (x (some vin)) h fun new h' => ∃ v fi', new = some v ∧ VectorAt L h' v ins fi' ∧
      Moves h fi h' fi') :
    Ends (txReplaceVin p x) h fun _ h' => ∃ fp', TxOverAt L h' p { tx with vin := ins } fp' ∧
    Moves h fp h' fp' := by
  obtain ⟨hcell, hvin, hvout, hdisj, hnot⟩ := hat
  rename_i vin vout fi fo
  have hsub : fi ⊆ insert p (fi ∪ fo) := fun q hq => Or.inr (Or.inl hq)
  refine Ends.bind (ends_readAs hcell rfl (Ends.bind ((hx hvin hsub).mono fun new h' hend => ?_)))
  obtain ⟨v, fi', rfl, hvin', hmoves⟩ := hend
  obtain ⟨hstill, hvout', hdisj', hnot', hframe⟩ :=
    (vectorLayout txOutLayout).beside hmoves hcell hvout hdisj hnot
  exact Ends.bind (ends_readAs hstill rfl (ends_write hstill ⟨_,
    txOverAt_write hstill hvin' hvout' hdisj' hnot' tx.version tx.locktime,
    hframe.trans (Moves.write_mem (Set.mem_insert p _) h' _)⟩))

/-- Another vector of outputs takes the place of the one that was there. -/
theorem ends_txReplaceVout_over (hat : TxOverAt L h p tx fp) {x : Option ℕ → TxProg (Option ℕ)}
    (hx : ∀ ⦃vout fo⦄, VectorAt txOutLayout h vout tx.vout fo → fo ⊆ fp →
      Ends (x (some vout)) h fun new h' => ∃ v fo', new = some v ∧
      VectorAt txOutLayout h' v outs fo' ∧
      Moves h fo h' fo') :
    Ends (txReplaceVout p x) h fun _ h' => ∃ fp', TxOverAt L h' p { tx with vout := outs } fp' ∧
    Moves h fp h' fp' := by
  obtain ⟨hcell, hvin, hvout, hdisj, hnot⟩ := hat
  rename_i vin vout fi fo
  have hsub : fo ⊆ insert p (fi ∪ fo) := fun q hq => Or.inr (Or.inr hq)
  refine Ends.bind (ends_readAs hcell rfl (Ends.bind ((hx hvout hsub).mono fun new h' hend => ?_)))
  obtain ⟨v, fo', rfl, hvout', hmoves⟩ := hend
  obtain ⟨hstill, hvin', hdisj', hnot', hframe⟩ :=
    (vectorLayout L).beside hmoves hcell hvin hdisj.symm (by rwa [Set.union_comm])
  rw [Set.union_comm fo'] at hnot' hframe
  rw [Set.union_comm fo] at hframe
  exact Ends.bind (ends_readAs hstill rfl (ends_write hstill ⟨_,
    txOverAt_write hstill hvin' hvout' hdisj'.symm hnot' tx.version tx.locktime,
    hframe.trans (Moves.write_mem (Set.mem_insert p _) h' _)⟩))

/-- A transaction with an input vector and an output vector lies somewhere, for inputs that lie
somehow. -/
def TxOverHolds (L : Layout MemCell β) (h : Heap MemCell) (p : ℕ) (tx : TxOver β) : Prop :=
  ∃ vin vout ins outs, h.read p = some (.tx ⟨tx.version, some vin, some vout, tx.locktime⟩) ∧
    h.read vin = some (.vector ins) ∧ List.Forall₂ (L.Holds h) ins tx.vin ∧
    h.read vout = some (.vector outs) ∧ List.Forall₂ (txOutLayout.Holds h) outs tx.vout

theorem TxOverHolds.keep {h' : Heap MemCell} (hholds : TxOverHolds L h p tx)
    (hmoves : Moves h ∅ h' fp) :
    TxOverHolds L h' p tx := by
  obtain ⟨vin, vout, ins, outs, hcell, hvin, hins, hvout, houts⟩ := hholds
  exact ⟨vin, vout, ins, outs, hmoves.read_eq hcell, hmoves.read_eq hvin, hins.imp fun _ _ hin =>
    hin.keep hmoves, hmoves.read_eq hvout, houts.imp fun _ _ hout => hout.keep hmoves⟩

theorem TxOverAt.holds (hat : TxOverAt L h p tx fp) : TxOverHolds L h p tx := by
  obtain ⟨hcell, ⟨hvin, hins, -⟩, ⟨hvout, houts, -⟩, -, -⟩ := hat
  exact ⟨_, _, _, _, hcell, hvin, hins.holds, hvout, houts.holds⟩

/-- **A copy** of a transaction has the same value, in cells of its own, if its inputs are copied
and freed so. -/
theorem ends_txCopy_over (hfree : Frees L txInFree) (hclone : Copies L txInClone) {src : ℕ}
    {old : TxOver β} (hsrc : TxOverHolds L m src tx) (hat : TxOverAt L h p old fp)
    (hown : Moves m ∅ h fp) :
    Ends (txCopy p src) h fun _ h' => ∃ fp', TxOverAt L h' p tx fp' ∧ Moves h fp h' fp' := by
  obtain ⟨vin, vout, ins, outs, hcell, hvin, hins, hvout, houts⟩ := hsrc
  obtain ⟨hdest, hvinAt, hvoutAt, hdisj, hnot⟩ := hat
  rename_i v w fi fo
  refine Ends.bind (ends_readAs (hown.read_eq hcell) rfl
    (Ends.bind (ends_readAs hdest rfl (Ends.bind ?_))))
  refine ends_write hdest ?_
  have hstep := Moves.write_mem (Set.mem_insert p (fi ∪ fo)) h
    (.tx ⟨tx.version, some v, some w, tx.locktime⟩)
  have hat₁ := txOverAt_write hdest hvinAt hvoutAt hdisj hnot tx.version tx.locktime
  refine Ends.bind ((ends_txReplaceVin_over hat₁ fun u fu hu hsub =>
    ends_vectorClone hfree hclone hu hvin
    hins ((hown.trans hstep).mono subset_rfl hsub)).mono fun _ h₂ hend => ?_)
  obtain ⟨fp₂, hat₂, hmoves₂⟩ := hend
  refine (ends_txReplaceVout_over hat₂ fun u fu hu hsub =>
    ends_vectorClone frees_txOutFree copies_txOutClone hu hvout
    houts ((hown.trans (hstep.trans hmoves₂)).mono subset_rfl hsub)).mono fun _ h₃ hend => ?_
  obtain ⟨fp₃, hat₃, hmoves₃⟩ := hend
  exact ⟨fp₃, hat₃, hstep.trans (hmoves₂.trans hmoves₃)⟩

end

/-- A transaction with an input vector and an output vector lies somewhere, in whatever cells. -/
def TxHolds (h : Heap MemCell) (p : ℕ) (tx : Tx) : Prop :=
  ∃ vin vout ins outs, h.read p = some (.tx ⟨tx.version, some vin, some vout, tx.locktime⟩) ∧
    h.read vin = some (.vector ins) ∧ List.Forall₂ (txInLayout.Holds h) ins tx.vin ∧
    h.read vout = some (.vector outs) ∧ List.Forall₂ (txOutLayout.Holds h) outs tx.vout

theorem TxHolds.keep {h' : Heap MemCell} {p : ℕ} {tx : Tx} {fp : Set ℕ} (hholds : TxHolds h p tx)
    (hmoves : Moves h ∅ h' fp) : TxHolds h' p tx := by
  have hover : TxOverHolds txInLayout h p ⟨tx.version, tx.vin, tx.vout, tx.locktime⟩ := hholds
  exact hover.keep hmoves

section
variable {p : ℕ} {tx : Tx} {fp : Set ℕ} {x : ℕ → TxProg Unit} {outs : List TxOut}

theorem ends_txNew : Ends txNew h fun p h' =>
    ∃ fp, TxAt h' p { version := 1, vin := [], vout := [], locktime := 0 } fp ∧ Moves h ∅ h' fp :=
  (ends_txNew_over txInLayout).mono fun _ _ hend => hend.imp fun _ h => h.imp_left txAt_iff.mpr

theorem ends_txFree (hat : TxAt h p tx fp) : Ends (txFree p) h fun _ h' => Moves h fp h' ∅ := by
  obtain ⟨hcell, hvin, hvout, hdisj, hnot⟩ := hat
  rename_i vin vout fi fo
  refine Ends.bind (ends_readAs hcell rfl
    (Ends.bind ((frees_vectorFree frees_txInFree hvin).mono fun _ h₁ hmoves₁ => ?_)))
  have hvout₁ := (vectorLayout txOutLayout).frame hvout hmoves₁ hdisj
  refine Ends.bind ((frees_vectorFree frees_txOutFree hvout₁).mono fun _ h₂ hmoves₂ => ?_)
  have hboth := hmoves₁.both hmoves₂
  have hstill := (hboth.frame p (Heap.lt_fresh hcell) hnot).trans hcell
  have hall := hboth.both (Moves.free h₂ p)
  rw [Set.union_empty, Set.union_empty, Set.union_comm] at hall
  exact ends_free hstill hall

theorem ends_txValue (hat : TxAt h p tx fp) : Ends (txValue p) h fun t h' => t = tx ∧ h' = h := by
  obtain ⟨hcell, hvin, hvout, hdisj, hnot⟩ := hat
  refine Ends.bind (ends_readAs hcell rfl
    (Ends.bind ((ends_vectorValues reads_txInValue hvin).mono fun vin h₁ hins => ?_)))
  obtain ⟨rfl, rfl⟩ := hins
  refine Ends.bind ((ends_vectorValues reads_txOutValue hvout).mono fun vout h₂ houts => ?_)
  obtain ⟨rfl, rfl⟩ := houts
  exact ends_pure ⟨rfl, rfl⟩

/-- The inputs are changed in their place. -/
theorem ends_txOnVin (hat : TxAt h p tx fp) {ins : List TxIn}
    (hx : ∀ ⦃vin fi⦄, VectorAt txInLayout h vin tx.vin fi → Ends (x vin) h fun _ h' => ∃ fi',
      VectorAt txInLayout h' vin ins fi' ∧ Moves h fi h' fi') :
    Ends (txOnVin p x) h fun _ h' => ∃ fp', TxAt h' p { tx with vin := ins } fp' ∧
    Moves h fp h' fp' :=
  (ends_txOnVin_over (txAt_iff.mp hat) fun _ _ hvin _ => hx hvin).mono fun _ _ hend =>
    hend.imp fun _ h => h.imp_left txAt_iff.mpr

/-- The outputs are changed in their place. -/
theorem ends_txOnVout (hat : TxAt h p tx fp)
    (hx : ∀ ⦃vout fo⦄, VectorAt txOutLayout h vout tx.vout fo → Ends (x vout) h fun _ h' => ∃ fo',
      VectorAt txOutLayout h' vout outs fo' ∧ Moves h fo h' fo') :
    Ends (txOnVout p x) h fun _ h' => ∃ fp', TxAt h' p { tx with vout := outs } fp' ∧
    Moves h fp h' fp' :=
  (ends_txOnVout_over (txAt_iff.mp hat) fun _ _ hvout _ => hx hvout).mono fun _ _ hend =>
    hend.imp fun _ h => h.imp_left txAt_iff.mpr

/-- Another vector of outputs takes the place of the one that was there. -/
theorem ends_txReplaceVout (hat : TxAt h p tx fp) {x : Option ℕ → TxProg (Option ℕ)}
    (hx : ∀ ⦃vout fo⦄, VectorAt txOutLayout h vout tx.vout fo → fo ⊆ fp →
      Ends (x (some vout)) h fun new h' => ∃ v fo', new = some v ∧
      VectorAt txOutLayout h' v outs fo' ∧
      Moves h fo h' fo') :
    Ends (txReplaceVout p x) h fun _ h' => ∃ fp', TxAt h' p { tx with vout := outs } fp' ∧
    Moves h fp h' fp' :=
  (ends_txReplaceVout_over (txAt_iff.mp hat) hx).mono fun _ _ hend => hend.imp fun _ h =>
    h.imp_left txAt_iff.mpr

/-- **A copy** of a transaction has the same value, in cells of its own. -/
theorem ends_txCopy {src : ℕ} {old : Tx} (hsrc : TxHolds m src tx) (hat : TxAt h p old fp)
    (hown : Moves m ∅ h fp) :
    Ends (txCopy p src) h fun _ h' => ∃ fp', TxAt h' p tx fp' ∧ Moves h fp h' fp' := by
  have hover : TxOverHolds txInLayout m src ⟨tx.version, tx.vin, tx.vout, tx.locktime⟩ := hsrc
  refine (ends_txCopy_over frees_txInFree copies_txInClone hover (txAt_iff.mp hat) hown).mono
    fun _ _ hend => ?_
  exact hend.imp fun _ h => h.imp_left txAt_iff.mpr

end

end TxMemory

end Libdogecoin
