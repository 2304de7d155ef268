/-
# What the transaction parser accepts

`dogecoin_tx_deserialize_ex` without witnesses is an exact reader beside `dogecoin_tx_serialize`
at the inputs where 32 bytes are left wherever it reads a previous hash and no count begins with
the byte of the nine-byte form. Elsewhere it takes what serializes to something else.

* `exact_deserVarlen`, `exact_txInDeserialize`, `exact_txOutDeserialize` : the parts;
* `txConsumed_serialize_iff` : the whole transaction;
* `txConsumed_txSerialized` : the other direction, for every transaction that is ever written.
-/
import Libdogecoin.ExactRead
import Libdogecoin.Tx

namespace Libdogecoin

open ExactRead

/-- `dogecoin_tx_deserialize_ex` with the length it reports as consumed. -/
def txDeserializeConsumed (buf : Bytes) (allowWitness : Bool) : Option (Tx × ℕ) :=
  (txDeserializeEx buf allowWitness).map fun (tx, rest) => (tx, buf.length - rest.length)

/-! ## Counts -/

/-- The count at the front, if there is one, is written in the shortest of the four forms. -/
def MinimalVarlen (buf : Bytes) : Prop :=
  match buf with
  | [] => True
  | c :: rest =>
    if c = 253 then Then deserU16 (fun v _ => 253 ≤ v) rest
    else if c = 254 then Then deserU32 (fun v _ => 0x10000 ≤ v) rest
    else if c = 255 then Then deserU64 (fun v _ => 0x100000000 ≤ v) rest
    else True

/-- The count at the front, if there is one, is not in the nine-byte form. -/
def ShortVarlen (buf : Bytes) : Prop := buf.head? ≠ some 255

instance (buf : Bytes) : Decidable (MinimalVarlen buf) := by
  unfold MinimalVarlen
  split <;> infer_instance

instance (buf : Bytes) : Decidable (ShortVarlen buf) := inferInstanceAs (Decidable (_ ≠ _))

/-- A field that is always read back as it is written. -/
theorem exact_of_field {α : Type} {read : Bytes → Option (α × Bytes)} {write : α → Bytes}
    (h : ∀ ⦃buf rest : Bytes⦄ ⦃x : α⦄, read buf = some (x, rest) → buf = write x ++ rest) :
    Exact read write (fun _ => True) (fun _ => True) :=
  exact_of_eq_append fun _ _ _ hread _ => ⟨fun _ => h hread, fun _ => trivial⟩

theorem exact_deserU32 : Exact deserU32 serU32 (fun _ => True) (fun _ => True) :=
  exact_of_field fun _ _ _ h => deserU32_eq_append h

theorem exact_deserU64 : Exact deserU64 serU64 (fun _ => True) (fun _ => True) :=
  exact_of_field fun _ _ _ h => deserU64_eq_append h

/-- No count is written in the nine-byte form. -/
theorem head_serVarlen_ne (v : UInt32) : (serVarlen v).head? ≠ some 255 := by
  rw [serVarlen]
  split
  · next h =>
      have hlt : v.toNat < 253 := by simpa [UInt32.lt_iff_toNat_lt] using h
      intro hhead
      have hbyte : v.toUInt8.toNat = 255 := by
        rw [Option.some.inj hhead]
        rfl
      simp at hbyte
      omega
  · split
    · simp
    · simp

/-- A count in the shortest form that is not the nine-byte form is the one written for its value. -/
theorem deserVarlen_eq_append {buf rest : Bytes} {v : UInt32} (h : deserVarlen buf = some (v, rest))
    (hM : MinimalVarlen buf) (hG : ShortVarlen buf) : buf = serVarlen v ++ rest := by
  cases buf with
  | nil => cases h
  | cons c tail =>
    have hc : c ≠ 255 := by
      rintro rfl
      exact hG rfl
    rw [deserVarlen] at h
    rw [MinimalVarlen] at hM
    split at h
    · next h253 =>
        rw [if_pos h253] at hM
        rw [Option.map_eq_some_iff] at h
        obtain ⟨⟨v16, rest'⟩, h16, heq⟩ := h
        cases heq
        have hmin : 253 ≤ v16 := (then_iff h16).mp hM
        have hlow : ¬ v16.toUInt32 < 253 := by
          rw [UInt32.lt_iff_toNat_lt]
          have := UInt16.le_iff_toNat_le.mp hmin
          simp at this ⊢
          omega
        have hhigh : v16.toUInt32 < 0x10000 := by
          rw [UInt32.lt_iff_toNat_lt]
          have := v16.toNat_lt
          simp
          omega
        rw [serVarlen, if_neg hlow, if_pos hhigh, h253, deserU16_eq_append h16]
        simp
    · next h253 =>
        rw [if_neg h253] at hM
        split at h
        · next h254 =>
            rw [if_pos h254] at hM
            have hmin : 0x10000 ≤ v := (then_iff h).mp hM
            have hlow : ¬ v < 253 := by
              rw [UInt32.lt_iff_toNat_lt]
              have := UInt32.le_iff_toNat_le.mp hmin
              simp at this ⊢
              omega
            rw [serVarlen, if_neg hlow, if_neg (UInt32.not_lt.mpr hmin), h254,
              deserU32_eq_append h, List.cons_append]
        · next h254 =>
            cases h
            have hlt : c.toNat < 253 := by
              have h1 : c.toNat ≠ 253 := fun h => h253 (UInt8.toNat_inj.mp h)
              have h2 : c.toNat ≠ 254 := fun h => h254 (UInt8.toNat_inj.mp h)
              have h3 : c.toNat ≠ 255 := fun h => hc (UInt8.toNat_inj.mp h)
              have := c.toNat_lt
              omega
            have hlow : c.toUInt32 < 253 := by
              rw [UInt32.lt_iff_toNat_lt]
              simpa using hlt
            rw [serVarlen, if_pos hlow]
            simp

/-- **Counts.** In the shortest form they are read exactly, but for the nine-byte form. -/
theorem exact_deserVarlen : Exact deserVarlen serVarlen MinimalVarlen ShortVarlen := by
  apply exact_of_eq_append
  intro buf rest v h hM
  refine ⟨deserVarlen_eq_append h hM, ?_⟩
  rintro ⟨tail, rfl⟩
  rw [ShortVarlen, List.head?_append_of_ne_nil]
  · exact head_serVarlen_ne v
  · rw [serVarlen]
    split_ifs <;> simp

/-! ## Strings, inputs and outputs -/

theorem exact_deserVarstr : Exact deserVarstr serVarstr MinimalVarlen ShortVarlen := by
  intro buf rest str h hM w
  unfold deserVarstr at h
  simp only [Option.bind_eq_bind, Option.bind_eq_some_iff] at h
  obtain ⟨⟨len, mid⟩, hlen, hstr⟩ := h
  obtain ⟨hlength, rfl⟩ := deserBytes_eq_some hstr
  have hwrite : serVarstr str = serVarlen len ++ str := by
    have hlt := len.toNat_lt
    dsimp only at hlength
    unfold serVarstr
    split_ifs with hempty hlong
    · have hzero : len = 0 := UInt32.toNat_inj.mp (hlength.symm.trans hempty)
      rw [List.length_eq_zero_iff.mp hempty, hzero, List.append_nil]
    · omega
    · rw [hlength, UInt32.ofNat_toNat]
  rw [hwrite, List.append_assoc, exact_deserVarlen hlen hM, List.prefix_append_right_inj]

/-- At least 32 bytes are left, where a previous hash is read. -/
def HashFits (buf : Bytes) : Prop := 32 ≤ buf.length

instance (buf : Bytes) : Decidable (HashFits buf) := inferInstanceAs (Decidable (_ ≤ _))

/-- The first statement of `dogecoin_tx_in_deserialize`. -/
def deserPrevHash (buf : Bytes) : Option (Uint256 × Bytes) :=
  some ((deserU256 buf).getD (Uint256.zero, buf))

theorem exact_deserPrevHash : Exact deserPrevHash serU256 (fun _ => True) HashFits := by
  apply exact_of_eq_append
  intro buf rest hash h _
  refine ⟨fun hfits => ?_, fun hprefix => ?_⟩
  · rw [HashFits] at hfits
    rw [deserPrevHash, deserU256, dif_neg (by omega)] at h
    obtain ⟨hhash, hrest⟩ := Prod.mk.inj (Option.some.inj h)
    rw [serU256, ← hhash, ← hrest]
    exact (List.take_append_drop 32 buf).symm
  · rw [HashFits, ← length_serU256 hash]
    exact hprefix.length_le

/-- The counts and the previous hash that `dogecoin_tx_in_deserialize` reads have the properties. -/
def TxInReads (V H : Bytes → Prop) (buf : Bytes) : Prop :=
  H buf ∧ Then deserPrevHash (fun _ => Then deserU32 fun _ => V) buf

/-- The count that `dogecoin_tx_out_deserialize` reads has the property. -/
def TxOutReads (V : Bytes → Prop) (buf : Bytes) : Prop := Then deserU64 (fun _ => V) buf

instance (V H : Bytes → Prop) [DecidablePred V] [DecidablePred H] : DecidablePred (TxInReads V H) :=
  fun buf => inferInstanceAs (Decidable (_ ∧ Then deserPrevHash _ buf))

instance (V : Bytes → Prop) [DecidablePred V] : DecidablePred (TxOutReads V) :=
  fun buf => inferInstanceAs (Decidable (Then deserU64 _ buf))

/-- An input is read field by field. -/
theorem txInDeserialize_eq_some {buf rest : Bytes} {txIn : TxIn}
    (h : txInDeserialize buf = some (txIn, rest)) :
    ∃ afterHash afterIndex afterScript,
      deserPrevHash buf = some (txIn.prevout.hash, afterHash) ∧
      deserU32 afterHash = some (txIn.prevout.n, afterIndex) ∧
      deserVarstr afterIndex = some (txIn.scriptSig, afterScript) ∧
      deserU32 afterScript = some (txIn.sequence, rest) := by
  unfold txInDeserialize at h
  simp only [Option.bind_eq_bind, Option.bind_eq_some_iff] at h
  obtain ⟨⟨n, afterIndex⟩, hindex, ⟨script, afterScript⟩, hscript, ⟨sequence, last⟩,
    hsequence, h⟩ := h
  cases h
  exact ⟨_, afterIndex, afterScript, rfl, hindex, hscript, hsequence⟩

theorem txOutDeserialize_eq_some {buf rest : Bytes} {txOut : TxOut}
    (h : txOutDeserialize buf = some (txOut, rest)) :
    ∃ afterValue, deserU64 buf = some (txOut.value, afterValue) ∧
      deserVarstr afterValue = some (txOut.scriptPubkey, rest) := by
  unfold txOutDeserialize at h
  simp only [Option.bind_eq_bind, Option.bind_eq_some_iff] at h
  obtain ⟨⟨value, afterValue⟩, hvalue, ⟨script, last⟩, hscript, h⟩ := h
  cases h
  exact ⟨afterValue, hvalue, hscript⟩

/-- **Inputs.** With minimal counts they are read exactly where the hash fits. -/
theorem exact_txInDeserialize :
    Exact txInDeserialize txInSerialize (TxInReads MinimalVarlen fun _ => True)
      (TxInReads ShortVarlen HashFits) := by
  intro buf rest txIn h hM w
  obtain ⟨afterHash, afterIndex, afterScript, hhash, hindex, hscript, hsequence⟩ :=
    txInDeserialize_eq_some h
  have hMscript : MinimalVarlen afterIndex := by
    have := hM.2
    rwa [then_iff hhash, then_iff hindex] at this
  unfold txInSerialize TxInReads
  simp only [List.append_assoc]
  rw [exact_deserPrevHash hhash trivial, exact_deserU32 hindex trivial,
    exact_deserVarstr hscript hMscript, exact_deserU32 hsequence trivial, then_iff hhash,
    then_iff hindex, true_and, true_and, and_assoc]

/-- **Outputs.** With minimal counts they are read exactly. -/
theorem exact_txOutDeserialize :
    Exact txOutDeserialize txOutSerialize (TxOutReads MinimalVarlen) (TxOutReads ShortVarlen) := by
  intro buf rest txOut h hM w
  obtain ⟨afterValue, hvalue, hscript⟩ := txOutDeserialize_eq_some h
  have hMscript : MinimalVarlen afterValue := (then_iff hvalue).mp hM
  unfold txOutSerialize TxOutReads
  rw [List.append_assoc, exact_deserU64 hvalue trivial, exact_deserVarstr hscript hMscript,
    then_iff hvalue, true_and]

/-! ## Transactions -/

theorem deserMany_eq_readMany {α : Type} (item : Bytes → Option (α × Bytes)) (n : ℕ) :
    deserMany item n = readMany item n := by
  induction n with
  | zero => rfl
  | succ n ih =>
    funext buf
    rw [deserMany, readMany, ih]
    rfl

/-- A count with the property, then as many items with theirs, then what follows. -/
def RowReads {α : Type} (V : Bytes → Prop) (item : Bytes → Option (α × Bytes)) (P Q : Bytes → Prop)
    (buf : Bytes) : Prop :=
  V buf ∧ Then deserVarlen (fun n rest =>
    Each item P n.toNat rest ∧ Then (deserMany item n.toNat) (fun _ => Q) rest) buf

instance {α : Type} (V : Bytes → Prop) (item : Bytes → Option (α × Bytes)) (P Q : Bytes → Prop)
    [DecidablePred V] [DecidablePred P] [DecidablePred Q] : DecidablePred (RowReads V item P Q) :=
  fun buf => inferInstanceAs (Decidable (_ ∧ Then deserVarlen _ buf))

/-- The counts and the previous hashes that `dogecoin_tx_deserialize_ex` reads, without witnesses,
have the properties. -/
def TxReads (V H : Bytes → Prop) (buf : Bytes) : Prop :=
  Then deserU32 (fun _ =>
    RowReads V txInDeserialize (TxInReads V H)
      (RowReads V txOutDeserialize (TxOutReads V) fun _ => True)) buf

instance (V H : Bytes → Prop) [DecidablePred V] [DecidablePred H] : DecidablePred (TxReads V H) :=
  fun buf => inferInstanceAs (Decidable (Then deserU32 _ buf))

section

variable {α : Type} {item : Bytes → Option (α × Bytes)} {buf afterCount rest : Bytes} {n : UInt32}
  {xs : List α}

theorem rowReads_iff (hcount : deserVarlen buf = some (n, afterCount))
    (hmany : deserMany item n.toNat afterCount = some (xs, rest)) {V P Q : Bytes → Prop} :
    RowReads V item P Q buf ↔ (V buf ∧ Each item P n.toNat afterCount) ∧ Q rest := by
  rw [RowReads, then_iff hcount, then_iff hmany, and_assoc]

/-- A row is written as its count and its items. -/
theorem exact_row {write : α → Bytes} {M G : Bytes → Prop} (hitem : Exact item write M G)
    (hcount : deserVarlen buf = some (n, afterCount))
    (hmany : deserMany item n.toNat afterCount = some (xs, rest))
    (hM : MinimalVarlen buf ∧ Each item M n.toNat afterCount) (w : Bytes) :
    serVarlen (UInt32.ofNat xs.length) ++ (xs.flatMap write ++ w) <+: buf ↔
      (ShortVarlen buf ∧ Each item G n.toNat afterCount) ∧ w <+: rest := by
  rw [deserMany_eq_readMany] at hmany
  have hlength : UInt32.ofNat xs.length = n := by
    rw [length_of_readMany hmany, UInt32.ofNat_toNat]
  have hitems := hitem.many n.toNat hmany hM.2 w
  rw [hlength, exact_deserVarlen hcount hM.1, and_assoc]
  exact and_congr_right fun _ => hitems

end

/-- Without witnesses a transaction is read field by field. -/
theorem txDeserializeEx_eq_some {buf rest : Bytes} {tx : Tx}
    (h : txDeserializeEx buf false = some (tx, rest)) :
    ∃ afterVersion vinLen afterVinLen afterVin voutLen afterVoutLen afterVout,
      deserU32 buf = some (tx.version, afterVersion) ∧
      deserVarlen afterVersion = some (vinLen, afterVinLen) ∧
      deserMany txInDeserialize vinLen.toNat afterVinLen = some (tx.vin, afterVin) ∧
      deserVarlen afterVin = some (voutLen, afterVoutLen) ∧
      deserMany txOutDeserialize voutLen.toNat afterVoutLen = some (tx.vout, afterVout) ∧
      deserU32 afterVout = some (tx.locktime, rest) := by
  unfold txDeserializeEx vinCountDeserialize at h
  simp only [Option.bind_eq_bind, Option.bind_eq_some_iff, Bool.false_eq_true, and_false,
    if_false, Option.some.injEq] at h
  obtain ⟨⟨version, afterVersion⟩, hversion, ⟨count, flags, afterCount⟩,
    ⟨⟨vinLen, afterVinLen⟩, hvinLen, hcount⟩, h⟩ := h
  cases hcount
  obtain ⟨⟨vin, afterVin⟩, hvin, ⟨voutLen, afterVoutLen⟩, hvoutLen,
    ⟨vout, afterVout⟩, hvout, h⟩ := h
  -- no flag was read, so no witness follows
  have hflag : ¬ ((0 : UInt8) &&& 1 ≠ 0) := by decide
  simp only [if_neg hflag, Option.bind_some, ne_eq, not_true_eq_false, if_false,
    Option.bind_eq_some_iff] at h
  obtain ⟨⟨locktime, last⟩, hlocktime, h⟩ := h
  cases h
  exact ⟨afterVersion, vinLen, afterVinLen, afterVin, voutLen, afterVoutLen, afterVout, hversion,
    hvinLen, hvin, hvoutLen, hvout, hlocktime⟩

/-- **Transactions.** With minimal counts they are read exactly where every hash fits and no count
is in the nine-byte form. -/
theorem exact_txDeserializeEx :
    Exact (fun buf => txDeserializeEx buf false) txSerialize (TxReads MinimalVarlen fun _ => True)
      (TxReads ShortVarlen HashFits) := by
  intro buf rest tx h hM w
  obtain ⟨afterVersion, vinLen, afterVinLen, afterVin, voutLen, afterVoutLen, afterVout, hversion,
    hvinLen, hvin, hvoutLen, hvout, hlocktime⟩ := txDeserializeEx_eq_some h
  rw [TxReads, then_iff hversion, rowReads_iff hvinLen hvin, rowReads_iff hvoutLen hvout] at hM
  have hins := exact_row exact_txInDeserialize hvinLen hvin hM.1
  have houts := exact_row exact_txOutDeserialize hvoutLen hvout hM.2.1
  unfold txSerialize
  simp only [List.append_assoc]
  rw [exact_deserU32 hversion trivial, hins, houts, exact_deserU32 hlocktime trivial, TxReads,
    then_iff hversion, rowReads_iff hvinLen hvin, rowReads_iff hvoutLen hvout]
  tauto

/-- What `dogecoin_tx_deserialize_ex` accepts with minimal counts serializes to the bytes it
consumed exactly where every previous hash it reads fits and no count is in the nine-byte form. -/
theorem txConsumed_serialize_iff {buf : Bytes} {tx : Tx} {n : ℕ}
    (h : txDeserializeConsumed buf false = some (tx, n))
    (hmin : TxReads MinimalVarlen (fun _ => True) buf) :
    txSerialize tx = buf.take n ↔ TxReads ShortVarlen HashFits buf := by
  rw [txDeserializeConsumed, Option.map_eq_some_iff] at h
  obtain ⟨⟨tx', rest⟩, hread, heq⟩ := h
  cases heq
  exact exact_txDeserializeEx.take_iff hread hmin

/-- A transaction with two inputs and two outputs. -/
def paymentTx : Tx where
  version := 1
  vin := [⟨⟨⟨List.replicate 32 7, rfl⟩, 1⟩, [1, 0x51, 2], 0xffffffff⟩,
    ⟨⟨⟨List.replicate 32 8, rfl⟩, 300⟩, [0x52], 5⟩]
  vout := [{ value := 0x100000002, scriptPubkey := [0x76, 0xa9] },
    { value := 3, scriptPubkey := List.replicate 260 4 }]
  locktime := 6

/-- Its bytes, with counts of one and of three bytes, and two bytes behind them. -/
theorem txConsumed_serialize_iff_payment :
    txSerialize paymentTx = (txSerialize paymentTx ++ [9, 9]).take 378 ↔
      TxReads ShortVarlen HashFits (txSerialize paymentTx ++ [9, 9]) :=
  txConsumed_serialize_iff (by decide +kernel) (by decide +kernel)

/-- The version, a count of one input, its index, an empty script, its sequence, no outputs and the
locktime: the previous hash of the input is missing. -/
def truncatedTx : Bytes := [1, 0, 0, 0, 1, 0, 0, 0, 0, 0, 255, 255, 255, 255, 0, 0, 0, 0, 0]

/-- The truncated transaction is accepted, with minimal counts, and is not what it serializes to. -/
theorem txConsumed_truncated :
    ∃ tx, txDeserializeConsumed truncatedTx false = some (tx, 19) ∧
      TxReads MinimalVarlen (fun _ => True) truncatedTx ∧ txSerialize tx ≠ truncatedTx.take 19 :=
  ⟨{ version := 1
     vin := [⟨⟨Uint256.zero, 0⟩, [], 0xffffffff⟩]
     vout := []
     locktime := 0 }, by decide, by decide, by decide⟩

/-! ## What is written is read back -/

/-- The loop over a `vector` in `dogecoin_tx_serialize` : its index has 32 bits, the length has 64,
so with 2^32 items the index never reaches the length and the loop does not end. -/
def serVector {α : Type} (ser : α → Bytes) (xs : List α) : Option Bytes :=
  if xs.length < 2 ^ 32 then some (xs.flatMap ser) else none

/-- `dogecoin_tx_serialize` as a call that may not return. -/
def txSerialized (tx : Tx) : Option Bytes := do
  let vin ← serVector txInSerialize tx.vin
  let vout ← serVector txOutSerialize tx.vout
  some (serU32 tx.version ++
    serVarlen (UInt32.ofNat tx.vin.length) ++ vin ++
    serVarlen (UInt32.ofNat tx.vout.length) ++ vout ++
    serU32 tx.locktime)

theorem txSerialized_eq_some {tx : Tx} (hvin : tx.vin.length < 2 ^ 32)
    (hvout : tx.vout.length < 2 ^ 32) : txSerialized tx = some (txSerialize tx) := by
  unfold txSerialized serVector
  rw [if_pos hvin, if_pos hvout]
  rfl

/-- **Round trip.** A transaction with fewer than 2^32 inputs and fewer than 2^32 outputs is
written, and read back from what was written and any bytes behind it, which are not consumed. Where
witnesses are allowed it needs an input. -/
theorem txConsumed_txSerialized {tx : Tx} (hvin : tx.vin.length < 2 ^ 32)
    (hvout : tx.vout.length < 2 ^ 32)
    (hsig : ∀ txIn ∈ tx.vin, txIn.scriptSig.length ≤ 2 ^ 32 - 1)
    (hpubkey : ∀ txOut ∈ tx.vout, txOut.scriptPubkey.length ≤ 2 ^ 32 - 1) {allowWitness : Bool}
    (hallow : allowWitness = true → tx.vin ≠ []) (rest : Bytes) :
    ∃ bytes, txSerialized tx = some bytes ∧
      txDeserializeConsumed (bytes ++ rest) allowWitness = some (tx, bytes.length) := by
  have hsized : tx.Sized :=
    { vin := hvin
      vout := hvout
      scriptSig := fun txIn h => by have := hsig txIn h; omega
      scriptPubkey := fun txOut h => by have := hpubkey txOut h; omega }
  refine ⟨txSerialize tx, txSerialized_eq_some hvin hvout, ?_⟩
  rw [txDeserializeConsumed, txDeserializeEx_serialize hsized hallow rest, Option.map_some]
  dsimp only
  rw [List.length_append, Nat.add_sub_cancel]

/-- Two inputs and two outputs, read in witness mode from what was written and one more byte. -/
theorem txConsumed_txSerialized_payment :
    ∃ bytes, txSerialized paymentTx = some bytes ∧
      txDeserializeConsumed (bytes ++ [7]) true = some (paymentTx, bytes.length) :=
  txConsumed_txSerialized (by decide) (by decide) (by decide) (by decide +kernel)
    (fun _ => List.cons_ne_nil _ _) [7]

/-- With 2^32 outputs `dogecoin_tx_serialize` does not return, though every script is empty. -/
theorem txSerialized_longVout :
    let tx := Tx.mk 1 [] (List.replicate (2 ^ 32) (TxOut.mk 0 [])) 0
    (∀ txOut ∈ tx.vout, txOut.scriptPubkey.length ≤ 2 ^ 32 - 1) ∧ txSerialized tx = none := by
  refine ⟨?_, ?_⟩
  · intro txOut h
    rw [List.eq_of_mem_replicate h]
    simp
  · unfold txSerialized
    have hlong : serVector txOutSerialize (List.replicate (2 ^ 32) (TxOut.mk 0 [])) = none := by
      rw [serVector, if_neg (by rw [List.length_replicate]; omega)]
    simp only [hlong, Option.bind_eq_bind, Option.bind_none, Option.bind_fun_none]

end Libdogecoin
