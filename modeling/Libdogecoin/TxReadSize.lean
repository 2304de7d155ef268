/-
# The size of a transaction that was read

A transaction is not written longer than it was read, but for the inputs at the end of a buffer
whose previous hash does not fit: each of them is read from nine bytes at least, and written with 32
more.

* `length_txSerialize_le` : three such inputs at most;
* `length_txSerialize_lt` : without inputs the mark of a witness is lost.
-/
import Libdogecoin.PsbtTidy
import Libdogecoin.TxWire

namespace Libdogecoin

/-! ## Sizes of what is read -/

/-- What is written back of a previous hash that did not fit, in a buffer of `n` bytes at most. -/
def slack (n : ℕ) : ℕ := 32 * (min n 31 / 9)

/-- A buffer with what may be written back besides it. -/
def measure (n : ℕ) : ℕ := n + slack n

theorem slack_le (n : ℕ) : slack n ≤ 96 := by
  unfold slack
  omega

/-- Reading takes as many bytes as writing gives, up to the slack. -/
def Bounded {α : Type} (read : Bytes → Option (α × Bytes)) (write : α → Bytes) : Prop :=
  ∀ ⦃buf rest : Bytes⦄ ⦃x : α⦄, read buf = some (x, rest) →
    (write x).length + measure rest.length ≤ measure buf.length

/-- Reading takes as many bytes as writing gives. -/
def Covers {α : Type} (read : Bytes → Option (α × Bytes)) (write : α → Bytes) : Prop :=
  ∀ ⦃buf rest : Bytes⦄ ⦃x : α⦄, read buf = some (x, rest) →
    (write x).length + rest.length ≤ buf.length

/-- What holds of each item, in any measure of the bytes that are left, holds of a row of items. -/
theorem length_many {α : Type} {read : Bytes → Option (α × Bytes)}
    {write : α → Bytes} {left : ℕ → ℕ}
    (h : ∀ ⦃buf rest : Bytes⦄ ⦃x : α⦄, read buf = some (x, rest) →
      (write x).length + left rest.length ≤ left buf.length) (n : ℕ) :
    ∀ ⦃buf rest : Bytes⦄ ⦃xs : List α⦄, deserMany read n buf = some (xs, rest) →
      (xs.flatMap write).length + left rest.length ≤ left buf.length := by
  induction n with
  | zero =>
    intro buf rest xs hread
    cases hread
    exact Nat.le_of_eq (Nat.zero_add _)
  | succ n ih =>
    intro buf rest xs hread
    simp only [deserMany, Option.bind_eq_bind, Option.bind_eq_some_iff] at hread
    obtain ⟨⟨x, mid⟩, hx, ⟨ys, rest'⟩, hys, heq⟩ := hread
    cases heq
    have hhead := h hx
    have htail := ih hys
    dsimp only at hhead htail ⊢
    rw [List.flatMap_cons, List.length_append]
    omega

theorem Bounded.many {α : Type} {read : Bytes → Option (α × Bytes)} {write : α → Bytes}
    (h : Bounded read write) (n : ℕ) : Bounded (deserMany read n) (fun xs => xs.flatMap write) :=
  length_many h n

theorem Covers.many {α : Type} {read : Bytes → Option (α × Bytes)} {write : α → Bytes}
    (h : Covers read write) (n : ℕ) : Covers (deserMany read n) (fun xs => xs.flatMap write) :=
  @length_many _ read write id h n

/-! ## Fields -/

variable {buf rest : Bytes} {allowWitness : Bool} {tx : Tx}

theorem length_of_eq_append {w : Bytes} (h : buf = w ++ rest) :
    w.length + rest.length ≤ buf.length := by
  rw [h, List.length_append]

theorem covers_deserU32 : Covers deserU32 serU32 := fun _ _ _ h => length_of_eq_append
    (deserU32_eq_append h)

theorem covers_deserU64 : Covers deserU64 serU64 := fun _ _ _ h => length_of_eq_append
    (deserU64_eq_append h)

theorem length_serVarlen_le (v : UInt32) :
    (serVarlen v).length ≤ 5 ∧ (v < 0x10000 → (serVarlen v).length ≤ 3) ∧
    (v < 253 → (serVarlen v).length = 1) := by
  unfold serVarlen
  split_ifs with h253 h16
  · exact ⟨by simp, fun _ => by simp, fun _ => by simp⟩
  · have hlen : (253 :: serU16 v.toUInt16).length = 3 := by
      rw [List.length_cons, serU16, LittleEndian.length_toBytes]
    exact ⟨by omega, fun _ => by omega, fun h => absurd h h253⟩
  · exact ⟨by simp, fun h => absurd h h16, fun h => absurd h h253⟩

theorem covers_deserVarlen : Covers deserVarlen serVarlen := by
  intro buf rest v h
  obtain ⟨hlong, hmid, hshort⟩ := length_serVarlen_le v
  cases buf with
  | nil => cases h
  | cons c buf =>
    rw [List.length_cons]
    dsimp only [deserVarlen] at h
    split_ifs at h with h253 h254 h255
    · obtain ⟨⟨w, rest'⟩, hread, heq⟩ := Option.map_eq_some_iff.mp h
      cases heq
      have hlen := congrArg List.length (deserU16_eq_append hread)
      have hlt : w.toUInt32 < 0x10000 := by
        rw [UInt32.lt_iff_toNat_lt]
        have := w.toNat_lt
        simp
        omega
      have hthree := hmid hlt
      dsimp only at hthree
      rw [List.length_append, serU16, LittleEndian.length_toBytes] at hlen
      dsimp only at hlen ⊢
      omega
    · have hlen := congrArg List.length (deserU32_eq_append h)
      rw [List.length_append, length_serU32] at hlen
      omega
    · obtain ⟨⟨w, rest'⟩, hread, heq⟩ := Option.map_eq_some_iff.mp h
      cases heq
      have hlen := congrArg List.length (deserU64_eq_append hread)
      rw [List.length_append, serU64, LittleEndian.length_toBytes] at hlen
      dsimp only at hlong hlen ⊢
      omega
    · cases h
      have hone : c.toUInt32 < 253 := by
        rw [UInt32.lt_iff_toNat_lt]
        have h1 : c.toNat ≠ 253 := fun h => h253 (UInt8.toNat_inj.mp h)
        have h2 : c.toNat ≠ 254 := fun h => h254 (UInt8.toNat_inj.mp h)
        have h3 : c.toNat ≠ 255 := fun h => h255 (UInt8.toNat_inj.mp h)
        have := c.toNat_lt
        simp
        omega
      have hlen := hshort hone
      omega

/-- A string that was read fits its count. -/
theorem length_of_deserVarstr {str : Bytes} (h : deserVarstr buf = some (str, rest)) :
    str.length < 2 ^ 32 := by
  unfold deserVarstr at h
  simp only [Option.bind_eq_bind, Option.bind_eq_some_iff] at h
  obtain ⟨⟨len, mid⟩, hlen, hstr⟩ := h
  rw [(deserBytes_length hstr).1]
  exact len.toNat_lt

theorem covers_deserVarstr : Covers deserVarstr serVarstr := by
  intro buf rest str h
  have hsize := length_of_deserVarstr h
  unfold deserVarstr at h
  simp only [Option.bind_eq_bind, Option.bind_eq_some_iff] at h
  obtain ⟨⟨len, mid⟩, hlen, hstr⟩ := h
  obtain ⟨hlength, hmid⟩ := deserBytes_length hstr
  have hcount := covers_deserVarlen hlen
  dsimp only at hlength hmid hcount
  have hlen' : UInt32.ofNat str.length = len := by rw [hlength, UInt32.ofNat_toNat]
  unfold serVarstr
  split_ifs with hempty hlong
  · rw [hempty] at hlen'
    rw [show (0 : UInt32) = len from hlen']
    omega
  · omega
  · rw [hlen', List.length_append]
    omega

/-! ## Inputs and outputs -/

theorem covers_txOutDeserialize : Covers txOutDeserialize txOutSerialize := by
  intro buf rest txOut h
  obtain ⟨afterValue, hvalue, hscript⟩ := txOutDeserialize_eq_some h
  have hv := covers_deserU64 hvalue
  have hs := covers_deserVarstr hscript
  rw [txOutSerialize, List.length_append]
  omega

theorem bounded_txInDeserialize : Bounded txInDeserialize txInSerialize := by
  intro buf rest txIn h
  obtain ⟨afterHash, afterIndex, afterScript, hhash, hindex, hscript, hsequence⟩ :=
    txInDeserialize_eq_some h
  have hi := covers_deserU32 hindex
  have hs := covers_deserVarstr hscript
  have hq := covers_deserU32 hsequence
  have hpos : 1 ≤ (serVarstr txIn.scriptSig).length := by
    unfold serVarstr serVarlen
    split_ifs <;> simp
  rw [length_serU32] at hi hq
  simp only [txInSerialize, List.length_append, length_serU256, length_serU32]
  by_cases hshort : buf.length < 32
  · -- the hash does not fit, and nothing is taken for it
    have hsame : afterHash = buf := by
      rw [deserPrevHash, deserU256, dif_pos hshort] at hhash
      exact (congrArg Prod.snd (Option.some.inj hhash)).symm
    rw [hsame] at hi
    unfold measure slack
    omega
  · have htaken : afterHash.length + 32 = buf.length := by
      rw [deserPrevHash, deserU256, dif_neg hshort] at hhash
      obtain rfl : buf.drop 32 = afterHash := congrArg Prod.snd (Option.some.inj hhash)
      rw [List.length_drop]
      omega
    unfold measure slack
    omega

/-! ## Transactions -/

/-- Nothing is written back of a witness. -/
theorem covers_witnessDeserialize : Covers witnessDeserialize fun _ => [] := by
  intro buf rest x h
  simp only [witnessDeserialize, Option.bind_eq_bind, Option.bind_eq_some_iff] at h
  obtain ⟨⟨count, afterCount⟩, hcount, ⟨strs, rest'⟩, hstrs, heq⟩ := h
  cases heq
  have hc := covers_deserVarlen hcount
  have hs := covers_deserVarstr.many _ hstrs
  dsimp only at hc hs ⊢
  rw [List.length_nil]
  omega

/-- With or without witnesses a transaction is read field by field. -/
theorem txDeserializeEx_fields (h : txDeserializeEx buf allowWitness = some (tx, rest)) :
    ∃ afterVersion vinLen flags afterVinLen afterVin voutLen afterVoutLen afterVout afterWitness,
      deserU32 buf = some (tx.version, afterVersion) ∧
      vinCountDeserialize allowWitness afterVersion = some (vinLen, flags, afterVinLen) ∧
      deserMany txInDeserialize vinLen.toNat afterVinLen = some (tx.vin, afterVin) ∧
      deserVarlen afterVin = some (voutLen, afterVoutLen) ∧
      deserMany txOutDeserialize voutLen.toNat afterVoutLen = some (tx.vout, afterVout) ∧
      afterWitness.length ≤ afterVout.length ∧ deserU32 afterWitness =
        some (tx.locktime, rest) := by
  unfold txDeserializeEx at h
  simp only [Option.bind_eq_bind, Option.bind_eq_some_iff] at h
  obtain ⟨⟨version, afterVersion⟩, hversion, ⟨vinLen, flags, afterVinLen⟩, hvinLen,
    ⟨vin, afterVin⟩, hvin, ⟨voutLen, afterVoutLen⟩, hvoutLen, ⟨vout, afterVout⟩, hvout, h⟩ := h
  dsimp only at h
  by_cases hw : flags &&& 1 ≠ 0
  · simp only [if_pos hw, Option.bind_eq_some_iff, Option.ite_none_left_eq_some] at h
    obtain ⟨⟨items, afterWitness⟩, hwitness, -, ⟨locktime, last⟩, hlocktime, heq⟩ := h
    cases heq
    have hshort := covers_witnessDeserialize.many _ hwitness
    exact ⟨afterVersion, vinLen, flags, afterVinLen, afterVin, voutLen, afterVoutLen, afterVout,
      afterWitness, hversion,
      hvinLen, hvin, hvoutLen, hvout, Nat.le_of_add_left_le hshort, hlocktime⟩
  · simp only [if_neg hw, Option.bind_some, Option.bind_eq_some_iff,
      Option.ite_none_left_eq_some] at h
    obtain ⟨-, ⟨locktime, last⟩, hlocktime, heq⟩ := h
    cases heq
    exact ⟨afterVersion, vinLen, flags, afterVinLen, afterVin, voutLen, afterVoutLen, afterVout,
      afterVout, hversion, hvinLen, hvin, hvoutLen, hvout, Nat.le_refl _, hlocktime⟩

/-- The count of inputs is not written longer than it was read; none is read with a flag behind it,
or with nothing behind it. -/
theorem vinCountDeserialize_length {vinLen : UInt32} {flags : UInt8}
    (h : vinCountDeserialize allowWitness buf = some (vinLen, flags, rest)) :
    (serVarlen vinLen).length + rest.length ≤ buf.length ∧
      (allowWitness = true → vinLen = 0 → rest ≠ [] → (serVarlen vinLen).length + rest.length <
        buf.length) := by
  unfold vinCountDeserialize at h
  simp only [Option.bind_eq_bind, Option.bind_eq_some_iff] at h
  obtain ⟨⟨vlen, afterLen⟩, hlen, h⟩ := h
  have hread := covers_deserVarlen hlen
  dsimp only at hread h
  split_ifs at h with hmark
  · obtain ⟨rfl, hallow⟩ := hmark
    have hzero : (serVarlen 0).length = 1 := rfl
    cases afterLen with
    | nil =>
      cases h
      exact ⟨hread, fun _ _ hne => absurd rfl hne⟩
    | cons flag afterFlag =>
      dsimp only at h
      rw [List.length_cons] at hread
      split_ifs at h
      · obtain ⟨⟨vlen, afterLen⟩, hlen', heq⟩ := Option.bind_eq_some_iff.mp h
        cases heq
        have hread' := covers_deserVarlen hlen'
        dsimp only at hread' ⊢
        exact ⟨by omega, fun _ _ _ => by omega⟩
      · cases h
        exact ⟨by omega, fun _ _ _ => by omega⟩
  · cases h
    refine ⟨hread, fun hallow hzero => ?_⟩
    exact absurd ⟨hzero, hallow⟩ hmark

/-- A transaction that was read has counts for everything in it. -/
theorem sized_of_txDeserializeEx (h : txDeserializeEx buf allowWitness = some (tx, rest)) :
    tx.Sized := by
  obtain ⟨afterVersion, vinLen, flags, afterVinLen, afterVin, voutLen, afterVoutLen, afterVout,
    afterWitness, -, -, hvin, -, hvout, -, -⟩ := txDeserializeEx_fields h
  refine ⟨?_, ?_, forall_of_deserMany hvin ?_, forall_of_deserMany hvout ?_⟩
  · rw [length_of_deserMany hvin]
    exact vinLen.toNat_lt
  · rw [length_of_deserMany hvout]
    exact voutLen.toNat_lt
  · intro buf txIn rest hread
    obtain ⟨_, _, _, -, -, hscript, -⟩ := txInDeserialize_eq_some hread
    exact length_of_deserVarstr hscript
  · intro buf txOut rest hread
    obtain ⟨_, -, hscript⟩ := txOutDeserialize_eq_some hread
    exact length_of_deserVarstr hscript

/-- **The size of a transaction that was read.** -/
theorem length_txSerialize_le (h : txDeserializeEx buf allowWitness = some (tx, rest)) :
    (txSerialize tx).length + rest.length ≤ buf.length + 96 := by
  obtain ⟨afterVersion, vinLen, flags, afterVinLen, afterVin, voutLen, afterVoutLen, afterVout,
    afterWitness, hversion,
    hvinLen, hvin, hvoutLen, hvout, hshort, hlocktime⟩ := txDeserializeEx_fields h
  have hv := covers_deserU32 hversion
  have hcount := (vinCountDeserialize_length hvinLen).1
  have hins := bounded_txInDeserialize.many _ hvin
  have hoCount := covers_deserVarlen hvoutLen
  have houts := covers_txOutDeserialize.many _ hvout
  have hl := covers_deserU32 hlocktime
  have hslack := slack_le afterVinLen.length
  rw [← @UInt32.ofNat_toNat vinLen, ← length_of_deserMany hvin] at hcount
  rw [← @UInt32.ofNat_toNat voutLen, ← length_of_deserMany hvout] at hoCount
  simp only [txSerialize, List.length_append]
  unfold measure at hins
  dsimp only at hv hins houts hoCount hl
  omega

/-- **Without inputs** a transaction is written shorter than it was read, where a witness was
allowed. -/
theorem length_txSerialize_lt (h : txDeserialize buf = some (tx, rest)) (hvin : tx.vin = []) :
    (txSerialize tx).length + rest.length < buf.length := by
  obtain ⟨afterVersion, vinLen, flags, afterVinLen, afterVin, voutLen, afterVoutLen, afterVout,
    afterWitness, hversion,
    hvinLen, hvinRead, hvoutLen, hvout, hshort, hlocktime⟩ := txDeserializeEx_fields h
  have hzero : vinLen.toNat = 0 := by rw [← length_of_deserMany hvinRead, hvin, List.length_nil]
  rw [hzero, deserMany] at hvinRead
  obtain rfl : afterVinLen = afterVin := congrArg Prod.snd (Option.some.inj hvinRead)
  have hne : afterVinLen ≠ [] := by
    rintro rfl
    cases hvoutLen
  have hv := covers_deserU32 hversion
  have hcount := (vinCountDeserialize_length hvinLen).2 rfl (UInt32.toNat_inj.mp hzero) hne
  have hoCount := covers_deserVarlen hvoutLen
  have houts := covers_txOutDeserialize.many _ hvout
  have hl := covers_deserU32 hlocktime
  rw [← @UInt32.ofNat_toNat vinLen, hzero] at hcount
  rw [← @UInt32.ofNat_toNat voutLen, ← length_of_deserMany hvout] at hoCount
  simp only [txSerialize, List.length_append, hvin, List.length_nil, List.flatMap_nil]
  dsimp only at hv houts hoCount hl
  omega

end Libdogecoin
