/-
# The copy of a script without separators

`dogecoin_script_copy_without_op_codeseperator` on a script that is a sequence of operations.

* `copyOps_flatMap` : what the loop leaves of each operation;
* `scriptCopy_eq_iff` : the copy is the script without its separators if and only if there is no
  push of no data that begins with `OP_PUSHDATA1`, `OP_PUSHDATA2` or `OP_PUSHDATA4`, whose opcode
  the loop writes twice.
-/
import Libdogecoin.ScriptOps
import Libdogecoin.Sighash

namespace Libdogecoin

namespace ScriptOp

/-- A push of no data whose length stands behind its opcode. -/
def IsEmptyPushdata (op : ScriptOp) : Prop :=
  op.data = [] ∧ (op.op = opPushdata1 ∨ op.op = opPushdata2 ∨ op.op = opPushdata4)

instance (op : ScriptOp) : Decidable op.IsEmptyPushdata :=
  inferInstanceAs (Decidable (op.data = [] ∧
    (op.op = opPushdata1 ∨ op.op = opPushdata2 ∨ op.op = opPushdata4)))

/-- What the loop leaves of an operation. -/
def copied (op : ScriptOp) : Bytes :=
  if op.op = opCodeseparator then [] else if op.IsEmptyPushdata then op.wire ++ [op.op] else op.wire

end ScriptOp

/-! ## One operation -/

variable {op : ScriptOp}

theorem isPushdata_iff : op.isPushdata = true ↔ op.op ≤ opPushdata4 := decide_eq_true_iff

theorem op0_lt_opPushdata : op0 < opPushdata1 ∧ op0 < opPushdata2 ∧ op0 < opPushdata4 := by decide

/-- A push is read with its header. -/
theorem copyHeader_push (hfits : op.Fits) (hpush : op.isPushdata = true) (hpos : op0 < op.op)
    (rest : Bytes) :
    ∃ buf, op.header ++ rest = op.op :: buf ∧ copyHeader op.op buf =
      some (some (op.header, op.data.length, rest)) := by
  obtain ⟨opcode, data⟩ := op
  dsimp only at hpos ⊢
  rcases opcode_cases opcode with h1 | rfl | rfl | rfl | h1
  · rw [ScriptOp.Fits, if_pos h1] at hfits
    rw [ScriptOp.header, if_pos h1]
    refine ⟨rest, rfl, ?_⟩
    unfold copyHeader
    rw [if_pos ⟨h1, hpos⟩, hfits]
  · have hlt : data.length < 2 ^ 8 := hfits
    refine ⟨UInt8.ofNat data.length :: rest, rfl, ?_⟩
    show some (some ([opPushdata1, UInt8.ofNat data.length], (UInt8.ofNat data.length).toNat,
      rest)) = _
    rw [UInt8.toNat_ofNat_of_lt' hlt]
    rfl
  · have hlt : data.length < 2 ^ 16 := hfits
    refine ⟨serU16 (UInt16.ofNat data.length) ++ rest, rfl, ?_⟩
    unfold copyHeader
    rw [if_neg (by decide), if_neg (by decide), if_pos rfl, deserU16_serU16, Option.map_some]
    dsimp only
    rw [UInt16.toNat_ofNat_of_lt' hlt]
    rfl
  · have hlt : data.length < 2 ^ 32 := hfits
    refine ⟨serU32 (UInt32.ofNat data.length) ++ rest, rfl, ?_⟩
    unfold copyHeader
    rw [if_neg (by decide), if_neg (by decide), if_neg (by decide), if_pos rfl, deserU32_serU32,
      Option.map_some]
    dsimp only
    rw [UInt32.toNat_ofNat_of_lt' hlt]
    rfl
  · exact absurd (isPushdata_iff.mp hpush) (UInt8.not_le.mpr h1)

/-- An opcode without data is left to the end of the turn, unless it is a separator. -/
theorem copyHeader_alone {opcode : UInt8} (h : opcode = op0 ∨ opPushdata4 < opcode) (buf : Bytes) :
    copyHeader opcode buf = if opcode = opCodeseparator then some none else
      some (some ([], 0, buf)) := by
  rcases h with rfl | h
  · rfl
  · have hlt : opPushdata1 < opcode ∧ opPushdata2 < opcode := by
      rw [UInt8.lt_iff_toNat_lt, UInt8.lt_iff_toNat_lt]
      rw [UInt8.lt_iff_toNat_lt] at h
      simp only [opPushdata1, opPushdata2, opPushdata4, UInt8.reduceToNat] at h ⊢
      omega
    unfold copyHeader
    rw [if_neg fun hboth => UInt8.lt_asymm hlt.1 hboth.1, if_neg (UInt8.ne_of_lt hlt.1).symm,
      if_neg (UInt8.ne_of_lt hlt.2).symm, if_neg (UInt8.ne_of_lt h).symm]

/-! ## The loop -/

/-- One turn, in front of the rest of the script. -/
theorem copyOps_cons (hfits : op.Fits) (fuel : ℕ) (rest : Bytes) :
    ∃ buf, op.wire ++ rest = op.op :: buf ∧
      copyOps (fuel + 1) (op.op :: buf) =
        (op.copied ++ (copyOps fuel rest).1, (copyOps fuel rest).2) := by
  by_cases halone : op.op = op0 ∨ opPushdata4 < op.op
  · -- nothing is pushed
    have hwire : op.data = [] ∧ op.header = [op.op] := by
      rcases halone with hop | hop
      · rw [ScriptOp.Fits, hop, if_pos op0_lt_opPushdata.1] at hfits
        refine ⟨List.length_eq_zero_iff.mp hfits, ?_⟩
        rw [ScriptOp.header, hop, if_pos op0_lt_opPushdata.1]
      · have hpush : op.isPushdata = false := decide_eq_false (UInt8.not_le.mpr hop)
        exact ⟨ScriptOp.data_eq_nil hfits hpush, ScriptOp.header_alone hpush⟩
    have hnot : ¬ op.IsEmptyPushdata := by
      rintro ⟨-, h | h | h⟩
      · rw [h] at halone
        exact absurd halone (by decide)
      · rw [h] at halone
        exact absurd halone (by decide)
      · rw [h] at halone
        exact absurd halone (by decide)
    have heq : op.wire = [op.op] := by rw [ScriptOp.wire, hwire.1, hwire.2, List.append_nil]
    refine ⟨rest, by rw [heq, List.singleton_append], ?_⟩
    rw [copyOps, copyHeader_alone halone, ScriptOp.copied]
    by_cases hsep : op.op = opCodeseparator
    · rw [if_pos hsep, if_pos hsep]
      rfl
    · rw [if_neg hsep, if_neg hsep, if_neg hnot, heq]
      rfl
  · rw [not_or, UInt8.not_lt] at halone
    have hpos : op0 < op.op := by
      rw [UInt8.lt_iff_toNat_lt]
      have hne : op.op.toNat ≠ op0.toNat := fun h => halone.1 (UInt8.toNat_inj.mp h)
      have hzero : op0.toNat = 0 := rfl
      omega
    have hsep : op.op ≠ opCodeseparator := by
      intro h
      rw [h] at halone
      exact absurd halone.2 (by decide)
    obtain ⟨buf, hscript, hread⟩ :=
      copyHeader_push hfits (isPushdata_iff.mpr halone.2) hpos (op.data ++ rest)
    refine ⟨buf, by rw [ScriptOp.wire, List.append_assoc, hscript], ?_⟩
    rw [copyOps, hread]
    dsimp only
    rw [ScriptOp.copied, if_neg hsep]
    -- the source takes a push of no data for an opcode that is still to be written
    by_cases hdata : op.data = []
    · have hempty : op.IsEmptyPushdata := by
        refine ⟨hdata, ?_⟩
        rcases opcode_cases op.op with h | h | h | h | h
        · rw [ScriptOp.Fits, if_pos h, hdata] at hfits
          have hzero : op.op.toNat = op0.toNat := hfits.symm
          exact absurd (UInt8.toNat_inj.mp hzero) halone.1
        · exact Or.inl h
        · exact Or.inr (Or.inl h)
        · exact Or.inr (Or.inr h)
        · exact absurd halone.2 (UInt8.not_le.mpr h)
      rw [if_pos hempty, ScriptOp.wire, hdata, List.length_nil, if_neg (Nat.lt_irrefl 0),
        List.append_nil, List.nil_append]
    · have hlen : op.data.length > 0 := List.length_pos_of_ne_nil hdata
      rw [if_neg fun hempty : op.IsEmptyPushdata => hdata hempty.1, if_pos hlen,
        if_neg (by rw [List.length_append]; omega), List.take_left, List.drop_left, ScriptOp.wire]

/-- **The loop** over a sequence of operations. -/
theorem copyOps_flatMap {ops : List ScriptOp} (hfits : ∀ op ∈ ops, op.Fits) {fuel : ℕ}
    (hfuel : (ops.flatMap ScriptOp.wire).length ≤ fuel) :
    copyOps fuel (ops.flatMap ScriptOp.wire) = (ops.flatMap ScriptOp.copied, true) := by
  induction ops generalizing fuel with
  | nil => rw [List.flatMap_nil, copyOps, List.flatMap_nil]
  | cons op ops ih =>
    obtain ⟨hop, hops⟩ := List.forall_mem_cons.mp hfits
    have hpos : 0 < op.wire.length := List.length_pos_of_ne_nil op.wire_ne_nil
    rw [List.flatMap_cons, List.length_append] at hfuel
    obtain ⟨fuel, rfl⟩ : ∃ n, fuel = n + 1 := ⟨fuel - 1, by omega⟩
    obtain ⟨buf, hscript, hturn⟩ := copyOps_cons hop fuel (ops.flatMap ScriptOp.wire)
    rw [List.flatMap_cons, hscript, hturn, ih hops (by omega), List.flatMap_cons]

/-! ## The script -/

theorem length_copied (op : ScriptOp) (hsep : op.op ≠ opCodeseparator) :
    op.copied.length = op.wire.length + if op.IsEmptyPushdata then 1 else 0 := by
  rw [ScriptOp.copied, if_neg hsep]
  split
  · rw [List.length_append, List.length_singleton]
  · rfl

theorem not_isEmptyPushdata_of_separator (h : op.op = opCodeseparator) : ¬ op.IsEmptyPushdata := by
  rintro ⟨-, hpush⟩
  rw [h] at hpush
  exact absurd hpush (by decide)

/-- The copy is longer by one byte for every opcode that is written twice. -/
theorem length_flatMap_copied (ops : List ScriptOp) :
    (ops.flatMap ScriptOp.copied).length =
      ((ops.filter (·.op ≠ opCodeseparator)).flatMap ScriptOp.wire).length +
        ops.countP fun op => decide op.IsEmptyPushdata := by
  induction ops with
  | nil => rfl
  | cons op ops ih =>
    rw [List.flatMap_cons, List.length_append, ih, List.countP_cons]
    by_cases hsep : op.op = opCodeseparator
    · have hempty := not_isEmptyPushdata_of_separator hsep
      rw [List.filter_cons_of_neg (by simp [hsep]), ScriptOp.copied, if_pos hsep,
        if_neg (by simp [hempty]), List.length_nil]
      omega
    · rw [List.filter_cons_of_pos (by simp [hsep]), List.flatMap_cons, List.length_append,
        length_copied op hsep]
      simp only [decide_eq_true_eq]
      omega

/-- Nothing is written twice if and only if the copy is the operations that are no separators. -/
theorem flatMap_copied_eq_iff (ops : List ScriptOp) :
    ops.flatMap ScriptOp.copied = (ops.filter (·.op ≠ opCodeseparator)).flatMap ScriptOp.wire ↔
      ∀ op ∈ ops, ¬ op.IsEmptyPushdata := by
  constructor
  · intro h op hop hempty
    -- the copy is too long as soon as one opcode is written twice
    have hlen := length_flatMap_copied ops
    have hcount : 0 < ops.countP fun op => decide op.IsEmptyPushdata :=
      List.countP_pos_iff.mpr ⟨op, hop, decide_eq_true hempty⟩
    rw [h] at hlen
    omega
  · intro h
    induction ops with
    | nil => rfl
    | cons op ops ih =>
      obtain ⟨hop, hops⟩ := List.forall_mem_cons.mp h
      rw [List.flatMap_cons, ih hops, ScriptOp.copied]
      by_cases hsep : op.op = opCodeseparator
      · rw [if_pos hsep, List.nil_append, List.filter_cons_of_neg (by simp [hsep])]
      · rw [if_neg hsep, if_neg hop, List.filter_cons_of_pos (by simp [hsep]), List.flatMap_cons]

/-- **The copy of a script** of operations is the script without its separators if and only if the
script is not empty and pushes no empty data behind a length of its own. -/
theorem scriptCopy_eq_iff (ops : List ScriptOp) (hfits : ∀ op ∈ ops, op.Fits) :
    scriptCopyWithoutOpCodeseperator (ops.flatMap ScriptOp.wire) =
        ((ops.filter (·.op ≠ opCodeseparator)).flatMap ScriptOp.wire, true) ↔
      ops ≠ [] ∧ ∀ op ∈ ops, ¬ op.IsEmptyPushdata := by
  cases ops with
  | nil => exact ⟨fun h => absurd (congrArg Prod.snd h) Bool.false_ne_true, fun h => absurd rfl h.1⟩
  | cons op ops =>
    have hlen : ((op :: ops).flatMap ScriptOp.wire).length ≠ 0 := by
      rw [List.flatMap_cons, List.length_append]
      have hwire : 0 < op.wire.length := List.length_pos_of_ne_nil op.wire_ne_nil
      omega
    rw [scriptCopyWithoutOpCodeseperator, if_neg hlen, copyOps_flatMap hfits (Nat.le_refl _),
      Prod.mk.injEq, and_iff_left rfl, flatMap_copied_eq_iff]
    exact (and_iff_right (List.cons_ne_nil _ _)).symm

/-- A separator behind a push of two bytes, the second of which is the opcode of the separator. -/
theorem scriptCopy_eq_separated :
    scriptCopyWithoutOpCodeseperator [0x02, 0x51, 0xab, 0xab, 0xac] =
      ([0x02, 0x51, 0xab, 0xac], true) :=
  (scriptCopy_eq_iff [⟨0x02, [0x51, 0xab]⟩, ⟨0xab, []⟩, ⟨0xac, []⟩] (by decide)).mpr
    ⟨by decide, by decide⟩

/-- The opcode of a push of no data stands twice in the copy. -/
theorem scriptCopy_ne_emptyPush :
    ¬ ∀ ops : List ScriptOp, (∀ op ∈ ops, op.Fits) →
      scriptCopyWithoutOpCodeseperator (ops.flatMap ScriptOp.wire) =
        ((ops.filter (·.op ≠ opCodeseparator)).flatMap ScriptOp.wire, true) := by
  intro h
  have hcopy := h [⟨opPushdata1, []⟩] (by decide)
  have hbytes : scriptCopyWithoutOpCodeseperator [0x4c, 0x00] =
    ([0x4c, 0x00, 0x4c], true) := by decide
  have hwire : ([⟨opPushdata1, []⟩] : List ScriptOp).flatMap ScriptOp.wire =
    [0x4c, 0x00] := by decide
  rw [hwire, hbytes] at hcopy
  exact absurd hcopy (by decide)

end Libdogecoin
