/-
# Operations as they stand in a script

The bytes an operation was read from are determined by the operation, so a list of operations is
read from one script at most. `script.c` writes its scripts from the same pieces.

* `scriptGetOps_eq_iff` : the operations that are read, and the script they are read from;
* `scriptGetOps_keyedMultisigOps` : the operations of a multisig script.
-/
import Libdogecoin.Script
import Mathlib.Algebra.Order.BigOperators.Group.List

namespace Libdogecoin

/-! ## One operation -/

namespace ScriptOp

/-- The bytes in front of the data. -/
def header (op : ScriptOp) : Bytes :=
  if op.op < opPushdata1 then [op.op]
  else if op.op = opPushdata1 then [op.op, UInt8.ofNat op.data.length]
  else if op.op = opPushdata2 then op.op :: serU16 (UInt16.ofNat op.data.length)
  else if op.op = opPushdata4 then op.op :: serU32 (UInt32.ofNat op.data.length)
  else [op.op]

/-- The operation in a script. -/
def wire (op : ScriptOp) : Bytes := op.header ++ op.data

/-- The data has a length that the bytes in front of it can tell. -/
def Fits (op : ScriptOp) : Prop :=
  if op.op < opPushdata1 then op.data.length = op.op.toNat
  else if op.op = opPushdata1 then op.data.length < 2 ^ 8
  else if op.op = opPushdata2 then op.data.length < 2 ^ 16
  else if op.op = opPushdata4 then op.data.length < 2 ^ 32
  else op.data = []

instance (op : ScriptOp) : Decidable op.Fits :=
  inferInstanceAs (Decidable (if op.op < opPushdata1 then op.data.length = op.op.toNat
    else if op.op = opPushdata1 then op.data.length < 2 ^ 8
    else if op.op = opPushdata2 then op.data.length < 2 ^ 16
    else if op.op = opPushdata4 then op.data.length < 2 ^ 32
    else op.data = []))

theorem header_eq_cons (op : ScriptOp) : ∃ lenBytes, op.header = op.op :: lenBytes := by
  unfold header
  split_ifs
  · exact ⟨[], rfl⟩
  · exact ⟨[_], rfl⟩
  · exact ⟨_, rfl⟩
  · exact ⟨_, rfl⟩
  · exact ⟨[], rfl⟩

theorem wire_ne_nil (op : ScriptOp) : op.wire ≠ [] := by
  obtain ⟨lenBytes, hheader⟩ := op.header_eq_cons
  rw [wire, hheader]
  exact List.cons_ne_nil _ _

end ScriptOp

/-! ## Reading one operation -/

theorem opcode_cases (opcode : UInt8) :
    opcode < opPushdata1 ∨ opcode = opPushdata1 ∨ opcode = opPushdata2 ∨ opcode = opPushdata4 ∨
      opPushdata4 < opcode := by
  simp only [opPushdata1, opPushdata2, opPushdata4, UInt8.lt_iff_toNat_lt, ← UInt8.toNat_inj]
  simp only [UInt8.reduceToNat]
  omega

variable {op : ScriptOp} {opcode : UInt8} {buf rest data script : Bytes} {ops : List ScriptOp}
  {n requiredSignatures fuel : ℕ}

theorem isPushdata_of_lt (h : op.op < opPushdata1) : op.isPushdata = true := by
  have hle : op.op ≤ opPushdata4 := UInt8.le_of_lt (UInt8.lt_of_lt_of_le h (by decide))
  exact decide_eq_true hle

/-- What is known of an operation whose length was read: its first bytes are the ones that were
read. -/
theorem pushLength_eq_push {dataLen : ℕ} (h : pushLength opcode buf = some (some (dataLen, rest)))
    (hdata : data.length = dataLen) :
    (ScriptOp.mk opcode data).Fits ∧ opcode :: buf = (ScriptOp.mk opcode data).header ++ rest := by
  subst hdata
  unfold ScriptOp.Fits ScriptOp.header
  unfold pushLength at h
  dsimp only at h ⊢
  split_ifs at h ⊢ with h1 h2 h3 h4
  · have hread := Prod.mk.inj (Option.some.inj (Option.some.inj h))
    exact ⟨hread.1.symm, congrArg (opcode :: ·) hread.2⟩
  · cases buf with
    | nil => cases h
    | cons v8 buf =>
      have hread := Prod.mk.inj (Option.some.inj (Option.some.inj h))
      have hlt : data.length < 2 ^ 8 := hread.1 ▸ v8.toNat_lt
      refine ⟨hlt, ?_⟩
      rw [← hread.1, UInt8.ofNat_toNat, hread.2]
      rfl
  · obtain ⟨read, hread, heq⟩ := Option.map_eq_some_iff.mp h
    have hpair := Prod.mk.inj (Option.some.inj heq)
    have hlt : data.length < 2 ^ 16 := hpair.1 ▸ read.1.toNat_lt
    refine ⟨hlt, ?_⟩
    rw [← hpair.1, UInt16.ofNat_toNat, ← hpair.2, deserU16_eq_append hread]
    rfl
  · obtain ⟨read, hread, heq⟩ := Option.map_eq_some_iff.mp h
    have hpair := Prod.mk.inj (Option.some.inj heq)
    have hlt : data.length < 2 ^ 32 := hpair.1 ▸ read.1.toNat_lt
    refine ⟨hlt, ?_⟩
    rw [← hpair.1, UInt32.ofNat_toNat, ← hpair.2, deserU32_eq_append hread]
    rfl
  · cases Option.some.inj h

/-- An opcode without a length pushes nothing. -/
theorem pushLength_eq_alone (h : pushLength opcode buf = some none) :
    (ScriptOp.mk opcode []).Fits ∧ (ScriptOp.mk opcode []).header = [opcode] ∧
      (ScriptOp.mk opcode []).isPushdata = false := by
  unfold ScriptOp.Fits ScriptOp.header
  unfold pushLength at h
  dsimp only at h ⊢
  split_ifs at h ⊢ with h1 h2 h3 h4
  · cases Option.some.inj h
  · cases buf with
    | nil => cases h
    | cons v8 buf => cases Option.some.inj h
  · obtain ⟨read, -, heq⟩ := Option.map_eq_some_iff.mp h
    cases heq
  · obtain ⟨read, -, heq⟩ := Option.map_eq_some_iff.mp h
    cases heq
  · have hlt : opPushdata4 < opcode := by
      simpa [h1, h2, h3, h4] using opcode_cases opcode
    exact ⟨rfl, rfl, decide_eq_false (UInt8.not_le.mpr hlt)⟩

/-- An operation that was written is read. -/
theorem pushLength_header (hfits : op.Fits) (hpush : op.isPushdata = true) (rest : Bytes) :
    ∃ buf, op.header ++ rest = op.op :: buf ∧ pushLength op.op buf =
      some (some (op.data.length, rest)) := by
  have hle : op.op ≤ opPushdata4 := of_decide_eq_true hpush
  unfold ScriptOp.Fits at hfits
  unfold ScriptOp.header pushLength
  split_ifs at hfits ⊢ with h1 h2 h3 h4
  · exact ⟨rest, rfl, by rw [hfits]⟩
  · exact ⟨_ :: rest, rfl, by dsimp only; rw [UInt8.toNat_ofNat_of_lt' hfits]⟩
  · refine ⟨serU16 (UInt16.ofNat op.data.length) ++ rest, rfl, ?_⟩
    rw [deserU16_serU16, Option.map_some]
    dsimp only
    rw [UInt16.toNat_ofNat_of_lt' hfits]
  · refine ⟨serU32 (UInt32.ofNat op.data.length) ++ rest, rfl, ?_⟩
    rw [deserU32_serU32, Option.map_some]
    dsimp only
    rw [UInt32.toNat_ofNat_of_lt' hfits]
  · have hlt : opPushdata4 < op.op := by
      simpa [h1, h2, h3, h4] using opcode_cases op.op
    exact absurd hle (UInt8.not_le.mpr hlt)

theorem ScriptOp.alone_cases (hpush : op.isPushdata = false) :
    ¬ op.op < opPushdata1 ∧ op.op ≠ opPushdata1 ∧ op.op ≠ opPushdata2 ∧ op.op ≠ opPushdata4 := by
  have hnle : ¬ op.op ≤ opPushdata4 := of_decide_eq_false hpush
  refine ⟨fun hlt => ?_, ?_, ?_, ?_⟩
  · rw [isPushdata_of_lt hlt] at hpush
    cases hpush
  all_goals
    intro heq
    rw [heq] at hnle
    exact hnle (by decide)

theorem ScriptOp.data_eq_nil (hfits : op.Fits) (hpush : op.isPushdata = false) : op.data = [] := by
  obtain ⟨h1, h2, h3, h4⟩ := alone_cases hpush
  rwa [Fits, if_neg h1, if_neg h2, if_neg h3, if_neg h4] at hfits

theorem ScriptOp.header_alone (hpush : op.isPushdata = false) : op.header = [op.op] := by
  obtain ⟨h1, h2, h3, h4⟩ := alone_cases hpush
  rw [header, if_neg h1, if_neg h2, if_neg h3, if_neg h4]

theorem pushLength_alone {op : ScriptOp} (hpush : op.isPushdata = false) (buf : Bytes) :
    pushLength op.op buf = some none := by
  obtain ⟨h1, h2, h3, h4⟩ := op.alone_cases hpush
  unfold pushLength
  rw [if_neg h1, if_neg h2, if_neg h3, if_neg h4]

/-! ## Reading a list of operations -/

/-- Operations that can be read one after another: a push of no data is not the last one. -/
def Readable : List ScriptOp → Prop
  | [] => True
  | op :: ops => op.Fits ∧ (op.isPushdata = true → op.data = [] → ops ≠ []) ∧ Readable ops

theorem getOps_alone (h : pushLength opcode rest = some none) :
    getOps (fuel + 1) (opcode :: rest) =
      (⟨opcode, []⟩ :: (getOps fuel rest).1, (getOps fuel rest).2) := by
  rw [getOps, h]

theorem getOps_push (h : pushLength opcode buf = some (some (data.length, data ++ rest)))
    (hne : data ++ rest ≠ []) :
    getOps (fuel + 1) (opcode :: buf) =
      (⟨opcode, data⟩ :: (getOps fuel rest).1, (getOps fuel rest).2) := by
  have hroom : ¬ ((data ++ rest).length = 0 ∨ data.length > (data ++ rest).length) := by
    rw [List.length_eq_zero_iff, List.length_append]
    rintro (hnil | hlong)
    · exact hne hnil
    · omega
  rw [getOps, h]
  dsimp only
  rw [if_neg hroom, List.take_left, List.drop_left]

/-- An operation that was written is read, and the loop goes on behind it. -/
theorem getOps_wire_append (hfits : op.Fits) (hne : op.isPushdata = true → op.data ++ rest ≠ []) :
    getOps (fuel + 1) (op.wire ++ rest) = (op :: (getOps fuel rest).1, (getOps fuel rest).2) := by
  rw [ScriptOp.wire, List.append_assoc]
  cases hpush : op.isPushdata with
  | false =>
    have hdata := ScriptOp.data_eq_nil hfits hpush
    rw [ScriptOp.header_alone hpush, hdata, List.nil_append, List.singleton_append,
      getOps_alone (pushLength_alone hpush _), ← hdata]
  | true =>
    obtain ⟨buf, hscript, hlen⟩ := pushLength_header hfits hpush (op.data ++ rest)
    rw [hscript, getOps_push hlen (hne hpush)]

/-- No operation can be read from the script: its length breaks off, or its data. -/
def breaksOff : Bytes → Bool
  | [] => false
  | opcode :: rest =>
    match pushLength opcode rest with
    | none => true
    | some none => false
    | some (some (dataLen, buf)) => buf.length = 0 || dataLen > buf.length

theorem getOps_of_breaksOff {fuel : ℕ} (h : breaksOff script = true) :
    getOps fuel script = ([], false) := by
  cases script with
  | nil => cases h
  | cons opcode rest =>
    cases fuel with
    | zero => rfl
    | succ fuel =>
      unfold breaksOff at h
      dsimp only at h
      unfold getOps
      cases hlen : pushLength opcode rest with
      | none => rfl
      | some read =>
        rw [hlen] at h
        cases read with
        | none => cases h
        | some read =>
          obtain ⟨dataLen, buf⟩ := read
          have hroom : buf.length = 0 ∨ dataLen > buf.length := by simpa using h
          exact if_pos hroom

/-- A script that does not break off begins with an operation. -/
theorem exists_wire_of_not_breaksOff (h : ¬ breaksOff (opcode :: rest) = true) :
    ∃ (op : ScriptOp) (tail : Bytes), op.Fits ∧ opcode :: rest = op.wire ++ tail ∧
      (op.isPushdata = true → op.data ++ tail ≠ []) := by
  unfold breaksOff at h
  dsimp only at h
  cases hpush : pushLength opcode rest with
  | none => exact absurd (by rw [hpush]) h
  | some read =>
    rw [hpush] at h
    cases read with
    | none =>
      obtain ⟨hfits, hheader, halone⟩ := pushLength_eq_alone hpush
      refine ⟨⟨opcode, []⟩, rest, hfits, ?_, fun hpushdata =>
        absurd (halone.symm.trans hpushdata) (by decide)⟩
      rw [ScriptOp.wire, hheader]
      rfl
    | some read =>
      obtain ⟨dataLen, buf⟩ := read
      have hroom : buf.length ≠ 0 ∧ dataLen ≤ buf.length := by simpa using h
      have hdata : (buf.take dataLen).length = dataLen := List.length_take_of_le hroom.2
      have hbuf : buf.take dataLen ++ buf.drop dataLen = buf := List.take_append_drop _ _
      obtain ⟨hfits, hscript⟩ := pushLength_eq_push hpush hdata
      refine ⟨⟨opcode, buf.take dataLen⟩, buf.drop dataLen, hfits, ?_, fun _ hnil => ?_⟩
      · rw [ScriptOp.wire, List.append_assoc, hbuf, hscript]
      · exact hroom.1 (List.length_eq_zero_iff.mpr (hbuf.symm.trans hnil))

/-- A list that is read is readable, and is what the script consists of. -/
theorem readable_of_getOps : ∀ (fuel : ℕ) {script : Bytes} {ops : List ScriptOp},
    getOps fuel script = (ops, true) → Readable ops ∧ script = ops.flatMap ScriptOp.wire := by
  intro fuel
  induction fuel with
  | zero =>
    intro script ops h
    cases script with
    | nil => cases h; exact ⟨trivial, rfl⟩
    | cons opcode rest => cases h
  | succ fuel ih =>
    intro script ops h
    cases script with
    | nil => cases h; exact ⟨trivial, rfl⟩
    | cons opcode rest =>
      by_cases hbreak : breaksOff (opcode :: rest) = true
      · rw [getOps_of_breaksOff hbreak] at h
        cases h
      obtain ⟨op, tail, hfits, hscript, hne⟩ := exists_wire_of_not_breaksOff hbreak
      rw [hscript, getOps_wire_append hfits hne] at h
      have hpair := Prod.mk.inj h
      obtain ⟨hread, hrest⟩ := ih (Prod.ext rfl hpair.2)
      rw [← hpair.1]
      refine ⟨⟨hfits, fun hpush hnil hops => hne hpush ?_, hread⟩, ?_⟩
      · -- nothing would have been left to read
        exact List.append_eq_nil_iff.mpr ⟨hnil,
          hrest.trans (congrArg (List.flatMap ScriptOp.wire) hops)⟩
      · rw [hscript, List.flatMap_cons, ← hrest]

/-- Operations that were written one after another are read. -/
theorem getOps_of_readable : ∀ {fuel : ℕ}, Readable ops →
    (ops.flatMap ScriptOp.wire).length ≤ fuel → getOps fuel (ops.flatMap ScriptOp.wire) =
    (ops, true) := by
  induction ops with
  | nil =>
    intro fuel _ _
    rw [List.flatMap_nil, getOps]
  | cons op ops ih =>
    intro fuel hread hfuel
    obtain ⟨hfits, hlast, hops⟩ := hread
    have hwire := List.length_pos_of_ne_nil op.wire_ne_nil
    rw [List.flatMap_cons, List.length_append] at hfuel
    obtain ⟨fuel, rfl⟩ : ∃ n, fuel = n + 1 := ⟨fuel - 1, by omega⟩
    have hne : op.isPushdata = true → op.data ++ ops.flatMap ScriptOp.wire ≠ [] := by
      intro hpush hnil
      obtain ⟨hdata, hend⟩ := List.append_eq_nil_iff.mp hnil
      cases ops with
      | nil => exact hlast hpush hdata rfl
      | cons op' ops => exact op'.wire_ne_nil (List.append_eq_nil_iff.mp hend).1
    rw [List.flatMap_cons, getOps_wire_append hfits hne, ih hops (by omega)]

/-- **The operations of a script.** -/
theorem scriptGetOps_eq_iff :
    scriptGetOps script = (ops, true) ↔ ops ≠ [] ∧ Readable ops ∧
    script = ops.flatMap ScriptOp.wire := by
  unfold scriptGetOps
  constructor
  · intro h
    by_cases hempty : script.length = 0
    · rw [if_pos hempty] at h
      cases h
    · rw [if_neg hempty] at h
      obtain ⟨hread, hscript⟩ := readable_of_getOps _ h
      refine ⟨?_, hread, hscript⟩
      rintro rfl
      exact hempty (by rw [hscript]; rfl)
  · rintro ⟨hne, hread, rfl⟩
    have hempty : ¬ (ops.flatMap ScriptOp.wire).length = 0 := by
      intro hnil
      cases ops with
      | nil => exact hne rfl
      | cons op ops =>
        exact op.wire_ne_nil (List.append_eq_nil_iff.mp (List.length_eq_zero_iff.mp hnil)).1
    rw [if_neg hempty]
    exact getOps_of_readable hread le_rfl

theorem readable_append {ops' : List ScriptOp} (hfits : ∀ op ∈ ops, op.Fits) (hread : Readable ops')
    (hne : ops' ≠ []) : Readable (ops ++ ops') := by
  induction ops with
  | nil => exact hread
  | cons op ops ih =>
    refine ⟨hfits op List.mem_cons_self, fun _ _ hnil => ?_, ih fun op' hop =>
      hfits op' (List.mem_cons_of_mem _ hop)⟩
    exact hne (List.append_eq_nil_iff.mp hnil).2

theorem Readable.fits (h : Readable ops) : ∀ op ∈ ops, op.Fits := by
  induction ops with
  | nil =>
    intro op hop
    cases hop
  | cons op ops ih =>
    intro op' hop
    rcases List.mem_cons.mp hop with rfl | hop
    · exact h.1
    · exact ih h.2.2 op' hop

/-! ## Writing a script -/

/-- The operation that pushes data with the fewest bytes in front of it. -/
def pushOf (data : Bytes) : ScriptOp where
  op := if data.length < opPushdata1.toNat then UInt8.ofNat data.length
    else if data.length ≤ 0xff then opPushdata1
    else if data.length ≤ 0xffff then opPushdata2
    else opPushdata4
  data := data

/-- `dogecoin_script_append_pushdata`. -/
def scriptAppendPushdata (scriptIn data : Bytes) : Bytes :=
  if data.length < opPushdata1.toNat then scriptIn ++ [UInt8.ofNat data.length] ++ data
  else if data.length ≤ 0xff then scriptIn ++ [opPushdata1] ++ [UInt8.ofNat data.length] ++ data
  else if data.length ≤ 0xffff then
    scriptIn ++ [opPushdata2] ++ serU16 (UInt16.ofNat data.length) ++ data
  else scriptIn ++ [opPushdata4] ++ serU32 (UInt32.ofNat data.length) ++ data

/-- `dogecoin_encode_op_n`. -/
def encodeOpN (n : ℕ) : UInt8 := if n = 0 then op0 else op1 + UInt8.ofNat n - 1

/-- `dogecoin_pubkey`. -/
structure Pubkey where
  compressed : Bool
  pubkey : {l : Bytes // l.length = 65}

/-- The bytes of a key that are used. -/
def Pubkey.bytes (pubkey : Pubkey) :
    Bytes := pubkey.pubkey.1.take (if pubkey.compressed then 33 else 65)

/-- `dogecoin_script_build_multisig`. -/
def scriptBuildMultisig (requiredSignatures : ℕ) (pubkeys : List Pubkey) : Option Bytes :=
  if pubkeys.length = 0 then none
  else if requiredSignatures = 0 ∨ requiredSignatures > 16 then none
  else if pubkeys.length > 16 ∨ requiredSignatures > pubkeys.length then none
  else
    let script := [encodeOpN requiredSignatures]
    let script := (pubkeys.map Pubkey.bytes).foldl scriptAppendPushdata script
    let script := script ++ [encodeOpN pubkeys.length]
    some (script ++ [opCheckmultisig])

theorem scriptAppendPushdata_eq (scriptIn : Bytes) {data : Bytes} (h : data.length < 2 ^ 32) :
    (pushOf data).Fits ∧ scriptAppendPushdata scriptIn data = scriptIn ++ (pushOf data).wire := by
  have hp1 : opPushdata1.toNat = 76 := rfl
  unfold ScriptOp.Fits scriptAppendPushdata ScriptOp.wire ScriptOp.header pushOf
  dsimp only
  by_cases h1 : data.length < opPushdata1.toNat
  · have hlt : data.length < 2 ^ 8 := by omega
    have hback : (UInt8.ofNat data.length).toNat = data.length := UInt8.toNat_ofNat_of_lt' hlt
    have hlt : UInt8.ofNat data.length < opPushdata1 := by
      rw [UInt8.lt_iff_toNat_lt, hback]
      exact h1
    simp only [if_pos h1, if_pos hlt, hback, List.append_assoc, and_self]
  · by_cases h2 : data.length ≤ 0xff
    · simp only [if_neg h1, if_pos h2, List.append_assoc]
      exact ⟨by rw [if_neg (by decide), if_pos trivial]; omega, rfl⟩
    · by_cases h3 : data.length ≤ 0xffff
      · simp only [if_neg h1, if_neg h2, if_pos h3, List.append_assoc]
        exact ⟨Nat.lt_succ_of_le h3, rfl⟩
      · simp only [if_neg h1, if_neg h2, if_neg h3, List.append_assoc]
        exact ⟨h, rfl⟩

theorem isPushdata_pushOf (data : Bytes) : (pushOf data).isPushdata = true := by
  unfold pushOf
  split_ifs with h1
  · refine isPushdata_of_lt (UInt8.lt_iff_toNat_lt.mpr ?_)
    rwa [UInt8.toNat_ofNat_of_lt' (h1.trans (by decide))]
  · rfl
  · rfl
  · rfl

theorem length_bytes (pubkey : Pubkey) :
    pubkey.bytes.length = if pubkey.compressed then 33 else 65 := by
  rw [Pubkey.bytes, List.length_take_of_le]
  rw [pubkey.pubkey.2]
  split_ifs
  · decide
  · decide

theorem foldl_scriptAppendPushdata (scriptIn : Bytes) {datas : List Bytes}
    (h : ∀ data ∈ datas, data.length < 2 ^ 32) :
    datas.foldl scriptAppendPushdata scriptIn =
      scriptIn ++ (datas.map pushOf).flatMap ScriptOp.wire := by
  induction datas generalizing scriptIn with
  | nil => exact (List.append_nil _).symm
  | cons data datas ih =>
    rw [List.foldl_cons, (scriptAppendPushdata_eq scriptIn (h data List.mem_cons_self)).2,
      ih _ fun data' hdata => h data' (List.mem_cons_of_mem _ hdata), List.map_cons,
      List.flatMap_cons, List.append_assoc]

/-! ## Multisig scripts -/

/-- The operations of a multisig script. -/
def multisigOps (requiredSignatures : ℕ) (pubkeys : List Pubkey) : List ScriptOp :=
  ⟨encodeOpN requiredSignatures, []⟩ :: ((pubkeys.map Pubkey.bytes).map pushOf ++
    [⟨encodeOpN pubkeys.length, []⟩, ⟨opCheckmultisig, []⟩])

theorem toNat_encodeOpN (hpos : n ≠ 0) (hle : n ≤ 16) : (encodeOpN n).toNat = 0x50 + n := by
  have hall : ∀ n < 17, n ≠ 0 → (encodeOpN n).toNat = 0x50 + n := by decide
  exact hall n (by omega) hpos

theorem isPushdata_encodeOpN (hpos : n ≠ 0) (hle : n ≤ 16) :
    (ScriptOp.mk (encodeOpN n) []).isPushdata = false := by
  refine decide_eq_false ?_
  rw [UInt8.le_iff_toNat_le, toNat_encodeOpN hpos hle]
  show ¬ 0x50 + n ≤ 78
  omega

theorem wire_alone (h : (ScriptOp.mk opcode []).isPushdata = false) :
    (ScriptOp.mk opcode []).wire = [opcode] := by
  rw [ScriptOp.wire, ScriptOp.header_alone h, List.append_nil]

theorem fits_alone (h : (ScriptOp.mk opcode []).isPushdata = false) :
    (ScriptOp.mk opcode []).Fits := (pushLength_eq_alone (pushLength_alone h [])).1

variable {pubkeys : List Pubkey}

theorem length_lt_of_mem_bytes (h : data ∈ pubkeys.map Pubkey.bytes) : data.length < 2 ^ 32 := by
  obtain ⟨pubkey, -, rfl⟩ := List.mem_map.mp h
  rw [length_bytes]
  split_ifs
  · decide
  · decide

/-- The bounds that are checked, and the operations that are written. -/
theorem scriptBuildMultisig_eq_some
    (h : scriptBuildMultisig requiredSignatures pubkeys = some script) :
    requiredSignatures ≠ 0 ∧ requiredSignatures ≤ pubkeys.length ∧ pubkeys.length ≤ 16 ∧
      script = (multisigOps requiredSignatures pubkeys).flatMap ScriptOp.wire := by
  unfold scriptBuildMultisig at h
  split_ifs at h with h1 h2 h3
  have hm : requiredSignatures ≠ 0 := by omega
  have hn : pubkeys.length ≤ 16 := by omega
  refine ⟨hm, by omega, hn, ?_⟩
  rw [← Option.some.inj h, foldl_scriptAppendPushdata _ fun data => length_lt_of_mem_bytes,
    multisigOps, List.flatMap_cons,
    List.flatMap_append, wire_alone (isPushdata_encodeOpN hm (by omega))]
  show _ = _ ++ (_ ++ ((ScriptOp.mk (encodeOpN pubkeys.length) []).wire ++ _))
  rw [wire_alone (isPushdata_encodeOpN h1 hn)]
  simp only [List.append_assoc]
  rfl

/-! ### Any keys -/

/-- The operations of a multisig script, with its keys as they stand in it. -/
def keyedMultisigOps (requiredSignatures : ℕ) (keys : List Bytes) : List ScriptOp :=
  ⟨encodeOpN requiredSignatures, []⟩ ::
    (keys.map pushOf ++ [⟨encodeOpN keys.length, []⟩, ⟨opCheckmultisig, []⟩])

theorem multisigOps_eq (requiredSignatures : ℕ) (pubkeys : List Pubkey) :
    multisigOps requiredSignatures pubkeys =
      keyedMultisigOps requiredSignatures (pubkeys.map Pubkey.bytes) := by
  rw [multisigOps, keyedMultisigOps, List.length_map]

variable {m : ℕ} {keys : List Bytes}

theorem scriptGetOps_keyedMultisigOps (hm : m ≠ 0) (hm16 : m ≤ 16) (hn : keys.length ≠ 0)
    (hn16 : keys.length ≤ 16) (hkeys : ∀ key ∈ keys, key.length < 2 ^ 32) :
    scriptGetOps ((keyedMultisigOps m keys).flatMap ScriptOp.wire) =
      (keyedMultisigOps m keys, true) := by
  have hfirst := isPushdata_encodeOpN hm hm16
  have hcount := isPushdata_encodeOpN hn hn16
  refine scriptGetOps_eq_iff.mpr ⟨List.cons_ne_nil _ _,
    ⟨fits_alone hfirst, fun hpush => ?_, ?_⟩, rfl⟩
  · rw [hfirst] at hpush
    cases hpush
  · refine readable_append (fun op hop => ?_) ?_ (List.cons_ne_nil _ _)
    · obtain ⟨data, hdata, rfl⟩ := List.mem_map.mp hop
      exact (scriptAppendPushdata_eq [] (hkeys data hdata)).1
    · refine ⟨fits_alone hcount, fun _ _ => List.cons_ne_nil _ _, fits_alone rfl,
        fun hpush => ?_, trivial⟩
      cases hpush

theorem isOpSmallint_encodeOpN (hpos : n ≠ 0) (hle : n ≤ 16) :
    (ScriptOp.mk (encodeOpN n) []).isOpSmallint = true := by
  have hlow : op1 ≤ encodeOpN n := by
    rw [UInt8.le_iff_toNat_le, toNat_encodeOpN hpos hle]
    show 81 ≤ 0x50 + n
    omega
  have hhigh : encodeOpN n ≤ op16 := by
    rw [UInt8.le_iff_toNat_le, toNat_encodeOpN hpos hle]
    show 0x50 + n ≤ 96
    omega
  simp [ScriptOp.isOpSmallint, hlow, hhigh]

/-- The template looks at the keys alone. -/
theorem scriptIsMultisig_keyedMultisigOps (hm : m ≠ 0) (hm16 : m ≤ 16) (hn : keys.length ≠ 0)
    (hn16 : keys.length ≤ 16) :
    scriptIsMultisig (keyedMultisigOps m keys) = (keys.map pushOf).all ScriptOp.isOpPubkey := by
  have hlen : (keyedMultisigOps m keys).length ≤ 16 + 3 := by
    rw [keyedMultisigOps, List.length_cons, List.length_append, List.length_map]
    show keys.length + 2 + 1 ≤ 19
    omega
  unfold scriptIsMultisig
  rw [keyedMultisigOps] at hlen ⊢
  dsimp only
  rw [List.reverse_append]
  show (_ && _ && _ && _ && ((keys.map pushOf).reverse).all ScriptOp.isOpPubkey) = _
  rw [isOpSmallint_encodeOpN hm hm16, isOpSmallint_encodeOpN hn hn16, decide_eq_true hlen,
    List.all_reverse]
  rfl

theorem scriptIsPubkeyhash_eq_none (ops : List ScriptOp) (h : op.op ≠ opDup) :
    scriptIsPubkeyhash (op :: ops) = none := by
  unfold scriptIsPubkeyhash
  split
  · rename_i heq
    rw [if_neg]
    rintro ⟨hdup, -⟩
    exact h ((List.cons.inj heq).1 ▸ hdup)
  · rfl

/-- Whether or not it is known as one, a multisig script pays to no hash of a key. -/
theorem scriptClassify_keyedMultisigOps (hm : m ≠ 0) (hm16 : m ≤ 16) (hn : keys.length ≠ 0)
    (hn16 : keys.length ≤ 16) (hkeys : ∀ key ∈ keys, key.length < 2 ^ 32) :
    (scriptClassify ((keyedMultisigOps m keys).flatMap ScriptOp.wire)).1 ≠ .pubkeyhash ∧
      ((scriptClassify ((keyedMultisigOps m keys).flatMap ScriptOp.wire)).1 = .multisig ↔
        ∀ key ∈ keys, (pushOf key).isOpPubkey = true) := by
  have hdup : encodeOpN m ≠ opDup := by
    intro heq
    have hnat := congrArg UInt8.toNat heq
    rw [toNat_encodeOpN hm hm16] at hnat
    have hdupNat : opDup.toNat = 0x76 := rfl
    omega
  have hhash : scriptIsPubkeyhash (keyedMultisigOps m keys) = none :=
    scriptIsPubkeyhash_eq_none _ hdup
  have hall : scriptIsMultisig (keyedMultisigOps m keys) = true ↔ ∀ key ∈ keys,
    (pushOf key).isOpPubkey = true := by
    rw [scriptIsMultisig_keyedMultisigOps hm hm16 hn hn16, List.all_map, List.all_eq_true]
    rfl
  unfold scriptClassify
  rw [scriptGetOps_keyedMultisigOps hm hm16 hn hn16 hkeys]
  dsimp only
  rw [hhash, ← hall]
  constructor
  · split_ifs with h1 h2 h3 h4
    · exact TxOutType.noConfusion
    · exact TxOutType.noConfusion
    · exact TxOutType.noConfusion
    · cases h4
    · exact TxOutType.noConfusion
  · split_ifs with h1 h2 h3 h4
    · exact iff_of_true rfl h1
    · exact iff_of_false (by decide) h1
    · exact iff_of_false (by decide) h1
    · cases h4
    · exact iff_of_false (by decide) h1

/-! ### Keys that were built -/

theorem length_wire_pushOf_bytes (pubkey : Pubkey) :
    (pushOf pubkey.bytes).wire.length = pubkey.bytes.length + 1 := by
  have hshort : pubkey.bytes.length < opPushdata1.toNat := by
    rw [length_bytes]
    split_ifs
    · decide
    · decide
  have happend := (@scriptAppendPushdata_eq [] pubkey.bytes (lt_of_lt_of_le hshort (by decide))).2
  rw [scriptAppendPushdata, if_pos hshort, List.nil_append, List.nil_append] at happend
  rw [← happend, List.length_append, List.length_singleton, Nat.add_comm]

theorem length_bytes_bounds (pubkey : Pubkey) :
    33 ≤ pubkey.bytes.length ∧ pubkey.bytes.length ≤ 65 := by
  rw [length_bytes]
  split_ifs
  · decide
  · decide

section

variable (h : scriptBuildMultisig requiredSignatures pubkeys = some script)
include h

/-- The length of a multisig script. -/
theorem length_buildMultisig_eq :
    script.length = 3 + (pubkeys.map fun pubkey => pubkey.bytes.length + 1).sum := by
  obtain ⟨hm, hle, hn, rfl⟩ := scriptBuildMultisig_eq_some h
  have hfirst := wire_alone (isPushdata_encodeOpN hm (by omega))
  have hcount := wire_alone (isPushdata_encodeOpN (n := pubkeys.length) (by omega) hn)
  have hcheck : (ScriptOp.mk opCheckmultisig []).wire = [opCheckmultisig] := rfl
  rw [multisigOps, List.flatMap_cons, List.flatMap_append, List.flatMap_cons,
    List.flatMap_singleton,
    hfirst, hcount, hcheck, List.map_map, List.flatMap_map, List.length_append, List.length_append,
    List.length_flatMap]
  simp only [Function.comp, length_wire_pushOf_bytes, List.length_append, List.length_singleton]
  omega

/-- Between one compressed key and sixteen uncompressed ones. -/
theorem length_buildMultisig : 37 ≤ script.length ∧ script.length ≤ 1059 := by
  obtain ⟨hm, hle, hn, -⟩ := scriptBuildMultisig_eq_some h
  have hlow := List.card_nsmul_le_sum (pubkeys.map fun pubkey => pubkey.bytes.length + 1) 34
    fun n hmem => by
    obtain ⟨pubkey, -, rfl⟩ := List.mem_map.mp hmem
    exact Nat.succ_le_succ (length_bytes_bounds pubkey).1
  have hhigh := List.sum_le_card_nsmul (pubkeys.map fun pubkey => pubkey.bytes.length + 1) 66
    fun n hmem => by
    obtain ⟨pubkey, -, rfl⟩ := List.mem_map.mp hmem
    exact Nat.succ_le_succ (length_bytes_bounds pubkey).2
  rw [List.length_map, Nat.nsmul_eq_mul] at hlow hhigh
  rw [length_buildMultisig_eq h]
  omega

/-- A script of less than 76 bytes has one key, or two that are compressed. -/
theorem length_buildMultisig_lt_iff :
    script.length < 76 ↔ pubkeys.length = 1 ∨
      pubkeys.length = 2 ∧ ∀ pubkey ∈ pubkeys, pubkey.compressed = true := by
  obtain ⟨hm, hle, hn, -⟩ := scriptBuildMultisig_eq_some h
  rw [length_buildMultisig_eq h]
  cases pubkeys with
  | nil => exact absurd hle (by simpa using hm)
  | cons first rest =>
    have hfirst := length_bytes first
    cases rest with
    | nil =>
      simp only [List.map_cons, List.map_nil, List.sum_cons, List.sum_nil, hfirst,
        List.length_singleton, true_or, iff_true]
      split_ifs
      · decide
      · decide
    | cons second rest =>
      have hsecond := length_bytes second
      cases rest with
      | nil =>
        simp only [List.map_cons, List.map_nil, List.sum_cons, List.sum_nil, hfirst, hsecond]
        cases hc : first.compressed with
        | false => cases hc' : second.compressed <;> simp [hc]
        | true => cases hc' : second.compressed <;> simp [hc, hc']
      | cons third rest =>
        have hthird := length_bytes_bounds third
        have hfirst := length_bytes_bounds first
        have hsecond := length_bytes_bounds second
        simp only [List.map_cons, List.sum_cons, List.length_cons]
        omega

theorem scriptClassify_of_buildMultisig :
    (scriptClassify script).1 ≠ .pubkeyhash ∧
      ((scriptClassify script).1 = .multisig ↔
        ∀ key ∈ pubkeys.map Pubkey.bytes, (pushOf key).isOpPubkey = true) := by
  obtain ⟨hm, hle, hn, hscript⟩ := scriptBuildMultisig_eq_some h
  have hlen : (pubkeys.map Pubkey.bytes).length = pubkeys.length := List.length_map _
  rw [hscript, multisigOps_eq]
  exact scriptClassify_keyedMultisigOps hm (by omega) (by omega) (by omega) fun key =>
    length_lt_of_mem_bytes

/-- A multisig script pays to no hash of a key. -/
theorem scriptClassify_buildMultisig_ne : (scriptClassify script).1 ≠ .pubkeyhash :=
  (scriptClassify_of_buildMultisig h).1

/-- A multisig script is known as one if its keys begin with the byte for their length. -/
theorem scriptClassify_buildMultisig
    (hkeys : ∀ pubkey ∈ pubkeys, (pushOf pubkey.bytes).isOpPubkey = true) :
    (scriptClassify script).1 = .multisig :=
  (scriptClassify_of_buildMultisig h).2.mpr (List.forall_mem_map.mpr hkeys)

end

end Libdogecoin
