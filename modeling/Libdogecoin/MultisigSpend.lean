/-
# Spending from a multisig script

A run of `dogecoin_tx_sign_input` on one input. Each call takes the script of the input apart and
writes it again with `ser_varlen` in front of each piece, which is a push only up to 75 bytes.

* `signAll_multisigSpend_iff` : the redeem scripts for which a run leaves the script it should.
-/
import Libdogecoin.SignInput

namespace Libdogecoin

/-! ## Runs -/

/-- One call: the key and the type of the hash. -/
structure SignCall where
  privkey : Bytes
  sighashtype : UInt32

/-- Calls on one input that all return `DOGECOIN_SIGN_OK`: the transaction that is left, and the
signatures that were made. -/
def signAll (sp : SignPlatform) (script : Bytes) (inputindex : ℕ) :
    Tx → List SignCall → Option (Tx × List Bytes)
  | tx, [] => some (tx, [])
  | tx, call :: calls =>
    let signed := txSignInput sp tx script call.privkey inputindex call.sighashtype
    if signed.result = .ok then
      match signed.sigder with
      | none => none
      | some sigder =>
        (signAll sp script inputindex signed.tx calls).map fun (tx, sigs) => (tx, sigder :: sigs)
    else none

/-- The script of an input reads as `OP_0`, a push for each signature, and a push of the script. -/
def MultisigSpend (scriptSig : Bytes) (sigs : List Bytes) (script : Bytes) : Prop :=
  ∃ pushes last, scriptGetOps scriptSig = (⟨op0, []⟩ :: (pushes ++ [last]), true) ∧
    (∀ push ∈ pushes ++ [last], push.isPushdata = true) ∧
    pushes.map ScriptOp.data = sigs ∧ last.data = script

variable {sp : SignPlatform} {script data sigder scriptSig l : Bytes}
  {inputindex n requiredSignatures : ℕ}
  {calls : List SignCall} {sigs : List Bytes} {tx tx' : Tx} {x y : UInt8} {op : ScriptOp}
  {pubkeys : List Pubkey}

/-- One call of a run. -/
theorem signAll_cons {call : SignCall} (hclassify : (scriptClassify script).1 ≠ .pubkeyhash)
    (h : signAll sp script inputindex tx (call :: calls) = some (tx', sigs)) :
    ∃ scriptSig sigder sigs', tx.scriptSigAt inputindex = some scriptSig ∧
      2 ≤ sigder.length ∧ sigder.length ≤ 73 ∧ sigs = sigder :: sigs' ∧
      signAll sp script inputindex
        (tx.setScriptSig inputindex (multisigScriptSig scriptSig sigder script)) calls =
        some (tx', sigs') := by
  unfold signAll at h
  dsimp only at h
  by_cases hok : (txSignInput sp tx script call.privkey inputindex call.sighashtype).result = .ok
  · obtain ⟨scriptSig, sigder, hscriptSig, hsigder, hlow, hhigh, htx⟩ :=
      txSignInput_multisig hclassify hok
    rw [if_pos hok, hsigder, htx] at h
    obtain ⟨last, hrun, heq⟩ := Option.map_eq_some_iff.mp h
    obtain ⟨htx', hsigs⟩ := Prod.mk.inj heq
    exact ⟨scriptSig, sigder, last.2, hscriptSig, hlow, hhigh, hsigs.symm, by rw [hrun, ← htx']⟩
  · rw [if_neg hok] at h
    cases h

/-! ## Lengths in front of data -/

theorem serVarlen_of_lt (h : n < 253) : serVarlen (UInt32.ofNat n) = [UInt8.ofNat n] := by
  have hsize : n < 2 ^ 32 := by omega
  have hlt : UInt32.ofNat n < 253 := by
    rw [UInt32.lt_iff_toNat_lt, UInt32.toNat_ofNat_of_lt' hsize]
    exact h
  rw [serVarlen, if_pos hlt]
  simp

theorem serVarlen_of_le (h : 253 ≤ n) (hhigh : n < 2 ^ 16) :
    serVarlen (UInt32.ofNat n) = 253 :: serU16 (UInt16.ofNat n) := by
  have hsize : n < 2 ^ 32 := by omega
  have hnlt : ¬ UInt32.ofNat n < 253 := by
    rw [UInt32.lt_iff_toNat_lt, UInt32.toNat_ofNat_of_lt' hsize]
    exact Nat.not_lt.mpr h
  have hlt : UInt32.ofNat n < 0x10000 := by
    rw [UInt32.lt_iff_toNat_lt, UInt32.toNat_ofNat_of_lt' hsize]
    exact hhigh
  rw [serVarlen, if_neg hnlt, if_pos hlt]
  simp

/-! ## Short scripts -/

/-- The script that a run should leave. -/
def spendOps (sigs : List Bytes) (script : Bytes) : List ScriptOp :=
  ⟨op0, []⟩ :: (sigs.map pushOf ++ [pushOf script])

theorem flatMap_spendOps (sigs : List Bytes) (script : Bytes) :
    (spendOps sigs script).flatMap ScriptOp.wire =
      op0 :: ((sigs.map pushOf).flatMap ScriptOp.wire ++ (pushOf script).wire) := by
  have hop0 : (ScriptOp.mk op0 []).wire = [op0] := rfl
  rw [spendOps, List.flatMap_cons, hop0, List.flatMap_append, List.flatMap_singleton,
    List.singleton_append]

theorem pushOf_short (h : data.length < 76) : pushOf data = ⟨UInt8.ofNat data.length, data⟩ := by
  have hshort : data.length < opPushdata1.toNat := h
  rw [pushOf, if_pos hshort]

theorem header_pushOf_short (h : data.length < 76) :
    (pushOf data).header = [UInt8.ofNat data.length] := by
  have hsize : data.length < 2 ^ 8 := by omega
  have hlt : UInt8.ofNat data.length < opPushdata1 := by
    rw [UInt8.lt_iff_toNat_lt, UInt8.toNat_ofNat_of_lt' hsize]
    exact h
  rw [pushOf_short h, ScriptOp.header, if_pos hlt]

/-- Up to 75 bytes a length is a push. -/
theorem serData_eq_wire (h : data.length < 76) : serData data = (pushOf data).wire := by
  rw [serData, serVarlen_of_lt (by omega), ScriptOp.wire, header_pushOf_short h]
  rfl

theorem flatMap_serData {datas : List Bytes} (h : ∀ data ∈ datas, data.length < 76) :
    datas.flatMap serData = (datas.map pushOf).flatMap ScriptOp.wire := by
  induction datas with
  | nil => rfl
  | cons data datas ih =>
    rw [List.flatMap_cons, List.map_cons, List.flatMap_cons,
      serData_eq_wire (h data List.mem_cons_self),
      ih fun data' hdata => h data' (List.mem_cons_of_mem _ hdata)]

theorem fits_pushOf (h : data.length < 2 ^ 32) :
    (pushOf data).Fits := (scriptAppendPushdata_eq [] h).1

theorem scriptGetOps_spendOps (hsigs : ∀ sig ∈ sigs, sig.length < 2 ^ 32)
    (hscript : script.length < 2 ^ 32) (hne : script ≠ []) :
    scriptGetOps ((spendOps sigs script).flatMap ScriptOp.wire) = (spendOps sigs script, true) := by
  refine scriptGetOps_eq_iff.mpr ⟨List.cons_ne_nil _ _, ⟨rfl, fun _ _ => ?_, ?_⟩, rfl⟩
  · exact List.append_ne_nil_of_right_ne_nil _ (List.cons_ne_nil _ _)
  · refine readable_append (fun op hop => ?_) ?_ (List.cons_ne_nil _ _)
    · obtain ⟨sig, hsig, rfl⟩ := List.mem_map.mp hop
      exact fits_pushOf (hsigs sig hsig)
    · exact ⟨fits_pushOf hscript, fun _ hnil => absurd hnil hne, trivial⟩

theorem existingSigs_of_ops {pushes : List ScriptOp} {last : ScriptOp}
    (hops : (scriptGetOps scriptSig).1 = ⟨op0, []⟩ :: (pushes ++ [last]))
    (hlast : last.data = script)
    (hpushes : ∀ push ∈ pushes, push.data ≠ []) : existingSigs scriptSig script = pushes := by
  have hgetLast : (ScriptOp.mk op0 [] :: (pushes ++ [last])).getLast? = some last := by
    rw [← List.cons_append, List.getLast?_concat]
  have hlen : (ScriptOp.mk op0 [] :: (pushes ++ [last])).length = pushes.length + 2 := by
    rw [List.length_cons, List.length_append, List.length_singleton]
  have hcond : pushes.length + 2 > 1 ∧ last.data = script := ⟨by omega, hlast⟩
  unfold existingSigs
  simp only [hops, hgetLast, List.head?_cons, List.length_nil, and_self, if_true, hlen]
  rw [if_pos hcond]
  have htake : (ScriptOp.mk op0 [] :: (pushes ++ [last])).take (pushes.length + 2 - 1) =
      ⟨op0, []⟩ :: pushes := by
    rw [show pushes.length + 2 - 1 =
      pushes.length + 1 by omega, List.take_succ_cons, List.take_left]
  rw [htake, List.drop_one, List.tail_cons, List.filter_eq_self]
  intro push hpush
  exact decide_eq_true (List.length_pos_iff.mpr (hpushes push hpush))

/-- A signature that is put into a script with signatures comes behind them. -/
theorem multisigScriptSig_spendOps (hsigs : ∀ sig ∈ sigs, sig.length < 76 ∧ sig ≠ [])
    (hsigder : sigder.length < 76) (hscript : script.length < 76) (hne : script ≠ []) :
    multisigScriptSig ((spendOps sigs script).flatMap ScriptOp.wire) sigder script =
      (spendOps (sigs ++ [sigder]) script).flatMap ScriptOp.wire := by
  have hops := scriptGetOps_spendOps (fun sig hsig => (hsigs sig hsig).1.trans (by decide))
    (hscript.trans (by decide)) hne
  have hexisting : existingSigs ((spendOps sigs script).flatMap ScriptOp.wire) script =
    sigs.map pushOf := by
    refine existingSigs_of_ops (congrArg Prod.fst hops) rfl fun push hpush => ?_
    obtain ⟨sig, hsig, rfl⟩ := List.mem_map.mp hpush
    exact (hsigs sig hsig).2
  have hdata : (sigs.map pushOf).map ScriptOp.data = sigs := by
    rw [List.map_map]
    exact List.map_id _
  rw [multisigScriptSig, hexisting, hdata, flatMap_serData fun sig hsig => (hsigs sig hsig).1,
    serData_eq_wire hsigder, serData_eq_wire hscript, flatMap_spendOps, List.map_append,
    List.flatMap_append, List.map_singleton, List.flatMap_singleton]
  simp only [List.cons_append, List.nil_append, List.append_assoc]

/-- The first signature. -/
theorem multisigScriptSig_nil (hsigder : sigder.length < 76) (hscript : script.length < 76) :
    multisigScriptSig [] sigder script = (spendOps [sigder] script).flatMap ScriptOp.wire := by
  have hexisting : existingSigs [] script = [] := rfl
  rw [multisigScriptSig, hexisting, serData_eq_wire hsigder, serData_eq_wire hscript,
    flatMap_spendOps, List.map_singleton, List.flatMap_singleton]
  rfl

theorem multisigSpend_spendOps (hsigs : ∀ sig ∈ sigs, sig.length < 2 ^ 32)
    (hscript : script.length < 2 ^ 32) (hne : script ≠ []) :
    MultisigSpend ((spendOps sigs script).flatMap ScriptOp.wire) sigs script := by
  refine ⟨sigs.map pushOf, pushOf script, scriptGetOps_spendOps hsigs hscript hne,
    fun push hpush => ?_, ?_, rfl⟩
  · rcases List.mem_append.mp hpush with hpush | hpush
    · obtain ⟨sig, -, rfl⟩ := List.mem_map.mp hpush
      exact isPushdata_pushOf sig
    · rw [List.mem_singleton.mp hpush]
      exact isPushdata_pushOf script
  · rw [List.map_map]
    exact List.map_id _

/-- What the script of the input holds after some signatures. -/
def Signed (script : Bytes) (sigs : List Bytes) (scriptSig : Bytes) : Prop :=
  (∀ sig ∈ sigs, sig.length < 76 ∧ sig ≠ []) ∧
    (sigs = [] ∧ scriptSig = [] ∨
      sigs ≠ [] ∧ scriptSig = (spendOps sigs script).flatMap ScriptOp.wire)

theorem signed_multisigScriptSig (h : Signed script sigs scriptSig) (hlow : 2 ≤ sigder.length)
    (hhigh : sigder.length ≤ 73) (hscript : script.length < 76) (hne : script ≠ []) :
    Signed script (sigs ++ [sigder]) (multisigScriptSig scriptSig sigder script) := by
  obtain ⟨hsigs, hwhich⟩ := h
  have hsigder : sigder.length < 76 := by omega
  refine ⟨fun sig hsig => ?_, Or.inr
    ⟨List.append_ne_nil_of_right_ne_nil _ (List.cons_ne_nil _ _), ?_⟩⟩
  · rcases List.mem_append.mp hsig with hsig | hsig
    · exact hsigs sig hsig
    · rw [List.mem_singleton.mp hsig]
      exact ⟨hsigder, List.ne_nil_of_length_pos (by omega)⟩
  · rcases hwhich with ⟨rfl, rfl⟩ | ⟨-, rfl⟩
    · exact multisigScriptSig_nil hsigder hscript
    · exact multisigScriptSig_spendOps hsigs hsigder hscript hne

/-- A run keeps what the script of the input should be. -/
theorem signed_signAll (hclassify : (scriptClassify script).1 ≠ .pubkeyhash)
    (hscript : script.length < 76) (hne : script ≠ []) :
    ∀ {tx tx' : Tx} {sigs done : List Bytes} {scriptSig : Bytes},
      signAll sp script inputindex tx calls = some (tx', sigs) →
      tx.scriptSigAt inputindex = some scriptSig → Signed script done scriptSig →
        ∃ scriptSig', tx'.scriptSigAt inputindex = some scriptSig' ∧
        Signed script (done ++ sigs) scriptSig' := by
  induction calls with
  | nil =>
    intro tx tx' sigs done scriptSig hrun hscriptSig hsigned
    obtain ⟨rfl, rfl⟩ := Prod.mk.inj (Option.some.inj hrun)
    rw [List.append_nil]
    exact ⟨scriptSig, hscriptSig, hsigned⟩
  | cons call calls ih =>
    intro tx tx' sigs done scriptSig hrun hscriptSig hsigned
    obtain ⟨scriptSig', sigder, sigs', hscriptSig', hlow, hhigh, rfl, hrest⟩ :=
      signAll_cons hclassify hrun
    obtain rfl := Option.some.inj (hscriptSig.symm.trans hscriptSig')
    have hstep := signed_multisigScriptSig hsigned hlow hhigh hscript hne
    have hindex : inputindex < tx.vin.length := Tx.lt_of_scriptSigAt hscriptSig
    have hend := ih hrest (Tx.scriptSigAt_setScriptSig hindex _) hstep
    rwa [List.append_assoc] at hend

/-! ## Long scripts -/

/-- A byte behind a string that is also the string behind another byte is that byte. -/
theorem eq_of_append_singleton_eq_cons (h : l ++ [x] = y :: l) : x = y := by
  induction l with
  | nil => exact (List.cons.inj h).1
  | cons a l ih =>
    obtain ⟨rfl, hrest⟩ := List.cons.inj h
    exact ih hrest

/-- Two strings that end alike, byte by byte. -/
theorem append_singleton_inj {l' : Bytes} (h : l ++ [x] = l' ++ [y]) : l = l' ∧ x = y := by
  obtain ⟨hfront, hlast⟩ := List.append_inj' h rfl
  exact ⟨hfront, (List.cons.inj hlast).1⟩

/-- A run with a call ends with a signature in front of the script. -/
theorem signAll_last (hclassify : (scriptClassify script).1 ≠ .pubkeyhash) :
    ∀ {tx tx' : Tx} {sigs : List Bytes}, calls ≠ [] →
      signAll sp script inputindex tx calls = some (tx', sigs) →
        ∃ front sigs' sigder, sigs = sigs' ++ [sigder] ∧ sigder.length ≤ 73 ∧
          tx'.scriptSigAt inputindex = some (front ++ serData sigder ++ serData script) := by
  induction calls with
  | nil => exact fun hne => absurd rfl hne
  | cons call calls ih =>
    intro tx tx' sigs _ hrun
    obtain ⟨scriptSig, sigder, sigs', hscriptSig, -, hhigh, rfl, hrest⟩ :=
      signAll_cons hclassify hrun
    by_cases hcalls : calls = []
    · subst hcalls
      obtain ⟨rfl, rfl⟩ := Prod.mk.inj (Option.some.inj hrest)
      have hindex : inputindex < tx.vin.length := Tx.lt_of_scriptSigAt hscriptSig
      exact ⟨_, [], sigder, rfl, hhigh, Tx.scriptSigAt_setScriptSig hindex _⟩
    · obtain ⟨front, sigs'', last, rfl, hlast, hend⟩ := ih hcalls hrest
      exact ⟨front, sigder :: sigs'', last, rfl, hlast, hend⟩

theorem serU16_ofNat (h : n < 2 ^ 16) :
    serU16 (UInt16.ofNat n) = [UInt8.ofNat n, UInt8.ofNat (n / 256)] := by
  rw [serU16, UInt16.toNat_ofNat_of_lt' h]
  rfl

theorem serU32_ofNat (h : n < 2 ^ 16) :
    serU32 (UInt32.ofNat n) = [UInt8.ofNat n, UInt8.ofNat (n / 256), 0, 0] := by
  have hsize : n < 2 ^ 32 := by omega
  have hthird : n / 256 / 256 = 0 := by omega
  rw [serU32, UInt32.toNat_ofNat_of_lt' hsize]
  show [UInt8.ofNat n, UInt8.ofNat (n / 256), UInt8.ofNat (n / 256 / 256),
    UInt8.ofNat (n / 256 / 256 / 256)] = _
  rw [hthird]
  rfl

theorem ofNat_ne_zero (hpos : n ≠ 0) (h : n < 256) : UInt8.ofNat n ≠ 0 := by
  intro hzero
  have hnat := congrArg UInt8.toNat hzero
  rw [UInt8.toNat_ofNat_of_lt' h] at hnat
  exact hpos hnat

/-- What may stand in front of the data of a push of less than 65536 bytes. -/
theorem header_cases (hfits : op.Fits) (hpush : op.isPushdata = true)
    (hhigh : op.data.length < 2 ^ 16) :
    op.data.length < 76 ∧ op.header = [UInt8.ofNat op.data.length] ∨
      op.data.length < 256 ∧ op.header = [opPushdata1] ++ [UInt8.ofNat op.data.length] ∨
      op.header = [opPushdata2] ++ [UInt8.ofNat op.data.length] ++
        [UInt8.ofNat (op.data.length / 256)] ∨
      op.header = [opPushdata4] ++ [UInt8.ofNat op.data.length] ++
        [UInt8.ofNat (op.data.length / 256)] ++
        [0] ++ [0] := by
  unfold ScriptOp.Fits at hfits
  unfold ScriptOp.header
  split_ifs at hfits ⊢ with h1 h2 h3 h4
  · -- an opcode for a short length
    rw [UInt8.lt_iff_toNat_lt, ← hfits] at h1
    exact Or.inl ⟨h1, by rw [hfits, UInt8.ofNat_toNat]⟩
  · exact Or.inr (Or.inl ⟨hfits, by rw [h2]; rfl⟩)
  · exact Or.inr (Or.inr (Or.inl (by rw [h3, serU16_ofNat hhigh]; rfl)))
  · exact Or.inr (Or.inr (Or.inr (by rw [h4, serU32_ofNat hhigh]; rfl)))
  · have hlt : opPushdata4 < op.op := by simpa [h1, h2, h3, h4] using opcode_cases op.op
    exact absurd (of_decide_eq_true hpush) (UInt8.not_le.mpr hlt)

/-- What may stand in front of the data of a long push. -/
theorem header_long (hfits : op.Fits) (hlow : 76 ≤ op.data.length)
    (hhigh : op.data.length < 2 ^ 16) :
      op.data.length < 256 ∧ op.header = [opPushdata1] ++ [UInt8.ofNat op.data.length] ∨
      op.header = [opPushdata2] ++ [UInt8.ofNat op.data.length] ++
        [UInt8.ofNat (op.data.length / 256)] ∨
      op.header = [opPushdata4] ++ [UInt8.ofNat op.data.length] ++
        [UInt8.ofNat (op.data.length / 256)] ++
        [0] ++ [0] := by
  have hpush : op.isPushdata = true := by
    by_contra hnot
    rw [ScriptOp.data_eq_nil hfits (Bool.of_not_eq_true hnot)] at hlow
    cases hlow
  rcases header_cases hfits hpush hhigh with ⟨hshort, -⟩ | hheader
  · omega
  · exact hheader

/-- No push of a long script stands behind a signature with a length of `ser_varlen`. -/
theorem not_multisigSpend_long {front : Bytes} (hsigder : sigder.length ≤ 73)
    (hlow : 76 ≤ script.length) (hhigh : script.length < 2 ^ 16) :
    ¬ MultisigSpend (front ++ serData sigder ++ serData script) (sigs ++ [sigder]) script := by
  rintro ⟨pushes, last, hops, -, hsigs, rfl⟩
  obtain ⟨-, hread, hwire⟩ := scriptGetOps_eq_iff.mp hops
  obtain ⟨pushes, pushes', rfl, -, hlast⟩ := List.map_eq_append_iff.mp hsigs
  obtain ⟨push, rfl, rfl⟩ := List.map_eq_singleton_iff.mp hlast
  have hmem : last ∈ ⟨op0, []⟩ :: ((pushes ++ [push]) ++ [last]) := by simp
  have hcases := header_long (hread.fits last hmem) hlow hhigh
  -- the script behind the headers is the same on both sides
  have hheaders : front ++ serVarlen (UInt32.ofNat push.data.length) ++ push.data ++
      serVarlen (UInt32.ofNat last.data.length) =
        ((ScriptOp.mk op0 []).wire ++ pushes.flatMap ScriptOp.wire ++ push.header) ++ push.data ++
          last.header := by
    refine @List.append_cancel_right _ _ last.data _ ?_
    simpa [serData, ScriptOp.wire, List.flatMap_append, List.append_assoc] using hwire
  generalize (ScriptOp.mk op0 []).wire ++ pushes.flatMap ScriptOp.wire ++ push.header =
    back at hheaders
  rw [serVarlen_of_lt (n := push.data.length) (by omega)] at hheaders
  by_cases hshort : last.data.length < 253
  · have hne := ofNat_ne_zero (n := last.data.length) (by omega) (by omega)
    rw [serVarlen_of_lt hshort] at hheaders
    rcases hcases with ⟨-, hheader⟩ | hheader | hheader
    · -- the opcode is the last byte of the signature, and then all its bytes are its length
      rw [hheader, ← List.append_assoc] at hheaders
      have hopcode := (append_singleton_inj hheaders).1
      rw [List.append_assoc front, List.append_assoc back] at hopcode
      have hrotated := (List.append_inj' hopcode (by simp)).2
      have hlen := congrArg UInt8.toNat (eq_of_append_singleton_eq_cons hrotated.symm)
      rw [UInt8.toNat_ofNat_of_lt' (lt_of_le_of_lt hsigder (by decide))] at hlen
      have hp1 : opPushdata1.toNat = 76 := rfl
      omega
    · rw [hheader, ← List.append_assoc] at hheaders
      have hhi := (append_singleton_inj hheaders).2
      rw [Nat.div_eq_of_lt (by omega)] at hhi
      exact hne hhi
    · rw [hheader, ← List.append_assoc] at hheaders
      exact hne (append_singleton_inj hheaders).2
  · have hlong : serVarlen (UInt32.ofNat last.data.length) =
        [253] ++ [UInt8.ofNat last.data.length] ++ [UInt8.ofNat (last.data.length / 256)] := by
      rw [serVarlen_of_le (by omega) hhigh, serU16_ofNat hhigh]
      rfl
    rw [hlong, ← List.append_assoc, ← List.append_assoc] at hheaders
    rcases hcases with ⟨hbyte, hheader⟩ | hheader | hheader
    · rw [hheader, ← List.append_assoc] at hheaders
      have hhi := (append_singleton_inj hheaders).2
      rw [Nat.div_eq_of_lt hbyte] at hhi
      exact ofNat_ne_zero (by omega) hbyte hhi.symm
    · rw [hheader, ← List.append_assoc, ← List.append_assoc] at hheaders
      have hopcode := (append_singleton_inj
        (append_singleton_inj (append_singleton_inj hheaders).1).1).2
      exact absurd hopcode (by decide)
    · rw [hheader, ← List.append_assoc, ← List.append_assoc] at hheaders
      obtain ⟨hrest, hhi⟩ := append_singleton_inj hheaders
      have hlo := (append_singleton_inj hrest).2
      have hlonat := congrArg UInt8.toNat hlo
      have hhinat := congrArg UInt8.toNat hhi
      rw [UInt8.toNat_ofNat', UInt8.toNat_zero] at hlonat hhinat
      omega

/-! ## Redeem scripts -/

/-- A run for a script of 76 bytes or more leaves no script of a spend. -/
theorem not_multisigSpend_signAll
    (hbuild : scriptBuildMultisig requiredSignatures pubkeys = some script) (hcalls : calls ≠ [])
    (hrun : signAll sp script inputindex tx calls = some (tx', sigs))
    (hlong : 76 ≤ script.length) :
    ¬ ∃ scriptSig, tx'.scriptSigAt inputindex = some scriptSig ∧
    MultisigSpend scriptSig sigs script := by
  rintro ⟨scriptSig, hscriptSig, hspend⟩
  have hlen := length_buildMultisig hbuild
  obtain ⟨front, sigs', sigder, rfl, hsigder, hend⟩ :=
    signAll_last (scriptClassify_buildMultisig_ne hbuild) hcalls hrun
  obtain rfl := Option.some.inj (hend.symm.trans hscriptSig)
  exact not_multisigSpend_long hsigder hlong (by omega) hspend

/-- **A run leaves the script of a spend when the lengths of `ser_varlen` are pushes**, which takes
a redeem script of less than 76 bytes. -/
theorem signAll_multisigSpend_iff {sp : SignPlatform} {requiredSignatures : ℕ}
    {pubkeys : List Pubkey} {script : Bytes}
    (hbuild : scriptBuildMultisig requiredSignatures pubkeys = some script)
    {tx tx' : Tx} {inputindex : ℕ} (hempty : tx.scriptSigAt inputindex = some [])
    {calls : List SignCall} {sigs : List Bytes}
    (hrun : signAll sp script inputindex tx calls = some (tx', sigs)) :
    (∃ scriptSig, tx'.scriptSigAt inputindex = some scriptSig ∧
      MultisigSpend scriptSig sigs script) ↔
      calls ≠ [] ∧ script.length < 76 := by
  have hclassify := scriptClassify_buildMultisig_ne hbuild
  have hlen := length_buildMultisig hbuild
  constructor
  · intro hspend
    have hcalls : calls ≠ [] := by
      rintro rfl
      obtain ⟨rfl, rfl⟩ := Prod.mk.inj (Option.some.inj hrun)
      obtain ⟨scriptSig, hscriptSig, pushes, last, hops, -⟩ := hspend
      obtain rfl := Option.some.inj (hempty.symm.trans hscriptSig)
      cases hops
    refine ⟨hcalls, ?_⟩
    by_contra hlong
    exact not_multisigSpend_signAll hbuild hcalls hrun (by omega) hspend
  · rintro ⟨hcalls, hshort⟩
    have hne : script ≠ [] := List.ne_nil_of_length_pos (by omega)
    have hstart : Signed script [] [] := ⟨by simp, Or.inl ⟨rfl, rfl⟩⟩
    obtain ⟨scriptSig, hscriptSig, hsigs, hwhich⟩ :=
      signed_signAll hclassify hshort hne hrun hempty hstart
    rw [List.nil_append] at hsigs hwhich
    refine ⟨scriptSig, hscriptSig, ?_⟩
    rcases hwhich with ⟨rfl, -⟩ | ⟨-, rfl⟩
    · -- a call makes a signature
      obtain ⟨-, sigs', sigder, hsigs', -⟩ := signAll_last hclassify hcalls hrun
      exact absurd hsigs'.symm (List.append_ne_nil_of_right_ne_nil _ (List.cons_ne_nil _ _))
    · exact multisigSpend_spendOps (fun sig hsig => (hsigs sig hsig).1.trans (by decide))
        (hshort.trans (by decide)) hne

/-! ## Runs on fixed inputs -/

/-- Two numbers of 32 bytes in their DER form. -/
def sampleDer (sig : Bytes) : Bytes :=
  [0x30, 0x44, 0x02, 0x20] ++ sig.take 32 ++ [0x02, 0x20] ++ sig.drop 32

/-- A signer whose signatures are the numbers with 32 bytes of 1. -/
def sampleSigner : SignPlatform where
  toKeyPlatform := sampleKeys
  pubkeyParse := fun pubkey => decide (pubkey.length = 33)
  ecdsaSign := fun _ _ => List.replicate 64 1
  compactToDerNormalized := fun sig => some (sampleDer sig)

/-- A compressed key. -/
def samplePubkey : Pubkey where
  compressed := true
  pubkey := ⟨2 :: List.replicate 64 1, rfl⟩

/-- A transaction with one input that is not signed. -/
def unsignedTx : Tx where
  version := 1
  vin := [{ prevout := { hash := Uint256.zero, n := 0 }, scriptSig := [], sequence := 0xffffffff }]
  vout := []
  locktime := 0

/-- One signature by the key of bytes 1, for all inputs and outputs. -/
def sampleCall : SignCall := ⟨List.replicate 32 1, 1⟩

theorem signAll_unsignedTx (hbuild : scriptBuildMultisig requiredSignatures pubkeys = some script)
    (hkeys : ∀ pubkey ∈ pubkeys, (pushOf pubkey.bytes).isOpPubkey = true) :
    ∃ tx' sigs, signAll sampleSigner script 0 unsignedTx [sampleCall] = some (tx', sigs) := by
  obtain ⟨sighash, hsighash⟩ : ∃ sighash,
      txSighash sampleSigner.toPlatform unsignedTx script 0 sampleCall.sighashtype = some sighash :=
        ⟨_, rfl⟩
  have hder : sampleSigner.compactToDerNormalized
    (sampleSigner.ecdsaSign sampleCall.privkey sighash) =
      some (sampleDer (List.replicate 64 1)) := rfl
  have hempty : unsignedTx.scriptSigAt 0 = some [] := rfl
  have hcall := txSignInput_eq_ok hempty (by decide) (by decide)
    (scriptClassify_buildMultisig hbuild hkeys) hsighash hder (by decide) (by decide)
  unfold signAll
  rw [hcall]
  exact ⟨_, _, rfl⟩

theorem isOpPubkey_samplePubkey {pubkey : Pubkey} (h : pubkey ∈ List.replicate n samplePubkey) :
    (pushOf pubkey.bytes).isOpPubkey = true := by
  rw [List.eq_of_mem_replicate h]
  rfl

/-- Two signatures by two keys, for all inputs and for one. -/
theorem signAll_multisigSpend_twoOfTwo : ∃ script tx' sigs,
    scriptBuildMultisig 2 (List.replicate 2 samplePubkey) = some script ∧
      signAll sampleSigner script 0 unsignedTx [sampleCall, ⟨List.replicate 32 2, 0x81⟩] =
        some (tx', sigs) ∧
      sigs.length = 2 ∧ ∃ scriptSig, tx'.scriptSigAt 0 = some scriptSig ∧
      MultisigSpend scriptSig sigs script := by
  obtain ⟨script, hbuild⟩ : ∃ script,
      scriptBuildMultisig 2 (List.replicate 2 samplePubkey) = some script := ⟨_, rfl⟩
  have hsome : (signAll sampleSigner script 0 unsignedTx [sampleCall,
    ⟨List.replicate 32 2, 0x81⟩]).any (fun r => r.2.length = 2) = true := by
    obtain rfl := Option.some.inj hbuild
    decide +kernel
  obtain ⟨⟨tx', sigs⟩, hrun, hlen⟩ := (Option.any_eq_true _ _).mp hsome
  have hshort : script.length < 76 :=
    (length_buildMultisig_lt_iff hbuild).mpr (Or.inr ⟨rfl, fun pubkey hmem => by
      rw [List.eq_of_mem_replicate hmem]
      rfl⟩)
  exact ⟨script, tx', sigs, hbuild, hrun, of_decide_eq_true hlen,
    (signAll_multisigSpend_iff hbuild rfl hrun).mpr ⟨List.cons_ne_nil _ _, hshort⟩⟩

/-- Two of three signatures: the script of 105 bytes stands behind the byte 105, which is no
push. -/
theorem not_multisigSpend_twoOfThree : ∃ script tx' sigs,
    scriptBuildMultisig 2 (List.replicate 3 samplePubkey) = some script ∧
      unsignedTx.scriptSigAt 0 = some [] ∧
      signAll sampleSigner script 0 unsignedTx [sampleCall] = some (tx', sigs) ∧
      ¬ ∃ scriptSig, tx'.scriptSigAt 0 = some scriptSig ∧ MultisigSpend scriptSig sigs script := by
  obtain ⟨script, hbuild⟩ : ∃ script,
      scriptBuildMultisig 2 (List.replicate 3 samplePubkey) = some script := ⟨_, rfl⟩
  obtain ⟨tx', sigs, hrun⟩ := signAll_unsignedTx hbuild fun _ => isOpPubkey_samplePubkey
  have hlen : script.length = 105 := length_buildMultisig_eq hbuild
  exact ⟨script, tx', sigs, hbuild, rfl, hrun,
    not_multisigSpend_signAll hbuild (List.cons_ne_nil _ _) hrun (by omega)⟩

end Libdogecoin
