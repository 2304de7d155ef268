/-
# The transaction under a carrier

`zk_commit.c` and `pqc_carrier.c` : a transaction is given an `OP_RETURN` commitment and carrier
outputs that are paid by its first output, and both carriers reconstruct from it the transaction it
was made from, to hash that.

* `zkTxBase_buildCarrierTxC` : what is reconstructed is the transaction that was built on;
* `zkComputeTxBaseSighash_buildCarrierTxC` : it has the same signature hash, however the inputs are
  signed;
* `verifyReveal_iff` : when the two reconstructions are the same.
-/
import Libdogecoin.Sighash
import Libdogecoin.ZkCarrier

namespace Libdogecoin

namespace TxBase

open PqcCarrier ZkCarrier

variable (kp : KeyPlatform) {skip carrier : TxOut → Bool} {txC : Tx}
  {payload spk : Bytes} {mode : UInt32}
  {carrierValue : UInt64} {partTotal : UInt8}

/-! ## Building -/

/-- `SIGHASH_ALL`. -/
def SIGHASH_ALL : UInt32 := 1

/-- `OP_RETURN`. -/
def OP_RETURN : UInt8 := 0x6a

/-- `DOGECOIN_ZK_OPRETURN_TAG` : `DZKC`. -/
def OPRETURN_TAG : Bytes := [0x44, 0x5a, 0x4b, 0x43]

/-- `dogecoin_zk_build_opreturn_scriptpubkey`. -/
def buildOpreturnScriptpubkey (mode : UInt32) (commitment : Uint256) : Except ZkErr Bytes :=
  if ¬ zkModeIsKnown mode then .error .badMode
  else .ok ([OP_RETURN, 37] ++ OPRETURN_TAG ++ [mode.toUInt8] ++ commitment.1)

/-- `dogecoin_pqc_carrier_build_p2sh_scriptpubkey`. -/
def buildP2shScriptpubkey (redeem : Bytes) :
    Bytes := [0xa9, 0x14] ++ (kp.getHash160 redeem).1 ++ [0x87]

/-- The script of the carrier outputs. -/
def carrierSpk : Bytes := buildP2shScriptpubkey kp buildRedeemscript

/-- `dogecoin_tx_add_pqc_carrier_outputs`. -/
def txAddPqcCarrierOutputs (tx : Tx) (carrierSpk : Bytes) (value : UInt64) (partTotal : UInt8) :
    Option Tx :=
  if partTotal = 0 then none
  else some { tx with
    vout := tx.vout ++ List.replicate partTotal.toNat
      { value := value, scriptPubkey := carrierSpk } }

/-- `dogecoin_zk_build_carrier_tx_c` : the transaction, the script of the carrier outputs and their
number. -/
def buildCarrierTxC (tx : Tx) (payload : Bytes) (mode : UInt32) (carrierValue : UInt64) :
    Except ZkErr (Tx × Bytes × UInt8) :=
  if payload.length = 0 then .error .invalidArg
  else
    match buildOpreturnScriptpubkey mode (kp.toPlatform.sha256d payload) with
    | .error e => .error e
    | .ok opret =>
      let tx := { tx with vout := tx.vout ++ [{ value := 0, scriptPubkey := opret }] }
      match zkComputePartTotal payload.length with
      | none => .error .invalidArg
      | some partTotal =>
        match txAddPqcCarrierOutputs tx (carrierSpk kp) carrierValue partTotal with
        | none => .error .oom
        | some tx => .ok (tx, carrierSpk kp, partTotal)

/-! ## Reconstruction -/

/-- One output: it is skipped, or counted as a carrier, or kept. -/
def splitOutput (skip carrier : TxOut → Bool) (s : UInt64 × List TxOut) (orig : TxOut) :
    UInt64 × List TxOut :=
  if skip orig then s
  else if carrier orig then (s.1 + orig.value, s.2)
  else (s.1, s.2 ++ [orig])

/-- What the carriers cost is given back to the first output. -/
def restoreFirst (carrierTotal : UInt64) : List TxOut → List TxOut
  | [] => []
  | first :: rest =>
    if carrierTotal > 0 then { first with value := first.value + carrierTotal } :: rest
    else first :: rest

/-- The outputs that are kept, with the cost of the carriers in the first. -/
def baseOutputs (skip carrier : TxOut → Bool) (vout : List TxOut) : List TxOut :=
  restoreFirst (vout.foldl (splitOutput skip carrier) (0, [])).1
    (vout.foldl (splitOutput skip carrier) (0, [])).2

/-- An output that `dogecoin_zk_compute_tx_base_sighash` skips. -/
def zkSkip (orig : TxOut) : Bool := orig.scriptPubkey.length = 0 ∨
    orig.scriptPubkey.headD 0 = OP_RETURN

/-- An output that it counts. -/
def zkIsCarrier (carrierSpk : Bytes) (orig : TxOut) : Bool := orig.scriptPubkey = carrierSpk

/-- The transaction that it reconstructs. An input without a script has an empty one. -/
def zkTxBase (txC : Tx) (carrierSpk : Bytes) : Tx where
  version := txC.version
  vin := txC.vin
  vout := baseOutputs zkSkip (zkIsCarrier carrierSpk) txC.vout
  locktime := txC.locktime

/-- `dogecoin_zk_compute_tx_base_sighash`. -/
def zkComputeTxBaseSighash (txC : Tx) (signerP2pkhSpk carrierSpk : Bytes) : Except ZkErr Bytes :=
  match txSighash kp.toPlatform (zkTxBase txC carrierSpk) signerP2pkhSpk 0 SIGHASH_ALL with
  | none => .error .verifyFail
  | some sh => .ok (0x00 :: sh.1.tail)

/-- `dogecoin_zk_extract_signer_p2pkh_spk`. -/
def extractSignerP2pkhSpk (tx : Tx) : Option Bytes := do
  let firstIn ← tx.vin.head?
  let ss := firstIn.scriptSig
  if ss.length < 106 ∨ ss.length > 180 then none
  else
    let sigPushLen := ss.getD 0 0
    if sigPushLen < 9 ∨ sigPushLen > 73 ∨ 1 + sigPushLen.toNat > ss.length ∨
    ss.getD 1 0 ≠ 0x30 then none
    else
      let pos := 1 + sigPushLen.toNat
      if pos ≥ ss.length then none
      else if ss.getD pos 0 ≠ 33 ∨ pos + 1 + 33 > ss.length then none
      else some ([0x76, 0xa9, 0x14] ++ (kp.getHash160 ((ss.drop (pos + 1)).take 33)).1 ++
        [0x88, 0xac])

/-! ## Verification of a reveal -/

/-- A copied input. Its script is NULL until there is something in it. -/
structure CopiedIn where
  prevout : TxOutpoint
  scriptSig : Option Bytes
  sequence : UInt32
  deriving DecidableEq

/-- The copy of an input in `dogecoin_pqc_carrier_verify_reveal`. -/
def copyIn (orig : TxIn) : CopiedIn where
  prevout := orig.prevout
  scriptSig := if orig.scriptSig.length > 0 then some orig.scriptSig else none
  sequence := orig.sequence

/-- A copied input with a script. -/
def CopiedIn.toTxIn (copied : CopiedIn) : Option TxIn :=
  copied.scriptSig.map fun scriptSig =>
    { prevout := copied.prevout, scriptSig := scriptSig, sequence := copied.sequence }

/-- An output that `dogecoin_pqc_carrier_verify_reveal` skips. -/
def pqcSkip (orig : TxOut) : Bool := orig.scriptPubkey.length > 0 ∧ orig.scriptPubkey.headD 0 = 0x6a

/-- An output that it counts. -/
def pqcIsCarrier (orig : TxOut) :
    Bool := orig.scriptPubkey.length = 23 ∧ orig.scriptPubkey = carrierSpk kp

/-- The outputs that it reconstructs. -/
def pqcBaseVout (txc : Tx) : List TxOut := baseOutputs pqcSkip (pqcIsCarrier kp) txc.vout

/-- `dogecoin_tx_sighash32` on the reconstructed transaction. The outer `none` is the script of an
input that is resized and is NULL. -/
def pqcBaseSighash (txc : Tx) (spk : Bytes) : Option (Option Uint256) :=
  if 0 ≥ txc.vin.length then some none
  else
    ((txc.vin.map copyIn).mapM CopiedIn.toTxIn).map fun vin =>
      txSighash kp.toPlatform
        { version := txc.version, vin := vin, vout := pqcBaseVout kp txc, locktime := txc.locktime }
          spk 0 SIGHASH_ALL

/-- The script of the signer, as `dogecoin_pqc_carrier_verify_reveal` reads it. -/
def revealSignerSpk (txc : Tx) : Option Bytes := do
  let firstIn ← txc.vin.head?
  let ss := firstIn.scriptSig
  if ss.length ≥ 106 ∧ ss.length ≤ 180 then
    let sigPushLen := ss.getD 0 0
    if sigPushLen ≥ 9 ∧ sigPushLen ≤ 73 ∧ 1 + sigPushLen.toNat ≤ ss.length ∧ ss.getD 1 0 = 0x30 then
      let pos := 1 + sigPushLen.toNat
      if pos < ss.length then
        if ss.getD pos 0 = 33 ∧ pos + 1 + 33 ≤ ss.length then
          some ([0x76, 0xa9, 0x14] ++ (kp.getHash160 ((ss.drop (pos + 1)).take 33)).1 ++
            [0x88, 0xac])
        else none
      else none
    else none
  else none

/-- `dogecoin_pqc_carrier_verify_reveal`, with the verification of the signature on a hash: the
result and `out_sighash`. Nothing where a pointer that is NULL is read. -/
def verifyReveal (verify : PqcAlgo → Bytes → Bytes → Bytes → Bool) (algo : PqcAlgo)
    (txcRaw pk sig : Bytes) :
    Option (Bool × Bytes) :=
  if txcRaw.length = 0 ∨ pk.length = 0 ∨ sig.length = 0 then some (false, List.replicate 32 0)
  else
    match txDeserialize txcRaw with
    | none => some (false, List.replicate 32 0)
    | some (txc, _) =>
      match revealSignerSpk kp txc with
      | none => some (false, List.replicate 32 0)
      | some spk =>
        match pqcBaseSighash kp txc spk with
        | none => none
        | some none => some (false, List.replicate 32 0)
        | some (some sighash) => some (verify algo pk sighash.1 sig, sighash.1)

/-! ## Outputs -/

/-- An output that is kept. -/
def kept (skip carrier : TxOut → Bool) (orig : TxOut) : Bool := !skip orig && !carrier orig

/-- The outputs that are kept stay in order, and only the others are counted. -/
theorem foldl_splitOutput_snd (skip carrier : TxOut → Bool) (vout : List TxOut)
    (s : UInt64 × List TxOut) :
    (vout.foldl (splitOutput skip carrier) s).2 = s.2 ++ vout.filter (kept skip carrier) := by
  induction vout generalizing s with
  | nil => exact (List.append_nil _).symm
  | cons orig vout ih =>
    rw [List.foldl_cons, ih, List.filter_cons, splitOutput, kept]
    cases hskip : skip orig with
    | true => simp
    | false =>
      cases hcarrier : carrier orig with
      | true => simp
      | false => simp [List.append_assoc]

/-- Outputs that are kept do not count. -/
theorem foldl_splitOutput_kept {vout : List TxOut}
    (hkept : ∀ orig ∈ vout, kept skip carrier orig = true) (s : UInt64 × List TxOut) :
    vout.foldl (splitOutput skip carrier) s = (s.1, s.2 ++ vout) := by
  induction vout generalizing s with
  | nil => exact Prod.ext rfl (List.append_nil _).symm
  | cons orig vout ih =>
    obtain ⟨hskip, hcarrier⟩ := Bool.and_eq_true_iff.mp (hkept orig List.mem_cons_self)
    have hstep : splitOutput skip carrier s orig = (s.1, s.2 ++ [orig]) := by
      rw [splitOutput, if_neg (by simpa using hskip), if_neg (by simpa using hcarrier)]
    rw [List.foldl_cons, hstep, ih fun other hother => hkept other (List.mem_cons_of_mem _ hother),
      List.append_assoc, List.singleton_append]

variable {out : TxOut}

/-- Equal carriers count as often as they are there. -/
theorem foldl_splitOutput_replicate (hskip : skip out = false)
    (hcarrier : carrier out = true) (n : ℕ) (s : UInt64 × List TxOut) :
    (List.replicate n out).foldl (splitOutput skip carrier) s =
    (s.1 + UInt64.ofNat n * out.value, s.2) := by
  induction n generalizing s with
  | zero =>
    refine Prod.ext ?_ rfl
    show s.1 = s.1 + 0 * out.value
    rw [UInt64.zero_mul, UInt64.add_zero]
  | succ n ih =>
    have hstep : splitOutput skip carrier s out = (s.1 + out.value, s.2) := by
      rw [splitOutput, hskip, hcarrier]
      rfl
    rw [List.replicate_succ, List.foldl_cons, hstep, ih, UInt64.ofNat_add]
    refine Prod.ext ?_ rfl
    show s.1 + out.value + UInt64.ofNat n * out.value = s.1 + (UInt64.ofNat n + 1) * out.value
    rw [UInt64.add_mul, UInt64.one_mul, UInt64.add_assoc, UInt64.add_comm out.value]

/-- What was deducted is given back. -/
theorem restoreFirst_sub (total : UInt64) (first : TxOut) (rest : List TxOut) :
    restoreFirst total ({ first with value := first.value - total } :: rest) = first :: rest := by
  rw [restoreFirst]
  split
  · rw [UInt64.sub_add_cancel]
  · rename_i hzero
    have htotal : total = 0 := by
      rw [gt_iff_lt, UInt64.lt_iff_toNat_lt] at hzero
      exact UInt64.toNat_inj.mp (Nat.le_zero.mp (Nat.not_lt.mp hzero))
    rw [htotal, UInt64.sub_zero]

theorem length_restoreFirst (total : UInt64) (vout : List TxOut) :
    (restoreFirst total vout).length = vout.length := by
  cases vout with
  | nil => rfl
  | cons first rest =>
    rw [restoreFirst]
    split <;> rfl

/-! ## What was built is reconstructed -/

/-- What is built: a commitment and the carriers behind the outputs. -/
theorem buildCarrierTxC_eq_ok {tx : Tx}
    (h : buildCarrierTxC kp tx payload mode carrierValue = .ok (txC, spk, partTotal)) :
    spk = carrierSpk kp ∧ ∃ data, txC = { tx with
      vout := tx.vout ++ [{ value := 0, scriptPubkey := OP_RETURN :: data }] ++
        List.replicate partTotal.toNat
          { value := carrierValue, scriptPubkey := carrierSpk kp } } := by
  unfold buildCarrierTxC buildOpreturnScriptpubkey txAddPqcCarrierOutputs at h
  split at h
  · cases h
  · split at h
    · cases h
    · rename_i opret hopret
      split at hopret
      · cases hopret
      · dsimp only at h
        split at h
        · cases h
        · split at h
          · cases h
          · rename_i built hbuilt
            split at hbuilt
            · cases hbuilt
            · cases hopret
              cases h
              cases hbuilt
              exact ⟨rfl, _, rfl⟩

/-- An output that neither carrier takes for its own. -/
structure IsPlain (out : TxOut) : Prop where
  nonempty : out.scriptPubkey ≠ []
  notOpReturn : out.scriptPubkey.head? ≠ some OP_RETURN
  notCarrier : out.scriptPubkey ≠ carrierSpk kp

theorem IsPlain.kept (h : IsPlain kp out) :
    kept zkSkip (zkIsCarrier (carrierSpk kp)) out = true := by
  have hskip : zkSkip out = false := by
    cases hscript : out.scriptPubkey with
    | nil => exact absurd hscript h.nonempty
    | cons op script =>
      have hop : op ≠ OP_RETURN := by
        intro heq
        apply h.notOpReturn
        rw [hscript, heq]
        rfl
      rw [zkSkip, hscript]
      simp [hop]
  have hcarrier : zkIsCarrier (carrierSpk kp) out = false := decide_eq_false h.notCarrier
  rw [TxBase.kept, hskip, hcarrier]
  rfl

theorem carrierSpk_eq_cons : ∃ script, carrierSpk kp = 0xa9 :: script := ⟨_, rfl⟩

theorem length_carrierSpk : (carrierSpk kp).length = 23 := by
  rw [carrierSpk, buildP2shScriptpubkey, List.length_append, List.length_append,
    (kp.getHash160 buildRedeemscript).2]
  rfl

/-- **Reconstruction.** Where the carriers were paid by the first output, the outputs are those that
were built on. -/
theorem zkTxBase_buildCarrierTxC {base : Tx} {first : TxOut} {rest : List TxOut}
    (hvout : base.vout = first :: rest) (hplain : ∀ out ∈ base.vout, IsPlain kp out)
    (hbuild : buildCarrierTxC kp
      { base with
        vout := { first with
          value := first.value - UInt64.ofNat partTotal.toNat * carrierValue } :: rest }
      payload mode carrierValue = .ok (txC, spk, partTotal)) :
    zkTxBase txC spk = { base with vin := txC.vin } ∧ txC.vin = base.vin := by
  obtain ⟨rfl, data, rfl⟩ := buildCarrierTxC_eq_ok kp hbuild
  refine ⟨?_, rfl⟩
  have hkept : ∀ out ∈ { first with
        value := first.value - UInt64.ofNat partTotal.toNat * carrierValue } :: rest,
      kept zkSkip (zkIsCarrier (carrierSpk kp)) out = true := by
    intro out hout
    rcases List.mem_cons.mp hout with rfl | hout
    · obtain ⟨hne, hop, hspk⟩ := hplain first (hvout ▸ List.mem_cons_self)
      exact IsPlain.kept kp ⟨hne, hop, hspk⟩
    · exact IsPlain.kept kp (hplain out (hvout ▸ List.mem_cons_of_mem _ hout))
  have hopret : ∀ s, splitOutput zkSkip (zkIsCarrier (carrierSpk kp)) s
      { value := 0, scriptPubkey := OP_RETURN :: data } = s := by
    intro s
    rw [splitOutput, if_pos (by rfl)]
  obtain ⟨script, hspk⟩ := carrierSpk_eq_cons kp
  have hskip : zkSkip { value := carrierValue, scriptPubkey := carrierSpk kp } = false := by
    rw [hspk]
    rfl
  have hcarrier : zkIsCarrier (carrierSpk kp)
    { value := carrierValue, scriptPubkey := carrierSpk kp } = true :=
    decide_eq_true rfl
  unfold zkTxBase baseOutputs
  dsimp only
  rw [List.foldl_append, List.foldl_append, foldl_splitOutput_kept hkept, List.foldl_cons,
    List.foldl_nil, hopret,
    foldl_splitOutput_replicate hskip hcarrier, UInt64.zero_add, List.nil_append,
      restoreFirst_sub, hvout]

/-! ## The signature hash -/

/-- The transaction without the scripts of its inputs. -/
def unsigned (tx : Tx) : Tx :=
  { tx with vin := tx.vin.map fun txIn => { txIn with scriptSig := [] } }

/-- A transaction has the signature hashes that it has without the scripts of its inputs. -/
theorem txSighash_unsigned (pf : Platform) (tx : Tx) (fromPubKey : Bytes) (inNum : ℕ)
    (hashtype : UInt32) :
    txSighash pf (unsigned tx) fromPubKey inNum hashtype =
      txSighash pf tx fromPubKey inNum hashtype := by
  have hinputs : ∀ script, sighashInputs script inNum (unsigned tx).vin =
    sighashInputs script inNum tx.vin := by
    intro script
    apply List.ext_getElem?
    intro i
    simp only [sighashInputs, unsigned, List.getElem?_mapIdx, List.getElem?_map, Option.map_map]
    rfl
  have hlength : (unsigned tx).vin.length = tx.vin.length := List.length_map _
  unfold txSighash sighashTx
  rw [hlength, hinputs]
  rfl

/-- **Binding to the base transaction.** The carriers are paid by the first output, the transaction
is built, and its inputs are given any scripts: the hash that is recomputed is that of the base
transaction, with its first byte zeroed. -/
theorem zkComputeTxBaseSighash_buildCarrierTxC {base txC signed : Tx} {first : TxOut}
    {rest : List TxOut} {payload spk : Bytes} {mode : UInt32} {carrierValue : UInt64}
    {partTotal : UInt8} (signerSpk : Bytes)
    (hvin : base.vin ≠ []) (hvout : base.vout = first :: rest)
    (hplain : ∀ out ∈ base.vout, IsPlain kp out)
    (hbuild : buildCarrierTxC kp
      { base with
        vout := { first with
          value := first.value - UInt64.ofNat partTotal.toNat * carrierValue } :: rest }
      payload mode carrierValue = .ok (txC, spk, partTotal))
    (hsigned : unsigned signed = unsigned txC) :
    ∃ sighash, txSighash kp.toPlatform base signerSpk 0 SIGHASH_ALL = some sighash ∧
      zkComputeTxBaseSighash kp signed signerSpk spk = .ok (0x00 :: sighash.1.tail) := by
  obtain ⟨hbase, hvin_eq⟩ := zkTxBase_buildCarrierTxC kp hvout hplain hbuild
  have hsame : unsigned (zkTxBase signed spk) = unsigned base := by
    obtain ⟨hversion, hinputs, houtputs, hlocktime⟩ := Tx.mk.inj hsigned
    have hreconstruct : unsigned (zkTxBase signed spk) = unsigned (zkTxBase txC spk) := by
      rw [unsigned, unsigned, zkTxBase, zkTxBase]
      dsimp only
      rw [hversion, hinputs, houtputs, hlocktime]
    rw [hreconstruct, hbase, hvin_eq]
  have hhash : txSighash kp.toPlatform (zkTxBase signed spk) signerSpk 0 SIGHASH_ALL =
      txSighash kp.toPlatform base signerSpk 0 SIGHASH_ALL := by
    rw [← txSighash_unsigned, hsame, txSighash_unsigned]
  have hsome : (txSighash kp.toPlatform base signerSpk 0 SIGHASH_ALL).isSome := by
    unfold txSighash sighashTx
    rw [if_neg (Nat.not_le.mpr (List.length_pos_iff.mpr hvin))]
    rfl
  obtain ⟨sighash, hsighash⟩ := Option.isSome_iff_exists.mp hsome
  refine ⟨sighash, hsighash, ?_⟩
  rw [zkComputeTxBaseSighash, hhash, hsighash]

/-- An input with a script, for runs on fixed inputs. -/
def sampleIn (scriptSig : Bytes) : TxIn where
  prevout := { hash := Uint256.zero, n := 0 }
  scriptSig := scriptSig
  sequence := 0

/-- A transaction with one input and some outputs. -/
def sampleTx (scriptSig : Bytes) (vout : List TxOut) : Tx where
  version := 1
  vin := [sampleIn scriptSig]
  vout := vout
  locktime := 0

/-- The commitment to the magic alone, in the mode 0. -/
def sampleCommitment : TxOut where
  value := 0
  scriptPubkey := OP_RETURN :: (37 :: OPRETURN_TAG ++ [0] ++
    (samplePlatform.sha256d CARRIER_MAGIC).1)

/-- The theorem on the magic alone, with a carrier of 1000 and an input that is signed later. -/
theorem zkComputeTxBaseSighash_buildCarrierTxC_sample :
    ∃ sighash, txSighash samplePlatform (sampleTx [] [{ value := 5000, scriptPubkey := [0x51] }])
      [0x51] 0 SIGHASH_ALL = some sighash ∧
      zkComputeTxBaseSighash sampleKeys
        (sampleTx [1] [{ value := 4000, scriptPubkey := [0x51] }, sampleCommitment,
          { value := 1000, scriptPubkey := carrierSpk sampleKeys }])
        [0x51] (carrierSpk sampleKeys) = .ok (0x00 :: sighash.1.tail) :=
  @zkComputeTxBaseSighash_buildCarrierTxC sampleKeys
    (sampleTx [] [{ value := 5000, scriptPubkey := [0x51] }])
    (sampleTx [] [{ value := 4000, scriptPubkey := [0x51] }, sampleCommitment,
      { value := 1000, scriptPubkey := carrierSpk sampleKeys }])
    (sampleTx [1] [{ value := 4000, scriptPubkey := [0x51] }, sampleCommitment,
      { value := 1000, scriptPubkey := carrierSpk sampleKeys }])
    { value := 5000, scriptPubkey := [0x51] } [] CARRIER_MAGIC
      (carrierSpk sampleKeys) 0 1000 1 [0x51]
    (List.cons_ne_nil _ _) rfl
    (List.forall_mem_singleton.mpr ⟨by decide, by decide, fun h => by cases h⟩) rfl rfl

/-! ## The two reconstructions -/

/-- Both read the same script of the signer. -/
theorem revealSignerSpk_eq (tx : Tx) : revealSignerSpk kp tx = extractSignerP2pkhSpk kp tx := by
  unfold revealSignerSpk extractSignerP2pkhSpk
  cases tx.vin.head? with
  | none => rfl
  | some firstIn =>
    simp only [Option.bind_eq_bind, Option.bind_some]
    generalize firstIn.scriptSig = ss
    by_cases hlength : ss.length < 106 ∨ ss.length > 180
    · rw [if_pos hlength, if_neg (by omega)]
    rw [if_neg hlength, if_pos (by omega)]
    by_cases hsig : ss.getD 0 0 < 9 ∨ ss.getD 0 0 > 73 ∨ 1 + (ss.getD 0 0).toNat > ss.length ∨
      ss.getD 1 0 ≠ 0x30
    · rw [if_pos hsig, if_neg]
      rintro ⟨hmin, hmax, hfits, hder⟩
      rcases hsig with h | h | h | h
      · exact absurd hmin (UInt8.not_le.mpr h)
      · exact absurd hmax (UInt8.not_le.mpr h)
      · omega
      · exact h hder
    rw [if_neg hsig, if_pos]
    · by_cases hpos : 1 + (ss.getD 0 0).toNat ≥ ss.length
      · rw [if_pos hpos, if_neg (by omega)]
      rw [if_neg hpos, if_pos (by omega)]
      by_cases hkey : ss.getD (1 + (ss.getD 0 0).toNat) 0 ≠ 33 ∨
        1 + (ss.getD 0 0).toNat + 1 + 33 > ss.length
      · rw [if_pos hkey, if_neg]
        rintro ⟨hpush, hfits⟩
        exact hkey.elim (fun h => h hpush) (by omega)
      · rw [not_or, not_not] at hkey
        rw [if_pos ⟨hkey.1, by omega⟩, if_neg (by rw [not_or, not_not]; exact hkey)]
    · rw [not_or, not_or, not_or, not_not] at hsig
      obtain ⟨hmin, hmax, hfits, hder⟩ := hsig
      exact ⟨UInt8.not_lt.mp hmin, UInt8.not_lt.mp hmax, by omega, hder⟩

theorem pqcIsCarrier_eq (out : TxOut) : pqcIsCarrier kp out = zkIsCarrier (carrierSpk kp) out := by
  refine decide_eq_decide.mpr ⟨And.right, fun h => ⟨?_, h⟩⟩
  rw [h, length_carrierSpk]

theorem pqcSkip_eq (h : out.scriptPubkey ≠ []) : pqcSkip out = zkSkip out := by
  have hpos := List.length_pos_iff.mpr h
  refine decide_eq_decide.mpr ⟨fun hskip => Or.inr hskip.2, fun hskip => ⟨hpos, ?_⟩⟩
  exact hskip.resolve_left (by omega)

/-- The outputs that the proof carrier keeps are those that the signature carrier keeps and that
have a script. -/
theorem filter_zkKept (vout : List TxOut) :
    vout.filter (kept zkSkip (zkIsCarrier (carrierSpk kp))) =
      (vout.filter (kept pqcSkip (pqcIsCarrier kp))).filter fun out => out.scriptPubkey ≠ [] := by
  rw [List.filter_filter]
  apply List.filter_congr
  intro out _
  rw [kept, kept, pqcIsCarrier_eq]
  by_cases hempty : out.scriptPubkey = []
  · have hskip : zkSkip out = true := decide_eq_true (Or.inl (by rw [hempty]; rfl))
    rw [hskip]
    simp [hempty]
  · rw [pqcSkip_eq hempty]
    simp [hempty]

/-- **The outputs.** The same ones are kept if and only if each has a script. -/
theorem zkTxBase_vout_iff (txc : Tx) :
    (zkTxBase txc (carrierSpk kp)).vout = pqcBaseVout kp txc ↔ ∀ out ∈ txc.vout,
    out.scriptPubkey ≠ [] := by
  constructor
  · intro heq out hout hempty
    have hlength := congrArg List.length heq
    rw [zkTxBase, pqcBaseVout, baseOutputs, baseOutputs, length_restoreFirst, length_restoreFirst,
      foldl_splitOutput_snd, foldl_splitOutput_snd, List.nil_append, List.nil_append,
        filter_zkKept] at hlength
    have hall := List.length_filter_eq_length_iff.mp hlength
    have hkept : kept pqcSkip (pqcIsCarrier kp) out = true := by
      have hcarrier : out.scriptPubkey ≠ carrierSpk kp := by
        obtain ⟨script, hspk⟩ := carrierSpk_eq_cons kp
        rw [hempty, hspk]
        exact (List.cons_ne_nil _ _).symm
      rw [kept, pqcIsCarrier_eq, zkIsCarrier, decide_eq_false hcarrier, pqcSkip, hempty]
      rfl
    exact of_decide_eq_true (hall out (List.mem_filter.mpr ⟨hout, hkept⟩)) hempty
  · intro hscripts
    have hfold : ∀ s, txc.vout.foldl (splitOutput zkSkip (zkIsCarrier (carrierSpk kp))) s =
        txc.vout.foldl (splitOutput pqcSkip (pqcIsCarrier kp)) s := by
      intro s
      apply List.foldl_ext
      intro t out hout
      rw [splitOutput, splitOutput, pqcIsCarrier_eq, pqcSkip_eq (hscripts out hout)]
    rw [zkTxBase, pqcBaseVout, baseOutputs, baseOutputs]
    dsimp only
    rw [hfold]

/-- The copied inputs have their scripts if and only if none of these is empty. -/
theorem mapM_copyIn (vin : List TxIn) :
    (vin.map copyIn).mapM CopiedIn.toTxIn = if ∀ txIn ∈ vin, txIn.scriptSig ≠ [] then
    some vin else none := by
  induction vin with
  | nil => rfl
  | cons txIn vin ih =>
    rw [List.map_cons, List.mapM_cons, ih]
    by_cases hempty : txIn.scriptSig = []
    · have hcopy : (copyIn txIn).toTxIn = none := by
        rw [copyIn, hempty]
        rfl
      have hnot : ¬ ∀ other ∈ txIn :: vin, other.scriptSig ≠ [] :=
        fun h => h txIn List.mem_cons_self hempty
      rw [hcopy, if_neg hnot]
      rfl
    · have hcopy : (copyIn txIn).toTxIn = some txIn := by
        rw [copyIn, if_pos (List.length_pos_iff.mpr hempty)]
        rfl
      rw [hcopy]
      by_cases hrest : ∀ other ∈ vin, other.scriptSig ≠ []
      · have hall : ∀ other ∈ txIn :: vin, other.scriptSig ≠ [] :=
          List.forall_mem_cons.mpr ⟨hempty, hrest⟩
        rw [if_pos hrest, if_pos hall]
        rfl
      · have hnot : ¬ ∀ other ∈ txIn :: vin, other.scriptSig ≠ [] :=
          fun h => hrest (List.forall_mem_cons.mp h).2
        rw [if_neg hrest, if_neg hnot]
        rfl

/-- **The two carriers.** For a transaction with a signer, the verification of a reveal reconstructs
the same outputs as the other carrier, and the same hash but for its first byte, if and only if no
input and no output has an empty script. -/
theorem verifyReveal_iff (verify : PqcAlgo → Bytes → Bytes → Bytes → Bool) (algo : PqcAlgo)
    {txcRaw pk sig more spk : Bytes} {txc : Tx} (hde : txDeserialize txcRaw = some (txc, more))
    (hspk : extractSignerP2pkhSpk kp txc = some spk) (hpk : pk ≠ []) (hsig : sig ≠ []) :
    ((zkTxBase txc (carrierSpk kp)).vout = pqcBaseVout kp txc ∧
      ∃ verified sighash, verifyReveal kp verify algo txcRaw pk sig = some (verified, sighash) ∧
        zkComputeTxBaseSighash kp txc spk (carrierSpk kp) = .ok (0x00 :: sighash.tail)) ↔
      (∀ txIn ∈ txc.vin, txIn.scriptSig ≠ []) ∧ ∀ out ∈ txc.vout, out.scriptPubkey ≠ [] := by
  have hraw : txcRaw ≠ [] := by
    rintro rfl
    cases hde
  have hargs : ¬ (txcRaw.length = 0 ∨ pk.length = 0 ∨ sig.length = 0) := by
    rintro (h | h | h)
    · exact hraw (List.length_eq_zero_iff.mp h)
    · exact hpk (List.length_eq_zero_iff.mp h)
    · exact hsig (List.length_eq_zero_iff.mp h)
  have hvin : 0 < txc.vin.length := by
    apply List.length_pos_iff.mpr
    intro hnil
    rw [extractSignerP2pkhSpk, hnil] at hspk
    cases hspk
  have hreveal : verifyReveal kp verify algo txcRaw pk sig =
      match pqcBaseSighash kp txc spk with
      | none => none
      | some none => some (false, List.replicate 32 0)
      | some (some sighash) => some (verify algo pk sighash.1 sig, sighash.1) := by
    unfold verifyReveal
    rw [if_neg hargs, hde]
    dsimp only
    rw [revealSignerSpk_eq, hspk]
  rw [zkTxBase_vout_iff, and_comm]
  apply and_congr_left
  intro hvout
  have hsame : zkTxBase txc (carrierSpk kp) =
      { version := txc.version, vin := txc.vin, vout := pqcBaseVout kp txc
        locktime := txc.locktime } := by
    rw [← (zkTxBase_vout_iff kp txc).mpr hvout]
    rfl
  by_cases hscripts : ∀ txIn ∈ txc.vin, txIn.scriptSig ≠ []
  · refine iff_of_true ?_ hscripts
    have hhash : (txSighash kp.toPlatform (zkTxBase txc (carrierSpk kp)) spk 0
      SIGHASH_ALL).isSome := by
      have hlength : (zkTxBase txc (carrierSpk kp)).vin.length = txc.vin.length := rfl
      unfold txSighash sighashTx
      rw [hlength, if_neg (Nat.not_le.mpr hvin)]
      rfl
    obtain ⟨sighash, hsighash⟩ := Option.isSome_iff_exists.mp hhash
    have hpqc : pqcBaseSighash kp txc spk = some (some sighash) := by
      rw [pqcBaseSighash, if_neg (Nat.not_le.mpr hvin), mapM_copyIn, if_pos hscripts,
        Option.map_some, ← hsame, hsighash]
    refine ⟨verify algo pk sighash.1 sig, sighash.1, ?_, ?_⟩
    · rw [hreveal, hpqc]
    · rw [zkComputeTxBaseSighash, hsighash]
  · refine iff_of_false ?_ hscripts
    rintro ⟨verified, sighash, hverify, -⟩
    have hpqc : pqcBaseSighash kp txc spk = none := by
      rw [pqcBaseSighash, if_neg (Nat.not_le.mpr hvin), mapM_copyIn, if_neg hscripts,
        Option.map_none]
    rw [hreveal, hpqc] at hverify
    cases hverify

/-- The script of a signer: a signature of 71 bytes and a key. -/
def sampleSigned : Bytes := [71, 0x30] ++ List.replicate 70 0 ++ [33] ++ List.replicate 33 2

theorem txDeserialize_sample (out : TxOut) (hscript : out.scriptPubkey.length < 2 ^ 32) :
    txDeserialize (txSerialize (sampleTx sampleSigned [out])) =
      some (sampleTx sampleSigned [out], []) := by
  have hsigned : sampleSigned.length < 2 ^ 32 := by decide
  have hsized : (sampleTx sampleSigned [out]).Sized :=
    { vin := show 1 < 2 ^ 32 by decide
      vout := show 1 < 2 ^ 32 by decide
      scriptSig := List.forall_mem_singleton.mpr hsigned
      scriptPubkey := List.forall_mem_singleton.mpr hscript }
  have h := @txDeserializeEx_serialize _ hsized true (fun _ => List.cons_ne_nil _ _) []
  rwa [List.append_nil] at h

/-- The script of the signer that is read from it. -/
def sampleSigner : Bytes := [0x76, 0xa9, 0x14] ++ (sampleKeys.getHash160 (List.replicate 33 2)).1 ++
    [0x88, 0xac]

theorem extractSignerP2pkhSpk_sample (vout : List TxOut) :
    extractSignerP2pkhSpk sampleKeys (sampleTx sampleSigned vout) = some sampleSigner := rfl

/-- The theorem on a transaction with one output. -/
theorem verifyReveal_iff_sample :
    ((zkTxBase (sampleTx sampleSigned [{ value := 1, scriptPubkey := [0x51] }])
      (carrierSpk sampleKeys)).vout =
        pqcBaseVout sampleKeys (sampleTx sampleSigned [{ value := 1, scriptPubkey := [0x51] }]) ∧
      ∃ verified sighash,
        verifyReveal sampleKeys (fun _ _ _ _ => true) .falcon
          (txSerialize (sampleTx sampleSigned [{ value := 1, scriptPubkey := [0x51] }])) [1] [2] =
            some (verified, sighash) ∧
        zkComputeTxBaseSighash sampleKeys
          (sampleTx sampleSigned [{ value := 1, scriptPubkey := [0x51] }]) sampleSigner
          (carrierSpk sampleKeys) = .ok (0x00 :: sighash.tail)) ↔
      (∀ txIn ∈ (sampleTx sampleSigned [{ value := 1, scriptPubkey := [0x51] }]).vin,
        txIn.scriptSig ≠ []) ∧
        ∀ out ∈ (sampleTx sampleSigned [{ value := 1, scriptPubkey := [0x51] }]).vout,
          out.scriptPubkey ≠ [] :=
  verifyReveal_iff sampleKeys (fun _ _ _ _ => true) .falcon
    (txDeserialize_sample { value := 1, scriptPubkey := [0x51] } (by decide))
      (extractSignerP2pkhSpk_sample _)
    (List.cons_ne_nil _ _) (List.cons_ne_nil _ _)

/-- An output with an empty script is kept by one of them alone. -/
theorem not_verifyReveal : ¬ ∀ (kp : KeyPlatform) (verify : PqcAlgo → Bytes → Bytes → Bytes → Bool)
    (algo : PqcAlgo) (txcRaw pk sig more spk : Bytes) (txc : Tx), txDeserialize txcRaw =
    some (txc, more) →
      extractSignerP2pkhSpk kp txc = some spk → pk ≠ [] → sig ≠ [] →
      (zkTxBase txc (carrierSpk kp)).vout = pqcBaseVout kp txc ∧
        ∃ verified sighash, verifyReveal kp verify algo txcRaw pk sig = some (verified, sighash) ∧
          zkComputeTxBaseSighash kp txc spk (carrierSpk kp) = .ok (0x00 :: sighash.tail) := by
  intro hall
  have hsame := (hall sampleKeys (fun _ _ _ _ => true) .falcon _ [1] [2] _ _ _
    (txDeserialize_sample { value := 1, scriptPubkey := [] } (by decide))
      (extractSignerP2pkhSpk_sample _)
    (List.cons_ne_nil _ _) (List.cons_ne_nil _ _)).1
  have hscripts := (zkTxBase_vout_iff sampleKeys _).mp hsame
  exact hscripts { value := 1, scriptPubkey := [] } (List.mem_singleton.mpr rfl) rfl

end TxBase

end Libdogecoin
