/-
# Signing for a payment to the hash of a key

`dogecoin_tx_sign_input` puts the signature and the key behind what the input carries, and
`dogecoin_tx_sign_ts` calls it with the script of the input itself as the script to be signed.

* `pushes_p2pkhScriptSig_iff` : when the script of the input is the two pushes of a spend;
* `txSignTs_startsDup` : an input that carries a script of an output still does after
  `dogecoin_tx_sign_ts`;
* `txSignInput_p2pkh_iff` : a call leaves a spend if and only if the input carried nothing that is
  executed.
-/
import Libdogecoin.PsbtSpend
import Libdogecoin.ScriptClassify

namespace Libdogecoin

/-! ## Two pushes -/

variable {script scriptSig sigder pubkey privkey : Bytes} {items : List Bytes} {op : ScriptOp}
  {sp : SignPlatform} {tx : Tx}

/-- A push is an operation in front of the rest of its script. -/
theorem Pushes.exists_wire {data : Bytes} (h : Pushes script (data :: items)) :
    ∃ (op : ScriptOp) (rest : Bytes), op.Fits ∧ op.isPushdata = true ∧ op.data = data ∧
    script = op.wire ++ rest ∧
      Pushes rest items := by
  cases h with
  | @cons opcode buf _ rest _ hpush hrest =>
    obtain ⟨hfits, hscript⟩ := pushLength_eq_push hpush rfl
    refine ⟨⟨opcode, data⟩, rest, hfits, ?_, rfl, ?_, hrest⟩
    · by_contra hnot
      have halone := @pushLength_alone ⟨opcode, data⟩ (Bool.of_not_eq_true hnot) buf
      rw [halone] at hpush
      cases hpush
    · rw [hscript, ScriptOp.wire, List.append_assoc]

/-- The script of the input, with the lengths in front of the signature and the key. -/
theorem p2pkhScriptSig_eq (hsig : sigder.length < 253) (hkey : pubkey.length < 253) :
    p2pkhScriptSig scriptSig sigder pubkey =
      scriptSig ++ [UInt8.ofNat sigder.length] ++ sigder ++ [UInt8.ofNat pubkey.length] ++
        pubkey := by
  rw [p2pkhScriptSig, serVarlen_of_lt hsig, serVarlen_of_lt hkey]

/-- What ends in the length of a push stands in front of it: nothing, or the opcode that takes one
byte of length. -/
theorem front_of_header {front : Bytes} (hfits : op.Fits) (hpush : op.isPushdata = true)
    (hlow : 0 < op.data.length) (hhigh : op.data.length < 256)
    (hfront : front ++ [UInt8.ofNat op.data.length] = op.header) : front = [] ∨
    front = [opPushdata1] := by
  have hne : UInt8.ofNat op.data.length ≠ 0 := ofNat_ne_zero hlow.ne' hhigh
  have hzero : op.data.length / 256 = 0 := Nat.div_eq_of_lt hhigh
  have hcases := header_cases hfits hpush (by omega)
  rw [hzero] at hcases
  rcases hcases with ⟨-, hheader⟩ | ⟨-, hheader⟩ | hheader | hheader
  · rw [hheader] at hfront
    exact Or.inl (append_singleton_inj (hfront.trans (List.nil_append _).symm)).1
  · rw [hheader] at hfront
    exact Or.inr (append_singleton_inj hfront).1
  · rw [hheader] at hfront
    exact absurd (append_singleton_inj hfront).2 hne
  · rw [hheader] at hfront
    exact absurd (append_singleton_inj hfront).2 hne

/-- The two pushes of a spend leave nothing else in front of them. -/
theorem front_of_pushes (hlow : 2 ≤ sigder.length) (hhigh : sigder.length ≤ 73)
    (hkey : pubkey.length = 33) (h : Pushes (p2pkhScriptSig scriptSig sigder pubkey)
      [sigder, pubkey]) :
    scriptSig = [] ∨ scriptSig = [opPushdata1] := by
  rw [p2pkhScriptSig_eq (by omega) (by omega), hkey] at h
  obtain ⟨first, rest, hfits₁, hpush₁, rfl, hscript, hnext⟩ := h.exists_wire
  obtain ⟨second, rest, hfits₂, hpush₂, rfl, rfl, hend⟩ := hnext.exists_wire
  cases hend
  -- the key is the same on both sides
  have hfront : scriptSig ++ [UInt8.ofNat first.data.length] ++ first.data ++ [33] =
      first.header ++ first.data ++ second.header := by
    refine @List.append_cancel_right _ _ second.data _ ?_
    simpa [ScriptOp.wire, List.append_assoc] using hscript
  have hcases₂ := header_cases hfits₂ hpush₂ (by omega)
  rw [hkey] at hcases₂
  rcases hcases₂ with ⟨-, hheader⟩ | ⟨-, hheader⟩ | hheader | hheader
  · -- so is the signature
    rw [hheader] at hfront
    have hback := List.append_cancel_right (append_singleton_inj hfront).1
    exact front_of_header hfits₁ hpush₁ (by omega) (by omega) hback
  · -- the opcode is the last byte of the signature, and then all its bytes are its length
    rw [hheader, ← List.append_assoc] at hfront
    have hopcode := (append_singleton_inj hfront).1
    rw [List.append_assoc scriptSig, List.append_assoc first.header] at hopcode
    have hrotated := (List.append_inj' hopcode (by simp)).2
    have hlen := congrArg UInt8.toNat (eq_of_append_singleton_eq_cons hrotated.symm)
    rw [UInt8.toNat_ofNat_of_lt' (lt_of_le_of_lt hhigh (by decide))] at hlen
    have hp1 : opPushdata1.toNat = 76 := rfl
    omega
  · rw [hheader, ← List.append_assoc] at hfront
    exact absurd (append_singleton_inj hfront).2 (by decide)
  · rw [hheader, ← List.append_assoc] at hfront
    exact absurd (append_singleton_inj hfront).2 (by decide)

/-- The opcode takes the length of the signature for its own. -/
theorem pushes_of_front (hhigh : sigder.length ≤ 73) (hkey : pubkey.length = 33)
    (h : scriptSig = [] ∨ scriptSig = [opPushdata1]) :
    Pushes (p2pkhScriptSig scriptSig sigder pubkey) [sigder, pubkey] := by
  rw [p2pkhScriptSig_eq (by omega) (by omega), hkey]
  have hnat : (UInt8.ofNat sigder.length).toNat = sigder.length :=
    UInt8.toNat_ofNat_of_lt' (lt_of_le_of_lt hhigh (by decide))
  have hlast : Pushes (33 :: pubkey) [pubkey] := by
    refine .cons ?_ .nil
    rw [List.append_nil, hkey]
    rfl
  rcases h with rfl | rfl
  · have hopcode : UInt8.ofNat sigder.length < opPushdata1 := by
      rw [UInt8.lt_iff_toNat_lt, hnat]
      exact lt_of_le_of_lt hhigh (by decide)
    have hfirst : pushLength (UInt8.ofNat sigder.length) (sigder ++ 33 :: pubkey) =
        some (some (sigder.length, sigder ++ 33 :: pubkey)) := by
      unfold pushLength
      rw [if_pos hopcode, hnat]
    simpa using Pushes.cons hfirst hlast
  · have hfirst : pushLength opPushdata1 (UInt8.ofNat sigder.length :: (sigder ++ 33 :: pubkey)) =
        some (some (sigder.length, sigder ++ 33 :: pubkey)) := by
      unfold pushLength
      rw [if_neg (by decide), if_pos rfl]
      dsimp only
      rw [hnat]
    simpa using Pushes.cons hfirst hlast

theorem pushes_p2pkhScriptSig_iff (hlow : 2 ≤ sigder.length) (hhigh : sigder.length ≤ 73)
    (hkey : pubkey.length = 33) :
    Pushes (p2pkhScriptSig scriptSig sigder pubkey) [sigder, pubkey] ↔ scriptSig = [] ∨
    scriptSig = [opPushdata1] :=
  ⟨front_of_pushes hlow hhigh hkey, pushes_of_front hhigh hkey⟩

/-! ## Signing from the script of the input itself -/

/-- The loop of `dogecoin_tx_sign_ts` over the inputs with these indices. -/
def signInputs (sp : SignPlatform) (privkey : Bytes) : List ℕ → Tx → Tx × Bool
  | [], tx => (tx, true)
  | i :: rest, tx =>
    match tx.scriptSigAt i with
    | none => signInputs sp privkey rest tx
    | some scriptSig =>
      if scriptSig.length = 0 then signInputs sp privkey rest tx
      else
        let signed := txSignInput sp tx scriptSig privkey i 1
        -- an input for another key is passed over
        if signed.result ≠ .ok ∧ signed.result ≠ .noKeyMatch then (signed.tx, false)
        else signInputs sp privkey rest signed.tx

/-- `dogecoin_tx_sign_ts` : the transaction, and what is returned. -/
def txSignTs (sp : SignPlatform) (tx : Tx) (masterkey : Option HdNode) : Tx × Bool :=
  match masterkey with
  | none => (tx, false)
  | some node =>
    if node.hasPrivkey = false then (tx, false)
    else signInputs sp node.privateKey (List.range tx.vin.length) tx

/-- The first operation that is read is the first byte of the script. -/
theorem head_of_scriptGetOps (h : (scriptGetOps script).1.head? = some op) :
    script.head? = some op.op := by
  unfold scriptGetOps at h
  by_cases hlen : script.length = 0
  · rw [if_pos hlen] at h
    cases h
  · rw [if_neg hlen] at h
    cases script with
    | nil => exact absurd rfl hlen
    | cons opcode rest =>
      rw [List.length_cons, getOps] at h
      split at h
      · cases h
      · obtain rfl := Option.some.inj h
        rfl
      · split at h
        · cases h
        · obtain rfl := Option.some.inj h
          rfl

/-- A script that pays to the hash of a key begins with `OP_DUP`. -/
theorem head_of_pubkeyhash (h : (scriptClassify script).1 = .pubkeyhash) :
    script.head? = some opDup := by
  have hmatch : (scriptIsPubkeyhash (scriptGetOps script).1).isSome = true := by
    have hmatch := matches_of_classify (by rw [h]; exact TxOutType.noConfusion)
    rwa [h] at hmatch
  unfold scriptIsPubkeyhash at hmatch
  split at hmatch
  next dup hash160 pubkeyhash equalverify checksig hops =>
    split_ifs at hmatch with htemplate
    · rw [← htemplate.1]
      exact head_of_scriptGetOps (by rw [hops]; rfl)
    · cases hmatch
  next => cases hmatch

/-- A script of a multisig payment does not. -/
theorem not_multisig_of_head (h : script.head? = some opDup) :
    (scriptClassify script).1 ≠ .multisig := by
  intro htype
  have hmatch : scriptIsMultisig (scriptGetOps script).1 = true := by
    have hmatch := matches_of_classify (by rw [htype]; exact TxOutType.noConfusion)
    rwa [htype] at hmatch
  unfold scriptIsMultisig at hmatch
  cases hops : (scriptGetOps script).1 with
  | nil =>
    rw [hops] at hmatch
    cases hmatch
  | cons first rest =>
    have hfirst : first.op = opDup := by
      have hhead := head_of_scriptGetOps
        (show (scriptGetOps script).1.head? = some first by rw [hops]; rfl)
      exact Option.some.inj (hhead.symm.trans h)
    have hint : first.isOpSmallint = false := by
      rw [ScriptOp.isOpSmallint, hfirst]
      decide
    rw [hops] at hmatch
    dsimp only at hmatch
    split at hmatch
    · simp [hint] at hmatch
    · cases hmatch

/-- A script that begins with `OP_DUP` is not one of pushes. -/
theorem not_pushes_of_head (h : script.head? = some opDup) : ¬ Pushes script items := by
  intro hpushes
  cases hpushes with
  | nil => cases h
  | cons hpush hrest =>
    obtain rfl := Option.some.inj h
    cases hpush

/-- The script of an input begins with `OP_DUP`. -/
def StartsDup (tx : Tx) (i : ℕ) : Prop := ∃ scriptSig, tx.scriptSigAt i = some scriptSig ∧
    scriptSig.head? = some opDup

/-- A call for any input leaves it so. -/
theorem txSignInput_startsDup {sp : SignPlatform} {tx : Tx} {i j : ℕ} {script privkey : Bytes}
    {sighashtype : UInt32} (hstart : StartsDup tx i) (hscript : tx.scriptSigAt j = some script) :
    StartsDup (txSignInput sp tx script privkey j sighashtype).tx i := by
  obtain ⟨scriptSig, hat, hhead⟩ := hstart
  rcases txSignInput_cases sp tx script privkey j sighashtype with ⟨-, hsame⟩ | hsigns
  · rw [hsame]
    exact ⟨scriptSig, hat, hhead⟩
  · obtain ⟨before, sigder, hbefore, -, -, -, -, htype⟩ := hsigns
    have hlt : j < tx.vin.length := Tx.lt_of_scriptSigAt hbefore
    obtain rfl := Option.some.inj (hbefore.symm.trans hscript)
    by_cases hij : i = j
    -- what is put behind the script leaves its first byte
    · subst hij
      obtain rfl := Option.some.inj (hbefore.symm.trans hat)
      rcases htype with ⟨-, htx⟩ | ⟨hmultisig, -⟩
      · refine ⟨_, by rw [htx]; exact Tx.scriptSigAt_setScriptSig hlt _, ?_⟩
        rw [p2pkhScriptSig, List.append_assoc, List.append_assoc, List.append_assoc,
          List.head?_append, hhead]
        rfl
      · exact absurd hmultisig (not_multisig_of_head hhead)
    · refine ⟨scriptSig, ?_, hhead⟩
      rcases htype with ⟨-, htx⟩ | ⟨-, htx⟩
      · rw [htx, Tx.scriptSigAt_setScriptSig_of_ne hij, hat]
      · rw [htx, Tx.scriptSigAt_setScriptSig_of_ne hij, hat]

/-- **The loop** leaves every input so that begins with `OP_DUP`. -/
theorem signInputs_startsDup {i : ℕ} (indices : List ℕ) (hstart : StartsDup tx i) :
    StartsDup (signInputs sp privkey indices tx).1 i := by
  induction indices generalizing tx with
  | nil => exact hstart
  | cons j rest ih =>
    rw [signInputs]
    cases hscript : tx.scriptSigAt j with
    | none => exact ih hstart
    | some script =>
      dsimp only
      have hnext := @txSignInput_startsDup sp _ _ _ _ privkey 1 hstart hscript
      split_ifs
      · exact ih hstart
      · exact hnext
      · exact ih hnext

theorem txSignTs_startsDup {sp : SignPlatform} {masterkey : Option HdNode} {tx : Tx} {i : ℕ}
    (hstart : StartsDup tx i) : StartsDup (txSignTs sp tx masterkey).1 i := by
  unfold txSignTs
  cases masterkey with
  | none => exact hstart
  | some node =>
    dsimp only
    split_ifs
    · exact hstart
    · exact signInputs_startsDup _ hstart

/-! ## Spends -/

/-- The call has put the two pushes of a spend into the script of the input, and changed nothing
else. -/
def SignsP2pkh (sp : SignPlatform) (tx : Tx) (privkey : Bytes) (inputindex : ℕ)
    (signed : SignedInput) : Prop :=
  ∃ scriptSig sigder, signed.sigder = some sigder ∧
    signed.tx = tx.setScriptSig inputindex scriptSig ∧
    Pushes scriptSig [sigder, sp.curve.eccGetPubkey privkey]

/-- A call leaves a spend if and only if the bytes that the input carried end in front of the
signature. -/
theorem signsP2pkh_iff
    (hpubkey : ∀ privkey, sp.curve.eccVerifyPrivatekey privkey = true →
      (sp.curve.eccGetPubkey privkey).length = 33)
    {inputindex : ℕ} {sighashtype : UInt32} (htype : (scriptClassify script).1 = .pubkeyhash)
    (hat : tx.scriptSigAt inputindex = some scriptSig)
    (hok : (txSignInput sp tx script privkey inputindex sighashtype).result = .ok) :
    SignsP2pkh sp tx privkey inputindex (txSignInput sp tx script privkey inputindex sighashtype) ↔
      scriptSig = [] ∨ scriptSig = [opPushdata1] := by
  rcases txSignInput_cases sp tx script privkey inputindex sighashtype with ⟨hnot, -⟩ | hsigns
  · exact absurd hok hnot
  obtain ⟨before, sigder, hbefore, hvalid, hsigder, hlow, hhigh,
    ⟨-, htx⟩ | ⟨hmultisig, -⟩⟩ := hsigns
  · obtain rfl := Option.some.inj (hbefore.symm.trans hat)
    rw [← pushes_p2pkhScriptSig_iff hlow hhigh (hpubkey privkey hvalid)]
    constructor
    · rintro ⟨scriptSig, sigder', hsigder', htx', hpushes⟩
      obtain rfl := Option.some.inj (hsigder.symm.trans hsigder')
      have hlt := Tx.lt_of_scriptSigAt hbefore
      have hsame := congrArg (fun tx : Tx => tx.scriptSigAt inputindex) (htx.symm.trans htx')
      rw [Tx.scriptSigAt_setScriptSig hlt, Tx.scriptSigAt_setScriptSig hlt] at hsame
      rwa [Option.some.inj hsame]
    · exact fun hpushes => ⟨_, sigder, hsigder, htx, hpushes⟩
  · rw [htype] at hmultisig
    cases hmultisig

/-- **A call** that returns that all is well leaves a spend if and only if the input carried
nothing, or a single `OP_PUSHDATA1` that takes the length of the signature for its own. After
`dogecoin_tx_sign_ts` no input that carried the script to be signed is a spend. -/
theorem txSignInput_p2pkh_iff (sp : SignPlatform)
    (hpubkey : ∀ privkey, sp.curve.eccVerifyPrivatekey privkey = true →
      (sp.curve.eccGetPubkey privkey).length = 33) :
    (∀ tx script privkey inputindex sighashtype scriptSig, (scriptClassify script).1 = .pubkeyhash →
      tx.scriptSigAt inputindex = some scriptSig →
      (txSignInput sp tx script privkey inputindex sighashtype).result = .ok →
      (SignsP2pkh sp tx privkey inputindex
        (txSignInput sp tx script privkey inputindex sighashtype) ↔
        scriptSig = [] ∨ scriptSig = [opPushdata1])) ∧
    ∀ tx masterkey i script, tx.scriptSigAt i = some script →
    (scriptClassify script).1 = .pubkeyhash →
      ∃ scriptSig, (txSignTs sp tx masterkey).1.scriptSigAt i = some scriptSig ∧
        ∀ sigder pubkey, ¬ Pushes scriptSig [sigder, pubkey] := by
  constructor
  · exact fun tx script privkey inputindex sighashtype scriptSig htype hat hok =>
      signsP2pkh_iff hpubkey htype hat hok
  · intro tx masterkey i script hat htype
    obtain ⟨scriptSig, hat', hhead⟩ := @txSignTs_startsDup sp masterkey _ _
      ⟨script, hat, head_of_pubkeyhash htype⟩
    exact ⟨scriptSig, hat', fun sigder pubkey => not_pushes_of_head hhead⟩

/-- The key of bytes 1, by its hash. -/
def sampleP2pkh : Bytes := p2pkhScript (sampleSigner.getHash160 (2 :: List.replicate 32 1))

theorem classify_sampleP2pkh : (scriptClassify sampleP2pkh).1 = .pubkeyhash := by
  rw [sampleP2pkh, scriptClassify_p2pkhScript]

theorem length_sampleSigner (h : sampleSigner.curve.eccVerifyPrivatekey privkey = true) :
    (sampleSigner.curve.eccGetPubkey privkey).length = 33 := by
  have hkey : privkey.length = 32 ∧ privkey ≠ List.replicate 32 0 := of_decide_eq_true h
  show (2 :: privkey).length = 33
  rw [List.length_cons, hkey.1]

/-- The call for that key on an input that carries these bytes. -/
theorem txSignInput_sampleP2pkh (scriptSig : Bytes) :
    (txSignInput sampleSigner (unsignedTx.setScriptSig 0 scriptSig) sampleP2pkh
      (List.replicate 32 1) 0 1).result = .ok := by
  have hvin : (unsignedTx.setScriptSig 0 scriptSig).vin[0]? =
      some ⟨⟨Uint256.zero, 0⟩, scriptSig, 0xffffffff⟩ := rfl
  obtain ⟨sighash, hsighash⟩ : ∃ sighash,
    txSighash sampleSigner.toPlatform (unsignedTx.setScriptSig 0 scriptSig)
      sampleP2pkh 0 1 = some sighash := ⟨_, rfl⟩
  have hder : sampleSigner.compactToDerNormalized
    (sampleSigner.ecdsaSign (List.replicate 32 1) sighash) =
      some (sampleDer (List.replicate 64 1)) := rfl
  unfold txSignInput
  rw [hvin]
  dsimp only
  rw [if_neg (by decide), if_neg (by decide), hsighash]
  dsimp only
  rw [hder]
  dsimp only
  rw [if_neg (by decide), if_pos classify_sampleP2pkh, sampleP2pkh, scriptClassify_p2pkhScript]
  rfl

theorem txSignInput_p2pkh_unsigned :
    SignsP2pkh sampleSigner unsignedTx (List.replicate 32 1) 0
      (txSignInput sampleSigner unsignedTx sampleP2pkh (List.replicate 32 1) 0 1) :=
  ((txSignInput_p2pkh_iff sampleSigner fun _ h => length_sampleSigner h).1 unsignedTx
    sampleP2pkh _ 0 1 [] classify_sampleP2pkh rfl (txSignInput_sampleP2pkh [])).mpr (Or.inl rfl)

/-- An input that carries `OP_1` is not spent. -/
theorem not_txSignInput_p2pkh :
    ¬ ∀ (sp : SignPlatform), (∀ privkey, sp.curve.eccVerifyPrivatekey privkey = true →
      (sp.curve.eccGetPubkey privkey).length = 33) → ∀ tx script privkey inputindex sighashtype,
    (scriptClassify script).1 = .pubkeyhash →
    (txSignInput sp tx script privkey inputindex sighashtype).result = .ok →
    SignsP2pkh sp tx privkey inputindex
      (txSignInput sp tx script privkey inputindex sighashtype) := by
  intro hall
  have hok := txSignInput_sampleP2pkh [0x51]
  have hsigns := hall sampleSigner (fun _ h => length_sampleSigner h) _ sampleP2pkh _ 0 1
    classify_sampleP2pkh hok
  rw [signsP2pkh_iff (fun _ h => length_sampleSigner h) classify_sampleP2pkh rfl hok] at hsigns
  exact absurd hsigns (by decide)

end Libdogecoin
