/-
# Scripts that break off

`dogecoin_script_classify` fills a list of operations and looks at the four templates, without a
look at whether the script was read to its end. A script that breaks off behind a whole template is
classified by that template.

* `getOps_split` : what the loop over a script leaves unread is nothing, or breaks off;
* `getOps_append_of_breaksOff` : behind operations that fit, what breaks off changes nothing;
* `classifiedWhole_iff` : the scripts that are classified by all of their operations.
-/
import Libdogecoin.ScriptOps

namespace Libdogecoin

/-- What a script consists of: the operations that are read, and what is left when one cannot be
read. -/
structure SplitsInto (script : Bytes) (ops : List ScriptOp) (ok : Bool) (tail : Bytes) : Prop where
  script_eq : script = ops.flatMap ScriptOp.wire ++ tail
  fits : ∀ op ∈ ops, op.Fits
  ended : ok = true → tail = []
  broken : ok = false → breaksOff tail = true

theorem SplitsInto.cons {script rest : Bytes} {op : ScriptOp} {ops : List ScriptOp}
    {ok : Bool} {tail : Bytes} (h : SplitsInto rest ops ok tail) (hfits : op.Fits)
    (hscript : script = op.wire ++ rest) :
    SplitsInto script (op :: ops) ok tail := by
  refine ⟨?_, ?_, h.ended, h.broken⟩
  · rw [List.flatMap_cons, List.append_assoc, ← h.script_eq]
    exact hscript
  · intro op' hop
    rcases List.mem_cons.mp hop with rfl | hop
    · exact hfits
    · exact h.fits op' hop

variable {script : Bytes}

/-- What breaks off is left unread. -/
theorem splitsInto_of_breaksOff (h : breaksOff script = true) :
    SplitsInto script [] false script := by
  refine ⟨rfl, List.forall_mem_nil _, ?_, fun _ => h⟩
  intro hok
  cases hok

/-- What the loop over a script leaves unread is nothing, or breaks off. -/
theorem getOps_split : ∀ (fuel : ℕ) {script : Bytes}, script.length ≤ fuel →
    ∃ tail, SplitsInto script (getOps fuel script).1 (getOps fuel script).2 tail := by
  intro fuel
  induction fuel with
  | zero =>
    intro script hlen
    obtain rfl := List.length_eq_zero_iff.mp (Nat.le_zero.mp hlen)
    refine ⟨[], rfl, List.forall_mem_nil _, fun _ => rfl, ?_⟩
    intro hok
    cases hok
  | succ fuel ih =>
    intro script hlen
    by_cases hbreak : breaksOff script = true
    · rw [getOps_of_breaksOff hbreak]
      exact ⟨script, splitsInto_of_breaksOff hbreak⟩
    cases script with
    | nil =>
      refine ⟨[], rfl, List.forall_mem_nil _, fun _ => rfl, ?_⟩
      intro hok
      cases hok
    | cons opcode rest =>
      obtain ⟨op, behind, hfits, hscript, hne⟩ := exists_wire_of_not_breaksOff hbreak
      have hshort : behind.length ≤ fuel := by
        have hwire := List.length_pos_of_ne_nil op.wire_ne_nil
        rw [hscript, List.length_append] at hlen
        omega
      obtain ⟨tail, htail⟩ := ih hshort
      rw [hscript, getOps_wire_append hfits hne]
      exact ⟨tail, htail.cons hfits rfl⟩

/-- Behind operations that fit, what breaks off ends the loop. -/
theorem getOps_append_of_breaksOff {ops : List ScriptOp} {tail : Bytes}
    (hfits : ∀ op ∈ ops, op.Fits) (htail : breaksOff tail = true) : ∀ {fuel : ℕ},
    (ops.flatMap ScriptOp.wire).length ≤ fuel →
      getOps fuel (ops.flatMap ScriptOp.wire ++ tail) = (ops, false) := by
  induction ops with
  | nil =>
    intro fuel _
    exact getOps_of_breaksOff htail
  | cons op ops ih =>
    intro fuel hfuel
    have hwire := List.length_pos_of_ne_nil op.wire_ne_nil
    rw [List.flatMap_cons, List.length_append] at hfuel
    obtain ⟨fuel, rfl⟩ : ∃ n, fuel = n + 1 := ⟨fuel - 1, by omega⟩
    have hrest := @ih (fun op' hmem => hfits op' (List.mem_cons_of_mem _ hmem)) fuel (by omega)
    have hne : op.data ++ (ops.flatMap ScriptOp.wire ++ tail) ≠ [] := by
      intro hnil
      rw [(List.append_eq_nil_iff.mp (List.append_eq_nil_iff.mp hnil).2).2] at htail
      cases htail
    rw [List.flatMap_cons, List.append_assoc,
      getOps_wire_append (hfits op List.mem_cons_self) fun _ => hne, hrest]

/-! ## Templates -/

/-- The operations follow the template of the type. -/
def TxOutType.Matches : TxOutType → List ScriptOp → Prop
  | .nonstandard, _ => False
  | .pubkey, ops => (scriptIsPubkey ops).isSome = true
  | .pubkeyhash, ops => (scriptIsPubkeyhash ops).isSome = true
  | .scripthash, ops => (scriptIsScripthash ops).isSome = true
  | .multisig, ops => scriptIsMultisig ops = true

/-- The script is read to its end, and all its operations follow the template it is classified
by. -/
def ClassifiedWhole (script : Bytes) : Prop :=
  (scriptClassify script).1 ≠ .nonstandard →
    (scriptGetOps script).2 = true ∧ (scriptClassify script).1.Matches (scriptGetOps script).1

/-- A script that is classified has operations by one of the templates. -/
theorem matches_of_classify (h : (scriptClassify script).1 ≠ .nonstandard) :
    (scriptClassify script).1.Matches (scriptGetOps script).1 := by
  unfold scriptClassify at h ⊢
  dsimp only at h ⊢
  split_ifs at h ⊢ with h1 h2 h3 h4
  · exact h1
  · exact h2
  · exact h3
  · exact h4
  · exact h rfl

/-- Operations by a template are classified. -/
theorem classify_of_matches {script : Bytes} {type : TxOutType}
    (h : type.Matches (scriptGetOps script).1) :
    (scriptClassify script).1 ≠ .nonstandard := by
  unfold scriptClassify
  dsimp only
  split_ifs with h1 h2 h3 h4
  · exact TxOutType.noConfusion
  · exact TxOutType.noConfusion
  · exact TxOutType.noConfusion
  · exact TxOutType.noConfusion
  · cases type with
    | nonstandard => exact h.elim
    | pubkey => exact absurd h h2
    | pubkeyhash => exact absurd h h4
    | scripthash => exact absurd h h3
    | multisig => exact absurd h h1

/-- **A script is classified by all of its operations unless it breaks off behind a whole
template.** -/
theorem classifiedWhole_iff (script : Bytes) :
    ClassifiedWhole script ↔ ¬ ∃ type ops tail, TxOutType.Matches type ops ∧ (∀ op ∈ ops, op.Fits) ∧
      breaksOff tail = true ∧ script = ops.flatMap ScriptOp.wire ++ tail := by
  constructor
  · rintro hwhole ⟨type, ops, tail, hmatch, hfits, htail, rfl⟩
    have hne : ¬ (ops.flatMap ScriptOp.wire ++ tail).length = 0 := by
      intro hnil
      rw [(List.append_eq_nil_iff.mp (List.length_eq_zero_iff.mp hnil)).2] at htail
      cases htail
    have hops : scriptGetOps (ops.flatMap ScriptOp.wire ++ tail) = (ops, false) := by
      unfold scriptGetOps
      rw [if_neg hne]
      refine getOps_append_of_breaksOff hfits htail ?_
      rw [List.length_append]
      exact Nat.le_add_right _ _
    have hread := (hwhole (@classify_of_matches _ type (by rw [hops]; exact hmatch))).1
    rw [hops] at hread
    cases hread
  · intro hnone hclass
    have hmatch := matches_of_classify hclass
    refine ⟨?_, hmatch⟩
    by_contra hbroken
    rw [Bool.not_eq_true] at hbroken
    by_cases hempty : script.length = 0
    · rw [List.length_eq_zero_iff.mp hempty] at hclass
      exact hclass rfl
    have hops : scriptGetOps script = getOps script.length script := if_neg hempty
    obtain ⟨tail, htail⟩ := @getOps_split script.length script le_rfl
    rw [← hops] at htail
    exact hnone ⟨_, _, tail, hmatch, htail.fits, htail.broken hbroken, htail.script_eq⟩

/-- A script that pays to a hash, and half an operation behind it. -/
theorem not_classifiedWhole : ¬ ∀ script : Bytes, ClassifiedWhole script := by
  intro hall
  have hread := hall (p2pkhScript ⟨List.replicate 20 0, rfl⟩ ++ [opPushdata1]) (by decide)
  exact absurd hread.1 (by decide)

end Libdogecoin
