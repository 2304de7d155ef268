/-
# The byte formats of Raccoon-G

The keys and signatures of `thrc.c` : coefficients modulo `q` in seven bytes, and the coefficients
of a hint, which are centered modulo `q_w`, in two.

* `deserializePolyLe7_append`, `deserializeVec_append` : polynomials that were written are read;
* `deserializePkInto_serializePk`, `deserializeSkInto_serializeSk` : so are keys;
* `deserializeSignature_serializeSignature` : and signatures, with hints as the signer centers them.

Checks of null pointers are left out.
-/
import Libdogecoin.FixedRecords
import Libdogecoin.Ntt
import Libdogecoin.Serialize

namespace Libdogecoin

namespace Raccoong

open FixedRecords LittleEndian

/-! ## Parameters -/

/-- `RACCOONG_K`. -/
def RACCOONG_K : ℕ := 9

/-- `RACCOONG_ELL`. -/
def RACCOONG_ELL : ℕ := 9

/-- `RACCOONG_A_SEED_BYTES`. -/
def RACCOONG_A_SEED_BYTES : ℕ := 16

/-- `RACCOONG_COEFF_BYTES`. -/
def RACCOONG_COEFF_BYTES : ℕ := 7

/-- `RACCOONG_PK_BYTES`. -/
def RACCOONG_PK_BYTES : ℕ := RACCOONG_A_SEED_BYTES + RACCOONG_K * 256 * RACCOONG_COEFF_BYTES

/-- `RACCOONG_SK_BYTES`. -/
def RACCOONG_SK_BYTES : ℕ := RACCOONG_PK_BYTES + RACCOONG_ELL * 256 * RACCOONG_COEFF_BYTES

/-- `RACCOONG_NU_W`. -/
def RACCOONG_NU_W : UInt64 := 38

/-- `RACCOONG_Q_W`. -/
def RACCOONG_Q_W : UInt64 := RACCOONG_Q >>> RACCOONG_NU_W

/-- `RACCOONG_H_COEFF_BYTES`. -/
def RACCOONG_H_COEFF_BYTES : ℕ := 2

/-- `RACCOONG_C_HASH_BYTES`. -/
def RACCOONG_C_HASH_BYTES : ℕ := 32

/-- `RACCOONG_SIG_BYTES`. -/
def RACCOONG_SIG_BYTES : ℕ :=
  RACCOONG_C_HASH_BYTES + RACCOONG_ELL * 256 * RACCOONG_COEFF_BYTES + RACCOONG_K * 256 *
    RACCOONG_H_COEFF_BYTES

/-- A vector of polynomials. -/
abbrev PolyVec (n : ℕ) := Fin n → Polyr

/-- The coefficients of a hint, `int16_t[RACCOONG_K][256]`. -/
abbrev Hints := Fin RACCOONG_K → Fin RACCOONG_N → Int16

theorem toNat_Q_W : RACCOONG_Q_W.toNat = 2048 := by decide

/-! ## Polynomials -/

/-- The polynomial with given coefficients. -/
def Polyr.ofFn (g : Fin RACCOONG_N → UInt64) : Polyr := ⟨List.ofFn g, by rw [List.length_ofFn]; rfl⟩

/-- `serialize_poly_le7`. -/
def serializePolyLe7 (p : Polyr) : Bytes :=
  (List.ofFn fun i : Fin RACCOONG_N => toBytes RACCOONG_COEFF_BYTES (p.get i).toNat).flatten

/-- One coefficient for `deserialize_poly_le7`. -/
def deserializeCoeffLe7 (src : Bytes) : Option UInt64 :=
  let c := UInt64.ofNat (ofBytes (src.take RACCOONG_COEFF_BYTES))
  if c ≥ RACCOONG_Q then none else some c

/-- `deserialize_poly_le7`. -/
def deserializePolyLe7 (src : Bytes) : Option Polyr :=
  (collect fun i : Fin RACCOONG_N => deserializeCoeffLe7 (src.drop (RACCOONG_COEFF_BYTES * i))).map
  Polyr.ofFn

/-- The loop that serializes a vector. -/
def serializeVec {n : ℕ} (v : PolyVec n) :
    Bytes := (List.ofFn fun i => serializePolyLe7 (v i)).flatten

/-- The loop that deserializes a vector. -/
def deserializeVec (n : ℕ) (src : Bytes) : Option (PolyVec n) :=
  collect fun i : Fin n => deserializePolyLe7 (src.drop (RACCOONG_COEFF_BYTES * RACCOONG_N * i))

theorem coe_ofFn (g : Fin RACCOONG_N → UInt64) : (Polyr.ofFn g).1 = List.ofFn g := by
  rw [Polyr.ofFn]

variable {n sigLen : ℕ} {aSeed src sk cHash : Bytes} {t : PolyVec RACCOONG_K}
  {s z : PolyVec RACCOONG_ELL}
  {x : ℤ} {c : UInt64} {v : PolyVec n} {h : Hints}

theorem ofFn_getD {α : Type} (l : List α) (d : α) (h : l.length = n) :
    List.ofFn (fun i : Fin n => l.getD i d) = l := by
  subst h
  apply List.ext_getElem
  · exact List.length_ofFn
  · intro i _ hi
    rw [List.getElem_ofFn, List.getD_eq_getElem?_getD, List.getElem?_eq_getElem hi,
      Option.getD_some]

theorem ofFn_get (p : Polyr) : Polyr.ofFn (fun i => p.get i) = p := by
  have hlen : p.1.length = RACCOONG_N := p.2
  have hlist := ofFn_getD p.1 0 hlen
  apply Subtype.ext
  rw [coe_ofFn]
  exact hlist

theorem length_serializePolyLe7 (p : Polyr) :
    (serializePolyLe7 p).length = RACCOONG_COEFF_BYTES * RACCOONG_N :=
  length_flatten_ofFn fun _ => length_toBytes _ _

theorem length_serializeVec (v : PolyVec n) :
    (serializeVec v).length = RACCOONG_COEFF_BYTES * RACCOONG_N * n :=
  length_flatten_ofFn fun i => length_serializePolyLe7 (v i)

/-- A reduced coefficient that was written is read. -/
theorem deserializeCoeffLe7_append (hc : c.toNat < q) (rest : Bytes) :
    deserializeCoeffLe7 (toBytes RACCOONG_COEFF_BYTES c.toNat ++ rest) = some c := by
  have hlen := length_toBytes RACCOONG_COEFF_BYTES c.toNat
  have hlt : c.toNat < 256 ^ RACCOONG_COEFF_BYTES := hc.trans (by decide)
  have hnot : ¬ c ≥ RACCOONG_Q := by
    rw [ge_iff_le, UInt64.le_iff_toNat_le, toNat_Q]
    omega
  rw [deserializeCoeffLe7, List.take_left' hlen, ofBytes_toBytes_of_lt hlt, UInt64.ofNat_toNat]
  exact if_neg hnot

/-- A reduced polynomial that was written is read. -/
theorem deserializePolyLe7_append {p : Polyr} (hp : Reduced p) (rest : Bytes) :
    deserializePolyLe7 (serializePolyLe7 p ++ rest) = some p := by
  have hlen : ∀ i : Fin RACCOONG_N, (toBytes RACCOONG_COEFF_BYTES (p.get i).toNat).length =
    RACCOONG_COEFF_BYTES :=
    fun _ => length_toBytes _ _
  have hread := @collect_drop_flatten _ _ _ _ deserializeCoeffLe7 (fun c =>
    toBytes RACCOONG_COEFF_BYTES c.toNat)
    (fun i : Fin RACCOONG_N => p.get i) hlen
    (fun i rest => deserializeCoeffLe7_append (hp.get_lt i) rest) rest
  rw [deserializePolyLe7, serializePolyLe7, hread, Option.map_some, ofFn_get]

/-- A vector of reduced polynomials that was written is read. -/
theorem deserializeVec_append (hv : ∀ i, Reduced (v i)) (rest : Bytes) :
    deserializeVec n (serializeVec v ++ rest) = some v :=
  collect_drop_flatten (fun i => length_serializePolyLe7 (v i))
    (fun i rest => deserializePolyLe7_append (hv i) rest) rest

theorem deserializeVec_serializeVec (hv : ∀ i, Reduced (v i)) :
    deserializeVec n (serializeVec v) = some v := by
  have h := deserializeVec_append hv []
  rwa [List.append_nil] at h

/-- A coefficient that is read is reduced. -/
theorem lt_of_deserializeCoeffLe7 (h : deserializeCoeffLe7 src = some c) : c.toNat < q := by
  simp only [deserializeCoeffLe7] at h
  split at h
  · cases h
  · next hlt =>
      obtain rfl := Option.some.inj h
      rw [ge_iff_le, UInt64.le_iff_toNat_le, toNat_Q] at hlt
      omega

theorem reduced_ofFn {g : Fin RACCOONG_N → UInt64} (h : ∀ i, (g i).toNat < q) :
    Reduced (Polyr.ofFn g) := by
  intro c hc
  rw [coe_ofFn] at hc
  obtain ⟨i, rfl⟩ := List.mem_ofFn.mp hc
  exact h i

/-- And so are the polynomials that are read. -/
theorem reduced_of_deserializeVec (h : deserializeVec n src = some v) (i : Fin n) :
    Reduced (v i) := by
  obtain ⟨g, hg, heq⟩ := Option.map_eq_some_iff.mp (collect_eq_some_iff.mp h i)
  rw [← heq]
  apply reduced_ofFn
  intro j
  exact lt_of_deserializeCoeffLe7 (collect_eq_some_iff.mp hg j)

/-! ## Keys -/

/-- `raccoong_serialize_pk`. -/
def serializePk (aSeed : Bytes) (t : PolyVec RACCOONG_K) : Bytes := aSeed ++ serializeVec t

/-- `raccoong_serialize_sk`. -/
def serializeSk (aSeed : Bytes) (t : PolyVec RACCOONG_K) (s : PolyVec RACCOONG_ELL) : Bytes :=
  serializePk aSeed t ++ serializeVec s

/-- `deserialize_pk_into`, with room for the polynomials. -/
def deserializePkInto (pk : Bytes) : Option (Bytes × PolyVec RACCOONG_K) :=
  if pk.length ≠ RACCOONG_PK_BYTES then none
  else (deserializeVec RACCOONG_K (pk.drop RACCOONG_A_SEED_BYTES)).map fun t =>
    (pk.take RACCOONG_A_SEED_BYTES, t)

/-- `deserialize_sk_into`, with room for the polynomials. -/
def deserializeSkInto (sk : Bytes) : Option (Bytes × PolyVec RACCOONG_K × PolyVec RACCOONG_ELL) :=
  if sk.length ≠ RACCOONG_SK_BYTES then none
  else do
    let (aSeed, t) ← deserializePkInto (sk.take RACCOONG_PK_BYTES)
    let s ← deserializeVec RACCOONG_ELL (sk.drop RACCOONG_PK_BYTES)
    some (aSeed, t, s)

theorem length_serializePk (hseed : aSeed.length = RACCOONG_A_SEED_BYTES) (t : PolyVec RACCOONG_K) :
    (serializePk aSeed t).length = RACCOONG_PK_BYTES := by
  rw [serializePk, List.length_append, hseed, length_serializeVec]
  rfl

/-- A public key that was written is read. -/
theorem deserializePkInto_serializePk (hseed : aSeed.length = RACCOONG_A_SEED_BYTES)
    (ht : ∀ i, Reduced (t i)) :
    deserializePkInto (serializePk aSeed t) = some (aSeed, t) := by
  have hlen := length_serializePk hseed t
  rw [deserializePkInto, if_neg (not_not_intro hlen), serializePk, List.drop_left' hseed,
    List.take_left' hseed, deserializeVec_serializeVec ht]
  rfl

/-- A secret key that was written is read. -/
theorem deserializeSkInto_serializeSk (hseed : aSeed.length = RACCOONG_A_SEED_BYTES)
    (ht : ∀ i, Reduced (t i)) (hs : ∀ i, Reduced (s i)) :
    deserializeSkInto (serializeSk aSeed t s) = some (aSeed, t, s) := by
  have hpk := length_serializePk hseed t
  have hlen : (serializeSk aSeed t s).length = RACCOONG_SK_BYTES := by
    rw [serializeSk, List.length_append, hpk, length_serializeVec]
    rfl
  rw [deserializeSkInto, if_neg (not_not_intro hlen), serializeSk, List.take_left' hpk,
    List.drop_left' hpk, deserializePkInto_serializePk hseed ht, deserializeVec_serializeVec hs]
  rfl

/-- The public key stands in front of the secret one. -/
theorem deserializePkInto_of_deserializeSkInto (h : deserializeSkInto sk = some (aSeed, t, s)) :
    deserializePkInto (sk.take RACCOONG_PK_BYTES) = some (aSeed, t) := by
  rw [deserializeSkInto] at h
  split at h
  · cases h
  · obtain ⟨⟨aSeed', t'⟩, hpk, htail⟩ := Option.bind_eq_some_iff.mp h
    obtain ⟨s', -, heq⟩ := Option.bind_eq_some_iff.mp htail
    obtain ⟨rfl, rfl, rfl⟩ := Prod.mk.inj (Option.some.inj heq)
    exact hpk

/-- A public key that is accepted is written from what is read of it. -/
theorem of_deserializePkInto {pk : Bytes} (h : deserializePkInto pk = some (aSeed, t)) :
    pk.length = RACCOONG_PK_BYTES ∧ aSeed = pk.take RACCOONG_A_SEED_BYTES ∧
      aSeed.length = RACCOONG_A_SEED_BYTES ∧ ∀ i, Reduced (t i) := by
  rw [deserializePkInto] at h
  split at h
  · cases h
  · next hlen =>
      obtain ⟨t', hvec, heq⟩ := Option.map_eq_some_iff.mp h
      obtain ⟨rfl, rfl⟩ := Prod.mk.inj heq
      have hlen' : pk.length = RACCOONG_PK_BYTES := not_not.mp hlen
      refine ⟨hlen', rfl, ?_, reduced_of_deserializeVec hvec⟩
      rw [List.length_take, hlen']
      rfl

/-- The secret polynomials of a key that is accepted are reduced. -/
theorem reduced_of_deserializeSkInto (h : deserializeSkInto sk = some (aSeed, t, s))
    (i : Fin RACCOONG_ELL) :
    Reduced (s i) := by
  rw [deserializeSkInto] at h
  split at h
  · cases h
  · obtain ⟨_, -, htail⟩ := Option.bind_eq_some_iff.mp h
    obtain ⟨s', hs, heq⟩ := Option.bind_eq_some_iff.mp htail
    obtain ⟨rfl, rfl, rfl⟩ := Prod.mk.inj (Option.some.inj heq)
    exact reduced_of_deserializeVec hs i

/-! ## Signatures -/

/-- `RACCOONG_Q_W` as an `int32_t`. -/
def Qw : ℤ := (RACCOONG_Q_W.toNat : ℤ)

/-- The remainder modulo `q_w`, made non-negative as in `raccoong_serialize_signature`,
`thrc_sign_internal` and `thrc_verify_internal`. -/
def modQw (v : ℤ) : ℤ :=
  let u := v.tmod Qw
  if u < 0 then u + Qw else u

/-- `center_qw`, as also in `raccoong_deserialize_signature` and `thrc_sign_internal`. -/
def centerQw (x : ℤ) : ℤ := if x > Qw / 2 then x - Qw else x

/-- The two bytes of a coefficient of a hint. -/
def serializeHint (v : Int16) : Bytes := toBytes RACCOONG_H_COEFF_BYTES (modQw v.toInt).toNat

/-- One coefficient of a hint. -/
def deserializeHint (src : Bytes) : Option Int16 :=
  let u := ofBytes (src.take RACCOONG_H_COEFF_BYTES)
  if u ≥ RACCOONG_Q_W.toNat then none else some (Int16.ofInt (centerQw u))

/-- One polynomial of a hint. -/
def serializeHintRow (h : Fin RACCOONG_N → Int16) :
    Bytes := (List.ofFn fun j => serializeHint (h j)).flatten

/-- One polynomial of a hint. -/
def deserializeHintRow (src : Bytes) : Option (Fin RACCOONG_N → Int16) :=
  collect fun j : Fin RACCOONG_N => deserializeHint (src.drop (RACCOONG_H_COEFF_BYTES * j))

/-- `raccoong_serialize_signature`, with the size of the buffer. -/
def serializeSignature (sigLen : ℕ) (cHash : Bytes) (z : PolyVec RACCOONG_ELL) (h : Hints) :
    Option Bytes :=
  if sigLen < RACCOONG_SIG_BYTES then none
  else if (List.ofFn z).any fun p => p.1.any fun c => decide (c ≥ RACCOONG_Q) then none
  else some (cHash ++ serializeVec z ++ (List.ofFn fun i => serializeHintRow (h i)).flatten)

/-- `raccoong_deserialize_signature`. -/
def deserializeSignature (sig : Bytes) : Option (Bytes × PolyVec RACCOONG_ELL × Hints) :=
  if sig.length ≠ RACCOONG_SIG_BYTES then none
  else do
    let p := sig.drop RACCOONG_C_HASH_BYTES
    let z ← deserializeVec RACCOONG_ELL p
    let p := p.drop (RACCOONG_COEFF_BYTES * RACCOONG_N * RACCOONG_ELL)
    let h ← collect fun i : Fin RACCOONG_K =>
      deserializeHintRow (p.drop (RACCOONG_H_COEFF_BYTES * RACCOONG_N * i))
    some (sig.take RACCOONG_C_HASH_BYTES, z, h)

theorem Qw_eq : Qw = 2048 := by decide

/-- It is the remainder. -/
theorem modQw_eq (v : ℤ) : modQw v = v % 2048 := by
  have hlt := Int.tmod_lt_of_pos v (show (0 : ℤ) < 2048 by decide)
  have hgt := Int.lt_tmod_of_pos v (show (0 : ℤ) < 2048 by decide)
  have hdiv := Int.mul_tdiv_add_tmod v 2048
  simp only [modQw, Qw_eq]
  split
  · omega
  · omega

/-- The remainder lies below the modulus. -/
theorem modQw_mem (v : ℤ) : 0 ≤ modQw v ∧ modQw v < 2048 := by
  rw [modQw_eq]
  omega

theorem centerQw_mem (h0 : 0 ≤ x) (hlt : x < 2048) : -1024 < centerQw x ∧ centerQw x ≤ 1024 := by
  have hhalf : Qw / 2 = 1024 := by decide
  rw [centerQw, hhalf, Qw_eq]
  split
  · omega
  · omega

/-- Centering is undone by the remainder. -/
theorem modQw_centerQw (h0 : 0 ≤ x) (hlt : x < 2048) : modQw (centerQw x) = x := by
  have hhalf : Qw / 2 = 1024 := by decide
  rw [modQw_eq, centerQw, hhalf, Qw_eq]
  split
  · omega
  · omega

/-- And the other way around. -/
theorem centerQw_modQw {v : ℤ} (hgt : -1024 < v) (hle : v ≤ 1024) : centerQw (modQw v) = v := by
  have hhalf : Qw / 2 = 1024 := by decide
  rw [modQw_eq, centerQw, hhalf, Qw_eq]
  split
  · omega
  · omega

theorem toInt_ofInt_centerQw (h0 : 0 ≤ x) (hlt : x < 2048) :
    (Int16.ofInt (centerQw x)).toInt = centerQw x := by
  obtain ⟨hgt, hle⟩ := centerQw_mem h0 hlt
  exact Int16.toInt_ofInt_of_le (by omega) (by omega)

/-- A hint that is centered. -/
def Centered (v : Int16) : Prop := -1024 < v.toInt ∧ v.toInt ≤ 1024

/-- A centered hint that was written is read. -/
theorem deserializeHint_append {v : Int16} (hv : Centered v) (rest : Bytes) :
    deserializeHint (serializeHint v ++ rest) = some v := by
  obtain ⟨h0, hlt⟩ := modQw_mem v.toInt
  have hlen : (serializeHint v).length = RACCOONG_H_COEFF_BYTES := length_toBytes _ _
  have hbytes : ofBytes (serializeHint v) = (modQw v.toInt).toNat :=
    ofBytes_toBytes_of_lt (show (modQw v.toInt).toNat < 256 ^ 2 by omega)
  have hnot : ¬ (modQw v.toInt).toNat ≥ RACCOONG_Q_W.toNat := by
    rw [toNat_Q_W]
    omega
  have hcast : ((modQw v.toInt).toNat : ℤ) = modQw v.toInt := Int.toNat_of_nonneg h0
  rw [deserializeHint, List.take_left' hlen, hbytes, if_neg hnot, hcast, centerQw_modQw hv.1 hv.2,
    Int16.ofInt_toInt]

theorem length_serializeHintRow (h : Fin RACCOONG_N → Int16) :
    (serializeHintRow h).length = RACCOONG_H_COEFF_BYTES * RACCOONG_N :=
  length_flatten_ofFn fun _ => length_toBytes _ _

theorem deserializeHintRow_append {h : Fin RACCOONG_N → Int16} (hh : ∀ j, Centered (h j))
    (rest : Bytes) :
    deserializeHintRow (serializeHintRow h ++ rest) = some h := by
  have hlen : ∀ j, (serializeHint (h j)).length = RACCOONG_H_COEFF_BYTES :=
    fun _ => length_toBytes _ _
  rw [deserializeHintRow, serializeHintRow]
  exact collect_drop_flatten hlen (fun j rest => deserializeHint_append (hh j) rest) rest

theorem serializeSignature_eq_some_iff (hz : ∀ i, Reduced (z i)) (sig : Bytes) :
    serializeSignature sigLen cHash z h = some sig ↔ RACCOONG_SIG_BYTES ≤ sigLen ∧
      cHash ++ serializeVec z ++ (List.ofFn fun i => serializeHintRow (h i)).flatten = sig := by
  have hany : ((List.ofFn z).any fun p => p.1.any fun c => decide (c ≥ RACCOONG_Q)) = false := by
    rw [List.any_eq_false]
    intro p hp
    obtain ⟨i, rfl⟩ := List.mem_ofFn.mp hp
    rw [Bool.not_eq_true, List.any_eq_false]
    intro c hc
    have hlt := hz i c hc
    rw [decide_eq_true_iff, ge_iff_le, UInt64.le_iff_toNat_le, toNat_Q]
    omega
  rw [serializeSignature, hany]
  by_cases hlen : sigLen < RACCOONG_SIG_BYTES
  · rw [if_pos hlen]
    constructor
    · intro hnone
      cases hnone
    · intro hle
      omega
  · rw [if_neg hlen, if_neg Bool.false_ne_true, Option.some.injEq]
    exact (and_iff_right (Nat.not_lt.mp hlen)).symm

/-- **Signatures.** A signature that was written, with a centered hint, is read. -/
theorem deserializeSignature_serializeSignature {sig : Bytes}
    (hhash : cHash.length = RACCOONG_C_HASH_BYTES) (hz : ∀ i, Reduced (z i))
    (hh : ∀ i j, Centered (h i j))
    (hsig : serializeSignature sigLen cHash z h = some sig) :
    sig.length = RACCOONG_SIG_BYTES ∧ deserializeSignature sig = some (cHash, z, h) := by
  obtain ⟨-, rfl⟩ := (serializeSignature_eq_some_iff hz sig).mp hsig
  have hhints : (List.ofFn fun i => serializeHintRow (h i)).flatten.length =
      RACCOONG_H_COEFF_BYTES * RACCOONG_N * RACCOONG_K :=
    length_flatten_ofFn fun i => length_serializeHintRow (h i)
  have hlen : (cHash ++ serializeVec z ++
    (List.ofFn fun i => serializeHintRow (h i)).flatten).length = RACCOONG_SIG_BYTES := by
    rw [List.length_append, List.length_append, hhash, length_serializeVec, hhints]
    rfl
  have hrows := collect_drop_flatten (fun i => length_serializeHintRow (h i))
    (fun i rest => deserializeHintRow_append (hh i) rest) []
  rw [List.append_nil] at hrows
  refine ⟨hlen, ?_⟩
  rw [deserializeSignature, if_neg (not_not_intro hlen), List.append_assoc, List.drop_left' hhash,
    List.take_left' hhash]
  dsimp only
  rw [deserializeVec_append hz, List.drop_left' (length_serializeVec z)]
  exact congrArg (fun o => o.bind fun h => some (cHash, z, h)) hrows

end Raccoong

end Libdogecoin
