/-
# Signatures of Raccoon-G in both directions

`raccoong_serialize_signature` and `raccoong_deserialize_signature` of `thrc.c`. A hint is
documented to lie between `-q_w/2` and `q_w/2` with the lower end, and is centered with the upper
end in the place of the lower one.

* `serializeSignature_of_deserializeSignature` : what was read is written to the bytes it was read
  from;
* `coefficient_of_deserializeSignature` : the coefficients of a hint that was read;
* `signature_iff` : the signatures that keep to the documented range.
-/
import Libdogecoin.ThrcWire

namespace Libdogecoin

namespace Raccoong

open FixedRecords LittleEndian

/-! ## What was read is written -/

theorem get_ofFn (g : Fin RACCOONG_N → UInt64) (i : Fin RACCOONG_N) :
    (Polyr.ofFn g).get i = g i := by
  have hi : (i : ℕ) < (List.ofFn g).length := by
    rw [List.length_ofFn]
    exact i.2
  rw [Polyr.get, coe_ofFn, List.getD_eq_getElem?_getD, List.getElem?_eq_getElem hi,
    Option.getD_some, List.getElem_ofFn]

variable {bs src sig cHash : Bytes} {z : PolyVec RACCOONG_ELL} {h : Hints}
  {n sigLen : ℕ} {v : Int16}

/-- The front of a list is written for the number it spells. -/
theorem toBytes_ofBytes_take (hlen : n ≤ bs.length) :
    toBytes n (ofBytes (bs.take n)) = bs.take n := by
  have htake : (bs.take n).length = n := by
    rw [List.length_take]
    exact Nat.min_eq_left hlen
  have hback := toBytes_ofBytes (bs.take n)
  rwa [htake] at hback

/-- The bytes that a coefficient was read from are written for it. -/
theorem toBytes_of_deserializeCoeffLe7 {c : UInt64} (hlen : RACCOONG_COEFF_BYTES ≤ bs.length)
    (h : deserializeCoeffLe7 bs = some c) :
    toBytes RACCOONG_COEFF_BYTES c.toNat = bs.take RACCOONG_COEFF_BYTES := by
  have hlt := ofBytes_lt (bs.take RACCOONG_COEFF_BYTES)
  rw [List.length_take, Nat.min_eq_left hlen] at hlt
  simp only [deserializeCoeffLe7] at h
  split at h
  · cases h
  · obtain rfl := Option.some.inj h
    -- seven bytes have room in 64 bits
    rw [UInt64.toNat_ofNat', Nat.mod_eq_of_lt (hlt.trans (by decide)), toBytes_ofBytes_take hlen]

theorem serializePolyLe7_of_deserializePolyLe7 {p : Polyr}
    (hlen : RACCOONG_COEFF_BYTES * RACCOONG_N ≤ src.length) (h : deserializePolyLe7 src = some p) :
    serializePolyLe7 p = src.take (RACCOONG_COEFF_BYTES * RACCOONG_N) := by
  obtain ⟨g, hg, rfl⟩ := Option.map_eq_some_iff.mp h
  have hcoeffs : (fun i : Fin RACCOONG_N =>
    toBytes RACCOONG_COEFF_BYTES ((Polyr.ofFn g).get i).toNat) =
      fun i => toBytes RACCOONG_COEFF_BYTES (g i).toNat := by
    funext i
    rw [get_ofFn]
  rw [serializePolyLe7, hcoeffs]
  exact @flatten_of_collect _ _ _ _ _ (fun c : UInt64 => toBytes RACCOONG_COEFF_BYTES c.toNat) _ _
    (fun _ _ => toBytes_of_deserializeCoeffLe7) hlen hg

theorem serializeVec_of_deserializeVec {v : PolyVec n}
    (hlen : RACCOONG_COEFF_BYTES * RACCOONG_N * n ≤ src.length)
    (h : deserializeVec n src = some v) :
    serializeVec v = src.take (RACCOONG_COEFF_BYTES * RACCOONG_N * n) :=
  flatten_of_collect (fun _ _ => serializePolyLe7_of_deserializePolyLe7) hlen h

/-- What is read of the two bytes of a coefficient of a hint. -/
theorem deserializeHint_eq_some (h : deserializeHint bs = some v) :
    ofBytes (bs.take RACCOONG_H_COEFF_BYTES) < 2048 ∧
      v.toInt = centerQw (ofBytes (bs.take RACCOONG_H_COEFF_BYTES) : ℤ) := by
  simp only [deserializeHint] at h
  split at h
  · cases h
  · next hlt =>
      rw [toNat_Q_W, ge_iff_le, Nat.not_le] at hlt
      obtain rfl := Option.some.inj h
      exact ⟨hlt, toInt_ofInt_centerQw (Int.natCast_nonneg _) (by omega)⟩

/-- The bytes that a coefficient of a hint was read from are written for it. -/
theorem serializeHint_of_deserializeHint (hlen : RACCOONG_H_COEFF_BYTES ≤ bs.length)
    (h : deserializeHint bs = some v) : serializeHint v = bs.take RACCOONG_H_COEFF_BYTES := by
  obtain ⟨hlt, hv⟩ := deserializeHint_eq_some h
  -- centering is undone by the remainder, also at the upper end
  rw [serializeHint, hv, modQw_centerQw (Int.natCast_nonneg _) (by omega), Int.toNat_natCast,
    toBytes_ofBytes_take hlen]

theorem serializeHintRow_of_deserializeHintRow {h : Fin RACCOONG_N → Int16}
    (hlen : RACCOONG_H_COEFF_BYTES * RACCOONG_N ≤ src.length)
    (hread : deserializeHintRow src = some h) :
    serializeHintRow h = src.take (RACCOONG_H_COEFF_BYTES * RACCOONG_N) :=
  flatten_of_collect (fun _ _ => serializeHint_of_deserializeHint) hlen hread

/-! ## Signatures -/

/-- Where the hint starts in a signature. -/
def hintStart : ℕ := RACCOONG_C_HASH_BYTES + RACCOONG_COEFF_BYTES * RACCOONG_N * RACCOONG_ELL

/-- The two bytes of a coefficient of the hint in a signature, as a number. -/
def hintWord (sig : Bytes) (i : Fin RACCOONG_K) (j : Fin RACCOONG_N) : ℕ :=
  ofBytes ((((sig.drop hintStart).drop (RACCOONG_H_COEFF_BYTES * RACCOONG_N * i)).drop
    (RACCOONG_H_COEFF_BYTES * j)).take RACCOONG_H_COEFF_BYTES)

/-- The parts of a signature that is accepted. -/
theorem parts_of_deserializeSignature (hsig : deserializeSignature sig = some (cHash, z, h)) :
    sig.length = RACCOONG_SIG_BYTES ∧ cHash = sig.take RACCOONG_C_HASH_BYTES ∧
      deserializeVec RACCOONG_ELL (sig.drop RACCOONG_C_HASH_BYTES) = some z ∧
      (collect fun i : Fin RACCOONG_K =>
        deserializeHintRow ((sig.drop hintStart).drop (RACCOONG_H_COEFF_BYTES * RACCOONG_N * i))) =
          some h := by
  rw [deserializeSignature] at hsig
  split at hsig
  · cases hsig
  · next hlen =>
      dsimp only at hsig
      obtain ⟨z', hz, htail⟩ := Option.bind_eq_some_iff.mp hsig
      obtain ⟨h', hh, heq⟩ := Option.bind_eq_some_iff.mp htail
      obtain ⟨rfl, hrest⟩ := Prod.mk.inj (Option.some.inj heq)
      obtain ⟨rfl, rfl⟩ := Prod.mk.inj hrest
      rw [List.drop_drop] at hh
      exact ⟨not_not.mp hlen, rfl, hz, hh⟩

/-- **What was read is written to the bytes it was read from.** -/
theorem serializeSignature_of_deserializeSignature (hbuf : RACCOONG_SIG_BYTES ≤ sigLen)
    (hsig : deserializeSignature sig = some (cHash, z, h)) :
    serializeSignature sigLen cHash z h = some sig := by
  obtain ⟨hlen, rfl, hz, hh⟩ := parts_of_deserializeSignature hsig
  have hsize : RACCOONG_SIG_BYTES = hintStart + RACCOONG_H_COEFF_BYTES * RACCOONG_N *
    RACCOONG_K := rfl
  have hvec : serializeVec z = (sig.drop RACCOONG_C_HASH_BYTES).take (RACCOONG_COEFF_BYTES *
    RACCOONG_N * RACCOONG_ELL) := by
    refine serializeVec_of_deserializeVec ?_ hz
    rw [List.length_drop, hlen, hsize, hintStart]
    omega
  have hhint : (List.ofFn fun i => serializeHintRow (h i)).flatten = sig.drop hintStart := by
    have hrest : (sig.drop hintStart).length = RACCOONG_H_COEFF_BYTES * RACCOONG_N *
      RACCOONG_K := by
      rw [List.length_drop, hlen, hsize, Nat.add_sub_cancel_left]
    rw [flatten_of_collect (fun _ _ => serializeHintRow_of_deserializeHintRow)
      (Nat.le_of_eq hrest.symm) hh, ← hrest, List.take_length]
  refine (serializeSignature_eq_some_iff (reduced_of_deserializeVec hz) sig).mpr ⟨hbuf, ?_⟩
  rw [hvec, hhint, ← List.take_add]
  exact List.take_append_drop hintStart sig

/-- **The coefficients of a hint that was read**, from the numbers in the signature. -/
theorem coefficient_of_deserializeSignature (hsig : deserializeSignature sig = some (cHash, z, h))
    (i : Fin RACCOONG_K) (j : Fin RACCOONG_N) :
    hintWord sig i j < 2048 ∧ (h i j).toInt = centerQw (hintWord sig i j : ℤ) := by
  obtain ⟨-, -, -, hh⟩ := parts_of_deserializeSignature hsig
  have hrow := collect_eq_some_iff.mp hh i
  exact deserializeHint_eq_some (collect_eq_some_iff.mp hrow j)

/-- The range that is documented for the coefficients of a hint. -/
def InRange (v : Int16) : Prop := -(Qw / 2) ≤ v.toInt ∧ v.toInt < Qw / 2

/-- A coefficient that was read lies in the range unless it is the upper end. -/
theorem inRange_iff (hsig : deserializeSignature sig = some (cHash, z, h)) (i : Fin RACCOONG_K)
    (j : Fin RACCOONG_N) : InRange (h i j) ↔ hintWord sig i j ≠ 1024 := by
  obtain ⟨hlt, hv⟩ := coefficient_of_deserializeSignature hsig i j
  have hhalf : Qw / 2 = 1024 := by decide
  unfold InRange
  rw [hv, centerQw, hhalf, Qw_eq]
  split
  · omega
  · omega

/-- A signature is read back just where no coefficient is the lower end. -/
theorem deserializeSignature_iff (hhash : cHash.length = RACCOONG_C_HASH_BYTES)
    (hz : ∀ i, Reduced (z i)) (hh : ∀ i j, InRange (h i j))
    (hsig : serializeSignature sigLen cHash z h = some sig) :
    deserializeSignature sig = some (cHash, z, h) ↔ ∀ i j, (h i j).toInt ≠ -1024 := by
  have hhalf : Qw / 2 = 1024 := by decide
  constructor
  · intro hread i j
    -- no number is centered to the lower end
    obtain ⟨hlt, hv⟩ := coefficient_of_deserializeSignature hread i j
    have hmem := centerQw_mem (Int.natCast_nonneg (hintWord sig i j)) (by omega)
    rw [hv]
    omega
  · intro hne
    refine (deserializeSignature_serializeSignature hhash hz (fun i j => ?_) hsig).2
    have hrange := hh i j
    have hlow := hne i j
    unfold InRange at hrange
    rw [hhalf] at hrange
    exact ⟨by omega, by omega⟩

/-- **Signatures.** In the documented range, a signature is read back unless a coefficient of its
hint is `-q_w/2`. What is accepted is written to the same bytes, and lies in that range unless a
coefficient is `q_w/2` there. -/
theorem signature_iff {sigLen : ℕ} (hbuf : RACCOONG_SIG_BYTES ≤ sigLen) :
    (∀ cHash z h, cHash.length = RACCOONG_C_HASH_BYTES → (∀ i, Reduced (z i)) →
      (∀ i j, InRange (h i j)) →
      ∃ sig, serializeSignature sigLen cHash z h = some sig ∧
        (deserializeSignature sig = some (cHash, z, h) ↔ ∀ i j, (h i j).toInt ≠ -1024)) ∧
    ∀ sig cHash z h, deserializeSignature sig = some (cHash, z, h) →
    serializeSignature sigLen cHash z h = some sig ∧
      ((∀ i j, InRange (h i j)) ↔ ∀ i j, hintWord sig i j ≠ 1024) := by
  constructor
  · intro cHash z h hhash hz hh
    have hsig : serializeSignature sigLen cHash z h = some _ :=
      (serializeSignature_eq_some_iff hz _).mpr ⟨hbuf, rfl⟩
    exact ⟨_, hsig, deserializeSignature_iff hhash hz hh hsig⟩
  · intro sig cHash z h hsig
    refine ⟨serializeSignature_of_deserializeSignature hbuf hsig, ?_⟩
    exact forall_congr' fun i => forall_congr' fun j => inRange_iff hsig i j

/-- A response of zeros. -/
def zeroResponse : PolyVec RACCOONG_ELL := fun _ => Polyr.ofFn fun _ => 0

theorem reduced_zeroResponse (i : Fin RACCOONG_ELL) : Reduced (zeroResponse i) :=
  reduced_ofFn fun _ => by decide

/-- The theorem on a signature of zeros. -/
theorem signature_iff_sample :
    ∃ sig, serializeSignature RACCOONG_SIG_BYTES (List.replicate 32 0) zeroResponse (fun _ _ => 0) =
      some sig ∧
      deserializeSignature sig = some (List.replicate 32 0, zeroResponse, fun _ _ => 0) ∧
      ∀ i j, hintWord sig i j ≠ 1024 := by
  obtain ⟨sig, hsig, hiff⟩ := (signature_iff (Nat.le_refl RACCOONG_SIG_BYTES)).1
    (List.replicate 32 0) zeroResponse
    (fun _ _ => 0) rfl reduced_zeroResponse fun _ _ => ⟨by decide, by decide⟩
  have hread := hiff.mpr fun _ _ => by decide
  have hrange := ((signature_iff (Nat.le_refl RACCOONG_SIG_BYTES)).2 sig _ _ _ hread).2
  exact ⟨sig, hsig, hread, hrange.mp fun _ _ => ⟨by decide, by decide⟩⟩

/-- A hint of which all coefficients are the lower end of the range is read as another one. -/
theorem not_readBack :
    ¬ ∀ cHash z h, cHash.length = RACCOONG_C_HASH_BYTES → (∀ i, Reduced (z i)) →
    (∀ i j, InRange (h i j)) →
      ∃ sig, serializeSignature RACCOONG_SIG_BYTES cHash z h = some sig ∧
        deserializeSignature sig = some (cHash, z, h) := by
  intro hall
  have hlow : InRange (-1024) := ⟨by decide, by decide⟩
  have hrange : ∀ (i : Fin RACCOONG_K) (j : Fin RACCOONG_N),
    InRange ((fun _ _ => -1024 : Hints) i j) := fun _ _ => hlow
  obtain ⟨sig, hsig, hread⟩ := hall (List.replicate 32 0) zeroResponse (fun _ _ =>
    -1024) rfl reduced_zeroResponse hrange
  have hne := (deserializeSignature_iff rfl reduced_zeroResponse hrange hsig).mp hread
    ⟨0, by decide⟩ ⟨0, by decide⟩
  exact hne (by decide)

end Raccoong

end Libdogecoin
