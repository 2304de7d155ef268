/-
# Requests for headers

`dogecoin_p2p_msg_getheaders` and `dogecoin_p2p_deser_msg_getheaders` of `protocol.c`. The hashes
are read into a vector that was resized to their number before, and resizing leaves the length of
the vector as it is.

* `addHashes_eq_none` : the check of the count rejects no message that the loop would take;
* `getheaders_roundTrip` : what was written is read, and no part of it is.
-/
import Libdogecoin.PointerVector
import Libdogecoin.HeaderSpan

namespace Libdogecoin

namespace GetHeaders

open SpanRead PointerVector

/-- `DOGECOIN_PROTOCOL_VERSION`. -/
def protocolVersion : UInt32 := 70015

/-- `NULLHASH`. -/
def nullHash : Uint256 := Uint256.zero

/-- `dogecoin_p2p_msg_getheaders`. A null pointer in the vector cannot be read. -/
def p2pMsgGetheaders (blocklocators : PointerVector Uint256) (hashstop : Option Uint256) :
    Option Bytes := do
  let hashes ← blocklocators.entries.mapM id
  some (serU32 protocolVersion ++ (serVarlen (UInt32.ofNat blocklocators.len) ++
    (hashes.flatMap serU256 ++ serU256 (hashstop.getD nullHash))))

/-- The loop of `dogecoin_p2p_deser_msg_getheaders`. -/
def addHashes : ℕ → PointerVector Uint256 → Bytes → Option (PointerVector Uint256 × Bytes)
  | 0, blocklocators, buf => some (blocklocators, buf)
  | n + 1, blocklocators, buf => do
      let (hash, buf) ← deserU256 buf
      addHashes n (blocklocators.vectorAdd (some hash)) buf

/-- `dogecoin_p2p_deser_msg_getheaders`. -/
def p2pDeserMsgGetheaders (blocklocators : PointerVector Uint256) (buf : Bytes) :
    Option ((PointerVector Uint256 × Uint256) × Bytes) := do
  let (_, buf) ← deserU32 buf
  let (vsize, buf) ← deserVarlen buf
  -- each locator takes 32 bytes
  if buf.length / 32 < vsize.toNat then none
  else do
    let (blocklocators, buf) ← addHashes vsize.toNat (blocklocators.vectorResize vsize.toNat) buf
    let (hashstop, buf) ← deserU256 buf
    some ((blocklocators, hashstop), buf)

/-! ## The loop -/

/-- The hashes are put behind the elements of the vector. -/
theorem addHashes_flatMap (blocklocators : PointerVector Uint256) (hashes : List Uint256)
    (rest : Bytes) :
    ∃ vec, addHashes hashes.length blocklocators (hashes.flatMap serU256 ++ rest) =
      some (vec, rest) ∧
      vec.entries = blocklocators.entries ++ hashes.map some := by
  induction hashes generalizing blocklocators with
  | nil => exact ⟨blocklocators, rfl, (List.append_nil _).symm⟩
  | cons hash hashes ih =>
    obtain ⟨vec, hread, hentries⟩ := ih (blocklocators.vectorAdd (some hash))
    refine ⟨vec, ?_, ?_⟩
    · rw [List.length_cons, List.flatMap_cons, List.append_assoc, addHashes, deserU256_serU256]
      exact hread
    · rw [hentries, entries_vectorAdd, List.append_assoc]
      rfl

/-- A count that the buffer has no room for fails in the loop as well. -/
theorem addHashes_eq_none {n : ℕ} (blocklocators : PointerVector Uint256) {buf : Bytes}
    (h : buf.length / 32 < n) :
    addHashes n blocklocators buf = none := by
  induction n generalizing blocklocators buf with
  | zero => exact absurd h (Nat.not_lt_zero _)
  | succ n ih =>
    rw [addHashes]
    cases hread : deserU256 buf with
    | none => rfl
    | some p =>
      -- one hash less, and 32 bytes less
      obtain ⟨hlen, hrest, -⟩ := deserU256_eq_some hread
      have hshort : p.2.length / 32 < n := by
        rw [hrest, List.length_drop]
        omega
      exact ih _ hshort

theorem spans_addHashes (n : ℕ) (blocklocators : PointerVector Uint256) :
    Spans 0 (addHashes n blocklocators) := by
  induction n generalizing blocklocators with
  | zero => exact spans_some blocklocators
  | succ n ih => exact spans_deserU256.bind fun hash => ih (blocklocators.vectorAdd (some hash))

/-- What is read behind the count, where the count is not checked. -/
def deserHashes (blocklocators : PointerVector Uint256) (vsize : UInt32) (buf : Bytes) :
    Option ((PointerVector Uint256 × Uint256) × Bytes) :=
  (addHashes vsize.toNat (blocklocators.vectorResize vsize.toNat) buf).bind fun p =>
    (deserU256 p.2).map fun q => ((p.1, q.1), q.2)

/-- **The check of the count rejects only what the loop would reject.** -/
theorem deserGetheaders_eq (blocklocators : PointerVector Uint256) :
    p2pDeserMsgGetheaders blocklocators = fun buf => (deserU32 buf).bind fun v =>
      (deserVarlen v.2).bind fun count => deserHashes blocklocators count.1 count.2 := by
  funext buf
  unfold p2pDeserMsgGetheaders
  refine Option.bind_congr fun v _ => Option.bind_congr fun count _ => ?_
  obtain ⟨vsize, buf⟩ := count
  unfold deserHashes
  dsimp only
  split_ifs with hroom
  · rw [addHashes_eq_none _ hroom]
    rfl
  · refine Option.bind_congr fun p _ => ?_
    cases deserU256 p.2 with
    | none => rfl
    | some q => rfl

theorem spans_deserGetheaders (blocklocators : PointerVector Uint256) :
    Spans 0 (p2pDeserMsgGetheaders blocklocators) := by
  rw [deserGetheaders_eq]
  refine spans_deserU32.bind fun _ => spans_deserVarlen.bind fun vsize => ?_
  exact (spans_addHashes _ _).bind fun vec => spans_deserU256.map fun hashstop => (vec, hashstop)

/-! ## Messages -/

/-- The vector holds the hashes, in their order, and nothing else. -/
def Holds (vec : PointerVector Uint256) (hashes : List Uint256) : Prop :=
  vec.entries = hashes.map some

variable {hashes : List Uint256} {vec : PointerVector Uint256}

theorem len_of_holds (h : Holds vec hashes) : vec.len = hashes.length := by
  have hlen := congrArg List.length h
  rw [entries, List.length_take, List.length_map, Nat.min_eq_left vec.len_le] at hlen
  exact hlen

theorem mapM_id_map_some {α : Type} (xs : List α) : (xs.map some).mapM id = some xs := by
  induction xs with
  | nil => rfl
  | cons x xs ih =>
    rw [List.map_cons, List.mapM_cons, ih]
    rfl

/-- The bytes of a message. -/
theorem getheaders_of_holds (h : Holds vec hashes) (hashstop : Option Uint256) :
    p2pMsgGetheaders vec hashstop =
      some (serU32 protocolVersion ++ (serVarlen (UInt32.ofNat hashes.length) ++
      (hashes.flatMap serU256 ++ serU256 (hashstop.getD nullHash)))) := by
  unfold p2pMsgGetheaders
  rw [h, mapM_id_map_some, len_of_holds h]
  rfl

/-- Reading a message into an empty vector. -/
theorem deserGetheaders_append {blocklocators : PointerVector Uint256}
    (hempty : blocklocators.len = 0) (hlen : hashes.length < 2 ^ 32) (hashstop : Uint256)
    (rest : Bytes) :
    ∃ vec, p2pDeserMsgGetheaders blocklocators (serU32 protocolVersion ++
        (serVarlen (UInt32.ofNat hashes.length) ++
          (hashes.flatMap serU256 ++ serU256 hashstop)) ++ rest) =
          some ((vec, hashstop), rest) ∧ Holds vec hashes := by
  have hcount : (UInt32.ofNat hashes.length).toNat = hashes.length := by
    rw [UInt32.toNat_ofNat', Nat.mod_eq_of_lt hlen]
  -- resizing only makes room, so the hashes are put behind nothing
  have hentries : (blocklocators.vectorResize hashes.length).entries = [] := by
    rw [entries_vectorResize, entries, hempty, List.take_zero, List.take_nil]
  obtain ⟨vec, hread, hholds⟩ :=
    addHashes_flatMap (blocklocators.vectorResize hashes.length) hashes (serU256 hashstop ++ rest)
  refine ⟨vec, ?_, ?_⟩
  · rw [deserGetheaders_eq]
    simp only [List.append_assoc, deserU32_serU32, Option.bind_some, deserVarlen_serVarlen]
    unfold deserHashes
    rw [hcount, hread, Option.bind_some, deserU256_serU256, Option.map_some]
  · rw [Holds, hholds, hentries, List.nil_append]

/-- **What was written is read, and no part of it is.** -/
theorem getheaders_roundTrip {locators blocklocators : PointerVector Uint256}
    {hashes : List Uint256} (hholds : Holds locators hashes) (hlen : hashes.length < 2 ^ 32)
    (hashstop : Option Uint256)
    (hempty : blocklocators.len = 0) :
    ∃ msg, p2pMsgGetheaders locators hashstop = some msg ∧
      (∀ rest, ∃ vec, p2pDeserMsgGetheaders blocklocators (msg ++ rest) =
        some ((vec, hashstop.getD nullHash), rest) ∧ Holds vec hashes) ∧
      ∀ part, part <+: msg → part ≠ msg → p2pDeserMsgGetheaders blocklocators part = none := by
  refine ⟨_, getheaders_of_holds hholds hashstop, deserGetheaders_append hempty hlen _, ?_⟩
  rintro part ⟨missing, hmsg⟩ hne
  by_contra hsome
  obtain ⟨⟨x, rest⟩, hread⟩ := Option.ne_none_iff_exists'.mp hsome
  -- what is read of the part is read of the message, with the missing bytes left over
  obtain ⟨span, rfl, hspan⟩ := spans_deserGetheaders blocklocators hread (Nat.zero_le _)
  obtain ⟨vec, hwhole, -⟩ := deserGetheaders_append hempty hlen (hashstop.getD nullHash) []
  rw [List.append_nil, ← hmsg, List.append_assoc, hspan] at hwhole
  obtain ⟨-, hleft⟩ := Prod.mk.inj (Option.some.inj hwhole)
  obtain ⟨-, rfl⟩ := List.append_eq_nil_iff.mp hleft
  exact hne ((List.append_nil _).symm.trans hmsg)

theorem getheaders_roundTrip_sample :
    ∃ msg, p2pMsgGetheaders ((vectorNew 1).vectorAdd (some nullHash)) none = some msg ∧
      (∀ rest, ∃ vec, p2pDeserMsgGetheaders (vectorNew 0) (msg ++ rest) =
        some ((vec, nullHash), rest) ∧
        Holds vec [nullHash]) ∧
      ∀ part, part <+: msg → part ≠ msg → p2pDeserMsgGetheaders (vectorNew 0) part = none :=
  getheaders_roundTrip ((entries_vectorAdd _ _).trans rfl) (by decide) none rfl

end GetHeaders

end Libdogecoin
