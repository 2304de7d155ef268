/-
# Declared lengths of a carrier

Every part of a carrier declares the length of the public key and of the whole payload.
`dogecoin_pqc_carrier_extract_scriptsig` takes both from the first part it finds, collects parts
without a look at what they declare, and cuts what is too long; too short a payload is taken as it
is.

* `extractScriptsig_lengths_iff` : the transactions from which nothing is extracted but what is
  declared.
-/
import Libdogecoin.PqcCarrier

namespace Libdogecoin

namespace PqcCarrier

open Slots

/-! ## The parts that are collected -/

/-- The first part with a known tag. -/
def firstPart (useRaccoonG : Bool) (tx : Tx) : Option ParsedPart :=
  ((tx.vin.filterMap (taggedPart useRaccoonG)).head?).map (·.2)

/-- The part in an input, if it has the tag and the number of parts of the first one. -/
def belongingPart (first : ParsedPart) (txIn : TxIn) : Option ParsedPart :=
  (carrierPart txIn).filter fun part =>
    part.tag8 = first.tag8 ∧ part.partTotal = first.partTotal ∧ part.partIndex < first.partTotal

/-- The first of the parts with a number. -/
def collectedPart (first : ParsedPart) (vin : List TxIn) (i : ℕ) : Option ParsedPart :=
  (vin.filterMap (belongingPart first)).find? fun part => part.partIndex.toNat = i

/-- One part for each number, as far as there is one. -/
def collected (first : ParsedPart) (vin : List TxIn) : List ParsedPart :=
  (List.range first.partTotal.toNat).filterMap (collectedPart first vin)

/-- What the parts hold, one behind the other. -/
def payload (parts : List ParsedPart) : Bytes := (parts.map (·.partData)).flatten

/-- What is extracted has the lengths that the parts declare, and all declare the same. -/
structure LengthsDeclared (parts : List ParsedPart) (e : Extracted) : Prop where
  agree : ∀ part ∈ parts, ∀ part' ∈ parts, part.pkLen = part'.pkLen ∧ part.fullLen = part'.fullLen
  enough : ∀ part ∈ parts, part.fullLen.toNat ≤ (payload parts).length
  carrierBuf : ∀ part ∈ parts, (e.pk ++ e.sig).length = part.fullLen.toNat
  pk : ∀ part ∈ parts, e.pk.length = part.pkLen.toNat
  sig : ∀ part ∈ parts, e.sig.length = part.fullLen.toNat - part.pkLen.toNat

/-- Nothing is extracted: there is no part, the first one declares a length of zero, a part is
missing, or the payload is too short for the public key and one byte. Or every part declares the
public key of the first one, and for the payload the smaller one of what the first one declares and
of what there is. -/
def LengthsSafe (useRaccoonG : Bool) (tx : Tx) : Prop :=
  ∀ first ∈ firstPart useRaccoonG tx,
    (first.partTotal = 0 ∨ first.fullLen = 0 ∨ first.pkLen = 0) ∨
    (∃ i < first.partTotal.toNat, collectedPart first tx.vin i = none) ∨
    min first.fullLen.toNat (payload (collected first tx.vin)).length < first.pkLen.toNat + 1 ∨
    ∀ part ∈ collected first tx.vin, part.pkLen = first.pkLen ∧
      part.fullLen.toNat = min first.fullLen.toNat (payload (collected first tx.vin)).length

/-! ## The two passes -/

theorem firstCarrier_eq (useRaccoonG : Bool) (k : ℕ) (vin : List TxIn) :
    (firstCarrier useRaccoonG k vin).map (fun r => (r.1, r.2.1)) =
      (vin.filterMap (taggedPart useRaccoonG)).head? := by
  induction vin generalizing k with
  | nil => rfl
  | cons txIn vin ih =>
    rw [firstCarrier]
    cases htagged : taggedPart useRaccoonG txIn with
    | none => rw [List.filterMap_cons_none htagged, ih]
    | some r =>
      rw [List.filterMap_cons_some htagged]
      rfl

theorem matchingPart_eq (first : ParsedPart) (txIn : TxIn) :
    matchingPart first txIn =
      (belongingPart first txIn).map fun part => (part.partIndex.toNat, part.partData) := by
  unfold matchingPart belongingPart
  cases carrierPart txIn with
  | none => rfl
  | some part =>
    rw [Option.bind_some]
    by_cases hother : part.tag8 ≠ first.tag8 ∨ part.partTotal ≠ first.partTotal ∨
        part.partIndex ≥ first.partTotal
    · have hnot : ¬ (part.tag8 = first.tag8 ∧ part.partTotal = first.partTotal ∧
          part.partIndex < first.partTotal) := by
        rintro ⟨htag, htotal, hlt⟩
        rcases hother with h | h | h
        · exact h htag
        · exact h htotal
        · exact absurd hlt (UInt8.not_lt.mpr h)
      rw [if_pos hother, Option.filter_some, if_neg (by rw [decide_eq_true_eq]; exact hnot)]
      rfl
    · simp only [not_or, not_not, ge_iff_le, UInt8.not_le] at hother
      rw [if_neg (by simpa using hother), Option.filter_some, if_pos (decide_eq_true hother)]
      rfl

/-- **The slots** hold the data of the parts that are collected. -/
theorem slots_eq (first : ParsedPart) (vin : List TxIn) :
    (vin.filterMap (matchingPart first)).foldl offer (List.replicate first.partTotal.toNat none) =
      (List.range first.partTotal.toNat).map fun i => (collectedPart first vin i).map
      (·.partData) := by
  apply List.ext_getElem?
  intro i
  by_cases hi : i < first.partTotal.toNat
  · have hhole : (List.replicate first.partTotal.toNat (none : Option Bytes))[i]? = some none := by
      rw [List.getElem?_replicate, if_pos hi]
    have hoffers : vin.filterMap (matchingPart first) =
        (vin.filterMap (belongingPart first)).map fun part =>
          (part.partIndex.toNat, part.partData) := by
      rw [List.map_filterMap]
      congr 1
      funext txIn
      exact matchingPart_eq first txIn
    rw [getElem?_foldl_offer_of_hole hhole, List.getElem?_map, List.getElem?_range hi,
      hoffers, List.find?_map, Option.map_map]
    rfl
  · rw [List.getElem?_eq_none, List.getElem?_eq_none]
    · rw [List.length_map, List.length_range]
      exact Nat.not_lt.mp hi
    · rw [length_foldl_offer, List.length_replicate]
      exact Nat.not_lt.mp hi

/-! ## What is extracted -/

/-- Where no part is missing, the parts are those that are collected. -/
theorem map_getD_collected {first : ParsedPart} {vin : List TxIn}
    (hall : ∀ i < first.partTotal.toNat, collectedPart first vin i ≠ none) :
    (((List.range first.partTotal.toNat).map fun i =>
      (collectedPart first vin i).map (·.partData)).map fun data => data.getD []) =
        (collected first vin).map (·.partData) := by
  unfold collected
  rw [List.map_map]
  have hrange : ∀ is : List ℕ, (∀ i ∈ is, collectedPart first vin i ≠ none) →
      is.map ((fun data : Option Bytes => data.getD []) ∘ fun i =>
        (collectedPart first vin i).map (·.partData)) =
        (is.filterMap (collectedPart first vin)).map (·.partData) := by
    intro is his
    induction is with
    | nil => rfl
    | cons i is ih =>
      obtain ⟨hi, his⟩ := List.forall_mem_cons.mp his
      obtain ⟨part, hpart⟩ := Option.ne_none_iff_exists'.mp hi
      rw [List.map_cons, ih his, List.filterMap_cons_some hpart, List.map_cons,
        Function.comp_apply, hpart]
      rfl
  exact hrange _ fun i hi => hall i (List.mem_range.mp hi)

/-- **The second pass** leaves the data of the parts in the slots, and counts them. -/
theorem collectParts_eq_slots (first : ParsedPart) (vin : List TxIn) :
    collectParts first vin 0 (List.replicate first.partTotal.toNat none) =
      (((List.range first.partTotal.toNat).map fun i =>
          (collectedPart first vin i).map (·.partData)).countP Option.isSome,
        (List.range first.partTotal.toNat).map fun i => (collectedPart first vin i).map
        (·.partData)) := by
  have hempty : (List.replicate first.partTotal.toNat (none : Option Bytes)).countP
    Option.isSome = 0 :=
    List.countP_eq_zero.mpr fun x hx => by
      rw [List.eq_of_mem_replicate hx]; exact Bool.false_ne_true
  have hcollect := collectParts_eq first vin (show (List.replicate first.partTotal.toNat
    (none : Option Bytes)).length = first.partTotal.toNat from List.length_replicate)
  rwa [hempty, slots_eq] at hcollect

/-- All slots are filled if and only if no part is missing. -/
theorem countP_slots_eq_iff (first : ParsedPart) (vin : List TxIn) :
    ((List.range first.partTotal.toNat).map fun i =>
        (collectedPart first vin i).map (·.partData)).countP Option.isSome = first.partTotal.toNat ↔
      ∀ i < first.partTotal.toNat, collectedPart first vin i ≠ none := by
  have hlen : ((List.range first.partTotal.toNat).map fun i =>
      (collectedPart first vin i).map (·.partData)).length = first.partTotal.toNat := by
    rw [List.length_map, List.length_range]
  nth_rewrite 2 [← hlen]
  rw [List.countP_eq_length]
  constructor
  · intro hsome i hi hnone
    have hdata := hsome _ (List.mem_map_of_mem (List.mem_range.mpr hi))
    rw [hnone] at hdata
    cases hdata
  · intro hall data hdata
    obtain ⟨i, hi, rfl⟩ := List.mem_map.mp hdata
    rw [Option.isSome_map, Option.isSome_iff_ne_none]
    exact hall i (List.mem_range.mp hi)

/-- The parts that are collected are accepted: no declared length is zero, no part is missing, and
there is room for the public key and one byte. -/
structure Accepts (first : ParsedPart) (vin : List TxIn) : Prop where
  total : first.partTotal ≠ 0
  fullLen : first.fullLen ≠ 0
  pkLen : first.pkLen ≠ 0
  all : ∀ i < first.partTotal.toNat, collectedPart first vin i ≠ none
  room : first.pkLen.toNat + 1 ≤ min first.fullLen.toNat (payload (collected first vin)).length

/-- **Extracting.** The payload is cut to the length that the first part declares, and split where
it says. -/
theorem extractScriptsig_of_first {useRaccoonG : Bool} {tx : Tx} {algo : PqcAlgo}
    {first : ParsedPart} {vinIndex : ℕ}
    (hfirst : firstCarrier useRaccoonG 0 tx.vin = some (algo, first, vinIndex)) :
    Accepts first tx.vin ∧ extractScriptsig useRaccoonG tx =
        some { algo := algo
               pk := ((payload (collected first tx.vin)).take first.fullLen.toNat).take
                 first.pkLen.toNat
               sig := ((payload (collected first tx.vin)).take first.fullLen.toNat).drop
                 first.pkLen.toNat
               vinIndex := vinIndex } ∨
      ¬ Accepts first tx.vin ∧ extractScriptsig useRaccoonG tx = none := by
  unfold extractScriptsig
  rw [hfirst]
  simp only [Option.bind_eq_bind, Option.bind_some]
  by_cases hzero : first.partTotal = 0 ∨ first.fullLen = 0 ∨ first.pkLen = 0
  · rw [if_pos hzero]
    refine Or.inr ⟨?_, rfl⟩
    intro haccepts
    rcases hzero with h | h | h
    · exact haccepts.total h
    · exact haccepts.fullLen h
    · exact haccepts.pkLen h
  rw [if_neg hzero, collectParts_eq_slots]
  dsimp only
  by_cases hall : ∀ i < first.partTotal.toNat, collectedPart first tx.vin i ≠ none
  · -- the payload is cut to the length that the first part declares
    have hmin : (if (payload (collected first tx.vin)).length > first.fullLen.toNat then
      first.fullLen.toNat else (payload (collected first tx.vin)).length) =
          min first.fullLen.toNat (payload (collected first tx.vin)).length := by
      split <;> omega
    rw [if_neg (not_not.mpr ((countP_slots_eq_iff first tx.vin).mpr hall)), map_getD_collected hall,
      ← List.length_flatten, ← payload, hmin, copyParts_eq _ (Nat.zero_le _),
        List.nil_append, ← payload,
      ← List.take_eq_take_min]
    by_cases hroom : min first.fullLen.toNat (payload (collected first tx.vin)).length <
      first.pkLen.toNat + 1
    · rw [if_pos hroom]
      exact Or.inr ⟨fun haccepts => absurd haccepts.room (Nat.not_le.mpr hroom), rfl⟩
    · simp only [not_or] at hzero
      rw [if_neg hroom]
      exact Or.inl ⟨⟨hzero.1, hzero.2.1, hzero.2.2, hall, Nat.not_lt.mp hroom⟩, rfl⟩
  · -- a slot is left empty
    rw [if_pos fun hcount => hall ((countP_slots_eq_iff first tx.vin).mp hcount)]
    exact Or.inr ⟨fun haccepts => hall haccepts.all, rfl⟩

/-- The lengths of what is extracted are those that are declared if and only if the parts declare
the public key of the first one, and for the payload what is left of it. -/
theorem lengthsDeclared_iff {first : ParsedPart} {vin : List TxIn}
    (h : Accepts first vin) {e : Extracted}
    (hpk : e.pk = ((payload (collected first vin)).take first.fullLen.toNat).take first.pkLen.toNat)
    (hsig : e.sig = ((payload (collected first vin)).take first.fullLen.toNat).drop
      first.pkLen.toNat) :
    LengthsDeclared (collected first vin) e ↔
      ∀ part ∈ collected first vin, part.pkLen = first.pkLen ∧
        part.fullLen.toNat = min first.fullLen.toNat (payload (collected first vin)).length := by
  have hroom := h.room
  have hpkLen : e.pk.length = first.pkLen.toNat := by
    rw [hpk, List.length_take, List.length_take]
    omega
  have hsigLen : e.sig.length =
      min first.fullLen.toNat (payload (collected first vin)).length - first.pkLen.toNat := by
    rw [hsig, List.length_drop, List.length_take]
  constructor
  · intro hdeclared part hpart
    have hbuf := hdeclared.carrierBuf part hpart
    have hlen := hdeclared.pk part hpart
    rw [List.length_append] at hbuf
    exact ⟨UInt16.toNat_inj.mp (by omega), by omega⟩
  · intro hsame
    refine ⟨?_, ?_, ?_, ?_, ?_⟩
    · intro part hpart part' hpart'
      obtain ⟨hfirst, hfull⟩ := hsame part hpart
      obtain ⟨hfirst', hfull'⟩ := hsame part' hpart'
      exact ⟨hfirst.trans hfirst'.symm, UInt16.toNat_inj.mp (hfull.trans hfull'.symm)⟩
    · intro part hpart
      rw [(hsame part hpart).2]
      exact Nat.min_le_right _ _
    · intro part hpart
      rw [List.length_append, (hsame part hpart).2]
      omega
    · intro part hpart
      rw [(hsame part hpart).1, hpkLen]
    · intro part hpart
      rw [(hsame part hpart).1, (hsame part hpart).2, hsigLen]

/-- **Declared lengths.** From a transaction nothing is extracted but what all its parts declare, if
and only if it is safe. -/
theorem extractScriptsig_lengths_iff (useRaccoonG : Bool) (tx : Tx) :
    (∀ e, extractScriptsig useRaccoonG tx = some e →
        ∃ first ∈ firstPart useRaccoonG tx, LengthsDeclared (collected first tx.vin) e) ↔
      LengthsSafe useRaccoonG tx := by
  have hpart := firstCarrier_eq useRaccoonG 0 tx.vin
  unfold LengthsSafe firstPart
  rw [← hpart, Option.map_map]
  cases hfirst : firstCarrier useRaccoonG 0 tx.vin with
  | none =>
    refine iff_of_true ?_ ?_
    · intro e he
      unfold extractScriptsig at he
      rw [hfirst] at he
      cases he
    · intro first hmem
      cases hmem
  | some found =>
    obtain ⟨algo, first, vinIndex⟩ := found
    simp only [Option.map_some, Function.comp_apply, Option.mem_def, Option.some.injEq,
      exists_eq_left', forall_eq']
    rcases extractScriptsig_of_first hfirst with ⟨haccepts, hsome⟩ | ⟨hrefused, hnone⟩
    · have hiff := @lengthsDeclared_iff first tx.vin haccepts
        { algo := algo, pk := _, sig := _, vinIndex := vinIndex } rfl rfl
      rw [hsome]
      simp only [Option.some.injEq, forall_eq']
      rw [hiff]
      constructor
      · exact fun hsame => Or.inr (Or.inr (Or.inr hsame))
      · rintro (hzero | ⟨i, hi, hmissing⟩ | hshort | hsame)
        · rcases hzero with h | h | h
          · exact absurd h haccepts.total
          · exact absurd h haccepts.fullLen
          · exact absurd h haccepts.pkLen
        · exact absurd hmissing (haccepts.all i hi)
        · exact absurd haccepts.room (Nat.not_le.mpr hshort)
        · exact hsame
    · rw [hnone]
      refine iff_of_true (fun e he => absurd he (by simp)) ?_
      -- what is refused fails one of the checks
      by_contra hnot
      simp only [not_or, not_exists, not_and] at hnot
      obtain ⟨⟨htotal, hfull, hpk⟩, hall, hroom, -⟩ := hnot
      exact hrefused ⟨htotal, hfull, hpk, hall, Nat.not_lt.mp hroom⟩

/-- A transaction with a part that declares ten bytes and holds two. -/
def shortCarrierTx : Tx :=
  sampleCarrierTx ((buildPartScriptsig falconTag 0 1 1 10 [7, 8] [0x51]).getD [])

/-- A payload that is shorter than declared is extracted. -/
theorem not_extractScriptsig_lengths : ¬ ∀ (useRaccoonG : Bool) (tx : Tx) (e : Extracted),
    extractScriptsig useRaccoonG tx = some e →
      ∃ first ∈ firstPart useRaccoonG tx, LengthsDeclared (collected first tx.vin) e := by
  intro hall
  have hread : extractScriptsig false shortCarrierTx =
      some { algo := .falcon, pk := [7], sig := [8], vinIndex := 0 } := by decide
  obtain ⟨first, hfirst, hdeclared⟩ := hall _ _ _ hread
  have hpart : firstPart false shortCarrierTx = some
      ⟨falconTag, 0, 1, 1, 10, [7, 8], [0x51]⟩ := by decide
  rw [hpart] at hfirst
  obtain rfl := Option.some.inj hfirst
  have hcollected := hdeclared.carrierBuf
    ⟨falconTag, 0, 1, 1, 10, [7, 8], [0x51]⟩ (by decide)
  revert hcollected
  decide

end PqcCarrier

end Libdogecoin
