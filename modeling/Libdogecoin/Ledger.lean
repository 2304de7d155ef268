/-
# What a list of transactions leaves unspent

Transactions have ids, numbered outputs, and outpoints that they spend. Nothing is assumed of where
they come from.

* `unspent_concat` : one more transaction takes out what it spends and adds its outputs;
* `nodup_unspent` : an outpoint is listed once.
-/
import Mathlib.Data.List.Basic
import Mathlib.Data.List.Nodup
import Mathlib.Tactic.Common

namespace Libdogecoin

/-- How transactions are read: an id, outputs of some kind with their numbers, and spent
outpoints. -/
structure Ledger (τ ι ν : Type*) where
  id : τ → ι
  outputs : τ → List (ℕ × ν)
  spends : τ → List (ι × ℕ)

namespace Ledger

variable {τ ι ν : Type*} {L : Ledger τ ι ν} {txs : List τ} {tx : τ}

/-- The outputs of a transaction under their outpoints. -/
def coins (L : Ledger τ ι ν) (tx : τ) : List ((ι × ℕ) × ν) :=
  (L.outputs tx).map fun o => ((L.id tx, o.1), o.2)

/-- One of the transactions spends the outpoint. -/
def Spent (L : Ledger τ ι ν) (txs : List τ) (o : ι × ℕ) : Prop := ∃ tx ∈ txs, o ∈ L.spends tx

theorem id_of_mem_coins {coin : (ι × ℕ) × ν} (h : coin ∈ L.coins tx) : coin.1.1 = L.id tx := by
  obtain ⟨o, -, rfl⟩ := List.mem_map.mp h
  rfl

theorem spent_concat {o : ι × ℕ} : L.Spent (txs ++ [tx]) o ↔ L.Spent txs o ∨ o ∈ L.spends tx := by
  constructor
  · rintro ⟨t, ht, ho⟩
    rcases List.mem_append.mp ht with ht | ht
    · exact Or.inl ⟨t, ht, ho⟩
    · rw [List.mem_singleton] at ht
      exact Or.inr (ht ▸ ho)
  · rintro (⟨t, ht, ho⟩ | ho)
    · exact ⟨t, List.mem_append_left _ ht, ho⟩
    · exact ⟨tx, List.mem_append_right _ (List.mem_singleton_self tx), ho⟩

variable [DecidableEq ι]

instance (txs : List τ) (o : ι × ℕ) : Decidable (L.Spent txs o) :=
  inferInstanceAs (Decidable (∃ tx ∈ txs, o ∈ L.spends tx))

/-- The outputs of the transactions that none of them spends. -/
def unspent (L : Ledger τ ι ν) (txs : List τ) : List ((ι × ℕ) × ν) :=
  (txs.flatMap L.coins).filter fun coin => ¬ L.Spent txs coin.1

/-- **One more transaction.** It is spent from by none of those before it, nor by itself. -/
theorem unspent_concat (hbefore : ∀ t ∈ txs, ∀ o ∈ L.spends t, o.1 ≠ L.id tx)
    (hself : ∀ o ∈ L.spends tx, o.1 ≠ L.id tx) :
    L.unspent (txs ++ [tx]) = (L.unspent txs).filter (fun coin => coin.1 ∉ L.spends tx) ++
      L.coins tx := by
  unfold unspent
  rw [List.flatMap_append, List.filter_append, List.filter_filter]
  congr 1
  · apply List.filter_congr
    intro coin _
    rw [← Bool.decide_and]
    apply decide_eq_decide.mpr
    rw [spent_concat]
    tauto
  · rw [List.flatMap_singleton, List.filter_eq_self]
    intro coin hcoin
    apply decide_eq_true
    rw [spent_concat]
    rintro (⟨t, ht, ho⟩ | ho)
    · exact hbefore t ht _ ho (id_of_mem_coins hcoin)
    · exact hself _ ho (id_of_mem_coins hcoin)

/-- A transaction without outputs that spends no output of the others. -/
theorem unspent_concat_of_unrelated (hcoins : L.coins tx = [])
    (hspends : ∀ coin ∈ txs.flatMap L.coins, coin.1 ∉ L.spends tx) :
    L.unspent (txs ++ [tx]) = L.unspent txs := by
  unfold unspent
  rw [List.flatMap_append, List.flatMap_singleton, hcoins, List.append_nil]
  apply List.filter_congr
  intro coin hcoin
  apply decide_eq_decide.mpr
  rw [spent_concat, or_iff_left (hspends coin hcoin)]

omit [DecidableEq ι] in
/-- The outpoints of different transactions differ. -/
theorem nodup_flatMap_coins (hids : (txs.map L.id).Nodup)
    (houtputs : ∀ t ∈ txs, ((L.outputs t).map Prod.fst).Nodup) :
    ((txs.flatMap L.coins).map Prod.fst).Nodup := by
  induction txs with
  | nil => exact List.nodup_nil
  | cons t txs ih =>
    rw [List.map_cons, List.nodup_cons] at hids
    rw [List.flatMap_cons, List.map_append, List.nodup_append]
    refine ⟨?_, ih hids.2 fun t ht => houtputs t (List.mem_cons_of_mem _ ht), ?_⟩
    · have houtpoints : (L.coins t).map Prod.fst = ((L.outputs t).map Prod.fst).map fun n =>
        (L.id t, n) := by
        unfold coins
        rw [List.map_map, List.map_map]
        rfl
      rw [houtpoints]
      apply (houtputs t List.mem_cons_self).map
      intro n n' heq
      exact (Prod.mk.inj heq).2
    · intro o ho o' ho' heq
      obtain ⟨coin, hcoin, rfl⟩ := List.mem_map.mp ho
      obtain ⟨coin', hcoin', rfl⟩ := List.mem_map.mp ho'
      obtain ⟨t', ht', hmem⟩ := List.mem_flatMap.mp hcoin'
      apply hids.1
      rw [← id_of_mem_coins hcoin, heq, id_of_mem_coins hmem]
      exact List.mem_map_of_mem ht'

/-- An outpoint is listed once. -/
theorem nodup_unspent (hids : (txs.map L.id).Nodup)
    (houtputs : ∀ t ∈ txs, ((L.outputs t).map Prod.fst).Nodup) :
    ((L.unspent txs).map Prod.fst).Nodup :=
  (nodup_flatMap_coins hids houtputs).sublist (List.filter_sublist.map _)

end Ledger

end Libdogecoin
