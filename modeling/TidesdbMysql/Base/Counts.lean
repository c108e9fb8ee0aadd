import Mathlib.Algebra.Order.BigOperators.Group.List
import Mathlib.Algebra.Order.Ring.Nat
import Mathlib.Data.List.Perm.Basic
import Mathlib.Data.List.Nodup
import TidesdbMysql.Base.SortedMap

/-! Counting: the entries of a map by their keys or by a weight of their values, a list by the buckets its items fall into, and what a
sum of counts says of each of them. -/
namespace TidesdbMysql.Base
open List

variable {A : Type}

namespace SortedMap

variable {K V : Type} [LinearOrder K]

theorem keys_nodup (m : SortedMap K V) : (m.entries.map (·.1)).Nodup :=
  pairwise_map.mpr (m.sorted.imp fun less => ne_of_lt less)

theorem countP_entries {m : SortedMap K V} {p : K → Bool} {keys : List K} (distinct : keys.Nodup)
    (listed : ∀ k, k ∈ keys ↔ m.HasKey k ∧ p k = true) : m.entries.countP (fun e => p e.1) = keys.length := by
  have alike : ((m.entries.map (·.1)).filter p).Perm keys := by
    apply (perm_ext_iff_of_nodup (m.keys_nodup.filter p) distinct).mpr
    intro k
    rw [mem_filter, listed k, mem_map]
    exact and_congr_left' Iff.rfl
  rw [← alike.length_eq, ← countP_eq_length_filter, countP_map]
  rfl

def weight (f : V → Nat) (m : SortedMap K V) : Nat := (m.entries.map fun e => f e.2).sum

variable {f : V → Nat} {m : SortedMap K V} {k : K} {v : V}

theorem weight_put : (m.put k v).weight f = (m.erase k).weight f + f v := by
  rw [weight, ((m.put_perm k v).map _).sum_nat, map_cons, sum_cons, Nat.add_comm]
  rfl

theorem weight_erase_of_not (unused : ¬ m.HasKey k) : (m.erase k).weight f = m.weight f := by
  rw [weight, weight, erase_of_not unused]

theorem weight_erase_of_has (has : m.Has k v) : (m.erase k).weight f + f v = m.weight f := by
  rw [weight, weight, ← ((erase_perm has).map _).sum_nat, map_cons, sum_cons, Nat.add_comm]

end SortedMap

theorem countP_first_bucket (items : List A) (p : A → Bool) (bucket : A → Nat) (first n : Nat) :
    (items.countP fun a => decide (bucket a = first) && p a) +
        (items.countP fun a => decide (first + 1 ≤ bucket a ∧ bucket a < first + 1 + n) && p a) =
      items.countP fun a => decide (first ≤ bucket a ∧ bucket a < first + (n + 1)) && p a := by
  induction items with
  | nil => rfl
  | cons a rest ih =>
    have here : (if (decide (bucket a = first) && p a) = true then 1 else 0) +
        (if (decide (first + 1 ≤ bucket a ∧ bucket a < first + 1 + n) && p a) = true then 1 else 0) =
        if (decide (first ≤ bucket a ∧ bucket a < first + (n + 1)) && p a) = true then 1 else 0 := by
      cases p a with
      | false => simp only [Bool.and_false, Bool.false_eq_true, if_false]
      | true =>
        simp only [Bool.and_true, decide_eq_true_eq]
        split_ifs <;> omega
    simp only [countP_cons]
    omega

theorem sum_countP_buckets (items : List A) (p : A → Bool) (bucket : A → Nat) (first n : Nat) :
    ((List.range' first n).map fun i => items.countP fun a => decide (bucket a = i) && p a).sum =
      items.countP fun a => decide (first ≤ bucket a ∧ bucket a < first + n) && p a := by
  induction n generalizing first with
  | zero =>
    symm
    apply countP_eq_zero.mpr
    intro a mem inside
    have none_fits := of_decide_eq_true (Bool.and_eq_true _ _ |>.mp inside).1
    omega
  | succ n ih => rw [range'_succ, map_cons, sum_cons, ih, countP_first_bucket]

end TidesdbMysql.Base
