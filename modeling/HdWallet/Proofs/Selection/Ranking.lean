import Mathlib.Data.List.Sort
import HdWallet.Selection.Basic

/-!
# The ranking of coins

Ranking is an insertion sort by a total order: by value from high to low, and by
outpoint among coins of one value. So the ranked candidates are a sorted permutation
of the candidates, and the last of them is worth the least.
-/

namespace HdWallet

theorem OutPoint.isLE_compare (a b : OutPoint) : (compare a b).isLE ↔ a.rank ≤ b.rank := by
  have order : compare a b = compareOn rank a b := rfl
  rw [order, compareOn, Nat.isLE_compare]

namespace Coin

/-- The ranking order in words: more value first, then the lower outpoint. -/
theorem ranksBefore_iff (a b : Coin) :
    a.ranksBefore b ↔
      b.value < a.value ∨ a.value = b.value ∧ (compare a.outpoint b.outpoint).isLE := by
  rw [ranksBefore]
  rw [Bool.or_eq_true, Bool.and_eq_true, decide_eq_true_iff, beq_iff_eq]

/-- Coins are compared as the pairs of their values and the ranks of their outpoints. -/
theorem ranksBefore_iff_toNat (a b : Coin) :
    a.ranksBefore b ↔
      b.value.toNat < a.value.toNat ∨
        a.value.toNat = b.value.toNat ∧ a.outpoint.rank ≤ b.outpoint.rank := by
  rw [ranksBefore_iff, OutPoint.isLE_compare, UInt64.lt_iff_toNat_lt, UInt64.toNat_inj]

instance : Std.Total (fun a b : Coin => (a.ranksBefore b : Prop)) where
  total a b := by
    rw [ranksBefore_iff_toNat, ranksBefore_iff_toNat]
    omega

instance : IsTrans Coin (fun a b => (a.ranksBefore b : Prop)) where
  trans a b c := by
    rw [ranksBefore_iff_toNat, ranksBefore_iff_toNat, ranksBefore_iff_toNat]
    omega

theorem insertRanked_eq_orderedInsert (coin : Coin) (coins : List Coin) :
    insertRanked coin coins = coins.orderedInsert (fun a b => (a.ranksBefore b : Prop)) coin := by
  induction coins with
  | nil => rfl
  | cons other rest ih => simp only [insertRanked, List.orderedInsert, ih]

theorem ranked_eq_insertionSort (coins : List Coin) :
    ranked coins = coins.insertionSort (fun a b => (a.ranksBefore b : Prop)) := by
  induction coins with
  | nil => rfl
  | cons coin rest ih =>
      change insertRanked coin (ranked rest) = _
      rw [ih, insertRanked_eq_orderedInsert, List.insertionSort_cons]

theorem pairwise_ranked (coins : List Coin) :
    (ranked coins).Pairwise (fun a b => (a.ranksBefore b : Prop)) := by
  rw [ranked_eq_insertionSort]
  exact List.pairwise_insertionSort _ coins

/-- No coin is worth more than one that is ranked before it. -/
theorem pairwise_value_ranked (coins : List Coin) :
    ((ranked coins).map (·.value.toNat)).Pairwise (· ≥ ·) := by
  rw [List.pairwise_map]
  refine (pairwise_ranked coins).imp ?_
  intro a b h
  rw [ranksBefore_iff_toNat] at h
  omega

@[simp] theorem mem_ranked {coin : Coin} {coins : List Coin} :
    coin ∈ ranked coins ↔ coin ∈ coins :=
  (perm_ranked coins).mem_iff

end Coin

end HdWallet
