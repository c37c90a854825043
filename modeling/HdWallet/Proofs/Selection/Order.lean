import HdWallet.Proofs.Selection.Ranking
import HdWallet.Selection.Selector

/-!
# The order of the candidates

Coins that rank the same have the same outpoint. Where outpoints are distinct, a set of coins
therefore has one ranking, and every strategy looks at nothing but the ranking: in which order the
candidates come makes no difference, not even to where a search runs out of its node budget.
-/

namespace HdWallet

namespace Coin

/-- Ranking tells coins apart by their outpoints. -/
theorem outpoint_eq_of_ranksBefore {a b : Coin} (before : a.ranksBefore b)
    (after : b.ranksBefore a) : a.outpoint = b.outpoint := by
  rw [ranksBefore_iff_toNat] at before after
  apply OutPoint.rank_injective
  omega

/-- Coins with distinct outpoints have one ranking. -/
theorem ranked_eq_of_perm {coins others : List Coin} (distinct : (coins.map (·.outpoint)).Nodup)
    (perm : others.Perm coins) : ranked others = ranked coins := by
  have same : (ranked others).Perm (ranked coins) :=
    (perm_ranked others).trans (perm.trans (perm_ranked coins).symm)
  refine List.Perm.eq_of_pairwise ?_ (pairwise_ranked others) (pairwise_ranked coins) same
  intro a b ha hb before after
  have ha : a ∈ coins := perm.mem_iff.mp (mem_ranked.mp ha)
  have hb : b ∈ coins := mem_ranked.mp hb
  exact List.inj_on_of_nodup_map distinct ha hb (outpoint_eq_of_ranksBefore before after)

end Coin

namespace Selector

/-- A choice does not depend on the order of the candidates: whatever the strategy, the dust
threshold and the node budget, it makes the same plan of the same coins in the same order, or fails
with the same amounts. -/
theorem choose_eq_of_perm (selector : Selector) (payment : Payment) {candidates others : List Coin}
    (distinct : (candidates.map (·.outpoint)).Nodup) (perm : others.Perm candidates) :
    selector.choose others payment = selector.choose candidates payment := by
  rw [choose, choose, Coin.ranked_eq_of_perm distinct perm]

/-- Five coins, three of them of one value, in two orders. Branch and bound finds the same two of
the three from either order, and falls back to the same greedy plan where its budget is small. -/
theorem choose_eq_among_equal_values :
    let coin (n : UInt32) (value : Amount) : Coin := ⟨⟨default, n⟩, ⟨value, default⟩⟩
    let candidates := [coin 4 3000, coin 0 5000, coin 2 3000, coin 1 9000, coin 3 3000]
    let payment : Payment := { target := 5660, outputs := 1, rate := ⟨1000⟩ }
    let choice (nodeBudget : Nat) (coins : List Coin) :=
      ({ strategy := .branchAndBound, dust := 546, nodeBudget } : Selector).choose coins payment
    let shown (coins : List Coin) (nodeBudget : Nat) :=
      (choice nodeBudget coins).toOption.map fun s => (s.coins.map (·.outpoint.index), s.strategy)
    (candidates.map (·.outpoint)).Nodup ∧ candidates.reverse.Perm candidates ∧
      shown candidates 100 = some ([2, 3], .branchAndBound) ∧
      shown candidates 5 = some ([1], .largestFirst) ∧
      ∀ nodeBudget, choice nodeBudget candidates.reverse = choice nodeBudget candidates := by
  intro coin candidates payment choice shown
  have distinct : (candidates.map (·.outpoint)).Nodup := by decide
  have perm : candidates.reverse.Perm candidates := candidates.reverse_perm
  refine ⟨distinct, perm, by decide +kernel, by decide +kernel, ?_⟩
  intro nodeBudget
  exact choose_eq_of_perm _ payment distinct perm

end Selector

end HdWallet
