import HdWallet.Proofs.Selection.Comparison

/-!
# What greedy selection reaches

The first coins of the ranking are worth at least as much as any set of as many candidates. The
scan that takes coins from the largest on therefore decides whether any set of candidates is worth
the target and twice its fee, although a further coin may cost more than it brings: where it stops,
no smaller set is enough, and where it does not, no set is. The second fee pays for a change
output.

A sweep takes every coin or none. The most that it can send is worked out apart from it, by a
subtraction that saturates at both ends, and the two meet in one amount.
-/

namespace HdWallet

namespace Coin

/-- One more coin from the front of the ranking is worth no more than one ranked before it. -/
theorem total_take_succ_le {coins : List Coin} {bound : Nat}
    (h : ∀ coin ∈ coins, coin.value.toNat ≤ bound) (n : Nat) :
    total (coins.take (n + 1)) ≤ bound + total (coins.take n) := by
  rw [List.take_add_one, total_append]
  cases here : coins[n]? with
  | none => simp
  | some coin =>
      have le := h coin (List.mem_of_getElem? here)
      simp only [Option.toList_some, total_cons, total_nil]
      omega

/-- The first coins are worth at least as much as any others of that number. -/
theorem total_le_total_take {ranked coins : List Coin}
    (order : (ranked.map (·.value.toNat)).Pairwise (· ≥ ·)) (h : coins.Sublist ranked) :
    total coins ≤ total (ranked.take coins.length) := by
  rw [List.pairwise_map] at order
  induction h with
  | slnil => simp
  | @cons coins rest first _ ih =>
      obtain ⟨least, order⟩ := List.pairwise_cons.mp order
      have ih := ih order
      cases count : coins.length with
      | zero => simp [List.length_eq_zero_iff.mp count]
      | succ n =>
          rw [count] at ih
          rw [List.take_succ_cons, total_cons]
          exact ih.trans (total_take_succ_le least n)
  | cons_cons first _ ih =>
      have ih := ih (List.pairwise_cons.mp order).2
      rw [List.length_cons, List.take_succ_cons, total_cons, total_cons]
      exact Nat.add_le_add_left ih _

end Coin

/-- Some of the candidates that are worth the target and twice the fee. -/
structure Payment.Ample (payment : Payment) (candidates coins : List Coin) : Prop where
  nonempty : coins ≠ []
  subperm : coins.Subperm candidates
  enough : payment.target.toNat + 2 * payment.rate.feeFor coins.length payment.outputs ≤
    Coin.total coins

namespace Payment.Ample

variable {payment : Payment} {candidates coins : List Coin}

theorem positive (h : payment.Ample candidates coins) : 0 < coins.length :=
  List.length_pos_iff.mpr h.nonempty

/-- Among the largest candidates there are as many that are enough too. -/
theorem take_ranked (h : payment.Ample candidates coins) :
    coins.length ≤ (Coin.ranked candidates).length ∧
      payment.target.toNat + 2 * payment.rate.feeFor coins.length payment.outputs ≤
        Coin.total ((Coin.ranked candidates).take coins.length) := by
  obtain ⟨same, perm, sublist⟩ := h.subperm.trans (Coin.perm_ranked candidates).symm.subperm
  have best := Coin.total_le_total_take (Coin.pairwise_value_ranked candidates) sublist
  have length := sublist.length_le
  rw [perm.length_eq] at best length
  rw [Coin.total_perm perm] at best
  exact ⟨length, h.enough.trans best⟩

/-- What they are worth also pays for a change output. -/
theorem covers_change (h : payment.Ample candidates coins) :
    payment.target.toNat + payment.rate.feeFor coins.length (payment.outputs + 1) ≤
      Coin.total coins := by
  have fees := payment.rate.feeFor_succ_outputs_le h.positive payment.outputs
  exact (Nat.add_le_add_left fees _).trans h.enough

end Payment.Ample

namespace Greedy

/-- The scan stops no later than where it first could. -/
theorem exists_takeUntil?_le {enough : Nat → Nat → Bool} {coins : List Coin} {count total k : Nat}
    (positive : 0 < k) (bound : k ≤ coins.length)
    (reached : enough (count + k) (total + Coin.total (coins.take k))) :
    ∃ n, takeUntil? enough count total coins = some n ∧ n ≤ count + k := by
  induction coins generalizing count total k with
  | nil => exact absurd positive (Nat.not_lt.mpr bound)
  | cons coin rest ih =>
      rw [takeUntil?]
      split
      next => exact ⟨count + 1, rfl, Nat.add_le_add_left positive count⟩
      next more =>
          obtain ⟨k, rfl⟩ := Nat.exists_eq_succ_of_ne_zero (Nat.ne_of_gt positive)
          rw [List.take_succ_cons, Coin.total_cons, ← Nat.add_assoc total,
            show count + (k + 1) = count + 1 + k by omega] at reached
          -- One coin was not enough, so there is a later place to stop at.
          have later : 0 < k := by
            refine Nat.pos_of_ne_zero ?_
            rintro rfl
            exact more (by simpa using reached)
          obtain ⟨n, found, hn⟩ := ih later (Nat.le_of_succ_le_succ bound) reached
          exact ⟨n, found, by omega⟩

variable {payment : Payment} {candidates : List Coin}

theorem ample_of_largestFirst {picked : List Coin}
    (h : largestFirst payment (Coin.ranked candidates) = some picked) :
    payment.Ample candidates picked := by
  obtain ⟨sublist, enough⟩ := largestFirst_spec h
  constructor
  case nonempty => exact List.length_pos_iff.mp (largestFirst_eq_take h).1
  case subperm => exact sublist.subperm.trans (Coin.perm_ranked candidates).subperm
  case enough => exact enough

/-- If any set of candidates is enough, the scan finds one with no more coins. -/
theorem exists_largestFirst_le {coins : List Coin} (h : payment.Ample candidates coins) :
    ∃ picked, largestFirst payment (Coin.ranked candidates) = some picked ∧
      picked.length ≤ coins.length := by
  obtain ⟨bound, reached⟩ := h.take_ranked
  obtain ⟨n, found, least⟩ := @exists_takeUntil?_le
    (fun count total =>
      decide (payment.target.toNat + 2 * payment.rate.feeFor count payment.outputs ≤ total))
    (Coin.ranked candidates) 0 0 coins.length h.positive bound (by simpa using reached)
  rw [Nat.zero_add] at least
  refine ⟨(Coin.ranked candidates).take n, by simp only [largestFirst, found, Option.map_some], ?_⟩
  exact (List.length_take_le _ _).trans least

end Greedy

namespace Selector

/-- What a choice of the largest coins does with its pick. -/
theorem choose_largestFirst (dust : Amount) (nodeBudget : Nat) (candidates : List Coin)
    (payment : Payment) :
    let selector : Selector := { strategy := .largestFirst, dust, nodeBudget }
    (∀ picked, Greedy.largestFirst payment (Coin.ranked candidates) = some picked →
      selector.choose candidates payment = plan dust payment .largestFirst picked) ∧
    (Greedy.largestFirst payment (Coin.ranked candidates) = none →
      ∃ available required,
        selector.choose candidates payment = .error (.insufficient available required)) := by
  intro selector
  constructor
  · intro picked hpick
    simp only [choose, pick?, selector, hpick, Option.map_some]
  · intro hpick
    simp only [choose, pick?, selector, hpick, Option.map_none]
    exact ⟨_, _, rfl⟩

theorem plan_ne_insufficient {dust : Amount} {payment : Payment} {strategy : Strategy}
    {coins : List Coin} {available required : Amount} :
    plan dust payment strategy coins ≠ .error (.insufficient available required) := by
  simp only [plan]
  split
  next => simp
  next => split <;> simp

/-- Choosing the largest coins is exact and frugal. Funds are insufficient just when no set of
candidates, be it the first of the ranking or not, is worth the target and twice its fee. Otherwise
the pick is such a set, there is none with fewer coins, and it also pays for a change output. A
plan is made of it, unless it is worth more than the largest amount. -/
theorem largestFirst_exact_and_frugal (dust : Amount) (nodeBudget : Nat) (candidates : List Coin)
    (payment : Payment) :
    let selector : Selector := { strategy := .largestFirst, dust, nodeBudget }
    ((∃ available required,
        selector.choose candidates payment = .error (.insufficient available required)) ↔
      ¬∃ coins, payment.Ample candidates coins) ∧
    ((∃ coins, payment.Ample candidates coins) →
      ∃ picked, Greedy.largestFirst payment (Coin.ranked candidates) = some picked ∧
        payment.Ample candidates picked ∧
        (∀ coins, payment.Ample candidates coins → picked.length ≤ coins.length) ∧
        payment.target.toNat + payment.rate.feeFor picked.length (payment.outputs + 1) ≤
          Coin.total picked ∧
        ((∃ s, selector.choose candidates payment = .ok s ∧ s.coins = picked) ∨
          selector.choose candidates payment = .error .overflow ∧
            Amount.largest < Coin.total picked)) := by
  intro selector
  obtain ⟨planned, refused⟩ := choose_largestFirst dust nodeBudget candidates payment
  constructor
  · constructor
    · rintro ⟨available, required, insufficient⟩ ⟨coins, ample⟩
      obtain ⟨picked, hpick, -⟩ := Greedy.exists_largestFirst_le ample
      exact plan_ne_insufficient ((planned picked hpick).symm.trans insufficient)
    · intro none_ample
      apply refused
      refine Option.eq_none_iff_forall_ne_some.mpr ?_
      intro picked hpick
      exact none_ample ⟨picked, Greedy.ample_of_largestFirst hpick⟩
  · rintro ⟨coins, ample⟩
    obtain ⟨picked, hpick, -⟩ := Greedy.exists_largestFirst_le ample
    have ample := Greedy.ample_of_largestFirst hpick
    refine ⟨picked, hpick, ample, ?_, ample.covers_change, ?_⟩
    · intro coins others
      obtain ⟨other, hother, fewer⟩ := Greedy.exists_largestFirst_le others
      obtain rfl := Option.some_inj.mp (hpick.symm.trans hother)
      exact fewer
    · rw [show selector.choose candidates payment = _ from planned picked hpick]
      by_cases fits : Coin.total picked ≤ Amount.largest
      · obtain ⟨s, hs⟩ := exists_plan dust payment .largestFirst fits
        exact .inl ⟨s, hs, coins_of_plan_eq_ok hs⟩
      · rw [Nat.not_le] at fits
        exact .inr ⟨plan_eq_overflow_iff.mpr fits, fits⟩

/-- A coin of 10 costs more than it brings. The largest coin is not enough, two coins are, and
all three would not be. -/
theorem largestFirst_among_costly_coins :
    let selector : Selector := { strategy := .largestFirst, dust := 546, nodeBudget := 0 }
    let candidates : List Coin := [10, 10000, 1000].map (⟨default, ⟨·, default⟩⟩)
    let payment : Payment := { target := 10100, outputs := 1, rate := ⟨1000⟩ }
    (∃ coins, payment.Ample candidates coins) ∧ ¬payment.Ample candidates candidates ∧
      ∃ s, selector.choose candidates payment = .ok s ∧ s.coins.length = 2 ∧
        payment.Ample candidates s.coins ∧
        ∀ coins, payment.Ample candidates coins → s.coins.length ≤ coins.length := by
  intro selector candidates payment
  have ample : payment.Ample candidates (candidates.drop 1) := by
    refine ⟨by decide, (List.drop_sublist 1 candidates).subperm, by decide⟩
  obtain ⟨picked, hpick, enough, fewest, -, ⟨s, hs, rfl⟩ | ⟨overflow, -⟩⟩ :=
    (largestFirst_exact_and_frugal 546 0 candidates payment).2 ⟨_, ample⟩
  · have count : (selector.choose candidates payment).toOption.map (·.coins.length) = some 2 := by
      decide
    rw [show selector.choose candidates payment = .ok s from hs] at count ⊢
    refine ⟨⟨_, ample⟩, ?_, s, rfl, Option.some.inj count, enough, fewest⟩
    exact fun all => absurd all.enough (by decide)
  · have planned : selector.choose candidates payment ≠ .error .overflow := by decide
    exact absurd overflow planned

variable {candidates : List Coin} {outputs : Nat} {rate : FeeRate}

/-- An amount can be sent by a sweep just when all coins together cover it and the fee. -/
theorem le_maxSendable_iff {target : Amount} (positive : 1 ≤ target) :
    target ≤ maxSendable candidates outputs rate ↔
      candidates ≠ [] ∧
        Payment.required ⟨target, outputs, rate⟩ candidates.length ≤ Coin.total candidates := by
  have positive : 1 ≤ target.toNat := UInt64.le_iff_toNat_le.mp positive
  have bound := Amount.toNat_le_largest target
  rw [maxSendable, UInt64.le_iff_toNat_le, Payment.required]
  cases candidates with
  | nil =>
      have : ¬target.toNat ≤ 0 := by omega
      simpa using this
  | cons coin rest =>
      simp only [List.isEmpty_cons, Bool.false_eq_true, if_false, Amount.toNat_saturate, ne_eq,
        reduceCtorEq, not_false_eq_true, true_and]
      omega

/-- At the most that can be sent, all coins together are worth just what is required. -/
theorem total_eq_required_maxSendable (positive : 1 ≤ maxSendable candidates outputs rate)
    (fits : Coin.total candidates ≤ Amount.largest) :
    Coin.total candidates =
      Payment.required ⟨maxSendable candidates outputs rate, outputs, rate⟩ candidates.length := by
  obtain ⟨nonempty, enough⟩ := (le_maxSendable_iff positive).mp (UInt64.le_refl _)
  have value : (maxSendable candidates outputs rate).toNat =
      Coin.total candidates - rate.feeFor candidates.length outputs := by
    simp only [maxSendable, List.isEmpty_iff, if_neg nonempty, Amount.toNat_saturate]
    omega
  simp only [Payment.required] at enough ⊢
  omega

/-- Coins that are worth just what the payment requires leave neither change nor excess. -/
theorem plan_of_total_eq_required {dust : Amount} {payment : Payment} (strategy : Strategy)
    {coins : List Coin} (worthwhile : 1 ≤ dust) (fits : Coin.total coins ≤ Amount.largest)
    (exact : Coin.total coins = payment.required coins.length) :
    ∃ s, plan dust payment strategy coins = .ok s ∧ s.coins = coins ∧ ¬s.hasChange ∧
      s.change = 0 ∧ s.excess = 0 ∧ s.size = transactionSize coins.length payment.outputs ∧
      s.fee.toNat = payment.rate.feeFor coins.length payment.outputs := by
  have dust_pos : 1 ≤ dust.toNat := UInt64.le_iff_toNat_le.mp worthwhile
  have fees := payment.rate.feeFor_le_succ_outputs coins.length payment.outputs
  rw [Payment.required] at exact
  have no_change : ¬(min (payment.target.toNat
        + payment.rate.feeFor coins.length (payment.outputs + 1)) Amount.largest ≤
      Coin.total coins ∧ dust.toNat ≤ Coin.total coins - min (payment.target.toNat
        + payment.rate.feeFor coins.length (payment.outputs + 1)) Amount.largest) := by
    omega
  simp only [plan, if_neg (Nat.not_lt.mpr fits), Amount.toNat_saturate, if_neg no_change]
  refine ⟨_, rfl, rfl, by simp [Selection.hasChange], rfl, ?_, rfl, ?_⟩
  · simp [exact, Amount.saturate]
  · rw [Amount.toNat_saturate]
    omega

/-- A sweep plans with every coin if all together cover target and fee. Otherwise funds are
insufficient. -/
theorem choose_sweepAll (dust : Amount) (nodeBudget : Nat) (candidates : List Coin)
    (payment : Payment) :
    let selector : Selector := { strategy := .sweepAll, dust, nodeBudget }
    let covered := candidates ≠ [] ∧ payment.required candidates.length ≤ Coin.total candidates
    (covered → selector.choose candidates payment =
      plan dust payment .sweepAll (Coin.ranked candidates)) ∧
    (¬covered → ∃ available required,
      selector.choose candidates payment = .error (.insufficient available required)) := by
  intro selector covered
  have perm := Coin.perm_ranked candidates
  have swept : Greedy.sweepAll payment (Coin.ranked candidates) =
      if covered then some (Coin.ranked candidates) else none := by
    rw [Greedy.sweepAll, perm.isEmpty_eq, Coin.total_perm perm, perm.length_eq]
    simp only [Bool.or_eq_true, List.isEmpty_iff, decide_eq_true_iff]
    split
    next short => rw [if_neg (fun h => short.elim h.1 (Nat.not_lt.mpr h.2))]
    next enough =>
        rw [not_or, Nat.not_lt] at enough
        rw [if_pos enough]
  constructor
  · intro h
    simp only [choose, pick?, selector, swept, if_pos h, Option.map_some]
  · intro h
    simp only [choose, pick?, selector, swept, if_neg h, Option.map_none]
    exact ⟨_, _, rfl⟩

/-- A sweep and the most that it can send meet in one amount. Up to that amount funds are not
insufficient: if the coins are worth no more than the largest amount, every one of them is planned,
and else the sweep reports just that. At that amount no change and no excess is left, and the fee
is the one for all the coins. -/
theorem sweepAll_meets_maxSendable {dust : Amount} (worthwhile : 1 ≤ dust) (nodeBudget : Nat)
    (candidates : List Coin) (outputs : Nat) (rate : FeeRate) :
    let selector : Selector := { strategy := .sweepAll, dust, nodeBudget }
    let sweep (target : Amount) := selector.choose candidates ⟨target, outputs, rate⟩
    let most := maxSendable candidates outputs rate
    (∀ target, 1 ≤ target →
      ((¬∃ available required, sweep target = .error (.insufficient available required)) ↔
        target ≤ most)) ∧
    (Coin.total candidates ≤ Amount.largest →
      (∀ target, 1 ≤ target → target ≤ most →
        ∃ s, sweep target = .ok s ∧ s.coins = Coin.ranked candidates ∧
          s.coins.Perm candidates) ∧
      (1 ≤ most → ∃ s, sweep most = .ok s ∧ ¬s.hasChange ∧ s.change = 0 ∧ s.excess = 0 ∧
        s.size = transactionSize candidates.length outputs ∧
        s.fee.toNat = rate.feeFor candidates.length outputs)) ∧
    (Amount.largest < Coin.total candidates →
      ∀ target, 1 ≤ target → target ≤ most → sweep target = .error .overflow) := by
  intro selector sweep most
  have perm := Coin.perm_ranked candidates
  have total := Coin.total_perm perm
  have planned {target : Amount} (positive : 1 ≤ target) (sendable : target ≤ most) :
      sweep target = plan dust ⟨target, outputs, rate⟩ .sweepAll (Coin.ranked candidates) :=
    (choose_sweepAll dust nodeBudget candidates _).1 ((le_maxSendable_iff positive).mp sendable)
  refine ⟨?_, ?_, ?_⟩
  · intro target positive
    constructor
    · intro funded
      by_contra beyond
      rw [le_maxSendable_iff positive] at beyond
      exact funded ((choose_sweepAll dust nodeBudget candidates _).2 beyond)
    · rintro sendable ⟨available, required, insufficient⟩
      exact plan_ne_insufficient ((planned positive sendable).symm.trans insufficient)
  · intro fits
    rw [← total] at fits
    constructor
    · intro target positive sendable
      obtain ⟨s, hs⟩ := exists_plan dust ⟨target, outputs, rate⟩ .sweepAll fits
      have coins := coins_of_plan_eq_ok hs
      exact ⟨s, (planned positive sendable).trans hs, coins, coins ▸ perm⟩
    · intro positive
      have exact : Coin.total (Coin.ranked candidates) =
          Payment.required ⟨most, outputs, rate⟩ (Coin.ranked candidates).length := by
        rw [total, perm.length_eq]
        exact total_eq_required_maxSendable positive (total ▸ fits)
      obtain ⟨s, hs, -, noChange, change, excess, size, fee⟩ :=
        plan_of_total_eq_required .sweepAll worthwhile fits exact
      rw [perm.length_eq] at size fee
      exact ⟨s, (planned positive (UInt64.le_refl most)).trans hs, noChange, change, excess, size,
        fee⟩
  · intro beyond target positive sendable
    rw [planned positive sendable]
    exact plan_eq_overflow_iff.mpr (by rwa [total])

/-- Two coins send all but the fee of 340, and nothing more, even where change of one unit would
be worth an output. Together with the largest amount there is, they send nothing. -/
theorem sweepAll_of_two_coins :
    let dust : Amount := 1
    let selector : Selector := { strategy := .sweepAll, dust, nodeBudget := 0 }
    let coins (values : List Amount) : List Coin := values.map (⟨default, ⟨·, default⟩⟩)
    let payment (target : Amount) : Payment := ⟨target, 1, ⟨1000⟩⟩
    1 ≤ dust ∧ maxSendable (coins [3000, 5000]) 1 ⟨1000⟩ = 7660 ∧
      (∃ s, selector.choose (coins [3000, 5000]) (payment 7660) = .ok s ∧ s.change = 0 ∧
        s.excess = 0 ∧ s.fee.toNat = 340) ∧
      (∃ available required, selector.choose (coins [3000, 5000]) (payment 7661) =
        .error (.insufficient available required)) ∧
      selector.choose (coins [18446744073709551615, 3000, 5000]) (payment 7660) =
        .error .overflow := by
  intro dust selector coins payment
  have worthwhile : 1 ≤ dust := by decide
  have most : maxSendable (coins [3000, 5000]) 1 ⟨1000⟩ = 7660 := by decide
  have small := sweepAll_meets_maxSendable worthwhile 0 (coins [3000, 5000]) 1 ⟨1000⟩
  have large := sweepAll_meets_maxSendable worthwhile 0
    (coins [18446744073709551615, 3000, 5000]) 1 ⟨1000⟩
  simp only [most] at small
  obtain ⟨s, hs, -, change, excess, -, fee⟩ := (small.2.1 (by decide)).2 (by decide)
  refine ⟨worthwhile, most, ⟨s, hs, change, excess, fee.trans (by decide)⟩, ?_, ?_⟩
  · exact not_not.mp (mt (small.1 7661 (by decide)).mp (by decide))
  · exact large.2.2 (by decide) 7660 (by decide) (by decide)

end Selector

end HdWallet
