import HdWallet.Proofs.Selection.Search
import HdWallet.Selection.Selector

/-!
# Plans add up

Every strategy picks, from the ranked candidates, coins that cover the target and the
fee of a transaction without a change output. From that alone the plan made of the
pick is balanced: no formula of it saturates, although several of them could.
-/

namespace HdWallet

namespace Coin

@[simp] theorem total_nil : total [] = 0 := rfl

@[simp] theorem total_cons (coin : Coin) (coins : List Coin) :
    total (coin :: coins) = coin.value.toNat + total coins := rfl

theorem total_perm {coins others : List Coin} (h : coins.Perm others) :
    total coins = total others := by
  induction h with
  | nil => rfl
  | cons coin _ ih => rw [total_cons, total_cons, ih]
  | swap a b rest =>
      simp only [total_cons]
      omega
  | trans _ _ first second => exact first.trans second

theorem total_append (coins others : List Coin) :
    total (coins ++ others) = total coins + total others := by
  induction coins with
  | nil => rw [List.nil_append, total_nil, Nat.zero_add]
  | cons coin rest ih => rw [List.cons_append, total_cons, total_cons, ih, Nat.add_assoc]

/-- Coins are worth what those with a property and those without it are worth. -/
theorem total_filter_add_total_filter_not (p : Coin → Bool) (coins : List Coin) :
    total (coins.filter p) + total (coins.filter (!p ·)) = total coins := by
  rw [← total_append, total_perm (List.filter_append_perm p coins)]

end Coin

namespace Greedy

theorem takeUntil?_spec {enough : Nat → Nat → Bool} {count total n : Nat} {coins : List Coin}
    (h : takeUntil? enough count total coins = some n) :
    ∃ taken, n = count + taken ∧ 0 < taken ∧ taken ≤ coins.length ∧
      enough n (total + Coin.total (coins.take taken)) := by
  induction coins generalizing count total with
  | nil => simp [takeUntil?] at h
  | cons coin rest ih =>
      rw [takeUntil?] at h
      split at h
      next reached =>
          cases h
          exact ⟨1, rfl, Nat.one_pos, Nat.le_add_left _ _, by simpa using reached⟩
      next =>
          obtain ⟨taken, rfl, -, hle, reached⟩ := ih h
          refine ⟨taken + 1, by omega, Nat.succ_pos _, Nat.succ_le_succ hle, ?_⟩
          rwa [List.take_succ_cons, Coin.total_cons, ← Nat.add_assoc]

theorem largestFirst_spec {payment : Payment} {ranked picked : List Coin}
    (h : largestFirst payment ranked = some picked) :
    picked.Sublist ranked ∧
      payment.target.toNat + 2 * payment.rate.feeFor picked.length payment.outputs ≤
        Coin.total picked := by
  obtain ⟨n, hn, rfl⟩ := Option.map_eq_some_iff.mp h
  obtain ⟨taken, rfl, -, hle, reached⟩ := takeUntil?_spec hn
  rw [Nat.zero_add, Nat.zero_add, decide_eq_true_iff] at reached
  rw [Nat.zero_add, List.length_take, Nat.min_eq_left hle]
  exact ⟨List.take_sublist _ _, reached⟩

theorem smallestFirst_spec {payment : Payment} {ranked picked : List Coin}
    (h : smallestFirst payment ranked = some picked) :
    picked.Sublist ranked ∧
      payment.target.toNat + payment.rate.feeFor picked.length (payment.outputs + 1) ≤
        Coin.total picked := by
  obtain ⟨n, hn, rfl⟩ := Option.map_eq_some_iff.mp h
  obtain ⟨taken, rfl, -, hle, reached⟩ := takeUntil?_spec hn
  rw [List.length_reverse] at hle
  rw [Nat.zero_add, Nat.zero_add, decide_eq_true_iff, List.take_reverse,
    Coin.total_perm (List.reverse_perm _)] at reached
  have hlength : ranked.length - (ranked.length - taken) = taken := by omega
  rw [Nat.zero_add, List.length_drop, hlength]
  exact ⟨List.drop_sublist _ _, reached⟩

theorem sweepAll_spec {payment : Payment} {ranked picked : List Coin}
    (h : sweepAll payment ranked = some picked) :
    picked = ranked ∧ payment.required picked.length ≤ Coin.total picked := by
  rw [sweepAll] at h
  split at h
  next => simp at h
  next enough =>
      cases h
      simp only [Bool.or_eq_true, decide_eq_true_iff, not_or, Nat.not_lt] at enough
      exact ⟨rfl, enough.2⟩

end Greedy

namespace Search

/-- Increasing positions pick a sublist, and what it is worth is what they are worth. -/
theorem Positions.pick_spec {coins : List Coin} {next : Nat} {positions : List Nat}
    (h : Positions (coins.map (·.value.toNat)) next positions) :
    (positions.filterMap (coins[·]?)).Sublist (coins.drop next) ∧
      (positions.filterMap (coins[·]?)).length = positions.length ∧
      Coin.total (positions.filterMap (coins[·]?)) =
        worth (coins.map (·.value.toNat)) positions := by
  induction positions generalizing next with
  | nil => exact ⟨List.nil_sublist _, rfl, rfl⟩
  | cons i rest ih =>
      obtain ⟨hnext, bound⟩ := h.inRange i List.mem_cons_self
      rw [List.length_map] at bound
      have hrest : Positions (coins.map (·.value.toNat)) (i + 1) rest := by
        obtain ⟨before, increasing⟩ := List.pairwise_cons.mp h.increasing
        refine ⟨increasing, fun j hj => ⟨before j hj, ?_⟩⟩
        exact (h.inRange j (List.mem_cons_of_mem i hj)).2
      obtain ⟨hsublist, hlength, htotal⟩ := ih hrest
      rw [List.filterMap_cons_some (List.getElem?_eq_getElem bound)]
      refine ⟨?_, congrArg (· + 1) hlength, ?_⟩
      · have later : (coins.drop i).Sublist (coins.drop next) :=
          List.drop_sublist_drop_left coins hnext
        rw [List.drop_eq_getElem_cons bound] at later
        exact (hsublist.cons_cons _).trans later
      · rw [Coin.total_cons, htotal, worth, List.getElem?_map, List.getElem?_eq_getElem bound]
        rfl

end Search

namespace Selection

/-- A plan that adds up, made for a payment under a dust threshold. All sums are exact. -/
structure Balanced (s : Selection) (payment : Payment) (dust : Amount) : Prop where
  target : s.target = payment.target
  total : s.total.toNat = Coin.total s.coins
  balance : s.total.toNat = s.target.toNat + s.fee.toNat + s.change.toNat
  change_ge : s.change = 0 ∨ dust ≤ s.change
  fee_ge : payment.rate.fee s.size ≤ s.fee.toNat
  fee_eq : s.hasChange → s.fee.toNat = payment.rate.fee s.size
  /-- Without change, what is paid beyond the fee is worth less than a change output. -/
  fee_lt : ¬s.hasChange → ∃ beyond,
    s.fee.toNat = payment.rate.feeFor s.coins.length payment.outputs + beyond ∧
      beyond < dust.toNat + (payment.rate.feeFor s.coins.length (payment.outputs + 1)
        - payment.rate.feeFor s.coins.length payment.outputs)
  excess : s.total.toNat =
    s.target.toNat + payment.rate.feeFor s.coins.length payment.outputs + s.excess.toNat

theorem hasChange_iff (s : Selection) : s.hasChange ↔ 0 < s.change.toNat := by
  simp [hasChange, UInt64.lt_iff_toNat_lt]

end Selection

namespace Selector

theorem plan_eq_overflow_iff {dust : Amount} {payment : Payment} {strategy : Strategy}
    {coins : List Coin} :
    plan dust payment strategy coins = .error .overflow ↔ Amount.largest < Coin.total coins := by
  simp only [plan]
  split
  next overflow => simp [overflow]
  next fits =>
      simp only [fits, iff_false]
      split <;> simp

theorem coins_of_plan_eq_ok {dust : Amount} {payment : Payment} {strategy : Strategy}
    {coins : List Coin} {s : Selection} (h : plan dust payment strategy coins = .ok s) :
    s.coins = coins := by
  simp only [plan] at h
  split at h
  next => simp at h
  next =>
      split at h <;> cases h <;> rfl

/-- No plan is worth more than the largest amount, so its total is exact. -/
theorem total_of_plan_eq_ok {dust : Amount} {payment : Payment} {strategy : Strategy}
    {coins : List Coin} {s : Selection} (h : plan dust payment strategy coins = .ok s) :
    s.total.toNat = Coin.total s.coins := by
  have exact (fits : ¬Amount.largest < Coin.total coins) :
      (Amount.saturate (Coin.total coins)).toNat = Coin.total coins := by
    rw [Amount.toNat_saturate]
    omega
  simp only [plan] at h
  split at h
  next => simp at h
  next fits => split at h <;> cases h <;> exact exact fits

/-- A plan with a change output pays just the fee, and the rest is change. -/
theorem balanced_with_change {dust : Amount} {payment : Payment} {strategy : Strategy}
    {coins : List Coin} (worthwhile : 1 ≤ dust) (fits : Coin.total coins ≤ Amount.largest)
    (covers : payment.target.toNat + payment.rate.feeFor coins.length (payment.outputs + 1) ≤
      Coin.total coins)
    (change_ge : dust.toNat ≤ Coin.total coins -
      (payment.target.toNat + payment.rate.feeFor coins.length (payment.outputs + 1))) :
    Selection.Balanced {
      coins
      total := .saturate (Coin.total coins)
      target := payment.target
      change := .saturate (Coin.total coins -
        (payment.target.toNat + payment.rate.feeFor coins.length (payment.outputs + 1)))
      size := transactionSize coins.length (payment.outputs + 1)
      fee := .saturate (payment.rate.feeFor coins.length (payment.outputs + 1))
      excess := .saturate (Coin.total coins -
        (payment.target.toNat + payment.rate.feeFor coins.length payment.outputs))
      strategy } payment dust := by
  have dust_pos : 1 ≤ dust.toNat := UInt64.le_iff_toNat_le.mp worthwhile
  have fees := payment.rate.feeFor_le_succ_outputs coins.length payment.outputs
  have fee_le : payment.rate.feeFor coins.length (payment.outputs + 1) ≤ Amount.largest :=
    payment.rate.fee_le_largest _
  constructor
  case target => rfl
  case total => simpa using fits
  case balance =>
      simp only [Amount.toNat_saturate]
      omega
  case change_ge =>
      right
      rw [UInt64.le_iff_toNat_le, Amount.toNat_saturate]
      omega
  case fee_ge =>
      change payment.rate.feeFor coins.length (payment.outputs + 1) ≤ _
      rw [Amount.toNat_saturate]
      omega
  case fee_eq =>
      intro _
      rw [Amount.toNat_saturate]
      exact Nat.min_eq_left fee_le
  case fee_lt =>
      intro noChange
      rw [Selection.hasChange_iff, Amount.toNat_saturate] at noChange
      omega
  case excess =>
      simp only [Amount.toNat_saturate]
      omega

/-- A plan without a change output pays all that is over the target. -/
theorem balanced_without_change {dust : Amount} {payment : Payment} {strategy : Strategy}
    {coins : List Coin} (worthwhile : 1 ≤ dust) (fits : Coin.total coins ≤ Amount.largest)
    (enough : payment.required coins.length ≤ Coin.total coins)
    (short : Coin.total coins < payment.target.toNat +
      payment.rate.feeFor coins.length (payment.outputs + 1) + dust.toNat) :
    Selection.Balanced {
      coins
      total := .saturate (Coin.total coins)
      target := payment.target
      change := 0
      size := transactionSize coins.length payment.outputs
      fee := .saturate (Coin.total coins - payment.target.toNat)
      excess := .saturate (Coin.total coins -
        (payment.target.toNat + payment.rate.feeFor coins.length payment.outputs))
      strategy } payment dust := by
  have dust_pos : 1 ≤ dust.toNat := UInt64.le_iff_toNat_le.mp worthwhile
  rw [Payment.required] at enough
  constructor
  case target => rfl
  case total => simpa using fits
  case balance =>
      simp only [Amount.toNat_saturate, UInt64.toNat_zero]
      omega
  case change_ge => exact .inl rfl
  case fee_ge =>
      change payment.rate.feeFor coins.length payment.outputs ≤ _
      rw [Amount.toNat_saturate]
      omega
  case fee_eq => simp [Selection.hasChange_iff]
  case fee_lt =>
      intro _
      refine ⟨Coin.total coins - payment.target.toNat
        - payment.rate.feeFor coins.length payment.outputs, ?_, ?_⟩
      · rw [Amount.toNat_saturate]
        dsimp only
        omega
      · dsimp only
        omega
  case excess =>
      simp only [Amount.toNat_saturate]
      omega

/-- Coins that cover the target and the fee make a balanced plan. -/
theorem plan_balanced {dust : Amount} {payment : Payment} {strategy : Strategy}
    {coins : List Coin} {s : Selection} (worthwhile : 1 ≤ dust)
    (enough : payment.required coins.length ≤ Coin.total coins)
    (h : plan dust payment strategy coins = .ok s) : s.Balanced payment dust := by
  simp only [plan, Amount.toNat_saturate] at h
  split at h
  next => simp at h
  next fits =>
      rw [Nat.not_lt] at fits
      split at h
      next change =>
          cases h
          have dust_pos : 1 ≤ dust.toNat := UInt64.le_iff_toNat_le.mp worthwhile
          -- The rest is positive, so what has to be paid did not saturate.
          have bound : min (payment.target.toNat
                + payment.rate.feeFor coins.length (payment.outputs + 1)) Amount.largest =
              payment.target.toNat + payment.rate.feeFor coins.length (payment.outputs + 1) := by
            omega
          rw [bound] at change ⊢
          exact balanced_with_change worthwhile fits change.1 change.2
      next noChange =>
          cases h
          apply balanced_without_change worthwhile fits enough
          omega

/-- Whatever the strategy, the pick is a sublist of the ranked candidates and covers the
payment. -/
theorem pick?_spec {selector : Selector} {payment : Payment} {candidates picked : List Coin}
    {strategy : Strategy}
    (h : selector.pick? payment (Coin.ranked candidates) = some (picked, strategy)) :
    picked.Sublist (Coin.ranked candidates) ∧
      payment.required picked.length ≤ Coin.total picked := by
  have largest : Greedy.largestFirst payment (Coin.ranked candidates) = some picked →
      picked.Sublist (Coin.ranked candidates) ∧
        payment.required picked.length ≤ Coin.total picked := by
    intro h
    obtain ⟨hsublist, enough⟩ := Greedy.largestFirst_spec h
    refine ⟨hsublist, ?_⟩
    rw [Payment.required]
    omega
  rw [pick?] at h
  cases hstrategy : selector.strategy with
  | largestFirst =>
      rw [hstrategy] at h
      obtain ⟨coins, hcoins, hpair⟩ := Option.map_eq_some_iff.mp h
      cases hpair
      exact largest hcoins
  | smallestFirst =>
      rw [hstrategy] at h
      obtain ⟨coins, hcoins, hpair⟩ := Option.map_eq_some_iff.mp h
      cases hpair
      obtain ⟨hsublist, enough⟩ := Greedy.smallestFirst_spec hcoins
      have fees := payment.rate.feeFor_le_succ_outputs picked.length payment.outputs
      exact ⟨hsublist, Nat.le_trans (Nat.add_le_add_left fees _) enough⟩
  | sweepAll =>
      rw [hstrategy] at h
      obtain ⟨coins, hcoins, hpair⟩ := Option.map_eq_some_iff.mp h
      cases hpair
      obtain ⟨rfl, enough⟩ := Greedy.sweepAll_spec hcoins
      exact ⟨List.Sublist.refl _, enough⟩
  | branchAndBound =>
      simp only [hstrategy] at h
      split at h
      next positions found =>
          cases h
          have covers :=
            (Search.firstBest_of_run_eq_found (Coin.pairwise_value_ranked candidates) found).covers
          have hpositions : Search.Positions ((Coin.ranked candidates).map (·.value.toNat)) 0
              positions :=
            ⟨covers.increasing, fun i hi => ⟨Nat.zero_le i, covers.inRange i hi⟩⟩
          obtain ⟨hsublist, hlength, htotal⟩ := hpositions.pick_spec
          rw [hlength, htotal]
          exact ⟨hsublist, covers.enough⟩
      next => simp at h
      next =>
          obtain ⟨coins, hcoins, hpair⟩ := Option.map_eq_some_iff.mp h
          cases hpair
          exact largest hcoins

/-- What a successful choice is: a plan for coins that were picked. -/
theorem choose_eq_ok {selector : Selector} {candidates : List Coin} {payment : Payment}
    {s : Selection} (h : selector.choose candidates payment = .ok s) :
    ∃ picked strategy, selector.pick? payment (Coin.ranked candidates) = some (picked, strategy) ∧
      plan selector.dust payment strategy picked = .ok s := by
  simp only [choose] at h
  split at h
  next picked strategy hpick => exact ⟨picked, strategy, hpick, h⟩
  next => simp at h

theorem coins_sublist_of_choose {selector : Selector} {candidates : List Coin} {payment : Payment}
    {s : Selection} (h : selector.choose candidates payment = .ok s) :
    s.coins.Sublist (Coin.ranked candidates) := by
  obtain ⟨picked, strategy, hpick, hplan⟩ := choose_eq_ok h
  rw [coins_of_plan_eq_ok hplan]
  exact (pick?_spec hpick).1

theorem total_of_choose {selector : Selector} {candidates : List Coin} {payment : Payment}
    {s : Selection} (h : selector.choose candidates payment = .ok s) :
    s.total.toNat = Coin.total s.coins := by
  obtain ⟨picked, strategy, -, hplan⟩ := choose_eq_ok h
  exact total_of_plan_eq_ok hplan

/-- Every plan adds up, under every strategy and node budget, as long as a change output
of value zero is not worth planning. Its coins are a sublist of the candidates, sorted by
value from high to low and then by outpoint. Overflow is reported only for a pick that is
worth more than the largest amount. -/
theorem choose_balanced (selector : Selector) (candidates : List Coin) (payment : Payment)
    (worthwhile : 1 ≤ selector.dust) :
    (∀ s, selector.choose candidates payment = .ok s →
      (Coin.ranked candidates).Perm candidates ∧
        (Coin.ranked candidates).Pairwise (fun a b => (a.ranksBefore b : Prop)) ∧
        s.coins.Sublist (Coin.ranked candidates) ∧ s.Balanced payment selector.dust) ∧
    (selector.choose candidates payment = .error .overflow →
      ∃ picked strategy,
        selector.pick? payment (Coin.ranked candidates) = some (picked, strategy) ∧
          Amount.largest < Coin.total picked) := by
  constructor
  · intro s h
    obtain ⟨picked, strategy, hpick, hplan⟩ := choose_eq_ok h
    obtain ⟨-, enough⟩ := pick?_spec hpick
    exact ⟨Coin.perm_ranked candidates, Coin.pairwise_ranked candidates,
      coins_sublist_of_choose h, plan_balanced worthwhile enough hplan⟩
  · intro h
    simp only [choose] at h
    split at h
    next picked strategy hpick => exact ⟨picked, strategy, hpick, plan_eq_overflow_iff.mp h⟩
    next => simp at h

/-- Change that is worth just the dust threshold is planned. -/
theorem balanced_at_dust_threshold :
    let selector : Selector := { strategy := .branchAndBound, dust := 466, nodeBudget := 100 }
    let candidates : List Coin := [3000, 5000, 6000, 4000].map (⟨default, ⟨·, default⟩⟩)
    let payment : Payment := { target := 8160, outputs := 1, rate := ⟨1000⟩ }
    1 ≤ selector.dust ∧ ∃ s, selector.choose candidates payment = .ok s ∧ s.change = 466 ∧
      s.coins.Sublist (Coin.ranked candidates) ∧ s.Balanced payment selector.dust := by
  intro selector candidates payment
  have worthwhile : 1 ≤ selector.dust := by decide
  have planned : (selector.choose candidates payment).toOption.map (·.change) = some 466 := by
    decide
  cases hchoose : selector.choose candidates payment with
  | error failure =>
      rw [hchoose] at planned
      cases planned
  | ok s =>
      rw [hchoose] at planned
      obtain ⟨-, -, hsublist, hbalanced⟩ :=
        (choose_balanced selector candidates payment worthwhile).1 s hchoose
      exact ⟨worthwhile, s, rfl, Option.some.inj planned, hsublist, hbalanced⟩

end Selector

end HdWallet
