import HdWallet.Proofs.Selection.Plan

/-!
# The change output that a plan counts on

Whether a plan pays for a change output is decided by the dust threshold, and whoever uses the
plan sees it from the change being positive. The two agree unless the threshold is zero. Then a
rest of nothing is worth an output too: the plan has the size and the fee of a transaction with a
change output, and no change. Where the target and that fee together are more than the largest
amount, such a plan also takes a fee that its coins do not cover.
-/

namespace HdWallet

theorem transactionSize_succ_outputs_ne {inputs outputs : Nat} :
    transactionSize inputs (outputs + 1) ≠ transactionSize inputs outputs := by
  rw [transactionSize_succ_outputs]
  exact Nat.ne_of_gt (Nat.lt_add_of_pos_right (by decide))

namespace Payment

def withChange (payment : Payment) (inputs : Nat) : Nat :=
  payment.target.toNat + payment.rate.feeFor inputs (payment.outputs + 1)

end Payment

namespace Selection

/-- The plan's size is that of a transaction with the outputs paid for, and one more just if the
plan has change. -/
def SizeFits (s : Selection) (payment : Payment) : Prop :=
  s.size = transactionSize s.coins.length
    (if s.hasChange then payment.outputs + 1 else payment.outputs)

instance (s : Selection) (payment : Payment) : Decidable (s.SizeFits payment) :=
  inferInstanceAs (Decidable (_ = _))

/-- What the coins are worth is what is paid, the fee and the change. -/
def AddsUp (s : Selection) : Prop :=
  s.total.toNat = s.target.toNat + s.fee.toNat + s.change.toNat

instance (s : Selection) : Decidable s.AddsUp := inferInstanceAs (Decidable (_ = _))

/-- The coins are worth just what is asked of them with a change output, capped at the largest
amount, and a rest of nothing is not below the threshold. -/
def LeavesNothing (s : Selection) (payment : Payment) (dust : Amount) : Prop :=
  dust = 0 ∧ s.total.toNat = min (payment.withChange s.coins.length) Amount.largest

instance (s : Selection) (payment : Payment) (dust : Amount) :
    Decidable (s.LeavesNothing payment dust) :=
  inferInstanceAs (Decidable (_ ∧ _))

/-- What a plan is made of. It counts on a change output just if the rest reaches the dust
threshold. -/
structure Planned (s : Selection) (payment : Payment) (dust : Amount) : Prop where
  target : s.target = payment.target
  fits : s.total.toNat ≤ Amount.largest
  enough : payment.required s.coins.length ≤ s.total.toNat
  output : let bound := min (payment.withChange s.coins.length) Amount.largest
    (bound + dust.toNat ≤ s.total.toNat ∧ s.change.toNat = s.total.toNat - bound ∧
      s.size = transactionSize s.coins.length (payment.outputs + 1) ∧
      s.fee.toNat = payment.rate.feeFor s.coins.length (payment.outputs + 1)) ∨
    (s.total.toNat < bound + dust.toNat ∧ s.change.toNat = 0 ∧
      s.size = transactionSize s.coins.length payment.outputs ∧
      s.fee.toNat = s.total.toNat - s.target.toNat)

theorem leavesNothing_iff {s : Selection} {payment : Payment} {dust : Amount} :
    s.LeavesNothing payment dust ↔ dust.toNat = 0 ∧
      s.total.toNat = min (payment.withChange s.coins.length) Amount.largest := by
  rw [LeavesNothing, ← UInt64.toNat_inj, UInt64.toNat_zero]

namespace Planned

variable {s : Selection} {payment : Payment} {dust : Amount}

/-- A plan leaves nothing just if it has no change and counts on an output for it. -/
theorem leavesNothing_iff_size (planned : s.Planned payment dust) :
    s.LeavesNothing payment dust ↔
      ¬s.hasChange ∧ s.size = transactionSize s.coins.length (payment.outputs + 1) := by
  rw [leavesNothing_iff, hasChange_iff]
  rcases planned.output with ⟨reached, change, size, -⟩ | ⟨short, change, size, -⟩
  · rw [change, and_iff_left size]
    omega
  · refine iff_of_false ?_ fun counted =>
      transactionSize_succ_outputs_ne (counted.2.symm.trans size)
    rintro ⟨none, exact⟩
    omega

/-- Size and change disagree just if the plan leaves nothing. -/
theorem sizeFits_iff (planned : s.Planned payment dust) :
    s.SizeFits payment ↔ ¬s.LeavesNothing payment dust := by
  rw [planned.leavesNothing_iff_size, SizeFits]
  rcases planned.output with ⟨-, -, size, -⟩ | ⟨-, change, size, -⟩
  · by_cases changed : s.hasChange
    · rw [if_pos changed]
      exact iff_of_true size fun counted => counted.1 changed
    · rw [if_neg changed, size]
      exact iff_of_false transactionSize_succ_outputs_ne (not_not.mpr ⟨changed, rfl⟩)
  · have unchanged : ¬s.hasChange := by
      rw [hasChange_iff]
      omega
    rw [if_neg unchanged, size]
    exact iff_of_true rfl fun counted => transactionSize_succ_outputs_ne counted.2.symm

/-- The sums are exact unless the plan leaves nothing because what is asked was capped. -/
theorem addsUp_iff (planned : s.Planned payment dust) :
    s.AddsUp ↔ ¬(s.LeavesNothing payment dust ∧
      Amount.largest < payment.withChange s.coins.length) := by
  have fits := planned.fits
  have enough := planned.enough
  have output := planned.output
  rw [leavesNothing_iff, AddsUp, planned.target]
  simp only [Payment.required, Payment.withChange, planned.target] at enough output ⊢
  omega

end Planned

end Selection

namespace Selector

variable {selector : Selector} {candidates : List Coin} {payment : Payment} {s : Selection}

theorem planned_of_plan {dust : Amount} {strategy : Strategy} {coins : List Coin}
    (enough : payment.required coins.length ≤ Coin.total coins)
    (h : plan dust payment strategy coins = .ok s) : s.Planned payment dust := by
  have fee_le := payment.rate.fee_le_largest (transactionSize coins.length (payment.outputs + 1))
  change payment.rate.feeFor coins.length (payment.outputs + 1) ≤ _ at fee_le
  simp only [plan, Amount.toNat_saturate] at h
  split at h
  next => cases h
  next fits =>
      rw [Nat.not_lt] at fits
      split at h
      next reached =>
          cases h
          refine ⟨rfl, ?_, ?_, .inl ⟨?_, ?_, rfl, ?_⟩⟩
          all_goals simp only [Amount.toNat_saturate, Payment.withChange]
          all_goals omega
      next short =>
          cases h
          refine ⟨rfl, ?_, ?_, .inr ⟨?_, rfl, rfl, ?_⟩⟩
          all_goals simp only [Amount.toNat_saturate, Payment.withChange]
          all_goals omega

/-- Every strategy's plan has the size that its change asks for and adds up, except where it
leaves nothing, at a dust threshold of zero. Such a plan has no change and the size of a
transaction with a change output, and its sums are exact unless the target and the fee of that
transaction are more than the largest amount. -/
theorem change_output_of_choose (chosen : selector.choose candidates payment = .ok s) :
    s.target = payment.target ∧
      (s.SizeFits payment ↔ ¬s.LeavesNothing payment selector.dust) ∧
      (s.AddsUp ↔ ¬(s.LeavesNothing payment selector.dust ∧
        Amount.largest < payment.withChange s.coins.length)) ∧
      (s.LeavesNothing payment selector.dust ↔
        ¬s.hasChange ∧ s.size = transactionSize s.coins.length (payment.outputs + 1)) := by
  obtain ⟨picked, strategy, hpick, hplan⟩ := choose_eq_ok chosen
  have planned := planned_of_plan (pick?_spec hpick).2 hplan
  exact ⟨planned.target, planned.sizeFits_iff, planned.addsUp_iff,
    planned.leavesNothing_iff_size⟩

/-- At a threshold of zero a rest of one unit is change. -/
theorem change_output_of_one_unit :
    let selector : Selector := { strategy := .branchAndBound, dust := 0, nodeBudget := 100 }
    let candidates : List Coin := [⟨default, ⟨10227, default⟩⟩]
    let payment : Payment := { target := 10000, outputs := 1, rate := ⟨1000⟩ }
    let s : Selection := {
      coins := candidates, total := 10227, target := 10000, change := 1, size := 226, fee := 226
      excess := 35, strategy := .branchAndBound }
    selector.choose candidates payment = .ok s ∧ s.SizeFits payment ∧ s.AddsUp := by
  intro selector candidates payment s
  have chosen : selector.choose candidates payment = .ok s := by decide +kernel
  have rest : ¬s.LeavesNothing payment selector.dust := by decide
  obtain ⟨-, size, sums, -⟩ := change_output_of_choose chosen
  exact ⟨chosen, size.mpr rest, sums.mpr fun left => rest left.1⟩

/-- A rest of nothing is taken for an output: by a coin of 10226 with a target of 10000, and by a
coin of the largest amount that the target and the fee with a change output exceed. -/
theorem output_without_change :
    let selector : Selector := { strategy := .branchAndBound, dust := 0, nodeBudget := 100 }
    let small : Payment := { target := 10000, outputs := 1, rate := ⟨1000⟩ }
    let large : Payment := { target := 18446744073709551415, outputs := 1, rate := ⟨1000⟩ }
    let pays (payment : Payment) (value fee excess : Amount) : Selection := {
      coins := [⟨default, ⟨value, default⟩⟩], total := value, target := payment.target, change := 0
      size := 226, fee, excess, strategy := .branchAndBound }
    (selector.choose [⟨default, ⟨10226, default⟩⟩] small = .ok (pays small 10226 226 34) ∧
        ¬(pays small 10226 226 34).SizeFits small) ∧
      selector.choose [⟨default, ⟨18446744073709551615, default⟩⟩] large =
          .ok (pays large 18446744073709551615 226 8) ∧
        ¬(pays large 18446744073709551615 226 8).SizeFits large ∧
        ¬(pays large 18446744073709551615 226 8).AddsUp := by
  decide +kernel

end Selector

end HdWallet
