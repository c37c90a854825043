import HdWallet.Fee

/-!
# How fees grow

A fee is rate times size in thousandths of a unit, capped at the largest amount and then rounded
up. Neither step is linear, but each is monotone and neither makes a whole more than its parts.
All that is used of the rounding is `FeeRate.fee_le_iff`: a fee is the least number of units that
covers the thousandths.

What planning relies on follows at every rate, saturated or not. A fee never falls when the
transaction grows, and one more input or output adds at most `FeeRate.inputFee` or
`FeeRate.outputFee`.
-/

namespace HdWallet

theorem transactionSize_add (inputs more outputs others : Nat) :
    transactionSize (inputs + more) (outputs + others) =
      transactionSize inputs outputs + (more * inputSize + others * outputSize) := by
  simp only [transactionSize, Nat.add_mul]
  omega

theorem transactionSize_succ_outputs (inputs outputs : Nat) :
    transactionSize inputs (outputs + 1) = transactionSize inputs outputs + outputSize := by
  simpa using transactionSize_add inputs 0 outputs 1

theorem transactionSize_mono {i j o p : Nat} (hi : i ≤ j) (ho : o ≤ p) :
    transactionSize i o ≤ transactionSize j p := by
  have inputs := Nat.mul_le_mul_right inputSize hi
  have outputs := Nat.mul_le_mul_right outputSize ho
  simp only [transactionSize]
  omega

namespace FeeRate

variable (rate : FeeRate)

/-- Rate times size as a fee takes it: thousandths of a unit, capped at the largest amount. -/
def thousandths (size : Nat) : Nat :=
  min (rate.perKilobyte.toNat * size) Amount.largest

theorem thousandths_mono {slow fast : FeeRate} {a b : Nat}
    (rates : slow.perKilobyte ≤ fast.perKilobyte) (sizes : a ≤ b) :
    slow.thousandths a ≤ fast.thousandths b := by
  have products := Nat.mul_le_mul (UInt64.le_iff_toNat_le.mp rates) sizes
  simp only [thousandths]
  omega

theorem thousandths_add_le (a b : Nat) :
    rate.thousandths (a + b) ≤ rate.thousandths a + rate.thousandths b := by
  have product := Nat.mul_add rate.perKilobyte.toNat a b
  simp only [thousandths]
  omega

theorem thousandths_le_largest (size : Nat) : rate.thousandths size ≤ Amount.largest :=
  Nat.min_le_right _ _

/-- A fee is the least number of units that covers its thousandths. -/
theorem fee_le_iff {size units : Nat} :
    rate.fee size ≤ units ↔ rate.thousandths size ≤ 1000 * units := by
  simp only [fee, thousandths]
  omega

theorem thousandths_le_fee (size : Nat) : rate.thousandths size ≤ 1000 * rate.fee size :=
  rate.fee_le_iff.mp (Nat.le_refl _)

@[simp] theorem fee_zero : rate.fee 0 = 0 := by
  simp [fee]

/-- Fees grow with the rate and with the size. -/
theorem fee_le_fee {slow fast : FeeRate} {a b : Nat}
    (rates : slow.perKilobyte ≤ fast.perKilobyte) (sizes : a ≤ b) : slow.fee a ≤ fast.fee b := by
  rw [fee_le_iff]
  exact Nat.le_trans (thousandths_mono rates sizes) (fast.thousandths_le_fee b)

theorem fee_mono {a b : Nat} (h : a ≤ b) : rate.fee a ≤ rate.fee b :=
  fee_le_fee (UInt64.le_refl _) h

/-- Neither the saturation of the product nor the rounding makes a whole more
expensive than its parts. -/
theorem fee_add_le (a b : Nat) : rate.fee (a + b) ≤ rate.fee a + rate.fee b := by
  rw [fee_le_iff]
  calc rate.thousandths (a + b)
      ≤ rate.thousandths a + rate.thousandths b := rate.thousandths_add_le a b
    _ ≤ 1000 * rate.fee a + 1000 * rate.fee b :=
        Nat.add_le_add (rate.thousandths_le_fee a) (rate.thousandths_le_fee b)
    _ = 1000 * (rate.fee a + rate.fee b) := (Nat.mul_add _ _ _).symm

theorem fee_mul_le (count size : Nat) : rate.fee (count * size) ≤ count * rate.fee size := by
  induction count with
  | zero => simp
  | succ count ih =>
    calc rate.fee ((count + 1) * size)
        = rate.fee (count * size + size) := by rw [Nat.succ_mul]
      _ ≤ rate.fee (count * size) + rate.fee size := rate.fee_add_le _ _
      _ ≤ count * rate.fee size + rate.fee size := Nat.add_le_add_right ih _
      _ = (count + 1) * rate.fee size := (Nat.succ_mul _ _).symm

theorem fee_le_largest (size : Nat) : rate.fee size ≤ Amount.largest := by
  rw [fee_le_iff]
  exact Nat.le_trans (rate.thousandths_le_largest size) (Nat.le_mul_of_pos_left _ (by decide))

theorem feeFor_mono {i j o p : Nat} (hi : i ≤ j) (ho : o ≤ p) :
    rate.feeFor i o ≤ rate.feeFor j p :=
  rate.fee_mono (transactionSize_mono hi ho)

theorem feeFor_le_succ_outputs (inputs outputs : Nat) :
    rate.feeFor inputs outputs ≤ rate.feeFor inputs (outputs + 1) :=
  rate.feeFor_mono (Nat.le_refl _) (Nat.le_succ _)

/-- Further inputs and outputs add at most their own fees. -/
theorem feeFor_add_le (inputs more outputs others : Nat) :
    rate.feeFor (inputs + more) (outputs + others) ≤
      rate.feeFor inputs outputs + (more * rate.inputFee + others * rate.outputFee) := by
  calc rate.feeFor (inputs + more) (outputs + others)
      = rate.fee (transactionSize inputs outputs +
          (more * inputSize + others * outputSize)) := by
        rw [feeFor, transactionSize_add]
    _ ≤ rate.feeFor inputs outputs + rate.fee (more * inputSize + others * outputSize) :=
        rate.fee_add_le _ _
    _ ≤ rate.feeFor inputs outputs +
          (rate.fee (more * inputSize) + rate.fee (others * outputSize)) :=
        Nat.add_le_add_left (rate.fee_add_le _ _) _
    _ ≤ rate.feeFor inputs outputs + (more * rate.inputFee + others * rate.outputFee) :=
        Nat.add_le_add_left (Nat.add_le_add (rate.fee_mul_le _ _) (rate.fee_mul_le _ _)) _

theorem feeFor_add_inputs_le (inputs more outputs : Nat) :
    rate.feeFor (inputs + more) outputs ≤
      rate.feeFor inputs outputs + more * rate.inputFee := by
  simpa using rate.feeFor_add_le inputs more outputs 0

theorem feeFor_add_outputs_le (inputs outputs others : Nat) :
    rate.feeFor inputs (outputs + others) ≤
      rate.feeFor inputs outputs + others * rate.outputFee := by
  simpa using rate.feeFor_add_le inputs 0 outputs others

/-- One more output at most doubles the fee of a transaction that has an input, since an
output is smaller than an input. -/
theorem feeFor_succ_outputs_le {inputs : Nat} (positive : 0 < inputs) (outputs : Nat) :
    rate.feeFor inputs (outputs + 1) ≤ 2 * rate.feeFor inputs outputs := by
  have smaller : outputSize ≤ transactionSize inputs outputs := by
    simp only [transactionSize, inputSize, outputSize]
    omega
  calc rate.feeFor inputs (outputs + 1)
      ≤ rate.feeFor inputs outputs + 1 * rate.outputFee :=
        rate.feeFor_add_outputs_le inputs outputs 1
    _ = rate.feeFor inputs outputs + rate.outputFee := by rw [Nat.one_mul]
    _ ≤ rate.feeFor inputs outputs + rate.feeFor inputs outputs :=
        Nat.add_le_add_left (rate.fee_mono smaller) _
    _ = 2 * rate.feeFor inputs outputs := (Nat.two_mul _).symm

/-- How fees grow, at every rate and also where the product of rate and size saturates. A fee is the
least number of units whose thousandths cover that product, capped at the largest amount. It grows
with the rate and with the size, and a whole costs at most what its parts cost together. Hence one
more input makes no transaction cheaper and adds at most `inputFee`, and one more output adds at
most `outputFee`. -/
theorem fee_growth :
    (∀ size units, rate.fee size ≤ units ↔
        min (rate.perKilobyte.toNat * size) Amount.largest ≤ 1000 * units) ∧
      (∀ faster : FeeRate, rate.perKilobyte ≤ faster.perKilobyte →
        ∀ a b, a ≤ b → rate.fee a ≤ faster.fee b) ∧
      (∀ a b, rate.fee (a + b) ≤ rate.fee a + rate.fee b) ∧
      ∀ inputs outputs,
        (rate.feeFor inputs outputs ≤ rate.feeFor (inputs + 1) outputs ∧
          rate.feeFor (inputs + 1) outputs - rate.feeFor inputs outputs ≤ rate.inputFee) ∧
        (rate.feeFor inputs outputs ≤ rate.feeFor inputs (outputs + 1) ∧
          rate.feeFor inputs (outputs + 1) - rate.feeFor inputs outputs ≤ rate.outputFee) := by
  refine ⟨fun size units => rate.fee_le_iff, fun faster rates a b sizes => fee_le_fee rates sizes,
    rate.fee_add_le, fun inputs outputs => ⟨⟨?_, ?_⟩, ?_, ?_⟩⟩
  · exact rate.feeFor_mono (Nat.le_succ _) (Nat.le_refl _)
  · have added := rate.feeFor_add_inputs_le inputs 1 outputs
    omega
  · exact rate.feeFor_le_succ_outputs inputs outputs
  · have added := rate.feeFor_add_outputs_le inputs outputs 1
    omega

/-- At this rate the product saturates at the size of one input and one output. The first input
adds less than its own fee, and the second one adds nothing. -/
theorem fee_growth_at_saturation :
    let rate : FeeRate := ⟨100000000000000000⟩
    let largest : FeeRate := ⟨18446744073709551615⟩
    (rate.perKilobyte ≤ largest.perKilobyte ∧ rate.outputFee ≤ largest.outputFee) ∧
      rate.feeFor 1 1 - rate.feeFor 0 1 ≤ rate.inputFee ∧
      rate.inputFee = 14800000000000000 ∧
      rate.feeFor 1 1 - rate.feeFor 0 1 = 14046744073709552 ∧
      rate.feeFor 2 1 - rate.feeFor 1 1 = 0 := by
  intro rate largest
  have rates : rate.perKilobyte ≤ largest.perKilobyte := by decide
  obtain ⟨-, grows, -, margins⟩ := rate.fee_growth
  refine ⟨⟨rates, grows largest rates outputSize outputSize (Nat.le_refl _)⟩, ?_, by decide,
    by decide, by decide⟩
  exact (margins 0 1).1.2

end FeeRate

end HdWallet
