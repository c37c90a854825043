import HdWallet.Amount

/-!
# Fee rates and transaction sizes

Sizes follow inputs and outputs that pay to one public key hash each. Coin
selection and reservations both use `transactionSize`, so a plan and the
transaction later built from it agree on the fee. Fees round up and are taken
in `Nat`; the product of rate and size saturates at the largest amount first,
which keeps every fee an amount.
-/

namespace HdWallet

/-- Bytes that one signed input takes. -/
def inputSize : Nat := 148

/-- Bytes that one output takes. -/
def outputSize : Nat := 34

/-- Bytes of version, lock time and counts. -/
def overheadSize : Nat := 10

def transactionSize (inputs outputs : Nat) : Nat :=
  inputs * inputSize + outputs * outputSize + overheadSize

/-- A fee rate, in units per thousand bytes. -/
structure FeeRate where
  perKilobyte : Amount
deriving DecidableEq

namespace FeeRate

/-- One unit per byte, the least rate that is relayed. -/
def minimum : FeeRate := ⟨1000⟩

def economy : FeeRate := ⟨500⟩

def priority : FeeRate := ⟨2000⟩

instance : Inhabited FeeRate := ⟨minimum⟩

/-- The rate of so many units per byte, capped at the largest rate. -/
def ofPerByte (perByte : Amount) : FeeRate := ⟨Amount.saturate (perByte.toNat * 1000)⟩

def perByte (rate : FeeRate) : Float := rate.perKilobyte.toFloat / 1000

/-- The fee for `size` bytes, rounded up. -/
def fee (rate : FeeRate) (size : Nat) : Nat :=
  (min (rate.perKilobyte.toNat * size) Amount.largest + 999) / 1000

def feeFor (rate : FeeRate) (inputs outputs : Nat) : Nat :=
  rate.fee (transactionSize inputs outputs)

/-- The most that one more input adds to a fee. -/
def inputFee (rate : FeeRate) : Nat := rate.fee inputSize

def outputFee (rate : FeeRate) : Nat := rate.fee outputSize

end FeeRate

end HdWallet
