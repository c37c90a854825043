/-!
# Amounts of money

An amount is a 64-bit word in the smallest currency unit. Sums and differences
are taken in `Nat`, where nothing wraps, and come back through
`Amount.saturate`. A formula therefore saturates exactly where it says so.
-/

namespace HdWallet

/-- An amount in the smallest currency unit. -/
abbrev Amount := UInt64

namespace Amount

def largest : Nat := UInt64.size - 1

def sum (amounts : List Amount) : Nat := amounts.foldr (fun a rest => a.toNat + rest) 0

/-- The amount nearest to `n`: itself, or the largest amount if `n` is too big. -/
def saturate (n : Nat) : Amount := UInt64.ofNat (min n largest)

@[simp] theorem toNat_saturate (n : Nat) : (saturate n).toNat = min n largest := by
  have h : min n largest < UInt64.size := by unfold largest UInt64.size; omega
  simpa [saturate] using Nat.mod_eq_of_lt h

theorem toNat_le_largest (a : Amount) : a.toNat ≤ largest := by
  have := a.toNat_lt
  unfold largest UInt64.size
  omega

@[simp] theorem saturate_toNat (a : Amount) : saturate a.toNat = a := by
  apply UInt64.toNat_inj.mp
  rw [toNat_saturate, Nat.min_eq_left (toNat_le_largest a)]

end Amount

/-- Seconds since the epoch, as a 64-bit word. -/
abbrev Timestamp := UInt64

/-- Seconds from `since` to `now`; none have passed while the clock is behind. -/
def Timestamp.elapsed (since now : Timestamp) : Nat := now.toNat - since.toNat

end HdWallet
