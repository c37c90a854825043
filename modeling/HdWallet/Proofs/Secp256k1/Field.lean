import HdWallet.Proofs.Secp256k1.Primality
import Mathlib.FieldTheory.Finite.Basic

/-!
# Field arithmetic on numbers

Coordinates are numbers below the field order. Each operation on them, read in the
field of integers modulo that order, is the field's own; a number below the order is
zero exactly if it is zero in the field.
-/

namespace HdWallet.Secp256k1

abbrev Fp := ZMod fieldOrder

theorem cast_eq_zero_iff {a : Nat} (reduced : a < fieldOrder) : (a : Fp) = 0 ↔ a = 0 := by
  rw [ZMod.natCast_eq_zero_iff]
  exact ⟨fun h => Nat.eq_zero_of_dvd_of_lt h reduced, fun h => h ▸ dvd_zero _⟩

theorem mod_fieldOrder_lt (a : Nat) : a % fieldOrder < fieldOrder := Nat.mod_lt a (by decide)

theorem minus_lt (a b : Nat) : minus a b < fieldOrder := mod_fieldOrder_lt _

@[simp, push_cast] theorem cast_minus (a b : Nat) : (minus a b : Fp) = a - b := by
  have le := (mod_fieldOrder_lt b).le
  simp [minus, Nat.cast_sub le, sub_eq_add_neg]

/-- Raising to two less than the order inverts, by Fermat's little theorem. -/
theorem cast_inverse {a : Nat} (ne : (a : Fp) ≠ 0) : (inverse a : Fp) = (a : Fp)⁻¹ := by
  rw [inverse, power_eq_powMod, cast_powMod _ _ (by decide)]
  apply eq_inv_of_mul_eq_one_left
  calc (a : Fp) ^ (fieldOrder - 2) * a
      = (a : Fp) ^ (fieldOrder - 1) := (pow_succ _ _).symm
    _ = 1 := ZMod.pow_card_sub_one_eq_one ne

end HdWallet.Secp256k1
