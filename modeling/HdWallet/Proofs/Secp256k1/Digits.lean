import HdWallet.Secp256k1
import Mathlib.Data.ZMod.Basic

/-!
# Ladders over binary digits

Powers and multiples are built along the binary digits of a number, highest first:
the digits read so far are a number n, and the next digit d makes it 2 n + d. What
each step keeps under that change, `foldl_binaryDigits` says of the number itself,
provided it fits in the digits that are read. The power by an arbitrary modulus is
the same ladder as the power in the field.
-/

namespace HdWallet.Secp256k1

/-- One more digit is read. -/
theorem shiftRight_eq_double_add (n width : Nat) :
    n >>> width = 2 * (n >>> (width + 1)) + (n.testBit width).toNat := by
  have digit : (n.testBit width).toNat = (n >>> width) % 2 := by
    rw [Nat.testBit_eq_decide_div_mod_eq, Nat.shiftRight_eq_div_pow]
    rcases Nat.mod_two_eq_zero_or_one (n / 2 ^ width) with h | h <;> simp [h]
  rw [digit, Nat.shiftRight_succ]
  omega

variable {α : Type} {step : α → Bool → α} {R : Nat → α → Prop}

/-- From the number that is left of the lowest digits, a ladder over these leads to
the whole number. -/
theorem foldl_lowDigits (keeps : ∀ n a digit, R n a → R (2 * n + digit.toNat) (step a digit))
    (n width : Nat) {a : α} (start : R (n >>> width) a) :
    R n (((List.range width).reverse.map n.testBit).foldl step a) := by
  induction width generalizing a with
  | zero => exact start
  | succ width ih =>
    rw [List.range_succ, List.reverse_append, List.reverse_singleton, List.singleton_append,
      List.map_cons, List.foldl_cons]
    apply ih
    rw [shiftRight_eq_double_add]
    exact keeps _ _ _ start

/-- A ladder that starts at zero ends at the number whose digits it reads. -/
theorem foldl_binaryDigits (keeps : ∀ n a digit, R n a → R (2 * n + digit.toNat) (step a digit))
    {n : Nat} (fits : n < 2 ^ 256) {a : α} (start : R 0 a) :
    R n ((binaryDigits n).foldl step a) := by
  apply foldl_lowDigits keeps
  rwa [Nat.shiftRight_eq_div_pow, Nat.div_eq_of_lt fits]

def powMod (m base exponent : Nat) : Nat :=
  (binaryDigits exponent).foldl (fun acc digit =>
    let square := acc * acc % m
    if digit then square * base % m else square) 1

theorem power_eq_powMod (base exponent : Nat) :
    power base exponent = powMod fieldOrder base exponent := by
  simp only [power, powMod]

theorem cast_powMod (m base : Nat) {exponent : Nat} (fits : exponent < 2 ^ 256) :
    (powMod m base exponent : ZMod m) = (base : ZMod m) ^ exponent := by
  refine foldl_binaryDigits (R := fun n (acc : Nat) => (acc : ZMod m) = (base : ZMod m) ^ n)
    ?_ fits (by simp)
  intro n acc digit h
  cases digit with
  | false => simp [h, two_mul, pow_add]
  | true => simp [h, two_mul, pow_add]

end HdWallet.Secp256k1
