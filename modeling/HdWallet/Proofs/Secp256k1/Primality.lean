import HdWallet.Proofs.Secp256k1.Digits
import Mathlib.NumberTheory.LucasPrimality
import Mathlib.Algebra.BigOperators.Associated
import Mathlib.Tactic.NormNum.Prime

/-!
# The orders of the field and of the group are prime

By Lucas's criterion a number is prime if it has an element whose order is the
number's predecessor. That is settled by a few powers once the prime factors of the
predecessor are known, and these are certified in the same way or are small. A
`Certificate` is a chain of such steps, each over the numbers certified before it,
and is checked by evaluation.
-/

namespace HdWallet.Secp256k1

/-- A number, an element of the order that Lucas's criterion asks for, and the prime
factors of the number's predecessor, each as often as it divides it. -/
structure Lucas where
  number : Nat
  element : Nat
  factors : List Nat

namespace Lucas

/-- The number passes the criterion if the known numbers are prime. -/
def Passes (known : List Nat) (l : Lucas) : Prop :=
  l.number < 2 ^ 256 ∧ l.factors.prod + 1 = l.number ∧
    powMod l.number l.element (l.number - 1) ≡ 1 [MOD l.number] ∧
    ∀ q ∈ l.factors, q ∈ known ∧
      ¬ powMod l.number l.element ((l.number - 1) / q) ≡ 1 [MOD l.number]

instance (known : List Nat) (l : Lucas) : Decidable (l.Passes known) :=
  inferInstanceAs (Decidable (_ ∧ _ ∧ _ ∧ _))

theorem powMod_modEq_one_iff {m base exponent : Nat} (fits : exponent < 2 ^ 256) :
    powMod m base exponent ≡ 1 [MOD m] ↔ (base : ZMod m) ^ exponent = 1 := by
  rw [← ZMod.natCast_eq_natCast_iff, cast_powMod m base fits, Nat.cast_one]

theorem Passes.prime {known : List Nat} (primes : ∀ q ∈ known, q.Prime) {l : Lucas}
    (passes : l.Passes known) : l.number.Prime := by
  obtain ⟨fits, product, full, parts⟩ := passes
  have predecessor : l.number - 1 = l.factors.prod := by omega
  have below {e : Nat} (h : e ≤ l.number - 1) : e < 2 ^ 256 := by omega
  refine lucas_primality l.number l.element ?_ ?_
  · exact (powMod_modEq_one_iff (below le_rfl)).mp full
  · intro q hq divides
    -- A prime that divides the product of the factors is one of them.
    have mem : q ∈ l.factors := by
      rw [predecessor] at divides
      exact mem_list_primes_of_dvd_prod hq.prime
        (fun r hr => (primes r (parts r hr).1).prime) divides
    intro part
    exact (parts q mem).2 ((powMod_modEq_one_iff (below (Nat.div_le_self _ _))).mpr part)

end Lucas

/-- Each number of the chain passes the criterion over the known ones and those that
come after it in the list. -/
def Certificate (known : List Nat) : List Lucas → Prop
  | [] => True
  | l :: rest => l.Passes (known ++ rest.map Lucas.number) ∧ Certificate known rest

instance Certificate.decidable (known : List Nat) :
    (chain : List Lucas) → Decidable (Certificate known chain)
  | [] => .isTrue trivial
  | _ :: rest =>
    have := Certificate.decidable known rest
    inferInstanceAs (Decidable (_ ∧ _))

theorem Certificate.prime {known : List Nat} (primes : ∀ q ∈ known, q.Prime)
    {chain : List Lucas} (certified : Certificate known chain) :
    ∀ q ∈ known ++ chain.map Lucas.number, q.Prime := by
  induction chain with
  | nil => simpa using primes
  | cons l rest ih =>
    have earlier := ih certified.2
    have here := certified.1.prime earlier
    grind

/-- The small primes that come up below the two orders. -/
def smallPrimes : List Nat :=
  [2, 3, 5, 7, 11, 17, 29, 31, 41, 59, 109, 149, 293, 461, 631, 1627, 2621, 2657, 4051, 4423,
    5323, 7723, 13441, 16699, 24809, 28181, 41201, 85831, 96557, 120233, 305873, 1627771, 4681609,
    7240687, 13331831, 44706919, 107590001]

theorem prime_of_mem_smallPrimes : ∀ q ∈ smallPrimes, q.Prime := by
  norm_num [smallPrimes]

/-- The two orders, each followed by the large primes that come up below it. -/
def orders : List Lucas := [
  ⟨groupOrder, 7, [2, 2, 2, 2, 2, 2, 3, 149, 631, 107361793816595537, 174723607534414371449,
    341948486974166000522343609283189]⟩,
  ⟨341948486974166000522343609283189, 2, [2, 2, 3, 3, 3, 109, 29047611873442575647497758179]⟩,
  ⟨29047611873442575647497758179, 2, [2, 293, 305873, 545358713, 297159362677]⟩,
  ⟨297159362677, 2, [2, 2, 3, 3, 11, 461, 1627771]⟩,
  ⟨545358713, 5, [2, 2, 2, 41, 59, 28181]⟩,
  ⟨174723607534414371449, 3, [2, 2, 2, 17, 59, 4051, 120233, 44706919]⟩,
  ⟨107361793816595537, 3, [2, 2, 2, 2, 16699, 85831, 4681609]⟩,
  ⟨fieldOrder, 3, [2, 3, 7, 13441,
    205115282021455665897114700593932402728804164701536103180137503955397371]⟩,
  ⟨205115282021455665897114700593932402728804164701536103180137503955397371, 10,
    [2, 3, 5, 29, 29, 31, 7723, 132896956044521568488119,
      255515944373312847190720520512484175977]⟩,
  ⟨255515944373312847190720520512484175977, 3,
    [2, 2, 2, 7, 7, 11, 1627, 2657, 4423, 41201, 96557, 7240687, 107590001]⟩,
  ⟨132896956044521568488119, 6, [2, 3, 22149492674086928081353]⟩,
  ⟨22149492674086928081353, 5, [2, 2, 2, 3, 5323, 173378833005251801]⟩,
  ⟨173378833005251801, 6, [2, 2, 2, 5, 5, 2621, 24809, 13331831]⟩]

theorem certificate_orders : Certificate smallPrimes orders := by decide +kernel

theorem prime_of_mem_orders {n : Nat} (mem : n ∈ orders.map Lucas.number) : n.Prime :=
  certificate_orders.prime prime_of_mem_smallPrimes n (List.mem_append_right _ mem)

theorem prime_groupOrder : groupOrder.Prime := prime_of_mem_orders (by simp [orders])

theorem prime_fieldOrder : fieldOrder.Prime := prime_of_mem_orders (by simp [orders])

instance : Fact fieldOrder.Prime := ⟨prime_fieldOrder⟩

end HdWallet.Secp256k1
