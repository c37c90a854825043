import HdWallet.Proofs.Ledger
import HdWallet.Proofs.Selection.Plan
import Mathlib.Data.List.Nodup

/-!
# The running total of the ledger

The ledger keeps the sum of its values beside the coins. Every change of the coins changes the
sum by just what was put in or taken out, so it stays exact, and a ledger is determined by its
coins.
-/

namespace HdWallet

namespace Ledger

variable {ledger : Ledger}

theorem nodup_coins (ledger : Ledger) : ledger.coins.Nodup :=
  ledger.nodup_outpoints.of_map

theorem perm_coins_add {coin : Coin} (free : ¬ledger.contains coin.outpoint) :
    (ledger.add coin).1.coins.Perm (coin :: ledger.coins) := by
  have absent : ledger.find? coin.outpoint = none := by
    rwa [contains_eq_isSome_find?, Option.not_isSome_iff_eq_none] at free
  rw [List.perm_ext_iff_of_nodup (nodup_coins _)]
  · intro other
    rw [mem_coins, find?_add, List.mem_cons, mem_coins]
    by_cases here : coin.outpoint = other.outpoint
    · rw [if_pos here, ← here, absent, Option.none_or, Option.some.injEq]
      simp [eq_comm]
    · have : other ≠ coin := fun same => here (same ▸ rfl)
      rw [if_neg here, Option.or_none]
      simp [this]
  · rw [List.nodup_cons, mem_coins, absent]
    exact ⟨nofun, ledger.nodup_coins⟩

theorem perm_coins_remove {coin : Coin} (present : ledger.find? coin.outpoint = some coin) :
    ledger.coins.Perm (coin :: (ledger.remove coin.outpoint).1.coins) := by
  rw [List.perm_ext_iff_of_nodup (nodup_coins _)]
  · intro other
    rw [mem_coins, List.mem_cons, mem_coins, find?_remove]
    by_cases here : coin.outpoint = other.outpoint
    · rw [if_pos here, ← here, present, Option.some.injEq]
      simp [eq_comm]
    · have : other ≠ coin := fun same => here (same ▸ rfl)
      rw [if_neg here]
      simp [this]
  · rw [List.nodup_cons, mem_coins, find?_remove, if_pos rfl]
    exact ⟨nofun, nodup_coins _⟩

theorem perm_coins_addAll {coins : List Coin} (distinct : (coins.map (·.outpoint)).Nodup)
    (free : ∀ coin ∈ coins, ¬ledger.contains coin.outpoint) :
    (ledger.addAll coins).1.coins.Perm (coins ++ ledger.coins) := by
  induction coins generalizing ledger with
  | nil => exact List.Perm.refl _
  | cons coin rest ih =>
      obtain ⟨unlisted, distinct⟩ := List.nodup_cons.mp distinct
      have later : ∀ other ∈ rest, ¬(ledger.add coin).1.contains other.outpoint := by
        intro other listed
        rw [contains_add]
        rintro (present | same)
        · exact free other (List.mem_cons_of_mem _ listed) present
        · exact unlisted (List.mem_map.mpr ⟨other, listed, same.symm⟩)
      have first := (perm_coins_add (free coin List.mem_cons_self)).append_left rest
      exact ((ih distinct later).trans first).trans List.perm_middle

theorem perm_coins_removeAll {coins : List Coin} (distinct : (coins.map (·.outpoint)).Nodup)
    (present : ∀ coin ∈ coins, coin ∈ ledger.coins) :
    ledger.coins.Perm (coins ++ (ledger.removeAll (coins.map (·.outpoint))).1.coins) := by
  induction coins generalizing ledger with
  | nil => exact List.Perm.refl _
  | cons coin rest ih =>
      obtain ⟨unlisted, distinct⟩ := List.nodup_cons.mp distinct
      have later : ∀ other ∈ rest, other ∈ (ledger.remove coin.outpoint).1.coins := by
        intro other listed
        rw [mem_coins, find?_remove, if_neg]
        · exact ledger.mem_coins.mp (present other (List.mem_cons_of_mem _ listed))
        · exact fun same => unlisted (List.mem_map.mpr ⟨other, listed, same.symm⟩)
      have first := perm_coins_remove (ledger.mem_coins.mp (present coin List.mem_cons_self))
      exact first.trans ((ih distinct later).cons coin)

theorem coins_congr {other : Ledger} (same : other.outputs = ledger.outputs) :
    other.coins = ledger.coins := by
  rw [coins, coins, same]

/-- The running total is what the coins are worth together. -/
def Exact (ledger : Ledger) : Prop := ledger.total = Coin.total ledger.coins

theorem exact_empty : empty.Exact := rfl

namespace Exact

theorem add (h : ledger.Exact) (coin : Coin) : (ledger.add coin).1.Exact := by
  by_cases taken : ledger.contains coin.outpoint
  · rw [Ledger.add, if_pos taken]
    exact h
  · have worth := Coin.total_perm (perm_coins_add taken)
    have total : (ledger.add coin).1.total = ledger.total + coin.value.toNat := by
      rw [Ledger.add, if_neg taken]
    rw [Exact, total, worth, Coin.total_cons, h, Nat.add_comm]

theorem remove (h : ledger.Exact) (o : OutPoint) : (ledger.remove o).1.Exact := by
  cases present : ledger.find? o with
  | none =>
      rw [Ledger.remove, present]
      exact h
  | some coin =>
      obtain rfl := ledger.outpoint_of_find? present
      have worth := Coin.total_perm (perm_coins_remove present)
      have total : (ledger.remove coin.outpoint).1.total = ledger.total - coin.value.toNat := by
        rw [Ledger.remove, present]
      rw [Exact, total, h, worth, Coin.total_cons, Nat.add_sub_cancel_left]

theorem addAll (h : ledger.Exact) (coins : List Coin) : (ledger.addAll coins).1.Exact := by
  induction coins generalizing ledger with
  | nil => exact h
  | cons coin rest ih => exact ih (h.add coin)

theorem removeAll (h : ledger.Exact) (outpoints : List OutPoint) :
    (ledger.removeAll outpoints).1.Exact := by
  induction outpoints generalizing ledger with
  | nil => exact h
  | cons o rest ih => exact ih (h.remove o)

/-- Exact ledgers with the same outputs are equal. -/
theorem eq_of_outputs (h : ledger.Exact) {other : Ledger} (h' : other.Exact)
    (same : other.outputs = ledger.outputs) : other = ledger := by
  have total : other.total = ledger.total := by
    rw [h', coins_congr same, h]
  exact Ledger.mk.injEq .. ▸ ⟨same, total⟩

theorem eq_of_mem_coins (h : ledger.Exact) {other : Ledger} (h' : other.Exact)
    (same : ∀ coin, coin ∈ other.coins ↔ coin ∈ ledger.coins) : other = ledger := by
  apply h.eq_of_outputs h'
  apply outputs_eq_of_find?
  intro o
  apply Option.ext
  intro coin
  rw [find?_eq_some_iff, find?_eq_some_iff, same]

/-- The coins of an exact ledger make it again. -/
theorem ofCoins_coins (h : ledger.Exact) : ofCoins ledger.coins = ledger :=
  h.eq_of_outputs (exact_empty.addAll ledger.coins) ledger.outputs_ofCoins_coins

end Exact

theorem exact_ofCoins (coins : List Coin) : (ofCoins coins).Exact := exact_empty.addAll coins

end Ledger

end HdWallet
