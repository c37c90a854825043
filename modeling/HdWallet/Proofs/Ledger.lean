import HdWallet.Ledger

/-!
# What is in a ledger

Looking up an outpoint tells ledgers apart as far as their coins go. The equations
here give the look-up after every operation from the one before it: the coin that is
at an outpoint stays, a free outpoint gets the first of the coins put there, and a
coin that is taken out is gone. Where all coins agree about what is at an outpoint, it does
not matter which comes first.
-/

namespace HdWallet

namespace Coin

/-- The coin is what `output` says is at its outpoint. -/
def Fits (output : OutPoint → Output) (coin : Coin) : Prop :=
  coin.output = output coin.outpoint

instance (output : OutPoint → Output) (coin : Coin) : Decidable (coin.Fits output) :=
  inferInstanceAs (Decidable (_ = _))

variable {output : OutPoint → Output} {x y : Coin}

theorem Fits.eq (hx : x.Fits output) (hy : y.Fits output) (same : x.outpoint = y.outpoint) :
    x = y := by
  rw [Fits, same, ← hy] at hx
  exact Coin.mk.injEq .. ▸ ⟨same, hx⟩

theorem Fits.outpoint_mem_iff (hx : x.Fits output) {coins : List Coin}
    (fits : ∀ coin ∈ coins, coin.Fits output) :
    x.outpoint ∈ coins.map (·.outpoint) ↔ x ∈ coins := by
  refine ⟨fun taken => ?_, List.mem_map_of_mem⟩
  obtain ⟨coin, listed, place⟩ := List.mem_map.mp taken
  exact (fits coin listed).eq hx place ▸ listed

end Coin

namespace Ledger

variable (ledger : Ledger)

theorem contains_eq_isSome_find? (o : OutPoint) :
    ledger.contains o = (ledger.find? o).isSome := by
  rw [contains, find?, Option.isSome_map, Std.ExtTreeMap.contains_eq_isSome_getElem?]

theorem outpoint_of_find? {o : OutPoint} {coin : Coin} (h : ledger.find? o = some coin) :
    coin.outpoint = o := by
  obtain ⟨_, _, rfl⟩ := Option.map_eq_some_iff.mp h
  rfl

theorem mem_coins {coin : Coin} : coin ∈ ledger.coins ↔ ledger.find? coin.outpoint = some coin := by
  obtain ⟨o, output⟩ := coin
  simp only [coins, find?, List.mem_map, Prod.exists, Option.map_eq_some_iff, Coin.mk.injEq,
    Std.ExtTreeMap.mem_toList_iff_getElem?_eq_some]
  constructor
  · rintro ⟨_, _, h, rfl, rfl⟩
    exact ⟨_, h, trivial, rfl⟩
  · rintro ⟨_, h, -, rfl⟩
    exact ⟨_, _, h, rfl, rfl⟩

theorem find?_eq_some_iff {o : OutPoint} {coin : Coin} :
    ledger.find? o = some coin ↔ coin ∈ ledger.coins ∧ coin.outpoint = o := by
  rw [mem_coins]
  constructor
  · intro found
    obtain rfl := ledger.outpoint_of_find? found
    exact ⟨found, rfl⟩
  · rintro ⟨found, rfl⟩
    exact found

theorem contains_of_mem_coins {coin : Coin} (h : coin ∈ ledger.coins) :
    ledger.contains coin.outpoint := by
  rw [contains_eq_isSome_find?, ledger.mem_coins.mp h]
  rfl

theorem contains_iff_exists {o : OutPoint} :
    ledger.contains o ↔ ∃ coin ∈ ledger.coins, coin.outpoint = o := by
  rw [contains_eq_isSome_find?, Option.isSome_iff_exists]
  simp only [find?_eq_some_iff]

theorem nodup_outpoints : (ledger.coins.map (·.outpoint)).Nodup := by
  have distinct : (ledger.coins.map (·.outpoint)).Pairwise (compare · · ≠ .eq) := by
    rw [coins, List.map_map, List.pairwise_map]
    exact Std.ExtTreeMap.distinct_keys_toList
  exact distinct.imp fun apart same => apart (Std.compare_eq_iff_eq.mpr same)

@[simp] theorem find?_empty (o : OutPoint) : empty.find? o = none := by
  simp [find?, empty]

theorem find?_add (coin : Coin) (o : OutPoint) :
    (ledger.add coin).1.find? o =
      (ledger.find? o).or (if coin.outpoint = o then some coin else none) := by
  rw [add]
  split
  next taken =>
      rw [contains_eq_isSome_find?] at taken
      obtain ⟨present, hpresent⟩ := Option.isSome_iff_exists.mp taken
      split
      next here => rw [← here, hpresent, Option.some_or]
      next => rw [Option.or_none]
  next free =>
      rw [contains_eq_isSome_find?, Option.not_isSome_iff_eq_none] at free
      simp only [find?, Std.ExtTreeMap.getElem?_insert, Std.compare_eq_iff_eq]
      split
      next here =>
          subst here
          rw [find?] at free
          rw [free]
          rfl
      next => rw [Option.or_none]

theorem find?_addAll (coins : List Coin) (o : OutPoint) :
    (ledger.addAll coins).1.find? o =
      (ledger.find? o).or (coins.find? (·.outpoint = o)) := by
  induction coins generalizing ledger with
  | nil => rw [addAll, List.find?_nil, Option.or_none]
  | cons coin rest ih =>
      change (addAll (ledger.add coin).1 rest).1.find? o = _
      rw [ih, find?_add, Option.or_assoc, List.find?_cons]
      congr 1
      by_cases here : coin.outpoint = o <;> simp [here]

theorem find?_remove (p o : OutPoint) :
    (ledger.remove p).1.find? o = if p = o then none else ledger.find? o := by
  rw [remove]
  split
  next missing =>
      split
      next here => rw [← here, missing]
      next => rfl
  next =>
      simp only [find?, Std.ExtTreeMap.getElem?_erase, Std.compare_eq_iff_eq]
      split <;> rfl

theorem find?_removeAll (outpoints : List OutPoint) (o : OutPoint) :
    (ledger.removeAll outpoints).1.find? o =
      if o ∈ outpoints then none else ledger.find? o := by
  induction outpoints generalizing ledger with
  | nil => simp [removeAll]
  | cons p rest ih =>
      change (removeAll (ledger.remove p).1 rest).1.find? o = _
      rw [ih, find?_remove]
      simp only [List.mem_cons, eq_comm (a := o)]
      by_cases here : p = o <;> by_cases later : o ∈ rest <;> simp [here, later]

/-- What is taken out is the coin that was there. -/
theorem remove_snd (o : OutPoint) : (ledger.remove o).2 = ledger.find? o := by
  rw [remove]
  split
  next missing => exact missing.symm
  next present => exact present.symm

/-- The coins taken out were there. -/
theorem find?_of_mem_removeAll {outpoints : List OutPoint} {coin : Coin}
    (h : coin ∈ (ledger.removeAll outpoints).2) : ledger.find? coin.outpoint = some coin := by
  induction outpoints generalizing ledger with
  | nil => cases h
  | cons p rest ih =>
      change coin ∈ (ledger.remove p).2.toList ++ (removeAll (ledger.remove p).1 rest).2 at h
      rcases List.mem_append.mp h with h | h
      · rw [remove_snd, Option.mem_toList] at h
        rwa [ledger.outpoint_of_find? h]
      · have later := ih _ h
        rw [find?_remove] at later
        split at later
        · cases later
        · exact later

theorem find?_coins (o : OutPoint) : ledger.coins.find? (·.outpoint = o) = ledger.find? o := by
  cases there : ledger.coins.find? (·.outpoint = o) with
  | some coin =>
      have here := List.find?_some there
      obtain rfl : coin.outpoint = o := of_decide_eq_true here
      exact (ledger.mem_coins.mp (List.mem_of_find?_eq_some there)).symm
  | none =>
      cases present : ledger.find? o with
      | none => rfl
      | some coin =>
          have here := ledger.outpoint_of_find? present
          have absent := List.find?_eq_none.mp there coin (ledger.mem_coins.mpr (here ▸ present))
          exact absurd (decide_eq_true here) absent

theorem find?_ofCoins (coins : List Coin) (o : OutPoint) :
    (ofCoins coins).find? o = coins.find? (·.outpoint = o) := by
  rw [ofCoins, find?_addAll, find?_empty, Option.none_or]

/-- Looking up outpoints tells the outputs of ledgers apart. -/
theorem outputs_eq_of_find? {other : Ledger} (same : ∀ o, other.find? o = ledger.find? o) :
    other.outputs = ledger.outputs := by
  apply Std.ExtTreeMap.ext_getElem?
  intro o
  apply Option.map_injective _ (same o)
  intro x y hxy
  exact (Coin.mk.injEq .. ▸ hxy).2

/-- The coins of a ledger make its outputs again. -/
theorem outputs_ofCoins_coins : (ofCoins ledger.coins).outputs = ledger.outputs := by
  apply outputs_eq_of_find?
  intro o
  rw [find?_ofCoins, find?_coins]

theorem contains_add {coin : Coin} {o : OutPoint} :
    (ledger.add coin).1.contains o ↔ ledger.contains o ∨ coin.outpoint = o := by
  simp only [contains_eq_isSome_find?, find?_add, Option.isSome_or, Bool.or_eq_true]
  split <;> simp_all

theorem contains_addAll {coins : List Coin} {o : OutPoint} :
    (ledger.addAll coins).1.contains o ↔
      ledger.contains o ∨ ∃ coin ∈ coins, coin.outpoint = o := by
  simp [contains_eq_isSome_find?, find?_addAll, Option.isSome_or, List.find?_isSome]

theorem contains_remove {p o : OutPoint} :
    (ledger.remove p).1.contains o ↔ ledger.contains o ∧ p ≠ o := by
  rw [contains_eq_isSome_find?, contains_eq_isSome_find?, find?_remove]
  split <;> simp_all

theorem contains_removeAll {outpoints : List OutPoint} {o : OutPoint} :
    (ledger.removeAll outpoints).1.contains o ↔ ledger.contains o ∧ o ∉ outpoints := by
  rw [contains_eq_isSome_find?, contains_eq_isSome_find?, find?_removeAll]
  split <;> simp_all

/-- Coins that are taken out and put back were there before. -/
theorem contains_of_restored {outpoints : List OutPoint} {o : OutPoint}
    (h : ((ledger.removeAll outpoints).1.addAll (ledger.removeAll outpoints).2).1.contains o) :
    ledger.contains o := by
  rw [contains_addAll, contains_removeAll] at h
  obtain ⟨h, -⟩ | ⟨coin, hcoin, rfl⟩ := h
  · exact h
  · rw [contains_eq_isSome_find?, ledger.find?_of_mem_removeAll hcoin]
    rfl

theorem contains_ofCoins {coins : List Coin} {o : OutPoint} :
    (ofCoins coins).contains o ↔ ∃ coin ∈ coins, coin.outpoint = o := by
  rw [ofCoins, contains_addAll, contains_eq_isSome_find?, find?_empty]
  simp

theorem contains_receive {accept : Coin → Bool} {tx : Transaction} {o : OutPoint} :
    (ledger.receive accept tx).1.contains o ↔
      ledger.contains o ∨ ∃ coin ∈ tx.coins, accept coin ∧ coin.outpoint = o := by
  rw [receive, contains_addAll]
  simp only [List.mem_filter, and_assoc]

theorem contains_spend {tx : Transaction} {o : OutPoint} :
    (ledger.spend tx).1.contains o ↔ ledger.contains o ∧ o ∉ tx.inputs :=
  ledger.contains_removeAll

/-- As many coins are taken out as there are outpoints, if each is taken and listed once. -/
theorem length_removeAll {outpoints : List OutPoint} (distinct : outpoints.Nodup)
    (present : ∀ o ∈ outpoints, ledger.contains o) :
    (ledger.removeAll outpoints).2.length = outpoints.length := by
  induction outpoints generalizing ledger with
  | nil => rfl
  | cons o rest ih =>
      obtain ⟨unlisted, distinct⟩ := List.nodup_cons.mp distinct
      have here := present o List.mem_cons_self
      rw [contains_eq_isSome_find?] at here
      obtain ⟨coin, found⟩ := Option.isSome_iff_exists.mp here
      have later (p : OutPoint) (listed : p ∈ rest) : (ledger.remove o).1.contains p := by
        rw [contains_remove]
        exact ⟨present p (List.mem_cons_of_mem _ listed), fun same => unlisted (same ▸ listed)⟩
      change ((ledger.remove o).2.toList ++ (removeAll (ledger.remove o).1 rest).2).length = _
      rw [List.length_append, ih _ distinct later, remove_snd, found, Option.toList_some,
        List.length_singleton, List.length_cons, Nat.add_comm]

theorem mem_coins_add {coin new : Coin} :
    coin ∈ (ledger.add new).1.coins ↔
      coin ∈ ledger.coins ∨ ¬ledger.contains new.outpoint ∧ coin = new := by
  rw [mem_coins, find?_add, Option.or_eq_some_iff, ← mem_coins]
  refine or_congr_right ?_
  rw [contains_eq_isSome_find?, Option.not_isSome_iff_eq_none]
  constructor
  · rintro ⟨absent, found⟩
    split at found
    next here =>
        cases found
        exact ⟨absent, rfl⟩
    next => cases found
  · rintro ⟨absent, rfl⟩
    exact ⟨absent, if_pos rfl⟩

/-- What comes out of putting in coins is what was put in. -/
theorem mem_coins_iff_of_addAll {coins : List Coin} {coin : Coin} :
    coin ∈ (ledger.addAll coins).1.coins ↔
      coin ∈ ledger.coins ∨ coin ∈ (ledger.addAll coins).2 := by
  induction coins generalizing ledger with
  | nil => exact (or_iff_left List.not_mem_nil).symm
  | cons new rest ih =>
      change coin ∈ ((ledger.add new).1.addAll rest).1.coins ↔ coin ∈ ledger.coins ∨
        coin ∈ if (ledger.add new).2 then new :: ((ledger.add new).1.addAll rest).2
          else ((ledger.add new).1.addAll rest).2
      rw [ih, mem_coins_add]
      by_cases taken : ledger.contains new.outpoint
      · simp [add, taken]
      · simp [add, taken, or_assoc]

theorem of_mem_addAll {coins : List Coin} {coin : Coin} (h : coin ∈ (ledger.addAll coins).2) :
    coin ∈ coins ∧ ¬ledger.contains coin.outpoint := by
  induction coins generalizing ledger with
  | nil => cases h
  | cons new rest ih =>
      change coin ∈ if (ledger.add new).2 then new :: ((ledger.add new).1.addAll rest).2
          else ((ledger.add new).1.addAll rest).2 at h
      have later (h : coin ∈ ((ledger.add new).1.addAll rest).2) :
          coin ∈ new :: rest ∧ ¬ledger.contains coin.outpoint := by
        obtain ⟨listed, free⟩ := ih _ h
        rw [contains_add, not_or] at free
        exact ⟨List.mem_cons_of_mem _ listed, free.1⟩
      by_cases taken : ledger.contains new.outpoint
      · exact later (by simpa [add, taken] using h)
      · have h : coin = new ∨ coin ∈ ((ledger.add new).1.addAll rest).2 := by
          simpa [add, taken] using h
        rcases h with rfl | h
        · exact ⟨List.mem_cons_self, taken⟩
        · exact later h

/-- Coins whose outpoints are taken change nothing. -/
theorem addAll_of_contains {coins : List Coin}
    (taken : ∀ coin ∈ coins, ledger.contains coin.outpoint) :
    ledger.addAll coins = (ledger, []) := by
  induction coins with
  | nil => rfl
  | cons new rest ih =>
      obtain ⟨here, later⟩ := List.forall_mem_cons.mp taken
      simp only [addAll, add, if_pos here, ih later, Bool.false_eq_true, if_false]

section Agreement

variable {coin : Coin}

theorem mem_coins_removeAll {outpoints : List OutPoint} :
    coin ∈ (ledger.removeAll outpoints).1.coins ↔
      coin ∈ ledger.coins ∧ coin.outpoint ∉ outpoints := by
  rw [mem_coins, find?_removeAll, mem_coins]
  split <;> simp_all

variable {ledger} {output : OutPoint → Output}

/-- Where all coins agree about what is at an outpoint, no coin is kept out by another. -/
theorem mem_coins_addAll {coins : List Coin} (fits : ∀ coin ∈ ledger.coins, coin.Fits output)
    (new : ∀ coin ∈ coins, coin.Fits output) :
    coin ∈ (ledger.addAll coins).1.coins ↔ coin ∈ ledger.coins ∨ coin ∈ coins := by
  rw [mem_coins, find?_addAll, Option.or_eq_some_iff, ← mem_coins]
  constructor
  · rintro (present | ⟨-, found⟩)
    · exact .inl present
    · exact .inr (List.mem_of_find?_eq_some found)
  · rintro (present | listed)
    · exact .inl present
    · cases there : ledger.find? coin.outpoint with
      | some held =>
          obtain ⟨present, place⟩ := ledger.find?_eq_some_iff.mp there
          exact .inl ((fits held present).eq (new coin listed) place ▸ present)
      | none =>
          have taken : (coins.find? (·.outpoint = coin.outpoint)).isSome :=
            List.find?_isSome.mpr ⟨coin, listed, decide_eq_true rfl⟩
          obtain ⟨first, found⟩ := Option.isSome_iff_exists.mp taken
          have place := List.find?_some found
          have same := (new first (List.mem_of_find?_eq_some found)).eq (new coin listed)
            (of_decide_eq_true place)
          exact .inr ⟨rfl, same ▸ found⟩

theorem mem_coins_ofCoins {coins : List Coin} (fits : ∀ coin ∈ coins, coin.Fits output) :
    coin ∈ (ofCoins coins).coins ↔ coin ∈ coins := by
  have none_there (coin : Coin) : coin ∉ empty.coins := by
    rw [mem_coins, find?_empty]
    exact nofun
  rw [ofCoins, mem_coins_addAll (fun coin present => absurd present (none_there coin)) fits,
    or_iff_right (none_there coin)]

end Agreement

end Ledger

end HdWallet
