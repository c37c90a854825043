import HdWallet.Proofs.Account.Coherence
import Mathlib.Algebra.GroupWithZero.Nat

/-!
# What reservations are worth

A reservation keeps the worth of its plan as its total, and the total does not change any
more. The coins that it holds become fewer: those that a transaction spends leave it. So the
total is what the coins still held are worth together with those that were seen spent, and
what an account reports as reserved counts both.
-/

namespace HdWallet

theorem Amount.sum_eq_sum_map (amounts : List Amount) :
    sum amounts = (amounts.map (·.toNat)).sum := by
  induction amounts with
  | nil => rfl
  | cons a rest ih =>
      rw [List.map_cons, List.sum_cons, ← ih]
      rfl

/-- A property of the table that resolving a payment and settling pending spends keep. -/
structure ReservationTable.Shrinking (P : ReservationTable → Prop) : Prop where
  take : ∀ {table taken : ReservationTable} {id r}, table.take id = some (taken, r) → P table →
    P taken
  addPending : ∀ {table : ReservationTable} (coins : List Coin),
    P table → P (table.addPending coins)
  settle : ∀ {table : ReservationTable} (queried : Script → Bool)
    (reported : Std.ExtTreeSet OutPoint), P table → P (table.settle queried reported)

/-- A property of the table that planning a payment, resolving one and settling pending spends
keep. -/
structure ReservationTable.Lasting (P : ReservationTable → Prop) : Prop extends Shrinking P where
  register : ∀ {table selector coins} {request : SpendRequest} {selection} (slot : Slot)
    (now : Timestamp), Selector.choose selector coins request.payment = .ok selection → P table →
    P (table.register (request.reservation selection slot now)).1

def Holdings.Table (P : ReservationTable → Prop) (h : Holdings) : Prop := P h.reservations

namespace ReservationTable.Shrinking

variable {P : ReservationTable → Prop} (shrinking : Shrinking P)
include shrinking

theorem keeps_release (id : Nat) (outcome : Reservation.Outcome) :
    (Holdings.release id outcome).Keeps (Holdings.Table P) := by
  intro h hp
  apply Holdings.wp_release_of_frame (P := Holdings.Table P) (fun _ hp => hp) fun _ => hp
  intro taken r ht
  have rest : P taken := shrinking.take ht hp
  cases outcome with
  | completed => exact shrinking.addPending r.coins rest
  | cancelled => exact rest

theorem keeps_resync (address : Address) (reported : List Coin) :
    (Holdings.resync address reported).Keeps (Holdings.Table P) := by
  intro h hp
  apply Holdings.wp_resync_of_frame (P := Holdings.Table P) (fun _ hp => hp) hp
  intro slot gone _
  exact shrinking.settle _ _ hp

theorem keeps_replaceAll (reports : List (Address × List Coin)) :
    (Holdings.replaceAll reports).Keeps (Holdings.Table P) := by
  intro h hp
  apply Holdings.wp_replaceAll_of_frame (P := Holdings.Table P) fun _ hp => hp
  exact shrinking.settle _ _ hp

end ReservationTable.Shrinking

namespace ReservationTable.Lasting

variable {P : ReservationTable → Prop} (lasting : Lasting P)
include lasting

theorem keeps_reserve (request : SpendRequest) (selector : Selector) (now : Timestamp) :
    (Holdings.reserve request selector now).Keeps (Holdings.Table P) := by
  intro h hp
  apply (Holdings.reserve_spec request selector now h).mono
  · rintro r t ⟨selection, slot, chosen, -, -, -, htable, -⟩
    rw [Holdings.Table, htable]
    exact lasting.register slot now chosen hp
  · intro e t unplanned
    rw [Holdings.Table, unplanned.reservations_eq]
    exact hp

theorem coinInvariant : Account.CoinInvariant (Holdings.Table P) where
  setKeychain _ hp := hp
  addCoin {h} coin hp := by
    rw [Holdings.addCoin]
    split
    next => exact hp
    next => exact hp
  removeCoin _ hp := hp
  receive _ hp := hp
  reserve := lasting.keeps_reserve
  release := lasting.keeps_release
  applySnapshot snapshot :=
    Holdings.keeps_apply_of_frame (P := Holdings.Table P) (fun _ hp => hp) snapshot fun hp => hp

end ReservationTable.Lasting

namespace Account

variable {a : Account}

/-- An action keeps what lasts of the table. What it does if it is a spend has to be known. -/
theorem table_perform {P : ReservationTable → Prop} (lasting : ReservationTable.Lasting P)
    (hp : P a.reservations) {action : Action}
    (spent : ∀ tx, action = .spend tx → P (a.holdings.spend tx).1.reservations) :
    P (action.perform a).reservations := by
  have inv := lasting.coinInvariant.balanceInvariant
  apply Step.stateAfter_of_wp (P := fun a : Account => P a.reservations)
  apply inv.wp_step hp
  cases action with
  | spend tx => exact spent tx rfl
  | closeResync resync now =>
      exact fun _ => keeps_onHoldings (lasting.keeps_replaceAll resync.reports) a hp
  | closeEvent address ticket balance unspent now =>
      exact fun coins _ noted => keeps_onHoldings (lasting.keeps_resync address coins) _ noted
  | absorbDrainUnspent drain address reply =>
      exact fun coins _ _ => keeps_onHoldings (lasting.keeps_resync address coins) a hp
  | _ => trivial

end Account

namespace ReservationTable

/-- The coins of a reservation that are at some outpoints. -/
def coinsAt (table : ReservationTable) (id : Nat) (outpoints : List OutPoint) : List Coin :=
  match table.find? id with
  | some r => r.coins.filter (·.outpoint ∈ outpoints)
  | none => []

/-- The total of every reservation is what its coins are worth and `spent` of it besides. Of
reservations that are still to come nothing was spent. -/
structure Accounted (spent : Nat → Nat) (table : ReservationTable) : Prop where
  total_eq : ∀ {id r}, table.find? id = some r → r.total.toNat = Coin.total r.coins + spent id
  unused : ∀ {id}, table.nextId ≤ id → spent id = 0

variable {spent : Nat → Nat}

theorem lasting_accounted : Lasting (Accounted spent) where
  register {table selector coins request selection} slot now chosen hp := by
    constructor
    case total_eq =>
        intro id r hr
        rw [find?_register] at hr
        split at hr
        next here =>
            cases hr
            rw [hp.unused (Nat.le_of_eq here)]
            exact Selector.total_of_choose chosen
        next => exact hp.total_eq hr
    case unused =>
        intro id beyond
        exact hp.unused (Nat.le_of_succ_le beyond)
  take {table taken id r} ht hp := by
    obtain ⟨-, hfind, -, -, hnext⟩ := table.take_spec ht
    constructor
    case total_eq =>
        intro j s hs
        rw [hfind] at hs
        split at hs
        next => cases hs
        next => exact hp.total_eq hs
    case unused => exact fun beyond => hp.unused (hnext ▸ beyond)
  addPending _ hp := ⟨hp.total_eq, hp.unused⟩
  settle _ _ hp := ⟨hp.total_eq, hp.unused⟩

/-- What a transaction takes from the reservations counts as spent from then on. -/
theorem Accounted.foldl_markSpent {table : ReservationTable} (hp : table.Accounted spent)
    (h : table.WellFormed) (outpoints : List OutPoint) :
    (outpoints.foldl (fun table o => (table.markSpent o).1) table).Accounted
      fun id => spent id + Coin.total (table.coinsAt id outpoints) := by
  obtain ⟨hfind, hnext⟩ := h.foldl_markSpent outpoints
  constructor
  case total_eq =>
      intro id r hr
      rw [hfind] at hr
      obtain ⟨before, found, rfl⟩ := Option.map_eq_some_iff.mp hr
      have parts := Coin.total_filter_add_total_filter_not (·.outpoint ∈ outpoints) before.coins
      have total := hp.total_eq found
      simp only [coinsAt, found, Reservation.withoutAll, decide_not]
      omega
  case unused =>
      intro id beyond
      rw [hnext] at beyond
      have absent : table.find? id = none := by
        cases found : table.find? id with
        | none => rfl
        | some r => exact absurd (h.id_lt found) (Nat.not_lt_of_le beyond)
      rw [hp.unused beyond, coinsAt, absent]
      rfl

end ReservationTable

namespace Account

variable {a : Account} {spent : Nat → Nat}

/-- The coins of a reservation that an action sees spent. -/
def spentOf (id : Nat) (a : Account) : Action → List Coin
  | .spend tx => a.reservations.coinsAt id tx.inputs
  | _ => []

/-- The coins of a reservation that the actions of a run see spent. -/
def seenSpent (id : Nat) (a : Account) : List Action → List Coin
  | [] => []
  | action :: rest => a.spentOf id action ++ (action.perform a).seenSpent id rest

theorem accounted_perform (ha : a.Separated) (hp : a.reservations.Accounted spent)
    (action : Action) : (action.perform a).reservations.Accounted
      fun id => spent id + Coin.total (a.spentOf id action) := by
  cases action with
  | spend tx =>
      have lasting := @ReservationTable.lasting_accounted fun id =>
        spent id + Coin.total (a.reservations.coinsAt id tx.inputs)
      exact lasting.coinInvariant.balanceInvariant.spendCoins
        (hp.foldl_markSpent ha.table tx.inputs)
  | _ => exact table_perform ReservationTable.lasting_accounted hp nofun

theorem accounted_run (ha : a.Separated) (hp : a.reservations.Accounted spent)
    (actions : List Action) : (a.run actions).reservations.Accounted
      fun id => spent id + Coin.total (a.seenSpent id actions) := by
  induction actions generalizing a spent with
  | nil => exact hp
  | cons action rest ih =>
      have separated : (action.perform a).Separated :=
        (invariant_separated.keeps_step action).stateAfter ha
      have after := ih separated (accounted_perform ha hp action)
      simp only [seenSpent, Coin.total_append, ← Nat.add_assoc]
      exact after

/-- After every run, the total of a reservation is what the coins that it holds are worth
together with those that were seen spent, and the account reports the sum of both. -/
theorem reserved_run {config : Config} {source : KeySource} {a : Account}
    (opened : ofConfig config source = .ok a) (actions : List Action) :
    (∀ id r, (a.run actions).reservations.find? id = some r →
      r.total.toNat = Coin.total r.coins + Coin.total (a.seenSpent id actions)) ∧
    ∀ now, ((a.run actions).balance now).reserved =
      .saturate ((a.run actions).reservations.reservations.map fun r =>
        Coin.total r.coins + Coin.total (a.seenSpent r.id actions)).sum := by
  have separated := separated_of_ofConfig opened
  have accounted : a.reservations.Accounted fun _ => 0 := by
    obtain ⟨_, _, rfl⟩ := ofConfig_eq_ok opened
    exact ⟨by simp [reservations, ReservationTable.find?], fun _ => rfl⟩
  have after := accounted_run separated accounted actions
  have wellFormed := (invariant_separated.run separated actions).table
  simp only [Nat.zero_add] at after
  refine ⟨fun id r hr => after.total_eq hr, fun now => ?_⟩
  change (a.run actions).reservations.reservedValue = _
  rw [ReservationTable.reservedValue, Amount.sum_eq_sum_map, List.map_map]
  congr 2
  apply List.map_congr_left
  intro r hr
  obtain ⟨id, found⟩ := (ReservationTable.mem_reservations _).mp hr
  obtain rfl := wellFormed.id_eq found
  exact after.total_eq found

/-- One of two coins of a reservation was seen spent; the total still counts it. -/
theorem reserved_after_partial_spend :
    let config : Config := { receivingGapLimit := 1, changeGapLimit := 1 }
    let coin (index : UInt32) (value : Amount) : Coin := ⟨⟨⟨0⟩, index⟩, ⟨value, default⟩⟩
    let actions : List Action := [.addCoin (coin 0 60000), .addCoin (coin 1 50000),
      .reserve (.ofTarget 100000 ⟨1000⟩) 0, .spend ⟨⟨1⟩, [⟨⟨0⟩, 0⟩], []⟩]
    ∃ a r, ofConfig config (.numbered ∅ true) = .ok a ∧
      (a.run actions).reservations.find? 1 = some r ∧ r.coins = [coin 1 50000] ∧
      r.total.toNat = Coin.total r.coins + Coin.total (a.seenSpent 1 actions) := by
  intro config coin actions
  have answer : (ofConfig config (.numbered ∅ true)).toOption.any fun a =>
      ((a.run actions).reservations.find? 1).any fun r => r.coins = [coin 1 50000] := by
    decide +kernel
  obtain ⟨a, opened, reserved⟩ := Step.exists_ok_of_any answer
  obtain ⟨r, found, coins⟩ := (Option.any_eq_true _ _).mp reserved
  exact ⟨a, r, opened, found, of_decide_eq_true coins, (reserved_run opened actions).1 1 r found⟩

/-- A reservation whose only coin was seen spent holds nothing, and yet the account reports the
coin as reserved. -/
theorem reserved_without_coins :
    let config : Config := { receivingGapLimit := 1, changeGapLimit := 1 }
    let coin : Coin := ⟨default, ⟨100000, default⟩⟩
    let actions : List Action :=
      [.addCoin coin, .reserve (.ofTarget 5000 ⟨1000⟩) 0, .spend ⟨⟨1⟩, [default], []⟩]
    ∃ a r, ofConfig config (.numbered ∅ true) = .ok a ∧
      (a.run actions).reservations.find? 1 = some r ∧ r.coins = [] ∧ r.total = 100000 ∧
      ((a.run actions).balance 0).reserved = 100000 := by
  intro config coin actions
  have answer : (ofConfig config (.numbered ∅ true)).toOption.any fun a =>
      ((a.run actions).reservations.find? 1).any fun r => r.coins = [] ∧ r.total = 100000 ∧
        ((a.run actions).balance 0).reserved = 100000 := by
    decide +kernel
  obtain ⟨a, opened, reserved⟩ := Step.exists_ok_of_any answer
  obtain ⟨r, found, facts⟩ := (Option.any_eq_true _ _).mp reserved
  obtain ⟨coins, total, balance⟩ := of_decide_eq_true facts
  exact ⟨a, r, opened, found, coins, total, balance⟩

end Account

end HdWallet
