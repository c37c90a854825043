import HdWallet.KeySource.Scripted
import HdWallet.Proofs.Account.Completion
import HdWallet.Proofs.Account.Moves
import HdWallet.Proofs.Account.Reserved

/-!
# What reservations do with the coins of an account

Calls that plan payments, resolve them or cancel the old ones move the coins that the account
had before, whatever their order and whatever the clock says, and whether they fail or not. A
reservation keeps the coins that were withdrawn for it, apart from those that transactions are
seen to spend, until it is cancelled and gives them back. Once it has been resolved its id is
never known again.
-/

namespace HdWallet

theorem Reservation.withoutAll_append (r : Reservation) (first later : List OutPoint) :
    r.withoutAll (first ++ later) = (r.withoutAll first).withoutAll later := by
  rw [withoutAll, withoutAll, withoutAll, List.filter_filter]
  simp [Bool.and_comm]

namespace ReservationTable

/-- The id was given to a reservation that is as `r?` says if it is active still. -/
structure Remains (id : Nat) (r? : Option Reservation) (table : ReservationTable) : Prop where
  given : id < table.nextId
  same : ∀ {r}, table.find? id = some r → r? = some r

variable {table : ReservationTable} {id : Nat} {r? : Option Reservation}

theorem lasting_remains : Lasting (Remains id r?) where
  register {table _ _ _ _} slot now _ hr := by
    constructor
    case given => exact Nat.lt_succ_of_lt hr.given
    case same =>
        intro r found
        rw [find?_register, if_neg (Nat.ne_of_gt hr.given)] at found
        exact hr.same found
  take {table taken j s} ht hr := by
    obtain ⟨-, hfind, -, -, hnext⟩ := table.take_spec ht
    constructor
    case given => exact hnext ▸ hr.given
    case same =>
        intro r found
        rw [hfind] at found
        split at found
        next => cases found
        next => exact hr.same found
  addPending _ hr := ⟨hr.given, hr.same⟩
  settle _ _ hr := ⟨hr.given, hr.same⟩

theorem Remains.foldl_markSpent (hr : table.Remains id r?) (h : table.WellFormed)
    (spent : List OutPoint) :
    (spent.foldl (fun table o => (table.markSpent o).1) table).Remains id
      (r?.map (·.withoutAll spent)) := by
  obtain ⟨hfind, hnext⟩ := h.foldl_markSpent spent
  constructor
  case given => exact hnext ▸ hr.given
  case same =>
      intro r found
      rw [hfind] at found
      obtain ⟨before, hbefore, rfl⟩ := Option.map_eq_some_iff.mp found
      rw [hr.same hbefore, Option.map_some]

theorem WellFormed.remains (h : table.WellFormed) {r : Reservation}
    (found : table.find? id = some r) : table.Remains id (some r) :=
  ⟨h.id_lt found, fun same => found.symm.trans same⟩

/-- An id that was taken out is gone for good. -/
theorem WellFormed.remains_of_take (h : table.WellFormed) {taken : ReservationTable}
    {r : Reservation} (ht : table.take id = some (taken, r)) : taken.Remains id none := by
  obtain ⟨found, hfind, -, -, hnext⟩ := table.take_spec ht
  refine ⟨hnext ▸ h.id_lt found, fun there => ?_⟩
  rw [hfind, if_pos rfl] at there
  cases there

theorem Remains.find?_eq_none (hr : table.Remains id none) : table.find? id = none := by
  cases found : table.find? id with
  | none => rfl
  | some r => cases hr.same found

end ReservationTable

namespace Account

variable {a : Account}

/-- Whether an action plans a payment, resolves one or cancels those that are too old. -/
def Action.movesCoins : Action → Bool
  | .reserve .. | .release .. | .expire _ => true
  | _ => false

def Action.inputs : Action → List OutPoint
  | .spend tx => tx.inputs
  | _ => []

/-- The coins of the payment that an action completes. -/
def completedBy (a : Account) : Action → List Coin
  | .release id outcome => a.holdings.completing id outcome
  | _ => []

def completed (a : Account) : List Action → List Coin
  | [] => []
  | action :: rest => a.completedBy action ++ (action.perform a).completed rest

/-- What reservations do with the coins of an account, now and later on. -/
structure Conserves (a : Account) : Prop where
  /-- No outpoint is in two places. -/
  distinct : (a.holdings.coins.map (·.outpoint)).Nodup
  /-- Calls about reservations neither make nor lose a coin. -/
  together : ∀ {calls : List Action}, calls.all (·.movesCoins) →
    a.holdings.Conserved (a.completed calls) (a.run calls).holdings
  /-- The coins of a plan are withdrawn from the ledger. -/
  withdrawn : ∀ {request now r b}, reserve request now a = .ok r b →
    b.reservations.find? r.id = some r ∧
      ((Action.expire now).perform a).ledger.coins.Perm (r.coins ++ b.ledger.coins)
  /-- An active reservation is what it was, without the coins that were seen spent. -/
  kept : ∀ {id r}, a.reservations.find? id = some r → ∀ {later : List Action} {s},
    (a.run later).reservations.find? id = some s → s = r.withoutAll (later.flatMap (·.inputs))
  /-- Cancelling gives back just what the reservation holds. -/
  cancelled : ∀ {id r}, a.reservations.find? id = some r → ∃ h,
    release id .cancelled a = .ok r { a with holdings := h } ∧ a.holdings.Cancelled [r] h
  /-- Just the reservations that are too old are cancelled. -/
  expired : ∀ now, ∃ h,
    expire now a = .ok ((a.holdings.expired now).map (·.id)) { a with holdings := h } ∧
      a.holdings.Cancelled (a.holdings.expired now) h
  /-- What was resolved cannot be resolved again. -/
  once : ∀ {id outcome r b}, release id outcome a = .ok r b → ∀ (later : List Action) outcome,
    release id outcome (b.run later) = .error (.unknownReservation id) (b.run later)

theorem onHoldings_eq_ok_iff {α : Type} {step : Step Holdings α} {x : α} {b : Account} :
    onHoldings step a = .ok x b ↔ ∃ h, step a.holdings = .ok x h ∧ b = { a with holdings := h } :=
  Step.onPart_eq_ok_iff

namespace Separated

theorem perform (ha : a.Separated) (action : Action) : (action.perform a).Separated :=
  (invariant_separated.keeps_step action).stateAfter ha

theorem expire_spec (ha : a.Separated) (now : Timestamp) : ∃ h,
    expire now a = .ok ((a.holdings.expired now).map (·.id)) { a with holdings := h } ∧
      (Action.expire now).perform a = { a with holdings := h } ∧
      a.holdings.Cancelled (a.holdings.expired now) h ∧ a.holdings.Conserved [] h := by
  obtain ⟨_, h, expired, rfl, separated, cancelled⟩ :=
    (Holdings.Separated.wp_expire ha now).exists_ok
  obtain ⟨distinct, found⟩ := Holdings.Separated.expired_spec ha now
  have done : expire now a = .ok _ { a with holdings := h } :=
    onHoldings_eq_ok_iff.mpr ⟨h, expired, rfl⟩
  have left : (Action.expire now).step.wp (fun _ b => b = { a with holdings := h })
      (fun _ b => b = { a with holdings := h }) a := by
    rw [Action.step, Step.wp_discard, Step.wp, done]
  refine ⟨h, done, ?_, cancelled, cancelled.conserved ha separated distinct found⟩
  exact Step.stateAfter_of_wp (P := fun b => b = { a with holdings := h }) left

/-- A payment is planned in the state that is left when the reservations that are too old were
cancelled, since that never fails. -/
theorem wp_reserve (ha : a.Separated) (request : SpendRequest) (now : Timestamp) :
    let b := (Action.expire now).perform a
    (reserve request now).wp
      (fun r c => c.reservations.find? r.id = some r ∧
        b.ledger.coins.Perm (r.coins ++ c.ledger.coins) ∧ b.holdings.Conserved [] c.holdings)
      (fun _ c => b.holdings.Conserved [] c.holdings) a := by
  intro b
  have hb : b.Separated := ha.perform (.expire now)
  obtain ⟨h, done, reached, -⟩ := ha.expire_spec now
  simp only [reserve, Step.wp_bind, Step.wp_discard, Step.wp_get]
  rw [Step.wp, show onHoldings (Holdings.expire now) a = _ from done]
  change (onHoldings (Holdings.reserve request _ now)).wp _ _ { a with holdings := h }
  rw [← reached, onHoldings, Step.wp_onPart]
  exact hb.wp_plan request _ now

/-- What a call about reservations leaves of the coins. -/
theorem conserved_perform (ha : a.Separated) {action : Action} (moves : action.movesCoins) :
    a.holdings.Conserved (a.completedBy action) (action.perform a).holdings := by
  cases action with
  | expire now =>
      obtain ⟨h, -, reached, -, conserved⟩ := ha.expire_spec now
      rw [reached]
      exact conserved
  | release id outcome =>
      apply Step.stateAfter_of_wp
        (P := fun b : Account => a.holdings.Conserved (a.holdings.completing id outcome) b.holdings)
      rw [Action.step, Step.wp_discard, release, onHoldings, Step.wp_onPart]
      exact Holdings.Separated.conserved_release ha id outcome
  | reserve request now =>
      apply Step.stateAfter_of_wp (P := fun b : Account => a.holdings.Conserved [] b.holdings)
      rw [Action.step, Step.wp_discard]
      obtain ⟨h, -, reached, -, conserved⟩ := ha.expire_spec now
      have planned := ha.wp_reserve request now
      rw [reached] at planned
      exact planned.mono (fun _ _ hc => conserved.trans hc.2.2) fun _ _ hc => conserved.trans hc
  | _ => cases moves

theorem conserved_run (ha : a.Separated) {calls : List Action}
    (moves : calls.all (·.movesCoins)) :
    a.holdings.Conserved (a.completed calls) (a.run calls).holdings := by
  induction calls generalizing a with
  | nil => exact .of_eq rfl rfl
  | cons call rest ih =>
      rw [List.all_cons, Bool.and_eq_true] at moves
      exact (ha.conserved_perform moves.1).trans (ih (ha.perform call) moves.2)

end Separated

variable {id : Nat} {r? : Option Reservation}

theorem remains_perform (ha : a.Separated) (hr : a.reservations.Remains id r?) (action : Action) :
    (action.perform a).reservations.Remains id (r?.map (·.withoutAll action.inputs)) := by
  cases action with
  | spend tx =>
      exact ReservationTable.lasting_remains.coinInvariant.balanceInvariant.spendCoins
        (hr.foldl_markSpent ha.table tx.inputs)
  | _ =>
      simp only [Action.inputs, Reservation.withoutAll_nil, Option.map_id']
      exact table_perform ReservationTable.lasting_remains hr nofun

theorem remains_run (ha : a.Separated) (hr : a.reservations.Remains id r?)
    (actions : List Action) : (a.run actions).reservations.Remains id
      (r?.map (·.withoutAll (actions.flatMap (·.inputs)))) := by
  induction actions generalizing a r? with
  | nil =>
      simp only [List.flatMap_nil, Reservation.withoutAll_nil, Option.map_id']
      exact hr
  | cons action rest ih =>
      have later := ih (ha.perform action) (remains_perform ha hr action)
      simp only [Option.map_map, Function.comp_def, ← Reservation.withoutAll_append] at later
      exact later

/-- A reservation that was resolved is gone for good. -/
theorem remains_of_release (ha : a.Separated) {outcome : Reservation.Outcome} {r : Reservation}
    {b : Account} (done : release id outcome a = .ok r b) : b.reservations.Remains id none := by
  obtain ⟨h, released, rfl⟩ := onHoldings_eq_ok_iff.mp done
  have known : a.reservations.find? id ≠ none := by
    intro unknown
    rw [Holdings.release_of_unknown unknown] at released
    cases released
  have gone : (Holdings.release id outcome).wp
      (fun _ => Holdings.Table (·.Remains id none)) (fun _ => Holdings.Table (·.Remains id none))
      a.holdings := by
    apply Holdings.wp_release_of_frame (P := Holdings.Table (·.Remains id none)) fun _ hr => hr
    · exact fun missing => absurd (Option.map_eq_none_iff.mp missing) known
    · intro taken s ht
      have rest := ha.table.remains_of_take ht
      cases outcome with
      | completed => exact ReservationTable.lasting_remains.addPending s.coins rest
      | cancelled => exact rest
  exact gone.of_ok released

variable {config : Config} {source : KeySource}

/-- After every run, no coin is lost or made by reservations. -/
theorem conserves_run (opened : ofConfig config source = .ok a) (actions : List Action) :
    (a.run actions).Conserves := by
  have separated : (a.run actions).Separated :=
    invariant_separated.run (separated_of_ofConfig opened) actions
  constructor
  case distinct => exact Holdings.Separated.nodup_coins separated
  case together => exact fun moves => separated.conserved_run moves
  case withdrawn =>
      intro request now r b planned
      obtain ⟨found, moved, -⟩ := (separated.wp_reserve request now).of_ok planned
      exact ⟨found, moved⟩
  case kept =>
      intro id r found later s still
      have remains := remains_run separated (separated.table.remains found) later
      exact (Option.some.inj (remains.same still)).symm
  case cancelled =>
      intro id r found
      obtain ⟨_, h, released, rfl, cancelled⟩ :=
        (Holdings.Separated.wp_cancel separated found).exists_ok
      exact ⟨h, onHoldings_eq_ok_iff.mpr ⟨h, released, rfl⟩, cancelled⟩
  case expired =>
      intro now
      obtain ⟨h, expired, -, cancelled, -⟩ := separated.expire_spec now
      exact ⟨h, expired, cancelled⟩
  case once =>
      intro id outcome r b done later again
      have separated_b : b.Separated :=
        (invariant_separated.release id outcome (a.run actions) separated).of_ok done
      have gone := (remains_run separated_b (remains_of_release separated done) later).find?_eq_none
      rw [release, onHoldings, Step.onPart, Holdings.release_of_unknown gone]

/-- Three payments overlap. One is completed, one gets too old, and the third takes the coin
that the second gave back, at the end of a lifetime in which the clock was set back once. -/
theorem conserves_with_overlapping_reservations :
    let config : Config :=
      { receivingGapLimit := 1, changeGapLimit := 2, reservationLifetime := 100 }
    let coin (index : UInt32) (value : Amount) : Coin := ⟨⟨⟨0⟩, index⟩, ⟨value, default⟩⟩
    let plan (now : Timestamp) : Action := .reserve (.ofTarget 5000 ⟨1000⟩) now
    let before : List Action :=
      [.addCoin (coin 0 30000), .addCoin (coin 1 20000), .addCoin (coin 2 10000), plan 50]
    let calls : List Action := [plan 120, .release 1 .completed, .expire 0, plan 220]
    ∃ a, ofConfig config (.numbered ∅ true) = .ok a ∧ (a.run before).Conserves ∧
      (a.run before).completed calls = [coin 0 30000] ∧
      ((a.run before).run calls).holdings.coins = [coin 2 10000, coin 1 20000] ∧
      [coin 2 10000, coin 1 20000, coin 0 30000].Perm (a.run before).holdings.coins := by
  intro config coin plan before calls
  have answer : (ofConfig config (.numbered ∅ true)).toOption.any fun a =>
      (a.run before).completed calls = [coin 0 30000] ∧
        ((a.run before).run calls).holdings.coins = [coin 2 10000, coin 1 20000] := by
    decide +kernel
  obtain ⟨a, opened, facts⟩ := Step.exists_ok_of_any answer
  obtain ⟨completed, coins⟩ := of_decide_eq_true facts
  have conserves := conserves_run opened before
  have moves : calls.all (·.movesCoins) := by decide
  have together := (conserves.together moves).coins
  rw [completed, coins] at together
  exact ⟨a, opened, conserves, completed, coins, together⟩

end Account

end HdWallet
