import HdWallet.KeySource.Scripted
import HdWallet.Proofs.Account.Run
import HdWallet.Proofs.Holdings

/-!
# The containers of an account agree

An outpoint that the account knows is in the ledger, held by one active reservation, or
pending, and in no two of these places. Every action keeps this, whatever its caller, the
balance source and the clock say and whether it fails or not; so it holds after every run
from an account just opened.
-/

namespace HdWallet.Account

/-- The ledger, the active reservations and the pending spends of an account agree. -/
structure Coherent (a : Account) : Prop where
  ledger_held : ∀ {o id r}, a.ledger.contains o → a.reservations.find? id = some r →
    o ∉ r.outpoints
  ledger_pending : ∀ {o}, a.ledger.contains o → ¬a.reservations.isPending o
  held_pending : ∀ {o id r}, a.reservations.find? id = some r → o ∈ r.outpoints →
    ¬a.reservations.isPending o
  holder_unique : ∀ {o i j r s}, a.reservations.find? i = some r →
    a.reservations.find? j = some s → o ∈ r.outpoints → o ∈ s.outpoints → i = j
  holders_iff : ∀ {o id}, a.reservations.holders[o]? = some id ↔
    ∃ r, a.reservations.find? id = some r ∧ o ∈ r.outpoints
  id_eq : ∀ {id r}, a.reservations.find? id = some r → r.id = id
  id_lt : ∀ {id r}, a.reservations.find? id = some r → id < a.reservations.nextId
  claim_inj : ∀ {i j r s}, a.reservations.find? i = some r → a.reservations.find? j = some s →
    r.change.index = s.change.index → i = j

def Separated (a : Account) : Prop := a.holdings.Separated

namespace Separated

variable {a : Account}

theorem coherent (h : a.Separated) : a.Coherent where
  ledger_held hledger hfind hlisted := by
    have reserved := h.table.isReserved_iff.mpr ⟨_, _, hfind, hlisted⟩
    exact h.free hledger ((ReservationTable.isWithheld_iff _).mpr (.inl reserved))
  ledger_pending hledger hpending :=
    h.free hledger ((ReservationTable.isWithheld_iff _).mpr (.inr hpending))
  held_pending hfind hlisted :=
    h.table.pending_free (h.table.isReserved_iff.mpr ⟨_, _, hfind, hlisted⟩)
  holder_unique hi hj hr hs := h.table.holder_unique hi hj hr hs
  holders_iff := h.table.holders_iff
  id_eq hfind := h.table.id_eq hfind
  id_lt hfind := h.table.id_lt hfind
  claim_inj hi hj hindex := h.table.claim_inj hi hj hindex

end Separated

theorem coinInvariant_separated : CoinInvariant Holdings.Separated where
  setKeychain := Holdings.Separated.setKeychain
  addCoin coin hs := hs.addCoin coin
  removeCoin outpoint hs := hs.remove outpoint
  receive tx hs := hs.receive tx
  reserve := Holdings.keeps_reserve
  release := Holdings.keeps_release
  applySnapshot snapshot := snapshot.keeps_apply

theorem invariant_separated : Invariant Separated where
  __ := coinInvariant_separated.balanceInvariant
  spend tx ha := Holdings.Separated.spend ha tx
  resync address reported := keeps_onHoldings (Holdings.keeps_resync address reported)
  replaceAll reports := keeps_onHoldings (Holdings.keeps_replaceAll reports)

theorem separated_of_ofConfig {config : Config} {source : KeySource} {a : Account}
    (opened : ofConfig config source = .ok a) : a.Separated := by
  obtain ⟨keychain, -, rfl⟩ := ofConfig_eq_ok opened
  exact Holdings.Separated.empty keychain config.reservationLifetime

/-- The containers of an account agree after every run. -/
theorem coherent_run {config : Config} {source : KeySource} {a : Account}
    (opened : ofConfig config source = .ok a) (actions : List Action) :
    (a.run actions).Coherent :=
  (invariant_separated.run (separated_of_ofConfig opened) actions).coherent

/-- A completed reservation leaves its coin pending. -/
theorem coherent_after_completion :
    let config : Config := { receivingGapLimit := 1, changeGapLimit := 1 }
    let request := SpendRequest.ofTarget 5000 ⟨1000⟩
    let actions : List Action :=
      [.addCoin ⟨default, ⟨100000, default⟩⟩, .reserve request 0, .release 1 .completed]
    ∃ a, ofConfig config (.numbered ∅ true) = .ok a ∧
      (a.run actions).reservations.isPending default ∧ (a.run actions).Coherent := by
  intro config request actions
  have pending : (ofConfig config (.numbered ∅ true)).toOption.any
      fun a => (a.run actions).reservations.isPending default := by decide +kernel
  cases opened : ofConfig config (.numbered ∅ true) with
  | error e =>
      rw [opened] at pending
      cases pending
  | ok a =>
      rw [opened] at pending
      exact ⟨a, rfl, pending, coherent_run opened actions⟩

end HdWallet.Account
