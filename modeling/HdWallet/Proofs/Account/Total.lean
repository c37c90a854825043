import HdWallet.Proofs.Account.Coherence
import HdWallet.Proofs.Ledger.Total

/-!
# The running total of an account's ledger

Every operation changes the ledger by putting in and taking out coins only, so its running total
is exact in every state of an account.
-/

namespace HdWallet

namespace Holdings

def LedgerExact (h : Holdings) : Prop := h.ledger.Exact

theorem LedgerExact.setKeychain {h : Holdings} (keychain : Keychain) (he : h.LedgerExact) :
    LedgerExact { h with keychain } :=
  he

theorem keeps_exact_reserve (request : SpendRequest) (selector : Selector) (now : Timestamp) :
    (reserve request selector now).Keeps LedgerExact := by
  intro h he
  apply (reserve_spec request selector now h).mono
  · rintro r t ⟨selection, slot, -, -, -, hledger, -⟩
    rw [LedgerExact, hledger]
    exact he.removeAll _
  · intro e t unplanned
    obtain hledger | ⟨outpoints, hledger⟩ := unplanned.ledger_eq
    · rw [LedgerExact, hledger]
      exact he
    · rw [LedgerExact, hledger]
      exact (he.removeAll outpoints).addAll _

theorem keeps_exact_release (id : Nat) (outcome : Reservation.Outcome) :
    (release id outcome).Keeps LedgerExact := by
  intro h he
  apply wp_release_of_frame (P := LedgerExact) LedgerExact.setKeychain fun _ => he
  intro taken r _
  cases outcome with
  | completed => exact he
  | cancelled => exact Ledger.Exact.addAll he r.coins

theorem keeps_exact_resync (address : Address) (reported : List Coin) :
    (resync address reported).Keeps LedgerExact := by
  intro h he
  apply wp_resync_of_frame (P := LedgerExact) LedgerExact.setKeychain he
  intro slot gone _
  exact (Ledger.Exact.removeAll he gone).addAll _

theorem keeps_exact_replaceAll (reports : List (Address × List Coin)) :
    (replaceAll reports).Keeps LedgerExact := by
  intro h he
  apply wp_replaceAll_of_frame (P := LedgerExact) LedgerExact.setKeychain
  exact Ledger.exact_ofCoins _

theorem coinInvariant_exact : Account.CoinInvariant LedgerExact where
  setKeychain := LedgerExact.setKeychain
  addCoin {h} coin he := by
    rw [addCoin]
    split
    next => exact he
    next => exact Ledger.Exact.add he coin
  removeCoin outpoint he := Ledger.Exact.remove he outpoint
  receive tx he := Ledger.Exact.addAll he _
  reserve := keeps_exact_reserve
  release := keeps_exact_release
  applySnapshot snapshot := keeps_apply_of_frame (P := LedgerExact) LedgerExact.setKeychain snapshot
    fun _ => Ledger.exact_ofCoins _

end Holdings

namespace Account

theorem invariant_exact : Invariant fun a => a.ledger.Exact where
  __ := Holdings.coinInvariant_exact.balanceInvariant
  spend tx ha := Ledger.Exact.removeAll ha tx.inputs
  resync address reported := keeps_onHoldings (Holdings.keeps_exact_resync address reported)
  replaceAll reports := keeps_onHoldings (Holdings.keeps_exact_replaceAll reports)

theorem exact_run {config : Config} {source : KeySource} {a : Account}
    (opened : ofConfig config source = .ok a) (actions : List Action) :
    (a.run actions).ledger.Exact := by
  apply invariant_exact.run
  obtain ⟨_, _, rfl⟩ := ofConfig_eq_ok opened
  exact Ledger.exact_empty

end Account

end HdWallet
