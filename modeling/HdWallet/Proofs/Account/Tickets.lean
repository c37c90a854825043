import HdWallet.Proofs.Account.Balances

/-!
# Tickets in every state

An answer counts if its ticket is above the floor of its address. As long as nobody hands in an
answer with a ticket that was not issued, no floor is above the last ticket, so the answers to the
next queries count. Restoring a snapshot changes neither.
-/

namespace HdWallet.Account

variable {config : Config} {source : KeySource} {a : Account}

/-- A property of tickets and floors is kept by all that issues no ticket and changes no balance. -/
theorem holdingsInvariant_of_tickets {P : Account → Prop}
    (frame : ∀ {a b : Account}, P a → b.tickets = a.tickets → b.floors = a.floors → P b) :
    HoldingsInvariant P := by
  have keeps_onHoldings {α : Type} (step : Step Holdings α) : (onHoldings step).Keeps P :=
    Step.keeps_onPart_of_frame step fun _ _ ha => frame ha rfl rfl
  exact {
    setRetries := fun _ ha => frame ha rfl rfl
    setCacheLifetime := fun _ ha => frame ha rfl rfl
    setGapLimit := fun branch limit => by
      refine (keeps_onHoldings _).bind fun _ => (Step.keeps_modify ?_).bind fun _ =>
        Step.keeps_pure _
      intro a ha
      cases branch <;> exact frame ha rfl rfl
    nextUnused := fun _ _ => keeps_onHoldings _
    markUsed := fun _ => keeps_onHoldings _
    addCoin := fun _ ha => frame ha rfl rfl
    removeCoin := fun _ ha => frame ha rfl rfl
    receive := fun _ ha => frame ha rfl rfl
    spend := fun _ ha => frame ha rfl rfl
    reserve := fun _ _ _ => keeps_onHoldings _
    release := fun _ _ => keeps_onHoldings _
    resync := fun _ _ => keeps_onHoldings _
    replaceAll := fun _ => keeps_onHoldings _ }

/-- No floor is above the last ticket. -/
def Current (a : Account) : Prop := ∀ address, a.floor address ≤ a.tickets

namespace Current

theorem holdingsInvariant : HoldingsInvariant Current :=
  holdingsInvariant_of_tickets fun {a b} ha tickets floors address => by
    rw [floor, tickets, floors]
    exact ha address

theorem ticketInvariant : TicketInvariant Current where
  toOwnInvariant := holdingsInvariant.toOwnInvariant
  issueTicket ha address := Nat.le_succ_of_le (ha address)
  invalidateAddress {a} address ha := by
    obtain unknown | ⟨-, invalidated⟩ := a.invalidateAddress_cases address
    · rwa [unknown]
    · rw [invalidated]
      intro other
      rw [floor, floor_insert]
      split
      next => exact Nat.le_refl _
      next => exact ha other

theorem recordBalance (ha : a.Current) (address : Address) (balance : Amount) {ticket : Nat}
    (issued : ticket ≤ a.tickets) (now : Timestamp) :
    (a.recordBalance address balance ticket now).1.Current := by
  obtain refused | ⟨-, -, kept⟩ := a.recordBalance_cases address balance ticket now
  · rwa [refused]
  · rw [kept]
    intro other
    rw [floor, floor_insert]
    split
    next => exact issued
    next => exact ha other

end Current

def Action.isIssued (a : Account) (action : Action) : Bool := action.ticket?.all (· ≤ a.tickets)

theorem Current.perform (ha : a.Current) {action : Action} (issued : action.isIssued a) :
    (action.perform a).Current := by
  have inv := Current.holdingsInvariant
  cases restores : action.restores with
  | true =>
      cases action with
      | applySnapshot snapshot =>
          have keeps : (onHoldings snapshot.apply).Keeps Current :=
            Step.keeps_onPart_of_frame _ fun _ _ ha => ha
          exact keeps.stateAfter ha
      | _ => cases restores
  | false =>
      have keeping : action.Keeping Current a := by
        cases action with
        | absorbRefresh refresh address reply now =>
            exact fun balance _ => ha.recordBalance address balance (of_decide_eq_true issued) now
        | closeEvent address ticket reply unspent now =>
            exact fun balance _ => ha.recordBalance address balance (of_decide_eq_true issued) now
        | absorbDrainBalance drain address reply now =>
            exact fun balance _ _ => ha.recordBalance address balance (of_decide_eq_true issued) now
        | _ => trivial
      exact Step.stateAfter_of_wp
        (Current.ticketInvariant.wp_step ha restores (inv.learning ha action) keeping)

theorem current_run (opened : ofConfig config source = .ok a) {actions : List Action}
    (issued : a.throughout Action.isIssued actions) : (a.run actions).Current := by
  refine run_of_throughout (P := Current) (fun ha here => ha.perform here) ?_ issued
  obtain ⟨keychain, -, rfl⟩ := ofConfig_eq_ok opened
  intro address
  simp [floor]

end HdWallet.Account
