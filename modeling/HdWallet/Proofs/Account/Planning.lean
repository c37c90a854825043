import HdWallet.KeySource.Scripted
import HdWallet.Proofs.Account.Claims

/-!
# Planning a payment does everything or nothing

Planning chooses coins, hands out a change slot, takes the coins out of the ledger and registers
the reservation. The first two parts may fail and withdraw nothing; the others never do, since
the coins that were chosen are in the ledger and no reservation holds them. All that a plan
that failed leaves behind are unused change slots, derived before the source stopped.
-/

namespace HdWallet

namespace Holdings

variable {h : Holdings}

/-- Coins of the ledger are free, so all chosen coins are taken out. -/
theorem Separated.withdraws (hs : h.Separated) {selector : Selector} {payment : Payment}
    {selection : Selection} (chosen : selector.choose h.ledger.coins payment = .ok selection) :
    h.alreadyReserved? selection.coins = none ∧
      (h.ledger.removeAll (selection.coins.map (·.outpoint))).2.length =
        selection.coins.length := by
  obtain ⟨distinct, present⟩ := h.ledger.chosen_spec chosen
  constructor
  · apply List.find?_eq_none.mpr
    intro coin listed reserved
    apply hs.free (h.ledger.contains_of_mem_coins (present coin listed))
    exact h.reservations.isWithheld_iff.mpr (.inl reserved)
  · rw [h.ledger.length_removeAll distinct, List.length_map]
    intro o listed
    obtain ⟨coin, hcoin, rfl⟩ := List.mem_map.mp listed
    exact h.ledger.contains_of_mem_coins (present coin hcoin)

/-- Planning fails only where choosing coins or handing out a slot does, before anything was
withdrawn. -/
theorem Separated.wp_reserve (hs : h.Separated) (request : SpendRequest) (selector : Selector)
    (now : Timestamp) :
    let claimSlot := Keychain.nextUnused .change h.reservations.claimed
    (reserve request selector now).wp (fun _ _ => True)
      (fun e t => t.ledger = h.ledger ∧ t.reservations = h.reservations ∧
        ((∃ failure, selector.choose h.ledger.coins request.payment = .error failure ∧
            e = .ofSelection failure ∧ t.keychain = h.keychain) ∨
          claimSlot h.keychain = .error e t.keychain)) h := by
  intro claimSlot
  apply (reserve_spec request selector now h).mono (fun _ _ _ => trivial)
  intro e t unplanned
  cases unplanned with
  | unchosen failed => exact ⟨rfl, rfl, .inl ⟨_, failed, rfl, rfl⟩⟩
  | unclaimed failed => exact ⟨rfl, rfl, .inr failed⟩
  | withheld chosen reserved =>
      rw [(hs.withdraws chosen).1] at reserved
      cases reserved
  | vanished chosen _ withdrawn missing =>
      have all := (hs.withdraws chosen).2
      rw [withdrawn] at all
      exact absurd all missing

end Holdings

/-- A branch that stops does not report an inconsistency of its own. -/
theorem Keychain.Blocked.derive_eq {keys : Keychain} {branch : Branch} (h : keys.Sound)
    {detail : String} (blocked : keys.Blocked branch (.inconsistent detail)) :
    ∃ index, keys.source.derive (keys.account.child branch index) =
      .error (.inconsistent detail) := by
  obtain stops | ⟨_, _, same, _⟩ := blocked
  · rw [Chain.next, h.account_eq, h.branch_eq] at stops
    split at stops
    next => cases stops
    next =>
        refine ⟨UInt32.ofNat (keys.chain branch).size, ?_⟩
        dsimp only at stops
        split at stops
        next e failed => rw [failed, Except.error.inj stops]
        next => cases stops
  · cases same

namespace Account

variable {config : Config} {source : KeySource} {a : Account}

/-- After every run, handing out a change slot that no reservation claims fails only where the
chain has none and cannot grow. -/
theorem wp_nextUnused_run (opened : ofConfig config source = .ok a) (actions : List Action) :
    let h := (a.run actions).holdings
    (Keychain.nextUnused .change h.reservations.claimed).wp
      (Keychain.HandsOut .change h.reservations.claimedIndices h.keychain)
      (fun e t => (h.keychain.chain .change).free h.reservations.claimedIndices = ∅ ∧
        h.keychain.Grows .change t ∧
        (t.chain .change).size <
          (h.keychain.chain .change).size + (h.keychain.chain .change).gapLimit ∧
        t.Blocked .change e) h.keychain := by
  intro h
  have sound : h.keychain.Sound := sound_run opened actions
  rw [← h.reservations.setOf_mem_claimed]
  apply sound.wp_nextUnused
  · exact fun _ claimed => (backed_run opened actions).claimed_lt_size sound claimed
  · exact positive_run opened actions .change

/-- A plan that fails leaves the ledger and the reservations as they are, and the keychain too
but for unused change slots at the end. It fails because no coins can be chosen or no change
slot can be handed out, and reports an inconsistency only if the source does. -/
theorem reserve_all_or_nothing (opened : ofConfig config source = .ok a) (actions : List Action)
    {request : SpendRequest} {selector : Selector} {now : Timestamp} {e : Failure} {t : Holdings}
    (failed : Holdings.reserve request selector now (a.run actions).holdings = .error e t) :
    let h := (a.run actions).holdings
    t.ledger = h.ledger ∧ t.reservations = h.reservations ∧
      h.keychain.Grows .change t.keychain ∧
      ((∃ failure, selector.choose h.ledger.coins request.payment = .error failure ∧
          e = .ofSelection failure) ∨
        Keychain.nextUnused .change h.reservations.claimed h.keychain = .error e t.keychain) ∧
      ∀ detail, e = .inconsistent detail →
        ∃ index, source.derive (config.accountPath.child .change index) = .error e := by
  intro h
  have separated : h.Separated := invariant_separated.run (separated_of_ofConfig opened) actions
  have sound : h.keychain.Sound := sound_run opened actions
  obtain ⟨ledger, reservations, reason⟩ :=
    (separated.wp_reserve request selector now).of_error failed
  refine ⟨ledger, reservations, ?_⟩
  obtain ⟨failure, unchosen, rfl, keychain⟩ | unclaimed := reason
  · rw [keychain]
    refine ⟨.refl _ _, .inl ⟨failure, unchosen, rfl⟩, ?_⟩
    intro detail same
    cases failure <;> cases same
  · obtain ⟨-, grows, -, blocked⟩ := (wp_nextUnused_run opened actions).of_error unclaimed
    refine ⟨grows, .inr unclaimed, ?_⟩
    rintro detail rfl
    have origin : t.keychain.source = source ∧ t.keychain.account = config.accountPath := by
      rw [grows.eq_setChain, Keychain.source_setChain, Keychain.account_setChain]
      exact origin_run opened actions
    have kept := Keychain.enduring_sound.toGrowth.keeps_nextUnused .change
      h.reservations.claimed h.keychain sound
    have derived := blocked.derive_eq (kept.of_error unclaimed)
    rwa [origin.1, origin.2] at derived

/-- A third reservation finds no free change slot. The chain grows by one of two slots, and
then the source fails. -/
theorem reserve_all_or_nothing_of_failing_source :
    let config : Config := { receivingGapLimit := 1, changeGapLimit := 2 }
    let fails : KeySource.Override := { failure := some "no key" }
    let source := KeySource.numbered (.ofList [("change/3", fails)]) true
    let coin (index : UInt32) : Coin := ⟨⟨⟨0⟩, index⟩, ⟨100000, default⟩⟩
    let request := SpendRequest.ofTarget 5000 ⟨1000⟩
    let actions : List Action := [.addCoin (coin 0), .addCoin (coin 1), .addCoin (coin 2),
      .reserve request 0, .reserve request 0]
    ∃ a e t, ofConfig config source = .ok a ∧
      Holdings.reserve request (selector config .largestFirst) 0 (a.run actions).holdings =
        .error e t ∧
      e = .derivation "no key" ∧ (a.run actions).keychain.change.size = 2 ∧
      t.keychain.change.size = 3 ∧ t.ledger = (a.run actions).ledger ∧
      t.reservations = (a.run actions).reservations := by
  intro config fails source coin request actions
  have answer : (ofConfig config source).toOption.any fun a =>
      (a.run actions).keychain.change.size = 2 &&
      match Holdings.reserve request (selector config .largestFirst) 0 (a.run actions).holdings with
      | .ok _ _ => false
      | .error e t => e = .derivation "no key" ∧ t.keychain.change.size = 3 := by
    decide +kernel
  obtain ⟨a, opened, facts⟩ := Step.exists_ok_of_any answer
  obtain ⟨before, fails⟩ := Bool.and_eq_true_iff.mp facts
  split at fails
  next => cases fails
  next e t failed =>
      obtain ⟨failure, after⟩ := of_decide_eq_true fails
      obtain ⟨ledger, reservations, -⟩ := reserve_all_or_nothing opened actions failed
      exact ⟨a, e, t, opened, failed, failure, of_decide_eq_true before, after, ledger,
        reservations⟩

end Account

end HdWallet
