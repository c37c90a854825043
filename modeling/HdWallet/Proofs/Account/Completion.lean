import HdWallet.KeySource.Scripted
import HdWallet.Proofs.Account.Claims

/-!
# Completing a payment whose change chain cannot grow

A completed reservation leaves the table and its coins become pending before its change address
is marked used. Marking grows the change chain, and there the source may fail. The completion
fails then, although all of it is done but the growth: the reservation is gone, and the same
call made again does not know it any more. Apart from that only an unknown reservation makes
resolving one fail, and nothing changes.
-/

namespace HdWallet

namespace Holdings

variable {h : Holdings}

theorem release_of_unknown {id : Nat} (unknown : h.reservations.find? id = none)
    (outcome : Reservation.Outcome) :
    release id outcome h = .error (.unknownReservation id) h := by
  have missing : h.reservations.take id = none := by
    rw [ReservationTable.take, unknown, Option.map_none]
  have fails : (release id outcome).wp (fun _ _ => False)
      (fun e t => e = .unknownReservation id ∧ t = h) h := by
    rw [wp_release_iff, missing]
    exact ⟨rfl, rfl⟩
  obtain ⟨_, _, failed, rfl, rfl⟩ := fails.exists_error
  exact failed

/-- The completion of `r` failed in the end: the reservation is gone, its coins are pending and
its change slot is used, but the change chain stops short of what the gap rule asks for. -/
structure Severed (h : Holdings) (id : Nat) (r : Reservation) (e : Failure) (t : Holdings) :
    Prop where
  ledger_eq : t.ledger = h.ledger
  find?_eq : ∀ j, t.reservations.find? j = if id = j then none else h.reservations.find? j
  isPending_iff : ∀ o, t.reservations.isPending o ↔
    h.reservations.isPending o ∨ o ∈ r.outpoints
  unused : ¬h.keychain.UsedAt .change r.change.index.toNat
  used : t.keychain.UsedAt .change r.change.index.toNat
  short : (t.keychain.chain .change).size < (t.keychain.chain .change).requiredSize
  blocked : t.keychain.Blocked .change e
  /-- The reservation cannot be resolved any more. -/
  again : ∀ outcome, release id outcome t = .error (.unknownReservation id) t

/-- A completion leaves the claimed change slot used if the plan has a change output. Resolving a
reservation fails if it is unknown, or if its completion is severed. -/
theorem Backed.wp_release (hb : h.Backed) (sound : h.keychain.Sound) (id : Nat)
    (outcome : Reservation.Outcome) :
    (release id outcome).wp
      (fun r t => h.reservations.find? id = some r ∧ (outcome = .completed → r.hasChange →
        t.keychain.UsedAt .change r.change.index.toNat))
      (fun e t => e = .unknownReservation id ∧ t = h ∧ h.reservations.find? id = none ∨
        outcome = .completed ∧ ∃ r, h.reservations.find? id = some r ∧ r.hasChange ∧
          h.Severed id r e t) h := by
  rw [wp_release_iff]
  split
  next missing => exact .inl ⟨rfl, rfl, Option.map_eq_none_iff.mp missing⟩
  next taken r ht =>
      obtain ⟨hr, hfind, -, hpending, -⟩ := h.reservations.take_spec ht
      split
      next marked =>
          obtain ⟨rfl, hasChange⟩ := marked
          have claimed : r.change.index.toNat ∈ h.reservations.claimed :=
            h.reservations.mem_claimed.mpr ⟨id, r, hr, rfl⟩
          have marks := Keychain.wp_markIndexUsed (hb.claimed_lt_size sound claimed)
          rw [onKeychain, Step.wp_onPart]
          apply marks.mono fun _ _ used => ⟨hr, fun _ _ => used⟩
          rintro e keychain ⟨unused, used, short, blocked⟩
          refine .inr ⟨rfl, r, hr, hasChange, ?_⟩
          constructor
          case ledger_eq => rfl
          case find?_eq => exact hfind
          case isPending_iff =>
              intro o
              rw [Reservation.mem_outpoints]
              change (taken.addPending r.coins).isPending o ↔ _
              rw [taken.isPending_addPending, ReservationTable.isPending, hpending]
              rfl
          case unused => exact unused
          case used => exact used
          case short => exact short
          case blocked => exact blocked
          case again =>
              intro outcome
              exact release_of_unknown ((hfind id).trans (if_pos rfl)) outcome
      next unmarked =>
          exact ⟨hr, fun completed hasChange => absurd ⟨completed, hasChange⟩ unmarked⟩

theorem Backed.wp_complete (hb : h.Backed) (sound : h.keychain.Sound) {id : Nat}
    {r : Reservation} (hr : h.reservations.find? id = some r) (hasChange : r.hasChange) :
    (release id .completed).wp
      (fun _ t => t.keychain.UsedAt .change r.change.index.toNat)
      (fun _ t => t.keychain.UsedAt .change r.change.index.toNat) h := by
  apply (hb.wp_release sound id .completed).mono
  · rintro s t ⟨found, used⟩
    rw [hr] at found
    cases found
    exact used rfl hasChange
  · rintro e t (⟨-, -, unknown⟩ | ⟨-, s, found, -, severed⟩)
    · rw [hr] at unknown
      cases unknown
    · rw [hr] at found
      cases found
      exact severed.used

end Holdings

namespace Account

variable {config : Config} {source : KeySource} {a : Account}

/-- After every run, resolving a reservation fails without any change if the reservation is
unknown. Otherwise only a completion fails, and only after all was done but the growth of the
change chain, which the source stops. -/
theorem release_failed_run (opened : ofConfig config source = .ok a) (actions : List Action)
    {id : Nat} {outcome : Reservation.Outcome} {e : Failure} {c : Account}
    (failed : release id outcome (a.run actions) = .error e c) :
    let now := a.run actions
    e = .unknownReservation id ∧ c = now ∧ now.reservations.find? id = none ∨
      outcome = .completed ∧ ∃ r, now.reservations.find? id = some r ∧ r.hasChange ∧
        c = { now with holdings := c.holdings } ∧ now.holdings.Severed id r e c.holdings := by
  intro now
  have resolved := (backed_run opened actions).wp_release (sound_run opened actions) id outcome
  have spec : (release id outcome).wp (fun _ _ => True)
      (fun e c => e = .unknownReservation id ∧ c = now ∧ now.reservations.find? id = none ∨
        outcome = .completed ∧ ∃ r, now.reservations.find? id = some r ∧ r.hasChange ∧
          c = { now with holdings := c.holdings } ∧ now.holdings.Severed id r e c.holdings)
      now := by
    rw [release, onHoldings, Step.wp_onPart]
    apply resolved.mono fun _ _ _ => trivial
    rintro e t (⟨rfl, rfl, unknown⟩ | ⟨rfl, r, hr, hasChange, severed⟩)
    · exact .inl ⟨rfl, rfl, unknown⟩
    · exact .inr ⟨rfl, r, hr, hasChange, rfl, severed⟩
  exact spec.of_error failed

/-- The second address of the change chain is used, and the source fails at the third. -/
theorem release_failed_of_failing_source :
    let config : Config := { receivingGapLimit := 1, changeGapLimit := 2 }
    let fails : KeySource.Override := { failure := some "no key" }
    let source := KeySource.numbered (.ofList [("change/2", fails)]) true
    let actions : List Action := [.addCoin ⟨default, ⟨100000, default⟩⟩,
      .markUsed ⟨"change-0"⟩, .reserve (.ofTarget 5000 ⟨1000⟩) 0]
    ∃ a e c, ofConfig config source = .ok a ∧
      release 1 .completed (a.run actions) = .error e c ∧ e = .derivation "no key" ∧
      ∃ r, (a.run actions).reservations.find? 1 = some r ∧
        (a.run actions).holdings.Severed 1 r e c.holdings := by
  intro config fails source actions
  have answer : (ofConfig config source).toOption.any fun a =>
      match release 1 .completed (a.run actions) with
      | .ok _ _ => false
      | .error e _ => e = .derivation "no key" := by
    decide +kernel
  obtain ⟨a, opened, fails⟩ := Step.exists_ok_of_any answer
  split at fails
  next => cases fails
  next e c failed =>
      obtain rfl := of_decide_eq_true fails
      obtain ⟨⟨⟩, -⟩ | ⟨-, r, hr, -, -, severed⟩ := release_failed_run opened actions failed
      exact ⟨a, _, c, opened, failed, rfl, r, hr, severed⟩

/-- A completion that failed has lost the reservation: its coin is pending, its change address is
used, and trying once more does not find it. -/
theorem release_lost :
    let config : Config := { receivingGapLimit := 1, changeGapLimit := 2 }
    let fails : KeySource.Override := { failure := some "no key" }
    let source := KeySource.numbered (.ofList [("change/2", fails)]) true
    let actions : List Action := [.addCoin ⟨default, ⟨100000, default⟩⟩,
      .markUsed ⟨"change-0"⟩, .reserve (.ofTarget 5000 ⟨1000⟩) 0]
    ∃ a e c d, ofConfig config source = .ok a ∧
      ((a.run actions).reservations.find? 1).isSome ∧
      (a.run actions).reservations.isPending default = false ∧
      (a.run actions).keychain.change.highestUsed = some 0 ∧
      release 1 .completed (a.run actions) = .error e c ∧
      (c.reservations.find? 1).isSome = false ∧ c.reservations.isPending default ∧
      c.keychain.change.highestUsed = some 1 ∧
      release 1 .completed c = .error (.unknownReservation 1) d := by
  intro config fails source actions
  have answer : (ofConfig config source).toOption.any fun a =>
      (((a.run actions).reservations.find? 1).isSome ∧
        (a.run actions).reservations.isPending default = false ∧
        (a.run actions).keychain.change.highestUsed = some 0) &&
      match release 1 .completed (a.run actions) with
      | .ok _ _ => false
      | .error _ c => ((c.reservations.find? 1).isSome = false ∧
          c.reservations.isPending default ∧ c.keychain.change.highestUsed = some 1) &&
        match release 1 .completed c with
        | .ok _ _ => false
        | .error e _ => e = .unknownReservation 1 := by
    decide +kernel
  obtain ⟨a, opened, facts⟩ := Step.exists_ok_of_any answer
  obtain ⟨before, facts⟩ := Bool.and_eq_true_iff.mp facts
  obtain ⟨active, free, unused⟩ := of_decide_eq_true before
  split at facts
  next => cases facts
  next e c failed =>
      obtain ⟨after, facts⟩ := Bool.and_eq_true_iff.mp facts
      obtain ⟨gone, pending, used⟩ := of_decide_eq_true after
      split at facts
      next => cases facts
      next _ d again =>
          obtain rfl := of_decide_eq_true facts
          exact ⟨a, e, c, d, opened, active, free, unused, failed, gone, pending, used, again⟩

end Account

end HdWallet
