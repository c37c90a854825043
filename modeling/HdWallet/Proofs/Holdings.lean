import HdWallet.Snapshot
import HdWallet.Proofs.Keychain
import HdWallet.Proofs.Ledger
import HdWallet.Proofs.Reservation
import HdWallet.Proofs.Selection.Plan
import HdWallet.Proofs.Step

/-!
# What is withheld stays out of the ledger

An outpoint that a reservation holds, or whose spend is pending, must not be selected
again, so no operation may leave it in the ledger or put it back. `Separated` is this
invariant together with a well-formed table of reservations, and every operation on
holdings keeps it. What the same operations do to the keychain is only what growing a
chain and marking a slot used do.
-/

namespace HdWallet

def SpendRequest.reservation (request : SpendRequest) (selection : Selection) (slot : Slot)
    (now : Timestamp) (id : Nat) : Reservation where
  id
  coins := selection.coins
  change := ⟨slot.path.index, slot.address, slot.script⟩
  reservedAt := now
  target := request.target
  total := selection.total
  fee := selection.fee
  changeOutput := if selection.hasChange then some ⟨selection.change, slot.script⟩ else none
  strategy := selection.strategy

/-- Coins chosen from a ledger are in it, each once. -/
theorem Ledger.chosen_spec (ledger : Ledger) {selector : Selector} {payment : Payment}
    {selection : Selection} (chosen : selector.choose ledger.coins payment = .ok selection) :
    (selection.coins.map (·.outpoint)).Nodup ∧ ∀ coin ∈ selection.coins, coin ∈ ledger.coins := by
  have sublist := Selector.coins_sublist_of_choose chosen
  constructor
  · exact (((Coin.perm_ranked _).map _).nodup_iff.mpr ledger.nodup_outpoints).sublist
      (sublist.map _)
  · exact fun coin listed => Coin.mem_ranked.mp (sublist.mem listed)

namespace Holdings

/-- How planning can fail: with which failure each step of it stops, and what it leaves. Coins that
were taken out are put back. -/
inductive Unplanned (request : SpendRequest) (selector : Selector) (h : Holdings) :
    Failure → Holdings → Prop
  /-- No coins can be chosen. -/
  | unchosen {failure}
      (failed : selector.choose h.ledger.coins request.payment = .error failure) :
      Unplanned request selector h (.ofSelection failure) h
  /-- A coin that was chosen is withheld. -/
  | withheld {selection coin}
      (chosen : selector.choose h.ledger.coins request.payment = .ok selection)
      (reserved : h.alreadyReserved? selection.coins = some coin) :
      Unplanned request selector h (.inconsistent
        ("selectable output " ++ coin.outpoint.text ++ " is already reserved")) h
  /-- No change slot can be handed out. -/
  | unclaimed {e keychain}
      (failed : Keychain.nextUnused .change h.reservations.claimed h.keychain =
        .error e keychain) :
      Unplanned request selector h e { h with keychain }
  /-- A coin that was chosen is not in the ledger. -/
  | vanished {selection slot keychain ledger removed}
      (chosen : selector.choose h.ledger.coins request.payment = .ok selection)
      (claimed : Keychain.nextUnused .change h.reservations.claimed h.keychain =
        .ok slot keychain)
      (withdrawn : h.ledger.removeAll (selection.coins.map (·.outpoint)) = (ledger, removed))
      (missing : removed.length ≠ selection.coins.length) :
      Unplanned request selector h (.inconsistent "selected output vanished from the ledger")
        { h with keychain, ledger := (ledger.addAll removed).1 }

namespace Unplanned

variable {request : SpendRequest} {selector : Selector} {h t : Holdings} {e : Failure}

theorem reservations_eq (unplanned : Unplanned request selector h e t) :
    t.reservations = h.reservations := by
  cases unplanned <;> rfl

theorem keychain_eq (unplanned : Unplanned request selector h e t) :
    t.keychain = h.keychain ∨ t.keychain =
      (Keychain.nextUnused .change h.reservations.claimed).stateAfter h.keychain := by
  cases unplanned with
  | unchosen | withheld => exact .inl rfl
  | unclaimed failed => exact .inr (Step.stateAfter_of_error failed).symm
  | vanished _ claimed _ _ => exact .inr (Step.stateAfter_of_ok claimed).symm

theorem ledger_eq (unplanned : Unplanned request selector h e t) :
    t.ledger = h.ledger ∨ ∃ outpoints,
      t.ledger = ((h.ledger.removeAll outpoints).1.addAll (h.ledger.removeAll outpoints).2).1 := by
  cases unplanned with
  | unchosen | withheld | unclaimed => exact .inl rfl
  | @vanished selection _ _ _ _ _ _ withdrawn _ =>
      refine .inr ⟨selection.coins.map (·.outpoint), ?_⟩
      rw [withdrawn]

end Unplanned

/-- Planning withholds the coins of the plan and claims an unused change slot. -/
theorem reserve_spec (request : SpendRequest) (selector : Selector) (now : Timestamp)
    (h : Holdings) :
    (reserve request selector now).wp
      (fun r t => ∃ selection slot,
        selector.choose h.ledger.coins request.payment = .ok selection ∧
        h.alreadyReserved? selection.coins = none ∧
        Keychain.nextUnused .change h.reservations.claimed h.keychain = .ok slot t.keychain ∧
        t.ledger = (h.ledger.removeAll (selection.coins.map (·.outpoint))).1 ∧
        t.reservations =
          (h.reservations.register (request.reservation selection slot now)).1 ∧
        r = request.reservation selection slot now h.reservations.nextId)
      (Unplanned request selector h) h := by
  simp only [reserve, Step.wp_bind, Step.wp_get]
  cases chosen : selector.choose h.ledger.coins request.payment with
  | error failure =>
      simp only [Step.wp_bind, Step.wp_throw]
      exact .unchosen chosen
  | ok selection =>
      simp only [Step.wp_bind, Step.wp_pure]
      cases reserved : h.alreadyReserved? selection.coins with
      | some coin =>
          simp only [Step.wp_bind, Step.wp_throw]
          exact .withheld chosen reserved
      | none =>
          simp only [Step.wp_bind, onKeychain, Step.wp_onPart]
          rw [Step.wp_iff]
          constructor
          · intro slot keychain claimed
            split
            next missing =>
                simp only [Step.wp_bind, Step.wp_modify, Step.wp_throw]
                exact .vanished chosen claimed rfl missing
            next =>
                simp only [Step.wp_bind, Step.wp_modify, Step.wp_pure]
                exact ⟨selection, slot, rfl, reserved, claimed, rfl, rfl, rfl⟩
          · exact fun e keychain failed => .unclaimed failed

/-- The holdings after a reservation that was taken out of the table has ended: its coins are
pending, or they are back in the ledger. -/
def resolved (h : Holdings) (taken : ReservationTable) (r : Reservation) :
    Reservation.Outcome → Holdings
  | .completed => { h with reservations := taken.addPending r.coins }
  | .cancelled => { h with reservations := taken, ledger := (h.ledger.addAll r.coins).1 }

/-- Resolving a reservation takes it out of the table, and marks the change slot of a completed one
used if the plan has a change output. -/
theorem wp_release_iff {id : Nat} {outcome : Reservation.Outcome} {h : Holdings}
    {Q : Reservation → Holdings → Prop} {E : Failure → Holdings → Prop} :
    (release id outcome).wp Q E h ↔
      match h.reservations.take id with
      | none => E (.unknownReservation id) h
      | some (taken, r) =>
        if outcome = .completed ∧ r.hasChange then
          (onKeychain (Keychain.markIndexUsed .change r.change.index.toNat)).wp (fun _ => Q r) E
            (h.resolved taken r outcome)
        else Q r (h.resolved taken r outcome) := by
  simp only [release, Step.wp_bind, Step.wp_get]
  cases h.reservations.take id with
  | none => exact Iff.rfl
  | some ended =>
      obtain ⟨taken, r⟩ := ended
      cases outcome with
      | completed =>
          by_cases hasChange : r.hasChange
          · simp only [hasChange, if_true, and_self, Step.wp_bind, Step.wp_modify,
              Step.wp_discard, Step.wp_pure, resolved]
          · simp only [hasChange, Bool.false_eq_true, if_false, and_false, Step.wp_bind,
              Step.wp_modify, Step.wp_pure, resolved]
      | cancelled =>
          simp only [reduceCtorEq, false_and, if_false, Step.wp_bind, Step.wp_modify,
            Step.wp_pure, resolved]

-- Several steps end with marking addresses used. For a property on which the addresses have no
-- bearing it is enough to look at what such a step does to the ledger and the reservations.
section Coins

variable {P : Holdings → Prop}
  (frame : ∀ {h : Holdings} (keychain : Keychain), P h → P { h with keychain })
include frame

theorem keeps_onKeychain_of_frame {α : Type} (step : Step Keychain α) : (onKeychain step).Keeps P :=
  Step.keeps_onPart_of_frame step fun _ keychain hp => frame keychain hp

theorem keeps_markAllUsed_of_frame (addresses : List Address) :
    (markAllUsed addresses).Keeps P := by
  induction addresses with
  | nil => exact Step.keeps_pure _
  | cons address rest ih => exact (keeps_onKeychain_of_frame frame _).discard.bind fun _ => ih

theorem wp_release_of_frame {id : Nat} {outcome : Reservation.Outcome} {h : Holdings}
    (unknown : h.reservations.take id = none → P h)
    (resolve : ∀ {taken r}, h.reservations.take id = some (taken, r) →
      P (h.resolved taken r outcome)) :
    (release id outcome).wp (fun _ => P) (fun _ => P) h := by
  rw [wp_release_iff]
  split
  next missing => exact unknown missing
  next taken r ht =>
      split
      next => exact keeps_onKeychain_of_frame frame _ _ (resolve ht)
      next => exact resolve ht

theorem wp_resync_of_frame {address : Address} {reported : List Coin} {h : Holdings} (hp : P h)
    (synced : ∀ {slot} (gone : List OutPoint), h.keychain.find? address = some slot →
      let own := reported.filter (·.script == slot.script)
      let reservations :=
        h.reservations.settle (· == slot.script) (.ofList (own.map (·.outpoint)))
      let kept := own.filter fun coin => !reservations.isWithheld coin.outpoint
      P { h with reservations, ledger := ((h.ledger.removeAll gone).1.addAll kept).1 }) :
    (resync address reported).wp (fun _ => P) (fun _ => P) h := by
  simp only [resync, Step.wp_bind, Step.wp_get]
  split
  next => exact hp
  next slot found =>
      rw [Step.wp_bind, Step.wp_modify]
      split
      next =>
          exact (keeps_onKeychain_of_frame frame _).discard.bind (fun _ => Step.keeps_pure _) _
            (synced _ found)
      next => exact synced _ found

theorem wp_replaceAll_of_frame {reports : List (Address × List Coin)} {h : Holdings}
    (replaced :
      let own : List (Address × List Coin) := reports.filterMap fun (address, coins) =>
        (h.keychain.find? address).map fun slot =>
          (address, coins.filter (·.script == slot.script))
      let reservations := h.reservations.settle (fun _ => true)
        (.ofList (own.flatMap (·.2.map (·.outpoint))))
      let kept : List (Address × List Coin) := own.map fun (address, coins) =>
        (address, coins.filter fun coin : Coin => !reservations.isWithheld coin.outpoint)
      P { h with reservations, ledger := .ofCoins (kept.flatMap (·.2)) }) :
    (replaceAll reports).wp (fun _ => P) (fun _ => P) h := by
  simp only [replaceAll, Step.wp_bind, Step.wp_get, Step.wp_modify, Step.wp_pure]
  exact keeps_markAllUsed_of_frame frame _ _ replaced

theorem keeps_apply_of_frame (s : Snapshot)
    (replaced : ∀ {h : Holdings}, P h → P { h with
      ledger := .ofCoins (s.coins.filter fun coin => !h.reservations.isWithheld coin.outpoint) }) :
    s.apply.Keeps P :=
  (Step.keeps_ofExcept _).bind fun _ => Step.keeps_get.bind fun _ =>
    (Step.keeps_ofExcept _).bind fun _ => (Step.keeps_ofExcept _).bind fun _ =>
    (keeps_onKeychain_of_frame frame _).bind fun _ =>
    (keeps_onKeychain_of_frame frame _).bind fun _ => Step.keeps_modify fun _ hp => replaced hp

end Coins

/-- The table of reservations is well formed, and nothing that it withholds is in the
ledger. -/
structure Separated (h : Holdings) : Prop where
  table : h.reservations.WellFormed
  free : ∀ {o}, h.ledger.contains o → ¬h.reservations.isWithheld o

namespace Separated

variable {h : Holdings}

theorem empty (keychain : Keychain) (lifetime : UInt64) :
    Separated { keychain, ledger := .empty, reservations := { lifetime } } := by
  refine ⟨ReservationTable.wellFormed_empty lifetime, ?_⟩
  intro o ho
  rw [Ledger.contains_eq_isSome_find?, Ledger.find?_empty] at ho
  cases ho

/-- A ledger that holds nothing withheld may replace the present one. -/
theorem withLedger (hs : h.Separated) {ledger : Ledger}
    (free : ∀ {o}, ledger.contains o → ¬h.reservations.isWithheld o) :
    Separated { h with ledger } :=
  ⟨hs.table, free⟩

theorem addCoin (hs : h.Separated) (coin : Coin) : (h.addCoin coin).1.Separated := by
  rw [Holdings.addCoin]
  split
  next => exact hs
  next unwithheld =>
      apply hs.withLedger
      intro o ho
      rcases h.ledger.contains_add.mp ho with ho | rfl
      · exact hs.free ho
      · exact unwithheld

theorem remove (hs : h.Separated) (outpoint : OutPoint) :
    Separated { h with ledger := (h.ledger.remove outpoint).1 } :=
  hs.withLedger fun ho => hs.free (h.ledger.contains_remove.mp ho).1

theorem receive (hs : h.Separated) (tx : Transaction) : (h.receive tx).1.Separated := by
  apply hs.withLedger
  intro o ho
  rcases h.ledger.contains_receive.mp ho with ho | ⟨coin, -, accepted, rfl⟩
  · exact hs.free ho
  · rw [Bool.and_eq_true, Bool.not_eq_true'] at accepted
    rw [accepted.2]
    exact Bool.false_ne_true

theorem markSpent (hs : h.Separated) (outpoints : List OutPoint) :
    Separated { h with
      reservations := outpoints.foldl (fun table o => (table.markSpent o).1) h.reservations } := by
  induction outpoints generalizing h with
  | nil => exact hs
  | cons o rest ih =>
      have step : Separated { h with reservations := (h.reservations.markSpent o).1 } :=
        ⟨hs.table.markSpent o, fun ho hwithheld =>
          hs.free ho ((ReservationTable.isWithheld_markSpent.mp hwithheld).1)⟩
      exact ih step

theorem spend (hs : h.Separated) (tx : Transaction) : (h.spend tx).1.Separated :=
  (hs.markSpent tx.inputs).withLedger fun ho =>
    (hs.markSpent tx.inputs).free (h.ledger.contains_spend.mp ho).1

/-- When pending spends are settled, the ledger may lose coins and may gain those that
are not withheld from then on. -/
theorem settle (hs : h.Separated) (queried : Script → Bool) (reported : Std.ExtTreeSet OutPoint)
    {ledger : Ledger} (known : ∀ {o}, ledger.contains o →
      h.ledger.contains o ∨ ¬(h.reservations.settle queried reported).isWithheld o) :
    Separated { h with reservations := h.reservations.settle queried reported, ledger } := by
  refine ⟨hs.table.settle queried reported, ?_⟩
  intro o ho hwithheld
  rcases known ho with ho | unwithheld
  · refine hs.free ho ?_
    rw [ReservationTable.isWithheld_iff] at hwithheld ⊢
    exact hwithheld.imp_right h.reservations.isPending_of_settle
  · exact unwithheld hwithheld

/-- Selectable coins move from the ledger to a new reservation. -/
theorem register (hs : h.Separated) {t : Holdings} {reservation : Nat → Reservation}
    (htable : t.reservations = (h.reservations.register reservation).1)
    (hledger : t.ledger =
      (h.ledger.removeAll (reservation h.reservations.nextId).outpoints).1)
    (own_id : (reservation h.reservations.nextId).id = h.reservations.nextId)
    (nodup : (reservation h.reservations.nextId).outpoints.Nodup)
    (selectable : ∀ o ∈ (reservation h.reservations.nextId).outpoints, h.ledger.contains o)
    (unclaimed : (reservation h.reservations.nextId).change.index.toNat ∉
      h.reservations.claimed) : t.Separated := by
  have registered : t.reservations.WellFormed := by
    rw [htable]
    exact hs.table.register own_id nodup (fun o ho => hs.free (selectable o ho)) unclaimed
  refine ⟨registered, ?_⟩
  intro o ho
  rw [hledger, Ledger.contains_removeAll] at ho
  have before := hs.free ho.1
  rw [ReservationTable.isWithheld_iff, ReservationTable.isReserved_iff] at before ⊢
  rw [htable, ReservationTable.holders_register]
  rintro (⟨id, held⟩ | hpending)
  · split at held
    next listed => exact ho.2 listed
    next => exact before (.inl ⟨id, held⟩)
  · exact before (.inr hpending)

/-- The coins of a cancelled reservation go back to the ledger. -/
theorem cancel (hs : h.Separated) {id : Nat} {taken : ReservationTable} {r : Reservation}
    (ht : h.reservations.take id = some (taken, r)) :
    Separated { h with reservations := taken, ledger := (h.ledger.addAll r.coins).1 } := by
  refine ⟨hs.table.take ht, ?_⟩
  intro o ho
  obtain ho | ⟨coin, hcoin, rfl⟩ := h.ledger.contains_addAll.mp ho
  · intro hwithheld
    exact hs.free ho (ReservationTable.isWithheld_of_take ht hwithheld)
  · exact hs.table.not_isWithheld_of_take ht (Reservation.mem_outpoints.mpr ⟨coin, hcoin, rfl⟩)

/-- The coins of a completed reservation stay out of the ledger until they are seen spent. -/
theorem complete (hs : h.Separated) {id : Nat} {taken : ReservationTable} {r : Reservation}
    (ht : h.reservations.take id = some (taken, r)) :
    Separated { h with reservations := taken.addPending r.coins } := by
  obtain ⟨hr, -⟩ := h.reservations.take_spec ht
  constructor
  · apply (hs.table.take ht).addPending
    intro coin hcoin hreserved
    have listed := Reservation.mem_outpoints.mpr ⟨coin, hcoin, rfl⟩
    exact hs.table.not_isWithheld_of_take ht listed (taken.isWithheld_iff.mpr (.inl hreserved))
  · intro o ho hwithheld
    have before := hs.free ho
    obtain hreserved | hpending := (ReservationTable.isWithheld_iff _).mp hwithheld
    · have : taken.isWithheld o := taken.isWithheld_iff.mpr (.inl hreserved)
      exact before (ReservationTable.isWithheld_of_take ht this)
    · obtain hpending | ⟨coin, hcoin, rfl⟩ := taken.isPending_addPending.mp hpending
      · have : taken.isWithheld o := taken.isWithheld_iff.mpr (.inr hpending)
        exact before (ReservationTable.isWithheld_of_take ht this)
      · have listed := Reservation.mem_outpoints.mpr ⟨coin, hcoin, rfl⟩
        have held := hs.table.isReserved_iff.mpr ⟨id, r, hr, listed⟩
        exact before (h.reservations.isWithheld_iff.mpr (.inl held))

end Separated

theorem Separated.setKeychain {h : Holdings} (keychain : Keychain) (hs : h.Separated) :
    Separated { h with keychain } :=
  ⟨hs.table, hs.free⟩

theorem keeps_reserve (request : SpendRequest) (selector : Selector) (now : Timestamp) :
    (reserve request selector now).Keeps Separated := by
  intro h hs
  apply (reserve_spec request selector now h).mono
  · rintro r t ⟨selection, slot, chosen, unreserved, hslot, hledger, htable, -⟩
    have unclaimed : slot.index ∉ h.reservations.claimed :=
      ((Keychain.nextUnused_spec _ _ _).of_ok hslot).2.2
    obtain ⟨nodup, present⟩ := h.ledger.chosen_spec chosen
    apply hs.register htable hledger rfl nodup _ unclaimed
    intro o ho
    obtain ⟨coin, hcoin, rfl⟩ := List.mem_map.mp ho
    exact h.ledger.contains_of_mem_coins (present coin hcoin)
  · intro e t unplanned
    refine ⟨unplanned.reservations_eq ▸ hs.table, ?_⟩
    intro o ho
    rw [unplanned.reservations_eq]
    obtain hledger | ⟨outpoints, hledger⟩ := unplanned.ledger_eq
    · exact hs.free (hledger ▸ ho)
    · exact hs.free (h.ledger.contains_of_restored (hledger ▸ ho))

theorem keeps_release (id : Nat) (outcome : Reservation.Outcome) :
    (release id outcome).Keeps Separated := by
  intro h hs
  apply wp_release_of_frame Separated.setKeychain fun _ => hs
  intro taken r ht
  cases outcome with
  | completed => exact hs.complete ht
  | cancelled => exact hs.cancel ht

theorem keeps_resync (address : Address) (reported : List Coin) :
    (resync address reported).Keeps Separated := by
  intro h hs
  apply wp_resync_of_frame Separated.setKeychain hs
  intro slot gone _
  apply hs.settle
  intro o ho
  rcases (Ledger.contains_addAll _).mp ho with ho | ⟨coin, hcoin, rfl⟩
  · exact .inl (h.ledger.contains_removeAll.mp ho).1
  · right
    simpa using (List.mem_filter.mp hcoin).2

theorem keeps_replaceAll (reports : List (Address × List Coin)) :
    (replaceAll reports).Keeps Separated := by
  intro h hs
  apply wp_replaceAll_of_frame Separated.setKeychain
  apply hs.settle
  intro o ho
  obtain ⟨coin, hcoin, rfl⟩ := Ledger.contains_ofCoins.mp ho
  right
  simp only [List.mem_flatMap, List.mem_map] at hcoin
  obtain ⟨_, ⟨_, _, rfl⟩, hcoin⟩ := hcoin
  simpa using (List.mem_filter.mp hcoin).2

end Holdings

theorem Holdings.keeps_keychain {α : Type} {K E : Keychain → Prop} {step : Step Keychain α}
    (h : step.Keeps K E) :
    (Holdings.onKeychain step).Keeps (fun holdings => K holdings.keychain)
      fun holdings => E holdings.keychain :=
  Step.keeps_onPart fun holdings hk => h holdings.keychain hk

namespace Keychain.Carried

variable {K E : Keychain → Prop} (carried : Carried K E)
include carried

theorem keeps_reserve (request : SpendRequest) (selector : Selector) (now : Timestamp) :
    (Holdings.reserve request selector now).Keeps (fun holdings => K holdings.keychain)
      fun holdings => E holdings.keychain := by
  intro h hk
  have claimed := carried.nextUnused .change h.reservations.claimed h.keychain hk
  refine (Holdings.reserve_spec request selector now h).mono ?_ ?_
  · rintro r t ⟨selection, slot, -, -, hslot, -⟩
    exact claimed.of_ok hslot
  · intro e t unplanned
    obtain hkeys | hkeys := unplanned.keychain_eq
    · exact hkeys ▸ carried.weaken _ hk
    · exact hkeys ▸ Step.stateAfter_of_wp
        (claimed.mono (fun _ t ht => carried.weaken t ht) fun _ _ ht => ht)

theorem keeps_release (id : Nat) (outcome : Reservation.Outcome) :
    (Holdings.release id outcome).Keeps (fun holdings => K holdings.keychain)
      fun holdings => E holdings.keychain := by
  intro h hk
  rw [Holdings.wp_release_iff]
  split
  next => exact carried.weaken _ hk
  next taken r _ =>
      have resolved : K (h.resolved taken r outcome).keychain := by
        cases outcome <;> exact hk
      split
      next => exact Holdings.keeps_keychain (carried.markIndexUsed _ _) _ resolved
      next => exact resolved

theorem keeps_resync (address : Address) (reported : List Coin) :
    (Holdings.resync address reported).Keeps (fun holdings => K holdings.keychain)
      fun holdings => E holdings.keychain := by
  intro h hk
  simp only [Holdings.resync, Step.wp_bind, Step.wp_get]
  split
  next => exact hk
  next =>
      have marks := Holdings.keeps_keychain (carried.keeps_markUsed address)
      rw [Step.wp_bind, Step.wp_modify]
      split
      next => exact marks.discard.bind (fun _ => Step.keeps_pure _) _ hk
      next => exact hk

theorem keeps_replaceAll (reports : List (Address × List Coin)) :
    (Holdings.replaceAll reports).Keeps (fun holdings => K holdings.keychain)
      fun holdings => E holdings.keychain := by
  have marks (addresses : List Address) :
      (Holdings.markAllUsed addresses).Keeps (fun holdings => K holdings.keychain)
        fun holdings => E holdings.keychain := by
    induction addresses with
    | nil => exact Step.keeps_pure _
    | cons address rest ih =>
        exact (Holdings.keeps_keychain (carried.keeps_markUsed address)).discard.bind
          fun _ => ih
  intro h hk
  simp only [Holdings.replaceAll, Step.wp_bind, Step.wp_get, Step.wp_modify]
  exact marks _ _ hk

end Keychain.Carried

theorem Snapshot.keeps_apply (s : Snapshot) : s.apply.Keeps Holdings.Separated := by
  apply Holdings.keeps_apply_of_frame Holdings.Separated.setKeychain
  intro h hs
  apply hs.withLedger
  intro o ho
  obtain ⟨coin, hcoin, rfl⟩ := Ledger.contains_ofCoins.mp ho
  simpa using (List.mem_filter.mp hcoin).2

end HdWallet
