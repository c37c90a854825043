import HdWallet.KeySource.Scripted
import HdWallet.Proofs.Account.Coherence

/-!
# A completed payment is not taken back

Between the broadcast of a payment and its confirmation a balance source still reports the
coins that were spent. They are pending: no operation puts them back into the ledger or
into a reservation, and an old snapshot that lists them does not either. Only two things
end this: a transaction is seen that spends the coin, or the source is asked about the
coin's script and no longer reports it.
-/

namespace HdWallet

namespace Holdings

/-- The coin at `o`, which `script` locked, is pending. -/
def Pending (o : OutPoint) (script : Script) (h : Holdings) : Prop :=
  h.reservations.pending[o]? = some script

/-- The coin at `o` is pending and therefore in no other place. -/
structure Spent (o : OutPoint) (script : Script) (h : Holdings) : Prop where
  separated : h.Separated
  pending : h.Pending o script

variable {o : OutPoint} {script : Script} {h : Holdings}

theorem Pending.isPending (hp : h.Pending o script) : h.reservations.isPending o := by
  rw [ReservationTable.isPending, Std.ExtTreeMap.contains_eq_isSome_getElem?, hp]
  rfl

namespace Spent

theorem not_contains (hs : h.Spent o script) : ¬h.ledger.contains o := fun ho =>
  hs.separated.free ho ((ReservationTable.isWithheld_iff _).mpr (.inr hs.pending.isPending))

theorem not_held (hs : h.Spent o script) {id : Nat} {r : Reservation}
    (hr : h.reservations.find? id = some r) : o ∉ r.outpoints := fun listed =>
  hs.separated.table.pending_free
    (hs.separated.table.isReserved_iff.mpr ⟨id, r, hr, listed⟩) hs.pending.isPending

/-- A step that keeps ledger and reservations apart keeps the coin spent if it keeps it
pending. -/
theorem of_keeps {α : Type} {step : Step Holdings α} (hs : h.Spent o script)
    (separated : step.Keeps Separated)
    (pending : step.wp (fun _ => Pending o script) (fun _ => Pending o script) h) :
    step.wp (fun _ => Spent o script) (fun _ => Spent o script) h :=
  ((separated h hs.separated).and pending).mono (fun _ _ ht => ⟨ht.1, ht.2⟩)
    fun _ _ ht => ⟨ht.1, ht.2⟩

theorem setKeychain {h : Holdings} (keychain : Keychain) (hs : h.Spent o script) :
    Spent o script { h with keychain } :=
  ⟨hs.separated.setKeychain keychain, hs.pending⟩

theorem addCoin (hs : h.Spent o script) (coin : Coin) : (h.addCoin coin).1.Spent o script := by
  refine ⟨hs.separated.addCoin coin, ?_⟩
  rw [Holdings.addCoin]
  split
  next => exact hs.pending
  next => exact hs.pending

end Spent

theorem Pending.setKeychain {h : Holdings} (keychain : Keychain) (hp : h.Pending o script) :
    Pending o script { h with keychain } :=
  hp

theorem spent_reserve (request : SpendRequest) (selector : Selector) (now : Timestamp) :
    (reserve request selector now).Keeps (Spent o script) := by
  intro h hs
  apply hs.of_keeps (keeps_reserve request selector now)
  apply (reserve_spec request selector now h).mono
  · rintro r t ⟨selection, slot, -, -, -, -, htable, -⟩
    rw [Pending, htable]
    exact hs.pending
  · intro e t unplanned
    rw [Pending, unplanned.reservations_eq]
    exact hs.pending

/-- Completing a reservation leaves each of its coins spent, even if the change address
cannot be marked used. -/
theorem spent_complete (hs : h.Separated) {id : Nat} {r : Reservation} {coin : Coin}
    (held : h.reservations.find? id = some r) (listed : coin ∈ r.coins) :
    (release id .completed).wp (fun _ => Spent coin.outpoint coin.script)
      (fun _ => Spent coin.outpoint coin.script) h := by
  apply wp_release_of_frame Spent.setKeychain
  · intro missing
    rw [ReservationTable.take, held] at missing
    cases missing
  · intro taken other ht
    obtain ⟨found, -⟩ := h.reservations.take_spec ht
    rw [held] at found
    cases found
    exact ⟨hs.complete ht, taken.pending_addPending_of_mem listed (hs.table.nodup held)⟩

theorem spent_release (id : Nat) (outcome : Reservation.Outcome) :
    (release id outcome).Keeps (Spent o script) := by
  intro h hs
  apply wp_release_of_frame Spent.setKeychain fun _ => hs
  intro taken r ht
  obtain ⟨hr, -, -, hpending, -⟩ := h.reservations.take_spec ht
  have still : taken.pending[o]? = some script := hpending ▸ hs.pending
  cases outcome with
  | completed =>
      -- The coins that become pending are others, since no reservation lists this one.
      refine ⟨hs.separated.complete ht, ?_⟩
      apply (taken.pending_addPending_of_ne _).trans still
      rintro coin hcoin rfl
      exact hs.not_held hr (Reservation.mem_outpoints.mpr ⟨coin, hcoin, rfl⟩)
  | cancelled => exact ⟨hs.separated.cancel ht, still⟩

theorem spent_apply (snapshot : Snapshot) : snapshot.apply.Keeps (Spent o script) := by
  intro h hs
  apply hs.of_keeps snapshot.keeps_apply
  exact keeps_apply_of_frame (P := Pending o script) Pending.setKeychain snapshot id h hs.pending

theorem Spent.spend (hs : h.Spent o script) {tx : Transaction} (other : o ∉ tx.inputs) :
    (h.spend tx).1.Spent o script := by
  refine ⟨hs.separated.spend tx, ?_⟩
  exact (h.reservations.pending_foldl_markSpent other).trans hs.pending

def reports (coins : List Coin) (o : OutPoint) (script : Script) : Bool :=
  coins.any fun coin => coin.outpoint = o ∧ coin.script = script

theorem Spent.resync (hs : h.Spent o script) {address : Address} {coins : List Coin}
    (seen : h.keychain.scriptOf? address = some script → reports coins o script) :
    (Holdings.resync address coins).wp (fun _ => Spent o script) (fun _ => Spent o script) h := by
  apply hs.of_keeps (keeps_resync address coins)
  apply wp_resync_of_frame (P := Pending o script) Pending.setKeychain hs.pending
  intro slot gone found
  refine h.reservations.pending_settle_iff.mpr ⟨hs.pending, fun asked => ?_⟩
  have own : script = slot.script := eq_of_beq asked
  have reported := seen (by rw [Keychain.scriptOf?, found, own]; rfl)
  simp only [reports, List.any_eq_true, decide_eq_true_iff] at reported
  obtain ⟨coin, hcoin, rfl, rfl⟩ := reported
  rw [Std.ExtTreeSet.contains_ofList, List.contains_iff_mem, List.mem_map]
  exact ⟨coin, List.mem_filter.mpr ⟨hcoin, by rw [own, beq_self_eq_true]⟩, rfl⟩

theorem Spent.replaceAll (hs : h.Spent o script) {answers : List (Address × List Coin)}
    (seen : ∃ answer ∈ answers,
      h.keychain.scriptOf? answer.1 = some script ∧ reports answer.2 o script) :
    (Holdings.replaceAll answers).wp (fun _ => Spent o script) (fun _ => Spent o script) h := by
  apply hs.of_keeps (keeps_replaceAll answers)
  apply wp_replaceAll_of_frame (P := Pending o script) Pending.setKeychain
  refine h.reservations.pending_settle_iff.mpr ⟨hs.pending, fun _ => ?_⟩
  obtain ⟨⟨address, coins⟩, asked, own, reported⟩ := seen
  obtain ⟨slot, found, rfl⟩ := Option.map_eq_some_iff.mp own
  simp only [reports, List.any_eq_true, decide_eq_true_iff] at reported
  obtain ⟨coin, hcoin, rfl, same⟩ := reported
  rw [Std.ExtTreeSet.contains_ofList, List.contains_iff_mem, List.mem_flatMap]
  refine ⟨(address, coins.filter (·.script == slot.script)), ?_, ?_⟩
  · exact List.mem_filterMap.mpr ⟨_, asked, by simp only [found, Option.map_some]⟩
  · exact List.mem_map.mpr ⟨coin, List.mem_filter.mpr ⟨hcoin, by rw [same, beq_self_eq_true]⟩, rfl⟩

theorem coinInvariant_spent (o : OutPoint) (script : Script) :
    Account.CoinInvariant (Spent o script) where
  setKeychain := Spent.setKeychain
  addCoin coin hs := hs.addCoin coin
  removeCoin outpoint hs := ⟨hs.separated.remove outpoint, hs.pending⟩
  receive tx hs := ⟨hs.separated.receive tx, hs.pending⟩
  reserve := spent_reserve
  release := spent_release
  applySnapshot := spent_apply

end Holdings

namespace Account

open Holdings (reports)

def Spent (o : OutPoint) (script : Script) (a : Account) : Prop := a.holdings.Spent o script

variable {o : OutPoint} {script : Script} {a : Account}

theorem scriptOf?_noteEventBalance (a : Account) (address other : Address) (ticket : Nat)
    (balance : Reply Amount) (now : Timestamp) :
    (noteEventBalance address ticket balance now a).1.keychain.scriptOf? other =
      a.keychain.scriptOf? other := by
  cases balance with
  | ok balance =>
      rw [noteEventBalance, recordBalance]
      split
      next => rfl
      next => exact Keychain.scriptOf?_modifyCache _ _ _ _
  | error failure =>
      rw [noteEventBalance, noteFailure]
      split <;> rfl

/-- Whether an action ends the wait for the spend of the coin at `o` that `script` locked: a
transaction spends it, or an answer of the source is taken in that does not report it with
its script at an address of that script. -/
def Action.settles (o : OutPoint) (script : Script) (a : Account) : Action → Bool
  | .spend tx => tx.inputs.contains o
  | .closeResync resync _ => resync.failures.isEmpty &&
    !resync.reports.any fun (address, coins) =>
      a.keychain.scriptOf? address = some script ∧ reports coins o script
  | .closeEvent address _ _ (.ok coins) _ =>
    a.keychain.scriptOf? address = some script ∧ !reports coins o script
  | .absorbDrainUnspent drain address (.ok coins) => drain.waiting.contains address &&
    (a.keychain.scriptOf? address = some script ∧ !reports coins o script)
  | _ => false

/-- No action settles the spend of the coin at `o` in the state that it finds. -/
def unsettled (o : OutPoint) (script : Script) (a : Account) (actions : List Action) : Bool :=
  a.throughout (fun a action => !action.settles o script a) actions

/-- An action that does not settle the spend keeps the coin spent. -/
theorem Spent.perform (ha : a.Spent o script) {action : Action}
    (unsettled : action.settles o script a = false) : (action.perform a).Spent o script := by
  have inv := (Holdings.coinInvariant_spent o script).balanceInvariant
  apply Step.stateAfter_of_wp (P := Spent o script)
  apply inv.wp_step ha
  cases action with
  | spend tx =>
      apply Holdings.Spent.spend ha
      intro listed
      rw [Action.settles, List.contains_iff_mem.mpr listed] at unsettled
      cases unsettled
  | closeResync resync now =>
      intro answered
      rw [onHoldings, Step.wp_onPart]
      apply Holdings.Spent.replaceAll ha
      change ∃ answer ∈ resync.reports,
        a.keychain.scriptOf? answer.1 = some script ∧ reports answer.2 o script
      simpa [Action.settles, answered] using unsettled
  | closeEvent address ticket balance unspent now =>
      rintro coins rfl noted
      rw [onHoldings, Step.wp_onPart]
      apply noted.resync
      intro own
      change (noteEventBalance address ticket balance now a).1.keychain.scriptOf? address = _ at own
      rw [scriptOf?_noteEventBalance] at own
      simpa [Action.settles, own] using unsettled
  | absorbDrainUnspent drain address reply =>
      rintro coins rfl waiting
      rw [onHoldings, Step.wp_onPart]
      apply Holdings.Spent.resync ha
      intro own
      change a.keychain.scriptOf? address = _ at own
      simpa [Action.settles, waiting, own] using unsettled
  | _ => trivial

theorem Separated.spent_complete (ha : a.Separated) {id : Nat} {r : Reservation} {coin : Coin}
    (held : a.reservations.find? id = some r) (listed : coin ∈ r.coins) :
    ((Action.release id .completed).perform a).Spent coin.outpoint coin.script := by
  apply Step.stateAfter_of_wp (P := Spent coin.outpoint coin.script)
  rw [Action.step, Step.wp_discard, release, onHoldings, Step.wp_onPart]
  exact Holdings.spent_complete ha held listed

/-- A coin of a completed reservation is neither in the ledger nor in a reservation until its
spend is settled, whatever else is done. -/
theorem completed_stays_out {config : Config} {source : KeySource} {a : Account}
    (opened : ofConfig config source = .ok a) (before after : List Action) {id : Nat}
    {r : Reservation} {coin : Coin} (held : (a.run before).reservations.find? id = some r)
    (listed : coin ∈ r.coins)
    (unsettled : ((Action.release id .completed).perform (a.run before)).unsettled coin.outpoint
      coin.script after) :
    let later := a.run (before ++ .release id .completed :: after)
    ¬later.ledger.contains coin.outpoint ∧
      ∀ j s, later.reservations.find? j = some s → coin.outpoint ∉ s.outpoints := by
  have separated := invariant_separated.run (separated_of_ofConfig opened) before
  have spent : (a.run (before ++ .release id .completed :: after)).Spent coin.outpoint
      coin.script := by
    rw [run_append]
    refine run_of_throughout ?_ (separated.spent_complete held listed) unsettled
    intro b action hb quiet
    exact hb.perform (by simpa using quiet)
  exact ⟨Holdings.Spent.not_contains spent, fun j s hs => Holdings.Spent.not_held spent hs⟩

/-- A coin that was put in again, restored and reported as unspent stays out. -/
theorem stays_out_after_restore :
    let config : Config := { receivingGapLimit := 1, changeGapLimit := 1 }
    let address : Address := ⟨"receiving-0"⟩
    let coin : Coin := ⟨default, ⟨100000, .payToKeyHash (List.replicate 20 0)⟩⟩
    let saved : Snapshot := { version := 1, receiving := [], change := [], coins := [coin] }
    let before : List Action := [.addCoin coin, .reserve (.ofTarget 5000 ⟨1000⟩) 0]
    let after : List Action :=
      [.addCoin coin, .applySnapshot saved, .closeResync { reports := [(address, [coin])] } 9]
    ∃ a r, ofConfig config (.numbered ∅ true) = .ok a ∧
      (a.run before).reservations.find? 1 = some r ∧ coin ∈ r.coins ∧
      ((Action.release 1 .completed).perform (a.run before)).unsettled coin.outpoint
        coin.script after ∧
      ¬(a.run (before ++ .release 1 .completed :: after)).ledger.contains coin.outpoint := by
  intro config address coin saved before after
  have answer : (ofConfig config (.numbered ∅ true)).toOption.any fun a =>
      ((a.run before).reservations.find? 1).any fun r => coin ∈ r.coins ∧
        ((Action.release 1 .completed).perform (a.run before)).unsettled coin.outpoint
          coin.script after := by
    decide +kernel
  obtain ⟨a, opened, reserved⟩ := Step.exists_ok_of_any answer
  obtain ⟨r, held, facts⟩ := (Option.any_eq_true _ _).mp reserved
  obtain ⟨listed, unsettled⟩ := of_decide_eq_true facts
  have out := completed_stays_out opened before after held listed unsettled
  exact ⟨a, r, opened, held, listed, unsettled, out.1⟩

end Account

end HdWallet
