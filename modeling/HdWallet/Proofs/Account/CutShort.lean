import HdWallet.Proofs.Account.Answers
import HdWallet.Proofs.Account.Receiving

/-!
# Coins taken in where marking stops

Taking in a transaction and replacing the ledger both change the coins first and mark the addresses
with coins used afterwards. A marking fails where the source derives no further slot or repeats an
address. Nothing is taken back then: the coins have been changed, the addresses up to that one are
marked, and the others with coins are not. A transaction that is taken in again adds no mark.

Only where a query has failed does replacing the ledger leave everything as it was.
-/

namespace HdWallet

namespace Holdings

variable {h : Holdings} {reports : List (Address × List Coin)}

/-- A coin was reported about an address that its own script locks and that nothing withholds. -/
def Funded (h : Holdings) (reports : List (Address × List Coin)) (address : Address) : Prop :=
  ∃ coins, (address, coins) ∈ reports ∧ ∃ coin ∈ coins,
    h.keychain.scriptOf? address = some coin.script ∧ ¬h.reservations.isWithheld coin.outpoint

/-- The addresses that are marked when the ledger is replaced. -/
theorem funded_iff (address : Address) :
    let own : List (Address × List Coin) := reports.filterMap fun (address, coins) =>
      (h.keychain.find? address).map fun slot => (address, coins.filter (·.script == slot.script))
    let reservations := h.reservations.settle (fun _ => true)
      (.ofList (own.flatMap (·.2.map (·.outpoint))))
    let kept : List (Address × List Coin) := own.map fun (address, coins) =>
      (address, coins.filter fun coin : Coin => !reservations.isWithheld coin.outpoint)
    address ∈ (kept.filter (!·.2.isEmpty)).map (·.1) ↔ h.Funded reports address := by
  intro own reservations kept
  have mem_own {address : Address} {coins : List Coin} : (address, coins) ∈ own ↔
      ∃ told, (address, told) ∈ reports ∧ ∃ slot, h.keychain.find? address = some slot ∧
        coins = told.filter (·.script == slot.script) := by
    simp only [own, List.mem_filterMap, Option.map_eq_some_iff, Prod.mk.injEq, Prod.exists]
    constructor
    · rintro ⟨_, told, listed, slot, found, rfl, rfl⟩
      exact ⟨told, listed, slot, found, rfl⟩
    · rintro ⟨told, listed, slot, found, rfl⟩
      exact ⟨_, told, listed, slot, found, rfl, rfl⟩
  have settled {coins : List Coin} (listed : (address, coins) ∈ own) {coin : Coin}
      (present : coin ∈ coins) :
      reservations.isWithheld coin.outpoint = h.reservations.isWithheld coin.outpoint := by
    apply h.reservations.isWithheld_settle
    rw [Std.ExtTreeSet.contains_ofList, List.contains_iff_mem, List.mem_flatMap]
    exact ⟨_, listed, List.mem_map_of_mem present⟩
  have left : address ∈ (kept.filter (!·.2.isEmpty)).map (·.1) ↔
      ∃ coins, (address, coins) ∈ own ∧
        ∃ coin ∈ coins, ¬reservations.isWithheld coin.outpoint := by
    simp [kept]
  rw [left]
  constructor
  · rintro ⟨_, listed, coin, present, free⟩
    rw [settled listed present] at free
    obtain ⟨told, reported, slot, found, rfl⟩ := mem_own.mp listed
    obtain ⟨present, locked⟩ := List.mem_filter.mp present
    refine ⟨told, reported, coin, present, ?_, free⟩
    rw [Keychain.scriptOf?, found, Option.map_some, eq_of_beq locked]
  · rintro ⟨told, reported, coin, present, owner, free⟩
    obtain ⟨slot, found, same⟩ := Option.map_eq_some_iff.mp owner
    have listed := mem_own.mpr ⟨told, reported, slot, found, rfl⟩
    have present : coin ∈ told.filter (·.script == slot.script) :=
      List.mem_filter.mpr ⟨present, beq_iff_eq.mpr same.symm⟩
    exact ⟨_, listed, coin, present, by rwa [settled listed present]⟩

/-- Replacing the ledger marks the addresses with coins, as far as their chains can grow. -/
theorem wp_replaceAll_marks (sound : h.keychain.Sound) (reports : List (Address × List Coin)) :
    (replaceAll reports).wp
      (fun _ u => h.keychain.Marked {address | h.Funded reports address} u.keychain)
      (fun e u => (∃ marks ⊆ {address | h.Funded reports address},
          h.keychain.Flagged marks u.keychain) ∧ h.keychain.StopsShort e u.keychain) h := by
  have marking {addresses : List Address}
      (funded : ∀ address, address ∈ addresses ↔ h.Funded reports address) (ledger : Ledger)
      (reservations : ReservationTable) : (markAllUsed addresses).wp
        (fun _ u => h.keychain.Marked {address | h.Funded reports address} u.keychain)
        (fun e u => (∃ marks ⊆ {address | h.Funded reports address},
          h.keychain.Flagged marks u.keychain) ∧ h.keychain.StopsShort e u.keychain)
        { keychain := h.keychain, ledger, reservations } := by
    have all : {address | address ∈ addresses} = {address | h.Funded reports address} :=
      Set.ext funded
    have tracked (address : Address) (listed : address ∈ addresses) :
        address ∈ h.keychain.addresses := by
      obtain ⟨-, -, coin, -, owner, -⟩ := (funded address).mp listed
      exact sound.mem_addresses_iff.mpr ⟨_, owner⟩
    apply (wp_markAllUsed_or_stops (t := ⟨h.keychain, ledger, reservations⟩) sound
      sound.marked_empty tracked).mono
    · rintro _ u ⟨marked, -⟩
      rwa [Set.union_empty, all] at marked
    · rintro e u ⟨⟨done, begun, flagged⟩, short, -⟩
      refine ⟨⟨_, ?_, flagged⟩, short⟩
      rw [Set.union_empty]
      exact fun address listed => (funded address).mp (begun.subset listed)
  simp only [replaceAll, Step.wp_bind, Step.wp_get, Step.wp_modify, Step.wp_pure]
  exact marking funded_iff _ _

end Holdings

namespace Account

variable {config : Config} {source : KeySource} {a b c : Account} {e : Failure}

namespace HalfReceived

variable {tx : Transaction} (h : b.HalfReceived tx e c)
include h

/-- The ledger is never as it was. -/
theorem ledger_ne : c.ledger ≠ b.ledger := by
  obtain ⟨done, some_done, begun, -⟩ := h.marked
  obtain ⟨coin, first⟩ := List.exists_mem_of_ne_nil _ some_done
  obtain ⟨made, accepts, absent⟩ := of_mem_receive (begun.subset first)
  intro same
  rw [← same, h.ledger_eq] at absent
  exact absent (contains_receive.mpr (.inr ⟨coin, made, accepts, rfl⟩))

/-- The owners that were left out are not marked later: all coins are in the ledger, so nothing is
new when the transaction is taken in again. -/
theorem receive_again
    (none_joined : ∀ coin ∈ tx.coins, c.keychain.owns coin.script → b.keychain.owns coin.script) :
    receive tx c = .ok [] c := by
  obtain ⟨_, -, -, marked⟩ := h.marked
  refine (receive_eq_self_iff marked.sound).mpr ?_
  intro coin made ⟨owned, free⟩
  rw [show c.holdings.reservations = b.reservations from h.reservations_eq] at free
  rw [h.ledger_eq]
  exact contains_receive.mpr (.inr ⟨coin, made, ⟨none_joined coin made owned, free⟩, rfl⟩)

end HalfReceived

/-- What is left when marking fails while the ledger is replaced: the reports have been taken in,
but only some of the addresses with coins are marked used. The chain of the last one marked is
short of what the gap rule asks for. -/
structure HalfReplaced (b : Account) (reports : List (Address × List Coin)) (e : Failure)
    (c : Account) : Prop where
  frame : c = { b with holdings := c.holdings }
  judged : b.holdings.Judged (b.holdings.reported reports) (fun _ => True) c.holdings
  reported : ∀ coin ∈ c.ledger.coins, coin ∈ b.holdings.reported reports
  marked : ∃ marks ⊆ {address | b.holdings.Funded reports address},
    b.keychain.Flagged marks c.keychain
  short : b.keychain.StopsShort e c.keychain

theorem noteFailures_frame (kind : RetryKind) (failures : List AddressFailure) (now : Timestamp)
    (b : Account) : ∃ retries,
      failures.foldl (fun a failure => a.noteFailure kind failure now) b = { b with retries } := by
  induction failures generalizing b with
  | nil => exact ⟨b.retries, rfl⟩
  | cons failure rest ih =>
      obtain ⟨retries, step⟩ : ∃ retries, b.noteFailure kind failure now = { b with retries } := by
        rw [noteFailure]
        split
        next => exact ⟨_, rfl⟩
        next => exact ⟨b.retries, rfl⟩
      rw [List.foldl_cons, step]
      exact ih { b with retries }

/-- Replacing the ledger fails before anything is changed but the queue of retries, or when the
reports have been taken in. -/
theorem wp_close_or_stops (sound : b.keychain.Sound) (resync : Resync) (now : Timestamp) :
    (resync.close now).wp (fun _ _ => True)
      (fun e c => resync.failures ≠ [] ∧ e = .queriesFailed resync.failures ∧
          (∃ retries, c = { b with retries }) ∨
        resync.failures = [] ∧ b.HalfReplaced resync.reports e c) b := by
  by_cases answered : resync.failures = []
  · have empty : resync.failures.isEmpty := List.isEmpty_iff.mpr answered
    have marks : (resync.close now).wp (fun _ _ => True) (fun e c =>
        c = { b with holdings := c.holdings } ∧
        (∃ marks ⊆ {address | b.holdings.Funded resync.reports address},
          b.keychain.Flagged marks c.keychain) ∧ b.keychain.StopsShort e c.keychain) b := by
      rw [Resync.close, if_pos empty, onHoldings, Step.wp_onPart]
      exact (Holdings.wp_replaceAll_marks sound resync.reports).mono (fun _ _ _ => trivial)
        fun _ _ half => ⟨rfl, half⟩
    apply ((wp_close_judged b empty now).and marks).mono fun _ _ _ => trivial
    rintro e c ⟨⟨judged, reported⟩, frame, marked, short⟩
    exact .inr ⟨answered, frame, judged, reported, marked, short⟩
  · have unanswered : ¬resync.failures.isEmpty := mt List.isEmpty_iff.mp answered
    rw [Resync.close, if_neg unanswered, Step.wp_bind, Step.wp_modify, Step.wp_throw]
    exact .inl ⟨answered, rfl, noteFailures_frame _ _ _ _⟩

/-- After every run, a transaction that is not taken in has left all of its coins in the ledger and
some of their owners marked, and taking it in again marks no more of them. A ledger that is not
replaced is as it was if a query has failed, and so are the addresses and the reservations.
Otherwise it has been replaced, and some of the addresses with coins are marked. -/
theorem cut_short_run (opened : ofConfig config source = .ok a) (actions : List Action) :
    let b := a.run actions
    (∀ tx e c, receive tx b = .error e c →
      b.HalfReceived tx e c ∧ c.ledger ≠ b.ledger ∧
      ((∀ coin ∈ tx.coins, c.keychain.owns coin.script → b.keychain.owns coin.script) →
        receive tx c = .ok [] c)) ∧
    ∀ resync now e c, Resync.close resync now b = .error e c →
      resync.failures ≠ [] ∧ e = .queriesFailed resync.failures ∧
          (∃ retries, c = { b with retries }) ∨
        resync.failures = [] ∧ b.HalfReplaced resync.reports e c := by
  intro b
  have sound : b.keychain.Sound := sound_run opened actions
  constructor
  · intro tx e c failed
    have half := (wp_receive sound tx).of_error failed
    exact ⟨half, half.ledger_ne, half.receive_again⟩
  · intro resync now e c failed
    exact (wp_close_or_stops sound resync now).of_error failed

/-- The source fails at the third receiving address, for which marking the second one asks. -/
theorem cut_short_of_failing_source :
    let config : Config := { receivingGapLimit := 2, changeGapLimit := 1 }
    let fails : KeySource.Override := { failure := some "no key" }
    let source := KeySource.numbered (.ofList [("receiving/2", fails)]) true
    let script (index : UInt8) : Script :=
      .payToKeyHash ([0, 0, 0, 0, index] ++ List.replicate 15 0)
    let tx : Transaction := ⟨⟨1⟩, [], [⟨30000, script 1⟩]⟩
    let answered : Resync := { reports := [(⟨"receiving-1"⟩, tx.coins)] }
    ∃ a, ofConfig config source = .ok a ∧
      (∃ e c, receive tx (a.run []) = .error e c ∧ (a.run []).HalfReceived tx e c) ∧
      ∃ e c, answered.close 0 (a.run []) = .error e c ∧
        (a.run []).HalfReplaced answered.reports e c := by
  intro config fails source script tx answered
  have answer : (ofConfig config source).toOption.any fun a =>
      match receive tx (a.run []), answered.close 0 (a.run []) with
      | .error _ _, .error _ _ => true
      | _, _ => false := by
    decide +kernel
  obtain ⟨a, opened, facts⟩ := Step.exists_ok_of_any answer
  obtain ⟨received, closed⟩ := cut_short_run opened []
  split at facts
  next e c e' c' receiving closing =>
      obtain ⟨half, -⟩ := received tx e c receiving
      obtain ⟨unanswered, -⟩ | ⟨-, half'⟩ := closed answered 0 e' c' closing
      · exact absurd rfl unanswered
      · exact ⟨a, opened, ⟨e, c, receiving, half⟩, e', c', closing, half'⟩
  next => cases facts

/-- A transaction pays to the second address and then to the first one. Marking the second one
fails, and both coins are in the ledger, that of the first address without its mark. The same goes
for a full resync that reports these coins. -/
theorem coins_left_in :
    let config : Config := { receivingGapLimit := 2, changeGapLimit := 1 }
    let fails : KeySource.Override := { failure := some "no key" }
    let source := KeySource.numbered (.ofList [("receiving/2", fails)]) true
    let script (index : UInt8) : Script :=
      .payToKeyHash ([0, 0, 0, 0, index] ++ List.replicate 15 0)
    let tx : Transaction := ⟨⟨1⟩, [], [⟨30000, script 1⟩, ⟨20000, script 0⟩]⟩
    let answered : Resync :=
      { reports := [(⟨"receiving-1"⟩, tx.coins), (⟨"receiving-0"⟩, tx.coins)] }
    let used (a : Account) : List Bool := a.keychain.receiving.slots.toList.map (·.used)
    ∃ a e c e' c', ofConfig config source = .ok a ∧ a.ledger.coins = [] ∧
      used a = [false, false] ∧
      receive tx a = .error e c ∧ c.ledger.coins = tx.coins ∧ used c = [false, true] ∧
      answered.close 0 a = .error e' c' ∧ c'.ledger.coins = tx.coins ∧ used c' = [false, true] := by
  intro config fails source script tx answered used
  have answer : (ofConfig config source).toOption.any fun a =>
      match receive tx a, answered.close 0 a with
      | .error _ c, .error _ c' =>
        a.ledger.coins = [] ∧ used a = [false, false] ∧
          c.ledger.coins = tx.coins ∧ used c = [false, true] ∧
          c'.ledger.coins = tx.coins ∧ used c' = [false, true]
      | _, _ => false := by
    decide +kernel
  obtain ⟨a, opened, facts⟩ := Step.exists_ok_of_any answer
  split at facts
  next e c e' c' receiving closing =>
      obtain ⟨empty, unused, coins, left, coins', left'⟩ := of_decide_eq_true facts
      exact ⟨a, e, c, e', c', opened, empty, unused, receiving, coins, left, closing, coins', left'⟩
  next => cases facts

end Account

end HdWallet
