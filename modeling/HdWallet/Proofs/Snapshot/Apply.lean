import HdWallet.Proofs.Account.Addresses
import HdWallet.Proofs.Chain.Overlay
import HdWallet.Proofs.Keychain.Orderly
import HdWallet.Proofs.Ledger

/-!
# Applying a snapshot

A snapshot may mention a slot several times and in any order. What counts is the last
mention: once the snapshot is applied, every slot that it mentions is as it was saved last,
and the chains are as long as the gap rule then asks for. A second application finds nothing
to derive and nothing to change, so it leaves the state as it is.
-/

namespace HdWallet

namespace Keychain

variable {keys : Keychain} {branch : Branch}

/-- Laying over what a sound chain carries already changes nothing. -/
theorem Sound.overlay_of_carries (h : keys.Sound) {saved : List SavedSlot}
    (carries : (keys.chain branch).Carries saved) :
    (onChain branch (Snapshot.overlay saved)).wp (fun _ t => t = keys) (fun _ _ => False) keys := by
  have same : Keychain.setChain branch (keys.chain branch) keys = keys := setChain_chain
  have kept := enduring_sound.toRestoring.wp_overlay saved (keys.chain branch) (same.symm ▸ h)
  rw [onChain, Step.wp_onPart]
  apply ((Chain.overlay_spec carries.inside).and
    ((Chain.overlay_frame saved (keys.chain branch)).and kept)).mono
  · rintro _ laid ⟨restored, frame, sound⟩
    have slots : laid.slots = (keys.chain branch).slots := carries.slots_eq restored
    have laidSound := sound.chains branch
    rw [chain_setChain, source_setChain] at laidSound
    have highest := (h.chains branch).highestUsed_eq_of_slots_eq laidSound slots
    rw [slots, highest] at frame
    rw [frame]
    exact setChain_chain
  · exact fun _ _ failed => failed.1

end Keychain

namespace Snapshot

variable {s : Snapshot} {keys : Keychain} {branch : Branch}

/-- What a branch of the snapshot makes of a keychain: only its chain changes, which carries
the saved slots then, is as long as the gap rule asks for and has lost no slot. -/
structure Lays (s : Snapshot) (branch : Branch) (before after : Keychain) : Prop where
  eq_setChain : after = Keychain.setChain branch (after.chain branch) before
  carries : (after.chain branch).Carries (s.slots branch)
  adequate : (after.chain branch).requiredSize ≤ (after.chain branch).size
  kept : ∀ {j slot}, (before.chain branch).slot? j = some slot →
    (after.chain branch).slot? j = some (slot.restored (SavedSlot.lastOf (s.slots branch) j))

theorem Lays.chain_other {before after : Keychain} (h : s.Lays branch before after) :
    after.chain branch.other = before.chain branch.other :=
  Keychain.chain_other_of_eq_setChain h.eq_setChain

/-- What became of a branch that could not be restored. Its chain lacks a slot that was saved, or
it has the saved slots and is short of what the gap rule then asks for. -/
inductive Halts (s : Snapshot) (branch : Branch) (e : Failure) (before after : Keychain) : Prop
  | lacking (extended : (before.chain branch).Extends (after.chain branch))
      (missing : ∃ saved ∈ s.slots branch, (after.chain branch).size ≤ saved.index.toNat)
      (stuck : e = .branchExhausted branch ∨ after.Blocked branch e)
  | short (overlaid : (before.chain branch).Overlaid (s.slots branch) (after.chain branch))
      (short : (after.chain branch).size < (after.chain branch).requiredSize)
      (blocked : after.Blocked branch e)

/-- A branch is restored, or it halts. Nothing but its chain changes. -/
theorem wp_applyBranch_or_halts (s : Snapshot) (branch : Branch) (keys : Keychain) :
    (s.applyBranch branch).wp
      (fun _ t => t = Keychain.setChain branch (t.chain branch) keys ∧
        (keys.chain branch).Overlaid (s.slots branch) (t.chain branch) ∧
        (t.chain branch).requiredSize ≤ (t.chain branch).size)
      (fun e t => t = Keychain.setChain branch (t.chain branch) keys ∧
        s.Halts branch e keys t) keys := by
  apply Keychain.restoring_true.wp_applyBranch trivial
  · intro e grown grows _ missing stuck
    exact ⟨grows.eq_setChain, .lacking grows.extended missing stuck⟩
  intro grown laid grows _ inside restored _
  have frame {t : Keychain} (longer : (Keychain.setChain branch laid grown).Grows branch t) :
      t = Keychain.setChain branch (t.chain branch) keys := by
    rw [longer.eq_setChain, Keychain.chain_setChain, Keychain.setChain_setChain,
      grows.eq_setChain, Keychain.setChain_setChain]
  apply (Keychain.maintain_spec branch _).mono
  · rintro _ t ⟨longer, hsize⟩
    have extended := longer.of_setChain.1
    rw [Keychain.chain_setChain] at hsize
    refine ⟨frame longer, .of_restored grows.extended inside restored extended, ?_⟩
    rw [extended.requiredSize_eq, hsize]
    exact Nat.le_max_right _ _
  · rintro e t ⟨longer, hsize, blocked⟩
    have extended := longer.of_setChain.1
    rw [Keychain.chain_setChain, ← extended.requiredSize_eq] at hsize
    exact ⟨frame longer,
      .short (.of_restored grows.extended inside restored extended) hsize blocked⟩

theorem applyBranch_spec (s : Snapshot) (branch : Branch) (keys : Keychain) :
    (s.applyBranch branch).wp (fun _ t => s.Lays branch keys t) (fun _ _ => True) keys :=
  (wp_applyBranch_or_halts s branch keys).mono
    (fun _ _ ⟨frame, overlaid, adequate⟩ => ⟨frame, overlaid.carries, adequate, overlaid.kept⟩)
    fun _ _ _ => trivial

/-- A branch that carries what was saved of it is only grown to what the gap rule asks for. -/
theorem wp_applyBranch_of_carries {Q : Keychain → Prop} {E : Failure → Keychain → Prop}
    (h : keys.Sound) (carries : (keys.chain branch).Carries (s.slots branch))
    (maintained : (Keychain.maintain branch).wp (fun _ => Q) E keys) :
    (s.applyBranch branch).wp (fun _ => Q) E keys := by
  have laid : Step.wp (do
      Keychain.onChain branch (overlay (s.slots branch))
      discard (Keychain.maintain branch)) (fun _ => Q) E keys := by
    rw [Step.wp_bind]
    apply (h.overlay_of_carries carries).mono _ fun _ _ failed => failed.elim
    rintro _ t rfl
    rwa [Step.wp_discard]
  rw [applyBranch]
  cases highest : s.highestIndex branch with
  | none => exact laid
  | some last =>
      dsimp only
      rw [Step.wp_bind, Step.wp_discard]
      have found := List.max?_mem highest
      obtain ⟨saved, listed, same⟩ := List.mem_map.mp found
      apply (Keychain.ensure_of_le_size (same ▸ carries.inside saved listed)).mono _
        fun _ _ failed => failed.elim
      rintro _ t rfl
      exact laid

/-- Applying a snapshot succeeds just if its version and its highest indices are accepted and
both branches can be restored one after the other. -/
theorem apply_eq_ok_iff {h t : Holdings} :
    s.apply h = .ok () t ↔ s.validate = .ok () ∧
      (∀ branch, s.checkIndex h.keychain.maxRestoredIndex branch = .ok ()) ∧
      ∃ first second, s.applyBranch .receiving h.keychain = .ok () first ∧
        s.applyBranch .change first = .ok () second ∧
        t = {
          keychain := second
          ledger := .ofCoins (s.coins.filter fun coin => !h.reservations.isWithheld coin.outpoint)
          reservations := h.reservations } := by
  have forall_branch {p : Branch → Prop} : (∀ branch, p branch) ↔ p .receiving ∧ p .change :=
    ⟨fun h => ⟨h _, h _⟩, fun h branch => by cases branch <;> simp [h]⟩
  rw [Step.eq_ok_iff, forall_branch]
  simp only [apply, Holdings.onKeychain, Step.wp_bind, Step.wp_get, Step.wp_onPart,
    Step.wp_modify, Step.wp_ofExcept_iff_exists_ok]
  simp only [Step.wp_iff_exists_ok]
  constructor
  · rintro ⟨_, valid, _, receiving, _, change, _, first, restored, _, second, restored', -, rfl⟩
    exact ⟨valid, ⟨receiving, change⟩, first, second, restored, restored', rfl⟩
  · rintro ⟨valid, ⟨receiving, change⟩, first, second, restored, restored', rfl⟩
    exact ⟨(), valid, (), receiving, (), change, (), first, restored, (), second, restored',
      trivial, rfl⟩

/-- What applying a snapshot makes of the holdings. -/
structure Applied (s : Snapshot) (before after : Holdings) : Prop where
  lays : ∃ first, s.Lays .receiving before.keychain first ∧
    s.Lays .change first after.keychain
  ledger_eq : after.ledger =
    .ofCoins (s.coins.filter fun coin => !before.reservations.isWithheld coin.outpoint)
  reservations_eq : after.reservations = before.reservations

namespace Applied

variable {before after : Holdings} (h : s.Applied before after)
include h

theorem maxRestoredIndex_eq :
    after.keychain.maxRestoredIndex = before.keychain.maxRestoredIndex := by
  obtain ⟨first, receiving, change⟩ := h.lays
  rw [change.eq_setChain, Keychain.maxRestoredIndex_setChain, receiving.eq_setChain,
    Keychain.maxRestoredIndex_setChain]

/-- Each branch is as if it alone had been restored. -/
theorem of_branch (branch : Branch) :
    (after.keychain.chain branch).Carries (s.slots branch) ∧
      (after.keychain.chain branch).requiredSize ≤ (after.keychain.chain branch).size ∧
      ∀ {j slot}, (before.keychain.chain branch).slot? j = some slot →
        (after.keychain.chain branch).slot? j =
          some (slot.restored (SavedSlot.lastOf (s.slots branch) j)) := by
  obtain ⟨first, receiving, change⟩ := h.lays
  cases branch with
  | receiving =>
      have same : after.keychain.chain .receiving = first.chain .receiving := change.chain_other
      rw [same]
      exact ⟨receiving.carries, receiving.adequate, receiving.kept⟩
  | change =>
      have same : first.chain .change = before.keychain.chain .change := receiving.chain_other
      rw [← same]
      exact ⟨change.carries, change.adequate, change.kept⟩

theorem find?_eq (o : OutPoint) :
    after.ledger.find? o =
      if before.reservations.isWithheld o then none else s.coins.find? (·.outpoint = o) := by
  rw [h.ledger_eq, Ledger.find?_ofCoins, List.find?_filter]
  split
  next withheld =>
      rw [List.find?_eq_none]
      rintro coin - both
      obtain ⟨free, here⟩ := of_decide_eq_true both
      rw [of_decide_eq_true here, withheld] at free
      cases free
  next free =>
      congr 1
      funext coin
      by_cases here : coin.outpoint = o
      · simp [here, free]
      · simp [here]

end Applied

theorem applied_of_eq_ok {h t : Holdings} (applied : s.apply h = .ok () t) : s.Applied h t := by
  obtain ⟨-, -, first, second, restored, restored', rfl⟩ := apply_eq_ok_iff.mp applied
  exact ⟨⟨first, (applyBranch_spec s .receiving _).of_ok restored,
    (applyBranch_spec s .change _).of_ok restored'⟩, rfl, rfl⟩

/-- Restoring a branch again leaves the keychain as it is. -/
theorem Applied.applyBranch_eq {before after : Holdings} (h : s.Applied before after)
    (sound : after.keychain.Sound) (branch : Branch) :
    s.applyBranch branch after.keychain = .ok () after.keychain := by
  obtain ⟨carries, adequate, -⟩ := h.of_branch branch
  have unchanged := wp_applyBranch_of_carries sound carries
    (Keychain.maintain_of_requiredSize_le adequate)
  obtain ⟨_, _, restored, rfl⟩ := unchanged.exists_ok
  exact restored

theorem apply_eq_of_applied {h t : Holdings} (sound : h.keychain.Sound)
    (applied : s.apply h = .ok () t) : s.apply t = .ok () t := by
  have done := applied_of_eq_ok applied
  have sound' : t.keychain.Sound :=
    (Keychain.enduring_sound.keeps_operation (.applySnapshot s) h sound).of_ok applied
  obtain ⟨valid, checks, -⟩ := apply_eq_ok_iff.mp applied
  rw [apply_eq_ok_iff, done.maxRestoredIndex_eq, done.reservations_eq, ← done.ledger_eq]
  refine ⟨valid, checks, _, _, done.applyBranch_eq sound' .receiving,
    done.applyBranch_eq sound' .change, ?_⟩
  rw [← done.reservations_eq]

/-- Applied once, a snapshot has brought every slot that it mentions to its last mention, left
the others alone and replaced the ledger; applied again, it changes nothing. -/
theorem apply_apply {config : Config} {source : KeySource} {a : Account}
    (opened : Account.ofConfig config source = .ok a) (actions : List Account.Action)
    (operations : List Keychain.Operation) {h t : Holdings}
    (reached : h.keychain = ((a.run actions).holdings.after operations).keychain)
    {s : Snapshot} (applied : s.apply h = .ok () t) :
    s.apply t = .ok () t ∧
    (∀ o, t.ledger.find? o =
      if h.reservations.isWithheld o then none else s.coins.find? (·.outpoint = o)) ∧
    (∀ branch i saved, SavedSlot.lastOf (s.slots branch) i = some saved →
      ∃ slot, (t.keychain.chain branch).slot? i = some slot ∧ slot.used = saved.used ∧
        slot.cache.reading = saved.reading) ∧
    ∀ branch i slot, SavedSlot.lastOf (s.slots branch) i = none →
      (h.keychain.chain branch).slot? i = some slot →
      (t.keychain.chain branch).slot? i = some slot := by
  have sound : h.keychain.Sound := by
    rw [reached]
    exact Keychain.enduring_sound.keeps_after (Account.sound_run opened actions) operations
  have done := applied_of_eq_ok applied
  refine ⟨apply_eq_of_applied sound applied, done.find?_eq, ?_, ?_⟩
  · intro branch i saved hlast
    exact (done.of_branch branch).1.slot?_of_lastOf hlast
  · intro branch i slot unsaved hslot
    obtain ⟨-, -, kept⟩ := done.of_branch branch
    rw [kept hslot, unsaved]
    rfl

/-- A snapshot that marks a slot and clears it again, mentions an outpoint twice and a coin that
is withheld, over a keychain with other slots marked. -/
theorem apply_apply_of_mixed_mentions :
    let config : Config := { receivingGapLimit := 2, changeGapLimit := 1 }
    let coin (index : UInt32) (value : Amount) : Coin := ⟨⟨⟨0⟩, index⟩, ⟨value, ⟨[]⟩⟩⟩
    let s : Snapshot := {
      version := 1
      receiving := [⟨3, true, .fresh 5 10⟩, ⟨1, true, .unknown⟩, ⟨3, false, .stale 5 11⟩]
      change := []
      coins := [coin 2 70, coin 0 10, coin 1 20, coin 2 80] }
    ∃ a h t, Account.ofConfig config (.numbered ∅ true) = .ok a ∧
      h.keychain = ((a.run [.markUsed ⟨"receiving-0"⟩]).holdings.after []).keychain ∧
      h.reservations.isWithheld ⟨⟨0⟩, 0⟩ ∧ s.apply h = .ok () t ∧ s.apply t = .ok () t := by
  intro config coin s
  let started (a : Account) : Holdings :=
    { keychain := ((a.run [.markUsed ⟨"receiving-0"⟩]).holdings.after []).keychain
      ledger := .ofCoins [coin 7 1]
      reservations := ({ lifetime := 300 } : ReservationTable).addPending [coin 0 10] }
  have answer : (Account.ofConfig config (.numbered ∅ true)).toOption.any fun a =>
      (started a).reservations.isWithheld ⟨⟨0⟩, 0⟩ && (s.apply.answer (started a)).isOk := by
    decide +kernel
  obtain ⟨a, opened, facts⟩ := Step.exists_ok_of_any answer
  obtain ⟨withheld, succeeded⟩ := Bool.and_eq_true_iff.mp facts
  obtain ⟨t, applied⟩ := Step.eq_ok_of_isOk succeeded
  have reached : (started a).keychain =
      ((a.run [.markUsed ⟨"receiving-0"⟩]).holdings.after []).keychain := rfl
  obtain ⟨again, -⟩ := apply_apply opened _ [] reached applied
  exact ⟨a, started a, t, opened, reached, withheld, applied, again⟩

end Snapshot

end HdWallet
