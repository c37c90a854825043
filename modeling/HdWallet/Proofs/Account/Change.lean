import HdWallet.Proofs.Account.Completion
import HdWallet.Proofs.Account.Planning
import HdWallet.Proofs.Keychain.Dependable

/-!
# No change address is used twice

The change address of a new reservation, like the one handed out on its own, is the first that
is neither used nor claimed. A source that never fails lets every chain grow, so that there is
always one until the last index that is not hardened. A completed payment leaves its change
address used; only restoring a snapshot takes this back, so without one the address is never
claimed or handed out again.
-/

namespace HdWallet

namespace Keychain

variable {keys after : Keychain} {branch side : Branch} {index : Nat}

theorem UsedAt.setChain {chain : Chain} (h : keys.UsedAt branch index)
    (kept : (keys.chain side).indices (·.used) ⊆ chain.indices (·.used)) :
    (setChain side chain keys).UsedAt branch index := by
  obtain rfl | rfl := branch.eq_or_eq_other side
  · rw [UsedAt, chain_setChain]
    exact kept h
  · rw [UsedAt, chain_other_setChain]
    exact h

theorem invariant_usedAt (branch : Branch) (index : Nat) : Invariant (UsedAt branch index) where
  push _ _ _ h := h.setChain fun i used => (Chain.indices_push ..).mpr (.inr used)
  mark marking h := h.setChain (by
    rw [Chain.indices_markUsed marking]
    exact Set.subset_insert _ _)
  setGapLimit _ h := h.setChain fun _ used => used

theorem UsedAt.modifyCache (h : keys.UsedAt branch index) (address : Address)
    (f : CachedBalance → CachedBalance) : (keys.modifyCache address f).1.UsedAt branch index := by
  obtain same | ⟨side, i, changed⟩ := keys.modifyCache_cases address f
  · rwa [same]
  · rw [changed]
    apply h.setChain
    rw [Chain.indices_used_modifyCache]

theorem UsedAt.setCacheLifetime (h : keys.UsedAt branch index) (lifetime : UInt64) :
    (keys.setCacheLifetime lifetime).UsedAt branch index := by
  rw [UsedAt, chain_setCacheLifetime, Chain.indices_used_setCacheLifetime]
  exact h

/-- A slot that is handed out is not one that was used before. -/
theorem HandsOut.index_ne {excluded : Set Nat} {slot : Slot}
    (h : HandsOut branch excluded keys slot after) (used : keys.UsedAt branch index) :
    slot.index ≠ index := by
  rintro rfl
  obtain ⟨other, hother, marked⟩ : after.UsedAt branch slot.index := by
    obtain same | ⟨-, grows, -⟩ := h.grown
    · rwa [same]
    · obtain ⟨before, hbefore, marked⟩ := used
      exact ⟨before, (grows.extended.slot?_eq (Chain.lt_size_of_slot? hbefore)).trans hbefore,
        marked⟩
  obtain ⟨⟨_, hslot, unused⟩, -⟩ := h.isLeast.1
  rw [hother] at hslot
  cases hslot
  rw [unused] at marked
  cases marked

end Keychain

namespace Holdings

/-- Cancelling reservations leaves the addresses alone, and fails only for an unknown one. -/
theorem wp_cancelAll (ids : List Nat) (h : Holdings) :
    (cancelAll ids).wp (fun _ t => t.keychain = h.keychain)
      (fun e t => t.keychain = h.keychain ∧ ∃ id, e = .unknownReservation id) h := by
  induction ids generalizing h with
  | nil => rfl
  | cons id rest ih =>
      simp only [cancelAll, release, Step.wp_bind, Step.wp_discard, Step.wp_get]
      split
      next => exact ⟨rfl, id, rfl⟩
      next => exact ih _

end Holdings

namespace Account

open Keychain (HandsOut)

variable {config : Config} {source : KeySource} {a : Account}

theorem slotInvariant_usedAt (branch : Branch) (index : Nat) :
    SlotInvariant fun _ => Keychain.UsedAt branch index where
  carried _ := (Keychain.invariant_usedAt branch index).toMarking.carried
  setGapLimit side limit hk :=
    (Keychain.invariant_usedAt branch index).keeps_setGapLimit side limit.toNat _ hk
  setCacheLifetime lifetime hk := hk.setCacheLifetime lifetime
  modifyCache address _ _ hk := hk.modifyCache address _

theorem wp_nextUnused_change (b : Account) {ok : Slot → Keychain → Prop}
    {err : Failure → Keychain → Prop}
    (handed : (Keychain.nextUnused .change b.reservations.claimed).wp ok err b.keychain) :
    (nextUnused .change).wp (fun slot c => ok slot c.keychain) (fun e c => err e c.keychain) b := by
  simp only [nextUnused, onKeychain, onHoldings, Holdings.onKeychain, Step.wp_bind, Step.wp_get,
    Step.wp_onPart]
  exact handed

theorem wp_expire (now : Timestamp) (b : Account) :
    (expire now).wp (fun _ c => c.keychain = b.keychain)
      (fun e c => c.keychain = b.keychain ∧ ∃ id, e = .unknownReservation id) b := by
  simp only [expire, Holdings.expire, onHoldings, Step.wp_onPart, Step.wp_bind, Step.wp_get,
    Step.wp_pure]
  exact Holdings.wp_cancelAll _ b.holdings

theorem keychain_expire (now : Timestamp) (b : Account) :
    ((Action.expire now).perform b).keychain = b.keychain := by
  apply Step.stateAfter_of_wp (P := fun c : Account => c.keychain = b.keychain)
  rw [Action.step, Step.wp_discard]
  exact (wp_expire now b).mono (fun _ _ same => same) fun _ _ failed => failed.1

/-- A payment is planned in the state that is left when the reservations that are too old were
cancelled. -/
theorem wp_reserve (request : SpendRequest) (now : Timestamp) (b : Account)
    {ok : Reservation → Account → Prop} {err : Failure → Account → Prop}
    (unknown : ∀ id c, err (.unknownReservation id) c)
    (planned : ∀ selector, (onHoldings (Holdings.reserve request selector now)).wp ok err
      ((Action.expire now).perform b)) :
    (reserve request now).wp ok err b := by
  simp only [reserve, Step.wp_bind, Step.wp_discard, Step.wp_get]
  rw [Step.wp_iff]
  constructor
  · intro ids c expired
    have reached : (Action.expire now).perform b = c := by
      apply Step.stateAfter_of_wp (P := (· = c))
      rw [Action.step, Step.wp_discard, expire, Step.wp, expired]
    exact reached ▸ planned _
  · intro e c failed
    obtain ⟨-, id, rfl⟩ := (wp_expire now b).of_error failed
    exact unknown id c

theorem keychain_run_expire (a : Account) (actions : List Action) (now : Timestamp) :
    (a.run (actions ++ [.expire now])).keychain = (a.run actions).keychain := by
  rw [run_append]
  exact keychain_expire now _

/-- After every run, a plan claims the change slot that is handed out once the reservations that
are too old were cancelled. If it fails, no coins can be chosen or no slot can be handed out. -/
theorem wp_reserve_run (opened : ofConfig config source = .ok a) (actions : List Action)
    (request : SpendRequest) (now : Timestamp) :
    let b := a.run actions
    let expired := a.run (actions ++ [.expire now])
    (reserve request now).wp
      (fun r c => ∃ slot, r.change = slot.claim ∧
        HandsOut .change expired.reservations.claimedIndices b.keychain slot c.keychain)
      (fun e _ => (∃ id, e = .unknownReservation id) ∨ (∃ failure, e = .ofSelection failure) ∨
        ∃ keychain, Keychain.nextUnused .change expired.reservations.claimed b.keychain =
          .error e keychain) b := by
  intro b expired
  have separated : expired.holdings.Separated :=
    invariant_separated.run (separated_of_ofConfig opened) (actions ++ [Action.expire now])
  have handed := wp_nextUnused_run opened (actions ++ [.expire now])
  have same : b.keychain = expired.keychain := (keychain_run_expire a actions now).symm
  have reached : (Action.expire now).perform b = expired :=
    (run_append a actions [.expire now]).symm
  rw [same]
  apply wp_reserve request now b fun id _ => .inl ⟨id, rfl⟩
  intro selector
  rw [reached, onHoldings, Step.wp_onPart]
  apply ((Holdings.reserve_spec request selector now _).and
    (separated.wp_reserve request selector now)).mono
  · rintro _ t ⟨⟨selection, slot, -, -, answered, -, -, rfl⟩, -⟩
    exact ⟨slot, rfl, handed.of_ok answered⟩
  · rintro e t ⟨-, -, -, ⟨failure, -, rfl, -⟩ | unclaimed⟩
    · exact .inr (.inl ⟨failure, rfl⟩)
    · exact .inr (.inr ⟨t.keychain, unclaimed⟩)

/-- With a source that never fails, a change slot is handed out as long as the chain has room
for one gap limit of further slots. -/
theorem nextUnused_succeeds_run (opened : ofConfig config source = .ok a) (actions : List Action)
    (dependable : source.Dependable config.accountPath)
    (room : ((a.run actions).keychain.chain .change).size +
      ((a.run actions).keychain.chain .change).gapLimit ≤ 2 ^ 31) :
    let h := (a.run actions).holdings
    (Keychain.nextUnused .change h.reservations.claimed).wp (fun _ _ => True) (fun _ _ => False)
      h.keychain := by
  intro h
  have sound : h.keychain.Sound := sound_run opened actions
  have kept := Keychain.enduring_sound.toGrowth.keeps_nextUnused .change
    h.reservations.claimed h.keychain sound
  apply ((wp_nextUnused_run opened actions).and kept).mono fun _ _ _ => trivial
  rintro e t ⟨⟨-, grows, short, blocked⟩, ht⟩
  refine ht.not_blocked ?_ ?_ e blocked
  · obtain ⟨hsource, haccount⟩ := origin_run opened actions
    rw [grows.eq_setChain, Keychain.source_setChain, Keychain.account_setChain]
    exact hsource ▸ haccount ▸ dependable
  · have : lastNormalIndex + 1 = 2 ^ 31 := by decide
    change _ < ((a.run actions).keychain.chain .change).size +
      ((a.run actions).keychain.chain .change).gapLimit at short
    omega

/-- The change address of a completed reservation stays used as long as no snapshot is
restored. -/
theorem usedAt_run (opened : ofConfig config source = .ok a) (actions : List Action) {id : Nat}
    {r : Reservation} (hr : (a.run actions).reservations.find? id = some r)
    (hasChange : r.hasChange) {later : List Action}
    (live : ∀ action ∈ later, ¬action.restores) :
    (a.run (actions ++ .release id .completed :: later)).keychain.UsedAt .change
      r.change.index.toNat := by
  rw [run_append]
  apply (slotInvariant_usedAt .change r.change.index.toNat).liveInvariant.run _ live
  apply Step.stateAfter_of_wp
    (P := fun c : Account => c.keychain.UsedAt .change r.change.index.toNat)
  rw [Action.step, Step.wp_discard, release, onHoldings, Step.wp_onPart]
  exact (backed_run opened actions).wp_complete (sound_run opened actions) hr hasChange

/-- After every run, the change address that is handed out or claimed is the first that is
neither used nor claimed, where the chain grows by one gap limit if there is none. With a source
that never fails there is one while the chain has room. As long as no snapshot is restored, the
change address of a completed payment is never handed out or claimed again. -/
theorem change_address_run (opened : ofConfig config source = .ok a) (actions : List Action) :
    let b := a.run actions
    (∀ slot c, nextUnused .change b = .ok slot c →
      HandsOut .change b.reservations.claimedIndices b.keychain slot c.keychain) ∧
    (∀ request now r c, reserve request now b = .ok r c →
      let expired := a.run (actions ++ [.expire now])
      expired.keychain = b.keychain ∧ ∃ slot, r.change = slot.claim ∧
        HandsOut .change expired.reservations.claimedIndices b.keychain slot c.keychain) ∧
    (source.Dependable config.accountPath →
      (b.keychain.chain .change).size + (b.keychain.chain .change).gapLimit ≤ 2 ^ 31 →
      (∃ slot c, nextUnused .change b = .ok slot c) ∧
      ∀ request now e c, reserve request now b = .error e c → ∀ side, e ≠ .branchExhausted side) ∧
    ∀ id r, b.reservations.find? id = some r → r.hasChange →
      ∀ later : List Action, (∀ action ∈ later, ¬action.restores) →
      let d := a.run (actions ++ .release id .completed :: later)
      (∀ slot c, nextUnused .change d = .ok slot c → slot.path.index ≠ r.change.index) ∧
      ∀ request now s c, reserve request now d = .ok s c → s.change.index ≠ r.change.index := by
  intro b
  have handed (actions : List Action) {slot : Slot} {c : Account}
      (answered : nextUnused .change (a.run actions) = .ok slot c) :
      HandsOut .change (a.run actions).reservations.claimedIndices (a.run actions).keychain slot
        c.keychain :=
    (wp_nextUnused_change _ (wp_nextUnused_run opened actions)).of_ok answered
  have claimed (actions : List Action) {request : SpendRequest} {now : Timestamp}
      {r : Reservation} {c : Account} (planned : reserve request now (a.run actions) = .ok r c) :
      ∃ slot, r.change = slot.claim ∧
        HandsOut .change (a.run (actions ++ [.expire now])).reservations.claimedIndices
          (a.run actions).keychain slot c.keychain :=
    (wp_reserve_run opened actions request now).of_ok planned
  refine ⟨fun slot c => handed actions, ?_, ?_, ?_⟩
  · intro request now r c planned
    exact ⟨keychain_run_expire a actions now, claimed actions planned⟩
  · intro dependable room
    constructor
    · have succeeds := nextUnused_succeeds_run opened actions dependable room
      obtain ⟨slot, c, answered, -⟩ := (wp_nextUnused_change b succeeds).exists_ok
      exact ⟨slot, c, answered⟩
    · intro request now e c failed side
      obtain ⟨id, rfl⟩ | ⟨failure, rfl⟩ | ⟨keychain, unclaimed⟩ :=
        (wp_reserve_run opened actions request now).of_error failed
      · exact nofun
      · cases failure <;> exact nofun
      · have same := keychain_run_expire a actions now
        have succeeds := nextUnused_succeeds_run opened (actions ++ [.expire now]) dependable
          (by rw [same]; exact room)
        change (Keychain.nextUnused .change _).wp _ _ (a.run _).keychain at succeeds
        rw [same] at succeeds
        exact (succeeds.of_error unclaimed).elim
  · intro id r hr hasChange later live d
    have used := usedAt_run opened actions hr hasChange live
    constructor
    · intro slot c answered same
      exact (handed _ answered).index_ne used (congrArg _ same)
    · intro request now s c planned same
      obtain ⟨slot, claim, hands⟩ := claimed _ planned
      rw [claim] at same
      exact hands.index_ne used (congrArg _ same)

/-- The change address of a completed payment is passed over from then on. -/
theorem change_address_after_completion :
    let config : Config := { receivingGapLimit := 1, changeGapLimit := 2 }
    let source := KeySource.numbered ∅ true
    let actions : List Action :=
      [.addCoin ⟨default, ⟨100000, default⟩⟩, .reserve (.ofTarget 5000 ⟨1000⟩) 0]
    ∃ a r slot c, ofConfig config source = .ok a ∧ source.Dependable config.accountPath ∧
      (∃ slot c, nextUnused .change (a.run actions) = .ok slot c) ∧
      (a.run actions).reservations.find? 1 = some r ∧ r.hasChange ∧
      r.change.address = ⟨"change-0"⟩ ∧
      nextUnused .change (a.run (actions ++ [.release 1 .completed])) = .ok slot c ∧
      slot.address = ⟨"change-1"⟩ ∧ slot.path.index ≠ r.change.index := by
  intro config source actions
  have answer : (ofConfig config source).toOption.any fun a =>
      ((a.run actions).keychain.chain .change).size +
        ((a.run actions).keychain.chain .change).gapLimit ≤ 2 ^ 31 &&
      ((a.run actions).reservations.find? 1).any
        (fun r => r.hasChange ∧ r.change.address = ⟨"change-0"⟩) &&
      match nextUnused .change (a.run (actions ++ [.release 1 .completed])) with
      | .ok slot _ => slot.address = ⟨"change-1"⟩
      | .error _ _ => false := by
    decide +kernel
  obtain ⟨a, opened, facts⟩ := Step.exists_ok_of_any answer
  obtain ⟨facts, handed⟩ := Bool.and_eq_true_iff.mp facts
  obtain ⟨room, planned⟩ := Bool.and_eq_true_iff.mp facts
  obtain ⟨r, hr, plan⟩ := (Option.any_eq_true _ _).mp planned
  obtain ⟨hasChange, first⟩ := of_decide_eq_true plan
  have dependable := KeySource.dependable_numbered true config.accountPath
  obtain ⟨-, -, succeeds, passed⟩ := change_address_run opened actions
  split at handed
  next slot c answered =>
      have nothing_restored : ∀ action ∈ ([] : List Action), ¬action.restores :=
        fun _ listed => absurd listed List.not_mem_nil
      obtain ⟨others, -⟩ := passed 1 r hr hasChange [] nothing_restored
      obtain ⟨handed_out, -⟩ := succeeds dependable (of_decide_eq_true room)
      exact ⟨a, r, slot, c, opened, dependable, handed_out, hr, hasChange, first, answered,
        of_decide_eq_true handed, others slot c answered⟩
  next => cases handed

end Account

end HdWallet
