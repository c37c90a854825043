import HdWallet.Proofs.Account.Reload
import HdWallet.Proofs.Account.Total
import HdWallet.Proofs.Keychain.Settled
import HdWallet.Proofs.Snapshot.Apply

/-!
# An account and its own snapshot

Laid over the account that it was made of, a snapshot finds every slot and every coin as they
were saved, so it never changes anything. It may still be refused. The bound on restored
indices does not hold back the gap rule, which may have put slots above it; and a chain that
cannot grow is asked again for the slots that the gap rule misses.
-/

namespace HdWallet

/-- Nothing in the ledger is withheld, so its coins make it again. -/
theorem Holdings.Separated.ofCoins_free {h : Holdings} (separated : h.Separated)
    (exact_total : h.ledger.Exact) : Ledger.ofCoins (h.ledger.coins.filter
      fun coin => !h.reservations.isWithheld coin.outpoint) = h.ledger := by
  have all : h.ledger.coins.filter
      (fun coin => !h.reservations.isWithheld coin.outpoint) = h.ledger.coins := by
    rw [List.filter_eq_self]
    intro coin listed
    have free := separated.free (h.ledger.contains_of_mem_coins listed)
    simpa using free
  rw [all, exact_total.ofCoins_coins]

namespace Snapshot

variable {s : Snapshot} {limit : Nat} {h : Holdings}

def Within (s : Snapshot) (limit : Nat) : Prop :=
  ∀ branch, ∀ saved ∈ s.slots branch, saved.index.toNat ≤ limit

instance (s : Snapshot) (limit : Nat) : Decidable (s.Within limit) :=
  decidable_of_iff ((∀ saved ∈ s.receiving, saved.index.toNat ≤ limit) ∧
      ∀ saved ∈ s.change, saved.index.toNat ≤ limit)
    ⟨fun h => fun | .receiving => h.1 | .change => h.2, fun h => ⟨h .receiving, h .change⟩⟩

theorem checkIndex_eq_error {branch : Branch} {e : Failure}
    (refused : s.checkIndex limit branch = .error e) :
    ∃ index, e = .indexOutOfRange branch index limit := by
  rw [checkIndex] at refused
  split at refused
  next index _ =>
      split at refused
      next =>
          cases refused
          exact ⟨index, rfl⟩
      next => cases refused
  next => cases refused

/-- A saved index above the bound is refused before anything is derived. -/
theorem wp_apply_of_not_within (valid : s.validate = .ok ())
    (beyond : ¬s.Within h.keychain.maxRestoredIndex) :
    s.apply.wp (fun _ _ => False) (fun e t => t = h ∧ ∃ branch index,
      e = .indexOutOfRange branch index h.keychain.maxRestoredIndex) h := by
  simp only [apply, valid, Step.wp_bind, Step.wp_ofExcept_ok, Step.wp_get]
  cases receiving : s.checkIndex h.keychain.maxRestoredIndex .receiving with
  | error e => exact ⟨rfl, .receiving, checkIndex_eq_error receiving⟩
  | ok _ =>
      cases change : s.checkIndex h.keychain.maxRestoredIndex .change with
      | error e => exact ⟨rfl, .change, checkIndex_eq_error change⟩
      | ok _ =>
          refine absurd ?_ beyond
          rintro (_ | _)
          · exact checkIndex_eq_ok_iff.mp receiving
          · exact checkIndex_eq_ok_iff.mp change

/-- Laid over the chain that it was made of, a saved branch changes nothing. It is refused where
the gap rule asks for a slot that cannot be derived. -/
theorem wp_applyBranch_own {keys : Keychain} {branch : Branch} (settled : keys.Settled)
    (saved : s.slots branch = ofChain (keys.chain branch)) :
    (s.applyBranch branch).wp
      (fun _ t => t = keys ∧ (keys.chain branch).requiredSize ≤ (keys.chain branch).size)
      (fun e t => t = keys ∧ (keys.chain branch).size < (keys.chain branch).requiredSize ∧
        keys.Blocked branch e) keys := by
  apply wp_applyBranch_of_carries settled.toSound
  · rw [saved]
    exact (settled.chains branch).carries_ofChain
  · exact (settled.filled branch).wp_maintain

/-- Within the bound, the own snapshot of some holdings is refused only where the gap rule asks
for a slot that cannot be derived. It never changes anything. -/
theorem wp_apply_own (settled : h.keychain.Settled) (separated : h.Separated)
    (exact_total : h.ledger.Exact) (within : (ofHoldings h).Within h.keychain.maxRestoredIndex) :
    (ofHoldings h).apply.wp (fun _ t => t = h ∧ h.keychain.Adequate)
      (fun e t => t = h ∧ ¬h.keychain.Adequate ∧ ∃ branch, h.keychain.Blocked branch e) h := by
  have valid : (ofHoldings h).validate = .ok () := rfl
  have check (branch : Branch) :
      (ofHoldings h).checkIndex h.keychain.maxRestoredIndex branch = .ok () :=
    checkIndex_eq_ok_iff.mpr (within branch)
  simp only [apply, valid, check, Holdings.onKeychain, Step.wp_bind, Step.wp_ofExcept_ok,
    Step.wp_get, Step.wp_onPart, Step.wp_modify]
  apply (wp_applyBranch_own settled (slots_ofHoldings h .receiving)).mono
  · rintro _ t ⟨rfl, receiving⟩
    apply (wp_applyBranch_own settled (slots_ofHoldings h .change)).mono
    · rintro _ t ⟨rfl, change⟩
      constructor
      · change { h with ledger := Ledger.ofCoins (h.ledger.coins.filter _) } = h
        rw [separated.ofCoins_free exact_total]
      · rintro (_ | _)
        · exact receiving
        · exact change
    · rintro e t ⟨rfl, short, blocked⟩
      exact ⟨rfl, fun adequate => Nat.not_le_of_lt short (adequate .change), .change, blocked⟩
  · rintro e t ⟨rfl, short, blocked⟩
    exact ⟨rfl, fun adequate => Nat.not_le_of_lt short (adequate .receiving), .receiving, blocked⟩

end Snapshot

namespace Account

theorem settled_run {config : Config} {source : KeySource} {a : Account}
    (opened : ofConfig config source = .ok a) (actions : List Action) :
    (a.run actions).keychain.Settled := by
  have inv : KeychainInvariant fun _ => Keychain.Settled := {
    carried := fun _ => Keychain.carried_settled
    setGapLimit := fun branch limit hk =>
      Keychain.keeps_setGapLimit_settled branch limit.toNat _ hk
    setCacheLifetime := fun lifetime hk => hk.setCacheLifetime lifetime
    modifyCache := fun {_ keys} address f lifetime hk => by
      obtain same | ⟨branch, index, changed⟩ := keys.modifyCache_cases address f
      · rwa [same]
      · rw [changed]
        exact hk.modifyCache index lifetime
    applyBranch := fun _ snapshot branch => Keychain.keeps_applyBranch_settled snapshot branch }
  exact inv.invariant.run (Keychain.settled_of_ofConfig (keychain_of_ofConfig opened).1) actions

theorem maxRestoredIndex_run {config : Config} {source : KeySource} {a : Account}
    (opened : ofConfig config source = .ok a) (actions : List Action) :
    (a.run actions).keychain.maxRestoredIndex = config.maxRestoredIndex.toNat :=
  (KeychainInvariant.of_enduring (Keychain.enduring_maxRestoredIndex _)).invariant.run
    (Keychain.maxRestoredIndex_of_ofConfig (keychain_of_ofConfig opened).1) actions

/-- Whatever chains it found, a snapshot leaves them as long as the gap rule asks for. -/
theorem adequate_of_applySnapshot {s : Snapshot} {b c : Account}
    (applied : applySnapshot s b = .ok () c) : c.keychain.Adequate := by
  have spec : (applySnapshot s).wp (fun _ c => c.keychain.Adequate) (fun _ _ => True) b := by
    rw [applySnapshot, onHoldings, Step.wp_onPart, Step.wp_iff]
    refine ⟨fun _ t applied branch => ?_, fun _ _ _ => trivial⟩
    exact ((Snapshot.applied_of_eq_ok applied).of_branch branch).2.1
  exact spec.of_ok applied

section Own

variable {config : Config} {source : KeySource} {a : Account}
  (opened : ofConfig config source = .ok a) (actions : List Action)
include opened

theorem wp_applySnapshot_of_not_within
    (beyond : ¬(a.run actions).snapshot.Within config.maxRestoredIndex.toNat) :
    (applySnapshot (a.run actions).snapshot).wp (fun _ _ => False)
      (fun e t => t = a.run actions ∧ ∃ branch index,
        e = .indexOutOfRange branch index config.maxRestoredIndex.toNat) (a.run actions) := by
  rw [← maxRestoredIndex_run opened actions] at beyond ⊢
  rw [applySnapshot, onHoldings, Step.wp_onPart]
  apply (Snapshot.wp_apply_of_not_within rfl beyond).mono fun _ _ failed => failed
  rintro e t ⟨rfl, why⟩
  exact ⟨rfl, why⟩

/-- Within the bound, the own snapshot of an account is accepted just if the gap rule is kept. -/
theorem wp_applySnapshot_of_within
    (within : (a.run actions).snapshot.Within config.maxRestoredIndex.toNat) :
    (applySnapshot (a.run actions).snapshot).wp
      (fun _ t => t = a.run actions ∧ (a.run actions).keychain.Adequate)
      (fun e t => t = a.run actions ∧ ¬(a.run actions).keychain.Adequate ∧
        ∃ branch, (a.run actions).keychain.Blocked branch e) (a.run actions) := by
  rw [← maxRestoredIndex_run opened actions] at within
  have separated := invariant_separated.run (separated_of_ofConfig opened) actions
  have own := Snapshot.wp_apply_own (settled_run opened actions) separated
    (exact_run opened actions) within
  rw [applySnapshot, onHoldings, Step.wp_onPart]
  apply own.mono
  · rintro _ t ⟨rfl, adequate⟩
    exact ⟨rfl, adequate⟩
  · rintro e t ⟨rfl, short⟩
    exact ⟨rfl, short⟩

/-- Whatever the answer, the own snapshot of an account changes nothing. -/
theorem stateAfter_applySnapshot :
    (applySnapshot (a.run actions).snapshot).stateAfter (a.run actions) = a.run actions := by
  have same : (applySnapshot (a.run actions).snapshot).wp (fun _ t => t = a.run actions)
      (fun _ t => t = a.run actions) (a.run actions) := by
    by_cases within : (a.run actions).snapshot.Within config.maxRestoredIndex.toNat
    · exact (wp_applySnapshot_of_within opened actions within).mono (fun _ _ ht => ht.1)
        fun _ _ ht => ht.1
    · exact (wp_applySnapshot_of_not_within opened actions within).mono
        (fun _ _ failed => failed.elim) fun _ _ ht => ht.1
  exact Step.stateAfter_of_wp (P := fun t => t = a.run actions) same

theorem applySnapshot_eq_ok_iff :
    applySnapshot (a.run actions).snapshot (a.run actions) = .ok () (a.run actions) ↔
      (a.run actions).snapshot.Within config.maxRestoredIndex.toNat ∧
        (a.run actions).keychain.Adequate := by
  by_cases within : (a.run actions).snapshot.Within config.maxRestoredIndex.toNat
  · have spec := wp_applySnapshot_of_within opened actions within
    rw [and_iff_right within]
    refine ⟨fun accepted => (spec.of_ok accepted).2, fun adequate => ?_⟩
    obtain ⟨_, _, accepted, rfl⟩ := (spec.mono (fun _ _ ht => ht.1)
      fun _ _ ht => ht.2.1 adequate).exists_ok
    exact accepted
  · obtain ⟨_, _, refused, -⟩ :=
      (wp_applySnapshot_of_not_within opened actions within).exists_error
    rw [refused]
    exact ⟨nofun, fun h => absurd h.1 within⟩

end Own

/-- Laid over itself, an account stays as it is, whatever the answer. Its own snapshot is accepted
just if no index is above the bound and the gap rule is kept, as it is while everything
succeeds; else it is refused for such an index, or for a slot that cannot be derived. Once a
snapshot was applied, only the bound can refuse the one that is made next. -/
theorem reload_own_snapshot {config : Config} {source : KeySource} {a : Account}
    (opened : ofConfig config source = .ok a) (actions : List Action) :
    let b := a.run actions
    let limit := config.maxRestoredIndex.toNat
    (applySnapshot b.snapshot).stateAfter b = b ∧
    (applySnapshot b.snapshot b = .ok () b ↔ b.snapshot.Within limit ∧ b.keychain.Adequate) ∧
    (¬b.snapshot.Within limit → ∃ branch index,
      applySnapshot b.snapshot b = .error (.indexOutOfRange branch index limit) b) ∧
    (b.snapshot.Within limit → ¬b.keychain.Adequate → ∃ branch e,
      b.keychain.Blocked branch e ∧ applySnapshot b.snapshot b = .error e b) ∧
    (a.succeeds actions → b.keychain.Adequate) ∧
    ∀ s c, applySnapshot s b = .ok () c →
      (applySnapshot c.snapshot).stateAfter c = c ∧
      (applySnapshot c.snapshot c = .ok () c ↔ c.snapshot.Within limit) := by
  intro b limit
  refine ⟨stateAfter_applySnapshot opened actions, applySnapshot_eq_ok_iff opened actions, ?_, ?_,
    adequate_run opened, ?_⟩
  · intro beyond
    obtain ⟨_, _, refused, rfl, branch, index, rfl⟩ :=
      (wp_applySnapshot_of_not_within opened actions beyond).exists_error
    exact ⟨branch, index, refused⟩
  · intro within short
    obtain ⟨e, _, refused, rfl, -, branch, blocked⟩ :=
      ((wp_applySnapshot_of_within opened actions within).mono (fun _ _ ht => short ht.2)
        fun _ _ ht => ht).exists_error
    exact ⟨branch, e, blocked, refused⟩
  · intro s c applied
    have reached : a.run (actions ++ [.applySnapshot s]) = c := by
      rw [run_append]
      exact Step.stateAfter_of_ok applied
    have adequate := adequate_of_applySnapshot applied
    rw [← reached] at adequate ⊢
    refine ⟨stateAfter_applySnapshot opened _, ?_⟩
    rw [applySnapshot_eq_ok_iff opened, and_iff_left adequate]

/-- An account reloads what it saved after a marking. A snapshot that uses the last index within
the bound makes the gap rule go beyond it. -/
theorem reload_own_within_bound :
    let config : Config := { receivingGapLimit := 2, changeGapLimit := 1, maxRestoredIndex := 2 }
    let actions : List Action := [.markUsed ⟨"receiving-1"⟩]
    let s : Snapshot :=
      { version := 1, receiving := [⟨2, true, .unknown⟩], change := [], coins := [] }
    ∃ a c, ofConfig config (.numbered ∅ true) = .ok a ∧ a.succeeds actions ∧
      applySnapshot (a.run actions).snapshot (a.run actions) = .ok () (a.run actions) ∧
      applySnapshot s (a.run actions) = .ok () c ∧ ¬c.snapshot.Within 2 ∧
      applySnapshot c.snapshot c ≠ .ok () c := by
  intro config actions s
  have answer : (ofConfig config (.numbered ∅ true)).toOption.any fun a => a.succeeds actions &&
      decide ((a.run actions).snapshot.Within 2) &&
        match applySnapshot s (a.run actions) with
        | .ok _ c => decide ¬c.snapshot.Within 2
        | .error _ _ => false := by
    decide +kernel
  obtain ⟨a, opened, facts⟩ := Step.exists_ok_of_any answer
  obtain ⟨facts, beyond⟩ := Bool.and_eq_true_iff.mp facts
  obtain ⟨succeeds, within⟩ := Bool.and_eq_true_iff.mp facts
  obtain ⟨-, accepted, -, -, adequate, after⟩ := reload_own_snapshot opened actions
  split at beyond
  next c applied =>
      have beyond := of_decide_eq_true beyond
      obtain ⟨-, again⟩ := after s c applied
      exact ⟨a, c, opened, succeeds, accepted.mpr ⟨of_decide_eq_true within, adequate succeeds⟩,
        applied, beyond, fun reloaded => beyond (again.mp reloaded)⟩
  next => cases beyond

/-- The own snapshot of an account is refused after a snapshot that was accepted, because of the
bound, and after a marking that failed, because of the source. -/
theorem own_snapshot_refused :
    (let config : Config := { receivingGapLimit := 2, changeGapLimit := 1, maxRestoredIndex := 1 }
    let s : Snapshot :=
      { version := 1, receiving := [⟨1, true, .unknown⟩], change := [], coins := [] }
    ∃ a c, ofConfig config (.numbered ∅ true) = .ok a ∧ applySnapshot s a = .ok () c ∧
      (applySnapshot c.snapshot).answer c = .error (.indexOutOfRange .receiving 2 1)) ∧
    (let config : Config := { receivingGapLimit := 2, changeGapLimit := 1 }
    let failing : KeySource.Override := { failure := some "no key" }
    ∃ a, ofConfig config (.numbered (.ofList [("receiving/2", failing)]) true) = .ok a ∧
      let b := a.run [.markUsed ⟨"receiving-1"⟩]
      (applySnapshot b.snapshot).answer b = .error (.derivation "no key")) := by
  constructor
  · intro config s
    have answer : (ofConfig config (.numbered ∅ true)).toOption.any fun a =>
        match applySnapshot s a with
        | .ok _ c =>
          (applySnapshot c.snapshot).answer c = .error (.indexOutOfRange .receiving 2 1)
        | .error _ _ => false := by
      decide +kernel
    obtain ⟨a, opened, refused⟩ := Step.exists_ok_of_any answer
    split at refused
    next c applied => exact ⟨a, c, opened, applied, of_decide_eq_true refused⟩
    next => cases refused
  · intro config failing
    have answer : (ofConfig config
        (.numbered (.ofList [("receiving/2", failing)]) true)).toOption.any fun a =>
          let b := a.run [.markUsed ⟨"receiving-1"⟩]
          (applySnapshot b.snapshot).answer b = .error (.derivation "no key") := by
      decide +kernel
    obtain ⟨a, opened, refused⟩ := Step.exists_ok_of_any answer
    exact ⟨a, opened, of_decide_eq_true refused⟩

end Account

end HdWallet
