import HdWallet.Proofs.Keychain.Reload
import HdWallet.Proofs.Snapshot.Apply

/-!
# Snapshots that are not applied

The version and the highest indices of a snapshot are checked first, and a snapshot that is refused
changes nothing. Then the receiving branch is restored and after it the change branch. Each may
halt at a slot that cannot be derived, before or after the saved slots were laid over its chain,
and nothing is taken back. So a snapshot that is not applied for that reason has changed the
branches that were laid over, in so far as it does not agree with them. The ledger, which comes
last, and the reservations are as they were.
-/

namespace HdWallet.Snapshot

variable {s : Snapshot} {e : Failure} {before after keys : Keychain} {branch : Branch}
  {laid : List Branch}

/-- The checks that come first refuse the snapshot. -/
def Refuses (s : Snapshot) (keys : Keychain) (e : Failure) : Prop :=
  s.validate = .error e ∨ ∃ branch, s.checkIndex keys.maxRestoredIndex branch = .error e

/-- What a snapshot leaves of the addresses when a branch halts: the branches up to some point were
laid over, and the others have grown by unused slots. -/
structure Interrupted (s : Snapshot) (e : Failure) (laid : List Branch)
    (before after : Keychain) : Prop extends Keychain.Follows before after where
  order : laid <+: [.receiving, .change]
  overlaid : ∀ branch ∈ laid,
    (before.chain branch).Overlaid (s.slots branch) (after.chain branch)
  extended : ∀ branch, branch ∉ laid → (before.chain branch).Extends (after.chain branch)
  halted : ∃ branch, (e = .branchExhausted branch ∨ after.Blocked branch e) ∧
    if branch ∈ laid then (after.chain branch).size < (after.chain branch).requiredSize
    else ∃ saved ∈ s.slots branch, (after.chain branch).size ≤ saved.index.toNat

/-- An interrupted snapshot has done no more than growing the chains just if it agrees with the
branches that were laid over. -/
theorem Interrupted.extends_iff (h : s.Interrupted e laid before after) (sound : before.Sound) :
    (∀ branch, (before.chain branch).Extends (after.chain branch)) ↔
      ∀ branch ∈ laid, (before.chain branch).Agrees (s.slots branch) := by
  have kin := h.kin sound
  have agrees_iff {branch : Branch} (listed : branch ∈ laid) :
      (before.chain branch).Extends (after.chain branch) ↔
        (before.chain branch).Agrees (s.slots branch) :=
    (h.overlaid branch listed).extends_iff (sound.chains branch) (h.chains branch)
      (kin.chain_account_eq branch) (kin.chain_branch_eq branch)
      (h.settings.gapLimit_eq branch) (h.settings.cacheLifetime_eq branch)
  constructor
  · exact fun all branch listed => (agrees_iff listed).mp (all branch)
  · intro agrees branch
    by_cases listed : branch ∈ laid
    · exact (agrees_iff listed).mpr (agrees branch listed)
    · exact h.extended branch listed

theorem Halts.of_chain_eq {mid : Keychain} (h : s.Halts branch e mid after)
    (same : mid.chain branch = before.chain branch) : s.Halts branch e before after := by
  cases h with
  | lacking extended missing stuck => exact .lacking (same ▸ extended) missing stuck
  | short overlaid short blocked => exact .short (same ▸ overlaid) short blocked

/-- A branch halts when those before it have been restored and those after it are untouched. -/
theorem Halts.interrupted (h : s.Halts branch e before after) (done : List Branch)
    (order : done ++ [branch] <+: [.receiving, .change]) (follows : before.Follows after)
    (overlaid : ∀ branch ∈ done,
      (before.chain branch).Overlaid (s.slots branch) (after.chain branch))
    (untouched : ∀ side, side ∉ done → side ≠ branch → after.chain side = before.chain side) :
    ∃ laid, s.Interrupted e laid before after := by
  cases h with
  | lacking extended missing stuck =>
      have unlisted : branch ∉ done := by
        have once : (done ++ [branch]).Nodup := order.sublist.nodup (by decide)
        obtain ⟨-, -, apart⟩ := List.nodup_append.mp once
        exact fun listed => apart branch listed branch (List.mem_singleton.mpr rfl) rfl
      refine ⟨done, follows, (List.prefix_append _ _).trans order, overlaid, ?_, branch, stuck, ?_⟩
      · intro side later
        obtain rfl | other := eq_or_ne side branch
        · exact extended
        · exact untouched side later other ▸ .refl _
      · rwa [if_neg unlisted]
  | short laidOver short blocked =>
      refine ⟨done ++ [branch], follows, order, ?_, ?_, branch, .inr blocked, ?_⟩
      · intro side listed
        obtain earlier | here := List.mem_append.mp listed
        · exact overlaid side earlier
        · exact List.mem_singleton.mp here ▸ laidOver
      · intro side later
        obtain ⟨unlisted, other⟩ := not_or.mp (mt List.mem_append.mpr later)
        exact untouched side unlisted (mt List.mem_singleton.mpr other) ▸ .refl _
      · rwa [if_pos (List.mem_append_right _ (List.mem_singleton.mpr rfl))]

/-- The branches are restored one after the other, or the snapshot is interrupted. -/
theorem wp_applyBranches_or_interrupted (s : Snapshot) (sound : keys.Sound) :
    (s.applyBranch .receiving).wp
      (fun _ first => (s.applyBranch .change).wp (fun _ _ => True)
        (fun e t => ∃ laid, s.Interrupted e laid keys t) first)
      (fun e t => ∃ laid, s.Interrupted e laid keys t) keys := by
  have follows := Keychain.restoring_follows keys
  have start : keys.Follows keys := ⟨sound, .refl _⟩
  apply ((wp_applyBranch_or_halts s .receiving keys).and
    (follows.keeps_applyBranch s .receiving _ start)).mono
  · rintro _ first ⟨⟨frame, restored, -⟩, hfirst⟩
    have kept : first.chain .change = keys.chain .change :=
      (Keychain.chain_other_of_eq_setChain frame :)
    apply ((wp_applyBranch_or_halts s .change first).and
      (follows.keeps_applyBranch s .change _ hfirst)).mono fun _ _ _ => trivial
    rintro e t ⟨⟨frame', halts⟩, ht⟩
    have same : t.chain .receiving = first.chain .receiving :=
      (Keychain.chain_other_of_eq_setChain frame' :)
    refine (halts.of_chain_eq kept).interrupted [.receiving] List.prefix_rfl ht ?_ ?_
    · intro branch listed
      obtain rfl := List.mem_singleton.mp listed
      exact same ▸ restored
    · rintro (_ | _) unlisted other
      · exact absurd (List.mem_singleton.mpr rfl) unlisted
      · exact absurd rfl other
  · rintro e t ⟨⟨frame, halts⟩, ht⟩
    refine halts.interrupted [] ⟨[.change], rfl⟩ ht nofun ?_
    rintro (_ | _) - other
    · exact absurd rfl other
    · exact (Keychain.chain_other_of_eq_setChain frame :)

/-- A snapshot is refused, or interrupted, or applied. -/
theorem wp_apply_or_interrupted (s : Snapshot) {h : Holdings} (sound : h.keychain.Sound) :
    s.apply.wp (fun _ _ => True)
      (fun e t => t = { h with keychain := t.keychain } ∧
        (s.Refuses h.keychain e ∧ t.keychain = h.keychain ∨
          ∃ laid, s.Interrupted e laid h.keychain t.keychain)) h := by
  simp only [apply, Holdings.onKeychain, Step.wp_bind, Step.wp_get, Step.wp_onPart,
    Step.wp_modify, Step.wp_ofExcept]
  refine ⟨fun _ _ => ⟨fun _ _ => ⟨fun _ _ => ?_, fun e refused => ?_⟩, fun e refused => ?_⟩,
    fun e refused => ?_⟩
  · apply (wp_applyBranches_or_interrupted s sound).mono
    · intro _ first rest
      exact rest.mono (fun _ _ _ => trivial) fun _ _ interrupted => ⟨trivial, .inr interrupted⟩
    · exact fun _ _ interrupted => ⟨trivial, .inr interrupted⟩
  · exact ⟨trivial, .inl ⟨.inr ⟨_, refused⟩, trivial⟩⟩
  · exact ⟨trivial, .inl ⟨.inr ⟨_, refused⟩, trivial⟩⟩
  · exact ⟨trivial, .inl ⟨.inl refused, trivial⟩⟩

/-- From every state, a snapshot that is not applied leaves the ledger and the reservations as they
are. It was refused, and then nothing has changed, or it was interrupted. Then the chains have
only grown by unused slots just if the snapshot agrees with every branch that was laid over. -/
theorem apply_refused_or_interrupted {config : Config} {source : KeySource} {a : Account}
    (opened : Account.ofConfig config source = .ok a) (actions : List Account.Action)
    (operations : List Keychain.Operation) {h t : Holdings}
    (reached : h.keychain = ((a.run actions).holdings.after operations).keychain)
    (failed : s.apply h = .error e t) :
    t.ledger = h.ledger ∧ t.reservations = h.reservations ∧
    (s.Refuses h.keychain e ∧ t = h ∨
      ∃ laid, s.Interrupted e laid h.keychain t.keychain ∧
        ((∀ branch, (h.keychain.chain branch).Extends (t.keychain.chain branch)) ↔
          ∀ branch ∈ laid, (h.keychain.chain branch).Agrees (s.slots branch))) := by
  have sound : h.keychain.Sound := by
    rw [reached]
    exact Keychain.enduring_sound.keeps_after (Account.sound_run opened actions) operations
  obtain ⟨frame, cause⟩ := (wp_apply_or_interrupted s sound).of_error failed
  refine ⟨by rw [frame], by rw [frame], ?_⟩
  obtain ⟨refused, same⟩ | ⟨laid, interrupted⟩ := cause
  · rw [same] at frame
    exact .inl ⟨refused, frame⟩
  · exact .inr ⟨laid, interrupted, interrupted.extends_iff sound⟩

/-- The source fails at the second change address, which the snapshot refers to. -/
theorem interrupted_of_failing_source :
    let config : Config := { receivingGapLimit := 1, changeGapLimit := 1 }
    let fails : KeySource.Override := { failure := some "no key" }
    let source := KeySource.numbered (.ofList [("change/1", fails)]) true
    let s : Snapshot :=
      { version := 1, receiving := [⟨0, true, .unknown⟩], change := [⟨1, true, .unknown⟩],
        coins := [] }
    ∃ a e t, Account.ofConfig config source = .ok a ∧
      s.apply (a.run []).holdings = .error e t ∧
      ∃ laid, s.Interrupted e laid (a.run []).keychain t.keychain := by
  intro config fails source s
  have answer : (Account.ofConfig config source).toOption.any fun a =>
      match s.apply (a.run []).holdings with
      | .ok _ _ => false
      | .error _ t => t.keychain.receiving.highestUsed ≠ (a.run []).keychain.receiving.highestUsed
      := by
    decide +kernel
  obtain ⟨a, opened, facts⟩ := Step.exists_ok_of_any answer
  split at facts
  next => cases facts
  next e t failed =>
      have changed := of_decide_eq_true facts
      obtain ⟨-, -, ⟨-, same⟩ | ⟨laid, interrupted, -⟩⟩ :=
        apply_refused_or_interrupted opened [] [] rfl failed
      · exact absurd (congrArg (·.keychain.receiving.highestUsed) same) changed
      · exact ⟨a, e, t, opened, failed, laid, interrupted⟩

/-- The change branch cannot be restored, and the receiving branch keeps the mark that was laid
over it. -/
theorem mark_left_when_not_applied :
    let config : Config := { receivingGapLimit := 1, changeGapLimit := 1 }
    let fails : KeySource.Override := { failure := some "no key" }
    let source := KeySource.numbered (.ofList [("change/1", fails)]) true
    let s : Snapshot :=
      { version := 1, receiving := [⟨0, true, .fresh 7 9⟩], change := [⟨1, true, .unknown⟩],
        coins := [] }
    let first (h : Holdings) : Option (Bool × Reading) :=
      (h.keychain.receiving.slot? 0).map fun slot => (slot.used, slot.cache.reading)
    ∃ a e t, Account.ofConfig config source = .ok a ∧ s.apply a.holdings = .error e t ∧
      first a.holdings = some (false, .unknown) ∧
      a.holdings.keychain.receiving.highestUsed = none ∧
      first t = some (true, .fresh 7 9) ∧ t.keychain.receiving.highestUsed = some 0 := by
  intro config fails source s first
  have answer : (Account.ofConfig config source).toOption.any fun a =>
      match s.apply a.holdings with
      | .ok _ _ => false
      | .error _ t =>
        first a.holdings = some (false, .unknown) ∧
          a.holdings.keychain.receiving.highestUsed = none ∧
          first t = some (true, .fresh 7 9) ∧ t.keychain.receiving.highestUsed = some 0 := by
    decide +kernel
  obtain ⟨a, opened, facts⟩ := Step.exists_ok_of_any answer
  split at facts
  next => cases facts
  next e t failed => exact ⟨a, e, t, opened, failed, of_decide_eq_true facts⟩

end HdWallet.Snapshot
