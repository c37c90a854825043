import HdWallet.Proofs.Chain.Overlay
import HdWallet.Proofs.Keychain.Sound

/-!
# Deriving again what a snapshot was made of

A snapshot saves no addresses, so restoring it derives them anew. On a keychain with the
same source and settings that is no longer than the one saved, this never fails: each slot
that is missing has an address of the saved keychain, and those are all different. Then what
was saved is laid over slots with the same addresses, and as the saved keychain was as long
as the gap rule asks for, nothing is left to derive.
-/

namespace HdWallet.Keychain

/-- A sound keychain that goes by the settings and the source of a model. -/
structure Follows (model keys : Keychain) : Prop where
  sound : keys.Sound
  settings : model.SameSettings keys

theorem restoring_follows (model : Keychain) : Restoring model.Follows := by
  have both := enduring_sound.toRestoring.and (restoring_sameSettings model)
  have same : model.Follows = fun keys => keys.Sound ∧ model.SameSettings keys := by
    funext keys
    exact propext ⟨fun h => ⟨h.sound, h.settings⟩, fun h => ⟨h.1, h.2⟩⟩
  rwa [same]

namespace Follows

variable {model keys : Keychain} {branch : Branch} (hm : model.Sound) (h : model.Follows keys)
include h

theorem chains (side : Branch) : (keys.chain side).Sound model.source :=
  h.settings.source_eq ▸ h.sound.chains side

/-- Keychains that go by one model are of one account. -/
theorem kin_of {other : Keychain} (h' : model.Follows other) : keys.Kin other :=
  ⟨h.sound, h'.sound, h'.settings.source_eq.trans h.settings.source_eq.symm,
    h'.settings.account_eq.trans h.settings.account_eq.symm⟩

include hm

theorem kin : model.Kin keys := ⟨hm, h.sound, h.settings.source_eq, h.settings.account_eq⟩

/-- A branch that is no longer than the model's can grow to its length. -/
theorem wp_ensure (shorter : ∀ side, (keys.chain side).size ≤ (model.chain side).size) :
    (ensure branch (model.chain branch).size).wp
      (fun _ t => model.Follows t ∧ (t.chain branch).size = (model.chain branch).size ∧
        t.chain branch.other = keys.chain branch.other)
      (fun _ _ => False) keys := by
  have kept := (restoring_follows model).toGrowth.keeps_ensure branch
    (model.chain branch).size keys h
  apply ((ensure_spec branch _ keys).and kept).mono
  · rintro _ t ⟨⟨grows, hsize⟩, follows⟩
    exact ⟨follows, hsize.trans (Nat.max_eq_right (shorter branch)), grows.chain_other⟩
  · rintro e t ⟨⟨grows, hsize, why⟩, follows⟩
    rw [Nat.max_eq_right (shorter branch)] at hsize
    obtain ⟨-, many⟩ | blocked := why
    · have := (hm.chains branch).size_le
      have : lastNormalIndex + 1 < UInt32.size := by decide
      omega
    · exact (follows.kin hm).not_blocked hsize (grows.chain_other ▸ shorter _) e blocked

/-- What was saved of the model's branch gives the model's slots, and nothing is left to
derive. -/
theorem wp_overlay (adequate : model.Adequate)
    (full : (keys.chain branch).size = (model.chain branch).size) :
    Step.wp (do
        onChain branch (Snapshot.overlay (Snapshot.ofChain (model.chain branch)))
        discard (maintain branch))
      (fun _ t => model.Follows t ∧ (t.chain branch).slots = (model.chain branch).slots ∧
        t.chain branch.other = keys.chain branch.other)
      (fun _ _ => False) keys := by
  have inside : ∀ saved ∈ Snapshot.ofChain (model.chain branch),
      saved.index.toNat < (keys.chain branch).size := fun saved listed =>
    full ▸ Chain.lt_size_of_mem_ofChain (hm.chains branch) listed
  have same : setChain branch (keys.chain branch) keys = keys := setChain_chain
  have kept := (restoring_follows model).wp_overlay (Snapshot.ofChain (model.chain branch))
    (keys.chain branch) (same.symm ▸ h)
  rw [Step.wp_bind, onChain, Step.wp_onPart]
  apply ((Chain.overlay_spec inside).and kept).mono
  · rintro _ laid ⟨restored, follows⟩
    have lifetime : (keys.chain branch).cacheLifetime = (model.chain branch).cacheLifetime :=
      h.settings.cacheLifetime_eq branch
    have slots := Chain.slots_eq_of_restored (hm.chains branch) (h.chains branch)
      ((h.kin hm).chain_account_eq branch) ((h.kin hm).chain_branch_eq branch) lifetime full
      restored
    have sound := follows.chains branch
    have gapLimit := follows.settings.gapLimit_eq branch
    rw [chain_setChain] at sound gapLimit
    have enough : laid.requiredSize ≤ laid.size := by
      rw [Chain.requiredSize, Chain.size, slots, gapLimit,
        (hm.chains branch).highestUsed_eq_of_slots_eq sound slots]
      exact adequate branch
    rw [Step.wp_discard]
    apply (maintain_of_requiredSize_le (by rwa [chain_setChain])).mono _ fun _ _ ht => ht
    rintro _ t rfl
    refine ⟨follows, ?_, chain_other_setChain _⟩
    rw [chain_setChain, slots]
  · exact fun _ _ failed => failed.1

/-- Restoring a branch of the model gives its slots. -/
theorem wp_applyBranch (adequate : model.Adequate)
    (shorter : ∀ side, (keys.chain side).size ≤ (model.chain side).size) {snapshot : Snapshot}
    (saved : snapshot.slots branch = Snapshot.ofChain (model.chain branch)) :
    (snapshot.applyBranch branch).wp
      (fun _ t => model.Follows t ∧ (t.chain branch).slots = (model.chain branch).slots ∧
        t.chain branch.other = keys.chain branch.other)
      (fun _ _ => False) keys := by
  rw [Snapshot.applyBranch, Chain.highestIndex_eq (hm.chains branch) saved, saved]
  by_cases empty : (model.chain branch).size = 0
  · rw [if_pos empty]
    exact h.wp_overlay hm adequate (Nat.le_antisymm (shorter branch) (empty ▸ Nat.zero_le _))
  · rw [if_neg empty]
    dsimp only
    rw [Nat.sub_add_cancel (Nat.pos_of_ne_zero empty), Step.wp_bind, Step.wp_discard]
    apply (h.wp_ensure hm shorter).mono _ fun _ _ ht => ht
    rintro _ t ⟨follows, full, other⟩
    rw [← other]
    exact follows.wp_overlay hm adequate full

end Follows

theorem Sound.size_le_of_index_le {keys : Keychain} (h : keys.Sound) {limit : Nat}
    (bounded : ∀ slot ∈ keys.slots, slot.index ≤ limit) (branch : Branch) :
    (keys.chain branch).size ≤ limit + 1 := by
  by_contra beyond
  obtain ⟨slot, hslot⟩ := (keys.chain branch).exists_slot?_of_lt_size (Nat.lt_of_not_le beyond)
  have listed := bounded slot (mem_slots.mpr ⟨branch, _, hslot⟩)
  rw [(h.chains branch).index_eq hslot] at listed
  omega

section New

variable {model keys : Keychain} {config config' : Config} {source : KeySource}
  (settings : (blank config source).SameSettings model)
  (opened : ofConfig config' source = .ok keys)
  (gapLimit : ∀ branch, config'.gapLimit branch = config.gapLimit branch)
include settings opened gapLimit

theorem follows_of_ofConfig (account : config'.accountPath = config.accountPath)
    (cacheLifetime : config'.cacheLifetime = config.cacheLifetime) : model.Follows keys := by
  have fresh := sameSettings_of_ofConfig opened
  refine ⟨sound_of_ofConfig opened, fresh.source_eq.trans settings.source_eq.symm, ?_, ?_, ?_⟩
  · rw [fresh.account_eq, settings.account_eq]
    exact account
  · intro branch
    rw [fresh.gapLimit_eq, settings.gapLimit_eq, gapLimit_blank, gapLimit_blank, gapLimit]
  · intro branch
    rw [fresh.cacheLifetime_eq, settings.cacheLifetime_eq, cacheLifetime_blank,
      cacheLifetime_blank, cacheLifetime]

/-- A new keychain is no longer than one of the same settings that keeps the gap rule. -/
theorem size_le_of_ofConfig (adequate : model.Adequate) (branch : Branch) :
    (keys.chain branch).size ≤ (model.chain branch).size := by
  have fresh := sameSettings_of_ofConfig opened
  obtain ⟨filled, unused⟩ := filled_of_ofConfig opened branch
  have same : (keys.chain branch).gapLimit = (model.chain branch).gapLimit := by
    rw [fresh.gapLimit_eq, settings.gapLimit_eq, gapLimit_blank, gapLimit_blank, gapLimit]
  have required := adequate branch
  rw [Chain.requiredSize] at filled required
  rw [unused, Option.getD_none] at filled
  omega

end New

/-- The highest index that may be restored never changes. -/
theorem enduring_maxRestoredIndex (limit : Nat) :
    Enduring fun keys => keys.maxRestoredIndex = limit where
  push _ _ _ h := by rwa [maxRestoredIndex_setChain]
  mark _ h := by rwa [maxRestoredIndex_setChain]
  setGapLimit _ h := by rwa [maxRestoredIndex_setChain]
  unmark _ h := by rwa [maxRestoredIndex_setChain]
  modifyCache _ _ _ h := by rwa [maxRestoredIndex_setChain]
  setCacheLifetime _ h := h

theorem maxRestoredIndex_of_ofConfig {keys : Keychain} {config : Config} {source : KeySource}
    (opened : ofConfig config source = .ok keys) :
    keys.maxRestoredIndex = config.maxRestoredIndex.toNat :=
  (enduring_maxRestoredIndex _).toGrowth.of_ofConfig rfl opened

end HdWallet.Keychain
