import HdWallet.Proofs.Chain.Overlay
import HdWallet.Proofs.Keychain.Growth

/-!
# What changes of a keychain keep when a snapshot is restored

Restoring grows the chains, marks slots or clears their marks, and sets what is known about
balances. Together with the gap limits and the lifetime of balances these are all changes
that a keychain ever undergoes, so a property that survives each of them survives every
operation. Saved slots are laid over a chain one after another, which leaves each slot with
what the last mention of its index says.
-/

namespace HdWallet

namespace Snapshot

variable {s : Snapshot} {branch : Branch}

theorem index_le_of_highestIndex {highest : Nat} (h : s.highestIndex branch = some highest)
    {saved : SavedSlot} (listed : saved ∈ s.slots branch) : saved.index.toNat ≤ highest :=
  (List.max?_eq_some_iff.mp h).2 _ (List.mem_map_of_mem listed)

theorem slots_eq_nil_of_highestIndex (h : s.highestIndex branch = none) : s.slots branch = [] := by
  rwa [highestIndex, List.max?_eq_none_iff, List.map_eq_nil_iff] at h

theorem checkIndex_eq_ok_iff {limit : Nat} :
    s.checkIndex limit branch = .ok () ↔ ∀ saved ∈ s.slots branch, saved.index.toNat ≤ limit := by
  rw [checkIndex]
  cases highest : s.highestIndex branch with
  | none =>
      rw [slots_eq_nil_of_highestIndex highest]
      exact ⟨fun _ _ listed => absurd listed List.not_mem_nil, fun _ => rfl⟩
  | some index =>
      obtain ⟨saved, listed, rfl⟩ := List.mem_map.mp (List.max?_mem highest)
      dsimp only
      split
      next beyond =>
          refine ⟨fun refused => ?_, fun allowed => ?_⟩
          · cases refused
          · exact absurd (allowed saved listed) (Nat.not_le_of_lt beyond)
      next allowed =>
          refine ⟨fun _ other there => ?_, fun _ => rfl⟩
          exact (index_le_of_highestIndex highest there).trans (Nat.le_of_not_lt allowed)

end Snapshot

namespace Keychain

variable {keys : Keychain} {branch : Branch}

/-- A property that growth and all that restoring does to slots keep. -/
structure Restoring (P : Keychain → Prop) : Prop extends Marking P where
  unmark : ∀ {keys branch index cleared}, (keys.chain branch).setUsed index false = .ok cleared →
    P keys → P (setChain branch cleared keys)
  modifyCache : ∀ {keys branch} (index : Nat) {f : CachedBalance → CachedBalance},
    (∀ c, (f c).lifetime = c.lifetime) → P keys →
    P (setChain branch ((keys.chain branch).modifyCache index f) keys)

namespace Restoring

variable {P : Keychain → Prop} (restoring : Restoring P)
include restoring

theorem keeps_modifyCache {f : CachedBalance → CachedBalance}
    (lifetime : ∀ c, (f c).lifetime = c.lifetime) (hk : P keys) (address : Address) :
    P (keys.modifyCache address f).1 := by
  obtain same | ⟨branch, index, changed⟩ := keys.modifyCache_cases address f
  · rwa [same]
  · rw [changed]
    exact restoring.modifyCache index lifetime hk

theorem setUsed {chain other : Chain} {index : Nat} {used : Bool}
    (hset : chain.setUsed index used = .ok other) (h : P (setChain branch chain keys)) :
    P (setChain branch other keys) := by
  cases used with
  | false =>
      have cleared := @Restoring.unmark P restoring (setChain branch chain keys) branch index other
      simp only [chain_setChain, setChain_setChain] at cleared
      exact cleared hset h
  | true =>
      rw [Chain.setUsed, if_pos rfl] at hset
      cases marking : chain.markUsed index with
      | error e =>
          rw [marking] at hset
          cases hset
      | ok answer =>
          obtain ⟨marked, isNew⟩ := answer
          rw [marking] at hset
          cases hset
          cases isNew with
          | false => exact Chain.markUsed_eq_ok_false marking ▸ h
          | true =>
              have kept := @Marking.mark P restoring.toMarking (setChain branch chain keys) branch
                index marked
              simp only [chain_setChain, setChain_setChain] at kept
              exact kept marking h

theorem wp_overlay (saved : List SavedSlot) (chain : Chain) (h : P (setChain branch chain keys)) :
    (Snapshot.overlay saved).wp (fun _ t => P (setChain branch t keys))
      (fun _ t => P (setChain branch t keys)) chain := by
  induction saved generalizing chain with
  | nil => exact h
  | cons first rest ih =>
      rw [Chain.wp_overlay_cons]
      split
      next other hset =>
          apply ih
          have restored := @Restoring.modifyCache P restoring (setChain branch other keys) branch
            first.index.toNat ({ · with reading := first.reading }) (fun _ => rfl)
          simp only [chain_setChain, setChain_setChain] at restored
          exact restored (restoring.setUsed hset h)
      next => exact h

/-- A branch is restored in three parts: its chain grows until it has every slot that was saved,
which may stop, the saved slots are laid over it, and it is grown to what the gap rule asks
for. -/
theorem wp_applyBranch {Q : Keychain → Prop} {E : Failure → Keychain → Prop} {s : Snapshot}
    (hk : P keys) (stopped : ∀ e grown, keys.Grows branch grown → P grown →
      (∃ saved ∈ s.slots branch, (grown.chain branch).size ≤ saved.index.toNat) →
      (e = .branchExhausted branch ∨ grown.Blocked branch e) → E e grown)
    (laid : ∀ grown chain, keys.Grows branch grown → P grown →
      (∀ saved ∈ s.slots branch, saved.index.toNat < (grown.chain branch).size) →
      (∀ j, chain.slot? j = ((grown.chain branch).slot? j).map
        (·.restored (SavedSlot.lastOf (s.slots branch) j))) →
      P (setChain branch chain grown) →
      (maintain branch).wp (fun _ => Q) E (setChain branch chain grown)) :
    (s.applyBranch branch).wp (fun _ => Q) E keys := by
  have laying (grown : Keychain) (grows : keys.Grows branch grown) (hp : P grown)
      (inside : ∀ saved ∈ s.slots branch, saved.index.toNat < (grown.chain branch).size) :
      Step.wp (do
        onChain branch (Snapshot.overlay (s.slots branch))
        discard (maintain branch)) (fun _ => Q) E grown := by
    have same : setChain branch (grown.chain branch) grown = grown := setChain_chain
    have kept := restoring.wp_overlay (s.slots branch) (grown.chain branch) (same.symm ▸ hp)
    rw [Step.wp_bind, onChain, Step.wp_onPart]
    apply ((Chain.overlay_spec inside).and kept).mono
    · rintro _ chain ⟨restored, hlaid⟩
      rw [Step.wp_discard]
      exact laid grown chain grows hp inside restored hlaid
    · exact fun _ _ failed => failed.1.elim
  rw [Snapshot.applyBranch]
  cases highest : s.highestIndex branch with
  | none =>
      apply laying keys (.refl branch keys) hk
      rw [Snapshot.slots_eq_nil_of_highestIndex highest]
      exact fun _ listed => absurd listed List.not_mem_nil
  | some last =>
      dsimp only
      rw [Step.wp_bind, Step.wp_discard]
      have kept := restoring.toGrowth.keeps_ensure branch (last + 1) keys hk
      apply ((ensure_spec branch (last + 1) keys).and kept).mono
      · rintro _ grown ⟨⟨grows, hsize⟩, hp⟩
        apply laying grown grows hp
        intro saved listed
        have := Snapshot.index_le_of_highestIndex highest listed
        omega
      · rintro e grown ⟨⟨grows, hsize, cause⟩, hp⟩
        obtain ⟨saved, listed, rfl⟩ := List.mem_map.mp (List.max?_mem highest)
        have := grows.extended.size_le
        exact stopped e grown grows hp ⟨saved, listed, by omega⟩ (cause.imp_left And.left)

theorem keeps_applyBranch (snapshot : Snapshot) (branch : Branch) :
    (snapshot.applyBranch branch).Keeps P := fun _ hk =>
  restoring.wp_applyBranch hk (fun _ _ _ hp _ _ => hp) fun _ _ _ _ _ _ hp =>
    restoring.toGrowth.keeps_maintain branch _ hp

end Restoring

theorem restoring_true : Restoring fun _ => True where
  push _ _ _ _ := trivial
  mark _ _ := trivial
  unmark _ _ := trivial
  modifyCache _ _ _ _ := trivial

theorem Restoring.and {P Q : Keychain → Prop} (hp : Restoring P) (hq : Restoring Q) :
    Restoring fun keys => P keys ∧ Q keys where
  push next fresh fits h := ⟨hp.push next fresh fits h.1, hq.push next fresh fits h.2⟩
  mark marking h := ⟨hp.mark marking h.1, hq.mark marking h.2⟩
  unmark clearing h := ⟨hp.unmark clearing h.1, hq.unmark clearing h.2⟩
  modifyCache index _ lifetime h :=
    ⟨hp.modifyCache index lifetime h.1, hq.modifyCache index lifetime h.2⟩

/-- A property that all changes of a keychain keep. -/
structure Enduring (P : Keychain → Prop) : Prop extends Invariant P, Restoring P where
  setCacheLifetime : ∀ {keys} (lifetime : UInt64), P keys → P (keys.setCacheLifetime lifetime)

/-- What restoring keeps on each branch, restoring a snapshot keeps. -/
theorem keeps_apply {K E : Keychain → Prop} {snapshot : Snapshot}
    (applyBranch : ∀ branch, (snapshot.applyBranch branch).Keeps K E)
    (weaken : ∀ keys, K keys → E keys) :
    snapshot.apply.Keeps (fun h => K h.keychain) fun h => E h.keychain := by
  have onBranch (branch : Branch) : (Holdings.onKeychain (snapshot.applyBranch branch)).Keeps
      (fun h => K h.keychain) fun h => E h.keychain :=
    Step.keeps_onPart fun h hk => applyBranch branch h.keychain hk
  have weaken (h : Holdings) (hk : K h.keychain) : E h.keychain := weaken h.keychain hk
  exact (Step.keeps_ofExcept _ weaken).bind fun _ => Step.keeps_get.bind fun _ =>
    (Step.keeps_ofExcept _ weaken).bind fun _ => (Step.keeps_ofExcept _ weaken).bind fun _ =>
    (onBranch .receiving).bind fun _ => (onBranch .change).bind fun _ =>
    Step.keeps_modify fun _ hk => hk

/-- No chain ever gets shorter. -/
theorem enduring_size (least : Branch → Nat) :
    Enduring fun keys => ∀ branch, least branch ≤ (keys.chain branch).size := by
  have set {keys : Keychain} {branch : Branch} {chain : Chain}
      (h : ∀ side, least side ≤ (keys.chain side).size)
      (longer : (keys.chain branch).size ≤ chain.size) (side : Branch) :
      least side ≤ ((setChain branch chain keys).chain side).size :=
    forall_chain_setChain (p := fun side c => least side ≤ c.size) ((h branch).trans longer)
      (h _) side
  constructor
  case toInvariant =>
      refine ⟨⟨⟨?_⟩, ?_⟩, ?_⟩
      · intro keys branch slot _ _ _ h
        exact set h (by simp)
      · intro keys branch index marked marking h
        exact set h (by simp [Chain.markUsed_eq_ok marking, Chain.size])
      · exact fun gapLimit h => set h (Nat.le_refl _)
  case unmark =>
      intro keys branch index cleared clearing h
      exact set h (by simp [Chain.unmark_eq_ok clearing, Chain.size])
  case modifyCache =>
      intro keys branch index f _ h
      exact set h (by rw [Chain.size_modifyCache])
  case setCacheLifetime =>
      intro keys lifetime h side
      rw [chain_setCacheLifetime, Chain.size_setCacheLifetime]
      exact h side

/-- The keychain goes by the settings and the source of another. -/
structure SameSettings (model keys : Keychain) : Prop where
  source_eq : keys.source = model.source
  account_eq : keys.account = model.account
  gapLimit_eq : ∀ branch, (keys.chain branch).gapLimit = (model.chain branch).gapLimit
  cacheLifetime_eq : ∀ branch,
    (keys.chain branch).cacheLifetime = (model.chain branch).cacheLifetime

@[simp] theorem account_setChain (chain : Chain) :
    (setChain branch chain keys).account = keys.account := by
  cases branch <;> rfl

@[simp] theorem maxRestoredIndex_setChain (chain : Chain) :
    (setChain branch chain keys).maxRestoredIndex = keys.maxRestoredIndex := by
  cases branch <;> rfl

theorem SameSettings.refl (keys : Keychain) : keys.SameSettings keys :=
  ⟨rfl, rfl, fun _ => rfl, fun _ => rfl⟩

theorem SameSettings.trans {first second : Keychain} (h : first.SameSettings second)
    (h' : second.SameSettings keys) : first.SameSettings keys where
  source_eq := h'.source_eq.trans h.source_eq
  account_eq := h'.account_eq.trans h.account_eq
  gapLimit_eq branch := (h'.gapLimit_eq branch).trans (h.gapLimit_eq branch)
  cacheLifetime_eq branch := (h'.cacheLifetime_eq branch).trans (h.cacheLifetime_eq branch)

theorem SameSettings.setChain {model : Keychain} (h : model.SameSettings keys) {chain : Chain}
    (gapLimit : chain.gapLimit = (model.chain branch).gapLimit)
    (cacheLifetime : chain.cacheLifetime = (keys.chain branch).cacheLifetime) :
    model.SameSettings (setChain branch chain keys) where
  source_eq := by rw [source_setChain, h.source_eq]
  account_eq := by rw [account_setChain, h.account_eq]
  gapLimit_eq := forall_chain_setChain (p := fun b c => c.gapLimit = (model.chain b).gapLimit)
    gapLimit (h.gapLimit_eq _)
  cacheLifetime_eq :=
    forall_chain_setChain (p := fun b c => c.cacheLifetime = (model.chain b).cacheLifetime)
      (cacheLifetime.trans (h.cacheLifetime_eq branch)) (h.cacheLifetime_eq _)

theorem restoring_sameSettings (model : Keychain) : Restoring model.SameSettings where
  push _ _ _ h := h.setChain (h.gapLimit_eq _) rfl
  mark marking h := by
    rw [Chain.markUsed_eq_ok marking]
    exact h.setChain (h.gapLimit_eq _) rfl
  unmark clearing h := by
    rw [Chain.unmark_eq_ok clearing]
    exact h.setChain (h.gapLimit_eq _) rfl
  modifyCache _ _ _ h := h.setChain (h.gapLimit_eq _) rfl

theorem sameSettings_of_ofConfig {config : Config} {source : KeySource}
    (opened : ofConfig config source = .ok keys) : (blank config source).SameSettings keys :=
  (restoring_sameSettings _).toGrowth.of_ofConfig (.refl _) opened

/-- The source and the account are never exchanged. -/
theorem enduring_origin (source : KeySource) (account : AccountPath) :
    Enduring fun keys => keys.source = source ∧ keys.account = account where
  push {_ _ _} _ _ _ h := by rwa [source_setChain, account_setChain]
  mark {_ _ _ _} _ h := by rwa [source_setChain, account_setChain]
  setGapLimit {_ _} _ h := by rwa [source_setChain, account_setChain]
  unmark {_ _ _ _} _ h := by rwa [source_setChain, account_setChain]
  modifyCache {_ _} _ _ _ h := by rwa [source_setChain, account_setChain]
  setCacheLifetime _ h := h

theorem keeps_applyBranch_adequate (snapshot : Snapshot) (branch : Branch) :
    (snapshot.applyBranch branch).Keeps Adequate fun _ => True := fun _ hk =>
  restoring_true.wp_applyBranch trivial (fun _ _ _ _ _ _ => trivial) fun _ chain grows _ _ _ _ =>
    (hk.of_grows grows).maintain_setChain chain

end Keychain

end HdWallet
