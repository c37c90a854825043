import HdWallet.Proofs.Account.Addresses
import HdWallet.Proofs.Keychain.Stopped

/-!
# Gap limits in the settings and in the keychain

The settings of an account take a new gap limit over once the chain has grown to it, while the
chain goes by the limit from the start. Where the growth stops, the two therefore differ. That
takes a branch that cannot grow, and such a branch never can again, so in every state each branch
has one gap limit in both places, or it has all the addresses that it will ever have.
-/

namespace HdWallet

namespace Keychain

variable {config : Config} {keys t : Keychain} {branch : Branch}

/-- A branch goes by the gap limit in the settings, or it cannot grow. -/
def GoesBy (config : Config) (keys : Keychain) (branch : Branch) : Prop :=
  (keys.chain branch).gapLimit = (config.gapLimit branch).toNat ∨ ∃ e, keys.Blocked branch e

theorem GoesBy.of_kin (h : keys.GoesBy config branch) (kin : t.Kin keys)
    (longer : ∀ side, (keys.chain side).size ≤ (t.chain side).size)
    (same : (t.chain branch).gapLimit = (keys.chain branch).gapLimit) :
    t.GoesBy config branch := by
  obtain limit | ⟨e, blocked⟩ := h
  · exact .inl (same.trans limit)
  · exact .inr ⟨e, kin.blocked longer blocked⟩

/-- A sound keychain whose branches go by the settings where they can grow. -/
structure Guided (config : Config) (keys : Keychain) : Prop extends Sound keys where
  goesBy : ∀ branch, keys.GoesBy config branch

namespace Guided

theorem of_longer (h : keys.Guided config) (sound : t.Sound) (source : t.source = keys.source)
    (account : t.account = keys.account)
    (longer : ∀ side, (keys.chain side).size ≤ (t.chain side).size)
    (same : ∀ side, (t.chain side).gapLimit = (keys.chain side).gapLimit) : t.Guided config :=
  ⟨sound, fun side => (h.goesBy side).of_kin ⟨sound, h.toSound, source.symm, account.symm⟩ longer
    (same side)⟩

theorem setChain (h : keys.Guided config) {chain : Chain}
    (sound : (setChain branch chain keys).Sound) (longer : (keys.chain branch).size ≤ chain.size)
    (same : chain.gapLimit = (keys.chain branch).gapLimit) :
    (Keychain.setChain branch chain keys).Guided config := by
  apply h.of_longer sound (source_setChain _) (account_setChain _)
  case longer =>
      exact forall_chain_setChain (p := fun side c => (keys.chain side).size ≤ c.size) longer
        (Nat.le_refl _)
  case same =>
      exact forall_chain_setChain
        (p := fun side c => c.gapLimit = (keys.chain side).gapLimit) same rfl

/-- The other branch goes by the settings as before when one chain has got another limit. -/
theorem goesBy_other (h : keys.Guided config) {chain : Chain}
    (sound : (Keychain.setChain branch chain keys).Sound)
    (longer : (keys.chain branch).size ≤ chain.size) :
    (Keychain.setChain branch chain keys).GoesBy config branch.other := by
  refine (h.goesBy branch.other).of_kin
    ⟨sound, h.toSound, (source_setChain _).symm, (account_setChain _).symm⟩ ?_ ?_
  · exact forall_chain_setChain (p := fun side c => (keys.chain side).size ≤ c.size) longer
      (Nat.le_refl _)
  · rw [chain_other_setChain]

end Guided

theorem restoring_guided (config : Config) : Restoring (Guided config) where
  push next fresh fits h := h.setChain (h.toSound.push next fresh fits) (by simp) rfl
  mark marking h := by
    have fields := Chain.markUsed_eq_ok marking
    exact h.setChain (enduring_sound.mark marking h.toSound) (by simp [fields, Chain.size])
      (by rw [fields])
  unmark clearing h := by
    have fields := Chain.unmark_eq_ok clearing
    exact h.setChain (enduring_sound.unmark clearing h.toSound) (by simp [fields, Chain.size])
      (by rw [fields])
  modifyCache index _ lifetime h :=
    h.setChain (enduring_sound.modifyCache index lifetime h.toSound) (by simp) rfl

/-- Setting a gap limit fails on a branch that cannot grow. -/
theorem Guided.wp_setGapLimit (h : keys.Guided config) (branch : Branch) (limit : UInt32) :
    (setGapLimit branch limit.toNat).wp (fun _ t => t.Guided (config.withGapLimit branch limit))
      (fun _ t => t.Guided config) keys := by
  have other_eq : (config.withGapLimit branch limit).gapLimit branch.other =
      config.gapLimit branch.other := Config.gapLimit_other_withGapLimit config branch limit
  have kept := enduring_sound.toInvariant.keeps_setGapLimit branch limit.toNat keys h.toSound
  apply ((setGapLimit_spec branch limit.toNat keys).and kept).mono
  · rintro _ t ⟨⟨-, extended, frame, -⟩, sound⟩
    refine ⟨sound, fun side => ?_⟩
    obtain rfl | rfl := side.eq_or_eq_other branch
    · exact .inl (by rw [Config.gapLimit_withGapLimit, extended.gapLimit_eq])
    · have other := h.goesBy_other (frame ▸ sound) extended.size_le
      rw [GoesBy, other_eq]
      rwa [frame]
  · rintro e t ⟨⟨-, rfl⟩ | ⟨-, extended, frame, -, blocked⟩, sound⟩
    · exact h
    · refine ⟨sound, fun side => ?_⟩
      obtain rfl | rfl := side.eq_or_eq_other branch
      · exact .inr ⟨e, blocked⟩
      · have other := h.goesBy_other (frame ▸ sound) extended.size_le
        rwa [frame]

theorem Guided.setCacheLifetime (h : keys.Guided config) (lifetime : UInt64) :
    (keys.setCacheLifetime lifetime).Guided { config with cacheLifetime := lifetime } := by
  have sound := h.toSound.setCacheLifetime lifetime
  have guided : (keys.setCacheLifetime lifetime).Guided config := by
    apply h.of_longer sound rfl rfl
    case longer =>
        intro side
        rw [chain_setCacheLifetime, Chain.size_setCacheLifetime]
    case same =>
        intro side
        rw [chain_setCacheLifetime]
        rfl
  refine ⟨sound, fun side => ?_⟩
  have limit : ({ config with cacheLifetime := lifetime } : Config).gapLimit side =
      config.gapLimit side := by
    cases side <;> rfl
  rw [GoesBy, limit]
  exact guided.goesBy side

end Keychain

namespace Account

variable {config : Config} {source : KeySource} {a : Account}

theorem keychainInvariant_guided : KeychainInvariant Keychain.Guided where
  carried config := (Keychain.restoring_guided config).toMarking.carried
  setGapLimit branch limit hk := hk.wp_setGapLimit branch limit
  setCacheLifetime lifetime hk := hk.setCacheLifetime lifetime
  modifyCache address _ lifetime hk :=
    (Keychain.restoring_guided _).keeps_modifyCache lifetime hk address
  applyBranch config snapshot branch :=
    (Keychain.restoring_guided config).keeps_applyBranch snapshot branch

theorem guided_run (opened : ofConfig config source = .ok a) (actions : List Action) :
    (a.run actions).keychain.Guided (a.run actions).config := by
  obtain ⟨hkeys, same⟩ := keychain_of_ofConfig opened
  have settings := Keychain.sameSettings_of_ofConfig hkeys
  apply keychainInvariant_guided.invariant.run
  rw [same]
  refine ⟨Keychain.sound_of_ofConfig hkeys, fun branch => .inl ?_⟩
  rw [settings.gapLimit_eq, Keychain.gapLimit_blank]

/-- The settings follow the keychain if setting a gap limit succeeds. If it fails they do not,
although the chain goes by the new limit, provided that it is permitted. -/
theorem wp_setGapLimit (b : Account) (branch : Branch) (limit : UInt32) :
    (setGapLimit branch limit).wp
      (fun _ t => t.config = b.config.withGapLimit branch limit ∧
        (t.keychain.stats branch).gapLimit = limit)
      (fun _ t => ¬(1 ≤ limit.toNat ∧ limit.toNat ≤ largestGapLimit) ∧ t = b ∨
        t.config = b.config ∧ (t.keychain.stats branch).gapLimit = limit) b := by
  have stats {keys : Keychain} (same : (keys.chain branch).gapLimit = limit.toNat) :
      (keys.stats branch).gapLimit = limit := by
    rw [Keychain.stats, ChainStats.ofChain, same, UInt32.ofNat_toNat]
  simp only [setGapLimit, onKeychain, onHoldings, Holdings.onKeychain, Step.wp_bind,
    Step.wp_onPart, Step.wp_modify, Step.wp_pure]
  apply (Keychain.setGapLimit_spec branch limit.toNat b.holdings.keychain).mono
  · rintro _ t ⟨-, extended, -⟩
    have same := stats extended.gapLimit_eq
    cases branch <;> exact ⟨rfl, same⟩
  · rintro e t (⟨refused, rfl⟩ | ⟨-, extended, -⟩)
    · exact .inl ⟨refused, rfl⟩
    · exact .inr ⟨trivial, stats extended.gapLimit_eq⟩

/-- What a failed call leaves in every state. A marking that fails for a known address has marked
it, and repeating it changes nothing. Setting a permitted gap limit that fails has set it, and
repeating it takes the growth up again; at the level of the account the settings keep the old
limit meanwhile. Settings and keychain have one limit for each branch that can still grow. -/
theorem failed_growth_run (opened : ofConfig config source = .ok a) :
    (∀ operations, let keys := (a.holdings.after operations).keychain
      (∀ address e t, Keychain.markUsed address keys = .error e t →
        e = .unknownAddress address ∧ keys.find? address = none ∧ t = keys ∨
          ∃ branch index, Keychain.HalfMarked address branch index e keys t) ∧
      ∀ branch limit e t, Keychain.setGapLimit branch limit keys = .error e t →
        ¬(1 ≤ limit ∧ limit ≤ largestGapLimit) ∧ t = keys ∨
          Keychain.HalfSet branch limit e keys t) ∧
    ∀ actions branch, let b := a.run actions
      ((b.keychain.stats branch).gapLimit = b.config.gapLimit branch ∨
        ∃ e, b.keychain.Blocked branch e) ∧
      ∀ limit, (setGapLimit branch limit).wp
        (fun _ t => t.config.gapLimit branch = limit ∧ (t.keychain.stats branch).gapLimit = limit)
        (fun _ t => ¬(1 ≤ limit.toNat ∧ limit.toNat ≤ largestGapLimit) ∧ t = b ∨
          t.config = b.config ∧ (t.keychain.stats branch).gapLimit = limit) b := by
  obtain ⟨hkeys, -⟩ := keychain_of_ofConfig opened
  constructor
  · intro operations keys
    have sound : keys.Sound :=
      Keychain.enduring_sound.keeps_after (Keychain.sound_of_ofConfig hkeys) operations
    constructor
    · exact fun address e t failed => (sound.wp_markUsed_halfMarked address).of_error failed
    · exact fun branch limit e t failed =>
        (Keychain.wp_setGapLimit_halfSet branch limit keys).of_error failed
  · intro actions branch b
    constructor
    · obtain same | blocked := (guided_run opened actions).goesBy branch
      · refine .inl ?_
        rw [Keychain.stats, ChainStats.ofChain, same, UInt32.ofNat_toNat]
      · exact .inr blocked
    · intro limit
      apply (wp_setGapLimit b branch limit).mono _ fun _ _ ht => ht
      rintro _ t ⟨settings, stats⟩
      exact ⟨by rw [settings, Config.gapLimit_withGapLimit], stats⟩

/-- Where the fourth address fails, a marking leaves its slot used, and setting a gap limit leaves
the limit set. -/
theorem failed_growth_of_failing_source :
    let config : Config := { receivingGapLimit := 3, changeGapLimit := 1 }
    let fails : KeySource.Override := { failure := some "no key" }
    let source := KeySource.numbered (.ofList [("receiving/3", fails)]) true
    let address : Address := ⟨"receiving-2"⟩
    ∃ a, ofConfig config source = .ok a ∧
      (∃ e t, Keychain.markUsed address a.keychain = .error e t ∧
        ∃ branch index, Keychain.HalfMarked address branch index e a.keychain t) ∧
      ∃ e t, Keychain.setGapLimit .receiving 5 a.keychain = .error e t ∧
        Keychain.HalfSet .receiving 5 e a.keychain t := by
  intro config fails source address
  have answer : (ofConfig config source).toOption.any fun a =>
      (match Keychain.markUsed address a.keychain with
      | .ok _ _ => false
      | .error e _ => e ≠ .unknownAddress address) &&
      match Keychain.setGapLimit .receiving 5 a.keychain with
      | .ok _ _ => false
      | .error _ _ => true := by
    decide +kernel
  obtain ⟨a, opened, facts⟩ := Step.exists_ok_of_any answer
  obtain ⟨marks, sets⟩ := Bool.and_eq_true_iff.mp facts
  obtain ⟨marking, setting⟩ := (failed_growth_run opened).1 []
  refine ⟨a, opened, ?_, ?_⟩
  · split at marks
    next => cases marks
    next e t failed =>
        obtain ⟨unknown, -⟩ | left := marking address e t failed
        · exact absurd unknown (of_decide_eq_true marks)
        · exact ⟨e, t, failed, left⟩
  · split at sets
    next => cases sets
    next e t failed =>
        obtain ⟨refused, -⟩ | left := setting .receiving 5 e t failed
        · exact absurd (by decide) refused
        · exact ⟨e, t, failed, left⟩

/-- A failed marking changes a flag and the highest used index, and repeating it with a source
that does not fail leaves the chain two addresses short. A failed change of the gap limit leaves
two limits. -/
theorem unfinished_growth :
    let config : Config := { receivingGapLimit := 3, changeGapLimit := 1 }
    let fails : KeySource.Override := { failure := some "no key" }
    let source := KeySource.numbered (.ofList [("receiving/3", fails)]) true
    let mark := Keychain.markUsed ⟨"receiving-2"⟩
    let set := setGapLimit .receiving 5
    ∃ a, ofConfig config source = .ok a ∧
      (let t := mark.stateAfter a.keychain
      let mended : Keychain := { t with source := .numbered ∅ true }
      (mark.answer a.keychain).isOk = false ∧ a.keychain.receiving.highestUsed = none ∧
        t.receiving.highestUsed = some 2 ∧ (mark.answer mended).toOption = some false ∧
        (mark.stateAfter mended).receiving.size = 3 ∧
        (mark.stateAfter mended).receiving.requiredSize = 5) ∧
      let b := set.stateAfter a
      (set.answer a).isOk = false ∧ b.config.gapLimit .receiving = 3 ∧
        (b.keychain.stats .receiving).gapLimit = 5 := by
  intro config fails source mark set
  have answer : (ofConfig config source).toOption.any fun a =>
      (let t := mark.stateAfter a.keychain
      let mended : Keychain := { t with source := .numbered ∅ true }
      (mark.answer a.keychain).isOk = false ∧ a.keychain.receiving.highestUsed = none ∧
        t.receiving.highestUsed = some 2 ∧ (mark.answer mended).toOption = some false ∧
        (mark.stateAfter mended).receiving.size = 3 ∧
        (mark.stateAfter mended).receiving.requiredSize = 5) ∧
      let b := set.stateAfter a
      (set.answer a).isOk = false ∧ b.config.gapLimit .receiving = 3 ∧
        (b.keychain.stats .receiving).gapLimit = 5 := by
    decide +kernel
  obtain ⟨a, opened, facts⟩ := Step.exists_ok_of_any answer
  exact ⟨a, opened, of_decide_eq_true facts⟩

end Account

end HdWallet
