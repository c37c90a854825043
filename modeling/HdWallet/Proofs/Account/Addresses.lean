import HdWallet.KeySource.Scripted
import HdWallet.Proofs.Account.Run
import HdWallet.Proofs.Holdings
import HdWallet.Proofs.Keychain.Sound

/-!
# The addresses of an account

A property of the settings and the keychain that the keychain's own steps keep is kept by
everything that an account does. So after a run in which everything succeeded, both chains
are as long as the gap rule asks for and no longer than marking addresses made them.
-/

namespace HdWallet

def Config.withGapLimit (config : Config) : Branch → UInt32 → Config
  | .receiving, limit => { config with receivingGapLimit := limit }
  | .change, limit => { config with changeGapLimit := limit }

theorem Config.gapLimit_withGapLimit (config : Config) (branch : Branch) (limit : UInt32) :
    (config.withGapLimit branch limit).gapLimit branch = limit := by
  cases branch <;> rfl

theorem Config.gapLimit_other_withGapLimit (config : Config) (branch : Branch) (limit : UInt32) :
    (config.withGapLimit branch limit).gapLimit branch.other = config.gapLimit branch.other := by
  cases branch <;> rfl

namespace Keychain.SameSettings

variable {config : Config} {source : KeySource} {keys : Keychain}

theorem withGapLimit (h : (blank config source).SameSettings keys) (branch : Branch)
    (limit : UInt32) : (blank (config.withGapLimit branch limit) source).SameSettings
      (Keychain.setChain branch { keys.chain branch with gapLimit := limit.toNat } keys) := by
  constructor
  case source_eq =>
      rw [source_setChain]
      exact h.source_eq
  case account_eq =>
      rw [account_setChain, h.account_eq]
      cases branch <;> rfl
  case gapLimit_eq =>
      simp only [gapLimit_blank]
      refine forall_chain_setChain (p := fun side c => c.gapLimit = _) ?_ ?_
      · rw [Config.gapLimit_withGapLimit]
      · rw [h.gapLimit_eq, gapLimit_blank, Config.gapLimit_other_withGapLimit]
  case cacheLifetime_eq =>
      have same : (config.withGapLimit branch limit).cacheLifetime = config.cacheLifetime := by
        cases branch <;> rfl
      simp only [cacheLifetime_blank, same]
      have lifetimes (side : Branch) : (keys.chain side).cacheLifetime = config.cacheLifetime := by
        rw [h.cacheLifetime_eq, cacheLifetime_blank]
      exact forall_chain_setChain (p := fun _ c => c.cacheLifetime = _) (lifetimes branch)
        (lifetimes _)

theorem setCacheLifetime (h : (blank config source).SameSettings keys) (lifetime : UInt64) :
    (blank { config with cacheLifetime := lifetime } source).SameSettings
      (keys.setCacheLifetime lifetime) where
  source_eq := h.source_eq
  account_eq := h.account_eq
  gapLimit_eq branch := by
    rw [chain_setCacheLifetime, gapLimit_blank]
    exact (h.gapLimit_eq branch).trans (gapLimit_blank config source branch)
  cacheLifetime_eq branch := by
    rw [chain_setCacheLifetime, cacheLifetime_blank]
    rfl

end Keychain.SameSettings

namespace Account

/-- A property of the settings and the keychain that every step on a keychain keeps but those
that restore a snapshot. Where such a step fails it leaves `E` behind. -/
structure SlotInvariant (K : Config → Keychain → Prop) (E : Config → Keychain → Prop := K) :
    Prop where
  carried : ∀ config, Keychain.Carried (K config) (E config)
  setGapLimit : ∀ {config keys} (branch : Branch) (limit : UInt32), K config keys →
    (Keychain.setGapLimit branch limit.toNat).wp (fun _ => K (config.withGapLimit branch limit))
      (fun _ => E config) keys
  setCacheLifetime : ∀ {config keys} (lifetime : UInt64), K config keys →
    K { config with cacheLifetime := lifetime } (keys.setCacheLifetime lifetime)
  modifyCache : ∀ {config keys} (address : Address) {f : CachedBalance → CachedBalance},
    (∀ c, (f c).lifetime = c.lifetime) → K config keys → K config (keys.modifyCache address f).1

namespace SlotInvariant

variable {K E : Config → Keychain → Prop} (inv : SlotInvariant K E)
include inv

theorem holdingsInvariant :
    HoldingsInvariant (fun a => K a.config a.keychain) fun a => E a.config a.keychain := by
  have keeps_onHoldings {α : Type} {step : Step Holdings α} (keeps : ∀ config,
      step.Keeps (fun h => K config h.keychain) fun h => E config h.keychain) :
      (onHoldings step).Keeps (fun a => K a.config a.keychain) fun a => E a.config a.keychain :=
    Step.keeps_onPart fun a ha => keeps a.config a.holdings ha
  have keeps_onKeychain {α : Type} {step : Step Keychain α} (keeps : ∀ config,
      step.Keeps (K config) (E config)) :
      (onKeychain step).Keeps (fun a => K a.config a.keychain) fun a => E a.config a.keychain :=
    keeps_onHoldings fun config => Holdings.keeps_keychain (keeps config)
  exact {
    weaken := fun a ha => (inv.carried a.config).weaken a.keychain ha
    setRetries := fun _ ha => ha
    setCacheLifetime := fun lifetime ha => inv.setCacheLifetime lifetime ha
    setGapLimit := fun branch limit a ha => by
      have kept := inv.setGapLimit branch limit ha
      simp only [Account.setGapLimit, onKeychain, onHoldings, Holdings.onKeychain, Step.wp_bind,
        Step.wp_onPart, Step.wp_modify, Step.wp_pure]
      apply kept.mono _ fun _ _ ht => ht
      intro added keys ht
      cases branch <;> exact ht
    nextUnused := fun branch excluded =>
      keeps_onKeychain fun config => (inv.carried config).nextUnused branch excluded
    markUsed := fun address =>
      keeps_onKeychain fun config => (inv.carried config).keeps_markUsed address
    addCoin := fun {a} coin ha => by
      have same : (a.holdings.addCoin coin).1.keychain = a.keychain := by
        rw [Holdings.addCoin]
        split <;> rfl
      exact (congrArg (K a.config) same).mpr ha
    removeCoin := fun _ ha => ha
    receive := fun _ ha => ha
    spend := fun _ ha => ha
    reserve := fun request selector now =>
      keeps_onHoldings fun config => (inv.carried config).keeps_reserve request selector now
    release := fun id outcome =>
      keeps_onHoldings fun config => (inv.carried config).keeps_release id outcome
    resync := fun address reported =>
      keeps_onHoldings fun config => (inv.carried config).keeps_resync address reported
    replaceAll := fun reports =>
      keeps_onHoldings fun config => (inv.carried config).keeps_replaceAll reports }

theorem queryInvariant :
    QueryInvariant (fun a => K a.config a.keychain) fun a => E a.config a.keychain where
  toOwnInvariant := inv.holdingsInvariant.toOwnInvariant
  issueTicket ha := ha
  recordBalance {a} address balance ticket now ha := by
    rw [Account.recordBalance]
    split
    next => exact ha
    next => exact inv.modifyCache address (fun _ => rfl) ha
  invalidateAddress {a} address ha := by
    simp only [Account.invalidateAddress]
    split
    next => exact inv.modifyCache address (fun _ => CachedBalance.lifetime_invalidate _) ha
    next => exact ha

end SlotInvariant

theorem SlotInvariant.liveInvariant {K : Config → Keychain → Prop} (inv : SlotInvariant K) :
    LiveInvariant fun a => K a.config a.keychain where
  toHoldingsInvariant := inv.holdingsInvariant
  issueTicket := inv.queryInvariant.issueTicket
  recordBalance := inv.queryInvariant.recordBalance
  invalidateAddress := inv.queryInvariant.invalidateAddress

/-- A property of the settings and the keychain that every step on a keychain keeps. Where
such a step fails it leaves `E` behind. -/
structure KeychainInvariant (K : Config → Keychain → Prop) (E : Config → Keychain → Prop := K) :
    Prop extends SlotInvariant K E where
  applyBranch : ∀ (config : Config) (snapshot : Snapshot) (branch : Branch),
    (snapshot.applyBranch branch).Keeps (K config) (E config)

namespace KeychainInvariant

variable {K E : Config → Keychain → Prop}

theorem invariant (inv : KeychainInvariant K E) :
    Invariant (fun a => K a.config a.keychain) fun a => E a.config a.keychain where
  toHoldingsInvariant := inv.holdingsInvariant
  issueTicket := inv.queryInvariant.issueTicket
  recordBalance := inv.queryInvariant.recordBalance
  invalidateAddress := inv.queryInvariant.invalidateAddress
  applySnapshot snapshot := Step.keeps_onPart fun a ha =>
    Keychain.keeps_apply (inv.applyBranch a.config snapshot) (inv.carried a.config).weaken
      a.holdings ha

theorem of_enduring {P : Keychain → Prop} (enduring : Keychain.Enduring P) :
    KeychainInvariant fun _ => P where
  carried _ := enduring.toMarking.carried
  setGapLimit branch limit hk := enduring.toInvariant.keeps_setGapLimit branch limit.toNat _ hk
  setCacheLifetime lifetime hk := enduring.setCacheLifetime lifetime hk
  modifyCache address _ lifetime hk := enduring.toRestoring.keeps_modifyCache lifetime hk address
  applyBranch _ snapshot branch := enduring.toRestoring.keeps_applyBranch snapshot branch

end KeychainInvariant

/-- The chains go by the settings as long as everything succeeds. -/
theorem keychainInvariant_sameSettings (source : KeySource) :
    KeychainInvariant (fun config keys => (Keychain.blank config source).SameSettings keys)
      fun _ _ => True where
  carried config := (Keychain.restoring_sameSettings _).toMarking.carried.weakened
    fun _ _ => trivial
  setGapLimit {config keys} branch limit hk := by
    have set := hk.withGapLimit branch limit
    have maintained :=
      (Keychain.restoring_sameSettings _).toGrowth.keeps_maintain branch _ set
    rw [Keychain.setGapLimit]
    dsimp only
    split
    next => exact trivial
    next =>
        rw [Step.wp_bind, Step.wp_modify]
        exact maintained.mono (fun _ _ ht => ht) fun _ _ _ => trivial
  setCacheLifetime lifetime hk := hk.setCacheLifetime lifetime
  modifyCache address _ lifetime hk :=
    (Keychain.restoring_sameSettings _).keeps_modifyCache lifetime hk address
  applyBranch config snapshot branch :=
    ((Keychain.restoring_sameSettings _).keeps_applyBranch snapshot branch).weaken
      fun _ _ => trivial

theorem keychainInvariant_adequate :
    KeychainInvariant (fun _ => Keychain.Adequate) fun _ _ => True where
  carried _ := Keychain.carried_adequate
  setGapLimit branch limit hk := Keychain.keeps_setGapLimit_adequate branch limit.toNat _ hk
  setCacheLifetime lifetime hk branch := by
    rw [Keychain.chain_setCacheLifetime, Chain.size_setCacheLifetime]
    exact hk branch
  modifyCache {config keys} address f _ hk := by
    obtain same | ⟨branch, index, changed⟩ := keys.modifyCache_cases address f
    · rwa [same]
    · rw [changed]
      refine Keychain.forall_chain_setChain (p := fun _ c => c.requiredSize ≤ c.size) ?_ (hk _)
      rw [Chain.size_modifyCache]
      exact hk branch
  applyBranch _ snapshot branch := Keychain.keeps_applyBranch_adequate snapshot branch

theorem wp_markUsed {ok : Bool → Account → Prop} {err : Failure → Account → Prop}
    (address : Address) (a : Account) :
    (markUsed address).wp ok err a ↔ (Keychain.markUsed address).wp
      (fun isNew t => ok isNew (a.setKeychain t)) (fun e t => err e (a.setKeychain t))
      a.keychain := by
  simp only [markUsed, onKeychain, onHoldings, Holdings.onKeychain, Step.wp_onPart]
  rfl

theorem markUsed_eq_ok {a c : Account} {address : Address} {isNew : Bool}
    (h : markUsed address a = .ok isNew c) :
    ∃ keychain, Keychain.markUsed address a.keychain = .ok isNew keychain ∧
      c = a.setKeychain keychain := by
  have spec : (markUsed address).wp (fun isNew c => ∃ keychain,
      Keychain.markUsed address a.keychain = .ok isNew keychain ∧ c = a.setKeychain keychain)
      (fun _ _ => True) a := by
    rw [wp_markUsed, Step.wp_iff]
    exact ⟨fun isNew keychain marking => ⟨keychain, marking, rfl⟩, fun _ _ _ => trivial⟩
  exact spec.of_ok h

variable {config : Config} {source : KeySource} {a : Account}

theorem keychain_of_ofConfig (opened : ofConfig config source = .ok a) :
    Keychain.ofConfig config source = .ok a.keychain ∧ a.config = config := by
  obtain ⟨keychain, hkeys, rfl⟩ := ofConfig_eq_ok opened
  exact ⟨hkeys, rfl⟩

theorem adequate_run (opened : ofConfig config source = .ok a) {actions : List Action}
    (succeeds : a.succeeds actions) : (a.run actions).keychain.Adequate :=
  keychainInvariant_adequate.invariant.run_of_succeeds
    (Keychain.adequate_of_ofConfig (keychain_of_ofConfig opened).1) succeeds

theorem sound_run (opened : ofConfig config source = .ok a) (actions : List Action) :
    (a.run actions).keychain.Sound :=
  (KeychainInvariant.of_enduring Keychain.enduring_sound).invariant.run
    (Keychain.sound_of_ofConfig (keychain_of_ofConfig opened).1) actions

theorem origin_run (opened : ofConfig config source = .ok a) (actions : List Action) :
    (a.run actions).keychain.source = source ∧
      (a.run actions).keychain.account = config.accountPath := by
  apply (KeychainInvariant.of_enduring (Keychain.enduring_origin _ _)).invariant.run
  have growth := (Keychain.enduring_origin source config.accountPath).toGrowth
  exact growth.of_ofConfig ⟨rfl, rfl⟩ (keychain_of_ofConfig opened).1

theorem sameSettings_run (opened : ofConfig config source = .ok a) {actions : List Action}
    (succeeds : a.succeeds actions) :
    (Keychain.blank (a.run actions).config source).SameSettings (a.run actions).keychain := by
  obtain ⟨hkeys, same⟩ := keychain_of_ofConfig opened
  apply (keychainInvariant_sameSettings source).invariant.run_of_succeeds _ succeeds
  rw [same]
  exact Keychain.sameSettings_of_ofConfig hkeys

theorem size_le_run (a : Account) (actions : List Action) (branch : Branch) :
    (a.keychain.chain branch).size ≤ ((a.run actions).keychain.chain branch).size := by
  let least (side : Branch) := (a.keychain.chain side).size
  have inv := (KeychainInvariant.of_enduring (Keychain.enduring_size least)).invariant
  exact inv.run (fun _ => Nat.le_refl _) actions branch

/-- As long as everything succeeds, each chain has as many slots as the gap rule asks for, no
chain ever gets shorter, and marking an address makes its chain just as long as needed. -/
theorem gap_rule_run (opened : ofConfig config source = .ok a) {actions : List Action}
    (succeeds : a.succeeds actions) :
    let now := (a.run actions).keychain
    (∀ branch, (now.chain branch).gapLimit = ((a.run actions).config.gapLimit branch).toNat ∧
      min (2 ^ 31) ((now.chain branch).highestUsed.getD 0 + (now.chain branch).gapLimit) ≤
        (now.chain branch).size) ∧
    (∀ later branch,
      (now.chain branch).size ≤ ((a.run (actions ++ later)).keychain.chain branch).size) ∧
    ∀ address c, markUsed address (a.run actions) = .ok true c →
      ∃ branch index, now.locate address = .ok (some (branch, index)) ∧
        (c.keychain.chain branch).size = max (now.chain branch).size
          (min (2 ^ 31)
            (max ((now.chain branch).highestUsed.getD 0) index + (now.chain branch).gapLimit)) ∧
        c.keychain.chain branch.other = now.chain branch.other := by
  intro now
  have settings := sameSettings_run opened succeeds
  refine ⟨?_, ?_, ?_⟩
  · intro branch
    refine ⟨(settings.gapLimit_eq branch).trans (Keychain.gapLimit_blank _ _ branch), ?_⟩
    rw [Nat.min_comm]
    exact adequate_run opened succeeds branch
  · intro later branch
    rw [run_append]
    exact size_le_run _ later branch
  · intro address c marking
    obtain ⟨keychain, hkeys, rfl⟩ := markUsed_eq_ok marking
    obtain ⟨branch, index, located, hsize, other⟩ := Keychain.size_markUsed hkeys
    refine ⟨branch, index, located, ?_, other⟩
    rw [Nat.min_comm]
    exact hsize

/-- A marking after a marking and a change of a gap limit. -/
theorem gap_rule_after_marking :
    let config : Config := { receivingGapLimit := 2, changeGapLimit := 1 }
    let address : Address := ⟨"receiving-2"⟩
    let actions : List Action := [.markUsed ⟨"receiving-1"⟩, .setGapLimit .change 3]
    ∃ a c, ofConfig config (.numbered ∅ true) = .ok a ∧ a.succeeds actions ∧
      markUsed address (a.run actions) = .ok true c ∧
      let now := (a.run actions).keychain
      now.locate address = .ok (some (.receiving, 2)) ∧
      now.receiving.size = 3 ∧ now.receiving.highestUsed = some 1 ∧ now.receiving.gapLimit = 2 ∧
      c.keychain.receiving.size = max 3 (min (2 ^ 31) (max 1 2 + 2)) ∧
      c.keychain.change = now.change := by
  intro config address actions
  have answer : (ofConfig config (.numbered ∅ true)).toOption.any fun a => a.succeeds actions &&
      (match markUsed address (a.run actions) with
      | .ok isNew _ => isNew
      | .error _ _ => false) &&
      let now := (a.run actions).keychain
      ((now.locate address).toOption, now.receiving.size, now.receiving.highestUsed,
        now.receiving.gapLimit) = (some (some (.receiving, 2)), 3, some 1, 2) := by
    decide +kernel
  obtain ⟨a, opened, facts⟩ := Step.exists_ok_of_any answer
  obtain ⟨facts, before⟩ := Bool.and_eq_true_iff.mp facts
  obtain ⟨succeeds, marks⟩ := Bool.and_eq_true_iff.mp facts
  obtain ⟨here, size, highest, gap⟩ := by
    simpa only [Prod.mk.injEq] using of_decide_eq_true before
  obtain ⟨-, -, marked⟩ := gap_rule_run opened succeeds
  split at marks
  next isNew c marking =>
      subst marks
      obtain ⟨branch, index, located, grown, other⟩ := marked address c marking
      rw [located] at here
      cases here
      simp only [Keychain.chain, size, highest, gap] at grown
      exact ⟨a, c, opened, succeeds, marking, located, size, highest, gap, grown, other⟩
  next => cases marks

end Account

end HdWallet
