import HdWallet.Proofs.Account.Addresses
import HdWallet.Proofs.Account.Reserved
import HdWallet.Proofs.Keychain.Unused

/-!
# The change addresses that reservations claim

A reservation claims the change slot that was handed out for it. No slot is ever lost, so in
every state each claim is that of a slot, and the claimed indices lie inside the change chain.
The gap limits are positive in every state as well. So handing out a change address finds a
free slot or makes one, unless the source stops it.
-/

namespace HdWallet

def Slot.claim (slot : Slot) : ChangeClaim := ⟨slot.path.index, slot.address, slot.script⟩

/-- Settings that are accepted have positive gap limits. -/
theorem Config.gapLimit_pos {config : Config} (valid : config.validate = .ok ())
    (branch : Branch) : 0 < (config.gapLimit branch).toNat := by
  have checked : config.checkGapLimit branch = .ok () := by
    rw [validate] at valid
    cases receiving : config.checkGapLimit .receiving with
    | error e =>
        rw [receiving] at valid
        cases valid
    | ok _ =>
        cases change : config.checkGapLimit .change with
        | error e =>
            rw [receiving, change] at valid
            cases valid
        | ok _ => cases branch <;> assumption
  simp only [checkGapLimit] at checked
  split at checked
  next => cases checked
  next allowed => exact Nat.pos_of_ne_zero fun none => allowed (.inl none)

namespace Keychain

variable {keys : Keychain} {claims : Set ChangeClaim}

/-- Each of these claims is that of a change slot. -/
def Offers (claims : Set ChangeClaim) (keys : Keychain) : Prop :=
  ∀ claim ∈ claims, ∃ i, ((keys.chain .change).slot? i).map Slot.claim = some claim

theorem Offers.setChain {branch : Branch} {chain : Chain} (h : keys.Offers claims)
    (kept : ∀ {i claim}, ((keys.chain branch).slot? i).map Slot.claim = some claim →
      (chain.slot? i).map Slot.claim = some claim) :
    (setChain branch chain keys).Offers claims := by
  intro claim listed
  obtain ⟨i, here⟩ := h claim listed
  cases branch with
  | receiving => exact ⟨i, here⟩
  | change => exact ⟨i, kept here⟩

theorem enduring_offers (claims : Set ChangeClaim) : Enduring (Offers claims) where
  push {keys branch slot} _ _ _ h := by
    apply h.setChain
    intro i claim here
    obtain ⟨present, hpresent, -⟩ := Option.map_eq_some_iff.mp here
    rwa [Chain.slot?_push, if_neg (Nat.ne_of_lt (Chain.lt_size_of_slot? hpresent))]
  mark marking h := by
    apply h.setChain
    intro i claim here
    rwa [Chain.map_slot?_of_change (Chain.slot?_markUsed marking) fun _ => rfl]
  setGapLimit _ h := h.setChain id
  unmark clearing h := by
    apply h.setChain
    intro i claim here
    rwa [Chain.map_slot?_of_change (Chain.slot?_unmark clearing) fun _ => rfl]
  modifyCache {keys branch} index f _ h := by
    apply h.setChain
    intro i claim here
    rwa [Chain.map_slot?_of_change (fun j => Chain.slot?_modifyCache index j f) fun _ => rfl]
  setCacheLifetime {keys} lifetime h claim listed := by
    obtain ⟨i, here⟩ := h claim listed
    refine ⟨i, ?_⟩
    rwa [chain_setCacheLifetime, Chain.map_slot?_setCacheLifetime lifetime fun _ _ => rfl]

def Positive (keys : Keychain) : Prop := ∀ branch, 0 < (keys.chain branch).gapLimit

theorem Positive.setChain {branch : Branch} {chain : Chain} (h : keys.Positive)
    (positive : 0 < chain.gapLimit) : (setChain branch chain keys).Positive :=
  forall_chain_setChain (p := fun _ c => 0 < c.gapLimit) positive (h _)

theorem restoring_positive : Restoring Positive where
  push _ _ _ h := h.setChain (h _)
  mark marking h := by
    rw [Chain.markUsed_eq_ok marking]
    exact h.setChain (h _)
  unmark clearing h := by
    rw [Chain.unmark_eq_ok clearing]
    exact h.setChain (h _)
  modifyCache _ _ _ h := h.setChain (h _)

theorem keeps_setGapLimit_positive (branch : Branch) (limit : Nat) :
    (Keychain.setGapLimit branch limit).Keeps Positive := by
  intro keys hk
  rw [Keychain.setGapLimit]
  dsimp only
  split
  next => exact hk
  next allowed =>
      rw [Step.wp_bind, Step.wp_modify]
      have positive : 0 < limit := Nat.pos_of_ne_zero fun none => allowed (.inl none)
      exact restoring_positive.toGrowth.keeps_maintain branch _ (hk.setChain positive)

theorem positive_of_ofConfig {config : Config} {source : KeySource}
    (opened : ofConfig config source = .ok keys) : keys.Positive := by
  refine restoring_positive.toGrowth.of_ofConfig (fun branch => ?_) opened
  rw [gapLimit_blank]
  refine Config.gapLimit_pos ?_ branch
  rw [ofConfig] at opened
  cases valid : config.validate with
  | ok _ => rfl
  | error e =>
      rw [valid] at opened
      cases opened

end Keychain

namespace ReservationTable

variable {table : ReservationTable}

def claims (table : ReservationTable) : Set ChangeClaim :=
  {claim | ∃ id r, table.find? id = some r ∧ r.change = claim}

def ClaimsWithin (claims : Set ChangeClaim) (table : ReservationTable) : Prop :=
  ∀ id r, table.find? id = some r → r.change ∈ claims

theorem claimsWithin_claims (table : ReservationTable) : table.ClaimsWithin table.claims :=
  fun id r hr => ⟨id, r, hr, rfl⟩

theorem shrinking_claimsWithin (claims : Set ChangeClaim) : Shrinking (ClaimsWithin claims) where
  take {table taken id r} ht h j s hs := by
    obtain ⟨-, hfind, -⟩ := table.take_spec ht
    rw [hfind] at hs
    split at hs
    next => cases hs
    next => exact h j s hs
  addPending _ h := h
  settle _ _ h := h

theorem ClaimsWithin.foldl_markSpent {claims : Set ChangeClaim} (h : table.ClaimsWithin claims)
    (spent : List OutPoint) :
    (spent.foldl (fun table o => (table.markSpent o).1) table).ClaimsWithin claims := by
  induction spent generalizing table with
  | nil => exact h
  | cons o rest ih =>
      apply ih
      intro id r hr
      obtain ⟨hfind, -⟩ := table.markSpent_spec o
      rw [hfind] at hr
      split at hr
      next =>
          obtain ⟨before, hbefore, rfl⟩ := Option.map_eq_some_iff.mp hr
          exact h id before hbefore
      next => exact h id r hr

end ReservationTable

namespace Holdings

variable {h : Holdings}

/-- Every claim of a reservation is that of a change slot. -/
def Backed (h : Holdings) : Prop := h.keychain.Offers h.reservations.claims

theorem Backed.claimed_lt_size (hb : h.Backed) (sound : h.keychain.Sound) {i : Nat}
    (claimed : i ∈ h.reservations.claimed) : i < (h.keychain.chain .change).size := by
  obtain ⟨id, r, hr, rfl⟩ := h.reservations.mem_claimed.mp claimed
  obtain ⟨j, here⟩ := hb r.change ⟨id, r, hr, rfl⟩
  obtain ⟨slot, hslot, claims⟩ := Option.map_eq_some_iff.mp here
  have index : r.change.index.toNat = j := by
    rw [← claims]
    exact (sound.chains .change).index_eq hslot
  rw [index]
  exact Chain.lt_size_of_slot? hslot

theorem Backed.of_within {t : Holdings} {claims : Set ChangeClaim}
    (offers : t.keychain.Offers claims) (within : t.reservations.ClaimsWithin claims) :
    t.Backed := by
  rintro _ ⟨id, r, hr, rfl⟩
  exact offers _ (within id r hr)

/-- A step that loses no slot and makes no claim keeps all claims backed. -/
theorem keeps_backed {α : Type} {step : Step Holdings α}
    (offers : ∀ claims, step.Keeps fun h => h.keychain.Offers claims)
    (within : ∀ claims, step.Keeps (Table (ReservationTable.ClaimsWithin claims))) :
    step.Keeps Backed := by
  intro h hb
  have listed := within _ h h.reservations.claimsWithin_claims
  apply ((offers _ h hb).and listed).mono
  · exact fun _ _ ht => .of_within ht.1 ht.2
  · exact fun _ _ ht => .of_within ht.1 ht.2

theorem keeps_backed_onKeychain {α : Type} {step : Step Keychain α}
    (offers : ∀ claims, step.Keeps (Keychain.Offers claims)) : (onKeychain step).Keeps Backed :=
  keeps_backed (fun claims => keeps_keychain (offers claims)) fun claims =>
    keeps_onKeychain_of_frame (P := Table (ReservationTable.ClaimsWithin claims))
      (fun _ within => within) step

/-- Planning a payment makes one claim, which is that of the slot handed out. -/
theorem keeps_backed_reserve (request : SpendRequest) (selector : Selector) (now : Timestamp) :
    (reserve request selector now).Keeps Backed := by
  intro h hb
  have carried := (Keychain.enduring_offers h.reservations.claims).toMarking.carried
  have offers := carried.keeps_reserve request selector now h hb
  apply ((reserve_spec request selector now h).and offers).mono
  · rintro _ t ⟨⟨selection, slot, -, -, handed, -, htable, -⟩, later⟩ _ ⟨id, r, hr, rfl⟩
    rw [htable, ReservationTable.find?_register] at hr
    split at hr
    next =>
        cases hr
        obtain ⟨here, -⟩ := (Keychain.nextUnused_spec _ _ _).of_ok handed
        obtain ⟨i, hslot⟩ := Chain.mem_slots.mp (Array.mem_toList_iff.mpr here)
        exact ⟨i, by rw [hslot]; rfl⟩
    next => exact later _ ⟨id, r, hr, rfl⟩
  · rintro e t ⟨unplanned, later⟩
    rw [Backed, unplanned.reservations_eq]
    exact later

end Holdings

namespace Account

open Holdings ReservationTable

theorem invariant_backed : Invariant fun a => a.holdings.Backed := by
  have enduring := Keychain.enduring_offers
  have carried (claims : Set ChangeClaim) := (enduring claims).toMarking.carried
  have shrinking := shrinking_claimsWithin
  have onKeychain {α : Type} {step : Step Keychain α}
      (offers : ∀ claims, step.Keeps (Keychain.Offers claims)) :
      (onKeychain step).Keeps fun a => a.holdings.Backed :=
    keeps_onHoldings (keeps_backed_onKeychain offers)
  exact {
    setRetries := fun _ ha => ha
    setCacheLifetime := fun lifetime ha => (enduring _).setCacheLifetime lifetime ha
    setGapLimit := fun branch limit => by
      refine (onKeychain fun claims => ?_).bind fun _ => (Step.keeps_modify ?_).bind fun _ =>
        Step.keeps_pure _
      · exact (enduring claims).toInvariant.keeps_setGapLimit branch limit.toNat
      · intro a ha
        cases branch <;> exact ha
    nextUnused := fun branch excluded =>
      onKeychain fun claims => (carried claims).nextUnused branch excluded
    markUsed := fun address => onKeychain fun claims => (carried claims).keeps_markUsed address
    addCoin := fun {a} coin ha => by
      have same : (a.holdings.addCoin coin).1.keychain = a.holdings.keychain ∧
          (a.holdings.addCoin coin).1.reservations = a.holdings.reservations := by
        rw [Holdings.addCoin]
        split <;> exact ⟨rfl, rfl⟩
      change Backed (a.holdings.addCoin coin).1
      rw [Backed, same.1, same.2]
      exact ha
    removeCoin := fun _ ha => ha
    receive := fun _ ha => ha
    spend := fun {a} tx ha => .of_within ha
      (a.holdings.reservations.claimsWithin_claims.foldl_markSpent tx.inputs)
    reserve := fun request selector now =>
      keeps_onHoldings (keeps_backed_reserve request selector now)
    release := fun id outcome => keeps_onHoldings (keeps_backed
      (fun claims => (carried claims).keeps_release id outcome)
      fun claims => (shrinking claims).keeps_release id outcome)
    resync := fun address reported => keeps_onHoldings (keeps_backed
      (fun claims => (carried claims).keeps_resync address reported)
      fun claims => (shrinking claims).keeps_resync address reported)
    replaceAll := fun reports => keeps_onHoldings (keeps_backed
      (fun claims => (carried claims).keeps_replaceAll reports)
      fun claims => (shrinking claims).keeps_replaceAll reports)
    issueTicket := fun ha => ha
    recordBalance := fun {a} address balance ticket now ha => by
      rw [Account.recordBalance]
      split
      next => exact ha
      next =>
          exact (enduring _).toRestoring.keeps_modifyCache (f := (·.record balance now))
            (fun _ => rfl) ha address
    invalidateAddress := fun {a} address ha => by
      simp only [Account.invalidateAddress]
      split
      next =>
          exact (enduring _).toRestoring.keeps_modifyCache
            (fun _ => CachedBalance.lifetime_invalidate _) ha address
      next => exact ha
    applySnapshot := fun snapshot => keeps_onHoldings (keeps_backed
      (fun claims => Keychain.keeps_apply
        ((enduring claims).toRestoring.keeps_applyBranch snapshot) fun _ hk => hk)
      fun claims => keeps_apply_of_frame (P := Table (ClaimsWithin claims)) (fun _ hp => hp)
        snapshot fun hp => hp) }

theorem keychainInvariant_positive : KeychainInvariant fun _ => Keychain.Positive where
  carried _ := Keychain.restoring_positive.toMarking.carried
  setGapLimit branch limit hk := Keychain.keeps_setGapLimit_positive branch limit.toNat _ hk
  setCacheLifetime lifetime hk branch := by
    rw [Keychain.chain_setCacheLifetime]
    exact hk branch
  modifyCache address _ lifetime hk :=
    Keychain.restoring_positive.keeps_modifyCache lifetime hk address
  applyBranch _ snapshot branch := Keychain.restoring_positive.keeps_applyBranch snapshot branch

variable {config : Config} {source : KeySource} {a : Account}

theorem backed_run (opened : ofConfig config source = .ok a) (actions : List Action) :
    (a.run actions).holdings.Backed := by
  apply invariant_backed.run
  obtain ⟨_, _, rfl⟩ := ofConfig_eq_ok opened
  rintro _ ⟨id, r, hr, -⟩
  simp [ReservationTable.find?] at hr

theorem positive_run (opened : ofConfig config source = .ok a) (actions : List Action) :
    (a.run actions).keychain.Positive := by
  apply keychainInvariant_positive.invariant.run
  exact Keychain.positive_of_ofConfig (keychain_of_ofConfig opened).1

end Account

end HdWallet
