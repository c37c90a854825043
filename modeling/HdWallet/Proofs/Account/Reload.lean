import HdWallet.KeySource.Scripted
import HdWallet.Proofs.Account.Addresses
import HdWallet.Proofs.Keychain.Reload

/-!
# A new account takes over what a snapshot saved

A snapshot saves no addresses, so a new account derives them again. It has as many slots as
the one saved, because that one was as long as the gap rule asks for, and each slot gets
the use and the balance of the saved one. So the accounts agree slot by slot, and the
snapshot of the new account is the one that it was made from.
-/

namespace HdWallet

namespace Snapshot

variable {h saved : Holdings}

theorem slots_ofHoldings (saved : Holdings) (branch : Branch) :
    (ofHoldings saved).slots branch = ofChain (saved.keychain.chain branch) := by
  cases branch <;> rfl

/-- A snapshot depends on the slots and the outputs alone. -/
theorem ofHoldings_eq
    (slots : ∀ branch, (h.keychain.chain branch).slots = (saved.keychain.chain branch).slots)
    (outputs : h.ledger.outputs = saved.ledger.outputs) : ofHoldings h = ofHoldings saved := by
  have chains (branch : Branch) :
      ofChain (h.keychain.chain branch) = ofChain (saved.keychain.chain branch) := by
    rw [ofChain, ofChain, slots]
  have coins : h.ledger.coins = saved.ledger.coins := by
    rw [Ledger.coins, Ledger.coins, outputs]
  exact Snapshot.mk.injEq .. ▸ ⟨rfl, chains .receiving, chains .change, coins⟩

theorem checkIndex_of_size_le {snapshot : Snapshot} {chain : Chain} {source : KeySource}
    {branch : Branch} {limit : Nat} (sound : chain.Sound source)
    (saved : snapshot.slots branch = ofChain chain) (allowed : chain.size ≤ limit + 1) :
    snapshot.checkIndex limit branch = .ok () := by
  rw [checkIndex_eq_ok_iff, saved]
  intro slot listed
  have := Chain.lt_size_of_mem_ofChain sound listed
  omega

/-- Holdings that go by the same settings, are no longer and withhold no coin take over what
was saved of others. -/
theorem wp_apply_ofHoldings (sound : saved.keychain.Sound) (adequate : saved.keychain.Adequate)
    (follows : saved.keychain.Follows h.keychain)
    (shorter : ∀ branch,
      (h.keychain.chain branch).size ≤ (saved.keychain.chain branch).size)
    (allowed : ∀ branch,
      (saved.keychain.chain branch).size ≤ h.keychain.maxRestoredIndex + 1)
    (free : ∀ outpoint, h.reservations.isWithheld outpoint = false) :
    (ofHoldings saved).apply.wp
      (fun _ t => saved.keychain.Follows t.keychain ∧
        (∀ branch, (t.keychain.chain branch).slots = (saved.keychain.chain branch).slots) ∧
        t.ledger.outputs = saved.ledger.outputs)
      (fun _ _ => False) h := by
  have valid : (ofHoldings saved).validate = .ok () := rfl
  have check (branch : Branch) :
      (ofHoldings saved).checkIndex h.keychain.maxRestoredIndex branch = .ok () :=
    checkIndex_of_size_le (sound.chains branch) (slots_ofHoldings saved branch) (allowed branch)
  simp only [apply, valid, check, Holdings.onKeychain, Step.wp_bind, Step.wp_ofExcept_ok,
    Step.wp_get, Step.wp_onPart, Step.wp_modify]
  apply (follows.wp_applyBranch sound adequate shorter (slots_ofHoldings saved .receiving)).mono
    _ fun _ _ failed => failed
  rintro _ first ⟨follows, receiving, change⟩
  have shorter (branch : Branch) :
      (first.chain branch).size ≤ (saved.keychain.chain branch).size := by
    cases branch with
    | receiving => exact Nat.le_of_eq (congrArg Array.size receiving)
    | change => exact change ▸ shorter .change
  apply (follows.wp_applyBranch sound adequate shorter (slots_ofHoldings saved .change)).mono
    _ fun _ _ failed => failed
  rintro _ second ⟨follows, change, kept⟩
  refine ⟨follows, ?_, ?_⟩
  · intro branch
    cases branch with
    | receiving => exact (congrArg Chain.slots kept).trans receiving
    | change => exact change
  · have all : saved.ledger.coins.filter
        (fun coin => !h.reservations.isWithheld coin.outpoint) = saved.ledger.coins :=
      List.filter_eq_self.mpr fun coin _ => by rw [free]; rfl
    change (Ledger.ofCoins (saved.ledger.coins.filter _)).outputs = _
    rw [all]
    exact saved.ledger.outputs_ofCoins_coins

end Snapshot

namespace Account

/-- A new account with the same source and settings takes over everything that a snapshot
saves: the slots, the highest used indices and the coins. -/
theorem reload_snapshot {config config' : Config} {source : KeySource} {a b : Account}
    (opened : ofConfig config source = .ok a) {actions : List Action}
    (succeeds : a.succeeds actions) (opened' : ofConfig config' source = .ok b)
    (account : config'.accountPath = (a.run actions).config.accountPath)
    (gapLimit : ∀ branch, config'.gapLimit branch = (a.run actions).config.gapLimit branch)
    (cacheLifetime : config'.cacheLifetime = (a.run actions).config.cacheLifetime)
    (allowed : ∀ slot ∈ (a.run actions).keychain.slots,
      slot.index ≤ config'.maxRestoredIndex.toNat) :
    ∃ c, applySnapshot (a.run actions).snapshot b = .ok () c ∧
      (∀ branch, (c.keychain.chain branch).slots =
          ((a.run actions).keychain.chain branch).slots ∧
        (c.keychain.chain branch).highestUsed =
          ((a.run actions).keychain.chain branch).highestUsed) ∧
      c.ledger.outputs = (a.run actions).ledger.outputs ∧
      c.snapshot = (a.run actions).snapshot := by
  have sound := sound_run opened actions
  have adequate := adequate_run opened succeeds
  have settings := sameSettings_run opened succeeds
  obtain ⟨hkeys, -⟩ := keychain_of_ofConfig opened'
  have follows := Keychain.follows_of_ofConfig settings hkeys gapLimit account cacheLifetime
  have shorter := Keychain.size_le_of_ofConfig settings hkeys gapLimit adequate
  rw [← Keychain.maxRestoredIndex_of_ofConfig hkeys] at allowed
  have within := sound.size_le_of_index_le allowed
  have free (outpoint : OutPoint) : b.reservations.isWithheld outpoint = false := by
    obtain ⟨_, _, rfl⟩ := ofConfig_eq_ok opened'
    rfl
  have spec : (applySnapshot (a.run actions).snapshot).wp (fun _ c =>
      (a.run actions).keychain.Follows c.keychain ∧
        (∀ branch, (c.keychain.chain branch).slots =
          ((a.run actions).keychain.chain branch).slots) ∧
        c.ledger.outputs = (a.run actions).ledger.outputs) (fun _ _ => False) b := by
    rw [applySnapshot, onHoldings, Step.wp_onPart]
    exact Snapshot.wp_apply_ofHoldings sound adequate follows shorter within free
  obtain ⟨_, c, applied, follows, slots, outputs⟩ := spec.exists_ok
  refine ⟨c, applied, ?_, outputs, Snapshot.ofHoldings_eq slots outputs⟩
  intro branch
  exact ⟨slots branch, (sound.chains branch).highestUsed_eq_of_slots_eq
    (follows.chains branch) (slots branch)⟩

/-- A new account takes over a marking, a coin and a gap limit that was changed. -/
theorem reload_after_changes :
    let config : Config := { receivingGapLimit := 2, changeGapLimit := 1 }
    let config' : Config := { receivingGapLimit := 2, changeGapLimit := 3, maxRestoredIndex := 3 }
    let coin : Coin := ⟨default, ⟨100000, .payToKeyHash (List.replicate 20 0)⟩⟩
    let actions : List Action := [.addCoin coin, .markUsed ⟨"receiving-1"⟩, .setGapLimit .change 3]
    ∃ a b c, ofConfig config (.numbered ∅ true) = .ok a ∧ a.succeeds actions ∧
      ofConfig config' (.numbered ∅ true) = .ok b ∧
      (a.run actions).config = { config' with maxRestoredIndex := config.maxRestoredIndex } ∧
      (∀ slot ∈ (a.run actions).keychain.slots, slot.index ≤ 3) ∧
      applySnapshot (a.run actions).snapshot b = .ok () c ∧
      c.snapshot = (a.run actions).snapshot := by
  intro config config' coin actions
  have opens : (ofConfig config' (.numbered ∅ true)).toOption.any fun _ => true := by decide +kernel
  have answer : (ofConfig config (.numbered ∅ true)).toOption.any fun a => a.succeeds actions ∧
      (a.run actions).config = { config' with maxRestoredIndex := config.maxRestoredIndex } ∧
        ∀ slot ∈ (a.run actions).keychain.slots, slot.index ≤ 3 := by
    decide +kernel
  obtain ⟨a, opened, facts⟩ := Step.exists_ok_of_any answer
  obtain ⟨succeeds, settings, allowed⟩ := of_decide_eq_true facts
  obtain ⟨b, opened', -⟩ := Step.exists_ok_of_any opens
  obtain ⟨c, applied, -, -, reloaded⟩ := reload_snapshot opened succeeds opened'
    (by rw [settings]; rfl) (fun _ => by rw [settings]; rfl) (by rw [settings]) allowed
  exact ⟨a, b, c, opened, succeeds, opened', settings, allowed, applied, reloaded⟩

end Account

end HdWallet
