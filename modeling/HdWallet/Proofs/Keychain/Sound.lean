import HdWallet.Proofs.Chain.Sound
import HdWallet.Proofs.Keychain.Restore

/-!
# What a keychain is made of

Both chains of a sound keychain are sound and belong to its account, and they have no
address in common. Nothing that is done to a keychain changes this. Of two sound keychains of
one account the longer has all addresses of the shorter, so a branch that cannot grow in the
shorter one cannot grow in the longer one either.
-/

namespace HdWallet.Keychain

variable {keys : Keychain} {branch : Branch}

theorem mem_slots {slot : Slot} :
    slot ∈ keys.slots ↔ ∃ branch i, (keys.chain branch).slot? i = some slot := by
  rw [slots, List.mem_append, Chain.mem_slots, Chain.mem_slots]
  constructor
  · rintro (h | h)
    · exact ⟨.receiving, h⟩
    · exact ⟨.change, h⟩
  · rintro ⟨branch, h⟩
    cases branch with
    | receiving => exact .inl h
    | change => exact .inr h

/-- Both chains are sound, of this account, and without a common address. -/
structure Sound (keys : Keychain) : Prop where
  chains : ∀ branch, (keys.chain branch).Sound keys.source
  account_eq : ∀ branch, (keys.chain branch).account = keys.account
  branch_eq : ∀ branch, (keys.chain branch).branch = branch
  apart : ∀ {branch address}, (keys.chain branch).contains address →
    ¬(keys.chain branch.other).contains address

namespace Sound

theorem setChain (h : keys.Sound) {chain : Chain} (sound : chain.Sound keys.source)
    (account : chain.account = (keys.chain branch).account)
    (side : chain.branch = (keys.chain branch).branch)
    (apart : ∀ {address}, chain.contains address → ¬(keys.chain branch.other).contains address) :
    (setChain branch chain keys).Sound := by
  have other_other : branch.other.other = branch := by cases branch <;> rfl
  constructor
  case chains =>
      rw [source_setChain]
      exact forall_chain_setChain (p := fun _ c => c.Sound keys.source) sound (h.chains _)
  case account_eq =>
      rw [account_setChain]
      exact forall_chain_setChain (p := fun _ c => c.account = keys.account)
        (account.trans (h.account_eq branch)) (h.account_eq _)
  case branch_eq =>
      exact forall_chain_setChain (p := fun b c => c.branch = b)
        (side.trans (h.branch_eq branch)) (h.branch_eq _)
  case apart =>
      intro other address
      obtain rfl | rfl := other.eq_or_eq_other branch
      · rw [chain_setChain, chain_other_setChain]
        exact apart
      · rw [chain_other_setChain, other_other, chain_setChain]
        exact fun there here => apart here there

theorem push (h : keys.Sound) {slot : Slot}
    (next : (keys.chain branch).next keys.source = .ok slot)
    (fresh : ¬(keys.chain branch.other).contains slot.address)
    (fits : (keys.chain branch).refusal? slot = none) :
    (Keychain.setChain branch ((keys.chain branch).push slot) keys).Sound := by
  apply h.setChain ((h.chains branch).push next fits) rfl rfl
  intro address present
  obtain ⟨i, hi⟩ := Chain.contains_iff.mp present
  rw [Chain.indexOf?_push] at hi
  split at hi
  next here => exact here ▸ fresh
  next => exact h.apart (Chain.contains_iff.mpr ⟨i, hi⟩)

theorem setCacheLifetime (h : keys.Sound) (lifetime : UInt64) :
    (keys.setCacheLifetime lifetime).Sound where
  chains
    | .receiving => (h.chains .receiving).setCacheLifetime lifetime
    | .change => (h.chains .change).setCacheLifetime lifetime
  account_eq
    | .receiving => h.account_eq .receiving
    | .change => h.account_eq .change
  branch_eq
    | .receiving => h.branch_eq .receiving
    | .change => h.branch_eq .change
  apart {branch _} := by
    cases branch with
    | receiving => exact @Sound.apart keys h .receiving _
    | change => exact @Sound.apart keys h .change _

end Sound

theorem enduring_sound : Enduring Sound where
  push next fresh fits h := h.push next fresh fits
  mark {keys branch index marked} marking h := by
    have fields := Chain.markUsed_eq_ok marking
    apply h.setChain ((h.chains branch).markUsed marking) (by rw [fields]) (by rw [fields])
    rw [fields]
    exact h.apart
  setGapLimit gapLimit h := h.setChain ((h.chains _).withGapLimit gapLimit) rfl rfl h.apart
  unmark {keys branch index cleared} clearing h := by
    have fields := Chain.unmark_eq_ok clearing
    apply h.setChain ((h.chains branch).unmark clearing) (by rw [fields]) (by rw [fields])
    rw [fields]
    exact h.apart
  modifyCache index _ lifetime h :=
    h.setChain ((h.chains _).modifyCache index lifetime) rfl rfl h.apart
  setCacheLifetime lifetime h := h.setCacheLifetime lifetime

theorem sound_blank (config : Config) (source : KeySource) : (blank config source).Sound where
  chains
    | .receiving => .blank ..
    | .change => .blank ..
  account_eq
    | .receiving => rfl
    | .change => rfl
  branch_eq
    | .receiving => rfl
    | .change => rfl
  apart {branch address} present := by
    cases branch <;> simp [chain, blank, Chain.contains] at present

theorem sound_of_ofConfig {config : Config} {source : KeySource}
    (opened : ofConfig config source = .ok keys) : keys.Sound :=
  enduring_sound.toGrowth.of_ofConfig (sound_blank config source) opened

/-- Two sound keychains with the same account and the same source. -/
structure Kin (model keys : Keychain) : Prop where
  model_sound : model.Sound
  sound : keys.Sound
  source_eq : keys.source = model.source
  account_eq : keys.account = model.account

namespace Kin

variable {model : Keychain} (h : model.Kin keys)
include h

theorem chains (side : Branch) : (keys.chain side).Sound model.source :=
  h.source_eq ▸ h.sound.chains side

theorem chain_account_eq (side : Branch) :
    (keys.chain side).account = (model.chain side).account := by
  rw [h.sound.account_eq, h.account_eq, h.model_sound.account_eq]

theorem chain_branch_eq (side : Branch) :
    (keys.chain side).branch = (model.chain side).branch := by
  rw [h.sound.branch_eq, h.model_sound.branch_eq]

/-- What is at one place in both is one address with one script. -/
theorem derivation_eq {side : Branch} {i : Nat} {slot now : Slot}
    (hslot : (model.chain side).slot? i = some slot) (hnow : (keys.chain side).slot? i = some now) :
    now.derivation = slot.derivation :=
  (h.model_sound.chains side).derivation_eq (h.chains side) (h.chain_account_eq side)
    (h.chain_branch_eq side) hslot hnow

theorem address_eq {side : Branch} {i : Nat} {slot now : Slot}
    (hslot : (model.chain side).slot? i = some slot) (hnow : (keys.chain side).slot? i = some now) :
    now.address = slot.address :=
  (Slot.derivation_eq_iff.mp (h.derivation_eq hslot hnow)).2.1

theorem script_eq {side : Branch} {i : Nat} {slot now : Slot}
    (hslot : (model.chain side).slot? i = some slot) (hnow : (keys.chain side).slot? i = some now) :
    now.script = slot.script :=
  (Slot.derivation_eq_iff.mp (h.derivation_eq hslot hnow)).2.2

/-- A slot of the model is there in a chain that is as long, with what it has from the source. -/
theorem exists_slot? {side : Branch}
    (longer : (model.chain side).size ≤ (keys.chain side).size) {i : Nat} {slot : Slot}
    (hslot : (model.chain side).slot? i = some slot) :
    ∃ now, (keys.chain side).slot? i = some now ∧ now.derivation = slot.derivation := by
  obtain ⟨now, hnow⟩ := (keys.chain side).exists_slot?_of_lt_size
    ((Chain.lt_size_of_slot? hslot).trans_le longer)
  exact ⟨now, hnow, h.derivation_eq hslot hnow⟩

theorem indexOf?_of_size_le {side : Branch}
    (shorter : (keys.chain side).size ≤ (model.chain side).size) {address : Address} {i : Nat}
    (found : (keys.chain side).indexOf? address = some i) :
    (model.chain side).indexOf? address = some i :=
  (h.model_sound.chains side).indexOf?_of_size_le (h.chains side) (h.chain_account_eq side)
    (h.chain_branch_eq side) shorter found

theorem contains_of_size_le {side : Branch}
    (shorter : (keys.chain side).size ≤ (model.chain side).size) {address : Address}
    (present : (keys.chain side).contains address) : (model.chain side).contains address := by
  obtain ⟨i, hi⟩ := Chain.contains_iff.mp present
  exact Chain.contains_iff.mpr ⟨i, h.indexOf?_of_size_le shorter hi⟩

/-- A branch that the model has more slots of can grow. -/
theorem not_blocked (missing : (keys.chain branch).size < (model.chain branch).size)
    (shorter : (keys.chain branch.other).size ≤ (model.chain branch.other).size) (e : Failure) :
    ¬keys.Blocked branch e := by
  have hm := h.model_sound
  obtain ⟨slot, hslot⟩ := (model.chain branch).exists_slot?_of_lt_size missing
  have here := (hm.chains branch).indexOf?_iff.mpr ⟨slot, hslot, rfl⟩
  obtain ⟨fresh, next, haddress⟩ := (hm.chains branch).next_of_slot? (h.chain_account_eq branch)
    (h.chain_branch_eq branch) hslot
  rw [Blocked, Chain.Stops, h.source_eq, next]
  rintro (failed | ⟨_, ⟨⟩, -, taken | present⟩)
  · cases failed
  · rw [haddress] at taken
    exact hm.apart (Chain.contains_iff.mpr ⟨_, here⟩) (h.contains_of_size_le shorter taken)
  · rw [haddress] at present
    obtain ⟨i, hi⟩ := Chain.contains_iff.mp present
    have again := h.indexOf?_of_size_le (Nat.le_of_lt missing) hi
    obtain ⟨_, inside, -⟩ := (h.chains branch).indexOf?_iff.mp hi
    rw [here, Option.some.injEq] at again
    exact absurd (Chain.lt_size_of_slot? inside) (again ▸ Nat.lt_irrefl _)

/-- A branch that cannot grow never can, whatever slots either branch gets. -/
theorem blocked (shorter : ∀ side, (keys.chain side).size ≤ (model.chain side).size)
    {e : Failure} (stuck : keys.Blocked branch e) : model.Blocked branch e := by
  have size : (keys.chain branch).size = (model.chain branch).size := by
    apply Nat.le_antisymm (shorter branch)
    by_contra missing
    exact h.not_blocked (Nat.lt_of_not_le missing) (shorter _) e stuck
  have next := Chain.next_congr model.source size (h.chain_account_eq branch)
    (h.chain_branch_eq branch)
  rw [Blocked, Chain.Stops, h.source_eq] at stuck
  obtain failed | ⟨slot, derived, rfl, occurs⟩ := stuck
  · rw [failed] at next
    exact .inl next
  · rw [derived] at next
    exact .inr ⟨_, next, rfl, occurs.imp (h.contains_of_size_le (shorter _))
      (h.contains_of_size_le (shorter _))⟩

end Kin

end HdWallet.Keychain
