import HdWallet.KeySource.Scripted
import HdWallet.Proofs.Keychain.Sound
import Mathlib.Data.List.Nodup

/-!
# Keychains in every state

The chains, the maps from addresses and scripts, and the highest used indices of a keychain
say the same about its slots after any operations, whether these succeed or fail and
whatever the key source does. So an address is never found in both chains, and only a
source that repeats an address makes an operation report a duplicate.
-/

namespace HdWallet

namespace Chain

variable {chain : Chain} {source : KeySource}

theorem getElem?_addresses (i : Nat) : chain.addresses[i]? = (chain.slot? i).map (·.address) := by
  rw [addresses, List.getElem?_map, Array.getElem?_toList]
  rfl

theorem WellFormed.find?_iff (h : chain.WellFormed) {address : Address} {slot : Slot} :
    chain.find? address = some slot ↔
      (∃ i, chain.slot? i = some slot) ∧ slot.address = address := by
  rw [find?_eq_some_iff]
  constructor
  · rintro ⟨i, hi, hslot⟩
    obtain ⟨other, hother, same⟩ := h.indexOf?_iff.mp hi
    rw [hslot] at hother
    cases hother
    exact ⟨⟨i, hslot⟩, same⟩
  · rintro ⟨⟨i, hslot⟩, same⟩
    exact ⟨i, h.indexOf?_iff.mpr ⟨slot, hslot, same⟩, hslot⟩

theorem WellFormed.contains_iff_mem (h : chain.WellFormed) {address : Address} :
    chain.contains address ↔ address ∈ chain.addresses := by
  rw [contains_iff, List.mem_iff_getElem?]
  simp only [getElem?_addresses, h.indexOf?_iff, Option.map_eq_some_iff]

theorem WellFormed.nodup_addresses (h : chain.WellFormed) : chain.addresses.Nodup := by
  rw [List.nodup_iff_getElem?_ne_getElem?]
  intro i j before inside same
  obtain ⟨address, haddress⟩ : ∃ address, chain.addresses[j]? = some address :=
    ⟨_, List.getElem?_eq_getElem inside⟩
  rw [haddress, getElem?_addresses] at same
  rw [getElem?_addresses] at haddress
  have here := h.indexOf?_iff.mpr (Option.map_eq_some_iff.mp haddress)
  have there := h.indexOf?_iff.mpr (Option.map_eq_some_iff.mp same)
  rw [here, Option.some.injEq] at there
  omega

end Chain

namespace Keychain

variable {keys : Keychain}

/-- The two chains and all that leads to their slots agree. -/
structure Orderly (keys : Keychain) : Prop where
  size_le : ∀ branch, (keys.chain branch).size ≤ 2 ^ 31
  path_eq : ∀ {branch i slot}, (keys.chain branch).slot? i = some slot →
    slot.path = keys.account.child branch (UInt32.ofNat i) ∧ slot.path.index.toNat = i
  nodup_addresses : keys.addresses.Nodup
  indexOf?_iff : ∀ {branch address i}, (keys.chain branch).indexOf? address = some i ↔
    ∃ slot, (keys.chain branch).slot? i = some slot ∧ slot.address = address
  find?_iff : ∀ {address slot}, keys.find? address = some slot ↔
    slot ∈ keys.slots ∧ slot.address = address
  ofScript?_isSome_iff : ∀ {script}, (keys.ofScript? script).isSome ↔
    ∃ slot ∈ keys.slots, slot.script = script
  script_of_ofScript? : ∀ {script slot}, keys.ofScript? script = some slot →
    slot ∈ keys.slots ∧ slot.script = script
  highestUsed_iff : ∀ {branch i}, (keys.chain branch).highestUsed = some i ↔
    IsGreatest {j | ∃ slot, (keys.chain branch).slot? j = some slot ∧ slot.used} i
  highestUsed_eq_none_iff : ∀ {branch}, (keys.chain branch).highestUsed = none ↔
    ∀ i slot, (keys.chain branch).slot? i = some slot → slot.used = false
  lifetime_eq : ∀ {branch i slot}, (keys.chain branch).slot? i = some slot →
    slot.cache.lifetime = (keys.chain branch).cacheLifetime
  locate_ok : ∀ address, ∃ place, keys.locate address = .ok place
  /-- Deriving further slots stops only before one that cannot be derived or repeats an
  address. -/
  generate_error : ∀ {branch count e t}, generate branch count keys = .error e t →
    (t.chain branch).next t.source = .error e ∨
      ∃ slot side, (t.chain branch).next t.source = .ok slot ∧
        e = .duplicateAddress slot.address ∧ (t.chain side).contains slot.address
  /-- Marking fails for an unknown address, or after the slot was marked, where the source
  derives nothing or an address that occurs already. -/
  markUsed_error : ∀ {address e t}, markUsed address keys = .error e t →
    e = .unknownAddress address ∧ t = keys ∧ keys.find? address = none ∨
    ∃ branch index, keys.locate address = .ok (some (branch, index)) ∧
      (∃ slot, (t.chain branch).slot? index = some slot ∧ slot.used) ∧
      ((t.chain branch).next t.source = .error e ∨
        ∃ slot side, (t.chain branch).next t.source = .ok slot ∧
          e = .duplicateAddress slot.address ∧ (t.chain side).contains slot.address)
  /-- A slot that comes next always fits; only its address may be one that occurs already. -/
  refusal?_next : ∀ {branch slot}, (keys.chain branch).next keys.source = .ok slot →
    (keys.chain branch).refusal? slot =
      if (keys.chain branch).contains slot.address then some (.duplicateAddress slot.address)
      else none

/-- A branch stops where the source fails or repeats an address of either chain. -/
theorem Blocked.cases {branch : Branch} {e : Failure} (blocked : keys.Blocked branch e) :
    (keys.chain branch).next keys.source = .error e ∨
      ∃ slot side, (keys.chain branch).next keys.source = .ok slot ∧
        e = .duplicateAddress slot.address ∧ (keys.chain side).contains slot.address := by
  obtain failed | ⟨slot, next, rfl, there | here⟩ := blocked
  · exact .inl failed
  · exact .inr ⟨slot, _, next, rfl, there⟩
  · exact .inr ⟨slot, _, next, rfl, here⟩

namespace Sound

variable (h : keys.Sound)
include h

theorem nodup_addresses : keys.addresses.Nodup := by
  rw [addresses, slots, List.map_append, List.nodup_append]
  refine ⟨(h.chains .receiving).nodup_addresses, (h.chains .change).nodup_addresses, ?_⟩
  rintro address receiving other change rfl
  exact h.apart ((h.chains .receiving).contains_iff_mem.mpr receiving)
    ((h.chains .change).contains_iff_mem.mpr change)

theorem find?_iff {address : Address} {slot : Slot} :
    keys.find? address = some slot ↔ slot ∈ keys.slots ∧ slot.address = address := by
  rw [Keychain.find?, Option.or_eq_some_iff, mem_slots]
  constructor
  · rintro (found | ⟨-, found⟩)
    · obtain ⟨⟨i, hslot⟩, same⟩ := (h.chains .receiving).find?_iff.mp found
      exact ⟨⟨.receiving, i, hslot⟩, same⟩
    · obtain ⟨⟨i, hslot⟩, same⟩ := (h.chains .change).find?_iff.mp found
      exact ⟨⟨.change, i, hslot⟩, same⟩
  · rintro ⟨⟨branch, i, hslot⟩, same⟩
    have found := (h.chains branch).find?_iff.mpr ⟨⟨i, hslot⟩, same⟩
    cases branch with
    | receiving => exact .inl found
    | change =>
        have present := Chain.contains_iff.mpr ⟨i, (h.chains .change).indexOf?_iff.mpr
          ⟨slot, hslot, same⟩⟩
        exact .inr ⟨Chain.find?_eq_none_of_not_contains (h.apart present), found⟩

theorem ofScript?_isSome_iff {script : Script} :
    (keys.ofScript? script).isSome ↔ ∃ slot ∈ keys.slots, slot.script = script := by
  change (((keys.chain .receiving).ofScript? script).or
    ((keys.chain .change).ofScript? script)).isSome ↔ _
  rw [Option.isSome_or, Bool.or_eq_true, (h.chains .receiving).ofScript?_isSome_iff,
    (h.chains .change).ofScript?_isSome_iff]
  simp only [mem_slots]
  constructor
  · rintro (⟨i, slot, hslot, same⟩ | ⟨i, slot, hslot, same⟩)
    · exact ⟨slot, ⟨.receiving, i, hslot⟩, same⟩
    · exact ⟨slot, ⟨.change, i, hslot⟩, same⟩
  · rintro ⟨slot, ⟨branch, i, hslot⟩, same⟩
    cases branch with
    | receiving => exact .inl ⟨i, slot, hslot, same⟩
    | change => exact .inr ⟨i, slot, hslot, same⟩

theorem script_of_ofScript? {script : Script} {slot : Slot}
    (found : keys.ofScript? script = some slot) : slot ∈ keys.slots ∧ slot.script = script := by
  rw [mem_slots]
  obtain found | ⟨-, found⟩ := Option.or_eq_some_iff.mp found
  · obtain ⟨i, hslot, same⟩ := (h.chains .receiving).script_of_ofScript? found
    exact ⟨⟨.receiving, i, hslot⟩, same⟩
  · obtain ⟨i, hslot, same⟩ := (h.chains .change).script_of_ofScript? found
    exact ⟨⟨.change, i, hslot⟩, same⟩

theorem scriptOf?_eq_some_iff {address : Address} {script : Script} :
    keys.scriptOf? address = some script ↔
      ∃ slot ∈ keys.slots, slot.address = address ∧ slot.script = script := by
  rw [scriptOf?, Option.map_eq_some_iff]
  simp only [h.find?_iff, and_assoc]

theorem mem_addresses_iff {address : Address} :
    address ∈ keys.addresses ↔ ∃ script, keys.scriptOf? address = some script := by
  rw [addresses, List.mem_map]
  simp only [h.scriptOf?_eq_some_iff]
  constructor
  · rintro ⟨slot, slots, rfl⟩
    exact ⟨slot.script, slot, slots, rfl, rfl⟩
  · rintro ⟨-, slot, slots, rfl, -⟩
    exact ⟨slot, slots, rfl⟩

/-- An address is looked up in both chains and found in at most one. -/
theorem locate_eq (address : Address) :
    keys.locate address = .ok none ∧ keys.find? address = none ∨
      ∃ branch index, keys.locate address = .ok (some (branch, index)) ∧
        (keys.chain branch).indexOf? address = some index := by
  rw [locate]
  cases hr : keys.receiving.indexOf? address with
  | none =>
      cases hc : keys.change.indexOf? address with
      | none => exact .inl ⟨rfl, by simp [Keychain.find?, Chain.find?, hr, hc]⟩
      | some index => exact .inr ⟨.change, index, rfl, hc⟩
  | some index =>
      cases hc : keys.change.indexOf? address with
      | none => exact .inr ⟨.receiving, index, rfl, hr⟩
      | some other =>
          have here : (keys.chain .receiving).contains address := Chain.contains_iff.mpr ⟨_, hr⟩
          have there : (keys.chain .change).contains address := Chain.contains_iff.mpr ⟨_, hc⟩
          exact absurd there (h.apart here)

theorem markUsed_error {address : Address} {e : Failure} {t : Keychain}
    (failed : markUsed address keys = .error e t) :
    e = .unknownAddress address ∧ t = keys ∧ keys.find? address = none ∨
    ∃ branch index, keys.locate address = .ok (some (branch, index)) ∧
      (∃ slot, (t.chain branch).slot? index = some slot ∧ slot.used) ∧ t.Blocked branch e := by
  have spec : (markUsed address).wp (fun _ _ => True) (fun e t =>
      e = .unknownAddress address ∧ t = keys ∧ keys.find? address = none ∨
      ∃ branch index, keys.locate address = .ok (some (branch, index)) ∧
        (∃ slot, (t.chain branch).slot? index = some slot ∧ slot.used) ∧
        t.Blocked branch e) keys := by
    obtain ⟨place, unknown⟩ | ⟨branch, index, place, found⟩ := h.locate_eq address
    · simp only [wp_markUsed_iff, place]
      exact .inl ⟨trivial, trivial, unknown⟩
    · simp only [wp_markUsed_iff, place]
      obtain ⟨slot, hslot, -⟩ := (h.chains branch).indexOf?_iff.mp found
      apply (wp_markIndexUsed (Chain.lt_size_of_slot? hslot)).mono fun _ _ _ => trivial
      rintro e t ⟨-, used, -, blocked⟩
      exact .inr ⟨branch, index, rfl, used, blocked⟩
  exact spec.of_error failed

theorem orderly : keys.Orderly where
  size_le branch := (h.chains branch).size_le
  path_eq {branch i slot} hslot := by
    have hpath := (h.chains branch).path_eq hslot
    rw [h.account_eq, h.branch_eq] at hpath
    exact ⟨hpath, (h.chains branch).index_eq hslot⟩
  nodup_addresses := h.nodup_addresses
  indexOf?_iff := (h.chains _).indexOf?_iff
  find?_iff := h.find?_iff
  ofScript?_isSome_iff := h.ofScript?_isSome_iff
  script_of_ofScript? := h.script_of_ofScript?
  highestUsed_iff := (h.chains _).highestUsed_iff
  highestUsed_eq_none_iff := (h.chains _).highestUsed_eq_none_iff
  lifetime_eq := (h.chains _).lifetime_eq
  locate_ok address := by
    obtain ⟨place, -⟩ | ⟨branch, index, place, -⟩ := h.locate_eq address
    · exact ⟨_, place⟩
    · exact ⟨_, place⟩
  generate_error failed := ((generate_spec _ _ keys).of_error failed).2.2.cases
  markUsed_error failed := by
    obtain unknown | ⟨branch, index, place, marked, blocked⟩ := h.markUsed_error failed
    · exact .inl unknown
    · exact .inr ⟨branch, index, place, marked, blocked.cases⟩
  refusal?_next := Chain.refusal?_of_next

end Sound

/-- An address of the model has the same script in a keychain that is as long. -/
theorem Kin.scriptOf?_eq {model : Keychain} (h : model.Kin keys)
    (longer : ∀ branch, (model.chain branch).size ≤ (keys.chain branch).size) {address : Address}
    (tracked : address ∈ model.addresses) :
    keys.scriptOf? address = model.scriptOf? address := by
  obtain ⟨slot, slots, rfl⟩ := List.mem_map.mp tracked
  obtain ⟨branch, i, hslot⟩ := mem_slots.mp slots
  obtain ⟨now, hnow, same⟩ := h.exists_slot? (longer branch) hslot
  obtain ⟨-, haddress, hscript⟩ := Slot.derivation_eq_iff.mp same
  rw [h.model_sound.scriptOf?_eq_some_iff.mpr ⟨slot, slots, rfl, rfl⟩,
    h.sound.scriptOf?_eq_some_iff]
  exact ⟨now, mem_slots.mpr ⟨branch, i, hnow⟩, haddress, hscript⟩

inductive Operation where
  | generate (branch : Branch) (count : Nat)
  | ensure (branch : Branch) (count : Nat)
  | maintain (branch : Branch)
  | nextUnused (branch : Branch) (excluded : Std.ExtTreeSet Nat)
  | markUsed (address : Address)
  | markIndexUsed (branch : Branch) (index : Nat)
  | setGapLimit (branch : Branch) (limit : Nat)
  | setCacheLifetime (lifetime : UInt64)
  | applySnapshot (snapshot : Snapshot)

/-- The step that an operation is. Restoring a snapshot looks at more than the addresses. -/
def Operation.step : Operation → Step Holdings Unit
  | .generate branch count => Holdings.onKeychain (discard (Keychain.generate branch count))
  | .ensure branch count => Holdings.onKeychain (discard (Keychain.ensure branch count))
  | .maintain branch => Holdings.onKeychain (discard (Keychain.maintain branch))
  | .nextUnused branch excluded =>
    Holdings.onKeychain (discard (Keychain.nextUnused branch excluded))
  | .markUsed address => Holdings.onKeychain (discard (Keychain.markUsed address))
  | .markIndexUsed branch index =>
    Holdings.onKeychain (discard (Keychain.markIndexUsed branch index))
  | .setGapLimit branch limit => Holdings.onKeychain (discard (Keychain.setGapLimit branch limit))
  | .setCacheLifetime lifetime => Holdings.onKeychain (modify (·.setCacheLifetime lifetime))
  | .applySnapshot snapshot => snapshot.apply

theorem Enduring.keeps_operation {P : Keychain → Prop} (enduring : Enduring P)
    (operation : Operation) : operation.step.Keeps fun h => P h.keychain := by
  have onKeychain {step : Step Keychain Unit} (keeps : step.Keeps P) :
      (Holdings.onKeychain step).Keeps fun h => P h.keychain :=
    Step.keeps_onPart fun h hk => keeps h.keychain hk
  have growth := enduring.toGrowth
  have carried := enduring.toMarking.carried
  cases operation with
  | generate branch count => exact onKeychain (growth.keeps_generate branch count).discard
  | ensure branch count => exact onKeychain (growth.keeps_ensure branch count).discard
  | maintain branch => exact onKeychain (growth.keeps_maintain branch).discard
  | nextUnused branch excluded => exact onKeychain (growth.keeps_nextUnused branch excluded).discard
  | markUsed address => exact onKeychain (carried.keeps_markUsed address).discard
  | markIndexUsed branch index => exact onKeychain (carried.markIndexUsed branch index).discard
  | setGapLimit branch limit =>
      exact onKeychain (enduring.toInvariant.keeps_setGapLimit branch limit).discard
  | setCacheLifetime lifetime =>
      exact onKeychain (Step.keeps_modify fun _ => enduring.setCacheLifetime lifetime)
  | applySnapshot snapshot =>
      exact keeps_apply (enduring.toRestoring.keeps_applyBranch snapshot) fun _ hk => hk

end Keychain

/-- A source whose third receiving address is the first one again. -/
def KeySource.repeating : KeySource :=
  let again : Override := { address := some ⟨"receiving-0"⟩ }
  numbered (.ofList [("receiving/2", again)]) true

namespace Holdings

def after (h : Holdings) (operations : List Keychain.Operation) : Holdings :=
  operations.foldl (fun h operation => operation.step.stateAfter h) h

end Holdings

theorem Keychain.Enduring.keeps_after {P : Keychain → Prop} (enduring : Enduring P) {h : Holdings}
    (hk : P h.keychain) (operations : List Operation) : P (h.after operations).keychain := by
  induction operations generalizing h with
  | nil => exact hk
  | cons operation rest ih => exact ih ((enduring.keeps_operation operation).stateAfter hk)

namespace Holdings

/-- A keychain is orderly after any operations, however they end. -/
theorem orderly_after {config : Config} {source : KeySource} {h : Holdings}
    (opened : Keychain.ofConfig config source = .ok h.keychain)
    (operations : List Keychain.Operation) : (h.after operations).keychain.Orderly := by
  have sound : (h.after operations).keychain.Sound :=
    Keychain.enduring_sound.keeps_after (Keychain.sound_of_ofConfig opened) operations
  exact sound.orderly

/-- A source that repeats an address stops the growth after a marking, and the keychain is
orderly all the same. -/
theorem orderly_after_collision :
    let config : Config := { receivingGapLimit := 2, changeGapLimit := 2 }
    ∃ h : Holdings, Keychain.ofConfig config .repeating = .ok h.keychain ∧
      (h.after [.markUsed ⟨"receiving-1"⟩]).keychain.receiving.highestUsed = some 1 ∧
      (h.after [.markUsed ⟨"receiving-1"⟩]).keychain.Orderly := by
  intro config
  let holdings (keychain : Keychain) : Holdings :=
    { keychain, ledger := .empty, reservations := { lifetime := 300 } }
  have answer : (Keychain.ofConfig config .repeating).toOption.any fun keys =>
      ((holdings keys).after [.markUsed ⟨"receiving-1"⟩]).keychain.receiving.highestUsed =
        some 1 := by
    decide +kernel
  obtain ⟨keys, opened, marked⟩ := Step.exists_ok_of_any answer
  have orderly := @orderly_after config .repeating (holdings keys) opened
  exact ⟨holdings keys, opened, of_decide_eq_true marked, orderly _⟩

end Holdings

/-- Marking an address may report another one as a duplicate. -/
theorem Keychain.duplicate_after_marking :
    let config : Config := { receivingGapLimit := 2, changeGapLimit := 2 }
    ∃ keys t, ofConfig config .repeating = .ok keys ∧
      markUsed ⟨"receiving-1"⟩ keys = .error (.duplicateAddress ⟨"receiving-0"⟩) t := by
  intro config
  have answer : (ofConfig config .repeating).toOption.any fun keys =>
      match markUsed ⟨"receiving-1"⟩ keys with
      | .ok _ _ => false
      | .error e _ => e = .duplicateAddress ⟨"receiving-0"⟩ := by
    decide +kernel
  obtain ⟨keys, opened, repeated⟩ := Step.exists_ok_of_any answer
  split at repeated
  next => cases repeated
  next e t failed => exact ⟨keys, t, opened, of_decide_eq_true repeated ▸ failed⟩

end HdWallet
