import HdWallet.Proofs.Keychain.Orderly

/-!
# All cached balances at once

A balance is changed at the one place that its address leads to. In a sound keychain that is the
same as changing it in every slot with the address, so what any number of such changes make of a
keychain can be said of all slots at once.
-/

namespace HdWallet

namespace Chain

variable {chain : Chain} {source : KeySource}

def mapCache (f : Slot → CachedBalance) (chain : Chain) : Chain :=
  { chain with slots := chain.slots.map fun slot => { slot with cache := f slot } }

@[simp] theorem slot?_mapCache (f : Slot → CachedBalance) (i : Nat) :
    (chain.mapCache f).slot? i = (chain.slot? i).map fun slot => { slot with cache := f slot } :=
  Array.getElem?_map

theorem find?_mapCache (f : Slot → CachedBalance) (address : Address) :
    (chain.mapCache f).find? address =
      (chain.find? address).map fun slot => { slot with cache := f slot } := by
  change (chain.indexOf? address).bind (chain.mapCache f).slot? = _
  rw [find?]
  cases chain.indexOf? address with
  | none => rfl
  | some i => exact slot?_mapCache f i

theorem mapCache_congr {f g : Slot → CachedBalance}
    (same : ∀ {i slot}, chain.slot? i = some slot → f slot = g slot) :
    chain.mapCache f = chain.mapCache g := by
  rw [mapCache, mapCache]
  congr 1
  apply Array.map_congr_left
  intro slot hslot
  obtain ⟨i, hi⟩ := Array.mem_iff_getElem?.mp hslot
  rw [same hi]

theorem mapCache_cache : (chain.mapCache fun slot => slot.cache) = chain := by
  rw [mapCache, Array.map_id']

/-- A change at the place of an address is one in every slot with that address. -/
theorem Sound.modifyCache_mapCache (h : chain.Sound source) {address : Address} {index : Nat}
    (here : chain.indexOf? address = some index) (f : Slot → CachedBalance)
    (g : CachedBalance → CachedBalance) :
    (chain.mapCache f).modifyCache index g =
      chain.mapCache fun slot => if slot.address = address then g (f slot) else f slot := by
  have place {i : Nat} {slot : Slot} (hslot : chain.slot? i = some slot) :
      index = i ↔ slot.address = address := by
    constructor
    · rintro rfl
      obtain ⟨_, hother, same⟩ := h.indexOf?_iff.mp here
      rw [hslot] at hother
      cases hother
      exact same
    · intro same
      have there := h.indexOf?_iff.mpr ⟨slot, hslot, same⟩
      rw [here] at there
      exact Option.some.inj there
  have slots : ((chain.mapCache f).modifyCache index g).slots =
      (chain.mapCache fun slot => if slot.address = address then g (f slot) else f slot).slots := by
    apply Array.ext_getElem?
    intro i
    change slot? _ i = slot? _ i
    rw [slot?_modifyCache, slot?_mapCache, slot?_mapCache, Option.map_map]
    cases hslot : chain.slot? i with
    | none => rfl
    | some slot =>
        simp only [Option.map_some, Function.comp_apply, place hslot]
        split <;> rfl
  exact congrArg (fun slots : Array Slot => { chain with slots }) slots

end Chain

namespace Keychain

variable {keys : Keychain} {address : Address}

def mapCache (f : Slot → CachedBalance) (keys : Keychain) : Keychain :=
  { keys with
    receiving := keys.receiving.mapCache f
    change := keys.change.mapCache f }

@[simp] theorem chain_mapCache (f : Slot → CachedBalance) (branch : Branch) :
    (keys.mapCache f).chain branch = (keys.chain branch).mapCache f := by
  cases branch <;> rfl

theorem find?_mapCache (f : Slot → CachedBalance) (address : Address) :
    (keys.mapCache f).find? address =
      (keys.find? address).map fun slot => { slot with cache := f slot } := by
  rw [find?, find?, Option.map_or]
  exact congrArg₂ _ (Chain.find?_mapCache f address) (Chain.find?_mapCache f address)

theorem mapCache_congr {f g : Slot → CachedBalance} (same : ∀ slot ∈ keys.slots, f slot = g slot) :
    keys.mapCache f = keys.mapCache g := by
  have receiving : keys.receiving.mapCache f = keys.receiving.mapCache g :=
    Chain.mapCache_congr fun hslot => same _ (mem_slots.mpr ⟨.receiving, _, hslot⟩)
  have change : keys.change.mapCache f = keys.change.mapCache g :=
    Chain.mapCache_congr fun hslot => same _ (mem_slots.mpr ⟨.change, _, hslot⟩)
  rw [mapCache, mapCache, receiving, change]

theorem mapCache_cache : (keys.mapCache fun slot => slot.cache) = keys := by
  rw [mapCache, Chain.mapCache_cache, Chain.mapCache_cache]

/-- A change of the balance of one of the account's addresses. -/
theorem Sound.modifyCache_mapCache (h : keys.Sound) {slot : Slot}
    (known : keys.find? address = some slot) (f : Slot → CachedBalance)
    (g : CachedBalance → CachedBalance) :
    (keys.mapCache f).modifyCache address g =
      (keys.mapCache fun slot => if slot.address = address then g (f slot) else f slot, true) := by
  -- The branch that the address is not on stays as it is.
  have elsewhere {chain : Chain} (sound : chain.Sound keys.source)
      (absent : chain.indexOf? address = none) :
      (chain.mapCache fun slot => if slot.address = address then g (f slot) else f slot) =
        chain.mapCache f := by
    apply Chain.mapCache_congr
    intro i slot hslot
    refine if_neg fun same => ?_
    rw [sound.indexOf?_iff.mpr ⟨slot, hslot, same⟩] at absent
    cases absent
  obtain ⟨-, unknown⟩ | ⟨branch, index, place, here⟩ := h.locate_eq address
  · rw [unknown] at known
    cases known
  have absent : (keys.chain branch.other).indexOf? address = none := by
    by_contra there
    obtain ⟨j, hj⟩ := Option.ne_none_iff_exists'.mp there
    exact h.apart (Chain.contains_iff.mpr ⟨index, here⟩) (Chain.contains_iff.mpr ⟨j, hj⟩)
  have changed := (h.chains branch).modifyCache_mapCache here f g
  have kept := elsewhere (h.chains branch.other) absent
  cases branch with
  | receiving =>
      have here : (keys.mapCache f).receiving.indexOf? address = some index := here
      rw [modifyCache, here]
      exact Prod.ext (congrArg₂ (fun receiving change => { keys with receiving, change })
        changed kept.symm) rfl
  | change =>
      have here : (keys.mapCache f).change.indexOf? address = some index := here
      have absent : (keys.mapCache f).receiving.indexOf? address = none := absent
      rw [modifyCache, absent, here]
      exact Prod.ext (congrArg₂ (fun receiving change => { keys with receiving, change })
        kept.symm changed) rfl

end Keychain

end HdWallet
