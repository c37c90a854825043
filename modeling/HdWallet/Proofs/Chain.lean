import HdWallet.Chain

/-!
# What a chain finds

A chain is well formed if its address map leads to just the slots with these addresses,
and every slot's balance stays valid for as long as the chain says. Then looking up an
address after a change gives what the change made of the slot found before it.
-/

namespace HdWallet

theorem CachedBalance.lifetime_invalidate (c : CachedBalance) :
    c.invalidate.lifetime = c.lifetime := by
  rw [invalidate]
  split <;> rfl

namespace Chain

variable {chain : Chain}

/-- The address map and the slots agree, and all slots have the chain's lifetime. -/
structure WellFormed (chain : Chain) : Prop where
  indexOf?_iff : ∀ {address i}, chain.indexOf? address = some i ↔
    ∃ slot, chain.slot? i = some slot ∧ slot.address = address
  lifetime_eq : ∀ {i slot}, chain.slot? i = some slot → slot.cache.lifetime = chain.cacheLifetime

theorem contains_iff {address : Address} :
    chain.contains address ↔ ∃ i, chain.indexOf? address = some i := by
  rw [contains, indexOf?, Std.ExtTreeMap.contains_eq_isSome_getElem?, Option.isSome_iff_exists]

theorem find?_eq_some_iff {address : Address} {slot : Slot} :
    chain.find? address = some slot ↔
      ∃ i, chain.indexOf? address = some i ∧ chain.slot? i = some slot :=
  Option.bind_eq_some_iff

theorem WellFormed.isSome_find? (h : chain.WellFormed) (address : Address) :
    (chain.find? address).isSome = (chain.indexOf? address).isSome := by
  rw [Bool.eq_iff_iff, Option.isSome_iff_exists, Option.isSome_iff_exists]
  constructor
  · rintro ⟨slot, found⟩
    obtain ⟨i, here, -⟩ := find?_eq_some_iff.mp found
    exact ⟨i, here⟩
  · rintro ⟨i, here⟩
    obtain ⟨slot, hslot, -⟩ := h.indexOf?_iff.mp here
    exact ⟨slot, find?_eq_some_iff.mpr ⟨i, here, hslot⟩⟩

theorem find?_eq_none_of_not_contains {address : Address} (h : ¬chain.contains address) :
    chain.find? address = none := by
  cases hi : chain.indexOf? address with
  | none => rw [find?, hi, Option.bind_none]
  | some i => exact absurd (contains_iff.mpr ⟨i, hi⟩) h

/-- A slot that is found holds the address, and its balance has the chain's lifetime. -/
theorem WellFormed.of_find? (h : chain.WellFormed) {address : Address} {slot : Slot}
    (found : chain.find? address = some slot) :
    slot.address = address ∧ slot.cache.lifetime = chain.cacheLifetime := by
  obtain ⟨i, hi, hslot⟩ := find?_eq_some_iff.mp found
  obtain ⟨other, hother, haddress⟩ := h.indexOf?_iff.mp hi
  rw [hslot] at hother
  cases hother
  exact ⟨haddress, h.lifetime_eq hslot⟩

theorem wellFormed_blank (account : AccountPath) (branch : Branch) (gapLimit : Nat)
    (cacheLifetime : UInt64) :
    WellFormed { account, branch, gapLimit, cacheLifetime } := by
  constructor <;> simp [indexOf?, slot?]

/-- What comes next is an unused slot without a balance, derived at the next index. -/
theorem next_eq_ok {source : KeySource} {slot : Slot} (h : chain.next source = .ok slot) :
    chain.size ≤ lastNormalIndex ∧
      slot.path = chain.account.child chain.branch (UInt32.ofNat chain.size) ∧
      source.derive slot.path = .ok ⟨slot.address, slot.script⟩ ∧
      slot.used = false ∧ slot.cache = .unfilled chain.cacheLifetime := by
  simp only [next] at h
  split at h
  next => cases h
  next room =>
      split at h
      next => cases h
      next derived hderived =>
          cases h
          exact ⟨Nat.le_of_not_lt room, rfl, hderived, rfl, rfl⟩

/-- What comes next depends on the place alone, but for the lifetime of its balance. -/
theorem next_congr (source : KeySource) {other : Chain} (size : other.size = chain.size)
    (account : other.account = chain.account) (branch : other.branch = chain.branch) :
    chain.next source = (other.next source).map
      fun slot => { slot with cache := .unfilled chain.cacheLifetime } := by
  rw [next, next, size, account, branch]
  split
  next => rfl
  next =>
      dsimp only
      split <;> rfl

theorem refusal?_eq_none_iff {slot : Slot} :
    chain.refusal? slot = none ↔
      slot.index = chain.size ∧ slot.path.branch = chain.branch ∧
        ¬chain.contains slot.address := by
  rw [refusal?]
  split
  next wrong =>
      refine ⟨nofun, ?_⟩
      rintro ⟨hindex, hbranch, -⟩
      exact absurd wrong (by simp [hindex, hbranch])
  next right =>
      rw [not_or, Decidable.not_not, Decidable.not_not] at right
      split
      next taken => exact ⟨nofun, fun ⟨_, _, free⟩ => absurd taken free⟩
      next free => exact ⟨fun _ => ⟨right.1, right.2, free⟩, fun _ => rfl⟩

theorem slot?_push (slot : Slot) (i : Nat) :
    (chain.push slot).slot? i = if i = chain.size then some slot else chain.slot? i :=
  Array.getElem?_push

theorem indexOf?_push (slot : Slot) (address : Address) :
    (chain.push slot).indexOf? address =
      if slot.address = address then some slot.index else chain.indexOf? address := by
  simp only [push, indexOf?, Std.ExtTreeMap.getElem?_insert, Std.compare_eq_iff_eq]

theorem slot?_size : chain.slot? chain.size = none :=
  Array.getElem?_eq_none (Nat.le_refl _)

theorem WellFormed.push (h : chain.WellFormed) {slot : Slot} (fits : chain.refusal? slot = none)
    (lifetime : slot.cache.lifetime = chain.cacheLifetime) : (chain.push slot).WellFormed := by
  obtain ⟨hindex, -, free⟩ := refusal?_eq_none_iff.mp fits
  constructor
  · intro address i
    rw [indexOf?_push, slot?_push]
    constructor
    · intro hi
      split at hi
      next here =>
          cases hi
          exact ⟨slot, if_pos hindex, here⟩
      next =>
          obtain ⟨other, hother, haddress⟩ := h.indexOf?_iff.mp hi
          have : i ≠ chain.size := by
            rintro rfl
            rw [slot?_size] at hother
            cases hother
          exact ⟨other, (if_neg this).trans hother, haddress⟩
    · rintro ⟨other, hother, rfl⟩
      split at hother
      next last =>
          cases hother
          rw [if_pos rfl, hindex, last]
      next =>
          have found := h.indexOf?_iff.mpr ⟨other, hother, rfl⟩
          have : slot.address ≠ other.address := fun same =>
            free (contains_iff.mpr ⟨i, same ▸ found⟩)
          rw [if_neg this, found]
  · intro i other hother
    rw [slot?_push] at hother
    split at hother
    next =>
        cases hother
        exact lifetime
    next => exact h.lifetime_eq hother

theorem WellFormed.find?_push (h : chain.WellFormed) {slot : Slot}
    (fits : chain.refusal? slot = none) (address : Address) :
    (chain.push slot).find? address =
      if slot.address = address then some slot else chain.find? address := by
  obtain ⟨hindex, -, -⟩ := refusal?_eq_none_iff.mp fits
  rw [find?, indexOf?_push]
  split
  next => rw [Option.bind_some, slot?_push, if_pos hindex]
  next =>
      rw [find?]
      cases hi : chain.indexOf? address with
      | none => rfl
      | some i =>
          obtain ⟨other, hother, -⟩ := h.indexOf?_iff.mp hi
          have : i ≠ chain.size := by
            rintro rfl
            rw [slot?_size] at hother
            cases hother
          rw [Option.bind_some, Option.bind_some, slot?_push, if_neg this]

theorem firstUnused?_spec {excluded : Std.ExtTreeSet Nat} {slot : Slot}
    (h : chain.firstUnused? excluded = some slot) :
    slot ∈ chain.slots ∧ slot.used = false ∧ slot.index ∉ excluded := by
  have found := Array.find?_some h
  simp only [Bool.and_eq_true, Bool.not_eq_true'] at found
  refine ⟨Array.mem_of_find?_eq_some h, found.1, ?_⟩
  intro excluding
  rw [Std.ExtTreeSet.mem_iff_contains, found.2] at excluding
  cases excluding

theorem slot?_modify (i j : Nat) (f : Slot → Slot) :
    slot? { chain with slots := chain.slots.modify i f } j =
      (chain.slot? j).map fun slot => if i = j then f slot else slot := by
  rw [slot?, slot?, Array.getElem?_modify]
  split <;> simp

theorem WellFormed.modify (h : chain.WellFormed) (i : Nat) {f : Slot → Slot}
    (address : ∀ slot, (f slot).address = slot.address)
    (lifetime : ∀ slot, (f slot).cache.lifetime = slot.cache.lifetime) :
    WellFormed { chain with slots := chain.slots.modify i f } := by
  constructor
  · intro a j
    change chain.indexOf? a = some j ↔ _
    rw [h.indexOf?_iff, slot?_modify]
    cases chain.slot? j with
    | none => simp
    | some slot => by_cases here : i = j <;> simp [here, address]
  · intro j slot hslot
    rw [slot?_modify] at hslot
    obtain ⟨before, hbefore, rfl⟩ := Option.map_eq_some_iff.mp hslot
    change _ = chain.cacheLifetime
    rw [← h.lifetime_eq hbefore]
    by_cases here : i = j <;> simp [here, lifetime]

theorem find?_modify (i : Nat) (f : Slot → Slot) (address : Address) :
    find? { chain with slots := chain.slots.modify i f } address =
      (chain.find? address).map fun slot =>
        if chain.indexOf? address = some i then f slot else slot := by
  change (chain.indexOf? address).bind _ = _
  cases hi : chain.indexOf? address with
  | none => rw [find?, hi]; rfl
  | some j => rw [Option.bind_some, slot?_modify, find?, hi, Option.bind_some]; simp [eq_comm]

theorem markUsed_eq_ok {index : Nat} {marked : Chain}
    (h : chain.markUsed index = .ok (marked, true)) :
    marked = { chain with
      slots := chain.slots.modify index ({ · with used := true })
      highestUsed := some (max (chain.highestUsed.getD 0) index) } := by
  rw [markUsed] at h
  split at h
  next => cases h
  next =>
      split at h <;> cases h
      rfl

theorem markUsed_eq_ok_false {index : Nat} {other : Chain}
    (h : chain.markUsed index = .ok (other, false)) : other = chain := by
  rw [markUsed] at h
  split at h
  next => cases h
  next =>
      split at h <;> cases h
      rfl

theorem WellFormed.markUsed (h : chain.WellFormed) {index : Nat} {marked : Chain}
    (hmarked : chain.markUsed index = .ok (marked, true)) : marked.WellFormed := by
  have modified := h.modify index (f := ({ · with used := true })) (fun _ => rfl) fun _ => rfl
  rw [markUsed_eq_ok hmarked]
  exact ⟨modified.indexOf?_iff, modified.lifetime_eq⟩

theorem unmark_eq_ok {index : Nat} {cleared : Chain}
    (h : chain.setUsed index false = .ok cleared) :
    let slots := chain.slots.modify index ({ · with used := false })
    cleared = { chain with slots, highestUsed := lastUsedBelow slots slots.size } := by
  rw [setUsed, if_neg Bool.false_ne_true] at h
  split at h
  next => cases h
  next =>
      cases h
      rfl

theorem find?_markUsed {index : Nat} {marked : Chain}
    (h : chain.markUsed index = .ok (marked, true)) (address : Address) :
    marked.find? address = (chain.find? address).map fun slot =>
      if chain.indexOf? address = some index then { slot with used := true } else slot := by
  rw [markUsed_eq_ok h]
  exact find?_modify index _ address

theorem map_find?_modifyCache {β : Type} {g : Slot → β}
    (same : ∀ slot cache, g { slot with cache } = g slot) (index : Nat)
    (f : CachedBalance → CachedBalance) (address : Address) :
    ((chain.modifyCache index f).find? address).map g = (chain.find? address).map g := by
  rw [Chain.modifyCache, find?_modify, Option.map_map]
  congr 1
  funext slot
  simp only [Function.comp_apply]
  split
  next => exact same _ _
  next => rfl

theorem WellFormed.modifyCache (h : chain.WellFormed) (index : Nat)
    {f : CachedBalance → CachedBalance} (lifetime : ∀ c, (f c).lifetime = c.lifetime) :
    (chain.modifyCache index f).WellFormed :=
  h.modify index (fun _ => rfl) fun _ => lifetime _

theorem WellFormed.indexOf?_inj (h : chain.WellFormed) {a b : Address} {i : Nat}
    (ha : chain.indexOf? a = some i) (hb : chain.indexOf? b = some i) : a = b := by
  obtain ⟨slot, hslot, rfl⟩ := h.indexOf?_iff.mp ha
  obtain ⟨other, hother, rfl⟩ := h.indexOf?_iff.mp hb
  rw [hslot] at hother
  cases hother
  rfl

theorem slot?_setCacheLifetime (lifetime : UInt64) (i : Nat) :
    (chain.setCacheLifetime lifetime).slot? i =
      (chain.slot? i).map fun slot => { slot with cache := { slot.cache with lifetime } } :=
  Array.getElem?_map

theorem WellFormed.setCacheLifetime (h : chain.WellFormed) (lifetime : UInt64) :
    (chain.setCacheLifetime lifetime).WellFormed := by
  constructor
  · intro address i
    change chain.indexOf? address = some i ↔ _
    rw [h.indexOf?_iff, slot?_setCacheLifetime]
    cases chain.slot? i <;> simp
  · intro i slot hslot
    rw [slot?_setCacheLifetime] at hslot
    obtain ⟨before, -, rfl⟩ := Option.map_eq_some_iff.mp hslot
    rfl

theorem find?_setCacheLifetime (lifetime : UInt64) (address : Address) :
    (chain.setCacheLifetime lifetime).find? address =
      (chain.find? address).map
        fun slot => { slot with cache := { slot.cache with lifetime } } := by
  change (chain.indexOf? address).bind _ = _
  cases hi : chain.indexOf? address with
  | none => rw [find?, hi]; rfl
  | some i => rw [Option.bind_some, slot?_setCacheLifetime, find?, hi, Option.bind_some]

def reading? (chain : Chain) (address : Address) : Option Reading :=
  (chain.find? address).map (·.cache.reading)

theorem reading?_eq_none_of_not_contains {address : Address} (h : ¬chain.contains address) :
    chain.reading? address = none := by
  rw [reading?, find?_eq_none_of_not_contains h, Option.map_none]

theorem WellFormed.reading?_push (h : chain.WellFormed) {source : KeySource} {slot : Slot}
    (next : chain.next source = .ok slot) (fits : chain.refusal? slot = none)
    (address : Address) :
    (chain.push slot).reading? address =
      if slot.address = address then some .unknown else chain.reading? address := by
  obtain ⟨-, -, -, -, hcache⟩ := next_eq_ok next
  rw [reading?, h.find?_push fits]
  split
  next => rw [Option.map_some, hcache]; rfl
  next => rfl

theorem reading?_markUsed {index : Nat} {marked : Chain}
    (h : chain.markUsed index = .ok (marked, true)) (address : Address) :
    marked.reading? address = chain.reading? address := by
  rw [reading?, find?_markUsed h, reading?, Option.map_map]
  congr 1
  funext slot
  simp only [Function.comp_apply]
  split <;> rfl

theorem reading?_setCacheLifetime (lifetime : UInt64) (address : Address) :
    (chain.setCacheLifetime lifetime).reading? address = chain.reading? address := by
  rw [reading?, find?_setCacheLifetime, reading?, Option.map_map]
  rfl

theorem WellFormed.reading?_modifyCache (h : chain.WellFormed) {address : Address} {index : Nat}
    (here : chain.indexOf? address = some index) (f : CachedBalance → CachedBalance)
    (other : Address) :
    (chain.modifyCache index f).reading? other =
      if other = address then (chain.find? address).map fun slot => (f slot.cache).reading
      else chain.reading? other := by
  rw [reading?, Chain.modifyCache, find?_modify, Option.map_map]
  by_cases same : other = address
  · subst same
    rw [if_pos rfl]
    simp only [here, if_true]
    rfl
  · have elsewhere : chain.indexOf? other ≠ some index := fun found =>
      same (h.indexOf?_inj found here)
    rw [if_neg same]
    simp only [elsewhere, if_false]
    rfl

end Chain

end HdWallet
