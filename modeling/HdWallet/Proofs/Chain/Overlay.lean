import HdWallet.Proofs.Chain.Growth
import HdWallet.Snapshot

/-!
# Saved slots over a chain

Saved slots are laid over a chain one after another, each by setting whether it is used and
what is known about its balance. In the end every slot has what was saved last of its
index, and slots of which nothing was saved are as they were. What is saved of a sound
chain has every index once, so laid over a chain with the same addresses and as many slots
it gives the chain that it was saved of.
-/

namespace HdWallet

/-- What was saved last of an index. -/
def SavedSlot.lastOf (saved : List SavedSlot) (index : Nat) : Option SavedSlot :=
  saved.reverse.find? (·.index.toNat = index)

theorem SavedSlot.lastOf_cons (first : SavedSlot) (rest : List SavedSlot) (index : Nat) :
    lastOf (first :: rest) index =
      (lastOf rest index).or (if first.index.toNat = index then some first else none) := by
  rw [lastOf, List.reverse_cons, List.find?_append, lastOf, List.find?_singleton]
  simp

theorem SavedSlot.mem_of_lastOf {saved : List SavedSlot} {index : Nat} {last : SavedSlot}
    (h : lastOf saved index = some last) : last ∈ saved ∧ last.index.toNat = index := by
  rw [lastOf] at h
  have here := List.find?_some h
  exact ⟨List.mem_reverse.mp (List.mem_of_find?_eq_some h), of_decide_eq_true here⟩

/-- A slot with the use and the balance that were saved of it, if any were. -/
def Slot.restored (slot : Slot) : Option SavedSlot → Slot
  | none => slot
  | some saved =>
    { slot with used := saved.used, cache := { slot.cache with reading := saved.reading } }

theorem Slot.restored_restored (slot : Slot) (first second : Option SavedSlot) :
    (slot.restored first).restored second = slot.restored (second.or first) := by
  cases second with
  | none => rfl
  | some saved => cases first <;> rfl

theorem Slot.restored_of_derivation_eq {slot saved : Slot}
    (same : slot.derivation = saved.derivation)
    (lifetime : slot.cache.lifetime = saved.cache.lifetime) :
    slot.restored (some ⟨saved.path.index, saved.used, saved.cache.reading⟩) = saved := by
  obtain ⟨hpath, haddress, hscript⟩ := Slot.derivation_eq_iff.mp same
  rw [restored, hpath, haddress, hscript]
  dsimp only
  rw [lifetime]

namespace Chain

variable {chain : Chain}

theorem setUsed_spec {index : Nat} (inside : index < chain.size) (used : Bool) :
    ∃ c, chain.setUsed index used = .ok c ∧ ∀ j, c.slot? j =
      (chain.slot? j).map fun slot => if index = j then { slot with used } else slot := by
  obtain ⟨slot, hslot⟩ := exists_slot?_of_lt_size inside
  cases used with
  | false =>
      obtain ⟨c, hc⟩ : ∃ c, chain.setUsed index false = .ok c := by
        rw [setUsed, if_neg Bool.false_ne_true, hslot]
        exact ⟨_, rfl⟩
      exact ⟨c, hc, slot?_unmark hc⟩
  | true =>
      cases used : slot.used with
      | true =>
          have unchanged := markUsed_of_used hslot used
          refine ⟨chain, by rw [setUsed, if_pos rfl, unchanged]; rfl, ?_⟩
          intro j
          by_cases here : index = j
          · subst here
            simp [hslot, ← used]
          · simp [here]
      | false =>
          obtain ⟨c, hc⟩ := markUsed_of_unused hslot used
          exact ⟨c, by rw [setUsed, if_pos rfl, hc]; rfl, slot?_markUsed hc⟩

theorem lt_size_of_setUsed {index : Nat} {used : Bool} {c : Chain}
    (h : chain.setUsed index used = .ok c) : index < chain.size := by
  by_contra outside
  have absent : chain.slot? index = none := Array.getElem?_eq_none (Nat.le_of_not_lt outside)
  cases used with
  | false =>
      rw [setUsed, if_neg Bool.false_ne_true, absent] at h
      cases h
  | true =>
      rw [setUsed, if_pos rfl, markUsed, absent] at h
      cases h

/-- A slot whose use was set is there when its balance is put back. -/
theorem restoreReading_of_setUsed {index : Nat} {used : Bool} {c : Chain}
    (h : chain.setUsed index used = .ok c) (reading : Reading) :
    Snapshot.restoreReading c index reading = .ok (c.modifyCache index ({ · with reading })) := by
  have inside := lt_size_of_setUsed h
  obtain ⟨_, set, slots⟩ := setUsed_spec inside used
  rw [h] at set
  cases set
  obtain ⟨slot, hslot⟩ := exists_slot?_of_lt_size inside
  rw [Snapshot.restoreReading, slots, hslot]
  rfl

/-- Laying over never finds a slot missing whose use it has set. -/
theorem wp_overlay_cons {Q : Unit → Chain → Prop} {E : Failure → Chain → Prop}
    (first : SavedSlot) (rest : List SavedSlot) (chain : Chain) :
    (Snapshot.overlay (first :: rest)).wp Q E chain ↔
      match chain.setUsed first.index.toNat first.used with
      | .ok c => (Snapshot.overlay rest).wp Q E
          (c.modifyCache first.index.toNat ({ · with reading := first.reading }))
      | .error e => E e chain := by
  simp only [Snapshot.overlay, Step.wp_bind, Step.wp_get, Step.wp_set]
  cases h : chain.setUsed first.index.toNat first.used with
  | error e => rw [Step.wp_ofExcept_error]
  | ok c => rw [Step.wp_ofExcept_ok, restoreReading_of_setUsed h, Step.wp_ofExcept_ok]

theorem size_eq_of_slot? {other : Chain} {f : Nat → Slot → Slot}
    (h : ∀ j, other.slot? j = (chain.slot? j).map (f j)) : other.size = chain.size := by
  have le {first second : Chain} (h : ∀ j, (first.slot? j).isSome → (second.slot? j).isSome) :
      first.size ≤ second.size := by
    by_contra longer
    obtain ⟨slot, hslot⟩ := first.exists_slot?_of_lt_size (Nat.lt_of_not_le longer)
    obtain ⟨found, hfound⟩ := Option.isSome_iff_exists.mp
      (h second.size (by rw [hslot]; rfl))
    exact absurd (lt_size_of_slot? hfound) (Nat.lt_irrefl _)
  apply Nat.le_antisymm
  · exact le fun j hj => by rwa [h, Option.isSome_map] at hj
  · exact le fun j hj => by rwa [h, Option.isSome_map]

/-- Laying saved slots over a chain that has all of them succeeds, and each slot gets what was
saved last of its index. -/
theorem overlay_spec {saved : List SavedSlot} (inside : ∀ s ∈ saved, s.index.toNat < chain.size) :
    (Snapshot.overlay saved).wp (fun _ t => ∀ j,
      t.slot? j = (chain.slot? j).map (·.restored (SavedSlot.lastOf saved j)))
      (fun _ _ => False) chain := by
  induction saved generalizing chain with
  | nil => exact fun j => by simp [SavedSlot.lastOf, Slot.restored]
  | cons first rest ih =>
      obtain ⟨c, hc, set⟩ := setUsed_spec (inside first List.mem_cons_self) first.used
      let laid := c.modifyCache first.index.toNat ({ · with reading := first.reading })
      have slots (j : Nat) : laid.slot? j = (chain.slot? j).map
          (·.restored (if first.index.toNat = j then some first else none)) := by
        rw [slot?_modifyCache, set, Option.map_map]
        congr 1
        funext slot
        simp only [Function.comp_apply]
        split <;> rfl
      rw [wp_overlay_cons, hc]
      have below : ∀ s ∈ rest, s.index.toNat < laid.size := fun s hs => by
        rw [size_eq_of_slot? slots]
        exact inside s (List.mem_cons_of_mem _ hs)
      apply (ih below).mono _ fun _ _ ht => ht
      intro _ t hslots j
      rw [hslots, slots, Option.map_map, SavedSlot.lastOf_cons]
      congr 1
      funext slot
      exact slot.restored_restored _ _

theorem setUsed_frame {index : Nat} {used : Bool} {c : Chain}
    (h : chain.setUsed index used = .ok c) :
    c = { chain with slots := c.slots, highestUsed := c.highestUsed } := by
  cases used with
  | false => rw [unmark_eq_ok h]
  | true =>
      rw [setUsed, if_pos rfl] at h
      cases marking : chain.markUsed index with
      | error e =>
          rw [marking] at h
          cases h
      | ok answer =>
          obtain ⟨marked, isNew⟩ := answer
          rw [marking] at h
          cases h
          cases isNew with
          | false => rw [markUsed_eq_ok_false marking]
          | true => rw [markUsed_eq_ok marking]

/-- Laying saved slots over a chain changes its slots and the highest used index only. -/
theorem overlay_frame (saved : List SavedSlot) (chain : Chain) :
    (Snapshot.overlay saved).wp
      (fun _ t => t = { chain with slots := t.slots, highestUsed := t.highestUsed })
      (fun _ _ => True) chain := by
  induction saved generalizing chain with
  | nil => rfl
  | cons first rest ih =>
      rw [wp_overlay_cons]
      split
      next c hc =>
          apply (ih _).mono _ fun _ _ _ => trivial
          intro _ t ht
          rw [Chain.modifyCache, setUsed_frame hc] at ht
          exact ht
      next => trivial

/-- The chain has every saved slot, and each slot is as it was saved last. -/
structure Carries (saved : List SavedSlot) (chain : Chain) : Prop where
  inside : ∀ s ∈ saved, s.index.toNat < chain.size
  restored : ∀ j, (chain.slot? j).map (·.restored (SavedSlot.lastOf saved j)) = chain.slot? j

namespace Carries

variable {saved : List SavedSlot}

theorem of_restored {before : Chain} (inside : ∀ s ∈ saved, s.index.toNat < before.size)
    (laid : ∀ j, chain.slot? j = (before.slot? j).map (·.restored (SavedSlot.lastOf saved j))) :
    chain.Carries saved where
  inside s hs := by
    rw [size_eq_of_slot? laid]
    exact inside s hs
  restored j := by
    rw [laid, Option.map_map]
    congr 1
    funext slot
    exact (slot.restored_restored _ _).trans (by rw [Option.or_self])

/-- Slots behind the saved ones change nothing. -/
theorem of_extends (h : chain.Carries saved) {longer : Chain} (extended : chain.Extends longer) :
    longer.Carries saved where
  inside s hs := (h.inside s hs).trans_le extended.size_le
  restored j := by
    by_cases inner : j < chain.size
    · rw [extended.slot?_eq inner]
      exact h.restored j
    · have unsaved : SavedSlot.lastOf saved j = none := by
        rw [Option.eq_none_iff_forall_ne_some]
        rintro last hlast
        obtain ⟨listed, rfl⟩ := SavedSlot.mem_of_lastOf hlast
        exact inner (h.inside last listed)
      rw [unsaved]
      exact Option.map_id'

theorem slot?_of_lastOf (h : chain.Carries saved) {i : Nat} {last : SavedSlot}
    (hlast : SavedSlot.lastOf saved i = some last) :
    ∃ slot, chain.slot? i = some slot ∧ slot.used = last.used ∧
      slot.cache.reading = last.reading := by
  obtain ⟨listed, rfl⟩ := SavedSlot.mem_of_lastOf hlast
  obtain ⟨slot, hslot⟩ := chain.exists_slot?_of_lt_size (h.inside last listed)
  have same := h.restored last.index.toNat
  rw [hslot, hlast, Option.map_some, Option.some.injEq] at same
  refine ⟨slot, hslot, ?_, ?_⟩
  · rw [← same]
    rfl
  · rw [← same]
    rfl

/-- Laid over a chain that carries them, saved slots change no slot. -/
theorem slots_eq (h : chain.Carries saved) {laid : Chain}
    (restored : ∀ j, laid.slot? j =
      (chain.slot? j).map (·.restored (SavedSlot.lastOf saved j))) : laid.slots = chain.slots := by
  apply Array.ext_getElem?
  intro j
  exact (restored j).trans (h.restored j)

end Carries

/-- Saved slots were laid over a chain that had grown to have all of them: each slot is as it was
saved last, and what joined without being mentioned is unused. -/
structure Overlaid (saved : List SavedSlot) (before after : Chain) : Prop where
  carries : after.Carries saved
  kept : ∀ {j slot}, before.slot? j = some slot →
    after.slot? j = some (slot.restored (SavedSlot.lastOf saved j))
  joined : ∀ {j slot}, before.size ≤ j → after.slot? j = some slot →
    SavedSlot.lastOf saved j = none → slot.used = false

/-- Saved slots say of a chain what is so already, and that no further slot is used. -/
structure Agrees (saved : List SavedSlot) (chain : Chain) : Prop where
  restored : ∀ {j slot}, chain.slot? j = some slot →
    slot.restored (SavedSlot.lastOf saved j) = slot
  unused : ∀ {j last}, SavedSlot.lastOf saved j = some last → chain.size ≤ j → last.used = false

namespace Overlaid

variable {saved : List SavedSlot} {before after : Chain}

theorem of_restored {grown laid : Chain} (grows : before.Extends grown)
    (inside : ∀ s ∈ saved, s.index.toNat < grown.size)
    (restored : ∀ j, laid.slot? j =
      (grown.slot? j).map (·.restored (SavedSlot.lastOf saved j)))
    (extended : laid.Extends after) : before.Overlaid saved after where
  carries := (Carries.of_restored inside restored).of_extends extended
  kept {j slot} hslot := by
    have here : grown.slot? j = some slot :=
      (grows.slot?_eq (lt_size_of_slot? hslot)).trans hslot
    have there := restored j
    rw [here, Option.map_some] at there
    rw [extended.slot?_eq (lt_size_of_slot? there), there]
  joined {j slot} beyond hslot unsaved := by
    by_cases inner : j < laid.size
    · rw [extended.slot?_eq inner, restored, unsaved] at hslot
      obtain ⟨other, hother, rfl⟩ := Option.map_eq_some_iff.mp hslot
      exact grows.unused beyond hother
    · exact extended.unused (Nat.le_of_not_lt inner) hslot

variable (h : before.Overlaid saved after)
include h

theorem size_le : before.size ≤ after.size := by
  by_contra shorter
  obtain ⟨slot, hslot⟩ := before.exists_slot?_of_lt_size (Nat.lt_of_not_le shorter)
  exact absurd (lt_size_of_slot? (h.kept hslot)) (Nat.lt_irrefl _)

/-- Laying saved slots over a chain does no more than growing it just if they agree with it. -/
theorem extends_iff {source : KeySource} (hb : before.Sound source) (ha : after.Sound source)
    (account : after.account = before.account) (branch : after.branch = before.branch)
    (gapLimit : after.gapLimit = before.gapLimit)
    (cacheLifetime : after.cacheLifetime = before.cacheLifetime) :
    before.Extends after ↔ before.Agrees saved := by
  constructor
  · intro extended
    constructor
    · intro j slot hslot
      have now := h.kept hslot
      rw [extended.slot?_eq (lt_size_of_slot? hslot), hslot, Option.some.injEq] at now
      exact now.symm
    · intro j last hlast beyond
      obtain ⟨slot, hslot, used, -⟩ := h.carries.slot?_of_lastOf hlast
      rw [← used]
      exact extended.unused beyond hslot
  · intro agrees
    have old {j : Nat} (inner : j < before.size) : after.slot? j = before.slot? j := by
      obtain ⟨slot, hslot⟩ := before.exists_slot?_of_lt_size inner
      rw [h.kept hslot, agrees.restored hslot, hslot]
    have new {j : Nat} {slot : Slot} (beyond : before.size ≤ j)
        (hslot : after.slot? j = some slot) : slot.used = false := by
      cases hlast : SavedSlot.lastOf saved j with
      | none => exact h.joined beyond hslot hlast
      | some last =>
          obtain ⟨other, hother, used, -⟩ := h.carries.slot?_of_lastOf hlast
          rw [hslot] at hother
          cases hother
          rw [used]
          exact agrees.unused hlast beyond
    refine ⟨account, branch, gapLimit, cacheLifetime, ?_, h.size_le, old, new⟩
    exact hb.highestUsed_eq_of_indices_eq ha (indices_used_eq old new)

end Overlaid

variable {model : Chain} {source : KeySource}

theorem indices_ofChain (h : model.Sound source) :
    (Snapshot.ofChain model).map (·.index.toNat) = List.range model.size := by
  apply List.ext_getElem?
  intro i
  rw [Snapshot.ofChain, List.map_map, List.getElem?_map, Array.getElem?_toList]
  change (model.slot? i).map _ = _
  cases hslot : model.slot? i with
  | none =>
      have beyond : model.size ≤ i := Array.getElem?_eq_none_iff.mp hslot
      rw [List.getElem?_eq_none (by rwa [List.length_range])]
      rfl
  | some slot =>
      rw [List.getElem?_range (lt_size_of_slot? hslot), Option.map_some]
      exact congrArg some (h.index_eq hslot)

theorem lt_size_of_mem_ofChain (h : model.Sound source) {saved : SavedSlot}
    (listed : saved ∈ Snapshot.ofChain model) : saved.index.toNat < model.size := by
  rw [← List.mem_range, ← indices_ofChain h]
  exact List.mem_map_of_mem listed

/-- The highest index that was saved of a sound chain is its last one. -/
theorem highestIndex_eq (h : model.Sound source) {snapshot : Snapshot} {branch : Branch}
    (saved : snapshot.slots branch = Snapshot.ofChain model) :
    snapshot.highestIndex branch = if model.size = 0 then none else some (model.size - 1) := by
  rw [Snapshot.highestIndex, saved, indices_ofChain h]
  split
  next empty => rw [empty]; rfl
  next filled =>
      rw [List.max?_eq_some_iff]
      refine ⟨List.mem_range.mpr (by omega), ?_⟩
      intro i hi
      have := List.mem_range.mp hi
      omega

theorem lastOf_ofChain (h : model.Sound source) {i : Nat} {slot : Slot}
    (hslot : model.slot? i = some slot) :
    SavedSlot.lastOf (Snapshot.ofChain model) i =
      some ⟨slot.path.index, slot.used, slot.cache.reading⟩ := by
  have mem : slot ∈ model.slots.toList :=
    Array.mem_toList_iff.mpr (Array.mem_of_getElem? hslot)
  have found : (SavedSlot.lastOf (Snapshot.ofChain model) i).isSome := by
    rw [SavedSlot.lastOf, List.find?_isSome]
    exact ⟨_, List.mem_reverse.mpr (List.mem_map_of_mem mem), decide_eq_true (h.index_eq hslot)⟩
  obtain ⟨saved, hsaved⟩ := Option.isSome_iff_exists.mp found
  obtain ⟨among, here⟩ := SavedSlot.mem_of_lastOf hsaved
  obtain ⟨other, hother, rfl⟩ := List.mem_map.mp among
  -- Only one slot has the index, so what was found was saved of this one.
  obtain ⟨j, hj⟩ := Array.mem_iff_getElem?.mp (Array.mem_toList_iff.mp hother)
  obtain rfl : j = i := (h.index_eq hj).symm.trans here
  obtain rfl : slot = other := Option.some.inj (hslot.symm.trans hj)
  exact hsaved

/-- A sound chain carries what is saved of it. -/
theorem Sound.carries_ofChain (h : model.Sound source) :
    model.Carries (Snapshot.ofChain model) where
  inside _ listed := lt_size_of_mem_ofChain h listed
  restored j := by
    cases hslot : model.slot? j with
    | none => rfl
    | some slot =>
        rw [lastOf_ofChain h hslot, Option.map_some]
        exact congrArg some (slot.restored_of_derivation_eq rfl rfl)

/-- What was saved of a chain, laid over one of the same branch that is as long, gives the
slots of the chain saved. -/
theorem slots_eq_of_restored (hm : model.Sound source) (h : chain.Sound source)
    (account : chain.account = model.account) (branch : chain.branch = model.branch)
    (lifetime : chain.cacheLifetime = model.cacheLifetime) (size : chain.size = model.size)
    {laid : Chain} (restored : ∀ j, laid.slot? j =
      (chain.slot? j).map (·.restored (SavedSlot.lastOf (Snapshot.ofChain model) j))) :
    laid.slots = model.slots := by
  apply Array.ext_getElem?
  intro j
  change laid.slot? j = model.slot? j
  rw [restored]
  cases hslot : chain.slot? j with
  | none =>
      have beyond : chain.size ≤ j := Array.getElem?_eq_none_iff.mp hslot
      rw [size] at beyond
      exact (Array.getElem?_eq_none beyond).symm
  | some slot =>
      obtain ⟨saved, hsaved⟩ := model.exists_slot?_of_lt_size (size ▸ lt_size_of_slot? hslot)
      have hlifetime : slot.cache.lifetime = saved.cache.lifetime := by
        rw [h.lifetime_eq hslot, lifetime, hm.lifetime_eq hsaved]
      rw [lastOf_ofChain hm hsaved, hsaved, Option.map_some]
      exact congrArg some
        (slot.restored_of_derivation_eq (hm.derivation_eq h account branch hsaved hslot) hlifetime)

end Chain

end HdWallet
