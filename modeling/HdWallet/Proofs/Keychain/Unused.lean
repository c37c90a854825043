import HdWallet.Proofs.Keychain.Sound

/-!
# Which slot is handed out

The slot that is handed out has the least index that is neither used nor excluded. If every
slot of the chain is used or excluded, the chain grows by one gap limit first. What is excluded
lies inside the chain, so that one of the new slots will do: handing out a slot fails only
where the chain cannot grow.
-/

namespace HdWallet

namespace Chain

variable {chain : Chain} {source : KeySource} {excluded : Std.ExtTreeSet Nat} {slot : Slot}

def free (chain : Chain) (excluded : Set Nat) : Set Nat :=
  chain.indices (·.used = false) \ excluded

theorem Sound.firstUnused?_eq_some (h : chain.Sound source)
    (found : chain.firstUnused? excluded = some slot) :
    chain.slot? slot.index = some slot ∧ IsLeast (chain.free {i | i ∈ excluded}) slot.index := by
  obtain ⟨-, unused, unexcluded⟩ := firstUnused?_spec found
  obtain ⟨-, i, inside, rfl, before⟩ := Array.find?_eq_some_iff_getElem.mp found
  have here : chain.slot? i = some chain.slots[i] := Array.getElem?_eq_getElem inside
  rw [h.index_eq here] at unexcluded ⊢
  refine ⟨here, ⟨⟨chain.slots[i], here, unused⟩, unexcluded⟩, ?_⟩
  rintro j ⟨⟨other, hother, free⟩, outside⟩
  by_contra earlier
  -- An earlier slot was passed over because it is used or excluded.
  have passed := before j (Nat.lt_of_not_le earlier)
  obtain ⟨_, rfl⟩ := Array.getElem?_eq_some_iff.mp hother
  rw [h.index_eq hother, free, Bool.not_false, Bool.true_and, Bool.not_not] at passed
  exact outside (Std.ExtTreeSet.mem_iff_contains.mpr passed)

theorem Sound.firstUnused?_eq_none (h : chain.Sound source)
    (none_found : chain.firstUnused? excluded = none) :
    chain.free {i | i ∈ excluded} = ∅ := by
  rw [Set.eq_empty_iff_forall_notMem]
  rintro i ⟨⟨slot, hslot, unused⟩, unexcluded⟩
  rw [Set.mem_ofPred_eq, Std.ExtTreeSet.mem_iff_contains, Bool.not_eq_true] at unexcluded
  apply Array.find?_eq_none.mp none_found slot (Array.mem_of_getElem? hslot)
  rw [h.index_eq hslot, unused, unexcluded]
  rfl

end Chain

namespace Keychain

variable {keys : Keychain} {branch : Branch} {excluded : Std.ExtTreeSet Nat}

/-- The first slot that is neither used nor excluded was handed out, after the chain had grown
by one gap limit if there was none. -/
structure HandsOut (branch : Branch) (excluded : Set Nat) (before : Keychain)
    (slot : Slot) (after : Keychain) : Prop where
  slot?_eq : (after.chain branch).slot? slot.index = some slot
  isLeast : IsLeast ((after.chain branch).free excluded) slot.index
  grown : after = before ∨ (before.chain branch).free excluded = ∅ ∧ before.Grows branch after ∧
    (after.chain branch).size = (before.chain branch).size + (before.chain branch).gapLimit

/-- Handing out a slot fails if none is free and the chain cannot grow by one gap limit. -/
theorem Sound.wp_nextUnused (h : keys.Sound)
    (inside : ∀ i ∈ excluded, i < (keys.chain branch).size)
    (positive : 0 < (keys.chain branch).gapLimit) :
    (nextUnused branch excluded).wp (HandsOut branch {i | i ∈ excluded} keys)
      (fun e t => (keys.chain branch).free {i | i ∈ excluded} = ∅ ∧ keys.Grows branch t ∧
        (t.chain branch).size < (keys.chain branch).size + (keys.chain branch).gapLimit ∧
        t.Blocked branch e) keys := by
  simp only [nextUnused, Step.wp_bind, Step.wp_get]
  split
  next slot found =>
      obtain ⟨here, least⟩ := (h.chains branch).firstUnused?_eq_some found
      exact ⟨here, least, .inl rfl⟩
  next none_found =>
      have all_taken := (h.chains branch).firstUnused?_eq_none none_found
      have sound := enduring_sound.toGrowth.keeps_generate branch
        (keys.chain branch).gapLimit keys h
      simp only [Step.wp_bind, Step.wp_get, Step.wp_discard]
      apply ((generate_spec branch _ keys).and sound).mono
      · rintro _ t ⟨⟨grows, hsize⟩, ht⟩
        split
        next slot found =>
            obtain ⟨here, least⟩ := (ht.chains branch).firstUnused?_eq_some found
            exact ⟨here, least, .inr ⟨all_taken, grows, hsize⟩⟩
        next again_none =>
            -- The first of the new slots is unused, and all that is excluded lies before it.
            have none_free := (ht.chains branch).firstUnused?_eq_none again_none
            obtain ⟨slot, hslot⟩ : ∃ slot,
                (t.chain branch).slot? (keys.chain branch).size = some slot :=
              Chain.exists_slot?_of_lt_size (by omega)
            have free : (keys.chain branch).size ∈ (t.chain branch).free {i | i ∈ excluded} :=
              ⟨⟨slot, hslot, grows.extended.unused (Nat.le_refl _) hslot⟩,
                fun listed => Nat.lt_irrefl _ (inside _ listed)⟩
            rw [none_free] at free
            exact free.elim
      · rintro e t ⟨⟨grows, hsize, blocked⟩, -⟩
        exact ⟨all_taken, grows, hsize, blocked⟩

end Keychain

end HdWallet
