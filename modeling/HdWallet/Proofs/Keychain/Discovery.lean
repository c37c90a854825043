import HdWallet.Proofs.Keychain.Marking
import Mathlib.Data.Set.Card

/-!
# Addresses that are known to be used

Marking an address grows its chain, and some of the further addresses may have to be marked as
well. A keychain that covers a set of addresses has marked all of them that it has, and is as long
as the gap rule then asks for. Marking one address after another gets no further than any keychain
that covers them: each slot that is marked is there in that keychain, at the same place, and so is
each slot that the gap rule then asks for. What is reached in the end is therefore the least
keychain that covers them, whatever was marked first, and marking fails only where there is none.
-/

namespace HdWallet.Keychain

variable {before keys later : Keychain} {branch : Branch} {marks : Set Address}

/-- A longer keychain in which nothing is unused again, every slot is used whose address is among
some, and the gap rule holds. -/
structure Covers (before : Keychain) (marks : Set Address) (keys : Keychain) : Prop
    extends Follows before keys where
  size_le : ∀ branch, (before.chain branch).size ≤ (keys.chain branch).size
  used_of_used : ∀ {branch i}, before.UsedAt branch i → keys.UsedAt branch i
  used_of_mem : ∀ {branch i slot}, (keys.chain branch).slot? i = some slot →
    slot.address ∈ marks → slot.used
  adequate : keys.Adequate

/-- Another keychain has no fewer slots, and what is used is used there as well. -/
structure Within (keys later : Keychain) : Prop where
  size_le : ∀ branch, (keys.chain branch).size ≤ (later.chain branch).size
  used_of_used : ∀ {branch i}, keys.UsedAt branch i → later.UsedAt branch i

/-- The source is dependable, or some keychain covers the addresses. -/
def Coverable (before : Keychain) (marks : Set Address) : Prop :=
  before.source.Dependable before.account ∨ ∃ keys, before.Covers marks keys

def newlyUsed (before keys : Keychain) : Set (Branch × Nat) :=
  {place | keys.UsedAt place.1 place.2 ∧ ¬before.UsedAt place.1 place.2}

/-- What comes of a keychain when some of the given addresses are marked, one after another: it has
gone no further than any keychain that covers them. -/
structure Forced (before : Keychain) (marks : Set Address) (keys : Keychain) : Prop
    extends Continues before keys where
  adequate : keys.Adequate
  used_of_used : ∀ {branch i}, before.UsedAt branch i → keys.UsedAt branch i
  mem_of_used : ∀ {branch i slot}, (keys.chain branch).slot? i = some slot →
    (branch, i) ∈ before.newlyUsed keys → slot.address ∈ marks
  within : ∀ {later}, before.Covers marks later → keys.Within later

def IsUsed (keys : Keychain) (address : Address) : Prop :=
  ∃ branch i slot, (keys.chain branch).slot? i = some slot ∧ slot.address = address ∧ slot.used

theorem UsedAt.isUsed {i : Nat} {slot : Slot} (used : later.UsedAt branch i) (sound : keys.Sound)
    (continues : keys.Continues later) (hslot : (keys.chain branch).slot? i = some slot) :
    later.IsUsed slot.address := by
  obtain ⟨now, hnow, used⟩ := used
  have same := (continues.kin sound).address_eq hslot hnow
  exact ⟨branch, i, now, hnow, same, used⟩

theorem IsUsed.of_continues {address : Address} (h : keys.IsUsed address) (sound : keys.Sound)
    (continues : keys.Continues later)
    (kept : ∀ {side j}, keys.UsedAt side j → later.UsedAt side j) : later.IsUsed address := by
  obtain ⟨branch, i, slot, hslot, rfl, used⟩ := h
  have used : keys.UsedAt branch i := ⟨slot, hslot, used⟩
  exact (kept used).isUsed sound continues hslot

/-- No other slot has the address. -/
theorem Sound.used_of_isUsed (h : keys.Sound) {i : Nat} {slot : Slot}
    (hslot : (keys.chain branch).slot? i = some slot) (used : keys.IsUsed slot.address) :
    slot.used := by
  obtain ⟨side, j, other, hother, same, used⟩ := used
  have place := h.locate_of_slot? hother
  rw [same, h.locate_of_slot? hslot] at place
  cases place
  rw [hslot] at hother
  cases hother
  exact used

theorem newlyUsed_self (keys : Keychain) : keys.newlyUsed keys = ∅ := by
  ext place
  simp [newlyUsed]

theorem Sound.forced_self (h : keys.Sound) (adequate : keys.Adequate) :
    keys.Forced marks keys where
  toContinues := .refl h
  adequate := adequate
  used_of_used used := used
  mem_of_used _ new := by
    rw [newlyUsed_self] at new
    exact new.elim
  within covers := ⟨covers.size_le, covers.used_of_used⟩

namespace Forced

variable {i : Nat} {slot : Slot}

/-- One keychain at most covers the addresses and has gone no further than it must. -/
theorem unique {other : Keychain} (h : before.Forced marks keys) (covers : before.Covers marks keys)
    (h' : before.Forced marks other) (covers' : before.Covers marks other) : other = keys := by
  have up := h.within covers'
  have down := h'.within covers
  apply h.eq_of_same h'.toContinues
  · exact fun side => Nat.le_antisymm (down.size_le side) (up.size_le side)
  · exact fun side => Set.Subset.antisymm (fun _ => down.used_of_used) fun _ => up.used_of_used

section Mark

variable (h : before.Forced marks keys) (hslot : (keys.chain branch).slot? i = some slot)
  (listed : slot.address ∈ marks)
include h hslot listed

/-- A keychain that covers the addresses has the slot and has it marked. -/
theorem usedAt_of_covers (covers : before.Covers marks later) : later.UsedAt branch i := by
  obtain ⟨now, hnow⟩ := (later.chain branch).exists_slot?_of_lt_size
    ((Chain.lt_size_of_slot? hslot).trans_le ((h.within covers).size_le branch))
  have same := (covers.kin_of h.toFollows).address_eq hnow hslot
  exact ⟨now, hnow, covers.used_of_mem hnow (same ▸ listed)⟩

variable {chain : Chain} {t : Keychain}
  (marking : (keys.chain branch).markUsed i = .ok (chain, true))
  (grows : (setChain branch chain keys).Grows branch t)
include marking grows

theorem used_of_grows (covers : before.Covers marks later) {side : Branch} {j : Nat}
    (used : t.UsedAt side j) : later.UsedAt side j := by
  obtain ⟨rfl, rfl⟩ | used := (usedAt_iff_of_grows marking grows).mp used
  · exact h.usedAt_of_covers hslot listed covers
  · exact (h.within covers).used_of_used used

/-- The gap rule asks for no more slots than a keychain has that covers the addresses. -/
theorem requiredSize_le_of_grows (continues : before.Continues t)
    (covers : before.Covers marks later) (side : Branch) :
    (t.chain side).requiredSize ≤ (later.chain side).size := by
  have source := continues.settings.source_eq.trans covers.settings.source_eq.symm
  have required : (t.chain side).requiredSize ≤ (later.chain side).requiredSize := by
    apply (continues.sound.chains side).requiredSize_le (source ▸ covers.sound.chains side)
    · rw [covers.settings.gapLimit_eq, continues.settings.gapLimit_eq]
    · exact fun _ => h.used_of_grows hslot listed marking grows covers
  exact required.trans (covers.adequate side)

/-- Once the chain has grown to what the gap rule asks for, no more was done than has to be. -/
theorem forced_of_grows (continues : before.Continues t) (adequate : t.Adequate)
    (full : (t.chain branch).size = max chain.size chain.requiredSize) :
    before.Forced marks t := by
  have used_iff {side : Branch} {j : Nat} :
      t.UsedAt side j ↔ (side = branch ∧ j = i) ∨ keys.UsedAt side j :=
    usedAt_iff_of_grows marking grows
  obtain ⟨extended, other⟩ := grows.of_setChain
  have size : chain.size = (keys.chain branch).size := by
    rw [Chain.markUsed_eq_ok marking]
    simp [Chain.size]
  refine ⟨continues, adequate, fun used => used_iff.mpr (.inr (h.used_of_used used)), ?_, ?_⟩
  · rintro side j now hnow ⟨used, new⟩
    have kin := h.kin_of continues.toFollows
    obtain ⟨rfl, rfl⟩ | ⟨other, hother, used⟩ := used_iff.mp used
    · rwa [kin.address_eq hslot hnow]
    · rw [kin.address_eq hother hnow]
      exact h.mem_of_used hother ⟨⟨other, hother, used⟩, new⟩
  · intro later covers
    refine ⟨fun side => ?_, h.used_of_grows hslot listed marking grows covers⟩
    have shorter := (h.within covers).size_le side
    obtain rfl | rfl := side.eq_or_eq_other branch
    · have := h.requiredSize_le_of_grows hslot listed marking grows continues covers side
      rw [extended.requiredSize_eq] at this
      omega
    · rwa [other]

/-- Where the chain stops short, nothing covers the addresses. -/
theorem not_coverable (continues : before.Continues t)
    (short : (t.chain branch).size < chain.requiredSize) {e : Failure}
    (blocked : t.Blocked branch e) : ¬before.Coverable marks := by
  obtain ⟨extended, other⟩ := grows.of_setChain
  rintro (dependable | ⟨later, covers⟩)
  · rw [← continues.settings.source_eq, ← continues.settings.account_eq] at dependable
    have := chain.requiredSize_le
    exact continues.sound.not_blocked dependable (by omega) e blocked
  · have kin := covers.kin_of continues.toFollows
    have enough := h.requiredSize_le_of_grows hslot listed marking grows continues covers branch
    rw [extended.requiredSize_eq] at enough
    apply kin.not_blocked (short.trans_le enough) _ e blocked
    rw [other]
    exact (h.within covers).size_le _

end Mark

/-- Marking one of the addresses. -/
theorem wp_markUsed (h : before.Forced marks keys) (hslot : (keys.chain branch).slot? i = some slot)
    (listed : slot.address ∈ marks) :
    (markUsed slot.address).wp
      (fun isNew t => before.Forced marks t ∧ keys.Continues t ∧
        (∀ {side j}, t.UsedAt side j ↔ (side = branch ∧ j = i) ∨ keys.UsedAt side j) ∧
        (isNew ↔ ¬keys.UsedAt branch i))
      (fun _ _ => ¬before.Coverable marks) keys := by
  have continues := (marking_continues before).keeps_markIndexUsed branch i keys h.toContinues
  have follows := (marking_continues keys).keeps_markIndexUsed branch i keys (.refl h.sound)
  have adequate := carried_adequate.markIndexUsed branch i keys h.adequate
  simp only [wp_markUsed_iff, h.sound.locate_of_slot? hslot]
  apply (((markIndexUsed_spec branch i keys).and continues).and (follows.and adequate)).mono
  · rintro isNew t ⟨⟨marked, continues⟩, follows, adequate⟩
    cases isNew with
    | false =>
        obtain ⟨used, rfl⟩ := marked
        refine ⟨h, follows, fun {side j} => (or_iff_right_of_imp ?_).symm, by simp [used]⟩
        rintro ⟨rfl, rfl⟩
        exact used
    | true =>
        obtain ⟨unused, chain, marking, grows, full⟩ := marked
        exact ⟨h.forced_of_grows hslot listed marking grows continues adequate full, follows,
          usedAt_iff_of_grows marking grows, by simp [unused]⟩
  · rintro e t ⟨⟨⟨missing, -⟩ | ⟨-, chain, marking, grows, short, blocked⟩, continues⟩, -⟩
    · rw [hslot] at missing
      cases missing
    · exact h.not_coverable hslot listed marking grows continues short blocked

/-- A slot that is newly marked counts once. -/
theorem encard_newlyUsed (h : before.Forced marks keys) {t : Keychain} {isNew : Bool}
    (used_iff : ∀ {side j}, t.UsedAt side j ↔ (side = branch ∧ j = i) ∨ keys.UsedAt side j)
    (isNew_iff : isNew ↔ ¬keys.UsedAt branch i) :
    (before.newlyUsed t).encard =
      (before.newlyUsed keys).encard + if isNew then 1 else 0 := by
  cases isNew with
  | false =>
      have used : keys.UsedAt branch i := by simpa using isNew_iff
      have same : before.newlyUsed t = before.newlyUsed keys := by
        ext ⟨side, j⟩
        refine and_congr_left fun _ => used_iff.trans (or_iff_right_of_imp ?_)
        rintro ⟨rfl, rfl⟩
        exact used
      simp [same]
  | true =>
      have unused : ¬keys.UsedAt branch i := isNew_iff.mp rfl
      have more : before.newlyUsed t = insert (branch, i) (before.newlyUsed keys) := by
        ext ⟨side, j⟩
        simp only [newlyUsed, Set.mem_ofPred_eq, used_iff, Set.mem_insert_iff, Prod.mk.injEq]
        constructor
        · rintro ⟨here | kept, new⟩
          · exact .inl here
          · exact .inr ⟨kept, new⟩
        · rintro (⟨rfl, rfl⟩ | ⟨kept, new⟩)
          · exact ⟨.inl ⟨rfl, rfl⟩, fun used => unused (h.used_of_used used)⟩
          · exact ⟨.inr kept, new⟩
      rw [more, Set.encard_insert_of_notMem fun listed => unused listed.1]
      rfl

end Forced

end HdWallet.Keychain
