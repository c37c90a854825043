import HdWallet.Proofs.Keychain.Dependable
import HdWallet.Proofs.Keychain.Orderly
import HdWallet.Proofs.Keychain.Reload

/-!
# Addresses marked in any order

Each marking grows a chain to what the gap rule asks for at that moment, so the slots that one
marking derives depend on what was marked before. What is there in the end does not: the marked
addresses are used, and a chain with a newly marked address is as long as the gap rule asks for
with all of them marked. One keychain at most fits this description. Marking fails only where
the source does, and not before any other order of the same markings would fail.
-/

namespace HdWallet

namespace Chain

variable {chain other : Chain} {source : KeySource}

/-- The source says what the slots of a branch are but for their use and their balances. -/
theorem Sound.slots_eq (h : chain.Sound source) (h' : other.Sound source)
    (account : other.account = chain.account) (branch : other.branch = chain.branch)
    (size : other.size = chain.size) (used : other.indices (·.used) = chain.indices (·.used))
    (cache : ∀ {i x y}, chain.slot? i = some x → other.slot? i = some y → y.cache = x.cache) :
    other.slots = chain.slots := by
  apply Array.ext_getElem?
  intro i
  change other.slot? i = chain.slot? i
  cases hslot : chain.slot? i with
  | none =>
      apply Array.getElem?_eq_none
      exact size.le.trans (Array.getElem?_eq_none_iff.mp hslot)
  | some x =>
      obtain ⟨y, hother⟩ := other.exists_slot?_of_lt_size (size ▸ lt_size_of_slot? hslot)
      obtain ⟨hpath, haddress, hscript⟩ :=
        Slot.derivation_eq_iff.mp (h.derivation_eq h' account branch hslot hother)
      have flags : y.used = true ↔ x.used = true := by
        have same := Set.ext_iff.mp used i
        simpa [mem_indices, hslot, hother] using same
      rw [hother, Option.some.injEq]
      exact Slot.mk.injEq .. ▸
        ⟨hpath, haddress, hscript, Bool.eq_iff_iff.mpr flags, cache hslot hother⟩

/-- A sound chain is determined by its settings and its slots. -/
theorem Sound.eq_of_slots (h : chain.Sound source) (h' : other.Sound source)
    (account : other.account = chain.account) (branch : other.branch = chain.branch)
    (gapLimit : other.gapLimit = chain.gapLimit)
    (cacheLifetime : other.cacheLifetime = chain.cacheLifetime)
    (slots : other.slots = chain.slots) : other = chain := by
  have byAddress : other.byAddress = chain.byAddress := by
    apply Std.ExtTreeMap.ext_getElem?
    intro address
    apply Option.ext
    intro i
    refine h'.indexOf?_iff.trans (Iff.trans ?_ h.indexOf?_iff.symm)
    simp only [slot?, slots]
  have byScript : other.byScript = chain.byScript := by
    apply Std.ExtTreeMap.ext_getElem?
    intro script
    apply Option.ext
    intro i
    refine h'.indexOfScript?_iff.trans (Iff.trans ?_ h.indexOfScript?_iff.symm)
    simp only [indices, slot?, slots]
  have highestUsed := h.highestUsed_eq_of_slots_eq h' slots
  exact Chain.mk.injEq .. ▸
    ⟨account, branch, gapLimit, cacheLifetime, slots, byAddress, byScript, highestUsed⟩

/-- The gap rule asks for no less if more slots are used. -/
theorem Sound.requiredSize_le (h : chain.Sound source) (h' : other.Sound source)
    (gapLimit : other.gapLimit = chain.gapLimit)
    (more : chain.indices (·.used) ⊆ other.indices (·.used)) :
    chain.requiredSize ≤ other.requiredSize := by
  have highest : chain.highestUsed.getD 0 ≤ other.highestUsed.getD 0 := by
    cases last : chain.highestUsed with
    | none => exact Nat.zero_le _
    | some i =>
        have used := more (h.highestUsed_iff.mp last).1
        obtain ⟨j, greatest⟩ := exists_isGreatest_indices ⟨i, used⟩
        rw [h'.highestUsed_iff.mpr greatest]
        exact greatest.2 used
  rw [requiredSize, requiredSize, gapLimit]
  omega

/-- No slot of a chain was lost. Each has its balance still, and those of further slots are
unknown. -/
structure Retains (before after : Chain) : Prop where
  size_le : before.size ≤ after.size
  cache_eq : ∀ {i slot}, after.slot? i = some slot →
    slot.cache = ((before.slot? i).map (·.cache)).getD (.unfilled before.cacheLifetime)

namespace Retains

variable {before after : Chain}

theorem refl (chain : Chain) : chain.Retains chain :=
  ⟨Nat.le_refl _, fun hslot => by rw [hslot]; rfl⟩

theorem push (h : before.Retains after) {slot : Slot} (next : after.next source = .ok slot)
    (lifetime : after.cacheLifetime = before.cacheLifetime) :
    before.Retains (after.push slot) := by
  constructor
  · rw [size_push]
    exact Nat.le_succ_of_le h.size_le
  · intro i other hother
    rw [slot?_push] at hother
    split at hother
    next last =>
        cases hother
        obtain ⟨-, -, -, -, hcache⟩ := next_eq_ok next
        have absent : before.slot? i = none := Array.getElem?_eq_none (last ▸ h.size_le)
        rw [hcache, absent, lifetime]
        rfl
    next => exact h.cache_eq hother

theorem markUsed (h : before.Retains after) {index : Nat} {marked : Chain}
    (marking : after.markUsed index = .ok (marked, true)) : before.Retains marked := by
  constructor
  · rw [markUsed_eq_ok marking]
    simpa [size] using h.size_le
  · intro i other hother
    rw [slot?_markUsed marking] at hother
    obtain ⟨slot, hslot, rfl⟩ := Option.map_eq_some_iff.mp hother
    have kept := h.cache_eq hslot
    split <;> exact kept

end Retains

end Chain

namespace Keychain

variable {before keys : Keychain} {branch : Branch} {marks all : Set Address}

/-- The place of a slot is found from its address. -/
theorem Sound.locate_of_slot? (h : keys.Sound) {i : Nat} {slot : Slot}
    (hslot : (keys.chain branch).slot? i = some slot) :
    keys.locate slot.address = .ok (some (branch, i)) := by
  have here := (h.chains branch).indexOf?_iff.mpr ⟨slot, hslot, rfl⟩
  obtain ⟨-, unknown⟩ | ⟨side, j, place, there⟩ := h.locate_eq slot.address
  · rw [h.find?_iff.mpr ⟨mem_slots.mpr ⟨branch, i, hslot⟩, rfl⟩] at unknown
    cases unknown
  · obtain rfl | rfl := side.eq_or_eq_other branch
    · rw [here] at there
      cases there
      exact place
    · exact absurd (Chain.contains_iff.mpr ⟨j, there⟩)
        (h.apart (Chain.contains_iff.mpr ⟨i, here⟩))

/-- A keychain that may have come of another by growth and markings. -/
structure Continues (before keys : Keychain) : Prop extends Follows before keys where
  maxRestoredIndex_eq : keys.maxRestoredIndex = before.maxRestoredIndex
  retains : ∀ branch, (before.chain branch).Retains (keys.chain branch)

namespace Continues

theorem refl (sound : keys.Sound) : keys.Continues keys :=
  ⟨⟨sound, .refl keys⟩, rfl, fun _ => .refl _⟩

variable (h : before.Continues keys)
include h

/-- What comes of a keychain is known from the lengths of its chains and from what is used. -/
theorem eq_of_same {other : Keychain} (h' : before.Continues other)
    (size : ∀ side, (other.chain side).size = (keys.chain side).size)
    (used : ∀ side, (other.chain side).indices (·.used) = (keys.chain side).indices (·.used)) :
    other = keys := by
  have kin := h.kin_of h'.toFollows
  have limit := h'.maxRestoredIndex_eq.trans h.maxRestoredIndex_eq.symm
  have chains (side : Branch) : other.chain side = keys.chain side := by
    have accounts := kin.chain_account_eq side
    have branches := kin.chain_branch_eq side
    apply (h.chains side).eq_of_slots (h'.chains side) accounts branches
    case gapLimit => rw [h'.settings.gapLimit_eq, h.settings.gapLimit_eq]
    case cacheLifetime => rw [h'.settings.cacheLifetime_eq, h.settings.cacheLifetime_eq]
    case slots =>
        apply (h.chains side).slots_eq (h'.chains side) accounts branches (size side) (used side)
        intro i x y hx hy
        rw [(h'.retains side).cache_eq hy, (h.retains side).cache_eq hx]
  exact Keychain.mk.injEq .. ▸
    ⟨kin.account_eq, chains .receiving, chains .change, kin.source_eq, limit⟩

variable (hb : before.Sound)
include hb

/-- Every slot is still there, with what it has from the source. -/
theorem exists_slot? {i : Nat} {slot : Slot} (hslot : (before.chain branch).slot? i = some slot) :
    ∃ now, (keys.chain branch).slot? i = some now ∧ now.derivation = slot.derivation :=
  (h.kin hb).exists_slot? (h.retains branch).size_le hslot

theorem addresses_subset : before.addresses ⊆ keys.addresses := by
  intro address listed
  obtain ⟨slot, slots, rfl⟩ := List.mem_map.mp listed
  obtain ⟨branch, i, hslot⟩ := mem_slots.mp slots
  obtain ⟨now, hnow, same⟩ := h.exists_slot? hb hslot
  exact List.mem_map.mpr
    ⟨now, mem_slots.mpr ⟨branch, i, hnow⟩, (Slot.derivation_eq_iff.mp same).2.1⟩

/-- The script of an address never changes. -/
theorem scriptOf?_eq {address : Address} (tracked : address ∈ before.addresses) :
    keys.scriptOf? address = before.scriptOf? address :=
  (h.kin hb).scriptOf?_eq (fun branch => (h.retains branch).size_le) tracked

end Continues

theorem marking_continues (before : Keychain) : Marking before.Continues where
  push {keys branch slot} next fresh fits h := by
    refine ⟨(restoring_follows before).push next fresh fits h.toFollows, ?_, ?_⟩
    · rw [maxRestoredIndex_setChain, h.maxRestoredIndex_eq]
    · exact forall_chain_setChain (p := fun side c => (before.chain side).Retains c)
        ((h.retains branch).push next (h.settings.cacheLifetime_eq branch)) (h.retains _)
  mark {keys branch index marked} marking h := by
    refine ⟨(restoring_follows before).mark marking h.toFollows, ?_, ?_⟩
    · rw [maxRestoredIndex_setChain, h.maxRestoredIndex_eq]
    · exact forall_chain_setChain (p := fun side c => (before.chain side).Retains c)
        ((h.retains branch).markUsed marking) (h.retains _)

/-- The indices of the slots that are used or to be marked. -/
def marked (before : Keychain) (marks : Set Address) (branch : Branch) : Set Nat :=
  (before.chain branch).indices fun slot => slot.used ∨ slot.address ∈ marks

def fresh (before : Keychain) (marks : Set Address) (branch : Branch) : Set Nat :=
  (before.chain branch).indices fun slot => slot.used = false ∧ slot.address ∈ marks

/-- What comes of a keychain when some addresses are marked, however far the chains have grown. -/
structure Flagged (before : Keychain) (marks : Set Address) (keys : Keychain) : Prop
    extends Continues before keys where
  used_eq : ∀ branch, (keys.chain branch).indices (·.used) = before.marked marks branch

/-- What comes of a keychain when some addresses are marked and each marking succeeds: a chain
has grown if one of its addresses was unused. -/
structure Marked (before : Keychain) (marks : Set Address) (keys : Keychain) : Prop
    extends Flagged before marks keys where
  grown : ∀ {branch}, (before.fresh marks branch).Nonempty →
    (keys.chain branch).size = max (before.chain branch).size (keys.chain branch).requiredSize
  kept : ∀ {branch}, ¬(before.fresh marks branch).Nonempty →
    (keys.chain branch).size = (before.chain branch).size

/-- The addresses can be marked: the source is dependable, or some order of marking them went
through. -/
def Markable (before : Keychain) (marks : Set Address) : Prop :=
  before.source.Dependable before.account ∨ ∃ keys, before.Marked marks keys

theorem Sound.marked_empty (h : keys.Sound) : keys.Marked ∅ keys where
  toContinues := .refl h
  used_eq branch := by simp [marked]
  grown := by
    rintro branch ⟨i, slot, -, -, listed⟩
    exact listed.elim
  kept _ := rfl

theorem marked_mono (more : marks ⊆ all) : before.marked marks branch ⊆ before.marked all branch :=
  fun _ ⟨slot, hslot, h⟩ => ⟨slot, hslot, h.imp_right (more ·)⟩

theorem fresh_mono (more : marks ⊆ all) : before.fresh marks branch ⊆ before.fresh all branch :=
  fun _ ⟨slot, hslot, unused, listed⟩ => ⟨slot, hslot, unused, more listed⟩

section Insert

variable (hb : before.Sound) {i : Nat} {slot : Slot}
  (hslot : (before.chain branch).slot? i = some slot)
include hb hslot

/-- A further mark adds the one place that its address has. -/
theorem mem_marked_insert {side : Branch} {j : Nat} :
    j ∈ before.marked (insert slot.address marks) side ↔
      (side = branch ∧ j = i) ∨ j ∈ before.marked marks side := by
  constructor
  · rintro ⟨other, hother, used | same | listed⟩
    · exact .inr ⟨other, hother, .inl used⟩
    · have place := hb.locate_of_slot? hother
      rw [same, hb.locate_of_slot? hslot] at place
      cases place
      exact .inl ⟨rfl, rfl⟩
    · exact .inr ⟨other, hother, .inr listed⟩
  · rintro (⟨rfl, rfl⟩ | ⟨other, hother, h⟩)
    · exact ⟨slot, hslot, .inr (Set.mem_insert _ _)⟩
    · exact ⟨other, hother, h.imp_right (Set.mem_insert_of_mem _)⟩

theorem mem_fresh_insert {side : Branch} {j : Nat} :
    j ∈ before.fresh (insert slot.address marks) side ↔
      (side = branch ∧ j = i ∧ slot.used = false) ∨ j ∈ before.fresh marks side := by
  constructor
  · rintro ⟨other, hother, unused, same | listed⟩
    · have place := hb.locate_of_slot? hother
      rw [same, hb.locate_of_slot? hslot] at place
      cases place
      rw [hslot] at hother
      cases hother
      exact .inl ⟨rfl, rfl, unused⟩
    · exact .inr ⟨other, hother, unused, listed⟩
  · rintro (⟨rfl, rfl, unused⟩ | ⟨other, hother, unused, listed⟩)
    · exact ⟨slot, hslot, unused, Set.mem_insert _ _⟩
    · exact ⟨other, hother, unused, Set.mem_insert_of_mem _ listed⟩

end Insert

theorem Flagged.usedAt_mono {later : Keychain} (h : before.Flagged marks keys)
    (hl : before.Flagged all later) (more : marks ⊆ all) {i : Nat}
    (used : keys.UsedAt branch i) : later.UsedAt branch i := by
  rw [UsedAt, h.used_eq] at used
  rw [UsedAt, hl.used_eq]
  exact marked_mono more used

theorem Flagged.requiredSize_le {later : Keychain} (h : before.Flagged marks keys)
    (hl : before.Flagged all later) (more : marks ⊆ all) (branch : Branch) :
    (keys.chain branch).requiredSize ≤ (later.chain branch).requiredSize := by
  apply (h.chains branch).requiredSize_le (hl.chains branch)
  · rw [hl.settings.gapLimit_eq, h.settings.gapLimit_eq]
  · exact fun _ used => h.usedAt_mono hl more used

namespace Marked

theorem size_le {later : Keychain} (h : before.Marked marks keys) (hl : before.Marked all later)
    (more : marks ⊆ all) (branch : Branch) :
    (keys.chain branch).size ≤ (later.chain branch).size := by
  by_cases some_fresh : (before.fresh marks branch).Nonempty
  · have := h.requiredSize_le hl.toFlagged more branch
    rw [h.grown some_fresh, hl.grown (some_fresh.mono (fresh_mono more))]
    omega
  · rw [h.kept some_fresh]
    exact (hl.retains branch).size_le

/-- One keychain at most comes of marking just these addresses. -/
theorem unique {other : Keychain} (h : before.Marked marks keys)
    (h' : before.Marked marks other) : other = keys := by
  apply h.eq_of_same h'.toContinues
  · exact fun side =>
      Nat.le_antisymm (h'.size_le h subset_rfl side) (h.size_le h' subset_rfl side)
  · exact fun side => by rw [h'.used_eq, h.used_eq]

section Step

variable (hb : before.Sound) {i : Nat} {slot : Slot}
  (hslot : (before.chain branch).slot? i = some slot) (h : before.Marked marks keys)
include hb hslot h

/-- An address that is used already needs no mark. -/
theorem insert_of_used (used : keys.UsedAt branch i) :
    before.Marked (insert slot.address marks) keys := by
  rw [UsedAt, h.used_eq] at used
  have same_marked (side : Branch) :
      before.marked (insert slot.address marks) side = before.marked marks side := by
    ext j
    rw [mem_marked_insert hb hslot, or_iff_right_of_imp]
    rintro ⟨rfl, rfl⟩
    exact used
  have same_fresh (side : Branch) :
      before.fresh (insert slot.address marks) side = before.fresh marks side := by
    ext j
    rw [mem_fresh_insert hb hslot, or_iff_right_of_imp]
    rintro ⟨rfl, rfl, unused⟩
    obtain ⟨other, hother, use⟩ := used
    rw [hslot] at hother
    cases hother
    exact ⟨slot, hslot, unused, use.resolve_left (by rw [unused]; exact Bool.false_ne_true)⟩
  refine ⟨⟨h.toContinues, fun side => ?_⟩, fun nonempty => ?_, fun empty => ?_⟩
  · rw [same_marked, h.used_eq]
  · exact h.grown (same_fresh _ ▸ nonempty)
  · exact h.kept (same_fresh _ ▸ empty)

/-- The slot was unused before if it still is. -/
theorem mem_fresh_of_unused (unused : ¬keys.UsedAt branch i) :
    i ∈ before.fresh (insert slot.address marks) branch := by
  rw [UsedAt, h.used_eq] at unused
  refine (mem_fresh_insert hb hslot).mpr (.inl ⟨rfl, rfl, ?_⟩)
  by_contra used
  exact unused ⟨slot, hslot, .inl (Bool.eq_true_of_not_eq_false used)⟩

variable {chain : Chain} {t : Keychain}
  (marking : (keys.chain branch).markUsed i = .ok (chain, true))
  (grows : (setChain branch chain keys).Grows branch t)
include marking grows

theorem flagged_of_grows (continues : before.Continues t) :
    before.Flagged (insert slot.address marks) t := by
  refine ⟨continues, fun side => ?_⟩
  ext j
  rw [mem_marked_insert hb hslot, ← h.used_eq]
  exact usedAt_iff_of_grows marking grows

/-- The chain that an address was marked on is as long as it has to be once it has grown. -/
theorem marked_of_grows (unused : ¬keys.UsedAt branch i) (continues : before.Continues t)
    (full : (t.chain branch).size = max chain.size chain.requiredSize) :
    before.Marked (insert slot.address marks) t := by
  have flagged := h.flagged_of_grows hb hslot marking grows continues
  have here := h.mem_fresh_of_unused hb hslot unused
  obtain ⟨extended, other⟩ := grows.of_setChain
  have other_fresh : before.fresh (insert slot.address marks) branch.other =
      before.fresh marks branch.other := by
    ext j
    rw [mem_fresh_insert hb hslot]
    simp [Branch.other_ne]
  refine ⟨flagged, fun {side} nonempty => ?_, fun {side} empty => ?_⟩
  · obtain rfl | rfl := side.eq_or_eq_other branch
    · have size : chain.size = (keys.chain side).size := by
        rw [Chain.markUsed_eq_ok marking]
        simp [Chain.size]
      have := Chain.requiredSize_le_of_markUsed marking
      rw [full, extended.requiredSize_eq, size]
      by_cases some_fresh : (before.fresh marks side).Nonempty
      · have := h.grown some_fresh
        omega
      · rw [h.kept some_fresh]
    · rw [other, h.grown (other_fresh ▸ nonempty)]
  · obtain rfl | rfl := side.eq_or_eq_other branch
    · exact absurd ⟨i, here⟩ empty
    · rw [other, h.kept (other_fresh ▸ empty)]

/-- Where the chain stops short, no order of these marks goes through. -/
theorem not_markable (unused : ¬keys.UsedAt branch i) (continues : before.Continues t)
    (listed : insert slot.address marks ⊆ all)
    (short : (t.chain branch).size < chain.requiredSize) {e : Failure}
    (blocked : t.Blocked branch e) : ¬before.Markable all := by
  have flagged := h.flagged_of_grows hb hslot marking grows continues
  rintro (dependable | ⟨later, hl⟩)
  · rw [← continues.settings.source_eq, ← continues.settings.account_eq] at dependable
    have := chain.requiredSize_le
    exact flagged.sound.not_blocked dependable (by omega) e blocked
  · -- The other order has more slots on this branch and no fewer on the other.
    have kin := hl.kin_of continues.toFollows
    have here := fresh_mono listed (h.mem_fresh_of_unused hb hslot unused)
    obtain ⟨extended, other⟩ := grows.of_setChain
    have required := flagged.requiredSize_le hl.toFlagged listed branch
    rw [extended.requiredSize_eq] at required
    have grown := hl.grown ⟨i, here⟩
    apply kin.not_blocked (by omega) _ e blocked
    rw [other]
    exact h.size_le hl ((Set.subset_insert _ _).trans listed) _

end Step

/-- Marking an address of the keychain goes through, or stops half-way with the address marked.
Then no order of these and more markings goes through. -/
theorem wp_markUsed_or_stops (hb : before.Sound) (h : before.Marked marks keys) {address : Address}
    (tracked : address ∈ before.addresses) :
    (markUsed address).wp (fun _ t => before.Marked (insert address marks) t)
      (fun e t => before.Flagged (insert address marks) t ∧ keys.StopsShort e t ∧
        ∀ all, insert address marks ⊆ all → ¬before.Markable all) keys := by
  obtain ⟨slot, slots, rfl⟩ := List.mem_map.mp tracked
  obtain ⟨branch, i, hslot⟩ := mem_slots.mp slots
  obtain ⟨now, hnow, same⟩ := h.exists_slot? hb hslot
  obtain ⟨-, haddress, -⟩ := Slot.derivation_eq_iff.mp same
  have place := h.sound.locate_of_slot? hnow
  have continues := (marking_continues before).keeps_markIndexUsed branch i keys h.toContinues
  rw [haddress] at place
  simp only [wp_markUsed_iff, place]
  apply ((markIndexUsed_spec branch i keys).and continues).mono
  · rintro isNew t ⟨marks, ht⟩
    cases isNew with
    | false =>
        obtain ⟨used, rfl⟩ := marks
        exact h.insert_of_used hb hslot used
    | true =>
        obtain ⟨unused, chain, marking, grows, full⟩ := marks
        exact h.marked_of_grows hb hslot marking grows unused ht full
  · rintro e t ⟨⟨missing, -⟩ | ⟨unused, chain, marking, grows, short, blocked⟩, ht⟩
    · rw [hnow] at missing
      cases missing
    · refine ⟨h.flagged_of_grows hb hslot marking grows ht, ?_, fun all listed =>
        h.not_markable hb hslot marking grows unused ht listed short blocked⟩
      obtain ⟨extended, -⟩ := grows.of_setChain
      rw [← extended.requiredSize_eq] at short
      exact ⟨branch, i, unused, usedAt_of_grows marking grows, short, blocked⟩

/-- Marking an address of the keychain goes through where a source or another order of marking
it and some more addresses does. -/
theorem wp_markUsed (hb : before.Sound) (h : before.Marked marks keys) {address : Address}
    (tracked : address ∈ before.addresses) (listed : insert address marks ⊆ all) :
    (markUsed address).wp (fun _ t => before.Marked (insert address marks) t)
      (fun _ _ => ¬before.Markable all) keys :=
  (h.wp_markUsed_or_stops hb tracked).mono (fun _ _ marked => marked)
    fun _ _ ⟨_, _, stuck⟩ => stuck all listed

end Marked

end Keychain

end HdWallet
