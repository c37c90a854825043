import HdWallet.Proofs.Chain.Sound
import HdWallet.Proofs.Step

/-!
# How a chain grows

Growing puts unused slots at the end and changes nothing else. It stops before the first
slot that the source fails to derive or whose address occurs already; what was derived
until then stays.
-/

namespace HdWallet.Chain

/-- Unused slots were put at the end, and nothing else changed. -/
structure Extends (before after : Chain) : Prop where
  account_eq : after.account = before.account
  branch_eq : after.branch = before.branch
  gapLimit_eq : after.gapLimit = before.gapLimit
  cacheLifetime_eq : after.cacheLifetime = before.cacheLifetime
  highestUsed_eq : after.highestUsed = before.highestUsed
  size_le : before.size ≤ after.size
  slot?_eq : ∀ {i}, i < before.size → after.slot? i = before.slot? i
  unused : ∀ {i slot}, before.size ≤ i → after.slot? i = some slot → slot.used = false

/-- New slots that are unused change nothing about which slots are used. -/
theorem indices_used_eq {before after : Chain}
    (old : ∀ {i}, i < before.size → after.slot? i = before.slot? i)
    (new : ∀ {i slot}, before.size ≤ i → after.slot? i = some slot → slot.used = false) :
    after.indices (·.used) = before.indices (·.used) := by
  ext i
  by_cases inner : i < before.size
  · rw [mem_indices, mem_indices, old inner]
  · refine iff_of_false ?_ ?_
    · rintro ⟨slot, hslot, used⟩
      rw [new (Nat.le_of_not_lt inner) hslot] at used
      cases used
    · rintro ⟨slot, hslot, -⟩
      exact inner (lt_size_of_slot? hslot)

namespace Extends

variable {chain first second third : Chain}

theorem refl (chain : Chain) : chain.Extends chain where
  account_eq := rfl
  branch_eq := rfl
  gapLimit_eq := rfl
  cacheLifetime_eq := rfl
  highestUsed_eq := rfl
  size_le := Nat.le_refl _
  slot?_eq _ := rfl
  unused beyond hslot := absurd (lt_size_of_slot? hslot) (Nat.not_lt_of_le beyond)

theorem trans (h : first.Extends second) (h' : second.Extends third) : first.Extends third where
  account_eq := h'.account_eq.trans h.account_eq
  branch_eq := h'.branch_eq.trans h.branch_eq
  gapLimit_eq := h'.gapLimit_eq.trans h.gapLimit_eq
  cacheLifetime_eq := h'.cacheLifetime_eq.trans h.cacheLifetime_eq
  highestUsed_eq := h'.highestUsed_eq.trans h.highestUsed_eq
  size_le := h.size_le.trans h'.size_le
  slot?_eq below := (h'.slot?_eq (below.trans_le h.size_le)).trans (h.slot?_eq below)
  unused {i slot} beyond hslot := by
    by_cases inner : i < second.size
    · exact h.unused beyond (h'.slot?_eq inner ▸ hslot)
    · exact h'.unused (Nat.le_of_not_lt inner) hslot

theorem push {slot : Slot} (unused : slot.used = false) : chain.Extends (chain.push slot) where
  account_eq := rfl
  branch_eq := rfl
  gapLimit_eq := rfl
  cacheLifetime_eq := rfl
  highestUsed_eq := rfl
  size_le := by simp [size, Chain.push]
  slot?_eq below := by rw [slot?_push, if_neg (Nat.ne_of_lt below)]
  unused {i other} beyond hother := by
    rw [slot?_push] at hother
    split at hother
    next =>
        cases hother
        exact unused
    next => exact absurd (lt_size_of_slot? hother) (Nat.not_lt_of_le beyond)

theorem requiredSize_eq (h : first.Extends second) : second.requiredSize = first.requiredSize := by
  rw [requiredSize, requiredSize, h.highestUsed_eq, h.gapLimit_eq]

theorem indices_used (h : first.Extends second) :
    second.indices (·.used) = first.indices (·.used) :=
  indices_used_eq h.slot?_eq h.unused

end Extends

variable {chain : Chain}

@[simp] theorem size_push (slot : Slot) : (chain.push slot).size = chain.size + 1 :=
  Array.size_push _

@[simp] theorem size_modifyCache (index : Nat) (f : CachedBalance → CachedBalance) :
    (chain.modifyCache index f).size = chain.size :=
  Array.size_modify

@[simp] theorem size_setCacheLifetime (lifetime : UInt64) :
    (chain.setCacheLifetime lifetime).size = chain.size :=
  Array.size_map

theorem requiredSize_le (chain : Chain) : chain.requiredSize ≤ lastNormalIndex + 1 :=
  Nat.min_le_right _ _

theorem requiredSize_le_of_markUsed {index : Nat} {marked : Chain}
    (h : chain.markUsed index = .ok (marked, true)) :
    chain.requiredSize ≤ marked.requiredSize := by
  rw [markUsed_eq_ok h]
  simp only [requiredSize, Option.getD_some]
  omega

/-- Why a chain cannot grow by a slot: the source derives none, or the address of the slot
is among the taken ones or in the chain. -/
def Stops (source : KeySource) (taken : Address → Bool) (chain : Chain) (e : Failure) : Prop :=
  chain.next source = .error e ∨
    ∃ slot, chain.next source = .ok slot ∧ e = .duplicateAddress slot.address ∧
      (taken slot.address ∨ chain.contains slot.address)

theorem grow_spec (source : KeySource) (taken : Address → Bool) (count : Nat) (chain : Chain) :
    (grow source taken count).wp
      (fun _ t => chain.Extends t ∧ t.size = chain.size + count)
      (fun e t => chain.Extends t ∧ t.size < chain.size + count ∧ t.Stops source taken e)
      chain := by
  induction count generalizing chain with
  | zero => exact ⟨.refl chain, rfl⟩
  | succ count ih =>
      rw [Step.wp, grow]
      cases next : chain.next source with
      | error e => exact ⟨.refl chain, by omega, .inl next⟩
      | ok slot =>
          cases occurs : taken slot.address with
          | true =>
              simp only [occurs, if_true]
              exact ⟨.refl chain, by omega, .inr ⟨slot, next, rfl, .inl occurs⟩⟩
          | false =>
              simp only [occurs, Bool.false_eq_true, if_false]
              rw [refusal?_of_next next]
              cases present : chain.contains slot.address with
              | true => exact ⟨.refl chain, by omega, .inr ⟨slot, next, rfl, .inr present⟩⟩
              | false =>
                  obtain ⟨-, -, -, unused, -⟩ := next_eq_ok next
                  have pushed : chain.Extends (chain.push slot) := .push unused
                  apply (ih (chain.push slot)).mono
                  · rintro _ t ⟨extended, hsize⟩
                    rw [size_push] at hsize
                    exact ⟨pushed.trans extended, by omega⟩
                  · rintro e t ⟨extended, hsize, stops⟩
                    rw [size_push] at hsize
                    exact ⟨pushed.trans extended, by omega, stops⟩

/-- A chain that cannot grow stays as it is. -/
theorem grow_of_stops {source : KeySource} {taken : Address → Bool} {e : Failure}
    (stops : chain.Stops source taken e) {count : Nat} (further : 0 < count) :
    grow source taken count chain = .error e chain := by
  obtain ⟨count, rfl⟩ := Nat.exists_eq_succ_of_ne_zero (Nat.ne_of_gt further)
  rw [grow]
  obtain failed | ⟨slot, next, rfl, occurs⟩ := stops
  · rw [failed]
  · rw [next]
    dsimp only
    cases elsewhere : taken slot.address with
    | true => rfl
    | false =>
        rw [elsewhere, Bool.false_eq_true, false_or] at occurs
        rw [refusal?_of_next next, if_pos occurs]
        rfl

end HdWallet.Chain
