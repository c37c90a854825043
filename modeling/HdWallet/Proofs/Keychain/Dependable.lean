import Std.Data.String.ToNat
import HdWallet.KeySource.Scripted
import HdWallet.Proofs.Keychain.Sound

/-!
# Sources that never fail

If a source derives an address at every index and never the same one twice, a chain stops
growing only at the last index that is not hardened.
-/

namespace HdWallet

namespace KeySource

/-- The source derives an address everywhere in an account, and no two are the same. -/
structure Dependable (source : KeySource) (account : AccountPath) : Prop where
  derives : ∀ (branch : Branch) {i : Nat}, i ≤ lastNormalIndex →
    ∃ derived, source.derive (account.child branch (UInt32.ofNat i)) = .ok derived
  distinct : ∀ {branch side : Branch} {i j : Nat} {derived other : Derived},
    i ≤ lastNormalIndex → j ≤ lastNormalIndex →
    source.derive (account.child branch (UInt32.ofNat i)) = .ok derived →
    source.derive (account.child side (UInt32.ofNat j)) = .ok other →
    derived.address = other.address → branch = side ∧ i = j

/-- The names of addresses tell the branch and the index. -/
theorem nameAt_inj {x y : Path} (same : nameAt x = nameAt y) :
    x.branch = y.branch ∧ x.index = y.index := by
  have texts := congrArg String.toList same
  simp only [nameAt, String.toList_append, List.append_assoc] at texts
  have branches : x.branch = y.branch := by
    cases hx : x.branch <;> cases hy : y.branch
    case receiving.receiving | change.change => rfl
    all_goals
      rw [hx, hy] at texts
      exact absurd (List.head_eq_of_cons_eq texts) (by decide)
  refine ⟨branches, UInt32.toNat_inj.mp (Nat.repr_inj.mp ?_)⟩
  rw [branches, List.append_cancel_left_eq, List.append_cancel_left_eq] at texts
  exact String.toList_inj.mp texts

theorem dependable_numbered (canSign : Bool) (account : AccountPath) :
    (numbered ∅ canSign).Dependable account := by
  have derives (path : Path) : ∃ script,
      (numbered ∅ canSign).derive path = .ok ⟨⟨nameAt path⟩, script⟩ := by
    simp [numbered]
  constructor
  case derives =>
      intro branch i _
      obtain ⟨script, derived⟩ := derives (account.child branch (UInt32.ofNat i))
      exact ⟨_, derived⟩
  case distinct =>
      intro branch side i j derived other hi hj here there same
      obtain ⟨script, hderived⟩ := derives (account.child branch (UInt32.ofNat i))
      obtain ⟨script', hother⟩ := derives (account.child side (UInt32.ofNat j))
      rw [hderived, Except.ok.injEq] at here
      rw [hother, Except.ok.injEq] at there
      subst here there
      obtain ⟨branches, indices⟩ := nameAt_inj (Address.mk.inj same)
      refine ⟨branches, ?_⟩
      have numbers := congrArg UInt32.toNat indices
      rwa [AccountPath.child, AccountPath.child, Chain.toNat_ofNat_of_le_lastNormalIndex hi,
        Chain.toNat_ofNat_of_le_lastNormalIndex hj] at numbers

end KeySource

namespace Keychain

variable {keys : Keychain} {branch : Branch}

/-- A branch with room for a further slot can grow. -/
theorem Sound.not_blocked (h : keys.Sound) (dependable : keys.source.Dependable keys.account)
    (room : (keys.chain branch).size ≤ lastNormalIndex) (e : Failure) :
    ¬keys.Blocked branch e := by
  obtain ⟨derived, hderived⟩ := dependable.derives branch room
  have next : (keys.chain branch).next keys.source = .ok {
      path := keys.account.child branch (UInt32.ofNat (keys.chain branch).size)
      address := derived.address
      script := derived.script
      used := false
      cache := .unfilled (keys.chain branch).cacheLifetime } := by
    rw [Chain.next, if_neg (Nat.not_lt_of_le room), h.account_eq, h.branch_eq]
    dsimp only
    rw [hderived]
  -- The address of the next slot is none of those derived at other places.
  have fresh (side : Branch) : ¬(keys.chain side).contains derived.address := by
    intro present
    obtain ⟨i, hi⟩ := Chain.contains_iff.mp present
    obtain ⟨slot, hslot, same⟩ := (h.chains side).indexOf?_iff.mp hi
    have inside := Chain.lt_size_of_slot? hslot
    have := (h.chains side).size_le
    have there := (h.chains side).derive_eq hslot
    rw [(h.chains side).path_eq hslot, h.account_eq, h.branch_eq] at there
    obtain ⟨rfl, rfl⟩ := dependable.distinct (by omega) room there hderived same
    exact Nat.lt_irrefl _ inside
  rw [Blocked, Chain.Stops, next]
  rintro (failed | ⟨_, ⟨⟩, -, occurs | occurs⟩)
  · cases failed
  · exact fresh _ occurs
  · exact fresh _ occurs

end Keychain

end HdWallet
