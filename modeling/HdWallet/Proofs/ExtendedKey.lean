import HdWallet.KeySource.Extended
import HdWallet.Proofs.Secp256k1.Group

/-!
# Children of private and public keys

A private key carries its public key, so it has a public view. Taking the view commutes with
deriving a normal child (`ExtendedPrivateKey.derive_view`): either way round there is the same
key, or none for the same reason. This makes the library on secp256k1 one that account keys can
rely on.
-/

namespace HdWallet

open Secp256k1

namespace Secp256k1.KeyPair

/-- Below the group order a number has a pair just if it has a public key. -/
theorem map_point_ofScalar? {n : Nat} (lt : n < groupOrder) :
    (ofScalar? n).map (·.point) = Point.ofScalar? n := by
  rw [ofScalar?]
  split_ifs with valid
  · split
    next point matched => exact matched.symm
    next lacking => exact lacking.symm
  · obtain rfl : n = 0 := by
      by_contra pos
      exact valid (isScalar_iff.mpr ⟨Nat.pos_of_ne_zero pos, lt⟩)
    rw [ofScalar?_zero, Option.map_none]

theorem toNatBE_bytes (pair : KeyPair) : Bytes.toNatBE pair.bytes = pair.scalar := by
  rw [bytes, Bytes.toNatBE_ofNatBE]
  exact Nat.mod_eq_of_lt (lt_of_lt_groupOrder (isScalar_iff.mp pair.valid).2)

end Secp256k1.KeyPair

theorem KeyOrigin.isScalar_of_derive {origin origin' : KeyOrigin} {parentKey material : Bytes}
    {child : ChildNumber} {tweak : Nat}
    (h : origin.derive parentKey material child = .ok (tweak, origin')) : isScalar tweak := by
  simp only [derive] at h
  split_ifs at h with _ valid
  rw [Except.ok.injEq, Prod.mk.injEq] at h
  rw [← h.1]
  exact valid

namespace ExtendedPrivateKey

/-- The view of the key of a scalar is its public key, if it has one. -/
theorem map_view_ofScalar {n : Nat} (lt : n < groupOrder) (origin : KeyOrigin) :
    (ofScalar n origin).map view =
      match Point.ofScalar? n with
      | some point => .ok ⟨point, origin⟩
      | none => .error .noSuchKey := by
  rw [ofScalar, ← KeyPair.map_point_ofScalar? lt]
  cases KeyPair.ofScalar? n with
  | none => rfl
  | some pair => rfl

/-- The normal child of a public view is the view of the normal child. -/
theorem derive_view (key : ExtendedPrivateKey) (index : UInt32) :
    key.view.derive (.normal index) = (key.derive (.normal index)).map view := by
  rw [ExtendedPublicKey.derive, derive]
  simp only [ChildNumber.isHardened, Bool.false_eq_true, if_false, view, bind]
  cases step : key.origin.derive key.pair.point.bytes key.pair.point.bytes (.normal index) with
  | error e => rfl
  | ok result =>
      obtain ⟨tweak, origin⟩ := result
      have tweaked : key.pair.point.tweak? tweak =
          Point.ofScalar? ((key.pair.scalar + tweak) % groupOrder) :=
        Point.tweak?_of_ofScalar? (isScalar_iff.mp key.pair.valid).2
          (isScalar_iff.mp (KeyOrigin.isScalar_of_derive step)).2 key.pair.matched
      simp only [Except.bind, tweaked]
      exact (map_view_ofScalar (Nat.mod_lt _ (by decide)) origin).symm

end ExtendedPrivateKey

namespace KeyLibrary.secp256k1

theorem signingKey_privateBytes (key : ExtendedPrivateKey) :
    KeyLibrary.signingKey (KeyLibrary.privateBytes key) = .ok ⟨key.pair.bytes⟩ := by
  have length : key.pair.bytes.length = 32 := Bytes.length_ofNatBE 32 _
  have valid : isScalar (Bytes.toNatBE key.pair.bytes) := by
    rw [KeyPair.toNatBE_bytes]
    exact key.pair.valid
  exact if_pos ⟨length, valid⟩

/-- What is read as an index without the hardened bit is a normal child. -/
theorem eq_normal_of_child {index : UInt32} {number : ChildNumber}
    (numbered : KeyLibrary.child index false = .ok number) : number = .normal index := by
  change (ChildNumber.ofIndex index false).mapError _ = _ at numbered
  by_cases normal : index &&& hardenedBit = 0
  · rw [ChildNumber.ofIndex, if_pos normal] at numbered
    exact (Except.ok.inj numbered).symm
  · rw [ChildNumber.ofIndex, if_neg normal] at numbered
    cases numbered

/-- Account keys can rely on the library on secp256k1. -/
theorem lawful : KeyLibrary.Lawful where
  derivePublic_view {index number} key numbered := by
    obtain rfl := eq_normal_of_child numbered
    change (key.view.derive _).mapError _ = ((key.derive _).mapError _).map _
    rw [key.derive_view]
    cases key.derive (.normal index) with
    | error e => rfl
    | ok child => rfl
  publicKeyOf_signingKey {key signing} read := by
    rw [signingKey_privateBytes key, Except.ok.injEq] at read
    subst read
    change (Point.ofScalar? (Bytes.toNatBE key.pair.bytes)).elim [] (·.bytes) = key.pair.point.bytes
    rw [KeyPair.toNatBE_bytes, key.pair.matched, Option.elim_some]

end KeyLibrary.secp256k1

end HdWallet
