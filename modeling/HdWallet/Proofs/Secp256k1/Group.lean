import HdWallet.Proofs.Secp256k1.Field
import Mathlib.AlgebraicGeometry.EllipticCurve.Affine.Point
import Mathlib.Tactic.LinearCombination

/-!
# The group of points

Jacobian coordinates stand for elements of the group of points of the curve
(`Jacobian.Represents`): the coordinates (x w², y w³, w) with w ≠ 0 for the point
(x, y), and those with third coordinate zero for the neutral element. Doubling,
addition and multiples on coordinates represent those of the group, whatever the
points, so the exceptional cases (equal, opposite and neutral points) are right too.

The generator has the prime order `groupOrder`. From this, public keys are multiples
of the generator in the group, no scalar of a signing key has a neutral public key,
and a tweak of a public key is the public key of the tweaked scalar
(`Point.tweak?_of_ofScalar?`).
-/

namespace HdWallet.Secp256k1

open WeierstrassCurve.Affine (Y_eq_of_X_eq addX addY negY negAddY nonsingular_iff' equation_iff
  slope_of_X_ne slope_of_Y_ne)
open WeierstrassCurve.Affine.Point (add_of_X_ne add_of_Y_eq add_self_of_Y_eq add_self_of_Y_ne)

/-- The curve y² = x³ + 7. -/
def curve : WeierstrassCurve.Affine Fp := ⟨0, 0, 0, 0, 7⟩

section Chords

variable {x x₁ x₂ y : Fp}

theorem negY_curve (x y : Fp) : curve.negY x y = -y := by
  simp [negY, curve]

theorem addX_curve (x₁ x₂ ℓ : Fp) : curve.addX x₁ x₂ ℓ = ℓ ^ 2 - x₁ - x₂ := by
  simp [addX, curve]

theorem addY_curve (x₁ x₂ y₁ ℓ : Fp) :
    curve.addY x₁ x₂ y₁ ℓ = ℓ * (x₁ - (ℓ ^ 2 - x₁ - x₂)) - y₁ := by
  rw [addY, negAddY, negY_curve, addX_curve]
  ring

theorem two_ne_zero_fp : (2 : Fp) ≠ 0 := by
  have ne := (cast_eq_zero_iff (a := 2) (by decide)).not.mpr (by decide)
  simpa using ne

theorem ne_negY (hy : y ≠ 0) : y ≠ curve.negY x y := by
  rw [negY_curve]
  intro h
  have twice : 2 * y = 0 := by linear_combination h
  exact hy ((mul_eq_zero.mp twice).resolve_left two_ne_zero_fp)

theorem slope_tangent (x : Fp) (hy : y ≠ 0) :
    curve.slope x x y y * (2 * y) = 3 * x ^ 2 := by
  have ne := ne_negY (x := x) hy
  rw [slope_of_Y_ne rfl ne, div_mul_eq_mul_div, div_eq_iff (sub_ne_zero.mpr ne), negY_curve]
  simp only [curve]
  ring

theorem slope_chord (y₁ y₂ : Fp) (hx : x₁ ≠ x₂) :
    curve.slope x₁ x₂ y₁ y₂ * (x₁ - x₂) = y₁ - y₂ := by
  rw [slope_of_X_ne hx, div_mul_cancel₀ _ (sub_ne_zero.mpr hx)]

end Chords

namespace Jacobian

/-- The coordinates stand for an element of the group of points. -/
inductive Represents (p : Jacobian) : curve.Point → Prop
  | neutral (hz : p.z = 0) : Represents p 0
  | finite {x y w : Fp} (point : curve.Nonsingular x y) (hw : w ≠ 0)
      (hx : (p.x : Fp) = x * w ^ 2) (hy : (p.y : Fp) = y * w ^ 3) (hz : (p.z : Fp) = w)
      (reduced : p.y < fieldOrder) : Represents p (.some x y point)

variable {p q : Jacobian} {P Q : curve.Point}

theorem z_ne_zero {w : Fp} (hw : w ≠ 0) (hz : (p.z : Fp) = w) : p.z ≠ 0 := by
  rintro h
  simp [h, hw.symm] at hz

theorem Represents.eq_zero (h : p.Represents P) (hz : p.z = 0) : P = 0 := by
  cases h with
  | neutral => rfl
  | finite _ hw _ _ hz' => exact absurd hz (z_ne_zero hw hz')

theorem Represents.double (h : p.Represents P) : p.double.Represents (P + P) := by
  cases h with
  | neutral hz =>
    rw [Jacobian.double, if_pos (.inl hz), add_zero]
    exact .neutral rfl
  | @finite x y w point hw hx hy hz reduced =>
    have y_zero : p.y = 0 ↔ y = 0 := by
      rw [← cast_eq_zero_iff reduced, hy]
      simp [hw]
    by_cases hy0 : y = 0
    · rw [Jacobian.double, if_pos (.inr (y_zero.mpr hy0)),
        add_self_of_Y_eq (by rw [negY_curve, hy0, neg_zero])]
      exact .neutral rfl
    · rw [Jacobian.double, if_neg (by simp [z_ne_zero hw hz, y_zero, hy0]),
        add_self_of_Y_ne (ne_negY hy0)]
      have slope := slope_tangent x hy0
      extract_lets y2 s m x3
      have cast_s : (s : Fp) = 4 * x * y ^ 2 * w ^ 8 := by
        push_cast [s, y2, ZMod.natCast_mod, hx, hy]
        ring
      have cast_m : (m : Fp) = curve.slope x x y y * (2 * y) * w ^ 4 := by
        push_cast [m, ZMod.natCast_mod, hx, slope]
        ring
      have cast_x : (x3 : Fp)
          = curve.addX x x (curve.slope x x y y) * (2 * y * w ^ 4) ^ 2 := by
        push_cast [x3, cast_s, cast_m, addX_curve]
        ring
      refine .finite (w := 2 * y * w ^ 4) _ ?_ cast_x ?_ ?_ (minus_lt _ _)
      · simp [two_ne_zero_fp, hy0, hw]
      · push_cast [y2, ZMod.natCast_mod, cast_s, cast_m, cast_x, hy, addX_curve, addY_curve]
        ring
      · push_cast [ZMod.natCast_mod, hy, hz]
        ring

/-- The sum of points with different x-coordinates: u and s are the coordinates of the
first at a third coordinate w, and h and r the differences to the second. -/
theorem represents_chord {x₁ x₂ y₁ y₂ w : Fp} (point₁ : curve.Nonsingular x₁ y₁)
    (point₂ : curve.Nonsingular x₂ y₂) (hx : x₁ ≠ x₂) (hw : w ≠ 0) {u s h r z : Nat}
    (cast_u : (u : Fp) = x₁ * w ^ 2) (cast_s : (s : Fp) = y₁ * w ^ 3)
    (cast_h : (h : Fp) = (x₂ - x₁) * w ^ 2) (cast_r : (r : Fp) = (y₂ - y₁) * w ^ 3)
    (cast_z : (z : Fp) = w) :
    let h2 := h * h % fieldOrder
    let h3 := h2 * h % fieldOrder
    let v := u * h2 % fieldOrder
    let x := minus (r * r) (h3 + 2 * v)
    Represents ⟨x, minus (r * minus v x) (s * h3), h * z % fieldOrder⟩
      (.some _ _ point₁ + .some _ _ point₂) := by
  intro h2 h3 v x
  rw [add_of_X_ne hx]
  have slope : (r : Fp) = curve.slope x₁ x₂ y₁ y₂ * ((x₂ - x₁) * w ^ 3) := by
    rw [cast_r]
    linear_combination w ^ 3 * slope_chord y₁ y₂ hx
  have cast_x : (x : Fp)
      = curve.addX x₁ x₂ (curve.slope x₁ x₂ y₁ y₂) * ((x₂ - x₁) * w ^ 3) ^ 2 := by
    push_cast [x, h3, v, h2, ZMod.natCast_mod, cast_h, cast_u, slope, addX_curve]
    ring
  refine .finite (w := (x₂ - x₁) * w ^ 3) _ ?_ cast_x ?_ ?_ (minus_lt _ _)
  · exact mul_ne_zero (sub_ne_zero.mpr hx.symm) (pow_ne_zero 3 hw)
  · push_cast [h3, v, h2, ZMod.natCast_mod, cast_s, cast_h, cast_u, slope, cast_x, addX_curve,
      addY_curve]
    ring
  · push_cast [ZMod.natCast_mod, cast_h, cast_z]
    ring

theorem Represents.add (hp : p.Represents P) (hq : q.Represents Q) :
    (p.add q).Represents (P + Q) := by
  cases hp with
  | neutral hz =>
    rw [Jacobian.add, if_pos hz, zero_add]
    exact hq
  | @finite x₁ y₁ w₁ point₁ hw₁ hx₁ hy₁ hz₁ reduced₁ =>
    cases hq with
    | neutral hz =>
      rw [Jacobian.add, if_neg (z_ne_zero hw₁ hz₁), if_pos hz, add_zero]
      exact .finite point₁ hw₁ hx₁ hy₁ hz₁ reduced₁
    | @finite x₂ y₂ w₂ point₂ hw₂ hx₂ hy₂ hz₂ reduced₂ =>
      rw [Jacobian.add, if_neg (z_ne_zero hw₁ hz₁), if_neg (z_ne_zero hw₂ hz₂)]
      have hw : w₁ * w₂ ≠ 0 := mul_ne_zero hw₁ hw₂
      extract_lets pz2 qz2 u s h r
      -- Both points are brought to the third coordinate w₁ w₂ and compared there.
      have cast_u : (u : Fp) = x₁ * (w₁ * w₂) ^ 2 := by
        push_cast [u, qz2, ZMod.natCast_mod, hx₁, hz₂]
        ring
      have cast_s : (s : Fp) = y₁ * (w₁ * w₂) ^ 3 := by
        push_cast [s, qz2, ZMod.natCast_mod, hy₁, hz₂]
        ring
      have cast_h : (h : Fp) = (x₂ - x₁) * (w₁ * w₂) ^ 2 := by
        push_cast [h, pz2, ZMod.natCast_mod, hx₂, hz₁, cast_u]
        ring
      have cast_r : (r : Fp) = (y₂ - y₁) * (w₁ * w₂) ^ 3 := by
        push_cast [r, pz2, ZMod.natCast_mod, hy₂, hz₁, cast_s]
        ring
      have h_zero : h = 0 ↔ x₁ = x₂ := by
        rw [← cast_eq_zero_iff (minus_lt _ _), cast_h]
        simp [hw, sub_eq_zero, eq_comm]
      have r_zero : r = 0 ↔ y₁ = y₂ := by
        rw [← cast_eq_zero_iff (minus_lt _ _), cast_r]
        simp [hw, sub_eq_zero, eq_comm]
      split_ifs with h0 r0
      · obtain rfl := h_zero.mp h0
        obtain rfl := r_zero.mp r0
        exact (Represents.finite point₁ hw₁ hx₁ hy₁ hz₁ reduced₁).double
      · have opposite : y₁ = curve.negY x₂ y₂ :=
          (Y_eq_of_X_eq point₁.1 point₂.1 (h_zero.mp h0)).resolve_left (r_zero.not.mp r0)
        rw [add_of_Y_eq (h_zero.mp h0) opposite]
        exact .neutral rfl
      · exact represents_chord point₁ point₂ (h_zero.not.mp h0) hw cast_u cast_s cast_h cast_r
          (by push_cast [ZMod.natCast_mod, hz₁, hz₂]; rfl)

theorem Represents.times (h : p.Represents P) {n : Nat} (fits : n < 2 ^ 256) :
    (p.times n).Represents (n • P) := by
  unfold Jacobian.times
  refine foldl_binaryDigits (R := fun n (acc : Jacobian) => acc.Represents (n • P)) ?_ fits ?_
  · intro n acc digit ih
    have doubled : acc.double.Represents ((2 * n) • P) := by
      rw [two_mul, add_nsmul]
      exact ih.double
    cases digit with
    | false => exact doubled
    | true =>
      show (acc.double.add p).Represents ((2 * n + 1) • P)
      rw [succ_nsmul]
      exact doubled.add h
  · rw [zero_nsmul]
    exact .neutral rfl

end Jacobian

namespace Point

/-- The coordinates of an element of the group, unless it is the neutral one. -/
def ofGroup? : curve.Point → Option Point
  | .zero => none
  | .some x y _ => some ⟨x.val, y.val⟩

theorem ofGroup?_eq_none_iff {P : curve.Point} : ofGroup? P = none ↔ P = 0 := by
  cases P with
  | zero => simp [ofGroup?, WeierstrassCurve.Affine.Point.zero_def]
  | some x y point => simp [ofGroup?, WeierstrassCurve.Affine.Point.some_ne_zero]

end Point

theorem Jacobian.Represents.toPoint?_eq {p : Jacobian} {P : curve.Point} (h : p.Represents P) :
    p.toPoint? = Point.ofGroup? P := by
  cases h with
  | neutral hz =>
    rw [Jacobian.toPoint?, if_pos hz]
    rfl
  | @finite x y w point hw hx hy hz reduced =>
    rw [Jacobian.toPoint?, if_neg (z_ne_zero hw hz), Point.ofGroup?]
    extract_lets i square
    have cast_i : (i : Fp) = w⁻¹ := by
      rw [cast_inverse (hz ▸ hw), hz]
    have value_x : ((p.x * square : Nat) : Fp) = x := by
      push_cast [square, ZMod.natCast_mod, cast_i, hx]
      field_simp
    have value_y : ((p.y * (square * i % fieldOrder) : Nat) : Fp) = y := by
      push_cast [square, ZMod.natCast_mod, cast_i, hy]
      field_simp
    rw [← value_x, ← value_y, ZMod.val_natCast, ZMod.val_natCast]

theorem Jacobian.represents_ofPoint {p : Point} {P : curve.Point}
    (h : Point.ofGroup? P = some p) : (Jacobian.ofPoint p).Represents P := by
  cases P with
  | zero => simp [Point.ofGroup?] at h
  | some x y point =>
    simp only [Point.ofGroup?, Option.some.injEq] at h
    subst h
    exact .finite (w := 1) point one_ne_zero (by simp [ofPoint]) (by simp [ofPoint])
      (by simp [ofPoint]) (ZMod.val_lt y)

theorem nonsingular_generator :
    curve.Nonsingular (Point.generator.x : Fp) (Point.generator.y : Fp) := by
  rw [nonsingular_iff', equation_iff]
  constructor
  · have equation : Point.generator.y ^ 2 ≡ Point.generator.x ^ 3 + 7 [MOD fieldOrder] := by
      decide +kernel
    simpa [curve] using (ZMod.natCast_eq_natCast_iff _ _ _).mpr equation
  · right
    have ne := (cast_eq_zero_iff (a := Point.generator.y) (by decide)).not.mpr (by decide)
    simpa [curve, two_ne_zero_fp] using ne

def base : curve.Point := .some _ _ nonsingular_generator

theorem ofGroup?_base : Point.ofGroup? base = some Point.generator := by
  simp only [base, Point.ofGroup?, ZMod.val_natCast]
  decide +kernel

theorem represents_generator : (Jacobian.ofPoint Point.generator).Represents base :=
  Jacobian.represents_ofPoint ofGroup?_base

theorem groupOrder_nsmul_base : groupOrder • base = 0 := by
  have multiple := represents_generator.times (n := groupOrder) (by decide)
  exact multiple.eq_zero (by decide +kernel)

theorem addOrderOf_base : addOrderOf base = groupOrder := by
  have : Fact groupOrder.Prime := ⟨prime_groupOrder⟩
  exact addOrderOf_eq_prime groupOrder_nsmul_base (WeierstrassCurve.Affine.Point.some_ne_zero _)

theorem mod_groupOrder_nsmul_base (n : Nat) : (n % groupOrder) • base = n • base := by
  rw [← addOrderOf_base, mod_addOrderOf_nsmul]

namespace Point

/-- Public keys are multiples of the generator. -/
theorem ofScalar?_eq {n : Nat} (fits : n < 2 ^ 256) : ofScalar? n = ofGroup? (n • base) :=
  (represents_generator.times fits).toPoint?_eq

theorem tweak?_eq {p : Point} {P : curve.Point} (h : ofGroup? P = some p) {n : Nat}
    (fits : n < 2 ^ 256) : p.tweak? n = ofGroup? (n • base + P) :=
  ((represents_generator.times fits).add (Jacobian.represents_ofPoint h)).toPoint?_eq

end Point

theorem isScalar_iff {n : Nat} : isScalar n = true ↔ 0 < n ∧ n < groupOrder := by
  simp [isScalar]

theorem lt_of_lt_groupOrder {n : Nat} (h : n < groupOrder) : n < 2 ^ 256 :=
  h.trans (by decide)

/-- Each scalar of a signing key has a public key. -/
theorem isSome_ofScalar? {n : Nat} (h : isScalar n) : (Point.ofScalar? n).isSome := by
  obtain ⟨pos, lt⟩ := isScalar_iff.mp h
  rw [Point.ofScalar?_eq (lt_of_lt_groupOrder lt), Option.isSome_iff_ne_none, ne_eq,
    Point.ofGroup?_eq_none_iff, ← addOrderOf_dvd_iff_nsmul_eq_zero, addOrderOf_base]
  exact Nat.not_dvd_of_pos_of_lt pos lt

theorem ofScalar?_zero : Point.ofScalar? 0 = none := by
  rw [Point.ofScalar?_eq (by decide), zero_nsmul]
  rfl

/-- Tweaking a public key tweaks its scalar. -/
theorem Point.tweak?_of_ofScalar? {p : Point} {s t : Nat} (hs : s < groupOrder)
    (ht : t < groupOrder) (h : ofScalar? s = some p) :
    p.tweak? t = ofScalar? ((s + t) % groupOrder) := by
  have fits : (s + t) % groupOrder < 2 ^ 256 :=
    lt_of_lt_groupOrder (Nat.mod_lt _ (by decide))
  rw [ofScalar?_eq (lt_of_lt_groupOrder hs)] at h
  rw [tweak?_eq h (lt_of_lt_groupOrder ht), ofScalar?_eq fits, mod_groupOrder_nsmul_base,
    add_comm s t, add_nsmul]

end HdWallet.Secp256k1
