import Ed301.Params.Primes
import Ed301.Theory.Edwards.Group
import Mathlib.NumberTheory.LegendreSymbol.Basic

/-!
# The Ed301 Curve

The curve `2086388329 x² + y² = 1 + 301 x² y²` over the prime field, and its
base point. The first coefficient is the square of `45677`, as the parameter
set publishes it. The second is not a square: Euler's criterion asks for its
power by `(p - 1) / 2`, and a ladder computes that.

Two arithmetic facts about the moduli that are used elsewhere are recorded
here as well. The field modulus is odd, so a nonzero residue and its negative
differ in parity. The order lies between a quarter of `2 ^ 301` and
`2 ^ 300`, which is the range the pruning argument needs.

## Main definitions

* `curve`: The curve with its completeness conditions.
* `generator`: The base point.
* `orderTwoPoint`: The point `(0, -1)`.

## Theorems

* `scalarModulus_bounds`, `fieldModulus_bounds`: Both moduli fill their bit
  lengths.
* `d_nonsquare`: The second coefficient is not a square.
* `val_neg_mod_two`: Negation flips parity.
* `cofactor_coprime`: The cofactor is coprime to the order.
-/

namespace Ed301

open Edwards

theorem fieldModulus_mod_two : fieldModulus % 2 = 1 := by decide

/-- The order fills 300 bits. -/
theorem scalarModulus_bounds : 2 ^ 299 < scalarModulus ∧ scalarModulus < 2 ^ 300 := by
  decide +kernel

/-- The field modulus fills 301 bits. -/
theorem fieldModulus_bounds : 2 ^ 300 < fieldModulus ∧ fieldModulus < 2 ^ 301 := by
  decide +kernel

theorem fieldModulus_lt : fieldModulus < 2 ^ 301 :=
  fieldModulus_bounds.2

theorem scalarModulus_lt_fieldBits : scalarModulus < 2 ^ fieldBits :=
  scalarModulus_bounds.2.trans (pow_lt_pow_right₀ (by norm_num) (by norm_num))

/-- The cofactor is coprime to the order. -/
theorem cofactor_coprime : Nat.Coprime 4 scalarModulus := by decide

/-- The modulus is odd, so a nonzero residue and its negative differ in
    parity. -/
theorem val_neg_mod_two (c : ZMod fieldModulus) (hc : c ≠ 0) :
    (-c).val % 2 = 1 - c.val % 2 := by
  have hval : (-c).val = fieldModulus - c.val := by rw [ZMod.neg_val, if_neg hc]
  have hlt := c.val_lt
  have hodd := fieldModulus_mod_two
  omega

/-- The second coefficient is not a square, by Euler's criterion. -/
theorem d_nonsquare : ¬ IsSquare (301 : ZMod fieldModulus) := by
  have hlt : 301 < fieldModulus := by decide
  have hcast : (301 : ZMod fieldModulus) = ((301 : ℕ) : ZMod fieldModulus) := rfl
  have hne : (301 : ZMod fieldModulus) ≠ 0 := by
    rw [hcast, ne_eq, ZMod.natCast_eq_zero_iff]
    exact Nat.not_dvd_of_pos_of_lt (by norm_num) hlt
  rw [ZMod.euler_criterion fieldModulus hne, hcast,
    Pratt.natCast_pow_eq_one_iff _ _ _ prime_fieldModulus.one_lt, ← Pratt.powMod_eq]
  decide +kernel

theorem rootA_ne_zero : (45677 : ZMod fieldModulus) ≠ 0 := by
  have hcast : (45677 : ZMod fieldModulus) = ((45677 : ℕ) : ZMod fieldModulus) := rfl
  rw [hcast, ne_eq, ZMod.natCast_eq_zero_iff]
  exact Nat.not_dvd_of_pos_of_lt (by norm_num) (by decide)

theorem two_ne_zero_field : (2 : ZMod fieldModulus) ≠ 0 := by
  have hcast : (2 : ZMod fieldModulus) = ((2 : ℕ) : ZMod fieldModulus) := rfl
  rw [hcast, ne_eq, ZMod.natCast_eq_zero_iff]
  exact Nat.not_dvd_of_pos_of_lt (by norm_num) (by decide)

/-- The ED301-v1 twisted Edwards curve. -/
def curve : Curve (ZMod fieldModulus) where
  a := 2086388329
  d := 301
  rootA := 45677
  rootA_sq := by norm_num
  rootA_ne_zero := rootA_ne_zero
  d_nonsquare := d_nonsquare
  two_ne_zero := two_ne_zero_field

@[simp] theorem curve_a : curve.a = 2086388329 := rfl

@[simp] theorem curve_d : curve.d = 301 := rfl

/-- The published base point's first coordinate. -/
def generatorX : ℕ :=
  0x3aee68393be0acb6161a27835cdbb15e84b52add4942cad7bf841f3f76e2adfb00c03d1f

/-- The published base point's second coordinate. -/
def generatorY : ℕ :=
  0x1888d3028aa8c8f26c9e4173225567ac249292b147f3d7f76f6dcf3fe83c65800c5a753ff76b

/-- The base point. -/
def generator : Point curve where
  x := generatorX
  y := generatorY
  onCurve := by
    have hmod : (2086388329 * generatorX ^ 2 + generatorY ^ 2) % fieldModulus
        = (1 + 301 * generatorX ^ 2 * generatorY ^ 2) % fieldModulus := by decide +kernel
    have h := (ZMod.natCast_eq_natCast_iff' _ _ fieldModulus).mpr hmod
    push_cast at h
    exact h

/-- The point of order two. -/
def orderTwoPoint : Point curve where
  x := 0
  y := -1
  onCurve := by
    unfold OnCurve
    ring

theorem orderTwoPoint_ne_zero : orderTwoPoint ≠ 0 := by
  intro h
  have hy : (-1 : ZMod fieldModulus) = 1 := congrArg Point.y h
  exact two_ne_zero_field (by linear_combination -hy)

theorem four_nsmul_orderTwoPoint : 4 • orderTwoPoint = 0 := by
  have htwo : orderTwoPoint + orderTwoPoint = 0 := by
    ext
    · simp [Point.add_x, crossSum, orderTwoPoint]
    · simp [Point.add_y, twistedSum, orderTwoPoint, prod]
  have hfour : 4 • orderTwoPoint = 2 • (2 • orderTwoPoint) := mul_nsmul' orderTwoPoint 2 2
  rw [hfour, two_nsmul orderTwoPoint, htwo, nsmul_zero]

end Ed301
