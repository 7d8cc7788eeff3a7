import Mathlib.Algebra.Field.Basic
import Mathlib.Algebra.Group.Even
import Mathlib.Tactic.FieldSimp
import Mathlib.Tactic.LinearCombination
import Mathlib.Tactic.Ring

/-!
# The Twisted Edwards Addition Law

Addition on `a x² + y² = 1 + d x² y²` over any field, for a nonzero square `a`
and a nonsquare `d`. Those two conditions are what makes the law complete: the
denominators `1 ± d x₁ x₂ y₁ y₂` vanish for no pair of points, so one formula
adds every pair and no case distinction survives into the proofs above.

The number `d x₁ x₂ y₁ y₂` is the only thing completeness is about. Were its
square one, multiplying out the two curve equations would exhibit `d` as a
square, and `prod_sq_ne_one` is that argument. Everything else in this file is
an identity between polynomials modulo the curve equations.

Associativity is such an identity too, in nine variables. Clearing the
denominators leaves a polynomial whose cofactors against the three curve
equations are short once they are written through the partial sums
`crossSum` and `twistedSum` of neighbouring points, so the two identities
`assoc_x` and `assoc_y` carry their own certificates.

## Main definitions

* `Curve`: Coefficients for which the addition law is complete.
* `OnCurve`: The affine curve equation.
* `prod`: The product `d x₁ x₂ y₁ y₂` whose square must avoid one.
* `crossSum`: The numerator of the first coordinate of a sum.
* `twistedSum`: The numerator of the second coordinate of a sum.

## Theorems

* `prod_sq_ne_one`: No two points have `d x₁ x₂ y₁ y₂` equal to one or minus
  one.
* `one_add_prod_ne_zero`: The first denominator never vanishes.
* `one_sub_prod_ne_zero`: The second denominator never vanishes.
* `closure_identity`: The sum satisfies the curve equation, denominators
  cleared.
* `assoc_x`: Associativity in the first coordinate, denominators cleared.
* `assoc_y`: Associativity in the second coordinate, denominators cleared.
-/

namespace Ed301

namespace Edwards

/-- Coefficients of a twisted Edwards curve with a complete addition law: `a`
    is the square of a nonzero element, `d` is not a square and `2` is
    invertible. -/
structure Curve (F : Type*) [Field F] where
  a : F
  d : F
  rootA : F
  rootA_sq : rootA ^ 2 = a
  rootA_ne_zero : rootA ≠ 0
  d_nonsquare : ¬ IsSquare d
  two_ne_zero : (2 : F) ≠ 0

variable {F : Type*} [Field F] (E : Curve F)

/-- The affine curve equation. -/
def OnCurve (x y : F) : Prop :=
  E.a * x ^ 2 + y ^ 2 = 1 + E.d * x ^ 2 * y ^ 2

/-- The product the two denominators `1 ± prod` are built from. -/
def prod (x₁ y₁ x₂ y₂ : F) : F :=
  E.d * x₁ * x₂ * y₁ * y₂

/-- The numerator of the first coordinate of a sum. -/
def crossSum (x₁ y₁ x₂ y₂ : F) : F :=
  x₁ * y₂ + y₁ * x₂

/-- The numerator of the second coordinate of a sum. -/
def twistedSum (x₁ y₁ x₂ y₂ : F) : F :=
  y₁ * y₂ - E.a * x₁ * x₂

theorem a_ne_zero : E.a ≠ 0 := by
  rw [← E.rootA_sq]
  exact pow_ne_zero 2 E.rootA_ne_zero

/-- A multiple of a nonzero square by `d` is no square: this is the form in
    which the nonsquare coefficient is used. -/
theorem sq_ne_d_mul_sq (u v : F) (hv : v ≠ 0) : u ^ 2 ≠ E.d * v ^ 2 := by
  intro h
  refine E.d_nonsquare ⟨u / v, ?_⟩
  field_simp
  exact h.symm

/-- The second coordinate determines the square of the first, and the
    denominator of that formula never vanishes. -/
theorem a_sub_d_sq_ne_zero (y : F) : E.a - E.d * y ^ 2 ≠ 0 := by
  intro h
  by_cases hy : y = 0
  · -- Only `a` is left, and that is a nonzero square.
    rw [hy] at h
    exact a_ne_zero E (by linear_combination h)
  · -- Here `√a ^ 2 = d y ^ 2` with `y` nonzero.
    exact sq_ne_d_mul_sq E E.rootA y hy (by linear_combination E.rootA_sq + h)

/-- Completeness. If `d x₁ x₂ y₁ y₂` squared to one, then the first point's
    equation rewrites `(√a x₁ ± y₁)²` into `d` times the square of
    `x₁ y₁ (√a x₂ ± y₂)`, and the two signs cannot both degenerate. -/
theorem prod_sq_ne_one (x₁ y₁ x₂ y₂ : F) (h1 : OnCurve E x₁ y₁) (h2 : OnCurve E x₂ y₂) :
    prod E x₁ y₁ x₂ y₂ ^ 2 ≠ 1 := by
  intro hsq
  unfold OnCurve at h1 h2
  set e : F := prod E x₁ y₁ x₂ y₂ with he
  unfold prod at he
  -- The product squares to one, so none of its factors vanishes.
  have hene : e ≠ 0 := by
    intro h0
    rw [h0] at hsq
    exact one_ne_zero (by linear_combination -hsq)
  have hx1 : x₁ ≠ 0 := by
    intro h0
    exact hene (by rw [he, h0]; ring)
  have hy1 : y₁ ≠ 0 := by
    intro h0
    exact hene (by rw [he, h0]; ring)
  have hx2 : x₂ ≠ 0 := by
    intro h0
    exact hene (by rw [he, h0]; ring)
  -- Both signs of the square root of `a` give an equation of the forbidden
  -- form, provided the last factor on the right is not zero.
  have hplus : (E.rootA * x₁ + e * y₁) ^ 2 = E.d * (x₁ * y₁ * (E.rootA * x₂ + y₂)) ^ 2 := by
    rw [he] at hsq ⊢
    linear_combination (x₁ ^ 2 - E.d * x₁ ^ 2 * y₁ ^ 2 * x₂ ^ 2) * E.rootA_sq + h1
      + (y₁ ^ 2 - 1) * hsq - E.d * x₁ ^ 2 * y₁ ^ 2 * h2
  have hminus : (E.rootA * x₁ - e * y₁) ^ 2 = E.d * (x₁ * y₁ * (E.rootA * x₂ - y₂)) ^ 2 := by
    rw [he] at hsq ⊢
    linear_combination (x₁ ^ 2 - E.d * x₁ ^ 2 * y₁ ^ 2 * x₂ ^ 2) * E.rootA_sq + h1
      + (y₁ ^ 2 - 1) * hsq - E.d * x₁ ^ 2 * y₁ ^ 2 * h2
  -- At least one of the two factors is nonzero, their sum being `2 √a x₂`.
  by_cases hp : E.rootA * x₂ + y₂ = 0
  · have hm : E.rootA * x₂ - y₂ ≠ 0 := by
      intro hm
      have h2x : 2 * (E.rootA * x₂) = 0 := by linear_combination hp + hm
      exact mul_ne_zero E.two_ne_zero (mul_ne_zero E.rootA_ne_zero hx2) h2x
    exact sq_ne_d_mul_sq E _ _ (mul_ne_zero (mul_ne_zero hx1 hy1) hm) hminus
  · exact sq_ne_d_mul_sq E _ _ (mul_ne_zero (mul_ne_zero hx1 hy1) hp) hplus

theorem one_add_prod_ne_zero (x₁ y₁ x₂ y₂ : F) (h1 : OnCurve E x₁ y₁) (h2 : OnCurve E x₂ y₂) :
    1 + prod E x₁ y₁ x₂ y₂ ≠ 0 := by
  intro h
  -- A product of minus one would square to one.
  exact prod_sq_ne_one E x₁ y₁ x₂ y₂ h1 h2
    (by linear_combination (prod E x₁ y₁ x₂ y₂ - 1) * h)

theorem one_sub_prod_ne_zero (x₁ y₁ x₂ y₂ : F) (h1 : OnCurve E x₁ y₁) (h2 : OnCurve E x₂ y₂) :
    1 - prod E x₁ y₁ x₂ y₂ ≠ 0 := by
  intro h
  -- And so would a product of one.
  exact prod_sq_ne_one E x₁ y₁ x₂ y₂ h1 h2
    (by linear_combination (-prod E x₁ y₁ x₂ y₂ - 1) * h)

/-- The sum of two curve points satisfies the curve equation, with both
    denominators multiplied out. -/
theorem closure_identity (x₁ y₁ x₂ y₂ : F) (h1 : OnCurve E x₁ y₁) (h2 : OnCurve E x₂ y₂) :
    E.a * (crossSum x₁ y₁ x₂ y₂ * (1 - prod E x₁ y₁ x₂ y₂)) ^ 2
        + (twistedSum E x₁ y₁ x₂ y₂ * (1 + prod E x₁ y₁ x₂ y₂)) ^ 2
      = ((1 + prod E x₁ y₁ x₂ y₂) * (1 - prod E x₁ y₁ x₂ y₂)) ^ 2
        + E.d * (crossSum x₁ y₁ x₂ y₂ * twistedSum E x₁ y₁ x₂ y₂) ^ 2 := by
  unfold OnCurve at h1 h2
  unfold crossSum twistedSum prod
  -- With `vᵢ = a xᵢ² + yᵢ²` and `pᵢ = d xᵢ² yᵢ²` both sides differ by
  -- `v₁ v₂ (1 + p₁ p₂) - p₁ v₂² - p₂ v₁² - (1 - p₁ p₂)²`, zero at `vᵢ = 1 + pᵢ`.
  linear_combination
    ((E.a * x₂ ^ 2 + y₂ ^ 2) * (1 + E.d * x₁ ^ 2 * y₁ ^ 2 * (E.d * x₂ ^ 2 * y₂ ^ 2))
        - E.d * x₂ ^ 2 * y₂ ^ 2 * (E.a * x₁ ^ 2 + y₁ ^ 2 + (1 + E.d * x₁ ^ 2 * y₁ ^ 2))) * h1
      + ((1 + E.d * x₁ ^ 2 * y₁ ^ 2) * (1 + E.d * x₁ ^ 2 * y₁ ^ 2 * (E.d * x₂ ^ 2 * y₂ ^ 2))
        - E.d * x₁ ^ 2 * y₁ ^ 2 * (E.a * x₂ ^ 2 + y₂ ^ 2 + (1 + E.d * x₂ ^ 2 * y₂ ^ 2))) * h2

/-- Associativity in the first coordinate with the four denominators
    multiplied out. The first two cofactors come from the terms that repeat an
    outer point, the last from those that repeat the middle one. -/
theorem assoc_x (x₁ y₁ x₂ y₂ x₃ y₃ : F) (h1 : OnCurve E x₁ y₁) (h2 : OnCurve E x₂ y₂)
    (h3 : OnCurve E x₃ y₃) :
    (crossSum x₁ y₁ x₂ y₂ * (1 - prod E x₁ y₁ x₂ y₂) * y₃
          + twistedSum E x₁ y₁ x₂ y₂ * (1 + prod E x₁ y₁ x₂ y₂) * x₃)
        * ((1 + prod E x₂ y₂ x₃ y₃) * (1 - prod E x₂ y₂ x₃ y₃)
          + E.d * (crossSum x₂ y₂ x₃ y₃ * twistedSum E x₂ y₂ x₃ y₃) * x₁ * y₁)
      = (x₁ * (twistedSum E x₂ y₂ x₃ y₃ * (1 + prod E x₂ y₂ x₃ y₃))
          + y₁ * (crossSum x₂ y₂ x₃ y₃ * (1 - prod E x₂ y₂ x₃ y₃)))
        * ((1 + prod E x₁ y₁ x₂ y₂) * (1 - prod E x₁ y₁ x₂ y₂)
          + E.d * (crossSum x₁ y₁ x₂ y₂ * twistedSum E x₁ y₁ x₂ y₂) * x₃ * y₃) := by
  unfold OnCurve at h1 h2 h3
  unfold crossSum twistedSum prod
  -- Every cofactor is a multiple of `d x₂ y₂`: at `d = 0` the law is that of a
  -- circle and the identity needs no curve equation.
  linear_combination
    -(E.d * x₂ * y₂ * ((x₂ * y₃ + y₂ * x₃) * (y₂ * y₃ - E.a * x₂ * x₃)
          * ((y₁ * y₂ - E.a * x₁ * x₂) * x₃ - (x₁ * y₂ + y₁ * x₂) * y₃)
        + x₂ * y₂ * (x₁ * ((y₂ * y₃ - E.a * x₂ * x₃) * (1 + E.d * x₂ * x₃ * y₂ * y₃))
          + y₁ * ((x₂ * y₃ + y₂ * x₃) * (1 - E.d * x₂ * x₃ * y₂ * y₃))))) * h1
      + E.d * x₂ * y₂ * ((x₁ * y₂ + y₁ * x₂) * (y₁ * y₂ - E.a * x₁ * x₂)
          * (x₁ * (y₂ * y₃ - E.a * x₂ * x₃) - y₁ * (x₂ * y₃ + y₂ * x₃))
        + x₂ * y₂ * ((x₁ * y₂ + y₁ * x₂) * (1 - E.d * x₁ * x₂ * y₁ * y₂) * y₃
          + (y₁ * y₂ - E.a * x₁ * x₂) * (1 + E.d * x₁ * x₂ * y₁ * y₂) * x₃)) * h3
      + E.d * x₂ * y₂ * ((E.a * x₁ ^ 2 + y₁ ^ 2 - 1)
          * (x₃ * y₃ * (x₃ * (y₁ * y₂ + E.a * x₁ * x₂) + y₃ * (y₁ * x₂ - x₁ * y₂)))
        - (E.a * x₃ ^ 2 + y₃ ^ 2 - 1)
          * (x₁ * y₁ * (x₁ * (y₂ * y₃ + E.a * x₂ * x₃) + y₁ * (x₂ * y₃ - y₂ * x₃)))) * h2

/-- Associativity in the second coordinate, with cofactors of the same
    shape. -/
theorem assoc_y (x₁ y₁ x₂ y₂ x₃ y₃ : F) (h1 : OnCurve E x₁ y₁) (h2 : OnCurve E x₂ y₂)
    (h3 : OnCurve E x₃ y₃) :
    (twistedSum E x₁ y₁ x₂ y₂ * (1 + prod E x₁ y₁ x₂ y₂) * y₃
          - E.a * (crossSum x₁ y₁ x₂ y₂ * (1 - prod E x₁ y₁ x₂ y₂)) * x₃)
        * ((1 + prod E x₂ y₂ x₃ y₃) * (1 - prod E x₂ y₂ x₃ y₃)
          - E.d * (crossSum x₂ y₂ x₃ y₃ * twistedSum E x₂ y₂ x₃ y₃) * x₁ * y₁)
      = (y₁ * (twistedSum E x₂ y₂ x₃ y₃ * (1 + prod E x₂ y₂ x₃ y₃))
          - E.a * x₁ * (crossSum x₂ y₂ x₃ y₃ * (1 - prod E x₂ y₂ x₃ y₃)))
        * ((1 + prod E x₁ y₁ x₂ y₂) * (1 - prod E x₁ y₁ x₂ y₂)
          - E.d * (crossSum x₁ y₁ x₂ y₂ * twistedSum E x₁ y₁ x₂ y₂) * x₃ * y₃) := by
  unfold OnCurve at h1 h2 h3
  unfold crossSum twistedSum prod
  linear_combination
    E.d * x₂ * y₂ * ((x₂ * y₃ + y₂ * x₃) * (y₂ * y₃ - E.a * x₂ * x₃)
          * ((y₁ * y₂ - E.a * x₁ * x₂) * y₃ + E.a * (x₁ * y₂ + y₁ * x₂) * x₃)
        - x₂ * y₂ * (y₁ * ((y₂ * y₃ - E.a * x₂ * x₃) * (1 + E.d * x₂ * x₃ * y₂ * y₃))
          - E.a * x₁ * ((x₂ * y₃ + y₂ * x₃) * (1 - E.d * x₂ * x₃ * y₂ * y₃)))) * h1
      - E.d * x₂ * y₂ * ((x₁ * y₂ + y₁ * x₂) * (y₁ * y₂ - E.a * x₁ * x₂)
          * (y₁ * (y₂ * y₃ - E.a * x₂ * x₃) + E.a * x₁ * (x₂ * y₃ + y₂ * x₃))
        - x₂ * y₂ * ((y₁ * y₂ - E.a * x₁ * x₂) * (1 + E.d * x₁ * x₂ * y₁ * y₂) * y₃
          - E.a * ((x₁ * y₂ + y₁ * x₂) * (1 - E.d * x₁ * x₂ * y₁ * y₂)) * x₃)) * h3
      + E.d * x₂ * y₂ * ((E.a * x₁ ^ 2 + y₁ ^ 2 - 1)
          * (x₃ * y₃ * (E.a * x₃ * (y₁ * x₂ - x₁ * y₂) - y₃ * (y₁ * y₂ + E.a * x₁ * x₂)))
        - (E.a * x₃ ^ 2 + y₃ ^ 2 - 1)
          * (x₁ * y₁ * (E.a * x₁ * (x₂ * y₃ - y₂ * x₃) - y₁ * (y₂ * y₃ + E.a * x₂ * x₃)))) * h2

end Edwards

end Ed301
