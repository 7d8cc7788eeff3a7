import Ed301.Theory.Edwards.Law
import Mathlib.Algebra.Group.Defs

/-!
# The Group of a Complete Twisted Edwards Curve

The affine points of a complete twisted Edwards curve form an abelian group.
A `Point` carries the curve equation as a field, so a pair of coordinates off
the curve cannot be built, and addition is a total function: completeness has
already removed the exceptional pairs.

Associativity is read off the two cleared identities of `Edwards.Law`. A
threefold sum is first written as one fraction, `add_add_x` and `add_add_y`;
the opposite bracketing needs no second computation, since it is the same sum
with the points in the opposite order.

## Main definitions

* `Point`: An affine point with its curve equation.
* `add`: The affine addition law.

## Theorems

* `den_ne_zero`: The denominator of a sum is nonzero.
* `add_add_x`: A threefold sum's first coordinate as one fraction.
* `add_add_y`: A threefold sum's second coordinate as one fraction.
* `add_assoc'`: Addition is associative.
* `x_eq_or_neg`: Two points with one second coordinate agree up to sign.
-/

namespace Ed301

namespace Edwards

variable {F : Type*} [Field F]

/-- An affine point of the curve, carrying its equation. -/
@[ext]
structure Point (E : Curve F) where
  x : F
  y : F
  onCurve : OnCurve E x y

namespace Point

variable {E : Curve F}

/-- The product `d x₁ x₂ y₁ y₂` of a pair of points. -/
abbrev pairProd (P Q : Point E) : F :=
  prod E P.x P.y Q.x Q.y

theorem one_add_ne_zero (P Q : Point E) : 1 + pairProd P Q ≠ 0 :=
  one_add_prod_ne_zero E P.x P.y Q.x Q.y P.onCurve Q.onCurve

theorem one_sub_ne_zero (P Q : Point E) : 1 - pairProd P Q ≠ 0 :=
  one_sub_prod_ne_zero E P.x P.y Q.x Q.y P.onCurve Q.onCurve

/-- The common denominator of a sum. -/
abbrev den (P Q : Point E) : F :=
  (1 + pairProd P Q) * (1 - pairProd P Q)

theorem den_ne_zero (P Q : Point E) : den P Q ≠ 0 :=
  mul_ne_zero (one_add_ne_zero P Q) (one_sub_ne_zero P Q)

/-- The affine addition law. -/
def add (P Q : Point E) : Point E where
  x := crossSum P.x P.y Q.x Q.y / (1 + pairProd P Q)
  y := twistedSum E P.x P.y Q.x Q.y / (1 - pairProd P Q)
  onCurve := by
    have hp := one_add_ne_zero P Q
    have hm := one_sub_ne_zero P Q
    have h := closure_identity E P.x P.y Q.x Q.y P.onCurve Q.onCurve
    -- Clearing the denominators leaves the polynomial identity.
    unfold OnCurve
    field_simp
    linear_combination h

theorem add_x_mul (P Q : Point E) :
    (add P Q).x * (1 + pairProd P Q) = crossSum P.x P.y Q.x Q.y :=
  div_mul_cancel₀ _ (one_add_ne_zero P Q)

theorem add_y_mul (P Q : Point E) :
    (add P Q).y * (1 - pairProd P Q) = twistedSum E P.x P.y Q.x Q.y :=
  div_mul_cancel₀ _ (one_sub_ne_zero P Q)

/-- The neutral point `(0, 1)`. -/
def neutral : Point E where
  x := 0
  y := 1
  onCurve := by
    unfold OnCurve
    ring

/-- The inverse point `(-x, y)`. -/
def inverse (P : Point E) : Point E where
  x := -P.x
  y := P.y
  onCurve := by
    have h := P.onCurve
    unfold OnCurve at h ⊢
    linear_combination h

theorem add_comm' (P Q : Point E) : add P Q = add Q P := by
  have hprod : pairProd P Q = pairProd Q P := by
    unfold pairProd prod
    ring
  -- Numerators and denominators are symmetric in the two points.
  ext
  · simp only [add, hprod, crossSum]
    ring
  · simp only [add, hprod, twistedSum]
    ring

theorem neutral_add (P : Point E) : add neutral P = P := by
  ext
  · simp only [add, neutral, pairProd, prod, crossSum]
    ring
  · simp only [add, neutral, pairProd, prod, twistedSum]
    ring

theorem inverse_add (P : Point E) : add (inverse P) P = neutral := by
  have hm := one_sub_ne_zero (inverse P) P
  have h := P.onCurve
  unfold OnCurve at h
  ext
  · -- The cross terms cancel.
    simp only [add, neutral, inverse, crossSum]
    ring
  · -- The numerator equals the denominator, by the equation of the point.
    simp only [add, neutral]
    rw [div_eq_one_iff_eq hm]
    simp only [twistedSum, pairProd, prod, inverse]
    linear_combination h

/-- The denominator of a threefold sum, cleared of its inner sum. -/
theorem den_add (P Q W : Point E) :
    den P Q + E.d * (crossSum P.x P.y Q.x Q.y * twistedSum E P.x P.y Q.x Q.y) * W.x * W.y
      = den P Q * (1 + pairProd (add P Q) W) := by
  rw [← add_x_mul, ← add_y_mul]
  simp only [den, pairProd, prod]
  ring

theorem den_sub (P Q W : Point E) :
    den P Q - E.d * (crossSum P.x P.y Q.x Q.y * twistedSum E P.x P.y Q.x Q.y) * W.x * W.y
      = den P Q * (1 - pairProd (add P Q) W) := by
  linear_combination -den_add P Q W

/-- The first coordinate of a threefold sum as one fraction. -/
theorem add_add_x (P Q W : Point E) :
    (add (add P Q) W).x
      = (crossSum P.x P.y Q.x Q.y * (1 - pairProd P Q) * W.y
          + twistedSum E P.x P.y Q.x Q.y * (1 + pairProd P Q) * W.x)
        / (den P Q
          + E.d * (crossSum P.x P.y Q.x Q.y * twistedSum E P.x P.y Q.x Q.y) * W.x * W.y) := by
  rw [den_add, eq_div_iff (mul_ne_zero (den_ne_zero P Q) (one_add_ne_zero (add P Q) W))]
  -- The three divisions involved, undone: the outer one and the inner two.
  have hx := add_x_mul (add P Q) W
  have hq := add_x_mul P Q
  have hr := add_y_mul P Q
  unfold crossSum at hx
  linear_combination den P Q * hx + (1 - pairProd P Q) * W.y * hq
    + (1 + pairProd P Q) * W.x * hr

/-- The second coordinate of a threefold sum as one fraction. -/
theorem add_add_y (P Q W : Point E) :
    (add (add P Q) W).y
      = (twistedSum E P.x P.y Q.x Q.y * (1 + pairProd P Q) * W.y
          - E.a * (crossSum P.x P.y Q.x Q.y * (1 - pairProd P Q)) * W.x)
        / (den P Q
          - E.d * (crossSum P.x P.y Q.x Q.y * twistedSum E P.x P.y Q.x Q.y) * W.x * W.y) := by
  rw [den_sub, eq_div_iff (mul_ne_zero (den_ne_zero P Q) (one_sub_ne_zero (add P Q) W))]
  have hy := add_y_mul (add P Q) W
  have hq := add_x_mul P Q
  have hr := add_y_mul P Q
  unfold twistedSum at hy
  linear_combination den P Q * hy + (1 + pairProd P Q) * W.y * hr
    - E.a * (1 - pairProd P Q) * W.x * hq

/-- Addition is associative. Both bracketings are threefold sums read from
    the left, the right one with its points in the opposite order. -/
theorem add_assoc' (P Q W : Point E) : add (add P Q) W = add P (add Q W) := by
  rw [add_comm' P (add Q W), add_comm' Q W]
  -- Each coordinate is one fraction on either side, and cross multiplication
  -- leaves the polynomial identity.
  have hl := den_ne_zero P Q
  have hr := den_ne_zero W Q
  ext
  · rw [add_add_x, add_add_x, div_eq_div_iff]
    · have h := assoc_x E P.x P.y Q.x Q.y W.x W.y P.onCurve Q.onCurve W.onCurve
      simp only [crossSum, twistedSum, pairProd, den, prod] at h ⊢
      linear_combination h
    · rw [den_add]
      exact mul_ne_zero hl (one_add_ne_zero _ _)
    · rw [den_add]
      exact mul_ne_zero hr (one_add_ne_zero _ _)
  · rw [add_add_y, add_add_y, div_eq_div_iff]
    · have h := assoc_y E P.x P.y Q.x Q.y W.x W.y P.onCurve Q.onCurve W.onCurve
      simp only [crossSum, twistedSum, pairProd, den, prod] at h ⊢
      linear_combination h
    · rw [den_sub]
      exact mul_ne_zero hl (one_sub_ne_zero _ _)
    · rw [den_sub]
      exact mul_ne_zero hr (one_sub_ne_zero _ _)

instance : Add (Point E) := ⟨add⟩

instance : Zero (Point E) := ⟨neutral⟩

instance : Neg (Point E) := ⟨inverse⟩

instance : AddCommGroup (Point E) where
  add_assoc := add_assoc'
  add_comm := add_comm'
  zero_add := neutral_add
  add_zero P := by
    change add P neutral = P
    rw [add_comm', neutral_add]
  neg_add_cancel := inverse_add
  nsmul := nsmulRec
  zsmul := zsmulRec

@[simp] theorem zero_x : (0 : Point E).x = 0 := rfl

@[simp] theorem zero_y : (0 : Point E).y = 1 := rfl

@[simp] theorem neg_x (P : Point E) : (-P).x = -P.x := rfl

@[simp] theorem neg_y (P : Point E) : (-P).y = P.y := rfl

/-- A point whose first coordinate vanishes is its own inverse. -/
theorem neg_eq_self (P : Point E) (hx : P.x = 0) : -P = P := by
  ext
  · rw [neg_x, hx, neg_zero]
  · rw [neg_y]

theorem add_x (P Q : Point E) :
    (P + Q).x = crossSum P.x P.y Q.x Q.y / (1 + pairProd P Q) := rfl

theorem add_y (P Q : Point E) :
    (P + Q).y = twistedSum E P.x P.y Q.x Q.y / (1 - pairProd P Q) := rfl

/-- The curve equation solved for the square of the first coordinate. -/
theorem x_sq (P : Point E) : P.x ^ 2 = (1 - P.y ^ 2) / (E.a - E.d * P.y ^ 2) := by
  have h := P.onCurve
  unfold OnCurve at h
  rw [eq_div_iff (a_sub_d_sq_ne_zero E P.y)]
  linear_combination h

/-- Two points with the same second coordinate agree up to the sign of the
    first. -/
theorem x_eq_or_neg (P Q : Point E) (hy : P.y = Q.y) : P.x = Q.x ∨ P.x = -Q.x := by
  refine sq_eq_sq_iff_eq_or_eq_neg.mp ?_
  -- The square of the first coordinate is a function of the second.
  rw [x_sq, x_sq, hy]

/-- The coordinates solving the recovery formula form a point. -/
def ofRoot (x y : F) (h : x ^ 2 = (1 - y ^ 2) / (E.a - E.d * y ^ 2)) : Point E where
  x := x
  y := y
  onCurve := by
    rw [eq_div_iff (a_sub_d_sq_ne_zero E y)] at h
    unfold OnCurve
    linear_combination h

end Point

end Edwards

end Ed301
