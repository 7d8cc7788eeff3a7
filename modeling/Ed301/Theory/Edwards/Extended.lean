import Ed301.Theory.Edwards.Group

/-!
# Extended Coordinates

Points of a complete twisted Edwards curve in extended coordinates
`(X : Y : Z : T)` with `XY = ZT`, and the projective formulas that add, double
and negate them without division.

`Represents` ties a quadruple to the affine point it stands for, and every
formula is settled once by saying which affine point its result represents.
That relation is the whole interface. Since it demands `Z ≠ 0`, and since each
formula's new `Z` is the product of the old ones with the two denominators of
the affine law, completeness is exactly what keeps the relation alive through
a computation. A quadruple with `Z = 0` would compare equal to everything;
`coordEq_iff` is where its absence pays off.

## Main definitions

* `Extended`: A quadruple of projective coordinates.
* `Represents`: The affine point a quadruple stands for.
* `Valid`: The conditions a quadruple has to meet to stand for a point.
* `Extended.add`: The complete addition formula.
* `Extended.double`: The dedicated doubling formula.
* `Extended.neg`: Negation.
* `Extended.scale`: Multiplication of all coordinates by a constant.
* `Extended.CoordEq`: Comparison by cross multiplication.

## Theorems

* `represents_unique`: A quadruple represents at most one point.
* `valid_iff`: The valid quadruples are those that represent some point.
* `add_represents`: The addition formula represents the sum.
* `double_eq_scale`: Doubling is the addition of a point to itself, up to a
  sign in every coordinate.
* `double_represents`: The doubling formula represents the double.
* `neg_represents`: Negation represents the inverse.
* `coordEq_iff`: Cross multiplication decides equality of points.
* `isNeutral_iff`: The neutral point is recognised without division.
-/

namespace Ed301

namespace Edwards

/-- Extended projective coordinates. -/
@[ext]
structure Extended (F : Type*) where
  x : F
  y : F
  z : F
  t : F

variable {F : Type*} [Field F] {E : Curve F}

/-- The quadruple stands for the affine point `A`. -/
structure Represents (P : Extended F) (A : Point E) : Prop where
  z_ne_zero : P.z ≠ 0
  x_eq : P.x = A.x * P.z
  y_eq : P.y = A.y * P.z
  t_eq : P.t = A.x * A.y * P.z

/-- The conditions under which a quadruple stands for a point: a nonzero `Z`,
    the extended relation and the projective curve equation. -/
structure Valid (E : Curve F) (P : Extended F) : Prop where
  z_ne_zero : P.z ≠ 0
  relation : P.x * P.y = P.z * P.t
  equation : E.a * P.x ^ 2 * P.z ^ 2 + P.y ^ 2 * P.z ^ 2 = P.z ^ 4 + E.d * P.x ^ 2 * P.y ^ 2

/-- A quadruple represents at most one point. -/
theorem represents_unique (P : Extended F) (A B : Point E) (hA : Represents P A)
    (hB : Represents P B) : A = B := by
  ext
  · exact mul_right_cancel₀ hA.z_ne_zero (hA.x_eq.symm.trans hB.x_eq)
  · exact mul_right_cancel₀ hA.z_ne_zero (hA.y_eq.symm.trans hB.y_eq)

theorem Represents.valid {P : Extended F} {A : Point E} (h : Represents P A) : Valid E P where
  z_ne_zero := h.z_ne_zero
  relation := by
    rw [h.x_eq, h.y_eq, h.t_eq]
    ring
  equation := by
    have hA := A.onCurve
    unfold OnCurve at hA
    rw [h.x_eq, h.y_eq]
    linear_combination P.z ^ 4 * hA

/-- The affine point of a valid quadruple. -/
def Valid.toPoint {P : Extended F} (h : Valid E P) : Point E where
  x := P.x / P.z
  y := P.y / P.z
  onCurve := by
    have hz := h.z_ne_zero
    have he := h.equation
    unfold OnCurve
    field_simp
    linear_combination he

theorem Valid.represents {P : Extended F} (h : Valid E P) : Represents P h.toPoint where
  z_ne_zero := h.z_ne_zero
  x_eq := (div_mul_cancel₀ _ h.z_ne_zero).symm
  y_eq := (div_mul_cancel₀ _ h.z_ne_zero).symm
  t_eq := by
    have hz := h.z_ne_zero
    have hr := h.relation
    simp only [Valid.toPoint]
    field_simp
    linear_combination -hr

/-- The affine point of a valid quadruple is the one it represents. -/
theorem Represents.toPoint_eq {P : Extended F} {A : Point E} (h : Represents P A)
    (hP : Valid E P) : hP.toPoint = A :=
  represents_unique P _ _ hP.represents h

/-- The valid quadruples are exactly those that represent a point. -/
theorem valid_iff (P : Extended F) : Valid E P ↔ ∃ A : Point E, Represents P A :=
  ⟨fun h => ⟨h.toPoint, h.represents⟩, fun ⟨_, hA⟩ => hA.valid⟩

namespace Extended

/-- The complete addition formula. -/
def add (E : Curve F) (P Q : Extended F) : Extended F :=
  let xx := P.x * Q.x
  let yy := P.y * Q.y
  let dt := E.d * P.t * Q.t
  let zz := P.z * Q.z
  let cross := (P.x + P.y) * (Q.x + Q.y) - xx - yy
  let difference := zz - dt
  let sum := zz + dt
  let twisted := yy - E.a * xx
  { x := cross * difference
    y := sum * twisted
    z := difference * sum
    t := cross * twisted }

/-- The dedicated doubling formula, which never reads `T`. -/
def double (E : Curve F) (P : Extended F) : Extended F :=
  let xx := P.x ^ 2
  let yy := P.y ^ 2
  let twoZZ := 2 * P.z ^ 2
  let twistedXX := E.a * xx
  let cross := (P.x + P.y) ^ 2 - xx - yy
  let sum := twistedXX + yy
  let difference := sum - twoZZ
  let twistedDifference := twistedXX - yy
  { x := cross * difference
    y := sum * twistedDifference
    z := difference * sum
    t := cross * twistedDifference }

/-- Negation of the first coordinate. -/
def neg (P : Extended F) : Extended F :=
  { x := -P.x
    y := P.y
    z := P.z
    t := -P.t }

/-- The quadruple with all coordinates multiplied by a constant. -/
def scale (c : F) (P : Extended F) : Extended F :=
  { x := c * P.x
    y := c * P.y
    z := c * P.z
    t := c * P.t }

/-- Projective comparison by cross multiplication. -/
def CoordEq (P Q : Extended F) : Prop :=
  P.x * Q.z = Q.x * P.z ∧ P.y * Q.z = Q.y * P.z

/-- The quadruple of an affine pair. -/
def ofAffine (x y : F) : Extended F :=
  { x := x
    y := y
    z := 1
    t := x * y }

end Extended

theorem ofAffine_represents (A : Point E) : Represents (Extended.ofAffine A.x A.y) A where
  z_ne_zero := one_ne_zero
  x_eq := (mul_one _).symm
  y_eq := (mul_one _).symm
  t_eq := (mul_one _).symm

/-- The addition formula represents the sum of the represented points. Its
    `Z` is the squared product of the old ones times both affine
    denominators. -/
theorem add_represents (P Q : Extended F) (A B : Point E) (hP : Represents P A)
    (hQ : Represents Q B) : Represents (Extended.add E P Q) (A + B) := by
  have hp := Point.one_add_ne_zero A B
  have hm := Point.one_sub_ne_zero A B
  have hz : (Extended.add E P Q).z = (P.z * Q.z) ^ 2 * Point.den A B := by
    simp only [Extended.add, hP.t_eq, hQ.t_eq, Point.den, Point.pairProd, prod]
    ring
  constructor
  -- The new `Z` is a product of factors none of which vanishes, and each of
  -- the other coordinates is its affine value times that `Z`.
  · rw [hz]
    exact mul_ne_zero (pow_ne_zero 2 (mul_ne_zero hP.z_ne_zero hQ.z_ne_zero))
      (Point.den_ne_zero A B)
  · rw [hz, Point.add_x]
    field_simp
    simp only [Extended.add, hP.x_eq, hP.y_eq, hP.t_eq, hQ.x_eq, hQ.y_eq, hQ.t_eq,
      Point.pairProd, prod, crossSum]
    ring
  · rw [hz, Point.add_y]
    field_simp
    simp only [Extended.add, hP.x_eq, hP.y_eq, hP.t_eq, hQ.x_eq, hQ.y_eq, hQ.t_eq,
      Point.pairProd, prod, twistedSum]
    ring
  · rw [hz, Point.add_x, Point.add_y]
    field_simp
    simp only [Extended.add, hP.x_eq, hP.y_eq, hQ.x_eq, hQ.y_eq, crossSum,
      twistedSum]
    ring

/-- Scaling by a nonzero constant leaves the point alone. -/
theorem scale_represents (c : F) (hc : c ≠ 0) (P : Extended F) (A : Point E)
    (hP : Represents P A) : Represents (P.scale c) A := by
  constructor
  · exact mul_ne_zero hc hP.z_ne_zero
  · simp only [Extended.scale, hP.x_eq]
    ring
  · simp only [Extended.scale, hP.y_eq]
    ring
  · simp only [Extended.scale, hP.t_eq]
    ring

/-- Doubling is addition of a point to itself with all signs turned. The sum
    of the weighted squares, which doubling computes without `T`, is what
    addition computes from `T`, by the curve equation. -/
theorem double_eq_scale (P : Extended F) (hP : Valid E P) :
    Extended.double E P = (Extended.add E P P).scale (-1) := by
  have hz : P.z ^ 2 ≠ 0 := pow_ne_zero 2 hP.z_ne_zero
  have hrel := hP.relation
  have heq := hP.equation
  have hsum : E.a * P.x ^ 2 + P.y ^ 2 = P.z * P.z + E.d * P.t * P.t := by
    refine mul_right_cancel₀ hz ?_
    linear_combination heq + E.d * (P.x * P.y + P.z * P.t) * hrel
  -- The two factors that differ between the formulas differ in sign only.
  have hdiff : P.z * P.z + E.d * P.t * P.t - 2 * P.z ^ 2 = -(P.z * P.z - E.d * P.t * P.t) := by
    ring
  have hcross : (P.x + P.y) ^ 2 - P.x ^ 2 - P.y ^ 2
      = (P.x + P.y) * (P.x + P.y) - P.x * P.x - P.y * P.y := by
    ring
  have htwist : E.a * P.x ^ 2 - P.y ^ 2 = -(P.y * P.y - E.a * (P.x * P.x)) := by
    ring
  simp only [Extended.double, Extended.add, Extended.scale, hsum, hdiff, hcross, htwist]
  ext <;> ring

/-- The doubling formula represents the double of the represented point. -/
theorem double_represents (P : Extended F) (A : Point E) (hP : Represents P A) :
    Represents (Extended.double E P) (A + A) := by
  rw [double_eq_scale P hP.valid]
  exact scale_represents (-1) (neg_ne_zero.mpr one_ne_zero) _ _ (add_represents P P A A hP hP)

/-- The two formulas never give the same quadruple: their `Z` are nonzero and
    opposite. -/
theorem double_ne_add (P : Extended F) (hP : Valid E P) :
    Extended.double E P ≠ Extended.add E P P := by
  intro h
  have hz := (add_represents P P _ _ hP.represents hP.represents).z_ne_zero
  have hneg := congrArg Extended.z ((double_eq_scale P hP).symm.trans h)
  simp only [Extended.scale] at hneg
  have htwice : 2 * (Extended.add E P P).z = 0 := by linear_combination -hneg
  exact mul_ne_zero E.two_ne_zero hz htwice

theorem neg_represents (P : Extended F) (A : Point E) (hP : Represents P A) :
    Represents P.neg (-A) := by
  -- `X` and `T` change sign together.
  constructor
  · exact hP.z_ne_zero
  · simp only [Extended.neg, Point.neg_x, hP.x_eq]
    ring
  · exact hP.y_eq
  · simp only [Extended.neg, Point.neg_x, Point.neg_y, hP.t_eq]
    ring

/-- Cross multiplication decides equality of the represented points. -/
theorem coordEq_iff (P Q : Extended F) (A B : Point E) (hP : Represents P A)
    (hQ : Represents Q B) : P.CoordEq Q ↔ A = B := by
  have hz : P.z * Q.z ≠ 0 := mul_ne_zero hP.z_ne_zero hQ.z_ne_zero
  unfold Extended.CoordEq
  -- Both products carry the factor `Z Z'`, which cancels.
  rw [hP.x_eq, hP.y_eq, hQ.x_eq, hQ.y_eq]
  constructor
  · intro h
    rcases h with ⟨hx, hy⟩
    ext
    · exact mul_right_cancel₀ hz (by linear_combination hx)
    · exact mul_right_cancel₀ hz (by linear_combination hy)
  · intro h
    rw [h]
    constructor <;> ring

/-- The neutral point is recognised by `X = 0` and `Y = Z`. -/
theorem isNeutral_iff (P : Extended F) (A : Point E) (hP : Represents P A) :
    (P.x = 0 ∧ P.y = P.z) ↔ A = 0 := by
  rw [hP.x_eq, hP.y_eq]
  constructor
  · intro h
    rcases h with ⟨hx, hy⟩
    ext
    · exact (mul_eq_zero.mp hx).resolve_right hP.z_ne_zero
    · exact mul_right_cancel₀ hP.z_ne_zero (by rw [hy, Point.zero_y, one_mul])
  · intro h
    rw [h, Point.zero_x, Point.zero_y]
    exact ⟨zero_mul _, one_mul _⟩

end Edwards

end Ed301
