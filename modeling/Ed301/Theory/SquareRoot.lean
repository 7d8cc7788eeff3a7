import Mathlib.NumberTheory.LegendreSymbol.QuadraticChar.Basic

/-!
# Square Roots by a Power

In a finite field of `4 e - 1` elements a square root is one power away. The
power `u ^ e` squares to `u` times its Euler power, so it is a root of `u`
precisely when `u` is a square, and squaring the candidate is a complete test
of squareness.

Which of the two roots comes out is settled as well. The candidate is a power
of `u`, hence a square when `u` is one, and of a root and its negative only
one is a square, because minus one is not. So the root computed depends on
`u` alone and not on how `u` came to be a square.

The exponent enters through the equation `4 e = q + 1` only. A caller with an
explicit modulus supplies it by arithmetic.

## Theorems

* `not_isSquare_neg_one`: Minus one is not a square.
* `pow_sq_eq_iff`: The power is a root exactly for squares.
* `eq_of_sq_eq_sq`: A square has one root that is a square.
* `eq_pow_of_sq_eq`: That root is the power.
* `isSquare_neg`: The negative of a nonsquare is a square.
-/

namespace Ed301

namespace SquareRoot

variable {F : Type*} [Field F] [Fintype F] {e : ℕ}

/-- Minus one is not a square, the number of elements being three modulo
    four. -/
theorem not_isSquare_neg_one (he : 4 * e = Fintype.card F + 1) : ¬ IsSquare (-1 : F) := by
  rw [FiniteField.isSquare_neg_one_iff, not_not]
  omega

/-- A nonzero square has Euler power one. -/
theorem euler_of_isSquare (he : 4 * e = Fintype.card F + 1) (u : F) (hu : u ≠ 0)
    (hsquare : IsSquare u) : u ^ (Fintype.card F / 2) = 1 := by
  have hchar : ringChar F ≠ 2 := by
    intro h
    have heven := FiniteField.even_card_iff_char_two.mp h
    omega
  exact (FiniteField.isSquare_iff hchar hu).mp hsquare

/-- The candidate's square is the argument times its Euler power. -/
theorem pow_sq (he : 4 * e = Fintype.card F + 1) (u : F) :
    (u ^ e) ^ 2 = u * u ^ (Fintype.card F / 2) := by
  -- Twice the exponent is half of one more than the number of elements.
  have hexp : e * 2 = 1 + Fintype.card F / 2 := by omega
  rw [← pow_mul, hexp, pow_add, pow_one]

/-- The power is a root exactly for squares. -/
theorem pow_sq_eq_iff (he : 4 * e = Fintype.card F + 1) (u : F) :
    (u ^ e) ^ 2 = u ↔ IsSquare u := by
  constructor
  · intro h
    rw [← h]
    exact IsSquare.sq (u ^ e)
  · intro h
    rw [pow_sq he u]
    by_cases hzero : u = 0
    · rw [hzero, zero_mul]
    · rw [euler_of_isSquare he u hzero h, mul_one]

/-- Two roots of one element that are both squares agree: otherwise they are
    negatives of each other and their quotient is minus one. -/
theorem eq_of_sq_eq_sq (he : 4 * e = Fintype.card F + 1) (r s : F) (hr : IsSquare r)
    (hs : IsSquare s) (h : r ^ 2 = s ^ 2) : r = s := by
  rcases sq_eq_sq_iff_eq_or_eq_neg.mp h with heq | hneg
  · exact heq
  -- Zero is its own negative, and has no quotient.
  by_cases hzero : s = 0
  · rw [hneg, hzero, neg_zero]
  · have hquot : r / s = -1 := by rw [hneg, neg_div, div_self hzero]
    have hsquare : IsSquare (r / s) := hr.div hs
    rw [hquot] at hsquare
    exact absurd hsquare (not_isSquare_neg_one he)

/-- The root that is a square is the power. -/
theorem eq_pow_of_sq_eq (he : 4 * e = Fintype.card F + 1) (r u : F) (hr : IsSquare r)
    (h : r ^ 2 = u) : r = u ^ e := by
  have hu : IsSquare u := by
    rw [← h]
    exact IsSquare.sq r
  refine eq_of_sq_eq_sq he r (u ^ e) hr (hu.pow e) ?_
  rw [h, (pow_sq_eq_iff he u).mpr hu]

/-- Of an element and its negative one is a square: the root of the element's
    square that the power computes. -/
theorem isSquare_neg (he : 4 * e = Fintype.card F + 1) (s : F) (hs : ¬ IsSquare s) :
    IsSquare (-s) := by
  have hsquare : IsSquare ((s ^ 2) ^ e) := (IsSquare.sq s).pow e
  rcases sq_eq_sq_iff_eq_or_eq_neg.mp ((pow_sq_eq_iff he (s ^ 2)).mpr (IsSquare.sq s)) with h | h
  · rw [h] at hsquare
    exact absurd hsquare hs
  · rwa [h] at hsquare

end SquareRoot

end Ed301
