import Ed301.Refine.Point
import Ed301.Theory.Cofactored

/-!
# The Prime-Order Subgroup

The base point generates a group of prime order. That its coordinates are the
published ones is a comparison of numbers; that the order kills it is one run
of the code's own subgroup test, which the previous file has shown to decide
the question for whatever point it is given.

With the primality of the order this makes the base point a `PrimeBase`, and
the general results about cofactored equations apply to the curve.

## Main definitions

* `primeBase`: The base point with its order and cofactor.

## Theorems

* `basepoint_denotes`: The code's base point is the published one.
* `scalarModulus_nsmul_generator`: The order kills the base point.
* `generator_ne_zero`: The base point is not the identity.
-/

namespace Ed301

open Edwards

namespace EdwardsPoint

/-- The word literals are the published coordinates, and the third one is
    their product. -/
theorem basepoint_eq :
    basepoint = fromAffine (FieldElement.fromCanonicalUint (BitVec.ofNat 320 generatorX))
      (FieldElement.fromCanonicalUint (BitVec.ofNat 320 generatorY)) := by
  decide +kernel

/-- The code's base point is the published one. -/
theorem basepoint_denotes : basepoint.Denotes generator := by
  rw [basepoint_eq]
  refine fromAffine_denotes _ _ generator ?_ ?_
  · rw [FieldElement.toZMod_fromCanonicalUint]
    rfl
  · rw [FieldElement.toZMod_fromCanonicalUint]
    rfl

end EdwardsPoint

/-- The order kills the base point. -/
theorem scalarModulus_nsmul_generator : scalarModulus • generator = 0 := by
  rw [← EdwardsPoint.isPrimeSubgroup_iff _ _ EdwardsPoint.basepoint_denotes]
  decide +kernel

theorem generator_x_ne_zero : generator.x ≠ 0 := by
  intro hx
  change (generatorX : ZMod fieldModulus) = 0 at hx
  rw [ZMod.natCast_eq_zero_iff] at hx
  exact Nat.not_dvd_of_pos_of_lt (by decide) (by decide) hx

/-- The base point is not the identity. -/
theorem generator_ne_zero : generator ≠ 0 := by
  intro h
  exact generator_x_ne_zero (congrArg Point.x h)

/-- The base point with its order and cofactor. -/
def primeBase : Cofactored.PrimeBase (Point curve) where
  point := generator
  order := scalarModulus
  cofactor := 4
  order_prime := prime_scalarModulus
  coprime := cofactor_coprime
  point_ne_zero := generator_ne_zero
  order_nsmul_point := scalarModulus_nsmul_generator

@[simp] theorem primeBase_point : primeBase.point = generator := rfl

@[simp] theorem primeBase_cofactor : primeBase.cofactor = 4 := rfl

end Ed301
