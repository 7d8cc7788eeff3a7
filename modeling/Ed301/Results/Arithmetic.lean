import Ed301.Results.Points

/-!
# Field and Point Formulas

What the individual operations compute, stated for each operation and all of
its inputs. The square root decides squareness and picks a fixed root. The
addition formula computes the affine law for every pair of valid points, the
exceptional pairs included. The doubling formula is a second formula for the
same law. And the two scalar multiplications compute the multiple, whatever
the order of the point and whatever its scaling.

The group laws of the previous results say how the operations fit together;
the statements here say what each of them is.

## Theorems

* `sqrt_decides_squares`: The square root is present exactly for squares, and
  its value is the root that is a square.
* `add_computes_affine_law`: Addition is complete.
* `double_agrees_with_add`: Doubling agrees with adding a point to itself.
* `scalarMul_computes_multiple`: The fixed schedule computes the multiple.
-/

namespace Ed301

open Edwards Ladder

namespace FieldElement

theorem isSquare_toZMod_iff (u : FieldElement) :
    IsSquare u.toZMod ↔ ∃ s : FieldElement, s.square = u := by
  constructor
  · intro h
    rcases h with ⟨c, hc⟩
    refine ⟨ofZMod c, ?_⟩
    rw [square_eq_iff, toZMod_ofZMod, hc, sq]
  · intro h
    rcases h with ⟨s, hs⟩
    rw [← (square_eq_iff s u).mp hs]
    exact IsSquare.sq s.toZMod

/-- The square root is present exactly for squares. Its value is the one root
    that is a square itself, so which of the two roots was squared does not
    matter, and the root of zero is zero. -/
theorem sqrt_decides_squares (u : FieldElement) :
    (u.sqrt.isSome = true ↔ IsSquare u.toZMod) ∧
    (u.sqrt.isSome = true ↔ ∃ s : FieldElement, s.square = u) ∧
    (∀ r : FieldElement, u.sqrt.intoOptionCopied = some r ↔
      r.square = u ∧ ∃ s : FieldElement, s.square = r) ∧
    (¬ IsSquare u.toZMod → u.sqrt.intoOptionCopied = none) ∧
    (∀ s : FieldElement, s.square = u →
      (IsSquare s.toZMod → u.sqrt.intoOptionCopied = some s) ∧
      (¬ IsSquare s.toZMod → u.sqrt.intoOptionCopied = some s.neg)) ∧
    zero.sqrt.intoOptionCopied = some zero := by
  refine ⟨sqrt_isSome_iff u, ?_, ?_, ?_, ?_, ?_⟩
  · rw [sqrt_isSome_iff, isSquare_toZMod_iff]
  · intro r
    rw [sqrt_eq_some_iff, square_eq_iff, isSquare_toZMod_iff]
  · intro h
    refine CtOption.intoOptionCopied_of_not_isSome _ ?_
    rw [sqrt_isSome_iff]
    exact h
  · intro s hs
    have hu := (square_eq_iff s u).mp hs
    rw [sqrt_eq_some_iff, sqrt_eq_some_iff, toZMod_neg, neg_sq]
    constructor
    · intro h
      exact ⟨hu, h⟩
    · intro h
      exact ⟨hu, SquareRoot.isSquare_neg four_mul_sqrtExponent s.toZMod h⟩
  · rw [sqrt_eq_some_iff, toZMod_zero]
    exact ⟨zero_pow two_ne_zero, IsSquare.zero⟩

/-- The root of the square of one is one. -/
theorem sqrt_decides_squares_one : one.square.sqrt.intoOptionCopied = some one := by
  have hone : IsSquare one.toZMod := by
    rw [toZMod_one]
    exact IsSquare.one
  rcases sqrt_decides_squares one.square with ⟨_, _, _, _, hroot, _⟩
  exact (hroot one rfl).1 hone

end FieldElement

namespace EdwardsPoint

/-- Addition is complete and computes the affine law. -/
theorem add_computes_affine_law (P Q : EdwardsPoint) (x₁ y₁ x₂ y₂ : ZMod fieldModulus)
    (hP : Valid curve P.coords) (hQ : Valid curve Q.coords) (hp : P.affine = (x₁, y₁))
    (hq : Q.affine = (x₂, y₂)) :
    Valid curve (P.add Q).coords ∧
    (P.add Q).isValid = true ∧
    1 + curve.d * x₁ * x₂ * y₁ * y₂ ≠ 0 ∧
    1 - curve.d * x₁ * x₂ * y₁ * y₂ ≠ 0 ∧
    (P.add Q).affine =
      ((x₁ * y₂ + y₁ * x₂) / (1 + curve.d * x₁ * x₂ * y₁ * y₂),
        (y₁ * y₂ - curve.a * x₁ * x₂) / (1 - curve.d * x₁ * x₂ * y₁ * y₂)) := by
  rcases (valid_iff P.coords).mp hP with ⟨A, hA⟩
  rcases (valid_iff Q.coords).mp hQ with ⟨B, hB⟩
  -- The affine coordinates are those of the points denoted.
  rw [affine_of_denotes P A hA, Prod.mk.injEq] at hp
  rw [affine_of_denotes Q B hB, Prod.mk.injEq] at hq
  rcases hp with ⟨rfl, rfl⟩
  rcases hq with ⟨rfl, rfl⟩
  have hsum := add_denotes P Q A B hA hB
  refine ⟨hsum.valid, isValid_of_denotes _ _ hsum, Point.one_add_ne_zero A B,
    Point.one_sub_ne_zero A B, ?_⟩
  rw [affine_of_denotes _ _ hsum, Point.add_x, Point.add_y]
  simp only [crossSum, twistedSum, Point.pairProd, prod]

/-- The law at a point and its inverse. -/
theorem add_computes_affine_law_negate :
    Valid curve (basepoint.add basepoint.negate).coords ∧
      1 + curve.d * generator.x * -generator.x * generator.y * generator.y ≠ 0 := by
  have hneg := negate_denotes basepoint generator basepoint_denotes
  rcases add_computes_affine_law basepoint basepoint.negate generator.x generator.y
    (-generator.x) generator.y basepoint_denotes.valid hneg.valid
    (affine_of_denotes _ _ basepoint_denotes) (affine_of_denotes _ _ hneg) with
    ⟨hvalid, _, hdenominator, _, _⟩
  exact ⟨hvalid, hdenominator⟩

/-- Doubling never reads `T`. -/
theorem double_ignores_t (P : EdwardsPoint) (t : FieldElement) :
    ({ P with t := t } : EdwardsPoint).double = P.double := by
  simp only [double]

/-- The dedicated doubling is valid and agrees with adding a point to itself,
    though it never reads `T` and never returns the same coordinates. -/
theorem double_agrees_with_add (P : EdwardsPoint) (hP : Valid curve P.coords) :
    Valid curve P.double.coords ∧
    P.double.isValid = true ∧
    P.double.ctEq (P.add P) = true ∧
    P.double.affine = (P.add P).affine ∧
    (∀ t : FieldElement, ({ P with t := t } : EdwardsPoint).double = P.double) ∧
    P.double ≠ P.add P := by
  rcases (valid_iff P.coords).mp hP with ⟨A, hA⟩
  have hdouble := double_denotes P A hA
  have hadd := add_denotes P P A A hA hA
  refine ⟨hdouble.valid, isValid_of_denotes _ _ hdouble, ?_, ?_, double_ignores_t P, ?_⟩
  · rw [ctEq_iff _ _ _ _ hdouble hadd]
  · rw [affine_of_denotes _ _ hdouble, affine_of_denotes _ _ hadd]
  · intro h
    -- Equal points would have equal quadruples, which differ in their signs.
    have hcoords := congrArg coords h
    rw [coords_double, coords_add] at hcoords
    exact double_ne_add P.coords hP hcoords

/-- Doubling the base point. -/
theorem double_agrees_with_add_basepoint :
    basepoint.double.ctEq (basepoint.add basepoint) = true ∧
      basepoint.double ≠ basepoint.add basepoint := by
  rcases double_agrees_with_add basepoint basepoint_denotes.valid with
    ⟨_, _, hctEq, _, _, hne⟩
  exact ⟨hctEq, hne⟩

/-- The two bit readers drive the loop alike on the bytes of a scalar below
    the order. -/
theorem scalarMul_eq_scalarMulEncoded (P : EdwardsPoint) (scalar : Scalar)
    (h : scalar.Canonical) (buffer : Bytes scalarBytes) :
    P.scalarMul scalar = P.scalarMulEncoded (scalar.writeCanonicalBytes buffer) := by
  -- The bytes written denote the scalar, no bit being cut off.
  have hinteger : (scalar.writeCanonicalBytes buffer).integer = scalar.value := by
    have hlt : scalar.value < 256 ^ scalarBytes := Nat.lt_trans h Draft.scalarModulus_lt
    rw [Scalar.writeCanonicalBytes_eq, Bytes.integer_ofInteger, Nat.mod_eq_of_lt hlt]
  have hbits : ∀ i, i < fieldBits →
      scalar.bit i = encodedBit (scalar.writeCanonicalBytes buffer) i := by
    intro i hi
    rw [encodedBit_eq_testBit _ i hi, hinteger]
    rfl
  rw [scalarMul, scalarMulEncoded, scalarMulWith, scalarMulWith]
  exact binaryLadder_congr _ _ _ fieldBits hbits identity

/-- The fixed schedule computes the multiple of any valid point: the result
    stands for the sum of so many copies of its affine point, by the low 301
    bits of a byte string, and by a scalar below the order, which is also what
    its canonical bytes give. -/
theorem scalarMul_computes_multiple (P : EdwardsPoint) (hP : Valid curve P.coords) :
    (∀ e : Bytes fieldBytes,
      (P.scalarMulPruned e).Denotes ((e.integer % 2 ^ 301) • hP.toPoint) ∧
      (P.scalarMulEncoded e).Denotes ((e.integer % 2 ^ 301) • hP.toPoint) ∧
      (P.scalarMulPruned e).ctEq (ofPoint ((e.integer % 2 ^ 301) • hP.toPoint)) = true ∧
      (P.scalarMulEncoded e).ctEq (ofPoint ((e.integer % 2 ^ 301) • hP.toPoint)) = true) ∧
    (∀ n : Scalar, n.value < scalarModulus →
      (P.scalarMul n).Denotes (n.value • hP.toPoint) ∧
      (P.scalarMul n).ctEq (ofPoint (n.value • hP.toPoint)) = true ∧
      ∀ buffer : Bytes scalarBytes,
        P.scalarMul n = P.scalarMulEncoded (n.writeCanonicalBytes buffer) ∧
        (P.scalarMul n).ctEq (P.scalarMulEncoded (n.writeCanonicalBytes buffer)) = true) := by
  have hA : P.Denotes hP.toPoint := hP.represents
  constructor
  · intro e
    -- The two multiplications by a string run the same loop.
    have hmul := scalarMulEncoded_denotes P _ hA e
    have hencoded : (P.scalarMulEncoded e).ctEq (ofPoint ((e.integer % 2 ^ 301) • hP.toPoint))
        = true := by
      rw [ctEq_iff _ _ _ _ hmul (ofPoint_denotes _)]
    exact ⟨hmul, hmul, hencoded, hencoded⟩
  · intro n hn
    have hmul := scalarMul_denotes P _ hA n hn
    refine ⟨hmul, ?_, ?_⟩
    · rw [ctEq_iff _ _ _ _ hmul (ofPoint_denotes _)]
    · intro buffer
      have heq := scalarMul_eq_scalarMulEncoded P n hn buffer
      refine ⟨heq, ?_⟩
      rw [← heq, ctEq_iff _ _ _ _ hmul hmul]

/-- The scalar one and the order-two point, which the order does not kill. -/
theorem scalarMul_computes_multiple_orderTwo :
    (ofPoint orderTwoPoint).scalarMul ⟨1#320⟩
        = (ofPoint orderTwoPoint).scalarMulEncoded
          (Scalar.writeCanonicalBytes ⟨1#320⟩ (Vector.replicate scalarBytes 0)) ∧
      ((ofPoint orderTwoPoint).scalarMul ⟨1#320⟩).Denotes
        (1 • (ofPoint_denotes orderTwoPoint).valid.toPoint) := by
  have hone : (Scalar.mk 1#320).value < scalarModulus := prime_scalarModulus.one_lt
  rcases scalarMul_computes_multiple (ofPoint orderTwoPoint)
    (ofPoint_denotes orderTwoPoint).valid with ⟨_, hscalar⟩
  rcases hscalar ⟨1#320⟩ hone with ⟨hdenotes, _, hbytes⟩
  exact ⟨(hbytes (Vector.replicate scalarBytes 0)).1, hdenotes⟩

end EdwardsPoint

end Ed301
