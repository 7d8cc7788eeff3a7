import Ed301.Core.Edwards
import Ed301.Refine.Field
import Ed301.Refine.Scalar
import Ed301.Theory.Edwards.Extended

/-!
# Points as Group Elements

The step from the code's points to the curve group. A point's coordinates,
read as residues, are a quadruple of extended coordinates, and each of the
code's formulas is the corresponding projective formula on those quadruples.
`Denotes` then ties a point to the affine point its quadruple represents.

Every operation is settled by one lemma saying what its result denotes, and
these lemmas are all that is used of the operations afterwards. In particular
they make no assumption on `Z` beyond what `Denotes` already says, so a point
may arrive with any scaling.

The two scalar multiplications run one loop over two bit readers. The loop is
settled for a reader of a number's bits, and the byte reader and the scalar
reader are shown to be such readers on the 301 positions the loop visits.

## Main definitions

* `EdwardsPoint.coords`: The coordinates as residues.
* `EdwardsPoint.Denotes`: The affine point a point stands for.

## Theorems

* `identity_denotes`, `add_denotes`, `double_denotes`, `negate_denotes`,
  `multiplyByCofactor_denotes`, `conditionalSelect_denotes`: What each
  operation denotes.
* `scalarMulWith_denotes`: The loop multiplies by the number read.
* `scalarMul_denotes`, `scalarMulEncoded_denotes`: The two multiplications.
* `isIdentity_iff`, `ctEq_iff`: The predicates decide group equality.
* `isPrimeSubgroup_iff`: The subgroup test decides membership.
* `isValid_iff`: The valid points are those that denote something.
-/

namespace Ed301

open Edwards Ladder

@[simp] theorem edwardsA_toZMod : edwardsA.toZMod = curve.a := by
  rw [edwardsA, FieldElement.toZMod_fromU64, curve_a]
  rfl

@[simp] theorem edwardsD_toZMod : edwardsD.toZMod = curve.d := by
  rw [edwardsD, FieldElement.toZMod_fromU64, curve_d]
  rfl

@[simp] theorem two_toZMod : two.toZMod = 2 := by
  rw [two, FieldElement.toZMod_fromU64]
  rfl

namespace EdwardsPoint

/-- The coordinates read as residues. -/
def coords (self : EdwardsPoint) : Extended (ZMod fieldModulus) :=
  { x := self.x.toZMod
    y := self.y.toZMod
    z := self.z.toZMod
    t := self.t.toZMod }

/-- The point stands for the affine point `A`. -/
def Denotes (self : EdwardsPoint) (A : Point curve) : Prop :=
  Represents self.coords A

/-- A point denotes at most one affine point. -/
theorem denotes_unique (P : EdwardsPoint) (A B : Point curve) (hA : P.Denotes A)
    (hB : P.Denotes B) : A = B :=
  represents_unique P.coords A B hA hB

theorem coords_add (P Q : EdwardsPoint) :
    (P.add Q).coords = Extended.add curve P.coords Q.coords := by
  simp only [add, coords, Extended.add, FieldElement.toZMod_mul, FieldElement.toZMod_sub,
    FieldElement.toZMod_add, edwardsA_toZMod, edwardsD_toZMod]

theorem coords_double (P : EdwardsPoint) :
    P.double.coords = Extended.double curve P.coords := by
  simp only [double, coords, Extended.double, FieldElement.toZMod_mul, FieldElement.toZMod_sub,
    FieldElement.toZMod_add, FieldElement.toZMod_square, edwardsA_toZMod, two_toZMod]

theorem coords_negate (P : EdwardsPoint) : P.negate.coords = P.coords.neg := by
  simp only [negate, coords, Extended.neg, FieldElement.toZMod_neg]

theorem coords_fromAffine (x y : FieldElement) :
    (fromAffine x y).coords = Extended.ofAffine x.toZMod y.toZMod := by
  simp only [fromAffine, coords, Extended.ofAffine, FieldElement.toZMod_mul,
    FieldElement.toZMod_one]

theorem add_denotes (P Q : EdwardsPoint) (A B : Point curve) (hP : P.Denotes A)
    (hQ : Q.Denotes B) : (P.add Q).Denotes (A + B) := by
  rw [Denotes, coords_add]
  exact add_represents P.coords Q.coords A B hP hQ

theorem double_denotes (P : EdwardsPoint) (A : Point curve) (hP : P.Denotes A) :
    P.double.Denotes (A + A) := by
  rw [Denotes, coords_double]
  exact double_represents P.coords A hP

theorem negate_denotes (P : EdwardsPoint) (A : Point curve) (hP : P.Denotes A) :
    P.negate.Denotes (-A) := by
  rw [Denotes, coords_negate]
  exact neg_represents P.coords A hP

theorem fromAffine_denotes (x y : FieldElement) (A : Point curve) (hx : x.toZMod = A.x)
    (hy : y.toZMod = A.y) : (fromAffine x y).Denotes A := by
  rw [Denotes, coords_fromAffine, hx, hy]
  exact ofAffine_represents A

theorem identity_denotes : identity.Denotes 0 := by
  have hcoords : identity.coords = Extended.ofAffine (0 : Point curve).x (0 : Point curve).y := by
    simp only [identity, coords, Extended.ofAffine, FieldElement.toZMod_zero,
      FieldElement.toZMod_one, Point.zero_x, Point.zero_y, zero_mul]
  rw [Denotes, hcoords]
  exact ofAffine_represents 0

theorem conditionalSelect_eq (whenFalse whenTrue : EdwardsPoint) (choice : Choice) :
    conditionalSelect whenFalse whenTrue choice = if choice then whenTrue else whenFalse := by
  cases choice <;> simp [conditionalSelect, FieldElement.conditionalSelect_eq]

theorem conditionalSelect_denotes (P Q : EdwardsPoint) (A B : Point curve) (choice : Choice)
    (hP : P.Denotes A) (hQ : Q.Denotes B) :
    (conditionalSelect P Q choice).Denotes (if choice then B else A) := by
  rw [conditionalSelect_eq]
  cases choice with
  | false => exact hP
  | true => exact hQ

theorem multiplyByCofactor_denotes (P : EdwardsPoint) (A : Point curve) (hP : P.Denotes A) :
    P.multiplyByCofactor.Denotes (4 • A) := by
  -- Two doublings are four times the point.
  have hfour : (4 : ℕ) • A = (A + A) + (A + A) := by
    rw [← two_nsmul, ← two_nsmul]
    exact mul_nsmul' A 2 2
  rw [hfour]
  exact double_denotes P.double (A + A) (double_denotes P A hP)

/-- One round of the loop turns `[k]P` into `[2k + b]P`. -/
theorem round_denotes (P acc : EdwardsPoint) (A : Point curve) (k : ℕ) (b : Bool)
    (hP : P.Denotes A) (hacc : acc.Denotes (k • A)) :
    (conditionalSelect acc.double (acc.double.add P) b).Denotes ((2 * k + b.toNat) • A) := by
  have hdouble : acc.double.Denotes ((2 * k) • A) := by
    rw [two_mul, add_nsmul]
    exact double_denotes acc (k • A) hacc
  have hadd : (acc.double.add P).Denotes ((2 * k + 1) • A) := by
    rw [add_nsmul, one_nsmul]
    exact add_denotes acc.double P ((2 * k) • A) A hdouble hP
  -- Both results are computed, and the bit picks the one that counts it.
  have hselect := conditionalSelect_denotes _ _ _ _ b hdouble hadd
  cases b with
  | false => exact hselect
  | true => exact hselect

/-- The loop multiplies by the number whose low 301 bits it reads. -/
theorem scalarMulWith_denotes (P : EdwardsPoint) (A : Point curve) (hP : P.Denotes A)
    (scalarBit : ℕ → Choice) (n : ℕ) (hbit : ∀ i, i < fieldBits → scalarBit i = n.testBit i) :
    (P.scalarMulWith scalarBit).Denotes ((n % 2 ^ fieldBits) • A) := by
  rw [scalarMulWith, binaryLadder_congr _ _ n.testBit fieldBits hbit]
  refine binaryLadder_zero (fun (k : ℕ) (acc : EdwardsPoint) => acc.Denotes (k • A)) _ n fieldBits
    identity ?_ ?_
  · intro k b acc hacc
    exact round_denotes P acc A k b hP hacc
  · -- The loop starts from the identity, the zeroth multiple.
    rw [zero_nsmul]
    exact identity_denotes

/-- Multiplication by a canonical scalar. -/
theorem scalarMul_denotes (P : EdwardsPoint) (A : Point curve) (hP : P.Denotes A)
    (scalar : Scalar) (h : scalar.Canonical) :
    (P.scalarMul scalar).Denotes (scalar.value • A) := by
  have hmul := scalarMulWith_denotes P A hP (fun i => scalar.bit i) scalar.value (fun _ _ => rfl)
  rwa [Nat.mod_eq_of_lt h.lt_fieldBits] at hmul

/-- The byte reader reads the bits of the number the bytes denote. -/
theorem encodedBit_eq_testBit (scalar : Bytes fieldBytes) (i : ℕ) (hi : i < fieldBits) :
    encodedBit scalar i = scalar.integer.testBit i := by
  -- The mask and the shift split the position into byte and bit.
  have hand : i &&& 7 = i % 8 := Nat.and_two_pow_sub_one_eq_mod i 3
  have hshift : i >>> 3 = i / 8 := Nat.shiftRight_eq_div_pow i 3
  have hdiv : i / 8 < fieldBytes := by
    have h301 : i < 301 := hi
    change i / 8 < 38
    omega
  have hbyte : scalar[i / 8].toNat = scalar.integer / 2 ^ (8 * (i / 8)) % 2 ^ 8 := by
    rw [Bytes.getElem_toNat scalar (i / 8) hdiv, pow_mul]
    rfl
  -- The shift amount is below eight, so reducing it changes nothing.
  have hamount : (UInt8.ofNat (i % 8)).toNat % 8 = i % 8 := by
    rw [UInt8.toNat_ofNat']
    omega
  have hsplit : 8 * (i / 8) + i % 8 = i := Nat.div_add_mod i 8
  rw [encodedBit, hand, hshift, getElem!_pos scalar (i / 8) hdiv, Choice.fromU8Lsb_eq_testBit,
    UInt8.toNat_shiftRight, hamount, Nat.testBit_shiftRight, Nat.add_zero, hbyte,
    Nat.testBit_mod_two_pow, Nat.testBit_div_two_pow, Nat.add_comm, hsplit]
  simp only [Nat.mod_lt _ (by norm_num : 0 < 8), decide_true, Bool.true_and]

theorem scalarMulEncoded_denotes (P : EdwardsPoint) (A : Point curve) (hP : P.Denotes A)
    (scalar : Bytes fieldBytes) :
    (P.scalarMulEncoded scalar).Denotes ((scalar.integer % 2 ^ fieldBits) • A) :=
  scalarMulWith_denotes P A hP _ scalar.integer (encodedBit_eq_testBit scalar)

theorem isIdentity_iff (P : EdwardsPoint) (A : Point curve) (hP : P.Denotes A) :
    P.isIdentity = true ↔ A = 0 := by
  rw [isIdentity, Bool.and_eq_true, FieldElement.isZero_iff, FieldElement.ctEq_iff]
  exact isNeutral_iff P.coords A hP

theorem ctEq_iff (P Q : EdwardsPoint) (A B : Point curve) (hP : P.Denotes A)
    (hQ : Q.Denotes B) : P.ctEq Q = true ↔ A = B := by
  rw [ctEq, Bool.and_eq_true, FieldElement.ctEq_iff, FieldElement.ctEq_iff,
    FieldElement.toZMod_mul, FieldElement.toZMod_mul, FieldElement.toZMod_mul,
    FieldElement.toZMod_mul]
  exact coordEq_iff P.coords Q.coords A B hP hQ

theorem primeOrderBytes_integer : primeOrderBytes.integer = scalarModulus := by
  decide +kernel

/-- The subgroup test multiplies by the order. -/
theorem isPrimeSubgroup_iff (P : EdwardsPoint) (A : Point curve) (hP : P.Denotes A) :
    P.isPrimeSubgroup = true ↔ scalarModulus • A = 0 := by
  have hlt := scalarModulus_lt_fieldBits
  have hmul := scalarMulEncoded_denotes P A hP primeOrderBytes
  rw [primeOrderBytes_integer, Nat.mod_eq_of_lt hlt] at hmul
  rw [isPrimeSubgroup, isIdentity_iff _ _ hmul]

theorem isPrimeSubgroupNonidentity_iff (P : EdwardsPoint) (A : Point curve) (hP : P.Denotes A) :
    P.isPrimeSubgroupNonidentity = true ↔ A ≠ 0 ∧ scalarModulus • A = 0 := by
  rw [isPrimeSubgroupNonidentity, Bool.and_eq_true, Bool.not_eq_true', ← Bool.not_eq_true,
    isIdentity_iff P A hP, isPrimeSubgroup_iff P A hP]

/-- The validity check is the one on coordinates. -/
theorem isValid_iff_valid (P : EdwardsPoint) : P.isValid = true ↔ Valid curve P.coords := by
  simp only [isValid, Bool.and_eq_true, Bool.not_eq_true', FieldElement.ctEq_iff,
    FieldElement.toZMod_mul, FieldElement.toZMod_add, FieldElement.toZMod_square,
    edwardsA_toZMod, edwardsD_toZMod]
  rw [← Bool.not_eq_true, FieldElement.isZero_iff]
  constructor
  · intro h
    rcases h with ⟨⟨hz, hrel⟩, heq⟩
    refine ⟨hz, hrel, ?_⟩
    simp only [coords]
    linear_combination heq
  · intro h
    rcases h with ⟨hz, hrel, heq⟩
    refine ⟨⟨hz, hrel⟩, ?_⟩
    simp only [coords] at heq
    linear_combination heq

/-- The valid points are those that denote something. -/
theorem isValid_iff (P : EdwardsPoint) : P.isValid = true ↔ ∃ A : Point curve, P.Denotes A := by
  rw [isValid_iff_valid]
  exact valid_iff P.coords

theorem isValid_of_denotes (P : EdwardsPoint) (A : Point curve) (hP : P.Denotes A) :
    P.isValid = true :=
  (isValid_iff P).mpr ⟨A, hP⟩

end EdwardsPoint

end Ed301
