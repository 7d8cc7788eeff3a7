import Ed301.Core.Field
import Ed301.Params.Curve
import Ed301.Theory.SquareRoot

/-!
# Field Elements as Residues

What the field operations compute in `ZMod p`. Each operation gets one
equation, so a formula over field elements turns into the same formula over
residues by rewriting, and nothing above this file looks inside an element.

The canonical codec is settled in the same way. Serialising writes the
canonical representative in 38 bytes, and parsing succeeds on the strings
below the modulus with the residue of their number, so parity and canonicity
become statements about `ZMod.val`.

Primality enters twice: a nonzero element has an inverse, and the fixed power
is a root of every square.

## Main definitions

* `FieldElement.toZMod`: The residue of a field element.

## Theorems

* `toZMod_invert_value`: A present inverse is the inverse.
* `invert_isSome_iff`: Every nonzero element has an inverse.
* `sqrt_isSome_iff`: A root is released exactly for squares.
* `sqrt_value_sq`: A released root is a root.
* `sqrt_eq_some_iff`: The root released is the one that is a square.
* `toCanonicalBytes_eq`: Serialising writes the canonical representative.
* `fromCanonicalBytes_isSome_iff`: Parsing accepts exactly the canonical
  strings.
* `isOdd_iff`: Parity is that of the canonical representative.
-/

namespace Ed301

namespace FieldElement

/-- The residue of a field element. -/
def toZMod (self : FieldElement) : ZMod fieldModulus :=
  self.inner.toZMod

theorem toZMod_injective (a b : FieldElement) (h : a.toZMod = b.toZMod) : a = b := by
  ext1
  exact ConstMontyForm.toZMod_injective a.inner b.inner h

theorem modulus_toNat : modulus.toNat = fieldModulus := by decide +kernel

@[simp] theorem toZMod_zero : zero.toZMod = 0 :=
  ConstMontyForm.toRing_zero ConstMontyForm.cast_self

@[simp] theorem toZMod_one : one.toZMod = 1 :=
  ConstMontyForm.toRing_one ConstMontyForm.cast_self

@[simp] theorem toZMod_add (a b : FieldElement) : (a.add b).toZMod = a.toZMod + b.toZMod :=
  ConstMontyForm.toRing_add ConstMontyForm.cast_self a.inner b.inner

@[simp] theorem toZMod_sub (a b : FieldElement) : (a.sub b).toZMod = a.toZMod - b.toZMod :=
  ConstMontyForm.toRing_sub ConstMontyForm.cast_self a.inner b.inner

@[simp] theorem toZMod_neg (a : FieldElement) : a.neg.toZMod = -a.toZMod :=
  ConstMontyForm.toRing_neg ConstMontyForm.cast_self a.inner

@[simp] theorem toZMod_mul (a b : FieldElement) : (a.mul b).toZMod = a.toZMod * b.toZMod :=
  ConstMontyForm.toRing_mul ConstMontyForm.cast_self a.inner b.inner

@[simp] theorem toZMod_square (a : FieldElement) : a.square.toZMod = a.toZMod ^ 2 :=
  ConstMontyForm.toRing_square ConstMontyForm.cast_self a.inner

theorem toZMod_fromCanonicalUint (value : U320) :
    (fromCanonicalUint value).toZMod = (value.toNat : ZMod fieldModulus) :=
  ConstMontyForm.toRing_new ConstMontyForm.cast_self value

theorem toZMod_fromU64 (value : UInt64) :
    (fromU64 value).toZMod = (value.toNat : ZMod fieldModulus) := by
  rw [← U320.fromU64_toNat]
  exact toZMod_fromCanonicalUint (U320.fromU64 value)

theorem ctEq_iff (a b : FieldElement) : a.ctEq b = true ↔ a.toZMod = b.toZMod :=
  ConstMontyForm.ctEq_iff a.inner b.inner

theorem isZero_iff (a : FieldElement) : a.isZero = true ↔ a.toZMod = 0 := by
  rw [isZero, ctEq_iff, toZMod_zero]

theorem conditionalSelect_eq (whenFalse whenTrue : FieldElement) (choice : Choice) :
    conditionalSelect whenFalse whenTrue choice = if choice then whenTrue else whenFalse := by
  cases choice <;> rfl

/-- Every nonzero element has an inverse. -/
theorem invert_isSome_iff (a : FieldElement) : a.invert.isSome = true ↔ a.toZMod ≠ 0 := by
  rw [← isUnit_iff_ne_zero]
  exact ConstMontyForm.invert_isSome a.inner

theorem toZMod_invert_value (a : FieldElement) (h : a.invert.isSome = true) :
    a.invert.value.toZMod = a.toZMod⁻¹ :=
  eq_inv_of_mul_eq_one_right (ConstMontyForm.toZMod_invert a.inner h)

/-- The exponent is `(p + 1) / 4`. -/
theorem sqrtExponent_toNat : 4 * sqrtExponent.toNat = fieldModulus + 1 := by
  decide +kernel

theorem four_mul_sqrtExponent :
    4 * sqrtExponent.toNat = Fintype.card (ZMod fieldModulus) + 1 := by
  rw [ZMod.card, sqrtExponent_toNat]

theorem sqrt_value_inner (a : FieldElement) :
    a.sqrt.value.inner = a.inner.powBoundedExp sqrtExponent sqrtExponentBits := by
  simp only [sqrt]

/-- The candidate root is the power by `(p + 1) / 4`. -/
theorem toZMod_sqrt_value (a : FieldElement) :
    a.sqrt.value.toZMod = a.toZMod ^ sqrtExponent.toNat := by
  -- The loop is long enough for the exponent.
  have hlt : sqrtExponent.toNat < 2 ^ sqrtExponentBits := by
    have hexp := sqrtExponent_toNat
    have hbound := fieldModulus_lt
    rw [sqrtExponentBits]
    omega
  rw [toZMod, sqrt_value_inner]
  exact ConstMontyForm.toRing_powBoundedExp ConstMontyForm.cast_self a.inner _ _ hlt

/-- The candidate is released if its square gives the argument back. -/
theorem sqrt_isSome_eq (a : FieldElement) : a.sqrt.isSome = a.sqrt.value.square.ctEq a := by
  simp only [sqrt]

/-- A released root is a root. -/
theorem sqrt_value_sq (a : FieldElement) (h : a.sqrt.isSome = true) :
    a.sqrt.value.toZMod ^ 2 = a.toZMod := by
  rwa [sqrt_isSome_eq, ctEq_iff, toZMod_square] at h

/-- A root is released exactly for squares. -/
theorem sqrt_isSome_iff (a : FieldElement) : a.sqrt.isSome = true ↔ IsSquare a.toZMod := by
  -- The check on the candidate is the test of squareness.
  rw [sqrt_isSome_eq, ctEq_iff, toZMod_square, toZMod_sqrt_value]
  exact SquareRoot.pow_sq_eq_iff four_mul_sqrtExponent a.toZMod

/-- The square of an element reads as the square of its residue. -/
theorem square_eq_iff (r u : FieldElement) : r.square = u ↔ r.toZMod ^ 2 = u.toZMod := by
  constructor
  · intro h
    rw [← h, toZMod_square]
  · intro h
    refine toZMod_injective _ _ ?_
    rw [toZMod_square, h]

/-- The square root returns a root, and among the roots the one that is a
    square itself. -/
theorem sqrt_eq_some_iff (u r : FieldElement) :
    u.sqrt.intoOptionCopied = some r ↔ r.toZMod ^ 2 = u.toZMod ∧ IsSquare r.toZMod := by
  have hvalue := toZMod_sqrt_value u
  rw [CtOption.intoOptionCopied_eq_some_iff, sqrt_isSome_iff]
  constructor
  · intro h
    rcases h with ⟨hu, rfl⟩
    refine ⟨sqrt_value_sq u ((sqrt_isSome_iff u).mpr hu), ?_⟩
    rw [hvalue]
    exact hu.pow sqrtExponent.toNat
  · intro h
    rcases h with ⟨hsq, hr⟩
    refine ⟨?_, toZMod_injective _ _ ?_⟩
    · rw [← hsq]
      exact IsSquare.sq r.toZMod
    · -- Both are roots of `u` that are squares.
      rw [hvalue]
      exact SquareRoot.eq_pow_of_sq_eq four_mul_sqrtExponent r.toZMod u.toZMod hr hsq

/-- Serialising writes the canonical representative. -/
theorem toCanonicalBytes_eq (a : FieldElement) :
    a.toCanonicalBytes = Bytes.ofInteger fieldBytes a.toZMod.val := by
  refine Bytes.toList_injective _ _ ?_
  -- Forty bytes are produced and the upper two dropped; the residue does not
  -- reach them.
  have hval : a.toZMod.val = a.inner.residue := ConstMontyForm.toZMod_val a.inner
  have hret : a.inner.retrieve.toNat = a.inner.residue :=
    ConstMontyForm.retrieve_toNat a.inner modulus modulus_toNat
  rw [toCanonicalBytes, Bytes.toList_slice, U320.toLeBytes, hret, hval, List.drop_zero]
  exact Radix.take_leBytes 38 40 a.inner.residue (by norm_num)

/-- Parsing accepts exactly the strings below the modulus. -/
theorem fromCanonicalBytes_isSome_iff (bytes : Bytes fieldBytes) :
    (fromCanonicalBytes bytes).isSome = true ↔ bytes.integer < fieldModulus := by
  have hwide := U320.fromLeSlice_widened bytes
  simp only [fromCanonicalBytes, U320.ctLt, decide_eq_true_eq, modulus_toNat]
  rw [hwide]

theorem toZMod_fromCanonicalBytes (bytes : Bytes fieldBytes) :
    (fromCanonicalBytes bytes).value.toZMod = (bytes.integer : ZMod fieldModulus) := by
  rw [← U320.fromLeSlice_widened bytes]
  exact ConstMontyForm.toRing_new ConstMontyForm.cast_self _

/-- Parity is that of the canonical representative. -/
theorem isOdd_iff (a : FieldElement) : a.isOdd = true ↔ a.toZMod.val % 2 = 1 := by
  have hbyte : (a.toCanonicalBytes[0] &&& 1).toNat = a.toCanonicalBytes[0].toNat % 2 := by
    rw [UInt8.toNat_and]
    exact Nat.and_one_is_mod _
  -- The lowest byte is the number modulo 256, and its lowest bit is parity.
  have hint := Bytes.integer_ofInteger fieldBytes a.toZMod.val
  rw [← toCanonicalBytes_eq] at hint
  have hget := Bytes.getElem_toNat a.toCanonicalBytes 0 (by decide)
  rw [pow_zero, Nat.div_one, hint] at hget
  rw [isOdd, Choice.fromU8Lsb_iff, hbyte, hget]
  have hdvd : 2 ∣ 256 ^ fieldBytes := by decide
  rw [Nat.mod_mod, Nat.mod_mod_of_dvd _ (by norm_num : 2 ∣ 256), Nat.mod_mod_of_dvd _ hdvd]

/-- The parity bit as a number. -/
theorem isOdd_toNat (a : FieldElement) : a.isOdd.toNat = a.toZMod.val % 2 := by
  have hodd := isOdd_iff a
  cases hcase : a.isOdd with
  | false =>
      rw [hcase] at hodd
      simp only [Bool.false_eq_true, false_iff] at hodd
      rw [Bool.toNat_false]
      omega
  | true => exact (hodd.mp hcase).symm

end FieldElement

end Ed301
