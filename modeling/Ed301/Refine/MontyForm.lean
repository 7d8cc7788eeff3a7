import Ed301.Core.Monty
import Ed301.Refine.Montgomery
import Ed301.Refine.Square

/-!
# Stored Residues

Every operation of the library on stored residues computes with the residues.

An integer of `n` limbs stands for a residue `x` if it is below the modulus
and is `R x` modulo it, where `R` is `2^(64 n)`. The parameters of a modulus
are valid if they are what their names say, and with valid parameters each
operation takes integers that stand for residues to the integer that stands
for the result. The product asks less of its first factor, which need not be
reduced: that is how an arbitrary integer enters.

Two ways around the plain product are covered here. Integers of four limbs are
squared first and reduced afterwards, which gives the same integer, since a
reduction is unique. Repeated squaring reduces only what overflows, and what it
returns is congruent to the power in any case, but reduced only if the modulus
leaves two bits of the highest limb free.

## Main definitions

* `MontyParams.Valid`: Parameters that are what their names say.
* `FixedMontyForm.Represents`: A stored residue and the residue.

## Theorems

* `MontyParams.newVartime_valid`: The precomputed parameters are valid.
* `toNat_mulMontgomeryForm`: The product is the reduction, once subtracted.
* `squareMontgomeryForm_eq`: Squaring is the product, whatever the length.
* `form_squareRepeat`: Repeated squares.
* `Represents.add`, `Represents.mul` and so on: The operations.
* `Represents.toNat_retrieve`: What is retrieved is the residue.
-/

namespace Ed301

open Limbs Montgomery

variable {n : ℕ}

/-- The parameters of the modulus `m`. -/
structure MontyParams.Valid (params : MontyParams n) (m : ℕ) : Prop where
  modulus : params.modulus.toNat = m
  odd : m % 2 = 1
  one : params.one.toNat = (2 ^ 64) ^ n % m
  r2 : params.r2.toNat = ((2 ^ 64) ^ n) ^ 2 % m
  negInv : NegInv params.modulus.limbs params.modNegInv

theorem coprime_factor (m : ℕ) (h : m % 2 = 1) : ((2 ^ 64) ^ n).Coprime m := by
  have h2 : Nat.Coprime 2 m := by
    rw [Nat.Coprime, Nat.gcd_rec, h, Nat.gcd_one_left]
  exact Nat.Coprime.pow_left n (Nat.Coprime.pow_left 64 h2)

/-- An integer with an odd value has a lowest limb, and that is odd. -/
theorem odd_headD (a : Uint n) (h : a.toNat % 2 = 1) :
    (a.limbs.headD 0).toNat % 2 = 1 ∧
      ∃ rest, a.toNat = (a.limbs.headD 0).toNat + 2 ^ 64 * rest := by
  unfold Uint.toNat at *
  cases hl : a.limbs with
  | nil =>
      rw [hl] at h
      simp at h
  | cons limb limbs =>
      rw [hl, value_cons] at h
      rw [value_cons, List.headD_cons]
      exact ⟨by omega, _, rfl⟩

/-- The inverse of the lowest limb gives the word of the modulus. -/
theorem negInv_invertOdd (modulus : Uint n) (h : modulus.toNat % 2 = 1) :
    NegInv modulus.limbs (-invertOdd (modulus.limbs.headD 0)) := by
  rcases odd_headD modulus h with ⟨hodd, rest, hvalue⟩
  have hinv := invertOdd_mul _ hodd
  generalize modulus.limbs.headD 0 = m0 at *
  -- Modulo the word size the lowest limb stands for the modulus.
  have hzero : m0 * -invertOdd m0 + 1 = 0 := by grind
  have hdvd := congrArg BitVec.toNat hzero
  have hone : BitVec.toNat (1 : Limb) = 1 := rfl
  have hzero' : BitVec.toNat (0 : Limb) = 0 := rfl
  rw [BitVec.toNat_add, BitVec.toNat_mul, hone, hzero', Nat.mod_add_mod] at hdvd
  have hsplit : value modulus.limbs * (-invertOdd m0).toNat + 1
      = m0.toNat * (-invertOdd m0).toNat + 1 + 2 ^ 64 * (rest * (-invertOdd m0).toNat) := by
    have hvalue' : value modulus.limbs = m0.toNat + 2 ^ 64 * rest := hvalue
    rw [hvalue']
    ring
  unfold NegInv
  rw [hsplit]
  exact Nat.dvd_add (Nat.dvd_of_mod_eq_zero hdvd) (Nat.dvd_mul_right _ _)

/-- The parameters computed for an odd modulus are valid. -/
theorem MontyParams.newVartime_valid (remVartime squareModVartime : Uint n → Uint n → Uint n)
    (hrem : ∀ a m : Uint n, 0 < m.toNat → (remVartime a m).toNat = a.toNat % m.toNat)
    (hsquare : ∀ a m : Uint n, 0 < m.toNat →
      (squareModVartime a m).toNat = a.toNat ^ 2 % m.toNat)
    (modulus : Uint n) (h : modulus.toNat % 2 = 1) :
    (newVartime remVartime squareModVartime modulus).Valid modulus.toNat := by
  have hlt := modulus.toNat_lt
  have hpos : 0 < modulus.toNat := by omega
  have hone : (Uint.ofNat n 1).toNat = 1 := Uint.toNat_ofNat_of_lt 1 (by omega)
  have hmax : (Uint.ofNat n ((2 ^ 64) ^ n - 1)).toNat = (2 ^ 64) ^ n - 1 :=
    Uint.toNat_ofNat_of_lt _ (by omega)
  have hrest := Nat.mod_lt ((2 ^ 64) ^ n - 1) hpos
  -- One more than the remainder of the largest integer, or zero if that is
  -- the modulus.
  have hw : ((remVartime (Uint.ofNat n ((2 ^ 64) ^ n - 1)) modulus).wrappingAdd
      (Uint.ofNat n 1)).toNat = ((2 ^ 64) ^ n - 1) % modulus.toNat + 1 := by
    rw [Uint.toNat_wrappingAdd, hrem _ _ hpos, hmax, hone, Nat.mod_eq_of_lt (by omega)]
  have hfactor : (((2 ^ 64) ^ n - 1) % modulus.toNat + 1) % modulus.toNat
      = (2 ^ 64) ^ n % modulus.toNat := by
    rw [Nat.mod_add_mod, Nat.sub_add_cancel (by omega)]
  have hvalue : (newVartime remVartime squareModVartime modulus).one.toNat
      = (2 ^ 64) ^ n % modulus.toNat := by
    unfold newVartime
    simp only [Uint.select_eq, Uint.ctEq_iff]
    generalize (remVartime (Uint.ofNat n ((2 ^ 64) ^ n - 1)) modulus).wrappingAdd
      (Uint.ofNat n 1) = w at hw
    rw [← hw] at hfactor
    by_cases heq : w = modulus
    · rw [if_pos heq, Uint.toNat_zero, ← hfactor, heq, Nat.mod_self]
    · have hne : w.toNat ≠ modulus.toNat := fun h => heq (Uint.toNat_injective _ _ h)
      rw [if_neg heq, ← hfactor, Nat.mod_eq_of_lt (by omega)]
  refine ⟨rfl, h, hvalue, ?_, negInv_invertOdd modulus h⟩
  have hsq := hsquare (newVartime remVartime squareModVartime modulus).one modulus hpos
  rw [hvalue, ← Nat.pow_mod] at hsq
  exact hsq

/-- Parameters over the division of numbers are valid. -/
theorem MontyParams.ofModulus_valid (modulus : Uint n) (hodd : modulus.toNat % 2 = 1) :
    (ofModulus modulus).Valid modulus.toNat := by
  refine newVartime_valid _ _ ?_ ?_ modulus hodd
  · intro a m hpos
    have hlt := Nat.mod_lt a.toNat hpos
    exact Uint.toNat_ofNat_of_lt _ (hlt.trans m.toNat_lt)
  · intro a m hpos
    have hlt := Nat.mod_lt (a.toNat ^ 2) hpos
    exact Uint.toNat_ofNat_of_lt _ (hlt.trans m.toNat_lt)

section Product

variable {modulus : Uint n} {modNegInv : Limb}

/-- The final subtraction on what a reduction gives. -/
theorem toNat_trySub_isRedc (out : Uint n) (carry : Limb) (T : ℕ)
    (hcarry : carry.toNat ≤ 1) (hT : T < (2 ^ 64) ^ n * (2 ^ 64) ^ n)
    (hredc : IsRedc ((2 ^ 64) ^ n) modulus.toNat T (out.toNat + (2 ^ 64) ^ n * carry.toNat)) :
    (out.trySubWithCarry carry modulus).1.toNat
      = condSub modulus.toNat (out.toNat + (2 ^ 64) ^ n * carry.toNat) := by
  have hlt := hredc.lt_add _ hT
  exact (Uint.toNat_trySubWithCarry out carry modulus hcarry (by omega)).1

theorem mul_lt_sq (a b : Uint n) : a.toNat * b.toNat < (2 ^ 64) ^ n * (2 ^ 64) ^ n :=
  Nat.mul_lt_mul'' a.toNat_lt b.toNat_lt

/-- The product is the reduction with the final subtraction, for any factors. -/
theorem toNat_mulMontgomeryForm (a b : Uint n) (hinv : NegInv modulus.limbs modNegInv)
    (hpos : 0 < modulus.toNat) :
    ∃ Z, IsRedc ((2 ^ 64) ^ n) modulus.toNat (a.toNat * b.toNat) Z ∧
      (mulMontgomeryForm a b modulus modNegInv).toNat = condSub modulus.toNat Z := by
  rcases multiplyInner_spec a b modulus modNegInv hinv hpos with ⟨hcarry, hredc⟩
  exact ⟨_, hredc, toNat_trySub_isRedc _ _ _ hcarry (mul_lt_sq a b) hredc⟩

/-- The reduction of two halves, with the final subtraction. -/
theorem toNat_montgomeryReduction (lower upper : Uint n) (hinv : NegInv modulus.limbs modNegInv) :
    ∃ Z, IsRedc ((2 ^ 64) ^ n) modulus.toNat (lower.toNat + (2 ^ 64) ^ n * upper.toNat) Z ∧
      (montgomeryReduction lower upper modulus modNegInv).toNat = condSub modulus.toNat Z := by
  rcases montgomeryReductionInner_isRedc lower upper modulus modNegInv hinv with ⟨hcarry, hredc⟩
  have hlower := lower.toNat_lt
  have hupper := upper.toNat_lt
  have hT : lower.toNat + (2 ^ 64) ^ n * upper.toNat < (2 ^ 64) ^ n * (2 ^ 64) ^ n := by
    have hle : (2 ^ 64) ^ n * (upper.toNat + 1) ≤ (2 ^ 64) ^ n * (2 ^ 64) ^ n :=
      Nat.mul_le_mul_left _ hupper
    rw [Nat.mul_add, Nat.mul_one] at hle
    omega
  exact ⟨_, hredc, toNat_trySub_isRedc ⟨_, _⟩ _ _ hcarry hT hredc⟩

/-- Squaring is the product with itself, whatever the length and whether or not
    the factor is reduced. -/
theorem squareMontgomeryForm_eq (a modulus : Uint n) (modNegInv : Limb)
    (hinv : NegInv modulus.limbs modNegInv) (hodd : modulus.toNat % 2 = 1) :
    squareMontgomeryForm a modulus modNegInv = mulMontgomeryForm a a modulus modNegInv := by
  by_cases hn : n = 4
  · -- Two different loops, but the reduction of one square is unique.
    subst hn
    refine Uint.toNat_injective _ _ ?_
    rcases toNat_mulMontgomeryForm a a hinv (by omega) with ⟨Z, hZ, hmul⟩
    rcases toNat_montgomeryReduction (wideningSquare a).1
      (wideningSquare a).2 hinv with ⟨Z', hZ', hreduction⟩
    rw [toNat_wideningSquare, sq] at hZ'
    have hsquare : squareMontgomeryForm a modulus modNegInv = montgomeryReduction
        (wideningSquare a).1 (wideningSquare a).2 modulus modNegInv := rfl
    rw [hsquare, hreduction, hmul, hZ'.unique (coprime_factor _ hodd) hZ]
  · unfold squareMontgomeryForm
    split
    · exact absurd rfl hn
    · rfl

/-- The product is reduced if one of the factors is. -/
theorem mulMontgomeryForm_lt (a b : Uint n) (hinv : NegInv modulus.limbs modNegInv)
    (hb : b.toNat < modulus.toNat) :
    (mulMontgomeryForm a b modulus modNegInv).toNat < modulus.toNat := by
  have hpos := Nat.zero_lt_of_lt hb
  rcases toNat_mulMontgomeryForm a b hinv hpos with ⟨Z, hZ, hmul⟩
  have hT : a.toNat * b.toNat < 1 * ((2 ^ 64) ^ n * modulus.toNat) := by
    rw [Nat.one_mul]
    exact Nat.mul_lt_mul'' a.toNat_lt hb
  rw [hmul]
  exact condSub_lt Z (hZ.lt_add_one_mul hpos 1 hT)

/-- The product of an integer that need not be reduced and a stored residue. -/
theorem form_mulMontgomeryForm (a b : Uint n) {x y : ZMod modulus.toNat}
    (hinv : NegInv modulus.limbs modNegInv) (hodd : modulus.toNat % 2 = 1)
    (ha : (a.toNat : ZMod modulus.toNat) = ((2 ^ 64) ^ n : ℕ) * x)
    (hb : Form ((2 ^ 64) ^ n) modulus.toNat b.toNat y) :
    Form ((2 ^ 64) ^ n) modulus.toNat
      (mulMontgomeryForm a b modulus modNegInv).toNat (x * y) := by
  rcases toNat_mulMontgomeryForm a b hinv (by omega) with ⟨Z, hZ, hmul⟩
  rw [hmul]
  exact Form.mul (coprime_factor _ hodd) hZ a.toNat_lt ha hb

/-- Subtracting the modulus where there is a carry. -/
theorem toNat_subOnCarry (out : Uint n) (carry : Limb) (choice : Choice)
    (hcarry : carry.toNat ≤ 1) (hchoice : choice = true ↔ carry.toNat = 1)
    (hlt : out.toNat + (2 ^ 64) ^ n * carry.toNat < (2 ^ 64) ^ n + modulus.toNat) :
    (out.conditionalBorrowingSub modulus choice).1.toNat
      = dropOverflow ((2 ^ 64) ^ n) modulus.toNat
        (out.toNat + (2 ^ 64) ^ n * carry.toNat) := by
  have hout := out.toNat_lt
  rw [Uint.conditionalBorrowingSub_eq, (Uint.borrowingSub_zero _ _).2]
  unfold dropOverflow
  by_cases hone : carry.toNat = 1
  · rw [hone, Nat.mul_one] at hlt ⊢
    rw [if_pos (hchoice.mpr hone), if_pos (by omega), if_neg (by omega)]
  · have hzero : carry.toNat = 0 := by omega
    have hfalse : ¬ choice = true := fun h => hone (hchoice.mp h)
    rw [hzero, Nat.mul_zero, Nat.add_zero, if_neg hfalse, if_neg (by simp), if_pos hout,
      Uint.toNat_zero, Nat.sub_zero]

theorem isNonzero_carry_iff (carry : Limb) (h : carry.toNat ≤ 1) :
    Limb.isNonzero carry = true ↔ carry.toNat = 1 := by
  rw [Limb.isNonzero_iff, Ne, ← BitVec.toNat_inj]
  have hzero : BitVec.toNat (0 : Limb) = 0 := rfl
  omega

theorem lsbToChoice_carry_iff (carry : Limb) (h : carry.toNat ≤ 1) :
    Limb.lsbToChoice carry = true ↔ carry.toNat = 1 := by
  unfold Limb.lsbToChoice
  rw [BitVec.getLsbD, Nat.testBit_zero, decide_eq_true_eq]
  omega

/-- The product without the final subtraction, and with one only on overflow. -/
theorem toNat_almostMontgomeryMul (x y : Uint n) (hinv : NegInv modulus.limbs modNegInv)
    (hpos : 0 < modulus.toNat) :
    ∃ Z, IsRedc ((2 ^ 64) ^ n) modulus.toNat (x.toNat * y.toNat) Z ∧
      Z < (2 ^ 64) ^ n + modulus.toNat ∧
      (almostMontgomeryMul x y modulus modNegInv).toNat
        = dropOverflow ((2 ^ 64) ^ n) modulus.toNat Z := by
  rcases multiplyInner_spec x y modulus modNegInv hinv hpos with ⟨hcarry, hredc⟩
  have hlt := hredc.lt_add _ (mul_lt_sq x y)
  exact ⟨_, hredc, hlt, toNat_subOnCarry _ _ _ hcarry (lsbToChoice_carry_iff _ hcarry) hlt⟩

/-- The square in between, the same product. -/
theorem almostSquare_eq (base : Uint n) (hinv : NegInv modulus.limbs modNegInv)
    (hpos : 0 < modulus.toNat) :
    almostSquare modulus modNegInv base = almostMontgomeryMul base base modulus modNegInv := by
  rcases multiplyInner_spec base base modulus modNegInv hinv hpos with ⟨hcarry, _⟩
  have hchoice : Limb.isNonzero (multiplyInner base base modulus modNegInv).2
      = Limb.lsbToChoice (multiplyInner base base modulus modNegInv).2 := by
    rw [Bool.eq_iff_iff, isNonzero_carry_iff _ hcarry, lsbToChoice_carry_iff _ hcarry]
  exact congrArg (fun choice => ((multiplyInner base base modulus
    modNegInv).1.conditionalBorrowingSub modulus choice).1) hchoice

/-- An almost reduced product stands for the product. -/
theorem cast_almostMontgomeryMul (a b : Uint n) {x y : ZMod modulus.toNat}
    (hinv : NegInv modulus.limbs modNegInv) (hodd : modulus.toNat % 2 = 1)
    (ha : (a.toNat : ZMod modulus.toNat) = ((2 ^ 64) ^ n : ℕ) * x)
    (hb : (b.toNat : ZMod modulus.toNat) = ((2 ^ 64) ^ n : ℕ) * y) :
    ((almostMontgomeryMul a b modulus modNegInv).toNat : ZMod modulus.toNat)
      = ((2 ^ 64) ^ n : ℕ) * (x * y) := by
  rcases toNat_almostMontgomeryMul a b hinv (by omega) with ⟨Z, hZ, _, hmul⟩
  rw [hmul, cast_dropOverflow (Nat.le_of_lt modulus.toNat_lt)]
  -- A reduction is known by what the factor times it is.
  refine (Form.isUnit_factor (coprime_factor _ hodd)).mul_left_cancel (hZ.cast_mul.trans ?_)
  rw [Nat.cast_mul, ha, hb]
  ring

/-- How far an almost reduced product is above its factors. -/
theorem almostMontgomeryMul_lt (x y : Uint n) (hinv : NegInv modulus.limbs modNegInv)
    (hpos : 0 < modulus.toNat) :
    (almostMontgomeryMul x y modulus modNegInv).toNat < min x.toNat y.toNat + modulus.toNat := by
  rcases toNat_almostMontgomeryMul x y hinv hpos with ⟨Z, hZ, _, hmul⟩
  rw [hmul]
  exact Nat.lt_of_le_of_lt (dropOverflow_le Z)
    (hZ.lt_min_add hpos (Nat.le_of_lt x.toNat_lt) (Nat.le_of_lt y.toNat_lt))

/-- How many subtractions an almost reduced product is short of. -/
theorem almostMontgomeryMul_div_le (x y : Uint n) (hinv : NegInv modulus.limbs modNegInv)
    (hpos : 0 < modulus.toNat) :
    (almostMontgomeryMul x y modulus modNegInv).toNat / modulus.toNat
      ≤ min (x.toNat / modulus.toNat) (y.toNat / modulus.toNat) + 1 := by
  rcases toNat_almostMontgomeryMul x y hinv hpos with ⟨Z, hZ, _, hmul⟩
  have hle := hZ.div_le hpos (Nat.le_of_lt x.toNat_lt) (Nat.le_of_lt y.toNat_lt)
  rw [hmul]
  exact (Nat.div_le_div_right (dropOverflow_le Z)).trans hle

/-- A subtraction made if it does not go below zero. -/
theorem toNat_subUnlessLt (z : Uint n) :
    (z.conditionalBorrowingSub modulus (!z.lt modulus)).1.toNat
      = condSub modulus.toNat z.toNat := by
  rw [Uint.conditionalBorrowingSub_eq, (Uint.borrowingSub_zero _ _).2]
  unfold condSub
  by_cases hlt : z.toNat < modulus.toNat
  · have h : z.lt modulus = true := (Uint.lt_iff z modulus).mpr hlt
    simp [h, hlt]
  · have h : z.lt modulus = false := Bool.eq_false_iff.mpr fun h => hlt ((Uint.lt_iff _ _).mp h)
    simp [h, hlt]

/-- Two subtractions reduce what is below three moduli. -/
theorem form_almostMontgomeryReduce (z : Uint n) {x : ZMod modulus.toNat}
    (hlt : z.toNat / modulus.toNat ≤ 2) (hpos : 0 < modulus.toNat)
    (hz : (z.toNat : ZMod modulus.toNat) = ((2 ^ 64) ^ n : ℕ) * x) :
    Form ((2 ^ 64) ^ n) modulus.toNat (almostMontgomeryReduce z modulus).toNat x := by
  have h3 : z.toNat < 3 * modulus.toNat :=
    (Nat.div_lt_iff_lt_mul hpos).mp (Nat.lt_succ_iff.mpr hlt)
  have hvalue : (almostMontgomeryReduce z modulus).toNat
      = condSub modulus.toNat (condSub modulus.toNat z.toNat) := by
    unfold almostMontgomeryReduce
    simp only [toNat_subUnlessLt]
  have hfirst : condSub modulus.toNat z.toNat < 2 * modulus.toNat := by
    unfold condSub
    split <;> omega
  refine ⟨hvalue ▸ condSub_lt _ hfirst, ?_⟩
  rw [hvalue, cast_condSub, cast_condSub, hz]

/-- The squares in between, reduced only if they overflow. -/
theorem cast_iterate_almostSquare (a : Uint n) {x : ZMod modulus.toNat}
    (hinv : NegInv modulus.limbs modNegInv) (hodd : modulus.toNat % 2 = 1)
    (ha : (a.toNat : ZMod modulus.toNat) = ((2 ^ 64) ^ n : ℕ) * x) (k : ℕ) :
    (((almostSquare modulus modNegInv)^[k] a).toNat : ZMod modulus.toNat)
      = ((2 ^ 64) ^ n : ℕ) * x ^ 2 ^ k := by
  induction k with
  | zero => simpa using ha
  | succ k ih =>
      rw [Function.iterate_succ_apply', almostSquare_eq _ hinv (by omega),
        cast_almostMontgomeryMul _ _ hinv hodd ih ih, ← pow_add, ← Nat.two_mul, ← pow_succ']

/-- If the modulus leaves two bits free, the squares in between stay below two
    moduli. -/
theorem iterate_almostSquare_lt (a : Uint n) (hinv : NegInv modulus.limbs modNegInv)
    (hpos : 0 < modulus.toNat) (hfree : 4 * modulus.toNat ≤ (2 ^ 64) ^ n)
    (ha : a.toNat < 2 * modulus.toNat) (k : ℕ) :
    ((almostSquare modulus modNegInv)^[k] a).toNat < 2 * modulus.toNat := by
  induction k with
  | zero => exact ha
  | succ k ih =>
      rw [Function.iterate_succ_apply', almostSquare_eq _ hinv hpos]
      generalize (almostSquare modulus modNegInv)^[k] a = base at ih
      rcases toNat_almostMontgomeryMul base base hinv hpos with ⟨Z, hZ, _, hmul⟩
      have hsq : base.toNat * base.toNat < 1 * ((2 ^ 64) ^ n * modulus.toNat) := by
        calc base.toNat * base.toNat < 2 * modulus.toNat * (2 * modulus.toNat) :=
              Nat.mul_lt_mul'' ih ih
          _ = 4 * modulus.toNat * modulus.toNat := by ring
          _ ≤ 1 * ((2 ^ 64) ^ n * modulus.toNat) := by
              rw [Nat.one_mul]
              exact Nat.mul_le_mul_right _ hfree
      rw [hmul]
      exact Nat.lt_of_le_of_lt (dropOverflow_le Z) (hZ.lt_add_one_mul hpos 1 hsq)

/-- Two subtractions with a carry coming in. -/
theorem toNat_trySub_twice (out : Uint n) (carry : Limb) (hcarry : carry.toNat ≤ 1)
    (hlt : out.toNat + (2 ^ 64) ^ n * carry.toNat < (2 ^ 64) ^ n + modulus.toNat) :
    ((out.trySubWithCarry carry modulus).1.trySubWithCarry
        (out.trySubWithCarry carry modulus).2 modulus).1.toNat
      = condSub modulus.toNat (condSub modulus.toNat
          (out.toNat + (2 ^ 64) ^ n * carry.toNat)) := by
  rcases Uint.toNat_trySubWithCarry out carry modulus hcarry (by omega) with ⟨hvalue, hzero⟩
  have hnat : (out.trySubWithCarry carry modulus).2.toNat = 0 := by
    rw [hzero]
    rfl
  have hfirst := (out.trySubWithCarry carry modulus).1.toNat_lt
  have hsecond := (Uint.toNat_trySubWithCarry (out.trySubWithCarry carry modulus).1
    (out.trySubWithCarry carry modulus).2 modulus (by omega) (by rw [hnat]; omega)).1
  rw [hsecond, hnat, Nat.mul_zero, Nat.add_zero, hvalue]

/-- What repeated squaring returns, from two squares on. -/
theorem toNat_squareRepeat (a : Uint n) (times : ℕ) (hinv : NegInv modulus.limbs modNegInv)
    (hpos : 0 < modulus.toNat) (htimes : 2 ≤ times) :
    ∃ Z, IsRedc ((2 ^ 64) ^ n) modulus.toNat
        (((almostSquare modulus modNegInv)^[times - 1] a).toNat
          * ((almostSquare modulus modNegInv)^[times - 1] a).toNat) Z ∧
      Z < (2 ^ 64) ^ n + modulus.toNat ∧
      (squareRepeatMontgomeryForm a times modulus modNegInv).toNat
        = condSub modulus.toNat (condSub modulus.toNat Z) := by
  generalize hbase : (almostSquare modulus modNegInv)^[times - 1] a = base
  rcases multiplyInner_spec base base modulus modNegInv hinv hpos with ⟨hcarry, hredc⟩
  have hlt := hredc.lt_add _ (mul_lt_sq base base)
  refine ⟨_, hredc, hlt, ?_⟩
  rw [← toNat_trySub_twice _ _ hcarry hlt]
  unfold squareRepeatMontgomeryForm
  rw [if_neg (by omega), if_neg (by omega), hbase]

/-- Repeated squaring returns an integer that is congruent to the power. -/
theorem cast_squareRepeat (a : Uint n) (times : ℕ) {x : ZMod modulus.toNat}
    (hinv : NegInv modulus.limbs modNegInv) (hodd : modulus.toNat % 2 = 1)
    (ha : (a.toNat : ZMod modulus.toNat) = ((2 ^ 64) ^ n : ℕ) * x) :
    ((squareRepeatMontgomeryForm a times modulus modNegInv).toNat : ZMod modulus.toNat)
      = ((2 ^ 64) ^ n : ℕ) * x ^ 2 ^ times := by
  have hpos : 0 < modulus.toNat := by omega
  have hcancel := Form.isUnit_factor (coprime_factor (n := n) _ hodd)
  by_cases hzero : times = 0
  · subst hzero
    simpa [squareRepeatMontgomeryForm] using ha
  by_cases hone : times = 1
  · subst hone
    have hsquare : squareRepeatMontgomeryForm a 1 modulus modNegInv
        = mulMontgomeryForm a a modulus modNegInv := squareMontgomeryForm_eq a _ _ hinv hodd
    rcases toNat_mulMontgomeryForm a a hinv hpos with ⟨Z, hZ, hmul⟩
    rw [hsquare, hmul, cast_condSub]
    refine hcancel.mul_left_cancel (hZ.cast_mul.trans ?_)
    rw [Nat.cast_mul, ha]
    ring
  · rcases toNat_squareRepeat a times hinv hpos (by omega) with ⟨Z, hZ, _, hvalue⟩
    have hbase := cast_iterate_almostSquare a hinv hodd ha (times - 1)
    rw [hvalue, cast_condSub, cast_condSub]
    refine hcancel.mul_left_cancel (hZ.cast_mul.trans ?_)
    obtain ⟨k, rfl⟩ : ∃ k, times = k + 1 := ⟨times - 1, by omega⟩
    rw [Nat.cast_mul, hbase, Nat.add_sub_cancel, pow_succ 2 k, Nat.mul_two, pow_add]
    ring

/-- Repeated squaring returns a reduced integer if the modulus leaves two bits
    free, or none. -/
theorem squareRepeat_lt (a : Uint n) (times : ℕ) (hinv : NegInv modulus.limbs modNegInv)
    (hodd : modulus.toNat % 2 = 1) (ha : a.toNat < modulus.toNat)
    (hbits : 4 * modulus.toNat ≤ (2 ^ 64) ^ n ∨ (2 ^ 64) ^ n ≤ 2 * modulus.toNat) :
    (squareRepeatMontgomeryForm a times modulus modNegInv).toNat < modulus.toNat := by
  have hpos : 0 < modulus.toNat := by omega
  by_cases hzero : times = 0
  · subst hzero
    exact ha
  by_cases hone : times = 1
  · subst hone
    have hsquare : squareRepeatMontgomeryForm a 1 modulus modNegInv
        = mulMontgomeryForm a a modulus modNegInv := squareMontgomeryForm_eq a _ _ hinv hodd
    rw [hsquare]
    exact mulMontgomeryForm_lt a a hinv ha
  · rcases toNat_squareRepeat a times hinv hpos (by omega) with ⟨Z, hZ, hlt, hvalue⟩
    have h3 : Z < 3 * modulus.toNat := by
      rcases hbits with hfree | hfull
      · have hbase := iterate_almostSquare_lt a hinv hpos hfree (by omega) (times - 1)
        have hsq := Nat.mul_lt_mul'' hbase hbase
        -- With two free bits, squares of integers below twice the modulus stay
        -- below it.
        have hT : 2 * modulus.toNat * (2 * modulus.toNat) ≤ 1 * ((2 ^ 64) ^ n * modulus.toNat) := by
          calc 2 * modulus.toNat * (2 * modulus.toNat)
              = 4 * modulus.toNat * modulus.toNat := by ring
            _ ≤ 1 * ((2 ^ 64) ^ n * modulus.toNat) := by
                rw [Nat.one_mul]
                exact Nat.mul_le_mul_right _ hfree
        have h2 := hZ.lt_add_one_mul hpos 1 (Nat.lt_of_lt_of_le hsq hT)
        omega
      · omega
    rw [hvalue]
    refine condSub_lt _ ?_
    unfold condSub
    split <;> omega

/-- A reduced integer that stands for the power. -/
theorem form_squareRepeat (a : Uint n) (times : ℕ) {x : ZMod modulus.toNat}
    (hinv : NegInv modulus.limbs modNegInv) (hodd : modulus.toNat % 2 = 1)
    (hbits : 4 * modulus.toNat ≤ (2 ^ 64) ^ n ∨ (2 ^ 64) ^ n ≤ 2 * modulus.toNat)
    (ha : Form ((2 ^ 64) ^ n) modulus.toNat a.toNat x) :
    Form ((2 ^ 64) ^ n) modulus.toNat
      (squareRepeatMontgomeryForm a times modulus modNegInv).toNat (x ^ 2 ^ times) where
  lt := squareRepeat_lt a times hinv hodd ha.lt hbits
  cast := cast_squareRepeat a times hinv hodd ha.cast

end Product

/-- Half of the even one of an integer and its sum with the modulus. The
    highest bit is where the sum overflows. -/
theorem toNat_divBy2 (a modulus : Uint n) (hodd : modulus.toNat % 2 = 1) :
    (divBy2 a modulus).toNat
      = (if a.toNat % 2 = 1 then a.toNat + modulus.toNat else a.toNat) / 2 := by
  cases n with
  | zero =>
      have hlt := modulus.toNat_lt
      omega
  | succ n =>
      have hadd : (a.carryingAdd modulus 0).1.toNat
          + (2 ^ 64) ^ (n + 1) * (a.carryingAdd modulus 0).2.toNat = a.toNat + modulus.toNat :=
        Uint.toNat_carryingAdd a modulus 0
      have hzero : BitVec.toNat (0 : Limb) = 0 := rfl
      have halt := a.toNat_lt
      have hmlt := modulus.toNat_lt
      have hR : (2 ^ 64) ^ (n + 1) = 2 * (2 ^ 63 * (2 ^ 64) ^ n) := by
        rw [pow_succ' ((2 : ℕ) ^ 64) n]
        ring
      -- The sum has at most one bit above the integer.
      have hbit : ∀ half : Uint (n + 1), ∀ carry : Limb, carry.toNat ≤ 1 →
          (half.shr1.setBit (64 * (n + 1) - 1) (Limb.isNonzero carry)).toNat
            = half.toNat / 2 + 2 ^ 63 * (2 ^ 64) ^ n * carry.toNat := by
        intro half carry hcarry
        have hhalf := half.toNat_lt
        have htop := Uint.toNat_setBit_top half.shr1 (Limb.isNonzero carry)
          (by rw [Uint.toNat_shr1]; omega)
        have hnat : (Limb.isNonzero carry).toNat = carry.toNat := by
          have hiff := isNonzero_carry_iff carry hcarry
          cases h : Limb.isNonzero carry with
          | false =>
              have hne : ¬ carry.toNat = 1 := fun hone => by simp [hiff.mpr hone] at h
              simp only [Bool.toNat_false]
              omega
          | true => exact (hiff.mp h).symm
        rw [hnat, Uint.toNat_shr1, hR, Nat.mul_assoc] at htop
        omega
      have hcarry : (a.carryingAdd modulus 0).2.toNat ≤ 1 := by
        by_contra hbig
        have h2 : (2 ^ 64) ^ (n + 1) * 2 ≤ (2 ^ 64) ^ (n + 1) * (a.carryingAdd modulus 0).2.toNat :=
          Nat.mul_le_mul_left _ (by omega)
        omega
      unfold divBy2
      simp only [Uint.select_eq, Limb.select_eq]
      by_cases h : a.toNat % 2 = 1
      · have hisOdd : a.isOdd = true := (Uint.isOdd_iff a).mpr h
        simp only [hisOdd, if_true, h]
        rw [hbit _ _ hcarry]
        rw [hR, Nat.mul_assoc] at hadd
        omega
      · have hisOdd : a.isOdd = false :=
          Bool.eq_false_iff.mpr fun h' => h ((Uint.isOdd_iff a).mp h')
        simp only [hisOdd, Bool.false_eq_true, if_false, h]
        rw [hbit _ _ (by rw [hzero]; omega), hzero, Nat.mul_zero, Nat.add_zero]

namespace FixedMontyForm

variable {params : MontyParams n} {m : ℕ}

/-- A stored residue and the residue. -/
def Represents (a : FixedMontyForm params) (r : ConstMontyForm m) : Prop :=
  Form ((2 ^ 64) ^ n) m a.montgomeryForm.toNat r.toZMod

theorem ext_montgomeryForm (a b : FixedMontyForm params)
    (h : a.montgomeryForm.toNat = b.montgomeryForm.toNat) : a = b := by
  cases a
  cases b
  congr
  exact Uint.toNat_injective _ _ h

namespace Represents

variable {a b : FixedMontyForm params} {r s : ConstMontyForm m}

/-- A residue is stored in one way. -/
theorem unique (ha : Represents a r) (hb : Represents b r) : a = b :=
  ext_montgomeryForm a b (Form.unique ha hb)

theorem injective (hparams : params.Valid m) (ha : Represents a r) (hb : Represents a s) : r = s :=
  ConstMontyForm.toZMod_injective r s
    (Form.injective (coprime_factor m hparams.odd) ha hb)

theorem ctSelect (ha : Represents a r) (hb : Represents b s) (choice : Choice) :
    Represents (FixedMontyForm.ctSelect a b choice) (r.ctSelect s choice) := by
  unfold FixedMontyForm.ctSelect ConstMontyForm.ctSelect Represents
  rw [Uint.select_eq]
  cases choice with
  | false => exact ha
  | true => exact hb

/-- Stored residues are equal exactly if the residues are. -/
theorem ctEq (hparams : params.Valid m) (ha : Represents a r) (hb : Represents b s) :
    a.ctEq b = r.ctEq s := by
  unfold FixedMontyForm.ctEq
  rw [Bool.eq_iff_iff, Uint.ctEq_iff, ConstMontyForm.ctEq_iff]
  constructor
  · intro heq
    have hb' : Represents a s := by
      unfold Represents
      rw [heq]
      exact hb
    rw [injective hparams ha hb']
  · intro heq
    have hrs := ConstMontyForm.toZMod_injective r s heq
    subst hrs
    exact congrArg montgomeryForm (unique ha hb)

section Operations

variable [NeZero m]

theorem zero :
    Represents (zero : FixedMontyForm params) (ConstMontyForm.zero : ConstMontyForm m) := by
  unfold Represents ConstMontyForm.toZMod
  rw [ConstMontyForm.toRing_zero ConstMontyForm.cast_self]
  exact Uint.toNat_zero ▸ Form.zero (Nat.pos_of_neZero m)

theorem one (hparams : params.Valid m) :
    Represents (one : FixedMontyForm params) (ConstMontyForm.one : ConstMontyForm m) := by
  unfold Represents ConstMontyForm.toZMod
  rw [ConstMontyForm.toRing_one ConstMontyForm.cast_self]
  exact hparams.one ▸ Form.one (Nat.pos_of_neZero m)

theorem new (hparams : params.Valid m) (integer : Uint n) :
    Represents (new integer : FixedMontyForm params) (ConstMontyForm.ofNat m integer.toNat) := by
  rcases hparams with ⟨rfl, hodd, _, hr2, hinv⟩
  have hform : Form ((2 ^ 64) ^ n) params.modulus.toNat params.r2.toNat
      (((2 ^ 64) ^ n : ℕ) : ZMod params.modulus.toNat) := by
    refine ⟨?_, ?_⟩
    · rw [hr2]
      exact Nat.mod_lt _ (by omega)
    · rw [hr2, ZMod.natCast_mod, sq, Nat.cast_mul]
  rcases toNat_mulMontgomeryForm integer params.r2 hinv (by omega) with ⟨Z, hZ, hmul⟩
  unfold Represents ConstMontyForm.toZMod
  rw [ConstMontyForm.toRing_ofNat ConstMontyForm.cast_self]
  exact hmul ▸ Form.new (coprime_factor _ hodd) hZ integer.toNat_lt hform

theorem add (hparams : params.Valid m) (ha : Represents a r) (hb : Represents b s) :
    Represents (a.add b) (r.add s) := by
  rcases hparams with ⟨rfl, _⟩
  have halt := Form.lt ha
  have hblt := Form.lt hb
  unfold Represents ConstMontyForm.toZMod
  rw [ConstMontyForm.toRing_add ConstMontyForm.cast_self]
  exact Uint.toNat_addMod a.montgomeryForm b.montgomeryForm params.modulus (by omega)
    ▸ Form.add ha hb

theorem double (hparams : params.Valid m) (ha : Represents a r) :
    Represents a.double (r.add r) := by
  rcases hparams with ⟨rfl, _⟩
  have hsum := Form.add ha ha
  unfold Represents ConstMontyForm.toZMod
  rw [ConstMontyForm.toRing_add ConstMontyForm.cast_self]
  rw [← Nat.two_mul] at hsum
  exact Uint.toNat_doubleMod _ params.modulus (Form.lt ha) ▸ hsum

theorem sub (hparams : params.Valid m) (ha : Represents a r) (hb : Represents b s) :
    Represents (a.sub b) (r.sub s) := by
  rcases hparams with ⟨rfl, _⟩
  have hblt := Form.lt hb
  unfold Represents ConstMontyForm.toZMod
  rw [ConstMontyForm.toRing_sub ConstMontyForm.cast_self]
  exact Uint.toNat_subMod a.montgomeryForm b.montgomeryForm params.modulus (by omega)
    ▸ Form.sub ha hb

theorem neg (hparams : params.Valid m) (ha : Represents a r) : Represents a.neg r.neg := by
  rcases hparams with ⟨rfl, _⟩
  unfold Represents ConstMontyForm.toZMod
  rw [ConstMontyForm.toRing_neg ConstMontyForm.cast_self]
  exact Uint.toNat_negMod _ params.modulus (Nat.le_of_lt (Form.lt ha)) ▸ Form.neg ha

theorem mul (hparams : params.Valid m) (ha : Represents a r) (hb : Represents b s) :
    Represents (a.mul b) (r.mul s) := by
  rcases hparams with ⟨rfl, hodd, _, _, hinv⟩
  unfold Represents ConstMontyForm.toZMod
  rw [ConstMontyForm.toRing_mul ConstMontyForm.cast_self]
  exact form_mulMontgomeryForm _ _ hinv hodd (Form.cast ha) hb

theorem square (hparams : params.Valid m) (ha : Represents a r) : Represents a.square r.square := by
  have hmul := mul hparams ha ha
  have heq : a.square = a.mul a := by
    rcases hparams with ⟨rfl, hodd, _, _, hinv⟩
    unfold FixedMontyForm.square FixedMontyForm.mul
    rw [squareMontgomeryForm_eq _ _ _ hinv hodd]
  rw [heq]
  exact hmul

/-- Half of a residue, twice which is the residue. -/
theorem divBy2 (hparams : params.Valid m) (ha : Represents a r) :
    Form ((2 ^ 64) ^ n) m a.divBy2.montgomeryForm.toNat ((2 : ZMod m)⁻¹ * r.toZMod) := by
  rcases hparams with ⟨rfl, hodd, _⟩
  have hvalue := toNat_divBy2 a.montgomeryForm params.modulus hodd
  unfold FixedMontyForm.divBy2
  rw [hvalue]
  exact Form.half hodd ha

/-- What is retrieved is the residue. -/
theorem toNat_retrieve (hparams : params.Valid m) (ha : Represents a r) :
    a.retrieve.toNat = r.residue := by
  rcases hparams with ⟨rfl, hodd, _, _, hinv⟩
  have hredc := montgomeryRetrieve_isRedc a.montgomeryForm params.modulus params.modNegInv hinv
  rcases Form.retrieve (coprime_factor _ hodd) hredc ha with ⟨hlt, hcast⟩
  have hmod := (ZMod.natCast_eq_natCast_iff _ r.residue _).mp hcast
  rw [← Nat.mod_eq_of_lt r.residue_lt]
  exact (Nat.mod_eq_of_lt hlt).symm.trans hmod

end Operations

end Represents

end FixedMontyForm

end Ed301
