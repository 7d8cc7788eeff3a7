import Ed301.Refine.Extended

/-!
# Arithmetic on Limbs

The loops over limbs, for integers of any length and every odd modulus.

The product runs in words of twice the width without checking for overflow,
and nothing overflows. The three loops that take out a factor give the same
integer wherever two of them apply. What is precomputed for a modulus is right,
so an integer that enters and leaves again has been reduced.

Products that put off the final subtraction come with a list of properties,
which the library states from experiments. Two of them are nearly right, and
the last one fails. None of that reaches the results: powers by such products
are reduced, whatever the modulus. Repeated squaring is less careful. It gives
the plain squares if the modulus leaves two bits of the highest limb free or
none of them, and there is a modulus that leaves one bit free where it does
not.

## Theorems

* `overflow_checks_unreachable`: The product with overflow checks.
* `reductions_agree`: Three loops that reduce.
* `retrieve_new`: The precomputed parameters and the round trip.
* `almost_products`: How far a product without the final subtraction is off.
* `squareRepeat_is_iterated_square`: Repeated squares.
* `multi_exponentiation`: Products of powers in constant time.
* `powers_agree`: Three ways to a power.
-/

namespace Ed301

open Limbs Montgomery

variable {n k : ℕ}

/-- No sum and no product of wide words overflows: with checks the loops of a
    product never panic, and compute what they compute without. The result is
    the reduction of the product, with a carry of at most one. -/
theorem overflow_checks_unreachable (a b modulus : Uint n) (modNegInv : Limb)
    (hinv : NegInv modulus.limbs modNegInv) (hpos : 0 < modulus.toNat) :
    ∃ r : List Limb × Limb,
      montgomeryMultiplyInner .checked a.limbs b.limbs (Uint.zero : Uint n).limbs modulus.limbs
        modNegInv = some r ∧
      (montgomeryMultiplyInner .wrapping a.limbs b.limbs (Uint.zero : Uint n).limbs modulus.limbs
        modNegInv).run = r ∧
      r.2.toNat ≤ 1 ∧
      IsRedc ((2 ^ 64) ^ n) modulus.toNat (a.toNat * b.toNat)
        (value r.1 + (2 ^ 64) ^ n * r.2.toNat) := by
  -- The loops are analysed once, over any arithmetic that is right as long as
  -- nothing overflows; checked and wrapping arithmetic are two of them.
  have hzero : (Uint.zero : Uint n).limbs.length = n := Uint.length_limbs _
  have h0 : value (Uint.zero : Uint n).limbs = 0 := Uint.toNat_zero
  rcases montgomeryMultiplyInner_spec modNegInv a.limbs b.limbs
    (Uint.zero : Uint n).limbs modulus.limbs (a.length_limbs.trans hzero.symm)
    (b.length_limbs.trans hzero.symm) (modulus.length_limbs.trans hzero.symm) hinv
    (by
      rw [h0]
      exact Nat.lt_of_lt_of_le hpos (Nat.le_add_left _ _)) with ⟨r, _, _, hrun⟩
  have hwrapping := congrArg Id.run (hrun WideArith.wrapping WideArith.lawful_wrapping)
  have hchecked := hrun WideArith.checked WideArith.lawful_checked
  have hspec := multiplyInner_spec a b modulus modNegInv hinv hpos
  refine ⟨_, hchecked, hwrapping, ?_⟩
  have hr : ((multiplyInner a b modulus modNegInv).1.limbs,
      (multiplyInner a b modulus modNegInv).2) = r := hwrapping
  rw [← hr]
  exact hspec

theorem overflow_checks_unreachable_seven :
    ∃ r : List Limb × Limb,
      montgomeryMultiplyInner .checked (Uint.ofNat 1 (2 ^ 64 - 1)).limbs
        (Uint.ofNat 1 (2 ^ 64 - 1)).limbs (Uint.zero : Uint 1).limbs (Uint.ofNat 1 7).limbs
        (-invertOdd 7) = some r ∧
      (montgomeryMultiplyInner .wrapping (Uint.ofNat 1 (2 ^ 64 - 1)).limbs
        (Uint.ofNat 1 (2 ^ 64 - 1)).limbs (Uint.zero : Uint 1).limbs (Uint.ofNat 1 7).limbs
        (-invertOdd 7)).run = r ∧
      r.2.toNat ≤ 1 ∧
      IsRedc ((2 ^ 64) ^ 1) (Uint.ofNat 1 7).toNat
        ((Uint.ofNat 1 (2 ^ 64 - 1)).toNat * (Uint.ofNat 1 (2 ^ 64 - 1)).toNat)
        (value r.1 + (2 ^ 64) ^ 1 * r.2.toNat) :=
  overflow_checks_unreachable (Uint.ofNat 1 (2 ^ 64 - 1)) (Uint.ofNat 1 (2 ^ 64 - 1))
    (Uint.ofNat 1 7) (-invertOdd 7) (negInv_invertOdd (Uint.ofNat 1 7) (by decide)) (by decide)

/-- The product, the reduction of an integer of twice the length and the
    removal of the factor agree. The square of that length, which takes the
    symmetric half of the grid, reduces to the product in every length.
    Squaring takes it at four limbs, and is the product there as elsewhere. The
    removal of the factor leaves the last subtraction out, which matters for
    multiples of the modulus only. -/
theorem reductions_agree (modulus : Uint n) (modNegInv : Limb)
    (hinv : NegInv modulus.limbs modNegInv) (hodd : modulus.toNat % 2 = 1) :
    (∀ a b lower upper : Uint n,
      lower.toNat + (2 ^ 64) ^ n * upper.toNat = a.toNat * b.toNat →
      montgomeryReduction lower upper modulus modNegInv
        = mulMontgomeryForm a b modulus modNegInv) ∧
    (∀ a lower upper : Uint n, lower.limbs ++ upper.limbs = squareWide a.limbs →
      montgomeryReduction lower upper modulus modNegInv
        = mulMontgomeryForm a a modulus modNegInv) ∧
    (∀ a : Uint n,
      squareMontgomeryForm a modulus modNegInv = mulMontgomeryForm a a modulus modNegInv) ∧
    (∀ a : Uint n, montgomeryRetrieve a modulus modNegInv
      = if 0 < a.toNat ∧ modulus.toNat ∣ a.toNat then modulus
        else mulMontgomeryForm a (Uint.ofNat n 1) modulus modNegInv) := by
  have hpos : 0 < modulus.toNat := by omega
  have hlt := modulus.toNat_lt
  have hcoprime := coprime_factor (n := n) _ hodd
  have hreduction : ∀ a b lower upper : Uint n,
      lower.toNat + (2 ^ 64) ^ n * upper.toNat = a.toNat * b.toNat →
      montgomeryReduction lower upper modulus modNegInv
        = mulMontgomeryForm a b modulus modNegInv := by
    intro a b lower upper hsplit
    rcases toNat_mulMontgomeryForm a b hinv hpos with ⟨Z, hZ, hmul⟩
    rcases toNat_montgomeryReduction lower upper hinv with ⟨Z', hZ', hvalue⟩
    rw [hsplit] at hZ'
    -- The reduction of a number is unique, by whichever loop it comes about.
    refine Uint.toNat_injective _ _ ?_
    rw [hvalue, hmul, hZ'.unique hcoprime hZ]
  refine ⟨hreduction, ?_, fun a => squareMontgomeryForm_eq a modulus modNegInv hinv hodd, ?_⟩
  · intro a lower upper hsplit
    have hlen : 0 < a.limbs.length := by
      rw [a.length_limbs]
      exact Nat.pos_of_ne_zero (modulus.ne_zero_of_pos hpos)
    have hvalue := value_append lower.limbs upper.limbs
    rw [hsplit, value_squareWide a.limbs hlen, lower.length_limbs, sq] at hvalue
    exact hreduction a a lower upper hvalue.symm
  · intro a
    have hone : (Uint.ofNat n 1).toNat = 1 := Uint.toNat_ofNat_of_lt 1 (by omega)
    have hretrieve := montgomeryRetrieve_isRedc a modulus modNegInv hinv
    rcases toNat_mulMontgomeryForm a (Uint.ofNat n 1) hinv hpos with ⟨Z, hZ, hmul⟩
    rw [hone, Nat.mul_one] at hZ
    -- Both loops reduce the same number. They part only if that is the modulus,
    -- from which the product still subtracts.
    have hsame := hretrieve.unique hcoprime hZ
    have hmultiple := hZ.eq_modulus_iff hcoprime hpos a.toNat_lt
    have hle := hZ.le_modulus hpos a.toNat_lt
    refine Uint.toNat_injective _ _ ?_
    rw [hsame]
    by_cases h : 0 < a.toNat ∧ modulus.toNat ∣ a.toNat
    · rw [if_pos h]
      exact hmultiple.mpr h
    · have hne : Z ≠ modulus.toNat := fun hZm => h (hmultiple.mp hZm)
      rw [if_neg h, hmul]
      unfold condSub
      rw [if_pos (by omega)]

theorem reductions_agree_seven :
    (∀ a b lower upper : Uint 4,
      lower.toNat + (2 ^ 64) ^ 4 * upper.toNat = a.toNat * b.toNat →
      montgomeryReduction lower upper (Uint.ofNat 4 7) (-invertOdd 7)
        = mulMontgomeryForm a b (Uint.ofNat 4 7) (-invertOdd 7)) ∧
    (∀ a lower upper : Uint 4, lower.limbs ++ upper.limbs = squareWide a.limbs →
      montgomeryReduction lower upper (Uint.ofNat 4 7) (-invertOdd 7)
        = mulMontgomeryForm a a (Uint.ofNat 4 7) (-invertOdd 7)) ∧
    (∀ a : Uint 4, squareMontgomeryForm a (Uint.ofNat 4 7) (-invertOdd 7)
      = mulMontgomeryForm a a (Uint.ofNat 4 7) (-invertOdd 7)) ∧
    (∀ a : Uint 4, montgomeryRetrieve a (Uint.ofNat 4 7) (-invertOdd 7)
      = if 0 < a.toNat ∧ (Uint.ofNat 4 7).toNat ∣ a.toNat then Uint.ofNat 4 7
        else mulMontgomeryForm a (Uint.ofNat 4 1) (Uint.ofNat 4 7) (-invertOdd 7)) :=
  reductions_agree (Uint.ofNat 4 7) (-invertOdd 7)
    (negInv_invertOdd (Uint.ofNat 4 7) (by decide)) (by decide)

/-- What is precomputed for an odd modulus is right, over any division that is,
    and an integer that enters and leaves again has been reduced. -/
theorem retrieve_new (remVartime squareModVartime : Uint n → Uint n → Uint n)
    (hrem : ∀ a m : Uint n, 0 < m.toNat → (remVartime a m).toNat = a.toNat % m.toNat)
    (hsquare : ∀ a m : Uint n, 0 < m.toNat →
      (squareModVartime a m).toNat = a.toNat ^ 2 % m.toNat)
    (modulus : Uint n) (hodd : modulus.toNat % 2 = 1) :
    (MontyParams.newVartime remVartime squareModVartime modulus).Valid modulus.toNat ∧
      ∀ integer : Uint n,
        (FixedMontyForm.new integer : FixedMontyForm
          (MontyParams.newVartime remVartime squareModVartime modulus)).retrieve.toNat
          = integer.toNat % modulus.toNat := by
  have hvalid := MontyParams.newVartime_valid remVartime squareModVartime hrem hsquare modulus hodd
  refine ⟨hvalid, fun integer => ?_⟩
  have : NeZero modulus.toNat := ⟨by omega⟩
  have hnew := FixedMontyForm.Represents.new hvalid integer
  rw [FixedMontyForm.Represents.toNat_retrieve hvalid hnew]
  rfl

theorem retrieve_new_seven :
    (MontyParams.newVartime (fun a m => Uint.ofNat 2 (a.toNat % m.toNat))
        (fun a m => Uint.ofNat 2 (a.toNat ^ 2 % m.toNat)) (Uint.ofNat 2 7)).Valid
        (Uint.ofNat 2 7).toNat ∧
      ∀ integer : Uint 2,
        (FixedMontyForm.new integer : FixedMontyForm
          (MontyParams.newVartime (fun a m => Uint.ofNat 2 (a.toNat % m.toNat))
            (fun a m => Uint.ofNat 2 (a.toNat ^ 2 % m.toNat)) (Uint.ofNat 2 7))).retrieve.toNat
          = integer.toNat % (Uint.ofNat 2 7).toNat :=
  retrieve_new _ _
    (fun a m hpos => Uint.toNat_ofNat_of_lt _ ((Nat.mod_lt a.toNat hpos).trans m.toNat_lt))
    (fun a m hpos => Uint.toNat_ofNat_of_lt _ ((Nat.mod_lt (a.toNat ^ 2) hpos).trans m.toNat_lt))
    (Uint.ofNat 2 7) (by decide)

/-- The properties the library states for a product that is reduced only if it
    overflows, in the form in which they hold. It exceeds neither factor by the
    modulus, so it is short of at most one subtraction more than the better of
    them. With the factor one it comes to at most the modulus, and to the
    modulus for nonzero multiples only. A square is short of at most one
    subtraction if it is below the modulus times the factor. -/
theorem almost_products (modulus : Uint n) (modNegInv : Limb)
    (hinv : NegInv modulus.limbs modNegInv) (hodd : modulus.toNat % 2 = 1) :
    (∀ x y : Uint n, (almostMontgomeryMul x y modulus modNegInv).toNat
      < min x.toNat y.toNat + modulus.toNat) ∧
    (∀ x y : Uint n, (almostMontgomeryMul x y modulus modNegInv).toNat / modulus.toNat
      ≤ min (x.toNat / modulus.toNat) (y.toNat / modulus.toNat) + 1) ∧
    (∀ x : Uint n,
      (almostMontgomeryMul x (Uint.ofNat n 1) modulus modNegInv).toNat ≤ modulus.toNat ∧
        ((almostMontgomeryMul x (Uint.ofNat n 1) modulus modNegInv).toNat = modulus.toNat ↔
          0 < x.toNat ∧ modulus.toNat ∣ x.toNat)) ∧
    (∀ x : Uint n, x.toNat ^ 2 < (2 ^ 64) ^ n * modulus.toNat →
      (almostMontgomeryMul x x modulus modNegInv).toNat / modulus.toNat ≤ 1) := by
  have hpos : 0 < modulus.toNat := by omega
  have hlt := modulus.toNat_lt
  refine ⟨fun x y => almostMontgomeryMul_lt x y hinv hpos,
    fun x y => almostMontgomeryMul_div_le x y hinv hpos, ?_, ?_⟩
  · intro x
    have hone : (Uint.ofNat n 1).toNat = 1 := Uint.toNat_ofNat_of_lt 1 (by omega)
    rcases toNat_almostMontgomeryMul x (Uint.ofNat n 1) hinv hpos with ⟨Z, hZ, _, hmul⟩
    rw [hone, Nat.mul_one] at hZ
    have hle := hZ.le_modulus hpos x.toNat_lt
    -- Nothing overflows, so nothing is subtracted.
    have hkeep : dropOverflow ((2 ^ 64) ^ n) modulus.toNat Z = Z := if_pos (by omega)
    rw [hmul, hkeep]
    exact ⟨hle, hZ.eq_modulus_iff (coprime_factor _ hodd) hpos x.toNat_lt⟩
  · intro x hsq
    rcases toNat_almostMontgomeryMul x x hinv hpos with ⟨Z, hZ, _, hmul⟩
    have h2 := hZ.lt_add_one_mul hpos 1 (by rw [Nat.one_mul, ← sq]; exact hsq)
    -- A subtraction on overflow only makes it smaller.
    rw [hmul]
    refine Nat.lt_succ_iff.mp ((Nat.div_lt_iff_lt_mul hpos).mpr ?_)
    exact Nat.lt_of_le_of_lt (dropOverflow_le Z) h2

theorem almost_products_seven :
    (∀ x y : Uint 1, (almostMontgomeryMul x y (Uint.ofNat 1 7) (-invertOdd 7)).toNat
      < min x.toNat y.toNat + (Uint.ofNat 1 7).toNat) ∧
    (∀ x y : Uint 1, (almostMontgomeryMul x y (Uint.ofNat 1 7) (-invertOdd 7)).toNat
        / (Uint.ofNat 1 7).toNat
      ≤ min (x.toNat / (Uint.ofNat 1 7).toNat) (y.toNat / (Uint.ofNat 1 7).toNat) + 1) ∧
    (∀ x : Uint 1,
      (almostMontgomeryMul x (Uint.ofNat 1 1) (Uint.ofNat 1 7) (-invertOdd 7)).toNat
          ≤ (Uint.ofNat 1 7).toNat ∧
        ((almostMontgomeryMul x (Uint.ofNat 1 1) (Uint.ofNat 1 7) (-invertOdd 7)).toNat
            = (Uint.ofNat 1 7).toNat ↔
          0 < x.toNat ∧ (Uint.ofNat 1 7).toNat ∣ x.toNat)) ∧
    (∀ x : Uint 1, x.toNat ^ 2 < (2 ^ 64) ^ 1 * (Uint.ofNat 1 7).toNat →
      (almostMontgomeryMul x x (Uint.ofNat 1 7) (-invertOdd 7)).toNat / (Uint.ofNat 1 7).toNat
        ≤ 1) :=
  almost_products (Uint.ofNat 1 7) (-invertOdd 7)
    (negInv_invertOdd (Uint.ofNat 1 7) (by decide)) (by decide)

/-- Larger squares may be short of many subtractions. -/
example :
    (almostMontgomeryMul (Uint.ofNat 1 (2 ^ 64 - 1)) (Uint.ofNat 1 (2 ^ 64 - 1)) (Uint.ofNat 1 7)
      (-invertOdd 7)).toNat / (Uint.ofNat 1 7).toNat = 2635249153387078801 := by
  decide +kernel

/-- Repeated squaring gives the plain squares if the modulus leaves two bits of
    the highest limb free or none, and is congruent to them in any case. -/
theorem squareRepeat_is_iterated_square (modulus : Uint n) (modNegInv : Limb)
    (hinv : NegInv modulus.limbs modNegInv) (hodd : modulus.toNat % 2 = 1) (a : Uint n)
    (ha : a.toNat < modulus.toNat) (times : ℕ) :
    ((squareRepeatMontgomeryForm a times modulus modNegInv).toNat
      ≡ ((fun z => squareMontgomeryForm z modulus modNegInv)^[times] a).toNat
        [MOD modulus.toNat]) ∧
    (4 * modulus.toNat ≤ (2 ^ 64) ^ n ∨ (2 ^ 64) ^ n ≤ 2 * modulus.toNat →
      squareRepeatMontgomeryForm a times modulus modNegInv
        = (fun z => squareMontgomeryForm z modulus modNegInv)^[times] a) := by
  have hcoprime := coprime_factor (n := n) _ hodd
  -- The residue that the integer stands for.
  obtain ⟨x, hx⟩ : ∃ x : ZMod modulus.toNat,
      Form ((2 ^ 64) ^ n) modulus.toNat a.toNat x := by
    rcases (Form.isUnit_factor hcoprime).exists_right_inv with ⟨y, hy⟩
    exact ⟨y * (a.toNat : ZMod modulus.toNat), ha, by rw [← mul_assoc, hy, one_mul]⟩
  have hplain : ∀ t, Form ((2 ^ 64) ^ n) modulus.toNat
      ((fun z => squareMontgomeryForm z modulus modNegInv)^[t] a).toNat (x ^ 2 ^ t) := by
    intro t
    induction t with
    | zero => simpa using hx
    | succ t ih =>
        rw [Function.iterate_succ_apply', squareMontgomeryForm_eq _ _ _ hinv hodd, pow_succ 2 t,
          Nat.mul_two, pow_add]
        exact form_mulMontgomeryForm _ _ hinv hodd ih.cast ih
  have hcast := cast_squareRepeat a times hinv hodd hx.cast
  refine ⟨?_, fun hbits => ?_⟩
  · rw [← ZMod.natCast_eq_natCast_iff, hcast, (hplain times).cast]
  · -- Reduced representatives of one residue are equal.
    have hform := form_squareRepeat a times hinv hodd hbits hx
    exact Uint.toNat_injective _ _ (Form.unique hform (hplain times))

theorem squareRepeat_is_iterated_square_seven :
    ((squareRepeatMontgomeryForm (Uint.ofNat 2 5) 6 (Uint.ofNat 2 7) (-invertOdd 7)).toNat
      ≡ ((fun z => squareMontgomeryForm z (Uint.ofNat 2 7) (-invertOdd 7))^[6]
          (Uint.ofNat 2 5)).toNat [MOD (Uint.ofNat 2 7).toNat]) ∧
    (4 * (Uint.ofNat 2 7).toNat ≤ (2 ^ 64) ^ 2 ∨ (2 ^ 64) ^ 2 ≤ 2 * (Uint.ofNat 2 7).toNat →
      squareRepeatMontgomeryForm (Uint.ofNat 2 5) 6 (Uint.ofNat 2 7) (-invertOdd 7)
        = (fun z => squareMontgomeryForm z (Uint.ofNat 2 7) (-invertOdd 7))^[6]
            (Uint.ofNat 2 5)) :=
  squareRepeat_is_iterated_square (Uint.ofNat 2 7) (-invertOdd 7)
    (negInv_invertOdd (Uint.ofNat 2 7) (by decide)) (by decide) (Uint.ofNat 2 5) (by decide) 6

/-- A modulus of 63 bits in one limb, which leaves one bit free, and a reduced
    integer whose repeated square is not reduced. -/
example :
    (squareRepeatMontgomeryForm (Uint.ofNat 1 7604327084303590872) 4
      (Uint.ofNat 1 7604327084303591071) (-invertOdd 7604327084303591071)).toNat
      ≥ 7604327084303591071 := by
  decide +kernel

section Stored

open FixedMontyForm

variable {params : MontyParams n} {m : ℕ} [NeZero m]

/-- A reduced integer that stands for a residue retrieves to it. -/
theorem retrieve_of_form (hparams : params.Valid m) (a : FixedMontyForm params) {x : ZMod m}
    (ha : Form ((2 ^ 64) ^ n) m a.montgomeryForm.toNat x) : a.retrieve.toNat = x.val := by
  have hrep : Represents a (ConstMontyForm.ofNat m x.val) := by
    unfold Represents
    rw [ConstMontyForm.toZMod_ofNat_val]
    exact ha
  rw [Represents.toNat_retrieve hparams hrep]
  exact Nat.mod_eq_of_lt x.val_lt

/-- Several powers multiplied in constant time, for any number of bases, any
    exponents and any bound on their bits: the product of the powers by the
    bits below the bound, reduced, whatever the modulus. Without bases it is a
    panic. -/
theorem multi_exponentiation (hparams : params.Valid m)
    (l : List (FixedMontyForm params × Uint k)) (rs : List (ConstMontyForm m))
    (hl : List.Forall₂ (fun q r => Represents q.1 r) l rs) (exponentBits : ℕ) :
    (l = [] → multiExponentiateBoundedExp l exponentBits = none) ∧
    (l ≠ [] → ∃ z, multiExponentiateBoundedExp l exponentBits = some z ∧
      z.montgomeryForm.toNat < m ∧
      z.retrieve.toNat = (List.zipWith
        (fun (r : ConstMontyForm m) (q : FixedMontyForm params × Uint k) =>
          r.residue ^ (q.2.toNat % 2 ^ exponentBits)) rs l).prod % m) := by
  constructor
  · intro hnil
    exact if_pos hnil
  · intro hne
    rcases hparams.modulus with rfl
    have hforms : List.Forall₂
        (fun q x => Form ((2 ^ 64) ^ n) params.modulus.toNat q.1.toNat x)
        (l.map fun q => (q.1.montgomeryForm, q.2)) (rs.map ConstMontyForm.toZMod) := by
      rw [List.forall₂_map_left_iff, List.forall₂_map_right_iff]
      exact hl
    rcases multiExponentiateMontgomeryForm_spec false hparams _ _ exponentBits hforms
        with ⟨hcast, hlt⟩
    -- The last of the products is reduced, and there is one.
    have hreduced := hlt (Or.inl ⟨rfl, by simpa using hne⟩)
    have hprod : powerProduct (rs.map ConstMontyForm.toZMod)
        ((l.map fun q => (q.1.montgomeryForm, q.2)).map Prod.snd) exponentBits
        = ((List.zipWith
          (fun (r : ConstMontyForm params.modulus.toNat) (q : FixedMontyForm params × Uint k) =>
            r.residue ^ (q.2.toNat % 2 ^ exponentBits)) rs l).prod : ℕ) := by
      unfold powerProduct
      rw [Nat.cast_list_prod, List.map_zipWith, List.map_map, List.zipWith_map_left,
        List.zipWith_map_right]
      simp only [Nat.cast_pow]
      rfl
    rw [hprod] at hcast
    refine ⟨_, if_neg hne, hreduced, ?_⟩
    exact (retrieve_of_form hparams _ ⟨hreduced, hcast⟩).trans (ZMod.val_natCast _ _)

theorem multi_exponentiation_field :
    ([((FixedMontyForm.new (Uint.ofNat 5 3) : FixedMontyForm fieldParams), Uint.ofNat 1 5),
        (FixedMontyForm.new (Uint.ofNat 5 2), Uint.ofNat 1 9)] = [] →
      multiExponentiateBoundedExp
        [((FixedMontyForm.new (Uint.ofNat 5 3) : FixedMontyForm fieldParams), Uint.ofNat 1 5),
          (FixedMontyForm.new (Uint.ofNat 5 2), Uint.ofNat 1 9)] 4 = none) ∧
    ([((FixedMontyForm.new (Uint.ofNat 5 3) : FixedMontyForm fieldParams), Uint.ofNat 1 5),
        (FixedMontyForm.new (Uint.ofNat 5 2), Uint.ofNat 1 9)] ≠ [] →
      ∃ z, multiExponentiateBoundedExp
          [((FixedMontyForm.new (Uint.ofNat 5 3) : FixedMontyForm fieldParams), Uint.ofNat 1 5),
            (FixedMontyForm.new (Uint.ofNat 5 2), Uint.ofNat 1 9)] 4 = some z ∧
        z.montgomeryForm.toNat < fieldModulus ∧
        z.retrieve.toNat = (List.zipWith
          (fun (r : ConstMontyForm fieldModulus) (q : FixedMontyForm fieldParams × Uint 1) =>
            r.residue ^ (q.2.toNat % 2 ^ 4))
          [ConstMontyForm.ofNat fieldModulus (Uint.ofNat 5 3).toNat,
            ConstMontyForm.ofNat fieldModulus (Uint.ofNat 5 2).toNat]
          [((FixedMontyForm.new (Uint.ofNat 5 3) : FixedMontyForm fieldParams), Uint.ofNat 1 5),
            (FixedMontyForm.new (Uint.ofNat 5 2), Uint.ofNat 1 9)]).prod % fieldModulus) :=
  multi_exponentiation fieldParams_valid _ _
    (List.Forall₂.cons (Represents.new fieldParams_valid (Uint.ofNat 5 3))
      (List.Forall₂.cons (Represents.new fieldParams_valid (Uint.ofNat 5 2)) List.Forall₂.nil)) 4

/-- The power in constant time is the power by the bits that are read, reduced,
    whatever the modulus. By almost reduced products it is the same integer.
    In variable time it is the same integer if the modulus leaves two bits of
    the highest limb free or none, and congruent in any case. -/
theorem powers_agree (hparams : params.Valid m) (a : FixedMontyForm params) (r : ConstMontyForm m)
    (ha : Represents a r) :
    (∀ (k : ℕ) (e : Uint k) (exponentBits : ℕ),
      (a.powBoundedExp e exponentBits).montgomeryForm.toNat < m ∧
      (a.powBoundedExp e exponentBits).retrieve.toNat
        = r.residue ^ (e.toNat % 2 ^ exponentBits) % m) ∧
    (∀ (e : Uint n) (exponentBits : ℕ),
      a.powAmmBoundedExp e exponentBits = a.powBoundedExp e exponentBits) ∧
    (∀ e : Uint n, a.powAmm e = a.pow e) ∧
    (∀ (k : ℕ) (e : Uint k),
      ((a.powVartime e).montgomeryForm.toNat ≡ (a.pow e).montgomeryForm.toNat [MOD m]) ∧
      (4 * m ≤ (2 ^ 64) ^ n ∨ (2 ^ 64) ^ n ≤ 2 * m → a.powVartime e = a.pow e)) := by
  -- Both powers are reduced residues of the same power, hence the same integer.
  have hamm : ∀ (e : Uint n) (bits : ℕ), a.powAmmBoundedExp e bits = a.powBoundedExp e bits :=
    fun e bits => ext_montgomeryForm _ _
      (Form.unique (Represents.powAmmBoundedExp hparams ha e bits)
        (Represents.powBoundedExp hparams ha e bits))
  refine ⟨fun k e bits => ?_, hamm, fun e => hamm e (64 * n), fun k e => ?_⟩
  · have hpow := Represents.powBoundedExp hparams ha e bits
    have hcast : r.toZMod ^ (e.toNat % 2 ^ bits)
        = ((r.residue ^ (e.toNat % 2 ^ bits) : ℕ) : ZMod m) := (Nat.cast_pow _ _).symm
    refine ⟨hpow.lt, ?_⟩
    rw [retrieve_of_form hparams _ hpow, hcast, ZMod.val_natCast]
  · -- All bits of the exponent are read, so none is cut off.
    have hpow := Represents.powBoundedExp hparams ha e (64 * k)
    have hlt := e.toNat_lt
    rw [← pow_mul] at hlt
    rw [Nat.mod_eq_of_lt hlt] at hpow
    rcases Represents.powVartime hparams ha e with ⟨hcast, hreduced⟩
    refine ⟨?_, fun hbits => ?_⟩
    · rw [← ZMod.natCast_eq_natCast_iff, hcast]
      exact hpow.cast.symm
    · exact ext_montgomeryForm _ _ (Form.unique ⟨hreduced hbits, hcast⟩ hpow)

theorem powers_agree_field :
    (∀ (k : ℕ) (e : Uint k) (exponentBits : ℕ),
      ((FixedMontyForm.new (Uint.ofNat 5 3) : FixedMontyForm fieldParams).powBoundedExp e
        exponentBits).montgomeryForm.toNat < fieldModulus ∧
      ((FixedMontyForm.new (Uint.ofNat 5 3) : FixedMontyForm fieldParams).powBoundedExp e
        exponentBits).retrieve.toNat
        = (ConstMontyForm.ofNat fieldModulus (Uint.ofNat 5 3).toNat).residue
            ^ (e.toNat % 2 ^ exponentBits) % fieldModulus) ∧
    (∀ (e : Uint 5) (exponentBits : ℕ),
      (FixedMontyForm.new (Uint.ofNat 5 3) : FixedMontyForm fieldParams).powAmmBoundedExp e
          exponentBits
        = (FixedMontyForm.new (Uint.ofNat 5 3) : FixedMontyForm fieldParams).powBoundedExp e
          exponentBits) ∧
    (∀ e : Uint 5,
      (FixedMontyForm.new (Uint.ofNat 5 3) : FixedMontyForm fieldParams).powAmm e
        = (FixedMontyForm.new (Uint.ofNat 5 3) : FixedMontyForm fieldParams).pow e) ∧
    (∀ (k : ℕ) (e : Uint k),
      (((FixedMontyForm.new (Uint.ofNat 5 3) : FixedMontyForm fieldParams).powVartime
          e).montgomeryForm.toNat
        ≡ ((FixedMontyForm.new (Uint.ofNat 5 3) : FixedMontyForm fieldParams).pow
          e).montgomeryForm.toNat [MOD fieldModulus]) ∧
      (4 * fieldModulus ≤ (2 ^ 64) ^ 5 ∨ (2 ^ 64) ^ 5 ≤ 2 * fieldModulus →
        (FixedMontyForm.new (Uint.ofNat 5 3) : FixedMontyForm fieldParams).powVartime e
          = (FixedMontyForm.new (Uint.ofNat 5 3) : FixedMontyForm fieldParams).pow e)) :=
  powers_agree fieldParams_valid _ _ (Represents.new fieldParams_valid (Uint.ofNat 5 3))

end Stored

/-- The same modulus, and a power in variable time that is not the integer the
    power in constant time is. -/
example :
    let params := MontyParams.ofModulus (Uint.ofNat 1 7604327084303591071)
    let a : FixedMontyForm params := ⟨Uint.ofNat 1 7604327084303590872⟩
    (a.powVartime (Uint.ofNat 1 16)).montgomeryForm.toNat ≥ 7604327084303591071 ∧
      (a.pow (Uint.ofNat 1 16)).montgomeryForm.toNat < 7604327084303591071 := by
  decide +kernel

end Ed301
