import Ed301.Refine.Extended
import Ed301.Refine.Field
import Ed301.Refine.Safegcd

/-!
# Inversion and Greatest Common Divisors

What the division steps compute, for numbers of any number of limbs.

Two things have to be told apart. That a result is right if there is one holds
for all inputs: the loop keeps the common divisors and the coefficients, however
far it got. That there is a result whenever there should be one rests on the
number of steps. The bound that the library takes for it comes from a
computation over all short runs. A quadratic form that shrinks with each step
gives a slightly weaker one, which covers numbers of up to 60 bits for each
limb, and the field.

The number of steps is computed in 32 bits. It wraps from 1462 limbs on and is
far too small there, so this second kind of result is for at most 1461 limbs.

## Theorems

* `inverse_sound`: A result is the inverse times the factor.
* `inversions_agree`: Constant time and variable time agree.
* `inverse_decides`: There is a result exactly if there is an inverse.
* `gcd_of_odd`: The greatest common divisor.
* `inverse_on_limbs`: The inverse in the field.
-/

namespace Ed301

open Limbs Montgomery Safegcd FixedMontyForm

variable {n : ℕ}

/-- If there is a result it is the inverse times the factor, reduced, and the
    input is nonzero and coprime to the modulus. This holds for every number of
    limbs, since it does not matter how many steps were taken. -/
theorem inverse_sound (vartime : Bool) (a m : Uint n) (mi : Limb) (e : Uint n)
    (hodd : m.toNat % 2 = 1) (hmi : m.toNat * mi.toNat % 2 ^ 64 = 1) (he : e.toNat ≤ m.toNat)
    (hsome : (invertOddModPrecomp vartime a m mi e).isSome = true) :
    (invertOddModPrecomp vartime a m mi e).value.toNat < m.toNat ∧
      (invertOddModPrecomp vartime a m mi e).value.toNat * a.toNat ≡ e.toNat [MOD m.toNat] ∧
      a.toNat ≠ 0 ∧ m.toNat.Coprime a.toNat := by
  rcases invertOddModPrecomp_spec vartime a m mi e hodd hmi he with ⟨hlt, hiff, hmul⟩
  -- A last number of one or minus one leaves the factor alone.
  rcases hiff.mp hsome with ⟨hlast, hne⟩
  rw [hlast, one_mul] at hmul
  exact ⟨hlt, by exact_mod_cast hmul, hne, coprime_of_lastNumber _ _ _ hodd hlast⟩

theorem inverse_sound_seven :
    (invertOddModPrecomp true (Uint.ofNat 1 3) (Uint.ofNat 1 7) (invertOdd 7)
        (Uint.ofNat 1 2)).value.toNat < (Uint.ofNat 1 7).toNat ∧
      (invertOddModPrecomp true (Uint.ofNat 1 3) (Uint.ofNat 1 7) (invertOdd 7)
        (Uint.ofNat 1 2)).value.toNat * (Uint.ofNat 1 3).toNat
          ≡ (Uint.ofNat 1 2).toNat [MOD (Uint.ofNat 1 7).toNat] ∧
      (Uint.ofNat 1 3).toNat ≠ 0 ∧ (Uint.ofNat 1 7).toNat.Coprime (Uint.ofNat 1 3).toNat :=
  inverse_sound true _ _ _ _ (by decide) (by decide) (by decide) (by decide +kernel)

/-- The version in variable time, which stops at zero and branches in each
    step, has the same result as the one in constant time. -/
theorem inversions_agree (a m : Uint n) (mi : Limb) (e : Uint n) (hodd : m.toNat % 2 = 1)
    (hmi : m.toNat * mi.toNat % 2 ^ 64 = 1) (he : e.toNat ≤ m.toNat) :
    (invertOddModPrecomp true a m mi e).intoOptionCopied
      = (invertOddModPrecomp false a m mi e).intoOptionCopied := by
  rcases invertOddModPrecomp_spec true a m mi e hodd hmi he with ⟨hlt, hiff, hmul⟩
  rcases invertOddModPrecomp_spec false a m mi e hodd hmi he with ⟨hlt', hiff', hmul'⟩
  have hsame : (invertOddModPrecomp true a m mi e).isSome
      = (invertOddModPrecomp false a m mi e).isSome := by
    rw [Bool.eq_iff_iff, hiff, hiff']
  unfold CtOption.intoOptionCopied
  rw [hsame]
  by_cases hsome : (invertOddModPrecomp false a m mi e).isSome = true
  · rw [if_pos hsome, if_pos hsome]
    -- Beside a coprime factor the two values are congruent, and both are reduced.
    have hcoprime := coprime_of_lastNumber _ _ _ hodd (hiff'.mp hsome).1
    have hscaled := hmul.trans hmul'.symm
    have hcong : (invertOddModPrecomp true a m mi e).value.toNat
        ≡ (invertOddModPrecomp false a m mi e).value.toNat [MOD m.toNat] :=
      Nat.ModEq.cancel_right_of_coprime hcoprime (by exact_mod_cast hscaled)
    rw [Uint.toNat_injective _ _ (Nat.ModEq.eq_of_lt_of_lt hcong hlt hlt')]
  · rw [if_neg hsome, if_neg hsome]

theorem inversions_agree_seven :
    (invertOddModPrecomp true (Uint.ofNat 1 3) (Uint.ofNat 1 7) (invertOdd 7)
        (Uint.ofNat 1 2)).intoOptionCopied
      = (invertOddModPrecomp false (Uint.ofNat 1 3) (Uint.ofNat 1 7) (invertOdd 7)
        (Uint.ofNat 1 2)).intoOptionCopied :=
  inversions_agree _ _ _ _ (by decide) (by decide) (by decide)

/-- The inverse modulo an odd number, with the word computed from its lowest
    limb: for numbers of at most 1461 limbs that leave four bits of each limb
    free there is one exactly if the input is nonzero and coprime to the
    modulus, in both versions. -/
theorem inverse_decides (vartime : Bool) (a m : Uint n) (hodd : m.toNat % 2 = 1)
    (hn : n ≤ 1461) (ha : a.toNat ≤ 2 ^ (60 * n))
    (hm : m.toNat ≤ 2 ^ (60 * n)) :
    ((invertOddMod vartime a m).isSome = true ↔ a.toNat ≠ 0 ∧ m.toNat.Coprime a.toNat) ∧
      (m.toNat.Coprime a.toNat → (invertOddMod vartime a m).value.toNat < m.toNat ∧
        (invertOddMod vartime a m).value.toNat * a.toNat ≡ 1 [MOD m.toNat]) := by
  have hlt := m.toNat_lt
  have hone : (Uint.ofNat n 1).toNat = 1 := Uint.toNat_ofNat_of_lt 1 (by omega)
  -- Enough steps make the last number the greatest common divisor.
  have hgcd := lastNumber_gcd _ m a hodd _ hm ha (iterations_enough n hn)
  rcases invertOddModPrecomp_spec vartime a m (invertOdd (m.limbs.headD 0)) (Uint.ofNat n 1) hodd
    (mul_mod_of_negInv _ _ (negInv_invertOdd m hodd)) (by omega) with ⟨hval, hiff, hmul⟩
  rw [hgcd] at hiff hmul
  rw [hone] at hmul
  unfold invertOddMod
  refine ⟨?_, fun hcoprime => ⟨hval, ?_⟩⟩
  · rw [hiff, and_comm]
    exact and_congr_right fun _ => Nat.cast_eq_one
  · rw [hcoprime.gcd_eq_one] at hmul
    exact_mod_cast hmul

/-- Six has no inverse modulo fifteen, and seven has one. -/
theorem inverse_decides_fifteen :
    ¬ (invertOddMod false (Uint.ofNat 1 6) (Uint.ofNat 1 15)).isSome = true ∧
      (invertOddMod true (Uint.ofNat 1 7) (Uint.ofNat 1 15)).isSome = true ∧
      (invertOddMod true (Uint.ofNat 1 7) (Uint.ofNat 1 15)).value.toNat
        * (Uint.ofNat 1 7).toNat ≡ 1 [MOD (Uint.ofNat 1 15).toNat] := by
  rcases inverse_decides false (Uint.ofNat 1 6) (Uint.ofNat 1 15) (by decide) (by decide)
    (by decide) (by decide) with ⟨hsix, _⟩
  rcases inverse_decides true (Uint.ofNat 1 7) (Uint.ofNat 1 15) (by decide) (by decide)
    (by decide) (by decide) with ⟨hseven, hvalue⟩
  have hcoprime : (Uint.ofNat 1 15).toNat.Coprime (Uint.ofNat 1 7).toNat := by decide
  refine ⟨fun h => absurd (hsix.mp h).2 (by decide), hseven.mpr ⟨by decide, hcoprime⟩, ?_⟩
  exact (hvalue hcoprime).2

/-- The two versions of the greatest common divisor never fail on an odd number
    and have one result. It is odd and the greatest common divisor divides it,
    and it is that if four bits of each limb are free, up to 1461 limbs. -/
theorem gcd_of_odd (f g : Uint n) (hodd : f.toNat % 2 = 1) :
    ∃ r, gcdOdd true f g = some r ∧ gcdOdd false f g = some r ∧ r.toNat % 2 = 1 ∧
      f.toNat.gcd g.toNat ∣ r.toNat ∧
      (n ≤ 1461 → f.toNat ≤ 2 ^ (60 * n) → g.toNat ≤ 2 ^ (60 * n) →
        r.toNat = f.toNat.gcd g.toNat) := by
  rcases gcdOdd_spec true f g hodd with ⟨r, hr, hvalue⟩
  rcases gcdOdd_spec false f g hodd with ⟨r', hr', hvalue'⟩
  have hsame : r' = r := Uint.toNat_injective _ _ (by exact_mod_cast hvalue'.trans hvalue.symm)
  rw [hsame] at hr'
  have hparity := lastNumber_odd (iterations (64 * n)) f g hodd
  have hdvd := gcd_dvd_lastNumber (iterations (64 * n)) f g hodd
  refine ⟨r, hr, hr', ?_, ?_, fun hn hf hg => ?_⟩
  · rw [Int.abs_eq_natAbs] at hvalue
    omega
  · rw [← Int.natCast_dvd_natCast, hvalue, dvd_abs]
    exact hdvd
  · have hgcd := lastNumber_gcd _ f g hodd _ hf hg (iterations_enough n hn)
    rw [hgcd] at hvalue
    exact_mod_cast hvalue

theorem gcd_of_odd_fifteen :
    ∃ r, gcdOdd true (Uint.ofNat 1 15) (Uint.ofNat 1 6) = some r ∧
      gcdOdd false (Uint.ofNat 1 15) (Uint.ofNat 1 6) = some r ∧ r.toNat % 2 = 1 ∧
      (Uint.ofNat 1 15).toNat.gcd (Uint.ofNat 1 6).toNat ∣ r.toNat ∧
      (1 ≤ 1461 → (Uint.ofNat 1 15).toNat ≤ 2 ^ (60 * 1) →
        (Uint.ofNat 1 6).toNat ≤ 2 ^ (60 * 1) →
        r.toNat = (Uint.ofNat 1 15).toNat.gcd (Uint.ofNat 1 6).toNat) :=
  gcd_of_odd _ _ (by decide)

/-- The inverse in the field on limbs, in both versions: it is present exactly
    when the model's is, that is for all elements but zero, and stands for
    it. -/
theorem inverse_on_limbs (a : FixedMontyForm fieldParams) (b : FieldElement)
    (h : Represents a b.inner) :
    a.invert.isSome = b.invert.isSome ∧ a.invertVartime.isSome = b.invert.isSome ∧
      (b.invert.isSome = true ↔ b.toZMod ≠ 0) ∧
      (b.invert.isSome = true → Represents a.invert.value b.invert.value.inner ∧
        Represents a.invertVartime.value b.invert.value.inner) := by
  have hversion : ∀ vartime, (invertOddModPrecomp vartime a.montgomeryForm fieldParams.modulus
      fieldParams.modInv fieldParams.r2).isSome = b.inner.invert.isSome := fun vartime =>
    Represents.invert_isSome fieldParams_valid h vartime (by decide) (by decide +kernel)
  refine ⟨hversion false, hversion true, b.invert_isSome_iff, fun hsome => ⟨?_, ?_⟩⟩
  · exact (Represents.invert fieldParams_valid h false ((hversion false).trans hsome)).2
  · exact (Represents.invert fieldParams_valid h true ((hversion true).trans hsome)).2

theorem inverse_on_limbs_four :
    (FieldElement.fromU64 4).inner.store.invert.isSome
        = (FieldElement.fromU64 4).invert.isSome ∧
      (FieldElement.fromU64 4).inner.store.invertVartime.isSome
        = (FieldElement.fromU64 4).invert.isSome ∧
      ((FieldElement.fromU64 4).invert.isSome = true ↔ (FieldElement.fromU64 4).toZMod ≠ 0) ∧
      ((FieldElement.fromU64 4).invert.isSome = true →
        Represents (FieldElement.fromU64 4).inner.store.invert.value
          (FieldElement.fromU64 4).invert.value.inner ∧
        Represents (FieldElement.fromU64 4).inner.store.invertVartime.value
          (FieldElement.fromU64 4).invert.value.inner) :=
  inverse_on_limbs _ _ (FieldElement.fromU64 4).inner.represents_store

end Ed301
